import Landbase.Sql.Expression

/-! # Conditions of a `SELECT`

What becomes of the conditions of a `WHERE` clause and of the `ON` lists of joins: the actions of `condition_list` in
`sql/parser/yacc_sql.y`, `SelectStmt::create`, `FilterStmt::create` and `LogicalPlanGenerator::create_plan(FilterStmt)`.

The grammar chains conditions by `AND` and `OR` in any mixture, but the parser means lists with one connective only (the
comment at `ConditionSqlNode::has_or`): the connective in front of a condition's successor is stored with the condition,
the list is built from its end, and `has_or` of the second entry is taken for all. A single condition is what
`create_filter_unit` and the plan generator make of it, an expression or an error.
-/

namespace Landbase.Sql
set_option autoImplicit false

/-! ## The grammar -/

inductive CompOp
  | equalTo | lessEqual | notEqual | lessThan | greatEqual | greatThan | like | notLike | is | isNot | in | notIn
  | exists | notExists | noOp
  deriving DecidableEq, Repr

/-- The two sides of a condition are `ParseExpr`s. -/
structure Condition (E : Type) where
  left : E
  comp : CompOp
  right : E
  deriving DecidableEq

/-- `ConditionSqlNode`. -/
structure ConditionSqlNode (E : Type) where
  condition : Condition E
  hasOr : Bool
  deriving DecidableEq

/-- `condition_list`. -/
inductive ConditionList (E : Type)
  | empty
  | one (c : Condition E)
  | and (c : Condition E) (rest : ConditionList E)
  | or (c : Condition E) (rest : ConditionList E)

/-- `where`. -/
inductive Where (E : Type)
  | empty
  | exists (c : Condition E)
  | list (conditions : ConditionList E)

/-- The clauses of a `SELECT` that hold conditions: the `ON` lists of the joins, and `WHERE`. -/
structure SelectSyntax (E : Type) where
  joins : List (ConditionList E)
  where_ : Where E

/-- `SelectSqlNode`, of which only the conditions matter here. -/
structure SelectSqlNode (E : Type) where
  conditions : List (ConditionSqlNode E)
  joinctions : List (List (ConditionSqlNode E))

variable {E : Type}

/-- The actions of `condition_list`: a vector or a null pointer. Appending to a null pointer is `none`. -/
def ConditionList.parse : ConditionList E → Option (Option (List (ConditionSqlNode E)))
  | .empty => some none
  | .one c => some (some [⟨c, false⟩])
  | .and c rest => rest.parse.bind fun conditions => conditions.map fun conditions => some (conditions ++ [⟨c, false⟩])
  | .or c rest => rest.parse.bind fun conditions => conditions.map fun conditions => some (conditions ++ [⟨c, true⟩])

def Where.parse : Where E → Option (List (ConditionSqlNode E))
  | .empty => some []
  | .exists c => some [⟨c, false⟩]
  | .list conditions => conditions.parse.map fun nodes => nodes.getD []

/-- The actions of `join_node`, which copies from the pointer, and of `select_stmt`. -/
def SelectSyntax.parse (select : SelectSyntax E) : Option (SelectSqlNode E) := do
  let joinctions ← select.joins.mapM fun list => list.parse.join
  let conditions ← select.where_.parse
  some ⟨conditions, joinctions⟩

/-! ## The filter -/

/-- `FilterStmt`, with the expressions that the units become. -/
structure FilterStmt (T : Type) where
  filterUnits : List (Expression T)
  hasOr : Bool

variable {T : Type} (createFilterUnit : Condition E → Except RC (Expression T))

/-- `FilterStmt::create`. -/
def FilterStmt.create (conditions : List (ConditionSqlNode E)) : Except RC (FilterStmt T) := do
  let filterUnits ← conditions.mapM fun node => createFilterUnit node.condition
  return ⟨filterUnits, if 1 < conditions.length then (conditions.map ConditionSqlNode.hasOr).getD 1 false else false⟩

/-- The filter that `SelectStmt::create` makes: the conditions of the joins come behind those of `WHERE`. -/
def SelectSqlNode.createFilter (select : SelectSqlNode E) : Except RC (FilterStmt T) :=
  FilterStmt.create createFilterUnit (select.conditions ++ select.joinctions.flatten)

/-- `LogicalPlanGenerator::create_plan(FilterStmt)`: the predicate, if there is one. -/
def FilterStmt.createPlan (stmt : FilterStmt T) : Option (Expression T) :=
  if stmt.filterUnits.isEmpty then none
  else some (.conjunction (if stmt.hasOr then .or else .and) stmt.filterUnits)

/-- Whether a tuple passes; without a predicate every tuple does. -/
def passes (tuple : T) (predicate : Option (Expression T)) : Option Bool :=
  match predicate with
  | none => some true
  | some e => e.truth tuple

/-! ## What the clauses mean -/

namespace ConditionList

def conditions : ConditionList E → List (Condition E)
  | .empty => []
  | .one c => [c]
  | .and c rest | .or c rest => c :: rest.conditions

/-- The connectives, `true` for `OR`. -/
def connectives : ConditionList E → List Bool
  | .empty | .one _ => []
  | .and _ rest => false :: rest.connectives
  | .or _ rest => true :: rest.connectives

/-- There is a condition, and one behind every connective. -/
def Closed : ConditionList E → Prop
  | .empty => False
  | .one _ => True
  | .and _ rest | .or _ rest => rest.Closed

/-- The runs of conditions between two `OR`s. -/
def disjuncts : ConditionList E → List (List (Condition E))
  | .empty => []
  | .one c => [[c]]
  | .and c rest => rest.disjuncts.modifyHead (c :: ·)
  | .or c rest => [c] :: rest.disjuncts

/-- `AND` binds tighter than `OR`. -/
def Holds (v : Condition E → Prop) (list : ConditionList E) : Prop := ∃ group ∈ list.disjuncts, ∀ c ∈ group, v c

end ConditionList

namespace Where

def conditions : Where E → List (Condition E)
  | .empty => []
  | .exists c => [c]
  | .list conditions => conditions.conditions

def connectives : Where E → List Bool
  | .empty | .exists _ => []
  | .list conditions => conditions.connectives

def Closed : Where E → Prop
  | .empty | .exists _ | .list .empty => True
  | .list conditions => conditions.Closed

def Holds (v : Condition E → Prop) : Where E → Prop
  | .empty | .list .empty => True
  | .exists c => v c
  | .list conditions => conditions.Holds v

end Where

namespace SelectSyntax

/-- The conditions of the `WHERE` clause hold as they are chained, and all those of the joins. -/
def Holds (v : Condition E → Prop) (select : SelectSyntax E) : Prop :=
  (∀ list ∈ select.joins, ∀ c ∈ list.conditions, v c) ∧ select.where_.Holds v

/-- The lists that the parser gets through: an `ON` list is not empty, and no list ends with a connective. -/
def Closed (select : SelectSyntax E) : Prop := (∀ list ∈ select.joins, list.Closed) ∧ select.where_.Closed

/-- All connectives are `AND`; or there are no joins, and all connectives are `OR`. -/
def Uniform (select : SelectSyntax E) : Prop :=
  ((∀ list ∈ select.joins, ∀ b ∈ list.connectives, b = false) ∧ ∀ b ∈ select.where_.connectives, b = false) ∨
    (select.joins = [] ∧ ∀ b ∈ select.where_.connectives, b = true)

def conditions (select : SelectSyntax E) : List (Condition E) :=
  select.where_.conditions ++ (select.joins.map ConditionList.conditions).flatten

end SelectSyntax

/-! ## What the parser makes of them -/

namespace ConditionList

/-- The nodes in the order of the text. -/
def nodes : ConditionList E → List (ConditionSqlNode E)
  | .empty => []
  | .one c => [⟨c, false⟩]
  | .and c rest => ⟨c, false⟩ :: rest.nodes
  | .or c rest => ⟨c, true⟩ :: rest.nodes

variable {list : ConditionList E}

theorem map_nodes (list : ConditionList E) : list.nodes.map ConditionSqlNode.condition = list.conditions := by
  induction list with
  | empty => rfl
  | one c => rfl
  | and c rest ih => rw [nodes, List.map_cons, ih, conditions]
  | or c rest ih => rw [nodes, List.map_cons, ih, conditions]

theorem parse_eq (list : ConditionList E) (h : list.Closed) : list.parse = some (some list.nodes.reverse) := by
  induction list with
  | empty => exact h.elim
  | one c => rfl
  | and c rest ih => rw [parse, ih h, nodes, List.reverse_cons]; rfl
  | or c rest ih => rw [parse, ih h, nodes, List.reverse_cons]; rfl

theorem disjuncts_of_and (h : list.Closed) (hand : ∀ b ∈ list.connectives, b = false) :
    list.disjuncts = [list.conditions] ∧ ∀ node ∈ list.nodes, node.hasOr = false := by
  induction list with
  | empty => exact h.elim
  | one c => simp [disjuncts, conditions, nodes]
  | and c rest ih =>
    obtain ⟨hdisjuncts, hnodes⟩ := ih h fun b hb => hand b (List.mem_cons_of_mem _ hb)
    refine ⟨by rw [disjuncts, hdisjuncts]; rfl, ?_⟩
    intro node hnode
    rcases List.mem_cons.mp hnode with rfl | hnode
    · rfl
    · exact hnodes node hnode
  | or c rest ih => exact absurd (hand true List.mem_cons_self) (by decide)

theorem disjuncts_of_or (h : list.Closed) (hor : ∀ b ∈ list.connectives, b = true) :
    list.disjuncts = list.conditions.map ([·]) ∧
      ∃ last front, list.nodes.reverse = last :: front ∧ ∀ node ∈ front, node.hasOr = true := by
  induction list with
  | empty => exact h.elim
  | one c => exact ⟨rfl, ⟨c, false⟩, [], rfl, by simp⟩
  | and c rest ih => exact absurd (hor false List.mem_cons_self) (by decide)
  | or c rest ih =>
    obtain ⟨hdisjuncts, last, front, hnodes, hfront⟩ := ih h fun b hb => hor b (List.mem_cons_of_mem _ hb)
    refine ⟨by rw [disjuncts, hdisjuncts]; rfl, last, front ++ [⟨c, true⟩], ?_, ?_⟩
    · rw [nodes, List.reverse_cons, hnodes, List.cons_append]
    · intro node hnode
      cases List.mem_append.mp hnode with
      | inl hnode => exact hfront node hnode
      | inr hnode => rw [List.mem_singleton.mp hnode]

end ConditionList

namespace Where

/-- The nodes as they are parsed. -/
def nodes : Where E → List (ConditionSqlNode E)
  | .empty => []
  | .exists c => [⟨c, false⟩]
  | .list conditions => conditions.nodes.reverse

theorem parse_eq {clause : Where E} (h : clause.Closed) : clause.parse = some clause.nodes := by
  cases clause with
  | empty => rfl
  | «exists» c => rfl
  | list conditions =>
    cases conditions with
    | empty => rfl
    | one c => rfl
    | and c rest => rw [parse, ConditionList.parse_eq (.and c rest) h]; rfl
    | or c rest => rw [parse, ConditionList.parse_eq (.or c rest) h]; rfl

theorem mem_nodes (clause : Where E) (c : Condition E) :
    c ∈ clause.nodes.map ConditionSqlNode.condition ↔ c ∈ clause.conditions := by
  cases clause with
  | empty => rfl
  | «exists» c => rfl
  | list conditions => rw [nodes, List.map_reverse, List.mem_reverse, ConditionList.map_nodes, Where.conditions]

/-- With `AND` only, no node carries the flag, and all conditions must hold. -/
theorem uniform_and {clause : Where E} (h : clause.Closed) (hand : ∀ b ∈ clause.connectives, b = false)
    (v : Condition E → Prop) :
    (∀ node ∈ clause.nodes, node.hasOr = false) ∧ (clause.Holds v ↔ ∀ c ∈ clause.conditions, v c) := by
  have hlist : ∀ list : ConditionList E, list.Closed → (∀ b ∈ list.connectives, b = false) →
      (∀ node ∈ list.nodes.reverse, node.hasOr = false) ∧ (list.Holds v ↔ ∀ c ∈ list.conditions, v c) := by
    intro list hclosed hand
    obtain ⟨hdisjuncts, hnodes⟩ := ConditionList.disjuncts_of_and hclosed hand
    refine ⟨fun node hnode => hnodes node (List.mem_reverse.mp hnode), ?_⟩
    rw [ConditionList.Holds, hdisjuncts]
    simp
  cases clause with
  | empty => simp [nodes, Holds, Where.conditions]
  | «exists» c => simp [nodes, Holds, Where.conditions]
  | list conditions =>
    cases conditions with
    | empty => simp [nodes, Holds, Where.conditions, ConditionList.nodes, ConditionList.conditions]
    | one c => exact hlist (.one c) h hand
    | and c rest => exact hlist (.and c rest) h hand
    | or c rest => exact hlist (.or c rest) h hand

/-- With `OR` only, every node but the first carries the flag, and one condition must hold. -/
theorem uniform_or {clause : Where E} (h : clause.Closed) (hor : ∀ b ∈ clause.connectives, b = true)
    (v : Condition E → Prop) :
    (∀ node, clause.nodes[1]? = some node → node.hasOr = true) ∧
      (clause.Holds v ↔ clause.conditions = [] ∨ ∃ c ∈ clause.conditions, v c) := by
  have hlist : ∀ list : ConditionList E, list.Closed → (∀ b ∈ list.connectives, b = true) → list.conditions ≠ [] →
      (∀ node, list.nodes.reverse[1]? = some node → node.hasOr = true) ∧
        (list.Holds v ↔ list.conditions = [] ∨ ∃ c ∈ list.conditions, v c) := by
    intro list hclosed hor hne
    obtain ⟨hdisjuncts, last, front, hnodes, hfront⟩ := ConditionList.disjuncts_of_or hclosed hor
    refine ⟨?_, ?_⟩
    · intro node hnode
      rw [hnodes, List.getElem?_cons_succ] at hnode
      exact hfront node (List.mem_of_getElem? hnode)
    · rw [ConditionList.Holds, hdisjuncts]
      simp [hne]
  cases clause with
  | empty => simp [nodes, Holds, Where.conditions]
  | «exists» c => simp [nodes, Holds, Where.conditions]
  | list conditions =>
    cases conditions with
    | empty => simp [nodes, Holds, Where.conditions, ConditionList.nodes, ConditionList.conditions]
    | one c => exact hlist (.one c) h hor (by simp [ConditionList.conditions])
    | and c rest => exact hlist (.and c rest) h hor (by simp [ConditionList.conditions])
    | or c rest => exact hlist (.or c rest) h hor (by simp [ConditionList.conditions])

end Where

namespace SelectSyntax

/-- All nodes, in the order in which `FilterStmt::create` gets them. -/
def allNodes (select : SelectSyntax E) : List (ConditionSqlNode E) :=
  select.where_.nodes ++ (select.joins.map fun list => list.nodes.reverse).flatten

variable {select : SelectSyntax E}

theorem parse_eq (h : select.Closed) :
    select.parse = some ⟨select.where_.nodes, select.joins.map fun list => list.nodes.reverse⟩ := by
  have hjoins : ∀ joins : List (ConditionList E), (∀ list ∈ joins, list.Closed) →
      joins.mapM (fun list => list.parse.join) = some (joins.map fun list => list.nodes.reverse) := by
    intro joins hclosed
    induction joins with
    | nil => rfl
    | cons list joins ih =>
      rw [List.mapM_cons, ConditionList.parse_eq list (hclosed list (by simp)),
        ih fun list hlist => hclosed list (by simp [hlist])]
      rfl
  rw [SelectSyntax.parse, hjoins select.joins h.1, Where.parse_eq h.2]
  rfl

theorem mem_allNodes (select : SelectSyntax E) (c : Condition E) :
    c ∈ select.allNodes.map ConditionSqlNode.condition ↔ c ∈ select.conditions := by
  have hjoins : ∀ joins : List (ConditionList E),
      c ∈ (joins.map fun list => list.nodes.reverse).flatten.map ConditionSqlNode.condition ↔
        c ∈ (joins.map ConditionList.conditions).flatten := by
    intro joins
    induction joins with
    | nil => rfl
    | cons list joins ih =>
      rw [List.map_cons, List.flatten_cons, List.map_append, List.mem_append, ih, List.map_cons, List.flatten_cons,
        List.mem_append, List.map_reverse, List.mem_reverse, ConditionList.map_nodes]
  rw [allNodes, List.map_append, List.mem_append, Where.mem_nodes, hjoins, conditions, List.mem_append]

theorem uniform_and (h : select.Closed) (hjoins : ∀ list ∈ select.joins, ∀ b ∈ list.connectives, b = false)
    (hwhere : ∀ b ∈ select.where_.connectives, b = false) (v : Condition E → Prop) :
    (∀ node ∈ select.allNodes, node.hasOr = false) ∧ (select.Holds v ↔ ∀ c ∈ select.conditions, v c) := by
  obtain ⟨hflags, hholds⟩ := Where.uniform_and h.2 hwhere v
  constructor
  · intro node hnode
    cases List.mem_append.mp hnode with
    | inl hnode => exact hflags node hnode
    | inr hnode =>
      obtain ⟨nodes, hmap, hnode⟩ := List.mem_flatten.mp hnode
      obtain ⟨list, hlist, rfl⟩ := List.mem_map.mp hmap
      exact (ConditionList.disjuncts_of_and (h.1 list hlist) (hjoins list hlist)).2 node (List.mem_reverse.mp hnode)
  · rw [Holds, hholds, conditions, List.forall_mem_append, and_comm]
    apply and_congr_right
    intro _
    constructor
    · intro hall c hc
      obtain ⟨conditions, hmap, hc⟩ := List.mem_flatten.mp hc
      obtain ⟨list, hlist, rfl⟩ := List.mem_map.mp hmap
      exact hall list hlist c hc
    · intro hall list hlist c hc
      exact hall c (List.mem_flatten.mpr ⟨list.conditions, List.mem_map.mpr ⟨list, hlist, rfl⟩, hc⟩)

/-- With `OR` only and without joins, the second node carries the flag, and one condition must hold. -/
theorem uniform_or (h : select.Closed) (hjoins : select.joins = []) (hwhere : ∀ b ∈ select.where_.connectives, b = true)
    (v : Condition E → Prop) :
    (∀ node, select.allNodes[1]? = some node → node.hasOr = true) ∧
      (select.Holds v ↔ select.conditions = [] ∨ ∃ c ∈ select.conditions, v c) := by
  obtain ⟨hflags, hholds⟩ := Where.uniform_or h.2 hwhere v
  constructor
  · rw [allNodes, hjoins, List.map_nil, List.flatten_nil, List.append_nil]
    exact hflags
  · rw [Holds, hholds, conditions, hjoins, List.map_nil, List.flatten_nil, List.append_nil]
    simp

end SelectSyntax

/-! ## The predicate -/

section

variable {createFilterUnit} {tuple : T}

/-- What a condition says of a tuple. -/
def Condition.True (createFilterUnit : Condition E → Except RC (Expression T)) (tuple : T) (c : Condition E) : Prop :=
  ∃ e, createFilterUnit c = .ok e ∧ e.truth tuple = some true

/-- The conditions become expressions that evaluate without error on the tuple. -/
def Evaluates (createFilterUnit : Condition E → Except RC (Expression T)) (tuple : T) (c : Condition E) : Prop :=
  ∃ e, createFilterUnit c = .ok e ∧ ∃ b, e.truth tuple = some b

theorem mapM_createFilterUnit {nodes : List (ConditionSqlNode E)}
    (h : ∀ node ∈ nodes, Evaluates createFilterUnit tuple node.condition) :
    ∃ units, nodes.mapM (fun node => createFilterUnit node.condition) = .ok units ∧ units.length = nodes.length ∧
      (∀ e ∈ units, ∃ b, e.truth tuple = some b) ∧
      ∀ b, (∃ e ∈ units, e.truth tuple = some b) ↔
        ∃ node ∈ nodes, ∃ e, createFilterUnit node.condition = .ok e ∧ e.truth tuple = some b := by
  induction nodes with
  | nil => exact ⟨[], rfl, rfl, by simp, by simp⟩
  | cons node nodes ih =>
    obtain ⟨units, hunits, hlength, htruth, hexists⟩ := ih fun n hn => h n (by simp [hn])
    obtain ⟨e, he, b, hb⟩ := h node (by simp)
    refine ⟨e :: units, ?_, by simp [hlength], ?_, ?_⟩
    · rw [List.mapM_cons, he, hunits]
      rfl
    · intro e' he'
      rcases List.mem_cons.mp he' with rfl | he'
      · exact ⟨b, hb⟩
      · exact htruth e' he'
    · intro b'
      simp only [List.mem_cons, exists_eq_or_imp, hexists, he]
      simp

theorem passes_create {nodes : List (ConditionSqlNode E)}
    (h : ∀ node ∈ nodes, Evaluates createFilterUnit tuple node.condition) {type : ConjunctionType}
    (htype : ∀ node, nodes[1]? = some node → node.hasOr = type.decisive) :
    ∃ stmt, FilterStmt.create createFilterUnit nodes = .ok stmt ∧
      ((nodes = [] ∧ passes tuple stmt.createPlan = some true) ∨
        (nodes ≠ [] ∧ ∃ b, passes tuple stmt.createPlan = some b ∧
          (b = type.decisive ↔ ∃ node ∈ nodes, ∃ e, createFilterUnit node.condition = .ok e ∧
            e.truth tuple = some type.decisive))) := by
  obtain ⟨units, hunits, hlength, htruth, hexists⟩ := mapM_createFilterUnit h
  refine ⟨_, by rw [FilterStmt.create, hunits]; rfl, ?_⟩
  cases nodes with
  | nil =>
    left
    rw [List.length_nil] at hlength
    rw [List.eq_nil_of_length_eq_zero hlength]
    exact ⟨rfl, rfl⟩
  | cons node nodes =>
    right
    have hne : units ≠ [] := by
      rintro rfl
      simp at hlength
    refine ⟨List.cons_ne_nil _ _, ?_⟩
    rw [← hexists]
    cases nodes with
    | nil =>
      -- a single condition: the flag does not matter
      obtain ⟨e, rfl⟩ := List.length_eq_one_iff.mp hlength
      obtain ⟨b, hb⟩ := htruth e (by simp)
      refine ⟨b, ?_, by simp [hb]⟩
      show (Expression.conjunction .and [e]).truth tuple = some b
      rw [Expression.truth_conjunction htruth hne]
      cases b <;> simp [hb, ConjunctionType.decisive]
    | cons node' nodes =>
      have hflag : node'.hasOr = type.decisive := htype node' rfl
      have hplan : passes tuple (FilterStmt.createPlan
          ⟨units, if 1 < nodes.length + 1 + 1 then node'.hasOr else false⟩) = (Expression.conjunction type units).truth tuple := by
        rw [if_pos (by omega), hflag, FilterStmt.createPlan, if_neg (by simpa using hne)]
        cases type <;> rfl
      refine ⟨_, hplan.trans (Expression.truth_conjunction htruth hne), ?_⟩
      split
      · next hsome => exact iff_of_true rfl hsome
      · next hnone => exact iff_of_false (by cases type <;> decide) hnone

/-- A `SELECT` with one kind of connective, `OR` only without joins: the predicate that is built is true of a tuple exactly
when the conditions of the joins and the `WHERE` clause hold. -/
theorem predicate_meaning {select : SelectSyntax E} (hclosed : select.Closed) (huniform : select.Uniform)
    (heval : ∀ c ∈ select.conditions, Evaluates createFilterUnit tuple c) :
    ∃ node stmt b, select.parse = some node ∧ node.createFilter createFilterUnit = .ok stmt ∧
      passes tuple stmt.createPlan = some b ∧ (b = true ↔ select.Holds (Condition.True createFilterUnit tuple)) := by
  have hnodes : ∀ node ∈ select.allNodes, Evaluates createFilterUnit tuple node.condition := by
    intro node hnode
    exact heval _ ((select.mem_allNodes _).mp (List.mem_map.mpr ⟨node, hnode, rfl⟩))
  have hmem : ∀ P : Condition E → Prop, (∃ node ∈ select.allNodes, P node.condition) ↔ ∃ c ∈ select.conditions, P c := by
    intro P
    simp only [← select.mem_allNodes, List.mem_map, exists_exists_and_eq_and]
  have hempty : select.allNodes = [] ↔ select.conditions = [] := by
    rw [List.eq_nil_iff_forall_not_mem, List.eq_nil_iff_forall_not_mem]
    have hsome := hmem fun _ => True
    simp only [and_true] at hsome
    exact not_iff_not.mp (by simpa using hsome)
  have hcreate : ∀ node : SelectSqlNode E,
      node = ⟨select.where_.nodes, select.joins.map fun list => list.nodes.reverse⟩ →
        node.createFilter createFilterUnit = FilterStmt.create createFilterUnit select.allNodes := by
    rintro node rfl
    rfl
  rcases huniform with ⟨hjoins, hwhere⟩ | ⟨hjoins, hwhere⟩
  · obtain ⟨hflags, hholds⟩ := SelectSyntax.uniform_and hclosed hjoins hwhere (Condition.True createFilterUnit tuple)
    have htype : ∀ node, select.allNodes[1]? = some node → node.hasOr = ConjunctionType.and.decisive :=
      fun node hnode => hflags node (List.mem_of_getElem? hnode)
    obtain ⟨stmt, hstmt, hresult⟩ := passes_create hnodes htype
    rw [hempty] at hresult
    rcases hresult with ⟨hnil, hpass⟩ | ⟨-, b, hpass, hb⟩
    · refine ⟨_, stmt, true, SelectSyntax.parse_eq hclosed, (hcreate _ rfl).trans hstmt, hpass, ?_⟩
      simp [hholds, hnil]
    · refine ⟨_, stmt, b, SelectSyntax.parse_eq hclosed, (hcreate _ rfl).trans hstmt, hpass, ?_⟩
      have hfalse : b = false ↔ ∃ c ∈ select.conditions, ∃ e, createFilterUnit c = .ok e ∧ e.truth tuple = some false :=
        hb.trans (hmem fun c => ∃ e, createFilterUnit c = .ok e ∧ e.truth tuple = some false)
      rw [hholds, ← Bool.not_eq_false, not_congr hfalse]
      simp only [not_exists, not_and]
      refine forall₂_congr fun c hc => ?_
      obtain ⟨e, he, value, hvalue⟩ := heval c hc
      cases value <;> simp [Condition.True, he, hvalue]
  · obtain ⟨hflags, hholds⟩ := SelectSyntax.uniform_or hclosed hjoins hwhere (Condition.True createFilterUnit tuple)
    have htype : ∀ node, select.allNodes[1]? = some node → node.hasOr = ConjunctionType.or.decisive := hflags
    obtain ⟨stmt, hstmt, hresult⟩ := passes_create hnodes htype
    rcases hresult with ⟨hnil, hpass⟩ | ⟨hne, b, hpass, hb⟩
    · refine ⟨_, stmt, true, SelectSyntax.parse_eq hclosed, (hcreate _ rfl).trans hstmt, hpass, ?_⟩
      simp [hholds, hempty.mp hnil]
    · refine ⟨_, stmt, b, SelectSyntax.parse_eq hclosed, (hcreate _ rfl).trans hstmt, hpass, ?_⟩
      rw [hholds, or_iff_right (mt hempty.mpr hne)]
      exact hb.trans (hmem (Condition.True createFilterUnit tuple))

/-- `WHERE 0 OR 1`, of a tuple for which the second condition holds. -/
theorem predicate_meaning_or :
    let unit : Condition ℕ → Except RC (Expression (ℕ → Bool)) := fun c => .ok (.other fun tuple => .ok (.booleans (tuple c.left)))
    let select : SelectSyntax ℕ := ⟨[], .list (.or ⟨0, .equalTo, 0⟩ (.one ⟨1, .equalTo, 0⟩))⟩
    ∃ node stmt b, select.parse = some node ∧ node.createFilter unit = .ok stmt ∧
      passes (· == 1) stmt.createPlan = some b ∧ (b = true ↔ select.Holds (Condition.True unit (· == 1))) := by
  intro unit select
  refine predicate_meaning ⟨by simp [select], trivial⟩ (Or.inr ⟨rfl, by simp [select, Where.connectives,
    ConditionList.connectives]⟩) ?_
  intro c _
  exact ⟨_, rfl, _, rfl⟩

/-- `WHERE 0 AND 1 OR 2`, of a tuple for which the first condition holds only. -/
theorem predicate_mixed :
    let unit : Condition ℕ → Except RC (Expression (ℕ → Bool)) := fun c => .ok (.other fun tuple => .ok (.booleans (tuple c.left)))
    let select : SelectSyntax ℕ :=
      ⟨[], .list (.and ⟨0, .equalTo, 0⟩ (.or ⟨1, .equalTo, 0⟩ (.one ⟨2, .equalTo, 0⟩)))⟩
    ∃ node stmt, select.parse = some node ∧ node.createFilter unit = .ok stmt ∧
      passes (· == 0) stmt.createPlan = some true ∧ ¬select.Holds (Condition.True unit (· == 0)) := by
  intro unit select
  refine ⟨_, _, rfl, rfl, rfl, ?_⟩
  rintro ⟨-, group, hgroup, hall⟩
  simp only [ConditionList.disjuncts, List.modifyHead_cons, List.mem_cons, List.not_mem_nil, or_false] at hgroup
  rcases hgroup with rfl | rfl
  · obtain ⟨e, he, htruth⟩ := hall ⟨1, .equalTo, 0⟩ (by simp)
    obtain rfl := Except.ok.inj he
    exact absurd htruth (by decide)
  · obtain ⟨e, he, htruth⟩ := hall ⟨2, .equalTo, 0⟩ (by simp)
    obtain rfl := Except.ok.inj he
    exact absurd htruth (by decide)

end

end Landbase.Sql
