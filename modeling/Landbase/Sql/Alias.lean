import Landbase.Common.Basic

/-! # Table aliases

`handle_alias` of `sql/stmt/select_stmt.cpp` replaces the aliases of tables in a query by the names of the tables, and goes
down into the subqueries of its `WHERE` clause. The relations of a subquery are put behind those of the enclosing queries,
and the first that has the alias is taken.
-/

namespace Landbase.Sql.Alias
set_option autoImplicit false

/-! ## Queries -/

/-- A relation of a `FROM` list. -/
structure AttrSqlNode where
  relationName : String
  tableAlias : String
  deriving DecidableEq

structure RelAttrSqlNode where
  relationName : String
  tableAlias : String
  attributeName : String
  fieldAlias : String
  deriving DecidableEq

/-- An aggregation is read for its attribute only. -/
structure AggreSqlNode where
  attributeName : RelAttrSqlNode
  deriving DecidableEq

mutual

/-- An operand of a condition: a column, constants, or a subquery. -/
inductive ParseExpr
  | field (tableName fieldName : String)
  | value
  | subquery (attributes : List RelAttrSqlNode) (aggregations : List AggreSqlNode) (relations : List AttrSqlNode)
      (conditions : Conditions)

/-- The conditions of a `WHERE` clause, each with its two operands. -/
inductive Conditions
  | nil
  | cons (left right : ParseExpr) (rest : Conditions)

end

structure SelectSqlNode where
  attributes : List RelAttrSqlNode
  aggregations : List AggreSqlNode
  relations : List AttrSqlNode
  conditions : Conditions

/-! ## `handle_alias` -/

/-- `std::unique`: an element is dropped when the last one that was kept is equal to it. -/
def unique {α : Type} (eq : α → α → Bool) : List α → List α
  | [] => []
  | a :: l => go a l
where
  go (a : α) : List α → List α
    | [] => [a]
    | b :: l => if eq a b then go a l else a :: go b l

def sameAlias (a b : AttrSqlNode) : Bool :=
  if a.tableAlias ≠ "" ∧ b.tableAlias ≠ "" then a.tableAlias == b.tableAlias else false

/-- The check for repeated aliases. -/
def repeated (tableNames : List AttrSqlNode) : Bool := (unique sameAlias tableNames).length ≠ tableNames.length

/-- `SELECT * AS alias`. -/
def starAlias (fields : List RelAttrSqlNode) : Bool :=
  fields.any fun field => field.attributeName == "*" && field.fieldAlias != ""

def renameField (node : AttrSqlNode) (field : RelAttrSqlNode) : RelAttrSqlNode :=
  if field.relationName = node.tableAlias then
    { field with relationName := node.relationName, tableAlias := node.tableAlias }
  else field

def renameAggre (node : AttrSqlNode) (aggre : AggreSqlNode) : AggreSqlNode :=
  if aggre.attributeName.tableAlias = node.tableAlias then
    ⟨{ aggre.attributeName with relationName := node.relationName, tableAlias := node.tableAlias }⟩
  else aggre

/-- The loop over the tables for the selected columns. -/
def renameFields (tableNames : List AttrSqlNode) (fields : List RelAttrSqlNode) : List RelAttrSqlNode :=
  tableNames.foldl (fun fields node => if node.tableAlias ≠ "" then fields.map (renameField node) else fields) fields

def renameAggres (tableNames : List AttrSqlNode) (aggres : List AggreSqlNode) : List AggreSqlNode :=
  tableNames.foldl (fun aggres node => if node.tableAlias ≠ "" then aggres.map (renameAggre node) else aggres) aggres

/-- The table name of a column in a `WHERE` clause: the first table with this alias. -/
def rename (tableNames : List AttrSqlNode) (tableName : String) : String :=
  if tableName ≠ "" then
    match tableNames.find? fun node => decide (node.tableAlias ≠ "" ∧ tableName = node.tableAlias) with
    | some node => node.relationName
    | none => tableName
  else tableName

mutual

/-- One operand in `handle_where_alias`; for a subquery this is `handle_sub_query_alias`. -/
def ParseExpr.handleAlias (tableNames : List AttrSqlNode) : ParseExpr → Except RC ParseExpr
  | .field tableName fieldName => .ok (.field (rename tableNames tableName) fieldName)
  | .value => .ok .value
  | .subquery fields aggres relations conditions =>
    if repeated relations then .error .invalidArgument
    else if starAlias fields then .error .invalidArgument
    else (conditions.handleAlias (tableNames ++ relations)).map fun conditions =>
      .subquery (renameFields relations fields) (renameAggres relations aggres) relations conditions

/-- `handle_where_alias`. -/
def Conditions.handleAlias (tableNames : List AttrSqlNode) : Conditions → Except RC Conditions
  | .nil => .ok .nil
  | .cons left right rest =>
    (left.handleAlias tableNames).bind fun left =>
      (right.handleAlias tableNames).bind fun right =>
        (rest.handleAlias tableNames).map fun rest => .cons left right rest

end

/-- `handle_alias`. -/
def SelectSqlNode.handleAlias (select : SelectSqlNode) : Except RC SelectSqlNode :=
  if repeated select.relations then .error .invalidArgument
  else if starAlias select.attributes then .error .invalidArgument
  else (select.conditions.handleAlias select.relations).map fun conditions =>
    ⟨renameFields select.relations select.attributes, renameAggres select.relations select.aggregations,
      select.relations, conditions⟩

/-! ## Scopes -/

/-- The relation that carries an alias in a `FROM` list. -/
def relationOf (tableAlias : String) (relations : List AttrSqlNode) : Option String :=
  (relations.find? fun node => decide (node.tableAlias ≠ "" ∧ tableAlias = node.tableAlias)).map AttrSqlNode.relationName

/-- The relation of the first list that declares the alias. -/
def resolve (scopes : List (List AttrSqlNode)) (tableAlias : String) : Option String :=
  scopes.findSome? (relationOf tableAlias)

mutual

/-- The table names of the columns in a `WHERE` clause, those of subqueries included. -/
def ParseExpr.columns : ParseExpr → List String
  | .field tableName _ => [tableName]
  | .value => []
  | .subquery _ _ _ conditions => conditions.columns

def Conditions.columns : Conditions → List String
  | .nil => []
  | .cons left right rest => left.columns ++ (right.columns ++ rest.columns)

end

mutual

/-- The table names that the columns mean; `scopes` are the enclosing `FROM` lists from the innermost on. -/
def ParseExpr.meaning (scopes : List (List AttrSqlNode)) : ParseExpr → List String
  | .field tableName _ => [if tableName = "" then "" else (resolve scopes tableName).getD tableName]
  | .value => []
  | .subquery _ _ relations conditions => conditions.meaning (relations :: scopes)

def Conditions.meaning (scopes : List (List AttrSqlNode)) : Conditions → List String
  | .nil => []
  | .cons left right rest => left.meaning scopes ++ (right.meaning scopes ++ rest.meaning scopes)

end

mutual

/-- A property of the `FROM` list and of the selected columns holds somewhere among the subqueries. -/
def ParseExpr.Some (P : List AttrSqlNode → List RelAttrSqlNode → Prop) : ParseExpr → Prop
  | .field _ _ | .value => False
  | .subquery fields _ relations conditions => P relations fields ∨ conditions.Some P

def Conditions.Some (P : List AttrSqlNode → List RelAttrSqlNode → Prop) : Conditions → Prop
  | .nil => False
  | .cons left right rest => left.Some P ∨ right.Some P ∨ rest.Some P

end

mutual

/-- Every alias of a column has the same relation in the innermost and in the outermost list that declares it. -/
def ParseExpr.Unshadowed (scopes : List (List AttrSqlNode)) : ParseExpr → Prop
  | .field tableName _ => tableName = "" ∨ resolve scopes tableName = resolve scopes.reverse tableName
  | .value => True
  | .subquery _ _ relations conditions => conditions.Unshadowed (relations :: scopes)

def Conditions.Unshadowed (scopes : List (List AttrSqlNode)) : Conditions → Prop
  | .nil => True
  | .cons left right rest => left.Unshadowed scopes ∧ right.Unshadowed scopes ∧ rest.Unshadowed scopes

end

namespace SelectSqlNode

def Some (P : List AttrSqlNode → List RelAttrSqlNode → Prop) (select : SelectSqlNode) : Prop :=
  P select.relations select.attributes ∨ select.conditions.Some P

def columns (select : SelectSqlNode) : List String := select.conditions.columns

def meaning (select : SelectSqlNode) : List String := select.conditions.meaning [select.relations]

def Unshadowed (select : SelectSqlNode) : Prop := select.conditions.Unshadowed [select.relations]

end SelectSqlNode

/-! ## Repeated aliases -/

/-- Two relations of the list have the same alias. -/
def Twice (relations : List AttrSqlNode) : Prop := ¬relations.Pairwise fun a b => sameAlias a b = false

/-- Two neighbours in the list have the same alias. -/
def TwiceInARow (relations : List AttrSqlNode) : Prop := ¬relations.IsChain fun a b => sameAlias a b = false

theorem TwiceInARow.twice {relations : List AttrSqlNode} (h : TwiceInARow relations) : Twice relations :=
  fun hpairwise => h hpairwise.isChain

theorem length_unique_go_le {α : Type} (eq : α → α → Bool) (a : α) (l : List α) :
    (unique.go eq a l).length ≤ l.length + 1 := by
  induction l generalizing a with
  | nil => exact le_rfl
  | cons b l ih =>
    rw [unique.go]
    split
    · exact (ih a).trans (Nat.le_succ _)
    · exact Nat.succ_le_succ (ih b)

theorem length_unique_go_iff {α : Type} (eq : α → α → Bool) (a : α) (l : List α) :
    (unique.go eq a l).length = l.length + 1 ↔ (a :: l).IsChain fun a b => eq a b = false := by
  induction l generalizing a with
  | nil => simp [unique.go]
  | cons b l ih =>
    rw [unique.go, List.isChain_cons_cons]
    have hle := length_unique_go_le eq a l
    split
    · next heq =>
      refine iff_of_false ?_ fun h => absurd h.1 (by simp [heq])
      rw [List.length_cons]
      omega
    · next hne =>
      rw [List.length_cons, List.length_cons, Nat.add_right_cancel_iff, ih b]
      simp [hne]

/-- `std::unique` finds neighbours only. -/
theorem repeated_iff (relations : List AttrSqlNode) : repeated relations = true ↔ TwiceInARow relations := by
  rw [TwiceInARow, repeated, decide_eq_true_eq, ne_eq, not_iff_not]
  cases relations with
  | nil => simp [unique]
  | cons a l => exact length_unique_go_iff sameAlias a l

/-! ## Resolution -/

theorem resolve_reverse_eq_none (scopes : List (List AttrSqlNode)) (tableAlias : String) :
    resolve scopes.reverse tableAlias = none ↔ resolve scopes tableAlias = none := by
  simp [resolve, List.findSome?_eq_none_iff]

/-- The first table with an alias is one of the outermost list that declares it. -/
theorem rename_flatten (scopes : List (List AttrSqlNode)) {tableName : String} (h : tableName ≠ "") :
    rename scopes.flatten tableName = (resolve scopes tableName).getD tableName := by
  have hfind : resolve scopes tableName =
      (scopes.flatten.find? fun node => decide (node.tableAlias ≠ "" ∧ tableName = node.tableAlias)).map
        AttrSqlNode.relationName := by
    rw [List.find?_flatten, List.map_findSome?]
    rfl
  rw [rename, if_pos h, hfind]
  cases scopes.flatten.find? _ with
  | none => rfl
  | some node => rfl

/-- What `handle_alias` makes of a part of a query: it is rejected, or its columns are renamed. -/
def Handled {α : Type} (result : Except RC α) (columns : α → List String) (rejected : Prop) (meaning : List String)
    (unshadowed : Prop) : Prop :=
  (result = .error .invalidArgument ∧ rejected) ∨
    ∃ a, result = .ok a ∧ ¬rejected ∧ (columns a).length = meaning.length ∧ (columns a = meaning ↔ unshadowed)

/-- A query that is rejected for its `FROM` list or for its columns. -/
def Rejected (relations : List AttrSqlNode) (fields : List RelAttrSqlNode) : Prop :=
  TwiceInARow relations ∨ starAlias fields = true

theorem Handled.query {β : Type} {relations : List AttrSqlNode} {fields : List RelAttrSqlNode}
    {conditions : Except RC Conditions} {rejected unshadowed : Prop} {meaning : List String}
    (h : Handled conditions Conditions.columns rejected meaning unshadowed) {build : Conditions → β}
    {columns : β → List String} (hcolumns : ∀ conditions, columns (build conditions) = conditions.columns) :
    Handled (if repeated relations then .error .invalidArgument
        else if starAlias fields then .error .invalidArgument else conditions.map build)
      columns (Rejected relations fields ∨ rejected) meaning unshadowed := by
  split
  · next hrepeated => exact Or.inl ⟨rfl, Or.inl (Or.inl ((repeated_iff relations).mp hrepeated))⟩
  · next hrepeated =>
    split
    · next hstar => exact Or.inl ⟨rfl, Or.inl (Or.inr hstar)⟩
    · next hstar =>
      have hhere : ¬Rejected relations fields := by
        rintro (htwice | hbad)
        · exact hrepeated ((repeated_iff relations).mpr htwice)
        · exact hstar hbad
      rcases h with ⟨rfl, hrejected⟩ | ⟨renamed, rfl, hrejected, hlength, hcolumns'⟩
      · exact Or.inl ⟨rfl, Or.inr hrejected⟩
      · refine Or.inr ⟨build renamed, rfl, not_or.mpr ⟨hhere, hrejected⟩, ?_, ?_⟩
        · rw [hcolumns, hlength]
        · rw [hcolumns, hcolumns']

mutual

theorem ParseExpr.handled (scopes : List (List AttrSqlNode)) :
    ∀ e : ParseExpr, Handled (e.handleAlias scopes.reverse.flatten) ParseExpr.columns (e.Some Rejected)
      (e.meaning scopes) (e.Unshadowed scopes)
  | .field tableName fieldName => by
    refine Or.inr ⟨_, rfl, id, rfl, ?_⟩
    rw [ParseExpr.columns, ParseExpr.meaning, ParseExpr.Unshadowed, List.cons.injEq, and_iff_left rfl]
    by_cases hempty : tableName = ""
    · simp [hempty, rename]
    · have hnone := resolve_reverse_eq_none scopes tableName
      rw [rename_flatten _ hempty, if_neg hempty, or_iff_right hempty]
      cases hinner : resolve scopes tableName with
      | none => simp [hnone.mpr hinner]
      | some inner =>
        cases houter : resolve scopes.reverse tableName with
        | none => exact absurd (hnone.mp houter) (by simp [hinner])
        | some outer => simp [eq_comm]
  | .value => Or.inr ⟨_, rfl, id, rfl, iff_of_true rfl trivial⟩
  | .subquery fields aggres relations conditions => by
    have hconditions := conditions.handled (relations :: scopes)
    rw [List.reverse_cons, List.flatten_append, List.flatten_singleton] at hconditions
    exact hconditions.query fun _ => rfl

theorem Conditions.handled (scopes : List (List AttrSqlNode)) :
    ∀ conditions : Conditions, Handled (conditions.handleAlias scopes.reverse.flatten) Conditions.columns
      (conditions.Some Rejected) (conditions.meaning scopes) (conditions.Unshadowed scopes)
  | .nil => Or.inr ⟨_, rfl, id, rfl, iff_of_true rfl trivial⟩
  | .cons left right rest => by
    rw [Conditions.handleAlias]
    rcases left.handled scopes with ⟨hleft, hbad⟩ | ⟨left', hleft, hokLeft, hlenLeft, hleft'⟩
    · exact Or.inl ⟨by rw [hleft]; rfl, Or.inl hbad⟩
    rcases right.handled scopes with ⟨hright, hbad⟩ | ⟨right', hright, hokRight, hlenRight, hright'⟩
    · exact Or.inl ⟨by rw [hleft, hright]; rfl, Or.inr (Or.inl hbad)⟩
    rcases rest.handled scopes with ⟨hrest, hbad⟩ | ⟨rest', hrest, hokRest, hlenRest, hrest'⟩
    · exact Or.inl ⟨by rw [hleft, hright, hrest]; rfl, Or.inr (Or.inr hbad)⟩
    refine Or.inr ⟨.cons left' right' rest', by rw [hleft, hright, hrest]; rfl, ?_, ?_, ?_⟩
    · exact not_or.mpr ⟨hokLeft, not_or.mpr ⟨hokRight, hokRest⟩⟩
    · simp only [Conditions.columns, Conditions.meaning, List.length_append, hlenLeft, hlenRight, hlenRest]
    · rw [Conditions.columns, Conditions.meaning, Conditions.Unshadowed, ← hleft', ← hright', ← hrest']
      constructor
      · intro heq
        obtain ⟨heqLeft, heq⟩ := List.append_inj heq hlenLeft
        exact ⟨heqLeft, List.append_inj heq hlenRight⟩
      · rintro ⟨heqLeft, heqRight, heqRest⟩
        rw [heqLeft, heqRight, heqRest]

end

/-! ## Scoping -/

mutual

theorem ParseExpr.Some.mono {P Q : List AttrSqlNode → List RelAttrSqlNode → Prop}
    (h : ∀ relations fields, P relations fields → Q relations fields) : ∀ e : ParseExpr, e.Some P → e.Some Q
  | .field _ _ => id
  | .value => id
  | .subquery fields _ relations conditions => Or.imp (h relations fields) (Conditions.Some.mono h conditions)

theorem Conditions.Some.mono {P Q : List AttrSqlNode → List RelAttrSqlNode → Prop}
    (h : ∀ relations fields, P relations fields → Q relations fields) :
    ∀ conditions : Conditions, conditions.Some P → conditions.Some Q
  | .nil => id
  | .cons left right rest =>
    Or.imp (ParseExpr.Some.mono h left) (Or.imp (ParseExpr.Some.mono h right) (Conditions.Some.mono h rest))

end

theorem SelectSqlNode.Some.mono {P Q : List AttrSqlNode → List RelAttrSqlNode → Prop}
    (h : ∀ relations fields, P relations fields → Q relations fields) (select : SelectSqlNode)
    (hsome : select.Some P) : select.Some Q :=
  Or.imp (h _ _) (Conditions.Some.mono h select.conditions) hsome

theorem SelectSqlNode.handled (select : SelectSqlNode) :
    Handled select.handleAlias SelectSqlNode.columns (select.Some Rejected) select.meaning select.Unshadowed := by
  have hconditions := select.conditions.handled [select.relations]
  rw [List.reverse_singleton, List.flatten_singleton] at hconditions
  exact hconditions.query fun _ => rfl

/-- A query in which a `FROM` list has an alias twice is rejected; no other one is but for `* AS alias`; and in a query that
is not, the columns mean the relations that carry their aliases in the innermost lists that declare them. -/
def AliasScoped (select : SelectSqlNode) : Prop :=
  (∃ rc, select.handleAlias = .error rc ∧
      select.Some fun relations fields => Twice relations ∨ starAlias fields = true) ∨
    ∃ renamed, select.handleAlias = .ok renamed ∧ ¬select.Some (fun relations _ => Twice relations) ∧
      renamed.columns = select.meaning

/-- The check misses relations that are not neighbours, and the outermost list goes before the innermost. -/
theorem aliasScoped_iff (select : SelectSqlNode) :
    AliasScoped select ↔ select.Some Rejected ∨
      (¬select.Some (fun relations _ => Twice relations) ∧ select.Unshadowed) := by
  rcases select.handled with ⟨hresult, hrejected⟩ | ⟨renamed, hresult, hrejected, -, hcolumns⟩
  · refine iff_of_true (Or.inl ⟨_, hresult, ?_⟩) (Or.inl hrejected)
    refine SelectSqlNode.Some.mono ?_ select hrejected
    intro relations fields hbad
    exact hbad.imp_left TwiceInARow.twice
  · rw [or_iff_right hrejected, ← hcolumns]
    constructor
    · rintro (⟨rc, herror, -⟩ | ⟨renamed', hok, htwice, hmeaning⟩)
      · rw [hresult] at herror
        cases herror
      · rw [hresult, Except.ok.injEq] at hok
        exact ⟨htwice, hok ▸ hmeaning⟩
    · rintro ⟨htwice, hmeaning⟩
      exact Or.inr ⟨renamed, hresult, htwice, hmeaning⟩

/-- `SELECT * FROM a t WHERE x > (SELECT * FROM b t WHERE t.y = 1)`: the column `t.y` is looked for in `a`. -/
def shadowing : SelectSqlNode where
  attributes := [⟨"", "", "*", ""⟩]
  aggregations := []
  relations := [⟨"a", "t"⟩]
  conditions := .cons (.field "" "x")
    (.subquery [⟨"", "", "*", ""⟩] [] [⟨"b", "t"⟩] (.cons (.field "t" "y") .value .nil)) .nil

/-- `SELECT * FROM a t, b u, c t`. -/
def repeating : SelectSqlNode where
  attributes := [⟨"", "", "*", ""⟩]
  aggregations := []
  relations := [⟨"a", "t"⟩, ⟨"b", "u"⟩, ⟨"c", "t"⟩]
  conditions := .nil

theorem not_aliasScoped {select renamed : SelectSqlNode} (hresult : select.handleAlias = .ok renamed)
    (h : renamed.columns ≠ select.meaning ∨ Twice select.relations) : ¬AliasScoped select := by
  rintro (⟨rc, herror, -⟩ | ⟨renamed', hok, htwice, hmeaning⟩)
  · rw [hresult] at herror
    cases herror
  · rw [hresult, Except.ok.injEq] at hok
    cases h with
    | inl hne => exact hne (hok ▸ hmeaning)
    | inr hrepeated => exact htwice (Or.inl hrepeated)

theorem not_aliasScoped_shadowing :
    (∃ renamed, shadowing.handleAlias = .ok renamed ∧ renamed.columns = ["", "a"] ∧ shadowing.meaning = ["", "b"]) ∧
      ¬AliasScoped shadowing ∧ ¬AliasScoped repeating := by
  refine ⟨⟨_, rfl, by decide, by decide⟩, ?_, ?_⟩
  · exact not_aliasScoped rfl (Or.inl (by decide))
  · exact not_aliasScoped rfl (Or.inr (by unfold Twice; decide))

end Landbase.Sql.Alias
