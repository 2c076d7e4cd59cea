import Landbase.Sql.Filter

/-! # `PredicatePushdownRewriter`

The rewriter of `sql/optimizer/predicate_pushdown_rewriter.cpp` moves equalities from a predicate operator to the scan of a
table. The predicate operator runs the subqueries of its expression for each tuple (`do_expr`), the scan only once when
it is opened; a subquery that needs the outer tuple has no value then.

A subquery is what a run of its plan gives for an outer tuple. Its operand keeps the values of the last run.
-/

namespace Landbase.Sql.Pushdown
set_option autoImplicit false

variable {T R : Type}

/-! ## Expressions -/

/-- `SubQueryExpr`. A run gives values and how it ended; the outer tuple is given to it where it is needed. -/
structure SubQueryExpr (T : Type) where
  needParentTuple : Bool
  run : Option T → List Value × RC
  valueList : List Value := []
  finished : Bool := false

/-- A side of a comparison. -/
inductive Operand (T : Type)
  | field (findCell : T → Except RC Value)
  | value (v : Value)
  | subquery (s : SubQueryExpr T)

structure ComparisonExpr (T : Type) where
  comp : CompOp
  left : Operand T
  right : Operand T

/-- The expression of a predicate operator. -/
inductive PredicateExpr (T : Type)
  | value (v : Value)
  | comparison (c : ComparisonExpr T)
  | conjunction (type : ConjunctionType) (children : List (ComparisonExpr T))

/-! ## `get_value` -/

/-- `Value::compare`, where `compareValues` compares two values that are not null. -/
def compare (compareValues : CompOp → Value → Value → Bool) (comp : CompOp) (left right : Value) : Bool :=
  if comp = .is then left.isNull && right.isNull
  else if comp = .isNot then left.attrType != right.attrType && right.isNull
  else if left.isNull || right.isNull then false
  else compareValues comp left right

def Operand.getValue (tuple : T) : Operand T → Except RC Value
  | .field findCell => findCell tuple
  | .value v => .ok v
  | .subquery s =>
    match s.valueList with
    | [] => .ok .nulls
    | [v] => .ok v
    | _ => .error .internal

section

variable (compareValues : CompOp → Value → Value → Bool)

def ComparisonExpr.getValue (c : ComparisonExpr T) (tuple : T) : Except RC Value := do
  let left ← c.left.getValue tuple
  let right ← c.right.getValue tuple
  return .booleans (compare compareValues c.comp left right)

def PredicateExpr.toExpression : PredicateExpr T → Expression T
  | .value v => .value v
  | .comparison c => .other (c.getValue compareValues)
  | .conjunction type children => .conjunction type (children.map fun c => .other (c.getValue compareValues))

def PredicateExpr.getValue (e : PredicateExpr T) (tuple : T) : Except RC Value :=
  (e.toExpression compareValues).getValue tuple

end

/-! ## `do_expr` -/

namespace SubQueryExpr

/-- `executor`. A subquery that does not need the outer tuple is run until it has succeeded once. -/
def executor (s : SubQueryExpr T) (parent : Option T) : SubQueryExpr T × RC :=
  if !s.needParentTuple && s.finished then (s, .success)
  else
    let result := s.run parent
    if result.2 = .success then ({ s with valueList := result.1, finished := true }, .success)
    else ({ s with valueList := result.1 }, result.2)

/-- `do_subquery_expr`. -/
def doExpr (tuple : Option T) (s : SubQueryExpr T) : SubQueryExpr T × RC :=
  if s.needParentTuple then
    match tuple with
    | none => (s, .success)
    | some t => s.executor (some t)
  else s.executor none

end SubQueryExpr

namespace Operand

def isField : Operand T → Bool
  | .field _ => true
  | _ => false

def isValue : Operand T → Bool
  | .value _ => true
  | _ => false

/-- A subquery in an operand is run; the code goes on for other operands. -/
def doExpr (tuple : Option T) (rc : RC) : Operand T → Operand T × RC
  | .subquery s => (.subquery (s.doExpr tuple).1, (s.doExpr tuple).2)
  | operand => (operand, rc)

/-- The check of a subquery's values. -/
def tooMany : Operand T → Bool
  | .subquery s => decide (1 < s.valueList.length)
  | _ => false

end Operand

/-- `do_comparison_expr`. -/
def ComparisonExpr.doExpr (tuple : Option T) (c : ComparisonExpr T) : ComparisonExpr T × RC :=
  let left := c.left.doExpr tuple .success
  if left.1.tooMany then ({ c with left := left.1 }, .internal)
  else
    let right := c.right.doExpr tuple left.2
    if right.1.tooMany then ({ c with left := left.1, right := right.1 }, .internal)
    else ({ c with left := left.1, right := right.1 }, right.2)

/-- The loop of `do_conjunction_expr`: the last child decides how it ends. -/
def doChildren (tuple : Option T) : RC → List (ComparisonExpr T) → List (ComparisonExpr T) × RC
  | rc, [] => ([], rc)
  | _, c :: children =>
    let rest := doChildren tuple (c.doExpr tuple).2 children
    ((c.doExpr tuple).1 :: rest.1, rest.2)

/-- `do_expr`. -/
def PredicateExpr.doExpr (tuple : Option T) : PredicateExpr T → PredicateExpr T × RC
  | .value v => (.value v, .success)
  | .comparison c => (.comparison (c.doExpr tuple).1, (c.doExpr tuple).2)
  | .conjunction type children =>
    (.conjunction type (doChildren tuple .success children).1, (doChildren tuple .success children).2)

/-! ## The operators -/

section

variable (compareValues : CompOp → Value → Value → Bool)

/-- `TableScanPhysicalOperator::filter`. -/
def filter (predicates : List (ComparisonExpr T)) (tuple : T) : Except RC Bool :=
  match predicates with
  | [] => .ok true
  | c :: predicates =>
    match c.getValue compareValues tuple with
    | .error rc => .error rc
    | .ok v => if v.getBoolean then filter predicates tuple else .ok false

/-- `TableScanPhysicalOperator`: the tuples that calls of `next` give until one fails, and its code. -/
def tableScan (predicates : List (ComparisonExpr T)) : List T → List T × RC
  | [] => ([], .recordEof)
  | tuple :: tuples =>
    match filter compareValues predicates tuple with
    | .error rc => ([], rc)
    | .ok true => (tuple :: (tableScan predicates tuples).1, (tableScan predicates tuples).2)
    | .ok false => tableScan predicates tuples

/-- `PredicatePhysicalOperator` over the tuples of its child, which end with a code. -/
def predicateOper (rc : RC) : PredicateExpr T → List T → List T × RC
  | _, [] => ([], rc)
  | e, tuple :: tuples =>
    let done := e.doExpr (some tuple)
    if done.2 ≠ .success then ([], done.2)
    else
      match done.1.getValue compareValues tuple with
      | .error rc' => ([], rc')
      | .ok v =>
        let rest := predicateOper rc done.1 tuples
        if v.getBoolean then (tuple :: rest.1, rest.2) else rest

/-- A projection over a predicate over a table. -/
structure Plan (T R : Type) where
  projection : T → R
  predicate : PredicateExpr T
  predicates : List (ComparisonExpr T)

/-- The planner gives no predicates to a table. -/
def createPlan (projection : T → R) (predicate : PredicateExpr T) : Plan T R := ⟨projection, predicate, []⟩

/-- The plan is opened and asked for tuples until it fails. That a scan cannot be opened is logged only. -/
def Plan.rows (plan : Plan T R) (records : List T) : List R × RC :=
  let opened := plan.predicate.doExpr none
  if opened.2 ≠ .success then ([], opened.2)
  else
    let scan := tableScan compareValues (plan.predicates.map fun c => (c.doExpr none).1) records
    let result := predicateOper compareValues scan.2 opened.1 scan.1
    (result.1.map plan.projection, result.2)

end

/-! ## The rewriter -/

/-- The tests of `get_exprs_can_pushdown` for a comparison. -/
def ComparisonExpr.canPushdown (c : ComparisonExpr T) : Bool :=
  if c.comp ≠ .equalTo then false
  else if !c.left.isField && !c.right.isField then false
  else if !c.left.isField && !c.left.isValue && !c.right.isField && !c.right.isValue then false
  else true

/-- The loop over the children of a conjunction: those that stay and those that are pushed down. -/
def pushdownLoop : List (ComparisonExpr T) → List (ComparisonExpr T) × List (ComparisonExpr T)
  | [] => ([], [])
  | c :: children =>
    let rest := pushdownLoop children
    if c.canPushdown then (rest.1, c :: rest.2) else (c :: rest.1, rest.2)

/-- `get_exprs_can_pushdown`: what is left of the expression, and what is pushed down. -/
def getExprsCanPushdown : PredicateExpr T → Option (PredicateExpr T) × List (ComparisonExpr T)
  | .conjunction .or children => (some (.conjunction .or children), [])
  | .conjunction .and children =>
    (some (.conjunction .and (pushdownLoop children).1), (pushdownLoop children).2)
  | .comparison c => if c.canPushdown then (none, [c]) else (some (.comparison c), [])
  | .value v => (some (.value v), [])

/-- `rewrite`. -/
def Plan.rewrite (plan : Plan T R) : Plan T R :=
  let result := getExprsCanPushdown plan.predicate
  let rest := result.1.getD (.value (.booleans true))
  if result.2 ≠ [] then { plan with predicate := rest, predicates := result.2 } else { plan with predicate := rest }

/-! ## Meaning -/

/-- The values of a subquery for a tuple. -/
def SubQueryExpr.answer (s : SubQueryExpr T) (tuple : T) : List Value × RC :=
  s.run (if s.needParentTuple then some tuple else none)

def Operand.meaning (tuple : T) : Operand T → Value
  | .field findCell => (findCell tuple).toOption.getD .nulls
  | .value v => v
  | .subquery s => (s.answer tuple).1.headD .nulls

section

variable (compareValues : CompOp → Value → Value → Bool)

def ComparisonExpr.holds (c : ComparisonExpr T) (tuple : T) : Bool :=
  compare compareValues c.comp (c.left.meaning tuple) (c.right.meaning tuple)

/-- The predicate holds for a tuple. A conjunction without children is true, whatever its connective. -/
def PredicateExpr.holds (e : PredicateExpr T) (tuple : T) : Bool :=
  match e with
  | .value v => v.getBoolean
  | .comparison c => c.holds compareValues tuple
  | .conjunction .and children => children.all fun c => c.holds compareValues tuple
  | .conjunction .or children => children.isEmpty || children.any fun c => c.holds compareValues tuple

end

namespace Operand

/-- Fields are found, and subqueries succeed and have at most one value. -/
def Defined (tuple : T) : Operand T → Prop
  | .field findCell => ∃ v, findCell tuple = .ok v
  | .value _ => True
  | .subquery s => (s.answer tuple).2 = .success ∧ (s.answer tuple).1.length ≤ 1

/-- A subquery that needs no outer tuple succeeds and has at most one value, also when there is no tuple. -/
def Scalar : Operand T → Prop
  | .subquery s => s.needParentTuple = false → (s.run none).2 = .success ∧ (s.run none).1.length ≤ 1
  | _ => True

/-- No subquery has been run. -/
def Fresh : Operand T → Prop
  | .subquery s => s.valueList = [] ∧ s.finished = false
  | _ => True

/-- A subquery that will not be run again has the values of its run. -/
def Current : Operand T → Prop
  | .subquery s => s.needParentTuple = false → s.finished = true → s.valueList = (s.run none).1
  | _ => True

/-- A subquery that needs the outer tuple. -/
def correlated : Operand T → Bool
  | .subquery s => s.needParentTuple
  | _ => false

/-- The operand after its subquery has been run for a tuple. -/
def ranFor (tuple : T) : Operand T → Operand T
  | .subquery s => .subquery { s with valueList := (s.answer tuple).1, finished := true }
  | operand => operand

/-- The operand after its subquery has been tried without a tuple. -/
def opened : Operand T → Operand T
  | .subquery s =>
    if s.needParentTuple then .subquery s else .subquery { s with valueList := (s.run none).1, finished := true }
  | operand => operand

/-! ## Running the subqueries -/

theorem Fresh.current {operand : Operand T} (h : operand.Fresh) : operand.Current := by
  cases operand with
  | subquery s =>
    intro _ hfinished
    rw [h.2] at hfinished
    cases hfinished
  | _ => trivial

theorem Current.ranFor (tuple : T) (operand : Operand T) : (operand.ranFor tuple).Current := by
  cases operand with
  | subquery s =>
    intro hneed _
    show (s.answer tuple).1 = (s.run none).1
    rw [SubQueryExpr.answer, if_neg (by simpa using hneed)]
  | _ => trivial

theorem meaning_ranFor (tuple tuple' : T) (operand : Operand T) :
    (operand.ranFor tuple).meaning tuple' = operand.meaning tuple' := by
  cases operand <;> rfl

theorem defined_ranFor (tuple tuple' : T) (operand : Operand T) :
    (operand.ranFor tuple).Defined tuple' ↔ operand.Defined tuple' := by
  cases operand <;> exact Iff.rfl

theorem doExpr_some {operand : Operand T} {tuple : T} (hcurrent : operand.Current) (h : operand.Defined tuple) :
    operand.doExpr (some tuple) .success = (operand.ranFor tuple, .success) := by
  cases operand with
  | subquery s =>
    have hdo : s.doExpr (some tuple) = ({ s with valueList := (s.answer tuple).1, finished := true }, .success) := by
      by_cases hneed : s.needParentTuple = true
      · have hanswer : s.answer tuple = s.run (some tuple) := by rw [SubQueryExpr.answer, if_pos hneed]
        rw [SubQueryExpr.doExpr, if_pos hneed]
        show s.executor (some tuple) = _
        rw [SubQueryExpr.executor, if_neg (by simp [hneed]), ← hanswer, if_pos h.1]
      · have hanswer : s.answer tuple = s.run none := by rw [SubQueryExpr.answer, if_neg hneed]
        rw [SubQueryExpr.doExpr, if_neg hneed, SubQueryExpr.executor, hanswer]
        rw [Bool.not_eq_true] at hneed
        by_cases hfinished : s.finished = true
        · rw [if_pos (by simp [hneed, hfinished]), ← hcurrent hneed hfinished, ← hfinished]
        · rw [if_neg (by simp [hfinished]), if_pos (hanswer ▸ h.1)]
    simp only [doExpr, hdo, Operand.ranFor]
  | _ => rfl

theorem not_tooMany_ranFor {operand : Operand T} {tuple : T} (h : operand.Defined tuple) :
    (operand.ranFor tuple).tooMany = false := by
  cases operand with
  | subquery s => exact decide_eq_false (Nat.not_lt.mpr h.2)
  | _ => rfl

theorem getValue_ranFor {operand : Operand T} {tuple : T} (h : operand.Defined tuple) :
    (operand.ranFor tuple).getValue tuple = .ok (operand.meaning tuple) := by
  cases operand with
  | field findCell =>
    obtain ⟨v, hv⟩ := h
    simp only [Operand.ranFor, getValue, meaning, hv]
    rfl
  | value v => rfl
  | subquery s =>
    have hlength := h.2
    simp only [Operand.ranFor, getValue, meaning]
    cases hanswer : (s.answer tuple).1 with
    | nil => rfl
    | cons v values =>
      rw [hanswer, List.length_cons] at hlength
      obtain rfl : values = [] := List.eq_nil_of_length_eq_zero (by omega)
      rfl

theorem opened_of_not_correlated {operand : Operand T} (h : operand.correlated = false) (tuple : T) :
    operand.opened = operand.ranFor tuple := by
  cases operand with
  | subquery s =>
    have hneed : ¬s.needParentTuple = true := by simpa [correlated] using h
    simp only [opened, Operand.ranFor, SubQueryExpr.answer, if_neg hneed]
  | _ => rfl

theorem opened_of_correlated {operand : Operand T} (h : operand.correlated = true) : operand.opened = operand := by
  cases operand with
  | subquery s => exact if_pos h
  | _ => rfl

theorem meaning_opened (tuple : T) (operand : Operand T) : operand.opened.meaning tuple = operand.meaning tuple := by
  cases hcorrelated : operand.correlated with
  | false => rw [opened_of_not_correlated hcorrelated tuple, meaning_ranFor]
  | true => rw [opened_of_correlated hcorrelated]

theorem defined_opened (tuple : T) (operand : Operand T) : operand.opened.Defined tuple ↔ operand.Defined tuple := by
  cases hcorrelated : operand.correlated with
  | false => rw [opened_of_not_correlated hcorrelated tuple, defined_ranFor]
  | true => rw [opened_of_correlated hcorrelated]

theorem doExpr_none {operand : Operand T} (hfresh : operand.Fresh) (hscalar : operand.Scalar) :
    operand.doExpr none .success = (operand.opened, .success) ∧ operand.opened.tooMany = false ∧
      operand.opened.Current := by
  cases operand with
  | subquery s =>
    by_cases hneed : s.needParentTuple = true
    · have hopened : (subquery s).opened = subquery s := if_pos hneed
      have hdo : s.doExpr none = (s, .success) := by rw [SubQueryExpr.doExpr, if_pos hneed]
      rw [hopened]
      refine ⟨?_, ?_, hfresh.current⟩
      · simp only [doExpr, hdo]
      · simp [tooMany, hfresh.1]
    · have hopened : (subquery s).opened = subquery { s with valueList := (s.run none).1, finished := true } :=
        if_neg hneed
      obtain ⟨hrc, hlength⟩ := hscalar (by simpa using hneed)
      have hdo : s.doExpr none = ({ s with valueList := (s.run none).1, finished := true }, .success) := by
        rw [SubQueryExpr.doExpr, if_neg hneed, SubQueryExpr.executor, if_neg (by simp [hfresh.2]), if_pos hrc]
      rw [hopened]
      refine ⟨?_, decide_eq_false (Nat.not_lt.mpr hlength), fun _ _ => rfl⟩
      simp only [doExpr, hdo]
  | _ => exact ⟨rfl, rfl, trivial⟩

theorem getValue_opened_of_correlated {operand : Operand T} (hfresh : operand.Fresh) (h : operand.correlated = true)
    (tuple : T) : operand.opened.getValue tuple = .ok .nulls := by
  rw [opened_of_correlated h]
  cases operand with
  | subquery s => simp only [getValue, hfresh.1]
  | _ => cases h

end Operand

namespace ComparisonExpr

def Defined (tuple : T) (c : ComparisonExpr T) : Prop := c.left.Defined tuple ∧ c.right.Defined tuple

def Scalar (c : ComparisonExpr T) : Prop := c.left.Scalar ∧ c.right.Scalar

def Fresh (c : ComparisonExpr T) : Prop := c.left.Fresh ∧ c.right.Fresh

def Current (c : ComparisonExpr T) : Prop := c.left.Current ∧ c.right.Current

def correlated (c : ComparisonExpr T) : Bool := c.left.correlated || c.right.correlated

def ranFor (tuple : T) (c : ComparisonExpr T) : ComparisonExpr T := ⟨c.comp, c.left.ranFor tuple, c.right.ranFor tuple⟩

def opened (c : ComparisonExpr T) : ComparisonExpr T := ⟨c.comp, c.left.opened, c.right.opened⟩

theorem doExpr_some {c : ComparisonExpr T} {tuple : T} (hcurrent : c.Current) (h : c.Defined tuple) :
    c.doExpr (some tuple) = (c.ranFor tuple, .success) := by
  have hleft := Operand.not_tooMany_ranFor h.1
  have hright := Operand.not_tooMany_ranFor h.2
  simp only [doExpr, Operand.doExpr_some hcurrent.1 h.1, Operand.doExpr_some hcurrent.2 h.2, hleft, hright]
  rfl

theorem doExpr_none {c : ComparisonExpr T} (hfresh : c.Fresh) (hscalar : c.Scalar) :
    c.doExpr none = (c.opened, .success) := by
  obtain ⟨hleft, hleft', -⟩ := Operand.doExpr_none hfresh.1 hscalar.1
  obtain ⟨hright, hright', -⟩ := Operand.doExpr_none hfresh.2 hscalar.2
  simp only [doExpr, hleft, hleft', hright, hright']
  rfl

variable (compareValues : CompOp → Value → Value → Bool)

theorem getValue_eq {c : ComparisonExpr T} {tuple : T} {left right : Value} (hleft : c.left.getValue tuple = .ok left)
    (hright : c.right.getValue tuple = .ok right) :
    c.getValue compareValues tuple = .ok (.booleans (compare compareValues c.comp left right)) := by
  rw [getValue, hleft, hright]
  rfl

theorem getValue_ranFor {c : ComparisonExpr T} {tuple : T} (h : c.Defined tuple) :
    (c.ranFor tuple).getValue compareValues tuple = .ok (.booleans (c.holds compareValues tuple)) :=
  getValue_eq compareValues (Operand.getValue_ranFor h.1) (Operand.getValue_ranFor h.2)

theorem compare_null_left (v : Value) : compare compareValues .equalTo .nulls v = false := by
  simp [compare, Value.isNull, Value.attrType]

theorem compare_null_right (v : Value) : compare compareValues .equalTo v .nulls = false := by
  simp [compare, Value.isNull, Value.attrType]

/-- An equality that is pushed down is false for every tuple, when it needs the outer tuple. -/
theorem getValue_opened {c : ComparisonExpr T} {tuple : T} (hfresh : c.Fresh) (h : c.Defined tuple)
    (hcomp : c.comp = .equalTo) :
    c.opened.getValue compareValues tuple = .ok (.booleans (!c.correlated && c.holds compareValues tuple)) := by
  have hoperand : ∀ operand : Operand T, operand.Fresh → operand.Defined tuple → operand.opened.getValue tuple =
      .ok (if operand.correlated then .nulls else operand.meaning tuple) := by
    intro operand hfresh h
    cases hcorrelated : operand.correlated with
    | false => rw [Operand.opened_of_not_correlated hcorrelated tuple, Operand.getValue_ranFor h]; rfl
    | true => rw [Operand.getValue_opened_of_correlated hfresh hcorrelated]; rfl
  have hvalue := getValue_eq (c := c.opened) compareValues (hoperand c.left hfresh.1 h.1) (hoperand c.right hfresh.2 h.2)
  rw [hvalue]
  show Except.ok (Value.booleans (compare compareValues c.comp _ _)) = _
  rw [correlated, holds, hcomp]
  cases c.left.correlated with
  | true => rw [if_pos rfl, compare_null_left]; rfl
  | false =>
    cases c.right.correlated with
    | true => rw [if_pos rfl, compare_null_right]; rfl
    | false => rfl

end ComparisonExpr

namespace PredicateExpr

/-- A property of all comparisons. -/
def Forall (P : ComparisonExpr T → Prop) : PredicateExpr T → Prop
  | .value _ => True
  | .comparison c => P c
  | .conjunction _ children => ∀ c ∈ children, P c

def map (f : ComparisonExpr T → ComparisonExpr T) : PredicateExpr T → PredicateExpr T
  | .value v => .value v
  | .comparison c => .comparison (f c)
  | .conjunction type children => .conjunction type (children.map f)

theorem Forall.imp {P Q : ComparisonExpr T → Prop} (h : ∀ c, P c → Q c) {e : PredicateExpr T} (he : e.Forall P) :
    e.Forall Q := by
  cases e with
  | value v => trivial
  | comparison c => exact h c he
  | conjunction type children => exact fun c hc => h c (he c hc)

theorem Forall.and {P Q : ComparisonExpr T → Prop} {e : PredicateExpr T} (hP : e.Forall P) (hQ : e.Forall Q) :
    e.Forall fun c => P c ∧ Q c := by
  cases e with
  | value v => trivial
  | comparison c => exact ⟨hP, hQ⟩
  | conjunction type children => exact fun c hc => ⟨hP c hc, hQ c hc⟩

theorem forall_map {P : ComparisonExpr T → Prop} {f : ComparisonExpr T → ComparisonExpr T} {e : PredicateExpr T} :
    (e.map f).Forall P ↔ e.Forall fun c => P (f c) := by
  cases e with
  | conjunction type children => simp [map, Forall]
  | _ => exact Iff.rfl

theorem doChildren_eq {tuple : Option T} {f : ComparisonExpr T → ComparisonExpr T} {children : List (ComparisonExpr T)}
    (h : ∀ c ∈ children, c.doExpr tuple = (f c, .success)) :
    doChildren tuple .success children = (children.map f, .success) := by
  induction children with
  | nil => rfl
  | cons c children ih =>
    have hrest := ih fun c' hc' => h c' (List.mem_cons_of_mem _ hc')
    simp only [doChildren, h c List.mem_cons_self, hrest, List.map_cons]

theorem doExpr_eq {tuple : Option T} {f : ComparisonExpr T → ComparisonExpr T} {e : PredicateExpr T}
    (h : e.Forall fun c => c.doExpr tuple = (f c, .success)) : e.doExpr tuple = (e.map f, .success) := by
  cases e with
  | value v => rfl
  | comparison c =>
    have hc : c.doExpr tuple = (f c, .success) := h
    simp only [doExpr, hc, map]
  | conjunction type children => simp only [doExpr, doChildren_eq h, map]

variable (compareValues : CompOp → Value → Value → Bool)

theorem holds_map {f : ComparisonExpr T → ComparisonExpr T} {tuple : T}
    (h : ∀ c : ComparisonExpr T, (f c).holds compareValues tuple = c.holds compareValues tuple) (e : PredicateExpr T) :
    (e.map f).holds compareValues tuple = e.holds compareValues tuple := by
  cases e with
  | value v => rfl
  | comparison c => exact h c
  | conjunction type children =>
    cases type with
    | and => simp only [map, holds, List.all_map, Function.comp_def, h]
    | or => simp only [map, holds, List.any_map, Function.comp_def, h, List.isEmpty_map]

theorem getValue_ranFor {e : PredicateExpr T} {tuple : T} (h : e.Forall (ComparisonExpr.Defined tuple)) :
    ∃ v, (e.map (ComparisonExpr.ranFor tuple)).getValue compareValues tuple = .ok v ∧
      v.getBoolean = e.holds compareValues tuple := by
  cases e with
  | value v => exact ⟨v, rfl, rfl⟩
  | comparison c => exact ⟨_, ComparisonExpr.getValue_ranFor compareValues h, rfl⟩
  | conjunction type children =>
    apply Expression.ok_of_truth
    have htruth : ∀ c ∈ children, (Expression.other ((c.ranFor tuple).getValue compareValues)).truth tuple =
        some (c.holds compareValues tuple) := by
      intro c hc
      have hvalue := ComparisonExpr.getValue_ranFor compareValues (h c hc)
      rw [Expression.truth, Expression.getValue, hvalue]
      rfl
    have hexpression : ((conjunction type children).map (ComparisonExpr.ranFor tuple)).toExpression compareValues =
        .conjunction type (children.map fun c => .other ((c.ranFor tuple).getValue compareValues)) := by
      simp only [map, toExpression, List.map_map, Function.comp_def]
    rw [hexpression]
    by_cases hnil : children = []
    · subst hnil
      rw [List.map_nil, Expression.truth_conjunction_nil]
      cases type <;> rfl
    · have hdefined : ∀ child ∈ children.map fun c => Expression.other ((c.ranFor tuple).getValue compareValues),
          ∃ b, child.truth tuple = some b := by
        intro child hchild
        obtain ⟨c, hc, rfl⟩ := List.mem_map.mp hchild
        exact ⟨_, htruth c hc⟩
      have hdecisive : (∃ child ∈ children.map fun c => Expression.other ((c.ranFor tuple).getValue compareValues),
          child.truth tuple = some type.decisive) ↔ ∃ c ∈ children, c.holds compareValues tuple = type.decisive := by
        constructor
        · rintro ⟨child, hchild, hb⟩
          obtain ⟨c, hc, rfl⟩ := List.mem_map.mp hchild
          exact ⟨c, hc, Option.some.inj ((htruth c hc).symm.trans hb)⟩
        · rintro ⟨c, hc, hb⟩
          exact ⟨_, List.mem_map.mpr ⟨c, hc, rfl⟩, (htruth c hc).trans (congrArg some hb)⟩
      rw [Expression.truth_conjunction hdefined (by simpa using hnil)]
      simp only [hdecisive, Option.some.injEq]
      cases type with
      | and =>
        rw [Bool.eq_iff_iff, holds, List.all_eq_true]
        simp [ConjunctionType.decisive]
      | or =>
        rw [Bool.eq_iff_iff, holds, Bool.or_eq_true, List.any_eq_true]
        simp [ConjunctionType.decisive, hnil]

end PredicateExpr

/-! ## What the operators give -/

section

variable (compareValues : CompOp → Value → Value → Bool)

theorem holds_ranFor (tuple tuple' : T) (c : ComparisonExpr T) :
    (c.ranFor tuple).holds compareValues tuple' = c.holds compareValues tuple' := by
  simp only [ComparisonExpr.holds, ComparisonExpr.ranFor, Operand.meaning_ranFor]

theorem holds_opened (tuple : T) (c : ComparisonExpr T) :
    c.opened.holds compareValues tuple = c.holds compareValues tuple := by
  simp only [ComparisonExpr.holds, ComparisonExpr.opened, Operand.meaning_opened]

/-- The predicate operator keeps the tuples for which its predicate holds. The state of the expression changes from tuple to
tuple, but not its meaning. -/
theorem predicateOper_eq (rc : RC) {e : PredicateExpr T} {tuples : List T} (hcurrent : e.Forall ComparisonExpr.Current)
    (h : ∀ tuple ∈ tuples, e.Forall (ComparisonExpr.Defined tuple)) :
    predicateOper compareValues rc e tuples = (tuples.filter (e.holds compareValues), rc) := by
  induction tuples generalizing e with
  | nil => rfl
  | cons tuple tuples ih =>
    have hhere := h tuple List.mem_cons_self
    have hdo : e.doExpr (some tuple) = (e.map (ComparisonExpr.ranFor tuple), .success) :=
      PredicateExpr.doExpr_eq ((hcurrent.and hhere).imp fun c hc => ComparisonExpr.doExpr_some hc.1 hc.2)
    have hcurrent' : (e.map (ComparisonExpr.ranFor tuple)).Forall ComparisonExpr.Current :=
      PredicateExpr.forall_map.mpr (hcurrent.imp fun c _ => ⟨Operand.Current.ranFor _ _, Operand.Current.ranFor _ _⟩)
    have hdefined : ∀ tuple' ∈ tuples,
        (e.map (ComparisonExpr.ranFor tuple)).Forall (ComparisonExpr.Defined tuple') := by
      intro tuple' htuple'
      refine PredicateExpr.forall_map.mpr ((h tuple' (List.mem_cons_of_mem _ htuple')).imp fun c hc => ?_)
      exact ⟨(Operand.defined_ranFor _ _ _).mpr hc.1, (Operand.defined_ranFor _ _ _).mpr hc.2⟩
    have hholds : (e.map (ComparisonExpr.ranFor tuple)).holds compareValues = e.holds compareValues :=
      funext fun tuple' => PredicateExpr.holds_map compareValues (holds_ranFor compareValues tuple tuple') e
    obtain ⟨v, hv, hboolean⟩ := PredicateExpr.getValue_ranFor compareValues hhere
    have hrest := ih hcurrent' hdefined
    rw [hholds] at hrest
    simp only [predicateOper, hdo, hv, hrest, hboolean, List.filter_cons]
    cases e.holds compareValues tuple <;> rfl

/-- An equality whose subquery needs the outer tuple lets no tuple pass the scan. -/
def pushedHolds (tuple : T) (c : ComparisonExpr T) : Bool := !c.correlated && c.holds compareValues tuple

theorem filter_eq {predicates : List (ComparisonExpr T)} {tuple : T}
    (h : ∀ c ∈ predicates, c.Fresh ∧ c.Defined tuple ∧ c.comp = .equalTo) :
    filter compareValues (predicates.map ComparisonExpr.opened) tuple =
      .ok (predicates.all (pushedHolds compareValues tuple)) := by
  induction predicates with
  | nil => rfl
  | cons c predicates ih =>
    obtain ⟨hfresh, hdefined, hcomp⟩ := h c List.mem_cons_self
    have hrest := ih fun c' hc' => h c' (List.mem_cons_of_mem _ hc')
    have hvalue := ComparisonExpr.getValue_opened compareValues hfresh hdefined hcomp
    rw [List.map_cons, filter, hvalue, List.all_cons, pushedHolds]
    cases !c.correlated && c.holds compareValues tuple with
    | true => exact hrest
    | false => rfl

theorem tableScan_eq {predicates : List (ComparisonExpr T)} {tuples : List T}
    (h : ∀ tuple ∈ tuples, ∀ c ∈ predicates, c.Fresh ∧ c.Defined tuple ∧ c.comp = .equalTo) :
    tableScan compareValues (predicates.map ComparisonExpr.opened) tuples =
      (tuples.filter fun tuple => predicates.all (pushedHolds compareValues tuple), .recordEof) := by
  induction tuples with
  | nil => rfl
  | cons tuple tuples ih =>
    have hrest := ih fun tuple' htuple' => h tuple' (List.mem_cons_of_mem _ htuple')
    rw [tableScan, filter_eq compareValues (h tuple List.mem_cons_self), List.filter_cons, hrest]
    cases predicates.all (pushedHolds compareValues tuple) <;> rfl

/-- A plan that has not been run: fields are found, and subqueries succeed and have at most one value. -/
structure PredicateExpr.Scalar (e : PredicateExpr T) (records : List T) : Prop where
  fresh : e.Forall ComparisonExpr.Fresh
  opened : e.Forall ComparisonExpr.Scalar
  defined : ∀ tuple ∈ records, e.Forall (ComparisonExpr.Defined tuple)

theorem Plan.rows_eq (plan : Plan T R) {records : List T} (h : plan.predicate.Scalar records)
    (hpredicates : ∀ c ∈ plan.predicates, c.Fresh ∧ c.Scalar ∧ c.comp = .equalTo ∧
      ∀ tuple ∈ records, c.Defined tuple) :
    plan.rows compareValues records = ((records.filter fun tuple =>
      plan.predicates.all (pushedHolds compareValues tuple) && plan.predicate.holds compareValues tuple).map
        plan.projection, .recordEof) := by
  have hopen : plan.predicate.doExpr none = (plan.predicate.map ComparisonExpr.opened, .success) :=
    PredicateExpr.doExpr_eq ((h.fresh.and h.opened).imp fun c hc => ComparisonExpr.doExpr_none hc.1 hc.2)
  have hpushed : plan.predicates.map (fun c => (c.doExpr none).1) = plan.predicates.map ComparisonExpr.opened := by
    apply List.map_congr_left
    intro c hc
    rw [ComparisonExpr.doExpr_none (hpredicates c hc).1 (hpredicates c hc).2.1]
  have hscan : tableScan compareValues (plan.predicates.map ComparisonExpr.opened) records =
      (records.filter fun tuple => plan.predicates.all (pushedHolds compareValues tuple), .recordEof) := by
    refine tableScan_eq compareValues fun tuple htuple c hc => ?_
    obtain ⟨hfresh, -, hcomp, hdefined⟩ := hpredicates c hc
    exact ⟨hfresh, hdefined tuple htuple, hcomp⟩
  have hcurrent : (plan.predicate.map ComparisonExpr.opened).Forall ComparisonExpr.Current :=
    PredicateExpr.forall_map.mpr ((h.fresh.and h.opened).imp fun c hc =>
      ⟨(Operand.doExpr_none hc.1.1 hc.2.1).2.2, (Operand.doExpr_none hc.1.2 hc.2.2).2.2⟩)
  have hholds : (plan.predicate.map ComparisonExpr.opened).holds compareValues = plan.predicate.holds compareValues :=
    funext fun tuple => PredicateExpr.holds_map compareValues (holds_opened compareValues tuple) plan.predicate
  have hdefined : ∀ tuple ∈ records.filter fun tuple => plan.predicates.all (pushedHolds compareValues tuple),
      (plan.predicate.map ComparisonExpr.opened).Forall (ComparisonExpr.Defined tuple) := by
    intro tuple htuple
    refine PredicateExpr.forall_map.mpr ((h.defined tuple (List.mem_of_mem_filter htuple)).imp fun c hc => ?_)
    exact ⟨(Operand.defined_opened _ _).mpr hc.1, (Operand.defined_opened _ _).mpr hc.2⟩
  have hpredicate := predicateOper_eq compareValues .recordEof hcurrent hdefined
  simp only [Plan.rows, hopen, hpushed, hscan, hpredicate, hholds, List.filter_filter]
  simp [Bool.and_comm]

end

/-! ## What is pushed down -/

theorem pushdownLoop_eq (children : List (ComparisonExpr T)) :
    pushdownLoop children = (children.filter fun c => !c.canPushdown, children.filter ComparisonExpr.canPushdown) := by
  induction children with
  | nil => rfl
  | cons c children ih =>
    simp only [pushdownLoop, ih, List.filter_cons]
    cases c.canPushdown <;> rfl

theorem rewrite_createPlan (projection : T → R) (e : PredicateExpr T) :
    (createPlan projection e).rewrite =
      ⟨projection, (getExprsCanPushdown e).1.getD (.value (.booleans true)), (getExprsCanPushdown e).2⟩ := by
  rw [Plan.rewrite]
  by_cases hnil : (getExprsCanPushdown e).2 = []
  · rw [hnil]
    exact if_neg (not_not.mpr hnil)
  · exact if_pos hnil

/-- An equality of a field with a subquery that needs the outer tuple. -/
def ComparisonExpr.fieldEqualsCorrelated (c : ComparisonExpr T) : Bool :=
  decide (c.comp = .equalTo) && ((c.left.isField && c.right.correlated) || (c.right.isField && c.left.correlated))

/-- Such an equality is the predicate, or one of the conditions that `AND` connects. -/
def PredicateExpr.pushesCorrelated : PredicateExpr T → Bool
  | .conjunction .and children => children.any ComparisonExpr.fieldEqualsCorrelated
  | .comparison c => c.fieldEqualsCorrelated
  | _ => false

/-- The last test of `get_exprs_can_pushdown` excludes nothing. -/
theorem ComparisonExpr.canPushdown_eq (c : ComparisonExpr T) :
    c.canPushdown = (decide (c.comp = .equalTo) && (c.left.isField || c.right.isField)) := by
  unfold canPushdown
  by_cases hcomp : c.comp = .equalTo
  · cases hleft : c.left.isField <;> cases hright : c.right.isField <;> simp [hcomp]
  · simp [hcomp]

theorem Operand.correlated_of_isField {operand : Operand T} (h : operand.isField = true) :
    operand.correlated = false := by
  cases operand with
  | field findCell => rfl
  | _ => cases h

theorem ComparisonExpr.canPushdown_and_correlated (c : ComparisonExpr T) :
    (c.canPushdown && c.correlated) = c.fieldEqualsCorrelated := by
  rw [canPushdown_eq, correlated, fieldEqualsCorrelated]
  cases hleft : c.left.isField <;> cases hright : c.right.isField <;>
    simp [Operand.correlated_of_isField, hleft, hright]

theorem pushesCorrelated_eq (e : PredicateExpr T) :
    e.pushesCorrelated = (getExprsCanPushdown e).2.any ComparisonExpr.correlated := by
  cases e with
  | value v => rfl
  | comparison c =>
    rw [PredicateExpr.pushesCorrelated, ← c.canPushdown_and_correlated, getExprsCanPushdown]
    cases c.canPushdown <;> simp
  | conjunction type children =>
    cases type with
    | or => rfl
    | and =>
      rw [getExprsCanPushdown, pushdownLoop_eq, List.any_filter]
      simp only [PredicateExpr.pushesCorrelated, ComparisonExpr.canPushdown_and_correlated]

theorem holds_eq (compareValues : CompOp → Value → Value → Bool) (e : PredicateExpr T) (tuple : T) :
    e.holds compareValues tuple = ((getExprsCanPushdown e).2.all (fun c => c.holds compareValues tuple) &&
      ((getExprsCanPushdown e).1.getD (.value (.booleans true))).holds compareValues tuple) := by
  cases e with
  | value v => rfl
  | comparison c =>
    rw [getExprsCanPushdown]
    cases c.canPushdown <;> simp [PredicateExpr.holds, Value.getBoolean]
  | conjunction type children =>
    cases type with
    | or => rfl
    | and =>
      simp only [getExprsCanPushdown, pushdownLoop_eq, Option.getD_some, PredicateExpr.holds, List.all_filter]
      induction children with
      | nil => rfl
      | cons c children ih =>
        simp only [List.all_cons, ih]
        cases c.canPushdown <;> cases c.holds compareValues tuple <;> simp

theorem forall_pushdown {P : ComparisonExpr T → Prop} {e : PredicateExpr T} (h : e.Forall P) :
    (∀ c ∈ (getExprsCanPushdown e).2, P c ∧ c.canPushdown = true) ∧
      ((getExprsCanPushdown e).1.getD (.value (.booleans true))).Forall P := by
  cases e with
  | value v => exact ⟨by simp [getExprsCanPushdown], trivial⟩
  | comparison c =>
    rw [getExprsCanPushdown]
    cases hpush : c.canPushdown with
    | true => exact ⟨by simpa using ⟨h, hpush⟩, trivial⟩
    | false => exact ⟨by simp, h⟩
  | conjunction type children =>
    cases type with
    | or => exact ⟨by simp [getExprsCanPushdown], h⟩
    | and =>
      rw [getExprsCanPushdown, pushdownLoop_eq]
      constructor
      · intro c hc
        obtain ⟨hmem, hpush⟩ := List.mem_filter.mp hc
        exact ⟨h c hmem, hpush⟩
      · intro c hc
        exact h c (List.mem_of_mem_filter hc)

theorem rows_createPlan (compareValues : CompOp → Value → Value → Bool) (projection : T → R) {e : PredicateExpr T}
    {records : List T} (h : e.Scalar records) :
    ((createPlan projection e).rows compareValues records).1 =
        (records.filter (e.holds compareValues)).map projection ∧
      ((createPlan projection e).rewrite.rows compareValues records).1 =
        (if e.pushesCorrelated then [] else (records.filter (e.holds compareValues)).map projection) := by
  constructor
  · rw [Plan.rows_eq compareValues (createPlan projection e) h (by simp [createPlan])]
    simp [createPlan]
  · obtain ⟨hpushedFresh, hfresh⟩ := forall_pushdown h.fresh
    obtain ⟨hpushedScalar, hscalar⟩ := forall_pushdown h.opened
    rw [rewrite_createPlan, Plan.rows_eq compareValues _ ⟨hfresh, hscalar, ?_⟩ ?_]
    · rw [pushesCorrelated_eq]
      cases hany : (getExprsCanPushdown e).2.any ComparisonExpr.correlated with
      | true =>
        -- the equality lets no tuple pass the scan
        obtain ⟨c, hc, hcorrelated⟩ := List.any_eq_true.mp hany
        have hnone : ∀ tuple, (getExprsCanPushdown e).2.all (pushedHolds compareValues tuple) = false := by
          intro tuple
          exact List.all_eq_false.mpr ⟨c, hc, by simp [pushedHolds, hcorrelated]⟩
        simp [hnone]
      | false =>
        have hsame : ∀ tuple, (getExprsCanPushdown e).2.all (pushedHolds compareValues tuple) =
            (getExprsCanPushdown e).2.all fun c => c.holds compareValues tuple := by
          intro tuple
          rw [Bool.eq_iff_iff, List.all_eq_true, List.all_eq_true]
          refine forall₂_congr fun c hc => ?_
          have hcorrelated := List.any_eq_false.mp hany c hc
          simp [pushedHolds, hcorrelated]
        simp only [hsame, ← holds_eq]
        rfl
    · intro tuple htuple
      exact (forall_pushdown (h.defined tuple htuple)).2
    · intro c hc
      have hpush := (hpushedFresh c hc).2
      rw [ComparisonExpr.canPushdown_eq, Bool.and_eq_true, decide_eq_true_eq] at hpush
      refine ⟨(hpushedFresh c hc).1, (hpushedScalar c hc).1, hpush.1, ?_⟩
      intro tuple htuple
      exact ((forall_pushdown (h.defined tuple htuple)).1 c hc).1

/-- The rows stay the same, unless an equality with a subquery that needs the outer tuple is pushed down and there is a row
to be lost. -/
theorem rewrite_rows_iff (compareValues : CompOp → Value → Value → Bool) (projection : T → R) {e : PredicateExpr T}
    {records : List T} (h : e.Scalar records) :
    ((createPlan projection e).rewrite.rows compareValues records).1 =
        ((createPlan projection e).rows compareValues records).1 ↔
      e.pushesCorrelated = false ∨ ∀ tuple ∈ records, e.holds compareValues tuple = false := by
  obtain ⟨hbefore, hafter⟩ := rows_createPlan compareValues projection h
  rw [hbefore, hafter]
  cases e.pushesCorrelated with
  | false => simp
  | true =>
    rw [if_pos rfl, or_iff_right (by decide), eq_comm, List.map_eq_nil_iff, List.filter_eq_nil_iff]
    simp

/-! ## A query that loses its rows -/

/-- `a = (SELECT b FROM t2 WHERE t2.c = t1.a)`, where the tuples are values of `a` and the subquery gives this value. -/
def correlatedEquality : ComparisonExpr ℤ where
  comp := .equalTo
  left := .field fun a => .ok (.ints a)
  right := .subquery { needParentTuple := true, run := fun parent => (parent.toList.map Value.ints, .success) }

/-- `a = (SELECT min(b) FROM t2)`. -/
def plainEquality : ComparisonExpr ℤ where
  comp := .equalTo
  left := .field fun a => .ok (.ints a)
  right := .subquery { needParentTuple := false, run := fun _ => ([.ints 1], .success) }

def intsEqual (_ : CompOp) (left right : Value) : Bool := left == right

theorem plainEquality_scalar (records : List ℤ) :
    (PredicateExpr.conjunction .and [plainEquality]).Scalar records := by
  have hforall : ∀ P : ComparisonExpr ℤ → Prop, P plainEquality →
      (PredicateExpr.conjunction .and [plainEquality]).Forall P := fun P hP c hc => List.mem_singleton.mp hc ▸ hP
  refine ⟨hforall _ ⟨trivial, rfl, rfl⟩, hforall _ ⟨trivial, fun _ => ⟨rfl, le_rfl⟩⟩, ?_⟩
  intro tuple _
  exact hforall _ ⟨⟨_, rfl⟩, rfl, le_rfl⟩

theorem rewrite_rows_plain :
    (PredicateExpr.conjunction .and [plainEquality]).Scalar [1, 2] ∧
      ((createPlan id (.conjunction .and [plainEquality])).rewrite.rows intsEqual [1, 2]).1 =
        ((createPlan id (.conjunction .and [plainEquality])).rows intsEqual [1, 2]).1 :=
  ⟨plainEquality_scalar _, (rewrite_rows_iff intsEqual id (plainEquality_scalar _)).mpr (Or.inl (by decide +kernel))⟩

theorem rewrite_rows_lost :
    (createPlan id (.conjunction .and [correlatedEquality])).rows intsEqual [1] = ([1], .recordEof) ∧
      (createPlan id (.conjunction .and [correlatedEquality])).rewrite.rows intsEqual [1] = ([], .recordEof) := by
  decide +kernel

end Landbase.Sql.Pushdown
