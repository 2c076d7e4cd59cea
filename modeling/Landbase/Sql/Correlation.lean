import Landbase.Sql.PredicatePushdown

/-! # Correlated subqueries

`SubQueryExpr::if_need_parent_tuple` of `sql/expr/sub_query_expr.cpp` decides once, when a subquery is created, whether it
is run again for each outer tuple. It looks for a condition between fields of two tables, in the subquery and in those
nested in it, and does not look into the `FROM` lists.

A table is given by its name: the pointers that are compared are those of the names of two `Table`s.
-/

namespace Landbase.Sql.Correlation
open Landbase.Sql.Pushdown (SubQueryExpr)
set_option autoImplicit false

/-! ## Statements -/

mutual

/-- What matters of a `SelectStmt`: the tables of the `FROM` list and of the joins, and the filter units that come from the
`WHERE` clause and from the conditions of the joins. -/
inductive SelectStmt
  | mk (tables : List String) (whereUnits joinUnits : FilterUnits)

/-- The filter units in their order, each with its left and its right side. -/
inductive FilterUnits
  | nil
  | cons (left right : UnitSide) (units : FilterUnits)

/-- A side of a filter unit: a field of a table, a constant, a list of values or a subquery. -/
inductive UnitSide
  | field (table : String)
  | value
  | valueList
  | subQuery (stmt : SelectStmt)

end

/-- `left_expr->table_name() != right_expr->table_name()`, for two fields. -/
def fieldsDiffer : UnitSide → UnitSide → Bool
  | .field t, .field u => t != u
  | _, _ => false

mutual

/-- `if_need_parent_tuple`. -/
def SelectStmt.ifNeedParentTuple : SelectStmt → Bool
  | .mk _ whereUnits joinUnits => whereUnits.needParentTuple || joinUnits.needParentTuple

/-- Its loop over the units. -/
def FilterUnits.needParentTuple : FilterUnits → Bool
  | .nil => false
  | .cons left right units =>
    fieldsDiffer left right || left.needParentTuple || right.needParentTuple || units.needParentTuple

/-- `need_parent_tuple()` of a side, which was set when the nested subquery was created. -/
def UnitSide.needParentTuple : UnitSide → Bool
  | .subQuery stmt => stmt.ifNeedParentTuple
  | _ => false

end

/-! ## Mentions -/

def FilterUnits.toList : FilterUnits → List (UnitSide × UnitSide)
  | .nil => []
  | .cons left right units => (left, right) :: units.toList

namespace SelectStmt

def tables : SelectStmt → List String
  | .mk tables _ _ => tables

def whereUnits : SelectStmt → List (UnitSide × UnitSide)
  | .mk _ units _ => units.toList

def units : SelectStmt → List (UnitSide × UnitSide)
  | .mk _ whereUnits joinUnits => whereUnits.toList ++ joinUnits.toList

/-- A statement and those nested in its `WHERE` clause, at any depth. -/
inductive InWhere : SelectStmt → SelectStmt → Prop
  | self (stmt : SelectStmt) : InWhere stmt stmt
  | left {stmt sub inner : SelectStmt} {right : UnitSide} (h : (.subQuery sub, right) ∈ stmt.whereUnits)
      (hinner : InWhere sub inner) : InWhere stmt inner
  | right {stmt sub inner : SelectStmt} {left : UnitSide} (h : (left, .subQuery sub) ∈ stmt.whereUnits)
      (hinner : InWhere sub inner) : InWhere stmt inner

/-- The same with the conditions of the joins. -/
inductive Within : SelectStmt → SelectStmt → Prop
  | self (stmt : SelectStmt) : Within stmt stmt
  | left {stmt sub inner : SelectStmt} {right : UnitSide} (h : (.subQuery sub, right) ∈ stmt.units)
      (hinner : Within sub inner) : Within stmt inner
  | right {stmt sub inner : SelectStmt} {left : UnitSide} (h : (left, .subQuery sub) ∈ stmt.units)
      (hinner : Within sub inner) : Within stmt inner

/-- The `WHERE` clause mentions, at some depth, a field of a table that is neither in the `FROM` list of the statement nor
in that of the statement with the mention. -/
def Correlated (stmt : SelectStmt) : Prop :=
  ∃ inner table other, InWhere stmt inner ∧
    ((.field table, other) ∈ inner.whereUnits ∨ (other, .field table) ∈ inner.whereUnits) ∧
    table ∉ stmt.tables ∧ table ∉ inner.tables

/-- Some condition, at some depth, is between fields of two tables. -/
def ComparesTables (stmt : SelectStmt) : Prop :=
  ∃ inner t u, Within stmt inner ∧ (.field t, .field u) ∈ inner.units ∧ t ≠ u

end SelectStmt

/-! ## What is detected -/

/-- A unit with fields of two tables, or with a subquery that has one. -/
def UnitCompares (unit : UnitSide × UnitSide) : Prop :=
  (∃ t u, unit = (.field t, .field u) ∧ t ≠ u) ∨
    (∃ stmt, unit.1 = .subQuery stmt ∧ stmt.ComparesTables) ∨ ∃ stmt, unit.2 = .subQuery stmt ∧ stmt.ComparesTables

theorem fieldsDiffer_iff (left right : UnitSide) :
    fieldsDiffer left right = true ↔ ∃ t u, (left, right) = (.field t, .field u) ∧ t ≠ u := by
  cases left <;> cases right <;> simp [fieldsDiffer]

theorem comparesTables_iff (stmt : SelectStmt) : stmt.ComparesTables ↔ ∃ unit ∈ stmt.units, UnitCompares unit := by
  constructor
  · rintro ⟨inner, t, u, hwithin, hunit, hne⟩
    cases hwithin with
    | self => exact ⟨_, hunit, Or.inl ⟨t, u, rfl, hne⟩⟩
    | left h hinner => exact ⟨_, h, Or.inr (Or.inl ⟨_, rfl, inner, t, u, hinner, hunit, hne⟩)⟩
    | right h hinner => exact ⟨_, h, Or.inr (Or.inr ⟨_, rfl, inner, t, u, hinner, hunit, hne⟩)⟩
  · rintro ⟨⟨left, right⟩, hunit, ⟨t, u, heq, hne⟩ | ⟨sub, heq, inner, t, u, hinner, h⟩ | ⟨sub, heq, inner, t, u, hinner, h⟩⟩
    · exact ⟨stmt, t, u, .self stmt, heq ▸ hunit, hne⟩
    · obtain rfl : left = .subQuery sub := heq
      exact ⟨inner, t, u, .left hunit hinner, h⟩
    · obtain rfl : right = .subQuery sub := heq
      exact ⟨inner, t, u, .right hunit hinner, h⟩

/-- The three functions by induction over the statements, the units and the sides. -/
theorem ifNeedParentTuple_iff (stmt : SelectStmt) : stmt.ifNeedParentTuple = true ↔ stmt.ComparesTables := by
  refine @SelectStmt.rec (fun stmt => stmt.ifNeedParentTuple = true ↔ stmt.ComparesTables)
    (fun units => units.needParentTuple = true ↔ ∃ unit ∈ units.toList, UnitCompares unit)
    (fun side => side.needParentTuple = true ↔ ∃ stmt, side = .subQuery stmt ∧ stmt.ComparesTables)
    ?_ ?_ ?_ ?_ ?_ ?_ ?_ stmt
  · intro tables whereUnits joinUnits hwhere hjoin
    rw [SelectStmt.ifNeedParentTuple, Bool.or_eq_true, hwhere, hjoin, comparesTables_iff]
    simp only [SelectStmt.units, List.mem_append, or_and_right, exists_or]
  · simp [FilterUnits.needParentTuple, FilterUnits.toList]
  · intro left right units hleft hright hunits
    rw [FilterUnits.needParentTuple, Bool.or_eq_true, Bool.or_eq_true, Bool.or_eq_true, fieldsDiffer_iff, hleft, hright,
      hunits, FilterUnits.toList, List.exists_mem_cons_iff, UnitCompares, or_assoc, or_assoc, or_assoc, or_assoc]
  · intro table
    simp [UnitSide.needParentTuple]
  · simp [UnitSide.needParentTuple]
  · simp [UnitSide.needParentTuple]
  · intro stmt hstmt
    simp [UnitSide.needParentTuple, hstmt]

/-! ## Running a subquery for the outer tuples -/

section

variable {T : Type}

/-- The subquery that is created for a statement, where `run` is what its plan gives. -/
def SelectStmt.subQueryExpr (stmt : SelectStmt) (run : Option T → List Value × RC) : SubQueryExpr T where
  needParentTuple := stmt.ifNeedParentTuple
  run := run

/-- The values of a subquery when `do_subquery_expr` has been called for one outer tuple after the other. -/
def valuesSeen (s : SubQueryExpr T) : List T → List (List Value)
  | [] => []
  | tuple :: tuples => (s.doExpr (some tuple)).1.valueList :: valuesSeen (s.doExpr (some tuple)).1 tuples

/-- The parts of a subquery that a run leaves as they are. -/
theorem doExpr_needParentTuple (s : SubQueryExpr T) (tuple : Option T) (h : s.needParentTuple = true) :
    (s.doExpr tuple).1.needParentTuple = true ∧ (s.doExpr tuple).1.run = s.run := by
  cases tuple with
  | none => simp [SubQueryExpr.doExpr, h]
  | some t =>
    by_cases hrun : (s.run (some t)).2 = .success <;> simp [SubQueryExpr.doExpr, SubQueryExpr.executor, h, hrun]

theorem valuesSeen_of_needParentTuple {s : SubQueryExpr T} (h : s.needParentTuple = true) (tuples : List T) :
    valuesSeen s tuples = tuples.map fun tuple => (s.run (some tuple)).1 := by
  induction tuples generalizing s with
  | nil => rfl
  | cons tuple tuples ih =>
    obtain ⟨hneed, hrun⟩ := doExpr_needParentTuple s (some tuple) h
    have hvalues : (s.doExpr (some tuple)).1.valueList = (s.run (some tuple)).1 := by
      by_cases hsuccess : (s.run (some tuple)).2 = .success <;>
        simp [SubQueryExpr.doExpr, SubQueryExpr.executor, h, hsuccess]
    rw [valuesSeen, ih hneed, hrun, hvalues, List.map_cons]

end

/-- If the statement is correlated, then this is detected, and the values for each outer tuple are those of a run with it. -/
def SelectStmt.Detected (stmt : SelectStmt) : Prop :=
  stmt.Correlated → stmt.ifNeedParentTuple = true ∧
    ∀ (T : Type) (run : Option T → List Value × RC) (tuples : List T),
      valuesSeen (stmt.subQueryExpr run) tuples = tuples.map fun tuple => (run (some tuple)).1

/-- The condition that mentions the outer table need not be the one between two tables. -/
theorem detected_iff (stmt : SelectStmt) : stmt.Detected ↔ (stmt.Correlated → stmt.ComparesTables) := by
  rw [SelectStmt.Detected, ← ifNeedParentTuple_iff]
  refine forall_congr' fun _ => ⟨And.left, fun h => ⟨h, ?_⟩⟩
  intro T run tuples
  exact valuesSeen_of_needParentTuple (s := stmt.subQueryExpr run) h tuples

/-- `SELECT … FROM b WHERE a.x = 1`. -/
def outerEqualsConstant : SelectStmt := .mk ["b"] (.cons (.field "a") .value .nil) .nil

theorem outerEqualsConstant_not_detected :
    outerEqualsConstant.Correlated ∧ outerEqualsConstant.ifNeedParentTuple = false ∧ ¬outerEqualsConstant.Detected := by
  have hcorrelated : outerEqualsConstant.Correlated :=
    ⟨outerEqualsConstant, "a", .value, .self _, Or.inl List.mem_cons_self, by decide, by decide⟩
  have hneed : outerEqualsConstant.ifNeedParentTuple = false := by decide
  refine ⟨hcorrelated, hneed, fun hdetected => ?_⟩
  have htrue := (hdetected hcorrelated).1
  rw [hneed] at htrue
  exact Bool.noConfusion htrue

end Landbase.Sql.Correlation
