import Landbase.Sql.Compare

/-! # `InExpr`

The operators `IN` and `NOT IN` of `sql/expr/expression.h`. They look the left value up in the list by `std::find`, whose
equality of values is `Value::compare_value`, while `=` and `<>` go through `Value::compare`: the one knows no conversions
and takes a `NULL` to be equal to a `NULL`, the other converts between some of the types, and no comparison with a `NULL`
is true.
-/

namespace Landbase.Sql
open Landbase.Index
set_option autoImplicit false

/-! ## The expression -/

/-- `ValueListExpr::contains`, with `Value::operator==` for the elements. -/
def contains (valueList : List Value) (value : Value) : Bool :=
  valueList.any fun v => Value.compareValue v value == .equalTo

/-- An `InExpr`, whose right side is a list of values, or the list that a subquery has left. -/
def inExpr {T : Type} (left : Expression T) (comp : CompOp) (valueList : List Value) : Expression T :=
  .other fun tuple =>
    match left.getValue tuple with
    | .error rc => .error rc
    | .ok leftValue =>
      let boolValue := contains valueList leftValue
      .ok (.booleans (if comp = .notIn then !boolValue else boolValue))

section
variable {T : Type} (tuple : T)

theorem inExpr_true_iff (x : Value) (valueList : List Value) :
    (inExpr (.value x) .in valueList).getValue tuple = .ok (.booleans true) ↔ contains valueList x = true := by
  simp [inExpr, Expression.getValue]

theorem notInExpr_true_iff (x : Value) (valueList : List Value) :
    (inExpr (.value x) .notIn valueList).getValue tuple = .ok (.booleans true) ↔ contains valueList x = false := by
  simp [inExpr, Expression.getValue]

end

/-! ## Equality of two values -/

theorem strncmp_swap (n : ℕ) (s t : Bytes) : strncmp n t s = -strncmp n s t := by
  induction n generalizing s t with
  | zero => rfl
  | succ n ih =>
    rw [strncmp, strncmp]
    by_cases hne : s.headD 0 = t.headD 0
    · rw [if_neg (not_not.mpr hne.symm), if_neg (not_not.mpr hne), hne]
      split_ifs
      · rfl
      · exact ih _ _
    · rw [if_pos hne, if_pos (Ne.symm hne), neg_sub]

theorem compareStringValue_neg (s t : Bytes) : compareStringValue t s = -compareStringValue s t := by
  unfold compareStringValue compareString
  simp only [min_comm t.length s.length, strncmp_swap _ s t, neg_ne_zero]
  split_ifs <;> omega

theorem toNat_eq_iff (b c : Bool) : b.toNat = c.toNat ↔ b = c := by
  cases b <;> cases c <;> decide

/-- Two values of one type that are equal. -/
def Same : Value → Value → Prop
  | .ints i, .ints j => i = j
  | .floats f, .floats g => compareFloatValue f g = 0
  | .texts s, .texts t | .chars s, .chars t => compareStringValue s t = 0
  | .dates d, .dates e => d = e
  | .booleans b, .booleans c => b = c
  | _, _ => False

/-- Two values that are not equal, of one type or after a conversion that `Value::compare` makes. -/
def Distinct (lib : CompareLib) : Value → Value → Prop
  | .ints i, .ints j => i ≠ j
  | .floats f, .floats g => compareFloatValue f g ≠ 0
  | .texts s, .texts t | .chars s, .chars t => compareStringValue s t ≠ 0
  | .dates d, .dates e => d ≠ e
  | .booleans b, .booleans c => b ≠ c
  | .ints i, .floats g => compareFloatValue (floatOfInt i) g ≠ 0
  | .floats f, .ints j => compareFloatValue f (floatOfInt j) ≠ 0
  | .chars s, .ints j => compareFloatValue (lib.strToFloat s) (floatOfInt j) ≠ 0
  | .chars s, .floats g => compareFloatValue (lib.strToFloat s) g ≠ 0
  | .dates d, .chars s => ∀ memory, convertStringToDate lib.overflow memory s ≠ d
  | _, _ => False

theorem Same.symm {v x : Value} (h : Same v x) : Same x v := by
  cases v <;> cases x <;> first | exact h.elim | exact Eq.symm h | skip
  case chars.chars s t => exact (compareStringValue_neg s t).trans (neg_eq_zero.mpr h)
  case texts.texts s t => exact (compareStringValue_neg s t).trans (neg_eq_zero.mpr h)
  case floats.floats f g => exact (compareFloatValue_swap f g).trans (neg_eq_zero.mpr h)

/-- `Value::operator==`. -/
theorem compareValue_equalTo_iff (v x : Value) :
    Value.compareValue v x = .equalTo ↔ Same v x ∨ (v = .nulls ∧ x = .nulls) := by
  have hzero : ∀ c : ℤ, CompOp.ofResult c = .equalTo ↔ c = 0 := by
    intro c
    unfold CompOp.ofResult
    split_ifs <;> simp_all
  cases v <;> cases x <;>
    simp [Value.compareValue, Value.isNull, Value.attrType, Value.compareSameType, Same, hzero,
      Stored.compareIntValue_zero_iff, toNat_eq_iff]

variable (lib : CompareLib)

theorem compare_equalTo_of_same {x v : Value} (h : Same x v) (memory : CompareMemory) :
    (x.compare lib memory .equalTo v).1 = true := by
  cases x <;> cases v <;> first | exact h.elim | skip
  all_goals
    unfold Same at h
    simp [Value.compare, Value.isNull, Value.attrType, Value.cmpSameType, CompOp.holds,
      Stored.compareIntValue_zero_iff, h]

instance : Nonempty CompareMemory := ⟨⟨0, ⟨0, 0, 0⟩⟩⟩

/-- A comparison by `<>` that is true whatever the memory holds. A number and a string are no such pair: the memory can
hold the number. -/
theorem compare_notEqual_iff (x v : Value) :
    (∀ memory, (x.compare lib memory .notEqual v).1 = true) ↔ Distinct lib x v := by
  have hgarbage : ∀ f : ℤ, ∃ memory : CompareMemory, compareFloatValue memory.numValue f = 0 := by
    intro f
    obtain ⟨g, hg⟩ := exists_compareFloatValue f (Or.inl rfl)
    exact ⟨⟨g, ⟨0, 0, 0⟩⟩, hg⟩
  cases x <;> cases v <;>
    simp [Value.compare, Value.isNull, Value.attrType, Value.cmpSameType, Value.compareOtherType, CompOp.holds,
      Distinct, Value.castFloats, Stored.compareIntValue_zero_iff, toNat_eq_iff, hgarbage]
  case dates.chars d s =>
    exact ⟨fun h memory heq => h ⟨0, memory⟩ heq.symm, fun h memory heq => h memory.date heq.symm⟩

theorem not_holds_equalTo {c : ℤ} (h : CompOp.notEqual.holds c = true) : CompOp.equalTo.holds c = false := by
  simpa [CompOp.holds] using h

theorem not_compare_equalTo {x v : Value} {memory : CompareMemory}
    (h : (x.compare lib memory .notEqual v).1 = true) : (x.compare lib memory .equalTo v).1 = false := by
  unfold Value.compare at h ⊢
  rw [if_neg (by decide), if_neg (by decide)] at h ⊢
  by_cases hnull : x.isNull ∨ v.isNull
  · rw [if_pos hnull]
  rw [if_neg hnull] at h ⊢
  by_cases htype : x.attrType = v.attrType
  · rw [if_pos htype] at h ⊢
    have hcmp : x.cmpSameType lib .equalTo v = x.cmpSameType lib .notEqual v := by
      cases x <;> cases v <;> rfl
    rw [hcmp]
    exact not_holds_equalTo h
  · rw [if_neg htype] at h ⊢
    cases x <;> cases v <;> first | rfl | exact not_holds_equalTo h

/-! ## `IN` against `=` and `<>` -/

theorem contains_iff (valueList : List Value) (x : Value) :
    contains valueList x = true ↔ ∃ v ∈ valueList, Same v x ∨ (v = .nulls ∧ x = .nulls) := by
  simp [contains, compareValue_equalTo_iff]

/-- `IN` is true exactly when one of the values is equal to `x`, and `NOT IN` only when all of them are different and none
is `NULL`, whatever the memory holds in the comparisons. -/
def InRight (x : Value) (valueList : List Value) : Prop :=
  ∀ memory : Value → CompareMemory,
    ((inExpr (.value x) .in valueList).getValue () = .ok (.booleans true) ↔
      ∃ v ∈ valueList, (x.compare lib (memory v) .equalTo v).1 = true) ∧
    ((inExpr (.value x) .notIn valueList).getValue () = .ok (.booleans true) →
      (∀ v ∈ valueList, (x.compare lib (memory v) .notEqual v).1 = true) ∧ x.isNull = false ∧
        ∀ v ∈ valueList, v.isNull = false)

variable {lib} {x : Value} {valueList : List Value}

theorem inRight_of_same (h : ∃ v ∈ valueList, Same v x) : InRight lib x valueList := by
  obtain ⟨v, hv, hsame⟩ := h
  have hcontains : contains valueList x = true := (contains_iff _ _).mpr ⟨v, hv, Or.inl hsame⟩
  intro memory
  rw [inExpr_true_iff, notInExpr_true_iff, hcontains]
  exact ⟨iff_of_true rfl ⟨v, hv, compare_equalTo_of_same lib hsame.symm _⟩, fun h => absurd h (by decide)⟩

theorem inRight_of_distinct (hx : x ≠ .nulls) (h : ∀ v ∈ valueList, Distinct lib x v) : InRight lib x valueList := by
  by_cases hsame : ∃ v ∈ valueList, Same v x
  · exact inRight_of_same hsame
  have hcontains : contains valueList x = false := by
    rw [← Bool.not_eq_true, contains_iff]
    rintro ⟨v, hv, hequal | ⟨-, hnull⟩⟩
    · exact hsame ⟨v, hv, hequal⟩
    · exact hx hnull
  intro memory
  have hne : ∀ v ∈ valueList, (x.compare lib (memory v) .notEqual v).1 = true :=
    fun v hv => (compare_notEqual_iff lib x v).mpr (h v hv) (memory v)
  rw [inExpr_true_iff, notInExpr_true_iff, hcontains]
  refine ⟨iff_of_false (by decide) ?_, fun _ => ⟨hne, ?_, ?_⟩⟩
  · rintro ⟨v, hv, hequal⟩
    rw [not_compare_equalTo lib (hne v hv)] at hequal
    cases hequal
  · cases x <;> first | rfl | exact absurd rfl hx
  · intro v hv
    have hdistinct := h v hv
    cases x <;> cases v <;> first | rfl | exact hdistinct.elim

/-- `IN` and `NOT IN` are right when `x` is found among the values of its own type, and when it is no `NULL` and different
from all of them after the conversions that there are. -/
theorem inRight_iff (lib : CompareLib) (x : Value) (valueList : List Value) :
    InRight lib x valueList ↔
      (∃ v ∈ valueList, Same v x) ∨ (x ≠ .nulls ∧ ∀ v ∈ valueList, Distinct lib x v) := by
  constructor
  · intro h
    by_cases hsame : ∃ v ∈ valueList, Same v x
    · exact Or.inl hsame
    have hall := fun memory : CompareMemory => h fun _ => memory
    simp only [inExpr_true_iff, notInExpr_true_iff] at hall
    by_cases hcontains : contains valueList x = true
    · -- a `NULL` that was found
      obtain ⟨v, hv, hequal | ⟨-, rfl⟩⟩ := (contains_iff _ _).mp hcontains
      · exact absurd ⟨v, hv, hequal⟩ hsame
      · obtain ⟨w, -, hw⟩ := (hall ⟨0, ⟨0, 0, 0⟩⟩).1.mp hcontains
        exact absurd hw (by simp [Value.compare, Value.isNull, Value.attrType])
    · have hnot := fun memory => (hall memory).2 (Bool.not_eq_true _ ▸ hcontains)
      refine Or.inr ⟨?_, fun v hv => (compare_notEqual_iff lib x v).mp fun memory => (hnot memory).1 v hv⟩
      rintro rfl
      exact absurd (hnot ⟨0, ⟨0, 0, 0⟩⟩).2.1 (by decide)
  · rintro (hsame | ⟨hx, hdistinct⟩)
    · exact inRight_of_same hsame
    · exact inRight_of_distinct hx hdistinct

/-- `NULL IN (NULL)` and `1 NOT IN (NULL)` are true. -/
theorem not_inRight_null :
    (inExpr (.value .nulls) .in [.nulls]).getValue () = .ok (.booleans true) ∧
      (inExpr (.value (.ints 1)) .notIn [.nulls]).getValue () = .ok (.booleans true) ∧
      ¬InRight digitsLib .nulls [.nulls] ∧ ¬InRight digitsLib (.ints 1) [.nulls] := by
  have hin : (inExpr (.value .nulls) .in [.nulls]).getValue () = .ok (.booleans true) := by rfl
  have hnotin : (inExpr (.value (.ints 1)) .notIn [.nulls]).getValue () = .ok (.booleans true) := by rfl
  refine ⟨hin, hnotin, fun h => ?_, fun h => ?_⟩
  · obtain ⟨v, -, hv⟩ := (h fun _ => ⟨0, ⟨0, 0, 0⟩⟩).1.mp hin
    exact absurd hv (by simp [Value.compare, Value.isNull, Value.attrType])
  · have hnull := ((h fun _ => ⟨0, ⟨0, 0, 0⟩⟩).2 hnotin).2.2 .nulls (by simp)
    exact absurd hnull (by decide)

end Landbase.Sql
