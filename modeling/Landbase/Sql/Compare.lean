import Landbase.Sql.OrderBy
import Landbase.Sql.Date

/-! # `Value::compare`

The comparison in `sql/parser/value.cpp` by which conditions are decided. Values of one type are compared as they are;
a number and a string meet as floats, and a date is compared with the date that a string is converted into, which is left
in place of the string.

What a conversion leaves of a string in a float, and what `LIKE` makes of two strings, are parameters, and so is what the
memory of a value holds that has not been set.
-/

namespace Landbase.Sql
open Landbase.Index
set_option autoImplicit false

/-! ## Comparing -/

/-- The library: `int`s that are out of range, `stringstream >> float` with zero for a failure, and `string_match`. -/
structure CompareLib where
  overflow : ℤ → ℤ
  strToFloat : Bytes → ℤ
  stringMatch : Bytes → Bytes → ℤ

/-- What the memory of a call holds: the float in a `Value` that is `NULL`, and the variables of a date. -/
structure CompareMemory where
  numValue : ℤ
  date : DateMemory

/-- The conversion of an `int` into a `float`. -/
def floatOfInt (i : ℤ) : ℤ := roundFloat (i * 2 ^ 149)

/-- The switch at the end of `Value::compare`. -/
def CompOp.holds (op : CompOp) (cmpResult : ℤ) : Bool :=
  match op with
  | .equalTo => cmpResult == 0
  | .lessEqual => decide (cmpResult ≤ 0)
  | .notEqual => cmpResult != 0
  | .lessThan => decide (cmpResult < 0)
  | .greatEqual => decide (cmpResult ≥ 0)
  | .greatThan => decide (cmpResult > 0)
  | .like => cmpResult == 0
  | .notLike => cmpResult != 0
  | _ => false

namespace Value

/-- The float in a value after `type_cast(FLOATS)`: a value that is not converted keeps what its memory holds. -/
def castFloats (lib : CompareLib) (memory : CompareMemory) : Value → ℤ
  | .floats f => f
  | .ints i => floatOfInt i
  | .chars s | .texts s => lib.strToFloat s
  | _ => memory.numValue

/-- `cmp_result` for two values of one type. Types that are not supported leave its zero. Of `BOOLEANS` the source compares
four bytes where `set_boolean` has written one; here the flags are compared, as when the other three are zero. -/
def cmpSameType (lib : CompareLib) (op : CompOp) (self other : Value) : ℤ :=
  match self, other with
  | .ints i, .ints j => compareIntValue i j
  | .floats f, .floats g => compareFloatValue f g
  | .texts s, .texts t | .chars s, .chars t =>
    if op = .like ∨ op = .notLike then lib.stringMatch s t else compareStringValue s t
  | .dates d, .dates e => compareIntValue d e
  | .booleans b, .booleans c => compareIntValue b.toNat c.toNat
  | _, _ => 0

/-- The branches of `Value::compare` for values of two types. -/
def compareOtherType (lib : CompareLib) (memory : CompareMemory) (op : CompOp) (self other : Value) : Bool × Value :=
  match self, other with
  | .ints i, .floats g => (op.holds (compareFloatValue (floatOfInt i) g), other)
  | .floats f, .ints j => (op.holds (compareFloatValue f (floatOfInt j)), other)
  | .dates d, .chars s =>
    let temp := convertStringToDate lib.overflow memory.date s
    (op.holds (compareIntValue d temp), .dates temp)
  | .ints _, .chars _ | .floats _, .chars _ =>
    -- the declaration `Value self, oppsite = *this, *other` sets `oppsite` only
    (op.holds (compareFloatValue (castFloats lib memory .nulls) (castFloats lib memory self)), other)
  | .chars _, .ints _ | .chars _, .floats _ =>
    (op.holds (compareFloatValue (castFloats lib memory self) (castFloats lib memory other)), other)
  | _, _ => (false, other)

/-- `Value::compare`: its result, and the other value after it. -/
def compare (lib : CompareLib) (memory : CompareMemory) (op : CompOp) (self other : Value) : Bool × Value :=
  if op = .is then (self.isNull && other.isNull, other)
  else if op = .isNot then (self.attrType != other.attrType && other.isNull, other)
  else if self.isNull ∨ other.isNull then (false, other)
  else if self.attrType = other.attrType then (op.holds (cmpSameType lib op self other), other)
  else compareOtherType lib memory op self other

end Value

/-! ## Turning a comparison round -/

theorem roundFloat_neg (x : ℤ) : roundFloat (-x) = -roundFloat x := by
  have hulp : (0 : ℤ) < 2 ^ (Nat.log2 x.natAbs - 23) := by positivity
  unfold roundFloat
  simp only [Int.natAbs_neg]
  generalize (2 : ℤ) ^ (Nat.log2 x.natAbs - 23) = ulp at hulp
  have hx := Int.emod_add_mul_ediv x ulp
  have hlo := Int.emod_nonneg x hulp.ne'
  have hhi := Int.emod_lt_of_pos x hulp
  by_cases hzero : x % ulp = 0
  · have hneg : -x = ulp * -(x / ulp) := by linarith
    have hq : -x / ulp = -(x / ulp) := by rw [hneg, Int.mul_ediv_cancel_left _ hulp.ne']
    have hr : -x % ulp = 0 := by rw [hneg, Int.mul_emod_right]
    rw [hq, hr, hzero, if_pos (Or.inl (by omega)), if_pos (Or.inl (by omega)), neg_mul]
  · have hneg : -x = (ulp - x % ulp) + ulp * (-(x / ulp) - 1) := by linarith
    have hq : -x / ulp = -(x / ulp) - 1 := by
      rw [hneg, Int.add_mul_ediv_left _ _ hulp.ne', Int.ediv_eq_zero_of_lt (by omega) (by omega), zero_add]
    have hr : -x % ulp = ulp - x % ulp := by
      rw [hneg, Int.add_mul_emod_self_left, Int.emod_eq_of_lt (by omega) (by omega)]
    rw [hq, hr]
    split_ifs <;> first | omega | ring

theorem compareFloatValue_swap (f g : ℤ) : compareFloatValue g f = -compareFloatValue f g := by
  have hneg : roundFloat (g - f) = -roundFloat (f - g) := by rw [← roundFloat_neg, neg_sub]
  have heps : 0 ≤ epsilon := by decide
  unfold compareFloatValue
  simp only [hneg]
  split_ifs <;> omega

theorem compareFloatValue_sub {f g d : ℤ} (h : g - f = d) :
    compareFloatValue g f = compareFloatValue d 0 := by
  unfold compareFloatValue
  rw [h, sub_zero]

/-- Next to every float there are others that are equal, less and greater. -/
theorem exists_compareFloatValue (f : ℤ) {c : ℤ} (hc : c = 0 ∨ c = 1 ∨ c = -1) :
    ∃ g, compareFloatValue g f = c := by
  rcases hc with rfl | rfl | rfl
  · exact ⟨f, (compareFloatValue_sub (sub_self f)).trans (by decide +kernel)⟩
  · exact ⟨f + 2 ^ 149, (compareFloatValue_sub (add_sub_cancel_left f _)).trans (by decide +kernel)⟩
  · exact ⟨f + -2 ^ 149, (compareFloatValue_sub (add_sub_cancel_left f _)).trans (by decide +kernel)⟩

namespace CompOp

/-- The comparisons `=`, `<>`, `<`, `<=`, `>` and `>=`. -/
def Relational (op : CompOp) : Prop :=
  op ∈ [equalTo, notEqual, lessThan, lessEqual, greatThan, greatEqual]

/-- The comparison that says the same with the sides exchanged. -/
def flipped : CompOp → CompOp
  | .lessThan => .greatThan
  | .lessEqual => .greatEqual
  | .greatThan => .lessThan
  | .greatEqual => .lessEqual
  | op => op

variable {op : CompOp}

theorem holds_flipped (h : op.Relational) (c : ℤ) : op.flipped.holds (-c) = op.holds c := by
  rw [Bool.eq_iff_iff]
  simp only [Relational, List.mem_cons, List.not_mem_nil, or_false] at h
  rcases h with rfl | rfl | rfl | rfl | rfl | rfl <;> simp [flipped, holds]

/-- Every comparison comes out true and comes out false. -/
theorem exists_holds (h : op.Relational) (b : Bool) : ∃ c : ℤ, (c = 0 ∨ c = 1 ∨ c = -1) ∧ op.holds c = b := by
  simp only [Relational, List.mem_cons, List.not_mem_nil, or_false] at h
  rcases h with rfl | rfl | rfl | rfl | rfl | rfl <;> cases b <;>
    first
    | exact ⟨0, by decide, rfl⟩
    | exact ⟨1, by decide, rfl⟩
    | exact ⟨-1, by decide, rfl⟩

instance (op : CompOp) : Decidable op.Relational :=
  inferInstanceAs (Decidable (op ∈ [equalTo, notEqual, lessThan, lessEqual, greatThan, greatEqual]))

theorem Relational.flipped (h : op.Relational) : op.flipped.Relational := by
  cases op <;> first | decide | exact absurd h (by decide)

theorem Relational.ne (h : op.Relational) {other : CompOp} (hother : ¬other.Relational) : op ≠ other := by
  rintro rfl
  exact hother h

end CompOp

/-! ## Symmetry -/

/-- A value of the types `INTS`, `FLOATS`, `CHARS` and `DATES`. -/
def Comparable : Value → Prop
  | .ints _ | .floats _ | .dates _ => True
  | .chars s => NoNul s
  | _ => False

section
variable (lib : CompareLib)

/-- Whatever the memory holds in the two calls, they have one result and leave the values as they are. -/
def CompareSymmetric (op : CompOp) (v w : Value) : Prop :=
  ∀ memory memory', (v.compare lib memory op w).1 = (w.compare lib memory' op.flipped v).1 ∧
    (v.compare lib memory op w).2 = w ∧ (w.compare lib memory' op.flipped v).2 = v

variable {lib} {op : CompOp} {v w : Value}

theorem Value.eq_chars {u : Value} (h : u.attrType = .chars) : ∃ s, u = .chars s := by
  cases u <;> first | exact ⟨_, rfl⟩ | cases h

theorem Comparable.isNull (h : Comparable v) : v.isNull = false := by
  cases v <;> first | rfl | exact h.elim

theorem cmpSameType_swap (hop : op.Relational) (hv : Comparable v) (hw : Comparable w)
    (htype : v.attrType = w.attrType) :
    Value.cmpSameType lib op.flipped w v = -Value.cmpSameType lib op v w := by
  have hlike : ¬(op = .like ∨ op = .notLike) :=
    not_or.mpr ⟨hop.ne (by decide), hop.ne (by decide)⟩
  have hlike' : ¬(op.flipped = .like ∨ op.flipped = .notLike) :=
    not_or.mpr ⟨hop.flipped.ne (by decide), hop.flipped.ne (by decide)⟩
  cases v <;> cases w <;> first | exact hv.elim | exact hw.elim | cases htype
  case chars.chars s t =>
    simp only [Value.cmpSameType, if_neg hlike, if_neg hlike']
    exact compareStringValue_swap hv hw
  case dates.dates d e => exact Stored.compareIntValue_swap d e
  case ints.ints i j => exact Stored.compareIntValue_swap i j
  case floats.floats f g => exact compareFloatValue_swap f g

theorem compare_sameType (hop : op.Relational) (hv : Comparable v) (hw : Comparable w) (memory : CompareMemory)
    (htype : v.attrType = w.attrType) : v.compare lib memory op w = (op.holds (v.cmpSameType lib op w), w) := by
  rw [Value.compare, if_neg (hop.ne (by decide)), if_neg (hop.ne (by decide)),
    if_neg (by simp [hv.isNull, hw.isNull]), if_pos htype]

theorem compare_otherType (hop : op.Relational) (hv : Comparable v) (hw : Comparable w) (memory : CompareMemory)
    (htype : v.attrType ≠ w.attrType) : v.compare lib memory op w = v.compareOtherType lib memory op w := by
  rw [Value.compare, if_neg (hop.ne (by decide)), if_neg (hop.ne (by decide)),
    if_neg (by simp [hv.isNull, hw.isNull]), if_neg htype]

/-- A number that is compared with a string is in truth compared with what the memory holds. -/
theorem exists_memory_result {x : ℤ} {s : Bytes} (hop : op.Relational)
    (hnum : ∀ memory, v.compare lib memory op (.chars s) = (op.holds (compareFloatValue memory.numValue x), .chars s))
    (b : Bool) : ∃ memory, (v.compare lib memory op (.chars s)).1 = b := by
  obtain ⟨c, hc, hholds⟩ := CompOp.exists_holds hop b
  obtain ⟨g, hg⟩ := exists_compareFloatValue x hc
  exact ⟨⟨g, ⟨0, 0, 0⟩⟩, by rw [hnum, hg, hholds]⟩

/-- The results of a number in front of a string. -/
theorem exists_memory_number {s : Bytes} (hop : op.Relational) (hs : NoNul s) (hv : v.attrType = .ints ∨ v.attrType = .floats)
    (b : Bool) : ∃ memory, (v.compare lib memory op (.chars s)).1 = b := by
  cases v <;> first | (rcases hv with hv | hv <;> cases hv; done) | skip
  case ints i =>
    exact exists_memory_result hop
      (fun memory => compare_otherType hop (v := .ints i) (w := .chars s) trivial hs memory fun h => by cases h) b
  case floats f =>
    exact exists_memory_result hop
      (fun memory => compare_otherType hop (v := .floats f) (w := .chars s) trivial hs memory fun h => by cases h) b

theorem CompareSymmetric.swap (h : CompareSymmetric lib op v w) : CompareSymmetric lib op.flipped w v := by
  have hback : op.flipped.flipped = op := by
    cases op <;> rfl
  intro memory memory'
  obtain ⟨hresult, hw, hv⟩ := h memory' memory
  rw [hback]
  exact ⟨hresult.symm, hv, hw⟩

/-- A string on one side only. -/
theorem not_compareSymmetric_chars {s : Bytes} (hop : op.Relational) (hv : Comparable v) (hs : NoNul s)
    (htype : v.attrType ≠ .chars) : ¬CompareSymmetric lib op v (.chars s) := by
  intro h
  have hmemory : CompareMemory := ⟨0, ⟨0, 0, 0⟩⟩
  by_cases hdates : v.attrType = .dates
  · have hsame := (h hmemory hmemory).2.1
    rw [compare_otherType hop hv (w := .chars s) hs hmemory htype] at hsame
    cases v <;> first | (cases hdates; done) | cases hsame
  · have hnumber : v.attrType = .ints ∨ v.attrType = .floats := by
      cases v <;> first | exact Or.inl rfl | exact Or.inr rfl | exact absurd rfl htype | exact absurd rfl hdates | exact hv.elim
    obtain ⟨memory, hresult⟩ : ∃ memory, (v.compare lib memory op (.chars s)).1 =
        !(Value.compare lib hmemory op.flipped (.chars s) v).1 := exists_memory_number hop hs hnumber _
    have hsame := (h memory hmemory).1
    rw [hresult] at hsame
    exact Bool.not_ne_self _ hsame

/-- Numbers of two types meet as floats; a number and a date are not comparable, whichever stands first. -/
theorem compareOtherType_symm (hop : op.Relational) (hv : Comparable v) (hw : Comparable w)
    (htype : v.attrType ≠ w.attrType) (hvc : v.attrType ≠ .chars) (hwc : w.attrType ≠ .chars)
    (memory memory' : CompareMemory) :
    (v.compareOtherType lib memory op w).1 = (w.compareOtherType lib memory' op.flipped v).1 ∧
      (v.compareOtherType lib memory op w).2 = w ∧ (w.compareOtherType lib memory' op.flipped v).2 = v := by
  have hfloats : ∀ f g : ℤ, op.holds (compareFloatValue f g) = op.flipped.holds (compareFloatValue g f) := by
    intro f g
    rw [compareFloatValue_swap f g, CompOp.holds_flipped hop]
  cases v <;> cases w <;>
    first
    | exact hv.elim
    | exact hw.elim
    | exact absurd rfl htype
    | exact absurd rfl hvc
    | exact absurd rfl hwc
    | exact ⟨rfl, rfl, rfl⟩
    | exact ⟨hfloats _ _, rfl, rfl⟩

theorem compareSymmetric_of_chars_iff (hop : op.Relational) (hv : Comparable v) (hw : Comparable w)
    (hchars : v.attrType = .chars ↔ w.attrType = .chars) : CompareSymmetric lib op v w := by
  intro memory memory'
  by_cases htype : v.attrType = w.attrType
  · rw [compare_sameType hop hv hw memory htype, compare_sameType hop.flipped hw hv memory' htype.symm,
      cmpSameType_swap hop hv hw htype, CompOp.holds_flipped hop]
    exact ⟨rfl, rfl, rfl⟩
  · have hvc : v.attrType ≠ .chars := fun h => htype (h.trans (hchars.mp h).symm)
    have hwc : w.attrType ≠ .chars := fun h => hvc (hchars.mpr h)
    rw [compare_otherType hop hv hw memory htype, compare_otherType hop.flipped hw hv memory' (Ne.symm htype)]
    exact compareOtherType_symm hop hv hw htype hvc hwc memory memory'

/-- Two values can change sides unless exactly one of them is a string. -/
theorem compareSymmetric_iff (hop : op.Relational) (hv : Comparable v) (hw : Comparable w) :
    CompareSymmetric lib op v w ↔ (v.attrType = .chars ↔ w.attrType = .chars) := by
  constructor
  · intro h
    by_contra hone
    by_cases hvc : v.attrType = .chars
    · have hwc : w.attrType ≠ .chars := fun hwc => hone (iff_of_true hvc hwc)
      obtain ⟨s, rfl⟩ := Value.eq_chars hvc
      exact not_compareSymmetric_chars hop.flipped hw hv hwc h.swap
    · have hwc : w.attrType = .chars := by
        by_contra hwc
        exact hone (iff_of_false hvc hwc)
      obtain ⟨s, rfl⟩ := Value.eq_chars hwc
      exact not_compareSymmetric_chars hop hv hw hvc h
  · exact compareSymmetric_of_chars_iff hop hv hw

end

/-- The library on strings of digits, on numbers in range and on patterns without wildcards. -/
def digitsLib : CompareLib := ⟨id, fun s => decimal s * 2 ^ 149, fun s t => if s = t then 0 else -1⟩

theorem compareSymmetric_iff_one_two : CompareSymmetric digitsLib .lessThan (.ints 1) (.floats (2 ^ 150)) :=
  (compareSymmetric_iff (v := .ints 1) (w := .floats (2 ^ 150)) (by decide) trivial trivial).mpr (by decide)

/-- `5 = '5'` is decided by what the memory holds, while `'5' = 5` is true; and a string is made a date. -/
theorem not_compareSymmetric_five :
    ((Value.ints 5).compare digitsLib ⟨0, 0, 0, 0⟩ .equalTo (.chars [53])).1 = false ∧
      ((Value.chars [53]).compare digitsLib ⟨0, 0, 0, 0⟩ .equalTo (.ints 5)).1 = true ∧
      ¬CompareSymmetric digitsLib .equalTo (.ints 5) (.chars [53]) ∧
      ((Value.dates 20000101).compare digitsLib ⟨0, 0, 0, 0⟩ .equalTo (.chars [50, 48, 48, 48, 45, 49, 45, 49])).2 =
        .dates 20000101 := by
  have hleft : ((Value.ints 5).compare digitsLib ⟨0, 0, 0, 0⟩ .equalTo (.chars [53])).1 = false := by decide +kernel
  have hright : ((Value.chars [53]).compare digitsLib ⟨0, 0, 0, 0⟩ .equalTo (.ints 5)).1 = true := by decide +kernel
  refine ⟨hleft, hright, fun h => ?_, by decide +kernel⟩
  have hsame := (h ⟨0, 0, 0, 0⟩ ⟨0, 0, 0, 0⟩).1
  rw [hleft] at hsame
  exact Bool.false_ne_true (hsame.trans hright)

end Landbase.Sql
