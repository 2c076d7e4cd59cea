import Landbase.Sql.Filter

/-! # `Value::compare_value`

The comparison of two values in `sql/parser/value.cpp`, by which `ORDER BY` sorts and `MAX` and `MIN` select. A `NULL` is
below everything else, and strings of different lengths are compared by their common prefix first. Of the byte behind a
common prefix `common::compare_string` returns the value as a plain `char`, which is signed: a string that goes on with a
byte from `0x80` on is below its own prefix, while `strncmp` ranks the same byte above the others.
-/

namespace Landbase.Sql
open Landbase.Index
set_option autoImplicit false

/-- `common::compare_int` on two values. -/
def compareIntValue (v1 v2 : ℤ) : ℤ := if v1 > v2 then 1 else if v1 < v2 then -1 else 0

/-- `common::compare_float` on two values. -/
def compareFloatValue (v1 v2 : ℤ) : ℤ :=
  let cmp := roundFloat (v1 - v2)
  if cmp > epsilon then 1 else if cmp < -epsilon then -1 else 0

/-- `common::compare_string` on two `std::string`s. -/
def compareStringValue (s1 s2 : Bytes) : ℤ := compareString s1 s1.length s2 s2.length

/-- The operator that a three-way result stands for. -/
def CompOp.ofResult (compResult : ℤ) : CompOp :=
  if compResult = 0 then .equalTo
  else if compResult < 0 then .lessThan
  else if compResult > 0 then .greatThan
  else .noOp

namespace Value

/-- `Value::set_data` on a value whose type is set. The strings end before the first NUL. -/
def setData (type : AttrType) (data : Bytes) (length : ℕ) : Value :=
  match type with
  | .texts => .texts ((data.take length).takeWhile (· ≠ 0))
  | .chars => .chars ((data.take length).takeWhile (· ≠ 0))
  | .ints => .ints (intOfBytes data)
  | .floats => .floats (floatOfBytes data)
  | .booleans => .booleans (intOfBytes data != 0)
  | .dates => .dates (intOfBytes data)
  | .nulls => .nulls
  | .undefined => .undefined

/-- The switch of `Value::compare_value`, for two values of one type. -/
def compareSameType (left right : Value) : CompOp :=
  match left, right with
  | .texts s1, .texts s2 | .chars s1, .chars s2 => CompOp.ofResult (compareStringValue s1 s2)
  | .dates d1, .dates d2 => CompOp.ofResult (compareIntValue d1 d2)
  | .ints i1, .ints i2 => CompOp.ofResult (compareIntValue i1 i2)
  | .floats f1, .floats f2 => CompOp.ofResult (compareFloatValue f1 f2)
  | .booleans b1, .booleans b2 => CompOp.ofResult (compareIntValue b1.toNat b2.toNat)
  | .nulls, .nulls => .equalTo
  | _, _ => .noOp

/-- `Value::compare_value`. -/
def compareValue (left right : Value) : CompOp :=
  if left.attrType ≠ right.attrType then
    if ¬left.isNull ∧ ¬right.isNull then .noOp
    else if left.isNull then .lessThan
    else .greatThan
  else compareSameType left right

end Value

/-! ## The order of strings -/

/-- No byte of the string is NUL. -/
def NoNul (s : Bytes) : Prop := (0 : UInt8) ∉ s

theorem noNul_cons {c : UInt8} {s : Bytes} : NoNul (c :: s) ↔ c ≠ 0 ∧ NoNul s := by
  unfold NoNul
  rw [List.mem_cons, not_or, ne_comm]

theorem noNul_takeWhile (s : Bytes) : NoNul (s.takeWhile (· ≠ 0)) := by
  intro h
  have hall : (s.takeWhile (· ≠ 0)).all (· ≠ 0) = true := List.all_takeWhile
  simpa using List.all_eq_true.mp hall 0 h

/-- The string `t` goes on behind `s` with an ASCII character, `u` with a byte from `0x80` on. -/
def Straddles (s t u : Bytes) : Prop :=
  ∃ (c d : UInt8) (t' u' : Bytes), t = s ++ c :: t' ∧ u = s ++ d :: u' ∧ c.toNat < 128 ∧ 128 ≤ d.toNat

theorem Straddles.cons {s t u : Bytes} (c : UInt8) (h : Straddles s t u) : Straddles (c :: s) (c :: t) (c :: u) := by
  obtain ⟨a, b, t', u', rfl, rfl, ha, hb⟩ := h
  exact ⟨a, b, t', u', rfl, rfl, ha, hb⟩

theorem straddles_nil {c d : UInt8} {t u : Bytes} (hc : c.toNat < 128) (hd : 128 ≤ d.toNat) :
    Straddles [] (c :: t) (d :: u) :=
  ⟨c, d, t, u, rfl, rfl, hc, hd⟩

theorem signedChar_nonpos_iff {c : UInt8} (hc : c ≠ 0) : signedChar c ≤ 0 ↔ 128 ≤ c.toNat := by
  have hpos : c.toNat ≠ 0 := fun h => hc (UInt8.toNat_inj.mp h)
  have hlt := c.toNat_lt
  unfold signedChar
  rw [Int.bmod_def]
  split <;> omega

theorem signedChar_ne_zero {c : UInt8} (hc : c ≠ 0) : signedChar c ≠ 0 := by
  have hpos : c.toNat ≠ 0 := fun h => hc (UInt8.toNat_inj.mp h)
  have hlt := c.toNat_lt
  unfold signedChar
  rw [Int.bmod_def]
  split <;> omega

theorem neg_signedChar_nonpos_iff {c : UInt8} (hc : c ≠ 0) : -signedChar c ≤ 0 ↔ c.toNat < 128 := by
  have hne := signedChar_ne_zero hc
  have hiff := signedChar_nonpos_iff hc
  omega

theorem compareStringValue_nil : compareStringValue [] [] = 0 := rfl

theorem compareStringValue_nil_right (c : UInt8) (s : Bytes) : compareStringValue (c :: s) [] = signedChar c := by
  simp [compareStringValue, compareString, strncmp]

theorem compareStringValue_nil_left (c : UInt8) (s : Bytes) : compareStringValue [] (c :: s) = -signedChar c := by
  simp [compareStringValue, compareString, strncmp]

theorem compareStringValue_cons {c d : UInt8} (hc : c ≠ 0) (s t : Bytes) :
    compareStringValue (c :: s) (d :: t) =
      if c = d then compareStringValue s t else (c.toNat : ℤ) - d.toNat := by
  have hmin : min (s.length + 1) (t.length + 1) = min s.length t.length + 1 := by omega
  by_cases hcd : c = d
  · simp [compareStringValue, compareString, hmin, strncmp, hcd ▸ hc, hcd]
  · have hne : (c.toNat : ℤ) - d.toNat ≠ 0 := by
      intro h
      exact hcd (UInt8.toNat_inj.mp (by omega))
    simp [compareStringValue, compareString, hmin, strncmp, hcd, hne]

theorem compareStringValue_swap {s t : Bytes} (hs : NoNul s) (ht : NoNul t) :
    compareStringValue t s = -compareStringValue s t := by
  induction s generalizing t with
  | nil =>
    cases t with
    | nil => rfl
    | cons d t => rw [compareStringValue_nil_left, compareStringValue_nil_right, neg_neg]
  | cons c s ih =>
    cases t with
    | nil => rw [compareStringValue_nil_left, compareStringValue_nil_right]
    | cons d t =>
      obtain ⟨hc, hs⟩ := noNul_cons.mp hs
      obtain ⟨hd, ht⟩ := noNul_cons.mp ht
      rw [compareStringValue_cons hc, compareStringValue_cons hd]
      by_cases hcd : c = d
      · rw [if_pos hcd, if_pos hcd.symm]
        exact ih hs ht
      · rw [if_neg hcd, if_neg (Ne.symm hcd), neg_sub]

theorem compareStringValue_zero_iff {s t : Bytes} (hs : NoNul s) (ht : NoNul t) :
    compareStringValue s t = 0 ↔ s = t := by
  induction s generalizing t with
  | nil =>
    cases t with
    | nil => exact iff_of_true rfl rfl
    | cons d t =>
      rw [compareStringValue_nil_left, neg_eq_zero]
      exact iff_of_false (signedChar_ne_zero (noNul_cons.mp ht).1) (by simp)
  | cons c s ih =>
    obtain ⟨hc, hs⟩ := noNul_cons.mp hs
    cases t with
    | nil =>
      rw [compareStringValue_nil_right]
      exact iff_of_false (signedChar_ne_zero hc) (by simp)
    | cons d t =>
      rw [compareStringValue_cons hc, List.cons.injEq]
      by_cases hcd : c = d
      · rw [if_pos hcd, ih hs (noNul_cons.mp ht).2]
        exact (and_iff_right hcd).symm
      · rw [if_neg hcd]
        refine iff_of_false (fun h => hcd (UInt8.toNat_inj.mp (by omega))) (fun h => hcd h.1)

/-- Three strings are ordered unless they straddle, in one of the three turns of the cycle. -/
theorem compareStringValue_trans {s t u : Bytes} (hs : NoNul s) (ht : NoNul t) (hu : NoNul u)
    (hstu : ¬Straddles s t u) (htus : ¬Straddles t u s) (hust : ¬Straddles u s t) (hst : compareStringValue s t ≤ 0)
    (htu : compareStringValue t u ≤ 0) : compareStringValue s u ≤ 0 := by
  induction s generalizing t u with
  | nil =>
    cases t with
    | nil => exact htu
    | cons d t =>
      have hd := (noNul_cons.mp ht).1
      rw [compareStringValue_nil_left, neg_signedChar_nonpos_iff hd] at hst
      cases u with
      | nil => exact le_of_eq compareStringValue_nil
      | cons e u =>
        rw [compareStringValue_nil_left, neg_signedChar_nonpos_iff (noNul_cons.mp hu).1]
        by_contra hhigh
        exact hstu (straddles_nil hst (not_lt.mp hhigh))
  | cons c s ih =>
    obtain ⟨hc, hs⟩ := noNul_cons.mp hs
    cases t with
    | nil =>
      rw [compareStringValue_nil_right, signedChar_nonpos_iff hc] at hst
      cases u with
      | nil => rw [compareStringValue_nil_right, signedChar_nonpos_iff hc]; exact hst
      | cons e u =>
        rw [compareStringValue_nil_left, neg_signedChar_nonpos_iff (noNul_cons.mp hu).1] at htu
        exact absurd (straddles_nil htu hst) htus
    | cons d t =>
      obtain ⟨hd, ht'⟩ := noNul_cons.mp ht
      rw [compareStringValue_cons hc] at hst
      cases u with
      | nil =>
        rw [compareStringValue_nil_right, signedChar_nonpos_iff hd] at htu
        rw [compareStringValue_nil_right, signedChar_nonpos_iff hc]
        by_contra hlow
        exact hust (straddles_nil (not_le.mp hlow) htu)
      | cons e u =>
        have hu' := (noNul_cons.mp hu).2
        rw [compareStringValue_cons hd] at htu
        rw [compareStringValue_cons hc]
        by_cases hcd : c = d
        · subst hcd
          rw [if_pos rfl] at hst
          by_cases hce : c = e
          · subst hce
            rw [if_pos rfl] at htu ⊢
            exact ih hs ht' hu' (fun h => hstu (h.cons c)) (fun h => htus (h.cons c)) (fun h => hust (h.cons c)) hst htu
          · rw [if_neg hce] at htu ⊢
            exact htu
        · rw [if_neg hcd] at hst
          have hlt : c.toNat < d.toNat := by
            have hne : c.toNat ≠ d.toNat := fun h => hcd (UInt8.toNat_inj.mp h)
            omega
          have hle : d.toNat ≤ e.toNat := by
            by_cases hde : d = e
            · exact le_of_eq (congrArg UInt8.toNat hde)
            · rw [if_neg hde] at htu
              omega
          have hce : c ≠ e := fun h => by
            subst h
            omega
          rw [if_neg hce]
          omega

/-- Strings that straddle are less than one another in a circle. -/
theorem Straddles.cycle {s t u : Bytes} (h : Straddles s t u) (hs : NoNul s) (ht : NoNul t) (hu : NoNul u) :
    compareStringValue s t < 0 ∧ compareStringValue t u < 0 ∧ compareStringValue u s < 0 := by
  obtain ⟨c, d, t', u', rfl, rfl, hc, hd⟩ := h
  induction s with
  | nil =>
    have hc0 := (noNul_cons.mp ht).1
    have hd0 := (noNul_cons.mp hu).1
    have hcd : c ≠ d := fun h => by
      subst h
      omega
    rw [List.nil_append, List.nil_append, compareStringValue_nil_left, compareStringValue_cons hc0,
      if_neg hcd, compareStringValue_nil_right]
    have hle := (signedChar_nonpos_iff hd0).mpr hd
    have hne := signedChar_ne_zero hd0
    have hpos : ¬signedChar c ≤ 0 := fun h => absurd ((signedChar_nonpos_iff hc0).mp h) (not_le.mpr hc)
    refine ⟨by omega, by omega, by omega⟩
  | cons a s ih =>
    obtain ⟨ha, hs⟩ := noNul_cons.mp hs
    rw [List.cons_append, List.cons_append, compareStringValue_cons ha, compareStringValue_cons ha,
      compareStringValue_cons ha, if_pos rfl, if_pos rfl, if_pos rfl]
    exact ih hs (noNul_cons.mp ht).2 (noNul_cons.mp hu).2

end Landbase.Sql
