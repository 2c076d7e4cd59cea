import Landbase.Lib.Memory

/-! # Bitmaps

`class Bitmap` of `common/lang/bitmap.h`: the bits of a block of memory, and the search for the next bit that is set or
not set. The search goes byte by byte and passes over bytes that cannot hold what it looks for. It forgets to start again
at bit 0 behind a byte that it has passed over, so it is right only when the first byte is read from its beginning or is
not passed over.
-/

namespace Landbase.Bitmap
open Lib
set_option autoImplicit false

/-- The loop of `find_first_zero` and `find_first_setted`; `-1` is none. -/
def findFirst (value : Bool) (byte : UInt8) (start : ℕ) : Option ℕ :=
  (List.range' start (8 - start)).find? fun i => (byte &&& (1 <<< UInt8.ofNat i) != 0) == value

def findFirstZero (byte : UInt8) (start : ℕ) : Option ℕ := findFirst false byte start

def findFirstSetted (byte : UInt8) (start : ℕ) : Option ℕ := findFirst true byte start

/-- `bytes`. -/
def bytes (size : ℕ) : ℕ := if size % 8 = 0 then size / 8 else size / 8 + 1

/-- The loop of `next_unsetted_bit` and `next_setted_bit`, which pass over bytes that are `skip`. -/
def nextBitLoop (find : UInt8 → ℕ → Option ℕ) (skip : UInt8) (bitmap : Memory) (base : ℕ) : ℕ → ℕ → ℕ → Option ℕ
  | 0, _, _ => none
  | rounds + 1, iter, startInByte =>
    if bitmap (base + iter) = skip then nextBitLoop find skip bitmap base rounds (iter + 1) startInByte
    else
      match find (bitmap (base + iter)) startInByte with
      | some indexInByte => some (iter * 8 + indexInByte)
      | none => nextBitLoop find skip bitmap base rounds (iter + 1) 0

/-- A search from bit `start` on in a bitmap of `size` bits. -/
def nextBit (find : UInt8 → ℕ → Option ℕ) (skip : UInt8) (bitmap : Memory) (base size start : ℕ) : Option ℕ :=
  (nextBitLoop find skip bitmap base (bytes size - start / 8) (start / 8) (start % 8)).filter fun i => decide (i < size)

/-- `Bitmap::next_unsetted_bit`. -/
def nextUnsettedBit (bitmap : Memory) (base size start : ℕ) : Option ℕ :=
  nextBit findFirstZero 255 bitmap base size start

/-- `Bitmap::next_setted_bit`. -/
def nextSettedBit (bitmap : Memory) (base size start : ℕ) : Option ℕ :=
  nextBit findFirstSetted 0 bitmap base size start

/-! ## What a search finds -/

section Search

variable {value : Bool} {skip : UInt8} {bitmap : Memory} {base : ℕ}

theorem getBit_of_byte (bitmap : Memory) (base iter : ℕ) {i : ℕ} (hi : i < 8) :
    bitmap.getBit base (8 * iter + i) = (bitmap (base + iter) &&& (1 <<< UInt8.ofNat i) != 0) := by
  have hbyte : (8 * iter + i) / 8 = iter := by omega
  have hbit : (8 * iter + i) % 8 = i := by omega
  rw [Memory.getBit, hbyte, hbit]

/-- What is found inside a byte, as a bit of the whole bitmap. -/
theorem find?_byte (bitmap : Memory) (base iter start : ℕ) :
    (List.range' (8 * iter + start) (8 - start)).find? (fun j => bitmap.getBit base j == value) =
      (findFirst value (bitmap (base + iter)) start).map fun i => iter * 8 + i := by
  have hcongr : ∀ i ∈ List.range' start (8 - start),
      (bitmap.getBit base (8 * iter + i) == value) = ((bitmap (base + iter) &&& (1 <<< UInt8.ofNat i) != 0) == value) := by
    intro i hi
    rw [List.mem_range'_1] at hi
    rw [getBit_of_byte bitmap base iter (by omega)]
  rw [← List.map_add_range', List.find?_map, findFirst, Nat.mul_comm iter 8]
  exact congrArg _ (List.find?_congr hcongr)

theorem nextBitLoop_eq (hskip : ∀ i, i < 8 → (skip &&& (1 <<< UInt8.ofNat i) != 0) ≠ value) (rounds iter : ℕ) {start : ℕ}
    (hstart : start < 8) (hfirst : start = 0 ∨ bitmap (base + iter) ≠ skip) :
    nextBitLoop (findFirst value) skip bitmap base rounds iter start =
      (List.range' (8 * iter + start) (8 * rounds - start)).find? fun j => bitmap.getBit base j == value := by
  induction rounds generalizing iter start with
  | zero =>
    rw [Nat.mul_zero, Nat.zero_sub]
    rfl
  | succ rounds ih =>
    have hsplit : List.range' (8 * iter + start) (8 * (rounds + 1) - start) =
        List.range' (8 * iter + start) (8 - start) ++ List.range' (8 * (iter + 1) + 0) (8 * rounds - 0) := by
      have hnext : 8 * (iter + 1) + 0 = 8 * iter + start + (8 - start) := by omega
      have hrest : 8 * (rounds + 1) - start = 8 - start + (8 * rounds - 0) := by omega
      rw [hnext, hrest, List.range'_append_1]
    rw [hsplit, List.find?_append, find?_byte, ← ih (iter + 1) (by omega) (Or.inl rfl), nextBitLoop]
    by_cases hbyte : bitmap (base + iter) = skip
    · -- the byte is passed over, so the search has come to its first bit
      have hzero : start = 0 := hfirst.resolve_right fun hne => hne hbyte
      have hnone : findFirst value (bitmap (base + iter)) start = none := by
        rw [findFirst, List.find?_eq_none]
        intro i hi
        rw [List.mem_range'_1] at hi
        rw [hbyte, beq_iff_eq]
        exact hskip i (by omega)
      rw [if_pos hbyte, hnone, hzero]
      rfl
    · rw [if_neg hbyte]
      cases findFirst value (bitmap (base + iter)) start with
      | none => rfl
      | some i => rfl

theorem nextBit_eq (hskip : ∀ i, i < 8 → (skip &&& (1 <<< UInt8.ofNat i) != 0) ≠ value) (size : ℕ) {start : ℕ}
    (hfirst : start % 8 = 0 ∨ bitmap (base + start / 8) ≠ skip) :
    nextBit (findFirst value) skip bitmap base size start =
      (List.range' start (size - start)).find? fun j => bitmap.getBit base j == value := by
  have hstart : 8 * (start / 8) + start % 8 = start := by omega
  have hbytes : size ≤ 8 * bytes size := by
    unfold bytes
    split <;> omega
  have hlength : 8 * (bytes size - start / 8) - start % 8 = size - start + (8 * bytes size - max size start) := by omega
  rw [nextBit, nextBitLoop_eq hskip _ _ (by omega) hfirst, hstart, hlength, ← List.range'_append_1, List.find?_append]
  cases hfind : (List.range' start (size - start)).find? fun j => bitmap.getBit base j == value with
  | some i =>
    have hi := List.mem_range'_1.mp (List.mem_of_find?_eq_some hfind)
    rw [Option.some_or, Option.filter_some_pos (by simpa using by omega)]
  | none =>
    rw [Option.none_or, Option.filter_eq_none_iff]
    intro i hi
    have hmem := List.mem_range'_1.mp (List.mem_of_find?_eq_some hi)
    simpa using by omega

end Search

/-- The search for a bit that is not set, from the first one on. -/
theorem nextUnsettedBit_zero (bitmap : Memory) (base size : ℕ) :
    nextUnsettedBit bitmap base size 0 = (List.range size).find? fun j => !bitmap.getBit base j := by
  have hfirst : 0 % 8 = 0 ∨ bitmap (base + 0 / 8) ≠ 255 := Or.inl rfl
  have hvalue : (fun j => bitmap.getBit base j == false) = fun j => !bitmap.getBit base j := by
    funext j
    exact beq_false _
  show nextBit (findFirst false) 255 bitmap base size 0 = _
  rw [nextBit_eq (by decide) size hfirst, hvalue, Nat.sub_zero, List.range_eq_range']

/-- The bits that are set, from `start` on. -/
def settedFrom (bitmap : Memory) (base size start : ℕ) : List ℕ :=
  (List.range' start (size - start)).filter fun j => bitmap.getBit base j

/-- The search for a bit that is set, from the first one on or behind one that is set: the byte of that one is not zero. -/
theorem nextSettedBit_eq {bitmap : Memory} {base size start : ℕ} (h : start = 0 ∨ bitmap.getBit base (start - 1) = true) :
    nextSettedBit bitmap base size start = (settedFrom bitmap base size start).head? := by
  have hfirst : start % 8 = 0 ∨ bitmap (base + start / 8) ≠ 0 := by
    by_cases hmod : start % 8 = 0
    · exact Or.inl hmod
    · right
      intro hzero
      have hbit := h.resolve_left fun heq => hmod (by rw [heq])
      have hbyte : (start - 1) / 8 = start / 8 := by omega
      rw [Memory.getBit, hbyte, hzero, UInt8.zero_and] at hbit
      cases hbit
  have hvalue : (fun j => bitmap.getBit base j == true) = fun j => bitmap.getBit base j := by
    funext j
    exact beq_true _
  show nextBit (findFirst true) 0 bitmap base size start = _
  rw [nextBit_eq (by decide) size hfirst, hvalue, settedFrom, List.head?_filter]

theorem mem_settedFrom {bitmap : Memory} {base size start i : ℕ} :
    i ∈ settedFrom bitmap base size start ↔ start ≤ i ∧ i < size ∧ bitmap.getBit base i = true := by
  rw [settedFrom, List.mem_filter, List.mem_range'_1, and_assoc]
  constructor
  · rintro ⟨hlo, hhi, hbit⟩
    exact ⟨hlo, by omega, hbit⟩
  · rintro ⟨hlo, hhi, hbit⟩
    exact ⟨hlo, by omega, hbit⟩

theorem settedFrom_sorted (bitmap : Memory) (base size start : ℕ) :
    (settedFrom bitmap base size start).Pairwise (· < ·) :=
  List.Pairwise.filter _ List.pairwise_lt_range'

theorem settedFrom_tail {bitmap : Memory} {base size start i : ℕ} {rest : List ℕ}
    (h : settedFrom bitmap base size start = i :: rest) : rest = settedFrom bitmap base size (i + 1) := by
  have hsorted := settedFrom_sorted bitmap base size start
  have hmem : ∀ j, j ∈ i :: rest ↔ start ≤ j ∧ j < size ∧ bitmap.getBit base j = true := by
    intro j
    rw [← h, mem_settedFrom]
  rw [h, List.pairwise_cons] at hsorted
  apply List.Perm.eq_of_pairwise (fun a b _ _ hab hba => absurd hab (Nat.lt_asymm hba)) hsorted.2
    (settedFrom_sorted bitmap base size (i + 1))
  rw [List.perm_ext_iff_of_nodup (hsorted.2.imp Nat.ne_of_lt)
    ((settedFrom_sorted bitmap base size (i + 1)).imp Nat.ne_of_lt)]
  intro j
  rw [mem_settedFrom]
  constructor
  · intro hj
    have hlt := hsorted.1 j hj
    exact ⟨hlt, ((hmem j).mp (List.mem_cons_of_mem i hj)).2⟩
  · rintro ⟨hlt, hrest⟩
    have hle := ((hmem i).mp List.mem_cons_self).1
    cases List.mem_cons.mp ((hmem j).mpr ⟨by omega, hrest⟩) with
    | inl heq => omega
    | inr hj => exact hj

/-! ## When a search is right -/

/-- The least index from `start` on whose bit has the value, or none when no bit below `size` has it. -/
def IsNext (value : Bool) (bitmap : Memory) (base size start : ℕ) : Option ℕ → Prop
  | some i => start ≤ i ∧ i < size ∧ bitmap.getBit base i = value ∧ ∀ j, start ≤ j → j < i → bitmap.getBit base j ≠ value
  | none => ∀ j, start ≤ j → j < size → bitmap.getBit base j ≠ value

/-- The first bit with the value, from the beginning of the byte of `start` on, is in a later byte and stands in front of
the offset of `start` there. -/
def Overlooked (value : Bool) (bitmap : Memory) (base size start : ℕ) : Prop :=
  ∃ i < size, start / 8 < i / 8 ∧ i % 8 < start % 8 ∧ bitmap.getBit base i = value ∧
    ∀ j, 8 * (start / 8) ≤ j → j < i → bitmap.getBit base j ≠ value

section Right

variable {value : Bool} {skip : UInt8} {bitmap : Memory} {base size start : ℕ}

theorem isNext_find? : IsNext value bitmap base size start
    ((List.range' start (size - start)).find? fun j => bitmap.getBit base j == value) := by
  cases hfind : (List.range' start (size - start)).find? fun j => bitmap.getBit base j == value with
  | some i =>
    rw [List.find?_range'_eq_some] at hfind
    obtain ⟨hvalue, hmem, hbefore⟩ := hfind
    rw [List.mem_range'_1] at hmem
    refine ⟨hmem.1, by omega, by simpa using hvalue, fun j hlo hhi => ?_⟩
    simpa using hbefore j hlo hhi
  | none =>
    rw [List.find?_range'_eq_none] at hfind
    intro j hlo hhi
    simpa using hfind j hlo (by omega)

/-- A byte that has none of the bits looked for is one that is passed over. -/
theorem eq_skip (hskip : ∀ i, i < 8 → (skip &&& (1 <<< UInt8.ofNat i) != 0) ≠ value) {iter : ℕ}
    (hnone : ∀ j, 8 * iter ≤ j → j < 8 * iter + 8 → bitmap.getBit base j ≠ value) : bitmap (base + iter) = skip := by
  have hbit : ∀ i, i < 8 → (bitmap (base + iter)).toNat.testBit i = skip.toNat.testBit i := by
    intro i hi
    have hbyte := hnone (8 * iter + i) (by omega) (by omega)
    have hother := hskip i hi
    rw [Memory.getBit_eq_testBit, show (8 * iter + i) / 8 = iter by omega, show (8 * iter + i) % 8 = i by omega] at hbyte
    have hskipBit := Memory.getBit_eq_testBit (fun _ => skip) 0 i
    rw [Memory.getBit, Nat.mod_eq_of_lt hi] at hskipBit
    rw [hskipBit] at hother
    rw [Bool.eq_not_of_ne hbyte, Bool.eq_not_of_ne hother]
  apply UInt8.toNat_inj.mp
  apply Nat.eq_of_testBit_eq
  intro i
  by_cases hi : i < 8
  · exact hbit i hi
  · have hpow : 2 ^ 8 ≤ 2 ^ i := Nat.pow_le_pow_right (by norm_num) (by omega)
    rw [Nat.testBit_lt_two_pow (lt_of_lt_of_le (UInt8.toNat_lt _) hpow),
      Nat.testBit_lt_two_pow (lt_of_lt_of_le (UInt8.toNat_lt _) hpow)]

/-- Bytes that are passed over leave the offset as it is. -/
theorem nextBitLoop_passed {find : UInt8 → ℕ → Option ℕ} {passed : ℕ} (rounds iter startInByte : ℕ)
    (h : ∀ k, k < passed → bitmap (base + (iter + k)) = skip) :
    nextBitLoop find skip bitmap base (passed + rounds) iter startInByte =
      nextBitLoop find skip bitmap base rounds (iter + passed) startInByte := by
  induction passed generalizing iter with
  | zero => rw [Nat.zero_add, Nat.add_zero]
  | succ passed ih =>
    have hfirst := h 0 (Nat.succ_pos passed)
    rw [Nat.add_zero] at hfirst
    have hrest : ∀ k, k < passed → bitmap (base + (iter + 1 + k)) = skip := by
      intro k hk
      rw [show iter + 1 + k = iter + (k + 1) by omega]
      exact h (k + 1) (by omega)
    rw [show passed + 1 + rounds = passed + rounds + 1 by omega, nextBitLoop, if_pos hfirst, ih (iter + 1) hrest,
      show iter + 1 + passed = iter + (passed + 1) by omega]

/-- Behind a first byte that is passed over, the search starts at the offset of `start` in the byte of the first bit that
has the value. -/
theorem nextBit_passed (hskip : ∀ i, i < 8 → (skip &&& (1 <<< UInt8.ofNat i) != 0) ≠ value) {i : ℕ}
    (hvalue : bitmap.getBit base i = value) (hlt : start / 8 < i / 8) (hi : i / 8 < bytes size)
    (hbefore : ∀ j, 8 * (start / 8) ≤ j → j < i → bitmap.getBit base j ≠ value) :
    nextBit (findFirst value) skip bitmap base size start =
      ((List.range' (8 * (i / 8) + start % 8) (8 * (bytes size - i / 8) - start % 8)).find?
        fun j => bitmap.getBit base j == value).filter fun j => decide (j < size) := by
  have hpassed : ∀ k, k < i / 8 - start / 8 → bitmap (base + (start / 8 + k)) = skip := by
    intro k hk
    exact eq_skip hskip fun j hlo hhi => hbefore j (by omega) (by omega)
  have hbyte : bitmap (base + i / 8) ≠ skip := by
    intro heq
    have hbit := hskip (i % 8) (Nat.mod_lt i (by norm_num))
    rw [Memory.getBit, heq] at hvalue
    exact hbit hvalue
  have hrounds : bytes size - start / 8 = (i / 8 - start / 8) + (bytes size - i / 8) := by omega
  have hiter : start / 8 + (i / 8 - start / 8) = i / 8 := by omega
  rw [nextBit, hrounds, nextBitLoop_passed _ _ _ hpassed, hiter,
    nextBitLoop_eq hskip _ _ (Nat.mod_lt start (by norm_num)) (Or.inr hbyte)]

/-- A search that finds something finds a bit with the value. -/
theorem nextBitLoop_sound {rounds iter startInByte i : ℕ}
    (h : nextBitLoop (findFirst value) skip bitmap base rounds iter startInByte = some i) :
    8 * iter ≤ i ∧ bitmap.getBit base i = value := by
  induction rounds generalizing iter startInByte with
  | zero => cases h
  | succ rounds ih =>
    rw [nextBitLoop] at h
    by_cases hbyte : bitmap (base + iter) = skip
    · rw [if_pos hbyte] at h
      obtain ⟨hlo, hvalue⟩ := ih h
      exact ⟨by omega, hvalue⟩
    · rw [if_neg hbyte] at h
      cases hfind : findFirst value (bitmap (base + iter)) startInByte with
      | none =>
        rw [hfind] at h
        obtain ⟨hlo, hvalue⟩ := ih h
        exact ⟨by omega, hvalue⟩
      | some indexInByte =>
        rw [hfind] at h
        obtain rfl := Option.some.inj h
        have hmem := List.mem_range'_1.mp (List.mem_of_find?_eq_some hfind)
        have hvalue := List.find?_some hfind
        refine ⟨by omega, ?_⟩
        rw [Nat.mul_comm, getBit_of_byte bitmap base iter (by omega)]
        simpa using hvalue

/-- Behind a byte that is passed over, a bit in front of the offset of `start` is not looked at. -/
theorem not_isNext_of_overlooked (hskip : ∀ i, i < 8 → (skip &&& (1 <<< UInt8.ofNat i) != 0) ≠ value)
    (h : Overlooked value bitmap base size start) :
    ¬IsNext value bitmap base size start (nextBit (findFirst value) skip bitmap base size start) := by
  obtain ⟨i, hsize, hlt, hoffset, hvalue, hbefore⟩ := h
  have hbytes : i / 8 < bytes size := by
    unfold bytes
    split <;> omega
  rw [nextBit_passed hskip hvalue hlt hbytes hbefore]
  intro hnext
  cases hfound : ((List.range' (8 * (i / 8) + start % 8) (8 * (bytes size - i / 8) - start % 8)).find?
      fun j => bitmap.getBit base j == value).filter fun j => decide (j < size) with
  | none =>
    rw [hfound] at hnext
    exact hnext i (by omega) hsize hvalue
  | some r =>
    rw [hfound] at hnext
    have hmem := List.mem_range'_1.mp (List.mem_of_find?_eq_some (Option.filter_eq_some_iff.mp hfound).1)
    exact hnext.2.2.2 i (by omega) (by omega) hvalue

theorem isNext_of_not_overlooked (hskip : ∀ i, i < 8 → (skip &&& (1 <<< UInt8.ofNat i) != 0) ≠ value)
    (h : ¬Overlooked value bitmap base size start) :
    IsNext value bitmap base size start (nextBit (findFirst value) skip bitmap base size start) := by
  by_cases hfirst : start % 8 = 0 ∨ bitmap (base + start / 8) ≠ skip
  · rw [nextBit_eq hskip size hfirst]
    exact isNext_find?
  · have hbyte : bitmap (base + start / 8) = skip := by
      by_contra hne
      exact hfirst (Or.inr hne)
    have hnone : ∀ j, 8 * (start / 8) ≤ j → j < 8 * (start / 8) + 8 → bitmap.getBit base j ≠ value := by
      intro j hlo hhi
      rw [Memory.getBit, show j / 8 = start / 8 by omega, hbyte]
      exact hskip (j % 8) (Nat.mod_lt j (by norm_num))
    by_cases hex : ∃ i, 8 * (start / 8) ≤ i ∧ i < size ∧ bitmap.getBit base i = value
    · -- the first bit with the value, from the beginning of the byte on, is in a later byte and not overlooked
      obtain ⟨hlo, hsize, hvalue⟩ := Nat.find_spec hex
      have hbefore : ∀ j, 8 * (start / 8) ≤ j → j < Nat.find hex → bitmap.getBit base j ≠ value := by
        intro j hj hlt heq
        exact Nat.find_min hex hlt ⟨hj, by omega, heq⟩
      generalize Nat.find hex = i at *
      have hlt : start / 8 < i / 8 := by
        by_contra hle
        exact hnone i hlo (by omega) hvalue
      have hoffset : ¬i % 8 < start % 8 := fun hoffset => h ⟨i, hsize, hlt, hoffset, hvalue, hbefore⟩
      have hbytes : size ≤ 8 * bytes size := by
        unfold bytes
        split <;> omega
      have hfind : ((List.range' (8 * (i / 8) + start % 8) (8 * (bytes size - i / 8) - start % 8)).find?
          fun j => bitmap.getBit base j == value) = some i := by
        rw [List.find?_range'_eq_some, List.mem_range'_1]
        refine ⟨by simpa using hvalue, ⟨by omega, by omega⟩, fun j hj hji => ?_⟩
        simpa using hbefore j (by omega) hji
      rw [nextBit_passed hskip hvalue hlt (by omega) hbefore, hfind, Option.filter_some_pos (by simpa using hsize)]
      exact ⟨by omega, hsize, hvalue, fun j hj hji => hbefore j (by omega) hji⟩
    · have hresult : nextBit (findFirst value) skip bitmap base size start = none := by
        rw [nextBit, Option.filter_eq_none_iff]
        intro i hi
        obtain ⟨hlo, hvalue⟩ := nextBitLoop_sound hi
        simpa using fun hlt => hex ⟨i, hlo, hlt, hvalue⟩
      rw [hresult]
      intro j hlo hhi heq
      exact hex ⟨j, by omega, hhi, heq⟩

/-- The search is right unless a bit is overlooked. -/
theorem nextBit_isNext_iff (hskip : ∀ i, i < 8 → (skip &&& (1 <<< UInt8.ofNat i) != 0) ≠ value) (bitmap : Memory)
    (base size start : ℕ) :
    IsNext value bitmap base size start (nextBit (findFirst value) skip bitmap base size start) ↔
      ¬Overlooked value bitmap base size start := by
  constructor
  · intro hnext h
    exact not_isNext_of_overlooked hskip h hnext
  · exact isNext_of_not_overlooked hskip

end Right

/-- Both searches, from any bit on: each finds the next bit if and only if it does not overlook it. -/
theorem nextBits_iff (bitmap : Memory) (base size start : ℕ) :
    (IsNext true bitmap base size start (nextSettedBit bitmap base size start) ↔
        ¬Overlooked true bitmap base size start) ∧
      (IsNext false bitmap base size start (nextUnsettedBit bitmap base size start) ↔
        ¬Overlooked false bitmap base size start) :=
  ⟨nextBit_isNext_iff (by decide) bitmap base size start, nextBit_isNext_iff (by decide) bitmap base size start⟩

/-- Two bytes of which the first is full and the second empty, searched from bit 3 on: the first bit that is not set is bit
8, and the search comes back with bit 11. -/
theorem not_isNext_three :
    let bitmap : Memory := fun i => if i = 0 then 255 else 0
    nextUnsettedBit bitmap 0 16 3 = some 11 ∧ ¬IsNext false bitmap 0 16 3 (nextUnsettedBit bitmap 0 16 3) := by
  intro bitmap
  have hresult : nextUnsettedBit bitmap 0 16 3 = some 11 := by decide
  refine ⟨hresult, ?_⟩
  rw [hresult]
  intro h
  exact h.2.2.2 8 (by norm_num) (by norm_num) (by decide)

end Landbase.Bitmap
