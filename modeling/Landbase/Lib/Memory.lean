import Mathlib.Tactic
import Mathlib.Data.Nat.Bitwise

/-! # Raw memory

A block of memory is a function from offsets to bytes. Programs store little-endian 32-bit integers and bitmaps in it; a
write is known by what a read of the same field gives and by the fields it leaves alone.
-/

namespace Landbase.Lib
set_option autoImplicit false

/-- A block of memory. -/
abbrev Memory := ℕ → UInt8

namespace Memory

/-! ## 32-bit integers -/

/-- The unsigned value of the four bytes at `off`. -/
def word (m : Memory) (off : ℕ) : ℕ :=
  (m off).toNat + 256 * (m (off + 1)).toNat + 65536 * (m (off + 2)).toNat + 16777216 * (m (off + 3)).toNat

/-- Reading an `int32_t` at `off`. -/
@[irreducible] def getInt32 (m : Memory) (off : ℕ) : ℤ := Int.bmod (m.word off) (2 ^ 32)

/-- Assigning `x` to an `int32_t` at `off`. -/
def setInt32 (m : Memory) (off : ℕ) (x : ℤ) : Memory := fun i =>
  if off ≤ i ∧ i < off + 4 then UInt8.ofNat ((x % 2 ^ 32).toNat / 256 ^ (i - off)) else m i

theorem setInt32_apply_of_notMem {m : Memory} {off i : ℕ} {x : ℤ} (h : i < off ∨ off + 4 ≤ i) :
    m.setInt32 off x i = m i := by
  apply if_neg
  omega

theorem getInt32_congr {m m' : Memory} {off : ℕ} (h : ∀ i, off ≤ i → i < off + 4 → m i = m' i) :
    m.getInt32 off = m'.getInt32 off := by
  unfold getInt32 word
  rw [h off (by omega) (by omega), h (off + 1) (by omega) (by omega), h (off + 2) (by omega) (by omega),
    h (off + 3) (by omega) (by omega)]

theorem word_setInt32 (m : Memory) (off : ℕ) (x : ℤ) : (m.setInt32 off x).word off = (x % 2 ^ 32).toNat := by
  have hpos : 0 ≤ x % 4294967296 := Int.emod_nonneg _ (by norm_num)
  have hlt : x % 4294967296 < 4294967296 := Int.emod_lt_of_pos _ (by norm_num)
  norm_num [word, setInt32]
  omega

theorem getInt32_setInt32 {x : ℤ} (hlo : -2 ^ 31 ≤ x) (hhi : x < 2 ^ 31) (m : Memory) (off : ℕ) :
    (m.setInt32 off x).getInt32 off = x := by
  have hpos : 0 ≤ x % 2 ^ 32 := Int.emod_nonneg _ (by norm_num)
  have hword : ((m.setInt32 off x).word off : ℤ) = x % 2 ^ 32 := by
    rw [word_setInt32]
    exact Int.toNat_of_nonneg hpos
  unfold getInt32
  simp only [hword]
  simp only [Int.bmod_def]
  push_cast
  split <;> omega

theorem getInt32_setInt32_of_disjoint {off off' : ℕ} (h : off' + 4 ≤ off ∨ off + 4 ≤ off') (m : Memory) (x : ℤ) :
    (m.setInt32 off x).getInt32 off' = m.getInt32 off' := by
  apply getInt32_congr
  intro i hlo hhi
  exact setInt32_apply_of_notMem (by omega)

/-! ## Bitmaps -/

/-- Bit `i` of the bitmap at `base`: `bitmap[i / 8] & (1 << (i % 8))` is not zero. -/
def getBit (m : Memory) (base i : ℕ) : Bool := m (base + i / 8) &&& (1 <<< UInt8.ofNat (i % 8)) != 0

/-- `bitmap[i / 8] |= (1 << (i % 8))`. -/
def setBit (m : Memory) (base i : ℕ) : Memory :=
  Function.update m (base + i / 8) (m (base + i / 8) ||| (1 <<< UInt8.ofNat (i % 8)))

/-- `bitmap[i / 8] &= ~(1 << (i % 8))`. -/
def clearBit (m : Memory) (base i : ℕ) : Memory :=
  Function.update m (base + i / 8) (m (base + i / 8) &&& ~~~(1 <<< UInt8.ofNat (i % 8)))

theorem toNat_one_shiftLeft : ∀ k : Fin 8, ((1 : UInt8) <<< UInt8.ofNat k.val).toNat = 2 ^ k.val := by decide

theorem testBit_not_shiftLeft :
    ∀ k j : Fin 8, (~~~((1 : UInt8) <<< UInt8.ofNat k.val)).toNat.testBit j.val = decide (j.val ≠ k.val) := by decide

theorem getBit_eq_testBit (m : Memory) (base i : ℕ) : m.getBit base i = (m (base + i / 8)).toNat.testBit (i % 8) := by
  have hshift := toNat_one_shiftLeft ⟨i % 8, Nat.mod_lt i (by norm_num)⟩
  rw [Bool.eq_iff_iff, getBit, bne_iff_ne, ne_eq, ← UInt8.toNat_inj, UInt8.toNat_and, hshift, Nat.and_two_pow]
  cases (m (base + i / 8)).toNat.testBit (i % 8) <;> simp

theorem getBit_congr {m m' : Memory} {base i : ℕ} (h : m (base + i / 8) = m' (base + i / 8)) :
    m.getBit base i = m'.getBit base i := by
  unfold getBit
  rw [h]

theorem getBit_setBit (m : Memory) (base i j : ℕ) :
    (m.setBit base i).getBit base j = (m.getBit base j || decide (j = i)) := by
  rw [getBit_eq_testBit, getBit_eq_testBit]
  by_cases hbyte : j / 8 = i / 8
  · have hshift := toNat_one_shiftLeft ⟨i % 8, Nat.mod_lt i (by norm_num)⟩
    have hbit : decide (i % 8 = j % 8) = decide (j = i) := by
      rw [decide_eq_decide]
      omega
    rw [setBit, hbyte, Function.update_self, UInt8.toNat_or, Nat.testBit_or, hshift, Nat.testBit_two_pow, hbit]
  · have hne : j ≠ i := fun heq => hbyte (by rw [heq])
    rw [setBit, Function.update_of_ne (by omega), decide_eq_false hne, Bool.or_false]

theorem getBit_clearBit (m : Memory) (base i j : ℕ) :
    (m.clearBit base i).getBit base j = (m.getBit base j && decide (j ≠ i)) := by
  rw [getBit_eq_testBit, getBit_eq_testBit]
  by_cases hbyte : j / 8 = i / 8
  · have hnot := testBit_not_shiftLeft ⟨i % 8, Nat.mod_lt i (by norm_num)⟩ ⟨j % 8, Nat.mod_lt j (by norm_num)⟩
    have hbit : decide (j % 8 ≠ i % 8) = decide (j ≠ i) := by
      rw [decide_eq_decide]
      omega
    rw [clearBit, hbyte, Function.update_self, UInt8.toNat_and, Nat.testBit_and, hnot, hbit]
  · have hne : j ≠ i := fun heq => hbyte (by rw [heq])
    rw [clearBit, Function.update_of_ne (by omega), decide_eq_true hne, Bool.and_true]

theorem setBit_apply_of_lt {m : Memory} {base i j : ℕ} (h : j < base) : m.setBit base i j = m j :=
  Function.update_of_ne (by omega) _ _

theorem clearBit_apply_of_lt {m : Memory} {base i j : ℕ} (h : j < base) : m.clearBit base i j = m j :=
  Function.update_of_ne (by omega) _ _

theorem getInt32_setBit {off base : ℕ} (h : off + 4 ≤ base) (m : Memory) (i : ℕ) :
    (m.setBit base i).getInt32 off = m.getInt32 off :=
  getInt32_congr fun _ _ _ => setBit_apply_of_lt (by omega)

theorem getInt32_clearBit {off base : ℕ} (h : off + 4 ≤ base) (m : Memory) (i : ℕ) :
    (m.clearBit base i).getInt32 off = m.getInt32 off :=
  getInt32_congr fun _ _ _ => clearBit_apply_of_lt (by omega)

theorem getBit_setInt32 {off base : ℕ} (h : off + 4 ≤ base) (m : Memory) (x : ℤ) (i : ℕ) :
    (m.setInt32 off x).getBit base i = m.getBit base i :=
  getBit_congr (setInt32_apply_of_notMem (by omega))

/-! ## Blocks of bytes -/

/-- `memcpy(m + off, src, n)`. -/
def copy (m : Memory) (off : ℕ) (src : Memory) (n : ℕ) : Memory := fun i =>
  if off ≤ i ∧ i < off + n then src (i - off) else m i

/-- The `n` bytes at `off`. -/
def read (m : Memory) (off n : ℕ) : List UInt8 := (List.range n).map fun i => m (off + i)

theorem copy_apply_of_notMem {m src : Memory} {off n i : ℕ} (h : i < off ∨ off + n ≤ i) : m.copy off src n i = m i := by
  apply if_neg
  omega

theorem read_congr {m m' : Memory} {off n : ℕ} (h : ∀ i, off ≤ i → i < off + n → m i = m' i) :
    m.read off n = m'.read off n := by
  apply List.map_congr_left
  intro i hi
  exact h (off + i) (by omega) (by have := List.mem_range.mp hi; omega)

theorem read_copy (m src : Memory) (off n : ℕ) : (m.copy off src n).read off n = src.read 0 n := by
  apply List.map_congr_left
  intro i hi
  have hlt := List.mem_range.mp hi
  rw [copy, if_pos (by omega), Nat.add_sub_cancel_left, Nat.zero_add]

theorem getInt32_copy {off base : ℕ} (h : off + 4 ≤ base) (m src : Memory) (n : ℕ) :
    (m.copy base src n).getInt32 off = m.getInt32 off :=
  getInt32_congr fun _ _ _ => copy_apply_of_notMem (by omega)

theorem getBit_copy {base off i : ℕ} (h : base + i / 8 < off) (m src : Memory) (n : ℕ) :
    (m.copy off src n).getBit base i = m.getBit base i :=
  getBit_congr (copy_apply_of_notMem (Or.inl h))

end Memory

end Landbase.Lib
