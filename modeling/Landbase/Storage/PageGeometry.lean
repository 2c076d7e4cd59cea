import Landbase.Storage.RecordPage

/-! # The geometry of a record page

What `init_empty_page` computes, operation by operation on an `int`: the aligned size, the first estimate of the capacity,
the offset of the first slot, and the loop of `fix_record_capacity`, which counts down as long as the last slot leaves the
page. `none` stands for an overflow. The natural numbers of the record page are what these come to.
-/

namespace Landbase.RecordManager
open Lib Buffer
set_option autoImplicit false

/-! ## The computations -/

namespace Checked

/-- The result of an operation on an `int`. -/
def int32 (x : ℤ) : Option ℤ := if -2 ^ 31 ≤ x ∧ x < 2 ^ 31 then some x else none

/-- `align8`. -/
def align8 (size : ℤ) : Option ℤ := do
  let sum ← int32 (size + 7)
  int32 (sum.tdiv 8 * 8)

/-- `page_record_capacity`, whose division by `record_size + 0.125` is exact before it is cut down to an `int`. -/
def pageRecordCapacity (pageSize recordSize : ℤ) : Option ℤ := do
  let room ← int32 (pageSize - pageHeaderSize)
  let room ← int32 (room - 1)
  int32 ((8 * room).tdiv (8 * recordSize + 1))

/-- `page_bitmap_size`. -/
def pageBitmapSize (recordCapacity : ℤ) : Option ℤ := do
  let sum ← int32 (recordCapacity + 7)
  some (sum.tdiv 8)

/-- The loop of `fix_record_capacity`, cut off after some rounds. -/
def fixLoop (recordSize : ℤ) : ℕ → ℤ → ℤ → Option ℤ
  | 0, _, _ => none
  | rounds + 1, recordCapacity, lastRecordOffset =>
    if (bpPageDataSize : ℤ) < lastRecordOffset then do
      let recordCapacity ← int32 (recordCapacity - 1)
      let lastRecordOffset ← int32 (lastRecordOffset - recordSize)
      fixLoop recordSize rounds recordCapacity lastRecordOffset
    else some recordCapacity

/-- `fix_record_capacity`. -/
def fixRecordCapacity (rounds : ℕ) (firstRecordOffset recordCapacity recordSize : ℤ) : Option ℤ := do
  let slots ← int32 (recordCapacity * recordSize)
  let lastRecordOffset ← int32 (firstRecordOffset + slots)
  fixLoop recordSize rounds recordCapacity lastRecordOffset

/-- What `init_empty_page` leaves in the header of the page. -/
structure Geometry where
  recordRealSize : ℤ
  recordSize : ℤ
  recordCapacity : ℤ
  firstRecordOffset : ℤ

/-- The assignments of `init_empty_page`, with the rounds that the loop is given. -/
def initEmptyPage (rounds : ℕ) (recordSize : ℤ) : Option Geometry := do
  let size ← align8 recordSize
  let capacity ← pageRecordCapacity bpPageDataSize size
  let bits ← pageBitmapSize capacity
  let bitmapEnd ← int32 (pageHeaderSize + bits)
  let first ← align8 bitmapEnd
  let capacity ← fixRecordCapacity rounds first capacity size
  some ⟨recordSize, size, capacity, first⟩

/-- The geometry of the record page, in its own numbers. -/
def Geometry.ofNat (recordSize : ℕ) : Geometry :=
  ⟨recordSize, (RecordManager.align8 recordSize : ℕ), (capacity recordSize : ℕ), (firstOffset recordSize : ℕ)⟩

/-- `init_empty_page` ends without an overflow, and computes this. -/
def Computes (recordSize : ℤ) (geometry : Geometry) : Prop :=
  ∃ rounds, ∀ more, initEmptyPage (rounds + more) recordSize = some geometry

end Checked

/-! ## Regions of a page -/

/-- Some bytes of a page. -/
structure Region where
  start : ℤ
  length : ℤ

def Region.Disjoint (r s : Region) : Prop := r.start + r.length ≤ s.start ∨ s.start + s.length ≤ r.start

def Region.Inside (r : Region) : Prop := 0 ≤ r.start ∧ r.start + r.length ≤ bpPageDataSize

namespace Checked.Geometry

/-- The bytes of a slot, from `get_record_data` on. -/
def slot (geometry : Geometry) (slotNum : ℕ) : Region :=
  ⟨geometry.firstRecordOffset + geometry.recordSize * slotNum, geometry.recordSize⟩

/-- The header, the bitmap and the slots. -/
def regions (geometry : Geometry) (bitmapSize : ℤ) : List Region :=
  ⟨0, pageHeaderSize⟩ :: ⟨pageHeaderSize, bitmapSize⟩ :: (List.range geometry.recordCapacity.toNat).map geometry.slot

end Checked.Geometry

/-! ## What the computations come to -/

namespace Checked

theorem int32_of_range {x : ℤ} (hlo : -2 ^ 31 ≤ x) (hhi : x < 2 ^ 31) : int32 x = some x := if_pos ⟨hlo, hhi⟩

theorem align8_nat {size : ℕ} (h : size + 7 < 2 ^ 31) : align8 size = some ((RecordManager.align8 size : ℕ) : ℤ) := by
  have hdiv : ((size : ℤ) + 7).tdiv 8 = ((size + 7) / 8 : ℕ) := by
    rw [Int.tdiv_eq_ediv_of_nonneg (by omega)]
    omega
  rw [align8, int32_of_range (by omega) (by omega), Option.bind_eq_bind, Option.bind_some, hdiv,
    int32_of_range (by omega) (by omega)]
  rfl

theorem pageBitmapSize_nat {n : ℕ} (h : n + 7 < 2 ^ 31) :
    pageBitmapSize n = some ((RecordManager.pageBitmapSize n : ℕ) : ℤ) := by
  have hdiv : ((n : ℤ) + 7).tdiv 8 = ((n + 7) / 8 : ℕ) := by
    rw [Int.tdiv_eq_ediv_of_nonneg (by omega)]
    omega
  rw [pageBitmapSize, int32_of_range (by omega) (by omega), Option.bind_eq_bind, Option.bind_some, hdiv]
  rfl

theorem pageRecordCapacity_nat (recordSize : ℕ) :
    pageRecordCapacity bpPageDataSize (RecordManager.align8 recordSize : ℕ) =
      some ((RecordManager.pageRecordCapacity bpPageDataSize (RecordManager.align8 recordSize) : ℕ) : ℤ) := by
  have hle := pageRecordCapacity_le recordSize
  unfold RecordManager.pageRecordCapacity at hle ⊢
  generalize RecordManager.align8 recordSize = size at *
  have hroom : ((bpPageDataSize : ℕ) : ℤ) - (pageHeaderSize : ℕ) - 1 = ((bpPageDataSize - pageHeaderSize - 1 : ℕ) : ℤ) := by
    decide
  have hdiv : (8 * ((bpPageDataSize - pageHeaderSize - 1 : ℕ) : ℤ)).tdiv (8 * size + 1) =
      ((8 * (bpPageDataSize - pageHeaderSize - 1) / (8 * size + 1) : ℕ) : ℤ) := by
    rw [Int.tdiv_eq_ediv_of_nonneg (by omega)]
    push_cast
    rfl
  generalize 8 * (bpPageDataSize - pageHeaderSize - 1) / (8 * size + 1) = n at *
  rw [pageRecordCapacity, int32_of_range (by decide) (by decide), Option.bind_eq_bind, Option.bind_some, hroom,
    int32_of_range (by decide) (by decide), Option.bind_some, hdiv, int32_of_range (by omega) (by omega)]

/-- The loop takes records away until the last one lies in the page, at the latest when none is left. -/
theorem fixLoop_nat {first : ℕ} (hfirst : first ≤ bpPageDataSize) (size rounds n : ℕ) (hrounds : n < rounds)
    (hn : n < 2 ^ 31) (hlast : first + n * size < 2 ^ 31) :
    fixLoop size rounds n ((first + n * size : ℕ) : ℤ) =
      some ((RecordManager.fixRecordCapacity first size n : ℕ) : ℤ) := by
  induction rounds generalizing n with
  | zero => omega
  | succ rounds ih =>
    cases n with
    | zero =>
      rw [fixLoop, Nat.zero_mul, Nat.add_zero, if_neg (by omega)]
      rfl
    | succ n =>
      have hstep : first + (n + 1) * size = first + n * size + size := by rw [Nat.succ_mul, Nat.add_assoc]
      rw [fixLoop, RecordManager.fixRecordCapacity]
      by_cases hout : bpPageDataSize < first + (n + 1) * size
      · have hcapacity : ((n + 1 : ℕ) : ℤ) - 1 = n := by omega
        have hoffset : ((first + (n + 1) * size : ℕ) : ℤ) - size = ((first + n * size : ℕ) : ℤ) := by omega
        rw [if_pos (by omega), if_pos hout, hcapacity, hoffset, int32_of_range (by omega) (by omega),
          int32_of_range (by omega) (by omega)]
        exact ih n (by omega) (by omega) (by omega)
      · rw [if_neg (by omega), if_neg hout]

theorem initEmptyPage_nat {recordSize : ℕ} (h : recordSize + 7 < 2 ^ 31) {rounds : ℕ}
    (hrounds : RecordManager.pageRecordCapacity bpPageDataSize (RecordManager.align8 recordSize) < rounds) :
    initEmptyPage rounds recordSize = some (.ofNat recordSize) := by
  have hmul := pageRecordCapacity_mul_le recordSize
  have hle := pageRecordCapacity_le recordSize
  have hfirst := firstOffset_le recordSize
  have hslots : RecordManager.pageRecordCapacity bpPageDataSize (RecordManager.align8 recordSize) *
      RecordManager.align8 recordSize ≤ 4194072 := by
    refine le_trans (Nat.mul_le_mul_left _ ?_) hmul
    omega
  have hpage : bpPageDataSize < 2 ^ 20 := by decide
  rw [initEmptyPage, align8_nat h, Option.bind_eq_bind, Option.bind_some, pageRecordCapacity_nat, Option.bind_some,
    Geometry.ofNat, capacity, firstOffset]
  unfold firstOffset at hfirst
  generalize RecordManager.pageRecordCapacity bpPageDataSize (RecordManager.align8 recordSize) = n at *
  have hbits : RecordManager.pageBitmapSize n ≤ 4194072 := by
    unfold RecordManager.pageBitmapSize
    omega
  have hend : ((pageHeaderSize : ℕ) : ℤ) + (RecordManager.pageBitmapSize n : ℕ) =
      ((pageHeaderSize + RecordManager.pageBitmapSize n : ℕ) : ℤ) := by
    push_cast
    rfl
  have hheader : pageHeaderSize = 20 := rfl
  have hloop := fixLoop_nat hfirst (RecordManager.align8 recordSize) rounds n hrounds (by omega) (by omega)
  rw [Nat.cast_add, Nat.cast_mul] at hloop
  rw [pageBitmapSize_nat (by omega), Option.bind_some, hend, int32_of_range (by omega) (by omega), Option.bind_some,
    align8_nat (by omega), Option.bind_some, fixRecordCapacity, int32_of_range (by omega) (by omega),
    Option.bind_eq_bind, Option.bind_some, int32_of_range (by omega) (by omega), Option.bind_some, hloop,
    Option.bind_some]

theorem computes_nat {recordSize : ℕ} (h : recordSize + 7 < 2 ^ 31) :
    Computes recordSize (.ofNat recordSize) :=
  ⟨_, fun more => initEmptyPage_nat h (lt_of_lt_of_le (Nat.lt_succ_self _) (Nat.le_add_right _ more))⟩

end Checked

/-! ## The layout -/

namespace Checked.Geometry

variable (geometry : Geometry) {bitmapSize : ℤ}

theorem slots_apart (hsize : 0 ≤ geometry.recordSize) {i j : ℕ} (h : i < j) :
    (geometry.slot i).Disjoint (geometry.slot j) := by
  left
  have hmul : geometry.recordSize * (i + 1) ≤ geometry.recordSize * j := Int.mul_le_mul_of_nonneg_left (by omega) hsize
  rw [Int.mul_add, Int.mul_one] at hmul
  show geometry.firstRecordOffset + geometry.recordSize * i + geometry.recordSize ≤
    geometry.firstRecordOffset + geometry.recordSize * j
  omega

theorem slot_inside (hsize : 0 ≤ geometry.recordSize)
    (hslots : geometry.firstRecordOffset + geometry.recordCapacity * geometry.recordSize ≤ bpPageDataSize) {i : ℕ}
    (hi : i < geometry.recordCapacity) :
    geometry.firstRecordOffset ≤ (geometry.slot i).start ∧
      (geometry.slot i).start + (geometry.slot i).length ≤ bpPageDataSize := by
  have hmul : geometry.recordSize * (i + 1) ≤ geometry.recordSize * geometry.recordCapacity :=
    Int.mul_le_mul_of_nonneg_left (by omega) hsize
  have hnonneg : 0 ≤ geometry.recordSize * i := Int.mul_nonneg hsize (Int.natCast_nonneg i)
  rw [Int.mul_add, Int.mul_one, Int.mul_comm _ geometry.recordCapacity] at hmul
  show geometry.firstRecordOffset ≤ geometry.firstRecordOffset + geometry.recordSize * i ∧
    geometry.firstRecordOffset + geometry.recordSize * i + geometry.recordSize ≤ bpPageDataSize
  omega

/-- A bitmap that ends in front of the first slot, and slots that end inside the page. -/
theorem regions_apart (hsize : 0 ≤ geometry.recordSize) (hbits : 0 ≤ bitmapSize)
    (hbitmap : pageHeaderSize + bitmapSize ≤ geometry.firstRecordOffset)
    (hslots : geometry.firstRecordOffset + geometry.recordCapacity * geometry.recordSize ≤ bpPageDataSize)
    (hfirst : geometry.firstRecordOffset ≤ bpPageDataSize) :
    (geometry.regions bitmapSize).Pairwise Region.Disjoint ∧ ∀ r ∈ geometry.regions bitmapSize, r.Inside := by
  have hmem : ∀ r ∈ (List.range geometry.recordCapacity.toNat).map geometry.slot,
      geometry.firstRecordOffset ≤ r.start ∧ r.start + r.length ≤ bpPageDataSize := by
    intro r hr
    obtain ⟨i, hi, rfl⟩ := List.mem_map.mp hr
    rw [List.mem_range] at hi
    exact geometry.slot_inside hsize hslots (by omega)
  constructor
  · refine List.pairwise_cons.mpr ⟨?_, List.pairwise_cons.mpr ⟨?_, ?_⟩⟩
    · intro r hr
      left
      cases List.mem_cons.mp hr with
      | inl heq =>
        rw [heq]
        exact le_of_eq (Int.zero_add _)
      | inr hslot =>
        have hstart := (hmem r hslot).1
        show 0 + (pageHeaderSize : ℤ) ≤ r.start
        omega
    · intro r hr
      left
      exact le_trans hbitmap (hmem r hr).1
    · rw [List.pairwise_map]
      exact List.pairwise_lt_range.imp fun hij => geometry.slots_apart hsize hij
  · intro r hr
    have hheader : 0 ≤ (pageHeaderSize : ℤ) := Int.natCast_nonneg _
    cases List.mem_cons.mp hr with
    | inl heq =>
      rw [heq]
      exact ⟨le_refl 0, by show 0 + (pageHeaderSize : ℤ) ≤ _; omega⟩
    | inr hr =>
      cases List.mem_cons.mp hr with
      | inl heq =>
        rw [heq]
        exact ⟨hheader, by show (pageHeaderSize : ℤ) + bitmapSize ≤ _; omega⟩
      | inr hslot =>
        have hinside := hmem r hslot
        exact ⟨by omega, hinside.2⟩

end Checked.Geometry

/-- Every record size whose alignment is an `int` has a geometry, in which the header, the bitmap and the slots lie apart
inside the page; there is a slot when the header, one byte of bitmap and one record fit in the page. -/
theorem initEmptyPage_geometry (recordSize : ℤ) (hpos : 1 ≤ recordSize) (hint : recordSize + 7 < 2 ^ 31) :
    ∃ geometry bitmapSize, Checked.Computes recordSize geometry ∧ 0 ≤ geometry.recordCapacity ∧
      Checked.pageBitmapSize geometry.recordCapacity = some bitmapSize ∧ recordSize ≤ geometry.recordSize ∧
      (geometry.regions bitmapSize).Pairwise Region.Disjoint ∧ (∀ r ∈ geometry.regions bitmapSize, r.Inside) ∧
      (pageHeaderSize + 1 + geometry.recordSize ≤ bpPageDataSize → 1 ≤ geometry.recordCapacity) := by
  obtain ⟨n, rfl⟩ := Int.eq_ofNat_of_zero_le (by omega : 0 ≤ recordSize)
  have hcapacity := capacity_le n
  have hbitmap := bitmap_inside n
  have hslots := slots_inside n
  have hfirst := firstOffset_le n
  have hbitmap' : (pageHeaderSize : ℤ) + (pageBitmapSize (capacity n) : ℕ) ≤ firstOffset n := by exact_mod_cast hbitmap
  have hslots' : (firstOffset n : ℤ) + (capacity n : ℕ) * (align8 n : ℕ) ≤ bpPageDataSize := by exact_mod_cast hslots
  have hfirst' : (firstOffset n : ℤ) ≤ bpPageDataSize := Int.ofNat_le.mpr hfirst
  obtain ⟨hapart, hinside⟩ := (Checked.Geometry.ofNat n).regions_apart (Int.natCast_nonneg _) (Int.natCast_nonneg _)
    hbitmap' hslots' hfirst'
  refine ⟨_, _, Checked.computes_nat (by omega), Int.natCast_nonneg _, Checked.pageBitmapSize_nat (by omega),
    Int.ofNat_le.mpr (le_align8 n), hapart, hinside, fun hroom => ?_⟩
  have hfits : Fits n := by
    have haligned : align8 (pageHeaderSize + pageBitmapSize 1) = 24 := rfl
    have hmod : align8 n % 8 = 0 := Nat.mul_mod_left _ _
    have hsize : (Checked.Geometry.ofNat n).recordSize = (align8 n : ℕ) := rfl
    have hroom' : pageHeaderSize + 1 + align8 n ≤ bpPageDataSize := by
      rw [hsize] at hroom
      exact_mod_cast hroom
    rw [Fits, haligned]
    unfold pageHeaderSize bpPageDataSize at *
    omega
  exact Int.ofNat_le.mpr (capacity_pos hfits)

/-- Records of twenty bytes. -/
theorem initEmptyPage_geometry_twenty :
    ∃ geometry bitmapSize, Checked.Computes 20 geometry ∧ 0 ≤ geometry.recordCapacity ∧
      Checked.pageBitmapSize geometry.recordCapacity = some bitmapSize ∧ 20 ≤ geometry.recordSize ∧
      (geometry.regions bitmapSize).Pairwise Region.Disjoint ∧ (∀ r ∈ geometry.regions bitmapSize, r.Inside) ∧
      (pageHeaderSize + 1 + geometry.recordSize ≤ bpPageDataSize → 1 ≤ geometry.recordCapacity) :=
  initEmptyPage_geometry 20 (by decide) (by decide)

end Landbase.RecordManager
