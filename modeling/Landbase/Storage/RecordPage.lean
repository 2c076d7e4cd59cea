import Landbase.Storage.RecordManager

/-! # Pages of records

A page that `init_empty_page` has laid out has its bitmap behind the header and its slots behind the bitmap, and all of
them lie inside the page. Such a page holds one record, or none, in each of its slots, and `record_num` counts them; the
operations on a page are those on this content.
-/

namespace Landbase.RecordManager
open Lib Buffer
set_option autoImplicit false

/-! ## The layout of a page -/

/-- Behind the header and one byte of bitmap there is room for a record. -/
def Fits (recordSize : ℕ) : Prop := align8 (pageHeaderSize + pageBitmapSize 1) + align8 recordSize ≤ bpPageDataSize

instance (recordSize : ℕ) : Decidable (Fits recordSize) := inferInstanceAs (Decidable (_ ≤ _))

theorem le_align8 (size : ℕ) : size ≤ align8 size := by
  unfold align8
  omega

theorem align8_mono {a b : ℕ} (h : a ≤ b) : align8 a ≤ align8 b := by
  unfold align8
  omega

theorem fixRecordCapacity_le (first size n : ℕ) : fixRecordCapacity first size n ≤ n := by
  induction n with
  | zero => exact le_refl 0
  | succ n ih =>
    rw [fixRecordCapacity]
    split
    · exact le_trans ih (Nat.le_succ n)
    · exact le_refl _

theorem fixRecordCapacity_fits {first : ℕ} (h : first ≤ bpPageDataSize) (size n : ℕ) :
    first + fixRecordCapacity first size n * size ≤ bpPageDataSize := by
  induction n with
  | zero => rwa [fixRecordCapacity, Nat.zero_mul, Nat.add_zero]
  | succ n ih =>
    rw [fixRecordCapacity]
    split
    · exact ih
    · next hle => exact not_lt.mp hle

theorem fixRecordCapacity_pos {first size : ℕ} (h : first + size ≤ bpPageDataSize) {n : ℕ} (hn : 1 ≤ n) :
    1 ≤ fixRecordCapacity first size n := by
  induction n with
  | zero => omega
  | succ n ih =>
    rw [fixRecordCapacity]
    split
    · next hlt =>
      apply ih
      by_contra hzero
      have hn0 : n = 0 := by omega
      rw [hn0, Nat.zero_add, Nat.one_mul] at hlt
      omega
    · exact Nat.le_add_left 1 n

section Layout

variable (recordSize : ℕ)

theorem pageRecordCapacity_mul_le :
    pageRecordCapacity bpPageDataSize (align8 recordSize) * (8 * align8 recordSize + 1) ≤ 4194072 :=
  Nat.div_mul_le_self _ _

theorem pageRecordCapacity_le : pageRecordCapacity bpPageDataSize (align8 recordSize) ≤ 4194072 := by
  have hmul := pageRecordCapacity_mul_le recordSize
  have hle : pageRecordCapacity bpPageDataSize (align8 recordSize) * 1 ≤
      pageRecordCapacity bpPageDataSize (align8 recordSize) * (8 * align8 recordSize + 1) :=
    Nat.mul_le_mul_left _ (by omega)
  omega

theorem firstOffset_le : firstOffset recordSize ≤ bpPageDataSize := by
  have hle := pageRecordCapacity_le recordSize
  rw [firstOffset]
  generalize pageRecordCapacity bpPageDataSize (align8 recordSize) = n at hle
  unfold align8 pageBitmapSize pageHeaderSize bpPageDataSize
  omega

theorem capacity_le : capacity recordSize ≤ 4194072 :=
  le_trans (fixRecordCapacity_le _ _ _) (pageRecordCapacity_le recordSize)

/-- The assertion of `init_empty_page`: the slots lie inside the page. -/
theorem slots_inside : firstOffset recordSize + capacity recordSize * align8 recordSize ≤ bpPageDataSize :=
  fixRecordCapacity_fits (firstOffset_le recordSize) _ _

theorem bitmap_inside : pageHeaderSize + pageBitmapSize (capacity recordSize) ≤ firstOffset recordSize := by
  have hcapacity : capacity recordSize ≤ pageRecordCapacity bpPageDataSize (align8 recordSize) :=
    fixRecordCapacity_le _ _ _
  refine le_trans ?_ (le_align8 _)
  unfold pageBitmapSize
  omega

variable {recordSize}

theorem capacity_pos (h : Fits recordSize) : 1 ≤ capacity recordSize := by
  have hmul := pageRecordCapacity_mul_le recordSize
  have hinside := firstOffset_le recordSize
  have hmod : align8 recordSize % 8 = 0 := Nat.mul_mod_left _ _
  have hbitmap : pageBitmapSize 1 = 1 := rfl
  rw [Fits, hbitmap] at h
  have hone : 1 ≤ pageRecordCapacity bpPageDataSize (align8 recordSize) := by
    rw [pageRecordCapacity, Nat.one_le_div_iff (Nat.succ_pos _)]
    unfold bpPageDataSize pageHeaderSize at h ⊢
    have halign := le_align8 (20 + 1)
    omega
  refine fixRecordCapacity_pos ?_ hone
  rw [firstOffset] at hinside ⊢
  generalize pageRecordCapacity bpPageDataSize (align8 recordSize) = n at *
  generalize align8 recordSize = a at *
  by_cases hsmall : n ≤ 8
  · have hn : pageBitmapSize n = 1 := by
      unfold pageBitmapSize
      omega
    rwa [hn]
  · by_cases hzero : a = 0
    · omega
    · -- both the bitmap and the slots are short
      have hslots : 65 * n ≤ n * (8 * a + 1) := by
        rw [Nat.mul_comm]
        exact Nat.mul_le_mul_left n (by omega)
      have hbits : 9 * (8 * a + 1) ≤ n * (8 * a + 1) := Nat.mul_le_mul_right _ (by omega)
      unfold align8 pageBitmapSize pageHeaderSize bpPageDataSize
      omega

/-- One record fits in a page if and only if a page has a slot. -/
theorem capacity_pos_iff : 1 ≤ capacity recordSize ↔ Fits recordSize := by
  refine ⟨fun hpos => ?_, capacity_pos⟩
  have hinside := slots_inside recordSize
  have hslot : 1 * align8 recordSize ≤ capacity recordSize * align8 recordSize := Nat.mul_le_mul_right _ hpos
  have hcapacity : 1 ≤ pageRecordCapacity bpPageDataSize (align8 recordSize) :=
    le_trans hpos (fixRecordCapacity_le _ _ _)
  have hbitmap : pageBitmapSize 1 ≤ pageBitmapSize (pageRecordCapacity bpPageDataSize (align8 recordSize)) := by
    unfold pageBitmapSize
    omega
  have hfirst : align8 (pageHeaderSize + pageBitmapSize 1) ≤ firstOffset recordSize :=
    align8_mono (Nat.add_le_add_left hbitmap _)
  unfold Fits
  omega

end Layout

/-! ## The header, the bitmap and the slots -/

/-- The page is laid out for records of this size. -/
structure LaidOut (recordSize : ℕ) (page : Memory) : Prop where
  realSize : PageHeader.recordRealSize page = recordSize
  size : PageHeader.recordSize page = align8 recordSize
  capacity : PageHeader.recordCapacity page = capacity recordSize
  first : PageHeader.firstRecordOffset page = firstOffset recordSize

namespace LaidOut

open RecordPageHandler

variable {recordSize : ℕ} {page : Memory}

theorem congr {page' : Memory} (h : LaidOut recordSize page)
    (heq : ∀ off, 4 ≤ off → off ≤ 16 → page'.getInt32 off = page.getInt32 off) : LaidOut recordSize page' :=
  ⟨(heq 4 (by omega) (by omega)).trans h.realSize, (heq 8 (by omega) (by omega)).trans h.size,
    (heq 12 (by omega) (by omega)).trans h.capacity, (heq 16 (by omega) (by omega)).trans h.first⟩

theorem getRecordData_eq (h : LaidOut recordSize page) (i : ℕ) :
    getRecordData page i = firstOffset recordSize + align8 recordSize * i := by
  rw [getRecordData, h.first, h.size]
  exact Int.toNat_natCast _

theorem record_eq (h : LaidOut recordSize page) (i : ℕ) :
    record page i = page.read (firstOffset recordSize + align8 recordSize * i) recordSize := by
  rw [record, h.getRecordData_eq, h.realSize, Int.toNat_natCast]

theorem setRecord_eq (h : LaidOut recordSize page) (i : ℕ) (data : Memory) :
    setRecord page i data = page.copy (firstOffset recordSize + align8 recordSize * i) data recordSize := by
  rw [setRecord, h.getRecordData_eq, h.realSize, Int.toNat_natCast]

theorem header_lt_firstOffset (recordSize : ℕ) : pageHeaderSize ≤ firstOffset recordSize :=
  le_trans (Nat.le_add_right _ _) (bitmap_inside recordSize)

/-- The byte of a slot's bit stands in front of the slots. -/
theorem bit_lt_firstOffset {i : ℕ} (hi : i < RecordManager.capacity recordSize) :
    pageHeaderSize + i / 8 < firstOffset recordSize := by
  have hbitmap := bitmap_inside recordSize
  unfold pageBitmapSize at hbitmap
  omega

theorem setBit (h : LaidOut recordSize page) (i : ℕ) : LaidOut recordSize (page.setBit pageHeaderSize i) :=
  h.congr fun off _ hoff => Memory.getInt32_setBit (by unfold pageHeaderSize; omega) page i

theorem clearBit (h : LaidOut recordSize page) (i : ℕ) : LaidOut recordSize (page.clearBit pageHeaderSize i) :=
  h.congr fun off _ hoff => Memory.getInt32_clearBit (by unfold pageHeaderSize; omega) page i

theorem setRecordNum (h : LaidOut recordSize page) (x : ℤ) : LaidOut recordSize (PageHeader.setRecordNum page x) :=
  h.congr fun off hoff _ => Memory.getInt32_setInt32_of_disjoint (by omega) page x

theorem setRecord (h : LaidOut recordSize page) (i : ℕ) (data : Memory) :
    LaidOut recordSize (setRecord page i data) := by
  have hfirst := header_lt_firstOffset recordSize
  rw [h.setRecord_eq]
  exact h.congr fun off _ hoff => Memory.getInt32_copy (by unfold pageHeaderSize at hfirst; omega) page data _

end LaidOut

/-! ## What a page holds -/

/-- The slots in use among the first `n`. -/
def usedSlots (page : Memory) (n : ℕ) : Finset ℕ := {i ∈ Finset.range n | RecordPageHandler.inUse page i}

/-- The page holds the records `live`, by their slots. -/
structure Holds (recordSize : ℕ) (page : Memory) (live : ℕ → Option Bytes) : Prop where
  laid : LaidOut recordSize page
  num : PageHeader.recordNum page = (usedSlots page (capacity recordSize)).card
  used : ∀ i, i < capacity recordSize → RecordPageHandler.inUse page i = (live i).isSome
  outside : ∀ i, capacity recordSize ≤ i → live i = none
  bytes : ∀ i data, live i = some data → RecordPageHandler.record page i = data

namespace Holds

open RecordPageHandler

variable {recordSize : ℕ} {page : Memory} {live : ℕ → Option Bytes}

theorem lt_capacity (h : Holds recordSize page live) {i : ℕ} (hi : (live i).isSome = true) : i < capacity recordSize := by
  by_contra hge
  rw [h.outside i (not_lt.mp hge)] at hi
  cases hi

theorem mem_usedSlots {n i : ℕ} : i ∈ usedSlots page n ↔ i < n ∧ inUse page i = true := by
  rw [usedSlots, Finset.mem_filter, Finset.mem_range]

theorem card_usedSlots_le (page : Memory) (n : ℕ) : (usedSlots page n).card ≤ n :=
  le_trans (Finset.card_filter_le _ _) (le_of_eq (Finset.card_range n))

/-- The page is full when all slots are in use. -/
theorem isFull_iff (h : Holds recordSize page live) :
    isFull page = true ↔ ∀ i < capacity recordSize, inUse page i = true := by
  have hle := card_usedSlots_le page (capacity recordSize)
  rw [isFull, decide_eq_true_eq, h.laid.capacity, h.num, Int.ofNat_le]
  constructor
  · intro hfull i hi
    have hall : usedSlots page (capacity recordSize) = Finset.range (capacity recordSize) :=
      Finset.eq_of_subset_of_card_le (Finset.filter_subset _ _) (by rwa [Finset.card_range])
    exact (mem_usedSlots.mp (by rw [hall]; exact Finset.mem_range.mpr hi)).2
  · intro hall
    have heq : usedSlots page (capacity recordSize) = Finset.range (capacity recordSize) :=
      Finset.filter_true_of_mem fun i hi => hall i (Finset.mem_range.mp hi)
    rw [heq, Finset.card_range]

theorem record_congr (hlaid : LaidOut recordSize page) {page' : Memory} (hlaid' : LaidOut recordSize page') {i : ℕ}
    (h : ∀ j, firstOffset recordSize + align8 recordSize * i ≤ j →
      j < firstOffset recordSize + align8 recordSize * i + recordSize → page' j = page j) :
    record page' i = record page i := by
  rw [hlaid.record_eq, hlaid'.record_eq]
  exact Memory.read_congr h

/-- A slot of the bitmap and the counter change, and the slots behind them do not. -/
theorem rewrite (h : Holds recordSize page live) {page' : Memory} (hlaid : LaidOut recordSize page') {i : ℕ}
    (hi : i < capacity recordSize) {data : Option Bytes}
    (hnum : PageHeader.recordNum page' = (usedSlots page' (capacity recordSize)).card)
    (hused : ∀ j, inUse page' j = if j = i then data.isSome else inUse page j)
    (hsame : ∀ j, firstOffset recordSize ≤ j → page' j = page j) (hdata : ∀ d, data = some d → record page i = d) :
    Holds recordSize page' (Function.update live i data) := by
  have hrecord : ∀ j, record page' j = record page j := by
    intro j
    exact record_congr h.laid hlaid fun k hk _ => hsame k (by omega)
  refine ⟨hlaid, hnum, ?_, ?_, ?_⟩
  · intro j hj
    rw [hused]
    by_cases hji : j = i
    · rw [if_pos hji, hji, Function.update_self]
    · rw [if_neg hji, Function.update_of_ne hji, h.used j hj]
  · intro j hj
    rw [Function.update_of_ne (by omega), h.outside j hj]
  · intro j d hd
    rw [hrecord]
    by_cases hji : j = i
    · rw [hji, Function.update_self] at hd
      rw [hji]
      exact hdata d hd
    · rw [Function.update_of_ne hji] at hd
      exact h.bytes j d hd

theorem recordNum_setRecordNum (page : Memory) {x : ℤ} (hlo : -2 ^ 31 ≤ x) (hhi : x < 2 ^ 31) :
    PageHeader.recordNum (PageHeader.setRecordNum page x) = x :=
  Memory.getInt32_setInt32 hlo hhi page 0

theorem inUse_setRecordNum (page : Memory) (x : ℤ) (i : ℕ) :
    inUse (PageHeader.setRecordNum page x) i = inUse page i :=
  Memory.getBit_setInt32 (by unfold pageHeaderSize; omega) page x i

theorem usedSlots_congr {page' : Memory} {n : ℕ} (h : ∀ i < n, inUse page' i = inUse page i) :
    usedSlots page' n = usedSlots page n := by
  ext i
  rw [mem_usedSlots, mem_usedSlots]
  constructor
  · rintro ⟨hi, hbit⟩
    exact ⟨hi, (h i hi).symm.trans hbit⟩
  · rintro ⟨hi, hbit⟩
    exact ⟨hi, (h i hi).trans hbit⟩

theorem recordNum_bounds (h : Holds recordSize page live) :
    0 ≤ PageHeader.recordNum page ∧ PageHeader.recordNum page ≤ 4194072 := by
  have hle := card_usedSlots_le page (capacity recordSize)
  have hcapacity := capacity_le recordSize
  rw [h.num]
  omega

/-- A free slot is put to use, with the bytes that it has. -/
theorem mark (h : Holds recordSize page live) {i : ℕ} (hi : i < capacity recordSize) (hfree : live i = none) :
    Holds recordSize (PageHeader.setRecordNum (page.setBit pageHeaderSize i) (PageHeader.recordNum page + 1))
      (Function.update live i (some (record page i))) := by
  have hbounds := h.recordNum_bounds
  have hbit : inUse page i = false := by rw [h.used i hi, hfree]; rfl
  have hset : ∀ j, inUse (page.setBit pageHeaderSize i) j = (inUse page j || decide (j = i)) :=
    Memory.getBit_setBit page pageHeaderSize i
  refine h.rewrite ((h.laid.setBit i).setRecordNum _) hi ?_ ?_ ?_ fun d hd => Option.some.inj hd
  · have hslots : usedSlots (PageHeader.setRecordNum (page.setBit pageHeaderSize i) (PageHeader.recordNum page + 1))
        (capacity recordSize) = insert i (usedSlots page (capacity recordSize)) := by
      rw [usedSlots_congr fun j _ => inUse_setRecordNum _ _ j]
      ext j
      rw [mem_usedSlots, Finset.mem_insert, mem_usedSlots, hset, Bool.or_eq_true, decide_eq_true_eq]
      constructor
      · rintro ⟨hj, hbit | heq⟩
        · exact Or.inr ⟨hj, hbit⟩
        · exact Or.inl heq
      · rintro (heq | ⟨hj, hbit⟩)
        · exact ⟨heq ▸ hi, Or.inr heq⟩
        · exact ⟨hj, Or.inl hbit⟩
    have hnew : i ∉ usedSlots page (capacity recordSize) := by
      rw [mem_usedSlots, hbit]
      simp
    rw [recordNum_setRecordNum _ (by omega) (by omega), hslots, Finset.card_insert_of_notMem hnew, h.num]
    rfl
  · intro j
    rw [inUse_setRecordNum, hset]
    by_cases hji : j = i
    · rw [if_pos hji, decide_eq_true hji, Bool.or_true]
      rfl
    · rw [if_neg hji, decide_eq_false hji, Bool.or_false]
  · intro j hj
    have hlt := LaidOut.bit_lt_firstOffset hi
    rw [PageHeader.setRecordNum, Memory.setInt32_apply_of_notMem (Or.inr (by unfold pageHeaderSize at hlt; omega))]
    exact Function.update_of_ne (by omega) _ _

/-- A slot in use is freed. -/
theorem unmark (h : Holds recordSize page live) {i : ℕ} (hlive : (live i).isSome = true) :
    Holds recordSize (PageHeader.setRecordNum (page.clearBit pageHeaderSize i) (PageHeader.recordNum page - 1))
      (Function.update live i none) := by
  have hi := h.lt_capacity hlive
  have hbounds := h.recordNum_bounds
  have hbit : inUse page i = true := by rw [h.used i hi, hlive]
  have hset : ∀ j, inUse (page.clearBit pageHeaderSize i) j = (inUse page j && decide (j ≠ i)) :=
    Memory.getBit_clearBit page pageHeaderSize i
  refine h.rewrite ((h.laid.clearBit i).setRecordNum _) hi ?_ ?_ ?_ fun d hd => by cases hd
  · have hslots : usedSlots (PageHeader.setRecordNum (page.clearBit pageHeaderSize i) (PageHeader.recordNum page - 1))
        (capacity recordSize) = (usedSlots page (capacity recordSize)).erase i := by
      rw [usedSlots_congr fun j _ => inUse_setRecordNum _ _ j]
      ext j
      rw [mem_usedSlots, Finset.mem_erase, mem_usedSlots, hset, Bool.and_eq_true, decide_eq_true_eq]
      tauto
    have hmem : i ∈ usedSlots page (capacity recordSize) := mem_usedSlots.mpr ⟨hi, hbit⟩
    have hpos : 0 < (usedSlots page (capacity recordSize)).card := Finset.card_pos.mpr ⟨i, hmem⟩
    rw [recordNum_setRecordNum _ (by omega) (by omega), hslots, Finset.card_erase_of_mem hmem, h.num]
    omega
  · intro j
    rw [inUse_setRecordNum, hset]
    by_cases hji : j = i
    · rw [if_pos hji, decide_eq_false (not_not.mpr hji), Bool.and_false]
      rfl
    · rw [if_neg hji, decide_eq_true hji, Bool.and_true]
  · intro j hj
    have hlt := LaidOut.bit_lt_firstOffset hi
    rw [PageHeader.setRecordNum, Memory.setInt32_apply_of_notMem (Or.inr (by unfold pageHeaderSize at hlt; omega))]
    exact Function.update_of_ne (by omega) _ _

theorem inUse_setRecord (hlaid : LaidOut recordSize page) {j : ℕ} (hj : j < capacity recordSize) (i : ℕ) (data : Memory) :
    inUse (RecordPageHandler.setRecord page i data) j = inUse page j := by
  have hlt := LaidOut.bit_lt_firstOffset hj
  rw [hlaid.setRecord_eq]
  exact Memory.getBit_copy (by omega) page data _

/-- `memcpy` into a slot in use. -/
theorem setRecord (h : Holds recordSize page live) {i : ℕ} (hlive : (live i).isSome = true) (data : Memory) :
    Holds recordSize (setRecord page i data) (Function.update live i (some (data.read 0 recordSize))) := by
  have hi := h.lt_capacity hlive
  have hlaid := h.laid.setRecord i data
  have hfirst := LaidOut.header_lt_firstOffset recordSize
  have hused : ∀ j, j < capacity recordSize → inUse (RecordPageHandler.setRecord page i data) j = inUse page j :=
    fun j hj => inUse_setRecord h.laid hj i data
  refine ⟨hlaid, ?_, ?_, ?_, ?_⟩
  · rw [usedSlots_congr hused, ← h.num, h.laid.setRecord_eq]
    exact Memory.getInt32_copy (by unfold pageHeaderSize at hfirst; omega) page data _
  · intro j hj
    rw [hused j hj]
    by_cases hji : j = i
    · rw [hji, Function.update_self, h.used i hi, hlive]
      rfl
    · rw [Function.update_of_ne hji, h.used j hj]
  · intro j hj
    rw [Function.update_of_ne (by omega), h.outside j hj]
  · intro j d hd
    by_cases hji : j = i
    · rw [hji, Function.update_self] at hd
      rw [hji, hlaid.record_eq, h.laid.setRecord_eq, Memory.read_copy]
      exact Option.some.inj hd
    · rw [Function.update_of_ne hji] at hd
      rw [← h.bytes j d hd]
      refine record_congr h.laid hlaid fun k hlo hhi => ?_
      -- the slots of two records do not overlap
      have hsize := le_align8 recordSize
      rw [h.laid.setRecord_eq]
      apply Memory.copy_apply_of_notMem
      cases lt_or_gt_of_ne hji with
      | inl hlt =>
        left
        have hmul : align8 recordSize * (j + 1) ≤ align8 recordSize * i := Nat.mul_le_mul_left _ hlt
        rw [Nat.mul_succ] at hmul
        omega
      | inr hgt =>
        right
        have hmul : align8 recordSize * (i + 1) ≤ align8 recordSize * j := Nat.mul_le_mul_left _ hgt
        rw [Nat.mul_succ] at hmul
        omega

theorem laidOut_assign (h : Fits recordSize) (page : Memory) :
    LaidOut recordSize (PageHeader.assign page 0 recordSize (align8 recordSize) (capacity recordSize)
      (firstOffset recordSize)) := by
  have hsize := le_align8 recordSize
  have hfirst := firstOffset_le recordSize
  have hcapacity := capacity_le recordSize
  unfold Fits at h
  unfold bpPageDataSize at h hfirst
  have hset : ∀ (m : Memory) (off : ℕ) {x : ℕ}, x < 2 ^ 31 → (m.setInt32 off x).getInt32 off = x := by
    intro m off x hx
    exact Memory.getInt32_setInt32 (by omega) (by omega) m off
  have hkeep : ∀ (m : Memory) (off off' : ℕ) (x : ℤ), off' + 4 ≤ off →
      (m.setInt32 off x).getInt32 off' = m.getInt32 off' := by
    intro m off off' x hoff
    exact Memory.getInt32_setInt32_of_disjoint (Or.inl hoff) m x
  refine ⟨?_, ?_, ?_, ?_⟩
  · rw [PageHeader.recordRealSize, PageHeader.assign, hkeep _ 16 4 _ (by omega), hkeep _ 12 4 _ (by omega),
      hkeep _ 8 4 _ (by omega)]
    exact hset _ 4 (by omega)
  · rw [PageHeader.recordSize, PageHeader.assign, hkeep _ 16 8 _ (by omega), hkeep _ 12 8 _ (by omega)]
    exact hset _ 8 (by omega)
  · rw [PageHeader.recordCapacity, PageHeader.assign, hkeep _ 16 12 _ (by omega)]
    exact hset _ 12 (by omega)
  · exact hset _ 16 (by omega)

theorem recordNum_assign (page : Memory) (realSize size capacity first : ℤ) :
    PageHeader.recordNum (PageHeader.assign page 0 realSize size capacity first) = 0 := by
  rw [PageHeader.recordNum, PageHeader.assign, Memory.getInt32_setInt32_of_disjoint (by omega),
    Memory.getInt32_setInt32_of_disjoint (by omega), Memory.getInt32_setInt32_of_disjoint (by omega),
    Memory.getInt32_setInt32_of_disjoint (by omega)]
  exact Memory.getInt32_setInt32 (by omega) (by omega) page 0

/-- A new page. -/
theorem initEmptyPage (h : Fits recordSize) (page : Memory) :
    Holds recordSize (initEmptyPage page recordSize) fun _ => none := by
  have hfield : ∀ (m : Memory) (off : ℕ), off ≤ 16 →
      (m.copy pageHeaderSize (fun _ => 0) (pageBitmapSize (capacity recordSize))).getInt32 off = m.getInt32 off := by
    intro m off hoff
    exact Memory.getInt32_copy (by unfold pageHeaderSize; omega) m _ _
  have hclear : ∀ i, i < capacity recordSize → inUse (RecordManager.initEmptyPage page recordSize) i = false := by
    intro i hi
    have hbyte : i / 8 < pageBitmapSize (capacity recordSize) := by
      unfold pageBitmapSize
      omega
    rw [inUse, RecordManager.initEmptyPage, Memory.getBit, Memory.copy, if_pos ⟨by omega, by omega⟩, UInt8.zero_and]
    rfl
  refine ⟨(laidOut_assign h page).congr fun off _ hoff => hfield _ off hoff, ?_, ?_, fun _ _ => rfl, ?_⟩
  · have hempty : usedSlots (RecordManager.initEmptyPage page recordSize) (capacity recordSize) = ∅ := by
      apply Finset.filter_false_of_mem
      intro i hi
      rw [hclear i (Finset.mem_range.mp hi)]
      exact Bool.false_ne_true
    rw [hempty, Finset.card_empty, PageHeader.recordNum, RecordManager.initEmptyPage, hfield _ 0 (by omega)]
    exact recordNum_assign page _ _ _ _
  · intro i hi
    rw [hclear i hi]
    rfl
  · intro i data hdata
    cases hdata

/-! ## The operations -/

theorem insertRecord (h : Holds recordSize page live) (hfull : isFull page = false) (data : Memory) :
    ∃ i page', i < capacity recordSize ∧ live i = none ∧
      (∀ dirty, RecordPageHandler.insertRecord ⟨page, dirty⟩ data = some (.success, some i, ⟨page', true⟩)) ∧
      Holds recordSize page' (Function.update live i (some (data.read 0 recordSize))) := by
  have hroom : PageHeader.recordNum page ≠ PageHeader.recordCapacity page := by
    rw [isFull, decide_eq_false_iff_not] at hfull
    omega
  obtain ⟨i, hfind⟩ : ∃ i, (List.range (capacity recordSize)).find? (fun j => !inUse page j) = some i := by
    rw [← Option.isSome_iff_exists, List.find?_isSome]
    by_contra hnone
    push Not at hnone
    rw [← Bool.not_eq_true, h.isFull_iff] at hfull
    exact hfull fun j hj => by simpa using hnone j (List.mem_range.mpr hj)
  have hi : i < capacity recordSize := List.mem_range.mp (List.mem_of_find?_eq_some hfind)
  have hfree : live i = none := by
    have hbit := List.find?_some hfind
    rw [h.used i hi] at hbit
    simpa using hbit
  have hnext : Bitmap.nextUnsettedBit page pageHeaderSize (PageHeader.recordCapacity page).toNat 0 = some i := by
    rw [h.laid.capacity, Int.toNat_natCast, Bitmap.nextUnsettedBit_zero]
    exact hfind
  have hmark := (h.mark hi hfree).setRecord (i := i) (by rw [Function.update_self]; rfl) data
  rw [Function.update_idem] at hmark
  refine ⟨i, _, hi, hfree, fun dirty => ?_, hmark⟩
  have hnum : PageHeader.recordNum (page.setBit pageHeaderSize i) = PageHeader.recordNum page :=
    Memory.getInt32_setBit (by unfold pageHeaderSize; omega) page i
  rw [RecordPageHandler.insertRecord, if_neg hroom, hnext]
  dsimp only
  rw [hnum]

theorem checkSlot_eq (h : Holds recordSize page live) (outside : RC) {slotNum : ℤ} (hslot : 0 ≤ slotNum) :
    ∃ rc, checkSlot outside page slotNum = some rc ∧
      rc = if slotNum < capacity recordSize then if (live slotNum.toNat).isSome then .success else .recordNotExist
        else outside := by
  refine ⟨_, ?_, rfl⟩
  rw [checkSlot, h.laid.capacity]
  by_cases hlt : slotNum < capacity recordSize
  · rw [if_neg (not_le.mpr hlt), if_neg (not_lt.mpr hslot), if_pos hlt, h.used _ (by omega)]
    split <;> rfl
  · rw [if_pos (not_lt.mp hlt), if_neg hlt]

theorem checkSlot_cases (h : Holds recordSize page live) (outside : RC) (houtside : outside ≠ .success) {slotNum : ℤ}
    (hslot : 0 ≤ slotNum) :
    ((live slotNum.toNat).isSome = true ∧ checkSlot outside page slotNum = some .success) ∨
      (live slotNum.toNat = none ∧ ∃ rc, rc ≠ .success ∧ checkSlot outside page slotNum = some rc) := by
  obtain ⟨rc, hcheck, hrc⟩ := h.checkSlot_eq outside hslot
  by_cases hlive : (live slotNum.toNat).isSome = true
  · left
    have hlt := h.lt_capacity hlive
    rw [if_pos (by omega), if_pos hlive] at hrc
    exact ⟨hlive, by rw [hcheck, hrc]⟩
  · right
    refine ⟨by simpa using hlive, rc, ?_, hcheck⟩
    rw [if_neg hlive] at hrc
    split at hrc
    · rw [hrc]
      decide
    · rw [hrc]
      exact houtside

theorem updateRecord (h : Holds recordSize page live) (data : Memory) {slotNum : ℤ} (hslot : 0 ≤ slotNum) :
    ((live slotNum.toNat).isSome = true ∧ ∃ page',
        (∀ dirty, RecordPageHandler.updateRecord ⟨page, dirty⟩ data slotNum = some (.success, ⟨page', true⟩)) ∧
        Holds recordSize page' (Function.update live slotNum.toNat (some (data.read 0 recordSize)))) ∨
      (live slotNum.toNat = none ∧ ∃ rc, rc ≠ .success ∧
        ∀ dirty, RecordPageHandler.updateRecord ⟨page, dirty⟩ data slotNum = some (rc, ⟨page, dirty⟩)) := by
  rcases h.checkSlot_cases .invalidArgument (by decide) hslot with ⟨hlive, hcheck⟩ | ⟨hnone, rc, hrc, hcheck⟩
  · left
    refine ⟨hlive, _, fun dirty => ?_, h.setRecord hlive data⟩
    rw [RecordPageHandler.updateRecord, hcheck]
  · right
    refine ⟨hnone, rc, hrc, fun dirty => ?_⟩
    rw [RecordPageHandler.updateRecord, hcheck]
    cases rc <;> first | rfl | exact absurd rfl hrc

theorem deleteRecord (h : Holds recordSize page live) {slotNum : ℤ} (hslot : 0 ≤ slotNum) :
    ((live slotNum.toNat).isSome = true ∧ ∃ page',
        (∀ dirty, RecordPageHandler.deleteRecord ⟨page, dirty⟩ slotNum = some (.success, ⟨page', true⟩)) ∧
        Holds recordSize page' (Function.update live slotNum.toNat none)) ∨
      (live slotNum.toNat = none ∧ ∃ rc, rc ≠ .success ∧
        ∀ dirty, RecordPageHandler.deleteRecord ⟨page, dirty⟩ slotNum = some (rc, ⟨page, dirty⟩)) := by
  rcases h.checkSlot_cases .invalidArgument (by decide) hslot with ⟨hlive, hcheck⟩ | ⟨hnone, rc, hrc, hcheck⟩
  · left
    have hnum : PageHeader.recordNum (page.clearBit pageHeaderSize slotNum.toNat) = PageHeader.recordNum page :=
      Memory.getInt32_clearBit (by unfold pageHeaderSize; omega) _ _
    refine ⟨hlive, _, fun dirty => ?_, h.unmark hlive⟩
    rw [RecordPageHandler.deleteRecord, hcheck]
    dsimp only
    rw [hnum]
  · right
    refine ⟨hnone, rc, hrc, fun dirty => ?_⟩
    rw [RecordPageHandler.deleteRecord, hcheck]
    cases rc <;> first | rfl | exact absurd rfl hrc

theorem getRecord (h : Holds recordSize page live) {slotNum : ℤ} (hslot : 0 ≤ slotNum) :
    (∃ data, live slotNum.toNat = some data ∧ RecordPageHandler.getRecord page slotNum = some (.success, some data)) ∨
      (live slotNum.toNat = none ∧ ∃ rc, rc ≠ .success ∧
        RecordPageHandler.getRecord page slotNum = some (rc, none)) := by
  rw [RecordPageHandler.getRecord]
  rcases h.checkSlot_cases .recordInvalidRid (by decide) hslot with ⟨hlive, hcheck⟩ | ⟨hnone, rc, hrc, hcheck⟩
  · left
    obtain ⟨data, hdata⟩ := Option.isSome_iff_exists.mp hlive
    rw [hcheck]
    exact ⟨data, hdata, by rw [h.bytes _ _ hdata]⟩
  · right
    refine ⟨hnone, rc, hrc, ?_⟩
    rw [hcheck]
    cases rc <;> first | rfl | exact absurd rfl hrc

end Holds

/-! ## Two pages -/

/-- The pages agree in all bytes that do not belong to a record of the first. -/
def SameOutside (recordSize : ℕ) (page page' : Memory) : Prop :=
  ∀ k, (∀ i, i < capacity recordSize → RecordPageHandler.inUse page i = true →
    k < firstOffset recordSize + align8 recordSize * i ∨ firstOffset recordSize + align8 recordSize * i + recordSize ≤ k) →
    page' k = page k

namespace SameOutside

open RecordPageHandler

variable {recordSize : ℕ} {page page' : Memory} {live : ℕ → Option Bytes}

theorem refl (recordSize : ℕ) (page : Memory) : SameOutside recordSize page page := fun _ _ => rfl

/-- Writing a record in place touches no other byte. -/
theorem setRecord (h : SameOutside recordSize page page') (hpage : Holds recordSize page live) {i : ℕ}
    (hlive : (live i).isSome = true) (data : Memory) :
    SameOutside recordSize (RecordPageHandler.setRecord page i data) page' := by
  have hi := hpage.lt_capacity hlive
  intro k hk
  have hsame := h k fun j hj hbit => hk j hj (by rw [Holds.inUse_setRecord hpage.laid hj, hbit])
  have hbit : inUse (RecordPageHandler.setRecord page i data) i = true := by
    rw [Holds.inUse_setRecord hpage.laid hi, hpage.used i hi, hlive]
  rw [hsame, hpage.laid.setRecord_eq, Memory.copy_apply_of_notMem (hk i hi hbit)]

/-- Pages that are not the same differ in a record. -/
theorem getRecord_ne (h : SameOutside recordSize page page') (hpage : Holds recordSize page live) (hne : page' ≠ page) :
    ∃ i : ℕ, getRecord page' i ≠ getRecord page i := by
  have hhead : ∀ k, k < firstOffset recordSize → page' k = page k := fun k hk => h k fun i _ _ => Or.inl (by omega)
  have hfirst := LaidOut.header_lt_firstOffset recordSize
  unfold pageHeaderSize at hfirst
  have hlaid' : LaidOut recordSize page' := hpage.laid.congr fun off _ hoff =>
    Memory.getInt32_congr fun k _ hk => hhead k (by omega)
  obtain ⟨k, hk⟩ := Function.ne_iff.mp hne
  by_contra hall
  push Not at hall
  refine hk (h k fun i hi hbit => ?_)
  by_contra hinside
  have hbit' : inUse page' i = true := by
    rw [← hbit]
    exact Memory.getBit_congr (hhead _ (LaidOut.bit_lt_firstOffset hi))
  have hget : ∀ {m : Memory}, LaidOut recordSize m → inUse m i = true →
      getRecord m i = some (.success, some (m.read (firstOffset recordSize + align8 recordSize * i) recordSize)) := by
    intro m hlaid hbit
    rw [getRecord, checkSlot, hlaid.capacity, if_neg (by omega), if_neg (by omega), Int.toNat_natCast, if_pos hbit,
      hlaid.record_eq]
  have hread := hall i
  rw [hget hlaid' hbit', hget hpage.laid hbit] at hread
  have hbytes := (Prod.mk.inj (Option.some.inj hread)).2
  refine hk ?_
  obtain ⟨j, rfl⟩ : ∃ j, k = firstOffset recordSize + align8 recordSize * i + j := Nat.exists_eq_add_of_le (by omega)
  exact List.map_inj_left.mp (Option.some.inj hbytes) j (List.mem_range.mpr (by omega))

end SameOutside

end Landbase.RecordManager
