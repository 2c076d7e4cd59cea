import Landbase.Buffer.Frame

/-! # The page allocator's header

`allocate_page` and `dispose_page` keep three records of the same thing: `page_count`, `allocated_pages` and the bitmap.
`Ok` says that they agree; the three changes that the pool makes to a header keep it.
-/

namespace Landbase.Buffer
open Landbase.Lib
set_option autoImplicit false

namespace BPFileHeader

/-- The pages that are marked in the bitmap. -/
def allocatedSet (header : Memory) : Finset PageNum := {p ∈ Finset.range maxPageNum | allocated header p}

/-- The counters and the bitmap agree. -/
structure Ok (header : Memory) : Prop where
  pos : 1 ≤ pageCount header
  bound : pageCount header ≤ maxPageNum
  below : ∀ p, p < maxPageNum → allocated header p = true → (p : ℤ) < pageCount header
  count : allocatedPages header = (allocatedSet header).card
  self : allocated header bpHeaderPage = true

theorem mem_allocatedSet {header : Memory} {p : PageNum} :
    p ∈ allocatedSet header ↔ p < maxPageNum ∧ allocated header p = true := by
  rw [allocatedSet, Finset.mem_filter, Finset.mem_range]

theorem card_allocatedSet_le (header : Memory) : (allocatedSet header).card ≤ maxPageNum :=
  le_trans (Finset.card_filter_le _ _) (le_of_eq (Finset.card_range _))

theorem maxPageNum_eq : maxPageNum = 4194176 := by
  unfold maxPageNum bpPageDataSize
  norm_num

theorem allocatedSet_congr {header header' : Memory} (h : ∀ p, allocated header p = allocated header' p) :
    allocatedSet header = allocatedSet header' := by
  ext p
  rw [mem_allocatedSet, mem_allocatedSet, h p]

theorem allocatedSet_setAllocated {header : Memory} {i : PageNum} (hi : i < maxPageNum) :
    allocatedSet (setAllocated header i) = insert i (allocatedSet header) := by
  ext p
  rw [mem_allocatedSet, Finset.mem_insert, mem_allocatedSet, allocated_setAllocated, Bool.or_eq_true,
    decide_eq_true_eq]
  constructor
  · rintro ⟨hp, hbit | heq⟩
    · exact Or.inr ⟨hp, hbit⟩
    · exact Or.inl heq
  · rintro (rfl | ⟨hp, hbit⟩)
    · exact ⟨hi, Or.inr rfl⟩
    · exact ⟨hp, Or.inl hbit⟩

theorem allocatedSet_clearAllocated (header : Memory) (i : PageNum) :
    allocatedSet (clearAllocated header i) = (allocatedSet header).erase i := by
  ext p
  rw [mem_allocatedSet, Finset.mem_erase, mem_allocatedSet, allocated_clearAllocated, Bool.and_eq_true,
    decide_eq_true_eq]
  tauto

theorem freePage_spec {header : Memory} {i : PageNum} (h : freePage header = some i) :
    (i : ℤ) < pageCount header ∧ allocated header i = false := by
  unfold freePage at h
  split at h
  · have hbit := List.find?_some h
    have hmem := List.mem_range.mp (List.mem_of_find?_eq_some h)
    exact ⟨by omega, by simpa using hbit⟩
  · cases h

namespace Ok

variable {header : Memory} {i : PageNum}

theorem lt_max (h : Ok header) (hi : (i : ℤ) < pageCount header) : i < maxPageNum := by
  exact_mod_cast lt_of_lt_of_le hi h.bound

theorem allocatedPages_nonneg (h : Ok header) : 0 ≤ allocatedPages header := by
  rw [h.count]
  exact Int.natCast_nonneg _

theorem allocatedPages_le (h : Ok header) : allocatedPages header ≤ 4194176 := by
  rw [h.count]
  exact_mod_cast maxPageNum_eq ▸ card_allocatedSet_le header

theorem mark (h : Ok header) (hi : (i : ℤ) < pageCount header) (hbit : allocated header i = false) :
    Ok (mark header i) := by
  have hnew : i ∉ allocatedSet header := by
    rw [mem_allocatedSet, hbit]
    rintro ⟨-, hfalse⟩
    cases hfalse
  have hset : allocatedSet (BPFileHeader.mark header i) = insert i (allocatedSet header) := by
    unfold BPFileHeader.mark
    rw [allocatedSet_setAllocated (h.lt_max hi), allocatedSet_congr fun p => allocated_setAllocatedPages]
  have hnonneg := h.allocatedPages_nonneg
  have hle := h.allocatedPages_le
  constructor
  · simpa [BPFileHeader.mark] using h.pos
  · simpa [BPFileHeader.mark] using h.bound
  · intro p hp hbit'
    simp only [BPFileHeader.mark, allocated_setAllocated, allocated_setAllocatedPages, Bool.or_eq_true,
      decide_eq_true_eq, pageCount_setAllocated, pageCount_setAllocatedPages] at hbit' ⊢
    rcases hbit' with hold | rfl
    · exact h.below p hp hold
    · exact hi
  · rw [hset, Finset.card_insert_of_notMem hnew]
    simp only [BPFileHeader.mark, allocatedPages_setAllocated]
    rw [allocatedPages_setAllocatedPages (by omega) (by omega), h.count]
    push_cast
    rfl
  · simp [BPFileHeader.mark, allocated_setAllocated, h.self]

theorem unmark (h : Ok header) (hi : i < maxPageNum) (hbit : allocated header i = true) (hne : i ≠ bpHeaderPage) :
    Ok (unmark header i) := by
  have hmem : i ∈ allocatedSet header := mem_allocatedSet.mpr ⟨hi, hbit⟩
  have hset : allocatedSet (BPFileHeader.unmark header i) = (allocatedSet header).erase i := by
    unfold BPFileHeader.unmark
    rw [allocatedSet_clearAllocated, allocatedSet_congr fun p => allocated_setAllocatedPages]
  have hcard : (((allocatedSet header).erase i).card : ℤ) = allocatedPages header - 1 := by
    have hpos : 0 < (allocatedSet header).card := Finset.card_pos.mpr ⟨i, hmem⟩
    rw [Finset.card_erase_of_mem hmem, h.count]
    omega
  have hle := h.allocatedPages_le
  constructor
  · simpa [BPFileHeader.unmark] using h.pos
  · simpa [BPFileHeader.unmark] using h.bound
  · intro p hp hbit'
    simp only [BPFileHeader.unmark, allocated_clearAllocated, allocated_setAllocatedPages, Bool.and_eq_true,
      pageCount_clearAllocated, pageCount_setAllocatedPages] at hbit' ⊢
    exact h.below p hp hbit'.1
  · rw [hset, hcard]
    simp only [BPFileHeader.unmark, allocatedPages_clearAllocated]
    have hnonneg : 0 ≤ allocatedPages header - 1 := by
      rw [← hcard]
      exact Int.natCast_nonneg _
    exact allocatedPages_setAllocatedPages (by omega) (by omega)
  · simp [BPFileHeader.unmark, allocated_clearAllocated, h.self, hne.symm]

theorem pageCount_extend (h : Ok header) : pageCount (extend header i) = pageCount header + 1 := by
  have hpos := h.pos
  have hbound := h.bound
  rw [maxPageNum_eq] at hbound
  simp only [extend, pageCount_setAllocated, pageCount_setAllocatedPages]
  exact pageCount_setPageCount (by omega) (by omega)

theorem extend (h : Ok header) (hi : (i : ℤ) = pageCount header) (hroom : i < maxPageNum) : Ok (extend header i) := by
  have hpos := h.pos
  have hroom' : (i : ℤ) < maxPageNum := by exact_mod_cast hroom
  have hnew : i ∉ allocatedSet header := by
    intro hmem
    have := h.below _ (mem_allocatedSet.mp hmem).1 (mem_allocatedSet.mp hmem).2
    omega
  have hset : allocatedSet (BPFileHeader.extend header i) = insert i (allocatedSet header) := by
    unfold BPFileHeader.extend
    rw [allocatedSet_setAllocated hroom, allocatedSet_congr fun p => allocated_setPageCount,
      allocatedSet_congr fun p => allocated_setAllocatedPages]
  have hnonneg := h.allocatedPages_nonneg
  have hle := h.allocatedPages_le
  constructor
  · rw [h.pageCount_extend]
    omega
  · rw [h.pageCount_extend]
    omega
  · intro p hp hbit
    rw [h.pageCount_extend]
    simp only [BPFileHeader.extend, allocated_setAllocated, allocated_setPageCount, allocated_setAllocatedPages,
      Bool.or_eq_true, decide_eq_true_eq] at hbit
    cases hbit with
    | inl hold => exact lt_trans (h.below p hp hold) (lt_add_one _)
    | inr heq =>
      rw [heq, hi]
      exact lt_add_one _
  · rw [hset, Finset.card_insert_of_notMem hnew]
    simp only [BPFileHeader.extend, allocatedPages_setAllocated, allocatedPages_setPageCount]
    rw [allocatedPages_setAllocatedPages (by omega) (by omega), h.count]
    push_cast
    rfl
  · simp [BPFileHeader.extend, allocated_setAllocated, h.self]

end Ok

theorem ok_created : Ok File.createdHeader := by
  have hbit : ∀ p, allocated File.createdHeader p = decide (p = 0) := by
    intro p
    have hzero : allocated (fun _ => 0) p = false := by simp [allocated, Memory.getBit]
    simp [File.createdHeader, allocated_setAllocated, Page.zero, hzero]
  have hset : allocatedSet File.createdHeader = {0} := by
    ext p
    rw [mem_allocatedSet, hbit, decide_eq_true_eq, Finset.mem_singleton]
    constructor
    · exact fun h => h.2
    · rintro rfl
      exact ⟨by rw [maxPageNum_eq]; norm_num, rfl⟩
  have hcount : pageCount File.createdHeader = 1 := by
    simp only [File.createdHeader, pageCount_setAllocated]
    exact pageCount_setPageCount (by norm_num) (by norm_num)
  constructor
  · rw [hcount]
  · rw [hcount, maxPageNum_eq]
    norm_num
  · intro p _ hp
    rw [hbit, decide_eq_true_eq] at hp
    rw [hp, hcount]
    norm_num
  · rw [hset, Finset.card_singleton]
    simp only [File.createdHeader, allocatedPages_setAllocated, allocatedPages_setPageCount]
    exact allocatedPages_setAllocatedPages (by norm_num) (by norm_num)
  · rw [hbit, decide_eq_true_eq]
    rfl

end BPFileHeader

end Landbase.Buffer
