import Landbase.Storage.RecordStore

/-! # Recovered pages

Redo calls `DiskBufferPool::recover_page` for every page that the log mentions. It sets the bit of the page and adds one
to both counters, `page_count` included, whatever the number of the page is. After a recovery the pages behind
`page_count` are marked, but no `BufferPoolIterator` comes to them, and `allocate_page` hands them out again when
`page_count` gets there. Where all recovered pages end up below `page_count`, nothing of this happens, except that an
iterator never comes to page 0 (`bookkept_iff`).
-/

namespace Landbase.RecordManager
open Lib Buffer BPFileHeader
set_option autoImplicit false

/-- What `recover_page` does with the header. -/
def recoverHeader (header : Memory) (pageNum : PageNum) : Memory :=
  if ¬allocated header pageNum then
    let marked := setAllocated header pageNum
    let counted := setAllocatedPages marked (allocatedPages marked + 1)
    setPageCount counted (pageCount counted + 1)
  else header

/-- `DiskBufferPool::recover_page`. -/
def DiskBufferPool.recoverPage (pool : DiskBufferPool) (pageNum : PageNum) : DiskBufferPool :=
  if ¬allocated (pool.page bpHeaderPage) pageNum then
    pool.setFrame bpHeaderPage ⟨recoverHeader (pool.page bpHeaderPage) pageNum, true⟩
  else pool

/-- `BufferPoolIterator`: the size of `bitmap_`, which lies in the header, and `current_page_num_`. -/
structure BufferPoolIterator where
  size : ℕ
  currentPageNum : PageNum

namespace BufferPoolIterator

/-- `BufferPoolIterator::init` with its default start page. -/
def init (pool : DiskBufferPool) : BufferPoolIterator := ⟨(pageCount (pool.page bpHeaderPage)).toNat, 0⟩

/-- The search of `has_next` and `next`. -/
def nextPage (pool : DiskBufferPool) (it : BufferPoolIterator) : Option PageNum :=
  Bitmap.nextSettedBit (pool.page bpHeaderPage) 8 it.size (it.currentPageNum + 1)

/-- `while (iterator.has_next()) iterator.next()`, for so many rounds at most. -/
def walk (pool : DiskBufferPool) : ℕ → BufferPoolIterator → List PageNum
  | 0, _ => []
  | rounds + 1, it => (it.nextPage pool).elim [] fun p => p :: walk pool rounds { it with currentPageNum := p }

/-- The pages that a new iterator visits: there are no more than the bitmap has bits. -/
def visited (pool : DiskBufferPool) : List PageNum := walk pool (init pool).size (init pool)

end BufferPoolIterator

/-- The pages that the next `n` calls of `allocate_page` hand out. -/
def DiskBufferPool.allocations : ℕ → DiskBufferPool → List PageNum
  | 0, _ => []
  | n + 1, pool => pool.allocatePage.2.1.toList ++ allocations n pool.allocatePage.2.2

/-- The pages are on the books of the pool. -/
structure Bookkept (pool : DiskBufferPool) (pages : List PageNum) : Prop where
  below : ∀ p ∈ pages, (p : ℤ) < pageCount (pool.page bpHeaderPage)
  count : allocatedPages (pool.page bpHeaderPage) = (allocatedSet (pool.page bpHeaderPage)).card
  visited : ∀ p ∈ pages, p ∈ BufferPoolIterator.visited pool
  kept : ∀ n, ∀ p ∈ pages, p ∉ pool.allocations n

/-! ## The header behind a sequence of recoveries -/

/-- What the recovery of some pages makes of a header. -/
structure Recovered (header : Memory) (pages : List PageNum) (header' : Memory) : Prop where
  bits : ∀ p, allocated header' p = (allocated header p || decide (p ∈ pages))
  pageCount : pageCount header' = pageCount header + (pages.toFinset \ allocatedSet header).card
  allocatedPages : allocatedPages header' = allocatedPages header + (pages.toFinset \ allocatedSet header).card

namespace Recovered

variable {header header' : Memory} {pages : List PageNum} {p : PageNum}

theorem refl (header : Memory) : Recovered header [] header := by
  constructor <;> simp

variable (header) in
theorem card_le (hpages : ∀ p ∈ pages, p < maxPageNum) : (pages.toFinset \ allocatedSet header).card ≤ 4194176 := by
  rw [← maxPageNum_eq, ← Finset.card_range maxPageNum]
  refine Finset.card_le_card fun p hp => ?_
  rw [Finset.mem_range]
  exact hpages p (List.mem_toFinset.mp (Finset.mem_sdiff.mp hp).1)

theorem recoverHeader (h : Recovered header pages header') (hok : Ok header) (hpages : ∀ p ∈ pages, p < maxPageNum)
    (hp : p < maxPageNum) : Recovered header (pages ++ [p]) (recoverHeader header' p) := by
  have hset : (pages ++ [p]).toFinset = insert p pages.toFinset := by
    ext q
    simp
  unfold RecordManager.recoverHeader
  by_cases hbit : allocated header' p = true
  · -- the page is marked already: nothing is new
    have hsame : (pages ++ [p]).toFinset \ allocatedSet header = pages.toFinset \ allocatedSet header := by
      rw [hset]
      rw [h.bits, Bool.or_eq_true, decide_eq_true_eq] at hbit
      cases hbit with
      | inl hold => rw [Finset.insert_sdiff_of_mem _ (mem_allocatedSet.mpr ⟨hp, hold⟩)]
      | inr hmem => rw [Finset.insert_eq_of_mem (List.mem_toFinset.mpr hmem)]
    rw [if_neg (not_not.mpr hbit)]
    refine ⟨fun q => ?_, by rw [hsame, h.pageCount], by rw [hsame, h.allocatedPages]⟩
    by_cases hq : q = p
    · rw [hq, hbit]
      simp
    · rw [h.bits]
      simp [hq]
  · have hnew : allocated header p = false ∧ p ∉ pages := by
      rw [h.bits, Bool.or_eq_true, decide_eq_true_eq, not_or] at hbit
      exact ⟨by simpa using hbit.1, hbit.2⟩
    have hcard : ((pages ++ [p]).toFinset \ allocatedSet header).card = (pages.toFinset \ allocatedSet header).card + 1 := by
      have hunmarked : p ∉ allocatedSet header := fun hmem => by
        rw [mem_allocatedSet, hnew.1] at hmem
        cases hmem.2
      rw [hset, Finset.insert_sdiff_of_notMem _ hunmarked, Finset.card_insert_of_notMem]
      exact fun hmem => hnew.2 (List.mem_toFinset.mp (Finset.mem_sdiff.mp hmem).1)
    have hle := card_le header hpages
    have hpos := hok.pos
    have hbound := hok.bound
    have hnonneg := hok.allocatedPages_nonneg
    have hmost := hok.allocatedPages_le
    have hcount := h.pageCount
    have hallocated := h.allocatedPages
    rw [maxPageNum_eq] at hbound
    rw [if_pos hbit]
    refine ⟨fun q => ?_, ?_, ?_⟩
    · simp only [allocated_setPageCount, allocated_setAllocatedPages, allocated_setAllocated, h.bits, List.mem_append,
        List.mem_singleton]
      simp [Bool.or_assoc]
    · simp only [pageCount_setAllocatedPages, pageCount_setAllocated]
      rw [pageCount_setPageCount (by omega) (by omega), hcard]
      push_cast
      omega
    · simp only [allocatedPages_setPageCount, allocatedPages_setAllocated]
      rw [allocatedPages_setAllocatedPages (by omega) (by omega), hcard]
      push_cast
      omega

theorem allocatedSet_eq (h : Recovered header pages header') (hpages : ∀ p ∈ pages, p < maxPageNum) :
    allocatedSet header' = allocatedSet header ∪ (pages.toFinset \ allocatedSet header) := by
  ext p
  rw [Finset.union_sdiff_self_eq_union, Finset.mem_union, mem_allocatedSet, mem_allocatedSet, h.bits,
    Bool.or_eq_true, decide_eq_true_eq, List.mem_toFinset]
  constructor
  · rintro ⟨hp, hold | hmem⟩
    · exact Or.inl ⟨hp, hold⟩
    · exact Or.inr hmem
  · rintro (⟨hp, hold⟩ | hmem)
    · exact ⟨hp, Or.inl hold⟩
    · exact ⟨hpages p hmem, Or.inr hmem⟩

/-- The count of allocated pages stays right. -/
theorem count (h : Recovered header pages header') (hok : Ok header) (hpages : ∀ p ∈ pages, p < maxPageNum) :
    BPFileHeader.allocatedPages header' = (allocatedSet header').card := by
  rw [h.allocatedSet_eq hpages, Finset.card_union_of_disjoint Finset.disjoint_sdiff, h.allocatedPages, hok.count]
  push_cast
  rfl

end Recovered

namespace DiskBufferPool

variable {pool : DiskBufferPool} {p : PageNum}

theorem header_recoverPage (pool : DiskBufferPool) (p : PageNum) :
    (pool.recoverPage p).page bpHeaderPage = recoverHeader (pool.page bpHeaderPage) p := by
  unfold recoverPage
  split
  · rw [Shows.page_setFrame, Function.update_self]
  · next h => rw [recoverHeader, if_neg h]

/-- A run of recoveries. -/
theorem recovered_foldl (hok : Ok (pool.page bpHeaderPage)) (pages : List PageNum) (hpages : ∀ p ∈ pages, p < maxPageNum) :
    Recovered (pool.page bpHeaderPage) pages ((pages.foldl recoverPage pool).page bpHeaderPage) := by
  induction pages using List.reverseRecOn with
  | nil => exact Recovered.refl _
  | append_singleton pages p ih =>
    have hinit : ∀ q ∈ pages, q < maxPageNum := fun q hq => hpages q (List.mem_append_left _ hq)
    rw [List.foldl_append, List.foldl_cons, List.foldl_nil, header_recoverPage]
    exact (ih hinit).recoverHeader hok hinit (hpages p (List.mem_append_right _ List.mem_cons_self))

end DiskBufferPool

/-! ## The iterator -/

namespace BufferPoolIterator

theorem walk_eq (pool : DiskBufferPool) (rounds : ℕ) (it : BufferPoolIterator)
    (hbit : allocated (pool.page bpHeaderPage) it.currentPageNum = true) :
    walk pool rounds it =
      (Bitmap.settedFrom (pool.page bpHeaderPage) 8 it.size (it.currentPageNum + 1)).take rounds := by
  induction rounds generalizing it with
  | zero => rfl
  | succ rounds ih =>
    have hnext : it.nextPage pool =
        (Bitmap.settedFrom (pool.page bpHeaderPage) 8 it.size (it.currentPageNum + 1)).head? :=
      Bitmap.nextSettedBit_eq (Or.inr hbit)
    rw [walk, hnext]
    cases hsetted : Bitmap.settedFrom (pool.page bpHeaderPage) 8 it.size (it.currentPageNum + 1) with
    | nil => rfl
    | cons p rest =>
      have hmem : p ∈ Bitmap.settedFrom (pool.page bpHeaderPage) 8 it.size (it.currentPageNum + 1) := by
        rw [hsetted]
        exact List.mem_cons_self
      rw [List.head?_cons, Option.elim_some,
        ih { it with currentPageNum := p } (Bitmap.mem_settedFrom.mp hmem).2.2, Bitmap.settedFrom_tail hsetted]
      rfl

/-- A new iterator visits the marked pages below `page_count`, but not page 0. -/
theorem mem_visited {pool : DiskBufferPool} (hself : allocated (pool.page bpHeaderPage) bpHeaderPage = true)
    (hpos : 0 ≤ pageCount (pool.page bpHeaderPage)) {p : PageNum} : p ∈ visited pool ↔
      1 ≤ p ∧ (p : ℤ) < pageCount (pool.page bpHeaderPage) ∧ allocated (pool.page bpHeaderPage) p = true := by
  have hlength : (Bitmap.settedFrom (pool.page bpHeaderPage) 8 (init pool).size (0 + 1)).length ≤ (init pool).size := by
    refine le_trans (List.length_filter_le _ _) ?_
    rw [List.length_range']
    omega
  have hsize : ((init pool).size : ℤ) = pageCount (pool.page bpHeaderPage) := Int.toNat_of_nonneg hpos
  have hvisited : visited pool = Bitmap.settedFrom (pool.page bpHeaderPage) 8 (init pool).size (0 + 1) := by
    rw [visited, walk_eq pool (init pool).size (init pool) hself]
    exact List.take_of_length_le hlength
  rw [hvisited, Bitmap.mem_settedFrom, ← hsize, Int.ofNat_lt]
  rfl

end BufferPoolIterator

/-! ## Later allocations -/

/-- The pages are marked and below `page_count`. -/
structure Guarded (header : Memory) (pages : List PageNum) : Prop where
  pos : 1 ≤ pageCount header
  self : allocated header bpHeaderPage = true
  bits : ∀ p ∈ pages, allocated header p = true
  below : ∀ p ∈ pages, (p : ℤ) < pageCount header

namespace Guarded

variable {pool : DiskBufferPool} {header : Memory} {pages : List PageNum}

theorem mark (h : Guarded header pages) (i : PageNum) : Guarded (mark header i) pages := by
  have hcount : pageCount (BPFileHeader.mark header i) = pageCount header := by simp [BPFileHeader.mark]
  have hbits : ∀ p, allocated header p = true → allocated (BPFileHeader.mark header i) p = true := by
    intro p hp
    simp [BPFileHeader.mark, allocated_setAllocated, hp]
  exact ⟨hcount ▸ h.pos, hbits _ h.self, fun p hp => hbits p (h.bits p hp), fun p hp => hcount ▸ h.below p hp⟩

theorem extend (h : Guarded header pages) (i : PageNum) (hfull : full header = false) : Guarded (extend header i) pages := by
  have hroom : pageCount header < maxPageNum := by
    rw [full, decide_eq_false_iff_not, not_le] at hfull
    exact hfull
  rw [maxPageNum_eq] at hroom
  have hpos := h.pos
  have hcount : pageCount (BPFileHeader.extend header i) = pageCount header + 1 := by
    simp only [BPFileHeader.extend, pageCount_setAllocated, pageCount_setAllocatedPages]
    exact pageCount_setPageCount (by omega) (by push_cast at hroom; omega)
  have hbits : ∀ p, allocated header p = true → allocated (BPFileHeader.extend header i) p = true := by
    intro p hp
    simp [BPFileHeader.extend, allocated_setAllocated, hp]
  refine ⟨?_, hbits _ h.self, fun p hp => hbits p (h.bits p hp), fun p hp => ?_⟩
  · rw [hcount]
    omega
  · rw [hcount]
    exact lt_trans (h.below p hp) (lt_add_one _)

theorem page_getThisPage (pool : DiskBufferPool) (i : ℤ) : (pool.getThisPage i).2.2.page = pool.page := by
  unfold DiskBufferPool.getThisPage
  split
  · rfl
  · cases hframe : pool.frames i.toNat with
    | some frame => rfl
    | none =>
      simp only
      split
      · rw [Shows.page_setFrame]
        funext q
        by_cases hq : q = i.toNat
        · subst hq
          rw [Function.update_self, DiskBufferPool.page, hframe]
        · rw [Function.update_of_ne hq]
      · rfl

/-- Reusing a page: the header is marked, and the page is handed out if it can be read. -/
theorem allocateFound_some (pool : DiskBufferPool) (i : PageNum) :
    (pool.allocateFound (some i)).2.1.toList ⊆ [i] ∧
      (pool.allocateFound (some i)).2.2.page bpHeaderPage = BPFileHeader.mark (pool.page bpHeaderPage) i := by
  have hpage := page_getThisPage (pool.setFrame bpHeaderPage ⟨BPFileHeader.mark (pool.page bpHeaderPage) i, true⟩) i
  have hheader := congrFun hpage bpHeaderPage
  rw [Shows.page_setFrame, Function.update_self] at hheader
  unfold DiskBufferPool.allocateFound
  split
  · next i' heq =>
    cases heq
    split
    · next hget =>
      rw [hget] at hheader
      exact ⟨List.Subset.refl _, hheader⟩
    · next hget =>
      rw [hget] at hheader
      exact ⟨List.nil_subset _, hheader⟩
  · next heq => cases heq

/-- A page at the end of the file: it is the one behind `page_count`. -/
theorem allocateFound_none (pool : DiskBufferPool) (hpos : 1 ≤ pageCount (pool.page bpHeaderPage))
    (hfull : full (pool.page bpHeaderPage) = false) :
    (pool.allocateFound none).2.1 = some (pageCount (pool.page bpHeaderPage)).toNat ∧
      (pool.allocateFound none).2.2.page bpHeaderPage =
        BPFileHeader.extend (pool.page bpHeaderPage) (pageCount (pool.page bpHeaderPage)).toNat := by
  have hne : bpHeaderPage ≠ (pageCount (pool.page bpHeaderPage)).toNat := by
    intro heq
    have hzero : (pageCount (pool.page bpHeaderPage)).toNat = 0 := heq.symm
    omega
  unfold DiskBufferPool.allocateFound
  rw [hfull, if_neg Bool.false_ne_true]
  refine ⟨rfl, ?_⟩
  show DiskBufferPool.page (DiskBufferPool.flushPage _ _) bpHeaderPage = _
  rw [Shows.page_flushPage, Shows.page_setFrame, Function.update_of_ne hne, Shows.page_setFrame, Function.update_self]

/-- `allocate_page` hands out none of the pages, and leaves them guarded. -/
theorem allocatePage (h : Guarded (pool.page bpHeaderPage) pages) :
    (∀ p ∈ pages, p ∉ pool.allocatePage.2.1.toList) ∧ Guarded (pool.allocatePage.2.2.page bpHeaderPage) pages := by
  unfold DiskBufferPool.allocatePage
  cases hfree : freePage (pool.page bpHeaderPage) with
  | some i =>
    obtain ⟨hlist, hheader⟩ := allocateFound_some pool i
    refine ⟨fun p hp hmem => ?_, hheader ▸ h.mark i⟩
    have hpi : p = i := List.mem_singleton.mp (hlist hmem)
    have hbit := (freePage_spec hfree).2
    rw [← hpi, h.bits p hp] at hbit
    cases hbit
  | none =>
    cases hfull : full (pool.page bpHeaderPage) with
    | true =>
      have hnothing : pool.allocateFound none = (.bufferpoolNobuf, none, pool) := by
        rw [DiskBufferPool.allocateFound, hfull, if_pos rfl]
      rw [hnothing]
      exact ⟨fun p _ => List.not_mem_nil, h⟩
    | false =>
      obtain ⟨hpage, hheader⟩ := allocateFound_none pool h.pos hfull
      refine ⟨fun p hp hmem => ?_, hheader ▸ h.extend _ hfull⟩
      rw [hpage, Option.toList_some, List.mem_singleton] at hmem
      have hbelow := h.below p hp
      have hpos := h.pos
      rw [hmem, Int.toNat_of_nonneg (by omega)] at hbelow
      exact lt_irrefl _ hbelow

theorem allocations (h : Guarded (pool.page bpHeaderPage) pages) (n : ℕ) : ∀ p ∈ pages, p ∉ pool.allocations n := by
  induction n generalizing pool with
  | zero => exact fun p _ => List.not_mem_nil
  | succ n ih =>
    obtain ⟨hnot, hguarded⟩ := h.allocatePage
    intro p hp
    rw [DiskBufferPool.allocations, List.mem_append, not_or]
    exact ⟨hnot p hp, ih hguarded p hp⟩

end Guarded

/-! ## When the recovered pages are on the books -/

theorem bookkept_iff {pool : DiskBufferPool} (hok : Ok (pool.page bpHeaderPage)) (pages : List PageNum)
    (hpages : ∀ p ∈ pages, p < maxPageNum) : Bookkept (pages.foldl DiskBufferPool.recoverPage pool) pages ↔
      ∀ p ∈ pages, p ≠ bpHeaderPage ∧
        (p : ℤ) < pageCount (pool.page bpHeaderPage) + (pages.toFinset \ allocatedSet (pool.page bpHeaderPage)).card := by
  have hrecovered := DiskBufferPool.recovered_foldl hok pages hpages
  have hself : allocated ((pages.foldl DiskBufferPool.recoverPage pool).page bpHeaderPage) bpHeaderPage = true := by
    rw [hrecovered.bits, hok.self]
    rfl
  have hpos := hok.pos
  have hcount := hrecovered.pageCount
  constructor
  · intro h p hp
    have hvisited := (BufferPoolIterator.mem_visited hself (by omega)).mp (h.visited p hp)
    refine ⟨?_, hcount ▸ hvisited.2.1⟩
    rintro rfl
    exact absurd hvisited.1 (by decide)
  · intro h
    have hbits : ∀ p ∈ pages, allocated ((pages.foldl DiskBufferPool.recoverPage pool).page bpHeaderPage) p = true := by
      intro p hp
      rw [hrecovered.bits, decide_eq_true hp, Bool.or_true]
    have hbelow : ∀ p ∈ pages, (p : ℤ) < pageCount ((pages.foldl DiskBufferPool.recoverPage pool).page bpHeaderPage) :=
      fun p hp => hcount ▸ (h p hp).2
    refine ⟨hbelow, hrecovered.count hok hpages, fun p hp => ?_, fun n => ?_⟩
    · exact (BufferPoolIterator.mem_visited hself (by omega)).mpr
        ⟨Nat.one_le_iff_ne_zero.mpr (h p hp).1, hbelow p hp, hbits p hp⟩
    · exact Guarded.allocations ⟨by omega, hself, hbits, hbelow⟩ n

theorem ok_create : Ok (DiskBufferPool.create.page bpHeaderPage) := ok_created

/-- Pages 2, 1 and 2 again, of a new file. -/
theorem bookkept_iff_create : Bookkept ([2, 1, 2].foldl DiskBufferPool.recoverPage .create) [2, 1, 2] ↔
    ∀ p ∈ [2, 1, 2], p ≠ bpHeaderPage ∧ (p : ℤ) < pageCount (DiskBufferPool.create.page bpHeaderPage) +
      ([2, 1, 2].toFinset \ allocatedSet (DiskBufferPool.create.page bpHeaderPage)).card :=
  bookkept_iff ok_create [2, 1, 2] (by rw [maxPageNum_eq]; decide)

/-- Page 5 of a new file: `page_count` becomes 2. -/
theorem not_bookkept_hole : ¬Bookkept ([5].foldl DiskBufferPool.recoverPage .create) [5] := by
  intro h
  have hbelow := h.below 5 List.mem_cons_self
  have hrecovered := DiskBufferPool.recovered_foldl ok_create [5] (by rw [maxPageNum_eq]; decide)
  have hcard : ([5].toFinset \ allocatedSet (DiskBufferPool.create.page bpHeaderPage)).card ≤ 1 :=
    le_trans (Finset.card_le_card Finset.sdiff_subset) (le_of_eq rfl)
  have hcount : pageCount (DiskBufferPool.create.page bpHeaderPage) = 1 := by
    show pageCount File.createdHeader = 1
    simp only [File.createdHeader, pageCount_setAllocated]
    exact pageCount_setPageCount (by norm_num) (by norm_num)
  rw [hrecovered.pageCount, hcount] at hbelow
  push_cast at hbelow
  omega

end Landbase.RecordManager
