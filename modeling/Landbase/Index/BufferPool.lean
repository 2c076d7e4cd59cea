import Landbase.Index.Node

/-! # The index file seen through its buffer pool

The tree reaches its pages through `DiskBufferPool`. Pins and latches do not change what a page holds, so a pool is
the file header with the allocation bitmap and the contents of the pages. Page operations do not fail here: the file
never reaches `MAX_PAGE_NUM` and a frame can always be had.

No frame is taken away from a page either. `coalesce` and `adjust_root` change pages without `mark_dirty`, so a page
that is evicted behind them comes back as it was.
-/

namespace Landbase.Index
set_option autoImplicit false

/-- `DiskBufferPool` of an index file: `file_header_` and the pages. A page that was never written is `none`. -/
structure DiskBufferPool (K : Type) where
  pageCount : ℕ
  allocatedPages : ℕ
  bitmap : PageNum → Bool
  pages : PageNum → Option (IndexNode K)

variable {K : Type}

namespace DiskBufferPool

/-- The file of a new index: the file header is page 0, the index header is page 1. -/
def create : DiskBufferPool K := ⟨2, 2, fun p => decide (p < 2), fun _ => none⟩

/-- `DiskBufferPool::get_this_page`. -/
def getThisPage (pool : DiskBufferPool K) (pageNum : PageNum) : Option (IndexNode K) := pool.pages pageNum

/-- A page that the tree reads as an internal node. -/
def getInternal (pool : DiskBufferPool K) (pageNum : PageNum) : Option (InternalIndexNode K) :=
  match pool.pages pageNum with
  | some (.internal node) => some node
  | _ => none

/-- A page that the tree reads as a leaf. -/
def getLeaf (pool : DiskBufferPool K) (pageNum : PageNum) : Option (LeafIndexNode K) :=
  match pool.pages pageNum with
  | some (.leaf node) => some node
  | _ => none

/-- Writing a page. -/
def setPage (pool : DiskBufferPool K) (pageNum : PageNum) (node : IndexNode K) : DiskBufferPool K :=
  { pool with pages := Function.update pool.pages pageNum (some node) }

/-- `set_parent_page_num` on a page that is fetched for it. -/
def setParent (pool : DiskBufferPool K) (pageNum : PageNum) (parent : Option PageNum) : DiskBufferPool K :=
  { pool with
    pages := Function.update pool.pages pageNum ((pool.pages pageNum).map (IndexNode.setParentPageNum parent)) }

/-- The loop of `InternalIndexNodeHandler::copy_from` over the children of the copied items. -/
def setParents (pool : DiskBufferPool K) (children : List PageNum) (parent : PageNum) : DiskBufferPool K :=
  children.foldl (fun pool child => pool.setParent child (some parent)) pool

/-- The search of `allocate_page` for a free page below `page_count`. -/
def freePage (pool : DiskBufferPool K) : Option PageNum :=
  if pool.allocatedPages < pool.pageCount then (List.range pool.pageCount).find? (fun i => !pool.bitmap i)
  else none

/-- `DiskBufferPool::allocate_page`: the first free page below `page_count`, or a new one at the end. -/
def allocatePage (pool : DiskBufferPool K) : PageNum × DiskBufferPool K :=
  match pool.freePage with
  | some i => (i, { pool with
      allocatedPages := pool.allocatedPages + 1
      bitmap := Function.update pool.bitmap i true })
  | none => (pool.pageCount, { pool with
      allocatedPages := pool.allocatedPages + 1
      pageCount := pool.pageCount + 1
      bitmap := Function.update pool.bitmap pool.pageCount true })

/-- `DiskBufferPool::dispose_page`. -/
def disposePage (pool : DiskBufferPool K) (pageNum : PageNum) : DiskBufferPool K :=
  { pool with
    allocatedPages := pool.allocatedPages - 1
    bitmap := Function.update pool.bitmap pageNum false }

theorem setParent_same {pool : DiskBufferPool K} {p : PageNum} {node : IndexNode K} {parent : Option PageNum}
    (h : pool.getThisPage p = some node) (hparent : node.parentPageNum = parent) : pool.setParent p parent = pool := by
  unfold getThisPage at h
  have hnode : node.setParentPageNum parent = node := by
    subst hparent
    cases node <;> rfl
  rw [setParent, h, Option.map_some, hnode, ← h, Function.update_eq_self]

theorem getInternal_of_get {pool : DiskBufferPool K} {p : PageNum} {node : InternalIndexNode K}
    (h : pool.getThisPage p = some (.internal node)) : pool.getInternal p = some node := by
  unfold getThisPage at h
  simp only [getInternal, h]

theorem getLeaf_of_get {pool : DiskBufferPool K} {p : PageNum} {node : LeafIndexNode K}
    (h : pool.getThisPage p = some (.leaf node)) : pool.getLeaf p = some node := by
  unfold getThisPage at h
  simp only [getLeaf, h]

/-! ## Allocation -/

/-- No page at or above `page_count` is marked in the bitmap. -/
def Bounded (pool : DiskBufferPool K) : Prop := ∀ p, pool.bitmap p = true → p < pool.pageCount

theorem create_bounded : (create : DiskBufferPool K).Bounded := by
  intro p hp
  simpa [create] using hp

/-- Everything an allocation does: it marks one page that was not marked. -/
theorem allocatePage_spec (pool : DiskBufferPool K) (hb : pool.Bounded) :
    pool.bitmap pool.allocatePage.1 = false ∧ pool.allocatePage.2.pages = pool.pages ∧
      pool.allocatePage.2.bitmap = Function.update pool.bitmap pool.allocatePage.1 true ∧
      pool.pageCount ≤ pool.allocatePage.2.pageCount ∧ pool.allocatePage.2.Bounded := by
  unfold allocatePage
  split
  · next i hfree =>
    have hfind : (List.range pool.pageCount).find? (fun i => !pool.bitmap i) = some i := by
      unfold freePage at hfree
      split at hfree
      · exact hfree
      · cases hfree
    have hbit : pool.bitmap i = false := by simpa using List.find?_some hfind
    have hlt : i < pool.pageCount := List.mem_range.mp (List.mem_of_find?_eq_some hfind)
    refine ⟨hbit, rfl, rfl, le_refl _, ?_⟩
    intro p hp
    by_cases hpi : p = i
    · rw [hpi]; exact hlt
    · exact hb p (by simpa [Function.update_of_ne hpi] using hp)
  · refine ⟨?_, rfl, rfl, Nat.le_succ _, ?_⟩
    · by_contra hbit
      exact lt_irrefl _ (hb pool.pageCount (by simpa using hbit))
    · intro p hp
      by_cases hpi : p = pool.pageCount
      · rw [hpi]; exact Nat.lt_succ_self _
      · exact Nat.lt_succ_of_lt (hb p (by simpa [Function.update_of_ne hpi] using hp))

theorem disposePage_bounded {pool : DiskBufferPool K} (hb : pool.Bounded) (pageNum : PageNum) :
    (pool.disposePage pageNum).Bounded := by
  intro p hp
  by_cases hpi : p = pageNum
  · rw [hpi] at hp
    simp [disposePage] at hp
  · exact hb p (by simpa [disposePage, Function.update_of_ne hpi] using hp)

end DiskBufferPool

end Landbase.Index
