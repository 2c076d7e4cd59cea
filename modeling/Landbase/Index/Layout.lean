import Landbase.Index.BufferPool
import Landbase.Index.Tree
import Landbase.Lib.Cells

/-! # Trees laid out on pages

`treeCells n parent next t` are the page contents that store the tree `t`: the parent link of its root is `parent`, the
next-brother link of its last leaf is `next`, and all other links follow from the tree. `Path` is the way from a node up
to the root, with the siblings it passes; `Path.cells` are the pages of everything outside that node. A tree with a node
in focus is stored exactly when `Path.cells` and the cells of the node are (`Path.step_cells`), so an operation that works
its way up only ever talks about the path it has left and the nodes it has rebuilt.
-/

namespace Landbase.Index
open Landbase.Lib
set_option autoImplicit false

variable {K B : Type}

/-! ## The pages of a tree -/

/-- The page number of the leftmost leaf. -/
def firstLeaf : (n : ℕ) → Tree K n → PageNum
  | 0, t => t.page
  | n + 1, t =>
    match t.items with
    | [] => t.page
    | x :: _ => firstLeaf n x.2.tree

/-- The first leaf below the items, or `next` when there are none. -/
def nextLeaf : (n : ℕ) → Items K n → Option PageNum → Option PageNum
  | 0, _, next => next
  | n + 1, items, next =>
    match items with
    | [] => next
    | x :: _ => some (firstLeaf n x.2.tree)

/-- An item as an internal page stores it. -/
def childItem {n : ℕ} (x : K × Val K (n + 1)) : K × PageNum := (x.1, x.2.tree.page)

/-- The page of the root of a tree. -/
def topNode : (n : ℕ) → Option PageNum → Option PageNum → Tree K n → IndexNode K
  | 0, parent, next, t => .leaf ⟨parent, next, t.items⟩
  | _ + 1, parent, _, t => .internal ⟨parent, t.items.map childItem⟩

/-- The cells of a list of children, each linked to the first leaf of the next one. -/
def linkedCells {T X : Type} (cells : Option PageNum → T → Multiset X) (first : T → PageNum)
    (next : Option PageNum) : List (K × T) → Multiset X
  | [] => 0
  | x :: items => cells (match items with | [] => next | y :: _ => some (first y.2)) x.2 +
      linkedCells cells first next items

/-- The cells below a list of items whose node is stored at `page`. -/
def itemCells : (n : ℕ) → PageNum → Option PageNum → Items K n → Multiset (PageNum × IndexNode K)
  | 0, _, _, _ => 0
  | n + 1, page, next, items =>
    linkedCells (fun next (c : Val K (n + 1)) =>
      {(c.tree.page, topNode n (some page) next c.tree)} + itemCells n c.tree.page next c.tree.items)
      (fun c => firstLeaf n c.tree) next items

/-- The cells of a tree. -/
def treeCells (n : ℕ) (parent next : Option PageNum) (t : Tree K n) : Multiset (PageNum × IndexNode K) :=
  {(t.page, topNode n parent next t)} + itemCells n t.page next t.items

theorem treeCells_zero (parent next : Option PageNum) (t : Tree K 0) :
    treeCells 0 parent next t = {(t.page, topNode 0 parent next t)} := add_zero _

theorem treeCells_succ (n : ℕ) (parent next : Option PageNum) (t : Tree K (n + 1)) :
    treeCells (n + 1) parent next t =
      {(t.page, .internal ⟨parent, t.items.map childItem⟩)} + itemCells (n + 1) t.page next t.items := rfl

@[simp] theorem itemCells_nil (n : ℕ) (page : PageNum) (next : Option PageNum) :
    itemCells n page next ([] : Items K n) = 0 := by
  cases n with
  | zero => rfl
  | succ n => rfl

theorem itemCells_cons (n : ℕ) (page : PageNum) (next : Option PageNum) (x : K × Val K (n + 1))
    (items : Items K (n + 1)) :
    itemCells (n + 1) page next (x :: items) =
      treeCells n (some page) (nextLeaf (n + 1) items next) x.2.tree + itemCells (n + 1) page next items := by
  cases items with
  | nil => rfl
  | cons y items => rfl

@[simp] theorem nextLeaf_nil (n : ℕ) (next : Option PageNum) : nextLeaf n ([] : Items K n) next = next := by
  cases n with
  | zero => rfl
  | succ n => rfl

theorem nextLeaf_cons (n : ℕ) (x : K × Val K (n + 1)) (items : Items K (n + 1)) (next : Option PageNum) :
    nextLeaf (n + 1) (x :: items) next = some (firstLeaf n x.2.tree) := rfl

theorem nextLeaf_append (n : ℕ) (front back : Items K n) (next : Option PageNum) :
    nextLeaf n (front ++ back) next = nextLeaf n front (nextLeaf n back next) := by
  cases n with
  | zero => rfl
  | succ n =>
    cases front with
    | nil => rfl
    | cons x front => rfl

theorem itemCells_append (n : ℕ) (page : PageNum) (next : Option PageNum) (front back : Items K n) :
    itemCells n page next (front ++ back) =
      itemCells n page (nextLeaf n back next) front + itemCells n page next back := by
  cases n with
  | zero => rfl
  | succ n =>
    induction front with
    | nil => simp
    | cons x front ih => rw [List.cons_append, itemCells_cons, itemCells_cons, ih, nextLeaf_append, add_assoc]

theorem addrs_itemCells (n : ℕ) (page page' : PageNum) (next next' : Option PageNum) (items : Items K n) :
    addrs (itemCells n page next items) = addrs (itemCells n page' next' items) := by
  induction n generalizing page page' next next' with
  | zero => rfl
  | succ n ih =>
    induction items with
    | nil => simp
    | cons x items ihx =>
      rw [itemCells_cons, itemCells_cons, treeCells, treeCells]
      simp only [addrs, Multiset.map_add, Multiset.map_singleton] at ihx ih ⊢
      rw [ihx, ih x.2.tree.page x.2.tree.page (nextLeaf (n + 1) items next) (nextLeaf (n + 1) items next')]

theorem topNode_size (n : ℕ) (parent next : Option PageNum) (t : Tree K n) :
    (topNode n parent next t).size = t.items.length := by
  cases n with
  | zero => rfl
  | succ n => simp [topNode, IndexNode.size]

@[simp] theorem topNode_parentPageNum (n : ℕ) (parent next : Option PageNum) (t : Tree K n) :
    (topNode n parent next t).parentPageNum = parent := by
  cases n with
  | zero => rfl
  | succ n => rfl

@[simp] theorem topNode_setParentPageNum (n : ℕ) (parent parent' next : Option PageNum) (t : Tree K n) :
    (topNode n parent next t).setParentPageNum parent' = topNode n parent' next t := by
  cases n with
  | zero => rfl
  | succ n => rfl

theorem topNode_keyAt (n : ℕ) (parent next : Option PageNum) (t : Tree K n) (i : ℕ) :
    (topNode n parent next t).keyAt i = (t.items[i]?).map Prod.fst := by
  cases n with
  | zero => rfl
  | succ n =>
    simp only [topNode, IndexNode.keyAt, List.getElem?_map, Option.map_map]
    rfl

theorem maxSize_topNode (header : IndexFileHeader) (n : ℕ) (parent next : Option PageNum) (t : Tree K n) :
    header.maxSize (topNode n parent next t) = header.maxAt n := by
  cases n with
  | zero => rfl
  | succ n => rfl

/-! ## The way up to the root -/

/-- The path from a node at height `n` to the root: at each level the page of the parent, the items to the left, the key
of the node and the items to the right. -/
inductive Path (K : Type) : ℕ → Type
  | top {n : ℕ} : Path K n
  | step {n : ℕ} (page : PageNum) (left : Items K (n + 1)) (k : K) (right : Items K (n + 1))
      (up : Path K (n + 1)) : Path K n

namespace Path

/-- The parent link of the node in focus. -/
def parent : {n : ℕ} → Path K n → Option PageNum
  | _, top => none
  | _, step page _ _ _ _ => some page

@[simp] theorem parent_top {n : ℕ} : (top : Path K n).parent = none := rfl

@[simp] theorem parent_step {n : ℕ} (page : PageNum) (left : Items K (n + 1)) (k : K) (right : Items K (n + 1))
    (up : Path K (n + 1)) : (step page left k right up).parent = some page := rfl

/-- The next-brother link of the last leaf below the node in focus. -/
def next : {n : ℕ} → Path K n → Option PageNum
  | _, top => none
  | n, step _ _ _ right up => nextLeaf (n + 1) right up.next

/-- The first leaf of a node whose items are `left` and then the node in focus. -/
def firstOf {n : ℕ} (left : Items K (n + 1)) (focusFirst : PageNum) : PageNum :=
  match left with
  | [] => focusFirst
  | x :: _ => firstLeaf n x.2.tree

/-- The pages outside the node in focus, which is stored at `focusPage` and starts with leaf `focusFirst`. -/
def cells : {n : ℕ} → Path K n → PageNum → PageNum → Multiset (PageNum × IndexNode K)
  | _, top, _, _ => 0
  | n, step page left k right up, focusPage, focusFirst =>
    {(page, .internal ⟨up.parent, left.map childItem ++ (k, focusPage) :: right.map childItem⟩)} +
      itemCells (n + 1) page (some focusFirst) left + itemCells (n + 1) page up.next right +
      up.cells page (firstOf left focusFirst)

/-- The root page. -/
def rootPage : {n : ℕ} → Path K n → PageNum → PageNum
  | _, top, focusPage => focusPage
  | _, step page _ _ _ up, _ => up.rootPage page

/-- The number of nodes above. -/
def depth : {n : ℕ} → Path K n → ℕ
  | _, top => 0
  | _, step _ _ _ _ up => up.depth + 1

/-- The entries to the left of the node in focus. -/
def before : {n : ℕ} → Path K n → List (K × RID)
  | _, top => []
  | n, step _ left _ _ up => up.before ++ contents (n + 1) left

/-- The entries to the right of the node in focus. -/
def after : {n : ℕ} → Path K n → List (K × RID)
  | _, top => []
  | n, step _ _ _ right up => contents (n + 1) right ++ up.after

/-- The order invariant of everything outside the node in focus, which is responsible for `[lo, hi)`. -/
def Ordered [Preorder B] [BoundedOrder B] (key : K → B) : {n : ℕ} → Path K n → B → B → Prop
  | _, top, lo, hi => lo = ⊥ ∧ hi = ⊤
  | n, step _ left k right up, lo, hi =>
    ∃ lo' hi', up.Ordered key lo' hi' ∧ SepHole key (SegTree key n) lo' hi' left k right lo hi

/-- The least number of items of the node in focus. -/
def minItems (header : IndexFileHeader) : {n : ℕ} → Path K n → ℕ
  | 0, top => 1
  | _ + 1, top => 2
  | n, step _ _ _ _ _ => header.maxAt n / 2

/-- The sizes of all nodes outside the node in focus are admissible. -/
def Occupied (header : IndexFileHeader) : {n : ℕ} → Path K n → Prop
  | _, top => True
  | n, step _ left _ right up =>
    (up.minItems header ≤ left.length + 1 + right.length ∧ left.length + 1 + right.length ≤ header.internalMaxSize) ∧
      Index.Occupied header (n + 1) left ∧ Index.Occupied header (n + 1) right ∧ up.Occupied header

end Path

/-! ## Moving the focus -/

theorem firstLeaf_cons {n : ℕ} (page : PageNum) (x : K × Val K (n + 1)) (items : Items K (n + 1)) :
    firstLeaf (n + 1) ⟨page, x :: items⟩ = firstLeaf n x.2.tree := rfl

theorem firstLeaf_items {n : ℕ} (page : PageNum) (left right : Items K (n + 1)) (x : K × Val K (n + 1)) :
    firstLeaf (n + 1) ⟨page, left ++ x :: right⟩ = Path.firstOf left (firstLeaf n x.2.tree) := by
  cases left with
  | nil => rfl
  | cons y left => rfl

theorem firstLeaf_congr {n : ℕ} {page : PageNum} {front back front' back' : Items K n} (hfront : front ≠ [])
    (hfront' : front' ≠ []) (h : front ++ back = front' ++ back') :
    firstLeaf n ⟨page, front⟩ = firstLeaf n ⟨page, front'⟩ := by
  cases n with
  | zero => rfl
  | succ n =>
    obtain ⟨x, front, rfl⟩ := List.exists_cons_of_ne_nil hfront
    obtain ⟨y, front', rfl⟩ := List.exists_cons_of_ne_nil hfront'
    rw [List.cons_append, List.cons_append, List.cons.injEq] at h
    rw [firstLeaf_cons, firstLeaf_cons, h.1]

/-- The pages do not depend on which node is in focus. -/
theorem Path.step_cells {n : ℕ} (page : PageNum) (left right : Items K (n + 1)) (x : K × Val K (n + 1))
    (up : Path K (n + 1)) :
    (Path.step page left x.1 right up).cells x.2.tree.page (firstLeaf n x.2.tree) +
        treeCells n (Path.step page left x.1 right up).parent (Path.step page left x.1 right up).next x.2.tree =
      up.cells page (firstLeaf (n + 1) ⟨page, left ++ x :: right⟩) +
        treeCells (n + 1) up.parent up.next ⟨page, left ++ x :: right⟩ := by
  have hleft : itemCells (n + 1) page (nextLeaf (n + 1) (x :: right) up.next) left =
      itemCells (n + 1) page (some (firstLeaf n x.2.tree)) left := rfl
  rw [firstLeaf_items]
  simp only [Path.cells, Path.parent, Path.next, treeCells, topNode, itemCells_append, itemCells_cons, hleft,
    List.map_append, List.map_cons, childItem]
  abel

/-! ## The number of pages -/

theorem Path.depth_le_card {n : ℕ} (path : Path K n) (focusPage focusFirst : PageNum) :
    path.depth ≤ Multiset.card (path.cells focusPage focusFirst) := by
  induction path generalizing focusPage focusFirst with
  | top => simp [Path.depth]
  | step page left k right up ih =>
    have hup := ih page (Path.firstOf left focusFirst)
    simp only [Path.depth, Path.cells, Multiset.card_add, Multiset.card_singleton]
    omega

/-- A tree without empty nodes has at least as many pages below its root as its height. -/
theorem height_le_card [Preorder B] [OrderBot B] {key : K → B} {n : ℕ} {lo hi : B} {items : Items K n}
    (h : Seg key n lo hi items) (hne : items ≠ []) (page : PageNum) (next : Option PageNum) :
    n ≤ Multiset.card (itemCells n page next items) := by
  induction n generalizing lo hi page next with
  | zero => exact Nat.zero_le _
  | succ n ih =>
    obtain ⟨x, items, rfl⟩ := List.exists_cons_of_ne_nil hne
    obtain ⟨-, -, ⟨hxne, hx⟩, -⟩ := h
    have hcard := ih hx hxne x.2.tree.page (nextLeaf (n + 1) items next)
    rw [itemCells_cons, treeCells]
    simp only [Multiset.card_add, Multiset.card_singleton]
    omega

/-! ## Layouts -/

theorem DiskBufferPool.setParents_append (pool : DiskBufferPool K) (front back : List PageNum) (parent : PageNum) :
    pool.setParents (front ++ back) parent = (pool.setParents front parent).setParents back parent := by
  simp only [DiskBufferPool.setParents, List.foldl_append]

theorem DiskBufferPool.setParents_header (pool : DiskBufferPool K) (children : List PageNum) (parent : PageNum) :
    (pool.setParents children parent).bitmap = pool.bitmap ∧
      (pool.setParents children parent).pageCount = pool.pageCount := by
  induction children generalizing pool with
  | nil => exact ⟨rfl, rfl⟩
  | cons child children ih => exact ih (pool.setParent child (some parent))

/-- The cells are stored in the file, on different pages that are marked as allocated. -/
structure Layout (pool : DiskBufferPool K) (cells : Multiset (PageNum × IndexNode K)) : Prop where
  stored : Cells pool.pages cells
  marked : ∀ p ∈ addrs cells, pool.bitmap p = true
  bounded : pool.Bounded

namespace Layout

variable {pool : DiskBufferPool K} {cells rest : Multiset (PageNum × IndexNode K)} {p : PageNum} {node : IndexNode K}

theorem get (h : Layout pool ({(p, node)} + rest)) : pool.getThisPage p = some node := h.stored.get

theorem get_of_mem (h : Layout pool cells) (hmem : (p, node) ∈ cells) : pool.getThisPage p = some node :=
  h.stored.holds (p, node) hmem

theorem of_eq (h : Layout pool cells) (heq : cells = rest) : Layout pool rest := heq ▸ h

theorem right (h : Layout pool (cells + rest)) : Layout pool rest := by
  refine ⟨h.stored.right, fun q hq => h.marked q ?_, h.bounded⟩
  rw [addrs, Multiset.map_add]
  exact Multiset.mem_add.mpr (Or.inr hq)

theorem setPage (h : Layout pool ({(p, node)} + rest)) (node' : IndexNode K) :
    Layout (pool.setPage p node') ({(p, node')} + rest) := by
  refine ⟨h.stored.write node', fun q hq => h.marked q ?_, h.bounded⟩
  simpa [addrs] using hq

theorem setParent (h : Layout pool ({(p, node)} + rest)) (parent : Option PageNum) :
    Layout (pool.setParent p parent) ({(p, node.setParentPageNum parent)} + rest) := by
  have hget : pool.pages p = some node := h.get
  have hset := h.setPage (node.setParentPageNum parent)
  unfold DiskBufferPool.setPage at hset
  unfold DiskBufferPool.setParent
  rw [hget, Option.map_some]
  exact hset

theorem allocatePage (h : Layout pool rest) :
    Layout pool.allocatePage.2 rest ∧ pool.allocatePage.1 ∉ addrs rest ∧
      pool.allocatePage.2.bitmap pool.allocatePage.1 = true := by
  obtain ⟨hfree, hpages, hbitmap, -, hbounded⟩ := pool.allocatePage_spec h.bounded
  have hnew : pool.allocatePage.1 ∉ addrs rest := by
    intro hmem
    rw [h.marked _ hmem] at hfree
    cases hfree
  have hcells : Cells pool.allocatePage.2.pages rest := by rw [hpages]; exact h.stored
  refine ⟨⟨hcells, ?_, hbounded⟩, hnew, by rw [hbitmap, Function.update_self]⟩
  intro q hq
  rw [hbitmap]
  by_cases hqp : q = pool.allocatePage.1
  · rw [hqp, Function.update_self]
  · rw [Function.update_of_ne hqp]
    exact h.marked q hq

theorem addPage (h : Layout pool rest) (hp : p ∉ addrs rest) (hbit : pool.bitmap p = true) (node : IndexNode K) :
    Layout (pool.setPage p node) ({(p, node)} + rest) := by
  refine ⟨h.stored.add hp node, ?_, h.bounded⟩
  intro q hq
  rw [addrs, Multiset.map_add, Multiset.map_singleton, Multiset.mem_add, Multiset.mem_singleton] at hq
  rcases hq with rfl | hq
  · exact hbit
  · exact h.marked q hq

theorem disposePage (h : Layout pool ({(p, node)} + rest)) : Layout (pool.disposePage p) rest := by
  refine ⟨h.stored.right, fun q hq => ?_, DiskBufferPool.disposePage_bounded h.bounded p⟩
  have hne : q ≠ p := fun hqp => h.stored.notMem (hqp ▸ hq)
  show Function.update pool.bitmap p false q = true
  rw [Function.update_of_ne hne]
  exact h.right.marked q hq

theorem setParents {n : ℕ} {items : Items K (n + 1)} {page : PageNum} {next : Option PageNum}
    (h : Layout pool (itemCells (n + 1) page next items + rest)) (page' : PageNum) :
    Layout (pool.setParents (items.map fun x => x.2.tree.page) page')
      (itemCells (n + 1) page' next items + rest) := by
  induction items generalizing pool rest with
  | nil => simpa [DiskBufferPool.setParents] using h
  | cons x items ih =>
    rw [itemCells_cons, treeCells] at h
    have hfirst : Layout pool ({(x.2.tree.page, topNode n (some page) (nextLeaf (n + 1) items next) x.2.tree)} +
        (itemCells (n + 1) page next items +
          (itemCells n x.2.tree.page (nextLeaf (n + 1) items next) x.2.tree.items + rest))) := by
      exact h.of_eq (by abel)
    have hset := hfirst.setParent (some page')
    rw [topNode_setParentPageNum] at hset
    rw [add_left_comm] at hset
    have hrest := ih hset
    rw [itemCells_cons, treeCells]
    rw [List.map_cons, DiskBufferPool.setParents, List.foldl_cons]
    rw [DiskBufferPool.setParents] at hrest
    exact hrest.of_eq (by abel)

theorem setParentTree {n : ℕ} {t : Tree K n} {parent next : Option PageNum}
    (h : Layout pool (treeCells n parent next t + rest)) (parent' : Option PageNum) :
    Layout (pool.setParent t.page parent') (treeCells n parent' next t + rest) := by
  rw [treeCells, add_assoc] at h ⊢
  have hset := h.setParent parent'
  rwa [topNode_setParentPageNum] at hset

theorem card_le (h : Layout pool cells) : Multiset.card cells ≤ pool.pageCount := by
  have hcard := card_le_of_nodup_lt h.stored.nodup (fun p hp => h.bounded p (h.marked p hp))
  rwa [Multiset.card_map] at hcard

end Layout

end Landbase.Index
