import Landbase.Index.Search

/-! # The tree invariant, seen from one node

`Focus ord h path t lo hi` is the structural invariant of the tree of handler `h` with the node `t` in focus: the pages
store the tree, the separators are in order, the sizes are admissible, and `t` is responsible for the keys in `[lo, hi)`.
The focus moves down to a child and up to the parent without a change to the pages; `Represents` is the invariant seen
from the root, with the entries of the tree.
-/

namespace Landbase.Index
open Landbase.Lib Landbase.Common
set_option autoImplicit false

/-- The fan-outs for which underflowing nodes keep at least one separator to be found by. -/
structure IndexFileHeader.Wide (header : IndexFileHeader) : Prop where
  leaf : 4 ≤ header.leafMaxSize
  internal : 6 ≤ header.internalMaxSize

theorem IndexFileHeader.Wide.maxAt {header : IndexFileHeader} (h : header.Wide) (n : ℕ) : 4 ≤ header.maxAt n := by
  cases n with
  | zero => exact h.leaf
  | succ n => exact le_trans (by omega) h.internal

variable {K B : Type} [Preorder B] [BoundedOrder B] {ops : KeyOps K} (ord : KeyOrder ops B)

/-- The invariant of the tree with a node in focus. -/
structure Focus (h : BplusTreeHandler K) {n : ℕ} (path : Path K n) (t : Tree K n) (lo hi : B) : Prop where
  layout : Layout h.pool (path.cells t.page (firstLeaf n t) + treeCells n path.parent path.next t)
  root : h.header.rootPage = some (path.rootPage t.page)
  pathOrdered : path.Ordered ord.key lo hi
  pathOccupied : path.Occupied h.header
  ordered : Seg ord.key n lo hi t.items
  occupied : Occupied h.header n t.items
  minSize : path.minItems h.header ≤ t.items.length
  maxSize : t.items.length ≤ h.header.maxAt n

/-- All entries of the tree, with a node in focus. -/
def Path.entries {n : ℕ} (path : Path K n) (t : Tree K n) : List (K × RID) :=
  path.before ++ contents n t.items ++ path.after

/-- The handler's file stores a well-formed tree with these entries. -/
structure Represents (h : BplusTreeHandler K) (entries : List (K × RID)) : Prop where
  wide : h.header.Wide
  disposed : h.disposedPages = []
  tree : (h.header.rootPage = none ∧ entries = [] ∧ h.pool.Bounded) ∨
    ∃ (n : ℕ) (t : Tree K n), Focus ord h Path.top t ⊥ ⊤ ∧ entries = contents n t.items

variable {ord} {h : BplusTreeHandler K} {n : ℕ} {lo hi : B}

/-! ## Sizes -/

theorem Path.minItems_pos {header : IndexFileHeader} (hw : header.Wide) (path : Path K n) :
    1 ≤ path.minItems header := by
  have h4 := hw.maxAt n
  cases path with
  | top => cases n <;> simp [Path.minItems]
  | step page left k right up => rw [Path.minItems]; omega

theorem Path.minItems_step (header : IndexFileHeader) (page : PageNum) (left : Items K (n + 1)) (k : K)
    (right : Items K (n + 1)) (up : Path K (n + 1)) :
    (Path.step page left k right up).minItems header = header.maxAt n / 2 := by
  rw [Path.minItems]

theorem Path.minItems_succ {header : IndexFileHeader} (hw : header.Wide) (path : Path K (n + 1)) :
    2 ≤ path.minItems header := by
  have h6 := hw.internal
  cases path with
  | top => simp [Path.minItems]
  | step page left k right up => rw [Path.minItems, IndexFileHeader.maxAt]; omega

theorem Path.minItems_le {header : IndexFileHeader} (hw : header.Wide) (path : Path K n) :
    path.minItems header ≤ header.maxAt n - header.maxAt n / 2 := by
  have h4 := hw.maxAt n
  cases path with
  | top => cases n <;> simp only [Path.minItems] <;> omega
  | step page left k right up => rw [Path.minItems]; omega

theorem Focus.nonempty {path : Path K n} {t : Tree K n} (hf : Focus ord h path t lo hi) (hw : h.header.Wide) :
    t.items ≠ [] := by
  have hmin := hf.minSize
  have hpos := path.minItems_pos hw
  exact List.ne_nil_of_length_pos (by omega)

/-! ## Moving the focus -/

theorem Focus.down {path : Path K (n + 1)} {page : PageNum} {left right : Items K (n + 1)} {x : K × Val K (n + 1)}
    (hf : Focus ord h path ⟨page, left ++ x :: right⟩ lo hi) :
    ∃ lo', Focus ord h (Path.step page left x.1 right path) x.2.tree lo' (nextBound ord.key right hi) ∧
      lo' = (if left = [] then lo else ord.key x.1) := by
  obtain ⟨lo', hi', hhole, hx⟩ : ∃ lo' hi', SepHole ord.key (SegTree ord.key n) lo hi left x.1 right lo' hi' ∧
      SepChain ord.key (SegTree ord.key n) lo' hi' [x] :=
    sepHole_of_chain (by rw [List.append_assoc]; exact hf.ordered)
  have hsize := (Index.occupied_append.mp hf.occupied).2
  rw [occupied_cons] at hsize
  refine ⟨lo', ?_, hhole.lower⟩
  rw [← hhole.upper]
  refine ⟨?_, hf.root, ⟨lo, hi, hf.pathOrdered, hhole⟩, ?_, ?_, hsize.1.2, ?_, hsize.1.1.2⟩
  · have hlay := hf.layout
    rw [← Path.step_cells] at hlay
    exact hlay
  · have hlen : (left ++ x :: right).length = left.length + 1 + right.length := by simp; omega
    have hmin := hf.minSize
    have hmax := hf.maxSize
    rw [hlen] at hmin hmax
    exact ⟨⟨hmin, hmax⟩, (Index.occupied_append.mp hf.occupied).1, hsize.2, hf.pathOccupied⟩
  · exact (sepChain_cons.mp hx).2.2.1.2
  · rw [Path.minItems_step]
    exact hsize.1.1.1

theorem Focus.up_hole {page : PageNum} {left right : Items K (n + 1)} {k : K} {path : Path K (n + 1)} {t : Tree K n}
    (hf : Focus ord h (Path.step page left k right path) t lo hi) (hw : h.header.Wide) :
    ∃ lo' hi', Focus ord h path ⟨page, left ++ (k, toVal t) :: right⟩ lo' hi' ∧
      SepHole ord.key (SegTree ord.key n) lo' hi' left k right lo hi := by
  obtain ⟨lo', hi', hup, hhole⟩ := hf.pathOrdered
  obtain ⟨hsize, hoccl, hoccr, hoccup⟩ := hf.pathOccupied
  have hne := hf.nonempty hw
  have hlen : (left ++ (k, toVal t) :: right).length = left.length + 1 + right.length := by
    simp; omega
  refine ⟨lo', hi', ⟨?_, hf.root, hup, hoccup, ?_, ?_, ?_, ?_⟩, hhole⟩
  · have hlay := hf.layout
    exact Path.step_cells page left right (k, toVal t) path ▸ hlay
  · have hmid : SepChain ord.key (SegTree ord.key n) lo hi [(k, toVal t)] :=
      ⟨hhole.first, hhole.lt, ⟨hne, hf.ordered⟩, trivial⟩
    have hfill := SepHole.fill hhole hmid
    rw [seg_succ]
    simpa using hfill
  · rw [Index.occupied_append, occupied_cons]
    have hmin := hf.minSize
    rw [Path.minItems_step] at hmin
    exact ⟨hoccl, ⟨⟨hmin, hf.maxSize⟩, hf.occupied⟩, hoccr⟩
  · rw [hlen]; exact hsize.1
  · rw [hlen]; exact hsize.2

theorem Focus.up {page : PageNum} {left right : Items K (n + 1)} {k : K} {path : Path K (n + 1)} {t : Tree K n}
    (hf : Focus ord h (Path.step page left k right path) t lo hi) (hw : h.header.Wide) :
    ∃ lo' hi', Focus ord h path ⟨page, left ++ (k, toVal t) :: right⟩ lo' hi' := by
  obtain ⟨lo', hi', hup, -⟩ := hf.up_hole hw
  exact ⟨lo', hi', hup⟩

theorem Path.entries_step (page : PageNum) (left right : Items K (n + 1)) (x : K × Val K (n + 1))
    (up : Path K (n + 1)) :
    (Path.step page left x.1 right up).entries x.2.tree = up.entries ⟨page, left ++ x :: right⟩ := by
  simp only [Path.entries, Path.before, Path.after, contents_append, contents_cons, List.append_assoc]

theorem Focus.toRoot {path : Path K n} {t : Tree K n} (hf : Focus ord h path t lo hi) (hw : h.header.Wide) :
    ∃ (m : ℕ) (r : Tree K m), Focus ord h Path.top r ⊥ ⊤ ∧ contents m r.items = path.entries t := by
  induction path generalizing lo hi with
  | top =>
    obtain ⟨rfl, rfl⟩ := hf.pathOrdered
    exact ⟨_, t, hf, by simp [Path.entries, Path.before, Path.after]⟩
  | step page left k right up ih =>
    obtain ⟨lo', hi', hup⟩ := hf.up hw
    obtain ⟨m, r, hr, hcontents⟩ := ih hup
    exact ⟨m, r, hr, hcontents.trans (Path.entries_step page left right (k, toVal t) up).symm⟩

theorem Path.Ordered.outside {path : Path K n} (hpath : path.Ordered ord.key lo hi) :
    (∀ x ∈ path.before, ord.key x.1 < lo) ∧ ∀ x ∈ path.after, hi ≤ ord.key x.1 := by
  induction path generalizing lo hi with
  | top => simp [Path.before, Path.after]
  | @step n page left k right up ih =>
    obtain ⟨lo', hi', hup, hhole⟩ := hpath
    obtain ⟨hbefore, hafter⟩ := ih hup
    refine ⟨fun x hx => ?_, fun x hx => ?_⟩
    · cases List.mem_append.mp hx with
      | inl hx => exact lt_of_lt_of_le (hbefore x hx) hhole.lower_le
      | inr hx =>
        have hleft : left ≠ [] := by
          rintro rfl
          rw [contents_nil] at hx
          cases hx
        have hsorted := Seg.sorted (seg_succ.mpr (hhole.front hleft))
        rw [hhole.lower, if_neg hleft]
        exact (hsorted.2 x hx).2.2
    · cases List.mem_append.mp hx with
      | inl hx => exact ((Seg.sorted (seg_succ.mpr hhole.back)).2 x hx).1
      | inr hx => exact le_trans hhole.upper_le (hafter x hx)

theorem last_key {items : Items K n} (hseg : Seg ord.key n lo hi items) (hne : items ≠ [])
    (hlen : n = 0 ∨ 2 ≤ items.length) :
    ∃ x, items[items.length - 1]? = some x ∧ lo ≤ ord.key x.1 ∧ ord.Known x.1 ∧ ord.key x.1 < hi := by
  obtain ⟨front, x, rfl⟩ : ∃ front x, items = front ++ [x] := ⟨_, _, (List.dropLast_append_getLast hne).symm⟩
  refine ⟨x, by simp, ?_⟩
  cases n with
  | zero => exact hseg.2 x (by simp)
  | succ n =>
    cases front with
    | nil => simp at hlen
    | cons y front =>
      have hkeys := (SepChain.tail_keys (seg_succ.mp hseg)).2 x (by simp)
      exact ⟨le_of_lt hkeys.1, KeyOrder.known_of_lt hkeys.1, hkeys.2⟩

/-! ## The page of the node in focus -/

theorem Focus.get {path : Path K n} {t : Tree K n} (hf : Focus ord h path t lo hi) :
    h.pool.getThisPage t.page = some (topNode n path.parent path.next t) := by
  have hlay := hf.layout
  rw [treeCells, add_left_comm] at hlay
  exact hlay.get

theorem Focus.getInternal {path : Path K (n + 1)} {t : Tree K (n + 1)} (hf : Focus ord h path t lo hi) :
    h.pool.getInternal t.page = some ⟨path.parent, t.items.map childItem⟩ :=
  DiskBufferPool.getInternal_of_get hf.get

theorem Focus.getLeaf {path : Path K 0} {t : Tree K 0} (hf : Focus ord h path t lo hi) :
    h.pool.getLeaf t.page = some ⟨path.parent, path.next, t.items⟩ :=
  DiskBufferPool.getLeaf_of_get hf.get

/-! ## The descent -/

/-- `find_leaf` arrives at the leaf that is responsible for the key. -/
theorem findLeafInternal_key (hw : h.header.Wide) {path : Path K n} {t : Tree K n} (hf : Focus ord h path t lo hi)
    {q : K} (hq : ord.Known q) (hlo : lo ≤ ord.key q) (hhi : ord.key q < hi) (fuel : ℕ) (hfuel : n < fuel) :
    ∃ (path' : Path K 0) (leaf : Tree K 0) (lo' hi' : B), Focus ord h path' leaf lo' hi' ∧
      lo' ≤ ord.key q ∧ ord.key q < hi' ∧ path'.entries leaf = path.entries t ∧
      BplusTreeHandler.findLeafInternal (fun node => node.valueAt (node.lookup ops q).1) h.pool fuel t.page =
        some leaf.page := by
  induction n generalizing lo hi fuel with
  | zero =>
    obtain ⟨fuel, rfl⟩ : ∃ f, fuel = f + 1 := ⟨fuel - 1, by omega⟩
    refine ⟨path, t, lo, hi, hf, hlo, hhi, rfl, ?_⟩
    simp only [BplusTreeHandler.findLeafInternal, hf.get, topNode, Option.bind_eq_bind, Option.bind_some]
  | succ n ih =>
    obtain ⟨fuel, rfl⟩ : ∃ f, fuel = f + 1 := ⟨fuel - 1, by omega⟩
    obtain ⟨page, items⟩ := t
    obtain ⟨left, x, right, rfl, hx, hnext⟩ := exists_route ord (hf.nonempty hw) hf.ordered hq hhi
    obtain ⟨lo', hdown, hlo'⟩ := hf.down
    have hle : lo' ≤ ord.key q := by
      rw [hlo']
      split
      · exact hlo
      · next hne => exact hx hne
    obtain ⟨path', leaf, lo'', hi'', hleaf, h1, h2, hentries, hfind⟩ := ih hdown hle hnext fuel (by omega)
    refine ⟨path', leaf, lo'', hi'', hleaf, h1, h2, hentries.trans (Path.entries_step page left right x path), ?_⟩
    have hroutes := routes_of_chain ord hf.ordered hq hx hnext
    have hitems : (⟨path.parent, (left ++ x :: right).map childItem⟩ : InternalIndexNode K).items =
        left.map childItem ++ childItem x :: right.map childItem := by rw [List.map_append, List.map_cons]
    have hindex := (internal_lookup ord hitems hroutes).1
    have hvalue : (⟨path.parent, (left ++ x :: right).map childItem⟩ : InternalIndexNode K).valueAt left.length =
        some x.2.tree.page := by
      simp [InternalIndexNode.valueAt, childItem]
    rw [List.length_map] at hindex
    simp only [BplusTreeHandler.findLeafInternal, hf.get, topNode, Option.bind_eq_bind, Option.bind_some, hindex,
      hvalue, hfind]

/-- The rounds that the loops are given are enough. -/
theorem Focus.height_lt {t : Tree K n} (hf : Focus ord h Path.top t lo hi) (hw : h.header.Wide) :
    n < h.pool.pageCount := by
  have hcard := hf.layout.card_le
  have hheight := height_le_card hf.ordered (hf.nonempty hw) t.page (Path.top : Path K n).next
  rw [treeCells] at hcard
  simp only [Multiset.card_add, Multiset.card_singleton] at hcard
  omega

theorem Focus.depth_lt {path : Path K n} {t : Tree K n} (hf : Focus ord h path t lo hi) :
    path.depth < h.pool.pageCount := by
  have hcard := hf.layout.card_le
  have hdepth := path.depth_le_card t.page (firstLeaf n t)
  rw [treeCells] at hcard
  simp only [Multiset.card_add, Multiset.card_singleton] at hcard
  omega

theorem findLeaf_spec (hw : h.header.Wide) {t : Tree K n} (hf : Focus ord h Path.top t ⊥ ⊤) {q : K} (hq : ord.Known q) :
    ∃ (path : Path K 0) (page : PageNum) (items : List (K × RID)) (lo hi : B),
      Focus ord h path (leafTree page items) lo hi ∧ lo ≤ ord.key q ∧ ord.key q < hi ∧
      path.before ++ items ++ path.after = contents n t.items ∧ h.findLeaf ops t.page q = some page := by
  obtain ⟨path, leaf, lo, hi, hleaf, hlo, hhi, hentries, hfind⟩ :=
    findLeafInternal_key hw hf hq bot_le (ord.lt_top q) h.pool.pageCount (hf.height_lt hw)
  refine ⟨path, leaf.page, leaf.items, lo, hi, hleaf, hlo, hhi, hentries.trans ?_, hfind⟩
  simp [Path.entries, Path.before, Path.after]

theorem Represents.known {entries : List (K × RID)} (hr : Represents ord h entries) : ∀ x ∈ entries, ord.Known x.1 := by
  rcases hr.tree with ⟨-, rfl, -⟩ | ⟨n, t, hf, rfl⟩
  · simp
  · exact fun x hx => (hf.ordered.sorted.2 x hx).2.1

theorem Represents.sorted {entries : List (K × RID)} (hr : Represents ord h entries) :
    (entries.map fun x => ord.key x.1).Pairwise (· < ·) := by
  rcases hr.tree with ⟨-, rfl, -⟩ | ⟨n, t, hf, rfl⟩
  · simp
  · exact hf.ordered.sorted.1

end Landbase.Index
