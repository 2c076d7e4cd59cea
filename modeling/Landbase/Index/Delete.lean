import Landbase.Index.Focus

/-! # Deletion

`delete_entry` removes the entry from its leaf and, when too few are left, works its way up: a node takes an item from a
neighbour, or is merged with it, in which case the parent has lost an item. `Held` is the invariant of that loop. It is
`Focus` without the lower bound on the size of the node in focus, and it keeps the pages apart that were disposed of but
are still marked until `LatchMemo::release`.

Both ways of rebalancing cut the items of two neighbours anew (`Pair`): a redistribution at another place, a merge not at
all.
-/

namespace Landbase.Index
open Landbase.Lib Landbase.Common
set_option autoImplicit false

variable {K B : Type} {n : ℕ}

/-! ## Moving items between two pages -/

section Pages
variable {pool : DiskBufferPool K} {l r : PageNum} {parent next : Option PageNum}
  {rest : Multiset (PageNum × IndexNode K)}

theorem moveFirstToEnd_layout {front back : Items K n} {x y : K × Val K n}
    (hlay : Layout pool (treeCells n parent (some (firstLeaf n ⟨r, x :: y :: back⟩)) ⟨l, front⟩ +
      (treeCells n parent next ⟨r, x :: y :: back⟩ + rest))) :
    ∃ pool', BplusTreeHandler.moveFirstToEnd pool r l (topNode n parent next ⟨r, x :: y :: back⟩)
        (topNode n parent (some (firstLeaf n ⟨r, x :: y :: back⟩)) ⟨l, front⟩) = some pool' ∧
      Layout pool' (treeCells n parent (some (firstLeaf n ⟨r, y :: back⟩)) ⟨l, front ++ [x]⟩ +
        (treeCells n parent next ⟨r, y :: back⟩ + rest)) := by
  cases n with
  | zero =>
    refine ⟨_, rfl, ?_⟩
    simp only [treeCells_zero] at hlay ⊢
    rw [add_left_comm] at hlay
    have hr := hlay.setPage (topNode 0 parent next ⟨r, y :: back⟩)
    rw [add_left_comm] at hr
    exact hr.setPage (topNode 0 parent (some r) ⟨l, front ++ [x]⟩)
  | succ n =>
    refine ⟨_, rfl, ?_⟩
    have hmoved : Layout pool (itemCells (n + 1) r (some (firstLeaf n y.2.tree)) [x] +
        ({(r, .internal ⟨parent, (x :: y :: back).map childItem⟩)} + (itemCells (n + 1) r next (y :: back) +
          ({(l, .internal ⟨parent, front.map childItem⟩)} + (itemCells (n + 1) l (some (firstLeaf n x.2.tree)) front +
            rest))))) := by
      refine hlay.of_eq ?_
      simp only [treeCells_succ, firstLeaf_cons, itemCells_cons, itemCells_nil, nextLeaf_cons, nextLeaf_nil]
      abel
    have hlink := hmoved.setParents l
    rw [add_left_comm] at hlink
    have hr := hlink.setPage (.internal ⟨parent, (y :: back).map childItem⟩)
    have hleft : Layout _ ({(l, .internal ⟨parent, front.map childItem⟩)} +
        (itemCells (n + 1) l (some (firstLeaf n y.2.tree)) [x] + ({(r, .internal ⟨parent, (y :: back).map childItem⟩)} +
          (itemCells (n + 1) r next (y :: back) + (itemCells (n + 1) l (some (firstLeaf n x.2.tree)) front +
            rest))))) := hr.of_eq (by abel)
    refine (hleft.setPage (.internal ⟨parent, front.map childItem ++ [childItem x]⟩)).of_eq ?_
    simp only [treeCells_succ, firstLeaf_cons, itemCells_append, itemCells_cons, itemCells_nil, nextLeaf_cons,
      nextLeaf_nil, List.map_append, List.map_cons, List.map_nil]
    abel

theorem moveLastToFront_leaf (pool : DiskBufferPool K) (l r : PageNum) (parent next1 next2 : Option PageNum)
    (front back : List (K × RID)) (x : K × RID) :
    BplusTreeHandler.moveLastToFront pool l r (.leaf ⟨parent, next1, front ++ [x]⟩) (.leaf ⟨parent, next2, back⟩) =
      some ((pool.setPage l (.leaf ⟨parent, next1, front⟩)).setPage r (.leaf ⟨parent, next2, x :: back⟩)) := by
  simp [BplusTreeHandler.moveLastToFront, LeafIndexNode.moveLastToFront]

theorem moveLastToFront_internal (pool : DiskBufferPool K) (l r : PageNum) (parent : Option PageNum)
    (front back : Items K (n + 1)) (x : K × Val K (n + 1)) :
    BplusTreeHandler.moveLastToFront pool l r (.internal ⟨parent, (front ++ [x]).map childItem⟩)
        (.internal ⟨parent, back.map childItem⟩) =
      some (((pool.setParents ([x].map fun x => x.2.tree.page) r).setPage l
        (.internal ⟨parent, front.map childItem⟩)).setPage r (.internal ⟨parent, (x :: back).map childItem⟩)) := by
  simp [BplusTreeHandler.moveLastToFront, childItem]

theorem moveLastToFront_layout {front back : Items K n} {x y : K × Val K n}
    (hlay : Layout pool (treeCells n parent (some (firstLeaf n ⟨r, y :: back⟩)) ⟨l, front ++ [x]⟩ +
      (treeCells n parent next ⟨r, y :: back⟩ + rest))) :
    ∃ pool', BplusTreeHandler.moveLastToFront pool l r
        (topNode n parent (some (firstLeaf n ⟨r, y :: back⟩)) ⟨l, front ++ [x]⟩)
        (topNode n parent next ⟨r, y :: back⟩) = some pool' ∧
      Layout pool' (treeCells n parent (some (firstLeaf n ⟨r, x :: y :: back⟩)) ⟨l, front⟩ +
        (treeCells n parent next ⟨r, x :: y :: back⟩ + rest)) := by
  cases n with
  | zero =>
    refine ⟨_, moveLastToFront_leaf pool l r parent (some r) next front (y :: back) x, ?_⟩
    simp only [treeCells_zero] at hlay ⊢
    have hl := hlay.setPage (topNode 0 parent (some r) ⟨l, front⟩)
    rw [add_left_comm] at hl
    have hr := hl.setPage (topNode 0 parent next ⟨r, x :: y :: back⟩)
    rw [add_left_comm] at hr
    exact hr
  | succ n =>
    refine ⟨_, moveLastToFront_internal pool l r parent front (y :: back) x, ?_⟩
    have hmoved : Layout pool (itemCells (n + 1) l (some (firstLeaf n y.2.tree)) [x] +
        ({(l, .internal ⟨parent, (front ++ [x]).map childItem⟩)} + (itemCells (n + 1) r next (y :: back) +
          ({(r, .internal ⟨parent, (y :: back).map childItem⟩)} + (itemCells (n + 1) l (some (firstLeaf n x.2.tree)) front +
            rest))))) := by
      refine hlay.of_eq ?_
      simp only [treeCells_succ, firstLeaf_cons, itemCells_append, itemCells_nil, itemCells_cons, nextLeaf_cons,
        nextLeaf_nil]
      abel
    have hlink := hmoved.setParents r
    rw [add_left_comm] at hlink
    have hl := hlink.setPage (.internal ⟨parent, front.map childItem⟩)
    have hright : Layout _ ({(r, .internal ⟨parent, (y :: back).map childItem⟩)} +
        (itemCells (n + 1) r (some (firstLeaf n y.2.tree)) [x] + ({(l, .internal ⟨parent, front.map childItem⟩)} +
          (itemCells (n + 1) r next (y :: back) + (itemCells (n + 1) l (some (firstLeaf n x.2.tree)) front +
            rest))))) := hl.of_eq (by abel)
    refine (hright.setPage (.internal ⟨parent, (x :: y :: back).map childItem⟩)).of_eq ?_
    simp only [treeCells_succ, firstLeaf_cons, itemCells_nil, itemCells_cons, nextLeaf_cons, nextLeaf_nil]
    abel

theorem moveTo_layout {front back : Items K n} {y : K × Val K n}
    (hlay : Layout pool (treeCells n parent (some (firstLeaf n ⟨r, y :: back⟩)) ⟨l, front⟩ +
      (treeCells n parent next ⟨r, y :: back⟩ + rest))) :
    ∃ pool', BplusTreeHandler.moveTo pool r l (topNode n parent next ⟨r, y :: back⟩)
        (topNode n parent (some (firstLeaf n ⟨r, y :: back⟩)) ⟨l, front⟩) = some pool' ∧
      Layout pool' (treeCells n parent next ⟨l, front ++ y :: back⟩ +
        ({(r, topNode n parent next ⟨r, []⟩)} + rest)) := by
  cases n with
  | zero =>
    refine ⟨_, rfl, ?_⟩
    simp only [treeCells_zero] at hlay ⊢
    have hl := hlay.setPage (topNode 0 parent next ⟨l, front ++ y :: back⟩)
    rw [add_left_comm] at hl
    have hr := hl.setPage (topNode 0 parent next ⟨r, []⟩)
    rw [add_left_comm] at hr
    exact hr
  | succ n =>
    refine ⟨_, rfl, ?_⟩
    have hmoved : Layout pool (itemCells (n + 1) r next (y :: back) + ({(l, .internal ⟨parent, front.map childItem⟩)} +
        ({(r, .internal ⟨parent, (y :: back).map childItem⟩)} + (itemCells (n + 1) l (some (firstLeaf n y.2.tree)) front +
          rest)))) := by
      refine hlay.of_eq ?_
      simp only [treeCells_succ, firstLeaf_cons]
      abel
    have hlink := hmoved.setParents l
    rw [add_left_comm] at hlink
    have hl := hlink.setPage (.internal ⟨parent, front.map childItem ++ (y :: back).map childItem⟩)
    have hright : Layout _ ({(r, .internal ⟨parent, (y :: back).map childItem⟩)} +
        ({(l, .internal ⟨parent, front.map childItem ++ (y :: back).map childItem⟩)} +
          (itemCells (n + 1) l next (y :: back) + (itemCells (n + 1) l (some (firstLeaf n y.2.tree)) front +
            rest)))) := hl.of_eq (by abel)
    have hr := hright.setPage (topNode (n + 1) parent next ⟨r, []⟩)
    have hchildren : ((y :: back).map childItem).map Prod.snd = (y :: back).map fun x => x.2.tree.page := by
      rw [List.map_map]; rfl
    simp only [hchildren]
    refine hr.of_eq ?_
    simp only [treeCells_succ, itemCells_append, nextLeaf_cons, List.map_append]
    abel

end Pages

/-! ## The invariant of the way up -/

variable [Preorder B] [BoundedOrder B] {ops : KeyOps K} (ord : KeyOrder ops B)

/-- The pages in use are `cells`, besides those that wait to be freed. -/
def Holds (h : BplusTreeHandler K) (cells : Multiset (PageNum × IndexNode K)) : Prop :=
  ∃ garbage, addrs garbage = (h.disposedPages : Multiset PageNum) ∧ Layout h.pool (cells + garbage)

/-- The invariant of the tree with a node in focus that may have lost an item. -/
structure Held (h : BplusTreeHandler K) {n : ℕ} (path : Path K n) (t : Tree K n) (lo hi : B) : Prop where
  layout : Holds h (path.cells t.page (firstLeaf n t) + treeCells n path.parent path.next t)
  root : h.header.rootPage = some (path.rootPage t.page)
  pathOrdered : path.Ordered ord.key lo hi
  pathOccupied : path.Occupied h.header
  ordered : Seg ord.key n lo hi t.items
  occupied : Occupied h.header n t.items
  maxSize : t.items.length ≤ h.header.maxAt n

/-- Two neighbours below a node whose size is admissible; their own sizes may not be. -/
structure Pair (h : BplusTreeHandler K) {n : ℕ} (up : Path K (n + 1)) (page : PageNum) (left right : Items K (n + 1))
    (kl : K) (l : Tree K n) (kr : K) (r : Tree K n) (lo hi : B) : Prop where
  layout : Holds h (up.cells page (Path.firstOf left (firstLeaf n l)) +
    treeCells (n + 1) up.parent up.next ⟨page, left ++ (kl, toVal l) :: (kr, toVal r) :: right⟩)
  root : h.header.rootPage = some (up.rootPage page)
  pathOrdered : up.Ordered ord.key lo hi
  pathOccupied : up.Occupied h.header
  chain : Seg ord.key (n + 1) lo hi (left ++ (kl, toVal l) :: (kr, toVal r) :: right)
  leftOccupied : Occupied h.header (n + 1) left
  rightOccupied : Occupied h.header (n + 1) right
  nodesOccupied : Occupied h.header n (l.items ++ r.items)
  minSize : up.minItems h.header ≤ left.length + 2 + right.length
  maxSize : left.length + 2 + right.length ≤ h.header.internalMaxSize

variable {ord} {h : BplusTreeHandler K} {lo hi : B}

/-- `LatchMemo::release` frees the pages that are not in use any more. -/
theorem Holds.release {cells : Multiset (PageNum × IndexNode K)} (hh : Holds h cells) : Layout h.release.pool cells := by
  obtain ⟨garbage, haddrs, hlay⟩ := hh
  unfold BplusTreeHandler.release
  simp only
  generalize h.disposedPages = pages at haddrs
  generalize h.pool = pool at hlay ⊢
  induction pages generalizing pool garbage with
  | nil =>
    have hzero : garbage = 0 := by simpa [addrs] using haddrs
    rwa [hzero, add_zero] at hlay
  | cons p pages ih =>
    obtain ⟨⟨p', node⟩, hmem, rfl⟩ : ∃ c ∈ garbage, c.1 = p := by
      have hp : p ∈ addrs garbage := by rw [haddrs]; simp
      exact Multiset.mem_map.mp hp
    obtain ⟨garbage, rfl⟩ := Multiset.exists_cons_of_mem hmem
    have haddrs' : addrs garbage = (pages : Multiset PageNum) := by
      rw [addrs, Multiset.map_cons, ← Multiset.cons_coe] at haddrs
      exact (Multiset.cons_inj_right p').mp haddrs
    have hfirst : Layout pool ({(p', node)} + (cells + garbage)) := by
      rw [← Multiset.singleton_add, add_left_comm] at hlay
      exact hlay
    exact ih garbage haddrs' (pool.disposePage p') hfirst.disposePage

theorem Held.focus {path : Path K n} {t : Tree K n} (hh : Held ord h path t lo hi)
    (hmin : path.minItems h.header ≤ t.items.length) : Focus ord h.release path t lo hi :=
  ⟨hh.layout.release, hh.root, hh.pathOrdered, hh.pathOccupied, hh.ordered, hh.occupied, hmin, hh.maxSize⟩

theorem Held.get {path : Path K n} {t : Tree K n} (hh : Held ord h path t lo hi) :
    h.pool.getThisPage t.page = some (topNode n path.parent path.next t) := by
  obtain ⟨garbage, -, hlay⟩ := hh.layout
  exact hlay.get_of_mem (by simp [treeCells])

/-! ## Two neighbours -/

namespace Pair

variable {up : Path K (n + 1)} {page : PageNum} {left right : Items K (n + 1)} {kl kr : K} {l r : Tree K n}

theorem segment (hp : Pair ord h up page left right kl l kr r lo hi) :
    ∃ lo' hi', SepHole ord.key (SegTree ord.key n) lo hi left kl right lo' hi' ∧
      Seg ord.key n lo' hi' (l.items ++ r.items) ∧ l.items ≠ [] ∧ r.items ≠ [] := by
  have hchain : SepChain ord.key (SegTree ord.key n) lo hi (left ++ (kl, toVal l) :: [(kr, toVal r)] ++ right) := by
    rw [List.append_assoc]
    exact hp.chain
  obtain ⟨lo', hi', hhole, hmid⟩ := sepHole_of_chain hchain
  obtain ⟨-, hlt, ⟨hlne, hl⟩, -, hlt', ⟨hrne, hr⟩, -⟩ := hmid
  exact ⟨lo', hi', hhole, hl.join hlne hr hrne (ne_of_gt (KeyOrder.known_of_lt hlt)) (le_of_lt hlt) (le_of_lt hlt'), hlne, hrne⟩

theorem recut (hp : Pair ord h up page left right kl l kr r lo hi) {front back : Items K n} {y : K × Val K n}
    (hitems : l.items ++ r.items = front ++ y :: back) (hfront : front ≠ []) :
    Seg ord.key (n + 1) lo hi
      (left ++ (kl, toVal ⟨l.page, front⟩) :: (y.1, toVal ⟨r.page, y :: back⟩) :: right) := by
  obtain ⟨lo', hi', hhole, hseg, -, -⟩ := hp.segment
  rw [hitems] at hseg
  obtain ⟨hl, hr, hlt, hlt'⟩ := hseg.cut hfront (List.cons_ne_nil y back)
  have hmid : SepChain ord.key (SegTree ord.key n) lo' hi'
      [(kl, toVal ⟨l.page, front⟩), (y.1, toVal ⟨r.page, y :: back⟩)] :=
    ⟨hhole.first, hlt, ⟨hfront, hl⟩, Or.inr rfl, hlt', ⟨List.cons_ne_nil y back, hr⟩, trivial⟩
  have hfill := SepHole.fill hhole hmid
  rwa [List.append_assoc] at hfill

theorem merge (hp : Pair ord h up page left right kl l kr r lo hi) :
    Seg ord.key (n + 1) lo hi (left ++ (kl, toVal ⟨l.page, l.items ++ r.items⟩) :: right) := by
  obtain ⟨lo', hi', hhole, hseg, hlne, -⟩ := hp.segment
  have hmid : SepChain ord.key (SegTree ord.key n) lo' hi' [(kl, toVal ⟨l.page, l.items ++ r.items⟩)] :=
    ⟨hhole.first, hhole.lt, ⟨List.append_ne_nil_of_left_ne_nil hlne _, hseg⟩, trivial⟩
  have hfill := SepHole.fill hhole hmid
  rwa [List.append_assoc] at hfill

theorem layoutNodes (hp : Pair ord h up page left right kl l kr r lo hi) :
    ∃ garbage, addrs garbage = (h.disposedPages : Multiset PageNum) ∧
      Layout h.pool (treeCells n (some page) (some (firstLeaf n r)) l +
        (treeCells n (some page) (nextLeaf (n + 1) right up.next) r +
          ({(page, .internal ⟨up.parent, (left ++ (kl, toVal l) :: (kr, toVal r) :: right).map childItem⟩)} +
            (up.cells page (Path.firstOf left (firstLeaf n l)) + itemCells (n + 1) page (some (firstLeaf n l)) left +
              itemCells (n + 1) page up.next right + garbage)))) := by
  obtain ⟨garbage, haddrs, hlay⟩ := hp.layout
  refine ⟨garbage, haddrs, hlay.of_eq ?_⟩
  simp only [treeCells_succ, itemCells_append, itemCells_cons, nextLeaf_cons, toVal_tree]
  abel

theorem setKeyAt_items (parent : Option PageNum) (left right : Items K (n + 1)) (kl kr k : K) (l r : Tree K n) :
    InternalIndexNode.setKeyAt ⟨parent, (left ++ (kl, toVal l) :: (kr, toVal r) :: right).map childItem⟩
        (left.length + 1) k =
      ⟨parent, (left ++ (kl, toVal l) :: (k, toVal r) :: right).map childItem⟩ := by
  unfold InternalIndexNode.setKeyAt
  induction left with
  | nil => rfl
  | cons x left ih =>
    simp only [List.cons_append, List.map_cons, List.length_cons, List.modify_succ_cons, InternalIndexNode.mk.injEq,
      List.cons.injEq, true_and] at ih ⊢
    exact ih

theorem remove_items (parent : Option PageNum) (left right : Items K (n + 1)) (kl kr : K) (l r : Tree K n) :
    InternalIndexNode.remove ⟨parent, (left ++ (kl, toVal l) :: (kr, toVal r) :: right).map childItem⟩
        (left.length + 1) =
      ⟨parent, (left ++ (kl, toVal l) :: right).map childItem⟩ := by
  have hitems : (left ++ (kl, toVal l) :: (kr, toVal r) :: right).map childItem =
      (left ++ [(kl, toVal l)]).map childItem ++ childItem (kr, toVal r) :: right.map childItem := by simp
  unfold InternalIndexNode.remove
  simp only [hitems]
  rw [List.take_left' (by simp), ← List.drop_drop, List.drop_left' (by simp)]
  simp

theorem rebuild (hp : Pair ord h up page left right kl l kr r lo hi) {front back : Items K n} {y : K × Val K n}
    (hitems : l.items ++ r.items = front ++ y :: back) (hfront : front ≠ []) {pool : DiskBufferPool K}
    {garbage : Multiset (PageNum × IndexNode K)} (haddrs : addrs garbage = (h.disposedPages : Multiset PageNum))
    (hlay : Layout pool (treeCells n (some page) (some (firstLeaf n ⟨r.page, y :: back⟩)) ⟨l.page, front⟩ +
      (treeCells n (some page) (nextLeaf (n + 1) right up.next) ⟨r.page, y :: back⟩ +
        ({(page, .internal ⟨up.parent, (left ++ (kl, toVal l) :: (kr, toVal r) :: right).map childItem⟩)} +
          (up.cells page (Path.firstOf left (firstLeaf n l)) + itemCells (n + 1) page (some (firstLeaf n l)) left +
            itemCells (n + 1) page up.next right + garbage))))) :
    Pair ord { h with pool := pool.setPage page (.internal (InternalIndexNode.setKeyAt
      ⟨up.parent, (left ++ (kl, toVal l) :: (kr, toVal r) :: right).map childItem⟩ (left.length + 1) y.1)) } up page
      left right kl ⟨l.page, front⟩ y.1 ⟨r.page, y :: back⟩ lo hi := by
  refine ⟨⟨garbage, haddrs, ?_⟩, hp.root, hp.pathOrdered, hp.pathOccupied, hp.recut hitems hfront, hp.leftOccupied,
    hp.rightOccupied, hitems ▸ hp.nodesOccupied, hp.minSize, hp.maxSize⟩
  obtain ⟨-, -, -, -, hlne, -⟩ := hp.segment
  have hfirst : firstLeaf n l = firstLeaf n ⟨l.page, front⟩ := firstLeaf_congr hlne hfront hitems
  rw [hfirst] at hlay
  have hparent : Layout pool ({(page, .internal ⟨up.parent,
      (left ++ (kl, toVal l) :: (kr, toVal r) :: right).map childItem⟩)} +
      (treeCells n (some page) (some (firstLeaf n ⟨r.page, y :: back⟩)) ⟨l.page, front⟩ +
        treeCells n (some page) (nextLeaf (n + 1) right up.next) ⟨r.page, y :: back⟩ +
        (up.cells page (Path.firstOf left (firstLeaf n ⟨l.page, front⟩)) +
          itemCells (n + 1) page (some (firstLeaf n ⟨l.page, front⟩)) left + itemCells (n + 1) page up.next right +
          garbage))) := hlay.of_eq (by abel)
  rw [setKeyAt_items]
  refine (hparent.setPage _).of_eq ?_
  simp only [treeCells_succ, itemCells_append, itemCells_cons, nextLeaf_cons, toVal_tree, List.map_append, List.map_cons,
    childItem]
  abel

theorem pages (hp : Pair ord h up page left right kl l kr r lo hi) :
    h.pool.getThisPage l.page = some (topNode n (some page) (some (firstLeaf n r)) l) ∧
      h.pool.getThisPage r.page = some (topNode n (some page) (nextLeaf (n + 1) right up.next) r) ∧
      h.pool.getInternal page =
        some ⟨up.parent, (left ++ (kl, toVal l) :: (kr, toVal r) :: right).map childItem⟩ := by
  obtain ⟨garbage, -, hlay⟩ := hp.layoutNodes
  exact ⟨hlay.get_of_mem (by simp [treeCells]), hlay.get_of_mem (by simp [treeCells]),
    DiskBufferPool.getInternal_of_get (hlay.get_of_mem (by simp))⟩

theorem redistribute_right {x y : K × Val K n} {back : Items K n}
    (hp : Pair ord h up page [] right kl l kr r lo hi) (hr : r.items = x :: y :: back) :
    ∃ h', h.redistribute r.page l.page page 0 = some (.success, h') ∧ h'.header = h.header ∧
      Pair ord h' up page [] right kl ⟨l.page, l.items ++ [x]⟩ y.1 ⟨r.page, y :: back⟩ lo hi := by
  obtain ⟨garbage, haddrs, hlay⟩ := hp.layoutNodes
  obtain ⟨hleft, hright, hparent⟩ := hp.pages
  obtain ⟨lp, li⟩ := l
  obtain ⟨rp, ri⟩ := r
  subst hr
  obtain ⟨pool, hmove, hpool⟩ := moveFirstToEnd_layout hlay
  have hnew : pool.getThisPage rp = some (topNode n (some page) (nextLeaf (n + 1) right up.next) ⟨rp, y :: back⟩) :=
    hpool.get_of_mem (by simp [treeCells])
  refine ⟨_, ?_, ?_, hp.rebuild (by simp) (by simp) haddrs hpool⟩
  · unfold BplusTreeHandler.redistribute
    simp only [hparent, hright, hleft, Option.bind_eq_bind, Option.bind_some, if_true, hmove, hnew, topNode_keyAt,
      List.getElem?_cons_zero, Option.map_some]
    rfl
  · rfl

theorem redistribute_left {x : K × Val K n} {front : Items K n}
    (hp : Pair ord h up page left right kl l kr r lo hi) (hl : l.items = front ++ [x]) (hfront : front ≠ []) :
    ∃ h', h.redistribute l.page r.page page (left.length + 1) = some (.success, h') ∧ h'.header = h.header ∧
      Pair ord h' up page left right kl ⟨l.page, front⟩ x.1 ⟨r.page, x :: r.items⟩ lo hi := by
  obtain ⟨garbage, haddrs, hlay⟩ := hp.layoutNodes
  obtain ⟨hleft, hright, hparent⟩ := hp.pages
  obtain ⟨-, -, -, -, -, hrne⟩ := hp.segment
  obtain ⟨lp, li⟩ := l
  obtain ⟨rp, ri⟩ := r
  obtain ⟨y, back, rfl⟩ := List.exists_cons_of_ne_nil hrne
  subst hl
  obtain ⟨pool, hmove, hpool⟩ := moveLastToFront_layout hlay
  have hnew : pool.getThisPage rp =
      some (topNode n (some page) (nextLeaf (n + 1) right up.next) ⟨rp, x :: y :: back⟩) :=
    hpool.get_of_mem (by simp [treeCells])
  refine ⟨_, ?_, ?_, hp.rebuild (by simp) hfront haddrs hpool⟩
  · unfold BplusTreeHandler.redistribute
    simp only [hparent, hright, hleft, Option.bind_eq_bind, Option.bind_some, Nat.add_eq_zero_iff, one_ne_zero, and_false,
      if_false, hmove, hnew, topNode_keyAt, List.getElem?_cons_zero, Option.map_some]
    rfl
  · rfl

theorem coalesce_spec (hp : Pair ord h up page left right kl l kr r lo hi) {neighborFrame frame : PageNum} {index : ℕ}
    (hframes : (left = [] ∧ index = 0 ∧ neighborFrame = r.page ∧ frame = l.page) ∨
      (index = left.length + 1 ∧ neighborFrame = l.page ∧ frame = r.page))
    (hsize : SizeOk h.header n (l.items ++ r.items).length) :
    ∃ h', h.coalesce neighborFrame frame page index = some h' ∧ h'.header = h.header ∧
      Held ord h' up ⟨page, left ++ (kl, toVal ⟨l.page, l.items ++ r.items⟩) :: right⟩ lo hi := by
  obtain ⟨garbage, haddrs, hlay⟩ := hp.layoutNodes
  obtain ⟨hleft, hright, hparent⟩ := hp.pages
  obtain ⟨-, -, -, -, hlne, hrne⟩ := hp.segment
  have hchosen : (if index = 0 then (frame, neighborFrame, index + 1) else (neighborFrame, frame, index)) =
      (l.page, r.page, left.length + 1) := by
    rcases hframes with ⟨rfl, rfl, rfl, rfl⟩ | ⟨rfl, rfl, rfl⟩
    · rfl
    · rw [if_neg (by omega)]
  have hset : Layout (h.pool.setPage page (.internal ⟨up.parent, (left ++ (kl, toVal l) :: right).map childItem⟩))
      (treeCells n (some page) (some (firstLeaf n r)) l +
        (treeCells n (some page) (nextLeaf (n + 1) right up.next) r +
          ({(page, .internal ⟨up.parent, (left ++ (kl, toVal l) :: right).map childItem⟩)} +
            (up.cells page (Path.firstOf left (firstLeaf n l)) + itemCells (n + 1) page (some (firstLeaf n l)) left +
              itemCells (n + 1) page up.next right + garbage)))) := by
    rw [add_left_comm _ {(page, _)}, add_left_comm _ {(page, _)}] at hlay ⊢
    exact hlay.setPage _
  have hmerge := hp.merge
  obtain ⟨lp, li⟩ := l
  obtain ⟨rp, ri⟩ := r
  obtain ⟨y, back, rfl⟩ := List.exists_cons_of_ne_nil hrne
  obtain ⟨pool, hmove, hpool⟩ := moveTo_layout hset
  have hfirst : firstLeaf n ⟨lp, li⟩ = firstLeaf n ⟨lp, li ++ y :: back⟩ :=
    firstLeaf_congr hlne (List.append_ne_nil_of_left_ne_nil hlne _) (List.append_nil (li ++ y :: back)).symm
  rw [hfirst] at hpool
  refine ⟨{ h with pool := pool, disposedPages := h.disposedPages ++ [rp] }, ?_, rfl, ?_⟩
  · unfold BplusTreeHandler.coalesce
    simp only [hparent, Option.bind_eq_bind, Option.bind_some, hchosen, hleft, hright, remove_items, hmove]
    rfl
  · refine ⟨⟨{(rp, topNode n (some page) (nextLeaf (n + 1) right up.next) ⟨rp, []⟩)} + garbage, ?_, ?_⟩, hp.root,
      hp.pathOrdered, hp.pathOccupied, hmerge, ?_, ?_⟩
    · rw [addrs_add, haddrs, ← Multiset.coe_add, add_comm]
      rfl
    · refine hpool.of_eq ?_
      simp only [treeCells_succ, firstLeaf_items, itemCells_append, itemCells_cons, nextLeaf_cons, toVal_tree,
        List.map_append, List.map_cons, childItem]
      abel
    · rw [occupied_append, occupied_cons]
      exact ⟨hp.leftOccupied, ⟨hsize, hp.nodesOccupied⟩, hp.rightOccupied⟩
    · have hmax := hp.maxSize
      simp only [List.length_append, List.length_cons, IndexFileHeader.maxAt]
      omega

theorem held (hp : Pair ord h up page left right kl l kr r lo hi) (hl : SizeOk h.header n l.items.length)
    (hr : SizeOk h.header n r.items.length) :
    Held ord h up ⟨page, left ++ (kl, toVal l) :: (kr, toVal r) :: right⟩ lo hi ∧
      up.minItems h.header ≤ (left ++ (kl, toVal l) :: (kr, toVal r) :: right).length := by
  have hlen : (left ++ (kl, toVal l) :: (kr, toVal r) :: right).length = left.length + 2 + right.length := by
    simp; omega
  have hocc := occupied_append.mp hp.nodesOccupied
  refine ⟨⟨?_, hp.root, hp.pathOrdered, hp.pathOccupied, hp.chain, ?_, ?_⟩, ?_⟩
  · rw [firstLeaf_items]
    exact hp.layout
  · rw [occupied_append, occupied_cons, occupied_cons]
    exact ⟨hp.leftOccupied, ⟨hl, hocc.1⟩, ⟨hr, hocc.2⟩, hp.rightOccupied⟩
  · rw [hlen]; exact hp.maxSize
  · rw [hlen]; exact hp.minSize

end Pair

/-! ## Finding the neighbour -/

section Up
variable {page : PageNum} {left right : Items K (n + 1)} {k : K} {up : Path K (n + 1)} {t : Tree K n}

theorem Held.parent (hh : Held ord h (Path.step page left k right up) t lo hi) (hne : t.items ≠ []) :
    ∃ lo' hi', up.Ordered ord.key lo' hi' ∧ SepHole ord.key (SegTree ord.key n) lo' hi' left k right lo hi ∧
      Seg ord.key (n + 1) lo' hi' (left ++ (k, toVal t) :: right) ∧
      Holds h (up.cells page (Path.firstOf left (firstLeaf n t)) +
        treeCells (n + 1) up.parent up.next ⟨page, left ++ (k, toVal t) :: right⟩) := by
  obtain ⟨lo', hi', hup, hhole⟩ := hh.pathOrdered
  have hmid : SepChain ord.key (SegTree ord.key n) lo hi [(k, toVal t)] :=
    ⟨hhole.first, hhole.lt, ⟨hne, hh.ordered⟩, trivial⟩
  have hfill := SepHole.fill hhole hmid
  rw [List.append_assoc] at hfill
  refine ⟨lo', hi', hup, hhole, hfill, ?_⟩
  have hlay := hh.layout
  have hcells := Path.step_cells page left right (k, toVal t) up
  rw [toVal_tree] at hcells
  rw [hcells, firstLeaf_items] at hlay
  exact hlay

theorem Held.pairRight {nb : K × Val K (n + 1)} (hh : Held ord h (Path.step page [] k (nb :: right) up) t lo hi)
    (hne : t.items ≠ []) :
    ∃ lo' hi', Pair ord h up page [] right k t nb.1 nb.2.tree lo' hi' ∧ SizeOk h.header n nb.2.tree.items.length := by
  obtain ⟨lo', hi', hup, -, hchain, hlay⟩ := hh.parent hne
  obtain ⟨⟨hmin, hmax⟩, hoccl, hoccr, hoccup⟩ := hh.pathOccupied
  rw [occupied_cons] at hoccr
  refine ⟨lo', hi', ⟨hlay, hh.root, hup, hoccup, hchain, hoccl, hoccr.2, ?_, ?_, ?_⟩, hoccr.1.1⟩
  · exact occupied_append.mpr ⟨hh.occupied, hoccr.1.2⟩
  · rw [List.length_cons] at hmin; omega
  · rw [List.length_cons] at hmax; omega

theorem Held.pairLeft {nb : K × Val K (n + 1)}
    (hh : Held ord h (Path.step page (left ++ [nb]) k right up) t lo hi) (hne : t.items ≠ []) :
    ∃ lo' hi', Pair ord h up page left right nb.1 nb.2.tree k t lo' hi' ∧
      SizeOk h.header n nb.2.tree.items.length := by
  obtain ⟨lo', hi', hup, -, hchain, hlay⟩ := hh.parent hne
  obtain ⟨⟨hmin, hmax⟩, hoccl, hoccr, hoccup⟩ := hh.pathOccupied
  rw [occupied_append, occupied_cons] at hoccl
  rw [List.append_assoc] at hchain hlay
  have hfirst : Path.firstOf (left ++ [nb]) (firstLeaf n t) = Path.firstOf left (firstLeaf n nb.2.tree) := by
    cases left <;> rfl
  rw [hfirst] at hlay
  refine ⟨lo', hi', ⟨hlay, hh.root, hup, hoccup, hchain, hoccl.1, hoccr, ?_, ?_, ?_⟩, hoccl.2.1.1⟩
  · exact occupied_append.mpr ⟨hoccl.2.1.2, hh.occupied⟩
  · rw [List.length_append, List.length_singleton] at hmin; omega
  · rw [List.length_append, List.length_singleton] at hmax; omega

theorem Held.lookup (hh : Held ord h (Path.step page left k right up) t lo hi) (hne : t.items ≠ [])
    (hlen : n = 0 ∨ 2 ≤ t.items.length) :
    ∃ q, (topNode n (Path.step page left k right up).parent (Path.step page left k right up).next t).keyAt
        (t.items.length - 1) = some q ∧
      (InternalIndexNode.lookup ops ⟨up.parent, (left ++ (k, toVal t) :: right).map childItem⟩ q).1 = left.length := by
  obtain ⟨lo', hi', -, hhole, hchain, -⟩ := hh.parent hne
  obtain ⟨x, hx, hlo, hknown, hhi⟩ := last_key hh.ordered hne hlen
  refine ⟨x.1, by rw [topNode_keyAt, hx]; rfl, ?_⟩
  have hroutes := routes_of_chain (x := (k, toVal t)) ord hchain hknown
    (fun hleft => by rw [hhole.lower, if_neg hleft] at hlo; exact hlo) (by rw [← hhole.upper]; exact hhi)
  have hitems : (⟨up.parent, (left ++ (k, toVal t) :: right).map childItem⟩ : InternalIndexNode K).items =
      left.map childItem ++ childItem (k, toVal t) :: right.map childItem := by rw [List.map_append, List.map_cons]
  rw [(internal_lookup ord hitems hroutes).1, List.length_map]

theorem minSize_topNode (header : IndexFileHeader) (n : ℕ) (parent next : Option PageNum) (t : Tree K n) :
    header.minSize (topNode n parent next t) = header.maxAt n - header.maxAt n / 2 := by
  simp only [IndexFileHeader.minSize, maxSize_topNode]

theorem Held.round (hh : Held ord h (Path.step page left k right up) t lo hi) (hne : t.items ≠ [])
    (hlen : n = 0 ∨ 2 ≤ t.items.length) (hshort : t.items.length < h.header.maxAt n - h.header.maxAt n / 2)
    {nb : Tree K n} {parent next : Option PageNum} (hnb : h.pool.getThisPage nb.page = some (topNode n parent next nb))
    (hpage : (if left.length = 0 then
        InternalIndexNode.valueAt ⟨up.parent, (left ++ (k, toVal t) :: right).map childItem⟩ 1
      else InternalIndexNode.valueAt ⟨up.parent, (left ++ (k, toVal t) :: right).map childItem⟩ (left.length - 1)) =
        some nb.page) (fuel : ℕ) :
    BplusTreeHandler.coalesceOrRedistribute ops (fuel + 1) h t.page =
      if h.header.maxAt n < t.items.length + nb.items.length then h.redistribute nb.page t.page page left.length
      else (h.coalesce nb.page t.page page left.length).bind fun h' =>
        BplusTreeHandler.coalesceOrRedistribute ops fuel h' page := by
  obtain ⟨q, hq, hindex⟩ := hh.lookup hne hlen
  obtain ⟨-, -, -, -, -, garbage, -, hlay⟩ := hh.parent hne
  have hparent : h.pool.getInternal page = some ⟨up.parent, (left ++ (k, toVal t) :: right).map childItem⟩ :=
    DiskBufferPool.getInternal_of_get (hlay.get_of_mem (by simp [treeCells_succ]))
  have hvalue : InternalIndexNode.valueAt ⟨up.parent, (left ++ (k, toVal t) :: right).map childItem⟩ left.length =
      some t.page := by
    simp [InternalIndexNode.valueAt, childItem]
  rw [BplusTreeHandler.coalesceOrRedistribute]
  simp only [hh.get, Option.bind_eq_bind, Option.bind_some, minSize_topNode, topNode_size, not_le.mpr hshort, if_false,
    topNode_parentPageNum, Path.parent_step, hparent]
  rw [Path.parent_step] at hq
  simp only [hq, Option.bind_some, hindex, hvalue, ne_eq, not_true_eq_false, if_false, maxSize_topNode]
  split at hpage
  · next hzero => rw [if_pos hzero, hpage, Option.bind_some, hnb, Option.bind_some, topNode_size]
  · next hzero => rw [if_neg hzero, hpage, Option.bind_some, hnb, Option.bind_some, topNode_size]

end Up

/-! ## The way up -/

/-- The outcome: after `release`, a well-formed tree with these entries under the size limits of `h`. -/
structure Trimmed (ord : KeyOrder ops B) (h h' : BplusTreeHandler K) (entries : List (K × RID)) : Prop where
  limits : ∃ rootPage, h'.header = { h.header with rootPage := rootPage }
  represents : Represents ord h'.release entries

theorem Held.done {path : Path K n} {t : Tree K n} (hh : Held ord h path t lo hi) (hw : h.header.Wide)
    (hmin : path.minItems h.header ≤ t.items.length) : Trimmed ord h h (path.entries t) := by
  obtain ⟨m, r, hr, hcontents⟩ := (hh.focus hmin).toRoot hw
  exact ⟨⟨_, rfl⟩, hw, rfl, Or.inr ⟨m, r, hr, hcontents.symm⟩⟩

theorem Trimmed.of_header {h₁ h₂ : BplusTreeHandler K} {entries : List (K × RID)} (ht : Trimmed ord h₁ h₂ entries)
    (hheader : h₁.header = h.header) : Trimmed ord h h₂ entries := by
  obtain ⟨hlimits, hr⟩ := ht
  rw [hheader] at hlimits
  exact ⟨hlimits, hr⟩

theorem adjustRoot_spec {t : Tree K n} (hh : Held ord h Path.top t lo hi) (hw : h.header.Wide)
    (hmin : (Path.top : Path K n).minItems h.header ≤ t.items.length + 1) (hsize : t.items.length ≤ 1) :
    ∃ rc h', h.adjustRoot t.page = some (rc, h') ∧ Trimmed ord h h' ((Path.top : Path K n).entries t) := by
  obtain ⟨garbage, haddrs, hlay⟩ := hh.layout
  obtain ⟨rfl, rfl⟩ := hh.pathOrdered
  have hget := hh.get
  obtain ⟨page, items⟩ := t
  cases n with
  | zero =>
    by_cases hempty : items = []
    · -- the last entry of the tree is gone
      subst hempty
      refine ⟨.success, { h.updateRootPageNum none with disposedPages := h.disposedPages ++ [page] }, ?_, ⟨_, rfl⟩,
        ⟨hw.leaf, hw.internal⟩, rfl, Or.inl ⟨rfl, ?_, ?_⟩⟩
      · unfold BplusTreeHandler.adjustRoot
        simp only [hget, Option.bind_eq_bind, Option.bind_some, topNode]
        rfl
      · rfl
      · have hgone : Holds { h.updateRootPageNum none with disposedPages := h.disposedPages ++ [page] } 0 := by
          refine ⟨treeCells 0 none none ⟨page, []⟩ + garbage, ?_, ?_⟩
          · rw [addrs_add, haddrs, ← Multiset.coe_add, add_comm]
            rfl
          · exact hlay.of_eq (by rw [add_assoc]; rfl)
        exact hgone.release.bounded
    · have hlen : 0 < items.length := List.length_pos_iff.mpr hempty
      refine ⟨.success, h, ?_, hh.done hw hlen⟩
      unfold BplusTreeHandler.adjustRoot
      simp only [hget, Option.bind_eq_bind, Option.bind_some, topNode]
      exact if_pos hlen
  | succ n =>
    -- the root has one child left, which takes its place
    have hmin' : 2 ≤ items.length + 1 := hmin
    obtain ⟨x, rfl⟩ : ∃ x, items = [x] := List.length_eq_one_iff.mp (le_antisymm hsize (by omega))
    obtain ⟨⟨hxsize, hxmax⟩, hxocc⟩ := (occupied_cons.mp hh.occupied).1
    obtain ⟨-, -, ⟨-, hxseg⟩, -⟩ := hh.ordered
    have hchild : Layout h.pool (treeCells n (some page) none x.2.tree +
        ({(page, .internal ⟨none, [childItem x]⟩)} + garbage)) := by
      refine hlay.of_eq ?_
      simp only [Path.cells, treeCells_succ, itemCells_cons, itemCells_nil, nextLeaf_nil, Path.parent_top, Path.next,
        List.map_cons, List.map_nil]
      abel
    have hlink := hchild.setParentTree none
    have hheld : Held ord { { h with pool := h.pool.setParent x.2.tree.page none }.updateRootPageNum
        (some x.2.tree.page) with disposedPages := h.disposedPages ++ [page] } Path.top x.2.tree ⊥ ⊤ := by
      refine ⟨⟨{(page, .internal ⟨none, [childItem x]⟩)} + garbage, ?_, ?_⟩, rfl, ⟨rfl, rfl⟩, trivial, hxseg,
        (occupied_root _).mpr hxocc, ?_⟩
      · rw [addrs_add, haddrs, ← Multiset.coe_add, add_comm]
        rfl
      · exact hlink.of_eq (by simp only [Path.cells, Path.parent_top, Path.next, zero_add])
      · cases n <;> exact hxmax
    have hxmin : (Path.top : Path K n).minItems h.header ≤ x.2.tree.items.length := by
      have hleaf := hw.leaf
      have hinternal := hw.internal
      cases n with
      | zero => simp only [Path.minItems, IndexFileHeader.maxAt] at hxsize ⊢; omega
      | succ n => simp only [Path.minItems, IndexFileHeader.maxAt] at hxsize ⊢; omega
    obtain ⟨-, hrepresents⟩ := hheld.done ⟨hw.leaf, hw.internal⟩ (le_trans (le_of_eq (by cases n <;> rfl)) hxmin)
    refine ⟨.success, { { h with pool := h.pool.setParent x.2.tree.page none }.updateRootPageNum
      (some x.2.tree.page) with disposedPages := h.disposedPages ++ [page] }, ?_, ⟨_, rfl⟩, ?_⟩
    · unfold BplusTreeHandler.adjustRoot
      simp only [hget, Option.bind_eq_bind, Option.bind_some, topNode]
      rfl
    · have hentries : (Path.top : Path K (n + 1)).entries ⟨page, [x]⟩ = (Path.top : Path K n).entries x.2.tree := by
        simp [Path.entries, Path.before, Path.after, contents]
      rw [hentries]
      exact hrepresents

theorem Path.entries_pair (up : Path K (n + 1)) (page : PageNum) (left right : Items K (n + 1)) (kl kr : K)
    (l r : Tree K n) :
    up.entries ⟨page, left ++ (kl, toVal l) :: (kr, toVal r) :: right⟩ =
      up.entries ⟨page, left ++ (kl, toVal ⟨l.page, l.items ++ r.items⟩) :: right⟩ := by
  simp only [Path.entries, contents_append, contents_cons, toVal_tree, List.append_assoc]

section Rebalance
variable {up : Path K (n + 1)} {page : PageNum} {left right : Items K (n + 1)} {kl kr : K} {l r : Tree K n}

theorem Pair.trimmed_right (hp : Pair ord h up page [] right kl l kr r lo hi) (hw : h.header.Wide)
    (hmin : h.header.maxAt n / 2 ≤ l.items.length + 1)
    (hshort : l.items.length < h.header.maxAt n - h.header.maxAt n / 2) (hr : r.items.length ≤ h.header.maxAt n)
    (hsum : h.header.maxAt n < l.items.length + r.items.length) :
    ∃ h', h.redistribute r.page l.page page 0 = some (.success, h') ∧
      Trimmed ord h h' (up.entries ⟨page, (kl, toVal l) :: (kr, toVal r) :: right⟩) := by
  have hwide := hw.maxAt n
  obtain ⟨x, y, back, hitems⟩ : ∃ x y back, r.items = x :: y :: back := by
    match hri : r.items with
    | [] => rw [hri, List.length_nil] at hsum; omega
    | [x] => rw [hri, List.length_singleton] at hsum; omega
    | x :: y :: back => exact ⟨x, y, back, rfl⟩
  obtain ⟨h', hrun, hheader, hp'⟩ := hp.redistribute_right hitems
  have hlen : r.items.length = back.length + 2 := by rw [hitems]; rfl
  obtain ⟨hheld, hmin'⟩ := hp'.held (by rw [hheader]; simp only [SizeOk, List.length_append, List.length_singleton]; omega)
    (by rw [hheader]; simp only [SizeOk, List.length_cons]; omega)
  refine ⟨h', hrun, ?_⟩
  have hdone := (hheld.done (hheader ▸ hw) hmin').of_header hheader
  rw [Path.entries_pair] at hdone
  have hentries := Path.entries_pair up page [] right kl kr l r
  rw [List.nil_append] at hentries
  rw [hentries, hitems]
  simpa using hdone

theorem Pair.trimmed_left (hp : Pair ord h up page left right kl l kr r lo hi) (hw : h.header.Wide)
    (hmin : h.header.maxAt n / 2 ≤ r.items.length + 1)
    (hshort : r.items.length < h.header.maxAt n - h.header.maxAt n / 2) (hl : l.items.length ≤ h.header.maxAt n)
    (hsum : h.header.maxAt n < r.items.length + l.items.length) :
    ∃ h', h.redistribute l.page r.page page (left.length + 1) = some (.success, h') ∧
      Trimmed ord h h' (up.entries ⟨page, left ++ (kl, toVal l) :: (kr, toVal r) :: right⟩) := by
  have hwide := hw.maxAt n
  have hlne : l.items ≠ [] := List.ne_nil_of_length_pos (by omega)
  obtain ⟨front, x, hitems⟩ : ∃ front x, l.items = front ++ [x] := ⟨_, _, (List.dropLast_append_getLast hlne).symm⟩
  have hlen : l.items.length = front.length + 1 := by rw [hitems]; simp
  obtain ⟨h', hrun, hheader, hp'⟩ := hp.redistribute_left hitems (List.ne_nil_of_length_pos (by omega))
  obtain ⟨hheld, hmin'⟩ := hp'.held (by rw [hheader]; simp only [SizeOk]; omega)
    (by rw [hheader]; simp only [SizeOk, List.length_cons]; omega)
  refine ⟨h', hrun, ?_⟩
  have hdone := (hheld.done (hheader ▸ hw) hmin').of_header hheader
  rw [Path.entries_pair] at hdone
  rw [Path.entries_pair, hitems]
  simpa using hdone

end Rebalance

/-- A node that has lost an item is given one by a neighbour, or merged with it, and so on up to the root. -/
theorem coalesceOrRedistribute_spec {path : Path K n} {t : Tree K n} (hh : Held ord h path t lo hi)
    (hw : h.header.Wide) (hmin : path.minItems h.header ≤ t.items.length + 1) (fuel : ℕ) (hfuel : path.depth < fuel) :
    ∃ h', BplusTreeHandler.coalesceOrRedistribute ops fuel h t.page = some (.success, h') ∧
      Trimmed ord h h' (path.entries t) := by
  induction path generalizing h lo hi fuel with
  | @top n =>
    obtain ⟨fuel, rfl⟩ : ∃ f, fuel = f + 1 := ⟨fuel - 1, by omega⟩
    have hlow : (Path.top : Path K n).minItems h.header ≤ 2 := by cases n <;> simp [Path.minItems]
    rw [BplusTreeHandler.coalesceOrRedistribute]
    simp only [hh.get, Option.bind_eq_bind, Option.bind_some, minSize_topNode, topNode_size, topNode_parentPageNum,
      Path.parent_top]
    split
    · next henough => exact ⟨h, rfl, hh.done hw (le_trans (Path.top.minItems_le hw) henough)⟩
    · split
      · exact ⟨h, rfl, hh.done hw (by omega)⟩
      · next hsize =>
        obtain ⟨rc, h', hadjust, ht⟩ := adjustRoot_spec hh hw hmin (not_lt.mp hsize)
        exact ⟨h', by rw [hadjust]; rfl, ht⟩
  | @step n page left k right up ih =>
    obtain ⟨fuel, rfl⟩ : ∃ f, fuel = f + 1 := ⟨fuel - 1, by omega⟩
    by_cases hshort : t.items.length < h.header.maxAt n - h.header.maxAt n / 2
    · rw [Path.minItems_step] at hmin
      have hlen : n = 0 ∨ 2 ≤ t.items.length := by
        cases n with
        | zero => exact Or.inl rfl
        | succ n =>
          have hwide := hw.internal
          simp only [IndexFileHeader.maxAt] at hmin
          exact Or.inr (by omega)
      have hwide := hw.maxAt n
      have hne : t.items ≠ [] := List.ne_nil_of_length_pos (by omega)
      have htwo := up.minItems_succ hw
      have hdepth : up.depth < fuel := by rw [Path.depth] at hfuel; omega
      have hparent := hh.pathOccupied.1
      have hentries := Path.entries_step page left right (k, toVal t) up
      rw [toVal_tree] at hentries
      rw [hentries]
      rcases List.eq_nil_or_concat left with rfl | ⟨left, nb, rfl⟩
      · obtain ⟨nb, right, rfl⟩ : ∃ nb right', right = nb :: right' :=
          List.exists_cons_of_ne_nil (List.ne_nil_of_length_pos (by rw [List.length_nil] at hparent; omega))
        obtain ⟨lo', hi', hp, hnb⟩ := hh.pairRight hne
        rw [hh.round hne hlen hshort hp.pages.2.1 rfl]
        split
        · next hsum => exact hp.trimmed_right hw hmin hshort hnb.2 hsum
        · next hsum =>
          obtain ⟨h', hrun, hheader, hheld⟩ := hp.coalesce_spec (Or.inl ⟨rfl, rfl, rfl, rfl⟩)
            (by simp only [SizeOk, List.length_append]; have := hnb.1; omega)
          have hmin' := hp.minSize
          obtain ⟨h'', hloop, ht⟩ := ih hheld (hheader ▸ hw) (by
            rw [hheader, List.length_append, List.length_cons]; omega) fuel hdepth
          refine ⟨h'', ?_, ?_⟩
          · simp only [List.length_nil, hrun, Option.bind_some]
            exact hloop
          · rw [← Path.entries_pair] at ht
            exact ht.of_header hheader
      · rw [List.concat_eq_append] at hh hparent hentries ⊢
        obtain ⟨lo', hi', hp, hnb⟩ := hh.pairLeft hne
        have hindex : (left ++ [nb]).length = left.length + 1 := by simp
        have hpage : InternalIndexNode.valueAt ⟨up.parent, ((left ++ [nb]) ++ (k, toVal t) :: right).map childItem⟩
            ((left ++ [nb]).length - 1) = some nb.2.tree.page := by
          simp [InternalIndexNode.valueAt, childItem]
        rw [hh.round hne hlen hshort hp.pages.1 (by rw [if_neg (by omega)]; exact hpage), hindex, List.append_assoc]
        split
        · next hsum => exact hp.trimmed_left hw hmin hshort hnb.2 hsum
        · next hsum =>
          obtain ⟨h', hrun, hheader, hheld⟩ := hp.coalesce_spec (Or.inr ⟨rfl, rfl, rfl⟩)
            (by simp only [SizeOk, List.length_append]; have := hnb.1; omega)
          have hmin' := hp.minSize
          obtain ⟨h'', hloop, ht⟩ := ih hheld (hheader ▸ hw) (by
            rw [hheader, List.length_append, List.length_cons]; omega) fuel hdepth
          refine ⟨h'', ?_, ?_⟩
          · rw [hrun]
            exact hloop
          · rw [← Path.entries_pair] at ht
            exact ht.of_header hheader
    · refine ⟨h, ?_, hh.done hw (le_trans (Path.minItems_le hw _) (not_lt.mp hshort))⟩
      rw [BplusTreeHandler.coalesceOrRedistribute]
      simp only [hh.get, Option.bind_eq_bind, Option.bind_some, minSize_topNode, topNode_size, not_lt.mp hshort, if_true]
      rfl

/-! ## `delete_entry` -/

theorem leaf_remove {node : LeafIndexNode K} {pre post : List (K × RID)} {x : K × RID} {q : K}
    (hitems : node.items = pre ++ x :: post) (hlookup : node.lookup ops.keyComparator q = (pre.length, true)) :
    node.remove ops.keyComparator q = ({ node with items := pre ++ post }, true) := by
  unfold LeafIndexNode.remove LeafIndexNode.removeAt
  simp only [hlookup, hitems, if_true]
  rw [List.take_left' rfl, ← List.drop_drop, List.drop_left' rfl]
  rfl

theorem Focus.remove {path : Path K 0} {page : PageNum} {pre post : List (K × RID)} {x : K × RID}
    (hf : Focus ord h path (leafTree page (pre ++ x :: post)) lo hi) (hdisposed : h.disposedPages = []) :
    Held ord { h with pool := h.pool.setPage page (.leaf ⟨path.parent, path.next, pre ++ post⟩) } path
      (leafTree page (pre ++ post)) lo hi ∧ path.minItems h.header ≤ (pre ++ post).length + 1 := by
  have hlay := hf.layout
  rw [treeCells, add_left_comm] at hlay
  have hset := hlay.setPage (.leaf ⟨path.parent, path.next, pre ++ post⟩)
  have hlen : (pre ++ x :: post).length = (pre ++ post).length + 1 := by simp; omega
  have hmax : (pre ++ x :: post).length ≤ h.header.maxAt 0 := hf.maxSize
  have hmin : path.minItems h.header ≤ (pre ++ x :: post).length := hf.minSize
  have hseg : SortedIn ord.key lo hi (pre ++ x :: post) := hf.ordered
  refine ⟨⟨⟨0, ?_, ?_⟩, hf.root, hf.pathOrdered, hf.pathOccupied, ?_, trivial, ?_⟩, hlen ▸ hmin⟩
  · simp [hdisposed, addrs]
  · exact hset.of_eq (by rw [add_zero]; exact add_left_comm _ _ _)
  · exact sortedIn_remove hseg
  · have hless : (pre ++ post).length ≤ h.header.maxAt 0 := by omega
    exact hless

/-- `delete_entry`: refused exactly when the key is not there, and otherwise its entry is removed. -/
theorem deleteEntry_spec {entries : List (K × RID)} (hr : Represents ord h entries) {q : K} (hq : ord.Known q) :
    (∃ h' front x back, entries = front ++ x :: back ∧ ord.Same x.1 q ∧
        BplusTreeHandler.deleteEntry ops h q = some (.success, h') ∧
        (∃ rootPage, h'.header = { h.header with rootPage := rootPage }) ∧ Represents ord h' (front ++ back)) ∨
      ((∀ x ∈ entries, ¬ ord.Same x.1 q) ∧
        BplusTreeHandler.deleteEntry ops h q = some (.recordNotExist, h)) := by
  have hrelease : h.release = h := by
    obtain ⟨header, pool, disposed⟩ := h
    have hd : disposed = [] := hr.disposed
    subst hd
    rfl
  rcases hr.tree with ⟨hroot, rfl, -⟩ | ⟨n, t, hf, rfl⟩
  · refine Or.inr ⟨by simp, ?_⟩
    rw [BplusTreeHandler.deleteEntry, hroot]
  obtain ⟨path, page, items, lo, hi, hleaf, hlo, hhi, hentries, hfind⟩ := findLeaf_spec hr.wide hf hq
  have hroot : h.header.rootPage = some t.page := hf.root
  have hget : h.pool.getLeaf page = some ⟨path.parent, path.next, items⟩ := hleaf.getLeaf
  have hsorted : SortedIn ord.key lo hi items := hleaf.ordered
  rw [← hentries]
  rcases leaf_split ord hsorted hq with ⟨pre, post, rfl, hpre, hpost⟩ | ⟨pre, x, post, rfl, hx, hpre, hpost⟩
  · refine Or.inr ⟨?_, ?_⟩
    · obtain ⟨hbefore, hafter⟩ := hleaf.pathOrdered.outside
      intro y hy
      simp only [List.mem_append] at hy
      rcases hy with (hy | hy | hy) | hy
      · exact fun hsame => not_lt_of_ge hsame.2 (lt_of_lt_of_le (hbefore y hy) hlo)
      · exact fun hsame => not_lt_of_ge hsame.2 (hpre y hy)
      · exact fun hsame => not_lt_of_ge hsame.1 (hpost y hy)
      · exact fun hsame => not_lt_of_ge hsame.1 (lt_of_lt_of_le hhi (hafter y hy))
    · have hlookup : LeafIndexNode.lookup ops.keyComparator ⟨path.parent, path.next, pre ++ post⟩ q =
          (pre.length, false) := leaf_lookup_absent ord rfl hq (fun y hy => (hsorted.2 y (by simp [hy])).2.1) hpre hpost
      rw [BplusTreeHandler.deleteEntry, hroot]
      simp only [hfind, Option.bind_eq_bind, Option.bind_some, BplusTreeHandler.deleteEntryInternal, hget,
        LeafIndexNode.remove, hlookup, Bool.false_eq_true, if_false]
      exact congrArg (fun h' => some (RC.recordNotExist, h')) hrelease
  · have hlookup : LeafIndexNode.lookup ops.keyComparator ⟨path.parent, path.next, pre ++ x :: post⟩ q =
        (pre.length, true) := leaf_lookup_present ord rfl hq (fun y hy => (hsorted.2 y (by simp [hy])).2.1) hpre hx hpost
    have hremove : LeafIndexNode.remove ops.keyComparator ⟨path.parent, path.next, pre ++ x :: post⟩ q =
        (⟨path.parent, path.next, pre ++ post⟩, true) := leaf_remove rfl hlookup
    obtain ⟨hheld, hmin⟩ := hleaf.remove hr.disposed
    have hrun : ∃ h', BplusTreeHandler.deleteEntryInternal ops h page q = some (.success, h') ∧
        Trimmed ord h h' (path.entries (leafTree page (pre ++ post))) := by
      unfold BplusTreeHandler.deleteEntryInternal
      simp only [hget, Option.bind_eq_bind, Option.bind_some, hremove, if_true]
      split
      · next henough => exact ⟨_, rfl, (hheld.done hr.wide (le_trans (path.minItems_le hr.wide) henough)).of_header rfl⟩
      · obtain ⟨h', hloop, ht⟩ := coalesceOrRedistribute_spec hheld hr.wide hmin h.pool.pageCount hleaf.depth_lt
        exact ⟨h', hloop, ht.of_header rfl⟩
    obtain ⟨h', hdone, ⟨rootPage, hheader⟩, hrep⟩ := hrun
    refine Or.inl ⟨h'.release, path.before ++ pre, x, post ++ path.after, by simp, hx, ?_, ⟨rootPage, hheader⟩, ?_⟩
    · rw [BplusTreeHandler.deleteEntry, hroot]
      simp only [hfind, Option.bind_eq_bind, Option.bind_some, hdone]
      rfl
    · have heq : path.entries (leafTree page (pre ++ post)) = (path.before ++ pre) ++ (post ++ path.after) := by
        simp [Path.entries, leafTree, contents]
      exact heq ▸ hrep

end Landbase.Index
