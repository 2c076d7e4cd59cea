import Landbase.Index.Focus

/-! # Insertion

`insert_entry` puts the entry into its leaf and, when the leaf was full, works its way up: a node that was split has to be
made known to its parent, which may have to be split in turn. `Split` is the invariant of that loop: below the path that is
left, the pages store two nodes in the place of one.
-/

namespace Landbase.Index
open Landbase.Lib Landbase.Common
set_option autoImplicit false

variable {K B : Type} [Preorder B] [BoundedOrder B] {ops : KeyOps K} (ord : KeyOrder ops B)

/-- The node at the end of the path has been split into `l` and `r`, with `k` as the key of `r`. -/
structure Split (h : BplusTreeHandler K) {n : ℕ} (path : Path K n) (l r : Tree K n) (k : K) (lo hi : B) : Prop where
  layout : Layout h.pool (path.cells l.page (firstLeaf n l) +
    (treeCells n path.parent (some (firstLeaf n r)) l + treeCells n path.parent path.next r))
  root : h.header.rootPage = some (path.rootPage l.page)
  pathOrdered : path.Ordered ord.key lo hi
  pathOccupied : path.Occupied h.header
  left : SegTree ord.key n lo (ord.key k) (toVal l)
  right : SegTree ord.key n (ord.key k) hi (toVal r)
  lo_lt : lo < ord.key k
  lt_hi : ord.key k < hi
  leftOccupied : SizeOk h.header n l.items.length ∧ Occupied h.header n l.items
  rightOccupied : SizeOk h.header n r.items.length ∧ Occupied h.header n r.items

variable {ord} {h : BplusTreeHandler K} {n : ℕ} {lo hi : B}

theorem split_of_cut {path : Path K n} {page newPage : PageNum} {front back : Items K n} {y : K × Val K n}
    (hlay : Layout h.pool (path.cells page (firstLeaf n ⟨page, front⟩) +
      (treeCells n path.parent (some (firstLeaf n ⟨newPage, y :: back⟩)) ⟨page, front⟩ +
        treeCells n path.parent path.next ⟨newPage, y :: back⟩)))
    (hroot : h.header.rootPage = some (path.rootPage page)) (hpath : path.Ordered ord.key lo hi)
    (hpathocc : path.Occupied h.header) (hfront : front ≠ []) (hseg : Seg ord.key n lo hi (front ++ y :: back))
    (hocc : Occupied h.header n (front ++ y :: back)) (hsize1 : SizeOk h.header n front.length)
    (hsize2 : SizeOk h.header n (y :: back).length) :
    Split ord h path ⟨page, front⟩ ⟨newPage, y :: back⟩ y.1 lo hi := by
  obtain ⟨hl, hr, hlo, hhi⟩ := hseg.cut hfront (List.cons_ne_nil y back)
  rw [occupied_append] at hocc
  exact ⟨hlay, hroot, hpath, hpathocc, ⟨hfront, hl⟩, ⟨List.cons_ne_nil y back, hr⟩, hlo, hhi, ⟨hsize1, hocc.1⟩,
    ⟨hsize2, hocc.2⟩⟩

theorem Split.chain {page : PageNum} {left right : Items K (n + 1)} {k₀ : K} {up : Path K (n + 1)} {l r : Tree K n}
    {k : K} (hs : Split ord h (Path.step page left k₀ right up) l r k lo hi) :
    ∃ lo' hi', up.Ordered ord.key lo' hi' ∧
      Seg ord.key (n + 1) lo' hi' (left ++ (k₀, toVal l) :: (k, toVal r) :: right) := by
  obtain ⟨lo', hi', hup, hhole⟩ := hs.pathOrdered
  have hmid : SepChain ord.key (SegTree ord.key n) lo hi [(k₀, toVal l), (k, toVal r)] :=
    ⟨hhole.first, hs.lo_lt, hs.left, Or.inr rfl, hs.lt_hi, hs.right, trivial⟩
  have hfill := SepHole.fill hhole hmid
  rw [List.append_assoc] at hfill
  exact ⟨lo', hi', hup, hfill⟩

theorem Split.chainOccupied {page : PageNum} {left right : Items K (n + 1)} {k₀ : K} {up : Path K (n + 1)}
    {l r : Tree K n} {k : K} (hs : Split ord h (Path.step page left k₀ right up) l r k lo hi) :
    Occupied h.header (n + 1) (left ++ (k₀, toVal l) :: (k, toVal r) :: right) := by
  obtain ⟨-, hoccl, hoccr, -⟩ := hs.pathOccupied
  rw [occupied_append, occupied_cons, occupied_cons]
  exact ⟨hoccl, hs.leftOccupied, hs.rightOccupied, hoccr⟩

/-! ## Splitting an internal page -/

theorem splitInternal_eq (pool : DiskBufferPool K) (page : PageNum) (parent : Option PageNum)
    {front back : Items K (n + 1)} (hhalf : (front ++ back).length / 2 = front.length) :
    BplusTreeHandler.splitInternal pool page ⟨parent, (front ++ back).map childItem⟩ =
      (pool.allocatePage.1,
        ((pool.allocatePage.2.setParents (back.map fun x => x.2.tree.page) pool.allocatePage.1).setPage page
          (.internal ⟨parent, front.map childItem⟩)).setPage pool.allocatePage.1
            (.internal ⟨parent, back.map childItem⟩)) := by
  have hdrop : ((front ++ back).map childItem).drop front.length = back.map childItem := by
    rw [List.map_append, List.drop_left' (by simp)]
  have htake : ((front ++ back).map childItem).take front.length = front.map childItem := by
    rw [List.map_append, List.take_left' (by simp)]
  have hsnd : (back.map childItem).map Prod.snd = back.map fun x => x.2.tree.page := by
    rw [List.map_map]; rfl
  unfold BplusTreeHandler.splitInternal
  simp only [List.length_map, hhalf, hdrop, htake, hsnd]

/-- Half of the children go to a new page. Those that go are given in two runs, because the links between the leaves may
already lead through a node that the parent does not know yet. -/
theorem splitInternal_layout {pool : DiskBufferPool K} {page : PageNum} {parent next1 next2 : Option PageNum}
    {front back1 back2 : Items K (n + 1)} {rest : Multiset (PageNum × IndexNode K)}
    (hlay : Layout pool ({(page, .internal ⟨parent, (front ++ (back1 ++ back2)).map childItem⟩)} +
      (itemCells (n + 1) page next1 back1 + itemCells (n + 1) page next2 back2 + rest)))
    (hhalf : (front ++ (back1 ++ back2)).length / 2 = front.length) :
    ∃ newPage pool', BplusTreeHandler.splitInternal pool page ⟨parent, (front ++ (back1 ++ back2)).map childItem⟩ =
        (newPage, pool') ∧
      Layout pool' ({(page, .internal ⟨parent, front.map childItem⟩)} +
        ({(newPage, .internal ⟨parent, (back1 ++ back2).map childItem⟩)} +
          (itemCells (n + 1) newPage next1 back1 + itemCells (n + 1) newPage next2 back2 + rest))) := by
  obtain ⟨halloc, hnew, hbit⟩ := hlay.allocatePage
  rw [splitInternal_eq pool page parent hhalf]
  refine ⟨_, _, rfl, ?_⟩
  generalize pool.allocatePage.1 = newPage at hnew hbit ⊢
  generalize pool.allocatePage.2 = pool₁ at halloc hbit ⊢
  have hback : Layout pool₁ (itemCells (n + 1) page next1 back1 + (itemCells (n + 1) page next2 back2 +
      ({(page, .internal ⟨parent, (front ++ (back1 ++ back2)).map childItem⟩)} + rest))) := halloc.of_eq (by abel)
  have hmoved₁ := hback.setParents newPage
  rw [add_left_comm] at hmoved₁
  have hmoved₂ := hmoved₁.setParents newPage
  rw [← DiskBufferPool.setParents_append, ← List.map_append] at hmoved₂
  have hhead := DiskBufferPool.setParents_header pool₁ ((back1 ++ back2).map fun x => x.2.tree.page) newPage
  generalize pool₁.setParents ((back1 ++ back2).map fun x => x.2.tree.page) newPage = pool₂ at hmoved₂ hhead ⊢
  have hpage : Layout pool₂ ({(page, .internal ⟨parent, (front ++ (back1 ++ back2)).map childItem⟩)} +
      (itemCells (n + 1) newPage next1 back1 + itemCells (n + 1) newPage next2 back2 + rest)) :=
    hmoved₂.of_eq (by abel)
  have hold := hpage.setPage (.internal ⟨parent, front.map childItem⟩)
  refine (hold.addPage ?_ (by rw [← hbit]; exact congrFun hhead.1 newPage) _).of_eq (by abel)
  rw [addrs_add, addrs_add, addrs_add] at hnew ⊢
  rwa [addrs_itemCells (n + 1) newPage page next1 next1, addrs_itemCells (n + 1) newPage page next2 next2]

/-! ## Making the new node known -/

/-- The handler `h'` stores a well-formed tree with these entries, under the size limits of `h`. -/
structure Rebuilt (ord : KeyOrder ops B) (h h' : BplusTreeHandler K) (entries : List (K × RID)) : Prop where
  limits : ∃ rootPage, h'.header = { h.header with rootPage := rootPage }
  disposed : h'.disposedPages = h.disposedPages
  tree : ∃ (m : ℕ) (t : Tree K m), Focus ord h' Path.top t ⊥ ⊤ ∧ contents m t.items = entries

theorem Split.get_left {path : Path K n} {l r : Tree K n} {k : K} (hs : Split ord h path l r k lo hi) :
    h.pool.getThisPage l.page = some (topNode n path.parent (some (firstLeaf n r)) l) := by
  have hlay : Layout h.pool ({(l.page, topNode n path.parent (some (firstLeaf n r)) l)} +
      (path.cells l.page (firstLeaf n l) + (itemCells n l.page (some (firstLeaf n r)) l.items +
        treeCells n path.parent path.next r))) := hs.layout.of_eq (by rw [treeCells]; abel)
  exact hlay.get

theorem Split.newRoot (hw : h.header.Wide) {l r : Tree K n} {k : K} (hs : Split ord h Path.top l r k lo hi) (fuel : ℕ) :
    ∃ h', BplusTreeHandler.insertEntryIntoParent ops (fuel + 1) h l.page r.page k = some (.success, h') ∧
      Rebuilt ord h h' (contents n l.items ++ contents n r.items) := by
  obtain ⟨rfl, rfl⟩ := hs.pathOrdered
  have hlay : Layout h.pool (treeCells n none (some (firstLeaf n r)) l + treeCells n none none r) :=
    hs.layout.of_eq (zero_add _)
  obtain ⟨halloc, hnew, hbit⟩ := hlay.allocatePage
  have hget := hs.get_left
  unfold BplusTreeHandler.insertEntryIntoParent
  simp only [hget, Option.bind_eq_bind, Option.bind_some, topNode_parentPageNum, Path.parent_top]
  refine ⟨_, rfl, ⟨_, rfl⟩, rfl, n + 1, ⟨h.pool.allocatePage.1, [(ops.zero, toVal l), (k, toVal r)]⟩, ?_, ?_⟩
  · generalize h.pool.allocatePage.1 = rootFrame at hnew hbit ⊢
    generalize h.pool.allocatePage.2 = pool at halloc hbit ⊢
    have hadd := halloc.addPage hnew hbit (.internal ⟨none, [(ops.zero, l.page), (k, r.page)]⟩)
    rw [add_left_comm] at hadd
    have hl := hadd.setParentTree (some rootFrame)
    have hl' : Layout ((pool.setPage rootFrame (.internal ⟨none, [(ops.zero, l.page), (k, r.page)]⟩)).setParent l.page
        (some rootFrame)) (treeCells n none none r + (treeCells n (some rootFrame) (some (firstLeaf n r)) l +
          {(rootFrame, .internal ⟨none, [(ops.zero, l.page), (k, r.page)]⟩)})) := hl.of_eq (by abel)
    have hr := hl'.setParentTree (some rootFrame)
    refine ⟨hr.of_eq ?_, rfl, ⟨rfl, rfl⟩, trivial, ?_, ?_, ?_, ?_⟩
    · simp only [Path.cells, treeCells_succ, itemCells_cons, itemCells_nil, Path.parent_top, Path.next, List.map_cons,
        List.map_nil, childItem, toVal_tree, nextLeaf_nil, nextLeaf_cons]
      abel
    · exact ⟨Or.inl rfl, hs.lo_lt, hs.left, Or.inr rfl, hs.lt_hi, hs.right, trivial⟩
    · refine (occupied_root (some rootFrame)).mpr ?_
      rw [occupied_cons, occupied_cons]
      exact ⟨hs.leftOccupied, hs.rightOccupied, occupied_nil⟩
    · exact le_refl 2
    · exact le_trans (by simp) hw.internal
  · simp [contents]

theorem Split.layoutParent {page : PageNum} {left right : Items K (n + 1)} {k₀ : K} {up : Path K (n + 1)}
    {l r : Tree K n} {k : K} (hs : Split ord h (Path.step page left k₀ right up) l r k lo hi) :
    Layout h.pool ({(page, .internal ⟨up.parent, (left ++ (k₀, toVal l) :: right).map childItem⟩)} +
      (itemCells (n + 1) page (some (firstLeaf n r)) (left ++ [(k₀, toVal l)]) + itemCells (n + 1) page up.next right +
        (treeCells n (some page) (nextLeaf (n + 1) right up.next) r +
          up.cells page (Path.firstOf left (firstLeaf n l))))) := by
  refine hs.layout.of_eq ?_
  simp only [Path.cells, Path.parent_step, Path.next, itemCells_append, itemCells_cons, itemCells_nil, childItem,
    List.map_append, List.map_cons, nextLeaf_nil, nextLeaf_cons, toVal_tree]
  abel

theorem Split.absorb (hw : h.header.Wide) {page : PageNum} {left right : Items K (n + 1)} {k₀ : K}
    {up : Path K (n + 1)} {l r : Tree K n} {k : K} (hs : Split ord h (Path.step page left k₀ right up) l r k lo hi)
    (hroom : left.length + 1 + right.length < h.header.internalMaxSize) (fuel : ℕ) :
    ∃ h', BplusTreeHandler.insertEntryIntoParent ops (fuel + 1) h l.page r.page k = some (.success, h') ∧
      Rebuilt ord h h' (up.before ++ contents (n + 1) (left ++ (k₀, toVal l) :: (k, toVal r) :: right) ++ up.after) := by
  obtain ⟨lo', hi', hup, hchain⟩ := hs.chain
  have hlay := hs.layoutParent
  have hget := hs.get_left
  have hparent := DiskBufferPool.getInternal_of_get hlay.get
  have hinsert : InternalIndexNode.insert ops ⟨up.parent, (left ++ (k₀, toVal l) :: right).map childItem⟩ k r.page =
      ⟨up.parent, (left ++ (k₀, toVal l) :: (k, toVal r) :: right).map childItem⟩ :=
    internal_insert_chain ord hchain up.parent
  have hlen : (left ++ (k₀, toVal l) :: right).length = left.length + 1 + right.length := by simp; omega
  have hlen' : (left ++ (k₀, toVal l) :: (k, toVal r) :: right).length = left.length + 1 + right.length + 1 := by
    simp; omega
  unfold BplusTreeHandler.insertEntryIntoParent
  simp only [hget, hparent, Option.bind_eq_bind, Option.bind_some, topNode_parentPageNum, Path.parent_step,
    List.length_map, hlen, hroom, if_true, hinsert]
  have hset := hlay.setPage (.internal ⟨up.parent, (left ++ (k₀, toVal l) :: (k, toVal r) :: right).map childItem⟩)
  generalize h.pool.setPage page _ = pool at hset ⊢
  have hfocus : Focus ord { h with pool := pool.setParent r.page (some page) } up
      ⟨page, left ++ (k₀, toVal l) :: (k, toVal r) :: right⟩ lo' hi' := by
    obtain ⟨⟨hmin, -⟩, -, -, hoccup⟩ := hs.pathOccupied
    refine ⟨?_, hs.root, hup, hoccup, hchain, hs.chainOccupied, ?_, ?_⟩
    · rw [add_left_comm _ (treeCells n _ _ r), add_left_comm _ (treeCells n _ _ r)] at hset
      have hlink := hset.setParentTree (some page)
      refine hlink.of_eq ?_
      simp only [firstLeaf_items, treeCells_succ, itemCells_append, itemCells_cons, itemCells_nil, nextLeaf_nil,
        nextLeaf_cons, toVal_tree]
      abel
    · rw [hlen']; exact le_trans hmin (Nat.le_succ _)
    · rw [hlen']; exact hroom
  obtain ⟨m, t, ht, hcontents⟩ := hfocus.toRoot hw
  exact ⟨_, rfl, ⟨_, rfl⟩, rfl, m, t, ht, hcontents⟩

/-- What a full parent leaves for the next round: its own halves, one level up. -/
structure Propagated (ord : KeyOrder ops B) (h h' : BplusTreeHandler K) (up : Path K (n + 1)) (l r : Tree K (n + 1))
    (k : K) (items : Items K (n + 1)) : Prop where
  header : h'.header = h.header
  disposed : h'.disposedPages = h.disposedPages
  split : ∃ lo hi, Split ord h' up l r k lo hi
  items : l.items ++ r.items = items

/-- One round with a full parent: it is split, and the new node goes to one of the halves. -/
theorem insertEntryIntoParent_full {frame newFrame page newPage : PageNum} {key newKey : K} {node : IndexNode K}
    {parentNode oldNode newNode : InternalIndexNode K} {pool : DiskBufferPool K}
    (hget : h.pool.getThisPage frame = some node) (hnode : node.parentPageNum = some page)
    (hparent : h.pool.getInternal page = some parentNode)
    (hfull : ¬ parentNode.items.length < h.header.internalMaxSize)
    (hsplit : BplusTreeHandler.splitInternal h.pool page parentNode = (newPage, pool))
    (hold : pool.getInternal page = some oldNode) (hnew : pool.getInternal newPage = some newNode)
    (hkey : newNode.keyAt 0 = some newKey) {pool' : DiskBufferPool K}
    (hpool' : (if ops.keyComparator key newKey > 0 then
        (pool.setPage newPage (.internal (newNode.insert ops key newFrame))).setParent newFrame (some newPage)
      else (pool.setPage page (.internal (oldNode.insert ops key newFrame))).setParent newFrame (some page)) = pool')
    {newNode' : InternalIndexNode K} {newKey' : K} (hnew' : pool'.getInternal newPage = some newNode')
    (hkey' : newNode'.keyAt 0 = some newKey') (fuel : ℕ) :
    BplusTreeHandler.insertEntryIntoParent ops (fuel + 1) h frame newFrame key =
      BplusTreeHandler.insertEntryIntoParent ops fuel { h with pool := pool' } page newPage newKey' := by
  subst hpool'
  rw [BplusTreeHandler.insertEntryIntoParent]
  simp only [hget, hnode, hparent, Option.bind_eq_bind, Option.bind_some, hfull, if_false, hsplit, hold, hnew, hkey,
    hnew', hkey']

theorem Split.propagateLeft {page : PageNum} {left ra rb : Items K (n + 1)}
    {z : K × Val K (n + 1)} {k₀ : K} {up : Path K (n + 1)} {l r : Tree K n} {k : K}
    (hs : Split ord h (Path.step page left k₀ (ra ++ z :: rb) up) l r k lo hi)
    (hfull : left.length + 1 + (ra ++ z :: rb).length = h.header.internalMaxSize)
    (hhalf : left.length + 1 + ra.length = h.header.internalMaxSize / 2) (fuel : ℕ) :
    ∃ h' l' r' k', BplusTreeHandler.insertEntryIntoParent ops (fuel + 1) h l.page r.page k =
        BplusTreeHandler.insertEntryIntoParent ops fuel h' l'.page r'.page k' ∧
      Propagated ord h h' up l' r' k' (left ++ (k₀, toVal l) :: (k, toVal r) :: (ra ++ z :: rb)) := by
  obtain ⟨lo', hi', hup, hchain⟩ := hs.chain
  have hlay := hs.layoutParent
  have hparent := DiskBufferPool.getInternal_of_get hlay.get
  have hitems : left ++ (k₀, toVal l) :: (ra ++ z :: rb) = (left ++ (k₀, toVal l) :: ra) ++ ([] ++ z :: rb) := by simp
  have hlen : (left ++ (k₀, toVal l) :: (ra ++ z :: rb)).length = h.header.internalMaxSize := by
    rw [← hfull]; simp; omega
  have hcut : Layout h.pool ({(page, .internal ⟨up.parent,
      ((left ++ (k₀, toVal l) :: ra) ++ ([] ++ z :: rb)).map childItem⟩)} +
      (itemCells (n + 1) page none [] + itemCells (n + 1) page up.next (z :: rb) +
        (itemCells (n + 1) page (some (firstLeaf n r)) (left ++ [(k₀, toVal l)]) +
          itemCells (n + 1) page (some (firstLeaf n z.2.tree)) ra +
          (treeCells n (some page) (nextLeaf (n + 1) (ra ++ z :: rb) up.next) r +
            up.cells page (Path.firstOf left (firstLeaf n l)))))) := by
    refine hlay.of_eq ?_
    rw [hitems, itemCells_nil, itemCells_append _ _ _ ra, nextLeaf_cons]
    abel
  obtain ⟨newPage, pool, hsplit, hpool⟩ := splitInternal_layout hcut (by
    rw [← hitems, hlen, ← hhalf]; simp; omega)
  rw [← hitems] at hsplit
  have hold := DiskBufferPool.getInternal_of_get hpool.get
  have hnew := DiskBufferPool.getInternal_of_get (hpool.of_eq (add_left_comm _ _ _)).get
  -- the separator of the second half is to the right of the new node
  have hcmp : ¬ ops.keyComparator k z.1 > 0 := by
    obtain ⟨hroutes, -⟩ := routes_behind ord hchain
    have hkz : ord.key k < ord.key z.1 := hroutes.after _ (List.mem_map_of_mem (by simp))
    rw [gt_iff_lt, ord.pos_iff k z.1 hroutes.known (KeyOrder.known_of_lt hkz)]
    exact not_lt_of_gt hkz
  have hwhole : left ++ (k₀, toVal l) :: (k, toVal r) :: (ra ++ z :: rb) =
      (left ++ (k₀, toVal l) :: (k, toVal r) :: ra) ++ z :: rb := by simp
  rw [hwhole] at hchain
  have hinsert : InternalIndexNode.insert ops ⟨up.parent, (left ++ (k₀, toVal l) :: ra).map childItem⟩ k r.page =
      ⟨up.parent, (left ++ (k₀, toVal l) :: (k, toVal r) :: ra).map childItem⟩ :=
    internal_insert_chain ord ((sepChain_append (by simp)).mp hchain).1 up.parent
  have hset := hpool.setPage (.internal ⟨up.parent, (left ++ (k₀, toVal l) :: (k, toVal r) :: ra).map childItem⟩)
  have hrget : (pool.setPage page (.internal ⟨up.parent,
      (left ++ (k₀, toVal l) :: (k, toVal r) :: ra).map childItem⟩)).getThisPage r.page =
        some (topNode n (some page) (nextLeaf (n + 1) (ra ++ z :: rb) up.next) r) :=
    hset.get_of_mem (by simp [treeCells])
  have hr := DiskBufferPool.setParent_same hrget (topNode_parentPageNum n _ _ r)
  have hnew' := DiskBufferPool.getInternal_of_get (hset.of_eq (add_left_comm _ _ _)).get
  have hkey : InternalIndexNode.keyAt ⟨up.parent, ([] ++ z :: rb).map childItem⟩ 0 = some z.1 := rfl
  have hround := insertEntryIntoParent_full hs.get_left (topNode_parentPageNum n _ _ l) hparent
    (by rw [List.length_map, hlen]; exact lt_irrefl _) hsplit hold hnew hkey (by rw [if_neg hcmp, hinsert, hr])
    hnew' hkey fuel
  refine ⟨_, ⟨page, left ++ (k₀, toVal l) :: (k, toVal r) :: ra⟩, ⟨newPage, z :: rb⟩, z.1, hround, rfl, rfl,
    ⟨lo', hi', ?_⟩, hwhole.symm⟩
  obtain ⟨-, -, -, hoccup⟩ := hs.pathOccupied
  refine split_of_cut (hset.of_eq ?_) hs.root hup hoccup (by simp) hchain (hwhole ▸ hs.chainOccupied) ?_ ?_
  · simp only [firstLeaf_items, firstLeaf_cons, treeCells_succ, itemCells_append, itemCells_cons, itemCells_nil, nextLeaf_nil,
      nextLeaf_cons, nextLeaf_append, toVal_tree, List.nil_append]
    abel
  · rw [SizeOk, IndexFileHeader.maxAt, ← hhalf]
    simp only [List.length_append, List.length_cons] at hfull ⊢
    omega
  · simp only [SizeOk, IndexFileHeader.maxAt, List.length_append, List.length_cons] at hfull ⊢
    omega

theorem Split.propagateRight (hw : h.header.Wide) {page : PageNum} {la lb right : Items K (n + 1)} {k₀ : K}
    {up : Path K (n + 1)} {l r : Tree K n} {k : K}
    (hs : Split ord h (Path.step page (la ++ lb) k₀ right up) l r k lo hi)
    (hfull : (la ++ lb).length + 1 + right.length = h.header.internalMaxSize)
    (hhalf : la.length = h.header.internalMaxSize / 2) (fuel : ℕ) :
    ∃ h' l' r' k', BplusTreeHandler.insertEntryIntoParent ops (fuel + 1) h l.page r.page k =
        BplusTreeHandler.insertEntryIntoParent ops fuel h' l'.page r'.page k' ∧
      Propagated ord h h' up l' r' k' ((la ++ lb) ++ (k₀, toVal l) :: (k, toVal r) :: right) := by
  obtain ⟨lo', hi', hup, hchain⟩ := hs.chain
  have hlay := hs.layoutParent
  have hparent := DiskBufferPool.getInternal_of_get hlay.get
  have hwide := hw.internal
  obtain ⟨a, la, rfl⟩ := List.exists_cons_of_ne_nil (List.ne_nil_of_length_pos (by omega : 0 < la.length))
  obtain ⟨z, zs, hz⟩ : ∃ z zs, lb ++ [(k₀, toVal l)] = z :: zs := List.exists_cons_of_ne_nil (by simp)
  have hitems : (a :: la ++ lb) ++ (k₀, toVal l) :: right = a :: la ++ ((lb ++ [(k₀, toVal l)]) ++ right) := by simp
  have hlen : ((a :: la ++ lb) ++ (k₀, toVal l) :: right).length = h.header.internalMaxSize := by
    rw [← hfull]; simp; omega
  have hcut : Layout h.pool ({(page, .internal ⟨up.parent,
      (a :: la ++ ((lb ++ [(k₀, toVal l)]) ++ right)).map childItem⟩)} +
      (itemCells (n + 1) page (some (firstLeaf n r)) (lb ++ [(k₀, toVal l)]) + itemCells (n + 1) page up.next right +
        (itemCells (n + 1) page (some (firstLeaf n z.2.tree)) (a :: la) +
          (treeCells n (some page) (nextLeaf (n + 1) right up.next) r +
            up.cells page (firstLeaf n a.2.tree))))) := by
    have hleft : itemCells (n + 1) page (some (firstLeaf n r)) ((a :: la ++ lb) ++ [(k₀, toVal l)]) =
        itemCells (n + 1) page (some (firstLeaf n z.2.tree)) (a :: la) +
          itemCells (n + 1) page (some (firstLeaf n r)) (lb ++ [(k₀, toVal l)]) := by
      rw [List.append_assoc, itemCells_append, hz, nextLeaf_cons]
    have hfirst : Path.firstOf (a :: la ++ lb) (firstLeaf n l) = firstLeaf n a.2.tree := rfl
    refine hlay.of_eq ?_
    rw [hitems, hleft, hfirst]
    abel
  obtain ⟨newPage, pool, hsplit, hpool⟩ := splitInternal_layout hcut (by rw [← hitems, hlen, hhalf])
  rw [← hitems] at hsplit
  have hold := DiskBufferPool.getInternal_of_get hpool.get
  have hnew := DiskBufferPool.getInternal_of_get (hpool.of_eq (add_left_comm _ _ _)).get
  have hwhole : (a :: la ++ lb) ++ (k₀, toVal l) :: (k, toVal r) :: right =
      a :: la ++ (lb ++ (k₀, toVal l) :: (k, toVal r) :: right) := by simp
  have hback : lb ++ (k₀, toVal l) :: (k, toVal r) :: right = z :: (zs ++ (k, toVal r) :: right) := by
    rw [← List.cons_append, ← hz]; simp
  rw [hwhole] at hchain
  -- the separator of the second half is to the left of the new node
  have hcmp : ops.keyComparator k z.1 > 0 := by
    rw [List.cons_append, seg_succ] at hchain
    obtain ⟨hpair, hbound⟩ := hchain.tail_keys
    rw [hback] at hpair hbound
    rw [List.map_append, List.pairwise_append, List.map_cons, List.pairwise_cons] at hpair
    exact KeyOrder.pos (KeyOrder.known_of_lt (hbound z (by simp)).1) (hpair.2.1.1 _ (by simp))
  have hinsert : InternalIndexNode.insert ops ⟨up.parent, ((lb ++ [(k₀, toVal l)]) ++ right).map childItem⟩ k r.page =
      ⟨up.parent, (lb ++ (k₀, toVal l) :: (k, toVal r) :: right).map childItem⟩ := by
    rw [← List.append_cons]
    exact internal_insert_chain ord ((sepChain_append (by simp)).mp hchain).2 up.parent
  have hmid : Layout pool ({(newPage, .internal ⟨up.parent, ((lb ++ [(k₀, toVal l)]) ++ right).map childItem⟩)} +
      (treeCells n (some page) (nextLeaf (n + 1) right up.next) r +
        ({(page, .internal ⟨up.parent, (a :: la).map childItem⟩)} +
          (itemCells (n + 1) newPage (some (firstLeaf n r)) (lb ++ [(k₀, toVal l)]) +
            itemCells (n + 1) newPage up.next right + (itemCells (n + 1) page (some (firstLeaf n z.2.tree)) (a :: la) +
              up.cells page (firstLeaf n a.2.tree)))))) := hpool.of_eq (by abel)
  have hset := hmid.setPage (.internal ⟨up.parent, (lb ++ (k₀, toVal l) :: (k, toVal r) :: right).map childItem⟩)
  rw [add_left_comm] at hset
  have hlink := hset.setParentTree (some newPage)
  have hnew' := DiskBufferPool.getInternal_of_get (hlink.of_eq (add_left_comm _ _ _)).get
  have hkey : InternalIndexNode.keyAt ⟨up.parent, ((lb ++ [(k₀, toVal l)]) ++ right).map childItem⟩ 0 = some z.1 := by
    rw [hz]; rfl
  have hkey' : InternalIndexNode.keyAt ⟨up.parent, (lb ++ (k₀, toVal l) :: (k, toVal r) :: right).map childItem⟩ 0 =
      some z.1 := by rw [hback]; rfl
  have hround := insertEntryIntoParent_full hs.get_left (topNode_parentPageNum n _ _ l) hparent
    (by rw [List.length_map, hlen]; exact lt_irrefl _) hsplit hold hnew hkey (by rw [if_pos hcmp, hinsert])
    hnew' hkey' fuel
  refine ⟨_, ⟨page, a :: la⟩, ⟨newPage, z :: (zs ++ (k, toVal r) :: right)⟩, z.1, hround, rfl, rfl,
    ⟨lo', hi', ?_⟩, by rw [hwhole, hback]⟩
  obtain ⟨-, -, -, hoccup⟩ := hs.pathOccupied
  refine split_of_cut (hlink.of_eq ?_) hs.root hup hoccup (by simp) (hback ▸ hchain)
    (hback ▸ hwhole ▸ hs.chainOccupied) ?_ ?_
  · rw [firstLeaf_cons newPage, ← hback]
    simp only [firstLeaf_cons, treeCells_succ, itemCells_append, itemCells_cons, itemCells_nil, nextLeaf_nil,
      nextLeaf_cons, toVal_tree]
    abel
  · simp only [SizeOk, IndexFileHeader.maxAt, hhalf]
    omega
  · rw [← hback]
    simp only [SizeOk, IndexFileHeader.maxAt, List.length_append, List.length_cons] at hfull hhalf ⊢
    omega

theorem Rebuilt.of_header {h₁ h₂ : BplusTreeHandler K} {entries : List (K × RID)} (hr : Rebuilt ord h₁ h₂ entries)
    (hheader : h₁.header = h.header) (hdisposed : h₁.disposedPages = h.disposedPages) : Rebuilt ord h h₂ entries := by
  obtain ⟨hlimits, hd, htree⟩ := hr
  rw [hheader] at hlimits
  exact ⟨hlimits, hd.trans hdisposed, htree⟩

theorem entries_split (up : Path K (n + 1)) (page : PageNum) (left right : Items K (n + 1)) (k₀ k : K) (l r : Tree K n) :
    up.before ++ contents (n + 1) (left ++ (k₀, toVal l) :: (k, toVal r) :: right) ++ up.after =
      (Path.step page left k₀ right up).before ++ contents n (l.items ++ r.items) ++
        (Path.step page left k₀ right up).after := by
  simp only [Path.before, Path.after, contents_append, contents_cons, toVal_tree, List.append_assoc]

/-- A split node is made known to its parent, and so on up to the root if need be. -/
theorem insertEntryIntoParent_spec {path : Path K n} {l r : Tree K n} {k : K} (hs : Split ord h path l r k lo hi)
    (hw : h.header.Wide) (fuel : ℕ) (hfuel : path.depth < fuel) :
    ∃ h', BplusTreeHandler.insertEntryIntoParent ops fuel h l.page r.page k = some (.success, h') ∧
      Rebuilt ord h h' (path.before ++ contents n (l.items ++ r.items) ++ path.after) := by
  induction path generalizing h lo hi k fuel with
  | top =>
    obtain ⟨fuel, rfl⟩ : ∃ f, fuel = f + 1 := ⟨fuel - 1, by omega⟩
    simpa [Path.before, Path.after, contents_append] using hs.newRoot hw fuel
  | step page left k₀ right up ih =>
    obtain ⟨fuel, rfl⟩ : ∃ f, fuel = f + 1 := ⟨fuel - 1, by omega⟩
    rw [← entries_split up page left right k₀ k l r]
    by_cases hroom : left.length + 1 + right.length < h.header.internalMaxSize
    · exact hs.absorb hw hroom fuel
    · have hwide := hw.internal
      have hfull : left.length + 1 + right.length = h.header.internalMaxSize :=
        le_antisymm hs.pathOccupied.1.2 (not_lt.mp hroom)
      have hround : ∃ h' l' r' k', BplusTreeHandler.insertEntryIntoParent ops (fuel + 1) h l.page r.page k =
            BplusTreeHandler.insertEntryIntoParent ops fuel h' l'.page r'.page k' ∧
          Propagated ord h h' up l' r' k' (left ++ (k₀, toVal l) :: (k, toVal r) :: right) := by
        by_cases hleft : left.length < h.header.internalMaxSize / 2
        · obtain ⟨ra, z, rb, rfl, hra⟩ : ∃ ra z rb, right = ra ++ z :: rb ∧
              left.length + 1 + ra.length = h.header.internalMaxSize / 2 := by
            have hi : h.header.internalMaxSize / 2 - (left.length + 1) < right.length := by omega
            refine ⟨right.take (h.header.internalMaxSize / 2 - (left.length + 1)), _, _,
              (List.take_append_drop _ right).symm.trans (by rw [List.drop_eq_getElem_cons hi]), ?_⟩
            rw [List.length_take]
            omega
          exact hs.propagateLeft hfull hra fuel
        · obtain ⟨la, lb, rfl, hla⟩ : ∃ la lb, left = la ++ lb ∧ la.length = h.header.internalMaxSize / 2 :=
            ⟨left.take (h.header.internalMaxSize / 2), left.drop (h.header.internalMaxSize / 2),
              (List.take_append_drop _ left).symm, by rw [List.length_take]; omega⟩
          exact hs.propagateRight hw hfull hla fuel
      obtain ⟨h', l', r', k', heq, hprop⟩ := hround
      obtain ⟨lo', hi', hsplit⟩ := hprop.split
      have hdepth : up.depth < fuel := by rw [Path.depth] at hfuel; omega
      obtain ⟨h'', hrun, hrebuilt⟩ := ih hsplit (hprop.header ▸ hw) fuel hdepth
      rw [hprop.items] at hrebuilt
      exact ⟨h'', heq.trans hrun, hrebuilt.of_header hprop.header hprop.disposed⟩

/-! ## The leaf -/

theorem leaf_insert {node : LeafIndexNode K} {pre post : List (K × RID)} (hitems : node.items = pre ++ post) (q : K)
    (rid : RID) : node.insert pre.length q rid = { node with items := pre ++ (q, rid) :: post } := by
  unfold LeafIndexNode.insert
  rw [hitems, List.take_left' rfl, List.drop_left' rfl]

theorem splitLeaf_layout {path : Path K 0} {page : PageNum} {items : List (K × RID)}
    (hlay : Layout h.pool (path.cells page page + treeCells 0 path.parent path.next (leafTree page items)))
    (front back : List (K × RID)) :
    Layout ((h.pool.allocatePage.2.setPage page (.leaf ⟨path.parent, some h.pool.allocatePage.1, front⟩)).setPage
        h.pool.allocatePage.1 (.leaf ⟨path.parent, path.next, back⟩))
      (path.cells page page + (treeCells 0 path.parent (some h.pool.allocatePage.1) (leafTree page front) +
        treeCells 0 path.parent path.next (leafTree h.pool.allocatePage.1 back))) := by
  obtain ⟨halloc, hnew, hbit⟩ := hlay.allocatePage
  generalize h.pool.allocatePage.1 = newPage at hnew hbit ⊢
  generalize h.pool.allocatePage.2 = pool at halloc hbit ⊢
  rw [treeCells, add_left_comm] at halloc
  have hold := halloc.setPage (.leaf ⟨path.parent, some newPage, front⟩)
  refine (hold.addPage ?_ hbit (.leaf ⟨path.parent, path.next, back⟩)).of_eq ?_
  · rw [treeCells, add_left_comm, addrs_add] at hnew
    rwa [addrs_add]
  · simp only [treeCells, topNode, itemCells]
    rw [leafTree, leafTree, leafTree]
    abel

theorem insertEntryIntoLeafNode_room (hw : h.header.Wide) {path : Path K 0} {page : PageNum} {pre post : List (K × RID)}
    (hf : Focus ord h path (leafTree page (pre ++ post)) lo hi) {q : K} {rid : RID}
    (hlookup : (if h.header.unique then
        LeafIndexNode.lookup ops.attrComparator ⟨path.parent, path.next, pre ++ post⟩ q
      else LeafIndexNode.lookup ops.keyComparator ⟨path.parent, path.next, pre ++ post⟩ q) = (pre.length, false))
    (hseg : SortedIn ord.key lo hi (pre ++ (q, rid) :: post))
    (hroom : (pre ++ post).length < h.header.leafMaxSize) :
    ∃ h', BplusTreeHandler.insertEntryIntoLeafNode ops h page q rid = some (.success, h') ∧
      Rebuilt ord h h' (path.before ++ (pre ++ (q, rid) :: post) ++ path.after) := by
  have hlay := hf.layout
  rw [treeCells, add_left_comm] at hlay
  have hset := hlay.setPage (.leaf ⟨path.parent, path.next, pre ++ (q, rid) :: post⟩)
  have hlen : (pre ++ (q, rid) :: post).length = (pre ++ post).length + 1 := by simp; omega
  have hinsert : LeafIndexNode.insert ⟨path.parent, path.next, pre ++ post⟩ pre.length q rid =
      ⟨path.parent, path.next, pre ++ (q, rid) :: post⟩ := leaf_insert rfl q rid
  have hmin : path.minItems h.header ≤ (pre ++ post).length := hf.minSize
  have hget : h.pool.getLeaf page = some ⟨path.parent, path.next, pre ++ post⟩ := hf.getLeaf
  unfold BplusTreeHandler.insertEntryIntoLeafNode
  simp only [hget, Option.bind_eq_bind, Option.bind_some, hlookup, Bool.false_eq_true, if_false, hroom, if_true, hinsert]
  have hfocus : Focus ord { h with pool := h.pool.setPage page (.leaf ⟨path.parent, path.next, pre ++ (q, rid) :: post⟩) }
      path (leafTree page (pre ++ (q, rid) :: post)) lo hi := by
    refine ⟨hset.of_eq (add_left_comm _ _ _), hf.root, hf.pathOrdered, hf.pathOccupied, hseg, trivial, ?_, ?_⟩
    · exact le_trans hmin (hlen ▸ Nat.le_succ _)
    · exact le_of_eq_of_le hlen hroom
  obtain ⟨m, t, ht, hcontents⟩ := hfocus.toRoot hw
  exact ⟨_, rfl, ⟨_, rfl⟩, rfl, m, t, ht, hcontents⟩

/-- The two halves hold the items with the new entry, cut behind the middle of the old items. -/
theorem splitLeaf_eq (parent next : Option PageNum) (newPage : PageNum) {pre post front back : List (K × RID)} {q : K}
    {rid : RID} (hitems : pre ++ (q, rid) :: post = front ++ back)
    (hcut : front.length = if pre.length < (pre ++ post).length / 2 then (pre ++ post).length / 2 + 1
      else (pre ++ post).length / 2) :
    BplusTreeHandler.splitLeaf ⟨parent, next, pre ++ post⟩ newPage pre.length q rid =
      (⟨parent, some newPage, front⟩, ⟨parent, next, back⟩) := by
  have hlen : ((pre ++ post).take ((pre ++ post).length / 2)).length = (pre ++ post).length / 2 := by
    rw [List.length_take]; omega
  unfold BplusTreeHandler.splitLeaf
  simp only [LeafIndexNode.moveHalfTo, hlen]
  generalize hm : (pre ++ post).length / 2 = m at hcut ⊢
  by_cases hlt : pre.length < m
  · rw [if_pos hlt] at hcut
    obtain ⟨pa, rfl, rfl⟩ : ∃ pa, front = pre ++ (q, rid) :: pa ∧ post = pa ++ back := by
      rcases List.append_eq_append_iff.mp hitems with ⟨pa, hfront, hpost⟩ | ⟨pb, hpre, -⟩
      · obtain ⟨pa, rfl⟩ : ∃ pa', pa = (q, rid) :: pa' := by
          cases pa with
          | nil => rw [hfront, List.append_nil] at hcut; omega
          | cons x pa => exact ⟨pa, by rw [List.cons_append, List.cons.injEq] at hpost; rw [← hpost.1]⟩
        exact ⟨pa, hfront, by simpa using hpost⟩
      · rw [hpre, List.length_append] at hlt; omega
    have hm' : (pre ++ pa).length = m := by simp at hcut ⊢; omega
    rw [if_pos hlt, ← List.append_assoc, List.take_left' hm', List.drop_left' hm', leaf_insert rfl]
  · rw [if_neg hlt] at hcut
    obtain ⟨pb, rfl, rfl⟩ : ∃ pb, pre = front ++ pb ∧ back = pb ++ (q, rid) :: post := by
      rcases List.append_eq_append_iff.mp hitems with ⟨pa, hfront, hpost⟩ | ⟨pb, hpre, hback⟩
      · obtain rfl : pa = [] := List.length_eq_zero_iff.mp (by rw [hfront, List.length_append] at hcut; omega)
        exact ⟨[], by simpa using hfront.symm, by simpa using hpost.symm⟩
      · exact ⟨pb, hpre, hback⟩
    have hpos : (front ++ pb).length - m = pb.length := by rw [List.length_append]; omega
    rw [if_neg hlt, List.append_assoc, List.take_left' hcut, List.drop_left' hcut, hpos, leaf_insert rfl]

theorem insertEntryIntoLeafNode_full {path : Path K 0} {page : PageNum} {pre post front back : List (K × RID)}
    {y : K × RID} (hf : Focus ord h path (leafTree page (pre ++ post)) lo hi) {q : K} {rid : RID}
    (hlookup : (if h.header.unique then
        LeafIndexNode.lookup ops.attrComparator ⟨path.parent, path.next, pre ++ post⟩ q
      else LeafIndexNode.lookup ops.keyComparator ⟨path.parent, path.next, pre ++ post⟩ q) = (pre.length, false))
    (hfull : ¬ (pre ++ post).length < h.header.leafMaxSize)
    (hitems : pre ++ (q, rid) :: post = front ++ y :: back)
    (hcut : front.length = if pre.length < (pre ++ post).length / 2 then (pre ++ post).length / 2 + 1
      else (pre ++ post).length / 2) :
    BplusTreeHandler.insertEntryIntoLeafNode ops h page q rid =
      BplusTreeHandler.insertEntryIntoParent ops h.pool.allocatePage.2.pageCount
        { h with
          pool := (h.pool.allocatePage.2.setPage page (.leaf ⟨path.parent, some h.pool.allocatePage.1, front⟩)).setPage
            h.pool.allocatePage.1 (.leaf ⟨path.parent, path.next, y :: back⟩) } page h.pool.allocatePage.1 y.1 := by
  have hget : h.pool.getLeaf page = some ⟨path.parent, path.next, pre ++ post⟩ := hf.getLeaf
  unfold BplusTreeHandler.insertEntryIntoLeafNode
  simp only [hget, Option.bind_eq_bind, Option.bind_some, hlookup, Bool.false_eq_true, if_false, hfull,
    splitLeaf_eq path.parent path.next _ hitems hcut]
  rfl

theorem insertEntryIntoLeafNode_absent (hw : h.header.Wide) {path : Path K 0} {page : PageNum}
    {pre post : List (K × RID)} (hf : Focus ord h path (leafTree page (pre ++ post)) lo hi) {q : K} {rid : RID}
    (hlookup : (if h.header.unique then
        LeafIndexNode.lookup ops.attrComparator ⟨path.parent, path.next, pre ++ post⟩ q
      else LeafIndexNode.lookup ops.keyComparator ⟨path.parent, path.next, pre ++ post⟩ q) = (pre.length, false))
    (hseg : SortedIn ord.key lo hi (pre ++ (q, rid) :: post)) :
    ∃ h', BplusTreeHandler.insertEntryIntoLeafNode ops h page q rid = some (.success, h') ∧
      Rebuilt ord h h' (path.before ++ (pre ++ (q, rid) :: post) ++ path.after) := by
  by_cases hroom : (pre ++ post).length < h.header.leafMaxSize
  · exact insertEntryIntoLeafNode_room hw hf hlookup hseg hroom
  have hwide := hw.leaf
  have hmax : (pre ++ post).length ≤ h.header.leafMaxSize := hf.maxSize
  have hlen : (pre ++ (q, rid) :: post).length = (pre ++ post).length + 1 := by simp; omega
  generalize hcut : (if pre.length < (pre ++ post).length / 2 then (pre ++ post).length / 2 + 1
    else (pre ++ post).length / 2) = s
  have hs : (pre ++ post).length / 2 ≤ s ∧ s ≤ (pre ++ post).length / 2 + 1 := by
    rw [← hcut]; split <;> omega
  obtain ⟨front, y, back, hitems, hfront⟩ : ∃ front y back, pre ++ (q, rid) :: post = front ++ y :: back ∧
      front.length = s := by
    have hlt : s < (pre ++ (q, rid) :: post).length := by omega
    refine ⟨(pre ++ (q, rid) :: post).take s, _, _,
      (List.take_append_drop s _).symm.trans (by rw [List.drop_eq_getElem_cons hlt]), ?_⟩
    rw [List.length_take]
    omega
  have hback : (y :: back).length = (pre ++ post).length + 1 - s := by
    have hsum : (pre ++ (q, rid) :: post).length = front.length + (y :: back).length := by
      rw [hitems, List.length_append]
    omega
  rw [insertEntryIntoLeafNode_full hf hlookup hroom hitems (hfront.trans hcut.symm)]
  have hleaf : Layout h.pool (path.cells page page +
      treeCells 0 path.parent path.next (leafTree page (pre ++ post))) := hf.layout
  have hlay := splitLeaf_layout hleaf front (y :: back)
  generalize h.pool.allocatePage.1 = newPage at hlay ⊢
  have hfuel : path.depth < h.pool.allocatePage.2.pageCount := by
    have hcard : _ ≤ h.pool.allocatePage.2.pageCount := hlay.card_le
    have hdepth := path.depth_le_card page page
    rw [treeCells, treeCells] at hcard
    simp only [Multiset.card_add, Multiset.card_singleton] at hcard
    omega
  have hfront0 : front ≠ [] := List.ne_nil_of_length_pos (by omega)
  have hsize1 : SizeOk h.header 0 front.length := by
    simp only [SizeOk, IndexFileHeader.maxAt]; omega
  have hsize2 : SizeOk h.header 0 (y :: back).length := by
    simp only [SizeOk, IndexFileHeader.maxAt]; omega
  rw [hitems] at hseg ⊢
  obtain ⟨h', hrun, hrebuilt⟩ := insertEntryIntoParent_spec (split_of_cut (h := { h with pool := _ }) hlay hf.root
    hf.pathOrdered hf.pathOccupied hfront0 hseg trivial hsize1 hsize2) hw _ hfuel
  exact ⟨h', hrun, hrebuilt.of_header rfl rfl⟩

/-! ## `insert_entry` -/

theorem Rebuilt.represents {h' : BplusTreeHandler K} {entries : List (K × RID)} (hr : Rebuilt ord h h' entries)
    (hw : h.header.Wide) (hdisposed : h.disposedPages = []) : Represents ord h' entries := by
  obtain ⟨⟨rootPage, hheader⟩, hd, m, t, ht, hcontents⟩ := hr
  refine ⟨?_, hd.trans hdisposed, Or.inr ⟨m, t, ht, hcontents.symm⟩⟩
  rw [hheader]
  exact ⟨hw.leaf, hw.internal⟩

theorem createNewTree_spec (hw : h.header.Wide) (hbounded : h.pool.Bounded) {q : K} (hq : ord.Known q) (rid : RID) :
    (h.createNewTree q rid).1 = .success ∧ Rebuilt ord h (h.createNewTree q rid).2 [(q, rid)] := by
  have hempty : Layout h.pool (0 : Multiset (PageNum × IndexNode K)) :=
    ⟨⟨by simp, by simp [addrs]⟩, by simp [addrs], hbounded⟩
  obtain ⟨halloc, hnew, hbit⟩ := hempty.allocatePage
  have hadd := halloc.addPage hnew hbit (.leaf ⟨none, none, [(q, rid)]⟩)
  refine ⟨rfl, ⟨_, rfl⟩, rfl, 0, leafTree h.pool.allocatePage.1 [(q, rid)], ⟨?_, rfl, ⟨rfl, rfl⟩, trivial, ?_, trivial, ?_, ?_⟩,
    rfl⟩
  · exact hadd.of_eq (by simp only [Path.cells, treeCells, topNode, itemCells]; rw [zero_add]; rfl)
  · exact ⟨List.pairwise_singleton _ _, fun x hx => by
      rw [List.mem_singleton.mp hx]; exact ⟨bot_le, hq, ord.lt_top q⟩⟩
  · exact le_refl 1
  · exact le_trans (by omega : 1 ≤ 4) hw.leaf

/-- `insert_entry` makes a new tree, or goes down to the leaf of the key. -/
theorem insertEntry_cases {entries : List (K × RID)} (hr : Represents ord h entries) {q : K} (hq : ord.Known q) (rid : RID) :
    (entries = [] ∧ ∃ h', BplusTreeHandler.insertEntry ops h q rid = some (.success, h') ∧ Rebuilt ord h h' [(q, rid)]) ∨
      ∃ (path : Path K 0) (page : PageNum) (items : List (K × RID)) (lo hi : B),
        Focus ord h path (leafTree page items) lo hi ∧ lo ≤ ord.key q ∧ ord.key q < hi ∧
        entries = path.before ++ items ++ path.after ∧
        BplusTreeHandler.insertEntry ops h q rid = BplusTreeHandler.insertEntryIntoLeafNode ops h page q rid := by
  rcases hr.tree with ⟨hroot, rfl, hbounded⟩ | ⟨n, t, hf, rfl⟩
  · obtain ⟨hrc, hnew⟩ := createNewTree_spec hr.wide hbounded hq rid
    refine Or.inl ⟨rfl, _, ?_, hnew⟩
    rw [BplusTreeHandler.insertEntry, hroot]
    exact congrArg some (Prod.ext hrc rfl)
  · obtain ⟨path, page, items, lo, hi, hleaf, hlo, hhi, hentries, hfind⟩ := findLeaf_spec hr.wide hf hq
    have hroot : h.header.rootPage = some t.page := hf.root
    refine Or.inr ⟨path, page, items, lo, hi, hleaf, hlo, hhi, hentries.symm, ?_⟩
    rw [BplusTreeHandler.insertEntry, hroot]
    simp only [hfind, Option.bind_eq_bind, Option.bind_some]

/-- `insert_entry` on a non-unique tree: refused exactly when the key is there, and otherwise the entry is added. -/
theorem insertEntry_nonunique {entries : List (K × RID)} (hr : Represents ord h entries) (hu : h.header.unique = false)
    {q : K} (hq : ord.Known q) (rid : RID) :
    ((∃ x ∈ entries, ord.Same x.1 q) ∧
        BplusTreeHandler.insertEntry ops h q rid = some (.recordDuplicateKey, h)) ∨
      ∃ h' front back, entries = front ++ back ∧ BplusTreeHandler.insertEntry ops h q rid = some (.success, h') ∧
        Rebuilt ord h h' (front ++ (q, rid) :: back) := by
  rcases insertEntry_cases hr hq rid with ⟨rfl, h', hdone, hnew⟩ | ⟨path, page, items, lo, hi, hleaf, hlo, hhi, rfl, hrun⟩
  · exact Or.inr ⟨h', [], [], rfl, hdone, hnew⟩
  · have hsorted : SortedIn ord.key lo hi items := hleaf.ordered
    have hget : h.pool.getLeaf page = some ⟨path.parent, path.next, items⟩ := hleaf.getLeaf
    rw [hrun]
    rcases leaf_split ord hsorted hq with ⟨pre, post, rfl, hpre, hpost⟩ | ⟨pre, x, post, rfl, hx, hpre, hpost⟩
    · have hlookup : LeafIndexNode.lookup ops.keyComparator ⟨path.parent, path.next, pre ++ post⟩ q =
          (pre.length, false) := leaf_lookup_absent ord rfl hq (fun y hy => (hsorted.2 y (by simp [hy])).2.1) hpre hpost
      obtain ⟨h', hdone, hrebuilt⟩ := insertEntryIntoLeafNode_absent hr.wide hleaf
        (by rw [hu]; exact hlookup) (sortedIn_insert (x := (q, rid)) hsorted hpre hpost hlo hq hhi)
      refine Or.inr ⟨h', path.before ++ pre, post ++ path.after, by simp, hdone, ?_⟩
      simpa using hrebuilt
    · have hlookup : LeafIndexNode.lookup ops.keyComparator ⟨path.parent, path.next, pre ++ x :: post⟩ q =
          (pre.length, true) := leaf_lookup_present ord rfl hq (fun y hy => (hsorted.2 y (by simp [hy])).2.1) hpre hx hpost
      refine Or.inl ⟨⟨x, by simp, hx⟩, ?_⟩
      unfold BplusTreeHandler.insertEntryIntoLeafNode
      simp only [hget, Option.bind_eq_bind, Option.bind_some, hu, Bool.false_eq_true, if_false, hlookup, if_true]
      rfl

end Landbase.Index
