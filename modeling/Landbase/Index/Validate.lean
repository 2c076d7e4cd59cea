import Landbase.Index.Focus

/-! # Reading the tree back

The leaves of a well-formed tree form one chain, so a walk from `left_most_page` through the next-brother links reads the
entries in order (`leafChain_eq`), and the server's own check accepts the tree (`validateTree_eq`).
-/

namespace Landbase.Index
open Landbase.Lib Landbase.Common
set_option autoImplicit false

variable {K B : Type} {n : ℕ}

/-! ## The chain of the leaves -/

/-- The leaves of a tree with their entries, from left to right. -/
def leavesOf : (n : ℕ) → Tree K n → List (PageNum × List (K × RID))
  | 0, t => [(t.page, t.items)]
  | n + 1, t => t.items.flatMap fun x => leavesOf n x.2.tree

/-- The page that comes first. -/
def headPage (leaves : List (PageNum × List (K × RID))) (next : Option PageNum) : Option PageNum :=
  match leaves with
  | [] => next
  | leaf :: _ => some leaf.1

/-- Each leaf is stored and linked to the one behind it. -/
def Linked (pool : DiskBufferPool K) : List (PageNum × List (K × RID)) → Option PageNum → Prop
  | [], _ => True
  | leaf :: leaves, next =>
    (∃ parent, pool.getLeaf leaf.1 = some ⟨parent, headPage leaves next, leaf.2⟩) ∧ Linked pool leaves next

theorem headPage_append (front back : List (PageNum × List (K × RID))) (next : Option PageNum) :
    headPage (front ++ back) next = headPage front (headPage back next) := by
  cases front <;> rfl

theorem linked_append {pool : DiskBufferPool K} {front back : List (PageNum × List (K × RID))} {next : Option PageNum} :
    Linked pool (front ++ back) next ↔ Linked pool front (headPage back next) ∧ Linked pool back next := by
  induction front with
  | nil => simp [Linked]
  | cons leaf front ih => simp only [List.cons_append, Linked, headPage_append, ih, and_assoc]

theorem contents_leavesOf (t : Tree K n) : (leavesOf n t).flatMap Prod.snd = contents n t.items := by
  induction n with
  | zero => exact List.append_nil _
  | succ n ih =>
    simp only [leavesOf, contents, List.flatMap_assoc]
    exact List.flatMap_congr fun x _ => ih x.2.tree

section Order
variable [Preorder B] [OrderBot B] {key : K → B} {lo hi : B}

theorem headPage_leavesOf {t : Tree K n} (hseg : Seg key n lo hi t.items) (hne : t.items ≠ []) (next : Option PageNum) :
    headPage (leavesOf n t) next = some (firstLeaf n t) ∧ ∀ leaf ∈ leavesOf n t, leaf.2 ≠ [] := by
  induction n generalizing lo hi next with
  | zero =>
    refine ⟨rfl, fun leaf hleaf => ?_⟩
    rw [List.mem_singleton.mp hleaf]
    exact hne
  | succ n ih =>
    obtain ⟨page, items⟩ := t
    refine ⟨?_, ?_⟩
    · obtain ⟨x, items, rfl⟩ := List.exists_cons_of_ne_nil hne
      obtain ⟨-, -, ⟨hxne, hx⟩, -⟩ := hseg
      rw [leavesOf, List.flatMap_cons, headPage_append, firstLeaf_cons]
      exact (ih hx hxne _).1
    · intro leaf hleaf
      obtain ⟨x, hx, hmem⟩ := List.mem_flatMap.mp hleaf
      obtain ⟨lo', hi', -, -, hxne, hxseg⟩ := SepChain.child (seg_succ.mp hseg) hx
      exact (ih hxseg hxne none).2 leaf hmem

theorem linked_leavesOf {pool : DiskBufferPool K} {t : Tree K n} {parent next : Option PageNum}
    (hstored : ∀ c ∈ treeCells n parent next t, pool.getThisPage c.1 = some c.2) (hseg : Seg key n lo hi t.items)
    (hne : t.items ≠ []) : Linked pool (leavesOf n t) next := by
  induction n generalizing lo hi parent next with
  | zero =>
    have hget : pool.getThisPage t.page = some (.leaf ⟨parent, next, t.items⟩) :=
      hstored (t.page, topNode 0 parent next t) (by simp [treeCells])
    exact ⟨⟨parent, DiskBufferPool.getLeaf_of_get hget⟩, trivial⟩
  | succ n ih =>
    obtain ⟨page, items⟩ := t
    rw [treeCells_succ] at hstored
    replace hstored : ∀ c ∈ itemCells (n + 1) page next items, pool.getThisPage c.1 = some c.2 :=
      fun c hc => hstored c (Multiset.mem_add.mpr (Or.inr hc))
    rw [seg_succ] at hseg
    simp only at hseg
    clear hne
    rw [leavesOf]
    simp only
    induction items generalizing lo with
    | nil => trivial
    | cons x items ihx =>
      obtain ⟨-, -, ⟨hxne, hx⟩, hrest⟩ := hseg
      rw [itemCells_cons] at hstored
      rw [List.flatMap_cons, linked_append]
      have htail := ihx hrest (fun c hc => hstored c (Multiset.mem_add.mpr (Or.inr hc)))
      refine ⟨?_, htail⟩
      have hlink : headPage (items.flatMap fun x => leavesOf n x.2.tree) next = nextLeaf (n + 1) items next := by
        cases items with
        | nil => rfl
        | cons y items =>
          obtain ⟨-, -, ⟨hyne, hy⟩, -⟩ := hrest
          rw [List.flatMap_cons, headPage_append, (headPage_leavesOf hy hyne _).1, nextLeaf_cons]
      rw [hlink]
      exact ih (fun c hc => hstored c (Multiset.mem_add.mpr (Or.inl hc))) hx hxne

end Order

theorem length_leavesOf_le (t : Tree K n) (parent next : Option PageNum) :
    (leavesOf n t).length ≤ Multiset.card (treeCells n parent next t) := by
  induction n generalizing parent next with
  | zero => simp [leavesOf, treeCells]
  | succ n ih =>
    obtain ⟨page, items⟩ := t
    rw [treeCells_succ, Multiset.card_add, Multiset.card_singleton]
    refine le_trans ?_ (Nat.le_add_left _ _)
    rw [leavesOf]
    simp only
    induction items with
    | nil => simp
    | cons x items ihx =>
      rw [List.flatMap_cons, List.length_append, itemCells_cons, Multiset.card_add]
      exact Nat.add_le_add (ih x.2.tree _ _) ihx

/-! ## Walking along the chain -/

theorem leafLinkItems_eq {pool : DiskBufferPool K} {leaf : PageNum × List (K × RID)}
    {leaves : List (PageNum × List (K × RID))} (hlinked : Linked pool (leaf :: leaves) none) (fuel : ℕ)
    (hfuel : leaves.length < fuel) :
    BplusTreeHandler.leafLinkItems pool fuel leaf.1 = some ((leaf :: leaves).flatMap Prod.snd) := by
  induction leaves generalizing leaf fuel with
  | nil =>
    obtain ⟨fuel, rfl⟩ : ∃ f, fuel = f + 1 := ⟨fuel - 1, by omega⟩
    obtain ⟨⟨parent, hget⟩, -⟩ := hlinked
    simp only [BplusTreeHandler.leafLinkItems, hget, Option.bind_eq_bind, Option.bind_some, headPage]
    simp
  | cons leaf' leaves ih =>
    obtain ⟨fuel, rfl⟩ : ∃ f, fuel = f + 1 := ⟨fuel - 1, by omega⟩
    obtain ⟨⟨parent, hget⟩, hrest⟩ := hlinked
    have hnext := ih hrest fuel (by rw [List.length_cons] at hfuel; omega)
    simp only [BplusTreeHandler.leafLinkItems, hget, Option.bind_eq_bind, Option.bind_some, headPage, hnext]
    simp

section Handler
variable [Preorder B] [BoundedOrder B] {ops : KeyOps K} {ord : KeyOrder ops B} {h : BplusTreeHandler K} {lo hi : B}

theorem Focus.stored {path : Path K n} {t : Tree K n} (hf : Focus ord h path t lo hi) :
    ∀ c ∈ treeCells n path.parent path.next t, h.pool.getThisPage c.1 = some c.2 :=
  fun _ hc => hf.layout.get_of_mem (Multiset.mem_add.mpr (Or.inr hc))

theorem Focus.chain {t : Tree K n} (hf : Focus ord h Path.top t lo hi) (hw : h.header.Wide) :
    ∃ leaf leaves, leavesOf n t = leaf :: leaves ∧ leaf.1 = firstLeaf n t ∧ Linked h.pool (leaf :: leaves) none ∧
      leaves.length < h.pool.pageCount ∧ ∀ l ∈ leaf :: leaves, l.2 ≠ [] := by
  have hlinked := linked_leavesOf hf.stored hf.ordered (hf.nonempty hw)
  obtain ⟨hhead, hnonempty⟩ := headPage_leavesOf hf.ordered (hf.nonempty hw) none
  have hlen := length_leavesOf_le t (Path.top : Path K n).parent (Path.top : Path K n).next
  have hcard := hf.layout.card_le
  rw [Multiset.card_add] at hcard
  match hleaves : leavesOf n t with
  | [] => rw [hleaves] at hhead; cases hhead
  | leaf :: leaves =>
    rw [hleaves] at hhead hlinked hlen hnonempty
    refine ⟨leaf, leaves, rfl, Option.some.inj hhead, hlinked, ?_, hnonempty⟩
    rw [List.length_cons] at hlen
    omega

theorem leftMost_eq (hw : h.header.Wide) {path : Path K n} {t : Tree K n} (hf : Focus ord h path t lo hi) (fuel : ℕ)
    (hfuel : n < fuel) :
    BplusTreeHandler.findLeafInternal (fun node => node.valueAt 0) h.pool fuel t.page = some (firstLeaf n t) := by
  induction n generalizing lo hi fuel with
  | zero =>
    obtain ⟨fuel, rfl⟩ : ∃ f, fuel = f + 1 := ⟨fuel - 1, by omega⟩
    simp only [BplusTreeHandler.findLeafInternal, hf.get, topNode, Option.bind_eq_bind, Option.bind_some]
    rfl
  | succ n ih =>
    obtain ⟨fuel, rfl⟩ : ∃ f, fuel = f + 1 := ⟨fuel - 1, by omega⟩
    obtain ⟨page, items⟩ := t
    obtain ⟨x, items, rfl⟩ := List.exists_cons_of_ne_nil (hf.nonempty hw)
    have hfirst : Focus ord h path ⟨page, [] ++ x :: items⟩ lo hi := hf
    obtain ⟨lo', hdown, -⟩ := hfirst.down
    have hvalue : (⟨path.parent, (x :: items).map childItem⟩ : InternalIndexNode K).valueAt 0 = some x.2.tree.page := rfl
    simp only [BplusTreeHandler.findLeafInternal, hf.get, topNode, Option.bind_eq_bind, Option.bind_some, hvalue,
      ih hdown fuel (by omega), firstLeaf_cons]

theorem leafChain_eq {entries : List (K × RID)} (hr : Represents ord h entries) : h.leafChain = some entries := by
  rcases hr.tree with ⟨hroot, rfl, -⟩ | ⟨n, t, hf, rfl⟩
  · rw [BplusTreeHandler.leafChain, hroot]
  · have hroot : h.header.rootPage = some t.page := hf.root
    obtain ⟨leaf, leaves, hleaves, hfirst, hlinked, hfuel, -⟩ := hf.chain hr.wide
    have hleft : h.leftMostPage t.page = some leaf.1 := by
      rw [hfirst]
      exact leftMost_eq hr.wide hf h.pool.pageCount (hf.height_lt hr.wide)
    rw [BplusTreeHandler.leafChain, hroot]
    simp only [hleft, Option.bind_eq_bind, Option.bind_some]
    rw [leafLinkItems_eq hlinked h.pool.pageCount hfuel, ← hleaves, contents_leavesOf]

/-! ## The checks of one node -/

theorem keysIncrease_eq (ord : KeyOrder ops B) {keys : List K} (hknown : ∀ k ∈ keys, ord.Known k)
    (hpair : (keys.map ord.key).Pairwise (· < ·)) : BplusTreeHandler.keysIncrease ops keys = true := by
  induction keys with
  | nil => rfl
  | cons a keys ih =>
    rw [List.map_cons, List.pairwise_cons] at hpair
    have hrest := ih (fun k hk => hknown k (by simp [hk])) hpair.2
    cases keys with
    | nil => rfl
    | cons b keys =>
      have hab : ops.keyComparator a b < 0 := KeyOrder.neg (hknown a (by simp)) (hpair.1 _ (by simp))
      simp only [BplusTreeHandler.keysIncrease, hab, decide_true, Bool.true_and]
      exact hrest

theorem page_mem_addrs {items : Items K (n + 1)} (page : PageNum) (next : Option PageNum) {x : K × Val K (n + 1)}
    (hx : x ∈ items) : x.2.tree.page ∈ addrs (itemCells (n + 1) page next items) := by
  obtain ⟨front, back, rfl⟩ := List.append_of_mem hx
  rw [itemCells_append, itemCells_cons, treeCells]
  simp only [addrs_add, Multiset.mem_add]
  exact Or.inr (Or.inl (Or.inl (Multiset.mem_singleton_self _)))

/-- A node is found at its place in the parent, because no page occurs twice. -/
theorem Focus.valueIndex {page : PageNum} {left right : Items K (n + 1)} {k : K} {up : Path K (n + 1)} {t : Tree K n}
    (hf : Focus ord h (Path.step page left k right up) t lo hi) :
    InternalIndexNode.valueIndex ⟨up.parent, (left ++ (k, toVal t) :: right).map childItem⟩ t.page =
      some left.length := by
  have hnotin : ∀ x ∈ left, x.2.tree.page ≠ t.page := by
    intro x hx heq
    have hmem : x.2.tree.page ∈ addrs ((Path.step page left k right up).cells t.page (firstLeaf n t)) := by
      simp only [Path.cells, addrs_add, Multiset.mem_add]
      exact Or.inl (Or.inl (Or.inr (page_mem_addrs page (some (firstLeaf n t)) hx)))
    refine hf.layout.stored.disjoint hmem ?_
    rw [heq, treeCells, addrs_add]
    exact Multiset.mem_add.mpr (Or.inl (Multiset.mem_singleton_self _))
  have hnone : (left.map childItem).findIdx? (fun item : K × PageNum => item.2 == t.page) = none := by
    rw [List.findIdx?_eq_none_iff]
    intro item hitem
    obtain ⟨x, hx, rfl⟩ := List.mem_map.mp hitem
    simpa [childItem] using hnotin x hx
  unfold InternalIndexNode.valueIndex
  simp only [List.map_append, List.map_cons, List.findIdx?_append, hnone, Option.none_or, List.findIdx?_cons]
  simp [childItem]

theorem Focus.validateInParent {page : PageNum} {left right : Items K (n + 1)} {k : K} {up : Path K (n + 1)}
    {t : Tree K n} (hf : Focus ord h (Path.step page left k right up) t lo hi) (hw : h.header.Wide) {first last : K}
    (hfirst : ord.Known first ∧ lo ≤ ord.key first) (hlast : ord.Known last ∧ ord.key last < hi) :
    BplusTreeHandler.validateInParent ops h.pool t.page page first last = true := by
  obtain ⟨lo', hi', hup⟩ := hf.up hw
  obtain ⟨lo'', hi'', -, hhole⟩ := hf.pathOrdered
  have hparent : h.pool.getInternal page = some ⟨up.parent, (left ++ (k, toVal t) :: right).map childItem⟩ :=
    hup.getInternal
  unfold BplusTreeHandler.validateInParent
  simp only [hparent, hf.valueIndex, Bool.and_eq_true, Bool.or_eq_true, beq_iff_eq]
  refine ⟨?_, ?_⟩
  · by_cases hleft : left = []
    · exact Or.inl (by rw [hleft]; rfl)
    · refine Or.inr ?_
      have hkey : InternalIndexNode.keyAt ⟨up.parent, (left ++ (k, toVal t) :: right).map childItem⟩ left.length =
          some k := by simp [InternalIndexNode.keyAt, childItem]
      have hlo : lo = ord.key k := by rw [hhole.lower, if_neg hleft]
      have hk : ord.Known k := KeyOrder.known_of_lt ((hhole.front hleft).lt hleft)
      have hcmp : ¬ ops.keyComparator first k < 0 := by
        rw [ord.neg_iff first k hfirst.1 hk]
        exact not_lt_of_ge (hlo ▸ hfirst.2)
      rw [hkey, Option.any_some, decide_eq_true_iff]
      exact not_lt.mp hcmp
  · cases right with
    | nil => simp [InternalIndexNode.keyAt]
    | cons y right =>
      have hkey : InternalIndexNode.keyAt ⟨up.parent, (left ++ (k, toVal t) :: y :: right).map childItem⟩
          (left.length + 1) = some y.1 := by simp [InternalIndexNode.keyAt, childItem]
      have hhi : hi = ord.key y.1 := hhole.upper
      simp only [hkey, decide_eq_true_iff]
      exact KeyOrder.neg hlast.1 (hhi ▸ hlast.2)

theorem Focus.validateLeaf {path : Path K 0} {page : PageNum} {items : List (K × RID)}
    (hf : Focus ord h path (leafTree page items) lo hi) (hw : h.header.Wide) :
    BplusTreeHandler.validateLeaf ops h.pool page ⟨path.parent, path.next, items⟩ = some true := by
  have hne : items ≠ [] := hf.nonempty hw
  have hsorted : SortedIn ord.key lo hi items := hf.ordered
  have hroot : BplusTreeHandler.validateRoot (.leaf ⟨path.parent, path.next, items⟩ : IndexNode K) = true := by
    have hlen : 1 ≤ items.length := List.length_pos_iff.mpr hne
    simp [BplusTreeHandler.validateRoot, hlen]
  have hkeys : BplusTreeHandler.keysIncrease ops (items.map Prod.fst) = true := by
    refine keysIncrease_eq ord ?_ ?_
    · intro k hk
      obtain ⟨x, hx, rfl⟩ := List.mem_map.mp hk
      exact (hsorted.2 x hx).2.1
    · rw [List.map_map]
      exact hsorted.1
  unfold BplusTreeHandler.validateLeaf
  simp only [hroot, hkeys, Bool.not_true, Bool.false_eq_true, if_false]
  cases path with
  | top => rfl
  | step parent left k right up =>
    obtain ⟨x, items, rfl⟩ := List.exists_cons_of_ne_nil hne
    obtain ⟨y, hy, -, hyknown, hyhi⟩ := last_key hf.ordered hne (Or.inl rfl)
    have hxin := hsorted.2 x (by simp)
    have hparent : BplusTreeHandler.validateInParent ops h.pool page parent x.1 y.1 = true :=
      hf.validateInParent hw ⟨hxin.2.1, hxin.1⟩ ⟨hyknown, hyhi⟩
    have hlast : (x :: items)[(x :: items).length - 1]? = some y := hy
    simp only [Path.parent_step, IndexNode.keyAt, hlast, List.getElem?_cons_zero, Option.map_some, Option.bind_eq_bind,
      Option.bind_some]
    exact congrArg some hparent

theorem Focus.validateInternal {path : Path K (n + 1)} {t : Tree K (n + 1)} (hf : Focus ord h path t lo hi)
    (hw : h.header.Wide) :
    BplusTreeHandler.validateInternal ops h.pool t.page ⟨path.parent, t.items.map childItem⟩ = some true := by
  obtain ⟨page, items⟩ := t
  have hne : items ≠ [] := hf.nonempty hw
  have hlen : 2 ≤ items.length := le_trans (path.minItems_succ hw) hf.minSize
  obtain ⟨x, y, items, rfl⟩ : ∃ x y items', items = x :: y :: items' := by
    match items, hlen with
    | x :: y :: items, _ => exact ⟨x, y, items, rfl⟩
  obtain ⟨hpair, hbound⟩ := SepChain.tail_keys (seg_succ.mp hf.ordered)
  have hroot : BplusTreeHandler.validateRoot
      (.internal ⟨path.parent, (x :: y :: items).map childItem⟩ : IndexNode K) = true := by
    simp [BplusTreeHandler.validateRoot]
  have hkeys : BplusTreeHandler.keysIncrease ops ((((x :: y :: items).map childItem).drop 1).map Prod.fst) = true := by
    refine keysIncrease_eq ord ?_ ?_
    · intro k hk
      rw [List.map_cons, List.drop_one, List.tail_cons, List.map_map] at hk
      obtain ⟨z, hz, rfl⟩ := List.mem_map.mp hk
      exact KeyOrder.known_of_lt (hbound z hz).1
    · rw [List.map_cons, List.drop_one, List.tail_cons, List.map_map, List.map_map]
      exact hpair
  have hchildren : ((x :: y :: items).map childItem).all (BplusTreeHandler.childLinked h.pool page) = true := by
    rw [List.all_eq_true]
    intro item hitem
    obtain ⟨z, hz, rfl⟩ := List.mem_map.mp hitem
    obtain ⟨front, back, hcut⟩ := List.append_of_mem hz
    have hfz : Focus ord h path ⟨page, front ++ z :: back⟩ lo hi := hcut ▸ hf
    obtain ⟨lo', hdown, -⟩ := hfz.down
    have hget : h.pool.getThisPage (childItem z).2 = some (topNode n (some page) _ z.2.tree) := hdown.get
    simp only [BplusTreeHandler.childLinked, hget, topNode_parentPageNum, beq_self_eq_true]
  unfold BplusTreeHandler.validateInternal
  simp only [hroot, hkeys, hchildren, Bool.not_true, Bool.false_eq_true, if_false]
  cases path with
  | top => rfl
  | step parent left k right up =>
    obtain ⟨z, hz, -, hzknown, hzhi⟩ := last_key hf.ordered hne (Or.inr hlen)
    have hy := hbound y (by simp)
    have hparent : BplusTreeHandler.validateInParent ops h.pool page parent y.1 z.1 = true :=
      hf.validateInParent hw ⟨KeyOrder.known_of_lt hy.1, le_of_lt hy.1⟩ ⟨hzknown, hzhi⟩
    have hlast : InternalIndexNode.keyAt ⟨some parent, (x :: y :: items).map childItem⟩
        (((x :: y :: items).map childItem).length - 1) = some z.1 := by
      have hz' : (x :: y :: items)[(x :: y :: items).length - 1]? = some z := hz
      rw [InternalIndexNode.keyAt, List.length_map, List.getElem?_map, hz']
      rfl
    have hfirst : InternalIndexNode.keyAt ⟨some parent, (x :: y :: items).map childItem⟩ 1 = some y.1 := rfl
    simp only [Path.parent_step, hfirst, hlast, Option.bind_eq_bind, Option.bind_some, hparent]
    rfl

/-! ## The whole tree -/

theorem Focus.validateNodeRecursive {path : Path K n} {t : Tree K n} (hf : Focus ord h path t lo hi)
    (hw : h.header.Wide) (fuel : ℕ) (hfuel : n < fuel) :
    BplusTreeHandler.validateNodeRecursive ops h.pool fuel t.page = some true := by
  induction n generalizing lo hi fuel with
  | zero =>
    obtain ⟨fuel, rfl⟩ : ∃ f, fuel = f + 1 := ⟨fuel - 1, by omega⟩
    simp only [BplusTreeHandler.validateNodeRecursive, hf.get, topNode, Option.bind_eq_bind, Option.bind_some]
    exact Focus.validateLeaf hf hw
  | succ n ih =>
    obtain ⟨fuel, rfl⟩ : ∃ f, fuel = f + 1 := ⟨fuel - 1, by omega⟩
    simp only [BplusTreeHandler.validateNodeRecursive, hf.get, topNode, Option.bind_eq_bind, Option.bind_some,
      hf.validateInternal hw, List.foldl_map]
    have hchild : ∀ x ∈ t.items, BplusTreeHandler.validateNodeRecursive ops h.pool fuel x.2.tree.page = some true := by
      intro x hx
      obtain ⟨page, items⟩ := t
      obtain ⟨front, back, rfl⟩ := List.append_of_mem hx
      obtain ⟨lo', hdown, -⟩ := hf.down
      exact ih hdown fuel (by omega)
    generalize t.items = items at hchild
    induction items with
    | nil => rfl
    | cons x items ihx =>
      rw [List.foldl_cons]
      have hx : BplusTreeHandler.validateNodeRecursive ops h.pool fuel (childItem x).2 = some true :=
        hchild x (by simp)
      simp only [Option.bind_some, if_true, hx]
      exact ihx (fun y hy => hchild y (by simp [hy]))

theorem validateLeafLinkLoop_eq {pool : DiskBufferPool K} {leaves : List (PageNum × List (K × RID))}
    (hlinked : Linked pool leaves none) (hne : ∀ leaf ∈ leaves, leaf.2 ≠ []) {prevKey : K} (hprev : ord.Known prevKey)
    (hpair : ((leaves.flatMap Prod.snd).map fun x => ord.key x.1).Pairwise (· < ·))
    (hlt : ∀ x ∈ leaves.flatMap Prod.snd, ord.key prevKey < ord.key x.1) (fuel : ℕ) (hfuel : leaves.length ≤ fuel) :
    BplusTreeHandler.validateLeafLinkLoop ops pool fuel prevKey (headPage leaves none) = some true := by
  induction leaves generalizing prevKey fuel with
  | nil => rw [headPage, BplusTreeHandler.validateLeafLinkLoop]
  | cons leaf leaves ih =>
    obtain ⟨fuel, rfl⟩ : ∃ f, fuel = f + 1 := ⟨fuel - 1, by rw [List.length_cons] at hfuel; omega⟩
    obtain ⟨page, items⟩ := leaf
    obtain ⟨⟨parent, hget⟩, hrest⟩ := hlinked
    have hitems : items ≠ [] := hne (page, items) (by simp)
    obtain ⟨x, hx⟩ : ∃ x, items[0]? = some x := by
      obtain ⟨x, items, rfl⟩ := List.exists_cons_of_ne_nil hitems
      exact ⟨x, rfl⟩
    obtain ⟨front, y, rfl⟩ : ∃ front y, items = front ++ [y] := ⟨_, _, (List.dropLast_append_getLast hitems).symm⟩
    have hy : (front ++ [y])[(front ++ [y]).length - 1]? = some y := by simp
    have hxlt : ord.key prevKey < ord.key x.1 := hlt x (by
      rw [List.flatMap_cons]
      exact List.mem_append_left _ (List.mem_of_getElem? hx))
    have hcmp : ¬ ops.keyComparator prevKey x.1 ≥ 0 := not_le.mpr (KeyOrder.neg hprev hxlt)
    have hyknown : ord.Known y.1 := KeyOrder.known_of_lt (hlt y (by simp))
    rw [List.flatMap_cons, List.map_append, List.pairwise_append] at hpair
    obtain ⟨-, hpair, hcross⟩ := hpair
    have hnext := ih hrest (fun leaf hleaf => hne leaf (by simp [hleaf])) hyknown hpair
      (fun z hz => hcross _ (by simp) _ (List.mem_map_of_mem hz)) fuel (by rw [List.length_cons] at hfuel; omega)
    rw [headPage, BplusTreeHandler.validateLeafLinkLoop]
    simp only [hget, Option.bind_eq_bind, Option.bind_some, IndexNode.keyAt, hx, hy, Option.map_some, hcmp, if_false]
    exact hnext

/-- The server's check accepts every well-formed tree. -/
theorem validateTree_eq {entries : List (K × RID)} (hr : Represents ord h entries) :
    BplusTreeHandler.validateTree ops h = some true := by
  rcases hr.tree with ⟨hroot, rfl, -⟩ | ⟨n, t, hf, rfl⟩
  · rw [BplusTreeHandler.validateTree, hroot]
  · have hroot : h.header.rootPage = some t.page := hf.root
    obtain ⟨leaf, leaves, hleaves, hfirst, hlinked, hfuel, hne⟩ := hf.chain hr.wide
    have hleft : h.leftMostPage t.page = some leaf.1 := by
      rw [hfirst]
      exact leftMost_eq hr.wide hf h.pool.pageCount (hf.height_lt hr.wide)
    obtain ⟨⟨parent, hget⟩, hrest⟩ := hlinked
    have hsorted := hf.ordered.sorted
    rw [← contents_leavesOf, hleaves, List.flatMap_cons] at hsorted
    obtain ⟨hpair, hbound⟩ := hsorted
    rw [List.map_append, List.pairwise_append] at hpair
    obtain ⟨front, y, hitems⟩ : ∃ front y, leaf.2 = front ++ [y] :=
      ⟨_, _, (List.dropLast_append_getLast (hne leaf (by simp))).symm⟩
    have hy : leaf.2[leaf.2.length - 1]? = some y := by rw [hitems]; simp
    have hymem : y ∈ leaf.2 := List.mem_of_getElem? hy
    have hloop := validateLeafLinkLoop_eq hrest (fun l hl => hne l (by simp [hl]))
      (hbound y (List.mem_append_left _ hymem)).2.1 hpair.2.1
      (fun z hz => hpair.2.2 _ (List.mem_map_of_mem hymem) _ (List.mem_map_of_mem hz)) h.pool.pageCount
      (le_of_lt hfuel)
    rw [BplusTreeHandler.validateTree, hroot]
    simp only [hf.validateNodeRecursive hr.wide h.pool.pageCount (hf.height_lt hr.wide), Option.bind_eq_bind,
      Option.bind_some, if_true, BplusTreeHandler.validateLeafLink, hleft, hget, IndexNode.keyAt, hy, Option.map_some]
    exact hloop

end Handler

end Landbase.Index
