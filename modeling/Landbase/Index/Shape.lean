import Landbase.Index.Run

/-! # The shape of the pages

`Shaped` says on the pages of a file, without the tree behind them, what a B+ tree looks like: which pages are reached
from the root and at which depth, how full they are, how their keys are ordered and how they are linked. Every tree that
is built by calls whose keys the comparator orders has this shape, and the validator accepts it.

`FLOATS` attributes are compared up to `EPSILON`, which is not transitive; three such keys are enough for a tree that the
validator rejects.
-/

namespace Landbase.Index
open Landbase.Lib
set_option autoImplicit false

variable {K B : Type}

/-! ## What is reached from a page -/

/-- The page reached from `page` through the children with these indexes. -/
def follow (pool : DiskBufferPool K) : PageNum → List ℕ → Option PageNum
  | page, [] => some page
  | page, i :: is => do follow pool (← (← pool.getInternal page).valueAt i) is

/-- A key in the subtree at `page`: the key of an entry, or a separator of an internal node. The first key of an internal
node separates nothing. -/
def KeyBelow (pool : DiskBufferPool K) (page : PageNum) (k : K) : Prop :=
  ∃ is p, follow pool page is = some p ∧
    ((∃ leaf, pool.getLeaf p = some leaf ∧ k ∈ leaf.items.map Prod.fst) ∨
      ∃ node, pool.getInternal p = some node ∧ k ∈ (node.items.drop 1).map Prod.fst)

/-- The structure of the tree whose root is stored at `root`. -/
structure ShapedAt (ops : KeyOps K) (h : BplusTreeHandler K) (root : PageNum) : Prop where
  readable : ∀ is p, follow h.pool root is = some p → ∃ node, h.pool.getThisPage p = some node
  depth : ∃ height, ∀ is p leaf, follow h.pool root is = some p → h.pool.getLeaf p = some leaf → is.length = height
  sizes : ∀ is p node, is ≠ [] → follow h.pool root is = some p → h.pool.getThisPage p = some node →
    h.header.maxSize node / 2 ≤ node.size ∧ node.size ≤ h.header.maxSize node
  rootSize : ∀ node, h.pool.getInternal root = some node → 2 ≤ node.items.length
  separators : ∀ is p node i s j c k, follow h.pool root is = some p → h.pool.getInternal p = some node → 1 ≤ i →
    node.keyAt i = some s → node.valueAt j = some c → KeyBelow h.pool c k →
      (j < i → ops.keyComparator k s < 0) ∧ (i ≤ j → ops.keyComparator s k ≤ 0)
  firstKeys : ∀ is p node i c child, follow h.pool root is = some p → h.pool.getInternal p = some node → 1 ≤ i →
    node.valueAt i = some c → h.pool.getInternal c = some child → child.keyAt 0 = node.keyAt i
  rootParent : ∀ node, h.pool.getThisPage root = some node → node.parentPageNum = none
  parents : ∀ is p node i c child, follow h.pool root is = some p → h.pool.getInternal p = some node →
    node.valueAt i = some c → h.pool.getThisPage c = some child → child.parentPageNum = some p
  once : ∀ is js p, follow h.pool root is = some p → follow h.pool root js = some p → is = js

/-- The file holds a well-formed tree, or none, and the validator says so. -/
structure Shaped (ops : KeyOps K) (h : BplusTreeHandler K) : Prop where
  tree : ∀ root, h.header.rootPage = some root → ShapedAt ops h root
  valid : BplusTreeHandler.validateTree ops h = some true

theorem follow_append (pool : DiskBufferPool K) (page : PageNum) (is js : List ℕ) :
    follow pool page (is ++ js) = (follow pool page is).bind fun p => follow pool p js := by
  induction is generalizing page with
  | nil => rfl
  | cons i is ih =>
    simp only [List.cons_append, follow, Option.bind_eq_bind]
    cases pool.getInternal page with
    | none => rfl
    | some node =>
      simp only [Option.bind_some]
      cases node.valueAt i with
      | none => rfl
      | some c => exact ih c

/-! ## Following the children of a stored tree -/

section Follow

variable [Preorder B] [BoundedOrder B] {ops : KeyOps K} {ord : KeyOrder ops B} {h : BplusTreeHandler K} {n : ℕ} {lo hi : B}

theorem Focus.exists_succ {path : Path K n} {t : Tree K n} (hf : Focus ord h path t lo hi) {node : InternalIndexNode K}
    (hget : h.pool.getInternal t.page = some node) : ∃ m, n = m + 1 := by
  cases n with
  | zero =>
    have hpage := hf.get
    unfold DiskBufferPool.getThisPage at hpage
    simp [DiskBufferPool.getInternal, hpage, topNode] at hget
  | succ n => exact ⟨n, rfl⟩

theorem Focus.eq_zero {path : Path K n} {t : Tree K n} (hf : Focus ord h path t lo hi) {leaf : LeafIndexNode K}
    (hget : h.pool.getLeaf t.page = some leaf) : n = 0 := by
  cases n with
  | zero => rfl
  | succ n =>
    have hpage := hf.get
    unfold DiskBufferPool.getThisPage at hpage
    simp [DiskBufferPool.getLeaf, hpage, topNode] at hget

theorem Focus.item {path : Path K (n + 1)} {t : Tree K (n + 1)} (hf : Focus ord h path t lo hi)
    {node : InternalIndexNode K} (hget : h.pool.getInternal t.page = some node) {i : ℕ} {c : PageNum}
    (hc : node.valueAt i = some c) :
    ∃ left x right, t.items = left ++ x :: right ∧ left.length = i ∧ x.2.tree.page = c ∧
      node.keyAt i = some x.1 := by
  rw [hf.getInternal] at hget
  obtain rfl := Option.some.inj hget
  simp only [InternalIndexNode.valueAt, List.getElem?_map, Option.map_map, Option.map_eq_some_iff] at hc
  obtain ⟨x, hx, hpage⟩ := hc
  have hlt : i < t.items.length := by
    by_contra hge
    rw [List.getElem?_eq_none (by omega)] at hx
    cases hx
  refine ⟨t.items.take i, x, t.items.drop (i + 1), ?_, ?_, hpage, ?_⟩
  · have hxi : t.items[i] = x := by
      rw [List.getElem?_eq_getElem hlt] at hx
      exact Option.some.inj hx
    rw [← hxi, ← List.drop_eq_getElem_cons hlt, List.take_append_drop]
  · rw [List.length_take]
    omega
  · simp [InternalIndexNode.keyAt, hx, childItem]

theorem child_range {left right : Items K (n + 1)} {x : K × Val K (n + 1)}
    (hseg : Seg ord.key (n + 1) lo hi (left ++ x :: right)) :
    lo ≤ (if left = [] then lo else ord.key x.1) ∧ nextBound ord.key right hi ≤ hi := by
  have hchain : SepChain ord.key (SegTree ord.key n) lo hi (left ++ [x] ++ right) := by
    rw [List.append_assoc]
    exact hseg
  obtain ⟨lo', hi', hhole, -⟩ := sepHole_of_chain hchain
  exact ⟨hhole.lower ▸ hhole.lower_le, hhole.upper ▸ hhole.upper_le⟩

theorem Focus.follow {path : Path K n} {t : Tree K n} (hf : Focus ord h path t lo hi) {is : List ℕ} {p : PageNum}
    (hp : Index.follow h.pool t.page is = some p) :
    ∃ (m : ℕ) (path' : Path K m) (t' : Tree K m) (lo' hi' : B), Focus ord h path' t' lo' hi' ∧ t'.page = p ∧
      m + is.length = n ∧ lo ≤ lo' ∧ hi' ≤ hi ∧
      ((is = [] → path.minItems h.header = h.header.maxAt n / 2) → path'.minItems h.header = h.header.maxAt m / 2) := by
  induction is generalizing n lo hi with
  | nil =>
    exact ⟨n, path, t, lo, hi, hf, by simpa [Index.follow] using hp, rfl, le_refl _, le_refl _, fun hmin => hmin rfl⟩
  | cons i is ih =>
    simp only [Index.follow, Option.bind_eq_bind, Option.bind_eq_some_iff] at hp
    obtain ⟨node, hget, c, hc, hp⟩ := hp
    obtain ⟨n, rfl⟩ := hf.exists_succ hget
    obtain ⟨left, x, right, hitems, -, rfl, -⟩ := hf.item hget hc
    obtain ⟨page, items⟩ := t
    obtain rfl : items = left ++ x :: right := hitems
    obtain ⟨lo', hdown, hlo'⟩ := hf.down
    obtain ⟨hlo, hhi⟩ := child_range hf.ordered
    obtain ⟨m, path', t', lo'', hi'', hf', hpage, hm, h1, h2, hmin⟩ := ih hdown hp
    exact ⟨m, path', t', lo'', hi'', hf', hpage, by rw [List.length_cons]; omega, le_trans (hlo' ▸ hlo) h1,
      le_trans h2 hhi, fun _ => hmin fun _ => Path.minItems_step _ _ _ _ _ _⟩

theorem Focus.keyBelow {path : Path K n} {t : Tree K n} (hf : Focus ord h path t lo hi) {k : K}
    (hk : KeyBelow h.pool t.page k) : ord.Known k ∧ lo ≤ ord.key k ∧ ord.key k < hi := by
  obtain ⟨is, p, hp, hkey⟩ := hk
  obtain ⟨m, path', t', lo', hi', hf', rfl, -, h1, h2, -⟩ := hf.follow hp
  rcases hkey with ⟨leaf, hleaf, hmem⟩ | ⟨node, hnode, hmem⟩
  · obtain rfl := hf'.eq_zero hleaf
    rw [hf'.getLeaf] at hleaf
    obtain rfl := Option.some.inj hleaf
    obtain ⟨x, hx, rfl⟩ := List.mem_map.mp hmem
    have hbound := hf'.ordered.2 x hx
    exact ⟨hbound.2.1, le_trans h1 hbound.1, lt_of_lt_of_le hbound.2.2 h2⟩
  · obtain ⟨m, rfl⟩ := hf'.exists_succ hnode
    rw [hf'.getInternal] at hnode
    obtain rfl := Option.some.inj hnode
    obtain ⟨page, items⟩ := t'
    cases items with
    | nil => simp at hmem
    | cons x items =>
      simp only [List.map_cons, List.drop_succ_cons, List.drop_zero, List.map_map, List.mem_map] at hmem
      obtain ⟨y, hy, rfl⟩ := hmem
      have hbound := (SepChain.tail_keys (seg_succ.mp hf'.ordered)).2 y hy
      exact ⟨KeyOrder.known_of_lt hbound.1, le_trans h1 (le_of_lt hbound.1), lt_of_lt_of_le hbound.2 h2⟩

theorem Focus.child {path : Path K n} {t : Tree K n} (hf : Focus ord h path t lo hi) {node : InternalIndexNode K}
    (hget : h.pool.getInternal t.page = some node) {i : ℕ} {c : PageNum} (hc : node.valueAt i = some c) :
    ∃ (m : ℕ) (left right : Items K (m + 1)) (k : K) (up : Path K (m + 1)) (t' : Tree K m) (lo' hi' : B),
      Focus ord h (Path.step t.page left k right up) t' lo' hi' ∧ t'.page = c ∧ left.length = i ∧
      node.keyAt i = some k ∧ node = ⟨up.parent, (left ++ (k, toVal t') :: right).map childItem⟩ ∧
      (left ≠ [] → lo' = ord.key k) ∧ hi' = nextBound ord.key right hi := by
  obtain ⟨n, rfl⟩ := hf.exists_succ hget
  obtain ⟨left, x, right, hitems, hlen, rfl, hkey⟩ := hf.item hget hc
  obtain ⟨page, items⟩ := t
  obtain rfl : items = left ++ x :: right := hitems
  obtain ⟨lo', hdown, hlo'⟩ := hf.down
  rw [hf.getInternal] at hget
  exact ⟨n, left, right, x.1, path, x.2.tree, lo', _, hdown, rfl, hlen, hkey, (Option.some.inj hget).symm,
    fun hne => by rw [hlo', if_neg hne], rfl⟩

theorem Focus.place {t : Tree K n} (hf : Focus ord h Path.top t lo hi) {is : List ℕ} {i : ℕ} {p : PageNum}
    (hp : Index.follow h.pool t.page (is ++ [i]) = some p) :
    ∃ q node child, Index.follow h.pool t.page is = some q ∧ h.pool.getInternal q = some node ∧
      node.valueIndex p = some i ∧ h.pool.getThisPage p = some child ∧ child.parentPageNum = some q := by
  rw [follow_append, Option.bind_eq_some_iff] at hp
  obtain ⟨q, hq, hlast⟩ := hp
  simp only [Index.follow, Option.bind_eq_bind, Option.bind_eq_some_iff, Option.some.injEq, exists_eq_right] at hlast
  obtain ⟨node, hget, hc⟩ := hlast
  obtain ⟨m, path', t', lo', hi', hf', rfl, -⟩ := hf.follow hq
  obtain ⟨m', left, right, k, up, t'', lo'', hi'', hf'', rfl, rfl, -, rfl, -⟩ := hf'.child hget hc
  exact ⟨t'.page, _, _, hq, hget, hf''.valueIndex, hf''.get, by simp⟩

/-- No page is reached twice: its parent link and its index there lead back to the root. -/
theorem Focus.follow_injective {t : Tree K n} (hf : Focus ord h Path.top t lo hi) {is js : List ℕ} {p : PageNum}
    (hi' : Index.follow h.pool t.page is = some p) (hj : Index.follow h.pool t.page js = some p) : is = js := by
  have hroot : ∀ (is : List ℕ) (i : ℕ), Index.follow h.pool t.page (is ++ [i]) ≠ some t.page := by
    intro is i hp
    obtain ⟨q, node, child, -, -, -, hchild, hparent⟩ := hf.place hp
    rw [hf.get] at hchild
    obtain rfl := Option.some.inj hchild
    simp at hparent
  induction is using List.reverseRecOn generalizing js p with
  | nil =>
    obtain rfl : t.page = p := by simpa [Index.follow] using hi'
    rcases List.eq_nil_or_concat' js with rfl | ⟨js, j, rfl⟩
    · rfl
    · exact absurd hj (hroot js j)
  | append_singleton is i ih =>
    rcases List.eq_nil_or_concat' js with rfl | ⟨js, j, rfl⟩
    · obtain rfl : t.page = p := by simpa [Index.follow] using hj
      exact absurd hi' (hroot is i)
    · obtain ⟨q, node, child, hq, hget, hindex, hchild, hparent⟩ := hf.place hi'
      obtain ⟨q', node', child', hq', hget', hindex', hchild', hparent'⟩ := hf.place hj
      rw [hchild] at hchild'
      obtain rfl := Option.some.inj hchild'
      rw [hparent] at hparent'
      obtain rfl := Option.some.inj hparent'
      rw [hget] at hget'
      obtain rfl := Option.some.inj hget'
      rw [hindex] at hindex'
      rw [ih hq hq', Option.some.inj hindex']

theorem Focus.separates {path : Path K n} {t : Tree K n} (hf : Focus ord h path t lo hi) {node : InternalIndexNode K}
    (hget : h.pool.getInternal t.page = some node) {i : ℕ} (hpos : 1 ≤ i) {s : K} (hs : node.keyAt i = some s) {j : ℕ}
    {c : PageNum} (hc : node.valueAt j = some c) {k : K} (hk : KeyBelow h.pool c k) :
    ord.Known s ∧ ord.Known k ∧ (j < i → ord.key k < ord.key s) ∧ (i ≤ j → ord.key s ≤ ord.key k) := by
  obtain ⟨n, rfl⟩ := hf.exists_succ hget
  obtain ⟨d, hd⟩ : ∃ d, node.valueAt i = some d := by
    obtain ⟨item, hitem, -⟩ := Option.map_eq_some_iff.mp hs
    exact ⟨item.2, by rw [InternalIndexNode.valueAt, hitem, Option.map_some]⟩
  obtain ⟨left, x, right, hx, rfl, -, hkeyx⟩ := hf.item hget hd
  obtain ⟨left', y, right', hy, rfl, rfl, -⟩ := hf.item hget hc
  obtain rfl : x.1 = s := Option.some.inj (hkeyx.symm.trans hs)
  obtain ⟨page, items⟩ := t
  obtain rfl : items = left' ++ y :: right' := hy
  replace hx : left' ++ y :: right' = left ++ x :: right := hx
  obtain ⟨lo', hdown, hlo'⟩ := hf.down
  obtain ⟨hknown, hlo, hhi⟩ := hdown.keyBelow hk
  have hleft : left ≠ [] := List.ne_nil_of_length_pos hpos
  have hchain : SepChain ord.key (SegTree ord.key n) lo hi (left ++ x :: right) := hx ▸ hf.ordered
  have hcut := (sepChain_append hleft).mp hchain
  refine ⟨KeyOrder.known_of_lt (hcut.1.lt hleft), hknown, fun hlt => ?_, fun hle => ?_⟩
  · have hmem : x ∈ right' := by
      have hget : (left' ++ y :: right')[left.length]? = some x := by
        rw [hx]
        simp
      rw [List.append_cons, List.getElem?_append_right (by simp; omega)] at hget
      exact List.mem_of_getElem? hget
    exact lt_of_lt_of_le hhi (SepChain.nextBound_le hf.ordered x hmem)
  · have hmem : y ∈ x :: right := by
      have hget : (left ++ x :: right)[left'.length]? = some y := by
        rw [← hx]
        simp
      rw [List.getElem?_append_right hle] at hget
      exact List.mem_of_getElem? hget
    have hle' : ord.key x.1 ≤ ord.key y.1 := by
      rcases List.mem_cons.mp hmem with rfl | hmem
      · exact le_refl _
      · exact le_of_lt ((SepChain.tail_keys hcut.2).2 y hmem).1
    have hleft' : left' ≠ [] := List.ne_nil_of_length_pos (by omega)
    rw [if_neg hleft'] at hlo'
    exact le_trans hle' (hlo' ▸ hlo)

theorem Focus.firstKey (hinj : ∀ a b, ord.Known a → ord.key a = ord.key b → a = b) (hw : h.header.Wide)
    {path : Path K n} {t : Tree K n} (hf : Focus ord h path t lo hi) {node child : InternalIndexNode K}
    (hget : h.pool.getInternal t.page = some node) {i : ℕ} (hpos : 1 ≤ i) {c : PageNum} (hc : node.valueAt i = some c)
    (hchild : h.pool.getInternal c = some child) : child.keyAt 0 = node.keyAt i := by
  obtain ⟨m, left, right, k, up, t', lo', hi', hf', rfl, rfl, hkey, rfl, hlo', -⟩ := hf.child hget hc
  obtain ⟨m, rfl⟩ := hf'.exists_succ hchild
  have hleft : left ≠ [] := List.ne_nil_of_length_pos hpos
  rw [hf'.getInternal] at hchild
  obtain rfl := Option.some.inj hchild
  obtain ⟨page, items⟩ := t'
  cases items with
  | nil => exact absurd rfl (hf'.nonempty hw)
  | cons z items =>
    obtain ⟨lo'', hi'', -, hhole⟩ := hf'.pathOrdered
    have hk : ord.Known k := KeyOrder.known_of_lt ((hhole.front hleft).lt hleft)
    have hfirst : lo' = ord.key z.1 := by
      cases (sepChain_cons.mp (seg_succ.mp hf'.ordered)).1 with
      | inl hbot =>
        rw [hlo' hleft] at hbot
        exact absurd hk (by rw [KeyOrder.Known, hbot]; exact lt_irrefl _)
      | inr hfirst => exact hfirst
    rw [hkey, hinj k z.1 hk ((hlo' hleft).symm.trans hfirst)]
    rfl

theorem Focus.shapedAt (hinj : ∀ a b, ord.Known a → ord.key a = ord.key b → a = b) (hw : h.header.Wide) {t : Tree K n}
    (hf : Focus ord h Path.top t ⊥ ⊤) : ShapedAt ops h t.page where
  readable is p hp := by
    obtain ⟨m, path', t', lo', hi', hf', rfl, -⟩ := hf.follow hp
    exact ⟨_, hf'.get⟩
  depth := by
    refine ⟨n, fun is p leaf hp hleaf => ?_⟩
    obtain ⟨m, path', t', lo', hi', hf', rfl, hm, -⟩ := hf.follow hp
    have hzero := hf'.eq_zero hleaf
    omega
  sizes is p node hne hp hnode := by
    obtain ⟨m, path', t', lo', hi', hf', rfl, -, -, -, hmin⟩ := hf.follow hp
    rw [hf'.get] at hnode
    obtain rfl := Option.some.inj hnode
    rw [maxSize_topNode, topNode_size, ← hmin fun hnil => absurd hnil hne]
    exact ⟨hf'.minSize, hf'.maxSize⟩
  rootSize node hnode := by
    obtain ⟨m, rfl⟩ := hf.exists_succ hnode
    rw [hf.getInternal] at hnode
    obtain rfl := Option.some.inj hnode
    have hmin : 2 ≤ t.items.length := hf.minSize
    simpa using hmin
  separators is p node i s j c k hp hget hpos hs hc hk := by
    obtain ⟨m, path', t', lo', hi', hf', rfl, -⟩ := hf.follow hp
    obtain ⟨hks, hkk, hbelow, habove⟩ := hf'.separates hget hpos hs hc hk
    refine ⟨fun hlt => KeyOrder.neg hkk (hbelow hlt), fun hle => ?_⟩
    rw [← not_lt, ord.pos_iff s k hks hkk]
    exact not_lt_of_ge (habove hle)
  firstKeys is p node i c child hp hget hpos hc hchild := by
    obtain ⟨m, path', t', lo', hi', hf', rfl, -⟩ := hf.follow hp
    exact hf'.firstKey hinj hw hget hpos hc hchild
  rootParent node hnode := by
    rw [hf.get] at hnode
    obtain rfl := Option.some.inj hnode
    simp
  parents is p node i c child hp hget hc hchild := by
    obtain ⟨m, path', t', lo', hi', hf', rfl, -⟩ := hf.follow hp
    obtain ⟨m', left, right, k, up, t'', lo'', hi'', hf'', rfl, -⟩ := hf'.child hget hc
    rw [hf''.get] at hchild
    obtain rfl := Option.some.inj hchild
    simp
  once is js p hi hj := hf.follow_injective hi hj

theorem Represents.shaped (hinj : ∀ a b, ord.Known a → ord.key a = ord.key b → a = b) {entries : List (K × RID)}
    (hr : Represents ord h entries) : Shaped ops h := by
  refine ⟨fun root hroot => ?_, validateTree_eq hr⟩
  rcases hr.tree with ⟨hnone, -, -⟩ | ⟨n, t, hf, -⟩
  · rw [hnone] at hroot
    cases hroot
  · rw [hf.root] at hroot
    obtain rfl := Option.some.inj hroot
    exact hf.shapedAt hinj hr.wide

end Follow

/-! ## Every reached tree is well formed -/

/-- A run of calls on a new non-unique index, whatever its attribute types: when the comparator orders the keys of the
calls, the tree is well formed after every call. -/
theorem run_shaped (layout : KeyLayout) (internalMaxSize leafMaxSize : ℕ) (hleaf : 4 ≤ leafMaxSize)
    (hinternal : 6 ≤ internalMaxSize) (calls rest : List Call)
    (hkeys : Consistent (keyOps layout.attrs).keyComparator fun k => ∃ c ∈ calls ++ rest, c.key layout = k) :
    ∃ rcs h, (BplusTreeHandler.create false internalMaxSize leafMaxSize).run layout calls = some (rcs, h) ∧
      Shaped (keyOps layout.attrs) h := by
  obtain ⟨B, _, _, ord, hknown, hinj⟩ := exists_keyOrder hkeys
  obtain ⟨h, entries, hrun, hr, -⟩ := run_spec (create_represents ord false hleaf hinternal) rfl calls
    fun c hmem => (hknown _).mpr ⟨c, List.mem_append_left _ hmem, rfl⟩
  exact ⟨_, h, hrun, hr.shaped fun a b ha => hinj a b ((hknown a).mp ha)⟩

/-- Two floats that are further apart than `EPSILON` are ordered. -/
theorem run_shaped_floats :
    let layout : KeyLayout := { attrs := [⟨.floats, 4⟩], attrOffsets := [0] }
    let calls : List Call := [.insertEntry [0, 0, 0x80, 0x3f] ⟨1, 0⟩, .insertEntry [0, 0, 0, 0x40] ⟨1, 1⟩]
    ∃ rcs h, (BplusTreeHandler.create false 6 4).run layout calls = some (rcs, h) ∧ Shaped (keyOps layout.attrs) h := by
  refine run_shaped { attrs := [⟨.floats, 4⟩], attrOffsets := [0] } 6 4 (by decide) (by decide) _ [] ⟨?_, ?_⟩
  · rintro a b ⟨c, hc, rfl⟩ ⟨d, hd, rfl⟩
    simp only [List.append_nil, List.mem_cons, List.not_mem_nil, or_false] at hc hd
    rcases hc with rfl | rfl <;> rcases hd with rfl | rfl <;> decide +kernel
  · rintro a b c ⟨x, hx, rfl⟩ ⟨y, hy, rfl⟩ ⟨z, hz, rfl⟩
    simp only [List.append_nil, List.mem_cons, List.not_mem_nil, or_false] at hx hy hz
    rcases hx with rfl | rfl <;> rcases hy with rfl | rfl <;> rcases hz with rfl | rfl <;> decide +kernel

/-- Three floats of which only the outer two differ by more than `EPSILON`, with falling record identifiers. When the
least one is deleted, the other two stay behind in the wrong order. -/
theorem run_floats_not_shaped :
    let layout : KeyLayout := { attrs := [⟨.floats, 4⟩], attrOffsets := [0] }
    let calls : List Call := [.insertEntry [0, 0, 0x80, 0x35] ⟨1, 3⟩, .insertEntry [0, 0, 0, 0] ⟨1, 5⟩,
      .insertEntry [0, 0, 0, 0x36] ⟨1, 1⟩, .deleteEntry [0, 0, 0, 0] ⟨1, 5⟩]
    ∃ rcs h, (BplusTreeHandler.create false 6 4).run layout calls = some (rcs, h) ∧
      BplusTreeHandler.validateTree (keyOps layout.attrs) h = some false ∧ ¬ Shaped (keyOps layout.attrs) h := by
  intro layout calls
  have hrun : ((BplusTreeHandler.create false 6 4).run layout calls).map
      (fun r => BplusTreeHandler.validateTree (keyOps layout.attrs) r.2) = some (some false) := by decide +kernel
  obtain ⟨r, hr, hfalse⟩ := Option.map_eq_some_iff.mp hrun
  refine ⟨r.1, r.2, hr, hfalse, fun hshaped => ?_⟩
  have htrue := hshaped.valid
  rw [hfalse] at htrue
  exact absurd htrue (by decide)

end Landbase.Index
