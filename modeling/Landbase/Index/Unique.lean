import Landbase.Index.Shape

/-! # Unique indexes

A unique index routes a new entry by its attributes and its `RID`, and then looks for an entry with the same attributes
in the leaf it has arrived at. The leaf is the right one when no separator lies between the new key and the entry that
is there; then no two entries ever have the same attributes (`insertEntry_unique`). A separator that lies between two
keys with the same attributes hides one from the other.
-/

namespace Landbase.Index
open Landbase.Lib Landbase.Common
set_option autoImplicit false

variable {K B : Type}

/-! ## Separators between keys -/

/-- A separator of the tree: a key of an internal node, other than the first one. -/
def Separator (pool : DiskBufferPool K) (root : PageNum) (s : K) : Prop :=
  ∃ is p node i, follow pool root is = some p ∧ pool.getInternal p = some node ∧ 1 ≤ i ∧ node.keyAt i = some s

/-- The descents for the two keys part at `s`. -/
def Divides (ops : KeyOps K) (s a b : K) : Prop :=
  (ops.keyComparator a s < 0 ∧ ops.keyComparator s b ≤ 0) ∨ (ops.keyComparator b s < 0 ∧ ops.keyComparator s a ≤ 0)

/-- No separator lies between the key and an entry with the same attributes. -/
def Undivided (ops : KeyOps K) (h : BplusTreeHandler K) (q : K) : Prop :=
  ∀ root entries x s, h.header.rootPage = some root → h.leafChain = some entries → x ∈ entries →
    ops.attrComparator x.1 q = 0 → Separator h.pool root s → ¬ Divides ops s x.1 q

/-- No two entries have the same attributes. -/
def Distinct (ops : KeyOps K) (entries : List (K × RID)) : Prop :=
  entries.Pairwise fun x y => ops.attrComparator x.1 y.1 ≠ 0

/-- The attributes are ordered, and decide the order of keys before the `RID` does. -/
structure AttrOrder (ops : KeyOps K) (ok : K → Prop) : Prop where
  consistent : Consistent ops.attrComparator ok
  first : ∀ a b, ops.attrComparator a b ≠ 0 → ops.keyComparator a b = ops.attrComparator a b

/-- What lies between a key and a later one with the same attributes has these attributes. -/
theorem Divides.same_attrs {ops : KeyOps K} {ok : K → Prop} (hkeys : Consistent ops.keyComparator ok)
    (hattrs : AttrOrder ops ok) {s a b : K} (hs : ok s) (ha : ok a) (hb : ok b) (hdivides : Divides ops s a b)
    (hlt : ops.keyComparator a b < 0) (hzero : ops.attrComparator a b = 0) :
    ops.attrComparator a s = 0 ∧ ops.keyComparator a s < 0 := by
  have hle : ∀ c d, ops.keyComparator c d ≤ 0 → ops.attrComparator c d ≤ 0 := by
    intro c d hcd
    by_contra hpos
    rw [hattrs.first c d (by omega)] at hcd
    exact hpos hcd
  rcases hdivides with ⟨hbelow, habove⟩ | ⟨hbelow, habove⟩
  · have hback := (hattrs.consistent.zero_comm ha hb).mp hzero
    have hsa := hattrs.consistent.trans s b a hs hb ha (hle s b habove) (le_of_eq hback)
    have has := hle a s (le_of_lt hbelow)
    have hflip := hattrs.consistent.flip a s ha hs
    exact ⟨by omega, hbelow⟩
  · have hba := hkeys.trans b s a hb hs ha (le_of_lt hbelow) habove
    have hflip := hkeys.flip a b ha hb
    omega

/-- There are no separators while the root is a leaf. -/
def rootIsLeaf (h : BplusTreeHandler K) : Bool :=
  match h.header.rootPage with
  | none => true
  | some root => (h.pool.getInternal root).isNone

section Order

variable [Preorder B] [BoundedOrder B] {ops : KeyOps K} {ord : KeyOrder ops B} {h : BplusTreeHandler K} {n : ℕ} {lo hi : B}

theorem Focus.reached (hw : h.header.Wide) {path : Path K n} {t : Tree K n} (hf : Focus ord h path t lo hi) :
    ∃ is, Index.follow h.pool (path.rootPage t.page) is = some t.page := by
  induction path generalizing lo hi with
  | top => exact ⟨[], rfl⟩
  | step page left k right up ih =>
    obtain ⟨lo', hi', hup⟩ := hf.up hw
    obtain ⟨is, his⟩ := ih hup
    refine ⟨is ++ [left.length], ?_⟩
    have hvalue : (⟨up.parent, (left ++ (k, toVal t) :: right).map childItem⟩ : InternalIndexNode K).valueAt
        left.length = some t.page := by simp [InternalIndexNode.valueAt, childItem]
    have hget : h.pool.getInternal page = some ⟨up.parent, (left ++ (k, toVal t) :: right).map childItem⟩ :=
      hup.getInternal
    rw [follow_append, Path.rootPage, his]
    simp only [Option.bind_some, Index.follow, Option.bind_eq_bind, hget, hvalue]

theorem Focus.separator (hw : h.header.Wide) {path : Path K (n + 1)} {page : PageNum} {left right : Items K (n + 1)}
    {x : K × Val K (n + 1)} (hf : Focus ord h path ⟨page, left ++ x :: right⟩ lo hi) (hleft : left ≠ []) :
    Separator h.pool (path.rootPage page) x.1 := by
  obtain ⟨is, his⟩ := hf.reached hw
  refine ⟨is, page, _, left.length, his, hf.getInternal, List.length_pos_of_ne_nil hleft, ?_⟩
  simp [InternalIndexNode.keyAt, childItem]

theorem Focus.bounds (hw : h.header.Wide) {path : Path K n} {t : Tree K n} (hf : Focus ord h path t lo hi) :
    (lo = ⊥ ∨ ∃ s, Separator h.pool (path.rootPage t.page) s ∧ ord.key s = lo) ∧
      (hi = ⊤ ∨ ∃ s, Separator h.pool (path.rootPage t.page) s ∧ ord.key s = hi) := by
  induction path generalizing lo hi with
  | top =>
    obtain ⟨rfl, rfl⟩ := hf.pathOrdered
    exact ⟨Or.inl rfl, Or.inl rfl⟩
  | step page left k right up ih =>
    obtain ⟨lo', hi', hup, hhole⟩ := hf.up_hole hw
    obtain ⟨hlo, hhi⟩ := ih hup
    refine ⟨?_, ?_⟩
    · by_cases hleft : left = []
      · rw [hhole.lower, if_pos hleft]
        exact hlo
      · rw [hhole.lower, if_neg hleft]
        exact Or.inr ⟨k, hup.separator hw hleft, rfl⟩
    · rw [hhole.upper]
      cases right with
      | nil => exact hhi
      | cons y right =>
        have hy : Focus ord h up ⟨page, (left ++ [(k, toVal t)]) ++ y :: right⟩ lo' hi' := by
          rw [List.append_assoc]
          exact hup
        exact Or.inr ⟨y.1, hy.separator hw (by simp), rfl⟩

theorem Represents.separator_known {entries : List (K × RID)} (hr : Represents ord h entries) {root : PageNum} {s : K}
    (hroot : h.header.rootPage = some root) (hs : Separator h.pool root s) : ord.Known s := by
  obtain ⟨is, p, node, i, hp, hget, hpos, hkey⟩ := hs
  rcases hr.tree with ⟨hnone, -⟩ | ⟨n, t, hf, -⟩
  · rw [hnone] at hroot
    cases hroot
  · have hpage : h.header.rootPage = some t.page := hf.root
    obtain rfl : t.page = root := Option.some.inj (hpage.symm.trans hroot)
    obtain ⟨m, path, t', lo, hi, hf', rfl, -⟩ := hf.follow hp
    obtain ⟨m, rfl⟩ := hf'.exists_succ hget
    obtain ⟨c, hc⟩ : ∃ c, node.valueAt i = some c := by
      obtain ⟨item, hitem, -⟩ := Option.map_eq_some_iff.mp hkey
      exact ⟨item.2, by rw [InternalIndexNode.valueAt, hitem, Option.map_some]⟩
    obtain ⟨left, x, right, hitems, rfl, -, hkeyx⟩ := hf'.item hget hc
    obtain rfl : x.1 = s := Option.some.inj (hkeyx.symm.trans hkey)
    have hleft : left ≠ [] := List.ne_nil_of_length_pos hpos
    have hchain : SepChain ord.key (SegTree ord.key m) lo hi (left ++ x :: right) := hitems ▸ hf'.ordered
    exact KeyOrder.known_of_lt (((sepChain_append hleft).mp hchain).1.lt hleft)

/-- An entry that no separator divides from the search key is in the leaf that the search arrives at. -/
theorem Focus.entry_in_leaf (hw : h.header.Wide) {path : Path K 0} {page : PageNum} {items : List (K × RID)}
    (hf : Focus ord h path (leafTree page items) lo hi) {q : K} (hq : ord.Known q) (hlo : lo ≤ ord.key q)
    (hhi : ord.key q < hi) {x : K × RID} (hx : x ∈ path.before ++ items ++ path.after) (hknown : ord.Known x.1)
    (hclear : ∀ s, Separator h.pool (path.rootPage page) s → ¬ Divides ops s x.1 q) : x ∈ items := by
  obtain ⟨hbefore, hafter⟩ := Path.Ordered.outside hf.pathOrdered
  obtain ⟨hlower, hupper⟩ := hf.bounds hw
  cases List.mem_append.mp hx with
  | inl hx =>
    cases List.mem_append.mp hx with
    | inl hx =>
      have hlt := hbefore x hx
      rcases hlower with rfl | ⟨s, hs, rfl⟩
      · exact absurd hlt not_lt_bot
      · refine absurd (Or.inl ⟨KeyOrder.neg hknown hlt, ?_⟩) (hclear s hs)
        rw [← not_lt, ord.pos_iff s q (KeyOrder.known_of_lt hlt) hq]
        exact not_lt_of_ge hlo
    | inr hx => exact hx
  | inr hx =>
    have hle := hafter x hx
    rcases hupper with rfl | ⟨s, hs, rfl⟩
    · exact absurd (lt_of_lt_of_le (ord.lt_top x.1) hle) (lt_irrefl _)
    · refine absurd (Or.inr ⟨KeyOrder.neg hq hhi, ?_⟩) (hclear s hs)
      rw [← not_lt, ord.pos_iff s x.1 (KeyOrder.known_of_lt hhi) hknown]
      exact not_lt_of_ge hle

/-! ## `insert_entry` on a unique tree -/

variable (hattrs : AttrOrder ops ord.Known)
include hattrs

theorem leaf_lookup_attr_present {pre post : List (K × RID)} {x : K × RID} {q : K} (hq : ord.Known q)
    (hsorted : SortedIn ord.key lo hi (pre ++ x :: post)) (hdistinct : Distinct ops (pre ++ x :: post))
    (hx : ops.attrComparator x.1 q = 0) (parent next : Option PageNum) :
    LeafIndexNode.lookup ops.attrComparator ⟨parent, next, pre ++ x :: post⟩ q = (pre.length, true) := by
  have hknown : ∀ y ∈ pre ++ x :: post, ord.Known y.1 := fun y hy => (hsorted.2 y hy).2.1
  have hpair := List.pairwise_map.mp hsorted.1
  rw [List.pairwise_append, List.pairwise_cons] at hpair
  rw [Distinct, List.pairwise_append, List.pairwise_cons] at hdistinct
  refine lowerBound_present _ pre post x (fun y hy => ?_) hx (fun y hy => ?_)
  · have hy' := hknown y (by simp [hy])
    have hne := hdistinct.2.2 y hy x (by simp)
    have hlt : ops.keyComparator y.1 x.1 < 0 := KeyOrder.neg hy' (hpair.2.2 y hy x (by simp))
    rw [hattrs.first _ _ hne] at hlt
    exact hattrs.consistent.neg_of_zero hy' (hknown x (by simp)) hq hlt hx
  · have hy' := hknown y (by simp [hy])
    have hne := hdistinct.2.1.1 y hy
    have hlt : ops.keyComparator x.1 y.1 < 0 := KeyOrder.neg (hknown x (by simp)) (hpair.2.1.1 y hy)
    rw [hattrs.first _ _ hne, hattrs.consistent.flip _ _ (hknown x (by simp)) hy'] at hlt
    exact hattrs.consistent.pos_of_zero hy' (hknown x (by simp)) hq hlt hx

theorem Focus.insert_attr_absent (hw : h.header.Wide) (hu : h.header.unique = true) {path : Path K 0} {page : PageNum}
    {items : List (K × RID)} (hleaf : Focus ord h path (leafTree page items) lo hi) {q : K} (hq : ord.Known q)
    (hlo : lo ≤ ord.key q) (hhi : ord.key q < hi) (habsent : ∀ x ∈ items, ops.attrComparator x.1 q ≠ 0) (rid : RID) :
    ∃ h' front back, path.before ++ items ++ path.after = front ++ back ∧
      BplusTreeHandler.insertEntryIntoLeafNode ops h page q rid = some (.success, h') ∧
      Rebuilt ord h h' (front ++ (q, rid) :: back) := by
  have hsorted : SortedIn ord.key lo hi items := hleaf.ordered
  have hknown : ∀ y ∈ items, ord.Known y.1 := fun y hy => (hsorted.2 y hy).2.1
  -- without equal attributes both comparators say the same
  have hagree : ∀ y ∈ items, ops.keyComparator y.1 q = ops.attrComparator y.1 q := fun y hy =>
    hattrs.first _ _ (habsent y hy)
  rcases leaf_split ord hsorted hq with ⟨pre, post, rfl, hpre, hpost⟩ | ⟨pre, x, post, rfl, hx, -, -⟩
  · have hlookup : LeafIndexNode.lookup ops.attrComparator ⟨path.parent, path.next, pre ++ post⟩ q =
        (pre.length, false) := by
      refine lowerBound_absent _ pre post (fun y hy => ?_) (fun y hy => ?_)
      · rw [← hagree y (by simp [hy])]
        exact KeyOrder.neg (hknown y (by simp [hy])) (hpre y hy)
      · rw [← hagree y (by simp [hy])]
        exact KeyOrder.pos hq (hpost y hy)
    obtain ⟨h', hdone, hrebuilt⟩ := insertEntryIntoLeafNode_absent hw hleaf
      (by rw [hu]; exact hlookup) (sortedIn_insert (x := (q, rid)) hsorted hpre hpost hlo hq hhi)
    refine ⟨h', path.before ++ pre, post ++ path.after, by simp, hdone, ?_⟩
    simpa using hrebuilt
  · have hzero := (KeyOrder.zero_iff (hknown x (by simp)) hq).mpr hx
    rw [hagree x (by simp)] at hzero
    exact absurd hzero (habsent x (by simp))

/-- `insert_entry` on a unique tree: refused exactly when the attributes are there, and otherwise the entry is added. -/
theorem insertEntry_unique {entries : List (K × RID)} (hr : Represents ord h entries) (hu : h.header.unique = true)
    (hdistinct : Distinct ops entries) {q : K} (hq : ord.Known q) (hclear : Undivided ops h q) (rid : RID) :
    ((∃ x ∈ entries, ops.attrComparator x.1 q = 0) ∧
        BplusTreeHandler.insertEntry ops h q rid = some (.recordDuplicateKey, h)) ∨
      ((∀ x ∈ entries, ops.attrComparator x.1 q ≠ 0) ∧
        ∃ h' front back, entries = front ++ back ∧ BplusTreeHandler.insertEntry ops h q rid = some (.success, h') ∧
          Rebuilt ord h h' (front ++ (q, rid) :: back)) := by
  have hchain := leafChain_eq hr
  rcases insertEntry_cases hr hq rid with ⟨rfl, h', hdone, hnew⟩ | ⟨path, page, items, lo, hi, hleaf, hlo, hhi, rfl, hrun⟩
  · exact Or.inr ⟨by simp, h', [], [], rfl, hdone, hnew⟩
  rw [hrun]
  by_cases hpresent : ∃ x ∈ path.before ++ items ++ path.after, ops.attrComparator x.1 q = 0
  · obtain ⟨x, hx, hxq⟩ := hpresent
    have hmem : x ∈ items := hleaf.entry_in_leaf hr.wide hq hlo hhi hx (hr.known x hx)
      fun s hs => hclear _ _ x s hleaf.root hchain hx hxq hs
    obtain ⟨pre, post, rfl⟩ := List.append_of_mem hmem
    have hsorted : SortedIn ord.key lo hi (pre ++ x :: post) := hleaf.ordered
    have hget : h.pool.getLeaf page = some ⟨path.parent, path.next, pre ++ x :: post⟩ := hleaf.getLeaf
    have hdistinct' : Distinct ops (pre ++ x :: post) :=
      hdistinct.sublist ((List.sublist_append_right _ _).trans (List.sublist_append_left _ _))
    have hlookup := leaf_lookup_attr_present hattrs hq hsorted hdistinct' hxq path.parent path.next
    refine Or.inl ⟨⟨x, hx, hxq⟩, ?_⟩
    unfold BplusTreeHandler.insertEntryIntoLeafNode
    simp only [hget, Option.bind_eq_bind, Option.bind_some, hu, if_true, hlookup]
    rfl
  · have habsent : ∀ x ∈ path.before ++ items ++ path.after, ops.attrComparator x.1 q ≠ 0 := fun x hx h0 =>
      hpresent ⟨x, hx, h0⟩
    exact Or.inr ⟨habsent, hleaf.insert_attr_absent hattrs hr.wide hu hq hlo hhi (fun x hx => habsent x (by simp [hx])) rid⟩

theorem leaf_split_attr {items : List (K × RID)} (hsorted : SortedIn ord.key lo hi items) {q : K} (hq : ord.Known q) :
    ∃ pre mid post, items = pre ++ (mid ++ post) ∧ (∀ x ∈ pre, ops.attrComparator x.1 q < 0) ∧
      (∀ x ∈ mid, ops.attrComparator x.1 q = 0) ∧ ∀ x ∈ post, 0 < ops.attrComparator x.1 q := by
  obtain ⟨hpair, hbound⟩ := hsorted
  induction items with
  | nil => exact ⟨[], [], [], rfl, by simp, by simp, by simp⟩
  | cons x items ih =>
    rw [List.map_cons, List.pairwise_cons] at hpair
    obtain ⟨pre, mid, post, rfl, hpre, hmid, hpost⟩ := ih hpair.2 fun y hy => hbound y (by simp [hy])
    have hx : ord.Known x.1 := (hbound x (by simp)).2.1
    have hle : ∀ y ∈ pre ++ (mid ++ post), ops.attrComparator x.1 y.1 ≤ 0 := by
      intro y hy
      by_cases hzero : ops.attrComparator x.1 y.1 = 0
      · exact le_of_eq hzero
      · rw [← hattrs.first _ _ hzero]
        exact le_of_lt (KeyOrder.neg hx (hpair.1 _ (List.mem_map_of_mem hy)))
    have hknown : ∀ y ∈ pre ++ (mid ++ post), ord.Known y.1 := fun y hy => (hbound y (List.mem_cons_of_mem _ hy)).2.1
    -- what follows `x` is not below it
    have hbelow : ∀ y ∈ pre ++ (mid ++ post), ops.attrComparator y.1 q ≤ 0 → ops.attrComparator x.1 q ≤ 0 :=
      fun y hy => hattrs.consistent.trans x.1 y.1 q hx (hknown y hy) hq (hle y hy)
    have hstrict : ∀ y ∈ pre ++ (mid ++ post), ops.attrComparator y.1 q < 0 → ops.attrComparator x.1 q < 0 := by
      intro y hy hlt
      by_contra hnot
      have hqx : ops.attrComparator q x.1 ≤ 0 := by
        have hflip := hattrs.consistent.flip x.1 q hx hq
        omega
      have hqy := hattrs.consistent.trans q x.1 y.1 hq hx (hknown y hy) hqx (hle y hy)
      have hflip := hattrs.consistent.flip y.1 q (hknown y hy) hq
      omega
    rcases lt_trichotomy (ops.attrComparator x.1 q) 0 with hneg | hzero | hpos
    · exact ⟨x :: pre, mid, post, rfl, by simpa [hneg] using hpre, hmid, hpost⟩
    · have hnil : pre = [] := by
        cases pre with
        | nil => rfl
        | cons y pre =>
          have hlt := hstrict y (by simp) (hpre y (by simp))
          omega
      subst hnil
      exact ⟨[], x :: mid, post, rfl, by simp, by simpa [hzero] using hmid, hpost⟩
    · have hnil : pre = [] := by
        cases pre with
        | nil => rfl
        | cons y pre =>
          have hlt := hstrict y (by simp) (hpre y (by simp))
          omega
      have hnil' : mid = [] := by
        cases mid with
        | nil => rfl
        | cons y mid =>
          have hle' := hbelow y (by simp) (le_of_eq (hmid y (by simp)))
          omega
      subst hnil hnil'
      exact ⟨[], [], x :: post, rfl, by simp, by simp, by simpa [hpos] using hpost⟩

/-- `insert_entry` on a unique tree, whatever entries it has come to hold. -/
theorem insertEntry_unique_represents {entries : List (K × RID)} (hr : Represents ord h entries)
    (hu : h.header.unique = true) {q : K} (hq : ord.Known q) (rid : RID) :
    BplusTreeHandler.insertEntry ops h q rid = some (.recordDuplicateKey, h) ∨
      ∃ h' front back, entries = front ++ back ∧ BplusTreeHandler.insertEntry ops h q rid = some (.success, h') ∧
        Rebuilt ord h h' (front ++ (q, rid) :: back) := by
  rcases insertEntry_cases hr hq rid with ⟨rfl, h', hdone, hnew⟩ | ⟨path, page, items, lo, hi, hleaf, hlo, hhi, rfl, hrun⟩
  · exact Or.inr ⟨h', [], [], rfl, hdone, hnew⟩
  rw [hrun]
  obtain ⟨pre, mid, post, rfl, hpre, hmid, hpost⟩ := leaf_split_attr hattrs (show SortedIn ord.key lo hi items from
    hleaf.ordered) hq
  have hget : h.pool.getLeaf page = some ⟨path.parent, path.next, pre ++ (mid ++ post)⟩ := hleaf.getLeaf
  by_cases hnil : mid = []
  · subst hnil
    refine Or.inr (hleaf.insert_attr_absent hattrs hr.wide hu hq hlo hhi (fun x hx => ?_) rid)
    cases List.mem_append.mp hx with
    | inl hx => exact ne_of_lt (hpre x hx)
    | inr hx => exact ne_of_gt (hpost x hx)
  · have hfound := lowerBound_found (fun item : K × RID => ops.attrComparator item.1 q) pre mid post hpre hmid hpost hnil
    left
    unfold BplusTreeHandler.insertEntryIntoLeafNode
    simp only [hget, Option.bind_eq_bind, Option.bind_some, hu, if_true, LeafIndexNode.lookup, hfound]
    rfl

theorem Distinct.insert {front back : List (K × RID)} {q : K} (hdistinct : Distinct ops (front ++ back))
    (hknown : ∀ x ∈ front ++ back, ord.Known x.1) (hq : ord.Known q)
    (habsent : ∀ x ∈ front ++ back, ops.attrComparator x.1 q ≠ 0) (rid : RID) :
    Distinct ops (front ++ (q, rid) :: back) := by
  rw [Distinct, List.pairwise_append] at hdistinct ⊢
  rw [List.pairwise_cons]
  refine ⟨hdistinct.1, ⟨fun y hy h0 => ?_, hdistinct.2.1⟩, fun x hx y hy => ?_⟩
  · have hmem : y ∈ front ++ back := List.mem_append_right _ hy
    exact habsent y hmem ((hattrs.consistent.zero_comm hq (hknown y hmem)).mp h0)
  · rcases List.mem_cons.mp hy with rfl | hy
    · exact habsent x (List.mem_append_left _ hx)
    · exact hdistinct.2.2 x hx y hy

end Order

/-! ## Runs of a unique index -/

section Runs

variable [Preorder B] [BoundedOrder B] {layout : KeyLayout} {ord : KeyOrder (keyOps layout.attrs) B}
  {h : BplusTreeHandler Key} {entries : List (Key × RID)}

/-- Before every insertion of the run no separator lies between the new key and an entry with the same attributes. -/
def Routed (layout : KeyLayout) (h : BplusTreeHandler Key) (calls : List Call) : Prop :=
  ∀ before userKey rid after, calls = before ++ .insertEntry userKey rid :: after →
    ∀ rcs h', h.run layout before = some (rcs, h') →
      Undivided (keyOps layout.attrs) h' (makeKey layout.attrs layout.attrOffsets userKey rid)

theorem Routed.tail {c : Call} {calls : List Call} (hrouted : Routed layout h (c :: calls)) {rc : RC}
    {h' : BplusTreeHandler Key} (hcall : h.call layout c = some (rc, h')) : Routed layout h' calls := by
  intro before userKey rid after heq rcs h'' hrun
  refine hrouted (c :: before) userKey rid after (by rw [heq]; rfl) (rc :: rcs) h'' ?_
  simp only [BplusTreeHandler.run, hcall, hrun, Option.bind_eq_bind, Option.bind_some, Option.pure_def]

theorem Routed.nil : Routed layout h [] := by
  intro before userKey rid after heq
  simp at heq

theorem Routed.cons {c : Call} {calls : List Call}
    (hclear : ∀ userKey rid, c = .insertEntry userKey rid → Undivided (keyOps layout.attrs) h (c.key layout))
    (htail : ∀ rc h', h.call layout c = some (rc, h') → Routed layout h' calls) : Routed layout h (c :: calls) := by
  intro before userKey rid after heq rcs h' hrun
  cases before with
  | nil =>
    obtain ⟨rfl, -⟩ := List.cons.inj heq
    simp only [BplusTreeHandler.run, Option.some.injEq, Prod.mk.injEq] at hrun
    obtain ⟨-, rfl⟩ := hrun
    exact hclear userKey rid rfl
  | cons d before =>
    obtain ⟨rfl, hcalls⟩ := List.cons.inj heq
    simp only [BplusTreeHandler.run, Option.bind_eq_bind, Option.bind_eq_some_iff] at hrun
    obtain ⟨⟨rc, h₁⟩, hcall, ⟨rcs₁, h₂⟩, hrun, hpure⟩ := hrun
    simp only [Option.pure_def, Option.some.injEq, Prod.mk.injEq] at hpure
    obtain ⟨-, rfl⟩ := hpure
    exact htail rc h₁ hcall before userKey rid after hcalls rcs₁ h₂ hrun

theorem run_concat {calls : List Call} {rcs : List RC} {h₁ h₂ : BplusTreeHandler Key}
    (hrun : h.run layout calls = some (rcs, h₁)) {c : Call} {rc : RC} (hcall : h₁.call layout c = some (rc, h₂)) :
    h.run layout (calls ++ [c]) = some (rcs ++ [rc], h₂) := by
  induction calls generalizing h rcs with
  | nil =>
    obtain ⟨rfl, rfl⟩ := Prod.mk.inj (Option.some.inj hrun)
    simp only [List.nil_append, BplusTreeHandler.run, hcall, Option.bind_eq_bind, Option.bind_some, Option.pure_def]
  | cons d calls ih =>
    simp only [BplusTreeHandler.run, Option.bind_eq_bind, Option.bind_eq_some_iff] at hrun
    obtain ⟨⟨rc₀, h₀⟩, hfirst, ⟨rcs₀, h₀'⟩, hrest, hpure⟩ := hrun
    obtain ⟨rfl, rfl⟩ := Prod.mk.inj (Option.some.inj hpure)
    simp only [List.cons_append, BplusTreeHandler.run, hfirst, ih hrest, Option.bind_eq_bind, Option.bind_some,
      Option.pure_def]

/-- An insertion is refused exactly when its attributes are there. -/
def RefusedExactly (layout : KeyLayout) (h : BplusTreeHandler Key) (entries : List (Key × RID)) (c : Call) : Prop :=
  ∀ userKey rid, c = .insertEntry userKey rid → ∃ rc h', h.call layout c = some (rc, h') ∧
    (rc ≠ .success ↔ ∃ x ∈ entries, attrComparator layout.attrs x.1.attrs (c.key layout).attrs = 0)

theorem unique_call_spec (hattrs : AttrOrder (keyOps layout.attrs) ord.Known) (hr : Represents ord h entries)
    (hu : h.header.unique = true) (hdistinct : Distinct (keyOps layout.attrs) entries) {c : Call} {calls : List Call}
    (hc : ord.Known (c.key layout)) (hrouted : Routed layout h (c :: calls)) :
    RefusedExactly layout h entries c ∧ ∃ rc h' entries', h.call layout c = some (rc, h') ∧ Represents ord h' entries' ∧
      h'.header.unique = true ∧ Distinct (keyOps layout.attrs) entries' := by
  cases c with
  | insertEntry userKey rid =>
    have hclear := hrouted [] userKey rid calls rfl [] h rfl
    rcases insertEntry_unique hattrs hr hu hdistinct hc hclear rid with
      ⟨hx, hrun⟩ | ⟨habsent, h', front, back, rfl, hrun, hrebuilt⟩
    · refine ⟨fun _ _ _ => ⟨_, h, hrun, ?_⟩, _, h, entries, hrun, hr, hu, hdistinct⟩
      exact ⟨fun _ => hx, fun _ => by decide⟩
    · refine ⟨fun _ _ _ => ⟨_, h', hrun, ?_⟩, _, h', _, hrun, hrebuilt.represents hr.wide hr.disposed, ?_,
        Distinct.insert hattrs hdistinct hr.known hc habsent rid⟩
      · exact ⟨fun hne => absurd rfl hne, fun ⟨x, hx, h0⟩ => absurd h0 (habsent x hx)⟩
      · obtain ⟨rootPage, hheader⟩ := hrebuilt.limits
        rw [hheader]
        exact hu
  | deleteEntry userKey rid =>
    refine ⟨fun _ _ heq => (nomatch heq), ?_⟩
    rcases deleteEntry_spec hr hc with ⟨h', front, x, back, rfl, -, hrun, ⟨rootPage, hheader⟩, hr'⟩ | ⟨-, hrun⟩
    · refine ⟨_, h', front ++ back, hrun, hr', by rw [hheader]; exact hu, ?_⟩
      exact hdistinct.sublist ((List.sublist_cons_self x back).append_left front)
    · exact ⟨_, h, entries, hrun, hr, hu, hdistinct⟩

theorem unique_run_spec (hattrs : AttrOrder (keyOps layout.attrs) ord.Known) (hr : Represents ord h entries)
    (hu : h.header.unique = true) (hdistinct : Distinct (keyOps layout.attrs) entries) (calls rest : List Call)
    (hcalls : ∀ c ∈ calls ++ rest, ord.Known (c.key layout)) (hrouted : Routed layout h (calls ++ rest)) :
    ∃ rcs h' entries', h.run layout calls = some (rcs, h') ∧ h'.leafChain = some entries' ∧
      Distinct (keyOps layout.attrs) entries' ∧ ∀ c ∈ rest.head?, RefusedExactly layout h' entries' c := by
  induction calls generalizing h entries with
  | nil =>
    refine ⟨[], h, entries, rfl, leafChain_eq hr, hdistinct, fun c hc => ?_⟩
    obtain ⟨rest, rfl⟩ : ∃ tail, rest = c :: tail := by
      cases rest with
      | nil => cases hc
      | cons d rest => exact ⟨rest, by rw [Option.some.inj hc]⟩
    exact (unique_call_spec hattrs hr hu hdistinct (hcalls c (by simp)) hrouted).1
  | cons c calls ih =>
    obtain ⟨-, rc, h₁, entries₁, hcall, hr₁, hu₁, hdistinct₁⟩ :=
      unique_call_spec hattrs hr hu hdistinct (hcalls c (by simp)) hrouted
    obtain ⟨rcs, h₂, entries₂, hrun, hrest⟩ := ih hr₁ hu₁ hdistinct₁ (fun d hd => hcalls d (by
      rcases List.mem_append.mp hd with hd | hd <;> simp [hd])) (hrouted.tail hcall)
    refine ⟨rc :: rcs, h₂, entries₂, ?_, hrest⟩
    simp only [BplusTreeHandler.run, hcall, hrun, Option.bind_eq_bind, Option.bind_some, Option.pure_def]

end Runs

theorem attrOrder_keyOps {attrs : List Attr} {ok : Key → Prop} (h : Consistent (keyOps attrs).attrComparator ok) :
    AttrOrder (keyOps attrs) ok where
  consistent := h
  first _ _ hne := if_pos hne

/-! ## Insertions in the order of the identifiers -/

section Ascending

variable {layout : KeyLayout}

/-- Rows that are inserted one after the other. -/
def inserts (rows : List (Bytes × RID)) : List Call := rows.map fun row => .insertEntry row.1 row.2

/-- The key of a row. -/
def rowKey (layout : KeyLayout) (row : Bytes × RID) : Key := makeKey layout.attrs layout.attrOffsets row.1 row.2

section Order

variable [Preorder B] [BoundedOrder B] {ord : KeyOrder (keyOps layout.attrs) B} {h h' : BplusTreeHandler Key}
  {entries : List (Key × RID)} {rows : List (Bytes × RID)}

/-- The rows that are accepted would alone have made the same tree. -/
theorem Represents.accepted (hattrs : AttrOrder (keyOps layout.attrs) ord.Known) (hr : Represents ord h entries)
    (hu : h.header.unique = true) (hknown : ∀ row ∈ rows, ord.Known (rowKey layout row)) {rcs : List RC}
    (hrun : h.run layout (inserts rows) = some (rcs, h')) :
    ∃ accepted, accepted.Sublist rows ∧
      h.run layout (inserts accepted) = some (List.replicate accepted.length .success, h') := by
  induction rows generalizing h entries rcs with
  | nil =>
    obtain rfl : h = h' := (Prod.mk.inj (Option.some.inj hrun)).2
    exact ⟨[], List.Sublist.refl _, rfl⟩
  | cons row rows ih =>
    have hrest : ∀ other ∈ rows, ord.Known (rowKey layout other) := fun other hmem => hknown other (List.mem_cons_of_mem _ hmem)
    simp only [inserts, List.map_cons, BplusTreeHandler.run, BplusTreeHandler.call, Option.bind_eq_bind,
      Option.bind_eq_some_iff] at hrun
    obtain ⟨⟨rc, h₁⟩, hcall, ⟨rcs₁, h₂⟩, hrun, hpure⟩ := hrun
    obtain rfl : h₂ = h' := (Prod.mk.inj (Option.some.inj hpure)).2
    rcases insertEntry_unique_represents hattrs hr hu (hknown row List.mem_cons_self) row.2 with
      hrefused | ⟨h₁', front, back, -, hdone, hrebuilt⟩
    · obtain rfl : h = h₁ := (Prod.mk.inj (Option.some.inj (hrefused.symm.trans hcall))).2
      obtain ⟨accepted, hsub, haccepted⟩ := ih hr hu hrest hrun
      exact ⟨accepted, hsub.cons row, haccepted⟩
    · obtain ⟨rfl, rfl⟩ := Prod.mk.inj (Option.some.inj (hdone.symm.trans hcall))
      obtain ⟨rootPage, hheader⟩ := hrebuilt.limits
      obtain ⟨accepted, hsub, haccepted⟩ :=
        ih (hrebuilt.represents hr.wide hr.disposed) (by rw [hheader]; exact hu) hrest hrun
      have hfirst : h.call layout (.insertEntry row.1 row.2) = some (.success, h₁') := hdone
      refine ⟨row :: accepted, hsub.cons_cons row, ?_⟩
      rw [inserts] at haccepted
      simp only [inserts, List.map_cons, BplusTreeHandler.run, hfirst, haccepted, Option.bind_eq_bind, Option.bind_some,
        Option.pure_def, List.length_cons, List.replicate_succ]

/-- A tree holds the rows that it has accepted. -/
theorem Represents.holds (hattrs : AttrOrder (keyOps layout.attrs) ord.Known) (hr : Represents ord h entries)
    (hu : h.header.unique = true) (hknown : ∀ row ∈ rows, ord.Known (rowKey layout row))
    (hrun : h.run layout (inserts rows) = some (List.replicate rows.length .success, h')) :
    ∃ entries', Represents ord h' entries' ∧ (∀ x ∈ entries, x ∈ entries') ∧
      ∀ row ∈ rows, (rowKey layout row, row.2) ∈ entries' := by
  induction rows generalizing h entries with
  | nil =>
    obtain rfl : h = h' := (Prod.mk.inj (Option.some.inj hrun)).2
    exact ⟨entries, hr, fun _ hx => hx, fun row hrow => absurd hrow List.not_mem_nil⟩
  | cons row rows ih =>
    simp only [inserts, List.map_cons, BplusTreeHandler.run, BplusTreeHandler.call, Option.bind_eq_bind,
      Option.bind_eq_some_iff] at hrun
    obtain ⟨⟨rc, h₁⟩, hcall, ⟨rcs, h₂⟩, hrun, hpure⟩ := hrun
    obtain ⟨hrcs, rfl⟩ := Prod.mk.inj (Option.some.inj hpure)
    obtain ⟨rfl, rfl⟩ := List.cons.inj hrcs
    rcases insertEntry_unique_represents hattrs hr hu (hknown row List.mem_cons_self) row.2 with
      hrefused | ⟨h₁', front, back, rfl, hdone, hrebuilt⟩
    · have hrc := (Prod.mk.inj (Option.some.inj (hrefused.symm.trans hcall))).1
      cases hrc
    · obtain rfl : h₁' = h₁ := (Prod.mk.inj (Option.some.inj (hdone.symm.trans hcall))).2
      obtain ⟨rootPage, hheader⟩ := hrebuilt.limits
      obtain ⟨entries', hr', hkept, hrows⟩ := ih (hrebuilt.represents hr.wide hr.disposed) (by rw [hheader]; exact hu)
        (fun other hmem => hknown other (List.mem_cons_of_mem _ hmem)) hrun
      refine ⟨entries', hr', fun x hx => hkept x ?_, fun other hmem => ?_⟩
      · rcases List.mem_append.mp hx with hx | hx
        · exact List.mem_append_left _ hx
        · exact List.mem_append_right _ (List.mem_cons_of_mem _ hx)
      · rcases List.mem_cons.mp hmem with rfl | hmem
        · exact hkept _ (List.mem_append_right _ List.mem_cons_self)
        · exact hrows other hmem

end Order

variable {internalMaxSize leafMaxSize : ℕ} (hexact : ∀ a ∈ layout.attrs, a.Exact) (hleaf : 4 ≤ leafMaxSize)
  (hinternal : 6 ≤ internalMaxSize)
include hexact hleaf hinternal

/-- The separators of a tree that has only been inserted into are keys of its entries. One that lies between an entry and a
later key with the same attributes would be another entry with these attributes. -/
theorem undivided_of_later {rows : List (Bytes × RID)} {row : Bytes × RID} (hvalid : ∀ other ∈ rows, other.2.Valid)
    (hrow : row.2.Valid) (hlater : ∀ other ∈ rows, RID.compare other.2 row.2 < 0) {rcs : List RC} {h : BplusTreeHandler Key}
    {entries : List (Key × RID)} (hrun : (BplusTreeHandler.create true internalMaxSize leafMaxSize).run layout (inserts rows) =
      some (rcs, h)) (hchain : h.leafChain = some entries) (hdistinct : Distinct (keyOps layout.attrs) entries) :
    Undivided (keyOps layout.attrs) h (rowKey layout row) := by
  have hall := keyComparator_consistent hexact
  obtain ⟨B₀, _, _, ord₀, hknown₀, -⟩ := exists_keyOrder hall
  obtain ⟨accepted, hsub, haccepted⟩ := (create_represents ord₀ true hleaf hinternal).accepted
    (attrOrder_keyOps (attrComparator_consistent hexact _)) rfl (fun other hmem => (hknown₀ _).mpr (hvalid other hmem)) hrun
  -- in an order that knows the accepted keys only
  have hfew : Consistent (keyOps layout.attrs).keyComparator fun k => ∃ other ∈ accepted, rowKey layout other = k := by
    refine hall.mono ?_
    rintro k ⟨other, hmem, rfl⟩
    exact hvalid other (hsub.subset hmem)
  obtain ⟨B, _, _, ord, hknown, -⟩ := exists_keyOrder hfew
  obtain ⟨entries', hr, -, hholds⟩ := (create_represents ord true hleaf hinternal).holds
    (attrOrder_keyOps (attrComparator_consistent hexact _)) rfl (fun other hmem => (hknown _).mpr ⟨other, hmem, rfl⟩) haccepted
  obtain rfl : entries' = entries := Option.some.inj ((leafChain_eq hr).symm.trans hchain)
  intro root entries x s hroot hchain' hx hzero hs hdivides
  obtain rfl : entries' = entries := Option.some.inj (hchain.symm.trans hchain')
  obtain ⟨other, hother, hkey⟩ := (hknown _).mp (hr.known x hx)
  obtain ⟨owner, howner, rfl⟩ := (hknown _).mp (hr.separator_known hroot hs)
  have hattrs := attrOrder_keyOps (attrComparator_consistent hexact fun k => k.rid.Valid)
  have hvx : x.1.rid.Valid := hkey ▸ hvalid other (hsub.subset hother)
  have hvs : (rowKey layout owner).rid.Valid := hvalid owner (hsub.subset howner)
  have hbefore : (keyOps layout.attrs).keyComparator x.1 (rowKey layout row) < 0 := by
    have hrid : RID.compare x.1.rid row.2 < 0 := hkey ▸ hlater other (hsub.subset hother)
    have hsame : attrComparator layout.attrs x.1.attrs (rowKey layout row).attrs = 0 := hzero
    show keyComparator layout.attrs x.1 (rowKey layout row) < 0
    unfold keyComparator
    rw [hsame]
    exact hrid
  obtain ⟨hsame, hbelow⟩ := hdivides.same_attrs hall hattrs hvs hvx hrow hbefore hzero
  have hentry := hholds owner howner
  by_cases heq : x = (rowKey layout owner, owner.2)
  · have hflip := hall.flip x.1 x.1 hvx hvx
    rw [← show x.1 = rowKey layout owner from congrArg Prod.fst heq] at hbelow
    omega
  · have hsymm : Std.Symm fun y z : Key × RID => (keyOps layout.attrs).attrComparator y.1 z.1 ≠ 0 :=
      ⟨fun y z hdiff hzero => hdiff ((attrComparator_consistent hexact fun _ => True).zero_comm trivial trivial |>.mp hzero)⟩
    exact hdistinct.forall hx hentry heq hsame

/-- A unique tree into which rows are inserted in the order of their identifiers, whether or not it accepts them. -/
theorem routed_ascending {rows : List (Bytes × RID)} (hvalid : ∀ row ∈ rows, row.2.Valid)
    (hsorted : rows.Pairwise fun r s => RID.compare r.2 s.2 < 0) :
    Routed layout (BplusTreeHandler.create true internalMaxSize leafMaxSize) (inserts rows) := by
  induction rows using List.reverseRecOn with
  | nil => exact Routed.nil
  | append_singleton rows row ih =>
    rw [List.pairwise_append] at hsorted
    have hrows : ∀ other ∈ rows, other.2.Valid := fun other hmem => hvalid other (List.mem_append_left _ hmem)
    have hrouted := ih hrows hsorted.1
    have hlater : ∀ other ∈ rows, RID.compare other.2 row.2 < 0 := fun other hmem =>
      hsorted.2.2 other hmem row List.mem_cons_self
    intro before userKey rid after heq rcs h hrun
    rw [inserts, List.map_append] at heq
    rcases List.eq_nil_or_concat after with rfl | ⟨after, last, rfl⟩
    · obtain ⟨hbefore, hlast⟩ := List.append_inj' heq rfl
      obtain ⟨rfl, rfl⟩ := Call.insertEntry.inj (List.cons.inj hlast).1
      obtain rfl : inserts rows = before := hbefore
      obtain ⟨B, _, _, ord, hknown, -⟩ := exists_keyOrder (keyComparator_consistent hexact)
      have hcalls : ∀ c ∈ inserts rows ++ [], ord.Known (c.key layout) := by
        intro c hc
        rw [List.append_nil] at hc
        obtain ⟨other, hmem, rfl⟩ := List.mem_map.mp hc
        exact (hknown _).mpr (hrows other hmem)
      obtain ⟨rcs', h', entries, hrun', hchain, hdistinct, -⟩ := unique_run_spec
        (attrOrder_keyOps (attrComparator_consistent hexact _)) (create_represents ord true hleaf hinternal) rfl
        List.Pairwise.nil (inserts rows) [] hcalls (by rw [List.append_nil]; exact hrouted)
      obtain ⟨-, rfl⟩ := Prod.mk.inj (Option.some.inj (hrun'.symm.trans hrun))
      exact undivided_of_later hexact hleaf hinternal hrows (hvalid row (by simp)) hlater hrun hchain hdistinct
    · rw [List.concat_eq_append, ← List.cons_append, ← List.append_assoc] at heq
      obtain ⟨hfront, -⟩ := List.append_inj' heq rfl
      exact hrouted before userKey rid after hfront rcs h hrun

end Ascending

end Landbase.Index
