import Landbase.Index.BplusTree
import Landbase.Index.Layout

/-! # Searching: node lookups and the descent to a leaf

`KeyOrder` is what the tree needs of its comparator: it is the three-way comparison of a linear order. With it the lookups
of both kinds of nodes are determined by how the search key cuts the items, and `find_leaf` arrives at the leaf that is
responsible for the key. `Focus` is the invariant of the whole tree seen from one of its nodes.
-/

namespace Landbase.Index
open Landbase.Lib Landbase.Common
set_option autoImplicit false

/-- The order behind a comparator, with a least and a greatest bound added. Keys that compare equal need not be equal,
so that separators can be followed as they are. The least bound also stands for keys that the order does not know, such
as the key of zero bytes that is never looked at. -/
structure KeyOrder {K : Type} (ops : KeyOps K) (B : Type) [Preorder B] [BoundedOrder B] where
  key : K → B
  lt_top : ∀ k, key k < ⊤
  neg_iff : ∀ a b, ⊥ < key a → ⊥ < key b → (ops.keyComparator a b < 0 ↔ key a < key b)
  pos_iff : ∀ a b, ⊥ < key a → ⊥ < key b → (0 < ops.keyComparator a b ↔ key b < key a)
  le_iff : ∀ a b, ⊥ < key a → ⊥ < key b → (key a ≤ key b ↔ ¬ key b < key a)

variable {K B : Type} [Preorder B] [BoundedOrder B] {ops : KeyOps K} (ord : KeyOrder ops B)

/-- A key that takes part in the order. -/
def KeyOrder.Known (ord : KeyOrder ops B) (k : K) : Prop := ⊥ < ord.key k

theorem KeyOrder.known_of_lt {ord : KeyOrder ops B} {a : K} {b : B} (h : b < ord.key a) : ord.Known a :=
  lt_of_le_of_lt bot_le h

theorem KeyOrder.neg {ord : KeyOrder ops B} {a b : K} (ha : ord.Known a) (h : ord.key a < ord.key b) :
    ops.keyComparator a b < 0 := (ord.neg_iff a b ha (known_of_lt h)).mpr h

theorem KeyOrder.pos {ord : KeyOrder ops B} {a b : K} (hb : ord.Known b) (h : ord.key b < ord.key a) :
    0 < ops.keyComparator a b := (ord.pos_iff a b (known_of_lt h) hb).mpr h

/-- Two keys between which the comparator sees no difference. -/
def KeyOrder.Same (ord : KeyOrder ops B) (a b : K) : Prop := ord.key a ≤ ord.key b ∧ ord.key b ≤ ord.key a

theorem KeyOrder.zero_iff {ord : KeyOrder ops B} {a b : K} (ha : ord.Known a) (hb : ord.Known b) :
    ops.keyComparator a b = 0 ↔ ord.Same a b := by
  have hneg := ord.neg_iff a b ha hb
  have hpos := ord.pos_iff a b ha hb
  rw [Same, ord.le_iff a b ha hb, ord.le_iff b a hb ha, ← hneg, ← hpos]
  omega

theorem KeyOrder.trichotomy {ord : KeyOrder ops B} {a b : K} (ha : ord.Known a) (hb : ord.Known b) :
    ord.key a < ord.key b ∨ ord.Same a b ∨ ord.key b < ord.key a := by
  rw [← ord.neg_iff a b ha hb, ← zero_iff ha hb, ← ord.pos_iff a b ha hb]
  omega

/-! ## Lookups -/

/-- A key that is not in an ordered leaf cuts it in two; one that is, stands at one place. -/
theorem leaf_split {lo hi : B} {items : List (K × RID)} (h : SortedIn ord.key lo hi items) {q : K}
    (hq : ord.Known q) :
    (∃ pre post, items = pre ++ post ∧ (∀ x ∈ pre, ord.key x.1 < ord.key q) ∧ ∀ x ∈ post, ord.key q < ord.key x.1) ∨
      ∃ pre x post, items = pre ++ x :: post ∧ ord.Same x.1 q ∧ (∀ y ∈ pre, ord.key y.1 < ord.key q) ∧
        ∀ y ∈ post, ord.key q < ord.key y.1 := by
  obtain ⟨hpair, hbound⟩ := h
  induction items with
  | nil => exact Or.inl ⟨[], [], rfl, by simp, by simp⟩
  | cons x items ih =>
    rw [List.map_cons, List.pairwise_cons] at hpair
    have hafter : ∀ y ∈ items, ord.key x.1 < ord.key y.1 := fun y hy => hpair.1 _ (List.mem_map_of_mem hy)
    rcases KeyOrder.trichotomy (hbound x (by simp)).2.1 hq with hx | hx | hx
    · rcases ih hpair.2 (fun y hy => hbound y (by simp [hy])) with ⟨pre, post, rfl, hpre, hpost⟩ | ⟨pre, z, post, rfl, hz, hpre, hpost⟩
      · exact Or.inl ⟨x :: pre, post, rfl, by simpa [hx] using hpre, hpost⟩
      · exact Or.inr ⟨x :: pre, z, post, rfl, hz, by simpa [hx] using hpre, hpost⟩
    · exact Or.inr ⟨[], x, items, rfl, hx, by simp, fun y hy => lt_of_le_of_lt hx.2 (hafter y hy)⟩
    · exact Or.inl ⟨[], x :: items, rfl, by simp, by
        intro y hy
        rcases List.mem_cons.mp hy with rfl | hy
        · exact hx
        · exact lt_trans hx (hafter y hy)⟩

theorem leaf_lookup_absent {node : LeafIndexNode K} {pre post : List (K × RID)} (hitems : node.items = pre ++ post)
    {q : K} (hq : ord.Known q) (hknown : ∀ x ∈ pre, ord.Known x.1) (hpre : ∀ x ∈ pre, ord.key x.1 < ord.key q)
    (hpost : ∀ x ∈ post, ord.key q < ord.key x.1) : node.lookup ops.keyComparator q = (pre.length, false) := by
  unfold LeafIndexNode.lookup
  rw [hitems]
  exact lowerBound_absent _ pre post (fun x hx => KeyOrder.neg (hknown x hx) (hpre x hx))
    (fun x hx => KeyOrder.pos hq (hpost x hx))

theorem leaf_lookup_present {node : LeafIndexNode K} {pre post : List (K × RID)} {x : K × RID}
    (hitems : node.items = pre ++ x :: post) {q : K} (hq : ord.Known q) (hknown : ∀ y ∈ pre, ord.Known y.1)
    (hpre : ∀ y ∈ pre, ord.key y.1 < ord.key q) (hx : ord.Same x.1 q) (hpost : ∀ y ∈ post, ord.key q < ord.key y.1) :
    node.lookup ops.keyComparator q = (pre.length, true) := by
  unfold LeafIndexNode.lookup
  rw [hitems]
  exact lowerBound_present _ pre post x (fun y hy => KeyOrder.neg (hknown y hy) (hpre y hy))
    ((KeyOrder.zero_iff (lt_of_lt_of_le hq hx.2) hq).mpr hx) (fun y hy => KeyOrder.pos hq (hpost y hy))

/-- How a search key cuts the items of an internal node: it belongs to the child behind `x`. -/
structure Routes (left : List (K × PageNum)) (x : K × PageNum) (right : List (K × PageNum)) (q : K) : Prop where
  known : ord.Known q
  before : ∀ y ∈ left.tail, ord.Known y.1 ∧ ord.key y.1 < ord.key q
  here : left ≠ [] → ord.Known x.1 ∧ ord.key x.1 ≤ ord.key q
  after : ∀ y ∈ right, ord.key q < ord.key y.1

/-- The lookup of an internal node finds the child, and the place behind it when the key is not its separator. -/
theorem internal_lookup {node : InternalIndexNode K} {left right : List (K × PageNum)} {x : K × PageNum}
    (hitems : node.items = left ++ x :: right) {q : K} (h : Routes ord left x right q) :
    (node.lookup ops q).1 = left.length ∧
      ((left ≠ [] → ord.key x.1 < ord.key q) → (node.lookup ops q).2 = left.length + 1) := by
  have hpost : ∀ y ∈ right, 0 < ops.keyComparator y.1 q := fun y hy => KeyOrder.pos h.known (h.after y hy)
  have hlen : node.items.length ≠ 0 := by rw [hitems]; simp
  have hnext : ∀ item : K × PageNum, node.items[left.length + 1]? = some item → ops.keyComparator q item.1 < 0 := by
    intro item hitem
    rw [hitems, List.getElem?_append_right (by omega)] at hitem
    have hcons : left.length + 1 - left.length = 0 + 1 := by omega
    rw [hcons, List.getElem?_cons_succ] at hitem
    exact KeyOrder.neg h.known (h.after item (List.mem_of_getElem? hitem))
  -- once the search has stopped behind `x`, the next key decides for `x`
  have hbehind : (lowerBound (fun item : K × PageNum => ops.keyComparator item.1 q) (node.items.drop 1)).1 = left.length →
      node.lookup ops q = (left.length, left.length + 1) := by
    intro hlb
    unfold InternalIndexNode.lookup
    simp only [hlen, if_false, hlb]
    cases hitem : node.items[left.length + 1]? with
    | none => simp
    | some item => simp [hnext item hitem]
  cases left with
  | nil =>
    have hlb : lowerBound (fun item : K × PageNum => ops.keyComparator item.1 q) (node.items.drop 1) = (0, false) := by
      rw [hitems]
      exact lowerBound_absent _ [] right (by simp) hpost
    rw [hbehind (by rw [hlb]; rfl)]
    simp
  | cons z left =>
    have hpre : ∀ y ∈ left, ops.keyComparator y.1 q < 0 := fun y hy => KeyOrder.neg (h.before y hy).1 (h.before y hy).2
    have hdrop : node.items.drop 1 = left ++ x :: right := by rw [hitems]; rfl
    obtain ⟨hknown, hhere⟩ := h.here (by simp)
    rcases KeyOrder.trichotomy hknown h.known with hlt | hsame | hgt
    · have hlb : lowerBound (fun item : K × PageNum => ops.keyComparator item.1 q) (node.items.drop 1) =
          (left.length + 1, false) := by
        rw [hdrop]
        have := lowerBound_absent (fun item : K × PageNum => ops.keyComparator item.1 q) (left ++ [x]) right
          (by
            intro y hy
            cases List.mem_append.mp hy with
            | inl hy => exact hpre y hy
            | inr hy =>
              rw [List.mem_singleton.mp hy]
              exact KeyOrder.neg hknown hlt) hpost
        simpa using this
      rw [hbehind (by rw [hlb]; rfl)]
      simp
    · have hlb : lowerBound (fun item : K × PageNum => ops.keyComparator item.1 q) (node.items.drop 1) =
          (left.length, true) := by
        rw [hdrop]
        exact lowerBound_present _ left right x hpre ((KeyOrder.zero_iff hknown h.known).mpr hsame) hpost
      have hget : node.items[left.length + 1]? = some x := by rw [hitems]; simp
      have hcmp : ¬ ops.keyComparator q x.1 < 0 := by
        rw [ord.neg_iff q x.1 h.known hknown]
        exact not_lt_of_ge hhere
      unfold InternalIndexNode.lookup
      simp only [hlen, if_false, hlb, hget, hcmp, List.length_cons]
      exact ⟨trivial, fun hx => absurd (hx (by simp)) (not_lt_of_ge hsame.2)⟩
    · exact absurd hhere (not_le_of_gt hgt)

theorem internal_insert {node : InternalIndexNode K} {left right : List (K × PageNum)} {x : K × PageNum}
    (hitems : node.items = left ++ x :: right) {q : K} (h : Routes ord left x right q)
    (hx : left ≠ [] → ord.key x.1 < ord.key q) (page : PageNum) :
    node.insert ops q page = { node with items := left ++ x :: (q, page) :: right } := by
  unfold InternalIndexNode.insert
  simp only [(internal_lookup ord hitems h).2 hx, hitems]
  have hsplit : left ++ x :: right = (left ++ [x]) ++ right := by simp
  rw [hsplit, List.take_left' (by simp), List.drop_left' (by simp)]
  simp

/-! ## Routing through a chain -/

theorem routes_of_chain {n : ℕ} {lo hi : B} {left right : Items K (n + 1)} {x : K × Val K (n + 1)}
    (h : SepChain ord.key (SegTree ord.key n) lo hi (left ++ x :: right)) {q : K} (hq : ord.Known q)
    (hlo : left ≠ [] → ord.key x.1 ≤ ord.key q) (hhi : ord.key q < nextBound ord.key right hi) :
    Routes ord (left.map childItem) (childItem x) (right.map childItem) q := by
  have hback : ∀ y ∈ right, nextBound ord.key right hi ≤ ord.key y.1 := h.nextBound_le
  refine ⟨hq, ?_, ?_, ?_⟩
  · intro y hy
    cases left with
    | nil => cases hy
    | cons z left =>
      simp only [List.map_cons, List.tail_cons, List.mem_map] at hy
      obtain ⟨w, hw, rfl⟩ := hy
      rw [List.cons_append] at h
      obtain ⟨hpair, hbound⟩ := SepChain.tail_keys h
      rw [List.map_append, List.map_cons, List.pairwise_append] at hpair
      exact ⟨KeyOrder.known_of_lt (hbound w (by simp [hw])).1,
        lt_of_lt_of_le (hpair.2.2 _ (List.mem_map_of_mem hw) _ (by simp)) (hlo (by simp))⟩
  · intro hne
    cases left with
    | nil => exact absurd rfl hne
    | cons z left =>
      rw [List.cons_append] at h
      exact ⟨KeyOrder.known_of_lt ((SepChain.tail_keys h).2 x (by simp)).1, hlo (by simp)⟩
  · intro y hy
    obtain ⟨w, hw, rfl⟩ := List.mem_map.mp hy
    exact lt_of_lt_of_le hhi (hback w hw)

theorem routes_behind {n : ℕ} {lo hi : B} {left right : Items K (n + 1)} {x y : K × Val K (n + 1)}
    (h : SepChain ord.key (SegTree ord.key n) lo hi (left ++ x :: y :: right)) :
    Routes ord (left.map childItem) (childItem x) (right.map childItem) y.1 ∧
      (left ≠ [] → ord.key x.1 < ord.key y.1) := by
  cases left with
  | nil =>
    obtain ⟨hpair, hbound⟩ := SepChain.tail_keys h
    rw [List.map_cons, List.pairwise_cons] at hpair
    refine ⟨⟨KeyOrder.known_of_lt (hbound y (by simp)).1, by simp, by simp, ?_⟩, fun hne => absurd rfl hne⟩
    intro z hz
    obtain ⟨w, hw, rfl⟩ := List.mem_map.mp hz
    exact hpair.1 _ (List.mem_map_of_mem hw)
  | cons z left =>
    rw [List.cons_append] at h
    obtain ⟨hpair, hbound⟩ := SepChain.tail_keys h
    rw [List.map_append, List.pairwise_append] at hpair
    obtain ⟨-, hback, hcross⟩ := hpair
    simp only [List.map_cons, List.pairwise_cons] at hback
    have hxy : ord.key x.1 < ord.key y.1 := hback.1 _ (by simp)
    have hknown : ∀ w ∈ left ++ x :: y :: right, ord.Known w.1 := fun w hw => KeyOrder.known_of_lt (hbound w hw).1
    refine ⟨⟨hknown y (by simp), ?_, fun _ => ⟨hknown x (by simp), le_of_lt hxy⟩, ?_⟩, fun _ => hxy⟩
    · intro v hv
      obtain ⟨w, hw, rfl⟩ := List.mem_map.mp hv
      exact ⟨hknown w (by simp [hw]), hcross _ (List.mem_map_of_mem hw) _ (by simp)⟩
    · intro v hv
      obtain ⟨w, hw, rfl⟩ := List.mem_map.mp hv
      exact hback.2.1 _ (List.mem_map_of_mem hw)

theorem internal_insert_chain {n : ℕ} {lo hi : B} {left right : Items K (n + 1)} {x y : K × Val K (n + 1)}
    (h : SepChain ord.key (SegTree ord.key n) lo hi (left ++ x :: y :: right)) (parent : Option PageNum) :
    InternalIndexNode.insert ops ⟨parent, (left ++ x :: right).map childItem⟩ y.1 y.2.tree.page =
      ⟨parent, (left ++ x :: y :: right).map childItem⟩ := by
  obtain ⟨hroutes, hbehind⟩ := routes_behind ord h
  have hitems : (⟨parent, (left ++ x :: right).map childItem⟩ : InternalIndexNode K).items =
      left.map childItem ++ childItem x :: right.map childItem := by rw [List.map_append, List.map_cons]
  rw [internal_insert ord hitems hroutes (fun hne => hbehind (fun h0 => hne (by rw [h0]; rfl)))]
  simp only [List.map_append, List.map_cons]
  rfl

theorem exists_route {n : ℕ} {lo hi : B} {items : Items K (n + 1)} (hne : items ≠ [])
    (h : SepChain ord.key (SegTree ord.key n) lo hi items) {q : K} (hknown : ord.Known q) (hhi : ord.key q < hi) :
    ∃ left x right, items = left ++ x :: right ∧ (left ≠ [] → ord.key x.1 ≤ ord.key q) ∧
      ord.key q < nextBound ord.key right hi := by
  induction items generalizing lo with
  | nil => exact absurd rfl hne
  | cons x items ih =>
    by_cases hq : ord.key q < nextBound ord.key items hi
    · exact ⟨[], x, items, rfl, fun hne => absurd rfl hne, hq⟩
    · cases items with
      | nil => exact absurd hhi hq
      | cons y items =>
        have hy : ord.Known y.1 := KeyOrder.known_of_lt h.2.1
        obtain ⟨left, z, right, heq, hlo, hnext⟩ := ih (by simp) h.2.2.2
        refine ⟨x :: left, z, right, by rw [heq]; rfl, fun _ => ?_, hnext⟩
        cases left with
        | nil =>
          have hzy : y = z := by simpa using congrArg List.head? heq
          rw [← hzy]
          exact (ord.le_iff y.1 q hy hknown).mpr hq
        | cons w left => exact hlo (by simp)

end Landbase.Index
