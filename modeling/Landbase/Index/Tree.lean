import Landbase.Index.Node
import Landbase.Lib.SepChain
import Landbase.Lib.ThreeWay

/-! # The tree behind the pages

An abstract B+ tree of height `n`: a node is a page number and a list of items; the items of a leaf carry record
identifiers, the items of a node at height `n + 1` carry nodes of height `n`. All leaves are at the same depth by
construction, and the items of both kinds of nodes are treated alike.

`Seg key n lo hi items` is the order invariant: the entries below `items` lie in `[lo, hi)` and the keys of the internal
nodes separate them. A key is known through its image `key k` in a linear order that has a least element below and a
greatest element above all keys; these are the bounds of the whole tree.
-/

namespace Landbase.Index
open Landbase.Lib
set_option autoImplicit false

/-! ## Trees -/

/-- A node page with values of type `V`. -/
structure Node (K V : Type) where
  page : PageNum
  items : List (K × V)

/-- What the items of a node at height `n` carry. -/
def Val (K : Type) : ℕ → Type
  | 0 => RID
  | n + 1 => Node K (Val K n)

/-- A tree of height `n`. -/
abbrev Tree (K : Type) (n : ℕ) := Node K (Val K n)

/-- The items of a node at height `n`. -/
abbrev Items (K : Type) (n : ℕ) := List (K × Val K n)

/-- The child that an item of an internal node carries. -/
def Val.tree {K : Type} {n : ℕ} (v : Val K (n + 1)) : Tree K n := v

/-- A tree as a child. -/
def toVal {K : Type} {n : ℕ} (t : Tree K n) : Val K (n + 1) := t

/-- A leaf with entries `items`. -/
def leafTree {K : Type} (page : PageNum) (items : List (K × RID)) : Tree K 0 := ⟨page, items⟩

@[simp] theorem toVal_tree {K : Type} {n : ℕ} (t : Tree K n) : (toVal t).tree = t := rfl

variable {K B : Type}

/-- The entries below a list of items, from left to right. -/
def contents : (n : ℕ) → Items K n → List (K × RID)
  | 0, items => items
  | n + 1, items => items.flatMap fun x => contents n x.2.tree.items

theorem contents_append (n : ℕ) (front back : Items K n) :
    contents n (front ++ back) = contents n front ++ contents n back := by
  cases n with
  | zero => rfl
  | succ n => simp only [contents, List.flatMap_append]

theorem contents_nil (n : ℕ) : contents n ([] : Items K n) = [] := by
  cases n with
  | zero => rfl
  | succ n => rfl

theorem contents_cons (n : ℕ) (x : K × Val K (n + 1)) (items : Items K (n + 1)) :
    contents (n + 1) (x :: items) = contents n x.2.tree.items ++ contents (n + 1) items := by
  simp only [contents, List.flatMap_cons]

/-! ## Order -/

section Order
variable [Preorder B] [OrderBot B]

/-- The keys increase strictly inside `[lo, hi)`, and none is at the least bound. -/
def SortedIn {V : Type} (key : K → B) (lo hi : B) (items : List (K × V)) : Prop :=
  (items.map fun x => key x.1).Pairwise (· < ·) ∧ ∀ x ∈ items, lo ≤ key x.1 ∧ ⊥ < key x.1 ∧ key x.1 < hi

/-- The items keep their entries and separators in order inside `[lo, hi)`. -/
def Seg (key : K → B) : (n : ℕ) → B → B → Items K n → Prop
  | 0, lo, hi, items => SortedIn key lo hi items
  | n + 1, lo, hi, items =>
    SepChain key (fun lo hi (c : Val K (n + 1)) => c.tree.items ≠ [] ∧ Seg key n lo hi c.tree.items) lo hi items

/-- What `Seg` asks of a child. -/
abbrev SegTree (key : K → B) (n : ℕ) : B → B → Val K (n + 1) → Prop :=
  fun lo hi c => c.tree.items ≠ [] ∧ Seg key n lo hi c.tree.items

variable {key : K → B} {lo hi : B}

theorem seg_succ {n : ℕ} {items : Items K (n + 1)} :
    Seg key (n + 1) lo hi items ↔ SepChain key (SegTree key n) lo hi items := Iff.rfl

theorem Seg.cut {n : ℕ} {front back : Items K n} (h : Seg key n lo hi (front ++ back)) (hfront : front ≠ [])
    (hback : back ≠ []) :
    Seg key n lo (nextBound key back hi) front ∧ Seg key n (nextBound key back hi) hi back ∧
      lo < nextBound key back hi ∧ nextBound key back hi < hi := by
  obtain ⟨y, back, rfl⟩ := List.exists_cons_of_ne_nil hback
  obtain ⟨x, front, rfl⟩ := List.exists_cons_of_ne_nil hfront
  cases n with
  | zero =>
    obtain ⟨hpair, hbound⟩ := h
    rw [List.map_append, List.pairwise_append] at hpair
    obtain ⟨hpf, hpb, hcross⟩ := hpair
    have hlt : ∀ z ∈ x :: front, key z.1 < key y.1 := fun z hz =>
      hcross _ (List.mem_map_of_mem hz) _ (List.mem_map_of_mem (by simp))
    have hy := hbound y (by simp)
    refine ⟨⟨hpf, fun z hz => ⟨(hbound z (List.mem_append_left _ hz)).1,
      (hbound z (List.mem_append_left _ hz)).2.1, hlt z hz⟩⟩, ⟨hpb, fun z hz => ?_⟩, ?_, hy.2.2⟩
    · refine ⟨?_, (hbound z (List.mem_append_right _ hz)).2⟩
      rcases List.mem_cons.mp hz with rfl | hz
      · exact le_refl _
      · rw [List.map_cons, List.pairwise_cons] at hpb
        exact le_of_lt (hpb.1 _ (List.mem_map_of_mem hz))
    · exact lt_of_le_of_lt (hbound x (by simp)).1 (hlt x (by simp))
  | succ n =>
    have hcut := (sepChain_append (by simp)).mp h
    exact ⟨hcut.1, hcut.2, SepChain.lt hcut.1 (by simp), SepChain.lt hcut.2 (by simp)⟩

theorem Seg.join {n : ℕ} {front back : Items K n} {mid : B} (hf : Seg key n lo mid front) (hfront : front ≠ [])
    (hb : Seg key n mid hi back) (hback : back ≠ []) (hmid : mid ≠ ⊥) (hle : lo ≤ mid) (hle' : mid ≤ hi) :
    Seg key n lo hi (front ++ back) := by
  cases n with
  | zero =>
    obtain ⟨hpf, hbf⟩ := hf
    obtain ⟨hpb, hbb⟩ := hb
    refine ⟨?_, ?_⟩
    · rw [List.map_append, List.pairwise_append]
      refine ⟨hpf, hpb, ?_⟩
      intro a ha b hb
      obtain ⟨x, hx, rfl⟩ := List.mem_map.mp ha
      obtain ⟨y, hy, rfl⟩ := List.mem_map.mp hb
      exact lt_of_lt_of_le (hbf x hx).2.2 (hbb y hy).1
    · intro x hx
      cases List.mem_append.mp hx with
      | inl hx => exact ⟨(hbf x hx).1, (hbf x hx).2.1, lt_of_lt_of_le (hbf x hx).2.2 hle'⟩
      | inr hx => exact ⟨le_trans hle (hbb x hx).1, (hbb x hx).2⟩
  | succ n =>
    obtain ⟨y, back, rfl⟩ := List.exists_cons_of_ne_nil hback
    have hy : mid = key y.1 := by
      cases hb.1 with
      | inl h => exact absurd h hmid
      | inr h => exact h
    rw [seg_succ, sepChain_append hfront]
    subst hy
    exact ⟨hf, hb⟩

theorem sortedIn_insert {V : Type} {pre post : List (K × V)} (h : SortedIn key lo hi (pre ++ post)) {x : K × V}
    (hpre : ∀ y ∈ pre, key y.1 < key x.1) (hpost : ∀ y ∈ post, key x.1 < key y.1) (hlo : lo ≤ key x.1)
    (hbot : ⊥ < key x.1) (hhi : key x.1 < hi) : SortedIn key lo hi (pre ++ x :: post) := by
  obtain ⟨hpair, hbound⟩ := h
  rw [List.map_append, List.pairwise_append] at hpair
  obtain ⟨hp1, hp2, hcross⟩ := hpair
  refine ⟨?_, ?_⟩
  · rw [List.map_append, List.map_cons, List.pairwise_append, List.pairwise_cons]
    refine ⟨hp1, ⟨fun b hb => ?_, hp2⟩, fun a ha b hb => ?_⟩
    · obtain ⟨y, hy, rfl⟩ := List.mem_map.mp hb
      exact hpost y hy
    · rcases List.mem_cons.mp hb with rfl | hb
      · obtain ⟨y, hy, rfl⟩ := List.mem_map.mp ha
        exact hpre y hy
      · exact hcross a ha b hb
  · intro y hy
    cases List.mem_append.mp hy with
    | inl hy => exact hbound y (List.mem_append_left _ hy)
    | inr hy =>
      rcases List.mem_cons.mp hy with rfl | hy
      · exact ⟨hlo, hbot, hhi⟩
      · exact hbound y (List.mem_append_right _ hy)

theorem sortedIn_remove {V : Type} {pre post : List (K × V)} {x : K × V} (h : SortedIn key lo hi (pre ++ x :: post)) :
    SortedIn key lo hi (pre ++ post) := by
  have hsub : (pre ++ post).Sublist (pre ++ x :: post) := (List.sublist_cons_self x post).append_left pre
  exact ⟨h.1.sublist (hsub.map _), fun y hy => h.2 y (hsub.subset hy)⟩

theorem Seg.sorted {n : ℕ} {items : Items K n} (h : Seg key n lo hi items) :
    SortedIn key lo hi (contents n items) := by
  induction n generalizing lo hi with
  | zero => exact h
  | succ n ih =>
    rw [seg_succ] at h
    induction items generalizing lo with
    | nil => simp [contents, SortedIn]
    | cons c items ihc =>
      have hle : nextBound key items hi ≤ hi := by
        cases items with
        | nil => exact le_refl _
        | cons d items => exact le_of_lt (SepChain.lt h.2.2.2 (by simp))
      obtain ⟨-, hlt, ⟨-, hseg⟩, hrest⟩ := h
      obtain ⟨hp1, hb1⟩ := ih hseg
      obtain ⟨hp2, hb2⟩ := ihc hrest
      rw [contents_cons]
      refine ⟨?_, ?_⟩
      · rw [List.map_append, List.pairwise_append]
        refine ⟨hp1, hp2, ?_⟩
        intro a ha b hb
        obtain ⟨x, hx, rfl⟩ := List.mem_map.mp ha
        obtain ⟨y, hy, rfl⟩ := List.mem_map.mp hb
        exact lt_of_lt_of_le (hb1 x hx).2.2 (hb2 y hy).1
      · intro x hx
        cases List.mem_append.mp hx with
        | inl hx => exact ⟨(hb1 x hx).1, (hb1 x hx).2.1, lt_of_lt_of_le (hb1 x hx).2.2 hle⟩
        | inr hx => exact ⟨le_trans (le_of_lt hlt) (hb2 x hx).1, (hb2 x hx).2⟩

end Order

/-! ## Occupancy -/

/-- `max_size` of a node at height `n`. -/
def IndexFileHeader.maxAt (header : IndexFileHeader) : ℕ → ℕ
  | 0 => header.leafMaxSize
  | _ + 1 => header.internalMaxSize

/-- The number of items of a node that is not the root. -/
def SizeOk (header : IndexFileHeader) (n size : ℕ) : Prop := header.maxAt n / 2 ≤ size ∧ size ≤ header.maxAt n

/-- Every node below the items has an admissible size. -/
def Occupied (header : IndexFileHeader) : (n : ℕ) → Items K n → Prop
  | 0, _ => True
  | n + 1, items => ∀ x ∈ items, SizeOk header n x.2.tree.items.length ∧ Occupied header n x.2.tree.items

theorem occupied_append {header : IndexFileHeader} {n : ℕ} {front back : Items K n} :
    Occupied header n (front ++ back) ↔ Occupied header n front ∧ Occupied header n back := by
  cases n with
  | zero => simp [Occupied]
  | succ n =>
    simp only [Occupied, List.mem_append]
    exact ⟨fun h => ⟨fun x hx => h x (Or.inl hx), fun x hx => h x (Or.inr hx)⟩,
      fun h x hx => hx.elim (h.1 x) (h.2 x)⟩

theorem occupied_cons {header : IndexFileHeader} {n : ℕ} {x : K × Val K (n + 1)} {items : Items K (n + 1)} :
    Occupied header (n + 1) (x :: items) ↔
      (SizeOk header n x.2.tree.items.length ∧ Occupied header n x.2.tree.items) ∧ Occupied header (n + 1) items := by
  simp only [Occupied, List.mem_cons, forall_eq_or_imp]

theorem occupied_root {header : IndexFileHeader} {n : ℕ} {items : Items K n} (rootPage : Option PageNum) :
    Occupied { header with rootPage := rootPage } n items ↔ Occupied header n items := by
  induction n with
  | zero => exact Iff.rfl
  | succ n ih =>
    have hmax : IndexFileHeader.maxAt { header with rootPage := rootPage } n = header.maxAt n := by
      cases n <;> rfl
    simp only [Occupied, SizeOk, hmax, ih]

theorem occupied_nil {header : IndexFileHeader} {n : ℕ} : Occupied header n ([] : Items K n) := by
  cases n with
  | zero => trivial
  | succ n => intro x hx; cases hx

end Landbase.Index
