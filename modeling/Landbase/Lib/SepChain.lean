import Mathlib.Order.BoundedOrder.Basic
import Mathlib.Order.Max
import Mathlib.Tactic

/-! # Separator chains

A list of keyed children of a search-tree node, with half-open ranges: the child behind key `k` is responsible for the
range from `k` up to the next key of the list, the last one up to `hi`. The range of the first child starts at `lo`.
When `lo` is not the least bound, the first key is `lo` as well, so that a list may be cut anywhere and each part is
again a chain. When it is, the first key is never looked at and may be anything.
-/

namespace Landbase.Lib
set_option autoImplicit false

variable {K T B : Type} (key : K → B)

/-- The upper bound of what comes before `items`. -/
def nextBound (items : List (K × T)) (hi : B) : B :=
  match items with
  | [] => hi
  | x :: _ => key x.1

@[simp] theorem nextBound_nil (hi : B) : nextBound key ([] : List (K × T)) hi = hi := rfl

@[simp] theorem nextBound_cons (x : K × T) (items : List (K × T)) (hi : B) :
    nextBound key (x :: items) hi = key x.1 := rfl

variable [Preorder B] [OrderBot B]

/-- `SepChain key P lo hi items`: the children satisfy `P` on the ranges that the keys cut out of `[lo, hi)`. -/
def SepChain (P : B → B → T → Prop) : B → B → List (K × T) → Prop
  | _, _, [] => True
  | lo, hi, x :: items =>
    (lo = ⊥ ∨ lo = key x.1) ∧ lo < nextBound key items hi ∧ P lo (nextBound key items hi) x.2 ∧
      SepChain P (nextBound key items hi) hi items

variable {key} {P : B → B → T → Prop}

@[simp] theorem sepChain_nil (lo hi : B) : SepChain key P lo hi [] := trivial

theorem sepChain_cons {lo hi : B} {x : K × T} {items : List (K × T)} :
    SepChain key P lo hi (x :: items) ↔
      (lo = ⊥ ∨ lo = key x.1) ∧ lo < nextBound key items hi ∧ P lo (nextBound key items hi) x.2 ∧
        SepChain key P (nextBound key items hi) hi items := Iff.rfl

theorem sepChain_append {lo hi : B} {front back : List (K × T)} (hfront : front ≠ []) :
    SepChain key P lo hi (front ++ back) ↔
      SepChain key P lo (nextBound key back hi) front ∧ SepChain key P (nextBound key back hi) hi back := by
  induction front generalizing lo with
  | nil => exact absurd rfl hfront
  | cons x front ih =>
    cases front with
    | nil => simp only [List.cons_append, List.nil_append, sepChain_cons, nextBound_nil, sepChain_nil, and_true,
        and_assoc]
    | cons y front =>
      rw [List.cons_append, sepChain_cons, sepChain_cons, ih (by simp)]
      simp only [List.cons_append, nextBound_cons, and_assoc]

theorem SepChain.lt {lo hi : B} {items : List (K × T)} (h : SepChain key P lo hi items) (hne : items ≠ []) :
    lo < hi := by
  induction items generalizing lo with
  | nil => exact absurd rfl hne
  | cons x items ih =>
    obtain ⟨-, hlt, -, hrest⟩ := h
    cases items with
    | nil => exact hlt
    | cons y items => exact lt_trans hlt (ih hrest (by simp))

theorem SepChain.mono {Q : B → B → T → Prop} (hPQ : ∀ lo hi c, P lo hi c → Q lo hi c) {lo hi : B}
    {items : List (K × T)} (h : SepChain key P lo hi items) : SepChain key Q lo hi items := by
  induction items generalizing lo with
  | nil => trivial
  | cons x items ih => exact ⟨h.1, h.2.1, hPQ _ _ _ h.2.2.1, ih h.2.2.2⟩

theorem SepChain.child {lo hi : B} {items : List (K × T)} (h : SepChain key P lo hi items) {x : K × T}
    (hx : x ∈ items) : ∃ lo' hi', lo ≤ lo' ∧ hi' ≤ hi ∧ P lo' hi' x.2 := by
  induction items generalizing lo with
  | nil => cases hx
  | cons y items ih =>
    obtain ⟨-, hlt, hP, hrest⟩ := h
    have hle : nextBound key items hi ≤ hi := by
      cases items with
      | nil => exact le_refl _
      | cons z items => exact le_of_lt (hrest.lt (by simp))
    rcases List.mem_cons.mp hx with rfl | hx
    · exact ⟨lo, _, le_refl _, hle, hP⟩
    · obtain ⟨lo', hi', h1, h2, h3⟩ := ih hrest hx
      exact ⟨lo', hi', le_trans (le_of_lt hlt) h1, h2, h3⟩

theorem SepChain.tail_keys {lo hi : B} {x : K × T} {items : List (K × T)} (h : SepChain key P lo hi (x :: items)) :
    (items.map fun y => key y.1).Pairwise (· < ·) ∧ ∀ y ∈ items, lo < key y.1 ∧ key y.1 < hi := by
  induction items generalizing lo x with
  | nil => simp
  | cons z items ih =>
    obtain ⟨-, hlt, -, hrest⟩ := h
    obtain ⟨hpair, hbound⟩ := ih hrest
    have hz : key z.1 < hi := hrest.lt (by simp)
    refine ⟨?_, ?_⟩
    · rw [List.map_cons, List.pairwise_cons]
      refine ⟨?_, hpair⟩
      intro b hb
      obtain ⟨y, hy, rfl⟩ := List.mem_map.mp hb
      exact (hbound y hy).1
    · intro y hy
      rcases List.mem_cons.mp hy with rfl | hy
      · exact ⟨hlt, hz⟩
      · exact ⟨lt_trans hlt (hbound y hy).1, (hbound y hy).2⟩

theorem SepChain.nextBound_le {lo hi : B} {left right : List (K × T)} {x : K × T}
    (h : SepChain key P lo hi (left ++ x :: right)) : ∀ y ∈ right, nextBound key right hi ≤ key y.1 := by
  intro y hy
  cases right with
  | nil => cases hy
  | cons z right =>
    rcases List.mem_cons.mp hy with rfl | hy
    · exact le_refl _
    · have hne : left ++ [x] ≠ [] := by simp
      rw [List.append_cons] at h
      exact le_of_lt (((sepChain_append hne).mp h).2.tail_keys.2 y hy).1

/-! ## Taking a segment out of a chain -/

variable (key P) in
/-- The chain `left ++ _ ++ right` over `[lo', hi')` with a hole that starts at key `k` and covers `[lo, hi)`. -/
structure SepHole (lo' hi' : B) (left : List (K × T)) (k : K) (right : List (K × T)) (lo hi : B) : Prop where
  lower : lo = if left = [] then lo' else key k
  first : lo = ⊥ ∨ lo = key k
  lt : lo < hi
  front : left ≠ [] → SepChain key P lo' (key k) left
  upper : hi = nextBound key right hi'
  back : SepChain key P hi hi' right

/-- Filling the hole with a segment that starts at its key. -/
theorem SepHole.fill {lo' hi' lo hi : B} {left right : List (K × T)} {x : K × T} {mid : List (K × T)}
    (h : SepHole key P lo' hi' left x.1 right lo hi) (hmid : SepChain key P lo hi (x :: mid)) :
    SepChain key P lo' hi' (left ++ x :: mid ++ right) := by
  have hrest : SepChain key P lo hi' (x :: mid ++ right) := by
    rw [sepChain_append (by simp)]
    exact ⟨h.upper ▸ hmid, h.upper ▸ h.back⟩
  by_cases hleft : left = []
  · subst hleft
    have hlo : lo = lo' := by simpa using h.lower
    subst hlo
    simpa using hrest
  · have hlo : lo = key x.1 := by simpa [hleft] using h.lower
    rw [List.append_assoc, sepChain_append hleft]
    exact ⟨by simpa using h.front hleft, by simpa [hlo] using hrest⟩

theorem sepHole_of_chain {lo' hi' : B} {left mid right : List (K × T)} {x : K × T}
    (h : SepChain key P lo' hi' (left ++ x :: mid ++ right)) :
    ∃ lo hi, SepHole key P lo' hi' left x.1 right lo hi ∧ SepChain key P lo hi (x :: mid) := by
  by_cases hleft : left = []
  · subst hleft
    have hcut := (sepChain_append (List.cons_ne_nil x mid)).mp h
    exact ⟨lo', _, ⟨by simp, hcut.1.1, hcut.1.lt (List.cons_ne_nil x mid), fun hne => absurd rfl hne, rfl, hcut.2⟩,
      hcut.1⟩
  · rw [List.append_assoc] at h
    have hcut := (sepChain_append hleft).mp h
    have hcut2 := (sepChain_append (List.cons_ne_nil x mid)).mp hcut.2
    exact ⟨key x.1, _, ⟨by simp [hleft], Or.inr rfl, hcut2.1.lt (List.cons_ne_nil x mid), fun _ => hcut.1, rfl,
      hcut2.2⟩, hcut2.1⟩

theorem SepHole.lower_le {lo' hi' lo hi : B} {left right : List (K × T)} {k : K}
    (h : SepHole key P lo' hi' left k right lo hi) : lo' ≤ lo := by
  rw [h.lower]
  split
  · exact le_refl _
  · next hleft => exact le_of_lt ((h.front hleft).lt hleft)

theorem SepHole.upper_le {lo' hi' lo hi : B} {left right : List (K × T)} {k : K}
    (h : SepHole key P lo' hi' left k right lo hi) : hi ≤ hi' := by
  have hback := h.back
  rw [h.upper] at hback ⊢
  cases right with
  | nil => exact le_refl _
  | cons y right => exact le_of_lt (hback.lt (by simp))

end Landbase.Lib
