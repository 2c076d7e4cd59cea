import Mathlib.Data.Multiset.AddSub
import Mathlib.Data.Multiset.MapFold
import Mathlib.Data.Multiset.Count
import Mathlib.Data.Finset.Card
import Mathlib.Tactic

/-! # Cells held by a partial map

`Cells m cells` says that the map `m` (a page table, a heap) stores every cell of a multiset and that the cells have
different addresses. This is the bookkeeping for a data structure that is spread over cells: the order of the cells
does not matter, a write to an address replaces its cell, and the other cells are framed.
-/

namespace Landbase.Lib
set_option autoImplicit false

variable {α β : Type}

/-- The addresses of some cells. -/
abbrev addrs (cells : Multiset (α × β)) : Multiset α := cells.map Prod.fst

theorem addrs_add (cells rest : Multiset (α × β)) : addrs (cells + rest) = addrs cells + addrs rest :=
  Multiset.map_add _ _ _

/-- Every cell is stored, and no address occurs twice. -/
structure Cells (m : α → Option β) (cells : Multiset (α × β)) : Prop where
  holds : ∀ x ∈ cells, m x.1 = some x.2
  nodup : (addrs cells).Nodup

namespace Cells

variable {m : α → Option β} {cells rest : Multiset (α × β)} {a : α} {b : β}

theorem get (h : Cells m ({(a, b)} + rest)) : m a = some b := h.holds (a, b) (by simp)

theorem notMem (h : Cells m ({(a, b)} + rest)) : a ∉ addrs rest := by
  have hnd := h.nodup
  rw [addrs, Multiset.map_add, Multiset.map_singleton, Multiset.singleton_add, Multiset.nodup_cons] at hnd
  exact hnd.1

theorem right (h : Cells m (cells + rest)) : Cells m rest := by
  refine ⟨fun x hx => h.holds x (Multiset.mem_add.mpr (Or.inr hx)), ?_⟩
  have hnd := h.nodup
  rw [addrs, Multiset.map_add, Multiset.nodup_add] at hnd
  exact hnd.2.1

theorem disjoint (h : Cells m (cells + rest)) {x : α} (hx : x ∈ addrs cells) : x ∉ addrs rest := by
  have hnd := h.nodup
  rw [addrs, Multiset.map_add, Multiset.nodup_add] at hnd
  exact fun hx' => Multiset.disjoint_left.mp hnd.2.2 hx hx'

variable [DecidableEq α]

theorem frame (h : Cells m rest) (ha : a ∉ addrs rest) (o : Option β) : Cells (Function.update m a o) rest := by
  refine ⟨fun x hx => ?_, h.nodup⟩
  have hne : x.1 ≠ a := fun hxa => ha (hxa ▸ Multiset.mem_map_of_mem Prod.fst hx)
  rw [Function.update_of_ne hne]
  exact h.holds x hx

theorem add (h : Cells m rest) (ha : a ∉ addrs rest) (b : β) :
    Cells (Function.update m a (some b)) ({(a, b)} + rest) := by
  refine ⟨fun x hx => ?_, ?_⟩
  · cases Multiset.mem_add.mp hx with
    | inl hx => rw [Multiset.mem_singleton.mp hx, Function.update_self]
    | inr hx => exact (h.frame ha (some b)).holds x hx
  · rw [addrs, Multiset.map_add, Multiset.map_singleton, Multiset.singleton_add, Multiset.nodup_cons]
    exact ⟨ha, h.nodup⟩

theorem write (h : Cells m ({(a, b)} + rest)) (b' : β) :
    Cells (Function.update m a (some b')) ({(a, b')} + rest) :=
  h.right.add h.notMem b'

end Cells

theorem card_le_of_nodup_lt {s : Multiset ℕ} {n : ℕ} (hnd : s.Nodup) (hlt : ∀ x ∈ s, x < n) :
    Multiset.card s ≤ n := by
  have hsub : (⟨s, hnd⟩ : Finset ℕ) ⊆ Finset.range n := fun x hx => Finset.mem_range.mpr (hlt x hx)
  have hcard := Finset.card_le_card hsub
  rwa [Finset.card_range] at hcard

end Landbase.Lib
