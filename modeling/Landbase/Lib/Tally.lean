import Mathlib.Algebra.BigOperators.Group.Finset.Piecewise
import Mathlib.Algebra.Order.BigOperators.Group.Finset
import Mathlib.Data.Fintype.BigOperators
import Mathlib.Tactic

/-! # Tallies

Finitely many parties are each at some place, and a weight says what a party counts for at a place. When one party moves, the
sum of the weights changes by what the party counts for.
-/

namespace Landbase.Lib
set_option autoImplicit false

variable {T P : Type*} [Fintype T]

def tally (w : T → P → ℕ) (place : T → P) : ℕ := ∑ t, w t (place t)

theorem le_tally (w : T → P → ℕ) (place : T → P) (t : T) : w t (place t) ≤ tally w place :=
  Finset.single_le_sum (f := fun t => w t (place t)) (fun _ _ => Nat.zero_le _) (Finset.mem_univ t)

theorem tally_pos {w : T → P → ℕ} {place : T → P} : 0 < tally w place ↔ ∃ t, 0 < w t (place t) := by
  unfold tally
  rw [Finset.sum_pos_iff]
  simp

theorem tally_eq_zero {w : T → P → ℕ} {place : T → P} : tally w place = 0 ↔ ∀ t, w t (place t) = 0 := by
  unfold tally
  rw [Finset.sum_eq_zero_iff]
  simp

/-- What a party counts for, and the rest. -/
theorem tally_eq_add [DecidableEq T] (w : T → P → ℕ) (place : T → P) (t : T) :
    tally w place = w t (place t) + ∑ u ∈ Finset.univ.erase t, w u (place u) :=
  (Finset.add_sum_erase Finset.univ (fun u => w u (place u)) (Finset.mem_univ t)).symm

theorem add_le_tally [DecidableEq T] (w : T → P → ℕ) (place : T → P) {t u : T} (h : u ≠ t) :
    w t (place t) + w u (place u) ≤ tally w place := by
  rw [tally_eq_add w place t]
  have hmem : u ∈ Finset.univ.erase t := Finset.mem_erase.2 ⟨h, Finset.mem_univ u⟩
  have hle : w u (place u) ≤ ∑ v ∈ Finset.univ.erase t, w v (place v) :=
    Finset.single_le_sum (f := fun v => w v (place v)) (fun _ _ => Nat.zero_le _) hmem
  omega

theorem tally_mono {w w' : T → P → ℕ} (h : ∀ t p, w t p ≤ w' t p) (place : T → P) : tally w place ≤ tally w' place :=
  Finset.sum_le_sum fun t _ => h t (place t)

theorem tally_add (w w' : T → P → ℕ) (place : T → P) :
    tally (fun t p => w t p + w' t p) place = tally w place + tally w' place :=
  Finset.sum_add_distrib

theorem tally_update [DecidableEq T] (w : T → P → ℕ) (place : T → P) (t : T) (p : P) :
    tally w (Function.update place t p) + w t (place t) = tally w place + w t p := by
  have hrest : ∑ u ∈ Finset.univ.erase t, w u (Function.update place t p u) = ∑ u ∈ Finset.univ.erase t, w u (place u) := by
    apply Finset.sum_congr rfl
    intro u hu
    rw [Function.update_of_ne (Finset.ne_of_mem_erase hu)]
  rw [tally_eq_add w place t, tally_eq_add w (Function.update place t p) t, Function.update_self, hrest]
  omega

end Landbase.Lib
