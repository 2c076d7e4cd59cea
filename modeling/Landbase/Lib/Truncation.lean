import Mathlib.Data.List.Lex
import Mathlib.Data.List.ModifyLast
import Mathlib.Order.SuccPred.Basic

/-! # Bounds on short lists

Lists of at most `n` entries in lexicographic order, compared with a bound that is longer. None of them equals the bound, so
only its first `n` entries matter: a list is below the bound if it does not exceed them, and above it if it reaches them with
the last one raised.
-/

namespace Landbase.Lib
set_option autoImplicit false

variable {α : Type} [LinearOrder α]

theorem cons_le_cons_iff {a b : α} {xs ys : List α} : a :: xs ≤ b :: ys ↔ a < b ∨ a = b ∧ xs ≤ ys := by
  rw [← not_lt, List.cons_lt_cons_iff, not_or, not_lt, not_and]
  constructor
  · intro h
    cases lt_or_eq_of_le h.1 with
    | inl hlt => exact Or.inl hlt
    | inr heq => exact Or.inr ⟨heq, not_lt.mp (h.2 heq.symm)⟩
  · intro h
    cases h with
    | inl hlt => exact ⟨le_of_lt hlt, fun heq => absurd heq (ne_of_gt hlt)⟩
    | inr h => exact ⟨le_of_eq h.1, fun _ => not_lt.mpr h.2⟩

/-- Below a longer bound. -/
theorem lt_iff_le_take (n : ℕ) (xs bound : List α) (hxs : xs.length ≤ n) (hbound : n < bound.length) :
    xs < bound ↔ xs ≤ bound.take n := by
  induction n generalizing xs bound with
  | zero =>
    obtain rfl := List.eq_nil_of_length_eq_zero (Nat.le_zero.mp hxs)
    cases bound with
    | nil => exact absurd hbound (Nat.not_lt_zero _)
    | cons b bound => exact iff_of_true (List.nil_lt_cons _ _) (le_refl _)
  | succ n ih =>
    cases bound with
    | nil => exact absurd hbound (Nat.not_lt_zero _)
    | cons b bound =>
      cases xs with
      | nil => exact iff_of_true (List.nil_lt_cons _ _) (le_of_lt (List.nil_lt_cons _ _))
      | cons x xs =>
        rw [List.take_succ_cons, List.cons_lt_cons_iff, cons_le_cons_iff,
          ih xs bound (Nat.le_of_succ_le_succ hxs) (Nat.lt_of_succ_lt_succ hbound)]

/-- Above a longer bound. -/
theorem lt_iff_succ_le [SuccOrder α] [NoMaxOrder α] (n : ℕ) (xs bound : List α) (hxs : xs.length ≤ n + 1)
    (hbound : n + 1 < bound.length) : bound < xs ↔ (bound.take (n + 1)).modify n Order.succ ≤ xs := by
  induction n generalizing xs bound with
  | zero =>
    cases bound with
    | nil => exact absurd hbound (Nat.not_lt_zero _)
    | cons b bound =>
      cases xs with
      | nil => exact iff_of_false (List.not_lt_nil _) (not_le.mpr (List.nil_lt_cons _ _))
      | cons x xs =>
        obtain rfl := List.eq_nil_of_length_eq_zero (Nat.le_zero.mp (Nat.le_of_succ_le_succ hxs))
        have hnil : ¬bound < [] := List.not_lt_nil bound
        rw [List.take_succ_cons, List.take_zero, List.modify_zero_cons, List.cons_lt_cons_iff, cons_le_cons_iff,
          or_iff_left fun h => hnil h.2, and_iff_left (le_refl _), ← le_iff_lt_or_eq, Order.succ_le_iff]
  | succ n ih =>
    cases bound with
    | nil => exact absurd hbound (Nat.not_lt_zero _)
    | cons b bound =>
      cases xs with
      | nil => exact iff_of_false (List.not_lt_nil _) (not_le.mpr (List.nil_lt_cons _ _))
      | cons x xs =>
        rw [List.take_succ_cons, List.modify_succ_cons, List.cons_lt_cons_iff, cons_le_cons_iff,
          ih xs bound (Nat.le_of_succ_le_succ hxs) (Nat.lt_of_succ_lt_succ hbound)]

end Landbase.Lib
