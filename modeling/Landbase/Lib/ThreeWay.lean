import Mathlib.Data.Prod.Lex
import Mathlib.Data.Sum.Order
import Mathlib.Data.List.Lex
import Mathlib.Tactic

/-! # Three-way comparison results

A C-style comparator returns a negative, zero or positive integer. `ThreeWay c x y` says that the result `c`
describes the order of `x` and `y` in a linear order. The lemmas compose such results lexicographically, the way a
comparator that goes through the fields of a key does.
-/

namespace Landbase.Lib
set_option autoImplicit false

/-- The integer `c` is a correct three-way comparison of `x` with `y`. -/
structure ThreeWay {O : Type} [LT O] (c : ℤ) (x y : O) : Prop where
  lt : c < 0 → x < y
  eq : c = 0 → x = y
  gt : 0 < c → y < x

namespace ThreeWay

section Order
variable {O : Type} [LinearOrder O] {c : ℤ} {x y : O}

theorem neg_iff (h : ThreeWay c x y) : c < 0 ↔ x < y := by
  refine ⟨h.lt, fun hxy => ?_⟩
  by_contra hc
  cases eq_or_lt_of_le (not_lt.mp hc) with
  | inl h0 => exact absurd (h.eq h0.symm) (ne_of_lt hxy)
  | inr hpos => exact absurd (h.gt hpos) (lt_asymm hxy)

theorem zero_iff (h : ThreeWay c x y) : c = 0 ↔ x = y := by
  refine ⟨h.eq, fun hxy => ?_⟩
  rcases lt_trichotomy c 0 with hc | hc | hc
  · exact absurd hxy (ne_of_lt (h.lt hc))
  · exact hc
  · exact absurd hxy.symm (ne_of_lt (h.gt hc))

theorem pos_iff (h : ThreeWay c x y) : 0 < c ↔ y < x := by
  refine ⟨h.gt, fun hxy => ?_⟩
  by_contra hc
  cases eq_or_lt_of_le (not_lt.mp hc) with
  | inl h0 => exact absurd (h.eq h0) (ne_of_gt hxy)
  | inr hneg => exact absurd (h.lt hneg) (lt_asymm hxy)

end Order

/-! ## Building comparisons -/

theorem zero {O : Type} [LT O] (x : O) : ThreeWay 0 x x :=
  ⟨fun h => absurd h (lt_irrefl 0), fun _ => rfl, fun h => absurd h (lt_irrefl 0)⟩

theorem of_sub (a b : ℤ) : ThreeWay (a - b) a b :=
  ⟨fun h => by omega, fun h => by omega, fun h => by omega⟩

theorem of_ite (a b : ℤ) : ThreeWay (if a > b then 1 else if a < b then -1 else 0 : ℤ) a b := by
  refine ⟨fun h => ?_, fun h => ?_, fun h => ?_⟩ <;> split at h <;> (try split at h) <;> omega

theorem map {O P : Type} [LT O] [LT P] {c : ℤ} {x y : O} (f : O → P) (hf : ∀ {a b : O}, a < b → f a < f b)
    (h : ThreeWay c x y) : ThreeWay c (f x) (f y) :=
  ⟨fun hc => hf (h.lt hc), fun hc => congrArg f (h.eq hc), fun hc => hf (h.gt hc)⟩

theorem cons {O : Type} [LT O] {c d : ℤ} {x y : O} {xs ys : List O} (hc : ThreeWay c x y)
    (hd : ThreeWay d xs ys) : ThreeWay (if c ≠ 0 then c else d) (x :: xs) (y :: ys) := by
  by_cases h0 : c = 0
  · simp only [h0, ne_eq, not_true_eq_false, if_false]
    have hxy := hc.eq h0
    subst hxy
    exact ⟨fun h => List.cons_lt_cons_iff.mpr (Or.inr ⟨rfl, hd.lt h⟩), fun h => by rw [hd.eq h],
      fun h => List.cons_lt_cons_iff.mpr (Or.inr ⟨rfl, hd.gt h⟩)⟩
  · simp only [h0, ne_eq, not_false_eq_true, if_true]
    exact ⟨fun h => List.cons_lt_cons_iff.mpr (Or.inl (hc.lt h)), fun h => absurd h h0,
      fun h => List.cons_lt_cons_iff.mpr (Or.inl (hc.gt h))⟩

theorem prod {O P : Type} [LT O] [LT P] {c d : ℤ} {x y : O} {p q : P} (hc : ThreeWay c x y)
    (hd : ThreeWay d p q) : ThreeWay (if c ≠ 0 then c else d) (toLex (x, p)) (toLex (y, q)) := by
  by_cases h0 : c = 0
  · simp only [h0, ne_eq, not_true_eq_false, if_false]
    have hxy := hc.eq h0
    subst hxy
    exact ⟨fun h => Prod.Lex.toLex_lt_toLex.mpr (Or.inr ⟨rfl, hd.lt h⟩), fun h => by rw [hd.eq h],
      fun h => Prod.Lex.toLex_lt_toLex.mpr (Or.inr ⟨rfl, hd.gt h⟩)⟩
  · simp only [h0, ne_eq, not_false_eq_true, if_true]
    exact ⟨fun h => Prod.Lex.toLex_lt_toLex.mpr (Or.inl (hc.lt h)), fun h => absurd h h0,
      fun h => Prod.Lex.toLex_lt_toLex.mpr (Or.inl (hc.gt h))⟩

end ThreeWay

end Landbase.Lib
