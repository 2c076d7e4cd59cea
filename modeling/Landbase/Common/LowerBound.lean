import Mathlib.Tactic
import Landbase.Lib.ThreeWay

/-! # `common::lower_bound`

The binary search of `deps/common/lang/lower_bound.h`. The source advances an iterator `first` over a window of
`last_count` elements; here the sequence is a list, `first` is an index into it and the comparator is already
applied to the value looked for, so `comp x` stands for `comp(*iter, val)`.
-/

namespace Landbase.Common
open Lib
set_option autoImplicit false

variable {α : Type}

/-- The `while (last_count > 0)` loop. The window shrinks in every round, so `fuel` rounds are enough for a window
of `fuel` elements. -/
def lowerBoundLoop (comp : α → ℤ) (xs : List α) : ℕ → ℕ → ℕ → ℕ × Bool
  | 0, first, _ => (first, false)
  | fuel + 1, first, lastCount =>
    if lastCount = 0 then (first, false)
    else
      let step := lastCount / 2
      match xs[first + step]? with
      | none => (first, false)
      | some x =>
        let result := comp x
        if result = 0 then (first + step, true)
        else if result < 0 then lowerBoundLoop comp xs fuel (first + step + 1) (lastCount - (step + 1))
        else lowerBoundLoop comp xs fuel first step

/-- `common::lower_bound(first, last, val, comp, &found)`: the index of the result and the flag `found`. -/
def lowerBound (comp : α → ℤ) (xs : List α) : ℕ × Bool :=
  lowerBoundLoop comp xs xs.length 0 xs.length

/-! ## The loop invariant: the answer stays inside the window -/

/-- No element compares equal: the loop ends at the border between the smaller and the larger elements. -/
theorem lowerBoundLoop_absent (comp : α → ℤ) (pre post : List α) (hpre : ∀ a ∈ pre, comp a < 0)
    (hpost : ∀ b ∈ post, 0 < comp b) (fuel first lastCount : ℕ) (hfuel : lastCount ≤ fuel)
    (hlo : first ≤ pre.length) (hhi : pre.length ≤ first + lastCount)
    (hend : first + lastCount ≤ (pre ++ post).length) :
    lowerBoundLoop comp (pre ++ post) fuel first lastCount = (pre.length, false) := by
  induction fuel generalizing first lastCount with
  | zero =>
    have hfirst : first = pre.length := by omega
    rw [lowerBoundLoop, hfirst]
  | succ fuel ih =>
    unfold lowerBoundLoop
    split
    · have hfirst : first = pre.length := by omega
      rw [hfirst]
    · next hne =>
      have hstep : first + lastCount / 2 < (pre ++ post).length := by omega
      simp only [List.getElem?_eq_getElem hstep]
      by_cases hin : first + lastCount / 2 < pre.length
      · have hmem : (pre ++ post)[first + lastCount / 2] ∈ pre := by
          rw [List.getElem_append_left hin]
          exact List.getElem_mem hin
        have hneg := hpre _ hmem
        simp only [hneg, ne_of_lt hneg, if_true, if_false]
        exact ih _ _ (by omega) (by omega) (by omega) (by omega)
      · have hmem : (pre ++ post)[first + lastCount / 2] ∈ post := by
          rw [List.getElem_append_right (by omega)]
          exact List.getElem_mem _
        have hpos := hpost _ hmem
        simp only [ne_of_gt hpos, not_lt_of_gt hpos, if_false]
        exact ih _ _ (by omega) (by omega) (by omega) (by omega)

theorem lowerBoundLoop_present (comp : α → ℤ) (pre post : List α) (x : α) (hpre : ∀ a ∈ pre, comp a < 0)
    (hx : comp x = 0) (hpost : ∀ b ∈ post, 0 < comp b) (fuel first lastCount : ℕ) (hfuel : lastCount ≤ fuel)
    (hlo : first ≤ pre.length) (hhi : pre.length < first + lastCount)
    (hend : first + lastCount ≤ (pre ++ x :: post).length) :
    lowerBoundLoop comp (pre ++ x :: post) fuel first lastCount = (pre.length, true) := by
  induction fuel generalizing first lastCount with
  | zero => omega
  | succ fuel ih =>
    unfold lowerBoundLoop
    have hne : lastCount ≠ 0 := by omega
    have hstep : first + lastCount / 2 < (pre ++ x :: post).length := by omega
    simp only [hne, if_false, List.getElem?_eq_getElem hstep]
    rcases lt_trichotomy (first + lastCount / 2) pre.length with hin | hin | hin
    · have hmem : (pre ++ x :: post)[first + lastCount / 2] ∈ pre := by
        rw [List.getElem_append_left hin]
        exact List.getElem_mem hin
      have hneg := hpre _ hmem
      simp only [hneg, ne_of_lt hneg, if_true, if_false]
      exact ih _ _ (by omega) (by omega) (by omega) (by omega)
    · simp [hin, hx]
    · have hmem : (pre ++ x :: post)[first + lastCount / 2] ∈ post := by
        rw [List.getElem_append_right (by omega), List.getElem_cons]
        split
        · omega
        · exact List.getElem_mem _
      have hpos := hpost _ hmem
      simp only [ne_of_gt hpos, not_lt_of_gt hpos, if_false]
      exact ih _ _ (by omega) (by omega) (by omega) (by omega)

theorem lowerBoundLoop_found (comp : α → ℤ) (pre mid post : List α) (hpre : ∀ a ∈ pre, comp a < 0)
    (hmid : ∀ a ∈ mid, comp a = 0) (hpost : ∀ b ∈ post, 0 < comp b) (hne : mid ≠ []) (fuel first lastCount : ℕ)
    (hfuel : lastCount ≤ fuel) (hlo : first ≤ pre.length) (hhi : pre.length + mid.length ≤ first + lastCount)
    (hend : first + lastCount ≤ (pre ++ (mid ++ post)).length) :
    (lowerBoundLoop comp (pre ++ (mid ++ post)) fuel first lastCount).2 = true := by
  have hpos := List.length_pos_of_ne_nil hne
  induction fuel generalizing first lastCount with
  | zero => omega
  | succ fuel ih =>
    unfold lowerBoundLoop
    have hcount : lastCount ≠ 0 := by omega
    have hstep : first + lastCount / 2 < (pre ++ (mid ++ post)).length := by omega
    simp only [hcount, if_false, List.getElem?_eq_getElem hstep]
    by_cases hin : first + lastCount / 2 < pre.length
    · have hmem : (pre ++ (mid ++ post))[first + lastCount / 2] ∈ pre := by
        rw [List.getElem_append_left hin]
        exact List.getElem_mem hin
      have hneg := hpre _ hmem
      simp only [hneg, ne_of_lt hneg, if_true, if_false]
      exact ih _ _ (by omega) (by omega) (by omega) (by omega)
    · by_cases hin' : first + lastCount / 2 < pre.length + mid.length
      · have hmem : (pre ++ (mid ++ post))[first + lastCount / 2] ∈ mid := by
          rw [List.getElem_append_right (by omega), List.getElem_append_left (by omega)]
          exact List.getElem_mem _
        simp [hmid _ hmem]
      · have hmem : (pre ++ (mid ++ post))[first + lastCount / 2] ∈ post := by
          rw [List.getElem_append_right (by omega), List.getElem_append_right (by omega)]
          exact List.getElem_mem _
        have hgt := hpost _ hmem
        simp only [ne_of_gt hgt, not_lt_of_gt hgt, if_false]
        exact ih _ _ (by omega) (by omega) (by omega) (by omega)

/-! ## The result -/

theorem lowerBound_absent (comp : α → ℤ) (pre post : List α) (hpre : ∀ a ∈ pre, comp a < 0)
    (hpost : ∀ b ∈ post, 0 < comp b) : lowerBound comp (pre ++ post) = (pre.length, false) :=
  lowerBoundLoop_absent comp pre post hpre hpost _ _ _ (le_refl _) (Nat.zero_le _) (by simp) (by simp)

theorem lowerBound_present (comp : α → ℤ) (pre post : List α) (x : α) (hpre : ∀ a ∈ pre, comp a < 0)
    (hx : comp x = 0) (hpost : ∀ b ∈ post, 0 < comp b) :
    lowerBound comp (pre ++ x :: post) = (pre.length, true) :=
  lowerBoundLoop_present comp pre post x hpre hx hpost _ _ _ (le_refl _) (Nat.zero_le _) (by simp) (by simp)

theorem lowerBound_found (comp : α → ℤ) (pre mid post : List α) (hpre : ∀ a ∈ pre, comp a < 0)
    (hmid : ∀ a ∈ mid, comp a = 0) (hpost : ∀ b ∈ post, 0 < comp b) (hne : mid ≠ []) :
    (lowerBound comp (pre ++ (mid ++ post))).2 = true :=
  lowerBoundLoop_found comp pre mid post hpre hmid hpost hne _ _ _ (le_refl _) (Nat.zero_le _) (by simp) (by simp)

/-! ## Termination -/

/-- The loop as the source has it, cut off after some rounds: `none` when it has not ended by then, or has left the
sequence. -/
def lowerBoundRounds (comp : α → ℤ) (xs : List α) : ℕ → ℕ → ℕ → Option (ℕ × Bool)
  | 0, _, _ => none
  | rounds + 1, first, lastCount =>
    if 0 < lastCount then
      let step := lastCount / 2
      match xs[first + step]? with
      | none => none
      | some x =>
        let result := comp x
        if result = 0 then some (first + step, true)
        else if result < 0 then lowerBoundRounds comp xs rounds (first + step + 1) (lastCount - (step + 1))
        else lowerBoundRounds comp xs rounds first step
    else some (first, false)

/-- Whatever the comparator says, every round makes the window smaller and keeps it inside the sequence. -/
theorem lowerBoundRounds_eq (comp : α → ℤ) (xs : List α) (rounds fuel first lastCount : ℕ) (hrounds : lastCount < rounds)
    (hfuel : lastCount ≤ fuel) (hend : first + lastCount ≤ xs.length) :
    lowerBoundRounds comp xs rounds first lastCount = some (lowerBoundLoop comp xs fuel first lastCount) := by
  induction rounds generalizing fuel first lastCount with
  | zero => omega
  | succ rounds ih =>
    rw [lowerBoundRounds]
    by_cases hcount : 0 < lastCount
    · obtain ⟨fuel, rfl⟩ : ∃ n, fuel = n + 1 := ⟨fuel - 1, by omega⟩
      have hstep : first + lastCount / 2 < xs.length := by omega
      have hne : lastCount ≠ 0 := by omega
      rw [if_pos hcount, lowerBoundLoop, if_neg hne]
      simp only [List.getElem?_eq_getElem hstep]
      by_cases hzero : comp xs[first + lastCount / 2] = 0
      · rw [if_pos hzero, if_pos hzero]
      · rw [if_neg hzero, if_neg hzero]
        by_cases hneg : comp xs[first + lastCount / 2] < 0
        · rw [if_pos hneg, if_pos hneg]
          exact ih _ _ _ (by omega) (by omega) (by omega)
        · rw [if_neg hneg, if_neg hneg]
          exact ih _ _ _ (by omega) (by omega) (by omega)
    · have hzero : lastCount = 0 := by omega
      rw [if_neg hcount, hzero]
      cases fuel with
      | zero => rfl
      | succ fuel => rw [lowerBoundLoop, if_pos rfl]

/-- The search ends with this result, however many rounds more it is given. -/
def Ends (comp : α → ℤ) (xs : List α) (result : ℕ × Bool) : Prop :=
  ∃ rounds, ∀ more, lowerBoundRounds comp xs (rounds + more) 0 xs.length = some result

theorem lowerBound_ends (comp : α → ℤ) (xs : List α) : Ends comp xs (lowerBound comp xs) := by
  refine ⟨xs.length + 1, fun more => ?_⟩
  exact lowerBoundRounds_eq comp xs _ _ _ _ (by omega) (le_refl _) (by omega)

/-! ## Strictly increasing sequences -/

/-- `class Comparator`, the comparator of the overload without one. -/
def comparator {T : Type} [LinearOrder T] (v1 v2 : T) : ℤ := if v1 < v2 then -1 else if v2 < v1 then 1 else 0

theorem comparator_threeWay {T : Type} [LinearOrder T] (v1 v2 : T) : ThreeWay (comparator v1 v2) v1 v2 := by
  unfold comparator
  by_cases hlt : v1 < v2
  · rw [if_pos hlt]
    exact ⟨fun _ => hlt, fun h => absurd h (by decide), fun h => absurd h (by decide)⟩
  · by_cases hgt : v2 < v1
    · rw [if_neg hlt, if_pos hgt]
      exact ⟨fun h => absurd h (by decide), fun h => absurd h (by decide), fun _ => hgt⟩
    · rw [if_neg hlt, if_neg hgt, le_antisymm (not_lt.mp hgt) (not_lt.mp hlt)]
      exact ThreeWay.zero v2

section Sorted

variable {τ ω : Type} [LinearOrder ω] {key : α → ω}

/-- A strictly increasing sequence around a value: the elements below it, then an equal one or none, then those above. -/
theorem sorted_split {xs : List α} (hxs : (xs.map key).Pairwise (· < ·)) (v : ω) :
    (∃ pre post, xs = pre ++ post ∧ (∀ a ∈ pre, key a < v) ∧ ∀ b ∈ post, v < key b) ∨
      ∃ pre x post, xs = pre ++ x :: post ∧ (∀ a ∈ pre, key a < v) ∧ key x = v ∧ ∀ b ∈ post, v < key b := by
  induction xs with
  | nil => exact Or.inl ⟨[], [], rfl, fun a ha => absurd ha List.not_mem_nil, fun b hb => absurd hb List.not_mem_nil⟩
  | cons y xs ih =>
    rw [List.map_cons, List.pairwise_cons] at hxs
    have habove : ∀ b ∈ xs, key y < key b := fun b hb => hxs.1 _ (List.mem_map_of_mem hb)
    by_cases hlt : key y < v
    · have hcons : ∀ pre : List α, (∀ a ∈ pre, key a < v) → ∀ a ∈ y :: pre, key a < v := by
        intro pre hpre
        exact List.forall_mem_cons.mpr ⟨hlt, hpre⟩
      cases ih hxs.2 with
      | inl h =>
        obtain ⟨pre, post, heq, hpre, hpost⟩ := h
        exact Or.inl ⟨y :: pre, post, by rw [heq]; rfl, hcons pre hpre, hpost⟩
      | inr h =>
        obtain ⟨pre, x, post, heq, hpre, hx, hpost⟩ := h
        exact Or.inr ⟨y :: pre, x, post, by rw [heq]; rfl, hcons pre hpre, hx, hpost⟩
    · have hrest : ∀ b ∈ xs, v < key b := fun b hb => lt_of_le_of_lt (not_lt.mp hlt) (habove b hb)
      by_cases heq : key y = v
      · exact Or.inr ⟨[], y, xs, rfl, fun a ha => absurd ha List.not_mem_nil, heq, hrest⟩
      · have hgt : v < key y := lt_of_le_of_ne (not_lt.mp hlt) (Ne.symm heq)
        exact Or.inl ⟨[], y :: xs, rfl, fun a ha => absurd ha List.not_mem_nil, List.forall_mem_cons.mpr ⟨hgt, hrest⟩⟩

/-- The first element that is not less, behind elements that are. -/
theorem findIdx_behind {v : ω} {pre post : List α} (hpre : ∀ a ∈ pre, key a < v) (hpost : ∀ b ∈ post, v ≤ key b) :
    (pre ++ post).findIdx (fun x => decide (v ≤ key x)) = pre.length := by
  have hnone : pre.findIdx (fun x => decide (v ≤ key x)) = pre.length := by
    rw [List.findIdx_eq_length]
    intro a ha
    exact decide_eq_false (not_le.mpr (hpre a ha))
  rw [List.findIdx_append, hnone, if_neg (lt_irrefl _)]
  cases post with
  | nil => rw [List.findIdx_nil, Nat.zero_add]
  | cons b post =>
    rw [List.findIdx_cons, decide_eq_true (hpost b List.mem_cons_self), cond_true, Nat.zero_add]

/-- The binary search ends at the first element that is not less than the value, or at the end when there is none, and
has found it if and only if an equal element is there. -/
theorem lowerBound_exact (key : α → ω) (val : τ → ω) {comp : α → τ → ℤ} (v : τ) {xs : List α}
    (hcomp : ∀ x ∈ xs, ThreeWay (comp x v) (key x) (val v)) (hxs : (xs.map key).Pairwise (· < ·)) :
    ∃ found, Ends (fun x => comp x v) xs (xs.findIdx fun x => decide (val v ≤ key x), found) ∧
      (found = true ↔ ∃ x ∈ xs, key x = val v) := by
  have hends := lowerBound_ends (fun x => comp x v) xs
  cases sorted_split hxs (val v) with
  | inl h =>
    obtain ⟨pre, post, rfl, hpre, hpost⟩ := h
    have habsent := lowerBound_absent (fun x => comp x v) pre post
      (fun a ha => (hcomp a (List.mem_append_left post ha)).neg_iff.mpr (hpre a ha))
      fun b hb => (hcomp b (List.mem_append_right pre hb)).pos_iff.mpr (hpost b hb)
    rw [habsent] at hends
    refine ⟨false, ?_, ?_⟩
    · rw [findIdx_behind hpre fun b hb => le_of_lt (hpost b hb)]
      exact hends
    · constructor
      · intro h
        cases h
      · rintro ⟨x, hx, heq⟩
        cases List.mem_append.mp hx with
        | inl hx => exact absurd heq (ne_of_lt (hpre x hx))
        | inr hx => exact absurd heq.symm (ne_of_lt (hpost x hx))
  | inr h =>
    obtain ⟨pre, x, post, rfl, hpre, hx, hpost⟩ := h
    have hmem : x ∈ pre ++ x :: post := List.mem_append_right pre List.mem_cons_self
    have hpresent := lowerBound_present (fun x => comp x v) pre post x
      (fun a ha => (hcomp a (List.mem_append_left _ ha)).neg_iff.mpr (hpre a ha)) ((hcomp x hmem).zero_iff.mpr hx)
      fun b hb => (hcomp b (List.mem_append_right pre (List.mem_cons_of_mem x hb))).pos_iff.mpr (hpost b hb)
    rw [hpresent] at hends
    refine ⟨true, ?_, ?_⟩
    · rw [findIdx_behind hpre (List.forall_mem_cons.mpr ⟨hx.symm.le, fun b hb => le_of_lt (hpost b hb)⟩)]
      exact hends
    · exact ⟨fun _ => ⟨x, hmem, hx⟩, fun _ => rfl⟩

end Sorted

/-- Four among the odd numbers. -/
theorem lowerBound_exact_four :
    ∃ found, Ends (fun x => comparator x (4 : ℤ)) [1, 3, 5, 7, 9] (2, found) ∧
      (found = true ↔ ∃ x ∈ [(1 : ℤ), 3, 5, 7, 9], x = 4) :=
  lowerBound_exact id id 4 (fun x _ => comparator_threeWay x 4) (by decide)

end Landbase.Common
