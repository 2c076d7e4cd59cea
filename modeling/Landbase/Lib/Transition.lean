import Mathlib.Tactic

/-! # Runs of a transition system

A system is a relation between a state and the next. What one step keeps, every run keeps; what one step of a system does
to the image of its state in another one, every run does.
-/

namespace Landbase.Lib
open Relation
set_option autoImplicit false

variable {S A : Type*} {step : S → S → Prop}

/-- An invariant of single steps is an invariant of runs. -/
theorem keeps_run {I : S → Prop} (hstep : ∀ s s', step s s' → I s → I s') {s s' : S} (hrun : ReflTransGen step s s')
    (hs : I s) : I s' := by
  induction hrun with
  | refl => exact hs
  | tail hrun h ih => exact hstep _ _ h ih

/-- When every step from a good state is a run of another system, so is every run. -/
theorem refines_run {I : S → Prop} {step' : A → A → Prop} {image : S → A} (hkeeps : ∀ s s', step s s' → I s → I s')
    (hstep : ∀ s s', I s → step s s' → ReflTransGen step' (image s) (image s')) {s s' : S}
    (hrun : ReflTransGen step s s') (hs : I s) : ReflTransGen step' (image s) (image s') := by
  induction hrun with
  | refl => exact ReflTransGen.refl
  | tail hrun h ih => exact ih.trans (hstep _ _ (keeps_run hkeeps hrun hs) h)

/-- Without runs that go on for ever, some run comes to a state where no step is possible. -/
theorem exists_stuck {s : S} (h : Acc (fun s' s => step s s') s) : ∃ s', ReflTransGen step s s' ∧ ∀ s'', ¬step s' s'' := by
  induction h with
  | intro s _ ih =>
    by_cases hstuck : ∃ s', step s s'
    · obtain ⟨s', hstep⟩ := hstuck
      obtain ⟨s'', hrun, hs''⟩ := ih s' hstep
      exact ⟨s'', ReflTransGen.head hstep hrun, hs''⟩
    · exact ⟨s, ReflTransGen.refl, fun s' hstep => hstuck ⟨s', hstep⟩⟩

end Landbase.Lib
