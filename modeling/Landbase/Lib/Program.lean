import Mathlib.Data.Option.Basic

/-! # Programs over a store

A program puts questions to a store and goes on with the answers. What it returns depends on the store through these
answers alone, so two stores that answer every question alike, and stay alike, are the same to every program.
-/

namespace Landbase.Lib
set_option autoImplicit false

/-- A program with questions `Q` that are answered in `A`. -/
inductive Program (Q A α : Type)
  | ret (value : α)
  | abort
  | ask (question : Q) (next : A → Program Q A α)

namespace Program

variable {Q A S T α β : Type}

/-- One program after another. -/
def bind : Program Q A α → (α → Program Q A β) → Program Q A β
  | ret value, next => next value
  | abort, _ => abort
  | ask question rest, next => ask question fun answer => (rest answer).bind next

instance : Monad (Program Q A) where
  pure := ret
  bind := bind

/-- The program on a store, which answers a question and changes, or cannot. -/
def run (answer : S → Q → Option (A × S)) : Program Q A α → S → Option (α × S)
  | ret value, s => some (value, s)
  | abort, _ => none
  | ask question next, s => (answer s question).bind fun r => (next r.1).run answer r.2

/-- The same value, and stores that are alike. -/
def Same (R : S → T → Prop) (x : α × S) (y : α × T) : Prop := x.1 = y.1 ∧ R x.2 y.2

/-- Stores that answer alike stay alike under every program. -/
theorem run_same {answer : S → Q → Option (A × S)} {answer' : T → Q → Option (A × T)} {R : S → T → Prop}
    (hanswer : ∀ s t question, R s t → Option.Rel (Same R) (answer s question) (answer' t question))
    (program : Program Q A α) {s : S} {t : T} (h : R s t) :
    Option.Rel (Same R) (program.run answer s) (program.run answer' t) := by
  induction program generalizing s t with
  | ret value => exact .some ⟨rfl, h⟩
  | abort => exact .none
  | ask question next ih =>
    have hone := hanswer s t question h
    rw [run, run]
    generalize answer s question = x at hone
    generalize answer' t question = y at hone
    cases hone with
    | none => exact .none
    | @some x y hsame =>
      rw [Option.bind_some, Option.bind_some, hsame.1]
      exact ih y.1 hsame.2

end Program

end Landbase.Lib
