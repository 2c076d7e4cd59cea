import Landbase.Index.Key

/-! # Values and boolean expressions

`Value` of `sql/parser/value.cpp` and the expressions of `sql/expr/expression.cpp` that the planner looks into: constants
and conjunctions. Every other expression is what its `get_value` computes from a tuple, a value or an error.
-/

namespace Landbase.Sql
open Landbase.Index
set_option autoImplicit false

/-! ## Values -/

/-- `Value`. A float is a multiple of `2 ^ (-149)`, as in `floatOfBytes`. -/
inductive Value
  | undefined
  | chars (s : Bytes)
  | dates (d : ℤ)
  | ints (i : ℤ)
  | floats (f : ℤ)
  | booleans (b : Bool)
  | nulls
  | texts (s : Bytes)
  deriving DecidableEq, Repr

namespace Value

def attrType : Value → AttrType
  | .undefined => .undefined
  | .chars _ => .chars
  | .dates _ => .dates
  | .ints _ => .ints
  | .floats _ => .floats
  | .booleans _ => .booleans
  | .nulls => .nulls
  | .texts _ => .texts

def isNull (v : Value) : Bool := v.attrType == .nulls

/-- `EPSILON`, the double `1E-6`. -/
def epsilon : ℤ := 4722366482869645 * 2 ^ 77

/-- `Value::get_boolean`. For a string every path ends in whether it is empty: the conversions to numbers answer `true`
for nothing but strings that are not, and the exceptions are caught. -/
def getBoolean : Value → Bool
  | .chars s | .texts s => !s.isEmpty
  | .ints i => i != 0
  | .floats f => decide (epsilon ≤ f ∨ f ≤ -epsilon)
  | .booleans b => b
  | .nulls | .dates _ | .undefined => false

end Value

/-! ## Expressions -/

/-- `ConjunctionExpr::Type`. -/
inductive ConjunctionType
  | and | or
  deriving DecidableEq, Repr

/-- The value of a child that decides the whole. -/
def ConjunctionType.decisive : ConjunctionType → Bool
  | .and => false
  | .or => true

/-- An expression over tuples of a type. -/
inductive Expression (T : Type)
  | value (v : Value)
  | conjunction (type : ConjunctionType) (children : List (Expression T))
  | other (getValue : T → Except RC Value)

namespace Expression

variable {T : Type}

mutual

/-- `Expression::get_value`. -/
def getValue (tuple : T) : Expression T → Except RC Value
  | .value v => .ok v
  | .conjunction type children =>
    if children.isEmpty then .ok (.booleans true) else conjunctionValue tuple type children
  | .other f => f tuple

/-- The loop of `ConjunctionExpr::get_value`. -/
def conjunctionValue (tuple : T) (type : ConjunctionType) : List (Expression T) → Except RC Value
  | [] => .ok (.booleans (type == .and))
  | child :: children =>
    match child.getValue tuple with
    | .error rc => .error rc
    | .ok v =>
      if (type = .and ∧ ¬v.getBoolean) ∨ (type = .or ∧ v.getBoolean) then .ok (.booleans v.getBoolean)
      else conjunctionValue tuple type children

end

/-- The boolean value on a tuple, where there is one. -/
def truth (tuple : T) (e : Expression T) : Option Bool := (e.getValue tuple).toOption.map Value.getBoolean

theorem truth_value (tuple : T) (v : Value) : truth tuple (.value v) = some v.getBoolean := by
  rw [truth, getValue]
  rfl

theorem truth_of_ok {tuple : T} {e : Expression T} {v : Value} (h : e.getValue tuple = .ok v) :
    e.truth tuple = some v.getBoolean := by
  rw [truth, h]
  rfl

theorem ok_of_truth {tuple : T} {e : Expression T} {b : Bool} (h : e.truth tuple = some b) :
    ∃ v, e.getValue tuple = .ok v ∧ v.getBoolean = b := by
  unfold truth at h
  cases hvalue : e.getValue tuple with
  | error rc =>
    rw [hvalue] at h
    cases h
  | ok v =>
    rw [hvalue] at h
    exact ⟨v, rfl, Option.some.inj h⟩

theorem conjunctionValue_eq {tuple : T} {type : ConjunctionType} {children : List (Expression T)}
    (h : ∀ child ∈ children, ∃ b, child.truth tuple = some b) :
    conjunctionValue tuple type children = .ok (.booleans
      (if ∃ child ∈ children, child.truth tuple = some type.decisive then type.decisive else !type.decisive)) := by
  induction children with
  | nil => cases type <;> simp [conjunctionValue, ConjunctionType.decisive]
  | cons child children ih =>
    obtain ⟨b, hb⟩ := h child (by simp)
    obtain ⟨v, hv, hvb⟩ := ok_of_truth hb
    have hrest := ih fun c hc => h c (by simp [hc])
    have hhere : (∃ c ∈ child :: children, c.truth tuple = some type.decisive) ↔
        b = type.decisive ∨ ∃ c ∈ children, c.truth tuple = some type.decisive := by
      simp [hb]
    rw [conjunctionValue, hv]
    simp only [hvb, hhere]
    cases type <;> cases b <;> simp [ConjunctionType.decisive, hrest]

theorem truth_conjunction {tuple : T} {type : ConjunctionType} {children : List (Expression T)}
    (h : ∀ child ∈ children, ∃ b, child.truth tuple = some b) (hne : children ≠ []) :
    (conjunction type children).truth tuple = some
      (if ∃ child ∈ children, child.truth tuple = some type.decisive then type.decisive else !type.decisive) := by
  have hvalue : (conjunction type children).getValue tuple = conjunctionValue tuple type children := by
    rw [getValue, if_neg (by simpa using hne)]
  exact truth_of_ok (hvalue.trans (conjunctionValue_eq h))

theorem truth_conjunction_nil (tuple : T) (type : ConjunctionType) : (conjunction type []).truth tuple = some true := by
  rw [truth, getValue]
  rfl

end Expression

end Landbase.Sql
