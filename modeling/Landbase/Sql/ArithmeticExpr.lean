import Landbase.Sql.Expression

/-! # `ArithmeticExpr`

The arithmetic expressions of `sql/expr/expression.cpp` and their two evaluators. `get_value` computes a value from a tuple,
`try_get_value` without one; both leave the operator itself to `calc_value`. The right operand of an expression that the
parser has made of a unary minus is a null pointer.

Floats are the machine's, so that infinities and values that are no number are among them.
-/

namespace Landbase.Sql
open Landbase.Index
set_option autoImplicit false

/-! ## Numbers -/

/-- What arithmetic sees of a `Value`: a `NULL`, which is what a value is before it is set, an `int` or a `float`. -/
inductive Number
  | nulls
  | ints (i : Int32)
  | floats (f : Float32)

namespace Number

def attrType : Number → AttrType
  | .nulls => .nulls
  | .ints _ => .ints
  | .floats _ => .floats

/-- `Value::get_int`. -/
def getInt : Number → Int32
  | .nulls => 0
  | .ints i => i
  | .floats f => f.toInt32

/-- `Value::get_float`. -/
def getFloat : Number → Float32
  | .nulls => 0
  | .ints i => i.toFloat32
  | .floats f => f

end Number

/-- `numeric_limits<float>::max()`. -/
def floatMax : Float32 := .ofBits 0x7F7FFFFF

/-- `f > -EPSILON && f < EPSILON`, which compares doubles. -/
def nearZero (f : Float32) : Bool := f.toFloat > -1E-6 && f.toFloat < 1E-6

/-! ## Expressions -/

/-- `ArithmeticExpr::Type`. -/
inductive ArithmeticType
  | add | sub | mul | div | negative
  deriving DecidableEq, Repr

/-- A `ValueExpr`, or an `ArithmeticExpr` without or with a right operand. -/
inductive ArithmeticExpr
  | value (v : Number)
  | unary (type : ArithmeticType) (left : ArithmeticExpr)
  | binary (type : ArithmeticType) (left right : ArithmeticExpr)

namespace ArithmeticExpr

/-- `value_type`. -/
def valueType : ArithmeticExpr → AttrType
  | .value v => v.attrType
  | .unary _ left => left.valueType
  | .binary type left right =>
    if left.valueType = .ints ∧ right.valueType = .ints ∧ type ≠ .div then .ints else .floats

/-- `ArithmeticExpr::calc_value`, with the type that the expression has. -/
def calcValue (type : ArithmeticType) (targetType : AttrType) (left right : Number) : Except RC Number :=
  match type with
  | .add =>
    if targetType = .ints then .ok (.ints (left.getInt + right.getInt))
    else .ok (.floats (left.getFloat + right.getFloat))
  | .sub =>
    if targetType = .ints then .ok (.ints (left.getInt - right.getInt))
    else .ok (.floats (left.getFloat - right.getFloat))
  | .mul =>
    if targetType = .ints then .ok (.ints (left.getInt * right.getInt))
    else .ok (.floats (left.getFloat * right.getFloat))
  | .div =>
    if targetType = .ints then
      if right.getInt = 0 then .ok (.ints Int32.maxValue) else .ok (.ints (left.getInt / right.getInt))
    else if nearZero right.getFloat then .ok (.floats floatMax)
    else .ok (.floats (left.getFloat / right.getFloat))
  | .negative =>
    if targetType = .ints then .ok (.ints (-left.getInt)) else .ok (.floats (-left.getFloat))

/-- `get_value`. `none` is the call of a member of a null pointer. -/
def getValue {T : Type} (tuple : T) : ArithmeticExpr → Option (Except RC Number)
  | .value v => some (.ok v)
  | .unary _ left =>
    (left.getValue tuple).bind fun
      | .error rc => some (.error rc)
      | .ok _ => none
  | .binary type left right =>
    (left.getValue tuple).bind fun
      | .error rc => some (.error rc)
      | .ok leftValue =>
        (right.getValue tuple).map fun
          | .error rc => .error rc
          | .ok rightValue => calcValue type (binary type left right).valueType leftValue rightValue

/-- `try_get_value`, which looks whether there is a right operand. -/
def tryGetValue : ArithmeticExpr → Except RC Number
  | .value v => .ok v
  | .unary type left =>
    match left.tryGetValue with
    | .error rc => .error rc
    | .ok leftValue => calcValue type (unary type left).valueType leftValue .nulls
  | .binary type left right =>
    match left.tryGetValue with
    | .error rc => .error rc
    | .ok leftValue =>
      match right.tryGetValue with
      | .error rc => .error rc
      | .ok rightValue => calcValue type (binary type left right).valueType leftValue rightValue

/-- No operator in the expression lacks its right operand: there is no unary minus. -/
def NoUnary : ArithmeticExpr → Prop
  | .value _ => True
  | .unary _ _ => False
  | .binary _ left right => left.NoUnary ∧ right.NoUnary

/-! ## The two evaluators -/

/-- None of the operators fails. -/
theorem calcValue_ok (type : ArithmeticType) (targetType : AttrType) (left right : Number) :
    ∃ v, calcValue type targetType left right = .ok v := by
  cases type <;> simp only [calcValue] <;> split_ifs <;> exact ⟨_, rfl⟩

theorem tryGetValue_ok (e : ArithmeticExpr) : ∃ v, e.tryGetValue = .ok v := by
  induction e with
  | value v => exact ⟨v, rfl⟩
  | unary type left ih =>
    obtain ⟨l, hl⟩ := ih
    rw [tryGetValue, hl]
    exact calcValue_ok _ _ _ _
  | binary type left right ihl ihr =>
    obtain ⟨l, hl⟩ := ihl
    obtain ⟨r, hr⟩ := ihr
    rw [tryGetValue, hl, hr]
    exact calcValue_ok _ _ _ _

variable {T : Type} (tuple : T)

theorem getValue_of_noUnary {e : ArithmeticExpr} (h : e.NoUnary) : e.getValue tuple = some e.tryGetValue := by
  induction e with
  | value v => rfl
  | unary type left ih => exact h.elim
  | binary type left right ihl ihr =>
    obtain ⟨l, hl⟩ := tryGetValue_ok left
    obtain ⟨r, hr⟩ := tryGetValue_ok right
    rw [getValue, tryGetValue, ihl h.1, ihr h.2, hl, hr]
    rfl

/-- The missing operand is reached from everywhere, as no operator in front of it fails. -/
theorem getValue_of_not_noUnary {e : ArithmeticExpr} (h : ¬e.NoUnary) : e.getValue tuple = none := by
  induction e with
  | value v => exact absurd trivial h
  | unary type left ih =>
    by_cases hl : left.NoUnary
    · obtain ⟨l, hok⟩ := tryGetValue_ok left
      rw [getValue, getValue_of_noUnary tuple hl, hok]
      rfl
    · rw [getValue, ih hl]
      rfl
  | binary type left right ihl ihr =>
    by_cases hl : left.NoUnary
    · obtain ⟨l, hok⟩ := tryGetValue_ok left
      have hr : ¬right.NoUnary := fun hr => h ⟨hl, hr⟩
      rw [getValue, getValue_of_noUnary tuple hl, hok, ihr hr]
      rfl
    · rw [getValue, ihl hl]
      rfl

/-- The evaluators agree on exactly the expressions without a unary minus. -/
theorem getValue_eq_tryGetValue_iff (e : ArithmeticExpr) :
    e.getValue tuple = some e.tryGetValue ↔ e.NoUnary := by
  constructor
  · intro h
    by_contra hno
    rw [getValue_of_not_noUnary tuple hno] at h
    cases h
  · exact getValue_of_noUnary tuple

/-- Of `-(1)` one evaluator computes the value, and the other calls a member of a null pointer. -/
theorem getValue_negative_one :
    (unary .negative (.value (.ints 1))).tryGetValue = .ok (.ints (-1)) ∧
      (unary .negative (.value (.ints 1))).getValue () = none :=
  ⟨rfl, rfl⟩

end ArithmeticExpr

end Landbase.Sql
