import Landbase.Sql.Compare
import Landbase.Storage.TableMeta
import Mathlib.Data.Nat.Digits.Defs

/-! # `INSERT`

What `InsertStmt::create` of `sql/stmt/insert_stmt.cpp` makes of the values of an `INSERT`: each of them is converted into the
type of its column by `Value::type_cast`, or the statement is refused. What the library converts between strings and numbers
is a parameter.
-/

namespace Landbase.Sql
open Landbase.Index Landbase.Meta
set_option autoImplicit false

/-! ## Conversions -/

/-- The library: `stringstream >> int` with zero for a failure, and the text of a float. -/
structure CastLib extends CompareLib where
  strToInt : Bytes → ℤ
  floatToStr : ℤ → Bytes

/-- `round`, of a float in units of `2 ^ (-149)`: halves go away from zero. -/
def roundToInt (f : ℤ) : ℤ :=
  let magnitude : ℤ := (f.natAbs + 2 ^ 148) / 2 ^ 149
  if f < 0 then -magnitude else magnitude

/-- `stringstream << int`. -/
def intToStr (i : ℤ) : Bytes :=
  (if i < 0 then [45] else []) ++
    if i = 0 then [48] else (Nat.digits 10 i.natAbs).reverse.map fun digit => UInt8.ofNat (48 + digit)

section
variable (lib : CastLib) (memory : DateMemory)

/-- `Value::type_cast`; `none` is its `false`. `text` is what is left in the `str_value_` of a date. -/
def Value.typeCast (text : Bytes) (target : AttrType) (v : Value) : Option Value :=
  if v.attrType = target then some v
  else
    match target, v with
    | .ints, .floats f => some (.ints (storeInt lib.overflow (roundToInt f)))
    | .ints, .chars s | .ints, .texts s => some (.ints (lib.strToInt s))
    | .floats, .ints i => some (.floats (floatOfInt i))
    | .floats, .chars s | .floats, .texts s => some (.floats (lib.strToFloat s))
    | .chars, .ints i => some (.chars (intToStr i))
    | .chars, .floats f => some (.chars (lib.floatToStr f))
    | .chars, .dates _ =>
      let val := convertStringToDate lib.overflow memory text
      if val = -1 then none else some (.dates val)
    | .texts, .chars s => some (.texts s)
    | _, _ => none

/-! ## `InsertStmt::create` -/

/-- `Value::length`. -/
def Value.length : Value → ℕ
  | .chars s | .texts s => s.length
  | .ints _ | .floats _ | .dates _ => 4
  | .booleans _ => 1
  | .undefined | .nulls => 0

/-- What is left of a value that is longer than its field. -/
def Value.kept (len : ℕ) : Value → Value
  | .chars s => .chars (s.take len)
  | .texts s => .texts (s.take len)
  | v => v

/-- The checks of `create` for one value, and the value after them. -/
def InsertStmt.checkValue (text : Bytes) (field : FieldMeta) (v : Value) : Except RC Value :=
  if v.isNull then if field.nullable then .ok v else .error .schemaFieldNotNullable
  else if field.attrType = v.attrType then .ok v
  else if field.attrType = .dates ∧ v.attrType = .chars then
    let mid := convertStringToDate lib.overflow memory (v.str.getD [])
    if mid = -1 then .error .schemaFieldTypeMismatch else .ok (.dates mid)
  else
    match v.typeCast lib memory text field.attrType with
    | none => .error .schemaFieldTypeMismatch
    | some change =>
      if change.attrType = .texts ∧ (change.length : ℤ) > field.attrLen then .error .schemaFieldTypeMismatch
      else .ok change

/-- The loop over the values of a row. -/
def InsertStmt.checkValues (text : Bytes) : List FieldMeta → List Value → Except RC (List Value)
  | field :: fields, v :: values => do
    let v ← checkValue lib memory text field v
    let values ← checkValues text fields values
    .ok (v :: values)
  | _, _ => .ok []

/-- The loop over the rows. -/
def InsertStmt.checkRows (text : Bytes) (fields : List FieldMeta) : List (List Value) → Except RC (List (List Value))
  | [] => .ok []
  | values :: rows => do
    if fields.length ≠ values.length then .error .schemaFieldMissing
    let values ← checkValues lib memory text fields values
    let rows ← checkRows text fields rows
    .ok (values :: rows)

structure InsertSqlNode where
  relationName : String
  valuesList : List (List Value)

/-- `InsertStmt::create`: the table and the values of the statement. `findTable` is the one of the database. -/
def InsertStmt.create (text : Bytes) (kit : TrxKit) (findTable : String → Option TableMeta) (inserts : InsertSqlNode) :
    Except RC (TableMeta × List (List Value)) :=
  if inserts.valuesList.isEmpty then .error .invalidArgument
  else
    match findTable inserts.relationName with
    | none => .error .schemaTableNotExist
    | some table => do
      let rows ← checkRows lib memory text (table.fields.drop (kit.trxFields.length + 1)) inserts.valuesList
      .ok (table, rows)

end

/-! ## What a statement holds -/

/-- A finite float, in units of `2 ^ (-149)`. -/
def IsFloat (f : ℤ) : Prop :=
  f.natAbs < 2 ^ 23 ∨ ∃ mantissa exponent : ℕ,
    mantissa < 2 ^ 23 ∧ exponent < 254 ∧ f.natAbs = (2 ^ 23 + mantissa) * 2 ^ exponent

/-- A value that a field can hold. -/
def Value.Proper : Value → Prop
  | .ints i => -2 ^ 31 ≤ i ∧ i < 2 ^ 31
  | .dates d => -2 ^ 31 ≤ d ∧ d < 2 ^ 31
  | .floats f => IsFloat f
  | .chars s | .texts s => NoNul s
  | .nulls => True
  | .undefined | .booleans _ => False

/-- A value as the parser makes it of a token. -/
def Value.Parsed (v : Value) : Prop :=
  v.Proper ∧ (v = .nulls ∨ v.attrType = .ints ∨ v.attrType = .floats ∨ v.attrType = .chars)

theorem Value.Parsed.not_dates {v : Value} (h : v.Parsed) {target : AttrType} :
    ¬(target = .chars ∧ v.attrType = .dates) := by
  rintro ⟨-, hdates⟩
  have htype := h.2
  rw [hdates] at htype
  cases v <;> simp [Value.attrType] at hdates htype

/-- The numbers that the library makes are `int`s and floats, and its texts end where they should. -/
structure CastLib.Proper (lib : CastLib) : Prop where
  overflow : ∀ i, -2 ^ 31 ≤ lib.overflow i ∧ lib.overflow i < 2 ^ 31
  strToInt : ∀ s, -2 ^ 31 ≤ lib.strToInt s ∧ lib.strToInt s < 2 ^ 31
  strToFloat : ∀ s, IsFloat (lib.strToFloat s)
  floatToStr : ∀ f, NoNul (lib.floatToStr f)

/-- A value that is stored in the field without a conversion. -/
def Suits (field : FieldMeta) (v : Value) : Prop :=
  v.Proper ∧ if v = .nulls then field.nullable = true else v.attrType = field.attrType

theorem isFloat_neg {f : ℤ} : IsFloat (-f) ↔ IsFloat f := by
  unfold IsFloat
  rw [Int.natAbs_neg]

theorem isFloat_shift {m k : ℕ} (hlo : 2 ^ 23 ≤ m) (hhi : m ≤ 2 ^ 24) (hk : k < 253) : IsFloat ((m : ℤ) * 2 ^ k) := by
  have habs : ((m : ℤ) * 2 ^ k).natAbs = m * 2 ^ k := by
    rw [Int.natAbs_mul, Int.natAbs_natCast, Int.natAbs_pow]
    rfl
  right
  rw [habs]
  cases hhi.eq_or_lt with
  | inl heq =>
    refine ⟨0, k + 1, by norm_num, by omega, ?_⟩
    rw [heq, pow_succ]
    ring
  | inr hlt =>
    refine ⟨m - 2 ^ 23, k, by omega, by omega, ?_⟩
    rw [Nat.add_sub_cancel' hlo]

theorem isFloat_roundFloat {n : ℕ} (hpos : 0 < n) (hlt : n < 2 ^ 32) : IsFloat (roundFloat ((n : ℤ) * 2 ^ 149)) := by
  obtain ⟨hlo, hhi⟩ := (Nat.log2_eq_iff hpos.ne').mp rfl
  have hl : n.log2 < 32 := (Nat.log2_lt hpos.ne').mpr hlt
  generalize n.log2 = l at hlo hhi hl
  have habs : ((n : ℤ) * 2 ^ 149).natAbs = n * 2 ^ 149 := by
    rw [Int.natAbs_mul, Int.natAbs_natCast]
    rfl
  have hlog : (n * 2 ^ 149).log2 = l + 149 := by
    refine (Nat.log2_eq_iff (by positivity)).mpr ⟨?_, ?_⟩
    · rw [pow_add]
      exact Nat.mul_le_mul_right _ hlo
    · rw [add_right_comm, pow_add _ (l + 1)]
      exact Nat.mul_lt_mul_of_pos_right hhi (by positivity)
  have hulp : (0 : ℤ) < 2 ^ (l + 126) := by positivity
  have hfirst : (2 : ℤ) ^ 23 ≤ n * 2 ^ 149 / 2 ^ (l + 126) := by
    rw [Int.le_ediv_iff_mul_le hulp, ← pow_add, show 23 + (l + 126) = l + 149 by omega, pow_add]
    exact mul_le_mul_of_nonneg_right (by exact_mod_cast hlo) (by positivity)
  have hlast : (n : ℤ) * 2 ^ 149 / 2 ^ (l + 126) < 2 ^ 24 := by
    rw [Int.ediv_lt_iff_lt_mul hulp, ← pow_add, show 24 + (l + 126) = l + 1 + 149 by omega, pow_add]
    exact mul_lt_mul_of_pos_right (by exact_mod_cast hhi) (by positivity)
  have hshift : ∀ low : ℤ, 2 ^ 23 ≤ low → low ≤ 2 ^ 24 → IsFloat (low * 2 ^ (l + 126)) := by
    intro low hlow hhigh
    obtain ⟨m, rfl⟩ := Int.eq_ofNat_of_zero_le (le_trans (by norm_num) hlow)
    exact isFloat_shift (by exact_mod_cast hlow) (by exact_mod_cast hhigh) (by omega)
  unfold roundFloat
  rw [habs, hlog, show l + 149 - 23 = l + 126 by omega]
  dsimp only
  split
  · exact hshift _ hfirst hlast.le
  · exact hshift _ (hfirst.trans (by omega)) hlast

/-- Every `int` becomes a float. -/
theorem isFloat_floatOfInt {i : ℤ} (hlo : -2 ^ 31 ≤ i) (hhi : i < 2 ^ 31) : IsFloat (floatOfInt i) := by
  unfold floatOfInt
  cases lt_trichotomy i 0 with
  | inl hneg =>
    obtain ⟨n, hn⟩ := Int.eq_ofNat_of_zero_le (show 0 ≤ -i by omega)
    rw [← neg_neg i, hn, neg_mul, roundFloat_neg, isFloat_neg]
    exact isFloat_roundFloat (by omega) (by omega)
  | inr hle =>
    cases hle with
    | inl hzero =>
      rw [hzero]
      exact .inl (by decide +kernel)
    | inr hpos =>
      obtain ⟨n, rfl⟩ := Int.eq_ofNat_of_zero_le hpos.le
      exact isFloat_roundFloat (by omega) (by omega)

theorem noNul_intToStr (i : ℤ) : NoNul (intToStr i) := by
  unfold NoNul intToStr
  rw [List.mem_append, not_or]
  constructor
  · split <;> simp
  · split
    · simp
    · intro h
      obtain ⟨digit, hdigit, hzero⟩ := List.mem_map.mp h
      have hlt := Nat.digits_lt_base (by norm_num) (List.mem_reverse.mp hdigit)
      have hnat : (48 + digit) % 256 = 0 := congrArg UInt8.toNat hzero
      omega

theorem storeInt_range {overflow : ℤ → ℤ} (h : ∀ i, -2 ^ 31 ≤ overflow i ∧ overflow i < 2 ^ 31) (n : ℤ) :
    -2 ^ 31 ≤ storeInt overflow n ∧ storeInt overflow n < 2 ^ 31 := by
  unfold storeInt
  split
  · assumption
  · exact h n

section
variable {lib : CastLib} (memory : DateMemory) (text : Bytes)

/-- A value that is converted is one of the type, except for a date that should become a string. -/
theorem typeCast_spec (hlib : lib.Proper) {target : AttrType} {v w : Value} (hproper : v.Proper)
    (hdate : ¬(target = .chars ∧ v.attrType = .dates)) (h : v.typeCast lib memory text target = some w) :
    w.Proper ∧ w.attrType = target := by
  unfold Value.typeCast at h
  split at h
  · next hsame =>
    obtain rfl := Option.some.inj h
    exact ⟨hproper, hsame⟩
  · split at h
    all_goals first
      | cases h
      | exact absurd ⟨rfl, rfl⟩ hdate
    all_goals first
      | exact ⟨storeInt_range hlib.overflow _, rfl⟩
      | exact ⟨hlib.strToInt _, rfl⟩
      | exact ⟨isFloat_floatOfInt hproper.1 hproper.2, rfl⟩
      | exact ⟨hlib.strToFloat _, rfl⟩
      | exact ⟨noNul_intToStr _, rfl⟩
      | exact ⟨hlib.floatToStr _, rfl⟩
      | exact ⟨hproper, rfl⟩

/-- Nothing becomes a `NULL` by a conversion. -/
theorem typeCast_nulls {v : Value} (hv : v.attrType ≠ .nulls) : v.typeCast lib memory text .nulls = none := by
  cases v <;> simp [Value.typeCast, Value.attrType] at hv ⊢

theorem isNull_iff {v : Value} : v.isNull = true ↔ v = .nulls := by
  cases v <;> simp [Value.isNull, Value.attrType]

theorem checkValue_suits (hlib : lib.Proper) {field : FieldMeta} {v w : Value} (hv : v.Parsed)
    (h : InsertStmt.checkValue lib memory text field v = .ok w) : Suits field w := by
  unfold InsertStmt.checkValue at h
  by_cases hnull : v.isNull = true
  · rw [if_pos hnull] at h
    split at h
    · next hnullable =>
      obtain rfl := Except.ok.inj h
      exact ⟨hv.1, by rw [if_pos (isNull_iff.mp hnull)]; exact hnullable⟩
    · cases h
  rw [if_neg hnull] at h
  have hsuits : ∀ w : Value, w.Proper → w.attrType = field.attrType → w.attrType ≠ .nulls → Suits field w := by
    intro w hw htype hne
    refine ⟨hw, ?_⟩
    rw [if_neg (fun heq => hne (by rw [heq]; rfl))]
    exact htype
  have hvnull : v.attrType ≠ .nulls := fun heq => hnull (by rw [Value.isNull, heq]; rfl)
  split at h
  · next htype =>
    obtain rfl := Except.ok.inj h
    exact hsuits v hv.1 htype.symm hvnull
  · split at h
    · next hdates =>
      dsimp only at h
      split at h
      · cases h
      · next hmid =>
        obtain rfl := Except.ok.inj h
        have hrange := convert_range lib.overflow hmid
        exact hsuits _ ⟨by omega, by omega⟩ hdates.1.symm (by simp [Value.attrType])
    · cases hcast : v.typeCast lib memory text field.attrType with
      | none =>
        rw [hcast] at h
        cases h
      | some change =>
        rw [hcast] at h
        dsimp only at h
        split at h
        · cases h
        · obtain rfl := Except.ok.inj h
          obtain ⟨hproper, htype⟩ := typeCast_spec memory text hlib hv.1 hv.not_dates hcast
          refine hsuits change hproper htype fun heq => ?_
          rw [← htype, heq, typeCast_nulls memory text hvnull] at hcast
          cases hcast

theorem checkValues_suits (hlib : lib.Proper) {fields : List FieldMeta} {values values' : List Value}
    (hvalues : ∀ v ∈ values, v.Parsed) (hlength : fields.length = values.length)
    (h : InsertStmt.checkValues lib memory text fields values = .ok values') : List.Forall₂ Suits fields values' := by
  induction fields generalizing values values' with
  | nil =>
    obtain rfl := List.length_eq_zero_iff.mp hlength.symm
    obtain rfl := Except.ok.inj h
    exact .nil
  | cons field fields ih =>
    cases values with
    | nil => cases hlength
    | cons v values =>
      rw [InsertStmt.checkValues] at h
      cases hv : InsertStmt.checkValue lib memory text field v with
      | error rc =>
        rw [hv] at h
        cases h
      | ok w =>
        cases hrest : InsertStmt.checkValues lib memory text fields values with
        | error rc =>
          rw [hv, hrest] at h
          cases h
        | ok rest =>
          rw [hv, hrest] at h
          obtain rfl := Except.ok.inj h
          exact .cons (checkValue_suits memory text hlib (hvalues v List.mem_cons_self) hv)
            (ih (fun u hu => hvalues u (List.mem_cons_of_mem _ hu)) (Nat.succ.inj hlength) hrest)

/-- The rows of a statement suit the columns. -/
theorem checkRows_suits (hlib : lib.Proper) {fields : List FieldMeta} {rows rows' : List (List Value)}
    (hrows : ∀ values ∈ rows, ∀ v ∈ values, v.Parsed) (h : InsertStmt.checkRows lib memory text fields rows = .ok rows') :
    ∀ values ∈ rows', List.Forall₂ Suits fields values := by
  induction rows generalizing rows' with
  | nil =>
    obtain rfl := Except.ok.inj h
    exact fun _ hvalues => absurd hvalues List.not_mem_nil
  | cons values rows ih =>
    rw [InsertStmt.checkRows] at h
    by_cases hlength : fields.length = values.length
    · rw [if_neg (not_not.mpr hlength)] at h
      cases hvalues : InsertStmt.checkValues lib memory text fields values with
      | error rc =>
        rw [hvalues] at h
        cases h
      | ok values' =>
        cases hrest : InsertStmt.checkRows lib memory text fields rows with
        | error rc =>
          rw [hvalues, hrest] at h
          cases h
        | ok rest =>
          rw [hvalues, hrest] at h
          obtain rfl := Except.ok.inj h
          intro row hrow
          cases List.mem_cons.mp hrow with
          | inl heq =>
            rw [heq]
            exact checkValues_suits memory text hlib (hrows values List.mem_cons_self) hlength hvalues
          | inr hmem => exact ih (fun u hu => hrows u (List.mem_cons_of_mem _ hu)) hrest row hmem
    · rw [if_pos hlength] at h
      cases h

end

end Landbase.Sql
