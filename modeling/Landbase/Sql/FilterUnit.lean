import Landbase.Sql.Compare
import Mathlib.Data.List.TakeWhile

/-! # A constant on either side of a condition

`FilterStmt::create_filter_unit` of `sql/stmt/filter_stmt.cpp` looks at the types of the two sides of a condition and
converts a constant there, when it stands to the right of a column; `ComparisonExpr` of `sql/expr/expression.cpp` compares
what the two sides are for a row, with the conversions of `Value::compare`.
-/

namespace Landbase.Sql
open Landbase.Index
set_option autoImplicit false

/-! ## Preparing a condition -/

/-- One side of a condition, its column found: a column, a constant, or a list of values or a subquery, with what its
`get_value` gives. -/
inductive FilterSide
  | field (type : AttrType)
  | value (v : Value)
  | other (type : AttrType) (result : Except RC Value)

namespace FilterSide

/-- `value_type`. -/
def valueType : FilterSide → AttrType
  | .field type => type
  | .value v => v.attrType
  | .other type _ => type

/-- `get_value` for a row in which the column is `stored`. -/
def getValue (stored : Value) : FilterSide → Except RC Value
  | .field _ => .ok stored
  | .value v => .ok v
  | .other _ result => result

end FilterSide

/-- `type_cast(FLOATS)`; `none` is its `false`. -/
def Value.typeCastFloats (lib : CompareLib) : Value → Option Value
  | .floats f => some (.floats f)
  | .ints i => some (.floats (floatOfInt i))
  | .chars s | .texts s => some (.floats (lib.strToFloat s))
  | _ => none

section
variable (lib : CompareLib)

/-- `create_filter_unit`, from the comparison of the types on: the two sides of the unit. -/
def createFilterUnit (memory : DateMemory) (comp : CompOp) (left right : FilterSide) :
    Except RC (FilterSide × FilterSide) :=
  if comp = .noOp then .error .invalidArgument
  else if left.valueType = right.valueType then .ok (left, right)
  else
    match left, right with
    | .field type, .value v =>
      if v.isNull then .ok (left, right)
      else if type = .dates ∧ v.attrType = .chars then
        let check := convertStringToDate lib.overflow memory (v.str.getD [])
        if check = -1 then .error .failure else .ok (left, .value (.dates check))
      else if v.attrType = .chars then
        match v.typeCastFloats lib with
        | none => .error .failure
        | some cast => .ok (left, .value cast)
      else .ok (left, right)
    | .value v, .value w =>
      if v.attrType = .nulls ∨ w.attrType = .nulls then .ok (left, right)
      else if v.attrType ≠ .chars ∨ w.attrType ≠ .chars then
        match v.typeCastFloats lib, w.typeCastFloats lib with
        | some v', some w' => .ok (.value v', .value w')
        | _, _ => .error .failure
      else .ok (left, right)
    -- two columns, or a constant in front of a column: types that differ are logged only
    | _, _ => .ok (left, right)

/-- `ComparisonExpr::get_value` for a row. -/
def comparisonValue (memory : CompareMemory) (comp : CompOp) (left right : FilterSide) (stored : Value) :
    Except RC Value :=
  match left.getValue stored with
  | .error rc => .error rc
  | .ok leftValue =>
    match right.getValue stored with
    | .error rc => .error rc
    | .ok rightValue => .ok (.booleans (leftValue.compare lib memory comp rightValue).1)

/-- A condition that is prepared and evaluated. -/
def condition (prepare : DateMemory) (memory : CompareMemory) (comp : CompOp) (left right : FilterSide) (stored : Value) :
    Except RC Value :=
  match createFilterUnit lib prepare comp left right with
  | .error rc => .error rc
  | .ok (l, r) => comparisonValue lib memory comp l r stored

/-! ## The two orders of a condition -/

/-- The constants of the parser. -/
def Parsed : Value → Prop
  | .ints _ | .floats _ | .nulls => True
  | .chars s => NoNul s
  | _ => False

/-- For every row the condition with the column in front is accepted and true exactly when the one with the constant in
front is, and a string is compared with a column of strings as a string. -/
def SidesAgree (op : CompOp) (type : AttrType) (c : Value) : Prop :=
  ∀ stored, Stored type stored → ∀ prepare prepare' memory memory',
    condition lib prepare memory op (.field type) (.value c) stored =
        condition lib prepare' memory' op.flipped (.value c) (.field type) stored ∧
      ∀ s t, c = .chars s → stored.str = some t → type = .chars ∨ type = .texts →
        condition lib prepare memory op (.field type) (.value c) stored =
          .ok (.booleans (op.holds (compareStringValue t s)))

/-- The types for which the order does not matter. -/
def EitherSide (type constant : AttrType) : Prop :=
  constant = .nulls ∨ type = .ints ∨ type = .floats ∨ (type = .chars ∧ constant = .chars) ∨
    ((type = .texts ∨ type = .dates) ∧ constant ≠ .chars)

instance (type constant : AttrType) : Decidable (EitherSide type constant) :=
  inferInstanceAs (Decidable (constant = .nulls ∨ type = .ints ∨ type = .floats ∨ (type = .chars ∧ constant = .chars) ∨
    ((type = .texts ∨ type = .dates) ∧ constant ≠ .chars)))

variable {lib} {op : CompOp} {type : AttrType} {c stored : Value}

/-- A constant in front of a column stays as it is. -/
theorem condition_value_field (hop : op.Relational) (prepare : DateMemory) (memory : CompareMemory) :
    condition lib prepare memory op (.value c) (.field type) stored =
      .ok (.booleans (c.compare lib memory op stored).1) := by
  have hunit : createFilterUnit lib prepare op (.value c) (.field type) = .ok (.value c, .field type) := by
    unfold createFilterUnit
    rw [if_neg (hop.ne (by decide))]
    split_ifs <;> rfl
  rw [condition, hunit]
  rfl

/-- Behind a column only strings are converted, and only where the column is none. -/
theorem condition_field_value (hop : op.Relational) (hc : c.attrType ≠ .chars ∨ type = .chars) (prepare : DateMemory)
    (memory : CompareMemory) :
    condition lib prepare memory op (.field type) (.value c) stored =
      .ok (.booleans (stored.compare lib memory op c).1) := by
  have hunit : createFilterUnit lib prepare op (.field type) (.value c) = .ok (.field type, .value c) := by
    unfold createFilterUnit
    rw [if_neg (hop.ne (by decide))]
    by_cases htype : type = c.attrType
    · exact if_pos htype
    · have hchars : c.attrType ≠ .chars := fun h => hc.elim (fun hc => hc h) fun hc => htype (hc.trans h.symm)
      rw [if_neg (by exact htype)]
      simp only [hchars, and_false, if_false, ite_self]
  rw [condition, hunit]
  rfl

theorem condition_field_string (hop : op.Relational) {s : Bytes} (hchars : type ≠ .chars) (hdates : type ≠ .dates)
    (prepare : DateMemory) (memory : CompareMemory) :
    condition lib prepare memory op (.field type) (.value (.chars s)) stored =
      .ok (.booleans (stored.compare lib memory op (.floats (lib.strToFloat s))).1) := by
  have hunit : createFilterUnit lib prepare op (.field type) (.value (.chars s)) =
      .ok (.field type, .value (.floats (lib.strToFloat s))) := by
    unfold createFilterUnit
    rw [if_neg (hop.ne (by decide)), if_neg (by exact hchars)]
    simp [Value.isNull, Value.attrType, hdates, Value.typeCastFloats]
  rw [condition, hunit]
  rfl

theorem condition_date_string (hop : op.Relational) {s : Bytes} (prepare : DateMemory) (memory : CompareMemory) :
    condition lib prepare memory op (.field .dates) (.value (.chars s)) stored =
      if convertStringToDate lib.overflow prepare s = -1 then .error .failure
      else .ok (.booleans (stored.compare lib memory op (.dates (convertStringToDate lib.overflow prepare s))).1) := by
  have hunit : createFilterUnit lib prepare op (.field .dates) (.value (.chars s)) =
      if convertStringToDate lib.overflow prepare s = -1 then .error .failure
      else .ok (.field .dates, .value (.dates (convertStringToDate lib.overflow prepare s))) := by
    unfold createFilterUnit
    rw [if_neg (hop.ne (by decide)), if_neg (fun h => by cases h)]
    rfl
  rw [condition, hunit]
  split_ifs <;> rfl

/-! ## Where they agree -/

theorem compare_null (hop : op.Relational) {v w : Value} (h : v.isNull ∨ w.isNull) (memory : CompareMemory) :
    (v.compare lib memory op w).1 = false := by
  rw [Value.compare, if_neg (hop.ne (by decide)), if_neg (hop.ne (by decide)), if_pos h]

/-- A number in the column, and a string. -/
theorem compare_number_string (hop : op.Relational) {s : Bytes} (hs : NoNul s) (hstored : stored ≠ .nulls)
    (h : ∃ t, (t = .ints ∨ t = .floats) ∧ Stored t stored) (memory memory' : CompareMemory) :
    (stored.compare lib memory op (.floats (lib.strToFloat s))).1 =
      (Value.compare lib memory' op.flipped (.chars s) stored).1 := by
  have hfloats : ∀ f g : ℤ, op.holds (compareFloatValue f g) = op.flipped.holds (compareFloatValue g f) := by
    intro f g
    rw [compareFloatValue_swap f g, CompOp.holds_flipped hop]
  have hrel := hop.flipped
  obtain ⟨t, rfl | rfl, ht⟩ := h
  · obtain ⟨i, rfl⟩ := ht.ints hstored
    rw [compare_otherType hop (v := .ints i) (w := .floats (lib.strToFloat s)) trivial trivial memory (fun h => by cases h),
      compare_otherType hrel (v := .chars s) (w := .ints i) hs trivial memory' (fun h => by cases h)]
    exact hfloats _ _
  · obtain ⟨data, length, rfl⟩ := ht.resolve_left hstored
    rw [Value.setData]
    generalize floatOfBytes data = f
    rw [compare_sameType hop (v := .floats f) (w := .floats (lib.strToFloat s)) trivial trivial memory rfl,
      compare_otherType hrel (v := .chars s) (w := .floats f) hs trivial memory' (fun h => by cases h)]
    exact hfloats _ _

theorem Parsed.comparable (h : Parsed c) (hnull : c ≠ .nulls) : Comparable c := by
  cases c <;> first | exact h | exact absurd rfl hnull | exact h.elim

/-- The values of a column that are not `NULL`. -/
theorem Stored.comparable (h : Stored type stored) (hnull : stored ≠ .nulls)
    (htype : type ∈ [AttrType.ints, .floats, .chars, .dates]) : Comparable stored ∧ stored.attrType = type := by
  obtain ⟨data, length, rfl⟩ := h.resolve_left hnull
  simp only [List.mem_cons, List.not_mem_nil, or_false] at htype
  rcases htype with rfl | rfl | rfl | rfl
  · exact ⟨trivial, rfl⟩
  · exact ⟨trivial, rfl⟩
  · exact ⟨noNul_takeWhile _, rfl⟩
  · exact ⟨trivial, rfl⟩

theorem attrType_eq_nulls {v : Value} (h : v.attrType = .nulls) : v = .nulls := by
  cases v <;> first | rfl | cases h

/-- A comparison in which neither side is converted beforehand. -/
theorem condition_swap_comparable (hop : op.Relational) (hv : Comparable stored) (hc : Comparable c)
    (hchars : stored.attrType = .chars ↔ c.attrType = .chars) (htype : c.attrType ≠ .chars ∨ type = .chars)
    (prepare prepare' : DateMemory) (memory memory' : CompareMemory) :
    condition lib prepare memory op (.field type) (.value c) stored =
      condition lib prepare' memory' op.flipped (.value c) (.field type) stored := by
  have hsym : CompareSymmetric lib op stored c := compareSymmetric_of_chars_iff hop hv hc hchars
  rw [condition_field_value hop htype, condition_value_field hop.flipped, (hsym memory memory').1]

/-- A text is not compared with a number. -/
theorem compare_text_number (hop : op.Relational) {t : Bytes} (hc : Parsed c) (hchars : c.attrType ≠ .chars)
    (memory : CompareMemory) :
    (Value.compare lib memory op (.texts t) c).1 = false ∧ (c.compare lib memory op (.texts t)).1 = false := by
  have his : op ≠ .is := hop.ne (by decide)
  have hisnot : op ≠ .isNot := hop.ne (by decide)
  cases c <;> first | exact hc.elim | exact absurd rfl hchars | skip
  all_goals simp [Value.compare, his, hisnot, Value.isNull, Value.attrType, Value.compareOtherType]

theorem condition_swap (hop : op.Relational) (hstored : Stored type stored) (hnull : stored ≠ .nulls) (hc : Parsed c)
    (hcnull : c ≠ .nulls) (hside : EitherSide type c.attrType)
    (htype : type ∈ [AttrType.ints, .floats, .chars, .texts, .dates]) (prepare prepare' : DateMemory)
    (memory memory' : CompareMemory) :
    condition lib prepare memory op (.field type) (.value c) stored =
      condition lib prepare' memory' op.flipped (.value c) (.field type) stored := by
  have hcomparable := hc.comparable hcnull
  have hside' := hside.resolve_left fun h => hcnull (attrType_eq_nulls h)
  by_cases hchars : c.attrType = .chars
  · have hnumber : (type = .ints ∨ type = .floats) ∨ type = .chars := by
      rcases hside' with h | h | h | h
      · exact Or.inl (Or.inl h)
      · exact Or.inl (Or.inr h)
      · exact Or.inr h.1
      · exact absurd hchars h.2
    rcases hnumber with hnumber | rfl
    · have hne : type ≠ .chars ∧ type ≠ .dates := by
        rcases hnumber with rfl | rfl <;> exact ⟨by decide, by decide⟩
      obtain ⟨s, rfl⟩ := Value.eq_chars hchars
      rw [condition_field_string hop hne.1 hne.2, condition_value_field hop.flipped,
        compare_number_string hop hc hnull ⟨type, hnumber, hstored⟩ memory memory']
    · obtain ⟨hv, hattr⟩ := hstored.comparable hnull (by decide)
      exact condition_swap_comparable hop hv hcomparable (iff_of_true hattr hchars) (Or.inr rfl) _ _ _ _
  · by_cases htexts : type = .texts
    · subst htexts
      obtain ⟨t, -, rfl⟩ := hstored.texts hnull
      rw [condition_field_value hop (Or.inl hchars), condition_value_field hop.flipped,
        (compare_text_number hop hc hchars memory).1, (compare_text_number hop.flipped hc hchars memory').2]
    · have hmem : type ∈ [AttrType.ints, .floats, .chars, .dates] := by
        simp only [List.mem_cons, List.not_mem_nil, or_false] at htype ⊢
        tauto
      obtain ⟨hv, hattr⟩ := hstored.comparable hnull hmem
      have hnot : stored.attrType ≠ .chars := by
        rw [hattr]
        rintro rfl
        rcases hside' with h | h | h | h
        · cases h
        · cases h
        · exact hchars h.2
        · exact absurd h.1 (by decide)
      exact condition_swap_comparable hop hv hcomparable (iff_of_false hnot hchars) (Or.inl hchars) _ _ _ _

theorem condition_null (hop : op.Relational) (hside : EitherSide type c.attrType) (h : c.isNull ∨ stored.isNull)
    (prepare prepare' : DateMemory) (memory memory' : CompareMemory) :
    condition lib prepare memory op (.field type) (.value c) stored =
      condition lib prepare' memory' op.flipped (.value c) (.field type) stored := by
  rw [condition_value_field hop.flipped, compare_null hop.flipped h]
  by_cases hplain : c.attrType ≠ .chars ∨ type = .chars
  · rw [condition_field_value hop hplain, compare_null hop h.symm]
  · obtain ⟨hchars, htype⟩ := not_or.mp hplain
    obtain ⟨s, rfl⟩ := Value.eq_chars (not_not.mp hchars)
    have hstored : stored.isNull = true := h.resolve_left (by simp [Value.isNull, Value.attrType])
    have hdates : type ≠ .dates := by
      rintro rfl
      exact absurd hside (show ¬EitherSide .dates .chars by decide)
    rw [condition_field_string hop htype hdates, compare_null hop (Or.inl hstored)]

theorem sidesAgree_of_eitherSide (hop : op.Relational) (htype : type ∈ [AttrType.ints, .floats, .chars, .texts, .dates])
    (hc : Parsed c) (hside : EitherSide type c.attrType) : SidesAgree lib op type c := by
  intro stored hstored prepare prepare' memory memory'
  constructor
  · by_cases hnull : c.isNull ∨ stored.isNull
    · exact condition_null hop hside hnull _ _ _ _
    · obtain ⟨hcnull, hsnull⟩ := not_or.mp hnull
      refine condition_swap hop hstored ?_ hc ?_ hside htype _ _ _ _
      · rintro rfl
        exact hsnull rfl
      · rintro rfl
        exact hcnull rfl
  · rintro s t rfl hstr htype'
    have hcolumn : type = .chars := by
      refine htype'.resolve_right ?_
      rintro rfl
      exact absurd hside (show ¬EitherSide .texts .chars by decide)
    subst hcolumn
    have hstored' : stored = .chars t ∧ NoNul t := by
      obtain ⟨data, length, rfl⟩ := hstored.resolve_left (by rintro rfl; cases hstr)
      obtain rfl := Option.some.inj hstr
      exact ⟨rfl, noNul_takeWhile _⟩
    obtain ⟨rfl, ht⟩ := hstored'
    have hlike : ¬(op = .like ∨ op = .notLike) := not_or.mpr ⟨hop.ne (by decide), hop.ne (by decide)⟩
    rw [condition_field_value hop (Or.inr rfl), compare_sameType hop (v := .chars t) (w := .chars s) ht hc memory rfl]
    simp only [Value.cmpSameType, if_neg hlike]

/-! ## Where they do not -/

/-- Every comparison is true of equal things, or whenever the left side is greater, or whenever it is less. -/
theorem CompOp.Relational.holds_some (hop : op.Relational) :
    op.holds 0 = true ∨ (∀ d : ℤ, 0 < d → op.holds d = true) ∨ (∀ d : ℤ, d < 0 → op.holds d = true) := by
  simp only [CompOp.Relational, List.mem_cons, List.not_mem_nil, or_false] at hop
  rcases hop with rfl | rfl | rfl | rfl | rfl | rfl
  · exact Or.inl rfl
  · exact Or.inr (Or.inl fun d hd => by simpa [CompOp.holds] using ne_of_gt hd)
  · exact Or.inr (Or.inr fun d hd => by simpa [CompOp.holds] using hd)
  · exact Or.inl rfl
  · exact Or.inr (Or.inl fun d hd => by simpa [CompOp.holds] using hd)
  · exact Or.inl rfl

theorem compareStringValue_append {s : Bytes} (hs : NoNul s) (b : UInt8) :
    compareStringValue (s ++ [b]) s = signedChar b := by
  induction s with
  | nil => exact compareStringValue_nil_right b []
  | cons d s ih =>
    obtain ⟨hd, hs⟩ := noNul_cons.mp hs
    rw [List.cons_append, compareStringValue_cons hd, if_pos rfl]
    exact ih hs

theorem stored_texts {t : Bytes} (ht : NoNul t) : Stored .texts (.texts t) := by
  refine Or.inr ⟨t, t.length, ?_⟩
  have hall : t.takeWhile (· ≠ 0) = t := by
    rw [List.takeWhile_eq_self_iff]
    intro b hb
    have hne : b ≠ 0 := fun h => ht (h ▸ hb)
    simpa using hne
  rw [Value.setData, List.take_length, hall]

theorem stored_dates {d : ℤ} (hlo : 0 ≤ d) (hhi : d < 2 ^ 31) : Stored .dates (.dates d) := by
  obtain ⟨n, rfl⟩ := Int.eq_ofNat_of_zero_le hlo
  refine Or.inr ⟨[UInt8.ofNat n, UInt8.ofNat (n / 256), UInt8.ofNat (n / 65536), UInt8.ofNat (n / 16777216)], 4, ?_⟩
  have hword : word32 [UInt8.ofNat n, UInt8.ofNat (n / 256), UInt8.ofNat (n / 65536), UInt8.ofNat (n / 16777216)] = n := by
    simp only [word32, List.getD_cons_zero, List.getD_cons_succ, UInt8.toNat_ofNat']
    omega
  rw [Value.setData, intOfBytes, hword, toInt32_of_range (by omega) hhi]

/-- Some text is compared with the string with a true result, which the float of the string never gives. -/
theorem not_sidesAgree_texts (hop : op.Relational) {s : Bytes} (hs : NoNul s) : ¬SidesAgree lib op .texts (.chars s) := by
  intro h
  obtain ⟨t, ht, htrue⟩ : ∃ t, NoNul t ∧ op.holds (compareStringValue t s) = true := by
    have hone : NoNul (s ++ [1]) := fun hmem => (List.mem_append.mp hmem).elim hs (by decide)
    have hhigh : NoNul (s ++ [128]) := fun hmem => (List.mem_append.mp hmem).elim hs (by decide)
    rcases hop.holds_some with hzero | hpos | hneg
    · exact ⟨s, hs, by rw [(compareStringValue_zero_iff hs hs).mpr rfl, hzero]⟩
    · exact ⟨s ++ [1], hone, by rw [compareStringValue_append hs]; exact hpos _ (by decide)⟩
    · exact ⟨s ++ [128], hhigh, by rw [compareStringValue_append hs]; exact hneg _ (by decide)⟩
  have hresult := (h (.texts t) (stored_texts ht) ⟨0, 0, 0⟩ ⟨0, 0, 0⟩ ⟨0, ⟨0, 0, 0⟩⟩ ⟨0, ⟨0, 0, 0⟩⟩).2 s t rfl rfl
    (Or.inr rfl)
  have hfalse : (Value.compare lib ⟨0, ⟨0, 0, 0⟩⟩ op (.texts t) (.floats (lib.strToFloat s))).1 = false :=
    (compare_text_number (c := .floats (lib.strToFloat s)) hop trivial (fun h => by cases h) ⟨0, ⟨0, 0, 0⟩⟩).1
  rw [condition_field_string hop (fun h => by cases h) (fun h => by cases h), hfalse, htrue] at hresult
  cases hresult

/-- A string that is no date is refused in one order only; with one that is, some date has a true comparison there. -/
theorem not_sidesAgree_dates (hop : op.Relational) {s : Bytes} (hs : NoNul s) : ¬SidesAgree lib op .dates (.chars s) := by
  intro h
  have hmemory : CompareMemory := ⟨0, ⟨0, 0, 0⟩⟩
  have hagree : ∀ {e : ℤ}, 0 ≤ e → e < 2 ^ 31 →
      (if convertStringToDate lib.overflow hmemory.date s = -1 then Except.error RC.failure
        else .ok (.booleans (Value.compare lib hmemory op (.dates e)
          (.dates (convertStringToDate lib.overflow hmemory.date s))).1)) = Except.ok (Value.booleans false) := by
    intro e hlo hhi
    have hsides := (h (.dates e) (stored_dates hlo hhi) hmemory.date hmemory.date hmemory hmemory).1
    have hright : (Value.compare lib hmemory op.flipped (.chars s) (.dates e)).1 = false := by
      rw [compare_otherType hop.flipped (v := .chars s) (w := .dates e) hs trivial hmemory fun h => by cases h]
      rfl
    rwa [condition_date_string hop, condition_value_field hop.flipped, hright] at hsides
  by_cases hdate : convertStringToDate lib.overflow hmemory.date s = -1
  · have hzero := hagree le_rfl (by norm_num)
    rw [if_pos hdate] at hzero
    cases hzero
  · obtain ⟨hlo, hhi⟩ := convert_range lib.overflow hdate
    simp only [if_neg hdate] at hagree
    generalize convertStringToDate lib.overflow hmemory.date s = d at hlo hhi hagree
    have hfalse : ∀ {e : ℤ}, 0 ≤ e → e < 2 ^ 31 → op.holds (compareIntValue e d) = false := by
      intro e he he'
      have hresult := hagree he he'
      rw [compare_sameType hop (v := .dates e) (w := .dates d) trivial trivial hmemory rfl] at hresult
      exact Value.booleans.inj (Except.ok.inj hresult)
    rcases hop.holds_some with hzero | hpos | hneg
    · have heq := hfalse (e := d) (by omega) (by omega)
      rw [(Stored.compareIntValue_zero_iff d d).mpr rfl, hzero] at heq
      cases heq
    · have hgreater := hfalse (e := d + 1) (by omega) (by omega)
      rw [hpos _ (by unfold compareIntValue; rw [if_pos (by omega)]; decide)] at hgreater
      cases hgreater
    · have hless := hfalse (e := d - 1) (by omega) (by omega)
      rw [hneg _ (by unfold compareIntValue; rw [if_neg (by omega), if_pos (by omega)]; decide)] at hless
      cases hless

/-- A column of strings and a number, whose order decides whether the memory is compared. -/
theorem not_sidesAgree_chars (hop : op.Relational) (hc : c.attrType = .ints ∨ c.attrType = .floats) :
    ¬SidesAgree lib op .chars c := by
  intro h
  have hnul : NoNul [] := by simp [NoNul]
  have hmemory : CompareMemory := ⟨0, ⟨0, 0, 0⟩⟩
  have hchars : c.attrType ≠ .chars := by
    rintro heq
    rcases hc with hc | hc <;> exact absurd (hc.symm.trans heq) (by decide)
  obtain ⟨memory, hresult⟩ : ∃ memory, (c.compare lib memory op.flipped (.chars [])).1 =
      !(Value.compare lib hmemory op (.chars []) c).1 := exists_memory_number hop.flipped hnul hc _
  have hsides := (h (.chars []) (Or.inr ⟨[], 0, rfl⟩) hmemory.date hmemory.date hmemory memory).1
  rw [condition_field_value hop (Or.inl hchars), condition_value_field hop.flipped, hresult] at hsides
  exact Bool.not_ne_self _ (Value.booleans.inj (Except.ok.inj hsides)).symm

/-- The order does not matter, and strings are compared as strings, for these types and for no others. -/
theorem sidesAgree_iff (lib : CompareLib) (hop : op.Relational)
    (htype : type ∈ [AttrType.ints, .floats, .chars, .texts, .dates]) (hc : Parsed c) :
    SidesAgree lib op type c ↔ EitherSide type c.attrType := by
  refine ⟨fun h => ?_, sidesAgree_of_eitherSide hop htype hc⟩
  by_contra hside
  have hnull : c.attrType ≠ .nulls := fun h => hside (Or.inl h)
  have hconstant : (c.attrType = .ints ∨ c.attrType = .floats) ∨ c.attrType = .chars := by
    cases c <;> first | exact hc.elim | exact absurd rfl hnull | simp [Value.attrType]
  have hstring : type = .texts ∨ type = .dates → c.attrType = .chars := by
    intro htype
    by_contra hne
    exact hside (Or.inr (Or.inr (Or.inr (Or.inr ⟨htype, hne⟩))))
  simp only [List.mem_cons, List.not_mem_nil, or_false] at htype
  rcases htype with rfl | rfl | rfl | rfl | rfl
  · exact hside (Or.inr (Or.inl rfl))
  · exact hside (Or.inr (Or.inr (Or.inl rfl)))
  · cases hconstant with
    | inl hnumber => exact not_sidesAgree_chars hop hnumber h
    | inr hchars => exact hside (Or.inr (Or.inr (Or.inr (Or.inl ⟨rfl, hchars⟩))))
  · obtain ⟨s, rfl⟩ := Value.eq_chars (hstring (Or.inl rfl))
    exact not_sidesAgree_texts hop hc h
  · obtain ⟨s, rfl⟩ := Value.eq_chars (hstring (Or.inr rfl))
    exact not_sidesAgree_dates hop hc h

end

theorem sidesAgree_iff_five : SidesAgree digitsLib .lessThan .ints (.chars [53]) :=
  (sidesAgree_iff (c := .chars [53]) digitsLib (by decide) (by decide) (by unfold Parsed NoNul; decide)).mpr (by decide)

/-- A column of texts is not equal to its own contents; a date is refused, or is not equal to itself. -/
theorem not_sidesAgree_text_date :
    condition digitsLib ⟨0, 0, 0⟩ ⟨0, 0, 0, 0⟩ .equalTo (.field .texts) (.value (.chars [97])) (.texts [97]) =
        .ok (.booleans false) ∧
      ¬SidesAgree digitsLib .equalTo .texts (.chars [97]) ∧
      condition digitsLib ⟨0, 0, 0⟩ ⟨0, 0, 0, 0⟩ .equalTo (.field .dates) (.value (.chars [97])) (.dates 20000101) =
        .error .failure ∧
      condition digitsLib ⟨0, 0, 0⟩ ⟨0, 0, 0, 0⟩ .equalTo (.value (.chars [97])) (.field .dates) (.dates 20000101) =
        .ok (.booleans false) := by
  have htext : condition digitsLib ⟨0, 0, 0⟩ ⟨0, 0, 0, 0⟩ .equalTo (.field .texts) (.value (.chars [97])) (.texts [97]) =
      .ok (.booleans false) := by rfl
  refine ⟨htext, fun h => ?_, by rfl, by rfl⟩
  have hstored : Stored .texts (.texts [97]) := Or.inr ⟨[97], 1, rfl⟩
  have hsides := (h (.texts [97]) hstored ⟨0, 0, 0⟩ ⟨0, 0, 0⟩ ⟨0, 0, 0, 0⟩ ⟨0, 0, 0, 0⟩).2 [97] [97] rfl rfl (Or.inr rfl)
  rw [htext] at hsides
  exact absurd (Value.booleans.inj (Except.ok.inj hsides)) (by decide)

end Landbase.Sql
