import Landbase.Sql.CompareValue
import Landbase.Lib.Comparator

/-! # The comparison of `ORDER BY`

`comprule` of `sql/operator/order_physical_operator.h`, which is handed to `std::sort`. It goes through the rules, takes
the cells of both tuples, and the first rule on which they are not equal decides.

`std::sort` wants a strict weak ordering. On integers, dates and `NULL`s there is one; on strings there is one as long as
no three rows tie on the rules in front and straddle on this one: a string, the string with an ASCII character behind
it, and the string with a byte from `0x80` on behind it are each less than the next (`orderedRows_iff`).
-/

namespace Landbase.Sql
open Landbase.Index Landbase.Lib
set_option autoImplicit false

/-! ## One column -/

/-- The column types that the sort is specified for. -/
def Sortable (type : AttrType) : Prop := type = .ints ∨ type = .dates ∨ type = .chars ∨ type = .texts

/-- A value of a column: `NULL`, or what `set_data` makes of the stored bytes. -/
def Stored (type : AttrType) (v : Value) : Prop :=
  v = .nulls ∨ ∃ (data : Bytes) (length : ℕ), v = Value.setData type data length

/-- The sign of a comparison. -/
def CompOp.sign : CompOp → ℤ
  | .lessThan => -1
  | .greatThan => 1
  | _ => 0

/-- The bytes of a string value. -/
def Value.str : Value → Option Bytes
  | .chars s | .texts s => some s
  | _ => none

/-- Three values that are strings and straddle. -/
def Straddling (x y z : Value) : Prop :=
  ∃ s t u, x.str = some s ∧ y.str = some t ∧ z.str = some u ∧ Straddles s t u

theorem CompOp.sign_ofResult (c : ℤ) : (CompOp.ofResult c).sign = c.sign := by
  unfold CompOp.ofResult
  rcases lt_trichotomy c 0 with h | h | h
  · rw [if_neg (ne_of_lt h), if_pos h, Int.sign_eq_neg_one_of_neg h]
    rfl
  · rw [if_pos h, h]
    rfl
  · rw [if_neg (ne_of_gt h), if_neg (not_lt_of_gt h), if_pos h, Int.sign_eq_one_of_pos h]
    rfl

namespace Value

theorem compareValue_null_left {v : Value} (hv : v ≠ .nulls) : compareValue .nulls v = .lessThan := by
  cases v <;> first | rfl | exact absurd rfl hv

theorem compareValue_null_right {v : Value} (hv : v ≠ .nulls) : compareValue v .nulls = .greatThan := by
  cases v <;> first | rfl | exact absurd rfl hv

end Value

namespace Stored

variable {type : AttrType} {x y z v : Value}

theorem ints (h : Stored .ints v) (hv : v ≠ .nulls) : ∃ i, v = .ints i := by
  rcases h with h | ⟨data, length, rfl⟩
  · exact absurd h hv
  · exact ⟨_, rfl⟩

theorem dates (h : Stored .dates v) (hv : v ≠ .nulls) : ∃ d, v = .dates d := by
  rcases h with h | ⟨data, length, rfl⟩
  · exact absurd h hv
  · exact ⟨_, rfl⟩

theorem chars (h : Stored .chars v) (hv : v ≠ .nulls) : ∃ s, NoNul s ∧ v = .chars s := by
  rcases h with h | ⟨data, length, rfl⟩
  · exact absurd h hv
  · exact ⟨_, noNul_takeWhile _, rfl⟩

theorem texts (h : Stored .texts v) (hv : v ≠ .nulls) : ∃ s, NoNul s ∧ v = .texts s := by
  rcases h with h | ⟨data, length, rfl⟩
  · exact absurd h hv
  · exact ⟨_, noNul_takeWhile _, rfl⟩

/-! The comparison of two values of a column that are not `NULL`. -/

theorem sign_ints (i j : ℤ) :
    (Value.compareValue (.ints i) (.ints j)).sign = (compareIntValue i j).sign := CompOp.sign_ofResult _

theorem sign_dates (i j : ℤ) :
    (Value.compareValue (.dates i) (.dates j)).sign = (compareIntValue i j).sign := CompOp.sign_ofResult _

theorem sign_chars (s t : Bytes) :
    (Value.compareValue (.chars s) (.chars t)).sign = (compareStringValue s t).sign := CompOp.sign_ofResult _

theorem sign_texts (s t : Bytes) :
    (Value.compareValue (.texts s) (.texts t)).sign = (compareStringValue s t).sign := CompOp.sign_ofResult _

theorem compareIntValue_swap (i j : ℤ) : compareIntValue j i = -compareIntValue i j := by
  unfold compareIntValue
  split <;> split <;> omega

theorem compareIntValue_zero_iff (i j : ℤ) : compareIntValue i j = 0 ↔ i = j := (ThreeWay.of_ite i j).zero_iff

theorem compareIntValue_nonpos_iff (i j : ℤ) : compareIntValue i j ≤ 0 ↔ i ≤ j := by
  rw [← not_lt, ← not_lt]
  exact not_congr (ThreeWay.of_ite i j).pos_iff

theorem sign_swap (htype : Sortable type) (hx : Stored type x) (hy : Stored type y) :
    (Value.compareValue y x).sign = -(Value.compareValue x y).sign := by
  by_cases hx0 : x = .nulls
  · by_cases hy0 : y = .nulls
    · rw [hx0, hy0]
      rfl
    · rw [hx0, Value.compareValue_null_left hy0, Value.compareValue_null_right hy0]
      rfl
  by_cases hy0 : y = .nulls
  · rw [hy0, Value.compareValue_null_left hx0, Value.compareValue_null_right hx0]
    rfl
  rcases htype with rfl | rfl | rfl | rfl
  · obtain ⟨i, rfl⟩ := hx.ints hx0
    obtain ⟨j, rfl⟩ := hy.ints hy0
    rw [sign_ints, sign_ints, compareIntValue_swap, Int.sign_neg]
  · obtain ⟨i, rfl⟩ := hx.dates hx0
    obtain ⟨j, rfl⟩ := hy.dates hy0
    rw [sign_dates, sign_dates, compareIntValue_swap, Int.sign_neg]
  · obtain ⟨s, hs, rfl⟩ := hx.chars hx0
    obtain ⟨t, ht, rfl⟩ := hy.chars hy0
    rw [sign_chars, sign_chars, compareStringValue_swap hs ht, Int.sign_neg]
  · obtain ⟨s, hs, rfl⟩ := hx.texts hx0
    obtain ⟨t, ht, rfl⟩ := hy.texts hy0
    rw [sign_texts, sign_texts, compareStringValue_swap hs ht, Int.sign_neg]

theorem sign_zero_iff (htype : Sortable type) (hx : Stored type x) (hy : Stored type y) :
    (Value.compareValue x y).sign = 0 ↔ x = y := by
  by_cases hx0 : x = .nulls
  · by_cases hy0 : y = .nulls
    · rw [hx0, hy0]
      exact iff_of_true rfl rfl
    · rw [hx0, Value.compareValue_null_left hy0]
      exact iff_of_false (by decide) (Ne.symm hy0)
  by_cases hy0 : y = .nulls
  · rw [hy0, Value.compareValue_null_right hx0]
    exact iff_of_false (by decide) hx0
  rcases htype with rfl | rfl | rfl | rfl
  · obtain ⟨i, rfl⟩ := hx.ints hx0
    obtain ⟨j, rfl⟩ := hy.ints hy0
    rw [sign_ints, Int.sign_eq_zero_iff_zero, compareIntValue_zero_iff, Value.ints.injEq]
  · obtain ⟨i, rfl⟩ := hx.dates hx0
    obtain ⟨j, rfl⟩ := hy.dates hy0
    rw [sign_dates, Int.sign_eq_zero_iff_zero, compareIntValue_zero_iff, Value.dates.injEq]
  · obtain ⟨s, hs, rfl⟩ := hx.chars hx0
    obtain ⟨t, ht, rfl⟩ := hy.chars hy0
    rw [sign_chars, Int.sign_eq_zero_iff_zero, compareStringValue_zero_iff hs ht, Value.chars.injEq]
  · obtain ⟨s, hs, rfl⟩ := hx.texts hx0
    obtain ⟨t, ht, rfl⟩ := hy.texts hy0
    rw [sign_texts, Int.sign_eq_zero_iff_zero, compareStringValue_zero_iff hs ht, Value.texts.injEq]

theorem sign_nonpos_iff (c : ℤ) : c.sign ≤ 0 ↔ c ≤ 0 := by
  rw [← not_lt, ← not_lt, Int.sign_pos_iff]

theorem sign_trans (htype : Sortable type) (hx : Stored type x) (hy : Stored type y) (hz : Stored type z)
    (hxyz : ¬Straddling x y z) (hyzx : ¬Straddling y z x) (hzxy : ¬Straddling z x y)
    (hxy : (Value.compareValue x y).sign ≤ 0) (hyz : (Value.compareValue y z).sign ≤ 0) :
    (Value.compareValue x z).sign ≤ 0 := by
  by_cases hx0 : x = .nulls
  · by_cases hz0 : z = .nulls
    · rw [hx0, hz0]
      exact le_refl 0
    · rw [hx0, Value.compareValue_null_left hz0]
      decide
  by_cases hy0 : y = .nulls
  · rw [hy0, Value.compareValue_null_right hx0] at hxy
    exact absurd hxy (by decide)
  by_cases hz0 : z = .nulls
  · rw [hz0, Value.compareValue_null_right hy0] at hyz
    exact absurd hyz (by decide)
  have hstring : ∀ {mk : Bytes → Value}, (∀ s, (mk s).str = some s) →
      (∀ s t, (Value.compareValue (mk s) (mk t)).sign = (compareStringValue s t).sign) →
      ∀ {s t u : Bytes}, NoNul s → NoNul t → NoNul u → x = mk s → y = mk t → z = mk u →
        (Value.compareValue x z).sign ≤ 0 := by
    rintro mk hmk hsign s t u hs ht hu rfl rfl rfl
    rw [hsign, sign_nonpos_iff] at hxy hyz ⊢
    exact compareStringValue_trans hs ht hu (fun h => hxyz ⟨s, t, u, hmk s, hmk t, hmk u, h⟩)
      (fun h => hyzx ⟨t, u, s, hmk t, hmk u, hmk s, h⟩) (fun h => hzxy ⟨u, s, t, hmk u, hmk s, hmk t, h⟩) hxy hyz
  rcases htype with rfl | rfl | rfl | rfl
  · obtain ⟨i, rfl⟩ := hx.ints hx0
    obtain ⟨j, rfl⟩ := hy.ints hy0
    obtain ⟨k, rfl⟩ := hz.ints hz0
    rw [sign_ints, sign_nonpos_iff, compareIntValue_nonpos_iff] at hxy hyz ⊢
    exact le_trans hxy hyz
  · obtain ⟨i, rfl⟩ := hx.dates hx0
    obtain ⟨j, rfl⟩ := hy.dates hy0
    obtain ⟨k, rfl⟩ := hz.dates hz0
    rw [sign_dates, sign_nonpos_iff, compareIntValue_nonpos_iff] at hxy hyz ⊢
    exact le_trans hxy hyz
  · obtain ⟨s, hs, hxs⟩ := hx.chars hx0
    obtain ⟨t, ht, hyt⟩ := hy.chars hy0
    obtain ⟨u, hu, hzu⟩ := hz.chars hz0
    exact hstring (fun _ => rfl) sign_chars hs ht hu hxs hyt hzu
  · obtain ⟨s, hs, hxs⟩ := hx.texts hx0
    obtain ⟨t, ht, hyt⟩ := hy.texts hy0
    obtain ⟨u, hu, hzu⟩ := hz.texts hz0
    exact hstring (fun _ => rfl) sign_texts hs ht hu hxs hyt hzu

/-- Values that straddle are less than one another in a circle. -/
theorem sign_cycle (htype : Sortable type) (hx : Stored type x) (hy : Stored type y) (hz : Stored type z)
    (h : Straddling x y z) : (Value.compareValue x y).sign = -1 ∧ (Value.compareValue y z).sign = -1 ∧
      (Value.compareValue z x).sign = -1 := by
  obtain ⟨s, t, u, hs, ht, hu, h⟩ := h
  have hne : ∀ {v : Value} {s : Bytes}, v.str = some s → v ≠ .nulls := by
    rintro v s hv rfl
    cases hv
  have hcircle : NoNul s → NoNul t → NoNul u → (compareStringValue s t).sign = -1 ∧
      (compareStringValue t u).sign = -1 ∧ (compareStringValue u s).sign = -1 := fun hs ht hu =>
    have hcycle := h.cycle hs ht hu
    ⟨Int.sign_eq_neg_one_of_neg hcycle.1, Int.sign_eq_neg_one_of_neg hcycle.2.1,
      Int.sign_eq_neg_one_of_neg hcycle.2.2⟩
  rcases htype with rfl | rfl | rfl | rfl
  · obtain ⟨i, rfl⟩ := hx.ints (hne hs)
    cases hs
  · obtain ⟨i, rfl⟩ := hx.dates (hne hs)
    cases hs
  · obtain ⟨s', hs', rfl⟩ := hx.chars (hne hs)
    obtain ⟨t', ht', rfl⟩ := hy.chars (hne ht)
    obtain ⟨u', hu', rfl⟩ := hz.chars (hne hu)
    cases hs
    cases ht
    cases hu
    rw [sign_chars, sign_chars, sign_chars]
    exact hcircle hs' ht' hu'
  · obtain ⟨s', hs', rfl⟩ := hx.texts (hne hs)
    obtain ⟨t', ht', rfl⟩ := hy.texts (hne ht)
    obtain ⟨u', hu', rfl⟩ := hz.texts (hne hu)
    cases hs
    cases ht
    cases hu
    rw [sign_texts, sign_texts, sign_texts]
    exact hcircle hs' ht' hu'

end Stored

/-! ## `comprule` -/

section Rules

variable {T S : Type} (findCell : T → S → Option Value)

/-- What the switch of `comprule` does with the result of a rule; `rest` is what the following rules say. -/
def afterRule (asc rest : Bool) : CompOp → Bool
  | .equalTo => rest
  | .lessThan => asc
  | .greatThan => !asc
  | _ => rest

/-- `comprule` from a rule on. A cell that is not found leaves `vleft` or `vright` as it is. -/
def compruleFrom : List (S × Bool) → Value → Value → T → T → Bool
  | [], _, _, _, _ => false
  | (spec, asc) :: rules, vleft, vright, left, right =>
    afterRule asc
      (compruleFrom rules ((findCell left spec).getD vleft) ((findCell right spec).getD vright) left right)
      (Value.compareValue ((findCell left spec).getD vleft) ((findCell right spec).getD vright))

/-- `OrderPhysicalOperator::comprule`: the rules are the columns, each with whether it is ascending. -/
def comprule (orderRules : List (S × Bool)) (left right : T) : Bool :=
  compruleFrom findCell orderRules .nulls .nulls left right

/-- The rows under comparison hold values of the columns that the rules name. -/
structure Rows (columnType : S → AttrType) (orderRules : List (S × Bool)) (rows : T → Prop) : Prop where
  sortable : ∀ rule ∈ orderRules, Sortable (columnType rule.1)
  stored : ∀ rule ∈ orderRules, ∀ w, rows w → ∃ v, findCell w rule.1 = some v ∧ Stored (columnType rule.1) v

/-- The rows hold the same values in the columns of the rules. -/
def Ties (orderRules : List (S × Bool)) (l r : T) : Prop := ∀ rule ∈ orderRules, findCell l rule.1 = findCell r rule.1

/-- What the sort relies on: a strict weak ordering, in which `NULL` is below everything else in ascending order. -/
structure OrderedRows (orderRules : List (S × Bool)) (rows : T → Prop) : Prop where
  strictWeak : StrictWeak (comprule findCell orderRules) rows
  nullFirst : ∀ pre spec post, orderRules = pre ++ (spec, true) :: post → ∀ l r, rows l → rows r →
    Ties findCell pre l r → findCell l spec = some .nulls → findCell r spec ≠ some .nulls →
      comprule findCell orderRules l r ∧ ¬comprule findCell orderRules r l

/-- Three rows that tie on the rules in front and straddle on the next one. -/
def StraddledRows (orderRules : List (S × Bool)) (rows : T → Prop) : Prop :=
  ∃ pre spec asc post, orderRules = pre ++ (spec, asc) :: post ∧ ∃ x y z, rows x ∧ rows y ∧ rows z ∧
    Ties findCell pre x y ∧ Ties findCell pre x z ∧ ∃ vx vy vz, findCell x spec = some vx ∧
      findCell y spec = some vy ∧ findCell z spec = some vz ∧ Straddling vx vy vz

/-! ## The three-way result behind `comprule` -/

/-- The comparison of one rule. -/
def ruleResult (rule : S × Bool) (l r : T) : ℤ :=
  let sign := (Value.compareValue ((findCell l rule.1).getD .nulls) ((findCell r rule.1).getD .nulls)).sign
  if rule.2 then sign else -sign

/-- The first rule whose comparison is not zero decides. -/
def rulesResult : List (S × Bool) → T → T → ℤ
  | [], _, _ => 0
  | rule :: rules, l, r => if ruleResult findCell rule l r ≠ 0 then ruleResult findCell rule l r else rulesResult rules l r

variable {findCell} {columnType : S → AttrType} {rule : S × Bool} {orderRules : List (S × Bool)} {rows : T → Prop}

theorem Rows.mono {rows' : T → Prop} (h : Rows findCell columnType orderRules rows) (hrows : ∀ w, rows' w → rows w) :
    Rows findCell columnType orderRules rows' :=
  ⟨h.sortable, fun rule hrule w hw => h.stored rule hrule w (hrows w hw)⟩

theorem Rows.head (h : Rows findCell columnType (rule :: orderRules) rows) {w : T} (hw : rows w) :
    ∃ v, findCell w rule.1 = some v ∧ Stored (columnType rule.1) v :=
  h.stored rule (by simp) w hw

theorem Rows.tail (h : Rows findCell columnType (rule :: orderRules) rows) :
    Rows findCell columnType orderRules rows :=
  ⟨fun r hr => h.sortable r (List.mem_cons_of_mem _ hr), fun r hr => h.stored r (List.mem_cons_of_mem _ hr)⟩

theorem ruleResult_of_found {l r : T} {vl vr : Value} (hl : findCell l rule.1 = some vl)
    (hr : findCell r rule.1 = some vr) : ruleResult findCell rule l r =
      if rule.2 then (Value.compareValue vl vr).sign else -(Value.compareValue vl vr).sign := by
  rw [ruleResult, hl, hr]
  rfl

theorem compruleFrom_eq (h : Rows findCell columnType orderRules rows) {l r : T} (hl : rows l) (hr : rows r)
    (vleft vright : Value) :
    compruleFrom findCell orderRules vleft vright l r = decide (rulesResult findCell orderRules l r < 0) := by
  induction orderRules generalizing vleft vright with
  | nil => rfl
  | cons rule rules ih =>
    obtain ⟨spec, asc⟩ := rule
    obtain ⟨vl, hvl, -⟩ := h.head hl
    obtain ⟨vr, hvr, -⟩ := h.head hr
    rw [compruleFrom, ih h.tail, rulesResult, ruleResult_of_found hvl hvr, hvl, hvr, Option.getD_some,
      Option.getD_some]
    cases Value.compareValue vl vr <;> cases asc <;> simp [afterRule, CompOp.sign]

theorem comprule_eq (h : Rows findCell columnType orderRules rows) {l r : T} (hl : rows l) (hr : rows r) :
    comprule findCell orderRules l r = decide (rulesResult findCell orderRules l r < 0) :=
  compruleFrom_eq h hl hr _ _

/-- On a rule where the rows hold values of the column. -/
theorem ruleResult_zero_iff (h : Rows findCell columnType (rule :: orderRules) rows) {l r : T} (hl : rows l)
    (hr : rows r) : ruleResult findCell rule l r = 0 ↔ findCell l rule.1 = findCell r rule.1 := by
  obtain ⟨vl, hvl, hsl⟩ := h.head hl
  obtain ⟨vr, hvr, hsr⟩ := h.head hr
  have hzero := hsl.sign_zero_iff (h.sortable rule (by simp)) hsr
  rw [ruleResult_of_found hvl hvr, hvl, hvr, Option.some.injEq, ← hzero]
  split <;> omega

/-- One rule orders the rows that do not straddle on it. -/
theorem ruleResult_consistent (h : Rows findCell columnType (rule :: orderRules) rows)
    (hstraddled : ¬StraddledRows findCell (rule :: orderRules) rows) : Consistent (ruleResult findCell rule) rows := by
  have htype := h.sortable rule (by simp)
  have hno : ∀ {x y z : T} {vx vy vz : Value}, rows x → rows y → rows z → findCell x rule.1 = some vx →
      findCell y rule.1 = some vy → findCell z rule.1 = some vz → ¬Straddling vx vy vz := by
    intro x y z vx vy vz hx hy hz hvx hvy hvz hstraddling
    exact hstraddled ⟨[], rule.1, rule.2, orderRules, rfl, x, y, z, hx, hy, hz, by simp [Ties], by simp [Ties],
      vx, vy, vz, hvx, hvy, hvz, hstraddling⟩
  constructor
  · intro l r hl hr
    obtain ⟨vl, hvl, hsl⟩ := h.head hl
    obtain ⟨vr, hvr, hsr⟩ := h.head hr
    have hswap := hsl.sign_swap htype hsr
    rw [ruleResult_of_found hvl hvr, ruleResult_of_found hvr hvl, hswap]
    split <;> omega
  · intro x y z hx hy hz hxy hyz
    obtain ⟨vx, hvx, hsx⟩ := h.head hx
    obtain ⟨vy, hvy, hsy⟩ := h.head hy
    obtain ⟨vz, hvz, hsz⟩ := h.head hz
    rw [ruleResult_of_found hvx hvy] at hxy
    rw [ruleResult_of_found hvy hvz] at hyz
    rw [ruleResult_of_found hvx hvz]
    cases hasc : rule.2 with
    | true =>
      simp only [hasc, if_true] at hxy hyz ⊢
      exact hsx.sign_trans htype hsy hsz (hno hx hy hz hvx hvy hvz) (hno hy hz hx hvy hvz hvx)
        (hno hz hx hy hvz hvx hvy) hxy hyz
    | false =>
      -- a descending rule compares the other way round
      simp only [hasc, Bool.false_eq_true, if_false] at hxy hyz ⊢
      rw [← hsx.sign_swap htype hsy] at hxy
      rw [← hsy.sign_swap htype hsz] at hyz
      rw [← hsx.sign_swap htype hsz]
      exact hsz.sign_trans htype hsy hsx (hno hz hy hx hvz hvy hvx) (hno hy hx hz hvy hvx hvz)
        (hno hx hz hy hvx hvz hvy) hyz hxy

/-- Rows that tie on a rule and straddle behind it straddle. -/
theorem StraddledRows.cons {a : T} (h : Rows findCell columnType (rule :: orderRules) rows) (ha : rows a)
    (hstraddled : StraddledRows findCell orderRules fun b => rows b ∧ ruleResult findCell rule a b = 0) :
    StraddledRows findCell (rule :: orderRules) rows := by
  obtain ⟨pre, spec, asc, post, rfl, x, y, z, ⟨hx, hax⟩, ⟨hy, hay⟩, ⟨hz, haz⟩, hxy, hxz, hcells⟩ := hstraddled
  rw [ruleResult_zero_iff h ha hx] at hax
  rw [ruleResult_zero_iff h ha hy] at hay
  rw [ruleResult_zero_iff h ha hz] at haz
  refine ⟨rule :: pre, spec, asc, post, rfl, x, y, z, hx, hy, hz, ?_, ?_, hcells⟩
  · exact List.forall_mem_cons.mpr ⟨hax.symm.trans hay, hxy⟩
  · exact List.forall_mem_cons.mpr ⟨hax.symm.trans haz, hxz⟩

theorem rulesResult_consistent (h : Rows findCell columnType orderRules rows)
    (hstraddled : ¬StraddledRows findCell orderRules rows) : Consistent (rulesResult findCell orderRules) rows := by
  induction orderRules generalizing rows with
  | nil => exact ⟨fun _ _ _ _ => iff_of_false (lt_irrefl 0) (lt_irrefl 0), fun _ _ _ _ _ _ _ _ => le_refl 0⟩
  | cons rule rules ih =>
    refine (ruleResult_consistent h hstraddled).lex fun a ha => ?_
    exact ih (h.tail.mono fun _ hb => hb.1) fun htail => hstraddled (htail.cons h ha)

/-- The rules on which two rows tie are passed over. -/
theorem rulesResult_append {pre post : List (S × Bool)} (h : Rows findCell columnType (pre ++ post) rows) {l r : T}
    (hl : rows l) (hr : rows r) (hties : Ties findCell pre l r) :
    rulesResult findCell (pre ++ post) l r = rulesResult findCell post l r := by
  induction pre with
  | nil => rfl
  | cons rule pre ih =>
    have hzero : ruleResult findCell rule l r = 0 := (ruleResult_zero_iff h hl hr).mpr (hties rule (by simp))
    rw [List.cons_append, rulesResult, hzero, if_neg (not_not.mpr rfl)]
    exact ih h.tail fun r hr => hties r (by simp [hr])

theorem rulesResult_head {pre post : List (S × Bool)} (h : Rows findCell columnType (pre ++ rule :: post) rows) {l r : T}
    (hl : rows l) (hr : rows r) (hties : Ties findCell pre l r) {vl vr : Value} (hvl : findCell l rule.1 = some vl)
    (hvr : findCell r rule.1 = some vr) (hsign : (Value.compareValue vl vr).sign ≠ 0) :
    rulesResult findCell (pre ++ rule :: post) l r =
      if rule.2 then (Value.compareValue vl vr).sign else -(Value.compareValue vl vr).sign := by
  rw [rulesResult_append h hl hr hties, rulesResult, ruleResult_of_found hvl hvr, if_pos]
  split <;> omega

/-! ## When the rows are ordered -/

theorem Rows.nullFirst {pre post : List (S × Bool)} {spec : S}
    (h : Rows findCell columnType (pre ++ (spec, true) :: post) rows) {l r : T} (hl : rows l) (hr : rows r)
    (hties : Ties findCell pre l r) (hnull : findCell l spec = some .nulls) (hother : findCell r spec ≠ some .nulls) :
    comprule findCell (pre ++ (spec, true) :: post) l r ∧ ¬comprule findCell (pre ++ (spec, true) :: post) r l := by
  obtain ⟨vr, hvr, -⟩ := h.stored (spec, true) (by simp) r hr
  have hvr0 : vr ≠ .nulls := by
    rintro rfl
    exact hother hvr
  have hleft := Value.compareValue_null_left hvr0
  have hright := Value.compareValue_null_right hvr0
  have hties' : Ties findCell pre r l := fun rule hrule => (hties rule hrule).symm
  rw [comprule_eq h hl hr, comprule_eq h hr hl,
    rulesResult_head h hl hr hties hnull hvr (by rw [hleft]; decide),
    rulesResult_head h hr hl hties' hvr hnull (by rw [hright]; decide), hleft, hright]
  exact ⟨rfl, Bool.false_ne_true⟩

/-- Rows that straddle are sorted in a circle, forwards or backwards. -/
theorem StraddledRows.not_strictWeak (h : Rows findCell columnType orderRules rows)
    (hstraddled : StraddledRows findCell orderRules rows) : ¬StrictWeak (comprule findCell orderRules) rows := by
  intro hweak
  obtain ⟨pre, spec, asc, post, rfl, x, y, z, hx, hy, hz, hxy, hxz, vx, vy, vz, hvx, hvy, hvz, hstr⟩ := hstraddled
  have hyz : Ties findCell pre y z := fun rule hrule => (hxy rule hrule).symm.trans (hxz rule hrule)
  have hswap : ∀ {l r : T}, Ties findCell pre l r → Ties findCell pre r l :=
    fun hties rule hrule => (hties rule hrule).symm
  have htype : Sortable (columnType spec) := h.sortable (spec, asc) (by simp)
  have hstored : ∀ {w : T} {v : Value}, rows w → findCell w spec = some v → Stored (columnType spec) v := by
    intro w v hw hv
    obtain ⟨v', hv', hs⟩ := h.stored (spec, asc) (by simp) w hw
    exact Option.some.inj (hv'.symm.trans hv) ▸ hs
  have hsx := hstored hx hvx
  have hsy := hstored hy hvy
  have hsz := hstored hz hvz
  obtain ⟨hcxy, hcyz, hczx⟩ := hsx.sign_cycle htype hsy hsz hstr
  have hlt : ∀ {l r : T} {vl vr : Value}, rows l → rows r → Ties findCell pre l r → findCell l spec = some vl →
      findCell r spec = some vr → (Value.compareValue vl vr).sign = -1 →
        (asc = true → comprule findCell (pre ++ (spec, asc) :: post) l r) ∧
          (asc = false → comprule findCell (pre ++ (spec, asc) :: post) r l) := by
    intro l r vl vr hl hr hties hvl hvr hsign
    have hback := (hstored hl hvl).sign_swap htype (hstored hr hvr)
    rw [hsign] at hback
    rw [comprule_eq h hl hr, comprule_eq h hr hl,
      rulesResult_head h hl hr hties hvl hvr (by rw [hsign]; decide),
      rulesResult_head h hr hl (hswap hties) hvr hvl (by rw [hback]; decide), hsign, hback]
    cases asc with
    | true => exact ⟨fun _ => rfl, fun h => Bool.noConfusion h⟩
    | false => exact ⟨fun h => Bool.noConfusion h, fun _ => rfl⟩
  have hlt_xy := hlt hx hy hxy hvx hvy hcxy
  have hlt_yz := hlt hy hz hyz hvy hvz hcyz
  have hlt_zx := hlt hz hx (hswap hxz) hvz hvx hczx
  cases asc with
  | true =>
    have hxz' := hweak.trans x y z hx hy hz (hlt_xy.1 rfl) (hlt_yz.1 rfl)
    exact hweak.irrefl x hx (hweak.trans x z x hx hz hx hxz' (hlt_zx.1 rfl))
  | false =>
    have hzx' := hweak.trans z y x hz hy hx (hlt_yz.2 rfl) (hlt_xy.2 rfl)
    exact hweak.irrefl z hz (hweak.trans z x z hz hx hz hzx' (hlt_zx.2 rfl))

theorem strictWeak_of_not_straddled (h : Rows findCell columnType orderRules rows)
    (hstraddled : ¬StraddledRows findCell orderRules rows) : StrictWeak (comprule findCell orderRules) rows := by
  have hweak := (rulesResult_consistent h hstraddled).strictWeak
  constructor
  · intro a ha
    rw [comprule_eq h ha ha]
    exact hweak.irrefl a ha
  · intro a b c ha hb hc
    rw [comprule_eq h ha hb, comprule_eq h hb hc, comprule_eq h ha hc]
    exact hweak.trans a b c ha hb hc
  · intro a b c ha hb hc
    rw [comprule_eq h ha hb, comprule_eq h hb hc, comprule_eq h ha hc, comprule_eq h hb ha, comprule_eq h hc hb,
      comprule_eq h hc ha]
    exact hweak.incomp_trans a b c ha hb hc

theorem orderedRows_iff (h : Rows findCell columnType orderRules rows) :
    OrderedRows findCell orderRules rows ↔ ¬StraddledRows findCell orderRules rows := by
  refine ⟨fun hordered hstraddled => hstraddled.not_strictWeak h hordered.strictWeak, fun hstraddled => ?_⟩
  refine ⟨strictWeak_of_not_straddled h hstraddled, ?_⟩
  rintro pre spec post rfl l r hl hr hties hnull hother
  exact h.nullFirst hl hr hties hnull hother

end Rules

/-- A table of one nullable string column of four bytes. -/
def charsCell (w : Option Bytes) (_ : Unit) : Option Value :=
  some (w.elim .nulls fun data => Value.setData .chars data 4)

theorem charsCell_rows (asc : Bool) (rows : Option Bytes → Prop) :
    Rows charsCell (fun _ => .chars) [((), asc)] rows where
  sortable _ _ := Or.inr (Or.inr (Or.inl rfl))
  stored _ _ w _ := by
    cases w with
    | none => exact ⟨_, rfl, Or.inl rfl⟩
    | some data => exact ⟨_, rfl, Or.inr ⟨data, 4, rfl⟩⟩

/-- A `NULL` and strings with bytes on both sides of `0x80`. -/
theorem orderedRows_iff_chars :
    OrderedRows charsCell [((), false)] (fun w => w ∈ [none, some [0x61], some [0x61, 0xff], some [0xff, 0x61]]) ↔
      ¬StraddledRows charsCell [((), false)] (fun w => w ∈ [none, some [0x61], some [0x61, 0xff], some [0xff, 0x61]]) :=
  orderedRows_iff (charsCell_rows false _)

/-- The strings `a`, `ab` and `a` with the byte `0xff` behind it. -/
theorem not_orderedRows_straddled :
    ¬OrderedRows charsCell [((), true)] (fun w => w ∈ [some [0x61], some [0x61, 0x62], some [0x61, 0xff]]) := by
  intro hordered
  have hlt : comprule charsCell [((), true)] (some [0x61]) (some [0x61, 0xff]) :=
    hordered.strictWeak.trans _ (some [0x61, 0x62]) _ (by simp) (by simp) (by simp) (by decide) (by decide)
  have hgt : comprule charsCell [((), true)] (some [0x61, 0xff]) (some [0x61]) := by decide
  exact hordered.strictWeak.irrefl (some [0x61]) (by simp)
    (hordered.strictWeak.trans _ _ _ (by simp) (by simp) (by simp) hlt hgt)

end Landbase.Sql
