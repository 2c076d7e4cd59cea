import Landbase.Sql.CompareValue
import Landbase.Sql.PhysicalOperator

/-! # `AggrePhysicalOperator`

The aggregation of `sql/operator/aggre_physical_operator.cpp` and its `AggregationTuple` of `sql/expr/tuple.cpp`. The
first `next` runs through the child and answers `SUCCESS` once, the second one `RECORD_EOF`.

The plan of a query whose condition is constantly false has no child (`where 1=0`). Then `close` returns before it
resets `is_record_eof`, and a second execution shows no tuple at all (`aggreExecutions_iff`).
-/

namespace Landbase.Sql
open PhysicalOperator LoopingOperator
open Landbase.Index (roundFloat)
set_option autoImplicit false

/-! ## `AggregationTuple` -/

/-- `AggreType`, without `AGGRE_NONE`, which no aggregate has. -/
inductive AggreType
  | max | min | count | countAll | avg | sum
  deriving DecidableEq, Repr

/-- `AggreExpression`: the type and the column. -/
structure AggreExpression (S : Type) where
  type : AggreType
  field : S
  deriving DecidableEq

/-- `AGGRE_COUNT_ALL` and `AGGRE_COUNT`. -/
def AggreType.counts : AggreType → Bool
  | .countAll | .count => true
  | _ => false

/-- `Value::get_float` of a number, in units of `2 ^ (-149)`. -/
def Value.getFloat : Value → ℤ
  | .ints i => roundFloat (i * 2 ^ 149)
  | .floats f => f
  | _ => 0

/-- `Value::operator+`, which is for `INTS` and `FLOATS`; the sum of two integers is an `int` again. -/
def Value.add : Value → Value → Value
  | .nulls, _ | _, .nulls => .nulls
  | .ints a, .ints b => .ints (toInt32 (a + b))
  | v, w => .floats (roundFloat (v.getFloat + w.getFloat))

/-- `std::max` and `std::min` over `Value::operator<`. -/
def Value.max (a b : Value) : Value := if Value.compareValue a b = .lessThan then b else a
def Value.min (a b : Value) : Value := if Value.compareValue b a = .lessThan then b else a

namespace AggregationTuple

variable {R S : Type}

/-- The entries of one aggregate in `aggre_exprs_`, `all_null_`, `counts_` and `aggre_results_`. -/
structure Column (S : Type) where
  expr : AggreExpression S
  allNull : Bool
  counts : ℕ
  result : Value

end AggregationTuple

/-- `AggregationTuple`. -/
structure AggregationTuple (S : Type) where
  count : ℤ
  columns : List (AggregationTuple.Column S)

namespace AggregationTuple

variable {R S : Type}

/-- The values that `init` and `reinit` give to the entries of an aggregate. -/
def Column.init (expr : AggreExpression S) : Column S :=
  ⟨expr, false, 0, if expr.type.counts then .ints 0 else .nulls⟩

/-- `AggregationTuple::init`. -/
def init (exprs : List (AggreExpression S)) : AggregationTuple S := ⟨0, exprs.map Column.init⟩

/-- `AggregationTuple::reinit`. -/
def reinit (tuple : AggregationTuple S) : AggregationTuple S :=
  ⟨0, tuple.columns.map fun column => Column.init column.expr⟩

/-- `AggregationTuple::do_aggregation_begin`. -/
def doAggregationBegin (tuple : AggregationTuple S) : AggregationTuple S :=
  ⟨0, tuple.columns.map fun column => { column with allNull := true, counts := 0 }⟩

/-- What a result is before its first value is taken in. -/
def Column.start (type : AggreType) (curValue : Value) : Value :=
  match type with
  | .avg | .sum => if curValue.attrType = .ints then .ints 0 else .floats 0
  | _ => curValue

/-- The switch of `do_aggregation`. -/
def Column.combine (type : AggreType) (res curValue : Value) : Value :=
  match type with
  | .max => Value.max res curValue
  | .min => Value.min res curValue
  | .avg | .sum => Value.add res curValue
  | .count | .countAll => res

/-- The body of the loop of `do_aggregation`. -/
def Column.step (column : Column S) (curValue : Value) : Column S :=
  if curValue.isNull then column
  else if column.expr.type.counts then { column with counts := column.counts + 1 }
  else
    let res := if column.result.isNull then Column.start column.expr.type curValue else column.result
    { column with
      counts := column.counts + 1, allNull := false, result := Column.combine column.expr.type res curValue }

variable (getValue : R → S → Option Value)

/-- The loop of `do_aggregation`; `cur_value` keeps its value where a cell is not found. -/
def stepColumns (row : R) : Value → List (Column S) → List (Column S)
  | _, [] => []
  | curValue, column :: columns =>
    column.step ((getValue row column.expr.field).getD curValue) ::
      stepColumns row ((getValue row column.expr.field).getD curValue) columns

/-- `AggregationTuple::do_aggregation`. `count_` is an `int`, which is not defined behind the greatest one. -/
def doAggregation (tuple : AggregationTuple S) (row : R) : Option (AggregationTuple S) :=
  if tuple.count = 2 ^ 31 - 1 then none
  else some ⟨tuple.count + 1, stepColumns getValue row .nulls tuple.columns⟩

variable (toFloat : ℚ → ℤ)

/-- The mean of `do_aggregation_end`; `toFloat` rounds a quotient to a float. -/
def Column.mean (tot : ℤ) : Value → Value
  | .ints val => if val.tmod tot = 0 then .ints (val.tdiv tot) else .floats (toFloat ((val : ℚ) / tot))
  | res => .floats (toFloat ((res.getFloat : ℚ) / 2 ^ 149 / tot))

/-- The body of the loop of `do_aggregation_end`. -/
def Column.finish (count : ℤ) (column : Column S) : Column S :=
  if column.allNull ∧ ¬column.expr.type.counts then { column with result := .nulls }
  else
    match column.expr.type with
    | .count => { column with result := .ints (toInt32 column.counts) }
    | .countAll => { column with result := .ints count }
    | .avg => { column with result := Column.mean toFloat (toInt32 column.counts) column.result }
    | .max | .min | .sum => column

/-- `AggregationTuple::do_aggregation_end`. -/
def doAggregationEnd (tuple : AggregationTuple S) : AggregationTuple S :=
  { tuple with columns := tuple.columns.map (Column.finish toFloat tuple.count) }

/-- The cells of the tuple. -/
def results (tuple : AggregationTuple S) : List Value := tuple.columns.map Column.result

end AggregationTuple

/-! ## The operator -/

namespace AggrePhysicalOperator

open AggregationTuple

variable {R S : Type} {child : PhysicalOperator R} (getValue : R → S → Option Value) (toFloat : ℚ → ℤ)

/-- The members of the operator, and the state of the child if there is one. -/
structure State (S : Type) (child : PhysicalOperator R) where
  child : Option child.State
  isStarted : Bool
  isRecordEof : Bool
  tuple : AggregationTuple S

/-- A new operator. -/
def initial (exprs : List (AggreExpression S)) (c : Option child.State) : State S child := ⟨c, false, false, init exprs⟩

/-- `AggrePhysicalOperator::open`. -/
def open_ (s : State S child) : RC × State S child :=
  s.child.elim (.success, s) fun c => ((child.open_ c).1, { s with child := some (child.open_ c).2 })

/-- The loop of `next`: the answer that ends it, the child, `is_started_` and `tuple_`. -/
def aggregate : ℕ → child.State → Bool → AggregationTuple S → Option (RC × child.State × Bool × AggregationTuple S)
  | 0, _, _, _ => none
  | fuel + 1, c, isStarted, tuple =>
    if (child.next c).1 ≠ .success then some ((child.next c).1, (child.next c).2, isStarted, tuple)
    else
      (child.currentTuple (child.next c).2).bind fun row =>
        (doAggregation getValue (if isStarted then tuple else doAggregationBegin tuple) row).bind fun tuple =>
          aggregate fuel (child.next c).2 true tuple

/-- The end of `next`. -/
def finish : RC × child.State × Bool × AggregationTuple S → RC × State S child
  | (rc, c, isStarted, tuple) =>
    if rc = .recordEof then
      (.success, ⟨some c, isStarted, true, if isStarted then doAggregationEnd toFloat tuple else tuple⟩)
    else (rc, ⟨some c, isStarted, false, tuple⟩)

/-- `AggrePhysicalOperator::next`. -/
def next (fuel : ℕ) (s : State S child) : Option (RC × State S child) :=
  if s.isRecordEof then some (.recordEof, s)
  else s.child.elim (some (.success, { s with isRecordEof := true })) fun c =>
    (aggregate getValue fuel c s.isStarted s.tuple).map (finish toFloat)

/-- `AggrePhysicalOperator::close`. -/
def close (s : State S child) : RC × State S child :=
  s.child.elim (.success, s) fun c =>
    ((child.close c).1, ⟨some (child.close c).2, false, false, reinit s.tuple⟩)

/-- The operator with its calls; a tuple is the list of its cells. -/
abbrev operator (S : Type) (child : PhysicalOperator R) (getValue : R → S → Option Value) (toFloat : ℚ → ℤ) :
    LoopingOperator (List Value) where
  State := State S child
  open_ := open_
  next := next getValue toFloat
  close := close
  currentTuple s := some s.tuple.results

end AggrePhysicalOperator

/-! ## What the aggregates are -/

namespace AggreExpression

variable {R S : Type} (getValue : R → S → Option Value) (toFloat : ℚ → ℤ)

/-- The integer in a cell, if it is not `NULL`. -/
def intOf : Value → Option ℤ
  | .ints i => some i
  | _ => none

/-- The values of the column that are not `NULL`. -/
def nonNull (field : S) (rows : List R) : List ℤ := rows.filterMap fun row => (getValue row field).bind intOf

/-- The value of an aggregate over rows. -/
def valueOf (expr : AggreExpression S) (rows : List R) : Value :=
  let values := nonNull getValue expr.field rows
  match expr.type with
  | .countAll => .ints rows.length
  | .count => .ints values.length
  | .max => values.max?.elim .nulls .ints
  | .min => values.min?.elim .nulls .ints
  | .sum => if values = [] then .nulls else .ints (toInt32 values.sum)
  | .avg =>
    if values = [] then .nulls
    else if (values.length : ℤ) ∣ toInt32 values.sum then .ints (toInt32 values.sum / values.length)
    else .floats (toFloat ((toInt32 values.sum : ℚ) / values.length))

/-- The aggregated columns hold integers and `NULL`s; `COUNT(*)` looks at none. -/
def IntRow (exprs : List (AggreExpression S)) (row : R) : Prop :=
  ∀ expr ∈ exprs, expr.type ≠ .countAll → ∃ v, getValue row expr.field = some v ∧ (v = .nulls ∨ ∃ i, v = .ints i)

end AggreExpression

/-! ## One column -/

namespace AggregationTuple

open AggreExpression

variable {R S : Type} {getValue : R → S → Option Value} {toFloat : ℚ → ℤ}

/-- The running result over the values so far. -/
def partialResult (type : AggreType) (values : List ℤ) : Value :=
  match type with
  | .max => values.max?.elim .nulls .ints
  | .min => values.min?.elim .nulls .ints
  | .sum | .avg => if values = [] then .nulls else .ints (toInt32 values.sum)
  | .count | .countAll => .ints 0

/-- The entries of a column behind the rows so far. -/
def Column.Holds (getValue : R → S → Option Value) (column : Column S) (rows : List R) : Prop :=
  column.expr.type ≠ .countAll →
    let values := nonNull getValue column.expr.field rows
    column.counts = values.length ∧
      (column.expr.type ≠ .count →
        column.allNull = decide (values = []) ∧ column.result = partialResult column.expr.type values)

theorem max?_append_singleton (values : List ℤ) (i : ℤ) :
    (values ++ [i]).max? = some (values.max?.elim i fun m => max m i) := by
  cases values with
  | nil => rfl
  | cons v values =>
    rw [List.cons_append, List.max?_cons', List.max?_cons', List.foldl_append]
    rfl

theorem min?_append_singleton (values : List ℤ) (i : ℤ) :
    (values ++ [i]).min? = some (values.min?.elim i fun m => min m i) := by
  cases values with
  | nil => rfl
  | cons v values =>
    rw [List.cons_append, List.min?_cons', List.min?_cons', List.foldl_append]
    rfl

theorem value_max_ints (a b : ℤ) : Value.max (.ints a) (.ints b) = .ints (max a b) := by
  have hcompare : Value.compareValue (.ints a) (.ints b) = CompOp.ofResult (compareIntValue a b) := rfl
  unfold Value.max
  rw [hcompare]
  unfold CompOp.ofResult compareIntValue
  rcases lt_trichotomy a b with h | h | h
  · rw [max_eq_right (le_of_lt h)]
    simp [h, not_lt_of_gt h]
  · simp [h]
  · rw [max_eq_left (le_of_lt h)]
    simp [h]

theorem value_min_ints (a b : ℤ) : Value.min (.ints a) (.ints b) = .ints (min a b) := by
  have hcompare : Value.compareValue (.ints b) (.ints a) = CompOp.ofResult (compareIntValue b a) := rfl
  unfold Value.min
  rw [hcompare]
  unfold CompOp.ofResult compareIntValue
  rcases lt_trichotomy a b with h | h | h
  · rw [min_eq_left (le_of_lt h)]
    simp [h]
  · simp [h]
  · rw [min_eq_right (le_of_lt h)]
    simp [h, not_lt_of_gt h]

theorem toInt32_add (a b : ℤ) : toInt32 (toInt32 a + b) = toInt32 (a + b) := Int.bmod_add_bmod

theorem combine_max (m : Option ℤ) (i : ℤ) :
    Column.combine .max (if (m.elim .nulls Value.ints).isNull then Column.start .max (.ints i) else m.elim .nulls .ints)
      (.ints i) = .ints (m.elim i fun m => max m i) := by
  cases m with
  | none => exact (value_max_ints i i).trans (congrArg Value.ints (max_self i))
  | some m => exact value_max_ints m i

theorem combine_min (m : Option ℤ) (i : ℤ) :
    Column.combine .min (if (m.elim .nulls Value.ints).isNull then Column.start .min (.ints i) else m.elim .nulls .ints)
      (.ints i) = .ints (m.elim i fun m => min m i) := by
  cases m with
  | none => exact (value_min_ints i i).trans (congrArg Value.ints (min_self i))
  | some m => exact value_min_ints m i

theorem combine_sum (values : List ℤ) (i : ℤ) :
    Value.add (if (partialResult .sum values).isNull then .ints 0 else partialResult .sum values) (.ints i) =
      partialResult .sum (values ++ [i]) := by
  have hafter : partialResult .sum (values ++ [i]) = .ints (toInt32 (values.sum + i)) := by
    have hne : values ++ [i] ≠ [] := by simp
    rw [partialResult, if_neg hne, List.sum_append, List.sum_singleton]
  rw [hafter]
  by_cases hvalues : values = []
  · subst hvalues
    rfl
  · have hbefore : partialResult .sum values = .ints (toInt32 values.sum) := if_neg hvalues
    rw [hbefore, ← toInt32_add]
    rfl

/-- One more value. -/
theorem combine_partialResult {type : AggreType} (htype : type.counts = false) (values : List ℤ) (i : ℤ) :
    Column.combine type
      (if (partialResult type values).isNull then Column.start type (.ints i) else partialResult type values) (.ints i) = partialResult type (values ++ [i]) := by
  cases type with
  | max =>
    rw [show partialResult .max (values ++ [i]) = _ from congrArg (Option.elim · _ _) (max?_append_singleton values i)]
    exact combine_max values.max? i
  | min =>
    rw [show partialResult .min (values ++ [i]) = _ from congrArg (Option.elim · _ _) (min?_append_singleton values i)]
    exact combine_min values.min? i
  | count => cases htype
  | countAll => cases htype
  | avg => exact combine_sum values i
  | sum => exact combine_sum values i

theorem nonNull_append (field : S) (rows : List R) (row : R) {v : Value} (hv : getValue row field = some v) :
    nonNull getValue field (rows ++ [row]) = nonNull getValue field rows ++ (intOf v).toList := by
  unfold nonNull
  rw [List.filterMap_append, List.filterMap_cons, List.filterMap_nil, hv, Option.bind_some]
  cases intOf v <;> rfl

theorem Column.step_expr (column : Column S) (v : Value) : (column.step v).expr = column.expr := by
  unfold Column.step
  split
  · rfl
  · split <;> rfl

theorem Column.Holds.step {column : Column S} {rows : List R} (h : column.Holds getValue rows) {row : R} {v : Value}
    (hv : column.expr.type ≠ .countAll → getValue row column.expr.field = some v ∧ (v = .nulls ∨ ∃ i, v = .ints i)) :
    (column.step v).Holds getValue (rows ++ [row]) := by
  intro htype
  rw [column.step_expr] at htype ⊢
  obtain ⟨hfound, hint⟩ := hv htype
  obtain ⟨hcounts, hresult⟩ := h htype
  rw [nonNull_append _ _ _ hfound]
  rcases hint with rfl | ⟨i, rfl⟩
  · have hstep : column.step .nulls = column := rfl
    rw [hstep]
    simpa [intOf] using h htype
  · have hnull : (Value.ints i).isNull = false := rfl
    by_cases hcount : column.expr.type = .count
    · have hstep : column.step (.ints i) = { column with counts := column.counts + 1 } := by
        simp [Column.step, hnull, hcount, AggreType.counts]
      rw [hstep]
      refine ⟨?_, fun hne => absurd hcount hne⟩
      simp [intOf, hcounts]
    · have hcountsFalse : column.expr.type.counts = false := by
        cases hcase : column.expr.type <;> first | rfl | exact absurd hcase hcount | exact absurd hcase htype
      obtain ⟨hallNull, hpart⟩ := hresult hcount
      have hcombine := combine_partialResult hcountsFalse (nonNull getValue column.expr.field rows) i
      rw [← hpart] at hcombine
      refine ⟨?_, fun _ => ⟨?_, ?_⟩⟩
      · simp [Column.step, hnull, hcountsFalse, intOf, hcounts]
      · simp [Column.step, hnull, hcountsFalse, intOf]
      · simp only [Column.step, hnull, hcountsFalse, Bool.false_eq_true, if_false, intOf, Option.toList_some]
        exact hcombine

theorem Column.Holds.begin (expr : AggreExpression S) :
    Column.Holds getValue { Column.init expr with allNull := true, counts := 0 } ([] : List R) := by
  intro _
  refine ⟨rfl, fun _ => ⟨rfl, ?_⟩⟩
  simp only [Column.init]
  cases expr.type <;> rfl

theorem mean_ints (toFloat : ℚ → ℤ) (n : ℕ) (val : ℤ) : Column.mean toFloat n (.ints val) =
    if (n : ℤ) ∣ val then .ints (val / n) else .floats (toFloat ((val : ℚ) / n)) := by
  have hmean : Column.mean toFloat n (.ints val) =
      if val.tmod n = 0 then .ints (val.tdiv n) else .floats (toFloat ((val : ℚ) / ((n : ℤ) : ℚ))) := rfl
  rw [hmean, Int.cast_natCast]
  by_cases hdvd : (n : ℤ) ∣ val
  · rw [if_pos hdvd, if_pos (Int.dvd_iff_tmod_eq_zero.mp hdvd), Int.tdiv_eq_ediv_of_dvd hdvd]
  · rw [if_neg hdvd, if_neg fun h => hdvd (Int.dvd_iff_tmod_eq_zero.mpr h)]

/-- The result of an aggregate at the end. -/
theorem Column.Holds.finish {column : Column S} {rows : List R} (h : column.Holds getValue rows)
    (hrows : rows.length < 2 ^ 31) :
    (column.finish toFloat rows.length).result = column.expr.valueOf getValue toFloat rows := by
  have hlength : (nonNull getValue column.expr.field rows).length ≤ rows.length := List.length_filterMap_le _ _
  have hint32 : toInt32 (nonNull getValue column.expr.field rows).length =
      (nonNull getValue column.expr.field rows).length := toInt32_of_range (by omega) (by omega)
  unfold Column.finish AggreExpression.valueOf
  by_cases hall : column.expr.type = .countAll
  · simp [hall, AggreType.counts]
  obtain ⟨hcounts, hresult⟩ := h hall
  by_cases hcount : column.expr.type = .count
  · simp only [hcount, AggreType.counts, not_true_eq_false, and_false, if_false]
    rw [hcounts, hint32]
  obtain ⟨hallNull, hpart⟩ := hresult hcount
  have hcountsFalse : column.expr.type.counts = false := by
    cases hcase : column.expr.type <;> first | rfl | exact absurd hcase hcount | exact absurd hcase hall
  by_cases hvalues : nonNull getValue column.expr.field rows = []
  · have hnull : column.allNull = true := by rw [hallNull, hvalues]; rfl
    simp only [hnull, hcountsFalse, Bool.false_eq_true, not_false_eq_true, and_self, if_true, hvalues]
    cases hcase : column.expr.type <;> first | rfl | exact absurd hcase hcount | exact absurd hcase hall
  · have hnull : column.allNull = false := by rw [hallNull]; exact decide_eq_false hvalues
    have hpos : 0 < (nonNull getValue column.expr.field rows).length := List.length_pos_of_ne_nil hvalues
    simp only [hnull, Bool.false_eq_true, false_and, if_false]
    cases hcase : column.expr.type with
    | count => exact absurd hcase hcount
    | countAll => exact absurd hcase hall
    | max => rw [hcase] at hpart; exact hpart
    | min => rw [hcase] at hpart; exact hpart
    | sum => rw [hcase] at hpart; exact hpart
    | avg =>
      rw [hcase] at hpart
      simp only [partialResult, hvalues, if_false] at hpart ⊢
      rw [hpart, hcounts, hint32]
      exact mean_ints toFloat _ _

/-! ## The whole tuple -/

/-- The tuple behind the rows so far. -/
structure Holds (getValue : R → S → Option Value) (exprs : List (AggreExpression S)) (tuple : AggregationTuple S)
    (rows : List R) : Prop where
  count : tuple.count = rows.length
  exprs : tuple.columns.map Column.expr = exprs
  columns : ∀ column ∈ tuple.columns, column.Holds getValue rows

variable {exprs : List (AggreExpression S)} {tuple : AggregationTuple S} {rows : List R} {row : R}

theorem stepColumns_expr (curValue : Value) (columns : List (Column S)) :
    (stepColumns getValue row curValue columns).map Column.expr = columns.map Column.expr := by
  induction columns generalizing curValue with
  | nil => rfl
  | cons column columns ih => rw [stepColumns, List.map_cons, List.map_cons, column.step_expr, ih]

theorem stepColumns_holds {columns : List (Column S)} (h : ∀ column ∈ columns, column.Holds getValue rows)
    (hrow : IntRow getValue (columns.map Column.expr) row) (curValue : Value) :
    ∀ column ∈ stepColumns getValue row curValue columns, column.Holds getValue (rows ++ [row]) := by
  induction columns generalizing curValue with
  | nil => exact fun _ hmem => absurd hmem List.not_mem_nil
  | cons column columns ih =>
    refine List.forall_mem_cons.mpr ⟨?_, ih (fun c hc => h c (List.mem_cons_of_mem _ hc))
      (fun expr hexpr => hrow expr (List.mem_cons_of_mem _ hexpr)) _⟩
    refine (h column List.mem_cons_self).step fun htype => ?_
    obtain ⟨v, hv, hint⟩ := hrow column.expr List.mem_cons_self htype
    rw [hv]
    exact ⟨rfl, hint⟩

/-- One row. -/
theorem Holds.doAggregation (h : tuple.Holds getValue exprs rows) (hrow : IntRow getValue exprs row)
    (hrows : rows.length < 2 ^ 31 - 1) : ∃ tuple', tuple.doAggregation getValue row = some tuple' ∧
      tuple'.Holds getValue exprs (rows ++ [row]) := by
  have hne : tuple.count ≠ 2 ^ 31 - 1 := by
    rw [h.count]
    omega
  refine ⟨⟨tuple.count + 1, stepColumns getValue row .nulls tuple.columns⟩, ?_, ?_, ?_, ?_⟩
  · rw [AggregationTuple.doAggregation, if_neg hne]
  · rw [h.count, List.length_append, List.length_singleton]
    push_cast
    rfl
  · rw [stepColumns_expr, h.exprs]
  · exact stepColumns_holds h.columns (h.exprs.symm ▸ hrow) _

/-- The row at which `count_` overflows. -/
theorem Holds.doAggregation_overflow (h : tuple.Holds getValue exprs rows) (hrows : rows.length = 2 ^ 31 - 1) :
    tuple.doAggregation getValue row = none := by
  rw [AggregationTuple.doAggregation, if_pos]
  rw [h.count, hrows]
  norm_num

theorem reinit_eq (hexprs : tuple.columns.map Column.expr = exprs) : tuple.reinit = init exprs := by
  rw [reinit, init, ← hexprs, List.map_map]
  rfl

theorem init_expr : (init exprs).columns.map Column.expr = exprs := by
  rw [init, List.map_map]
  exact List.map_id exprs

variable (exprs) in
theorem doAggregationBegin_holds : (doAggregationBegin (init exprs)).Holds getValue exprs ([] : List R) := by
  refine ⟨rfl, ?_, ?_⟩
  · rw [doAggregationBegin, init, List.map_map, List.map_map]
    exact List.map_id exprs
  · intro column hcolumn
    rw [doAggregationBegin, init, List.map_map] at hcolumn
    obtain ⟨expr, -, rfl⟩ := List.mem_map.mp hcolumn
    exact Column.Holds.begin expr

theorem Holds.results (h : tuple.Holds getValue exprs rows) (hrows : rows.length < 2 ^ 31) :
    (tuple.doAggregationEnd toFloat).results = exprs.map fun expr => expr.valueOf getValue toFloat rows := by
  rw [AggregationTuple.results, doAggregationEnd, List.map_map, ← h.exprs, List.map_map]
  refine List.map_congr_left fun column hcolumn => ?_
  show (column.finish toFloat tuple.count).result = _
  rw [h.count]
  exact (h.columns column hcolumn).finish hrows

theorem finish_expr (count : ℤ) (column : Column S) : (column.finish toFloat count).expr = column.expr := by
  unfold Column.finish
  split
  · rfl
  · cases column.expr.type <;> rfl

theorem Holds.end_expr (h : tuple.Holds getValue exprs rows) :
    (tuple.doAggregationEnd toFloat).columns.map Column.expr = exprs := by
  rw [doAggregationEnd, List.map_map, ← h.exprs]
  exact List.map_congr_left fun column _ => finish_expr _ column

/-- Without rows, the results that `init` gives are those of the aggregates. -/
theorem init_results : (init exprs).results = exprs.map fun expr => expr.valueOf getValue toFloat ([] : List R) := by
  rw [AggregationTuple.results, init, List.map_map]
  refine List.map_congr_left fun expr _ => ?_
  show (Column.init expr).result = _
  unfold Column.init AggreExpression.valueOf
  cases expr.type <;> rfl

end AggregationTuple

/-! ## The loop of `next` -/

namespace AggrePhysicalOperator

open AggregationTuple AggreExpression

variable {R S : Type} {child : PhysicalOperator R} {getValue : R → S → Option Value} {toFloat : ℚ → ℤ}
  {exprs : List (AggreExpression S)}

/-- From some rows on: the loop takes in the rest, unless `count_` overflows. -/
theorem aggregate_started {c c' : child.State} {rest : List R} {rc : RC} (hfetches : child.Fetches c rest rc c')
    {rows : List R} {tuple : AggregationTuple S} (h : tuple.Holds getValue exprs rows)
    (hrest : ∀ row ∈ rest, IntRow getValue exprs row) (hrows : rows.length < 2 ^ 31) (fuel : ℕ) :
    (∀ out, aggregate getValue fuel c true tuple = some out → (rows ++ rest).length < 2 ^ 31 ∧
      ∃ tuple', out = (rc, c', true, tuple') ∧ tuple'.Holds getValue exprs (rows ++ rest)) ∧
    ((rows ++ rest).length < 2 ^ 31 → rest.length < fuel → (aggregate getValue fuel c true tuple).isSome) := by
  induction hfetches generalizing rows tuple fuel with
  | stop hrc =>
    cases fuel with
    | zero => exact ⟨fun out hout => (nomatch hout), fun _ hfuel => absurd hfuel (Nat.not_lt_zero _)⟩
    | succ fuel =>
      rw [aggregate, if_pos hrc, List.append_nil]
      exact ⟨fun out hout => ⟨hrows, tuple, (Option.some.inj hout).symm, h⟩, fun _ _ => rfl⟩
  | @more c c' row rest rc hrc htuple hfetches ih =>
    cases fuel with
    | zero => exact ⟨fun out hout => (nomatch hout), fun _ hfuel => absurd hfuel (Nat.not_lt_zero _)⟩
    | succ fuel =>
      rw [aggregate, if_neg (not_not.mpr hrc), htuple, Option.bind_some, if_pos rfl]
      by_cases hlast : rows.length = 2 ^ 31 - 1
      · rw [h.doAggregation_overflow hlast]
        refine ⟨fun out hout => (nomatch hout), fun hlength _ => ?_⟩
        rw [List.length_append, List.length_cons] at hlength
        omega
      · obtain ⟨tuple', hstep, h'⟩ := h.doAggregation (hrest row List.mem_cons_self) (by omega)
        have hlength : (rows ++ [row]).length < 2 ^ 31 := by
          rw [List.length_append, List.length_singleton]
          omega
        have hrest' := ih h' (fun r hr => hrest r (List.mem_cons_of_mem _ hr)) hlength fuel
        rw [List.append_assoc, List.singleton_append] at hrest'
        rw [hstep, Option.bind_some]
        exact ⟨hrest'.1, fun hall hfuel => hrest'.2 hall (by rw [List.length_cons] at hfuel; omega)⟩

variable (toFloat) in
/-- What `next` leaves behind when the child has come to its end. -/
theorem next_initial {c c' : child.State} {rows : List R} (hfetches : child.Fetches c rows .recordEof c')
    (hrows : ∀ row ∈ rows, IntRow getValue exprs row) (fuel : ℕ) :
    (∀ out, next getValue toFloat fuel (initial exprs (some c)) = some out → rows.length < 2 ^ 31 ∧
      ∃ isStarted tuple, out = (.success, ⟨some c', isStarted, true, tuple⟩) ∧
        tuple.columns.map Column.expr = exprs ∧ tuple.results = exprs.map fun expr => expr.valueOf getValue toFloat rows) ∧
    (rows.length < 2 ^ 31 → rows.length < fuel → (next getValue toFloat fuel (initial exprs (some c))).isSome) := by
  have hnext : next getValue toFloat fuel (initial exprs (some c)) =
      (aggregate getValue fuel c false (init exprs)).map (finish toFloat) := rfl
  rw [hnext]
  cases fuel with
  | zero => exact ⟨fun out hout => (nomatch hout), fun _ hfuel => absurd hfuel (Nat.not_lt_zero _)⟩
  | succ fuel =>
    cases rows with
    | nil =>
      obtain ⟨hrc, hstate, hne⟩ := hfetches.nil_inv
      rw [aggregate, hrc, if_pos hne, hstate]
      refine ⟨fun out hout => ⟨by norm_num, false, init exprs, (Option.some.inj hout).symm, init_expr, init_results⟩,
        fun _ _ => rfl⟩
    | cons row rest =>
      obtain ⟨hrc, htuple, hrest⟩ := hfetches.cons_inv
      obtain ⟨tuple, hstep, h⟩ := (doAggregationBegin_holds exprs).doAggregation (hrows row List.mem_cons_self)
        (by norm_num)
      obtain ⟨hout, hsome⟩ := aggregate_started hrest h (fun r hr => hrows r (List.mem_cons_of_mem _ hr)) (by norm_num) fuel
      have haggregate : aggregate getValue (fuel + 1) c false (init exprs) =
          aggregate getValue fuel (child.next c).2 true tuple := by
        rw [aggregate, if_neg (not_not.mpr hrc), htuple, Option.bind_some, if_neg Bool.false_ne_true, hstep,
          Option.bind_some]
      rw [haggregate, Option.isSome_map]
      refine ⟨fun out hnextOut => ?_, fun hlength hfuel => hsome hlength (by rw [List.length_cons] at hfuel; omega)⟩
      obtain ⟨result, hresult, rfl⟩ := Option.map_eq_some_iff.mp hnextOut
      obtain ⟨hlength, tuple', rfl, h'⟩ := hout result hresult
      exact ⟨hlength, true, tuple'.doAggregationEnd toFloat, rfl, h'.end_expr, h'.results hlength⟩

/-! ## Executions -/

/-- What an execution over rows has to show: one tuple, the values of the aggregates. -/
def expected (getValue : R → S → Option Value) (toFloat : ℚ → ℤ) (exprs : List (AggreExpression S)) (rows : List R) :
    Execution (List Value) :=
  ⟨.success, [some (exprs.map fun expr => expr.valueOf getValue toFloat rows)], .recordEof, .success⟩

/-- Every execution ends and shows what it has to. -/
def ExecutionsRight (child : PhysicalOperator R) (getValue : R → S → Option Value) (toFloat : ℚ → ℤ)
    (exprs : List (AggreExpression S)) (c : Option child.State) (cycles : List (List R)) : Prop :=
  ∃ fuel, (operator S child getValue toFloat).executions fuel cycles.length (initial exprs c) =
    some (cycles.map (expected getValue toFloat exprs))

variable (toFloat) in
/-- An execution over a child: it is as expected if it ends at all, and the operator is as at the beginning. -/
theorem execute_initial {c c' : child.State} {rows : List R} (hopen : (child.open_ c).1 = .success)
    (hfetches : child.Fetches (child.open_ c).2 rows .recordEof c') (hclose : (child.close c').1 = .success)
    (hrows : ∀ row ∈ rows, IntRow getValue exprs row) (fuel : ℕ) :
    (∀ out, (operator S child getValue toFloat).execute fuel (initial exprs (some c)) = some out →
      rows.length < 2 ^ 31 ∧ out = (expected getValue toFloat exprs rows, initial exprs (some (child.close c').2))) ∧
    (rows.length < 2 ^ 31 → max rows.length 1 < fuel →
      ((operator S child getValue toFloat).execute fuel (initial exprs (some c))).isSome) := by
  obtain ⟨hout, hsome⟩ := next_initial toFloat hfetches hrows fuel
  cases hnext : next getValue toFloat fuel (initial exprs (some (child.open_ c).2)) with
  | none =>
    rw [hnext] at hsome
    rw [execute_none (drain_none hnext fuel)]
    exact ⟨fun out h => (nomatch h), fun hlength hfuel => hsome hlength (by omega)⟩
  | some out =>
    obtain ⟨hlength, isStarted, tuple, rfl, hexpr, hresults⟩ := hout out hnext
    let s' : (operator S child getValue toFloat).State := ⟨some c', isStarted, true, tuple⟩
    have hend : (operator S child getValue toFloat).next fuel s' = some (.recordEof, s') := rfl
    have hreset : (⟨some (child.close c').2, false, false, reinit tuple⟩ : State S child) =
        initial exprs (some (child.close c').2) := by rw [reinit_eq hexpr, initial]
    by_cases hfuel : 1 < fuel
    · obtain ⟨calls, rfl⟩ : ∃ calls, fuel = calls + 1 + 1 := ⟨fuel - 2, by omega⟩
      have hstop := drain_stop hend (by decide) calls
      have hdrain : (operator S child getValue toFloat).drain (calls + 1 + 1) (calls + 1 + 1)
          (open_ (initial exprs (some c))).2 =
            some ([some tuple.results], .recordEof, s') := by
        rw [drain_success hnext, hstop]
        rfl
      have hexecute : (operator S child getValue toFloat).execute (calls + 1 + 1) (initial exprs (some c)) =
          some (expected getValue toFloat exprs rows, initial exprs (some (child.close c').2)) := by
        have hopened : ((operator S child getValue toFloat).open_ (initial exprs (some c))).1 = .success := hopen
        have hclosed : ((operator S child getValue toFloat).close s').1 = .success := hclose
        rw [execute_of_drain hdrain, ← hreset, expected, ← hresults, hopened, hclosed]
        rfl
      rw [hexecute]
      exact ⟨fun out h => ⟨hlength, (Option.some.inj h).symm⟩, fun _ _ => rfl⟩
    · have hdrain : (operator S child getValue toFloat).drain fuel fuel (open_ (initial exprs (some c))).2 = none := by
        have hcalls : fuel = 0 ∨ fuel = 1 := by omega
        rcases hcalls with rfl | rfl
        · rfl
        · exact drain_success hnext 0
      rw [execute_none hdrain]
      exact ⟨fun out h => (nomatch h), fun _ h => absurd (lt_of_le_of_lt (le_max_right _ _) h) hfuel⟩

/-- With a child: every execution is as expected, as long as no `count_` overflows. -/
theorem executionsRight_some {c : child.State} {cycles : List (List R)}
    (hchild : child.Executes c (cycles.map fun rows => (rows, .recordEof)))
    (hrows : ∀ rows ∈ cycles, ∀ row ∈ rows, IntRow getValue exprs row) :
    ExecutionsRight child getValue toFloat exprs (some c) cycles ↔ ∀ rows ∈ cycles, rows.length < 2 ^ 31 := by
  have hrun : ∀ fuel, (∀ out, (operator S child getValue toFloat).executions fuel cycles.length
        (initial exprs (some c)) = some out →
          (∀ rows ∈ cycles, rows.length < 2 ^ 31) ∧ out = cycles.map (expected getValue toFloat exprs)) ∧
      ((∀ rows ∈ cycles, rows.length < 2 ^ 31 ∧ max rows.length 1 < fuel) →
        ((operator S child getValue toFloat).executions fuel cycles.length (initial exprs (some c))).isSome) := by
    intro fuel
    induction cycles generalizing c with
    | nil => exact ⟨fun out h => ⟨fun _ h => absurd h List.not_mem_nil, (Option.some.inj h).symm⟩, fun _ => rfl⟩
    | cons rows cycles ih =>
      rw [List.map_cons] at hchild
      obtain ⟨c', hopen, hfetches, hclose, hrest⟩ := hchild.cons_inv
      obtain ⟨hout, hsome⟩ := execute_initial toFloat hopen hfetches hclose
        (hrows rows List.mem_cons_self) fuel
      obtain ⟨hlater, hlaterSome⟩ := ih hrest (fun r hr => hrows r (List.mem_cons_of_mem _ hr))
      rw [List.length_cons]
      cases hexecute : (operator S child getValue toFloat).execute fuel (initial exprs (some c)) with
      | none =>
        rw [executions_none hexecute]
        rw [hexecute] at hsome
        exact ⟨fun out h => (nomatch h), fun h => hsome (h rows List.mem_cons_self).1 (h rows List.mem_cons_self).2⟩
      | some out =>
        obtain ⟨hlength, rfl⟩ := hout out hexecute
        rw [executions_succ hexecute, Option.isSome_map]
        refine ⟨fun shown h => ?_, fun h => hlaterSome fun r hr => h r (List.mem_cons_of_mem _ hr)⟩
        obtain ⟨later, hlaterOut, rfl⟩ := Option.map_eq_some_iff.mp h
        obtain ⟨hlengths, rfl⟩ := hlater later hlaterOut
        exact ⟨List.forall_mem_cons.mpr ⟨hlength, hlengths⟩, rfl⟩
  constructor
  · rintro ⟨fuel, h⟩
    exact ((hrun fuel).1 _ h).1
  · intro hlengths
    have hfuel : ∀ rows ∈ cycles, max rows.length 1 < (cycles.map List.length).sum + 2 := by
      intro rows hmem
      have hle := List.single_le_sum (l := cycles.map List.length) (fun _ _ => Nat.zero_le _) rows.length
        (List.mem_map_of_mem hmem)
      omega
    obtain ⟨out, hout⟩ := Option.isSome_iff_exists.mp
      ((hrun ((cycles.map List.length).sum + 2)).2 fun rows hmem => ⟨hlengths rows hmem, hfuel rows hmem⟩)
    exact ⟨_, hout.trans (congrArg some ((hrun _).1 out hout).2)⟩

/-- Without a child: `close` leaves `is_record_eof` as it is, and the second execution shows nothing. -/
theorem executionsRight_none {cycles : List (List R)} (hcycles : ∀ rows ∈ cycles, rows = []) :
    ExecutionsRight child getValue toFloat exprs none cycles ↔ cycles.length ≤ 1 := by
  have hexecute : ∀ calls, (operator S child getValue toFloat).execute (calls + 2) (initial exprs none) =
      some (expected getValue toFloat exprs [], { initial exprs none with isRecordEof := true }) := by
    intro calls
    rw [expected, ← init_results]
    rfl
  have hagain : ∀ calls, (operator S child getValue toFloat).execute (calls + 2)
      { initial exprs none with isRecordEof := true } =
        some (⟨.success, [], .recordEof, .success⟩, { initial exprs none with isRecordEof := true }) := fun _ => rfl
  cases cycles with
  | nil => exact iff_of_true ⟨0, rfl⟩ (Nat.zero_le _)
  | cons rows cycles =>
    cases cycles with
    | nil =>
      refine iff_of_true ⟨2, ?_⟩ (le_refl _)
      rw [hcycles rows List.mem_cons_self, List.length_singleton, executions_succ (hexecute 0)]
      rfl
    | cons rows' cycles =>
      refine iff_of_false ?_ (by simp)
      rintro ⟨fuel, h⟩
      rw [List.length_cons] at h
      by_cases hfuel : 1 < fuel
      · obtain ⟨calls, rfl⟩ : ∃ calls, fuel = calls + 2 := ⟨fuel - 2, by omega⟩
        rw [executions_succ (hexecute calls), Option.map_eq_some_iff] at h
        obtain ⟨later, hlater, h⟩ := h
        rw [List.length_cons, executions_succ (hagain calls), Option.map_eq_some_iff] at hlater
        obtain ⟨rest, -, rfl⟩ := hlater
        have hsecond := congrArg Execution.tuples (List.cons.inj (List.cons.inj h).2).1
        cases hsecond
      · have hcalls : fuel = 0 ∨ fuel = 1 := by omega
        rcases hcalls with rfl | rfl
        · cases h
        · cases h

/-- The aggregation is right exactly as long as no `count_` overflows, and without a child only the first time. -/
theorem aggreExecutions_iff {c : Option child.State} {cycles : List (List R)}
    (hchild : ∀ c' ∈ c, child.Executes c' (cycles.map fun rows => (rows, .recordEof)))
    (hnone : c = none → ∀ rows ∈ cycles, rows = [])
    (hrows : ∀ rows ∈ cycles, ∀ row ∈ rows, IntRow getValue exprs row) :
    ExecutionsRight child getValue toFloat exprs c cycles ↔
      (c ≠ none ∧ ∀ rows ∈ cycles, rows.length < 2 ^ 31) ∨ (c = none ∧ cycles.length ≤ 1) := by
  cases c with
  | none => simpa using executionsRight_none (hnone rfl)
  | some c => simpa using executionsRight_some (hchild c rfl) hrows

/-- A table of one nullable `INTS` column. -/
def intCell (row : Option ℤ) (_ : Unit) : Option Value := some (row.elim .nulls .ints)

/-- Rounding down to a multiple of `2 ^ (-149)`. -/
def roundDown (q : ℚ) : ℤ := ⌊q * 2 ^ 149⌋

theorem intCell_intRow (exprs : List (AggreExpression Unit)) (row : Option ℤ) : IntRow intCell exprs row := by
  intro _ _ _
  cases row with
  | none => exact ⟨_, rfl, Or.inl rfl⟩
  | some i => exact ⟨_, rfl, Or.inr ⟨i, rfl⟩⟩

/-- Three executions over a `NULL` and two numbers whose mean is not an integer. -/
theorem aggreExecutions_iff_three :
    ExecutionsRight (valuesOperator [some 1, none, some 2]) intCell roundDown
        ([.max, .min, .count, .countAll, .avg, .sum].map fun type => ⟨type, ()⟩) (some ⟨[], none⟩)
        (List.replicate 3 [some 1, none, some 2]) ↔
      ((some ⟨[], none⟩ : Option (Values.State (Option ℤ))) ≠ none ∧
          ∀ rows ∈ List.replicate 3 [some (1 : ℤ), none, some 2], rows.length < 2 ^ 31) ∨
        ((some ⟨[], none⟩ : Option (Values.State (Option ℤ))) = none ∧
          (List.replicate 3 [some (1 : ℤ), none, some 2]).length ≤ 1) := by
  refine aggreExecutions_iff (fun c hc => ?_) (fun h => nomatch h) (fun _ _ _ _ => intCell_intRow _ _)
  rw [List.map_replicate]
  exact (valuesOperator_replay _).executes trivial 3

/-- `SELECT COUNT(*) ... WHERE 1 = 0`, executed twice. -/
theorem not_executionsRight_twice :
    ¬ExecutionsRight (valuesOperator ([] : List (Option ℤ))) intCell roundDown [⟨.countAll, ()⟩] none [[], []] := by
  intro h
  have hlength := (executionsRight_none (by simp)).mp h
  exact absurd hlength (by decide)

end AggrePhysicalOperator

end Landbase.Sql
