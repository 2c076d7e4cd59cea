import Landbase.Storage.RecordLayout
import Landbase.Sql.InsertStmt
import Landbase.Sql.IndexScan
import Landbase.Clog.Codec

/-! # The rows of a table

What `Table::make_record` of `storage/table/table.cpp` writes for the values of a row, what `UpdatePhysicalOperator::next`
changes of it, and what `RowTuple::cell_at` of `sql/expr/tuple.h` reads again.
-/

namespace Landbase.Meta
open Landbase.Index Landbase.Lib Landbase.Sql
open Landbase.Sql.IndexPlan (valueData int32Bytes floatBits)
set_option autoImplicit false

namespace TableMeta

/-! ## Writing -/

section
variable (lib : CastLib) (memory : DateMemory) (text : Bytes) (kit : TrxKit) (table : TableMeta)

/-- The fields of the user. -/
def columns : List FieldMeta := table.fields.drop (sysFieldNum kit)

/-- The checks of `make_record` for one value, and the value after them. -/
def castValue (field : FieldMeta) (v : Value) : Except RC Value :=
  if v.isNull then if field.nullable then .ok v else .error .schemaFieldNotNullable
  else if field.attrType = v.attrType then .ok v
  else (v.typeCast lib memory text field.attrType).elim (.error .schemaFieldTypeMismatch) .ok

def castValues : List FieldMeta → List Value → Except RC (List Value)
  | field :: fields, v :: values => do
    let v ← castValue lib memory text field v
    let values ← castValues fields values
    .ok (v :: values)
  | _, _ => .ok []

/-- What is at `data()`: the value, and whatever lies behind it. -/
def dataMemory (behind : Memory) (v : Value) : Memory := fun k => (valueData v).getD k (behind k)

def fieldData (behind : Memory) (v : Value) : Option (Memory × ℕ) :=
  if v.isNull then none else some (dataMemory behind v, v.length)

/-- `make_record`; `garbage` is what `malloc` gives, and `behind` lies behind the values. -/
def makeRecord (garbage : Memory) (behind : ℕ → Memory) (values : List Value) : Except RC Memory :=
  if values.length + sysFieldNum kit ≠ table.fields.length then .error .schemaFieldMissing
  else do
    let values ← castValues lib memory text (columns kit table) values
    .ok (makeRecordLoop kit table (sysFieldNum kit) (values.mapIdx fun k v => fieldData (behind k) v) garbage)

/-- What `UpdatePhysicalOperator::next` does for a field that is set, with `Record::set_value`. -/
def setValue (behind : Memory) (record : Memory) (i : ℕ) (v : Value) : Memory :=
  if v.isNull then write kit table record i .setBit
  else
    let field := table.fields.getD i {}
    copyBytes (write kit table record i .clearBit) field.attrOffset.toNat (dataMemory behind v) field.attrLen.toNat

/-! ## Reading -/

/-- `Table::is_null`. -/
def isNull (record : Memory) (field : FieldMeta) : Bool :=
  let fieldIndex := table.fieldIndex field
  if fieldIndex = -1 then false else nullBit kit table record fieldIndex.toNat

/-- The cell of a field. A number is read from four bytes, whatever the length of the field. -/
def cell (record : Memory) (i : ℕ) : Value :=
  let field := table.fields.getD i {}
  if isNull kit table record field then .nulls
  else Value.setData field.attrType (record.read field.attrOffset.toNat (max 4 field.attrLen.toNat)) field.attrLen.toNat

/-- `RowTuple::cell_at`. -/
def cellAt (record : Memory) (index : ℤ) : Except RC Value :=
  if index < 0 ∨ index ≥ table.fields.length then .error .invalidArgument else .ok (cell kit table record index.toNat)

/-- `RowTuple::find_cell`. -/
def findCell (record : Memory) (tableName fieldName : String) : Except RC Value :=
  if tableName ≠ table.name then .error .notfound
  else
    match table.fields.findIdx? fun field => fieldName == field.name with
    | some i => cellAt kit table record i
    | none => .error .notfound

/-- The cells of the user's fields. -/
def rowOf (record : Memory) : List Value :=
  (List.range (columns kit table).length).map fun k => cell kit table record (sysFieldNum kit + k)

/-- The values of a row, as its columns keep them. -/
def keptRow (values : List Value) : List Value :=
  List.zipWith (fun (field : FieldMeta) (v : Value) => v.kept field.attrLen.toNat) (columns kit table) values

end

/-- Two records agree in the bitmap and in the fields of the user. -/
def SameColumns (kit : TrxKit) (table : TableMeta) (record record' : Memory) : Prop :=
  ∀ i, sysFieldNum kit - 1 ≤ i → i < table.fields.length → ∀ k : ℕ, (table.fields.getD i {}).attrOffset ≤ k →
    (k : ℤ) < (table.fields.getD i {}).attrOffset + (table.fields.getD i {}).attrLen → record' k = record k

end TableMeta

/-- The field has room for the numbers of its type; `set_data` asserts the length of a date. -/
def FieldMeta.Whole (field : FieldMeta) : Prop :=
  match field.attrType with
  | .ints | .floats => 4 ≤ field.attrLen
  | .dates => field.attrLen = 4
  | .chars | .texts => True
  | .undefined | .booleans | .nulls => False

/-! ## The bytes of a value -/

theorem word32_congr {l l' : Bytes} (h : ∀ k < 4, l.getD k 0 = l'.getD k 0) : word32 l = word32 l' := by
  unfold word32
  rw [h 0 (by decide), h 1 (by decide), h 2 (by decide), h 3 (by decide)]

theorem word32_int32Bytes (x : ℤ) : (word32 (int32Bytes x) : ℤ) = x % 2 ^ 32 := by
  have hword := Clog.LogFile.word32_int32Bytes x []
  rwa [List.append_nil] at hword

theorem intOfBytes_int32Bytes {x : ℤ} (hlo : -2 ^ 31 ≤ x) (hhi : x < 2 ^ 31) : intOfBytes (int32Bytes x) = x := by
  have hint := Clog.LogFile.intOfBytes_int32Bytes hlo hhi []
  rwa [List.append_nil] at hint

/-- The bits of a float without its sign. -/
theorem floatBits_spec {f : ℤ} (h : IsFloat f) : ∃ mantissa exponent : ℕ, mantissa < 2 ^ 23 ∧ exponent < 255 ∧
    floatBits f = (if f < 0 then 2 ^ 31 else 0) + exponent * 2 ^ 23 + mantissa ∧
    f.natAbs = if exponent = 0 then mantissa else (2 ^ 23 + mantissa) * 2 ^ (exponent - 1) := by
  rcases h with hsmall | ⟨mantissa, exponent, hmantissa, hexponent, heq⟩
  · refine ⟨f.natAbs, 0, hsmall, by norm_num, ?_, by rw [if_pos rfl]⟩
    unfold floatBits
    dsimp only
    rw [if_pos hsmall]
    split <;> omega
  · have hge : 2 ^ 23 ≤ f.natAbs := by
      rw [heq]
      exact (Nat.le_add_right _ _).trans (Nat.le_mul_of_pos_right _ (by positivity))
    have hlog : f.natAbs.log2 = exponent + 23 := by
      refine (Nat.log2_eq_iff (by omega)).mpr ⟨?_, ?_⟩
      · rw [heq, pow_add, mul_comm]
        exact Nat.mul_le_mul_right _ (Nat.le_add_right _ _)
      · rw [heq, show exponent + 23 + 1 = 24 + exponent by omega, pow_add]
        exact Nat.mul_lt_mul_of_pos_right (by omega) (by positivity)
    refine ⟨mantissa, exponent + 1, hmantissa, by omega, ?_, ?_⟩
    · unfold floatBits
      dsimp only
      rw [if_neg (Nat.not_lt.mpr hge), hlog, show exponent + 23 - 22 = exponent + 1 by omega, Nat.add_sub_cancel, heq,
        Nat.mul_div_cancel _ (by positivity), Nat.add_sub_cancel_left]
      split <;> omega
    · rw [if_neg (by omega), Nat.add_sub_cancel, heq]

theorem floatOfBytes_floatBits {f : ℤ} (h : IsFloat f) {l : Bytes} (hl : (word32 l : ℤ) = floatBits f % 2 ^ 32) :
    floatOfBytes l = f := by
  obtain ⟨mantissa, exponent, hmantissa, hexponent, hbits, habs⟩ := floatBits_spec h
  have hword : word32 l = (if f < 0 then 2 ^ 31 else 0) + exponent * 2 ^ 23 + mantissa := by
    rw [hbits] at hl
    split at hl <;> split <;> omega
  have hmod : word32 l % 2 ^ 23 = mantissa := by
    rw [hword]
    split <;> omega
  have hexp : word32 l / 2 ^ 23 % 256 = exponent := by
    rw [hword]
    split <;> omega
  have hsign : word32 l / 2 ^ 31 = if f < 0 then 1 else 0 := by
    rw [hword]
    split <;> omega
  unfold floatOfBytes
  dsimp only
  rw [hmod, hexp, hsign, ← habs]
  by_cases hneg : f < 0
  · rw [if_pos hneg, if_pos rfl]
    omega
  · rw [if_neg hneg, if_neg (by norm_num)]
    omega

theorem read_succ (record : Memory) (off len : ℕ) : record.read off (len + 1) = record off :: record.read (off + 1) len := by
  rw [Memory.read, List.range_succ_eq_map, List.map_cons, List.map_map, Memory.read]
  refine congrArg (_ :: ·) (List.map_congr_left fun k _ => ?_)
  rw [Function.comp_apply, add_assoc, add_comm 1 k]

/-- A string that lies in memory, with its NUL behind it if there is room, is read again. -/
theorem takeWhile_read {record : Memory} {off len : ℕ} {s : Bytes} (hs : NoNul s)
    (h : ∀ k < len, k < s.length + 1 → record (off + k) = (s ++ [0]).getD k 0) :
    (record.read off len).takeWhile (· ≠ 0) = s.take len := by
  induction s generalizing off len with
  | nil =>
    cases len with
    | zero => rfl
    | succ len =>
      have hend : record off = 0 := h 0 (Nat.succ_pos _) Nat.one_pos
      rw [read_succ, hend, List.take_nil]
      rfl
  | cons c s ih =>
    cases len with
    | zero => rfl
    | succ len =>
      obtain ⟨hc, hs⟩ := noNul_cons.mp hs
      have hfirst : record off = c := h 0 (Nat.succ_pos _) (Nat.succ_pos _)
      rw [read_succ, hfirst, List.takeWhile_cons_of_pos (p := fun x => decide (x ≠ 0)) (decide_eq_true hc),
        List.take_succ_cons, ih hs]
      intro k hk hlt
      have hnext := h (k + 1) (Nat.succ_lt_succ hk) (Nat.succ_lt_succ hlt)
      rw [add_assoc, add_comm 1 k, hnext]
      rfl

/-- What is read from a field into which a value was copied. -/
theorem setData_kept {field : FieldMeta} (hwhole : field.Whole) {v : Value} (hv : v.Proper) (htype : v.attrType = field.attrType)
    {record : Memory} {off : ℕ}
    (h : ∀ k < field.attrLen.toNat, k < (valueData v).length → record (off + k) = (valueData v).getD k 0) :
    Value.setData field.attrType (record.read off (max 4 field.attrLen.toNat)) field.attrLen.toNat =
      v.kept field.attrLen.toNat := by
  have hstring : ∀ s : Bytes, NoNul s → valueData v = s ++ [0] →
      ((record.read off (max 4 field.attrLen.toNat)).take field.attrLen.toNat).takeWhile (· ≠ 0) =
        s.take field.attrLen.toNat := by
    intro s hs hdata
    have htake : (record.read off (max 4 field.attrLen.toNat)).take field.attrLen.toNat =
        record.read off field.attrLen.toNat := by
      rw [Memory.read, ← List.map_take, List.take_range, min_eq_left (le_max_right _ _)]
      rfl
    rw [htake]
    refine takeWhile_read hs fun k hk hlt => ?_
    rw [h k hk (by rw [hdata, List.length_append]; exact hlt), hdata]
  have hnumber : ∀ x : ℤ, valueData v = int32Bytes x → 4 ≤ field.attrLen →
      word32 (record.read off (max 4 field.attrLen.toNat)) = word32 (int32Bytes x) := by
    intro x hdata hlen
    apply word32_congr
    intro k hk
    have hbyte := h k (by omega) (by rw [hdata]; exact hk)
    rw [hdata] at hbyte
    rw [← hbyte, Memory.read, List.getD_eq_getElem _ _ (by rw [List.length_map, List.length_range]; omega), List.getElem_map,
      List.getElem_range]
  unfold FieldMeta.Whole at hwhole
  rw [← htype] at hwhole ⊢
  cases v with
  | chars s => exact congrArg Value.chars (hstring s hv rfl)
  | texts s => exact congrArg Value.texts (hstring s hv rfl)
  | ints i =>
    refine congrArg Value.ints ?_
    rw [intOfBytes, hnumber i rfl hwhole]
    exact intOfBytes_int32Bytes hv.1 hv.2
  | dates d =>
    refine congrArg Value.dates ?_
    rw [intOfBytes, hnumber d rfl hwhole.ge]
    exact intOfBytes_int32Bytes hv.1 hv.2
  | floats f =>
    refine congrArg Value.floats (floatOfBytes_floatBits hv ?_)
    rw [hnumber _ rfl hwhole, word32_int32Bytes]
  | undefined => exact hwhole.elim
  | booleans b => exact hwhole.elim
  | nulls => exact hwhole.elim

/-- A cell depends on nothing but the bytes of its field. -/
theorem setData_congr {field : FieldMeta} (hwhole : field.Whole) {record record' : Memory} {off : ℕ}
    (h : ∀ k < field.attrLen.toNat, record' (off + k) = record (off + k)) :
    Value.setData field.attrType (record'.read off (max 4 field.attrLen.toNat)) field.attrLen.toNat =
      Value.setData field.attrType (record.read off (max 4 field.attrLen.toNat)) field.attrLen.toNat := by
  have hwide : 4 ≤ field.attrLen →
      record'.read off (max 4 field.attrLen.toNat) = record.read off (max 4 field.attrLen.toNat) := by
    intro hlen
    rw [max_eq_right (by omega)]
    exact List.map_congr_left fun k hk => h k (List.mem_range.mp hk)
  have htake : (record'.read off (max 4 field.attrLen.toNat)).take field.attrLen.toNat =
      (record.read off (max 4 field.attrLen.toNat)).take field.attrLen.toNat := by
    rw [Memory.read, Memory.read, ← List.map_take, ← List.map_take, List.take_range, min_eq_left (le_max_right _ _)]
    exact List.map_congr_left fun k hk => h k (List.mem_range.mp hk)
  unfold FieldMeta.Whole at hwhole
  cases htype : field.attrType with
  | chars => rw [Value.setData, Value.setData, htake]
  | texts => rw [Value.setData, Value.setData, htake]
  | ints =>
    rw [htype] at hwhole
    rw [hwide hwhole]
  | floats =>
    rw [htype] at hwhole
    rw [hwide hwhole]
  | dates =>
    rw [htype] at hwhole
    rw [hwide hwhole.ge]
  | undefined => rfl
  | booleans =>
    rw [htype] at hwhole
    exact hwhole.elim
  | nulls => rfl

namespace TableMeta

/-! ## The cells of a record -/

section
variable {lib : CastLib} {memory : DateMemory} {text : Bytes} {kit : TrxKit} {table : TableMeta}

theorem getD_columns {k : ℕ} (hk : k < (columns kit table).length) :
    table.fields.getD (sysFieldNum kit + k) {} = (columns kit table)[k] := by
  have hlt : sysFieldNum kit + k < table.fields.length := by
    rw [columns, List.length_drop] at hk
    omega
  rw [List.getD_eq_getElem _ _ hlt]
  simp only [columns, List.getElem_drop]

theorem castValues_suits {fields : List FieldMeta} {values : List Value} (h : List.Forall₂ Suits fields values) :
    castValues lib memory text fields values = .ok values := by
  induction h with
  | nil => rfl
  | @cons field v fields values hsuits _ ih =>
    have hv : castValue lib memory text field v = .ok v := by
      have hsuits := hsuits.2
      unfold castValue
      by_cases hnull : v = .nulls
      · rw [if_pos hnull] at hsuits
        rw [if_pos (isNull_iff.mpr hnull), if_pos hsuits]
      · rw [if_neg hnull] at hsuits
        rw [if_neg (fun h => hnull (isNull_iff.mp h)), if_pos hsuits.symm]
    rw [castValues, hv, ih]
    rfl

theorem lt_copyLen {field : FieldMeta} {v : Value} (htype : v.attrType = field.attrType) {k : ℕ}
    (hk : k < field.attrLen.toNat) (hdata : k < (valueData v).length) : k < copyLen field v.length := by
  unfold copyLen
  split
  · next h =>
    rw [← htype] at h
    cases v with
    | chars s | texts s => simpa [valueData, Value.length] using hdata
    | _ => simp [Value.attrType] at h
  · exact hk

theorem rowOf_eq {record : Memory} {row : List Value} (hlength : (columns kit table).length = row.length)
    (h : ∀ k (hk : k < row.length), cell kit table record (sysFieldNum kit + k) = row[k]) : rowOf kit table record = row := by
  refine List.ext_getElem ?_ fun k _ hk => ?_
  · rw [rowOf, List.length_map, List.length_range, hlength]
  · rw [← h k hk]
    simp only [rowOf, List.getElem_map, List.getElem_range]

theorem length_keptRow {values : List Value} (hlength : (columns kit table).length = values.length) :
    (columns kit table).length = (keptRow kit table values).length := by
  rw [keptRow, List.length_zipWith, ← hlength, min_self]

theorem columns_end {k : ℕ} (hk : k < (columns kit table).length) : sysFieldNum kit + k < table.fields.length := by
  rw [columns, List.length_drop] at hk
  omega

theorem cellAt_eq (record : Memory) {k : ℕ} (hk : k < (columns kit table).length) :
    cellAt kit table record (sysFieldNum kit + k : ℕ) = .ok (cell kit table record (sysFieldNum kit + k)) := by
  have hlt := columns_end hk
  rw [cellAt, if_neg (by omega), Int.toNat_natCast]

/-- A column is found by its name when no other field has it. -/
theorem findCell_eq (hnames : (table.fields.map FieldMeta.name).Nodup) (record : Memory) {k : ℕ}
    (hk : k < (columns kit table).length) :
    findCell kit table record table.name (columns kit table)[k].name =
      cellAt kit table record (sysFieldNum kit + k : ℕ) := by
  have hlt := columns_end hk
  have hget := getD_columns hk
  rw [List.getD_eq_getElem _ _ hlt] at hget
  have hfind : table.fields.findIdx? (fun field => (columns kit table)[k].name == field.name) = some (sysFieldNum kit + k) := by
    rw [List.findIdx?_eq_some_iff_getElem]
    refine ⟨hlt, by rw [hget, beq_self_eq_true], fun j hj => ?_⟩
    have hne := List.pairwise_iff_getElem.mp (List.pairwise_map.mp hnames) j (sysFieldNum kit + k) (by omega) hlt hj
    rw [beq_iff_eq, ← hget]
    exact hne.symm
  rw [findCell, if_neg (not_not.mpr rfl), hfind]

section
variable (hapart : Apart kit table)
include hapart

theorem cell_eq (record : Memory) {i : ℕ} (hi : i < table.fields.length) :
    cell kit table record i = if nullBit kit table record i then .nulls else
      Value.setData (table.fields.getD i {}).attrType
        (record.read (table.fields.getD i {}).attrOffset.toNat (max 4 (table.fields.getD i {}).attrLen.toNat))
        (table.fields.getD i {}).attrLen.toNat := by
  have hnull : isNull kit table record (table.fields.getD i {}) = nullBit kit table record i := by
    unfold isNull
    dsimp only
    rw [fieldIndex_getD hapart.disjoint hapart.valid hi, if_neg (by omega), Int.toNat_natCast]
  rw [cell, hnull]

/-- What a value that was written leaves in the cell of its field. -/
theorem cell_written {record : Memory} {i : ℕ} (hi : i < table.fields.length) {v : Value} (hwhole : (table.fields.getD i {}).Whole)
    (hsuits : Suits (table.fields.getD i {}) v) (hbit : nullBit kit table record i = v.isNull)
    (hbytes : v.isNull = false → ∀ k < (table.fields.getD i {}).attrLen.toNat, k < (valueData v).length →
      record ((table.fields.getD i {}).attrOffset.toNat + k) = (valueData v).getD k 0) :
    cell kit table record i = v.kept (table.fields.getD i {}).attrLen.toNat := by
  obtain ⟨hproper, htype⟩ := hsuits
  rw [cell_eq hapart record hi, hbit]
  by_cases hnull : v = .nulls
  · rw [if_pos (isNull_iff.mpr hnull), hnull]
    rfl
  · have hsome : v.isNull = false := Bool.eq_false_iff.mpr fun h => hnull (isNull_iff.mp h)
    rw [if_neg hnull] at htype
    rw [if_neg (Bool.not_eq_true _ ▸ hsome)]
    exact setData_kept hwhole hproper htype (hbytes hsome)

/-- A cell is the same when its bit and the bytes of its field are. -/
theorem cell_frame {record record' : Memory} {i : ℕ} (hi : i < table.fields.length) (hwhole : (table.fields.getD i {}).Whole)
    (hbit : nullBit kit table record' i = nullBit kit table record i)
    (hbytes : ∀ k : ℕ, (table.fields.getD i {}).attrOffset ≤ k →
      (k : ℤ) < (table.fields.getD i {}).attrOffset + (table.fields.getD i {}).attrLen → record' k = record k) :
    cell kit table record' i = cell kit table record i := by
  have hoffset := (hapart.getD_valid hi).offset_nonneg
  rw [cell_eq hapart record' hi, cell_eq hapart record hi, hbit, setData_congr hwhole]
  intro k hk
  exact hbytes _ (by omega) (by omega)

theorem cell_congr {record record' : Memory} (h : SameColumns kit table record record') {i : ℕ} (hsys : sysFieldNum kit ≤ i)
    (hi : i < table.fields.length) (hwhole : (table.fields.getD i {}).Whole) :
    cell kit table record' i = cell kit table record i := by
  have hbyte := hapart.nullByte_lt hi
  have hnonneg := (hapart.getD_valid hapart.null_lt).offset_nonneg
  have hoffset : (nullOffset kit table : ℤ) = (nullFieldMeta kit table).attrOffset := Int.toNat_of_nonneg hnonneg
  refine cell_frame hapart hi hwhole (Memory.getBit_congr ?_) (h i (by omega) hi)
  refine h _ le_rfl hapart.null_lt _ ?_ (by exact_mod_cast hbyte)
  push_cast
  rw [hoffset]
  exact le_add_of_nonneg_right (by omega)

theorem rowOf_congr {record record' : Memory} (h : SameColumns kit table record record')
    (hwhole : ∀ field ∈ columns kit table, field.Whole) : rowOf kit table record' = rowOf kit table record := by
  apply List.map_congr_left
  intro k hk
  have hk := List.mem_range.mp hk
  have hlt : sysFieldNum kit + k < table.fields.length := by
    rw [columns, List.length_drop] at hk
    omega
  refine cell_congr hapart h (Nat.le_add_right _ _) hlt ?_
  rw [getD_columns hk]
  exact hwhole _ (List.getElem_mem hk)

/-- The cells of a record that the loop of `make_record` has filled. -/
theorem makeRecordLoop_cell {values : List Value} (hwhole : ∀ field ∈ columns kit table, field.Whole)
    (hsuits : List.Forall₂ Suits (columns kit table) values) (garbage : Memory) (behind : ℕ → Memory) {k : ℕ}
    (hk : k < values.length) :
    cell kit table (makeRecordLoop kit table (sysFieldNum kit) (values.mapIdx fun k v => fieldData (behind k) v) garbage)
      (sysFieldNum kit + k) = values[k].kept (table.fields.getD (sysFieldNum kit + k) {}).attrLen.toNat := by
  have hcolumn : k < (columns kit table).length := hsuits.length_eq ▸ hk
  have hlast := columns_end (show values.length - 1 < (columns kit table).length by rw [hsuits.length_eq]; omega)
  have hfield := getD_columns hcolumn
  have hsuit : Suits (table.fields.getD (sysFieldNum kit + k) {}) values[k] := by
    rw [hfield]
    exact (List.forall₂_iff_get.mp hsuits).2 k hcolumn hk
  have hmap : k < (values.mapIdx fun k v => fieldData (behind k) v).length := by rwa [List.length_mapIdx]
  obtain ⟨hbit, hbytes⟩ := makeRecordLoop_field hapart (values.mapIdx fun k v => fieldData (behind k) v) garbage
    le_rfl (by rw [List.length_mapIdx]; omega) hmap
  rw [List.get_eq_getElem, List.getElem_mapIdx] at hbit hbytes
  refine cell_written hapart (columns_end hcolumn) ?_ hsuit (hbit.trans ?_) fun hsome j hj hdata => ?_
  · rw [hfield]
    exact hwhole _ (List.getElem_mem hcolumn)
  · unfold fieldData
    cases values[k].isNull <;> rfl
  · have hwrite : fieldData (behind k) values[k] = some (dataMemory (behind k) values[k], values[k].length) := by
      rw [fieldData, hsome]
      rfl
    have htype := hsuit.2
    rw [if_neg fun hnull => by rw [isNull_iff.mpr hnull] at hsome; cases hsome] at htype
    rw [hbytes _ _ hwrite j (lt_copyLen htype hj hdata), dataMemory, List.getD_eq_getElem _ _ hdata,
      List.getD_eq_getElem _ _ hdata]

/-- `make_record` accepts values that suit the columns, and the columns keep them. -/
theorem makeRecord_rowOf (hwhole : ∀ field ∈ columns kit table, field.Whole) {values : List Value}
    (hsuits : List.Forall₂ Suits (columns kit table) values) (garbage : Memory) (behind : ℕ → Memory) :
    ∃ record, makeRecord lib memory text kit table garbage behind values = .ok record ∧
      rowOf kit table record = keptRow kit table values := by
  have hlength := hsuits.length_eq
  have hnum : values.length + sysFieldNum kit = table.fields.length := by
    have hlt := hapart.null_lt
    rw [← hlength, columns, List.length_drop]
    omega
  refine ⟨makeRecordLoop kit table (sysFieldNum kit) (values.mapIdx fun k v => fieldData (behind k) v) garbage, ?_, ?_⟩
  · rw [makeRecord, if_neg (not_not.mpr hnum), castValues_suits hsuits]
    rfl
  · refine rowOf_eq (length_keptRow hlength) fun k hk => ?_
    have hcolumn : k < (columns kit table).length := length_keptRow hlength ▸ hk
    rw [makeRecordLoop_cell hapart hwhole hsuits garbage behind (hlength ▸ hcolumn), getD_columns hcolumn]
    simp only [keptRow, List.getElem_zipWith]

omit hapart in
/-- `set_value` copies the whole field. -/
theorem setValue_eq (behind record : Memory) (i : ℕ) (v : Value) : setValue kit table behind record i v =
    (fieldWrites (if v.isNull then none else some (dataMemory behind v, (table.fields.getD i {}).attrLen.toNat))).foldl
      (fun record w => write kit table record i w) record := by
  unfold setValue
  cases v.isNull with
  | true => rfl
  | false =>
    simp only [Bool.false_eq_true, if_false, fieldWrites, List.foldl_cons, List.foldl_nil]
    rw [write.eq_3, copyLen, if_neg (by simp)]

/-- A field that is set changes the cell of one column. -/
theorem setValue_rowOf (hwhole : ∀ field ∈ columns kit table, field.Whole) (behind record : Memory) {k : ℕ} {v : Value}
    (hk : k < (columns kit table).length) (hsuits : Suits (columns kit table)[k] v) :
    rowOf kit table (setValue kit table behind record (sysFieldNum kit + k) v) =
      (rowOf kit table record).set k (v.kept (columns kit table)[k].attrLen.toNat) := by
  have hnull : sysFieldNum kit + k ≠ sysFieldNum kit - 1 := by
    have hsys : 0 < sysFieldNum kit := Nat.succ_pos _
    omega
  have hrow : (rowOf kit table record).length = (columns kit table).length := by
    rw [rowOf, List.length_map, List.length_range]
  refine rowOf_eq (by rw [List.length_set, hrow]) fun j hj => ?_
  rw [List.length_set, hrow] at hj
  rw [setValue_eq]
  by_cases heq : k = j
  · subst heq
    rw [List.getElem_set_self]
    obtain ⟨hbit, hbytes⟩ := foldl_write_field hapart (if v.isNull then none
      else some (dataMemory behind v, (table.fields.getD (sysFieldNum kit + k) {}).attrLen.toNat)) record (columns_end hk) hnull
    rw [← getD_columns hk] at hsuits ⊢
    refine cell_written hapart (columns_end hk) ?_ hsuits (hbit.trans ?_) fun hsome t ht hdata => ?_
    · rw [getD_columns hk]
      exact hwhole _ (List.getElem_mem hk)
    · cases v.isNull <;> rfl
    · rw [hbytes _ _ (by rw [hsome]; rfl) t ?_, dataMemory, List.getD_eq_getElem _ _ hdata, List.getD_eq_getElem _ _ hdata]
      rw [copyLen, if_neg (by simp)]
      exact ht
  · rw [List.getElem_set_ne heq]
    obtain ⟨hbit, hbytes⟩ := foldl_write_frame hapart (fieldWrites (if v.isNull then none
      else some (dataMemory behind v, (table.fields.getD (sysFieldNum kit + k) {}).attrLen.toNat))) record (columns_end hk)
      (columns_end hj) hnull (show sysFieldNum kit + k ≠ sysFieldNum kit + j by omega)
    rw [cell_frame hapart (columns_end hj) ?_ hbit (hbytes ?_)]
    · simp only [rowOf, List.getElem_map, List.getElem_range]
    · rw [getD_columns hj]
      exact hwhole _ (List.getElem_mem hj)
    · have hsys : 0 < sysFieldNum kit := Nat.succ_pos _
      omega

end

/-- Numbers are read from digits. -/
def digitsCast : CastLib where
  overflow _ := -2 ^ 31
  strToFloat _ := 0
  stringMatch _ _ := 0
  strToInt s := if decimal s < 2 ^ 31 then decimal s else 0
  floatToStr _ := [48]

theorem digitsCast_proper : digitsCast.Proper := by
  refine ⟨fun i => ?_, fun s => ?_, fun s => .inl ?_, fun f => ?_⟩
  · show (-2 : ℤ) ^ 31 ≤ -2 ^ 31 ∧ (-2 ^ 31 : ℤ) < 2 ^ 31
    decide
  · simp only [digitsCast]
    split <;> omega
  · show (0 : ℤ).natAbs < 2 ^ 23
    decide
  · simp [digitsCast, NoNul]

/-- `t(id int not null, name char(2))`. -/
def nameTable : TableMeta where
  tableId := 1
  name := "t"
  fields := [⟨"__trx_xid_begin", .ints, false, 0, 4, false⟩, ⟨"__trx_xid_end", .ints, false, 4, 4, false⟩,
    ⟨"__null", .chars, false, 8, 1, false⟩, ⟨"id", .ints, false, 9, 4, true⟩, ⟨"name", .chars, true, 13, 2, true⟩]
  indexes := []
  recordSize := 15

end

end TableMeta

end Landbase.Meta
