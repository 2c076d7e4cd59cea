import Landbase.Index.Key
import Landbase.Lib.Json
import Mathlib.Data.List.TakeWhile

/-! # The metadata of a table

`TableMeta` with its fields and indexes, and how it is written to the file of the table and read back: `to_json` and
`from_json` of `storage/field/field_meta.cpp` and `storage/index/index_meta.cpp`, `serialize` and `deserialize` of
`storage/table/table_meta.cpp`. The text of a JSON value is the work of jsoncpp.
-/

namespace Landbase.Meta
open Landbase.Index (AttrType)
open Landbase.Lib
set_option autoImplicit false

/-! ## Strings -/

/-- A `std::string` that goes through `const char *`. -/
def cStr (s : String) : String := String.ofList (s.toList.takeWhile (· ≠ '\x00'))

def isSpace (c : Char) : Bool := c = ' ' ∨ ('\t'.toNat ≤ c.toNat ∧ c.toNat ≤ '\r'.toNat)

/-- `is_blank`. -/
def isBlank (s : String) : Bool := (cStr s).toList.all isSpace

/-- The members of the enumeration `AttrType` in its order. -/
def attrTypes : List AttrType := [.undefined, .chars, .dates, .ints, .floats, .booleans, .nulls, .texts]

def attrTypeName : List String := ["undefined", "chars", "dates", "ints", "floats", "booleans", "nulls", "texts"]

/-- `attr_type_to_string`. -/
def attrTypeToString (type : AttrType) : String := attrTypeName.getD (attrTypes.idxOf type) "unknown"

/-- `attr_type_from_string`. -/
def attrTypeFromString (s : String) : AttrType :=
  (attrTypeName.findIdx? (· = cStr s)).elim .undefined fun i => attrTypes.getD i .undefined

/-! ## Fields -/

/-- A freshly constructed field is the default. -/
structure FieldMeta where
  name : String := ""
  attrType : AttrType := .undefined
  nullable : Bool := false
  attrOffset : ℤ := -1
  attrLen : ℤ := 0
  visible : Bool := false
  deriving DecidableEq

namespace FieldMeta

def init (name : String) (attrType : AttrType) (nullable : Bool) (attrOffset attrLen : ℤ) (visible : Bool) :
    Except RC FieldMeta :=
  if isBlank name then .error .invalidArgument
  else if attrType = .undefined ∨ attrOffset < 0 ∨ attrLen ≤ 0 then .error .invalidArgument
  else .ok ⟨cStr name, attrType, nullable, attrOffset, attrLen, visible⟩

def toJson (field : FieldMeta) : Json :=
  ((((((Json.null.set "name" (.string field.name)).set "type" (.string (attrTypeToString field.attrType))).set
    "nullable" (.bool field.nullable)).set "offset" (.int field.attrOffset)).set "len" (.int field.attrLen)).set
    "visible" (.bool field.visible))

def fromJson (json : Json) : Except RC FieldMeta :=
  if json.isObject = false then .error .internal else
  match (json.get "name").asString?, (json.get "type").asString? with
  | some name, some type =>
    -- a `nullable` of another type is logged only
    match (json.get "offset").asInt?, (json.get "len").asInt? with
    | some offset, some len =>
      if (json.get "visible").isBool = false then .error .internal
      else if attrTypeFromString type = .undefined then .error .internal
      else
        match (json.get "nullable").asBool?, (json.get "visible").asBool? with
        | some nullable, some visible => init name (attrTypeFromString type) nullable offset len visible
        -- jsoncpp throws for a value that has no truth value
        | _, _ => .error .internal
    | _, _ => .error .internal
  | _, _ => .error .internal

end FieldMeta

/-! ## Indexes and tables -/

structure IndexMeta where
  name : String
  fields : List String
  unique : Bool
  deriving DecidableEq

/-- A freshly constructed table is the default. -/
structure TableMeta where
  tableId : ℤ := -1
  name : String := ""
  fields : List FieldMeta := []
  indexes : List IndexMeta := []
  recordSize : ℤ := 0
  deriving DecidableEq

structure AttrInfoSqlNode where
  type : AttrType
  name : String
  length : ℕ
  nullable : Bool
  deriving DecidableEq

/-- The two implementations of transactions. -/
inductive TrxKit
  | vacuous | mvcc

/-- `trx_fields`; a null pointer is no field. -/
def TrxKit.trxFields : TrxKit → List FieldMeta
  | .vacuous => []
  | .mvcc =>
    [⟨"__trx_xid_begin", .ints, false, 0, 4, false⟩, ⟨"__trx_xid_end", .ints, false, 0, 4, false⟩]

namespace IndexMeta

def initNames (name : String) (fieldNames : List String) (unique : Bool) : Except RC IndexMeta :=
  if isBlank name then .error .invalidArgument else .ok ⟨cStr name, fieldNames, unique⟩

def init (name : String) (fields : List FieldMeta) (unique : Bool) : Except RC IndexMeta :=
  initNames name (fields.map fun field => cStr field.name) unique

def toJson (index : IndexMeta) : Json :=
  index.fields.zipIdx.foldl
    (fun (json : Json) field => json.set "field_name" ((json.get "field_name").setAt field.2 (.string field.1)))
    ((Json.null.set "name" (.string index.name)).set "unique" (.bool index.unique))

end IndexMeta

namespace TableMeta

/-! ## `init` and `add_index` -/

/-- The loop over the fields of the transactions; with them comes the offset behind them. -/
def initTrxFields : List FieldMeta → ℤ → List FieldMeta × ℤ
  | [], fieldOffset => ([], fieldOffset)
  | field :: fields, fieldOffset =>
    let rest := initTrxFields fields (toInt32 (fieldOffset + field.attrLen))
    ({ field with attrOffset := fieldOffset, visible := false } :: rest.1, rest.2)

/-- The loop over the attributes; with the fields comes the offset behind them. -/
def initFields : List AttrInfoSqlNode → ℤ → Except RC (List FieldMeta × ℤ)
  | [], fieldOffset => .ok ([], fieldOffset)
  | attr :: attributes, fieldOffset => do
    let field ← FieldMeta.init attr.name attr.type attr.nullable fieldOffset (toInt32 attr.length) true
    let rest ← initFields attributes (toInt32 (fieldOffset + attr.length))
    .ok (field :: rest.1, rest.2)

/-- The length of the bitmap of nulls. -/
def nullFieldLen (trxFieldNum fieldNum : ℕ) : ℤ := (toInt32 (trxFieldNum + 1 + fieldNum)).tdiv 8 + 1

/-- The field of the bitmap. That it cannot be set up is logged only. -/
def nullField (fieldOffset len : ℤ) : FieldMeta :=
  match FieldMeta.init "__null" .chars false fieldOffset (toInt32 len) false with
  | .ok field => field
  | .error _ => {}

def init (kit : TrxKit) (tableId : ℤ) (name : String) (attributes : List AttrInfoSqlNode) : Except RC TableMeta := do
  if isBlank name then throw .invalidArgument
  if attributes = [] then throw .invalidArgument
  let trx := initTrxFields kit.trxFields 0
  let len := nullFieldLen kit.trxFields.length attributes.length
  let rest ← initFields attributes (toInt32 (trx.2 + len))
  return {
    tableId := toInt32 tableId
    name := cStr name
    fields := trx.1 ++ nullField trx.2 len :: rest.1
    recordSize := rest.2 }

def addIndex (table : TableMeta) (index : IndexMeta) : TableMeta := { table with indexes := table.indexes ++ [index] }

/-- `field(name)`. -/
def field (table : TableMeta) (name : String) : Option FieldMeta :=
  table.fields.find? fun field => cStr field.name = cStr name

end TableMeta

/-- The loop over the field names of an index. -/
def IndexMeta.fieldNames (table : TableMeta) : List Json → Except RC (List String)
  | [] => .ok []
  | value :: values =>
    match value.asString? with
    | none => .error .internal
    | some name =>
      match table.field name with
      | none => .error .schemaFieldMissing
      | some field => (fieldNames table values).map fun names => cStr field.name :: names

def IndexMeta.fromJson (table : TableMeta) (json : Json) : Except RC IndexMeta :=
  match (json.get "name").asString? with
  | none => .error .internal
  | some name =>
    if (json.get "unique").isBool = false then .error .internal else
      (fieldNames table (json.get "field_name").elements).bind fun names =>
        initNames name names ((json.get "unique").asBool?.getD false)

namespace TableMeta

/-! ## `serialize` and `deserialize` -/

def toJson (table : TableMeta) : Json :=
  (((Json.null.set "table_id" (.int table.tableId)).set "table_name" (.string table.name)).set "fields"
    (table.fields.foldl (fun (json : Json) field => json.append field.toJson) .null)).set "indexes"
    (table.indexes.foldl (fun (json : Json) index => json.append index.toJson) .null)

def serialize (write : Json → String) (table : TableMeta) : String := write table.toJson

/-- `record_size_` of a table that is read. -/
def sizeOfFields (fields : List FieldMeta) : ℤ :=
  toInt32 ((fields.getLastD {}).attrOffset + (fields.getLastD {}).attrLen - (fields.headD {}).attrOffset)

/-- The indexes are read last, for a table that has its fields already. -/
def readIndexes (table : TableMeta) (indexes : Json) : Bool × TableMeta :=
  if indexes.isEmpty then (true, table)
  else if indexes.isArray = false then (false, table)
  else
    match indexes.elements.mapM (IndexMeta.fromJson table) with
    | .error _ => (false, table)
    | .ok read => (true, { table with indexes := read })

/-- `deserialize`: whether a length is returned or -1, and what becomes of the table. -/
def deserialize (parse : String → Option Json) (table : TableMeta) (text : String) : Bool × TableMeta :=
  match parse text with
  | none => (false, table)
  | some value =>
    match (value.get "table_id").asInt?, (value.get "table_name").asString? with
    | some tableId, some name =>
      if (value.get "fields").isArray = false ∨ (value.get "fields").size = 0 then (false, table)
      else
        match (value.get "fields").elements.mapM FieldMeta.fromJson with
        | .error _ => (false, table)
        | .ok fields =>
          let fields := fields.mergeSort fun f1 f2 => decide (f1.attrOffset ≤ f2.attrOffset)
          readIndexes { table with tableId := tableId, name := name, fields := fields, recordSize := sizeOfFields fields }
            (value.get "indexes")
    | _, _ => (false, table)

end TableMeta

/-! ## What `init` accepts -/

theorem cStr_cStr (s : String) : cStr (cStr s) = cStr s := by
  simp [cStr, List.takeWhile_idem]

theorem isBlank_cStr (s : String) : isBlank (cStr s) = isBlank s := by
  rw [isBlank, isBlank, cStr_cStr]

theorem attrTypeFromString_toString (type : AttrType) : attrTypeFromString (attrTypeToString type) = type := by
  cases type <;> decide

theorem toInt32_mem (x : ℤ) : -2 ^ 31 ≤ toInt32 x ∧ toInt32 x < 2 ^ 31 := by
  have hlo := Int.le_bmod (x := x) (m := 2 ^ 32) (by decide)
  have hhi := Int.bmod_lt (x := x) (m := 2 ^ 32) (by decide)
  unfold toInt32
  constructor
  · exact hlo
  · exact hhi

/-- What `init` accepts. -/
structure FieldMeta.Valid (field : FieldMeta) : Prop where
  cStr_name : cStr field.name = field.name
  not_blank : isBlank field.name = false
  type_ne : field.attrType ≠ .undefined
  offset_nonneg : 0 ≤ field.attrOffset
  offset_lt : field.attrOffset < 2 ^ 31
  len_pos : 0 < field.attrLen
  len_lt : field.attrLen < 2 ^ 31

theorem FieldMeta.init_eq_ok {name : String} {attrType : AttrType} {nullable visible : Bool} {offset len : ℤ}
    {field : FieldMeta} (h : init name attrType nullable offset len visible = .ok field) :
    field = ⟨cStr name, attrType, nullable, offset, len, visible⟩ ∧ isBlank name = false ∧ attrType ≠ .undefined ∧
      0 ≤ offset ∧ 0 < len := by
  unfold init at h
  split at h
  · cases h
  · next hblank =>
    split at h
    · cases h
    · next hbad =>
      push Not at hbad
      exact ⟨(Except.ok.inj h).symm, Bool.eq_false_iff.mpr hblank, hbad⟩

theorem FieldMeta.init_valid {name : String} {attrType : AttrType} {nullable visible : Bool} {offset len : ℤ}
    {field : FieldMeta} (h : init name attrType nullable offset len visible = .ok field) (hoffset : offset < 2 ^ 31)
    (hlen : len < 2 ^ 31) : field.Valid := by
  obtain ⟨rfl, hblank, htype, hoffset', hlen'⟩ := init_eq_ok h
  exact ⟨cStr_cStr name, (isBlank_cStr name).trans hblank, htype, hoffset', hoffset, hlen', hlen⟩

theorem FieldMeta.Valid.init_self {field : FieldMeta} (h : field.Valid) :
    init field.name field.attrType field.nullable field.attrOffset field.attrLen field.visible = .ok field := by
  have hbad : ¬(field.attrType = .undefined ∨ field.attrOffset < 0 ∨ field.attrLen ≤ 0) := by
    have := h.offset_nonneg
    have := h.len_pos
    simp [h.type_ne]
    omega
  rw [init, if_neg (by simp [h.not_blank]), if_neg hbad, h.cStr_name]

theorem asInt?_int {i : ℤ} (hlo : -2 ^ 31 ≤ i) (hhi : i < 2 ^ 31) : (Json.int i).asInt? = some i := if_pos ⟨hlo, hhi⟩

theorem FieldMeta.fromJson_toJson {field : FieldMeta} (h : field.Valid) : fromJson field.toJson = .ok field := by
  have hname : field.toJson.get "name" = .string field.name := by simp [toJson, Json.get_set_of_ne]
  have htype : field.toJson.get "type" = .string (attrTypeToString field.attrType) := by
    simp [toJson, Json.get_set_of_ne]
  have hnullable : field.toJson.get "nullable" = .bool field.nullable := by simp [toJson, Json.get_set_of_ne]
  have hoffset : field.toJson.get "offset" = .int field.attrOffset := by simp [toJson, Json.get_set_of_ne]
  have hlen : field.toJson.get "len" = .int field.attrLen := by simp [toJson, Json.get_set_of_ne]
  have hvisible : field.toJson.get "visible" = .bool field.visible := by simp [toJson]
  have hoffset' := asInt?_int (by have := h.offset_nonneg; omega) h.offset_lt
  have hlen' := asInt?_int (by have := h.len_pos; omega) h.len_lt
  have hobject : ¬field.toJson.isObject = false := by simp [toJson]
  rw [fromJson, if_neg hobject, hname, htype, hnullable, hoffset, hlen, hvisible, hoffset', hlen']
  simp only [Json.asString?, Json.isBool, Json.asBool?, attrTypeFromString_toString, if_neg h.type_ne]
  exact h.init_self

/-! ## Offsets -/

/-- The fields lie behind each other, from one offset to another. -/
def Laid : ℤ → List FieldMeta → ℤ → Prop
  | off, [], off' => off' = off
  | off, field :: fields, off' => field.Valid ∧ field.attrOffset = off ∧ Laid (toInt32 (off + field.attrLen)) fields off'

theorem Laid.append {fields fields' : List FieldMeta} {off mid off' : ℤ} (h : Laid off fields mid)
    (h' : Laid mid fields' off') : Laid off (fields ++ fields') off' := by
  induction fields generalizing off with
  | nil => exact (show mid = off from h) ▸ h'
  | cons field fields ih => exact ⟨h.1, h.2.1, ih h.2.2⟩

theorem Laid.valid {fields : List FieldMeta} {off off' : ℤ} (h : Laid off fields off') :
    ∀ field ∈ fields, field.Valid := by
  induction fields generalizing off with
  | nil => simp
  | cons field fields ih =>
    intro f hf
    rcases List.mem_cons.mp hf with rfl | hf
    · exact h.1
    · exact ih h.2.2 f hf

/-- An offset that is accepted has not wrapped around. -/
theorem toInt32_add_of_nonneg {a b : ℤ} (ha : 0 ≤ a) (ha' : a < 2 ^ 31) (hb : 0 < b) (hb' : b < 2 ^ 31)
    (h : 0 ≤ toInt32 (a + b)) : toInt32 (a + b) = a + b := by
  unfold toInt32 at h ⊢
  rw [Int.bmod_def] at h ⊢
  push_cast at h ⊢
  split at h
  · rw [if_pos ‹_›]
    omega
  · omega

theorem Laid.nonneg {field : FieldMeta} {fields : List FieldMeta} {off off' : ℤ} (h : Laid off (field :: fields) off') :
    0 ≤ off := h.2.1 ▸ h.1.offset_nonneg

theorem Laid.le {fields : List FieldMeta} {off off' : ℤ} (h : Laid off fields off') :
    ∀ field ∈ fields, off ≤ field.attrOffset := by
  induction fields generalizing off with
  | nil => simp
  | cons field fields ih =>
    obtain ⟨hvalid, hoff, hrest⟩ := h
    intro f hf
    rcases List.mem_cons.mp hf with rfl | hf
    · exact hoff.ge
    · cases fields with
      | nil => cases hf
      | cons next fields =>
        have hlt := hvalid.offset_lt
        have hnonneg := hvalid.offset_nonneg
        have hstep := toInt32_add_of_nonneg (hoff ▸ hnonneg) (hoff ▸ hlt) hvalid.len_pos hvalid.len_lt hrest.nonneg
        have hle := ih hrest f hf
        rw [hstep] at hle
        exact le_trans (le_add_of_nonneg_right hvalid.len_pos.le) hle

theorem Laid.pairwise {fields : List FieldMeta} {off off' : ℤ} (h : Laid off fields off') :
    fields.Pairwise fun f1 f2 => f1.attrOffset ≤ f2.attrOffset := by
  induction fields generalizing off with
  | nil => exact List.Pairwise.nil
  | cons field fields ih =>
    refine List.pairwise_cons.mpr ⟨?_, ih h.2.2⟩
    intro f hf
    exact h.2.1 ▸ h.le f (List.mem_cons_of_mem _ hf)

theorem Laid.end_eq {fields : List FieldMeta} {off off' : ℤ} (h : Laid off fields off') (hne : fields ≠ []) :
    off' = toInt32 ((fields.getLastD {}).attrOffset + (fields.getLastD {}).attrLen) := by
  induction fields generalizing off with
  | nil => exact absurd rfl hne
  | cons field fields ih =>
    obtain ⟨hvalid, rfl, hrest⟩ := h
    cases fields with
    | nil => exact hrest
    | cons next fields => exact ih hrest (List.cons_ne_nil _ _)

theorem Laid.length_le {fields : List FieldMeta} {off off' : ℤ} (h : Laid off fields off') (hoff : off < 2 ^ 31) :
    off + fields.length ≤ 2 ^ 31 := by
  induction fields generalizing off with
  | nil => simpa using hoff.le
  | cons field fields ih =>
    obtain ⟨hvalid, heq, hrest⟩ := h
    cases fields with
    | nil => simpa using hoff
    | cons next fields =>
      have hnonneg := heq ▸ hvalid.offset_nonneg
      have hlen := hvalid.len_pos
      have hstep := toInt32_add_of_nonneg hnonneg hoff hlen hvalid.len_lt hrest.nonneg
      have hle := ih hrest (toInt32_mem _).2
      rw [hstep] at hle
      rw [List.length_cons]
      push_cast at hle ⊢
      omega

namespace TableMeta

theorem initFields_laid {attributes : List AttrInfoSqlNode} {off : ℤ} {rest : List FieldMeta × ℤ}
    (h : initFields attributes off = .ok rest) (hoff : off < 2 ^ 31) :
    Laid off rest.1 rest.2 ∧ rest.1.length = attributes.length := by
  induction attributes generalizing off rest with
  | nil =>
    obtain rfl := Except.ok.inj h
    exact ⟨rfl, rfl⟩
  | cons attr attributes ih =>
    rw [initFields] at h
    cases hfield : FieldMeta.init attr.name attr.type attr.nullable off (toInt32 attr.length) true with
    | error rc => rw [hfield] at h; cases h
    | ok field =>
      cases hrest : initFields attributes (toInt32 (off + attr.length)) with
      | error rc => rw [hfield, hrest] at h; cases h
      | ok rest' =>
        rw [hfield, hrest] at h
        obtain rfl := Except.ok.inj h
        have hvalid := FieldMeta.init_valid hfield hoff (toInt32_mem _).2
        obtain ⟨hlaid, hlength⟩ := ih hrest (toInt32_mem _).2
        refine ⟨⟨hvalid, ?_, ?_⟩, congrArg (· + 1) hlength⟩
        · rw [(FieldMeta.init_eq_ok hfield).1]
        · rw [(FieldMeta.init_eq_ok hfield).1, toInt32, toInt32, Int.add_bmod_bmod]
          exact hlaid

theorem initTrxFields_laid (kit : TrxKit) :
    Laid 0 (initTrxFields kit.trxFields 0).1 (initTrxFields kit.trxFields 0).2 ∧
      (initTrxFields kit.trxFields 0).2 = 4 * kit.trxFields.length ∧ kit.trxFields.length ≤ 2 := by
  cases kit with
  | vacuous => exact ⟨rfl, rfl, by decide⟩
  | mvcc =>
    refine ⟨⟨⟨?_, ?_, ?_, ?_, ?_, ?_, ?_⟩, rfl, ⟨?_, ?_, ?_, ?_, ?_, ?_, ?_⟩, rfl, rfl⟩, rfl, by decide⟩ <;> decide

theorem nullFieldLen_mem {trxFieldNum fieldNum : ℕ} (htrx : trxFieldNum ≤ 2) (hnum : (fieldNum : ℤ) ≤ 2 ^ 31)
    (hoffset : 0 ≤ toInt32 (4 * trxFieldNum + nullFieldLen trxFieldNum fieldNum)) :
    0 < nullFieldLen trxFieldNum fieldNum ∧ nullFieldLen trxFieldNum fieldNum < 2 ^ 29 := by
  by_cases hsum : (trxFieldNum + 1 + fieldNum : ℤ) < 2 ^ 31
  · have hlen : nullFieldLen trxFieldNum fieldNum = (trxFieldNum + 1 + fieldNum : ℤ) / 8 + 1 := by
      rw [nullFieldLen, toInt32_of_range (by omega) hsum, Int.tdiv_eq_ediv_of_nonneg (by omega)]
    omega
  · -- the number of fields would have wrapped around, and the offset behind the bitmap with it
    have hwrap : toInt32 (trxFieldNum + 1 + fieldNum) = -(2 ^ 32 - (trxFieldNum + 1 + fieldNum)) := by
      rw [toInt32, Int.bmod_def]
      push_cast
      rw [if_neg (by omega)]
      omega
    have hlen : nullFieldLen trxFieldNum fieldNum = -((2 ^ 32 - (trxFieldNum + 1 + fieldNum)) / 8) + 1 := by
      rw [nullFieldLen, hwrap, Int.neg_tdiv, Int.tdiv_eq_ediv_of_nonneg (by omega)]
    rw [hlen, toInt32_of_range (by omega) (by omega)] at hoffset
    omega

theorem nullField_laid {trxFieldNum fieldNum : ℕ} (htrx : trxFieldNum ≤ 2) (hnum : (fieldNum : ℤ) ≤ 2 ^ 31)
    (hoffset : 0 ≤ toInt32 (4 * trxFieldNum + nullFieldLen trxFieldNum fieldNum)) :
    Laid (4 * trxFieldNum) [nullField (4 * trxFieldNum) (nullFieldLen trxFieldNum fieldNum)]
      (toInt32 (4 * trxFieldNum + nullFieldLen trxFieldNum fieldNum)) := by
  obtain ⟨hpos, hlt⟩ := nullFieldLen_mem htrx hnum hoffset
  have hinit : FieldMeta.init "__null" .chars false (4 * trxFieldNum) (nullFieldLen trxFieldNum fieldNum) false =
      .ok ⟨"__null", .chars, false, 4 * trxFieldNum, nullFieldLen trxFieldNum fieldNum, false⟩ := by
    rw [FieldMeta.init, if_neg (by decide), if_neg (by simp; omega)]
    rfl
  have hvalid := FieldMeta.init_valid hinit (by omega) (by omega)
  rw [nullField, toInt32_of_range (by omega) (by omega), hinit]
  exact ⟨hvalid, rfl, rfl⟩

/-- The fields of an accepted table lie behind each other and fill the record. -/
theorem init_laid {kit : TrxKit} {tableId : ℤ} {name : String} {attributes : List AttrInfoSqlNode} {table : TableMeta}
    (h : init kit tableId name attributes = .ok table) :
    Laid 0 table.fields table.recordSize ∧ table.fields ≠ [] ∧ table.tableId = toInt32 tableId ∧ table.indexes = [] := by
  obtain ⟨htrx, hoff, hlen⟩ := initTrxFields_laid kit
  unfold init at h
  by_cases hblank : isBlank name = true
  · rw [if_pos hblank] at h
    cases h
  by_cases hnil : attributes = []
  · rw [if_neg hblank, if_pos hnil] at h
    cases h
  rw [if_neg hblank, if_neg hnil] at h
  simp only [hoff] at h htrx
  cases hrest : initFields attributes
      (toInt32 (4 * kit.trxFields.length + nullFieldLen kit.trxFields.length attributes.length)) with
  | error rc =>
    rw [hrest] at h
    cases h
  | ok rest =>
    rw [hrest] at h
    obtain rfl := Except.ok.inj h
    obtain ⟨hlaid, hlength⟩ := initFields_laid hrest (toInt32_mem _).2
    have hnonneg : 0 ≤ toInt32 (4 * kit.trxFields.length + nullFieldLen kit.trxFields.length attributes.length) := by
      cases hfields : rest.1 with
      | nil => exact absurd (List.eq_nil_of_length_eq_zero (hlength ▸ hfields ▸ rfl)) hnil
      | cons field fields => exact (hfields ▸ hlaid).nonneg
    have hnum := hlaid.length_le (toInt32_mem _).2
    rw [hlength] at hnum
    refine ⟨htrx.append ((nullField_laid hlen (by omega) hnonneg).append hlaid), ?_, rfl, rfl⟩
    exact List.append_ne_nil_of_right_ne_nil _ (List.cons_ne_nil _ _)

end TableMeta

/-! ## The round trip -/

/-- Indexes that can be read back: their names are not blank, and their fields are in the table. -/
structure IndexMeta.Valid (table : TableMeta) (index : IndexMeta) : Prop where
  cStr_name : cStr index.name = index.name
  not_blank : isBlank index.name = false
  fields : ∀ name ∈ index.fields, ∃ field ∈ table.fields, field.name = name

/-- The invariant of `init` and `add_index`. -/
structure TableMeta.Valid (table : TableMeta) : Prop where
  id_lo : -2 ^ 31 ≤ table.tableId
  id_hi : table.tableId < 2 ^ 31
  laid : Laid 0 table.fields table.recordSize
  fields_ne : table.fields ≠ []
  indexes : ∀ index ∈ table.indexes, IndexMeta.Valid table index

theorem TableMeta.init_valid {kit : TrxKit} {tableId : ℤ} {name : String} {attributes : List AttrInfoSqlNode}
    {table : TableMeta} (h : init kit tableId name attributes = .ok table) : table.Valid := by
  obtain ⟨hlaid, hne, hid, hindexes⟩ := init_laid h
  have hmem := toInt32_mem tableId
  rw [← hid] at hmem
  refine ⟨hmem.1, hmem.2, hlaid, hne, ?_⟩
  simp [hindexes]

theorem TableMeta.Valid.addIndex {table : TableMeta} (h : table.Valid) {name : String} {fields : List FieldMeta}
    {unique : Bool} {index : IndexMeta} (hfields : ∀ field ∈ fields, field ∈ table.fields)
    (hindex : IndexMeta.init name fields unique = .ok index) : (table.addIndex index).Valid := by
  refine ⟨h.id_lo, h.id_hi, h.laid, h.fields_ne, ?_⟩
  have hnew : IndexMeta.Valid table index := by
    unfold IndexMeta.init IndexMeta.initNames at hindex
    split at hindex
    · cases hindex
    · next hblank =>
      obtain rfl := Except.ok.inj hindex
      refine ⟨cStr_cStr name, (isBlank_cStr name).trans (Bool.eq_false_iff.mpr hblank), ?_⟩
      intro name' hname'
      obtain ⟨field, hfield, rfl⟩ := List.mem_map.mp hname'
      have hmem := hfields field hfield
      exact ⟨field, hmem, (h.laid.valid field hmem).cStr_name.symm⟩
  intro index' hindex'
  cases List.mem_append.mp hindex' with
  | inl hold => exact ⟨(h.indexes index' hold).1, (h.indexes index' hold).2, (h.indexes index' hold).3⟩
  | inr hlast =>
    obtain rfl := List.mem_singleton.mp hlast
    exact ⟨hnew.1, hnew.2, hnew.3⟩

theorem IndexMeta.fieldNames_map {table : TableMeta} (hvalid : ∀ field ∈ table.fields, field.Valid) (names : List String)
    (h : ∀ name ∈ names, ∃ field ∈ table.fields, field.name = name) :
    fieldNames table (names.map .string) = .ok names := by
  induction names with
  | nil => rfl
  | cons name names ih =>
    obtain ⟨field, hfield, hname⟩ := h name List.mem_cons_self
    have hrest := ih fun name' hname' => h name' (List.mem_cons_of_mem _ hname')
    have hsome : (table.field name).isSome = true :=
      List.find?_isSome.mpr ⟨field, hfield, decide_eq_true (hname ▸ rfl)⟩
    obtain ⟨found, hfound⟩ := Option.isSome_iff_exists.mp hsome
    have hsame : cStr found.name = cStr name := by simpa using List.find?_some hfound
    have hcStr : cStr name = name := hname ▸ (hvalid field hfield).cStr_name
    rw [List.map_cons, fieldNames]
    simp only [Json.asString?, hfound, hrest, hsame, hcStr]
    rfl

theorem IndexMeta.fromJson_toJson {table : TableMeta} (hvalid : ∀ field ∈ table.fields, field.Valid) {index : IndexMeta}
    (h : index.Valid table) : fromJson table index.toJson = .ok index := by
  have hname : index.toJson.get "name" = .string index.name := by
    rw [toJson, Json.get_foldl_set_of_ne _ (by decide)]
    simp [Json.get_set_of_ne]
  have hunique : index.toJson.get "unique" = .bool index.unique := by
    rw [toJson, Json.get_foldl_set_of_ne _ (by decide)]
    simp
  have hfields : (index.toJson.get "field_name").elements = index.fields.map .string := by
    have hnull : ((Json.null.set "name" (.string index.name)).set "unique" (.bool index.unique)).get "field_name" =
        .null := by simp [Json.get_set_of_ne]
    have hloop := Json.elements_get_foldl_setAt Json.string "field_name" index.fields
      ((Json.null.set "name" (.string index.name)).set "unique" (.bool index.unique)) (Or.inl hnull)
    rw [hnull] at hloop
    exact hloop
  rw [fromJson, hname, hunique, hfields, fieldNames_map hvalid index.fields h.fields]
  simp only [Json.asString?, Json.isBool, Json.asBool?, Except.bind, initNames, h.not_blank, h.cStr_name]
  rfl

theorem mapM_map_eq_ok {α β ε : Type} {f : α → β} {g : β → Except ε α} (l : List α) (h : ∀ a ∈ l, g (f a) = .ok a) :
    (l.map f).mapM g = .ok l := by
  induction l with
  | nil => rfl
  | cons a l ih =>
    rw [List.map_cons, List.mapM_cons, h a List.mem_cons_self, ih fun b hb => h b (List.mem_cons_of_mem _ hb)]
    rfl

theorem TableMeta.Valid.sizeOfFields_eq {table : TableMeta} (h : table.Valid) :
    sizeOfFields table.fields = table.recordSize := by
  have hhead : (table.fields.headD {}).attrOffset = 0 := by
    have hlaid := h.laid
    cases hfields : table.fields with
    | nil => exact absurd hfields h.fields_ne
    | cons field fields => exact (hfields ▸ hlaid).2.1
  rw [sizeOfFields, hhead, sub_zero, ← h.laid.end_eq h.fields_ne]

theorem TableMeta.readIndexes_eq {table : TableMeta} (h : table.Valid) :
    readIndexes { table with indexes := [] }
      (table.indexes.foldl (fun (json : Json) index => json.append index.toJson) .null) = (true, table) := by
  have hfields : ∀ field ∈ table.fields, field.Valid := h.laid.valid
  by_cases hnil : table.indexes = []
  · have hsame : { table with indexes := [] } = table := by rw [← hnil]
    rw [hnil, hsame]
    rfl
  · have harray := Json.isArray_foldl_append IndexMeta.toJson hnil
    have helements := Json.elements_foldl_append IndexMeta.toJson table.indexes
    have hread : (table.indexes.map IndexMeta.toJson).mapM (IndexMeta.fromJson { table with indexes := [] }) =
        .ok table.indexes := by
      refine mapM_map_eq_ok table.indexes fun index hindex => ?_
      have hvalid := h.indexes index hindex
      have hbare : IndexMeta.Valid { table with indexes := [] } index := ⟨hvalid.1, hvalid.2, hvalid.3⟩
      refine IndexMeta.fromJson_toJson ?_ hbare
      exact hfields
    rw [readIndexes, Json.isEmpty_of_isArray harray, helements, harray, hread, if_neg (by simpa using hnil),
      if_neg (by decide)]

theorem TableMeta.Valid.deserialize_toJson {table : TableMeta} (h : table.Valid) {parse : String → Option Json}
    {text : String} (hparse : parse text = some table.toJson) : deserialize parse {} text = (true, table) := by
  have hid : table.toJson.get "table_id" = .int table.tableId := by simp [toJson, Json.get_set_of_ne]
  have hname : table.toJson.get "table_name" = .string table.name := by simp [toJson, Json.get_set_of_ne]
  have hfields : table.toJson.get "fields" =
      table.fields.foldl (fun (json : Json) field => json.append field.toJson) .null := by
    simp [toJson, Json.get_set_of_ne]
  have hindexes : table.toJson.get "indexes" =
      table.indexes.foldl (fun (json : Json) index => json.append index.toJson) .null := by simp [toJson]
  have harray := Json.isArray_foldl_append FieldMeta.toJson h.fields_ne
  have helements := Json.elements_foldl_append FieldMeta.toJson table.fields
  have hread : (table.fields.map FieldMeta.toJson).mapM FieldMeta.fromJson = .ok table.fields :=
    mapM_map_eq_ok table.fields fun field hfield => FieldMeta.fromJson_toJson (h.laid.valid field hfield)
  have hsorted : table.fields.mergeSort (fun f1 f2 => decide (f1.attrOffset ≤ f2.attrOffset)) = table.fields :=
    List.mergeSort_of_pairwise (h.laid.pairwise.imp fun hle => decide_eq_true hle)
  have hsome : ¬((table.toJson.get "fields").isArray = false ∨ (table.toJson.get "fields").size = 0) := by
    rw [hfields, harray, Json.size, helements, List.length_map]
    simp [h.fields_ne]
  rw [deserialize, hparse]
  simp only [if_neg hsome]
  rw [hid, hname, hfields, hindexes, helements, hread, asInt?_int h.id_lo h.id_hi]
  simp only [Json.asString?, hsorted, h.sizeOfFields_eq]
  exact readIndexes_eq h

/-- The tables that `init` and calls of `add_index` give. An index is made of fields of the table, which `CreateIndexStmt`
looks up there. -/
inductive Built (kit : TrxKit) : TableMeta → Prop
  | init {tableId : ℤ} {name : String} {attributes : List AttrInfoSqlNode} {table : TableMeta}
      (h : TableMeta.init kit tableId name attributes = .ok table) : Built kit table
  | addIndex {table : TableMeta} {name : String} {fields : List FieldMeta} {unique : Bool} {index : IndexMeta}
      (h : Built kit table) (hfields : ∀ field ∈ fields, field ∈ table.fields)
      (hindex : IndexMeta.init name fields unique = .ok index) : Built kit (table.addIndex index)

theorem Built.valid {kit : TrxKit} {table : TableMeta} (h : Built kit table) : table.Valid := by
  induction h with
  | init h => exact TableMeta.init_valid h
  | addIndex _ hfields hindex ih => exact ih.addIndex hfields hindex

/-- What is written is read back in a new table, when jsoncpp reads the value that it has written. -/
theorem deserialize_serialize {kit : TrxKit} {table : TableMeta} (h : Built kit table) {write : Json → String}
    {parse : String → Option Json} (hjson : parse (write table.toJson) = some table.toJson) :
    TableMeta.deserialize parse {} (table.serialize write) = (true, table) := h.valid.deserialize_toJson hjson

/-- `CREATE TABLE t(id int not null)` and `CREATE UNIQUE INDEX i ON t(id)`, without versions of records. -/
def idTable : TableMeta where
  tableId := 1
  name := "t"
  fields := [⟨"__null", .chars, false, 0, 1, false⟩, ⟨"id", .ints, false, 1, 4, true⟩]
  indexes := [⟨"i", ["id"], true⟩]
  recordSize := 5

/-- The file of the table. -/
def idTableText : String :=
  "\x7b\n\t\"fields\" : \n\t[\n\t\t\x7b\n\t\t\t\"len\" : 1,\n\t\t\t\"name\" : \"__null\",\n" ++
  "\t\t\t\"nullable\" : false,\n\t\t\t\"offset\" : 0,\n\t\t\t\"type\" : \"chars\",\n\t\t\t\"visible\" : false\n\t\t\x7d,\n" ++
  "\t\t\x7b\n\t\t\t\"len\" : 4,\n\t\t\t\"name\" : \"id\",\n" ++
  "\t\t\t\"nullable\" : false,\n\t\t\t\"offset\" : 1,\n\t\t\t\"type\" : \"ints\",\n\t\t\t\"visible\" : true\n\t\t\x7d\n\t],\n" ++
  "\t\"indexes\" : \n\t[\n\t\t\x7b\n\t\t\t\"field_name\" : \n\t\t\t[\n\t\t\t\t\"id\"\n\t\t\t],\n" ++
  "\t\t\t\"name\" : \"i\",\n\t\t\t\"unique\" : true\n\t\t\x7d\n\t],\n\t\"table_id\" : 1,\n\t\"table_name\" : \"t\"\n\x7d"

theorem idTable_built : Built .vacuous idTable := by
  have hinit : TableMeta.init .vacuous 1 "t" [⟨.ints, "id", 4, false⟩] = .ok { idTable with indexes := [] } := by
    decide +kernel
  have hindex : IndexMeta.init "i" [⟨"id", .ints, false, 1, 4, true⟩] true = .ok ⟨"i", ["id"], true⟩ := by decide +kernel
  exact Built.addIndex (Built.init hinit) (by decide) hindex

theorem deserialize_serialize_idTable :
    Built .vacuous idTable ∧
      TableMeta.deserialize (fun text => if text = idTableText then some idTable.toJson else none) {}
        (idTable.serialize fun _ => idTableText) = (true, idTable) :=
  ⟨idTable_built, deserialize_serialize idTable_built (if_pos rfl)⟩

end Landbase.Meta
