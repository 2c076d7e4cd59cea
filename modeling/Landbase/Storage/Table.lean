import Mathlib.Data.Finset.Image
import Landbase.Index.FileHeader

/-! # Tables: stored records and their indexes

`Table` of `storage/table/table.cpp` over `RecordFileHandler` and the `Index` interface. A record is its bytes, with the
two transaction fields `__trx_xid_begin` and `__trx_xid_end` kept apart as integers; nothing but the transaction manager
reads these.

The slot in which `RecordFileHandler::insert_record` stores a record depends on the order in which an unordered set of
free pages is walked, so it is an argument here: any slot that holds no record.

An index is the set of its entries. Two records have the same key when the comparator of the index sees no difference
between their attributes, which for integers, dates and strings means that their `attrVals` are equal; `insert_entry`
refuses an entry that is there, and a unique index refuses a key that is there.

That is what the tree of an index does when its fields are `WellKeyed`: integers, dates and strings, not more of them than
the file header takes, and no keys so long that a node holds only a few. Floats are equal for the comparator within
`EPSILON`, and no set of keys describes an index on them: what depends on the answers of an index is said of `WellKeyed`
tables only.
-/

namespace Landbase.Storage
open Landbase.Index
set_option autoImplicit false

/-! ## Fields and records -/

/-- `FieldMeta`, as far as keys and null bits depend on it. -/
structure FieldMeta where
  type : AttrType
  offset : ℕ
  len : ℕ
  deriving DecidableEq, Repr

structure Record where
  beginXid : ℤ
  endXid : ℤ
  data : Bytes
  deriving DecidableEq, Repr

/-- `Bitmap::get_bit`. -/
def getBit (bitmap : Bytes) (index : ℕ) : Bool := (bitmap.getD (index / 8) 0).toNat.testBit (index % 8)

/-! ## Indexes -/

/-- What an index sees of the attributes of a record. -/
abbrev IndexKey := List (ℤ ⊕ₗ List ℕ)

structure Index where
  fieldMetas : List FieldMeta
  unique : Bool
  entries : Finset (IndexKey × RID)
  deriving DecidableEq

namespace Index

def attrs (index : Index) : List Attr := index.fieldMetas.map fun f => ⟨f.type, f.len⟩

/-- The key that `make_key` builds from a record, without the `RID`. -/
def key (index : Index) (data : Bytes) : IndexKey :=
  attrVals index.attrs (makeKey index.attrs (index.fieldMetas.map FieldMeta.offset) data ⟨0, 0⟩).attrs

/-- The index holds what makes it refuse the entry. -/
def refuses (index : Index) (key : IndexKey) (rid : RID) : Bool :=
  if index.unique then decide (∃ e ∈ index.entries, e.1 = key) else decide ((key, rid) ∈ index.entries)

/-- `Index::insert_entry`. -/
def insertEntry (index : Index) (data : Bytes) (rid : RID) : RC × Index :=
  if index.refuses (index.key data) rid then (.recordDuplicateKey, index)
  else (.success, { index with entries := insert (index.key data, rid) index.entries })

/-- `Index::delete_entry`. -/
def deleteEntry (index : Index) (data : Bytes) (rid : RID) : RC × Index :=
  if (index.key data, rid) ∈ index.entries then
    (.success, { index with entries := index.entries.erase (index.key data, rid) })
  else (.recordNotExist, index)

end Index

/-! ## Tables -/

/-- A table: `fields_` of its `TableMeta` (the system fields included), the offset of the field `__null`, the indexes and
the stored records. -/
structure Table where
  fields : List FieldMeta
  nullOffset : ℕ
  indexes : List Index
  records : RID → Option Record

namespace Table

/-- The trees of the indexes are sets of entries. -/
def WellKeyed (t : Table) : Prop := ∀ index ∈ t.indexes, Index.WellKeyed index.attrs

instance (t : Table) : Decidable t.WellKeyed :=
  inferInstanceAs (Decidable (∀ index ∈ t.indexes, Index.WellKeyed index.attrs))

/-- `TableMeta::field_index`, which goes by the offset. -/
def fieldIndex (t : Table) (fieldMeta : FieldMeta) : Option ℕ :=
  t.fields.findIdx? fun field => fieldMeta.offset == field.offset

/-- The loop that sets `has_null`; `none` when a field of the index is not a field of the table. -/
def hasNull (t : Table) (data : Bytes) : List FieldMeta → Option Bool
  | [] => some false
  | fieldMeta :: fieldMetas =>
    match t.fieldIndex fieldMeta with
    | none => none
    | some fieldIndex =>
      if getBit (data.drop t.nullOffset) fieldIndex then some true else t.hasNull data fieldMetas

/-- The loop of `Table::insert_entry_of_indexes`. -/
def insertEntries (t : Table) (data : Bytes) (rid : RID) : List Index → RC × List Index
  | [] => (.success, [])
  | index :: indexes =>
    match t.hasNull data index.fieldMetas with
    | none => (.internal, index :: indexes)
    | some true =>
      let (rc, indexes) := t.insertEntries data rid indexes
      (rc, index :: indexes)
    | some false =>
      let (rc, index) := index.insertEntry data rid
      if rc ≠ .success then (rc, index :: indexes)
      else
        let (rc, indexes) := t.insertEntries data rid indexes
        (rc, index :: indexes)

/-- The loop of `Table::delete_entry_of_indexes`, which starts with `rc` at `SUCCESS`. -/
def deleteEntries (t : Table) (data : Bytes) (rid : RID) (errorOnNotExists : Bool) : RC → List Index → RC × List Index
  | rc, [] => (rc, [])
  | rc, index :: indexes =>
    match t.hasNull data index.fieldMetas with
    | none => (.internal, index :: indexes)
    | some true =>
      let (rc, indexes) := t.deleteEntries data rid errorOnNotExists rc indexes
      (rc, index :: indexes)
    | some false =>
      let (rc, index) := index.deleteEntry data rid
      if rc ≠ .success ∧ (rc ≠ .recordInvalidKey ∨ errorOnNotExists = false) then (rc, index :: indexes)
      else
        let (rc, indexes) := t.deleteEntries data rid errorOnNotExists rc indexes
        (rc, index :: indexes)

/-- `Table::insert_entry_of_indexes`. -/
def insertEntryOfIndexes (t : Table) (record : Record) (rid : RID) : RC × Table :=
  let (rc, indexes) := t.insertEntries record.data rid t.indexes
  (rc, { t with indexes := indexes })

/-- `Table::delete_entry_of_indexes`. -/
def deleteEntryOfIndexes (t : Table) (record : Record) (rid : RID) (errorOnNotExists : Bool) : RC × Table :=
  let (rc, indexes) := t.deleteEntries record.data rid errorOnNotExists .success t.indexes
  (rc, { t with indexes := indexes })

/-- Writing a slot of the record file. -/
def setRecord (t : Table) (rid : RID) (record : Option Record) : Table :=
  { t with records := Function.update t.records rid record }

/-- `RecordFileHandler::delete_record`. -/
def eraseRecord (t : Table) (rid : RID) : RC × Table :=
  match t.records rid with
  | none => (.recordNotExist, t)
  | some _ => (.success, t.setRecord rid none)

/-- `Table::get_record`. -/
def getRecord (t : Table) (rid : RID) : RC × Option Record :=
  match t.records rid with
  | none => (.recordNotExist, none)
  | some record => (.success, some record)

/-- `Table::insert_record` into the slot `rid`, and `Table::recover_insert_record`. -/
def insertRecord (t : Table) (record : Record) (rid : RID) : RC × Table :=
  let t := t.setRecord rid (some record)
  let (rc, t) := t.insertEntryOfIndexes record rid
  if rc ≠ .success then
    let (_, t) := t.deleteEntryOfIndexes record rid false
    (rc, (t.eraseRecord rid).2)
  else (rc, t)

/-- `Table::delete_record`. -/
def deleteRecord (t : Table) (record : Record) (rid : RID) : RC × Table :=
  let (rc, t) := t.deleteEntryOfIndexes record rid true
  if rc ≠ .success then (rc, t) else t.eraseRecord rid

/-- `Table::update_record`, where the new record carries the `RID` of the old one. -/
def updateRecord (t : Table) (record newRecord : Record) (rid : RID) : RC × Table :=
  let (rc, t) := t.deleteEntryOfIndexes record rid false
  if rc ≠ .success then (rc, t)
  else
    let (rc, t) := t.insertEntryOfIndexes newRecord rid
    if rc ≠ .success then (rc, (t.insertEntryOfIndexes record rid).2)
    else
      match t.records rid with
      | none => (.recordNotExist, t)
      | some _ => (.success, t.setRecord rid (some newRecord))

end Table

end Landbase.Storage
