import Landbase.Storage.Consistent

/-! # Tables of one schema

No operation on a table changes its fields, or its indexes but for their entries.
-/

namespace Landbase.Storage
open Landbase.Index
set_option autoImplicit false

/-! ## Schemas -/

/-- Two tables have the same fields and the same indexes, up to their entries. -/
structure SameSchema (t t' : Table) : Prop where
  fields : t'.fields = t.fields
  nullOffset : t'.nullOffset = t.nullOffset
  indexes : t'.indexes.map (fun index => (index.fieldMetas, index.unique)) =
    t.indexes.map fun index => (index.fieldMetas, index.unique)

namespace SameSchema

variable {t t' t'' : Table}

theorem refl (t : Table) : SameSchema t t := ⟨rfl, rfl, rfl⟩

theorem trans (h : SameSchema t t') (h' : SameSchema t' t'') : SameSchema t t'' :=
  ⟨h'.fields.trans h.fields, h'.nullOffset.trans h.nullOffset, h'.indexes.trans h.indexes⟩

theorem symm (h : SameSchema t t') : SameSchema t' t := ⟨h.fields.symm, h.nullOffset.symm, h.indexes.symm⟩

theorem of_map {f : Index → Index} (hfields : t'.fields = t.fields) (hnull : t'.nullOffset = t.nullOffset)
    (hindexes : t'.indexes = t.indexes.map f)
    (hf : ∀ index, (f index).fieldMetas = index.fieldMetas ∧ (f index).unique = index.unique) : SameSchema t t' := by
  refine ⟨hfields, hnull, ?_⟩
  rw [hindexes, List.map_map]
  apply List.map_congr_left
  intro index _
  exact Prod.ext (hf index).1 (hf index).2

theorem exists_index (h : SameSchema t t') {index : Index} (hindex : index ∈ t'.indexes) :
    ∃ index' ∈ t.indexes, index'.fieldMetas = index.fieldMetas ∧ index'.unique = index.unique := by
  have hmem : (index.fieldMetas, index.unique) ∈ t.indexes.map fun index => (index.fieldMetas, index.unique) := by
    rw [← h.indexes]
    exact List.mem_map.mpr ⟨index, hindex, rfl⟩
  obtain ⟨index', hindex', heq⟩ := List.mem_map.mp hmem
  exact ⟨index', hindex', (Prod.mk.inj heq).1, (Prod.mk.inj heq).2⟩

theorem fieldMetas_eq (h : SameSchema t t') {i : ℕ} {index index' : Index} (hi : t.indexes[i]? = some index)
    (hi' : t'.indexes[i]? = some index') : index'.fieldMetas = index.fieldMetas := by
  have heq := congrArg (·[i]?) h.indexes
  simp only [List.getElem?_map, hi, hi', Option.map_some, Option.some.injEq, Prod.mk.injEq] at heq
  exact heq.1

theorem hasNull (h : SameSchema t t') (data : Bytes) (fieldMetas : List FieldMeta) :
    t'.hasNull data fieldMetas = t.hasNull data fieldMetas := Table.hasNull_congr h.fields h.nullOffset data fieldMetas

end SameSchema

theorem Index.key_congr {index index' : Index} (h : index'.fieldMetas = index.fieldMetas) (data : Bytes) :
    index'.key data = index.key data := by
  simp only [Index.key, Index.attrs, h]

theorem insertRecord_success {t : Table} {record : Record} {rid : RID}
    (h : (t.insertRecord record rid).1 = .success) :
    (t.insertRecord record rid).2 = { t with
      indexes := t.indexes.map (t.addEntry record.data rid)
      records := Function.update t.records rid (some record) } := by
  rw [Table.insertRecord_eq] at h ⊢
  split at h
  · next hrc => rw [if_pos hrc, t.insertEntries_success record.data rid t.indexes hrc]
  · next hrc => exact absurd h hrc

theorem sameSchema_insertRecord {t : Table} {record : Record} {rid : RID} (h : (t.insertRecord record rid).1 = .success) :
    SameSchema t (t.insertRecord record rid).2 := by
  rw [insertRecord_success h]
  refine SameSchema.of_map rfl rfl rfl fun index => ?_
  unfold Table.addEntry
  split <;> exact ⟨rfl, rfl⟩

theorem sameSchema_deleteRecord {t : Table} (hs : t.Sound) {record : Record} {rid : RID}
    (hrecord : t.records rid = some record) : SameSchema t (t.deleteRecord record rid).2 := by
  rw [Table.deleteRecord_eq hs hrecord]
  refine SameSchema.of_map rfl rfl rfl fun index => ?_
  unfold Table.dropEntry
  split <;> exact ⟨rfl, rfl⟩

theorem sameSchema_setRecord (t : Table) (rid : RID) (slot : Option Record) : SameSchema t (t.setRecord rid slot) :=
  ⟨rfl, rfl, rfl⟩

theorem Table.Sound.setRecord {t : Table} (hs : t.Sound) {rid : RID} {record record' : Record}
    (hrecord : t.records rid = some record) (hdata : record'.data = record.data) :
    (t.setRecord rid (some record')).Sound := by
  have hrecords : (t.setRecord rid (some record')).records = Function.update t.records rid (some record') := rfl
  refine hs.rewrite rfl rfl (List.map_id _).symm (fun _ => rfl) hrecords (fun _ _ _ _ _ => Iff.rfl) ?_
  intro index hindex key
  show (key, rid) ∈ index.entries ↔ _
  rw [hs.consistent index hindex key rid, hrecord]
  constructor
  · rintro ⟨stored, hstored, hnull, hkey⟩
    obtain rfl := Option.some.inj hstored
    exact ⟨record', rfl, hdata ▸ hnull, hdata ▸ hkey⟩
  · rintro ⟨stored, hstored, hnull, hkey⟩
    obtain rfl := Option.some.inj hstored
    exact ⟨record, rfl, hdata ▸ hnull, hdata ▸ hkey⟩

end Landbase.Storage
