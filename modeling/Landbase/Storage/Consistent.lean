import Landbase.Storage.Table

/-! # The indexes agree with the records

`IndexConsistent` is the invariant between the record file and all indexes of a table: an index holds an entry for each
stored record without a NULL among the fields of the index, and nothing else. The loops over the indexes either reach
the end, and then change every index in the same way, or stop at one index; the undo of `insert_record` runs into the
same index and stops there too, so that nothing remains of the attempt.
-/

namespace Landbase.Storage
open Landbase.Index
set_option autoImplicit false

namespace Table

/-! ## The invariant -/

/-- The fields of the indexes are fields of the table, as `create_index` takes them from there. -/
def WellFormed (t : Table) : Prop := ∀ index ∈ t.indexes, ∀ f ∈ index.fieldMetas, ∃ i, t.fieldIndex f = some i

/-- Every index holds exactly the entries of the stored records that have no NULL among its fields. -/
def IndexConsistent (t : Table) : Prop :=
  ∀ index ∈ t.indexes, ∀ key rid, (key, rid) ∈ index.entries ↔
    ∃ record, t.records rid = some record ∧ t.hasNull record.data index.fieldMetas = some false ∧
      key = index.key record.data

/-- A table whose indexes are on its fields and agree with its records. -/
structure Sound (t : Table) : Prop where
  wellFormed : t.WellFormed
  consistent : t.IndexConsistent

theorem hasNull_isSome {t : Table} (data : Bytes) {fieldMetas : List FieldMeta}
    (h : ∀ f ∈ fieldMetas, ∃ i, t.fieldIndex f = some i) : t.hasNull data fieldMetas ≠ none := by
  induction fieldMetas with
  | nil => simp [hasNull]
  | cons f fieldMetas ih =>
    obtain ⟨i, hi⟩ := h f (by simp)
    unfold hasNull
    simp only [hi]
    split
    · simp
    · exact ih fun g hg => h g (by simp [hg])

theorem hasNull_congr {t t' : Table} (hfields : t'.fields = t.fields) (hnull : t'.nullOffset = t.nullOffset)
    (data : Bytes) (fieldMetas : List FieldMeta) : t'.hasNull data fieldMetas = t.hasNull data fieldMetas := by
  induction fieldMetas with
  | nil => rfl
  | cons f fieldMetas ih => simp only [hasNull, fieldIndex, hfields, hnull, ih]

@[simp] theorem hasNull_setRecord (t : Table) (rid : RID) (record : Option Record) (data : Bytes)
    (fieldMetas : List FieldMeta) : (t.setRecord rid record).hasNull data fieldMetas = t.hasNull data fieldMetas := by
  apply hasNull_congr <;> rfl

@[simp] theorem hasNull_indexes (t : Table) (indexes : List Index) (data : Bytes) (fieldMetas : List FieldMeta) :
    Table.hasNull { t with indexes := indexes } data fieldMetas = t.hasNull data fieldMetas := by
  apply hasNull_congr <;> rfl

theorem insertEntries_congr {t t' : Table} (hfields : t'.fields = t.fields) (hnull : t'.nullOffset = t.nullOffset)
    (data : Bytes) (rid : RID) (indexes : List Index) :
    t'.insertEntries data rid indexes = t.insertEntries data rid indexes := by
  induction indexes with
  | nil => rfl
  | cons index indexes ih => simp only [insertEntries, hasNull_congr hfields hnull, ih]

theorem deleteEntries_congr {t t' : Table} (hfields : t'.fields = t.fields) (hnull : t'.nullOffset = t.nullOffset)
    (data : Bytes) (rid : RID) (errorOnNotExists : Bool) (rc : RC) (indexes : List Index) :
    t'.deleteEntries data rid errorOnNotExists rc indexes = t.deleteEntries data rid errorOnNotExists rc indexes := by
  induction indexes generalizing rc with
  | nil => rfl
  | cons index indexes ih => simp only [deleteEntries, hasNull_congr hfields hnull, ih]

/-! ## What the loops over the indexes do -/

/-- An index after the entry of a record has been added, unless the record has a NULL there. -/
def addEntry (t : Table) (data : Bytes) (rid : RID) (index : Index) : Index :=
  if t.hasNull data index.fieldMetas = some false then
    { index with entries := insert (index.key data, rid) index.entries }
  else index

/-- An index after the entry of a record has been removed. -/
def dropEntry (t : Table) (data : Bytes) (rid : RID) (index : Index) : Index :=
  if t.hasNull data index.fieldMetas = some false then
    { index with entries := index.entries.erase (index.key data, rid) }
  else index

theorem insertEntries_success (t : Table) (data : Bytes) (rid : RID) (indexes : List Index)
    (h : (t.insertEntries data rid indexes).1 = .success) :
    (t.insertEntries data rid indexes).2 = indexes.map (t.addEntry data rid) := by
  induction indexes with
  | nil => rfl
  | cons index indexes ih =>
    unfold insertEntries at h ⊢
    unfold Index.insertEntry at h ⊢
    rw [List.map_cons, addEntry]
    cases hnull : t.hasNull data index.fieldMetas with
    | none => simp [hnull] at h
    | some b =>
      cases b with
      | true =>
        simp only [hnull] at h ⊢
        rw [ih h]
        rfl
      | false =>
        simp only [hnull] at h ⊢
        by_cases hrefuses : index.refuses (index.key data) rid = true
        · simp [hrefuses] at h
        · simp only [hrefuses, if_false, ne_eq, not_true_eq_false, Bool.false_eq_true] at h ⊢
          rw [ih h]
          rfl

/-- No index refuses the entry of the record. -/
def Accepts (t : Table) (data : Bytes) (rid : RID) : Prop :=
  ∀ index ∈ t.indexes, t.hasNull data index.fieldMetas = some false → index.refuses (index.key data) rid = false

theorem accepts_of_insertEntries (t : Table) (data : Bytes) (rid : RID) {indexes : List Index}
    (h : (t.insertEntries data rid indexes).1 = .success) :
    ∀ index ∈ indexes, t.hasNull data index.fieldMetas = some false → index.refuses (index.key data) rid = false := by
  induction indexes with
  | nil => exact fun index hindex => absurd hindex (List.not_mem_nil)
  | cons index indexes ih =>
    unfold insertEntries at h
    unfold Index.insertEntry at h
    intro other hother hnull
    cases hfirst : t.hasNull data index.fieldMetas with
    | none => simp [hfirst] at h
    | some b =>
      cases b with
      | true =>
        simp only [hfirst] at h
        rcases List.mem_cons.mp hother with rfl | hother
        · rw [hfirst] at hnull
          cases hnull
        · exact ih h other hother hnull
      | false =>
        simp only [hfirst] at h
        by_cases hrefuses : index.refuses (index.key data) rid = true
        · simp [hrefuses] at h
        · simp only [hrefuses, if_false, ne_eq, not_true_eq_false, Bool.false_eq_true] at h
          rcases List.mem_cons.mp hother with rfl | hother
          · exact Bool.eq_false_iff.mpr hrefuses
          · exact ih h other hother hnull

theorem insertEntries_accepted (t : Table) (data : Bytes) (rid : RID) {indexes : List Index}
    (hfields : ∀ index ∈ indexes, t.hasNull data index.fieldMetas ≠ none)
    (haccepts : ∀ index ∈ indexes, t.hasNull data index.fieldMetas = some false →
      index.refuses (index.key data) rid = false) : (t.insertEntries data rid indexes).1 = .success := by
  induction indexes with
  | nil => rfl
  | cons index indexes ih =>
    have hrest := ih (fun other ho => hfields other (by simp [ho])) (fun other ho => haccepts other (by simp [ho]))
    unfold insertEntries
    cases hnull : t.hasNull data index.fieldMetas with
    | none => exact absurd hnull (hfields index (by simp))
    | some b =>
      cases b with
      | true => exact hrest
      | false => simp [Index.insertEntry, haccepts index (by simp) hnull, hrest]

/-- After a refused entry the undo restores every index: it stops at the index that has refused. -/
theorem deleteEntries_undo (t : Table) (data : Bytes) (rid : RID) (indexes : List Index)
    (hfresh : ∀ index ∈ indexes, (index.key data, rid) ∉ index.entries)
    (h : (t.insertEntries data rid indexes).1 ≠ .success) (rc : RC) :
    (t.deleteEntries data rid false rc (t.insertEntries data rid indexes).2).2 = indexes := by
  induction indexes generalizing rc with
  | nil => exact absurd rfl h
  | cons index indexes ih =>
    have hnew := hfresh index (by simp)
    have hrest : ∀ other ∈ indexes, (other.key data, rid) ∉ other.entries := fun other ho => hfresh other (by simp [ho])
    unfold insertEntries at h ⊢
    unfold Index.insertEntry at h ⊢
    cases hnull : t.hasNull data index.fieldMetas with
    | none => simp [deleteEntries, hnull]
    | some b =>
      cases b with
      | true =>
        simp only [hnull] at h ⊢
        simp only [deleteEntries, hnull]
        rw [ih hrest h rc]
      | false =>
        simp only [hnull] at h ⊢
        by_cases hrefuses : index.refuses (index.key data) rid = true
        · simp [hrefuses, deleteEntries, hnull, Index.deleteEntry, hnew]
        · simp only [hrefuses, if_false, ne_eq, not_true_eq_false, Bool.false_eq_true] at h ⊢
          have hback : ({ index with entries := insert (index.key data, rid) index.entries } : Index).deleteEntry data rid =
              (.success, index) := by
            show (if (index.key data, rid) ∈ insert (index.key data, rid) index.entries then
              ((.success, _) : RC × Index) else _) = _
            rw [if_pos (Finset.mem_insert_self _ _)]
            congr 1
            show ({ index with entries := (insert (index.key data, rid) index.entries).erase (index.key data, rid) } : Index) = _
            rw [Finset.erase_insert hnew]
          simp only [deleteEntries, hnull, hback, ne_eq, not_true_eq_false, false_and, if_false]
          rw [ih hrest h .success]

theorem deleteEntries_present (t : Table) (data : Bytes) (rid : RID) (errorOnNotExists : Bool) (indexes : List Index)
    (hfields : ∀ index ∈ indexes, t.hasNull data index.fieldMetas ≠ none)
    (hpresent : ∀ index ∈ indexes, t.hasNull data index.fieldMetas = some false →
      (index.key data, rid) ∈ index.entries) :
    t.deleteEntries data rid errorOnNotExists .success indexes = (.success, indexes.map (t.dropEntry data rid)) := by
  induction indexes with
  | nil => rfl
  | cons index indexes ih =>
    have hrest := ih (fun other ho => hfields other (by simp [ho])) (fun other ho => hpresent other (by simp [ho]))
    unfold deleteEntries
    rw [List.map_cons, dropEntry]
    cases hnull : t.hasNull data index.fieldMetas with
    | none => exact absurd hnull (hfields index (by simp))
    | some b =>
      cases b with
      | true => simp [hrest]
      | false =>
        have hmem := hpresent index (by simp) hnull
        simp [Index.deleteEntry, hmem, hrest]

@[simp] theorem addEntry_fieldMetas (t : Table) (data : Bytes) (rid : RID) (index : Index) :
    (t.addEntry data rid index).fieldMetas = index.fieldMetas := by
  unfold addEntry
  split <;> rfl

@[simp] theorem addEntry_key (t : Table) (data : Bytes) (rid : RID) (index : Index) (other : Bytes) :
    (t.addEntry data rid index).key other = index.key other := by
  unfold addEntry
  split <;> rfl

theorem not_mem_of_not_refuses {index : Index} {key : IndexKey} {rid : RID} (h : index.refuses key rid = false) :
    (key, rid) ∉ index.entries := by
  intro hmem
  unfold Index.refuses at h
  split at h
  · exact of_decide_eq_false h ⟨_, hmem, rfl⟩
  · exact of_decide_eq_false h hmem

theorem mem_addEntry (t : Table) (data : Bytes) (rid : RID) (index : Index) (e : IndexKey × RID) :
    e ∈ (t.addEntry data rid index).entries ↔
      (t.hasNull data index.fieldMetas = some false ∧ e = (index.key data, rid)) ∨ e ∈ index.entries := by
  unfold addEntry
  split
  · next h => simp [h]
  · next h => simp [h]

@[simp] theorem dropEntry_fieldMetas (t : Table) (data : Bytes) (rid : RID) (index : Index) :
    (t.dropEntry data rid index).fieldMetas = index.fieldMetas := by
  unfold dropEntry
  split <;> rfl

@[simp] theorem dropEntry_key (t : Table) (data : Bytes) (rid : RID) (index : Index) (other : Bytes) :
    (t.dropEntry data rid index).key other = index.key other := by
  unfold dropEntry
  split <;> rfl

theorem mem_dropEntry (t : Table) (data : Bytes) (rid : RID) (index : Index) (e : IndexKey × RID) :
    e ∈ (t.dropEntry data rid index).entries ↔
      ¬ (t.hasNull data index.fieldMetas = some false ∧ e = (index.key data, rid)) ∧ e ∈ index.entries := by
  unfold dropEntry
  split
  · next h => simp [h]
  · next h => simp [h]

/-! ## The operations keep the invariant -/

section Keep

variable {t : Table}

theorem IndexConsistent.fresh (hc : t.IndexConsistent) {rid : RID} (hfree : t.records rid = none) (key : IndexKey)
    {index : Index} (hindex : index ∈ t.indexes) : (key, rid) ∉ index.entries := by
  intro hmem
  obtain ⟨record, hrecord, -⟩ := (hc index hindex key rid).mp hmem
  rw [hfree] at hrecord
  cases hrecord

theorem IndexConsistent.present (hc : t.IndexConsistent) {rid : RID} {record : Record}
    (hrecord : t.records rid = some record) {index : Index} (hindex : index ∈ t.indexes)
    (hnull : t.hasNull record.data index.fieldMetas = some false) : (index.key record.data, rid) ∈ index.entries :=
  (hc index hindex _ rid).mpr ⟨record, hrecord, hnull, rfl⟩

theorem insertRecord_eq (t : Table) (record : Record) (rid : RID) :
    t.insertRecord record rid =
      if (t.insertEntries record.data rid t.indexes).1 = .success then
        (.success, { t with
          indexes := (t.insertEntries record.data rid t.indexes).2
          records := Function.update t.records rid (some record) })
      else
        ((t.insertEntries record.data rid t.indexes).1, { t with
          indexes := (t.deleteEntries record.data rid false .success (t.insertEntries record.data rid t.indexes).2).2
          records := Function.update t.records rid none }) := by
  have hins : (t.setRecord rid (some record)).insertEntries record.data rid t.indexes =
      t.insertEntries record.data rid t.indexes := by
    apply insertEntries_congr <;> rfl
  have hindexes : (t.setRecord rid (some record)).indexes = t.indexes := rfl
  unfold insertRecord insertEntryOfIndexes
  simp only [hindexes, hins]
  by_cases hrc : (t.insertEntries record.data rid t.indexes).1 = .success
  · simp only [hrc, ne_eq, not_true_eq_false, if_false, if_true]
    rfl
  · have hdel : ∀ indexes : List Index, Table.deleteEntries { t.setRecord rid (some record) with indexes := indexes }
        record.data rid false .success indexes = t.deleteEntries record.data rid false .success indexes := by
      intro indexes
      apply deleteEntries_congr <;> rfl
    simp only [hrc, ne_eq, not_false_eq_true, if_true, if_false, deleteEntryOfIndexes, hdel]
    simp [eraseRecord, setRecord]

/-- No index has an entry for this slot. -/
def Unlisted (t : Table) (rid : RID) : Prop := ∀ index ∈ t.indexes, ∀ key, (key, rid) ∉ index.entries

/-- An `insert_record` that fails on an unlisted slot changes nothing. -/
theorem insertRecord_refused (record : Record) {rid : RID} (hfresh : t.Unlisted rid) (hfree : t.records rid = none)
    (h : (t.insertRecord record rid).1 ≠ .success) : (t.insertRecord record rid).2 = t := by
  rw [insertRecord_eq] at h ⊢
  by_cases hrc : (t.insertEntries record.data rid t.indexes).1 = .success
  · exact absurd (by rw [if_pos hrc]) h
  · rw [if_neg hrc, t.deleteEntries_undo record.data rid t.indexes (fun index hindex => hfresh index hindex _) hrc]
    have hrecords : Function.update t.records rid none = t.records := by
      rw [← hfree, Function.update_eq_self]
    rw [hrecords]

theorem insertRecord_fail (hc : t.IndexConsistent) (record : Record) {rid : RID} (hfree : t.records rid = none)
    (h : (t.insertRecord record rid).1 ≠ .success) : (t.insertRecord record rid).2 = t :=
  insertRecord_refused record (fun _ hindex key => hc.fresh hfree key hindex) hfree h

theorem deleteEntries_unlisted (t : Table) (data : Bytes) {rid : RID} (errorOnNotExists : Bool) (rc : RC)
    {indexes : List Index} (h : ∀ index ∈ indexes, ∀ key, (key, rid) ∉ index.entries) :
    (t.deleteEntries data rid errorOnNotExists rc indexes).2 = indexes := by
  induction indexes generalizing rc with
  | nil => rfl
  | cons index indexes ih =>
    have hrest := fun rc => ih rc fun other ho => h other (by simp [ho])
    unfold deleteEntries
    cases hnull : t.hasNull data index.fieldMetas with
    | none => rfl
    | some b =>
      cases b with
      | true => simp only [hrest]
      | false => simp [Index.deleteEntry, h index (by simp)]

/-- Changing the record of one slot, and in every index the entries of that slot to match. -/
theorem Sound.rewrite (hs : t.Sound) {t' : Table} (hfields : t'.fields = t.fields)
    (hnull : t'.nullOffset = t.nullOffset) {f : Index → Index} (hindexes : t'.indexes = t.indexes.map f)
    (hmetas : ∀ index, (f index).fieldMetas = index.fieldMetas) {rid : RID} {slot : Option Record}
    (hrecords : t'.records = Function.update t.records rid slot)
    (hother : ∀ index ∈ t.indexes, ∀ key rid', rid' ≠ rid →
      ((key, rid') ∈ (f index).entries ↔ (key, rid') ∈ index.entries))
    (hhere : ∀ index ∈ t.indexes, ∀ key, (key, rid) ∈ (f index).entries ↔
      ∃ record, slot = some record ∧ t.hasNull record.data index.fieldMetas = some false ∧ key = index.key record.data) :
    t'.Sound := by
  refine ⟨?_, ?_⟩
  · intro index' hindex' fieldMeta hfield
    rw [hindexes] at hindex'
    obtain ⟨index, hindex, rfl⟩ := List.mem_map.mp hindex'
    rw [hmetas] at hfield
    unfold fieldIndex
    rw [hfields]
    exact hs.wellFormed index hindex fieldMeta hfield
  intro index' hindex' key rid'
  rw [hindexes] at hindex'
  obtain ⟨index, hindex, rfl⟩ := List.mem_map.mp hindex'
  have hkey : ∀ data, (f index).key data = index.key data := by
    intro data
    simp only [Index.key, Index.attrs, hmetas]
  simp only [hrecords, hmetas, hkey, hasNull_congr hfields hnull]
  by_cases hrid : rid' = rid
  · rw [hrid, hhere index hindex key, Function.update_self]
  · rw [hother index hindex key rid' hrid, Function.update_of_ne hrid]
    exact hs.consistent index hindex key rid'

theorem Sound.insertRecord (hs : t.Sound) (record : Record) {rid : RID} (hfree : t.records rid = none) :
    (t.insertRecord record rid).2.Sound := by
  by_cases hrc : (t.insertEntries record.data rid t.indexes).1 = .success
  · rw [insertRecord_eq, if_pos hrc, t.insertEntries_success record.data rid t.indexes hrc]
    refine hs.rewrite rfl rfl rfl (fun index => addEntry_fieldMetas t record.data rid index) rfl ?_ ?_
    · intro index _ key rid' hne
      rw [mem_addEntry]
      simp [hne]
    · intro index hindex key
      have hfresh := hs.consistent.fresh hfree key hindex
      rw [mem_addEntry]
      simp [hfresh]
  · have hfail : (t.insertRecord record rid).1 ≠ .success := by
      rw [insertRecord_eq, if_neg hrc]
      exact hrc
    rw [insertRecord_fail hs.consistent record hfree hfail]
    exact hs

theorem deleteEntryOfIndexes_stored (hs : t.Sound) {rid : RID} {record : Record}
    (hrecord : t.records rid = some record) (errorOnNotExists : Bool) :
    t.deleteEntryOfIndexes record rid errorOnNotExists =
      (.success, { t with indexes := t.indexes.map (t.dropEntry record.data rid) }) := by
  have hdel := t.deleteEntries_present record.data rid errorOnNotExists t.indexes
    (fun index hindex => hasNull_isSome record.data (hs.wellFormed index hindex))
    (fun index hindex hnull => hs.consistent.present hrecord hindex hnull)
  unfold deleteEntryOfIndexes
  rw [hdel]

theorem IndexConsistent.dropped (hc : t.IndexConsistent) {rid : RID} {record : Record}
    (hrecord : t.records rid = some record) {index : Index} (hindex : index ∈ t.indexes) (key : IndexKey) :
    (key, rid) ∉ (t.dropEntry record.data rid index).entries := by
  rw [mem_dropEntry, hc index hindex key rid, hrecord]
  rintro ⟨hne, r, hr, hnull, rfl⟩
  obtain rfl := Option.some.inj hr
  exact hne ⟨hnull, rfl⟩

theorem deleteRecord_eq (hs : t.Sound) {rid : RID} {record : Record}
    (hrecord : t.records rid = some record) :
    t.deleteRecord record rid =
      (.success, { t with
        indexes := t.indexes.map (t.dropEntry record.data rid)
        records := Function.update t.records rid none }) := by
  unfold Table.deleteRecord
  rw [deleteEntryOfIndexes_stored hs hrecord]
  simp [eraseRecord, setRecord, hrecord]

theorem Sound.deleteRecord (hs : t.Sound) {rid : RID} {record : Record}
    (hrecord : t.records rid = some record) : (t.deleteRecord record rid).2.Sound := by
  rw [deleteRecord_eq hs hrecord]
  refine hs.rewrite rfl rfl rfl (fun index => dropEntry_fieldMetas t record.data rid index) rfl ?_ ?_
  · intro index _ key rid' hne
    rw [mem_dropEntry]
    simp [hne]
  · intro index hindex key
    have hdropped := hs.consistent.dropped hrecord hindex key
    simp [hdropped]

theorem Sound.updateRecord (hs : t.Sound) {rid : RID} {record : Record}
    (hrecord : t.records rid = some record) (newRecord : Record)
    (h : (t.updateRecord record newRecord rid).1 = .success) :
    (t.updateRecord record newRecord rid).2.Sound := by
  generalize hdropped : t.indexes.map (t.dropEntry record.data rid) = dropped
  have hins : Table.insertEntries { t with indexes := dropped } newRecord.data rid dropped =
      t.insertEntries newRecord.data rid dropped := by
    apply insertEntries_congr <;> rfl
  unfold Table.updateRecord at h ⊢
  rw [deleteEntryOfIndexes_stored hs hrecord, hdropped] at h ⊢
  simp only [ne_eq, not_true_eq_false, if_false, insertEntryOfIndexes, hins] at h ⊢
  by_cases hrc : (t.insertEntries newRecord.data rid dropped).1 = .success
  · simp only [hrc, not_true_eq_false, if_false, hrecord]
    rw [t.insertEntries_success newRecord.data rid dropped hrc, ← hdropped, List.map_map]
    refine hs.rewrite rfl rfl rfl (fun index => by simp) rfl ?_ ?_
    · intro index _ key rid' hne
      rw [Function.comp_apply, mem_addEntry, mem_dropEntry]
      simp [hne]
    · intro index hindex key
      have hno := hs.consistent.dropped hrecord hindex key
      rw [Function.comp_apply, mem_addEntry]
      simp [hno]
  · simp only [hrc, not_false_eq_true, if_true] at h

end Keep

/-! ## Entries of stored records only

The weaker half of the invariant: an index may lack the entry of a stored record, but it has no other entries. The
transaction manager keeps this half only.
-/

theorem insertRecord_accepted {t : Table} (hw : t.WellFormed) (record : Record) {rid : RID}
    (h : t.Accepts record.data rid) : (t.insertRecord record rid).1 = .success := by
  have hrc := t.insertEntries_accepted record.data rid
    (fun index hindex => hasNull_isSome record.data (hw index hindex)) h
  rw [insertRecord_eq, if_pos hrc]

theorem accepts_of_insertRecord {t : Table} {record : Record} {rid : RID} (h : (t.insertRecord record rid).1 = .success) :
    t.Accepts record.data rid := by
  rw [insertRecord_eq] at h
  split at h
  · next hrc => exact t.accepts_of_insertEntries record.data rid hrc
  · next hrc => exact absurd h hrc

/-- Every entry is the entry of a stored record. -/
def Faithful (t : Table) : Prop :=
  ∀ index ∈ t.indexes, ∀ key rid, (key, rid) ∈ index.entries →
    ∃ record, t.records rid = some record ∧ t.hasNull record.data index.fieldMetas = some false ∧
      key = index.key record.data

/-- Indexes that come from others by removing entries and adding some of those in `extra`. -/
def Derived (extra : Index → IndexKey × RID → Prop) (indexes indexes' : List Index) : Prop :=
  ∀ index' ∈ indexes', ∃ index ∈ indexes, index'.fieldMetas = index.fieldMetas ∧
    ∀ e ∈ index'.entries, e ∈ index.entries ∨ extra index e

theorem Derived.refl (extra : Index → IndexKey × RID → Prop) (indexes : List Index) : Derived extra indexes indexes :=
  fun index hindex => ⟨index, hindex, rfl, fun _ he => Or.inl he⟩

theorem Derived.cons {extra : Index → IndexKey × RID → Prop} {index index' : Index} {indexes indexes' : List Index}
    (hmetas : index'.fieldMetas = index.fieldMetas) (hentries : ∀ e ∈ index'.entries, e ∈ index.entries ∨ extra index e)
    (h : Derived extra indexes indexes') : Derived extra (index :: indexes) (index' :: indexes') := by
  intro other hother
  rcases List.mem_cons.mp hother with rfl | hother
  · exact ⟨index, by simp, hmetas, hentries⟩
  · obtain ⟨source, hsource, hrest⟩ := h other hother
    exact ⟨source, by simp [hsource], hrest⟩

theorem insertEntries_derived (t : Table) (data : Bytes) (rid : RID) (indexes : List Index) :
    Derived (fun index e => t.hasNull data index.fieldMetas = some false ∧ e = (index.key data, rid)) indexes
      (t.insertEntries data rid indexes).2 := by
  induction indexes with
  | nil => exact Derived.refl _ _
  | cons index indexes ih =>
    unfold insertEntries Index.insertEntry
    cases hnull : t.hasNull data index.fieldMetas with
    | none => exact Derived.refl _ _
    | some b =>
      cases b with
      | true => exact ih.cons rfl fun _ he => Or.inl he
      | false =>
        by_cases hrefuses : index.refuses (index.key data) rid = true
        · simp only [hrefuses, if_true, ne_eq, reduceCtorEq, not_false_eq_true]
          exact Derived.refl _ _
        · simp only [hrefuses, if_false, ne_eq, not_true_eq_false, Bool.false_eq_true]
          refine ih.cons rfl ?_
          intro e he
          rcases Finset.mem_insert.mp he with rfl | he
          · exact Or.inr ⟨hnull, rfl⟩
          · exact Or.inl he

theorem deleteEntries_derived (t : Table) (data : Bytes) (rid : RID) (errorOnNotExists : Bool) (rc : RC)
    (indexes : List Index) :
    Derived (fun _ _ => False) indexes (t.deleteEntries data rid errorOnNotExists rc indexes).2 := by
  induction indexes generalizing rc with
  | nil => exact Derived.refl _ _
  | cons index indexes ih =>
    have hentry : ((index.deleteEntry data rid).2).fieldMetas = index.fieldMetas ∧
        ∀ e ∈ ((index.deleteEntry data rid).2).entries, e ∈ index.entries ∨ False := by
      unfold Index.deleteEntry
      split
      · exact ⟨rfl, fun e he => Or.inl (Finset.mem_of_mem_erase he)⟩
      · exact ⟨rfl, fun e he => Or.inl he⟩
    unfold deleteEntries
    cases hnull : t.hasNull data index.fieldMetas with
    | none => exact Derived.refl _ _
    | some b =>
      cases b with
      | true => exact (ih rc).cons rfl fun _ he => Or.inl he
      | false =>
        dsimp only
        split
        · exact (Derived.refl _ indexes).cons hentry.1 hentry.2
        · exact (ih _).cons hentry.1 hentry.2

theorem deleteEntries_success (t : Table) (data : Bytes) (rid : RID) (indexes : List Index)
    (h : (t.deleteEntries data rid true .success indexes).1 = .success) :
    (t.deleteEntries data rid true .success indexes).2 = indexes.map (t.dropEntry data rid) := by
  induction indexes with
  | nil => rfl
  | cons index indexes ih =>
    unfold deleteEntries at h ⊢
    unfold Index.deleteEntry at h ⊢
    rw [List.map_cons, dropEntry]
    cases hnull : t.hasNull data index.fieldMetas with
    | none => simp [hnull] at h
    | some b =>
      cases b with
      | true =>
        simp only [hnull] at h ⊢
        rw [ih h]
        rfl
      | false =>
        simp only [hnull] at h ⊢
        by_cases hmem : (index.key data, rid) ∈ index.entries
        · simp only [hmem, if_true, ne_eq, not_true_eq_false, false_and, if_false] at h ⊢
          rw [ih h]
        · simp [hmem] at h

section Faithful

variable {t : Table}

theorem Faithful.unlisted (hf : t.Faithful) {rid : RID} (hfree : t.records rid = none) : t.Unlisted rid := by
  intro index hindex key hmem
  obtain ⟨record, hrecord, -⟩ := hf index hindex key rid hmem
  rw [hfree] at hrecord
  cases hrecord

theorem IndexConsistent.faithful (hc : t.IndexConsistent) : t.Faithful :=
  fun index hindex key rid hmem => (hc index hindex key rid).mp hmem

/-- Indexes that have only lost entries, or got entries of stored records. -/
theorem Faithful.derived (hf : t.Faithful) {t' : Table} (hfields : t'.fields = t.fields)
    (hnull : t'.nullOffset = t.nullOffset) {extra : Index → IndexKey × RID → Prop}
    (hindexes : Derived extra t.indexes t'.indexes)
    (hextra : ∀ index key rid, extra index (key, rid) →
      ∃ record, t'.records rid = some record ∧ t.hasNull record.data index.fieldMetas = some false ∧
        key = index.key record.data)
    (hrecords : ∀ rid record, t.records rid = some record →
      ∃ record', t'.records rid = some record' ∧ record'.data = record.data) : t'.Faithful := by
  intro index' hindex' key rid hmem
  obtain ⟨index, hindex, hmetas, hentries⟩ := hindexes index' hindex'
  have hkey : ∀ data, index'.key data = index.key data := by
    intro data
    simp only [Index.key, Index.attrs, hmetas]
  simp only [hkey, hmetas, hasNull_congr hfields hnull]
  cases hentries _ hmem with
  | inl hold =>
    obtain ⟨record, hrecord, hnotNull, rfl⟩ := hf index hindex key rid hold
    obtain ⟨record', hrecord', hdata⟩ := hrecords rid record hrecord
    exact ⟨record', hrecord', by rw [hdata]; exact hnotNull, by rw [hdata]⟩
  | inr hnew => exact hextra index key rid hnew

theorem Faithful.setRecord (hf : t.Faithful) {rid : RID} {record record' : Record}
    (hrecord : t.records rid = some record) (hdata : record'.data = record.data) :
    (t.setRecord rid (some record')).Faithful := by
  refine hf.derived rfl rfl (Derived.refl (fun _ _ => False) _) (fun _ _ _ h => h.elim) ?_
  intro rid' old hold
  by_cases hrid : rid' = rid
  · subst hrid
    obtain rfl := Option.some.inj (hrecord.symm.trans hold)
    exact ⟨record', by simp [Table.setRecord], hdata⟩
  · exact ⟨old, by simpa [Table.setRecord, hrid] using hold, rfl⟩

theorem Faithful.deleteEntryOfIndexes (hf : t.Faithful) (record : Record) (rid : RID) (errorOnNotExists : Bool) :
    (t.deleteEntryOfIndexes record rid errorOnNotExists).2.Faithful :=
  hf.derived rfl rfl (deleteEntries_derived t record.data rid errorOnNotExists .success t.indexes)
    (fun _ _ _ h => h.elim) (fun _ old hold => ⟨old, hold, rfl⟩)

theorem Faithful.insertEntryOfIndexes (hf : t.Faithful) {record stored : Record} {rid : RID}
    (hrecord : t.records rid = some stored) (hdata : stored.data = record.data) :
    (t.insertEntryOfIndexes record rid).2.Faithful := by
  refine hf.derived rfl rfl (insertEntries_derived t record.data rid t.indexes) ?_ (fun _ old hold => ⟨old, hold, rfl⟩)
  rintro index key rid' ⟨hnull, heq⟩
  obtain ⟨rfl, rfl⟩ := Prod.mk.inj heq
  exact ⟨stored, hrecord, by rw [hdata]; exact hnull, by rw [hdata]⟩

theorem Faithful.insertRecord (hf : t.Faithful) (record : Record) {rid : RID} (hfree : t.records rid = none) :
    (t.insertRecord record rid).2.Faithful := by
  by_cases hrc : (t.insertRecord record rid).1 = .success
  · rw [insertRecord_eq] at hrc ⊢
    split at hrc
    · next hsuccess =>
      rw [if_pos hsuccess]
      refine hf.derived rfl rfl (insertEntries_derived t record.data rid t.indexes) ?_ ?_
      · rintro index key rid' ⟨hnull, heq⟩
        obtain ⟨rfl, rfl⟩ := Prod.mk.inj heq
        exact ⟨record, by simp, hnull, rfl⟩
      · intro rid' old hold
        have hne : rid' ≠ rid := by
          rintro rfl
          rw [hfree] at hold
          cases hold
        exact ⟨old, by simpa [hne] using hold, rfl⟩
    · next hsuccess => exact absurd hrc hsuccess
  · rw [insertRecord_refused record (hf.unlisted hfree) hfree hrc]
    exact hf

theorem Faithful.deleteRecord (hf : t.Faithful) {record : Record} {rid : RID} (hrecord : t.records rid = some record)
    (h : (t.deleteRecord record rid).1 = .success) : (t.deleteRecord record rid).2.Faithful := by
  unfold Table.deleteRecord Table.deleteEntryOfIndexes at h ⊢
  dsimp only at h ⊢
  by_cases hrc : (t.deleteEntries record.data rid true .success t.indexes).1 = .success
  · rw [if_neg (not_not.mpr hrc), deleteEntries_success t record.data rid t.indexes hrc]
    simp only [eraseRecord, hrecord]
    intro index' hindex' key rid' hmem
    obtain ⟨index, hindex, rfl⟩ := List.mem_map.mp hindex'
    rw [mem_dropEntry] at hmem
    obtain ⟨stored, hstored, hnull, rfl⟩ := hf index hindex key rid' hmem.2
    have hne : rid' ≠ rid := by
      rintro rfl
      obtain rfl := Option.some.inj (hrecord.symm.trans hstored)
      exact hmem.1 ⟨hnull, rfl⟩
    have hnull' : Table.hasNull (Table.setRecord { t with indexes := t.indexes.map (t.dropEntry record.data rid) } rid none)
        stored.data index.fieldMetas = t.hasNull stored.data index.fieldMetas := by
      apply hasNull_congr <;> rfl
    refine ⟨stored, ?_, ?_, ?_⟩
    · simpa [Table.setRecord, hne] using hstored
    · rw [dropEntry_fieldMetas, hnull']
      exact hnull
    · rw [dropEntry_key]
  · rw [if_pos hrc] at h
    exact absurd h hrc

theorem WellFormed.derived (hw : t.WellFormed) {t' : Table} (hfields : t'.fields = t.fields)
    {extra : Index → IndexKey × RID → Prop} (hindexes : Derived extra t.indexes t'.indexes) : t'.WellFormed := by
  intro index' hindex' f hf
  obtain ⟨index, hindex, hmetas, -⟩ := hindexes index' hindex'
  rw [hmetas] at hf
  unfold fieldIndex
  rw [hfields]
  exact hw index hindex f hf

/-- A table whose indexes are on its fields and have no entries but those of its records. -/
structure Tidy (t : Table) : Prop where
  wellFormed : t.WellFormed
  faithful : t.Faithful

theorem Sound.tidy (hs : t.Sound) : t.Tidy := ⟨hs.wellFormed, hs.consistent.faithful⟩

theorem Tidy.setRecord (h : t.Tidy) {rid : RID} {record record' : Record} (hrecord : t.records rid = some record)
    (hdata : record'.data = record.data) : (t.setRecord rid (some record')).Tidy :=
  ⟨h.wellFormed.derived rfl (Derived.refl (fun _ _ => False) _), h.faithful.setRecord hrecord hdata⟩

theorem Tidy.deleteEntryOfIndexes (h : t.Tidy) (record : Record) (rid : RID) (errorOnNotExists : Bool) :
    (t.deleteEntryOfIndexes record rid errorOnNotExists).2.Tidy :=
  ⟨h.wellFormed.derived rfl (deleteEntries_derived t record.data rid errorOnNotExists .success t.indexes),
    h.faithful.deleteEntryOfIndexes record rid errorOnNotExists⟩

theorem Tidy.insertEntryOfIndexes (h : t.Tidy) {record stored : Record} {rid : RID}
    (hrecord : t.records rid = some stored) (hdata : stored.data = record.data) :
    (t.insertEntryOfIndexes record rid).2.Tidy :=
  ⟨h.wellFormed.derived rfl (insertEntries_derived t record.data rid t.indexes),
    h.faithful.insertEntryOfIndexes hrecord hdata⟩

theorem Tidy.insertRecord (h : t.Tidy) (record : Record) {rid : RID} (hfree : t.records rid = none) :
    (t.insertRecord record rid).2.Tidy := by
  refine ⟨?_, h.faithful.insertRecord record hfree⟩
  by_cases hrc : (t.insertRecord record rid).1 = .success
  · rw [insertRecord_eq] at hrc ⊢
    split at hrc
    · next hsuccess =>
      rw [if_pos hsuccess]
      exact h.wellFormed.derived rfl (insertEntries_derived t record.data rid t.indexes)
    · next hsuccess => exact absurd hrc hsuccess
  · rw [insertRecord_refused record (h.faithful.unlisted hfree) hfree hrc]
    exact h.wellFormed

theorem Tidy.deleteRecord (h : t.Tidy) {record : Record} {rid : RID} (hrecord : t.records rid = some record)
    (hrc : (t.deleteRecord record rid).1 = .success) : (t.deleteRecord record rid).2.Tidy := by
  refine ⟨?_, h.faithful.deleteRecord hrecord hrc⟩
  unfold Table.deleteRecord
  dsimp only
  have hdelete := (h.deleteEntryOfIndexes record rid true).wellFormed
  split
  · exact hdelete
  · unfold eraseRecord
    split
    · exact hdelete
    · exact hdelete.derived rfl (Derived.refl (fun _ _ => False) _)

end Faithful

/-! ## Runs -/

/-- The operations of a run: insertions into a free slot, deletions of a stored record, and updates of a stored record
that succeed. -/
inductive Step : Table → Table → Prop
  | insert {t : Table} (record : Record) {rid : RID} (hfree : t.records rid = none) :
      Step t (t.insertRecord record rid).2
  | delete {t : Table} {record : Record} {rid : RID} (hrecord : t.records rid = some record) :
      Step t (t.deleteRecord record rid).2
  | update {t : Table} {record : Record} {rid : RID} (hrecord : t.records rid = some record) (newRecord : Record)
      (hrc : (t.updateRecord record newRecord rid).1 = .success) : Step t (t.updateRecord record newRecord rid).2

theorem Step.sound {t t' : Table} (h : Step t t') (hs : t.Sound) : t'.Sound := by
  cases h with
  | insert record hfree => exact hs.insertRecord record hfree
  | delete hrecord => exact hs.deleteRecord hrecord
  | update hrecord newRecord hrc => exact hs.updateRecord hrecord newRecord hrc

theorem sound_of_run {t t' : Table} (hs : t.Sound) (hrun : Relation.ReflTransGen Step t t') : t'.Sound := by
  induction hrun with
  | refl => exact hs
  | tail _ hstep ih => exact hstep.sound ih

theorem sound_of_empty {t : Table} (hw : t.WellFormed) (hrecords : ∀ rid, t.records rid = none)
    (hentries : ∀ index ∈ t.indexes, index.entries = ∅) : t.Sound := by
  refine ⟨hw, ?_⟩
  intro index hindex key rid
  simp [hentries index hindex, hrecords rid]

/-- Any run of insertions, deletions and updates keeps every index in agreement with the stored records, and a failed
insertion in any reached table leaves the table as it was. -/
theorem run_indexConsistent {t t' : Table} (hs : t.Sound) (hrun : Relation.ReflTransGen Step t t') :
    t'.IndexConsistent ∧ ∀ record rid, t'.records rid = none → (t'.insertRecord record rid).1 ≠ .success →
      (t'.insertRecord record rid).2 = t' := by
  have hs' := sound_of_run hs hrun
  refine ⟨hs'.consistent, ?_⟩
  intro record rid hfree hfail
  exact insertRecord_fail hs'.consistent record hfree hfail

/-- A table with a unique and a non-unique index on nullable fields. The second record is NULL in the unique
field, and a third one is refused. -/
theorem run_indexConsistent_example :
    let field : FieldMeta := ⟨.ints, 1, 4⟩
    let other : FieldMeta := ⟨.chars, 5, 2⟩
    let t : Table := ⟨[⟨.chars, 0, 1⟩, field, other], 0, [⟨[field], true, ∅⟩, ⟨[other, field], false, ∅⟩], fun _ => none⟩
    let record (bits value : UInt8) : Record := ⟨0, 0, [bits, value, 0, 0, 0, 97, 0]⟩
    let t₁ := (t.insertRecord (record 0 7) ⟨1, 0⟩).2
    let t₂ := (t₁.insertRecord (record 2 7) ⟨1, 1⟩).2
    (t₂.insertRecord (record 0 7) ⟨1, 2⟩).1 = .recordDuplicateKey ∧ t₂.IndexConsistent ∧
      ∀ r rid, t₂.records rid = none → (t₂.insertRecord r rid).1 ≠ .success → (t₂.insertRecord r rid).2 = t₂ := by
  intro field other t record t₁ t₂
  refine ⟨by decide +kernel, run_indexConsistent (t := t) (sound_of_empty ?_ ?_ ?_) ?_⟩
  · intro index hindex f hf
    fin_cases hindex <;> fin_cases hf
    · exact ⟨1, rfl⟩
    · exact ⟨2, rfl⟩
    · exact ⟨1, rfl⟩
  · exact fun _ => rfl
  · intro index hindex
    fin_cases hindex <;> rfl
  · exact ((Relation.ReflTransGen.single (Step.insert (record 0 7) rfl)).tail
      (Step.insert (record 2 7) (by decide)))

end Table

end Landbase.Storage
