import Landbase.Storage.Schema
import Landbase.Trx.Edits
import Landbase.Trx.LostUpdate

/-! # Rollback

`restore` says what a rollback is for: it takes away what the operations of a transaction have inserted, with its index
entries, and the marks that they have left. A call of the transaction that touches no index entry of an older row leaves
`restore` as it was, and each round of `MvccTrx::rollback` takes one operation out of it; so the whole rollback ends in
the state before the transaction. The index entries of the rows that it has deleted are not put back by anything.
-/

namespace Landbase.Trx
open Landbase.Storage
set_option autoImplicit false

/-! ## What the operations of a transaction have done -/

/-- A table without what these operations have done to it. -/
def restoreTable (ops : List Operation) (table : ℕ) (t : Table) : Table :=
  { t with
    records := fun rid =>
      if ⟨.insert, table, rid⟩ ∈ ops then none
      else if ⟨.delete, table, rid⟩ ∈ ops then (t.records rid).map fun record => { record with endXid := maxTrxId }
      else t.records rid
    indexes := t.indexes.map fun index =>
      { index with entries := index.entries.filter fun e => ⟨.insert, table, e.2⟩ ∉ ops } }

def restore (ops : List Operation) (tables : ℕ → Table) : ℕ → Table := fun table => restoreTable ops table (tables table)

theorem restore_nil (tables : ℕ → Table) : restore [] tables = tables := by
  funext table
  unfold restore restoreTable
  simp

theorem restoreTable_congr {ops ops' : List Operation} (h : ∀ op, op ∈ ops ↔ op ∈ ops') (table : ℕ) (t : Table) :
    restoreTable ops table t = restoreTable ops' table t := by
  unfold restoreTable
  simp only [h]

theorem restoreTable_of_ne {op : Operation} {table : ℕ} (hne : op.table ≠ table) (ops : List Operation) (t : Table) :
    restoreTable (op :: ops) table t = restoreTable ops table t := by
  have hmem : ∀ type rid, (⟨type, table, rid⟩ : Operation) ∈ op :: ops ↔ ⟨type, table, rid⟩ ∈ ops := by
    intro type rid
    rw [List.mem_cons, or_iff_right]
    rintro rfl
    exact hne rfl
  unfold restoreTable
  simp only [hmem]

theorem restore_cons {op : Operation} {ops : List Operation} {tables : ℕ → Table} {t t' : Table}
    (h : restoreTable (op :: ops) op.table t' = restoreTable ops op.table t) :
    restore (op :: ops) (Function.update tables op.table t') = restore ops (Function.update tables op.table t) := by
  funext table
  unfold restore
  by_cases htable : table = op.table
  · rw [htable, Function.update_self, Function.update_self]
    exact h
  · rw [Function.update_of_ne htable, Function.update_of_ne htable, restoreTable_of_ne (Ne.symm htable)]

/-- An index without the entries of a slot. -/
def offSlot (rid : RID) (index : Index) : Index := { index with entries := index.entries.filter fun e => e.2 ≠ rid }

theorem restoreTable_insert {table : ℕ} {rid : RID} {ops : List Operation}
    (hfresh : ∀ type, (⟨type, table, rid⟩ : Operation) ∉ ops) {t t' : Table} (hfields : t.fields = t'.fields)
    (hnull : t.nullOffset = t'.nullOffset) (hrecords : t.records = Function.update t'.records rid none)
    (hindexes : t.indexes = t'.indexes.map (offSlot rid)) :
    restoreTable (⟨.insert, table, rid⟩ :: ops) table t' = restoreTable ops table t := by
  unfold restoreTable
  rw [Table.mk.injEq]
  refine ⟨hfields.symm, hnull.symm, ?_, ?_⟩
  · rw [hindexes, List.map_map]
    apply List.map_congr_left
    intro index _
    rw [Function.comp_apply, offSlot]
    congr 1
    ext e
    simp only [Finset.mem_filter, List.mem_cons, Operation.mk.injEq, true_and, not_or, ne_eq]
    rw [and_assoc]
  · funext rid'
    rw [hrecords]
    by_cases hrid : rid' = rid
    · subst hrid
      simp [hfresh]
    · simp [hrid]

theorem restoreTable_delete {table : ℕ} {rid : RID} {ops : List Operation}
    (hfresh : ∀ type, (⟨type, table, rid⟩ : Operation) ∉ ops) {t : Table} {record : Record}
    (hrecord : t.records rid = some record) :
    restoreTable (⟨.delete, table, rid⟩ :: ops) table t =
      restoreTable ops table (t.setRecord rid (some { record with endXid := maxTrxId })) := by
  unfold restoreTable
  rw [Table.mk.injEq]
  refine ⟨rfl, rfl, ?_, ?_⟩
  · simp [Table.setRecord]
  · funext rid'
    by_cases hrid : rid' = rid
    · subst hrid
      simp [hfresh, hrecord, Table.setRecord]
    · simp [hrid, Table.setRecord]

theorem restoreTable_own {table : ℕ} {rid : RID} {ops : List Operation} (hown : ⟨.insert, table, rid⟩ ∈ ops)
    (t : Table) (slot : Option Record) : restoreTable ops table (t.setRecord rid slot) = restoreTable ops table t := by
  unfold restoreTable
  rw [Table.mk.injEq]
  refine ⟨rfl, rfl, rfl, ?_⟩
  funext rid'
  by_cases hrid : rid' = rid
  · subst hrid
    simp [hown]
  · simp [Table.setRecord, Function.update_of_ne hrid]

/-- The entries of a slot are those of the record that it holds. -/
def Listed (t : Table) (rid : RID) (data : Bytes) : Prop :=
  ∀ index ∈ t.indexes, ∀ key, (key, rid) ∈ index.entries ↔
    t.hasNull data index.fieldMetas = some false ∧ key = index.key data

/-- The operations find what they have left: new records with their entries, old ones with the mark. -/
structure Pending (trxId : ℤ) (ops : List Operation) (tables : ℕ → Table) : Prop where
  wellFormed : ∀ table, (tables table).WellFormed
  inserted : ∀ table rid, ⟨.insert, table, rid⟩ ∈ ops →
    ∃ record, (tables table).records rid = some record ∧ Listed (tables table) rid record.data
  deleted : ∀ table rid, ⟨.delete, table, rid⟩ ∈ ops →
    ∃ record, (tables table).records rid = some record ∧ record.endXid = -trxId
  kinds : ∀ op ∈ ops, op.type ≠ .update

/-! ## One round of a rollback -/

theorem dropEntry_eq_offSlot {t : Table} {rid : RID} {data : Bytes} (hlisted : Listed t rid data) {index : Index}
    (hindex : index ∈ t.indexes) : t.dropEntry data rid index = offSlot rid index := by
  have hentries : (t.dropEntry data rid index).entries = (offSlot rid index).entries := by
    ext e
    obtain ⟨key, rid'⟩ := e
    rw [Table.mem_dropEntry, offSlot, Finset.mem_filter, Prod.mk.injEq, ← and_assoc]
    by_cases hrid : rid' = rid
    · subst hrid
      rw [hlisted index hindex key]
      simp
    · simp [hrid]
  unfold Table.dropEntry at hentries ⊢
  split at hentries
  · next hnull =>
    rw [if_pos hnull]
    exact congrArg (fun entries => ({ index with entries := entries } : Index)) hentries
  · next hnull =>
    rw [if_neg hnull]
    exact congrArg (fun entries => ({ index with entries := entries } : Index)) hentries

theorem deleteRecord_listed {t : Table} {rid : RID} {record : Record} (hw : t.WellFormed)
    (hrecord : t.records rid = some record) (hlisted : Listed t rid record.data) :
    t.deleteRecord record rid =
      (.success, { t with
        indexes := t.indexes.map (offSlot rid)
        records := Function.update t.records rid none }) := by
  have hdelete := t.deleteEntries_present record.data rid true t.indexes
    (fun index hindex => Table.hasNull_isSome record.data (hw index hindex))
    (fun index hindex hnull => (hlisted index hindex _).mpr ⟨hnull, rfl⟩)
  have hmap : t.indexes.map (t.dropEntry record.data rid) = t.indexes.map (offSlot rid) :=
    List.map_congr_left fun index hindex => dropEntry_eq_offSlot hlisted hindex
  unfold Table.deleteRecord Table.deleteEntryOfIndexes
  rw [hdelete, hmap]
  simp [Table.eraseRecord, Table.setRecord, hrecord]

/-- A table that has changed in one slot and its entries. -/
structure SameOff (rid : RID) (t t' : Table) : Prop where
  wellFormed : t.WellFormed → t'.WellFormed
  records : ∀ rid' ≠ rid, t'.records rid' = t.records rid'
  listed : ∀ rid' ≠ rid, ∀ data, Listed t rid' data → Listed t' rid' data
  unlisted : ∀ rid' ≠ rid, t.Unlisted rid' → t'.Unlisted rid'

/-- Changing every index in the entries of one slot only. -/
theorem sameOff_map {t t' : Table} {rid : RID} {f : Index → Index} (hfields : t'.fields = t.fields)
    (hnull : t'.nullOffset = t.nullOffset) (hindexes : t'.indexes = t.indexes.map f)
    (hmetas : ∀ index, (f index).fieldMetas = index.fieldMetas)
    (hentries : ∀ index key rid', rid' ≠ rid → ((key, rid') ∈ (f index).entries ↔ (key, rid') ∈ index.entries))
    (hrecords : ∀ rid' ≠ rid, t'.records rid' = t.records rid') : SameOff rid t t' := by
  have hkey : ∀ index data, (f index).key data = index.key data := by
    intro index data
    simp only [Index.key, Index.attrs, hmetas]
  refine ⟨?_, hrecords, ?_, ?_⟩
  · intro hw index' hindex' fieldMeta hfield
    rw [hindexes] at hindex'
    obtain ⟨index, hindex, rfl⟩ := List.mem_map.mp hindex'
    rw [hmetas] at hfield
    unfold Table.fieldIndex
    rw [hfields]
    exact hw index hindex fieldMeta hfield
  · intro rid' hne data hlisted index' hindex' key
    rw [hindexes] at hindex'
    obtain ⟨index, hindex, rfl⟩ := List.mem_map.mp hindex'
    rw [hentries index key rid' hne, hmetas, hkey, Table.hasNull_congr hfields hnull]
    exact hlisted index hindex key
  · intro rid' hne hunlisted index' hindex' key
    rw [hindexes] at hindex'
    obtain ⟨index, hindex, rfl⟩ := List.mem_map.mp hindex'
    rw [hentries index key rid' hne]
    exact hunlisted index hindex key

theorem sameOff_setRecord (t : Table) (rid : RID) (slot : Option Record) : SameOff rid t (t.setRecord rid slot) := by
  refine sameOff_map rfl rfl (List.map_id _).symm (fun _ => rfl) (fun _ _ _ _ => Iff.rfl) ?_
  intro rid' hne
  exact Function.update_of_ne hne _ _

theorem listed_setRecord {t : Table} {rid rid' : RID} {data : Bytes} {slot : Option Record} (h : Listed t rid' data) :
    Listed (t.setRecord rid slot) rid' data := by
  intro index hindex key
  rw [Table.hasNull_setRecord]
  exact h index hindex key

theorem sameOff_offSlot (t : Table) (rid : RID) (slot : Option Record) :
    SameOff rid t { t with indexes := t.indexes.map (offSlot rid), records := Function.update t.records rid slot } := by
  refine sameOff_map rfl rfl rfl (fun _ => rfl) ?_ ?_
  · intro index key rid' hne
    simp [offSlot, hne]
  · intro rid' hne
    exact Function.update_of_ne hne _ _

theorem sameOff_addEntry (t : Table) (data : Bytes) (rid : RID) (slot : Option Record) :
    SameOff rid t { t with
      indexes := t.indexes.map (t.addEntry data rid)
      records := Function.update t.records rid slot } := by
  refine sameOff_map rfl rfl rfl (fun index => Table.addEntry_fieldMetas t data rid index) ?_ ?_
  · intro index key rid' hne
    rw [Table.mem_addEntry]
    simp [hne]
  · intro rid' hne
    exact Function.update_of_ne hne _ _

theorem Pending.frame {trxId : ℤ} {ops : List Operation} {tables : ℕ → Table} (hp : Pending trxId ops tables)
    {table : ℕ} {rid : RID} {t : Table} (hsame : SameOff rid (tables table) t)
    (hops : ∀ type, (⟨type, table, rid⟩ : Operation) ∉ ops) : Pending trxId ops (Function.update tables table t) := by
  have hrid : ∀ {type : OperationType} {rid' : RID}, (⟨type, table, rid'⟩ : Operation) ∈ ops → rid' ≠ rid := by
    rintro type rid' hop rfl
    exact hops type hop
  refine ⟨?_, ?_, ?_, hp.kinds⟩
  · intro table'
    by_cases htable : table' = table
    · rw [htable, Function.update_self]
      exact hsame.wellFormed (hp.wellFormed table)
    · rw [Function.update_of_ne htable]
      exact hp.wellFormed table'
  · intro table' rid' hop
    obtain ⟨record, hrecord, hlisted⟩ := hp.inserted table' rid' hop
    by_cases htable : table' = table
    · subst htable
      rw [Function.update_self]
      exact ⟨record, (hsame.records rid' (hrid hop)).trans hrecord, hsame.listed rid' (hrid hop) _ hlisted⟩
    · rw [Function.update_of_ne htable]
      exact ⟨record, hrecord, hlisted⟩
  · intro table' rid' hop
    obtain ⟨record, hrecord, hend⟩ := hp.deleted table' rid' hop
    by_cases htable : table' = table
    · subst htable
      rw [Function.update_self]
      exact ⟨record, (hsame.records rid' (hrid hop)).trans hrecord, hend⟩
    · rw [Function.update_of_ne htable]
      exact ⟨record, hrecord, hend⟩

theorem Pending.tail {trxId : ℤ} {op : Operation} {ops : List Operation} {tables : ℕ → Table}
    (hp : Pending trxId (op :: ops) tables) : Pending trxId ops tables where
  wellFormed := hp.wellFormed
  inserted table rid hop := hp.inserted table rid (List.mem_cons_of_mem _ hop)
  deleted table rid hop := hp.deleted table rid (List.mem_cons_of_mem _ hop)
  kinds other hop := hp.kinds other (List.mem_cons_of_mem _ hop)

/-- One round of the loop takes its operation out of what is to be restored. -/
theorem rollbackOperation_restore {trxId : ℤ} {op : Operation} {ops : List Operation} {tables : ℕ → Table}
    (hp : Pending trxId (op :: ops) tables) (hnodup : ((op :: ops).map Operation.addr).Nodup) :
    ∃ tables', Db.rollbackOperation trxId tables op = some tables' ∧ Pending trxId ops tables' ∧
      restore ops tables' = restore (op :: ops) tables := by
  obtain ⟨type, table, rid⟩ := op
  have hfresh : ∀ type', (⟨type', table, rid⟩ : Operation) ∉ ops := by
    intro type' hop
    rw [List.map_cons, List.nodup_cons] at hnodup
    exact hnodup.1 (List.mem_map.mpr ⟨_, hop, rfl⟩)
  cases type with
  | insert =>
    obtain ⟨record, hrecord, hlisted⟩ := hp.inserted table rid (by simp)
    have hdelete := deleteRecord_listed (hp.wellFormed table) hrecord hlisted
    generalize ht : ({ tables table with
      indexes := (tables table).indexes.map (offSlot rid)
      records := Function.update (tables table).records rid none } : Table) = t at hdelete
    refine ⟨Function.update tables table t, ?_, ?_, ?_⟩
    · unfold Db.rollbackOperation
      simp only [Operation.addr, versionOf, hrecord, Option.bind_eq_bind, Option.bind_some, hdelete]
      rfl
    · refine hp.tail.frame ?_ hfresh
      rw [← ht]
      exact sameOff_offSlot (tables table) rid none
    · have htable : restoreTable (⟨.insert, table, rid⟩ :: ops) table (tables table) = restoreTable ops table t := by
        rw [← ht]
        exact restoreTable_insert hfresh rfl rfl rfl rfl
      have hcons : restore (⟨.insert, table, rid⟩ :: ops) (Function.update tables table (tables table)) =
          restore ops (Function.update tables table t) := restore_cons htable
      rw [← hcons, Function.update_eq_self]
  | delete =>
    obtain ⟨record, hrecord, hend⟩ := hp.deleted table rid (by simp)
    refine ⟨Db.setVersion tables (table, rid) { record with endXid := maxTrxId }, ?_, ?_, ?_⟩
    · unfold Db.rollbackOperation
      simp only [Operation.addr, versionOf, hrecord, Option.bind_eq_bind, Option.bind_some, hend, ne_eq,
        not_true_eq_false, if_false]
    · exact hp.tail.frame (sameOff_setRecord (tables table) rid _) hfresh
    · have htable := restoreTable_delete hfresh hrecord
      have hcons : restore (⟨.delete, table, rid⟩ :: ops) (Function.update tables table (tables table)) =
          restore ops (Db.setVersion tables (table, rid) { record with endXid := maxTrxId }) := restore_cons htable
      rw [← hcons, Function.update_eq_self]
  | update => exact absurd rfl (hp.kinds _ (List.mem_cons_self))

theorem rollback_restore {trxId : ℤ} {order : List Operation} {tables : ℕ → Table} (hp : Pending trxId order tables)
    (hnodup : (order.map Operation.addr).Nodup) :
    order.foldlM (Db.rollbackOperation trxId) tables = some (restore order tables) := by
  induction order generalizing tables with
  | nil =>
    rw [restore_nil]
    rfl
  | cons op ops ih =>
    obtain ⟨tables', hround, hp', hrestore⟩ := rollbackOperation_restore hp hnodup
    rw [List.foldlM_cons, hround, Option.bind_eq_bind, Option.bind_some, ← hrestore]
    rw [List.map_cons, List.nodup_cons] at hnodup
    exact ih hp' hnodup.2

/-! ## Every reachable database -/

def Tidy (tables : ℕ → Table) : Prop := ∀ table, (tables table).Tidy

theorem Tidy.update {tables : ℕ → Table} (h : Tidy tables) (table : ℕ) {t : Table} (ht : t.Tidy) :
    Tidy (Function.update tables table t) := by
  intro table'
  by_cases htable : table' = table
  · rw [htable, Function.update_self]
    exact ht
  · rw [Function.update_of_ne htable]
    exact h table'

theorem Tidy.setVersion {tables : ℕ → Table} (h : Tidy tables) {addr : ℕ × RID} {record record' : Record}
    (hrecord : versionOf tables addr = some record) (hdata : record'.data = record.data) :
    Tidy (Db.setVersion tables addr record') :=
  h.update addr.1 ((h addr.1).setRecord hrecord hdata)

theorem Edit.tidy {t t' : Table} (hedit : Edit t t') (h : t.Tidy) : t'.Tidy := by
  cases hedit with
  | setRecord hrecord hdata => exact h.setRecord hrecord hdata
  | deleteEntryOfIndexes record rid => exact h.deleteEntryOfIndexes record rid false
  | insertEntryOfIndexes hrecord hdata => exact h.insertEntryOfIndexes hrecord hdata
  | insertRecord record hfree => exact h.insertRecord record hfree
  | deleteRecord hrecord hrc => exact h.deleteRecord hrecord hrc

theorem tidy_run {P : View → ℕ → Act → Prop} {db₀ db : Db} (h : Tidy db₀.tables)
    (hrun : Relation.ReflTransGen (Step P) db₀ db) : Tidy db.tables :=
  (edited_run hrun).keeps Edit.tidy h

/-! ## The calls of one transaction -/

/-- The tables are `base` but for what the operations of the transaction have done. -/
structure Undoable (base : ℕ → Table) (trxId : ℤ) (set : OperationSet) (tables : ℕ → Table) : Prop where
  tidy : Tidy tables
  pending : Pending trxId set.toList tables
  restored : restore set.toList tables = base
  own : ∀ table rid record, (tables table).records rid = some record → record.beginXid = -trxId →
    ⟨.insert, table, rid⟩ ∈ set.toList

theorem Pending.congr {trxId : ℤ} {ops ops' : List Operation} (h : ∀ op, op ∈ ops ↔ op ∈ ops') {tables : ℕ → Table}
    (hp : Pending trxId ops tables) : Pending trxId ops' tables where
  wellFormed := hp.wellFormed
  inserted table rid hop := hp.inserted table rid ((h _).mpr hop)
  deleted table rid hop := hp.deleted table rid ((h _).mpr hop)
  kinds op hop := hp.kinds op ((h op).mpr hop)

theorem restore_congr {ops ops' : List Operation} (h : ∀ op, op ∈ ops ↔ op ∈ ops') (tables : ℕ → Table) :
    restore ops tables = restore ops' tables := funext fun table => restoreTable_congr h table (tables table)

theorem OperationSet.mem_insert_new {set : OperationSet} {op : Operation}
    (hnew : op.addr ∉ set.toList.map Operation.addr) (other : Operation) :
    other ∈ op :: set.toList ↔ other ∈ (set.insert op).2.toList := by
  rw [OperationSet.mem_insert, List.mem_cons, or_comm]
  simp [hnew]

theorem OperationSet.insert_old {set : OperationSet} {op : Operation} (hold : op.addr ∈ set.toList.map Operation.addr) :
    (set.insert op).2 = set := by
  unfold OperationSet.insert
  rw [dif_pos hold]

theorem offSlot_addEntry {t : Table} {rid : RID} (hunlisted : t.Unlisted rid) (data : Bytes) {index : Index}
    (hindex : index ∈ t.indexes) : offSlot rid (t.addEntry data rid index) = index := by
  have hentries : (t.addEntry data rid index).entries.filter (fun e => e.2 ≠ rid) = index.entries := by
    ext e
    obtain ⟨key, rid'⟩ := e
    rw [Finset.mem_filter, Table.mem_addEntry]
    by_cases hrid : rid' = rid
    · subst hrid
      simp [hunlisted index hindex key]
    · simp [hrid]
  unfold offSlot
  rw [hentries]
  unfold Table.addEntry
  split <;> rfl

namespace Undoable

variable {base : ℕ → Table} {trxId : ℤ} {set : OperationSet} {tables : ℕ → Table}

theorem stored (h : Undoable base trxId set tables) {op : Operation} (hop : op ∈ set.toList) :
    ∃ record, (tables op.table).records op.rid = some record := by
  obtain ⟨type, table, rid⟩ := op
  cases type with
  | insert =>
    obtain ⟨record, hrecord, -⟩ := h.pending.inserted table rid hop
    exact ⟨record, hrecord⟩
  | delete =>
    obtain ⟨record, hrecord, -⟩ := h.pending.deleted table rid hop
    exact ⟨record, hrecord⟩
  | update => exact absurd rfl (h.pending.kinds _ hop)

theorem insert (h : Undoable base trxId set tables) {table : ℕ} {rid : RID}
    (hfree : (tables table).records rid = none) {data : Bytes}
    (hrc : ((tables table).insertRecord ⟨-trxId, maxTrxId, data⟩ rid).1 = .success) :
    Undoable base trxId (set.insert ⟨.insert, table, rid⟩).2
      (Function.update tables table ((tables table).insertRecord ⟨-trxId, maxTrxId, data⟩ rid).2) := by
  have hunlisted := (h.tidy table).faithful.unlisted hfree
  have hfresh : ∀ type, (⟨type, table, rid⟩ : Operation) ∉ set.toList := by
    intro type hop
    obtain ⟨record, hrecord⟩ := h.stored hop
    rw [show (tables table).records rid = none from hfree] at hrecord
    cases hrecord
  have hnew : (⟨.insert, table, rid⟩ : Operation).addr ∉ set.toList.map Operation.addr := by
    intro hmem
    obtain ⟨op, hop, haddr⟩ := List.mem_map.mp hmem
    obtain ⟨type, table', rid'⟩ := op
    obtain ⟨rfl, rfl⟩ := Prod.mk.inj haddr
    exact hfresh type hop
  have htidy := h.tidy.update table ((h.tidy table).insertRecord ⟨-trxId, maxTrxId, data⟩ hfree)
  have hmem := OperationSet.mem_insert_new hnew
  rw [insertRecord_success hrc] at htidy ⊢
  generalize ht : ({ tables table with
    indexes := (tables table).indexes.map ((tables table).addEntry data rid)
    records := Function.update (tables table).records rid (some ⟨-trxId, maxTrxId, data⟩) } : Table) = t at htidy ⊢
  have hsame : SameOff rid (tables table) t := by
    rw [← ht]
    exact sameOff_addEntry (tables table) data rid _
  have hframe := h.pending.frame hsame hfresh
  refine ⟨htidy, Pending.congr hmem ⟨hframe.wellFormed, ?_, ?_, ?_⟩, ?_, ?_⟩
  · intro table' rid' hop
    cases List.mem_cons.mp hop with
    | inl heq =>
      rw [Operation.mk.injEq] at heq
      obtain ⟨-, rfl, rfl⟩ := heq
      rw [Function.update_self]
      refine ⟨⟨-trxId, maxTrxId, data⟩, by rw [← ht]; simp, ?_⟩
      rw [← ht]
      intro index' hindex' key
      obtain ⟨index, hindex, rfl⟩ := List.mem_map.mp hindex'
      rw [Table.mem_addEntry, Table.addEntry_fieldMetas, Table.addEntry_key,
        or_iff_left (hunlisted index hindex key)]
      simp only [Prod.mk.injEq, and_true]
      have hnull : ∀ indexes records, Table.hasNull { tables table' with indexes := indexes, records := records } data
          index.fieldMetas = (tables table').hasNull data index.fieldMetas := by
        intro indexes records
        apply Table.hasNull_congr <;> rfl
      exact (and_congr_left fun _ => Iff.of_eq (congrArg (· = some false) (hnull _ _))).symm
    | inr hop => exact hframe.inserted table' rid' hop
  · intro table' rid' hop
    cases List.mem_cons.mp hop with
    | inl heq => cases heq
    | inr hop => exact hframe.deleted table' rid' hop
  · intro op hop
    rcases List.mem_cons.mp hop with rfl | hop
    · exact fun htype => nomatch htype
    · exact hframe.kinds op hop
  · have htable : restoreTable (⟨.insert, table, rid⟩ :: set.toList) table t =
        restoreTable set.toList table (tables table) := by
      rw [← ht]
      refine restoreTable_insert hfresh rfl rfl ?_ ?_
      · rw [Function.update_idem, ← hfree, Function.update_eq_self]
      · rw [List.map_map]
        exact ((List.map_congr_left fun index hindex => offSlot_addEntry hunlisted data hindex).trans
          (List.map_id _)).symm
    have hcons : restore (⟨.insert, table, rid⟩ :: set.toList) (Function.update tables table t) =
        restore set.toList (Function.update tables table (tables table)) := restore_cons htable
    rw [← restore_congr hmem, hcons, Function.update_eq_self]
    exact h.restored
  · intro table' rid' record hrecord hbegin
    rw [← hmem]
    by_cases haddr : table' = table ∧ rid' = rid
    · obtain ⟨rfl, rfl⟩ := haddr
      exact List.mem_cons_self
    · refine List.mem_cons_of_mem _ (h.own table' rid' record ?_ hbegin)
      by_cases htable : table' = table
      · subst htable
        rw [Function.update_self, hsame.records rid' (fun hrid => haddr ⟨rfl, hrid⟩)] at hrecord
        exact hrecord
      · rwa [Function.update_of_ne htable] at hrecord

theorem mark (h : Undoable base trxId set tables) (hpos : 0 < trxId) {table : ℕ} {rid : RID} {record : Record}
    (hrecord : (tables table).records rid = some record)
    (hcase : ⟨.insert, table, rid⟩ ∈ set.toList ∨ record.endXid = maxTrxId) :
    Undoable base trxId (set.insert ⟨.delete, table, rid⟩).2
      (Db.setVersion tables (table, rid) { record with endXid := -trxId }) := by
  have htidy : Tidy (Db.setVersion tables (table, rid) { record with endXid := -trxId }) :=
    h.tidy.setVersion hrecord rfl
  have hsame := sameOff_setRecord (tables table) rid (some { record with endXid := -trxId })
  have hown : ∀ table' rid' record', (Db.setVersion tables (table, rid) { record with endXid := -trxId }
      table').records rid' = some record' → record'.beginXid = -trxId → ⟨.insert, table', rid'⟩ ∈ set.toList := by
    intro table' rid' record' hrecord' hbegin
    have hversion := congrFun (versionOf_setVersion tables (table, rid) { record with endXid := -trxId }) (table', rid')
    rw [show versionOf _ (table', rid') = some record' from hrecord'] at hversion
    by_cases haddr : (table', rid') = (table, rid)
    · obtain ⟨rfl, rfl⟩ := Prod.mk.inj haddr
      rw [Function.update_self] at hversion
      obtain rfl := Option.some.inj hversion
      exact h.own table' rid' record hrecord hbegin
    · rw [Function.update_of_ne haddr] at hversion
      exact h.own table' rid' record' hversion.symm hbegin
  -- what the operations of other records, and the entries of all, depend on
  have hlist : ∀ {table' : ℕ} {rid' : RID} {data : Bytes}, Listed (tables table') rid' data →
      Listed (Db.setVersion tables (table, rid) { record with endXid := -trxId } table') rid' data := by
    intro table' rid' data hlisted
    by_cases htable : table' = table
    · subst htable
      rw [Db.setVersion, Function.update_self]
      exact listed_setRecord hlisted
    · rwa [Db.setVersion, Function.update_of_ne htable]
  have hversion : ∀ {table' : ℕ} {rid' : RID}, (table', rid') ≠ (table, rid) →
      (Db.setVersion tables (table, rid) { record with endXid := -trxId } table').records rid' =
        (tables table').records rid' := by
    intro table' rid' hne
    have hset := congrFun (versionOf_setVersion tables (table, rid) { record with endXid := -trxId }) (table', rid')
    rwa [Function.update_of_ne hne] at hset
  have hmarked : (Db.setVersion tables (table, rid) { record with endXid := -trxId } table).records rid =
      some { record with endXid := -trxId } := by
    have hset := congrFun (versionOf_setVersion tables (table, rid) { record with endXid := -trxId }) (table, rid)
    rwa [Function.update_self] at hset
  by_cases hinserted : ⟨.insert, table, rid⟩ ∈ set.toList
  · -- the operation set has this record already
    have hold : (⟨.delete, table, rid⟩ : Operation).addr ∈ set.toList.map Operation.addr :=
      List.mem_map.mpr ⟨_, hinserted, rfl⟩
    rw [OperationSet.insert_old hold]
    refine ⟨htidy, ⟨fun table' => (htidy table').wellFormed, ?_, ?_, h.pending.kinds⟩, ?_, hown⟩
    · intro table' rid' hop
      obtain ⟨old, hstored, hlisted⟩ := h.pending.inserted table' rid' hop
      by_cases haddr : (table', rid') = (table, rid)
      · obtain ⟨rfl, rfl⟩ := Prod.mk.inj haddr
        obtain rfl := Option.some.inj (hrecord.symm.trans hstored)
        exact ⟨_, hmarked, hlist hlisted⟩
      · exact ⟨old, (hversion haddr).trans hstored, hlist hlisted⟩
    · intro table' rid' hop
      obtain ⟨old, hstored, hend⟩ := h.pending.deleted table' rid' hop
      have haddr : (table', rid') ≠ (table, rid) := by
        intro haddr
        have heq := set.eq_of_addr hop hinserted haddr
        cases heq
      exact ⟨old, (hversion haddr).trans hstored, hend⟩
    · rw [← h.restored]
      funext table'
      unfold restore Db.setVersion
      by_cases htable : table' = table
      · subst htable
        rw [Function.update_self, restoreTable_own hinserted]
      · rw [Function.update_of_ne htable]
  · have hnew := hcase.resolve_left hinserted
    have hfresh : ∀ type, (⟨type, table, rid⟩ : Operation) ∉ set.toList := by
      intro type hop
      cases type with
      | insert => exact hinserted hop
      | delete =>
        obtain ⟨old, hstored, hend⟩ := h.pending.deleted table rid hop
        obtain rfl := Option.some.inj (hrecord.symm.trans hstored)
        rw [hnew] at hend
        unfold maxTrxId at hend
        omega
      | update => exact h.pending.kinds _ hop rfl
    have haddr : (⟨.delete, table, rid⟩ : Operation).addr ∉ set.toList.map Operation.addr := by
      intro hmem
      obtain ⟨op, hop, haddr⟩ := List.mem_map.mp hmem
      obtain ⟨type, table', rid'⟩ := op
      obtain ⟨rfl, rfl⟩ := Prod.mk.inj haddr
      exact hfresh type hop
    have hmem := OperationSet.mem_insert_new haddr
    have hframe : Pending trxId set.toList (Db.setVersion tables (table, rid) { record with endXid := -trxId }) :=
      h.pending.frame hsame hfresh
    refine ⟨htidy, Pending.congr hmem ⟨hframe.wellFormed, ?_, ?_, ?_⟩, ?_, ?_⟩
    · intro table' rid' hop
      cases List.mem_cons.mp hop with
      | inl heq => cases heq
      | inr hop => exact hframe.inserted table' rid' hop
    · intro table' rid' hop
      cases List.mem_cons.mp hop with
      | inl heq =>
        rw [Operation.mk.injEq] at heq
        obtain ⟨-, rfl, rfl⟩ := heq
        exact ⟨_, hmarked, rfl⟩
      | inr hop => exact hframe.deleted table' rid' hop
    · intro op hop
      rcases List.mem_cons.mp hop with rfl | hop
      · exact fun htype => nomatch htype
      · exact hframe.kinds op hop
    · have hback : ((tables table).setRecord rid (some { record with endXid := -trxId })).setRecord rid
          (some { ({ record with endXid := -trxId } : Record) with endXid := maxTrxId }) = tables table := by
        unfold Table.setRecord
        dsimp only
        rw [Function.update_idem, ← hnew, ← hrecord, Function.update_eq_self]
      have htable := restoreTable_delete hfresh (show ((tables table).setRecord rid
        (some { record with endXid := -trxId })).records rid = _ from Function.update_self _ _ _)
      rw [hback] at htable
      have hcons : restore (⟨.delete, table, rid⟩ :: set.toList)
          (Db.setVersion tables (table, rid) { record with endXid := -trxId }) =
            restore set.toList (Function.update tables table (tables table)) := restore_cons htable
      rw [← restore_congr hmem, hcons, Function.update_eq_self]
      exact h.restored
    · intro table' rid' record' hrecord' hbegin
      exact (hmem _).mp (List.mem_cons_of_mem _ (hown table' rid' record' hrecord' hbegin))

end Undoable

/-- The calls that a rollback undoes: a row that is deleted or updated has no index entry, an updated one was not
deleted by a committed transaction, and its new version is accepted. -/
def Restorable (db : Db) (s : ℕ) : Act → Prop
  | .deleteRecord table rid => ∀ record ∈ (db.tables table).records rid, record.endXid = maxTrxId →
      (db.tables table).Unlisted rid
  | .updateRecord table rid newData newRid => ∀ record ∈ (db.tables table).records rid,
      visitRecord (db.trxes s).trxId record false = .success →
      (record.beginXid = -(db.trxes s).trxId ∨ record.endXid = maxTrxId) ∧ (db.tables table).Unlisted rid ∧
        (db.tables table).Accepts newData newRid
  | _ => True

theorem deleteEntryOfIndexes_unlisted {t : Table} {rid : RID} (h : t.Unlisted rid) (record : Record)
    (errorOnNotExists : Bool) : (t.deleteEntryOfIndexes record rid errorOnNotExists).2 = t := by
  unfold Table.deleteEntryOfIndexes
  dsimp only
  rw [Table.deleteEntries_unlisted t record.data errorOnNotExists .success h]

theorem Undoable.step {base : ℕ → Table} {db db' : Db} {s : ℕ} {act : Act} {rc : RC}
    (h : Undoable base (db.trxes s).trxId (db.trxes s).operations db.tables) (hpos : 0 < (db.trxes s).trxId)
    (hpossible : act.Possible db s) (hrestorable : Restorable db s act) (hstarted : (db.trxes s).started = true)
    (hends : ¬ act.IsCommit ∧ ¬ act.IsRollback) (hcall : db.step s act = some (rc, db')) :
    (db'.trxes s).trxId = (db.trxes s).trxId ∧ (db'.trxes s).started = true ∧
      Undoable base (db.trxes s).trxId (db'.trxes s).operations db'.tables := by
  cases act with
  | startIfNeed =>
    simp only [Db.step, Db.startIfNeed, hstarted, if_true] at hcall
    obtain ⟨rfl, rfl⟩ := Prod.mk.inj (Option.some.inj hcall)
    exact ⟨rfl, hstarted, h⟩
  | insertRecord table data rid =>
    have hfree : (db.tables table).records rid = none := hpossible.2
    have hresult : db.insertRecord s table data rid = (rc, db') := Option.some.inj hcall
    unfold Db.insertRecord at hresult
    dsimp only at hresult
    split at hresult
    · next hrc =>
      obtain ⟨rfl, rfl⟩ := Prod.mk.inj hresult
      have hback := Table.insertRecord_refused _ ((h.tidy table).faithful.unlisted hfree) hfree hrc
      refine ⟨rfl, hstarted, ?_⟩
      simp only [Db.setTable, hback, Function.update_eq_self]
      exact h
    · next hrc =>
      obtain ⟨rfl, rfl⟩ := Prod.mk.inj hresult
      have hinsert := h.insert hfree (not_not.mp hrc)
      refine ⟨by simp [Db.setTrx], by simpa [Db.setTrx] using hstarted, ?_⟩
      simpa [Db.setTrx, Db.appendLog, Db.setTable] using hinsert
  | deleteRecord table rid =>
    simp only [Db.step, Db.deleteRecord, Option.bind_eq_bind, Option.bind_eq_some_iff] at hcall
    obtain ⟨record, hrecord, hcall⟩ := hcall
    split at hcall
    · cases hcall
    · split at hcall
      · obtain ⟨rfl, rfl⟩ := Prod.mk.inj (Option.some.inj hcall)
        exact ⟨rfl, hstarted, h⟩
      · next hnew =>
        obtain ⟨rfl, rfl⟩ := Prod.mk.inj (Option.some.inj hcall)
        have hunlisted := hrestorable record hrecord (not_not.mp hnew)
        have hmark := h.mark hpos hrecord (Or.inr (not_not.mp hnew))
        refine ⟨by simp [Db.setTrx], by simpa [Db.setTrx] using hstarted, ?_⟩
        rw [deleteEntryOfIndexes_unlisted (t := (db.tables table).setRecord rid _) hunlisted]
        simpa [Db.setTrx, Db.appendLog, Db.setTable, Db.setVersion] using hmark
  | updateRecord table rid newData newRid =>
    simp only [Db.step, Db.updateRecord, Option.bind_eq_bind, Option.bind_eq_some_iff] at hcall
    obtain ⟨record, hrecord, hcall⟩ := hcall
    split at hcall
    · obtain ⟨rfl, rfl⟩ := Prod.mk.inj (Option.some.inj hcall)
      exact ⟨rfl, hstarted, h⟩
    · next hvisit =>
      obtain ⟨hcase, hunlisted, haccepts⟩ := hrestorable record hrecord (not_not.mp hvisit)
      have hmark := h.mark hpos hrecord (hcase.imp_left fun hbegin => h.own table rid record hrecord hbegin)
      rw [deleteEntryOfIndexes_unlisted (t := (db.tables table).setRecord rid _) hunlisted] at hcall
      have htable : Db.setVersion db.tables (table, rid) { record with endXid := -(db.trxes s).trxId } table =
          (db.tables table).setRecord rid (some { record with endXid := -(db.trxes s).trxId }) := Function.update_self _ _ _
      have hfree : (db.tables table).records newRid = none := hpossible.2
      have hne : newRid ≠ rid := by
        rintro rfl
        rw [hrecord] at hfree
        cases hfree
      have hfree₁ : (Db.setVersion db.tables (table, rid) { record with endXid := -(db.trxes s).trxId }
          table).records newRid = none := by
        rw [htable]
        exact (Function.update_of_ne hne _ _).trans hfree
      have haccepts₁ : ((db.tables table).setRecord rid (some { record with endXid := -(db.trxes s).trxId })).Accepts
          newData newRid := by
        intro index hindex hnull
        rw [Table.hasNull_setRecord] at hnull
        exact haccepts index hindex hnull
      have hrc : (((db.tables table).setRecord rid (some { record with endXid := -(db.trxes s).trxId })).insertRecord
          ⟨-(db.trxes s).trxId, maxTrxId, newData⟩ newRid).1 = .success := by
        refine Table.insertRecord_accepted ?_ _ haccepts₁
        rw [← htable]
        exact (hmark.tidy table).wellFormed
      have hinsert := hmark.insert hfree₁ (by rw [htable]; exact hrc)
      rw [htable] at hinsert
      simp only [hrc, ne_eq, not_true_eq_false, if_false] at hcall
      obtain ⟨rfl, rfl⟩ := Prod.mk.inj (Option.some.inj hcall)
      refine ⟨by simp [Db.setTrx], by simpa [Db.setTrx] using hstarted, ?_⟩
      simpa [Db.setTrx, Db.appendLog, Db.setTable, Db.setVersion] using hinsert
  | visitRecord table rid readonly =>
    simp only [Db.step, Option.bind_eq_bind, Option.bind_eq_some_iff] at hcall
    obtain ⟨record, -, hcall⟩ := hcall
    obtain ⟨rfl, rfl⟩ := Prod.mk.inj (Option.some.inj hcall)
    exact ⟨rfl, hstarted, h⟩
  | commit order => exact absurd trivial hends.1
  | rollback order => exact absurd trivial hends.2

/-! ## The whole transaction -/

/-- A call of session `s` that a rollback undoes. -/
def OwnStep (s : ℕ) (db db' : Db) : Prop :=
  ∃ act rc, act.Possible db s ∧ Restorable db s act ∧ (¬ act.IsCommit ∧ ¬ act.IsRollback) ∧
    db.step s act = some (rc, db')

theorem Undoable.run {base : ℕ → Table} {db₁ db₂ : Db} {s : ℕ}
    (h : Undoable base (db₁.trxes s).trxId (db₁.trxes s).operations db₁.tables) (hpos : 0 < (db₁.trxes s).trxId)
    (hstarted : (db₁.trxes s).started = true) (hrun : Relation.ReflTransGen (OwnStep s) db₁ db₂) :
    (db₂.trxes s).trxId = (db₁.trxes s).trxId ∧ (db₂.trxes s).started = true ∧
      Undoable base (db₂.trxes s).trxId (db₂.trxes s).operations db₂.tables ∧
      ∀ s' ≠ s, db₂.trxes s' = db₁.trxes s' := by
  induction hrun with
  | refl => exact ⟨rfl, hstarted, h, fun _ _ => rfl⟩
  | tail _ hstep ih =>
    obtain ⟨act, rc, hpossible, hrestorable, hends, hcall⟩ := hstep
    obtain ⟨hid, hstarted', h', hothers⟩ := ih
    obtain ⟨hid', hstarted'', h''⟩ := h'.step (by rw [hid]; exact hpos) hpossible hrestorable hstarted' hends hcall
    refine ⟨hid'.trans hid, hstarted'', by rw [hid']; exact h'', ?_⟩
    intro s' hne
    have htrx : _ = _ := (step_effect hpossible hcall).trxes_of_ne hne
    exact htrx.trans (hothers s' hne)

/-- From every reachable database of `WellKeyed` tables: a transaction that starts, makes any calls of this kind and is
rolled back, its operations being walked in any order, leaves all records and all indexes as they were, and so what the
others see. -/
theorem rollback_restores {db₀ db db₁ db₂ : Db} {t : ℕ} {order : List Operation} (hfresh : db₀.Fresh)
    (htables : ∀ table, (db₀.tables table).WellKeyed ∧ (db₀.tables table).Sound)
    (hbefore : Relation.ReflTransGen (Step Proper) db₀ db) (hidle : (db.trxes t).started = false) (hstart : db.startIfNeed t = some (.success, db₁))
    (hrun : Relation.ReflTransGen (OwnStep t) db₁ db₂) (hlt : db₁.currentTrxId < maxTrxId)
    (horder : order.Perm (db₂.trxes t).operations.toList) :
    ∃ db₃, db₂.rollback t order = some (.success, db₃) ∧
      (∀ table, (db₃.tables table).indexes = (db.tables table).indexes) ∧ db₃.version = db.version ∧
      ∀ s ≠ t, ∀ addr data, db₃.view.Sees s addr data ↔ db.view.Sees s addr data := by
  have heffect : Effect db.view t .startIfNeed .success db₁.view := step_effect trivial hstart
  have hv : Inv db.view :=
    hfresh.inv.run (fun _ _ _ h => h) hbefore (lt_of_le_of_lt heffect.current_le hlt)
  have htidy : Tidy db.tables := tidy_run (fun table => (htables table).2.tidy) hbefore
  simp only [Db.startIfNeed, hidle, Bool.false_eq_true, if_false] at hstart
  split at hstart
  · cases hstart
  · next hops =>
    obtain ⟨-, rfl⟩ := Prod.mk.inj (Option.some.inj hstart)
    have hnone : (db.trxes t).operations.toList = [] := not_not.mp hops
    -- nothing has been done yet, and no version carries the new id
    have hundo : Undoable db.tables (db.currentTrxId + 1) (db.trxes t).operations db.tables := by
      refine ⟨htidy, ⟨fun table => (htidy table).wellFormed, ?_, ?_, ?_⟩, by rw [hnone, restore_nil], ?_⟩
      · intro table rid hop
        rw [hnone] at hop
        cases hop
      · intro table rid hop
        rw [hnone] at hop
        cases hop
      · intro op hop
        rw [hnone] at hop
        cases hop
      · intro table rid record hrecord hbegin
        have hlow : -db.currentTrxId ≤ record.beginXid := (hv.range (table, rid) record hrecord).begin_low
        omega
    have hpos : 0 < db.currentTrxId + 1 := by
      have hnonneg : 0 ≤ db.currentTrxId := hv.current_nonneg
      omega
    generalize hdb₁ : Db.setTrx _ t _ = db₁ at hrun
    have htrx : db₁.trxes t = { db.trxes t with trxId := db.currentTrxId + 1, started := true } := by
      rw [← hdb₁]
      exact Function.update_self _ _ _
    have hsame : ∀ s ≠ t, db₁.trxes s = db.trxes s := by
      intro s hne
      rw [← hdb₁]
      exact Function.update_of_ne hne _ _
    have hundo₁ : Undoable db.tables (db₁.trxes t).trxId (db₁.trxes t).operations db₁.tables := by
      rw [htrx, ← hdb₁]
      exact hundo
    obtain ⟨-, hstarted, hundo₂, hothers⟩ := hundo₁.run (by rw [htrx]; exact hpos) (by rw [htrx]) hrun
    have hpending := hundo₂.pending.congr (fun op => (horder.mem_iff (a := op)).symm)
    have hnodup : (order.map Operation.addr).Nodup :=
      (horder.map Operation.addr).nodup_iff.mpr (db₂.trxes t).operations.nodup
    have hrestored : restore order db₂.tables = db.tables :=
      (restore_congr (fun op => horder.mem_iff (a := op)) _).trans hundo₂.restored
    have hfold := rollback_restore hpending hnodup
    rw [hrestored] at hfold
    generalize hdb₃ : ({ db₂ with tables := db.tables } : Db).setTrx t
      { db₂.trxes t with started := false, operations := .empty } = db₃
    have htrxes : ∀ s ≠ t, db₃.trxes s = db.trxes s := by
      intro s hne
      rw [← hdb₃]
      exact (Function.update_of_ne hne _ _).trans ((hothers s hne).trans (hsame s hne))
    have hcall : ∃ log, db₂.rollback t order = some (.success, { db₃ with log := log }) := by
      unfold Db.rollback
      simp only [hfold, Option.bind_eq_bind, Option.bind_some]
      rw [← hdb₃]
      split
      · exact ⟨_, rfl⟩
      · exact ⟨_, rfl⟩
    have htables₃ : db₃.tables = db.tables := by
      rw [← hdb₃]
      rfl
    obtain ⟨log, hrollback⟩ := hcall
    refine ⟨_, hrollback, fun table => by rw [htables₃], by unfold Db.version; rw [htables₃], ?_⟩
    intro s hne addr data
    unfold View.Sees View.trxId Db.view Db.version
    dsimp only
    rw [htables₃, htrxes s hne]

/-- A table with one index on an integer field that may be NULL. -/
def indexedTable : ℕ → Table :=
  fun _ => ⟨[⟨.chars, 0, 1⟩, ⟨.ints, 1, 4⟩], 0, [⟨[⟨.ints, 1, 4⟩], false, ∅⟩], fun _ => none⟩

theorem indexedTable_wellKeyed (table : ℕ) : (indexedTable table).WellKeyed := show (indexedTable 0).WellKeyed by decide

theorem indexedTable_sound (table : ℕ) : (indexedTable table).Sound := by
  refine Table.sound_of_empty ?_ (fun _ => rfl) ?_
  · intro index hindex f hf
    fin_cases hindex
    fin_cases hf
    exact ⟨1, rfl⟩
  · intro index hindex
    fin_cases hindex
    rfl

/-- A transaction inserts a row and updates one that is NULL in the indexed field; the rollback takes both back. -/
theorem rollback_restores_null :
    let calls := [(0, Act.startIfNeed), (0, .insertRecord 0 [2, 0, 0, 0, 0] ⟨1, 0⟩),
      (0, .commit [⟨.insert, 0, ⟨1, 0⟩⟩])]
    ∃ db db₁ db₂ db₃, (Db.create indexedTable).runActs calls = some db ∧ db.startIfNeed 1 = some (.success, db₁) ∧
      db₁.runActs [(1, .insertRecord 0 [0, 7, 0, 0, 0] ⟨1, 1⟩), (1, .updateRecord 0 ⟨1, 0⟩ [0, 8, 0, 0, 0] ⟨1, 2⟩)] =
        some db₂ ∧
      db₂.rollback 1 [⟨.insert, 0, ⟨1, 2⟩⟩, ⟨.delete, 0, ⟨1, 0⟩⟩, ⟨.insert, 0, ⟨1, 1⟩⟩] = some (.success, db₃) ∧
      db₃.version = db.version ∧ (db₃.tables 0).indexes = (db.tables 0).indexes := by
  intro calls
  obtain ⟨db₂, hall, hobserved⟩ := Option.map_eq_some_iff.mp (show ((Db.create indexedTable).runActs (calls ++
    [(1, .startIfNeed), (1, .insertRecord 0 [0, 7, 0, 0, 0] ⟨1, 1⟩),
      (1, .updateRecord 0 ⟨1, 0⟩ [0, 8, 0, 0, 0] ⟨1, 2⟩)])).map (fun db => (db.trxes 1).operations.toList) =
        some [⟨.insert, 0, ⟨1, 1⟩⟩, ⟨.delete, 0, ⟨1, 0⟩⟩, ⟨.insert, 0, ⟨1, 2⟩⟩] by decide +kernel)
  rw [runActs_append, Option.bind_eq_some_iff] at hall
  obtain ⟨db, hbefore, hall⟩ := hall
  obtain ⟨-, rc, db₁, hstart, hrun⟩ := runActs_cons_inv hall
  obtain ⟨hpossible₁, rc₁, db', hinsert, hrest⟩ := runActs_cons_inv hrun
  obtain ⟨hpossible₂, rc₂, db'', hupdate, hnil⟩ := runActs_cons_inv hrest
  obtain rfl : db'' = db₂ := by simpa [Db.runActs] using hnil
  have hrc : rc = .success := by
    have heffect : Effect db.view 1 .startIfNeed rc db₁.view := step_effect trivial hstart
    generalize db₁.view = v₁ at heffect
    cases heffect <;> rfl
  subst hrc
  have hidle := runActs_observed (f := fun db => (db.trxes 1).started) (a := false) hbefore (by decide +kernel)
  have hcalls₁ : (Db.create indexedTable).runActs (calls ++ [(1, .startIfNeed)]) = some db₁ := by
    rw [runActs_append, hbefore]
    exact runActs_cons trivial hstart rfl
  have hcalls' : (Db.create indexedTable).runActs (calls ++
      [(1, .startIfNeed), (1, .insertRecord 0 [0, 7, 0, 0, 0] ⟨1, 1⟩)]) = some db' := by
    rw [runActs_append, hbefore]
    exact runActs_cons trivial hstart (runActs_cons hpossible₁ hinsert rfl)
  have hlt := runActs_observed (f := fun db => db.currentTrxId) (a := 3) hcalls₁ (by decide +kernel)
  -- the updated row is NULL in the indexed field
  obtain ⟨hindexes, hfields, hnull, hstored⟩ := by
    simpa only [Prod.mk.injEq] using runActs_observed (f := fun db => ((db.tables 0).indexes, (db.tables 0).fields,
      (db.tables 0).nullOffset, (db.tables 0).records ⟨1, 0⟩)) (a := ([⟨[⟨.ints, 1, 4⟩], false,
        {([Sum.inl 7], ⟨1, 1⟩)}⟩], [⟨.chars, 0, 1⟩, ⟨.ints, 1, 4⟩], 0, some ⟨2, maxTrxId, [2, 0, 0, 0, 0]⟩)) hcalls'
          (by decide +kernel)
  have hrestorable : Restorable db' 1 (.updateRecord 0 ⟨1, 0⟩ [0, 8, 0, 0, 0] ⟨1, 2⟩) := by
    intro record hrecord _
    obtain rfl := Option.some.inj (hstored.symm.trans hrecord)
    refine ⟨Or.inr rfl, ?_, ?_⟩
    · intro index hindex key hmem
      rw [hindexes, List.mem_singleton] at hindex
      subst hindex
      cases (Prod.mk.inj (Finset.mem_singleton.mp hmem)).2
    · intro index hindex _
      rw [hindexes, List.mem_singleton] at hindex
      subst hindex
      decide +kernel
  have hown : Relation.ReflTransGen (OwnStep 1) db₁ db'' :=
    (Relation.ReflTransGen.single ⟨_, rc₁, hpossible₁, trivial, ⟨id, id⟩, hinsert⟩).tail
      ⟨_, rc₂, hpossible₂, hrestorable, ⟨id, id⟩, hupdate⟩
  have hproper : Relation.ReflTransGen (Step Proper) (Db.create indexedTable) db :=
    runActs_steps (fun i hi _ _ => by
      have hi' : i < 3 := hi
      interval_cases i <;> trivial) hbefore
  have horder : List.Perm [⟨.insert, 0, ⟨1, 2⟩⟩, ⟨.delete, 0, ⟨1, 0⟩⟩, ⟨.insert, 0, ⟨1, 1⟩⟩]
      (db''.trxes 1).operations.toList := by
    rw [hobserved]
    decide
  obtain ⟨db₃, hrollback, hindexes₃, hversion, -⟩ := rollback_restores (create_fresh fun _ => rfl)
    (fun table => ⟨indexedTable_wellKeyed table, indexedTable_sound table⟩) hproper hidle hstart hown (by rw [hlt]; decide) horder
  exact ⟨db, db₁, db'', db₃, hbefore, hstart, hrun, hrollback, hversion, hindexes₃ 0⟩

/-- A transaction deletes a row and is rolled back: the row has lost its index entry. -/
theorem rollback_loses_entry :
    let calls := [(0, Act.startIfNeed), (0, .insertRecord 0 [0, 7, 0, 0, 0] ⟨1, 0⟩),
      (0, .commit [⟨.insert, 0, ⟨1, 0⟩⟩])]
    let own := [(1, Act.startIfNeed), (1, .visitRecord 0 ⟨1, 0⟩ false), (1, .deleteRecord 0 ⟨1, 0⟩),
      (1, .rollback [⟨.delete, 0, ⟨1, 0⟩⟩])]
    ∃ db db', (Db.create indexedTable).runActs calls = some db ∧ db.runActs own = some db' ∧
      (db.tables 0).indexes = [⟨[⟨.ints, 1, 4⟩], false, {([Sum.inl 7], ⟨1, 0⟩)}⟩] ∧
      (db'.tables 0).indexes = [⟨[⟨.ints, 1, 4⟩], false, ∅⟩] ∧ db'.version (0, ⟨1, 0⟩) = db.version (0, ⟨1, 0⟩) := by
  intro calls own
  obtain ⟨db', hall, hafter⟩ := Option.map_eq_some_iff.mp (show ((Db.create indexedTable).runActs (calls ++ own)).map
    (fun db => ((db.tables 0).indexes, db.version (0, ⟨1, 0⟩))) =
      some ([⟨[⟨.ints, 1, 4⟩], false, ∅⟩], some ⟨2, maxTrxId, [0, 7, 0, 0, 0]⟩) by decide +kernel)
  rw [runActs_append, Option.bind_eq_some_iff] at hall
  obtain ⟨db, hcalls, hown⟩ := hall
  obtain ⟨hentries, hversion⟩ := Prod.mk.inj (runActs_observed (f := fun db => ((db.tables 0).indexes,
    db.version (0, ⟨1, 0⟩))) (a := ([⟨[⟨.ints, 1, 4⟩], false, {([Sum.inl 7], ⟨1, 0⟩)}⟩],
      some ⟨2, maxTrxId, [0, 7, 0, 0, 0]⟩)) hcalls (by decide +kernel))
  obtain ⟨hentries', hversion'⟩ := Prod.mk.inj hafter
  exact ⟨db, db', hcalls, hown, hentries, hentries', hversion'.trans hversion.symm⟩

end Landbase.Trx
