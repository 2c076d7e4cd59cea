import Landbase.Trx.Invariant

/-! # What a call of a transaction does to the tables

Every call of `MvccTrx` works on its tables by a few operations of them (`Edit`), on records that are there and in slots
that are free. What each operation keeps of a table, every run of calls keeps (`Edited.keeps`, `edited_run`).
-/

namespace Landbase.Trx
open Landbase.Storage
set_option autoImplicit false

/-- One operation on a table. -/
inductive Edit : Table → Table → Prop
  | setRecord {t : Table} {rid : RID} {record record' : Record} (hrecord : t.records rid = some record)
    (hdata : record'.data = record.data) : Edit t (t.setRecord rid (some record'))
  | deleteEntryOfIndexes (t : Table) (record : Record) (rid : RID) :
    Edit t (t.deleteEntryOfIndexes record rid false).2
  | insertEntryOfIndexes {t : Table} {rid : RID} {record stored : Record} (hrecord : t.records rid = some stored)
    (hdata : stored.data = record.data) : Edit t (t.insertEntryOfIndexes record rid).2
  | insertRecord {t : Table} {rid : RID} (record : Record) (hfree : t.records rid = none) :
    Edit t (t.insertRecord record rid).2
  | deleteRecord {t : Table} {rid : RID} {record : Record} (hrecord : t.records rid = some record)
    (hrc : (t.deleteRecord record rid).1 = .success) : Edit t (t.deleteRecord record rid).2

/-- Every table has gone through some operations. -/
def Edited (tables tables' : ℕ → Table) : Prop := ∀ table, Relation.ReflTransGen Edit (tables table) (tables' table)

namespace Edited

variable {tables tables' : ℕ → Table}

theorem refl (tables : ℕ → Table) : Edited tables tables := fun _ => .refl

theorem trans {tables'' : ℕ → Table} (h : Edited tables tables') (h' : Edited tables' tables'') : Edited tables tables'' :=
  fun table => (h table).trans (h' table)

theorem update (tables : ℕ → Table) (table : ℕ) {t : Table} (ht : Relation.ReflTransGen Edit (tables table) t) :
    Edited tables (Function.update tables table t) := by
  intro table'
  by_cases htable : table' = table
  · rw [htable, Function.update_self]
    exact ht
  · rw [Function.update_of_ne htable]

theorem keeps {I : Table → Prop} (hI : ∀ {t t'}, Edit t t' → I t → I t') (h : Edited tables tables')
    (htables : ∀ table, I (tables table)) (table : ℕ) : I (tables' table) := by
  have hedits := h table
  generalize tables' table = t at hedits
  induction hedits with
  | refl => exact htables table
  | tail _ hedit ih => exact hI hedit ih

end Edited

/-! ## The rounds of commit and rollback -/

theorem edited_setVersion {tables : ℕ → Table} {addr : ℕ × RID} {record record' : Record}
    (hrecord : versionOf tables addr = some record) (hdata : record'.data = record.data) :
    Edited tables (Db.setVersion tables addr record') :=
  .update tables addr.1 (.single (.setRecord hrecord hdata))

theorem edited_commitOperation {trxId commitXid : ℤ} {tables tables' : ℕ → Table} {op : Operation}
    (hround : Db.commitOperation trxId commitXid tables op = some tables') : Edited tables tables' := by
  obtain ⟨record, record', hrecord, -, hdata, rfl⟩ := commitOperation_setVersion hround
  exact edited_setVersion hrecord hdata

theorem edited_rollbackOperation {trxId : ℤ} {tables tables' : ℕ → Table} {op : Operation}
    (hround : Db.rollbackOperation trxId tables op = some tables') : Edited tables tables' := by
  obtain ⟨record, hrecord, ⟨-, hrc, rfl⟩ | ⟨-, -, rfl⟩⟩ := rollbackOperation_cases hround
  · exact .update tables op.table (.single (.deleteRecord hrecord hrc))
  · exact edited_setVersion hrecord rfl

theorem edited_foldlM {round : (ℕ → Table) → Operation → Option (ℕ → Table)}
    (hround : ∀ {tables op tables'}, round tables op = some tables' → Edited tables tables') {order : List Operation}
    {tables tables' : ℕ → Table} (hfold : order.foldlM round tables = some tables') : Edited tables tables' := by
  induction order generalizing tables with
  | nil =>
    obtain rfl : tables = tables' := by simpa using hfold
    exact .refl tables
  | cons op order ih =>
    rw [List.foldlM_cons, Option.bind_eq_bind, Option.bind_eq_some_iff] at hfold
    obtain ⟨tables₁, hfirst, hrest⟩ := hfold
    exact (hround hfirst).trans (ih hrest)

/-! ## Every call -/

theorem insertRecord_tables (db : Db) (s table : ℕ) (data : Bytes) (rid : RID) :
    (db.insertRecord s table data rid).2.tables =
      Function.update db.tables table ((db.tables table).insertRecord ⟨-(db.trxes s).trxId, maxTrxId, data⟩ rid).2 := by
  unfold Db.insertRecord
  dsimp only
  split <;> rfl

/-- A deletion marks the version and drops its entries. -/
theorem edits_mark {t : Table} {rid : RID} {record : Record} (hrecord : t.records rid = some record) (endXid : ℤ) :
    Relation.ReflTransGen Edit t ((t.setRecord rid (some { record with endXid := endXid })).deleteEntryOfIndexes
      { record with endXid := endXid } rid false).2 := by
  have hset : Edit t (t.setRecord rid (some { record with endXid := endXid })) := .setRecord hrecord rfl
  exact .tail (.single hset) (.deleteEntryOfIndexes _ _ rid)

/-- An update marks the old version, drops its entries and inserts the new version; where that is refused, the entries of
the old one are put back. -/
theorem edited_updateRecord {db db' : Db} {s table : ℕ} {rid newRid : RID} {newData : Bytes} {rc : RC}
    (hfree : (db.tables table).records newRid = none)
    (hcall : db.updateRecord s table rid newData newRid = some (rc, db')) : Edited db.tables db'.tables := by
  simp only [Db.updateRecord, Option.bind_eq_bind, Option.bind_eq_some_iff] at hcall
  obtain ⟨record, hrecord, hcall⟩ := hcall
  have hmark := edits_mark hrecord (-(db.trxes s).trxId)
  have hne : newRid ≠ rid := by
    rintro rfl
    exact absurd (hrecord.symm.trans hfree) (by simp)
  split at hcall
  · obtain ⟨rfl, rfl⟩ := Prod.mk.inj (Option.some.inj hcall)
    exact .refl _
  · generalize ht : (((db.tables table).setRecord rid (some { record with endXid := -(db.trxes s).trxId
      })).deleteEntryOfIndexes { record with endXid := -(db.trxes s).trxId } rid false).2 = t at hcall hmark
    have hrecords : t.records = Function.update (db.tables table).records rid
        (some { record with endXid := -(db.trxes s).trxId }) := by
      rw [← ht]
      rfl
    have hfree' : t.records newRid = none := by
      rw [hrecords, Function.update_of_ne hne]
      exact hfree
    have hinsert := hmark.tail (.insertRecord ⟨-(db.trxes s).trxId, maxTrxId, newData⟩ hfree')
    split at hcall
    · have hstored : (t.insertRecord ⟨-(db.trxes s).trxId, maxTrxId, newData⟩ newRid).2.records rid =
          some { record with endXid := -(db.trxes s).trxId } := by
        rw [records_insertRecord, Function.update_of_ne (Ne.symm hne), hrecords, Function.update_self]
      obtain ⟨rfl, rfl⟩ := Prod.mk.inj (Option.some.inj hcall)
      exact .update db.tables table (hinsert.tail (.insertEntryOfIndexes hstored rfl))
    · obtain ⟨rfl, rfl⟩ := Prod.mk.inj (Option.some.inj hcall)
      exact .update db.tables table hinsert

theorem step_edited {db db' : Db} {s : ℕ} {act : Act} {rc : RC} (hpossible : act.Possible db s)
    (hcall : db.step s act = some (rc, db')) : Edited db.tables db'.tables := by
  cases act with
  | startIfNeed =>
    simp only [Db.step, Db.startIfNeed] at hcall
    split at hcall
    · obtain ⟨rfl, rfl⟩ := Prod.mk.inj (Option.some.inj hcall)
      exact .refl _
    · split at hcall
      · cases hcall
      · obtain ⟨rfl, rfl⟩ := Prod.mk.inj (Option.some.inj hcall)
        exact .refl _
  | insertRecord table data rid =>
    have htables := insertRecord_tables db s table data rid
    rw [show db.insertRecord s table data rid = (rc, db') from Option.some.inj hcall] at htables
    rw [show db'.tables = _ from htables]
    exact .update db.tables table (.single (.insertRecord _ hpossible.2))
  | deleteRecord table rid =>
    simp only [Db.step, Db.deleteRecord, Option.bind_eq_bind, Option.bind_eq_some_iff] at hcall
    obtain ⟨record, hrecord, hcall⟩ := hcall
    split at hcall
    · cases hcall
    · split at hcall
      · obtain ⟨rfl, rfl⟩ := Prod.mk.inj (Option.some.inj hcall)
        exact .refl _
      · obtain ⟨rfl, rfl⟩ := Prod.mk.inj (Option.some.inj hcall)
        exact .update db.tables table (edits_mark hrecord _)
  | updateRecord table rid newData newRid => exact edited_updateRecord hpossible.2 hcall
  | visitRecord table rid readonly =>
    simp only [Db.step, Option.bind_eq_bind, Option.bind_eq_some_iff] at hcall
    obtain ⟨record, -, hcall⟩ := hcall
    obtain ⟨rfl, rfl⟩ := Prod.mk.inj (Option.some.inj hcall)
    exact .refl _
  | commit order =>
    simp only [Db.step, Db.commit, Db.commitWithTrxId, Option.bind_eq_bind, Option.bind_eq_some_iff] at hcall
    obtain ⟨tables, hfold, hcall⟩ := hcall
    have htables := edited_foldlM edited_commitOperation hfold
    split at hcall <;> obtain ⟨rfl, rfl⟩ := Prod.mk.inj (Option.some.inj hcall) <;> exact htables
  | rollback order =>
    simp only [Db.step, Db.rollback, Option.bind_eq_bind, Option.bind_eq_some_iff] at hcall
    obtain ⟨tables, hfold, hcall⟩ := hcall
    have htables := edited_foldlM edited_rollbackOperation hfold
    split at hcall <;> obtain ⟨rfl, rfl⟩ := Prod.mk.inj (Option.some.inj hcall) <;> exact htables

theorem edited_run {P : View → ℕ → Act → Prop} {db₀ db : Db} (hrun : Relation.ReflTransGen (Step P) db₀ db) :
    Edited db₀.tables db.tables := by
  induction hrun with
  | refl => exact .refl _
  | tail _ hstep ih =>
    obtain ⟨s, act, rc, hpossible, -, hcall⟩ := hstep
    exact ih.trans (step_edited hpossible hcall)

end Landbase.Trx
