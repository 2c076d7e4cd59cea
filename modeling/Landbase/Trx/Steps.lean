import Landbase.Trx.MvccTrx

/-! # What a step does to the versions

Visibility depends on the versions of the records, the id counter and the transactions; indexes and the log play no
part. `View` is this part of the state and `Effect` says everything that a call can do to it, one case for each way
through the source. `step_effect` is the one place where the code of `MvccTrx` is unfolded for it.
-/

namespace Landbase.Trx
open Landbase.Storage
set_option autoImplicit false

/-! ## Records of a table -/

theorem records_insertEntryOfIndexes (t : Table) (record : Record) (rid : RID) :
    (t.insertEntryOfIndexes record rid).2.records = t.records := rfl

theorem records_eraseRecord (t : Table) (rid : RID) : (t.eraseRecord rid).2.records = Function.update t.records rid none := by
  unfold Table.eraseRecord
  cases h : t.records rid with
  | none =>
    show t.records = Function.update t.records rid none
    rw [← h, Function.update_eq_self]
  | some r => rfl

theorem records_insertRecord (t : Table) (record : Record) (rid : RID) :
    (t.insertRecord record rid).2.records =
      Function.update t.records rid (if (t.insertRecord record rid).1 = .success then some record else none) := by
  unfold Table.insertRecord
  dsimp only
  split
  · rw [records_eraseRecord]
    exact Function.update_idem _ _ _
  · next h =>
    rw [not_not] at h
    rw [if_pos h]
    rfl

theorem records_deleteRecord (t : Table) (record : Record) (rid : RID) (h : (t.deleteRecord record rid).1 = .success) :
    (t.deleteRecord record rid).2.records = Function.update t.records rid none := by
  unfold Table.deleteRecord at h ⊢
  dsimp only at h ⊢
  split at h
  · next hrc => exact absurd h hrc
  · next hrc =>
    rw [if_neg hrc, records_eraseRecord]
    rfl

/-! ## Versions -/

theorem versionOf_update (tables : ℕ → Table) (table : ℕ) (t : Table) (rid : RID) (slot : Option Record)
    (h : t.records = Function.update (tables table).records rid slot) :
    versionOf (Function.update tables table t) = Function.update (versionOf tables) (table, rid) slot := by
  funext addr
  obtain ⟨table', rid'⟩ := addr
  unfold versionOf
  by_cases htable : table' = table
  · subst htable
    rw [Function.update_self, h]
    by_cases hrid : rid' = rid
    · rw [hrid, Function.update_self, Function.update_self]
    · rw [Function.update_of_ne hrid, Function.update_of_ne (by simp [hrid])]
  · rw [Function.update_of_ne htable, Function.update_of_ne (by simp [htable])]

theorem versionOf_setVersion (tables : ℕ → Table) (addr : ℕ × RID) (record : Record) :
    versionOf (Db.setVersion tables addr record) = Function.update (versionOf tables) addr (some record) :=
  versionOf_update tables addr.1 _ addr.2 (some record) rfl

/-- What a walk over the operations does to the versions: each operation changes the version it is about. -/
structure Walked (f : Operation → Record → Option (Option Record)) (ops : List Operation)
    (version version' : ℕ × RID → Option Record) : Prop where
  here : ∀ op ∈ ops, ∃ record slot, version op.addr = some record ∧ f op record = some slot ∧ version' op.addr = slot
  other : ∀ addr, addr ∉ ops.map Operation.addr → version' addr = version addr

theorem walked_foldlM {f : Operation → Record → Option (Option Record)}
    {round : (ℕ → Table) → Operation → Option (ℕ → Table)}
    (hround : ∀ tables op tables', round tables op = some tables' → ∃ record slot, versionOf tables op.addr = some record ∧
      f op record = some slot ∧ versionOf tables' = Function.update (versionOf tables) op.addr slot)
    {order : List Operation} (hnodup : (order.map Operation.addr).Nodup) {tables tables' : ℕ → Table}
    (h : order.foldlM round tables = some tables') : Walked f order (versionOf tables) (versionOf tables') := by
  induction order generalizing tables with
  | nil =>
    obtain rfl : tables = tables' := by simpa using h
    exact ⟨by simp, fun _ _ => rfl⟩
  | cons op order ih =>
    rw [List.map_cons, List.nodup_cons] at hnodup
    rw [List.foldlM_cons, Option.bind_eq_bind, Option.bind_eq_some_iff] at h
    obtain ⟨tables₁, hfirst, hrest⟩ := h
    obtain ⟨record, slot, hrecord, hslot, hversion⟩ := hround tables op tables₁ hfirst
    obtain ⟨hhere, hother⟩ := ih hnodup.2 hrest
    refine ⟨fun op' hop' => ?_, fun addr haddr => ?_⟩
    · rcases List.mem_cons.mp hop' with rfl | hop'
      · exact ⟨record, slot, hrecord, hslot, by rw [hother _ hnodup.1, hversion, Function.update_self]⟩
      · have hne : op'.addr ≠ op.addr := by
          intro heq
          exact hnodup.1 (heq ▸ List.mem_map_of_mem hop')
        obtain ⟨record', slot', hrecord', hslot'⟩ := hhere op' hop'
        rw [hversion, Function.update_of_ne hne] at hrecord'
        exact ⟨record', slot', hrecord', hslot'⟩
    · rw [List.map_cons, List.mem_cons, not_or] at haddr
      rw [hother addr haddr.2, hversion, Function.update_of_ne haddr.1]

/-- What a commit does to a version: it replaces the id of the transaction by the id of the commit. -/
def commitRecord (trxId commitXid : ℤ) (op : Operation) (record : Record) : Option (Option Record) :=
  match op.type with
  | .insert => if record.beginXid = -trxId then some (some { record with beginXid := commitXid }) else none
  | .delete => if record.endXid = -trxId then some (some { record with endXid := commitXid }) else none
  | .update => none

/-- What a rollback does to a version: a new one goes, an old one is the newest again. -/
def rollbackRecord (trxId : ℤ) (op : Operation) (record : Record) : Option (Option Record) :=
  match op.type with
  | .insert => some none
  | .update | .delete => if record.endXid = -trxId then some (some { record with endXid := maxTrxId }) else none

theorem commitOperation_setVersion {trxId commitXid : ℤ} {tables tables' : ℕ → Table} {op : Operation}
    (h : Db.commitOperation trxId commitXid tables op = some tables') :
    ∃ record record', versionOf tables op.addr = some record ∧ commitRecord trxId commitXid op record = some (some record') ∧
      record'.data = record.data ∧ tables' = Db.setVersion tables op.addr record' := by
  unfold Db.commitOperation at h
  unfold commitRecord
  cases htype : op.type with
  | insert =>
    simp only [htype, Option.bind_eq_bind, Option.bind_eq_some_iff] at h
    obtain ⟨record, hrecord, h⟩ := h
    split at h
    · cases h
    · next hbegin =>
      obtain rfl := Option.some.inj h
      exact ⟨record, _, hrecord, if_pos (not_not.mp hbegin), rfl, rfl⟩
  | delete =>
    simp only [htype, Option.bind_eq_bind, Option.bind_eq_some_iff] at h
    obtain ⟨record, hrecord, h⟩ := h
    split at h
    · cases h
    · next hend =>
      obtain rfl := Option.some.inj h
      exact ⟨record, _, hrecord, if_pos (not_not.mp hend), rfl, rfl⟩
  | update => simp [htype] at h

theorem commitOperation_spec {trxId commitXid : ℤ} {tables tables' : ℕ → Table} {op : Operation}
    (h : Db.commitOperation trxId commitXid tables op = some tables') :
    ∃ record slot, versionOf tables op.addr = some record ∧ commitRecord trxId commitXid op record = some slot ∧
      versionOf tables' = Function.update (versionOf tables) op.addr slot := by
  obtain ⟨record, record', hrecord, hslot, -, rfl⟩ := commitOperation_setVersion h
  exact ⟨record, some record', hrecord, hslot, versionOf_setVersion _ _ _⟩

theorem rollbackOperation_cases {trxId : ℤ} {tables tables' : ℕ → Table} {op : Operation}
    (h : Db.rollbackOperation trxId tables op = some tables') :
    ∃ record, versionOf tables op.addr = some record ∧
      ((op.type = .insert ∧ ((tables op.table).deleteRecord record op.rid).1 = .success ∧
        tables' = Function.update tables op.table ((tables op.table).deleteRecord record op.rid).2) ∨
      (op.type ≠ .insert ∧ record.endXid = -trxId ∧
        tables' = Db.setVersion tables op.addr { record with endXid := maxTrxId })) := by
  have hmark : ∀ record : Record, op.type ≠ .insert → (if record.endXid ≠ -trxId then none
      else some (Db.setVersion tables op.addr { record with endXid := maxTrxId })) = some tables' →
      op.type ≠ .insert ∧ record.endXid = -trxId ∧
        tables' = Db.setVersion tables op.addr { record with endXid := maxTrxId } := by
    intro record htype hset
    split at hset
    · cases hset
    · next hend => exact ⟨htype, not_not.mp hend, (Option.some.inj hset).symm⟩
  unfold Db.rollbackOperation at h
  cases htype : op.type with
  | insert =>
    simp only [htype, Option.bind_eq_bind, Option.bind_eq_some_iff] at h
    obtain ⟨record, hrecord, h⟩ := h
    split at h
    · cases h
    · next hrc => exact ⟨record, hrecord, Or.inl ⟨rfl, not_not.mp hrc, (Option.some.inj h).symm⟩⟩
  | update =>
    simp only [htype, Option.bind_eq_bind, Option.bind_eq_some_iff] at h
    obtain ⟨record, hrecord, h⟩ := h
    exact ⟨record, hrecord, Or.inr (htype ▸ hmark record (by simp [htype]) h)⟩
  | delete =>
    simp only [htype, Option.bind_eq_bind, Option.bind_eq_some_iff] at h
    obtain ⟨record, hrecord, h⟩ := h
    exact ⟨record, hrecord, Or.inr (htype ▸ hmark record (by simp [htype]) h)⟩

theorem rollbackOperation_spec {trxId : ℤ} {tables tables' : ℕ → Table} {op : Operation}
    (h : Db.rollbackOperation trxId tables op = some tables') :
    ∃ record slot, versionOf tables op.addr = some record ∧ rollbackRecord trxId op record = some slot ∧
      versionOf tables' = Function.update (versionOf tables) op.addr slot := by
  obtain ⟨record, hrecord, ⟨htype, hrc, rfl⟩ | ⟨htype, hend, rfl⟩⟩ := rollbackOperation_cases h
  · refine ⟨record, none, hrecord, by rw [rollbackRecord, htype], ?_⟩
    exact versionOf_update _ _ _ _ _ (records_deleteRecord _ _ _ hrc)
  · refine ⟨record, some { record with endXid := maxTrxId }, hrecord, ?_, versionOf_setVersion _ _ _⟩
    unfold rollbackRecord
    cases htype' : op.type with
    | insert => exact absurd htype' htype
    | update => exact if_pos hend
    | delete => exact if_pos hend

/-! ## Effects -/

/-- The part of the state that visibility depends on. -/
structure View where
  version : ℕ × RID → Option Record
  current : ℤ
  trxes : ℕ → MvccTrx

def Db.view (db : Db) : View := ⟨db.version, db.currentTrxId, db.trxes⟩

namespace View

def setVersion (v : View) (addr : ℕ × RID) (record : Record) : View :=
  { v with version := Function.update v.version addr (some record) }

def setTrx (v : View) (session : ℕ) (trx : MvccTrx) : View :=
  { v with trxes := Function.update v.trxes session trx }

def addOperation (v : View) (session : ℕ) (op : Operation) : View :=
  v.setTrx session { v.trxes session with operations := ((v.trxes session).operations.insert op).2 }

/-- The transaction of a session has got the next id. -/
def startTrx (v : View) (session : ℕ) : View :=
  { v with current := v.current + 1 }.setTrx session { v.trxes session with trxId := v.current + 1, started := true }

theorem addOperation_twice (v : View) (session : ℕ) (op₁ op₂ : Operation) :
    (v.addOperation session op₁).addOperation session op₂ = v.setTrx session { v.trxes session with
      operations := (((v.trxes session).operations.insert op₁).2.insert op₂).2 } := by
  simp only [addOperation, setTrx, Function.update_self, Function.update_idem]

/-- The transaction of a session has ended. -/
def endTrx (v : View) (session : ℕ) (version : ℕ × RID → Option Record) : View :=
  { v with version := version }.setTrx session { v.trxes session with started := false, operations := .empty }

end View

/-- The effect of a call that returns this code. -/
inductive Effect (v : View) (s : ℕ) : Act → RC → View → Prop
  | running (hstarted : (v.trxes s).started = true) : Effect v s .startIfNeed .success v
  | start (hstarted : (v.trxes s).started = false) (hops : (v.trxes s).operations.toList = []) :
      Effect v s .startIfNeed .success (v.startTrx s)
  | insert (hstarted : (v.trxes s).started = true) (table : ℕ) (data : Bytes) (rid : RID)
      (hfree : v.version (table, rid) = none) (rc : RC)
      (hrc : rc = if ((v.trxes s).operations.insert ⟨.insert, table, rid⟩).1 then .success else .internal) :
      Effect v s (.insertRecord table data rid) rc
        ((v.setVersion (table, rid) ⟨-(v.trxes s).trxId, maxTrxId, data⟩).addOperation s ⟨.insert, table, rid⟩)
  | insertRefused (table : ℕ) (data : Bytes) (rid : RID) (rc : RC) (hrc : rc ≠ .success) :
      Effect v s (.insertRecord table data rid) rc v
  | deleteOld (table : ℕ) (rid : RID) (record : Record) (hrecord : v.version (table, rid) = some record)
      (hpos : 0 < record.endXid) (hold : record.endXid ≠ maxTrxId) : Effect v s (.deleteRecord table rid) .success v
  | delete (hstarted : (v.trxes s).started = true) (table : ℕ) (rid : RID) (record : Record)
      (hrecord : v.version (table, rid) = some record) (hnew : record.endXid = maxTrxId) :
      Effect v s (.deleteRecord table rid) .success
        ((v.setVersion (table, rid) { record with endXid := -(v.trxes s).trxId }).addOperation s ⟨.delete, table, rid⟩)
  | updateConflict (table : ℕ) (rid : RID) (newData : Bytes) (newRid : RID) (record : Record)
      (hrecord : v.version (table, rid) = some record)
      (hvisit : Trx.visitRecord (v.trxes s).trxId record false ≠ .success) :
      Effect v s (.updateRecord table rid newData newRid) (Trx.visitRecord (v.trxes s).trxId record false) v
  | updateRefused (hstarted : (v.trxes s).started = true) (table : ℕ) (rid : RID) (newData : Bytes) (newRid : RID) (record : Record)
      (hrecord : v.version (table, rid) = some record)
      (hvisit : Trx.visitRecord (v.trxes s).trxId record false = .success) (rc : RC) (hrc : rc ≠ .success) :
      Effect v s (.updateRecord table rid newData newRid) rc
        (v.setVersion (table, rid) { record with endXid := -(v.trxes s).trxId })
  | update (hstarted : (v.trxes s).started = true) (table : ℕ) (rid : RID) (newData : Bytes) (newRid : RID)
      (record : Record) (hrecord : v.version (table, rid) = some record) (hfree : v.version (table, newRid) = none)
      (hvisit : Trx.visitRecord (v.trxes s).trxId record false = .success) :
      Effect v s (.updateRecord table rid newData newRid) .success
        ((((v.setVersion (table, rid) { record with endXid := -(v.trxes s).trxId }).setVersion (table, newRid)
          ⟨-(v.trxes s).trxId, maxTrxId, newData⟩).addOperation s ⟨.delete, table, rid⟩).addOperation s
            ⟨.insert, table, newRid⟩)
  | visit (table : ℕ) (rid : RID) (readonly : Bool) (record : Record) (hrecord : v.version (table, rid) = some record) :
      Effect v s (.visitRecord table rid readonly) (Trx.visitRecord (v.trxes s).trxId record readonly) v
  | commit (hstarted : (v.trxes s).started = true) (order : List Operation) (version : ℕ × RID → Option Record)
      (hwalk : Walked (commitRecord (v.trxes s).trxId (v.current + 1)) (v.trxes s).operations.toList v.version version) :
      Effect v s (.commit order) .success ({ v with current := v.current + 1 }.endTrx s version)
  | rollback (hstarted : (v.trxes s).started = true) (order : List Operation) (version : ℕ × RID → Option Record)
      (hwalk : Walked (rollbackRecord (v.trxes s).trxId) (v.trxes s).operations.toList v.version version) :
      Effect v s (.rollback order) .success (v.endTrx s version)

theorem Effect.congr {v v₁ v₂ : View} {s : ℕ} {act : Act} {rc : RC} (h : Effect v s act rc v₁) (heq : v₁ = v₂) :
    Effect v s act rc v₂ := heq ▸ h

theorem Walked.perm {f : Operation → Record → Option (Option Record)} {ops ops' : List Operation}
    {version version' : ℕ × RID → Option Record} (h : Walked f ops version version') (hperm : ops.Perm ops') :
    Walked f ops' version version' where
  here op hop := h.here op (hperm.mem_iff.mpr hop)
  other addr haddr := h.other addr fun hmem => haddr ((hperm.map Operation.addr).mem_iff.mp hmem)

theorem view_setTable (db : Db) (table : ℕ) (t : Table) (rid : RID) (slot : Option Record)
    (h : t.records = Function.update (db.tables table).records rid slot) :
    (db.setTable table t).view = { db.view with version := Function.update db.version (table, rid) slot } := by
  unfold Db.view Db.version Db.setTable
  dsimp only
  rw [versionOf_update db.tables table t rid slot h]

theorem view_setTrx (db : Db) (s : ℕ) (trx : MvccTrx) : (db.setTrx s trx).view = db.view.setTrx s trx := rfl

theorem view_appendLog (db : Db) (log : CLogRecord) : (db.appendLog log).view = db.view := rfl

theorem insertRecord_effect (db : Db) (s table : ℕ) (data : Bytes) (rid : RID)
    (hstarted : (db.trxes s).started = true) (hfree : db.version (table, rid) = none) :
    Effect db.view s (.insertRecord table data rid) (db.insertRecord s table data rid).1
      (db.insertRecord s table data rid).2.view := by
  have hrecords := records_insertRecord (db.tables table) ⟨-(db.trxes s).trxId, maxTrxId, data⟩ rid
  unfold Db.insertRecord
  dsimp only
  split
  · next hrc =>
    rw [if_neg hrc] at hrecords
    rw [view_setTable db table _ rid none hrecords]
    have hsame : Function.update db.version (table, rid) none = db.version := by
      rw [← hfree, Function.update_eq_self]
    rw [hsame]
    exact Effect.insertRefused table data rid _ hrc
  · next hrc =>
    rw [if_pos (not_not.mp hrc)] at hrecords
    dsimp only
    rw [view_setTrx, view_appendLog, view_setTable db table _ rid _ hrecords]
    exact Effect.insert hstarted table data rid hfree _ rfl

theorem deleteRecord_effect {db db' : Db} {s table : ℕ} {rid : RID} {rc : RC}
    (hstarted : (db.trxes s).started = true) (h : db.deleteRecord s table rid = some (rc, db')) :
    Effect db.view s (.deleteRecord table rid) rc db'.view := by
  unfold Db.deleteRecord at h
  simp only [Option.bind_eq_bind, Option.bind_eq_some_iff] at h
  obtain ⟨record, hrecord, h⟩ := h
  have hversion : db.view.version (table, rid) = some record := hrecord
  split at h
  · cases h
  · next hpos =>
    split at h
    · next hold =>
      obtain ⟨rfl, rfl⟩ := Prod.mk.inj (Option.some.inj h)
      exact Effect.deleteOld table rid record hversion (not_le.mp hpos) hold
    · next hnew =>
      obtain ⟨rfl, rfl⟩ := Prod.mk.inj (Option.some.inj h)
      rw [view_setTrx, view_appendLog, view_setTable db table _ rid (some { record with endXid := -(db.trxes s).trxId }) rfl]
      exact Effect.delete hstarted table rid record hversion (not_not.mp hnew)

theorem updateRecord_effect {db db' : Db} {s table : ℕ} {rid newRid : RID} {newData : Bytes} {rc : RC}
    (hstarted : (db.trxes s).started = true) (hfree : db.version (table, newRid) = none)
    (h : db.updateRecord s table rid newData newRid = some (rc, db')) :
    Effect db.view s (.updateRecord table rid newData newRid) rc db'.view := by
  unfold Db.updateRecord at h
  simp only [Option.bind_eq_bind, Option.bind_eq_some_iff] at h
  obtain ⟨record, hrecord, h⟩ := h
  have hversion : db.view.version (table, rid) = some record := hrecord
  split at h
  · next hvisit =>
    obtain ⟨rfl, rfl⟩ := Prod.mk.inj (Option.some.inj h)
    exact Effect.updateConflict table rid newData newRid record hversion hvisit
  · next hvisit =>
    rw [not_not] at hvisit
    generalize hmarked : (((db.tables table).setRecord rid (some { record with endXid := -(db.trxes s).trxId
      })).deleteEntryOfIndexes { record with endXid := -(db.trxes s).trxId } rid false).2 = t at h
    have ht : t.records = Function.update (db.tables table).records rid
        (some { record with endXid := -(db.trxes s).trxId }) := by rw [← hmarked]; rfl
    have hne : newRid ≠ rid := by
      rintro rfl
      rw [show db.version (table, newRid) = some record from hrecord] at hfree
      cases hfree
    have hfree' : t.records newRid = none := by
      rw [ht, Function.update_of_ne hne]
      exact hfree
    have hrecords := records_insertRecord t ⟨-(db.trxes s).trxId, maxTrxId, newData⟩ newRid
    split at h
    · next hrc =>
      obtain ⟨rfl, rfl⟩ := Prod.mk.inj (Option.some.inj h)
      rw [if_neg hrc, ← hfree', Function.update_eq_self, ht] at hrecords
      rw [view_setTable db table _ rid _ ((records_insertEntryOfIndexes _ _ _).trans hrecords)]
      exact Effect.updateRefused hstarted table rid newData newRid record hversion hvisit _ hrc
    · next hrc =>
      obtain ⟨rfl, rfl⟩ := Prod.mk.inj (Option.some.inj h)
      rw [if_pos (not_not.mp hrc)] at hrecords
      have hmark : (db.setTable table t).view =
          db.view.setVersion (table, rid) { record with endXid := -(db.trxes s).trxId } :=
        view_setTable db table t rid _ ht
      have hboth : (db.setTable table (t.insertRecord ⟨-(db.trxes s).trxId, maxTrxId, newData⟩ newRid).2).view =
          (db.view.setVersion (table, rid) { record with endXid := -(db.trxes s).trxId }).setVersion (table, newRid)
            ⟨-(db.trxes s).trxId, maxTrxId, newData⟩ := by
        rw [← hmark]
        have hset := view_setTable (db.setTable table t) table
          (t.insertRecord ⟨-(db.trxes s).trxId, maxTrxId, newData⟩ newRid).2 newRid
          (some ⟨-(db.trxes s).trxId, maxTrxId, newData⟩)
          (by rw [hrecords]; simp only [Db.setTable, Function.update_self])
        have hidem : (db.setTable table t).setTable table
            (t.insertRecord ⟨-(db.trxes s).trxId, maxTrxId, newData⟩ newRid).2 =
              db.setTable table (t.insertRecord ⟨-(db.trxes s).trxId, maxTrxId, newData⟩ newRid).2 := by
          simp only [Db.setTable, Function.update_idem]
        rw [hidem] at hset
        exact hset
      rw [view_setTrx, view_appendLog, view_appendLog, hboth]
      refine (Effect.update hstarted table rid newData newRid record hversion hfree hvisit).congr ?_
      rw [View.addOperation_twice]
      rfl

/-- Every call does what `Effect` says. -/
theorem step_effect {db db' : Db} {s : ℕ} {act : Act} {rc : RC} (hpossible : act.Possible db s)
    (h : db.step s act = some (rc, db')) : Effect db.view s act rc db'.view := by
  cases act with
  | startIfNeed =>
    simp only [Db.step, Db.startIfNeed] at h
    split at h
    · next hstarted =>
      obtain ⟨rfl, rfl⟩ := Prod.mk.inj (Option.some.inj h)
      exact Effect.running hstarted
    · next hstarted =>
      split at h
      · cases h
      · next hops =>
        obtain ⟨rfl, rfl⟩ := Prod.mk.inj (Option.some.inj h)
        rw [Bool.not_eq_true] at hstarted
        exact Effect.start hstarted (not_not.mp hops)
  | insertRecord table data rid =>
    obtain ⟨rfl, rfl⟩ := Prod.mk.inj (Option.some.inj h)
    exact insertRecord_effect db s table data rid hpossible.1 hpossible.2
  | deleteRecord table rid => exact deleteRecord_effect hpossible h
  | updateRecord table rid newData newRid => exact updateRecord_effect hpossible.1 hpossible.2 h
  | visitRecord table rid readonly =>
    simp only [Db.step, Option.bind_eq_bind, Option.bind_eq_some_iff] at h
    obtain ⟨record, hrecord, h⟩ := h
    obtain ⟨rfl, rfl⟩ := Prod.mk.inj (Option.some.inj h)
    exact Effect.visit table rid readonly record hrecord
  | commit order =>
    simp only [Db.step, Db.commit, Db.commitWithTrxId, Option.bind_eq_bind, Option.bind_eq_some_iff] at h
    obtain ⟨tables, hfold, h⟩ := h
    have hnodup : (order.map Operation.addr).Nodup :=
      (hpossible.2.map Operation.addr).nodup_iff.mpr (db.trxes s).operations.nodup
    have hwalk := (walked_foldlM (fun _ _ _ => commitOperation_spec) hnodup hfold).perm hpossible.2
    split at h
    · obtain ⟨rfl, rfl⟩ := Prod.mk.inj (Option.some.inj h)
      exact Effect.commit hpossible.1 order _ hwalk
    · obtain ⟨rfl, rfl⟩ := Prod.mk.inj (Option.some.inj h)
      exact Effect.commit hpossible.1 order _ hwalk
  | rollback order =>
    simp only [Db.step, Db.rollback, Option.bind_eq_bind, Option.bind_eq_some_iff] at h
    obtain ⟨tables, hfold, h⟩ := h
    have hnodup : (order.map Operation.addr).Nodup :=
      (hpossible.2.map Operation.addr).nodup_iff.mpr (db.trxes s).operations.nodup
    have hwalk := (walked_foldlM (fun _ _ _ => rollbackOperation_spec) hnodup hfold).perm hpossible.2
    split at h
    · obtain ⟨rfl, rfl⟩ := Prod.mk.inj (Option.some.inj h)
      exact Effect.rollback hpossible.1 order _ hwalk
    · obtain ⟨rfl, rfl⟩ := Prod.mk.inj (Option.some.inj h)
      exact Effect.rollback hpossible.1 order _ hwalk

end Landbase.Trx
