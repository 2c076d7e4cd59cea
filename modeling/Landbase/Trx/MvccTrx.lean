import Landbase.Storage.Table

/-! # `MvccTrx`

The transactions of `storage/trx/mvcc_trx.cpp`. Every record carries the transaction that wrote it and the one that
deleted it: a positive number is the id of a commit, a negative one is the id of a transaction that has not ended, and
`max_trx_id` marks the newest version.

`Db` is all of the shared state: the tables, the id counter, the log and one `MvccTrx` for each session. A call returns a
code and the new state, or `none` where an `ASSERT` of the source fails. `operations_` is an unordered set; the order in
which a commit or a rollback walks it is an argument of these calls.

The log is the file with the records of `CLogBuffer` behind it, and here it takes every record. What a full buffer refuses,
and which records a crash loses, is said in `Landbase.Trx.LogBuffer`.
-/

namespace Landbase.Trx
open Landbase.Storage
set_option autoImplicit false

/-! ## Operations and the log -/

/-- `Operation::Type`. -/
inductive OperationType
  | insert | update | delete
  deriving DecidableEq, Repr

structure Operation where
  type : OperationType
  table : ℕ
  rid : RID
  deriving DecidableEq, Repr

/-- The record that an operation is about; `OperationEqualer` compares nothing else. -/
def Operation.addr (op : Operation) : ℕ × RID := (op.table, op.rid)

/-- `OperationSet`: no two operations of a transaction are about the same record. -/
structure OperationSet where
  toList : List Operation
  nodup : (toList.map Operation.addr).Nodup
  deriving DecidableEq

namespace OperationSet

def empty : OperationSet := ⟨[], List.nodup_nil⟩

/-- `unordered_set::insert`: whether the operation was inserted, and the set. -/
def insert (set : OperationSet) (op : Operation) : Bool × OperationSet :=
  if h : op.addr ∈ set.toList.map Operation.addr then (false, set)
  else (true, ⟨set.toList ++ [op], by
    rw [List.map_append, List.map_singleton]
    exact set.nodup.append (List.nodup_singleton _) (List.disjoint_singleton.mpr h)⟩)

end OperationSet

/-- The records of the commit log. -/
inductive CLogRecord
  | mtrBegin (trxId : ℤ)
  | insert (trxId : ℤ) (table : ℕ) (rid : RID) (record : Record)
  | delete (trxId : ℤ) (table : ℕ) (rid : RID)
  | mtrCommit (trxId commitXid : ℤ)
  | mtrRollback (trxId : ℤ)
  deriving DecidableEq, Repr

/-! ## The state -/

structure MvccTrx where
  trxId : ℤ
  started : Bool
  recovering : Bool
  operations : OperationSet
  deriving DecidableEq

/-- The tables, the counter `current_trx_id_` of `MvccTrxKit`, the log, and the transaction of each session. -/
structure Db where
  tables : ℕ → Table
  currentTrxId : ℤ
  log : List CLogRecord
  trxes : ℕ → MvccTrx

/-- `MvccTrxKit::max_trx_id`. -/
def maxTrxId : ℤ := 2 ^ 31 - 1

/-- The version of a record that a slot of a table holds. -/
def versionOf (tables : ℕ → Table) (addr : ℕ × RID) : Option Record := (tables addr.1).records addr.2

namespace Db

def setTable (db : Db) (table : ℕ) (t : Table) : Db := { db with tables := Function.update db.tables table t }

def setTrx (db : Db) (session : ℕ) (trx : MvccTrx) : Db :=
  { db with trxes := Function.update db.trxes session trx }

/-- `CLogManager::append_log` while the buffer has room. -/
def appendLog (db : Db) (log : CLogRecord) : Db := { db with log := db.log ++ [log] }

def version (db : Db) (addr : ℕ × RID) : Option Record := versionOf db.tables addr

end Db

/-! ## Visibility -/

/-- `MvccTrx::visit_record`. -/
def visitRecord (trxId : ℤ) (record : Record) (readonly : Bool) : RC :=
  if 0 < record.beginXid ∧ 0 < record.endXid then
    if record.beginXid ≤ trxId ∧ trxId ≤ record.endXid then .success else .recordInvisible
  else if record.beginXid < 0 then
    if -record.beginXid = trxId then .success else .recordInvisible
  else if record.endXid < 0 then
    if readonly then if -record.endXid ≠ trxId then .success else .recordInvisible
    else if -record.endXid ≠ trxId then .lockedConcurrencyConflict else .recordInvisible
  else .success

namespace Db

/-! ## Writing -/

/-- `MvccTrx::start_if_need`. -/
def startIfNeed (db : Db) (session : ℕ) : Option (RC × Db) :=
  let trx := db.trxes session
  if trx.started then some (.success, db)
  else if trx.operations.toList ≠ [] then none
  else
    let db := { db with currentTrxId := db.currentTrxId + 1 }
    let db := db.appendLog (.mtrBegin db.currentTrxId)
    some (.success, db.setTrx session { trx with trxId := db.currentTrxId, started := true })

/-- `MvccTrx::insert_record` of a record with these bytes, which is stored in the slot `rid`. -/
def insertRecord (db : Db) (session table : ℕ) (data : Bytes) (rid : RID) : RC × Db :=
  let trx := db.trxes session
  let record : Record := ⟨-trx.trxId, maxTrxId, data⟩
  let (rc, t) := (db.tables table).insertRecord record rid
  let db := db.setTable table t
  if rc ≠ .success then (rc, db)
  else
    let db := db.appendLog (.insert trx.trxId table rid record)
    let (inserted, operations) := trx.operations.insert ⟨.insert, table, rid⟩
    (if inserted then .success else .internal, db.setTrx session { trx with operations := operations })

/-- `MvccTrx::delete_record` of the record at `rid`. The field `__trx_xid_end` is written in place. -/
def deleteRecord (db : Db) (session table : ℕ) (rid : RID) : Option (RC × Db) := do
  let trx := db.trxes session
  let record ← (db.tables table).records rid
  if record.endXid ≤ 0 then none
  else if record.endXid ≠ maxTrxId then some (.success, db)
  else
    let record := { record with endXid := -trx.trxId }
    let t := (db.tables table).setRecord rid (some record)
    let (_, t) := t.deleteEntryOfIndexes record rid false
    let db := db.setTable table t
    let db := db.appendLog (.delete trx.trxId table rid)
    let (_, operations) := trx.operations.insert ⟨.delete, table, rid⟩
    some (.success, db.setTrx session { trx with operations := operations })

/-- `MvccTrx::update_record` of the record at `rid`; the new version has these bytes and is stored in the slot `newRid`. -/
def updateRecord (db : Db) (session table : ℕ) (rid : RID) (newData : Bytes) (newRid : RID) : Option (RC × Db) := do
  let trx := db.trxes session
  let record ← (db.tables table).records rid
  let rc := visitRecord trx.trxId record false
  if rc ≠ .success then some (rc, db)
  else
    let record := { record with endXid := -trx.trxId }
    let newRecord : Record := ⟨-trx.trxId, maxTrxId, newData⟩
    let t := (db.tables table).setRecord rid (some record)
    let (_, t) := t.deleteEntryOfIndexes record rid false
    let (rc, t) := t.insertRecord newRecord newRid
    if rc ≠ .success then
      let (_, t) := t.insertEntryOfIndexes record rid
      some (rc, db.setTable table t)
    else
      let db := db.setTable table t
      let db := db.appendLog (.delete trx.trxId table rid)
      let db := db.appendLog (.insert trx.trxId table newRid newRecord)
      let (_, operations) := trx.operations.insert ⟨.delete, table, rid⟩
      let (_, operations) := operations.insert ⟨.insert, table, newRid⟩
      some (.success, db.setTrx session { trx with operations := operations })

/-! ## Commit and rollback -/

/-- Rewriting the version at an address. -/
def setVersion (tables : ℕ → Table) (addr : ℕ × RID) (record : Record) : ℕ → Table :=
  Function.update tables addr.1 ((tables addr.1).setRecord addr.2 (some record))

/-- One round of the loop of `MvccTrx::commit_with_trx_id`. -/
def commitOperation (trxId commitXid : ℤ) (tables : ℕ → Table) (op : Operation) : Option (ℕ → Table) := do
  match op.type with
  | .insert =>
    let record ← versionOf tables op.addr
    if record.beginXid ≠ -trxId then none
    else some (setVersion tables op.addr { record with beginXid := commitXid })
  | .delete =>
    let record ← versionOf tables op.addr
    if record.endXid ≠ -trxId then none
    else some (setVersion tables op.addr { record with endXid := commitXid })
  | .update => none

/-- `MvccTrx::commit_with_trx_id`. -/
def commitWithTrxId (db : Db) (session : ℕ) (commitXid : ℤ) (order : List Operation) : Option (RC × Db) := do
  let trx := db.trxes session
  let tables ← order.foldlM (commitOperation trx.trxId commitXid) db.tables
  let db := { db with tables := tables }
  let db := db.setTrx session { trx with started := false, operations := .empty }
  if trx.recovering then some (.success, db) else some (.success, db.appendLog (.mtrCommit trx.trxId commitXid))

/-- `MvccTrx::commit`. -/
def commit (db : Db) (session : ℕ) (order : List Operation) : Option (RC × Db) :=
  let commitId := db.currentTrxId + 1
  commitWithTrxId { db with currentTrxId := commitId } session commitId order

/-- One round of the loop of `MvccTrx::rollback`. -/
def rollbackOperation (trxId : ℤ) (tables : ℕ → Table) (op : Operation) : Option (ℕ → Table) := do
  match op.type with
  | .insert =>
    let record ← versionOf tables op.addr
    let (rc, t) := (tables op.table).deleteRecord record op.rid
    if rc ≠ .success then none else some (Function.update tables op.table t)
  | .update | .delete =>
    let record ← versionOf tables op.addr
    if record.endXid ≠ -trxId then none
    else some (setVersion tables op.addr { record with endXid := maxTrxId })

/-- `MvccTrx::rollback`. -/
def rollback (db : Db) (session : ℕ) (order : List Operation) : Option (RC × Db) := do
  let trx := db.trxes session
  let tables ← order.foldlM (rollbackOperation trx.trxId) db.tables
  let db := { db with tables := tables }
  let db := db.setTrx session { trx with started := false, operations := .empty }
  if trx.recovering then some (.success, db) else some (.success, db.appendLog (.mtrRollback trx.trxId))

end Db

/-! ## Steps -/

/-- One call of a session. -/
inductive Act
  | startIfNeed
  | insertRecord (table : ℕ) (data : Bytes) (rid : RID)
  | deleteRecord (table : ℕ) (rid : RID)
  | updateRecord (table : ℕ) (rid : RID) (newData : Bytes) (newRid : RID)
  | visitRecord (table : ℕ) (rid : RID) (readonly : Bool)
  | commit (order : List Operation)
  | rollback (order : List Operation)
  deriving DecidableEq

/-- The choices that the source makes itself are possible ones: a new record goes to a free slot, and the operations are
walked in some order. All calls but the first come after `start_if_need`. -/
def Act.Possible (db : Db) (session : ℕ) : Act → Prop
  | startIfNeed => True
  | insertRecord table _ rid => (db.trxes session).started = true ∧ db.version (table, rid) = none
  | deleteRecord _ _ => (db.trxes session).started = true
  | updateRecord table _ _ newRid => (db.trxes session).started = true ∧ db.version (table, newRid) = none
  | visitRecord _ _ _ => (db.trxes session).started = true
  | commit order => (db.trxes session).started = true ∧ order.Perm (db.trxes session).operations.toList
  | rollback order => (db.trxes session).started = true ∧ order.Perm (db.trxes session).operations.toList

/-- A call, run as one step. -/
def Db.step (db : Db) (session : ℕ) : Act → Option (RC × Db)
  | .startIfNeed => db.startIfNeed session
  | .insertRecord table data rid => some (db.insertRecord session table data rid)
  | .deleteRecord table rid => db.deleteRecord session table rid
  | .updateRecord table rid newData newRid => db.updateRecord session table rid newData newRid
  | .visitRecord table rid readonly => do
    let record ← db.version (table, rid)
    some (visitRecord (db.trxes session).trxId record readonly, db)
  | .commit order => db.commit session order
  | .rollback order => db.rollback session order

instance (db : Db) (session : ℕ) (act : Act) : Decidable (act.Possible db session) :=
  match act with
  | .startIfNeed => inferInstanceAs (Decidable True)
  | .insertRecord table _ rid =>
    inferInstanceAs (Decidable ((db.trxes session).started = true ∧ db.version (table, rid) = none))
  | .deleteRecord _ _ => inferInstanceAs (Decidable ((db.trxes session).started = true))
  | .updateRecord table _ _ newRid =>
    inferInstanceAs (Decidable ((db.trxes session).started = true ∧ db.version (table, newRid) = none))
  | .visitRecord _ _ _ => inferInstanceAs (Decidable ((db.trxes session).started = true))
  | .commit order =>
    inferInstanceAs (Decidable ((db.trxes session).started = true ∧ order.Perm (db.trxes session).operations.toList))
  | .rollback order =>
    inferInstanceAs (Decidable ((db.trxes session).started = true ∧ order.Perm (db.trxes session).operations.toList))

/-- A sequence of calls. -/
def Db.runActs : Db → List (ℕ × Act) → Option Db
  | db, [] => some db
  | db, (session, act) :: acts => do
    if act.Possible db session then
      let (_, db) ← db.step session act
      runActs db acts
    else none

/-- A database of tables without records; no transaction has been started. -/
def Db.create (tables : ℕ → Table) : Db := ⟨tables, 0, [], fun _ => ⟨-1, false, false, .empty⟩⟩

end Landbase.Trx
