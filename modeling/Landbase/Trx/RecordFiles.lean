import Landbase.Lib.Program
import Landbase.Storage.RecordStore
import Landbase.Trx.MvccTrx

/-! # Transactions on record files

`MvccTrx` down to the bytes. The two hidden fields of a record lie at offsets of its bytes; a transaction writes them
through a visitor of `visit_record`, or through a `Record` that points into the page of a frame. What a transaction does
is a program of calls on the record files of its tables, and between the calls of the server frames may be evicted.

What the indexes of a table answer is an argument of a call: they live in files of their own.
-/

namespace Landbase.RecordFiles
open Lib Buffer RecordManager Trx
set_option autoImplicit false

/-! ## Hidden fields -/

/-- What transactions use of the meta data of a table: the size of a record and the offsets of its hidden fields. -/
structure Layout where
  recordSize : ℕ
  beginXid : ℕ
  endXid : ℕ

/-- `Field::get_int`. -/
def getInt (offset : ℕ) (data : Bytes) : ℤ := (asMemory data).getInt32 offset

/-- `Field::set_int`. -/
def setInt (offset : ℕ) (value : ℤ) (data : Bytes) : Bytes :=
  ((asMemory data).setInt32 offset value).read 0 data.length

/-- The record as `MvccTrx::visit_record` sees it. -/
def Layout.record (layout : Layout) (data : Bytes) : Storage.Record :=
  ⟨getInt layout.beginXid data, getInt layout.endXid data, data⟩

/-! ## Programs -/

/-- A program of calls on the record files of the tables. -/
abbrev FileProgram := Program (ℕ × Call) Answer

def ask (table : ℕ) (call : Call) : FileProgram Answer := .ask (table, call) .ret

/-- `Table::insert_record` after the call on the record file. -/
def insertEntries (table : ℕ) (indexes : RID → RC) : Answer → FileProgram (RC × Option RID)
  | ⟨.success, some rid, _⟩ => do
    if indexes rid ≠ .success then
      let _ ← ask table (.deleteRecord rid)
    return (indexes rid, some rid)
  | ⟨rc, _, _⟩ => return (rc, none)

/-- `Table::insert_record`. -/
def tableInsertRecord (table : ℕ) (data : Bytes) (order : List PageNum) (indexes : RID → RC) :
    FileProgram (RC × Option RID) := do
  let answer ← ask table (.insertRecord (asMemory data) order)
  insertEntries table indexes answer

/-- `Table::delete_record`, with the code that its indexes answer. -/
def tableDeleteRecord (table : ℕ) (rid : RID) (indexes : RC) : FileProgram RC :=
  if indexes ≠ .success then .ret indexes
  else do
    let answer ← ask table (.deleteRecord rid)
    return answer.rc

/-- The counter of `MvccTrxKit` and the transaction of each session. -/
structure MvccTrxKit where
  currentTrxId : ℤ
  trxes : ℕ → MvccTrx

namespace MvccTrxKit

def setTrx (kit : MvccTrxKit) (session : ℕ) (trx : MvccTrx) : MvccTrxKit :=
  { kit with trxes := Function.update kit.trxes session trx }

end MvccTrxKit

section Trx

variable (tables : ℕ → Layout) (trx : MvccTrx)

/-- The end of `MvccTrx::insert_record`. -/
def addInsertion (table : ℕ) : RC × Option RID → RC × MvccTrx
  | (.success, some rid) =>
    let (inserted, operations) := trx.operations.insert ⟨.insert, table, rid⟩
    (if inserted then .success else .internal, { trx with operations := operations })
  | (rc, _) => (rc, trx)

/-- `MvccTrx::insert_record`. -/
def insertRecord (table : ℕ) (data : Bytes) (order : List PageNum) (indexes : RID → RC) :
    FileProgram (RC × MvccTrx) := do
  let data := setInt (tables table).beginXid (-trx.trxId) data
  let data := setInt (tables table).endXid maxTrxId data
  let inserted ← tableInsertRecord table data order indexes
  return addInsertion trx table inserted

/-- `MvccTrx::delete_record` of the record at `rid`, which points into its page: the field is written in place. -/
def deleteRecord (table : ℕ) (rid : RID) : FileProgram (RC × MvccTrx) := do
  let field := (tables table).endXid
  let answer ← ask table (.visitRecord rid fun data =>
    if getInt field data = maxTrxId then setInt field (-trx.trxId) data else data)
  answer.data.elim (.ret (answer.rc, trx)) fun data =>
    if getInt field data ≤ 0 then .abort
    else if getInt field data ≠ maxTrxId then .ret (.success, trx)
    else .ret (.success, { trx with operations := (trx.operations.insert ⟨.delete, table, rid⟩).2 })

/-- The end of `MvccTrx::update_record`. -/
def addUpdate (table : ℕ) (rid : RID) : RC × Option RID → RC × MvccTrx
  | (.success, some newRid) =>
    let (_, operations) := trx.operations.insert ⟨.delete, table, rid⟩
    let (_, operations) := operations.insert ⟨.insert, table, newRid⟩
    (.success, { trx with operations := operations })
  | (rc, _) => (rc, trx)

/-- `MvccTrx::update_record` of the record at `rid`, which points into its page. -/
def updateRecord (table : ℕ) (rid : RID) (newData : Bytes) (order : List PageNum) (indexes : RID → RC) :
    FileProgram (RC × MvccTrx) := do
  let layout := tables table
  let answer ← ask table (.visitRecord rid fun data =>
    if visitRecord trx.trxId (layout.record data) false = .success then setInt layout.endXid (-trx.trxId) data
    else data)
  answer.data.elim (.ret (answer.rc, trx)) fun data =>
    if visitRecord trx.trxId (layout.record data) false ≠ .success then
      .ret (visitRecord trx.trxId (layout.record data) false, trx)
    else do
      let newData := setInt layout.beginXid (-trx.trxId) newData
      let newData := setInt layout.endXid maxTrxId newData
      let inserted ← tableInsertRecord table newData order indexes
      return addUpdate trx table rid inserted

/-- `visit_record` with a `record_updater`, which asserts what the field is and writes it. -/
def updateField (table : ℕ) (rid : RID) (field : ℕ) (value : ℤ) : FileProgram Unit := do
  let answer ← ask table (.visitRecord rid (setInt field value))
  answer.data.elim .abort fun data => if getInt field data = -trx.trxId then .ret () else .abort

/-- One round of the loop of `MvccTrx::commit_with_trx_id`. -/
def commitOperation (commitXid : ℤ) (op : Operation) : FileProgram Unit :=
  match op.type with
  | .insert => updateField trx op.table op.rid (tables op.table).beginXid commitXid
  | .delete => updateField trx op.table op.rid (tables op.table).endXid commitXid
  | .update => .abort

/-- `MvccTrx::commit_with_trx_id`: the set of operations is walked through once. -/
def commit (commitXid : ℤ) (order : List Operation) : FileProgram (RC × MvccTrx) :=
  if order.Perm trx.operations.toList then do
    order.forM (commitOperation tables trx commitXid)
    return (.success, { trx with started := false, operations := .empty })
  else .abort

/-- One round of the loop of `MvccTrx::rollback`. -/
def rollbackOperation (indexes : ℕ × RID → RC) (op : Operation) : FileProgram Unit :=
  match op.type with
  | .insert => do
    let found ← ask op.table (.visitRecord op.rid id)
    let rc ← tableDeleteRecord op.table op.rid (indexes op.addr)
    if found.rc ≠ .success ∨ rc ≠ .success then .abort else .ret ()
  | .update | .delete => updateField trx op.table op.rid (tables op.table).endXid maxTrxId

/-- `MvccTrx::rollback`. -/
def rollback (order : List Operation) (indexes : ℕ × RID → RC) : FileProgram (RC × MvccTrx) :=
  if order.Perm trx.operations.toList then do
    order.forM (rollbackOperation tables trx indexes)
    return (.success, { trx with started := false, operations := .empty })
  else .abort

end Trx

/-! ## Steps -/

/-- One call of a session on its transaction. -/
inductive Act
  | startIfNeed
  | insertRecord (table : ℕ) (data : Bytes) (order : List PageNum) (indexes : RID → RC)
  | deleteRecord (table : ℕ) (rid : RID)
  | updateRecord (table : ℕ) (rid : RID) (newData : Bytes) (order : List PageNum) (indexes : RID → RC)
  | commit (order : List Operation)
  | rollback (order : List Operation) (indexes : ℕ × RID → RC)

/-- `MvccTrx::start_if_need`. -/
def MvccTrxKit.startIfNeed (kit : MvccTrxKit) (session : ℕ) : FileProgram (RC × MvccTrxKit) :=
  let trx := kit.trxes session
  if trx.started then .ret (.success, kit)
  else if trx.operations.toList ≠ [] then .abort
  else
    let kit := { kit with currentTrxId := kit.currentTrxId + 1 }
    .ret (.success, kit.setTrx session { trx with trxId := kit.currentTrxId, started := true })

/-- All calls but the first come after `start_if_need`. -/
def MvccTrxKit.started (kit : MvccTrxKit) (session : ℕ) (use : MvccTrx → FileProgram (RC × MvccTrx)) :
    FileProgram (RC × MvccTrxKit) :=
  if (kit.trxes session).started then (fun r => (r.1, kit.setTrx session r.2)) <$> use (kit.trxes session)
  else .abort

/-- The program of a call. -/
def Act.program (tables : ℕ → Layout) (kit : MvccTrxKit) (session : ℕ) : Act → FileProgram (RC × MvccTrxKit)
  | startIfNeed => kit.startIfNeed session
  | insertRecord table data order indexes =>
    kit.started session fun trx => RecordFiles.insertRecord tables trx table data order indexes
  | deleteRecord table rid => kit.started session fun trx => RecordFiles.deleteRecord tables trx table rid
  | updateRecord table rid newData order indexes =>
    kit.started session fun trx => RecordFiles.updateRecord tables trx table rid newData order indexes
  | commit order =>
    let kit := { kit with currentTrxId := kit.currentTrxId + 1 }
    kit.started session fun trx => RecordFiles.commit tables trx kit.currentTrxId order
  | rollback order indexes => kit.started session fun trx => RecordFiles.rollback tables trx order indexes

/-- The record files of the tables, and the transactions. -/
structure Db where
  files : ℕ → RecordFileHandler
  kit : MvccTrxKit

/-- New files; no transaction has been started. -/
def Db.create : Db := ⟨fun _ => .create, 0, fun _ => ⟨-1, false, false, .empty⟩⟩

/-- A call on the record file of a table. -/
def answer (tables : ℕ → Layout) (files : ℕ → RecordFileHandler) (question : ℕ × Call) :
    Option (Answer × (ℕ → RecordFileHandler)) :=
  if question.2.Allowed (files question.1).freePages then
    ((files question.1).call (tables question.1).recordSize question.2).map fun r =>
      (r.1, Function.update files question.1 r.2)
  else none

/-- What the server does: a call on a record file, a call on a transaction, the eviction of a frame that nobody pins. -/
inductive Step
  | call (table : ℕ) (call : Call)
  | act (session : ℕ) (act : Act)
  | evict (table : ℕ) (pageNum : PageNum)

/-- The frame of the file header is always pinned. -/
def evict (files : ℕ → RecordFileHandler) (table : ℕ) (pageNum : PageNum) : ℕ → RecordFileHandler :=
  if pageNum = bpHeaderPage then files
  else Function.update files table { files table with pool := (files table).pool.purgeFrame pageNum }

def Db.step (tables : ℕ → Layout) (db : Db) : Step → Option Db
  | .call table call => ((ask table call).run (answer tables) db.files).map fun r => { db with files := r.2 }
  | .act session act =>
    ((act.program tables db.kit session).run (answer tables) db.files).map fun r => ⟨r.2, r.1.2⟩
  | .evict table pageNum => some { db with files := evict db.files table pageNum }

/-- A run of the server on new files. It ends where an assertion fails. -/
def run (tables : ℕ → Layout) (steps : List Step) : Option Db := steps.foldlM (Db.step tables) .create

/-- What `Table::get_record` finds. -/
def getRecord (file : RecordFileHandler) (rid : RID) : Option (RC × Option Bytes) :=
  (file.visitRecord rid id).map fun r => (r.1, r.2.1)

/-- The contents of all records. -/
def Db.contents (db : Db) (table : ℕ) : RID → Option (RC × Option Bytes) := getRecord (db.files table)

def Step.isEvict : Step → Bool
  | .evict _ _ => true
  | _ => false

/-- The run without its evictions. -/
def withoutEvictions (steps : List Step) : List Step := steps.filter fun step => !step.isEvict

end Landbase.RecordFiles
