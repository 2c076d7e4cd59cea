import Landbase.Trx.Rollback

/-! # Recovery

`CLogManager::recover` of `storage/clog/clog.cpp` with `MvccTrx::redo`. The log is replayed from its start over the tables
as they are on disk; the transactions that have no end in the log are rolled back at last. `known` says which table ids
`Db::find_table` finds, and `walk` is the order in which an unordered set of operations is walked.

A call returns a code and the new state, or `none` where an `ASSERT` of the source fails.
-/

namespace Landbase.Clog
open Landbase.Storage Landbase.Trx
set_option autoImplicit false

/-! ## The state while the log is replayed -/

/-- The tables, and the counter and the transactions of `MvccTrxKit`. -/
structure Recovery where
  tables : ℕ → Table
  currentTrxId : ℤ
  trxes : List MvccTrx

def recordTrxId : CLogRecord → ℤ
  | .mtrBegin trxId => trxId
  | .insert trxId _ _ _ => trxId
  | .delete trxId _ _ => trxId
  | .mtrCommit trxId _ => trxId
  | .mtrRollback trxId => trxId

/-- `MvccTrxKit::create_trx(trx_id)`. -/
def Recovery.createTrx (r : Recovery) (trxId : ℤ) : Recovery :=
  { r with
    trxes := r.trxes ++ [⟨trxId, true, true, .empty⟩]
    currentTrxId := if r.currentTrxId < trxId then trxId else r.currentTrxId }

/-- `MvccTrxKit::find_trx`, as a position in `trxes_`. -/
def Recovery.findTrx (r : Recovery) (trxId : ℤ) : Option ℕ := r.trxes.findIdx? fun trx => trx.trxId == trxId

section Redo

variable (known : ℕ → Bool) (walk : OperationSet → List Operation)

/-- `MvccTrx::redo`: the code, the transaction and the tables. -/
def redo (tables : ℕ → Table) (trx : MvccTrx) : CLogRecord → Option (RC × MvccTrx × (ℕ → Table))
  | .insert _ table rid record =>
    if known table then
      -- recover_insert_record
      let (rc, t) := (tables table).insertRecord record rid
      let tables := Function.update tables table t
      if rc ≠ .success then some (rc, trx, tables)
      else some (.success, { trx with operations := (trx.operations.insert ⟨.insert, table, rid⟩).2 }, tables)
    else some (.schemaTableNotExist, trx, tables)
  | .delete _ table rid =>
    if known table then do
      let record ← versionOf tables (table, rid)
      if record.endXid ≠ maxTrxId then none
      else
        let tables := Db.setVersion tables (table, rid) { record with endXid := -trx.trxId }
        some (.success, { trx with operations := (trx.operations.insert ⟨.delete, table, rid⟩).2 }, tables)
    else some (.schemaTableNotExist, trx, tables)
  | .mtrCommit _ commitXid => do
    let tables ← (walk trx.operations).foldlM (Db.commitOperation trx.trxId commitXid) tables
    some (.success, { trx with started := false, operations := .empty }, tables)
  | .mtrRollback _ => do
    let tables ← (walk trx.operations).foldlM (Db.rollbackOperation trx.trxId) tables
    some (.success, { trx with started := false, operations := .empty }, tables)
  | .mtrBegin _ => none

/-- One round of the loop of `CLogManager::recover`. -/
def Recovery.redoRecord (r : Recovery) (record : CLogRecord) : Option (RC × Recovery) :=
  match record with
  | .mtrBegin trxId => some (.success, r.createTrx trxId)
  | .mtrCommit _ _ | .mtrRollback _ =>
    match r.findTrx (recordTrxId record) with
    | none => some (.internal, r)
    | some i => do
      let trx ← r.trxes[i]?
      let (rc, trx, tables) ← redo known walk r.tables trx record
      some (rc, { r with tables := tables, trxes := r.trxes.set i trx })
  | .insert _ _ _ _ | .delete _ _ _ => do
    let i ← r.findTrx (recordTrxId record)
    let trx ← r.trxes[i]?
    let (rc, trx, tables) ← redo known walk r.tables trx record
    some (rc, { r with tables := tables, trxes := r.trxes.set i trx })

/-- The loop over the records of the log. -/
def Recovery.redoAll (r : Recovery) : List CLogRecord → Option (RC × Recovery)
  | [] => some (.success, r)
  | record :: records => do
    let (rc, r) ← r.redoRecord known walk record
    if rc ≠ .success then some (rc, r) else redoAll r records

/-- The last loop, over the transactions that are left; ended ones have no operations any more. -/
def rollbackAll (tables : ℕ → Table) : List MvccTrx → Option (ℕ → Table)
  | [] => some tables
  | trx :: trxes => do
    let tables ← (walk trx.operations).foldlM (Db.rollbackOperation trx.trxId) tables
    rollbackAll tables trxes

/-- `CLogManager::recover` over the tables as they have been opened. -/
def recover (tables : ℕ → Table) (log : List CLogRecord) : Option (RC × Recovery) := do
  let (rc, r) ← Recovery.redoAll known walk ⟨tables, 0, []⟩ log
  if rc ≠ .success then some (rc, r)
  else
    let tables ← rollbackAll walk r.tables r.trxes
    some (.success, { r with tables := tables, trxes := [] })

end Redo

/-! ## The rounds that succeed -/

section Rounds

variable {known : ℕ → Bool} {walk : OperationSet → List Operation} {r r' : Recovery} {record : CLogRecord}
  {tables tables' : ℕ → Table} {trx trx' : MvccTrx} {t : ℤ} {table : ℕ} {rid : RID}

theorem redo_insert_success {row : Record}
    (h : redo known walk tables trx (.insert t table rid row) = some (.success, trx', tables')) :
    known table = true ∧ ((tables table).insertRecord row rid).1 = .success ∧
      trx' = { trx with operations := (trx.operations.insert ⟨.insert, table, rid⟩).2 } ∧
      tables' = Function.update tables table ((tables table).insertRecord row rid).2 := by
  simp only [redo] at h
  split at h
  · next hknown =>
    split at h
    · next hrc =>
      obtain ⟨hcode, -⟩ := Prod.mk.inj (Option.some.inj h)
      exact absurd hcode hrc
    · next hrc =>
      obtain ⟨-, rfl, rfl⟩ := by simpa only [Option.some.injEq, Prod.mk.injEq] using h
      exact ⟨hknown, not_not.mp hrc, rfl, rfl⟩
  · cases h

theorem redo_delete_success (h : redo known walk tables trx (.delete t table rid) = some (.success, trx', tables')) :
    known table = true ∧ ∃ row, versionOf tables (table, rid) = some row ∧ row.endXid = maxTrxId ∧
      trx' = { trx with operations := (trx.operations.insert ⟨.delete, table, rid⟩).2 } ∧
      tables' = Db.setVersion tables (table, rid) { row with endXid := -trx.trxId } := by
  simp only [redo] at h
  split at h
  · next hknown =>
    simp only [Option.bind_eq_bind, Option.bind_eq_some_iff] at h
    obtain ⟨row, hrow, h⟩ := h
    split at h
    · cases h
    · next hend =>
      obtain ⟨-, rfl, rfl⟩ := by simpa only [Option.some.injEq, Prod.mk.injEq] using h
      exact ⟨hknown, row, hrow, not_not.mp hend, rfl, rfl⟩
  · cases h

theorem redo_mtrCommit_success {c : ℤ}
    (h : redo known walk tables trx (.mtrCommit t c) = some (.success, trx', tables')) :
    (walk trx.operations).foldlM (Db.commitOperation trx.trxId c) tables = some tables' ∧
      trx' = { trx with started := false, operations := .empty } := by
  simp only [redo, Option.bind_eq_bind, Option.bind_eq_some_iff] at h
  obtain ⟨after, hloop, h⟩ := h
  obtain ⟨-, rfl, rfl⟩ := by simpa only [Option.some.injEq, Prod.mk.injEq] using h
  exact ⟨hloop, rfl⟩

theorem redo_mtrRollback_success (h : redo known walk tables trx (.mtrRollback t) = some (.success, trx', tables')) :
    (walk trx.operations).foldlM (Db.rollbackOperation trx.trxId) tables = some tables' ∧
      trx' = { trx with started := false, operations := .empty } := by
  simp only [redo, Option.bind_eq_bind, Option.bind_eq_some_iff] at h
  obtain ⟨after, hloop, h⟩ := h
  obtain ⟨-, rfl, rfl⟩ := by simpa only [Option.some.injEq, Prod.mk.injEq] using h
  exact ⟨hloop, rfl⟩

theorem redoRecord_cases (h : r.redoRecord known walk record = some (.success, r')) :
    (∃ t, record = .mtrBegin t ∧ r' = r.createTrx t) ∨
      ((∀ t, record ≠ .mtrBegin t) ∧ ∃ i trx trx' tables, r.findTrx (recordTrxId record) = some i ∧
        r.trxes[i]? = some trx ∧ redo known walk r.tables trx record = some (.success, trx', tables) ∧
        r' = { r with tables := tables, trxes := r.trxes.set i trx' }) := by
  cases record with
  | mtrBegin t => exact Or.inl ⟨t, rfl, (Prod.mk.inj (Option.some.inj h)).2.symm⟩
  | insert t table rid row =>
    simp only [Recovery.redoRecord, Option.bind_eq_bind, Option.bind_eq_some_iff] at h
    obtain ⟨i, hfind, trx, hget, ⟨rc, trx', tables⟩, hredo, h⟩ := h
    obtain ⟨rfl, rfl⟩ := Prod.mk.inj (Option.some.inj h)
    exact Or.inr ⟨by simp, i, trx, trx', tables, hfind, hget, hredo, rfl⟩
  | delete t table rid =>
    simp only [Recovery.redoRecord, Option.bind_eq_bind, Option.bind_eq_some_iff] at h
    obtain ⟨i, hfind, trx, hget, ⟨rc, trx', tables⟩, hredo, h⟩ := h
    obtain ⟨rfl, rfl⟩ := Prod.mk.inj (Option.some.inj h)
    exact Or.inr ⟨by simp, i, trx, trx', tables, hfind, hget, hredo, rfl⟩
  | mtrCommit t c =>
    simp only [Recovery.redoRecord] at h
    split at h
    · cases h
    · next i hfind =>
      simp only [Option.bind_eq_bind, Option.bind_eq_some_iff] at h
      obtain ⟨trx, hget, ⟨rc, trx', tables⟩, hredo, h⟩ := h
      obtain ⟨rfl, rfl⟩ := Prod.mk.inj (Option.some.inj h)
      exact Or.inr ⟨by simp, i, trx, trx', tables, hfind, hget, hredo, rfl⟩
  | mtrRollback t =>
    simp only [Recovery.redoRecord] at h
    split at h
    · cases h
    · next i hfind =>
      simp only [Option.bind_eq_bind, Option.bind_eq_some_iff] at h
      obtain ⟨trx, hget, ⟨rc, trx', tables⟩, hredo, h⟩ := h
      obtain ⟨rfl, rfl⟩ := Prod.mk.inj (Option.some.inj h)
      exact Or.inr ⟨by simp, i, trx, trx', tables, hfind, hget, hredo, rfl⟩

theorem redoRecord_of_redo (hrecord : ∀ t, record ≠ .mtrBegin t) {i : ℕ} {trx trx' : MvccTrx} {rc : RC} {tables : ℕ → Table}
    (hfind : r.findTrx (recordTrxId record) = some i) (hget : r.trxes[i]? = some trx)
    (hredo : redo known walk r.tables trx record = some (rc, trx', tables)) :
    r.redoRecord known walk record = some (rc, { r with tables := tables, trxes := r.trxes.set i trx' }) := by
  cases record with
  | mtrBegin t => exact absurd rfl (hrecord t)
  | _ => simp only [Recovery.redoRecord, hfind, hget, hredo, Option.bind_eq_bind, Option.bind_some]

theorem redoAll_cons {log : List CLogRecord}
    (h : r.redoAll known walk (record :: log) = some (.success, r')) :
    ∃ r₁, r.redoRecord known walk record = some (.success, r₁) ∧ r₁.redoAll known walk log = some (.success, r') := by
  rw [Recovery.redoAll, Option.bind_eq_bind, Option.bind_eq_some_iff] at h
  obtain ⟨⟨rc, r₁⟩, hfirst, hrest⟩ := h
  dsimp only at hrest
  split at hrest
  · next hrc =>
    obtain ⟨rfl, -⟩ := Prod.mk.inj (Option.some.inj hrest)
    exact absurd rfl hrc
  · next hrc =>
    obtain rfl : rc = .success := not_not.mp hrc
    exact ⟨r₁, hfirst, hrest⟩

theorem recover_success {log : List CLogRecord} (h : recover known walk tables log = some (.success, r)) :
    ∃ r₁ tables', Recovery.redoAll known walk ⟨tables, 0, []⟩ log = some (.success, r₁) ∧
      rollbackAll walk r₁.tables r₁.trxes = some tables' ∧ r = { r₁ with tables := tables', trxes := [] } := by
  rw [recover, Option.bind_eq_bind, Option.bind_eq_some_iff] at h
  obtain ⟨⟨rc, r₁⟩, hredo, hrest⟩ := h
  dsimp only at hrest
  split at hrest
  · next hrc =>
    obtain ⟨rfl, -⟩ := Prod.mk.inj (Option.some.inj hrest)
    exact absurd rfl hrc
  · next hrc =>
    obtain rfl : rc = .success := not_not.mp hrc
    simp only [Option.bind_eq_bind, Option.bind_eq_some_iff] at hrest
    obtain ⟨tables', hundo, hrest⟩ := hrest
    exact ⟨r₁, tables', hredo, hundo, (Prod.mk.inj (Option.some.inj hrest)).2.symm⟩

end Rounds

end Landbase.Clog
