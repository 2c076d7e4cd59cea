import Landbase.Clog.Equivalence
import Landbase.Trx.LogBuffer

/-! # Sessions

The requests of any number of sessions, as `TrxBeginExecutor`, `TrxEndExecutor` and `SqlResult` of `sql/executor` turn them into
calls of `MvccTrx`: a statement outside of `BEGIN` ... `COMMIT` is a transaction of its own. A new connection has a new number.
-/

namespace Landbase.Sessions
open Landbase.Storage Landbase.Trx Landbase.Clog
set_option autoImplicit false

/-! ## Requests -/

/-- `class Session`: `trx_multi_operation_mode_`, whether the `SqlResult` of its request has an operator, and whether the session
has been destroyed. -/
structure Session where
  multi : Bool
  executing : Bool
  gone : Bool

structure Server where
  db : Db
  sessions : ℕ → Session

namespace Server

def create (tables : ℕ → Table) : Server := ⟨.create tables, fun _ => ⟨false, false, false⟩⟩

def setSession (server : Server) (s : ℕ) (session : Session) : Server :=
  { server with sessions := Function.update server.sessions s session }

def setDb (server : Server) (r : RC × Db) : RC × Server := (r.1, { server with db := r.2 })

variable (server : Server) (s : ℕ)

/-- `SqlResult::open`, up to the call of the operator. -/
def open_ : Option (RC × Server) :=
  (server.db.startIfNeed s).map (server.setSession s { server.sessions s with executing := true }).setDb

/-- `SqlResult::close`; `rc` is what the operator says to `close`. -/
def close (rc : RC) (order : List Operation) : Option (RC × Server) :=
  let server := server.setSession s { server.sessions s with executing := false }
  if (server.sessions s).multi then some (rc, server)
  else if rc = .success then (server.db.commit s order).map server.setDb
  else (server.db.rollback s order).map fun r => (rc, (server.setDb r).2)

/-- The `SqlResult` is destroyed without a `close`: `MysqlCommunicator::write_result` after an `open` that fails, and
`PlainCommunicator::write_result_internal` where a delimiter of the header cannot be sent. -/
def abandon : Server := server.setSession s { server.sessions s with executing := false }

/-- `TrxBeginExecutor::execute`. -/
def trxBegin : Option (RC × Server) :=
  let server := server.setSession s { server.sessions s with multi := true }
  (server.db.startIfNeed s).map server.setDb

/-- `TrxEndExecutor::execute`, for `COMMIT` or `ROLLBACK`. -/
def trxEnd (commit : Bool) (order : List Operation) : Option (RC × Server) :=
  let server := server.setSession s { server.sessions s with multi := false }
  if commit then (server.db.commit s order).map server.setDb else (server.db.rollback s order).map server.setDb

/-- `Session::~Session`. -/
def disconnect : Server := server.setSession s { server.sessions s with gone := true }

end Server

inductive Event
  | open_
  | call (act : Act)
  | close (rc : RC) (order : List Operation)
  | abandon
  | trxBegin
  | trxEnd (commit : Bool) (order : List Operation)
  | disconnect

namespace Event

/-- A call of an operator: a new record goes to a free slot. -/
def Calls (db : Db) : Act → Prop
  | .insertRecord table _ rid | .updateRecord table _ _ rid => db.version (table, rid) = none
  | .deleteRecord _ _ | .visitRecord _ _ _ => True
  | .startIfNeed | .commit _ | .rollback _ => False

/-- A session has one request at a time, and operations are walked in some order. -/
def Possible (server : Server) (s : ℕ) (event : Event) : Prop :=
  (server.sessions s).gone = false ∧
    match event with
    | open_ | trxBegin | disconnect => (server.sessions s).executing = false
    | trxEnd _ order => (server.sessions s).executing = false ∧ order.Perm (server.db.trxes s).operations.toList
    | call act => (server.sessions s).executing = true ∧ Calls server.db act
    | close _ order => (server.sessions s).executing = true ∧ order.Perm (server.db.trxes s).operations.toList
    | abandon => (server.sessions s).executing = true

end Event

/-- What an event does, or `none` where an `ASSERT` fails. -/
def Server.step (server : Server) (s : ℕ) : Event → Option (RC × Server)
  | .open_ => server.open_ s
  | .call act => (server.db.step s act).map server.setDb
  | .close rc order => server.close s rc order
  | .abandon => some (.success, server.abandon s)
  | .trxBegin => server.trxBegin s
  | .trxEnd commit order => server.trxEnd s commit order
  | .disconnect => some (.success, server.disconnect s)

/-- The runs of a server in which every event satisfies `P`. -/
inductive Run (P : Server → ℕ → Event → Prop) (start : Server) : List (ℕ × Event) → Server → Prop
  | nil : Run P start [] start
  | snoc {events : List (ℕ × Event)} {server server' : Server} {s : ℕ} {event : Event} {rc : RC}
    (hrun : Run P start events server) (hpossible : event.Possible server s) (hp : P server s event)
    (hstep : server.step s event = some (rc, server')) : Run P start (events ++ [(s, event)]) server'

/-! ## Events and calls -/

namespace Event

/-- The call of `MvccTrx` behind an event. -/
def act (session : Session) : Event → Option Act
  | open_ | trxBegin => some .startIfNeed
  | call act => some act
  | close rc order => if session.multi then none else some (if rc = .success then .commit order else .rollback order)
  | trxEnd commit order => some (if commit then .commit order else .rollback order)
  | abandon | disconnect => none

def after (session : Session) : Event → Session
  | open_ => { session with executing := true }
  | call _ => session
  | close _ _ | abandon => { session with executing := false }
  | trxBegin => { session with multi := true }
  | trxEnd _ _ => { session with multi := false }
  | disconnect => { session with gone := true }

end Event

section
variable {server server' : Server} {s : ℕ} {event : Event} {rc : RC}

/-- Every event is at most one call. -/
theorem step_cases (h : server.step s event = some (rc, server')) :
    server'.sessions = Function.update server.sessions s (event.after (server.sessions s)) ∧
      ((event.act (server.sessions s) = none ∧ server'.db = server.db) ∨
        ∃ act rc, event.act (server.sessions s) = some act ∧ server.db.step s act = some (rc, server'.db)) := by
  have hmap : ∀ {before : Server} {r : Option (RC × Db)}, r.map before.setDb = some (rc, server') →
      server'.sessions = before.sessions ∧ ∃ rc, r = some (rc, server'.db) := by
    intro before r hr
    obtain ⟨⟨rc', db⟩, hcall, hr⟩ := Option.map_eq_some_iff.mp hr
    obtain ⟨-, rfl⟩ := Prod.mk.inj hr
    exact ⟨rfl, rc', hcall⟩
  cases event with
  | open_ =>
    obtain ⟨hsessions, rc, hcall⟩ := hmap h
    exact ⟨hsessions, .inr ⟨_, rc, rfl, hcall⟩⟩
  | call act =>
    obtain ⟨hsessions, rc, hcall⟩ := hmap h
    exact ⟨hsessions.trans (Function.update_eq_self _ _).symm, .inr ⟨_, rc, rfl, hcall⟩⟩
  | close rc' order =>
    simp only [Server.step, Server.close, Server.setSession, Function.update_self] at h
    simp only [Event.act]
    split at h
    · next hmulti =>
      obtain ⟨-, rfl⟩ := Prod.mk.inj (Option.some.inj h)
      exact ⟨rfl, .inl ⟨if_pos hmulti, rfl⟩⟩
    · next hmulti =>
      rw [if_neg hmulti]
      split at h
      · next hrc =>
        obtain ⟨hsessions, rc, hcall⟩ := hmap h
        rw [if_pos hrc]
        exact ⟨hsessions, .inr ⟨_, rc, rfl, hcall⟩⟩
      · next hrc =>
        obtain ⟨⟨rc, db⟩, hcall, hr⟩ := Option.map_eq_some_iff.mp h
        obtain ⟨-, rfl⟩ := Prod.mk.inj hr
        rw [if_neg hrc]
        exact ⟨rfl, .inr ⟨_, rc, rfl, hcall⟩⟩
  | abandon =>
    obtain ⟨-, rfl⟩ := Prod.mk.inj (Option.some.inj h)
    exact ⟨rfl, .inl ⟨rfl, rfl⟩⟩
  | trxBegin =>
    obtain ⟨hsessions, rc, hcall⟩ := hmap h
    exact ⟨hsessions, .inr ⟨_, rc, rfl, hcall⟩⟩
  | trxEnd commit order =>
    simp only [Server.step, Server.trxEnd] at h
    simp only [Event.act]
    split at h
    · next hcommit =>
      obtain ⟨hsessions, rc, hcall⟩ := hmap h
      rw [if_pos hcommit]
      exact ⟨hsessions, .inr ⟨_, rc, rfl, hcall⟩⟩
    · next hcommit =>
      obtain ⟨hsessions, rc, hcall⟩ := hmap h
      rw [if_neg hcommit]
      exact ⟨hsessions, .inr ⟨_, rc, rfl, hcall⟩⟩
  | disconnect =>
    obtain ⟨-, rfl⟩ := Prod.mk.inj (Option.some.inj h)
    exact ⟨rfl, .inl ⟨rfl, rfl⟩⟩

end

/-! ## What a call leaves in the log -/

/-- What a call of session `s` other than `start_if_need` leaves: its transaction keeps its id, under which these records are
logged. -/
structure Logs (db db' : Db) (s : ℕ) (trx : MvccTrx) (records : List CLogRecord) : Prop where
  current : db.currentTrxId ≤ db'.currentTrxId
  trxes : db'.trxes = Function.update db.trxes s trx
  trxId : trx.trxId = (db.trxes s).trxId
  recovering : trx.recovering = (db.trxes s).recovering
  log : db'.log = db.log ++ records
  ids : ∀ record ∈ records, recordTrxId record = (db.trxes s).trxId ∧ ∀ t, record ≠ .mtrBegin t

section
variable {db db' : Db} {s : ℕ} {rc : RC}

theorem startIfNeed_cases (h : db.startIfNeed s = some (rc, db')) :
    ((db.trxes s).started = true ∧ db' = db) ∨
      (db'.currentTrxId = db.currentTrxId + 1 ∧ db'.log = db.log ++ [.mtrBegin (db.currentTrxId + 1)] ∧
        db'.trxes = Function.update db.trxes s { db.trxes s with trxId := db.currentTrxId + 1, started := true }) := by
  unfold Db.startIfNeed at h
  dsimp only at h
  split at h
  · next hstarted =>
    obtain ⟨-, rfl⟩ := Prod.mk.inj (Option.some.inj h)
    exact .inl ⟨hstarted, rfl⟩
  · split at h
    · cases h
    · obtain ⟨-, rfl⟩ := Prod.mk.inj (Option.some.inj h)
      exact .inr ⟨rfl, rfl, rfl⟩

/-- A call of an operator that logs these records. -/
theorem writes_logs {operations : OperationSet} {records : List CLogRecord} (hcurrent : db'.currentTrxId = db.currentTrxId)
    (htrxes : db'.trxes = Function.update db.trxes s { db.trxes s with operations := operations })
    (hlog : db'.log = db.log ++ records)
    (hids : ∀ record ∈ records, recordTrxId record = (db.trxes s).trxId ∧ ∀ t, record ≠ .mtrBegin t) :
    ∃ trx records, Logs db db' s trx records ∧ trx.started = (db.trxes s).started :=
  ⟨_, records, ⟨hcurrent.ge, htrxes, rfl, rfl, hlog, hids⟩, rfl⟩

theorem nothing_logs (hcurrent : db'.currentTrxId = db.currentTrxId) (htrxes : db'.trxes = db.trxes) (hlog : db'.log = db.log) :
    ∃ trx records, Logs db db' s trx records ∧ trx.started = (db.trxes s).started := by
  refine ⟨db.trxes s, [], ⟨hcurrent.ge, ?_, rfl, rfl, ?_, ?_⟩, rfl⟩
  · rw [htrxes]
    exact (Function.update_eq_self _ _).symm
  · rw [hlog, List.append_nil]
  · intro record hrecord
    cases hrecord

theorem call_logs {act : Act} (hact : Event.Calls db act) (h : db.step s act = some (rc, db')) :
    ∃ trx records, Logs db db' s trx records ∧ trx.started = (db.trxes s).started := by
  cases act with
  | startIfNeed => exact hact.elim
  | insertRecord table data rid =>
    have hrun : db.insertRecord s table data rid = (rc, db') := Option.some.inj h
    have hlogs : ∃ trx records, Logs db (db.insertRecord s table data rid).2 s trx records ∧
        trx.started = (db.trxes s).started := by
      unfold Db.insertRecord
      dsimp only
      split
      · exact nothing_logs rfl rfl rfl
      · exact writes_logs rfl rfl rfl (by simp [recordTrxId])
    rw [hrun] at hlogs
    exact hlogs
  | deleteRecord table rid =>
    simp only [Db.step, Db.deleteRecord, Option.bind_eq_bind, Option.bind_eq_some_iff] at h
    obtain ⟨record, -, h⟩ := h
    split at h
    · cases h
    · split at h
      · obtain ⟨-, rfl⟩ := Prod.mk.inj (Option.some.inj h)
        exact nothing_logs rfl rfl rfl
      · obtain ⟨-, rfl⟩ := Prod.mk.inj (Option.some.inj h)
        exact writes_logs rfl rfl rfl (by simp [recordTrxId])
  | updateRecord table rid newData newRid =>
    simp only [Db.step, Db.updateRecord, Option.bind_eq_bind, Option.bind_eq_some_iff] at h
    obtain ⟨record, -, h⟩ := h
    split at h
    · obtain ⟨-, rfl⟩ := Prod.mk.inj (Option.some.inj h)
      exact nothing_logs rfl rfl rfl
    · split at h
      · obtain ⟨-, rfl⟩ := Prod.mk.inj (Option.some.inj h)
        exact nothing_logs rfl rfl rfl
      · obtain ⟨-, rfl⟩ := Prod.mk.inj (Option.some.inj h)
        exact writes_logs rfl rfl (List.append_assoc _ _ _) (by simp [recordTrxId])
  | visitRecord table rid readonly =>
    simp only [Db.step, Option.bind_eq_bind, Option.bind_eq_some_iff] at h
    obtain ⟨record, -, h⟩ := h
    obtain ⟨-, rfl⟩ := Prod.mk.inj (Option.some.inj h)
    exact nothing_logs rfl rfl rfl
  | commit order => exact hact.elim
  | rollback order => exact hact.elim

theorem Logs.refl (db : Db) (s : ℕ) : Logs db db s (db.trxes s) [] where
  current := le_rfl
  trxes := (Function.update_eq_self _ _).symm
  trxId := rfl
  recovering := rfl
  log := (List.append_nil _).symm
  ids _ h := by cases h

/-- The transaction of a session that has been ended. -/
def ended (trx : MvccTrx) : MvccTrx := { trx with started := false, operations := .empty }

theorem commit_logs (hrecovering : (db.trxes s).recovering = false) {order : List Operation}
    (h : db.commit s order = some (rc, db')) : ∃ record, Logs db db' s (ended (db.trxes s)) [record] := by
  simp only [Db.commit, Db.commitWithTrxId, Option.bind_eq_bind, Option.bind_eq_some_iff] at h
  obtain ⟨tables, -, h⟩ := h
  rw [if_neg (by simp [hrecovering])] at h
  obtain ⟨-, rfl⟩ := Prod.mk.inj (Option.some.inj h)
  exact ⟨.mtrCommit _ _, (lt_add_one _).le, rfl, rfl, rfl, rfl, by simp [recordTrxId]⟩

theorem rollback_logs (hrecovering : (db.trxes s).recovering = false) {order : List Operation}
    (h : db.rollback s order = some (rc, db')) : ∃ record, Logs db db' s (ended (db.trxes s)) [record] := by
  simp only [Db.rollback, Option.bind_eq_bind, Option.bind_eq_some_iff] at h
  obtain ⟨tables, -, h⟩ := h
  rw [if_neg (by simp [hrecovering])] at h
  obtain ⟨-, rfl⟩ := Prod.mk.inj (Option.some.inj h)
  exact ⟨.mtrRollback _, le_rfl, rfl, rfl, rfl, rfl, by simp [recordTrxId]⟩

theorem end_logs (hrecovering : (db.trxes s).recovering = false) {p : Prop} [Decidable p] {order : List Operation}
    (h : db.step s (if p then .commit order else .rollback order) = some (rc, db')) :
    ∃ record, Logs db db' s (ended (db.trxes s)) [record] := by
  split at h
  · exact commit_logs hrecovering h
  · exact rollback_logs hrecovering h

end

/-! ## Logs in which every transaction begins -/

/-- Every record of the log belongs to a transaction that has begun before. -/
def Begun (log : List CLogRecord) : Prop :=
  ∀ before record, before ++ [record] <+: log → .mtrBegin (recordTrxId record) ∈ before ++ [record]

section
variable {log log' : List CLogRecord} {record : CLogRecord}

theorem begun_nil : Begun [] := by
  intro before record hfront
  simpa using List.prefix_nil.mp hfront

theorem Begun.front (h : Begun log) (hfront : log' <+: log) : Begun log' :=
  fun before record hrecord => h before record (hrecord.trans hfront)

theorem Begun.snoc (h : Begun log) (hrecord : .mtrBegin (recordTrxId record) ∈ log ++ [record]) :
    Begun (log ++ [record]) := by
  intro before other hfront
  rcases List.prefix_concat_iff.mp hfront with heq | hfront
  · obtain ⟨rfl, hother⟩ := List.append_inj' heq rfl
    obtain rfl := List.singleton_inj.mp hother
    exact hrecord
  · exact h before other hfront

theorem Begun.append (h : Begun log) {records : List CLogRecord}
    (hrecords : ∀ record ∈ records, .mtrBegin (recordTrxId record) ∈ log) : Begun (log ++ records) := by
  induction records generalizing log with
  | nil => rwa [List.append_nil]
  | cons record records ih =>
    rw [List.append_cons]
    refine ih (h.snoc ?_) fun other hother => ?_
    · exact List.mem_append_left _ (hrecords record List.mem_cons_self)
    · exact List.mem_append_left _ (hrecords other (List.mem_cons_of_mem _ hother))

variable {known : ℕ → Bool} {walk : OperationSet → List Operation} {tables : ℕ → Table} {r r' : Recovery}

theorem redo_trxId {trx trx' : MvccTrx} {tables' : ℕ → Table}
    (h : redo known walk tables trx record = some (.success, trx', tables')) : trx'.trxId = trx.trxId := by
  cases record with
  | mtrBegin t => cases h
  | insert t table rid row => rw [(redo_insert_success h).2.2.1]
  | delete t table rid =>
    obtain ⟨-, row, -, -, rfl, -⟩ := redo_delete_success h
    rfl
  | mtrCommit t c => rw [(redo_mtrCommit_success h).2]
  | mtrRollback t => rw [(redo_mtrRollback_success h).2]

/-- The transactions that recovery has are those that it has read the beginning of. -/
theorem mem_trxes_of_redoAll (h : r.redoAll known walk log = some (.success, r')) (t : ℤ) :
    t ∈ r'.trxes.map MvccTrx.trxId ↔ t ∈ r.trxes.map MvccTrx.trxId ∨ .mtrBegin t ∈ log := by
  induction log generalizing r with
  | nil =>
    obtain ⟨-, rfl⟩ := Prod.mk.inj (Option.some.inj h)
    simp
  | cons record log ih =>
    obtain ⟨r₁, hfirst, hrest⟩ := redoAll_cons h
    rw [ih hrest, List.mem_cons]
    rcases redoRecord_cases hfirst with ⟨t', rfl, rfl⟩ | ⟨hrecord, i, trx, trx', tables', hfind, hget, hredo, rfl⟩
    · simp only [Recovery.createTrx, List.map_append, List.map_cons, List.map_nil, List.mem_append, List.mem_singleton,
        CLogRecord.mtrBegin.injEq, or_assoc]
    · rw [map_trxId_set hget (redo_trxId hredo)]
      have hne : .mtrBegin t ≠ record := fun heq => hrecord t heq.symm
      simp only [hne, false_or]

theorem trxId_of_findTrx {t : ℤ} {i : ℕ} (h : r.findTrx t = some i) : t ∈ r.trxes.map MvccTrx.trxId := by
  obtain ⟨hlt, hp, -⟩ := List.findIdx?_eq_some_iff_getElem.mp h
  exact List.mem_map.mpr ⟨r.trxes[i], List.getElem_mem hlt, by simpa using hp⟩

theorem begun_of_redoAll (h : Recovery.redoAll known walk ⟨tables, 0, []⟩ log = some (.success, r)) : Begun log := by
  intro before record hfront
  obtain ⟨r₂, hredo⟩ := redoAll_front hfront h
  obtain ⟨r₁, hbefore, hrecord⟩ := redoAll_snoc hredo
  rcases redoRecord_cases hrecord with ⟨t, rfl, -⟩ | ⟨-, i, -, -, -, hfind, -⟩
  · exact List.mem_append_right _ List.mem_cons_self
  · rcases (mem_trxes_of_redoAll hbefore _).mp (trxId_of_findTrx hfind) with hmem | hmem
    · cases hmem
    · exact List.mem_append_left _ hmem

/-- Recovery succeeds over no log with a record of a transaction that has not begun. -/
theorem begun_of_recover (h : recover known walk tables log = some (.success, r)) : Begun log := by
  obtain ⟨r₁, -, hredo, -, -⟩ := recover_success h
  exact begun_of_redoAll hredo

/-- Where every transaction begins, `find_trx` finds it. -/
theorem findTrx_of_begun (hbegun : Begun log) {before : List CLogRecord} (hfront : before ++ [record] <+: log)
    (hrecord : ∀ t, record ≠ .mtrBegin t)
    (h : Recovery.redoAll known walk ⟨tables, 0, []⟩ before = some (.success, r)) : r.findTrx (recordTrxId record) ≠ none := by
  have hmem : .mtrBegin (recordTrxId record) ∈ before := by
    cases List.mem_append.mp (hbegun before record hfront) with
    | inl hmem => exact hmem
    | inr hmem => exact absurd (List.mem_singleton.mp hmem).symm (hrecord _)
  obtain ⟨i, trx, hfind, -⟩ := findTrx_of_mem ((mem_trxes_of_redoAll h _).mpr (.inr hmem))
  rw [hfind]
  exact Option.some_ne_none i

end

/-! ## Transactions of sessions -/

/-- A request that starts a transaction when none is running. -/
def Event.Starts : Event → Prop
  | .open_ | .trxBegin => True
  | _ => False

/-- Session `s` has started a transaction. -/
def HadTrx (events : List (ℕ × Event)) (s : ℕ) : Prop := ∃ event, (s, event) ∈ events ∧ event.Starts

/-- A session has sent `COMMIT` or `ROLLBACK` before anything that starts a transaction. -/
def EndsNothing (events : List (ℕ × Event)) : Prop :=
  ∃ before s commit order, before ++ [(s, .trxEnd commit order)] <+: events ∧ ¬ HadTrx before s

section
variable {events : List (ℕ × Event)} {s s' : ℕ} {event : Event}

theorem hadTrx_snoc : HadTrx (events ++ [(s, event)]) s' ↔ HadTrx events s' ∨ (s' = s ∧ event.Starts) := by
  constructor
  · rintro ⟨other, hmem, hstarts⟩
    cases List.mem_append.mp hmem with
    | inl hmem => exact .inl ⟨other, hmem, hstarts⟩
    | inr hmem =>
      obtain ⟨rfl, rfl⟩ := Prod.mk.inj (List.mem_singleton.mp hmem)
      exact .inr ⟨rfl, hstarts⟩
  · rintro (⟨other, hmem, hstarts⟩ | ⟨rfl, hstarts⟩)
    · exact ⟨other, List.mem_append_left _ hmem, hstarts⟩
    · exact ⟨event, List.mem_append_right _ List.mem_cons_self, hstarts⟩

theorem hadTrx_snoc_of_not_starts (h : ¬ event.Starts) : HadTrx (events ++ [(s, event)]) s' ↔ HadTrx events s' := by
  rw [hadTrx_snoc]
  exact or_iff_left fun hnew => h hnew.2

theorem endsNothing_snoc : EndsNothing (events ++ [(s, event)]) ↔
    EndsNothing events ∨ ((∃ commit order, event = .trxEnd commit order) ∧ ¬ HadTrx events s) := by
  constructor
  · rintro ⟨before, s', commit, order, hfront, hnew⟩
    rcases List.prefix_concat_iff.mp hfront with heq | hfront
    · obtain ⟨rfl, hlast⟩ := List.append_inj' heq rfl
      obtain ⟨rfl, rfl⟩ := Prod.mk.inj (List.singleton_inj.mp hlast)
      exact .inr ⟨⟨commit, order, rfl⟩, hnew⟩
    · exact .inl ⟨before, s', commit, order, hfront, hnew⟩
  · rintro (⟨before, s', commit, order, hfront, hnew⟩ | ⟨⟨commit, order, rfl⟩, hnew⟩)
    · exact ⟨before, s', commit, order, hfront.trans (List.prefix_append _ _), hnew⟩
    · exact ⟨events, s, commit, order, List.prefix_rfl, hnew⟩

theorem endsNothing_snoc_of_ne (h : ∀ commit order, event ≠ .trxEnd commit order) :
    EndsNothing (events ++ [(s, event)]) ↔ EndsNothing events := by
  rw [endsNothing_snoc]
  refine or_iff_left ?_
  rintro ⟨⟨commit, order, heq⟩, -⟩
  exact h commit order heq

end

/-- The sessions, their transactions and the log after these events. -/
structure Inv (events : List (ℕ × Event)) (server : Server) : Prop where
  recovering : ∀ s, (server.db.trxes s).recovering = false
  had : ∀ s, HadTrx events s → .mtrBegin (server.db.trxes s).trxId ∈ server.db.log
  new : ∀ s, ¬ HadTrx events s → (server.db.trxes s).trxId = -1 ∧ (server.db.trxes s).started = false ∧
    (server.sessions s).executing = false
  running : ∀ s, (server.sessions s).executing = true → (server.db.trxes s).started = true
  current : 0 ≤ server.db.currentTrxId
  pos : ∀ t, .mtrBegin t ∈ server.db.log → 0 < t
  begun : ¬ EndsNothing events → Begun server.db.log
  notBegun : EndsNothing events → ¬ Begun server.db.log

theorem inv_create (tables : ℕ → Table) : Inv [] (.create tables) where
  recovering _ := rfl
  had s h := by
    obtain ⟨event, hmem, -⟩ := h
    cases hmem
  new _ _ := ⟨rfl, rfl, rfl⟩
  running _ h := by cases h
  current := le_rfl
  pos _ h := by cases h
  begun _ := begun_nil
  notBegun h := by
    obtain ⟨before, s, commit, order, hfront, -⟩ := h
    simpa using List.prefix_nil.mp hfront

namespace Inv

variable {events : List (ℕ × Event)} {server server' : Server} {s : ℕ} {event : Event}

theorem had_of_executing (h : Inv events server) (hexecuting : (server.sessions s).executing = true) : HadTrx events s := by
  by_contra hnew
  rw [(h.new s hnew).2.2] at hexecuting
  cases hexecuting

/-- A request that starts a transaction, or finds one. -/
theorem starts (h : Inv events server) (hstarts : event.Starts)
    (hsessions : ∀ s', s' ≠ s → server'.sessions s' = server.sessions s')
    (hcall : ((server.db.trxes s).started = true ∧ server'.db = server.db) ∨
      (server'.db.currentTrxId = server.db.currentTrxId + 1 ∧
        server'.db.log = server.db.log ++ [.mtrBegin (server.db.currentTrxId + 1)] ∧
        server'.db.trxes = Function.update server.db.trxes s
          { server.db.trxes s with trxId := server.db.currentTrxId + 1, started := true })) :
    Inv (events ++ [(s, event)]) server' := by
  have hends : EndsNothing (events ++ [(s, event)]) ↔ EndsNothing events := by
    refine endsNothing_snoc_of_ne fun commit order heq => ?_
    rw [heq] at hstarts
    exact hstarts
  have hnew : ∀ s', ¬ HadTrx (events ++ [(s, event)]) s' → s' ≠ s ∧ ¬ HadTrx events s' := by
    intro s' hno
    rw [hadTrx_snoc, not_or] at hno
    exact ⟨fun heq => hno.2 ⟨heq, hstarts⟩, hno.1⟩
  -- the transaction runs already, or gets the next id
  rcases hcall with ⟨hstarted, hdb⟩ | ⟨hcurrent, hlog, htrxes⟩
  · have hhad : HadTrx events s := by
      by_contra hno
      rw [(h.new s hno).2.1] at hstarted
      cases hstarted
    constructor
    · rw [hdb]
      exact h.recovering
    · intro s' hs'
      rw [hdb]
      rcases hadTrx_snoc.mp hs' with hs' | ⟨rfl, -⟩
      · exact h.had s' hs'
      · exact h.had s' hhad
    · intro s' hno
      obtain ⟨hne, hno⟩ := hnew s' hno
      rw [hdb, hsessions s' hne]
      exact h.new s' hno
    · intro s' hs'
      rw [hdb]
      by_cases heq : s' = s
      · rw [heq]
        exact hstarted
      · exact h.running s' (hsessions s' heq ▸ hs')
    · rw [hdb]
      exact h.current
    · rw [hdb]
      exact h.pos
    · rw [hdb, hends]
      exact h.begun
    · rw [hdb, hends]
      exact h.notBegun
  · constructor
    · intro s'
      rw [htrxes]
      by_cases hs' : s' = s
      · rw [hs', Function.update_self]
        exact h.recovering s
      · rw [Function.update_of_ne hs']
        exact h.recovering s'
    · intro s' hs'
      rw [htrxes, hlog]
      by_cases heq : s' = s
      · rw [heq, Function.update_self]
        exact List.mem_append_right _ List.mem_cons_self
      · rw [Function.update_of_ne heq]
        rcases hadTrx_snoc.mp hs' with hs' | ⟨hs', -⟩
        · exact List.mem_append_left _ (h.had s' hs')
        · exact absurd hs' heq
    · intro s' hno
      obtain ⟨hne, hno⟩ := hnew s' hno
      rw [htrxes, Function.update_of_ne hne, hsessions s' hne]
      exact h.new s' hno
    · intro s' hs'
      rw [htrxes]
      by_cases heq : s' = s
      · rw [heq, Function.update_self]
      · rw [Function.update_of_ne heq]
        exact h.running s' (hsessions s' heq ▸ hs')
    · rw [hcurrent]
      exact (h.current.trans_lt (lt_add_one _)).le
    · intro t ht
      rw [hlog] at ht
      cases List.mem_append.mp ht with
      | inl ht => exact h.pos t ht
      | inr ht =>
        obtain rfl := CLogRecord.mtrBegin.inj (List.mem_singleton.mp ht)
        exact h.current.trans_lt (lt_add_one _)
    · intro hno
      rw [hlog]
      exact (h.begun (mt hends.mpr hno)).snoc (List.mem_append_right _ List.mem_cons_self)
    · intro hyes hbegun
      exact h.notBegun (hends.mp hyes) (hbegun.front (hlog ▸ List.prefix_append _ _))

/-- Every other event logs under the id of the last transaction of its session. -/
theorem logged (h : Inv events server) {trx : MvccTrx} {records : List CLogRecord}
    (hlogs : Logs server.db server'.db s trx records) (hstarts : ¬ event.Starts)
    (hexecuting : ∀ s', (server.sessions s').executing = false → (server'.sessions s').executing = false)
    (hstarted : (server.db.trxes s).started = false → trx.started = false)
    (hrunning : (server'.sessions s).executing = true → trx.started = true)
    (hhad : records = [] ∨ HadTrx events s ∨ ∃ commit order, event = .trxEnd commit order)
    (hend : ∀ commit order, event = .trxEnd commit order → ∃ record, records = [record]) :
    Inv (events ++ [(s, event)]) server' := by
  have htrxId : ∀ s', (server'.db.trxes s').trxId = (server.db.trxes s').trxId := by
    intro s'
    rw [hlogs.trxes]
    by_cases hs' : s' = s
    · rw [hs', Function.update_self, hlogs.trxId]
    · rw [Function.update_of_ne hs']
  constructor
  · intro s'
    rw [hlogs.trxes]
    by_cases hs' : s' = s
    · rw [hs', Function.update_self, hlogs.recovering]
      exact h.recovering s
    · rw [Function.update_of_ne hs']
      exact h.recovering s'
  · intro s' hs'
    rw [htrxId, hlogs.log]
    exact List.mem_append_left _ (h.had s' ((hadTrx_snoc_of_not_starts hstarts).mp hs'))
  · intro s' hno
    obtain ⟨hid, hnot, hidle⟩ := h.new s' (mt (hadTrx_snoc_of_not_starts hstarts).mpr hno)
    refine ⟨(htrxId s').trans hid, ?_, hexecuting s' hidle⟩
    rw [hlogs.trxes]
    by_cases hs' : s' = s
    · rw [hs', Function.update_self]
      exact hstarted (hs' ▸ hnot)
    · rw [Function.update_of_ne hs']
      exact hnot
  · intro s' hs'
    rw [hlogs.trxes]
    by_cases heq : s' = s
    · rw [heq, Function.update_self]
      exact hrunning (heq ▸ hs')
    · rw [Function.update_of_ne heq]
      refine h.running s' (not_not.mp fun hnot => ?_)
      rw [hexecuting s' (Bool.eq_false_iff.mpr hnot)] at hs'
      cases hs'
  · exact h.current.trans hlogs.current
  · intro t ht
    rw [hlogs.log] at ht
    cases List.mem_append.mp ht with
    | inl ht => exact h.pos t ht
    | inr ht => exact absurd rfl ((hlogs.ids _ ht).2 t)
  · intro hno
    rw [endsNothing_snoc, not_or] at hno
    rw [hlogs.log]
    refine (h.begun hno.1).append fun record hrecord => ?_
    rw [(hlogs.ids record hrecord).1]
    refine h.had s ?_
    rcases hhad with rfl | hhad | hlast
    · cases hrecord
    · exact hhad
    · exact not_not.mp fun hnew => hno.2 ⟨hlast, hnew⟩
  · intro hyes hbegun
    rcases endsNothing_snoc.mp hyes with hyes | ⟨⟨commit, order, hlast⟩, hnew⟩
    · exact h.notBegun hyes (hbegun.front (hlogs.log ▸ List.prefix_append _ _))
    · obtain ⟨record, rfl⟩ := hend commit order hlast
      have hids := hlogs.ids record List.mem_cons_self
      have hmem := hbegun server.db.log record (hlogs.log ▸ List.prefix_rfl)
      -- -1 is the id of a transaction that has never been started
      rw [hids.1, (h.new s hnew).1] at hmem
      cases List.mem_append.mp hmem with
      | inl hmem => exact absurd (h.pos _ hmem) (by decide)
      | inr hmem => exact hids.2 _ (List.mem_singleton.mp hmem).symm

theorem step (h : Inv events server) {rc : RC} (hpossible : event.Possible server s)
    (hstep : server.step s event = some (rc, server')) : Inv (events ++ [(s, event)]) server' := by
  obtain ⟨hsessions, hcall⟩ := step_cases hstep
  have hother : ∀ s', s' ≠ s → server'.sessions s' = server.sessions s' := by
    intro s' hs'
    rw [hsessions, Function.update_of_ne hs']
  have hidle : ((event.after (server.sessions s)).executing = true → (server.sessions s).executing = true) →
      ∀ s', (server.sessions s').executing = false → (server'.sessions s').executing = false := by
    intro hafter s' hs'
    by_cases heq : s' = s
    · subst heq
      rw [hsessions, Function.update_self]
      exact Bool.eq_false_iff.mpr fun htrue => Bool.eq_false_iff.mp hs' (hafter htrue)
    · rwa [hother s' heq]
  have hself : (server'.sessions s).executing = (event.after (server.sessions s)).executing := by
    rw [hsessions, Function.update_self]
  have hrest : ∀ {trx : MvccTrx}, (event.after (server.sessions s)).executing = false →
      (server'.sessions s).executing = true → trx.started = true := by
    intro trx hafter htrue
    rw [hself, hafter] at htrue
    cases htrue
  have hstill : server'.db = server.db → Logs server.db server'.db s (server.db.trxes s) [] := by
    intro hdb
    rw [hdb]
    exact Logs.refl _ _
  cases event with
  | open_ =>
    obtain ⟨hnone, -⟩ | ⟨act, rc, hact, hcall⟩ := hcall
    · cases hnone
    · obtain rfl := Option.some.inj hact
      exact h.starts trivial hother (startIfNeed_cases hcall)
  | call act =>
    obtain ⟨hnone, -⟩ | ⟨act, rc, hact, hcall⟩ := hcall
    · cases hnone
    · obtain rfl := Option.some.inj hact
      obtain ⟨trx, records, hlogs, hstarted⟩ := call_logs hpossible.2.2 hcall
      exact h.logged hlogs id (hidle id) (fun hnot => hstarted.trans hnot)
        (fun _ => hstarted.trans (h.running s hpossible.2.1)) (.inr (.inl (h.had_of_executing hpossible.2.1)))
        (fun _ _ heq => by cases heq)
  | close rc order =>
    have hhad := h.had_of_executing hpossible.2.1
    obtain ⟨-, hdb⟩ | ⟨act, rc', hact, hcall⟩ := hcall
    · exact h.logged (hstill hdb) id (hidle fun htrue => by cases htrue) id (hrest rfl) (.inl rfl) (fun _ _ heq => by cases heq)
    · simp only [Event.act] at hact
      split at hact
      · cases hact
      · obtain rfl := Option.some.inj hact
        obtain ⟨record, hlogs⟩ := end_logs (h.recovering s) hcall
        exact h.logged hlogs id (hidle fun htrue => by cases htrue) (fun _ => rfl) (hrest rfl) (.inr (.inl hhad))
          (fun _ _ heq => by cases heq)
  | abandon =>
    obtain ⟨-, hdb⟩ | ⟨act, rc', hact, -⟩ := hcall
    · exact h.logged (hstill hdb) id (hidle fun htrue => by cases htrue) id (hrest rfl) (.inl rfl) (fun _ _ heq => by cases heq)
    · cases hact
  | trxBegin =>
    obtain ⟨hnone, -⟩ | ⟨act, rc, hact, hcall⟩ := hcall
    · cases hnone
    · obtain rfl := Option.some.inj hact
      exact h.starts trivial hother (startIfNeed_cases hcall)
  | trxEnd commit order =>
    obtain ⟨hnone, -⟩ | ⟨act, rc', hact, hcall⟩ := hcall
    · cases hnone
    · obtain rfl := Option.some.inj hact
      obtain ⟨record, hlogs⟩ := end_logs (h.recovering s) hcall
      exact h.logged hlogs id (hidle id) (fun _ => rfl) (hrest hpossible.2.1) (.inr (.inr ⟨commit, order, rfl⟩)) (fun _ _ _ => ⟨record, rfl⟩)
  | disconnect =>
    obtain ⟨-, hdb⟩ | ⟨act, rc', hact, -⟩ := hcall
    · exact h.logged (hstill hdb) id (hidle id) id (hrest hpossible.2) (.inl rfl) (fun _ _ heq => by cases heq)
    · cases hact

end Inv

/-! ## Runs -/

/-- `COMMIT` and `ROLLBACK` come while a transaction runs. -/
def Event.InTrx (server : Server) (s : ℕ) : Event → Prop
  | .trxEnd _ _ => (server.db.trxes s).started = true
  | _ => True

/-- The call of `MvccTrx` behind an event of a reachable server is a possible one. -/
theorem Inv.possible {events : List (ℕ × Event)} {server : Server} (h : Inv events server) {s : ℕ} {event : Event}
    (hpossible : event.Possible server s) (hin : event.InTrx server s) {act : Act}
    (hact : event.act (server.sessions s) = some act) : act.Possible server.db s := by
  cases event with
  | open_ =>
    obtain rfl := Option.some.inj hact
    trivial
  | call act =>
    obtain rfl := Option.some.inj hact
    have hstarted := h.running s hpossible.2.1
    cases act with
    | startIfNeed => trivial
    | insertRecord table data rid => exact ⟨hstarted, hpossible.2.2⟩
    | deleteRecord table rid => exact hstarted
    | updateRecord table rid newData newRid => exact ⟨hstarted, hpossible.2.2⟩
    | visitRecord table rid readonly => exact hstarted
    | commit order => exact hpossible.2.2.elim
    | rollback order => exact hpossible.2.2.elim
  | close rc order =>
    have hends := And.intro (h.running s hpossible.2.1) hpossible.2.2
    simp only [Event.act] at hact
    split at hact
    · cases hact
    · obtain rfl := Option.some.inj hact
      split
      · exact hends
      · exact hends
  | abandon => cases hact
  | trxBegin =>
    obtain rfl := Option.some.inj hact
    trivial
  | trxEnd commit order =>
    have hends : (server.db.trxes s).started = true ∧ order.Perm (server.db.trxes s).operations.toList :=
      ⟨hin, hpossible.2.2⟩
    obtain rfl := Option.some.inj hact
    split
    · exact hends
    · exact hends
  | disconnect => cases hact

/-- The sessions after these events. -/
def sessionsAfter (sessions : ℕ → Session) : List (ℕ × Event) → ℕ → Session
  | [] => sessions
  | (s, event) :: events => sessionsAfter (Function.update sessions s (event.after (sessions s))) events

/-- The calls of `MvccTrx` behind these events. -/
def calls (sessions : ℕ → Session) : List (ℕ × Event) → List (ℕ × Act)
  | [] => []
  | (s, event) :: events => ((event.act (sessions s)).map fun act => (s, act)).toList ++
      calls (Function.update sessions s (event.after (sessions s))) events

theorem sessionsAfter_snoc (sessions : ℕ → Session) (events : List (ℕ × Event)) (s : ℕ) (event : Event) :
    sessionsAfter sessions (events ++ [(s, event)]) =
      Function.update (sessionsAfter sessions events) s (event.after (sessionsAfter sessions events s)) := by
  induction events generalizing sessions with
  | nil => rfl
  | cons first events ih => exact ih _

theorem calls_snoc (sessions : ℕ → Session) (events : List (ℕ × Event)) (s : ℕ) (event : Event) :
    calls sessions (events ++ [(s, event)]) =
      calls sessions events ++ ((event.act (sessionsAfter sessions events s)).map fun act => (s, act)).toList := by
  induction events generalizing sessions with
  | nil => exact List.append_nil _
  | cons first events ih =>
    rw [List.cons_append, calls, calls, ih, List.append_assoc]
    rfl

section
variable {P : Server → ℕ → Event → Prop} {tables : ℕ → Table} {events : List (ℕ × Event)} {server : Server}

theorem inv_of_run (hrun : Run P (.create tables) events server) : Inv events server := by
  induction hrun with
  | nil => exact inv_create tables
  | snoc hrun hpossible hp hstep ih => exact ih.step hpossible hstep

theorem sessions_of_run (hrun : Run P (.create tables) events server) :
    server.sessions = sessionsAfter (Server.create tables).sessions events := by
  induction hrun with
  | nil => rfl
  | snoc hrun hpossible hp hstep ih => rw [(step_cases hstep).1, sessionsAfter_snoc, ih]

/-- Where `COMMIT` and `ROLLBACK` come while a transaction runs, the sessions are a run of `MvccTrx`. -/
theorem runActs_of_run (hin : ∀ server s event, P server s event → event.InTrx server s)
    (hrun : Run P (.create tables) events server) :
    (Db.create tables).runActs (calls (Server.create tables).sessions events) = some server.db := by
  induction hrun with
  | nil => rfl
  | @snoc events server server' s event rc hrun hpossible hp hstep ih =>
    rw [calls_snoc, ← sessions_of_run hrun, runActs_append, ih, Option.bind_some]
    rcases (step_cases hstep).2 with ⟨hnone, hdb⟩ | ⟨act, rc', hact, hcall⟩
    · rw [hnone, hdb]
      rfl
    · rw [hact]
      exact runActs_cons ((inv_of_run hrun).possible hpossible (hin _ _ _ hp) hact) hcall rfl

/-- After a `COMMIT` or `ROLLBACK` that is the first request of a session, recovery cannot read a log file that holds the
records of the run, whatever comes behind them; all other requests leave a log that names no transaction before it begins.
Where both come while a transaction runs only, the sessions are a run of `MvccTrx`. -/
theorem run_transactions (hrun : Run P (.create tables) events server) :
    (EndsNothing events → ∀ file, server.db.log <+: file → ∀ known walk files r,
      recover known walk files file ≠ some (.success, r)) ∧
      (¬ EndsNothing events → ∀ known walk files before record r, before ++ [record] <+: server.db.log →
        (∀ t, record ≠ .mtrBegin t) → Recovery.redoAll known walk ⟨files, 0, []⟩ before = some (.success, r) →
          r.findTrx (recordTrxId record) ≠ none) ∧
      ((∀ server s event, P server s event → event.InTrx server s) →
        (Db.create tables).runActs (calls (Server.create tables).sessions events) = some server.db) := by
  have hinv := inv_of_run hrun
  refine ⟨fun hends file hfile known walk files r hrecover => ?_,
    fun hends known walk files before record r hfront hrecord hredo => ?_, fun hin => runActs_of_run hin hrun⟩
  · exact hinv.notBegun hends ((begun_of_recover hrecover).front hfile)
  · exact findTrx_of_begun (hinv.begun hends) hfront hrecord hredo

end

/-- The first request of the first session is `ROLLBACK`. Its record waits in the buffer until the second session commits. -/
theorem run_transactions_rollback :
    let tables : ℕ → Table := fun _ => ⟨[], 0, [], fun _ => none⟩
    ∃ server, Run (fun _ _ _ => True) (.create tables)
        [(0, .trxEnd false []), (1, .trxBegin), (1, .trxEnd true [])] server ∧
      written server.db.log = [.mtrRollback (-1), .mtrBegin 1, .mtrCommit 1 2] ∧
      ∀ known walk files r, recover known walk files (written server.db.log) ≠ some (.success, r) := by
  intro tables
  have hrun : Run (fun _ _ _ => True) (.create tables)
      ([] ++ [(0, .trxEnd false [])] ++ [(1, .trxBegin)] ++ [(1, .trxEnd true [])]) _ :=
    .snoc (.snoc (.snoc .nil ⟨rfl, rfl, List.Perm.refl []⟩ trivial rfl) ⟨rfl, rfl⟩ trivial rfl)
      ⟨rfl, rfl, List.Perm.refl []⟩ trivial rfl
  have hends : EndsNothing [(0, .trxEnd false []), (1, .trxBegin), (1, .trxEnd true [])] := by
    refine ⟨[], 0, false, [], ⟨_, rfl⟩, ?_⟩
    rintro ⟨event, hmem, -⟩
    cases hmem
  refine ⟨_, hrun, rfl, (run_transactions hrun).1 hends _ ?_⟩
  exact ⟨[], rfl⟩

end Landbase.Sessions
