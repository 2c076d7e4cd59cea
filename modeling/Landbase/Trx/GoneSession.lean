import Landbase.Trx.Session

/-! # Sessions that have gone

`Session::~Session` destroys the transaction of a session and does not end it. What it has deleted or updated keeps its mark.
-/

namespace Landbase.Sessions
open Landbase.Storage Landbase.Trx Landbase.Clog
set_option autoImplicit false

/-- `COMMIT` and `ROLLBACK` come while a transaction runs, and an operator writes what `visit_record` has let it write. -/
def Event.Careful (server : Server) (s : ℕ) (event : Event) : Prop :=
  event.InTrx server s ∧ ∀ act, event.act (server.sessions s) = some act → Checked server.db.view s act

/-- The running transaction of session `t` has deleted or updated this committed version. -/
structure Locked (v : View) (t : ℕ) (addr : ℕ × RID) (record : Record) : Prop where
  running : v.Running t
  version : v.version addr = some record
  committed : 0 < record.beginXid
  marked : record.endXid = -v.trxId t

/-- No other session takes the mark away. -/
theorem Locked.step {v v' : View} {s t : ℕ} {act : Act} {rc : RC} {addr : ℕ × RID} {record : Record}
    (h : Locked v t addr record) (hv : Trx.Inv v) (heffect : Effect v s act rc v') (hchecked : Checked v s act)
    (hne : s ≠ t) : Locked v' t addr record := by
  obtain ⟨hrunning, hid⟩ := heffect.keeps h.running (keeps_of_ne hne)
  refine ⟨hrunning, ?_, h.committed, hid ▸ h.marked⟩
  have hids := hv.ids t h.running
  have hcommitted := h.committed
  have hmarked := h.marked
  have hchange := hv.change heffect hchecked.proper addr
  rw [h.version] at hchange
  generalize hslot : v'.version addr = slot at hchange
  -- whatever else changes the version comes from the session that has inserted or marked it
  cases hchange with
  | same => rfl
  | marked hs _ hmarks _ =>
    have hrange := hv.range addr record h.version
    have hvisit := (visit_write (hv.ids s hs).1 record hrange.begin_ne hrange.end_ne).mp
      (hchecked addr hmarks.target.1 record h.version)
    have hpos := (hv.ids s hs).1
    omega
  | insertCommitted _ hact hop hbegin =>
    have hpos := (hv.ids s (hv.running_of_mem hop)).1
    omega
  | deleteCommitted _ hact hop _ hend =>
    exact absurd (hv.distinct s t (hv.running_of_mem hop) h.running (by omega)) hne
  | insertUndone _ hact hop hbegin =>
    have hpos := (hv.ids s (hv.running_of_mem hop)).1
    omega
  | deleteUndone _ hact hop _ hend =>
    exact absurd (hv.distinct s t (hv.running_of_mem hop) h.running (by omega)) hne

/-- All others read the version, and none may write it. -/
theorem Locked.visit {v : View} {s t : ℕ} {addr : ℕ × RID} {record : Record} (h : Locked v t addr record) (hv : Trx.Inv v)
    (hs : v.Running s) (hne : s ≠ t) :
    visitRecord (v.trxId s) record true = .success ∧ visitRecord (v.trxId s) record false = .lockedConcurrencyConflict := by
  have hids := hv.ids t h.running
  have hdistinct : v.trxId s ≠ v.trxId t := fun heq => hne (hv.distinct s t hs h.running heq)
  have hcommitted := h.committed
  have hmarked := h.marked
  have hnot : ¬ (0 < record.beginXid ∧ 0 < record.endXid) := by omega
  have hbegin : ¬ record.beginXid < 0 := by omega
  have hend : record.endXid < 0 := by omega
  have hother : -record.endXid ≠ v.trxId s := by omega
  constructor
  · rw [visitRecord, if_neg hnot, if_neg hbegin, if_pos hend, if_pos rfl, if_pos hother]
  · rw [visitRecord, if_neg hnot, if_neg hbegin, if_pos hend, if_neg (by decide), if_pos hother]

section
variable {tables : ℕ → Table} {events later : List (ℕ × Event)} {server server' : Server}

theorem careful_cases (h : Inv events server) {s : ℕ} {event : Event} {rc : RC} (hpossible : event.Possible server s)
    (hcareful : event.Careful server s) (hstep : server.step s event = some (rc, server')) :
    server'.db = server.db ∨ ∃ act rc, Checked server.db.view s act ∧ Effect server.db.view s act rc server'.db.view := by
  rcases (step_cases hstep).2 with ⟨-, hdb⟩ | ⟨act, rc, hact, hcall⟩
  · exact .inl hdb
  · exact .inr ⟨act, rc, hcareful.2 act hact, step_effect (h.possible hpossible hcareful.1 hact) hcall⟩

theorem trxInv_of_run (hrun : Run Event.Careful (.create tables) events server)
    (hempty : ∀ addr, versionOf tables addr = none) (hlt : server.db.currentTrxId < maxTrxId) : Trx.Inv server.db.view := by
  induction hrun with
  | nil => exact (create_fresh hempty).inv
  | snoc hrun hpossible hcareful hstep ih =>
    rcases careful_cases (inv_of_run hrun) hpossible hcareful hstep with hdb | ⟨act, rc, hchecked, heffect⟩
    · rw [hdb] at hlt ⊢
      exact ih hlt
    · exact (ih (lt_of_le_of_lt heffect.current_le hlt)).step heffect hchecked.proper hlt

theorem run_append {P : Server → ℕ → Event → Prop} (hrun : Run P (.create tables) events server)
    (hlater : Run P server later server') : Run P (.create tables) (events ++ later) server' := by
  induction hlater with
  | nil => rwa [List.append_nil]
  | snoc hlater hpossible hp hstep ih =>
    rw [← List.append_assoc]
    exact .snoc ih hpossible hp hstep

/-- A session that goes within a transaction leaves the rows that it has deleted or updated locked for all others as long as
the server runs: they read the old version, and none may write it. -/
theorem gone_locks (hempty : ∀ addr, versionOf tables addr = none)
    (hrun : Run Event.Careful (.create tables) events server) {t : ℕ}
    (hgone : (server.sessions t).gone = true) {addr : ℕ × RID} {record : Record} (hlocked : Locked server.db.view t addr record)
    (hlater : Run Event.Careful server later server')
    (hlt : server'.db.currentTrxId < maxTrxId) :
    server'.db.version addr = some record ∧ ∀ s, s ≠ t → server'.db.view.Running s →
      visitRecord (server'.db.view.trxId s) record true = .success ∧
        visitRecord (server'.db.view.trxId s) record false = .lockedConcurrencyConflict := by
  have hstays : (server'.sessions t).gone = true ∧ Locked server'.db.view t addr record := by
    induction hlater with
    | nil => exact ⟨hgone, hlocked⟩
    | @snoc later server₁ server₂ s event rc hlater hpossible hcareful hstep ih =>
      have hwhole := run_append hrun hlater
      have hle : server₁.db.currentTrxId ≤ server₂.db.currentTrxId := by
        rcases careful_cases (inv_of_run hwhole) hpossible hcareful hstep with hdb | ⟨act, rc, -, heffect⟩
        · rw [hdb]
        · exact heffect.current_le
      obtain ⟨hgone₁, hlocked₁⟩ := ih (lt_of_le_of_lt hle hlt)
      have hne : s ≠ t := by
        rintro rfl
        rw [hpossible.1] at hgone₁
        cases hgone₁
      refine ⟨?_, ?_⟩
      · rw [(step_cases hstep).1, Function.update_of_ne hne.symm]
        exact hgone₁
      · rcases careful_cases (inv_of_run hwhole) hpossible hcareful hstep with hdb | ⟨act, rc, hchecked, heffect⟩
        · rw [hdb]
          exact hlocked₁
        · exact hlocked₁.step (trxInv_of_run hwhole hempty (lt_of_le_of_lt hle hlt)) heffect hchecked hne
  have hv := trxInv_of_run (run_append hrun hlater) hempty hlt
  exact ⟨hstays.2.version, fun s hne hs => hstays.2.visit hv hs hne⟩

end

theorem careful_of_none {server : Server} {s : ℕ} {event : Event} (hin : event.InTrx server s)
    (h : ∀ act, event.act (server.sessions s) = some act → act.target = none) : event.Careful server s :=
  ⟨hin, fun act hact => (ownOrder_of_none (h act hact)).1⟩

/-- A session inserts a row, deletes it in a transaction, and goes. -/
theorem gone_locks_deleted :
    let tables : ℕ → Table := fun _ => ⟨[], 0, [], fun _ => none⟩
    ∃ server server', Run Event.Careful (.create tables)
        [(0, .open_), (0, .call (.insertRecord 0 [7] ⟨1, 0⟩)), (0, .close .success [⟨.insert, 0, ⟨1, 0⟩⟩]), (0, .trxBegin),
          (0, .open_), (0, .call (.deleteRecord 0 ⟨1, 0⟩)), (0, .close .success [⟨.delete, 0, ⟨1, 0⟩⟩]), (0, .disconnect)] server ∧
      Run Event.Careful server [(1, .open_)] server' ∧
      server'.db.version (0, ⟨1, 0⟩) = some ⟨2, -3, [7]⟩ ∧
      visitRecord (server'.db.view.trxId 1) ⟨2, -3, [7]⟩ false = .lockedConcurrencyConflict := by
  intro tables
  have hopened : Run Event.Careful (.create tables) ([] ++ [(0, .open_)]) _ :=
    .snoc .nil ⟨rfl, rfl⟩ (careful_of_none trivial fun act hact => by obtain rfl := Option.some.inj hact; rfl) rfl
  have hinserted : Run Event.Careful _ (_ ++ [(0, .call (.insertRecord 0 [7] ⟨1, 0⟩))]) _ :=
    hopened.snoc ⟨rfl, rfl, rfl⟩ (careful_of_none trivial fun act hact => by obtain rfl := Option.some.inj hact; rfl) rfl
  have hcommitted : Run Event.Careful _ (_ ++ [(0, .close .success [⟨.insert, 0, ⟨1, 0⟩⟩])]) _ :=
    hinserted.snoc ⟨rfl, rfl, List.Perm.refl _⟩
      (careful_of_none trivial fun act hact => by obtain rfl := Option.some.inj hact; rfl) rfl
  have hbegun : Run Event.Careful _ (_ ++ [(0, .trxBegin)]) _ :=
    hcommitted.snoc ⟨rfl, rfl⟩ (careful_of_none trivial fun act hact => by obtain rfl := Option.some.inj hact; rfl) rfl
  have hreopened : Run Event.Careful _ (_ ++ [(0, .open_)]) _ :=
    hbegun.snoc ⟨rfl, rfl⟩ (careful_of_none trivial fun act hact => by obtain rfl := Option.some.inj hact; rfl) rfl
  have hdeleted : Run Event.Careful _ (_ ++ [(0, .call (.deleteRecord 0 ⟨1, 0⟩))]) _ :=
    hreopened.snoc ⟨rfl, rfl, trivial⟩ ⟨trivial, fun act hact addr haddr record hrecord => by
      obtain rfl := Option.some.inj hact
      obtain rfl := Option.some.inj haddr
      obtain rfl := Option.some.inj hrecord
      rfl⟩ rfl
  have hclosed : Run Event.Careful _ (_ ++ [(0, .close .success [⟨.delete, 0, ⟨1, 0⟩⟩])]) _ :=
    hdeleted.snoc ⟨rfl, rfl, List.Perm.refl _⟩ (careful_of_none trivial fun act hact => by cases hact) rfl
  have hgone : Run Event.Careful _ (_ ++ [(0, .disconnect)]) _ :=
    hclosed.snoc ⟨rfl, rfl⟩ (careful_of_none trivial fun act hact => by cases hact) rfl
  have hstart : ∀ {events server}, Run Event.Careful (.create tables) events server → Run Event.Careful server [] server :=
    fun _ => .nil
  have hlater : Run Event.Careful _ ([] ++ [(1, .open_)]) _ :=
    (hstart hgone).snoc ⟨rfl, rfl⟩ (careful_of_none trivial fun act hact => by obtain rfl := Option.some.inj hact; rfl) rfl
  obtain ⟨hversion, hlocks⟩ := gone_locks (t := 0) (fun _ => rfl) hgone rfl
    (show Locked _ 0 (0, ⟨1, 0⟩) ⟨2, -3, [7]⟩ from ⟨rfl, rfl, by decide, rfl⟩) hlater (by decide)
  exact ⟨_, _, hgone, hlater, hversion, (hlocks 1 (by decide) rfl).2⟩

end Landbase.Sessions
