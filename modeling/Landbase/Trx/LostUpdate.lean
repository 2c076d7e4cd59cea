import Mathlib.Data.Finset.Basic
import Landbase.Trx.Snapshot

/-! # Lost updates

`History` is what a run leaves beside the state: the rows that the running transaction of a session has visited for
writing, and for every slot the transactions that have deleted or updated what it holds. A rollback takes its transaction
out again, so two writers of one slot are two transactions that both commit or may still do so.

`visit_record` lets a transaction write a version that another one has deleted and committed, as long as the commit is
newer than the writer. `Unended` rules this out; then no slot has two writers.
-/

namespace Landbase.Trx
open Landbase.Storage
set_option autoImplicit false

/-! ## Histories -/

structure History where
  visited : ℕ → Finset (ℕ × RID)
  writers : ℕ × RID → Finset ℤ

namespace History

def empty : History := ⟨fun _ => ∅, fun _ => ∅⟩

def addVisited (h : History) (s : ℕ) (addr : ℕ × RID) : History :=
  { h with visited := Function.update h.visited s (insert addr (h.visited s)) }

def addWriter (h : History) (addr : ℕ × RID) (trxId : ℤ) : History :=
  { h with writers := Function.update h.writers addr (insert trxId (h.writers addr)) }

/-- The history after a call of session `s` that has returned `rc`. -/
def record (h : History) (v : View) (s : ℕ) (rc : RC) : Act → History
  | .startIfNeed =>
    if (v.trxes s).started then h else { h with visited := Function.update h.visited s ∅ }
  | .visitRecord table rid readonly =>
    if readonly = false ∧ rc = .success then h.addVisited s (table, rid) else h
  | .deleteRecord table rid => if rc = .success then h.addWriter (table, rid) (v.trxId s) else h
  | .updateRecord table rid _ _ => if rc = .success then h.addWriter (table, rid) (v.trxId s) else h
  | .rollback _ => { h with writers := fun addr => (h.writers addr).erase (v.trxId s) }
  | .insertRecord _ _ _ | .commit _ => h

end History

/-- The version that a call deletes or updates. -/
def Act.target : Act → Option (ℕ × RID)
  | .deleteRecord table rid => some (table, rid)
  | .updateRecord table rid _ _ => some (table, rid)
  | _ => none

/-- Writers visit a row with `readonly = false` before they delete or update it. -/
def Visits (h : History) (s : ℕ) (act : Act) : Prop := ∀ addr ∈ act.target, addr ∈ h.visited s

/-- The version that is deleted or updated has not been deleted by a transaction that has committed. -/
def Unended (v : View) (act : Act) : Prop :=
  ∀ addr ∈ act.target, ∀ record ∈ v.version addr, record.endXid < 0 ∨ record.endXid = maxTrxId

instance (h : History) (s : ℕ) (act : Act) : Decidable (Visits h s act) :=
  inferInstanceAs (Decidable (∀ addr ∈ act.target, addr ∈ h.visited s))

instance (v : View) (act : Act) : Decidable (Unended v act) :=
  inferInstanceAs (Decidable (∀ addr ∈ act.target, ∀ record ∈ v.version addr,
    record.endXid < 0 ∨ record.endXid = maxTrxId))

/-- A call with its trace in the history. -/
def Traced (P : View → History → ℕ → Act → Prop) (x y : Db × History) : Prop :=
  ∃ s act rc, act.Possible x.1 s ∧ P x.1.view x.2 s act ∧ x.1.step s act = some (rc, y.1) ∧
    y.2 = x.2.record x.1.view s rc act

/-- A sequence of calls with its history; `none` as soon as a call is not one of those that `P` allows. -/
def runTraced (P : View → History → ℕ → Act → Prop) [∀ v h s act, Decidable (P v h s act)] :
    Db × History → List (ℕ × Act) → Option (Db × History)
  | x, [] => some x
  | x, (s, act) :: acts => do
    if act.Possible x.1 s ∧ P x.1.view x.2 s act then
      let (rc, db) ← x.1.step s act
      runTraced P (db, x.2.record x.1.view s rc act) acts
    else none

theorem runTraced_traced {P : View → History → ℕ → Act → Prop} [∀ v h s act, Decidable (P v h s act)]
    {acts : List (ℕ × Act)} {x y : Db × History} (h : runTraced P x acts = some y) :
    Relation.ReflTransGen (Traced P) x y := by
  induction acts generalizing x with
  | nil =>
    obtain rfl : x = y := by simpa [runTraced] using h
    exact Relation.ReflTransGen.refl
  | cons call acts ih =>
    obtain ⟨s, act⟩ := call
    unfold runTraced at h
    split at h
    · next hcall =>
      simp only [Option.bind_eq_bind, Option.bind_eq_some_iff] at h
      obtain ⟨⟨rc, db⟩, hstep, hrest⟩ := h
      exact Relation.ReflTransGen.head ⟨s, act, rc, hcall.1, hcall.2, hstep, rfl⟩ (ih hrest)
    · cases h

/-! ## What has been visited may be written -/

/-- A row that a transaction has visited is committed or its own. -/
def VisitedOwn (v : View) (h : History) : Prop :=
  ∀ s addr, v.Running s → addr ∈ h.visited s →
    ∃ record, v.version addr = some record ∧ (0 < record.beginXid ∨ record.beginXid = -v.trxId s)

theorem VisitedOwn.proper {db : Db} {h : History} {s : ℕ} {act : Act} (hv : VisitedOwn db.view h)
    (hpossible : act.Possible db s) (hvisits : Visits h s act) : Proper db.view s act := by
  cases act with
  | deleteRecord table rid =>
    intro record hrecord hnew hbegin
    obtain ⟨stored, hstored, hcase⟩ := hv s (table, rid) hpossible (hvisits (table, rid) rfl)
    obtain rfl := Option.some.inj (hstored.symm.trans hrecord)
    exact hcase.resolve_left (by omega)
  | _ => trivial

namespace History

variable {h : History} {v : View} {s s' : ℕ} {rc : RC} {act : Act} {addr : ℕ × RID}

theorem mem_visited (hmem : addr ∈ (h.record v s rc act).visited s') :
    (addr ∈ h.visited s' ∧ (act = .startIfNeed → v.Running s ∨ s' ≠ s)) ∨
      (s' = s ∧ act = .visitRecord addr.1 addr.2 false ∧ rc = .success) := by
  cases act with
  | startIfNeed =>
    simp only [record] at hmem
    split at hmem
    · next hstarted => exact Or.inl ⟨hmem, fun _ => Or.inl hstarted⟩
    · by_cases heq : s' = s
      · subst heq
        simp at hmem
      · simp only [Function.update_of_ne heq] at hmem
        exact Or.inl ⟨hmem, fun _ => Or.inr heq⟩
  | visitRecord table rid readonly =>
    simp only [record] at hmem
    split at hmem
    · next hcase =>
      obtain ⟨rfl, rfl⟩ := hcase
      simp only [addVisited] at hmem
      by_cases heq : s' = s
      · subst heq
        rw [Function.update_self, Finset.mem_insert] at hmem
        rcases hmem with rfl | hmem
        · exact Or.inr ⟨rfl, rfl, rfl⟩
        · exact Or.inl ⟨hmem, fun hact => nomatch hact⟩
      · rw [Function.update_of_ne heq] at hmem
        exact Or.inl ⟨hmem, fun hact => nomatch hact⟩
    · exact Or.inl ⟨hmem, fun hact => nomatch hact⟩
  | deleteRecord table rid =>
    refine Or.inl ⟨?_, fun hact => nomatch hact⟩
    simp only [record] at hmem
    split at hmem <;> exact hmem
  | updateRecord table rid newData newRid =>
    refine Or.inl ⟨?_, fun hact => nomatch hact⟩
    simp only [record] at hmem
    split at hmem <;> exact hmem
  | insertRecord table data rid => exact Or.inl ⟨hmem, fun hact => nomatch hact⟩
  | commit order => exact Or.inl ⟨hmem, fun hact => nomatch hact⟩
  | rollback order => exact Or.inl ⟨hmem, fun hact => nomatch hact⟩

theorem mem_writers {trxId : ℤ} (hmem : trxId ∈ (h.record v s rc act).writers addr) :
    (trxId ∈ h.writers addr ∧ (act.IsRollback → trxId ≠ v.trxId s)) ∨
      (trxId = v.trxId s ∧ act.target = some addr ∧ rc = .success) := by
  have hadd : ∀ {target : ℕ × RID}, ¬ act.IsRollback → act.target = some target →
      trxId ∈ (if rc = .success then h.addWriter target (v.trxId s) else h).writers addr →
      (trxId ∈ h.writers addr ∧ (act.IsRollback → trxId ≠ v.trxId s)) ∨
        (trxId = v.trxId s ∧ act.target = some addr ∧ rc = .success) := by
    intro target hact htarget hmem
    split at hmem
    · next hrc =>
      simp only [addWriter] at hmem
      by_cases haddr : addr = target
      · subst haddr
        rw [Function.update_self, Finset.mem_insert] at hmem
        rcases hmem with rfl | hmem
        · exact Or.inr ⟨rfl, htarget, hrc⟩
        · exact Or.inl ⟨hmem, fun h => absurd h hact⟩
      · rw [Function.update_of_ne haddr] at hmem
        exact Or.inl ⟨hmem, fun h => absurd h hact⟩
    · exact Or.inl ⟨hmem, fun h => absurd h hact⟩
  cases act with
  | startIfNeed =>
    refine Or.inl ⟨?_, fun hact => hact.elim⟩
    simp only [record] at hmem
    split at hmem <;> exact hmem
  | visitRecord table rid readonly =>
    refine Or.inl ⟨?_, fun hact => hact.elim⟩
    simp only [record] at hmem
    split at hmem <;> exact hmem
  | deleteRecord table rid => exact hadd (fun hact => hact) rfl hmem
  | updateRecord table rid newData newRid => exact hadd (fun hact => hact) rfl hmem
  | insertRecord table data rid => exact Or.inl ⟨hmem, fun hact => hact.elim⟩
  | commit order => exact Or.inl ⟨hmem, fun hact => hact.elim⟩
  | rollback order =>
    obtain ⟨hne, hmem⟩ := Finset.mem_erase.mp hmem
    exact Or.inl ⟨hmem, fun _ => hne⟩

end History

theorem VisitedOwn.step {v v' : View} {h : History} {s : ℕ} {act : Act} {rc : RC} (hown : VisitedOwn v h)
    (hv : Inv v) (heffect : Effect v s act rc v') (hproper : Proper v s act) :
    VisitedOwn v' (h.record v s rc act) := by
  intro s' addr hs' hmem
  rcases History.mem_visited hmem with ⟨hold, hstart⟩ | ⟨rfl, rfl, hrc⟩
  · -- visited before: the version is there and stays committed or own
    have hbefore : v.Running s' ∧ v'.trxId s' = v.trxId s' ∧ (act.IsCommit ∨ act.IsRollback → s' ≠ s) := by
      rcases heffect.running_before hs' with hbefore | ⟨hact, heq, hidle, -⟩
      · exact hbefore
      · cases hstart hact with
        | inl hrunning => exact absurd hrunning hidle
        | inr hne => exact absurd heq hne
    obtain ⟨hrunning, hid, hends⟩ := hbefore
    obtain ⟨record, hrecord, hcase⟩ := hown s' addr hrunning hold
    have hchange := hv.change heffect hproper addr
    rw [hrecord] at hchange
    generalize hslot : v'.version addr = slot at hchange
    rw [hid]
    cases hchange with
    | same => exact ⟨record, rfl, hcase⟩
    | marked hs _ hmarks _ => exact ⟨_, rfl, hcase⟩
    | insertCommitted _ hact hop hbegin =>
      have hnonneg := hv.current_nonneg
      exact ⟨_, rfl, Or.inl (show 0 < v.current + 1 by omega)⟩
    | deleteCommitted _ hact hop hbegin hend => exact ⟨_, rfl, hcase⟩
    | insertUndone _ hact hop hbegin =>
      have hs := hv.running_of_mem hop
      have hpos := (hv.ids s hs).1
      cases hcase with
      | inl hpos' => omega
      | inr hsame => exact absurd (hv.distinct s' s hrunning hs (by omega)) (hends (Or.inr hact))
    | deleteUndone _ hact hop hbegin hend => exact ⟨_, rfl, hcase⟩
  · -- visited now
    cases heffect with
    | visit table rid readonly record hrecord =>
      have hids := hv.ids s' hs'
      have hrange := hv.range addr record hrecord
      have hcase := (visit_write hids.1 record hrange.begin_ne hrange.end_ne).mp hrc
      exact ⟨record, hrecord, by omega⟩

/-! ## One writer -/

/-- Whoever has written a version and not been rolled back is alone, and a mark on the version is his. -/
structure OneWriter (v : View) (h : History) : Prop where
  marks : ∀ addr, ∀ trxId ∈ h.writers addr, ∃ record, v.version addr = some record ∧ record.endXid ≠ maxTrxId ∧
    (record.endXid < 0 → trxId = -record.endXid)
  unique : ∀ addr, ∀ trxId ∈ h.writers addr, ∀ trxId' ∈ h.writers addr, trxId = trxId'

/-- A version that is not ended gets a mark only when it has none or its own transaction has marked it. -/
theorem Inv.marks_end {v : View} {s : ℕ} {act : Act} {addr : ℕ × RID} {record : Record} (hv : Inv v)
    (hs : v.Running s) (hmarks : act.Marks v s addr record) (hunended : Unended v act) :
    record.endXid = maxTrxId ∨ record.endXid = -v.trxId s := by
  cases act with
  | deleteRecord table rid => exact Or.inl hmarks.2.2
  | updateRecord table rid newData newRid =>
    obtain ⟨rfl, hrecord, hvisit⟩ := hmarks
    have hids := hv.ids s hs
    have hrange := hv.range _ record hrecord
    rcases (visit_write hids.1 record hrange.begin_ne hrange.end_ne).mp hvisit with hown | ⟨-, -, hend, -⟩
    · obtain ⟨hend, -⟩ := hv.uncommitted _ record hrecord (by omega)
      rw [hown] at hend
      exact hend
    · exact Or.inl ((hunended _ rfl record hrecord).resolve_left (by omega))
  | _ => exact hmarks.elim

theorem Effect.target_marked {v v' : View} {s : ℕ} {act : Act} {addr : ℕ × RID} (hv : Inv v)
    (h : Effect v s act .success v') (htarget : act.target = some addr) (hunended : Unended v act) :
    v.Running s ∧ ∃ record, v.version addr = some record ∧
      (record.endXid = maxTrxId ∨ record.endXid = -v.trxId s) ∧
        v'.version addr = some { record with endXid := -v.trxId s } := by
  generalize hrc : RC.success = rc at h
  cases h with
  | deleteOld table rid record hrecord hpos hold =>
    obtain rfl := Option.some.inj htarget
    have := hunended _ rfl record hrecord
    omega
  | delete hstarted table rid record hrecord hnew =>
    obtain rfl := Option.some.inj htarget
    exact ⟨hstarted, record, hrecord, Or.inl hnew, Function.update_self _ _ _⟩
  | updateConflict table rid newData newRid record hrecord hvisit => exact absurd hrc.symm hvisit
  | updateRefused hstarted table rid newData newRid record hrecord hvisit rc hrefused =>
    exact absurd hrc.symm hrefused
  | update hstarted table rid newData newRid record hrecord hfree hvisit =>
    obtain rfl := Option.some.inj htarget
    have hmarks : (Act.updateRecord table rid newData newRid).Marks v s (table, rid) record := ⟨rfl, hrecord, hvisit⟩
    refine ⟨hstarted, record, hrecord, hv.marks_end hstarted hmarks hunended, ?_⟩
    have hne : (table, rid) ≠ (table, newRid) := by
      intro heq
      rw [← heq, hrecord] at hfree
      cases hfree
    show Function.update (Function.update v.version (table, rid) _) (table, newRid) _ (table, rid) = _
    rw [Function.update_of_ne hne, Function.update_self]
    rfl
  | _ => cases htarget

theorem Effect.current_of_commit {v v' : View} {s : ℕ} {act : Act} {rc : RC} (h : Effect v s act rc v')
    (hact : act.IsCommit) : v'.current = v.current + 1 := by
  cases h with
  | commit hstarted order version hwalk => rfl
  | _ => exact hact.elim

theorem OneWriter.step {v v' : View} {h : History} {s : ℕ} {act : Act} {rc : RC} (hone : OneWriter v h) (hv : Inv v)
    (heffect : Effect v s act rc v') (hproper : Proper v s act) (hunended : Unended v act)
    (hlt : v'.current < maxTrxId) : OneWriter v' (h.record v s rc act) := by
  have hmax := hv.current_lt
  refine ⟨?_, ?_⟩
  · intro addr trxId hmem
    rcases History.mem_writers hmem with ⟨hold, hrollback⟩ | ⟨rfl, htarget, rfl⟩
    · obtain ⟨record, hrecord, hend, hmark⟩ := hone.marks addr trxId hold
      have hchange := hv.change heffect hproper addr
      rw [hrecord] at hchange
      generalize hslot : v'.version addr = slot at hchange
      cases hchange with
      | same => exact ⟨record, rfl, hend, hmark⟩
      | marked hs _ hmarks _ =>
        have hids := hv.ids s hs
        have hsame := (hv.marks_end hs hmarks hunended).resolve_left hend
        refine ⟨_, rfl, show -v.trxId s ≠ maxTrxId by omega, fun _ => ?_⟩
        rw [← hsame]
        exact hmark (by omega)
      | insertCommitted _ hact hop hbegin => exact ⟨_, rfl, hend, hmark⟩
      | deleteCommitted _ hact hop hbegin hmarked =>
        have hnonneg := hv.current_nonneg
        rw [heffect.current_of_commit hact] at hlt
        refine ⟨_, rfl, show v.current + 1 ≠ maxTrxId by omega, fun hneg => ?_⟩
        have : v.current + 1 < 0 := hneg
        omega
      | insertUndone _ hact hop hbegin =>
        have hids := hv.ids s (hv.running_of_mem hop)
        obtain ⟨hcase, -⟩ := hv.uncommitted addr record hrecord (by omega)
        have hsame := hcase.resolve_left hend
        exact absurd (hmark (by omega)) (by have := hrollback hact; omega)
      | deleteUndone _ hact hop hbegin hmarked =>
        have hids := hv.ids s (hv.running_of_mem hop)
        exact absurd (hmark (by omega)) (by have := hrollback hact; omega)
    · obtain ⟨hs, record, hrecord, hend, hversion⟩ := heffect.target_marked hv htarget hunended
      have hids := hv.ids s hs
      exact ⟨_, hversion, show -v.trxId s ≠ maxTrxId by omega, fun _ => (neg_neg _).symm⟩
  · intro addr trxId hmem trxId' hmem'
    -- an old writer of a version that is written now is the one who writes it
    have hnew : ∀ trxId ∈ h.writers addr, act.target = some addr → rc = .success → trxId = v.trxId s := by
      rintro trxId hold htarget rfl
      obtain ⟨hs, record, hrecord, hend, -⟩ := heffect.target_marked hv htarget hunended
      obtain ⟨record', hrecord', hne, hmark⟩ := hone.marks addr trxId hold
      obtain rfl := Option.some.inj (hrecord.symm.trans hrecord')
      have hids := hv.ids s hs
      have hsame := hend.resolve_left hne
      have := hmark (by omega)
      omega
    rcases History.mem_writers hmem with ⟨hold, -⟩ | ⟨rfl, htarget, hrc⟩ <;>
      rcases History.mem_writers hmem' with ⟨hold', -⟩ | ⟨rfl, htarget', hrc'⟩
    · exact hone.unique addr trxId hold trxId' hold'
    · exact hnew trxId hold htarget' hrc'
    · exact (hnew trxId' hold' htarget hrc).symm
    · rfl

/-! ## Whole runs -/

/-- The calls of a run without lost updates. -/
def Writes (v : View) (h : History) (s : ℕ) (act : Act) : Prop := Visits h s act ∧ Unended v act

instance (v : View) (h : History) (s : ℕ) (act : Act) : Decidable (Writes v h s act) :=
  inferInstanceAs (Decidable (Visits h s act ∧ Unended v act))

theorem oneWriter_run {db₀ db : Db} {h : History} (hfresh : db₀.Fresh)
    (hrun : Relation.ReflTransGen (Traced Writes) (db₀, .empty) (db, h)) (hlt : db.currentTrxId < maxTrxId) :
    Inv db.view ∧ VisitedOwn db.view h ∧ OneWriter db.view h := by
  generalize hx : (db, h) = x at hrun
  induction hrun generalizing db h with
  | refl =>
    obtain ⟨rfl, rfl⟩ := Prod.mk.inj hx
    refine ⟨hfresh.inv, fun s addr _ hmem => ?_, fun addr trxId hmem => ?_, fun addr trxId hmem => ?_⟩
    · cases (Finset.notMem_empty _ hmem)
    · cases (Finset.notMem_empty _ hmem)
    · cases (Finset.notMem_empty _ hmem)
  | tail _ hstep ih =>
    subst hx
    obtain ⟨s, act, rc, hpossible, ⟨hvisits, hunended⟩, hcall, rfl⟩ := hstep
    have heffect := step_effect hpossible hcall
    obtain ⟨hv, hown, hone⟩ := ih (lt_of_le_of_lt heffect.current_le hlt) rfl
    have hproper := hown.proper hpossible hvisits
    exact ⟨hv.step heffect hproper hlt, hown.step hv heffect hproper, hone.step hv heffect hproper hunended hlt⟩

/-- In every run whose writers visit first and write no version that a committed transaction has deleted, a version has
been deleted or updated by one transaction at most that has not been rolled back; and the next deletion or update
succeeds only on a version that no other transaction has marked. -/
theorem no_lost_update {db₀ db : Db} {h : History} (hfresh : db₀.Fresh)
    (hrun : Relation.ReflTransGen (Traced Writes) (db₀, .empty) (db, h)) (hlt : db.currentTrxId < maxTrxId) :
    (∀ addr, ∀ trxId ∈ h.writers addr, ∀ trxId' ∈ h.writers addr, trxId = trxId') ∧
      ∀ s act db' addr record, act.Possible db s → Writes db.view h s act → db.step s act = some (.success, db') →
        act.target = some addr → db.version addr = some record →
          record.endXid = maxTrxId ∨ record.endXid = -db.view.trxId s := by
  obtain ⟨hv, hown, hone⟩ := oneWriter_run hfresh hrun hlt
  refine ⟨hone.unique, ?_⟩
  intro s act db' addr record hpossible hwrites hcall htarget hrecord
  obtain ⟨-, stored, hstored, hend, -⟩ := (step_effect hpossible hcall).target_marked hv htarget hwrites.2
  obtain rfl := Option.some.inj (hstored.symm.trans hrecord)
  exact hend

/-- A deletion is rolled back while another transaction meets the conflict; then the other one updates the row. -/
theorem no_lost_update_rollback :
    let tables : ℕ → Table := fun _ => ⟨[], 0, [], fun _ => none⟩
    let calls := [(0, Act.startIfNeed), (0, .insertRecord 0 [7] ⟨1, 0⟩), (0, .commit [⟨.insert, 0, ⟨1, 0⟩⟩]),
      (1, .startIfNeed), (2, .startIfNeed), (1, .visitRecord 0 ⟨1, 0⟩ false), (1, .deleteRecord 0 ⟨1, 0⟩),
      (2, .visitRecord 0 ⟨1, 0⟩ false), (1, .rollback [⟨.delete, 0, ⟨1, 0⟩⟩]), (2, .visitRecord 0 ⟨1, 0⟩ false),
      (2, .updateRecord 0 ⟨1, 0⟩ [8] ⟨1, 1⟩)]
    ∃ x, runTraced Writes (Db.create tables, .empty) calls = some x ∧ 4 ∈ x.2.writers (0, ⟨1, 0⟩) ∧
      ∀ trxId ∈ x.2.writers (0, ⟨1, 0⟩), trxId = 4 := by
  intro tables calls
  obtain ⟨⟨db, h⟩, hrun, hobserved⟩ := Option.map_eq_some_iff.mp (show (runTraced Writes (Db.create tables, .empty)
    calls).map (fun x => (decide (4 ∈ x.2.writers (0, ⟨1, 0⟩)), decide (x.1.currentTrxId < maxTrxId))) =
      some (true, true) by decide +kernel)
  obtain ⟨hmem, hlt⟩ := Prod.mk.inj hobserved
  refine ⟨(db, h), hrun, of_decide_eq_true hmem, ?_⟩
  intro trxId htrxId
  exact (no_lost_update (create_fresh fun _ => rfl) (runTraced_traced hrun) (of_decide_eq_true hlt)).1
    (0, ⟨1, 0⟩) trxId htrxId 4 (of_decide_eq_true hmem)

/-- Two transactions visit and update the same version, and both commit. -/
theorem update_lost :
    let tables : ℕ → Table := fun _ => ⟨[], 0, [], fun _ => none⟩
    let calls := [(0, Act.startIfNeed), (0, .insertRecord 0 [7] ⟨1, 0⟩), (0, .commit [⟨.insert, 0, ⟨1, 0⟩⟩]),
      (1, .startIfNeed), (2, .startIfNeed), (1, .visitRecord 0 ⟨1, 0⟩ false), (1, .updateRecord 0 ⟨1, 0⟩ [8] ⟨1, 1⟩),
      (1, .commit [⟨.delete, 0, ⟨1, 0⟩⟩, ⟨.insert, 0, ⟨1, 1⟩⟩]), (2, .visitRecord 0 ⟨1, 0⟩ false),
      (2, .updateRecord 0 ⟨1, 0⟩ [9] ⟨1, 2⟩), (2, .commit [⟨.delete, 0, ⟨1, 0⟩⟩, ⟨.insert, 0, ⟨1, 2⟩⟩])]
    ∃ x, runTraced (fun _ h s act => Visits h s act) (Db.create tables, .empty) calls = some x ∧
      x.2.writers (0, ⟨1, 0⟩) = {3, 4} ∧ .mtrCommit 3 5 ∈ x.1.log ∧ .mtrCommit 4 6 ∈ x.1.log := by
  intro tables calls
  obtain ⟨x, hrun, hobserved⟩ := Option.map_eq_some_iff.mp (show (runTraced (fun _ h s act => Visits h s act)
    (Db.create tables, .empty) calls).map (fun x => decide (x.2.writers (0, ⟨1, 0⟩) = {3, 4} ∧
      .mtrCommit 3 5 ∈ x.1.log ∧ .mtrCommit 4 6 ∈ x.1.log)) = some true by decide +kernel)
  exact ⟨x, hrun, of_decide_eq_true hobserved⟩

end Landbase.Trx
