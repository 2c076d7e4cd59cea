import Landbase.Trx.Invariant

/-! # Snapshots

What a transaction sees of the versions of others, from its start to its end. `visit_record` shows a committed version
that another transaction has marked to every reader, whatever its `__trx_xid_begin`. A reader that started before the
version was committed therefore begins to see it when it is marked, and a version that its own transaction has both
inserted and deleted is never hidden again. `Harmless` rules out exactly these two; then the set of versions that a
transaction sees of others stays as it was at its start.
-/

namespace Landbase.Trx
open Landbase.Storage
set_option autoImplicit false

/-! ## What is seen -/

/-- `visit_record(readonly = true)` shows this version to the transaction of session `s`. -/
def View.Sees (v : View) (s : ℕ) (addr : ℕ × RID) (data : Bytes) : Prop :=
  ∃ record, v.version addr = some record ∧ record.data = data ∧ visitRecord (v.trxId s) record true = .success

/-- The transaction of session `s` has inserted or marked the version. -/
def View.Wrote (v : View) (s : ℕ) (addr : ℕ × RID) : Prop :=
  ∃ record, v.version addr = some record ∧ (record.beginXid = -v.trxId s ∨ record.endXid = -v.trxId s)

/-- A version that is deleted or updated is the writer's own, or every other running transaction sees it; and a
transaction that has inserted and deleted the same version does not commit while another one is running. -/
structure Harmless (v : View) (s : ℕ) (act : Act) : Prop where
  marks : ∀ addr record, act.Marks v s addr record → record.beginXid = -v.trxId s ∨
    (0 < record.beginXid ∧ ∀ s', v.Running s' → s' ≠ s → visitRecord (v.trxId s') record true = .success)
  commits : act.IsCommit → ∀ addr record, (⟨.insert, addr.1, addr.2⟩ : Operation) ∈ v.operations s →
    v.version addr = some record → record.endXid < 0 → ∀ s', v.Running s' → s' = s

/-- A call that does not end the transaction of session `t`. -/
def Keeps (t : ℕ) (s : ℕ) (act : Act) : Prop := s = t → ¬ act.IsCommit ∧ ¬ act.IsRollback

theorem keeps_of_ne {s t : ℕ} {act : Act} (hne : s ≠ t) : Keeps t s act := fun heq => absurd heq hne

theorem Harmless.proper {v : View} {s : ℕ} {act : Act} (h : Harmless v s act) : Proper v s act := by
  cases act with
  | deleteRecord table rid =>
    intro record hrecord hnew hbegin
    rcases h.marks (table, rid) record ⟨rfl, hrecord, hnew⟩ with hown | ⟨hpos, -⟩
    · exact hown
    · omega
  | _ => trivial

/-! ## Which transactions run -/

theorem Effect.keeps {v v' : View} {s t : ℕ} {act : Act} {rc : RC} (h : Effect v s act rc v') (ht : v.Running t)
    (hkeeps : Keeps t s act) : v'.Running t ∧ v'.trxId t = v.trxId t := by
  cases h with
  | start hstarted hops =>
    have hne : t ≠ s := by
      rintro rfl
      rw [View.Running, hstarted] at ht
      cases ht
    exact ⟨(v.startTrx_running s t).mpr (Or.inr ht), by rw [View.startTrx_trxId, if_neg hne]⟩
  | insert hstarted table data rid hfree rc hrc =>
    exact ⟨(View.addOperation_running _ s t _).mpr ht, View.addOperation_trxId _ s t _⟩
  | delete hstarted table rid record hrecord hnew =>
    exact ⟨(View.addOperation_running _ s t _).mpr ht, View.addOperation_trxId _ s t _⟩
  | update hstarted table rid newData newRid record hrecord hfree hvisit =>
    refine ⟨(View.addOperation_running _ s t _).mpr ((View.addOperation_running _ s t _).mpr ht), ?_⟩
    rw [View.addOperation_trxId, View.addOperation_trxId]
    rfl
  | commit hstarted order version hwalk =>
    have hne : t ≠ s := fun heq => (hkeeps heq.symm).1 trivial
    exact ⟨(View.endTrx_running _ s t version).mpr ⟨hne, ht⟩, View.endTrx_trxId _ s t version⟩
  | rollback hstarted order version hwalk =>
    have hne : t ≠ s := fun heq => (hkeeps heq.symm).2 trivial
    exact ⟨(View.endTrx_running _ s t version).mpr ⟨hne, ht⟩, View.endTrx_trxId _ s t version⟩
  | _ => exact ⟨ht, rfl⟩

theorem Effect.running_before {v v' : View} {s t : ℕ} {act : Act} {rc : RC} (h : Effect v s act rc v')
    (ht : v'.Running t) :
    (v.Running t ∧ v'.trxId t = v.trxId t ∧ (act.IsCommit ∨ act.IsRollback → t ≠ s)) ∨
      (act = .startIfNeed ∧ t = s ∧ ¬ v.Running s ∧ v'.trxId t = v.current + 1) := by
  cases h with
  | start hstarted hops =>
    by_cases heq : t = s
    · exact Or.inr ⟨rfl, heq, by simp [View.Running, hstarted], by rw [View.startTrx_trxId, if_pos heq]⟩
    · refine Or.inl ⟨((v.startTrx_running s t).mp ht).resolve_left heq, ?_, fun _ => heq⟩
      rw [View.startTrx_trxId, if_neg heq]
  | insert hstarted table data rid hfree rc hrc =>
    refine Or.inl ⟨(View.addOperation_running _ s t _).mp ht, View.addOperation_trxId _ s t _, ?_⟩
    exact fun hc => (hc.elim id id).elim
  | delete hstarted table rid record hrecord hnew =>
    refine Or.inl ⟨(View.addOperation_running _ s t _).mp ht, View.addOperation_trxId _ s t _, ?_⟩
    exact fun hc => (hc.elim id id).elim
  | update hstarted table rid newData newRid record hrecord hfree hvisit =>
    refine Or.inl ⟨(View.addOperation_running _ s t _).mp ((View.addOperation_running _ s t _).mp ht), ?_,
      fun hc => (hc.elim id id).elim⟩
    rw [View.addOperation_trxId, View.addOperation_trxId]
    rfl
  | commit hstarted order version hwalk =>
    obtain ⟨hne, hrunning⟩ := (View.endTrx_running _ s t version).mp ht
    exact Or.inl ⟨hrunning, View.endTrx_trxId _ s t version, fun _ => hne⟩
  | rollback hstarted order version hwalk =>
    obtain ⟨hne, hrunning⟩ := (View.endTrx_running _ s t version).mp ht
    exact Or.inl ⟨hrunning, View.endTrx_trxId _ s t version, fun _ => hne⟩
  | running hstarted => exact Or.inl ⟨ht, rfl, fun hc => (hc.elim id id).elim⟩
  | insertRefused table data rid rc hrc => exact Or.inl ⟨ht, rfl, fun hc => (hc.elim id id).elim⟩
  | deleteOld table rid record hrecord hpos hold => exact Or.inl ⟨ht, rfl, fun hc => (hc.elim id id).elim⟩
  | updateConflict table rid newData newRid record hrecord hvisit =>
    exact Or.inl ⟨ht, rfl, fun hc => (hc.elim id id).elim⟩
  | updateRefused hstarted table rid newData newRid record hrecord hvisit rc hrc =>
    exact Or.inl ⟨ht, rfl, fun hc => (hc.elim id id).elim⟩
  | visit table rid readonly record hrecord => exact Or.inl ⟨ht, rfl, fun hc => (hc.elim id id).elim⟩

/-! ## Marked versions are old ones -/

/-- A committed version that is marked was committed before every running transaction but the one that marked it. -/
def Settled (v : View) : Prop :=
  ∀ addr record, v.version addr = some record → 0 < record.beginXid → record.endXid < 0 →
    ∀ t, v.Running t → record.endXid ≠ -v.trxId t → record.beginXid ≤ v.trxId t

theorem Settled.step {v v' : View} {s : ℕ} {act : Act} {rc : RC} (hm : Settled v) (hv : Inv v)
    (h : Effect v s act rc v') (hharmless : Harmless v s act) : Settled v' := by
  intro addr record' hrecord' hbegin hend t ht hne
  have hbefore := h.running_before ht
  have hchange := hv.change h hharmless.proper addr
  rw [hrecord'] at hchange
  generalize hslot : v.version addr = slot at hchange
  cases hchange with
  | same =>
    rcases hbefore with ⟨hrunning, hid, -⟩ | ⟨-, -, -, hid⟩
    · rw [hid] at hne ⊢
      exact hm addr record' hslot hbegin hend t hrunning hne
    · have hhigh := (hv.range addr record' hslot).begin_high
      omega
  | created hs data =>
    have hids := hv.ids s hs
    have hneg : 0 < -v.trxId s := hbegin
    omega
  | marked hs record hmarks hcase =>
    have hids := hv.ids s hs
    rcases hbefore with ⟨hrunning, hid, -⟩ | ⟨hact, -⟩
    · rw [hid] at hne ⊢
      have hts : t ≠ s := by
        rintro rfl
        exact hne rfl
      rcases hharmless.marks addr record hmarks with hown | ⟨-, hsees⟩
      · have hpos : 0 < record.beginXid := hbegin
        omega
      · have hrange := hv.range addr record hslot
        have hread := (visit_read (hv.ids t hrunning).1 record hrange.begin_ne hrange.end_ne).mp (hsees t hrunning hts)
        have hpos := (hv.ids t hrunning).1
        show record.beginXid ≤ v.trxId t
        omega
    · subst hact
      exact hmarks.elim
  | insertCommitted record hact hop hb =>
    rcases hbefore with ⟨hrunning, -, hts⟩ | ⟨rfl, -⟩
    · exact absurd (hharmless.commits hact addr record hop hslot hend t hrunning) (hts (Or.inl hact))
    · exact hact.elim
  | deleteCommitted record hact hop hb he =>
    have hnonneg := hv.current_nonneg
    have hneg : v.current + 1 < 0 := hend
    omega
  | deleteUndone record hact hop hb he =>
    have hneg : maxTrxId < 0 := hend
    exact absurd hneg (by decide)

/-! ## One call -/

theorem View.Wrote.step {v v' : View} {s t : ℕ} {act : Act} {rc : RC} {addr : ℕ × RID} (hw : v.Wrote t addr)
    (hv : Inv v) (h : Effect v s act rc v') (hproper : Proper v s act) (ht : v.Running t) (hkeeps : Keeps t s act) :
    v'.Wrote t addr := by
  obtain ⟨record, hrecord, hwrote⟩ := hw
  have hid := (h.keeps ht hkeeps).2
  have hpos := (hv.ids t ht).1
  have hchange := hv.change h hproper addr
  rw [hrecord] at hchange
  -- the end of another transaction is about its own versions
  have hother : ∀ {type : OperationType}, (⟨type, addr.1, addr.2⟩ : Operation) ∈ v.operations s → s ≠ t → False := by
    intro type hop hne
    obtain ⟨hb, he⟩ := hv.foreign hop ht hne hrecord
    cases hwrote with
    | inl hwrote => exact hb hwrote
    | inr hwrote => exact he hwrote
  generalize hslot : v'.version addr = slot at hchange
  cases hchange with
  | same => exact ⟨record, hslot, by rw [hid]; exact hwrote⟩
  | marked hs _ hmarks hcase =>
    refine ⟨_, hslot, ?_⟩
    rw [hid]
    cases hwrote with
    | inl hb => exact Or.inl hb
    | inr he =>
      refine Or.inr ?_
      have hmax := hv.current_lt
      have hids := hv.ids s hs
      show -v.trxId s = -v.trxId t
      rcases hcase with hown | ⟨-, hend⟩
      · obtain ⟨hend, -⟩ := hv.uncommitted addr record hrecord (by omega)
        omega
      · omega
  | insertCommitted _ hact hop hb => exact (hother hop fun heq => (hkeeps heq).1 hact).elim
  | deleteCommitted _ hact hop hb he => exact (hother hop fun heq => (hkeeps heq).1 hact).elim
  | insertUndone _ hact hop hb => exact (hother hop fun heq => (hkeeps heq).2 hact).elim
  | deleteUndone _ hact hop hb he => exact (hother hop fun heq => (hkeeps heq).2 hact).elim

/-- One call changes nothing in what a running transaction sees of the versions of others. -/
theorem sees_step {v v' : View} {s t : ℕ} {act : Act} {rc : RC} (hv : Inv v) (hsettled : Settled v)
    (h : Effect v s act rc v') (hharmless : Harmless v s act) (ht : v.Running t) (hkeeps : Keeps t s act)
    {addr : ℕ × RID} (hwrote : ¬ v'.Wrote t addr) (data : Bytes) : v.Sees t addr data ↔ v'.Sees t addr data := by
  have hid := (h.keeps ht hkeeps).2
  have hids := hv.ids t ht
  have hchange := hv.change h hharmless.proper addr
  generalize hslot : v.version addr = slot at hchange
  generalize hslot' : v'.version addr = slot' at hchange
  -- a version that nobody sees before and after
  have hneither : (∀ record, slot = some record → visitRecord (v.trxId t) record true ≠ .success) →
      (∀ record, slot' = some record → visitRecord (v.trxId t) record true ≠ .success) →
      (v.Sees t addr data ↔ v'.Sees t addr data) := by
    intro hbefore hafter
    refine ⟨?_, ?_⟩
    · rintro ⟨record, hrecord, -, hvisit⟩
      rw [hslot] at hrecord
      exact absurd hvisit (hbefore record hrecord)
    · rintro ⟨record, hrecord, -, hvisit⟩
      rw [hslot'] at hrecord
      rw [hid] at hvisit
      exact absurd hvisit (hafter record hrecord)
  -- a version that the transaction sees before and after
  have hboth : ∀ record record', slot = some record → slot' = some record' → record'.data = record.data →
      visitRecord (v.trxId t) record true = .success → visitRecord (v.trxId t) record' true = .success →
      (v.Sees t addr data ↔ v'.Sees t addr data) := by
    intro record record' hrecord hrecord' hdata hbefore hafter
    refine ⟨?_, ?_⟩
    · rintro ⟨r, hr, rfl, -⟩
      rw [hslot, hrecord] at hr
      obtain rfl := Option.some.inj hr
      exact ⟨record', by rw [hslot', hrecord'], hdata, by rw [hid]; exact hafter⟩
    · rintro ⟨r, hr, rfl, -⟩
      rw [hslot', hrecord'] at hr
      obtain rfl := Option.some.inj hr
      exact ⟨record, by rw [hslot, hrecord], hdata.symm, hbefore⟩
  have hdistinct : v.Running s → s ≠ t → v.trxId s ≠ v.trxId t := fun hs hne heq => hne (hv.distinct s t hs ht heq)
  have hmax := hv.current_lt
  cases hchange with
  | same =>
    unfold View.Sees
    rw [hslot, hslot', hid]
  | created hs data' =>
    have hne : s ≠ t := by
      rintro rfl
      exact hwrote ⟨_, hslot', Or.inl (by rw [hid])⟩
    have hids' := hv.ids s hs
    have hdist := hdistinct hs hne
    refine hneither (fun record hrecord => (nomatch hrecord)) ?_
    intro record hrecord hvisit
    obtain rfl := Option.some.inj hrecord
    rw [visit_read hids.1 _ (show -v.trxId s ≠ 0 by omega) (show maxTrxId ≠ 0 by decide)] at hvisit
    simp only at hvisit
    omega
  | marked hs record hmarks hcase =>
    have hne : s ≠ t := by
      rintro rfl
      exact hwrote ⟨_, hslot', Or.inr (by rw [hid])⟩
    have hids' := hv.ids s hs
    have hdist := hdistinct hs hne
    have hrange := hv.range addr record hslot
    have hafter := visit_read hids.1 { record with endXid := -v.trxId s } hrange.begin_ne
      (show -v.trxId s ≠ 0 by omega)
    simp only at hafter
    rcases hharmless.marks addr record hmarks with hown | ⟨hpos, hsees⟩
    · refine hneither ?_ ?_
      · intro r hr hvisit
        obtain rfl := Option.some.inj hr
        rw [visit_read hids.1 record hrange.begin_ne hrange.end_ne] at hvisit
        omega
      · intro r hr hvisit
        obtain rfl := Option.some.inj hr
        rw [hafter] at hvisit
        omega
    · exact hboth record _ rfl rfl rfl (hsees t ht hne.symm) (hafter.mpr (by omega))
  | insertCommitted record hact hop hb =>
    have hne : s ≠ t := fun heq => (hkeeps heq).1 hact
    have hs := hv.running_of_mem hop
    have hids' := hv.ids s hs
    have hdist := hdistinct hs hne
    have hrange := hv.range addr record hslot
    have hend : ¬ record.endXid < 0 := fun hneg =>
      hne (hharmless.commits hact addr record hop hslot hneg t ht).symm
    refine hneither ?_ ?_
    · intro r hr hvisit
      obtain rfl := Option.some.inj hr
      rw [visit_read hids.1 record hrange.begin_ne hrange.end_ne] at hvisit
      omega
    · intro r hr hvisit
      obtain rfl := Option.some.inj hr
      rw [visit_read hids.1 { record with beginXid := v.current + 1 } (show v.current + 1 ≠ 0 by omega) hrange.end_ne] at hvisit
      simp only at hvisit
      omega
  | deleteCommitted record hact hop hb he =>
    have hne : s ≠ t := fun heq => (hkeeps heq).1 hact
    have hs := hv.running_of_mem hop
    have hids' := hv.ids s hs
    have hdist := hdistinct hs hne
    have hrange := hv.range addr record hslot
    have hold := hsettled addr record hslot hb (by omega) t ht (by omega)
    refine hboth record _ rfl rfl rfl ?_ ?_
    · rw [visit_read hids.1 record hrange.begin_ne hrange.end_ne]
      omega
    · rw [visit_read hids.1 { record with endXid := v.current + 1 } hrange.begin_ne
        (show v.current + 1 ≠ 0 by omega)]
      simp only
      omega
  | insertUndone record hact hop hb =>
    have hne : s ≠ t := fun heq => (hkeeps heq).2 hact
    have hs := hv.running_of_mem hop
    have hids' := hv.ids s hs
    have hdist := hdistinct hs hne
    have hrange := hv.range addr record hslot
    refine hneither ?_ (fun r hr => (nomatch hr))
    intro r hr hvisit
    obtain rfl := Option.some.inj hr
    rw [visit_read hids.1 record hrange.begin_ne hrange.end_ne] at hvisit
    omega
  | deleteUndone record hact hop hb he =>
    have hne : s ≠ t := fun heq => (hkeeps heq).2 hact
    have hs := hv.running_of_mem hop
    have hids' := hv.ids s hs
    have hdist := hdistinct hs hne
    have hrange := hv.range addr record hslot
    have hold := hsettled addr record hslot hb (by omega) t ht (by omega)
    refine hboth record _ rfl rfl rfl ?_ ?_
    · rw [visit_read hids.1 record hrange.begin_ne hrange.end_ne]
      omega
    · rw [visit_read hids.1 { record with endXid := maxTrxId } hrange.begin_ne (show maxTrxId ≠ 0 by decide)]
      simp only
      omega

/-! ## Whole runs -/

theorem Settled.run {db db' : Db} (hv : Inv db.view) (hsettled : Settled db.view)
    (h : Relation.ReflTransGen (Step Harmless) db db') (hlt : db'.currentTrxId < maxTrxId) : Settled db'.view := by
  induction h with
  | refl => exact hsettled
  | tail hrun hstep ih =>
    obtain ⟨s, act, rc, hpossible, hharmless, hcall⟩ := hstep
    have heffect := step_effect hpossible hcall
    have hlt' := lt_of_le_of_lt heffect.current_le hlt
    have hv' := hv.run (fun _ _ _ hh => hh.proper) hrun hlt'
    exact (ih hlt').step hv' heffect hharmless

theorem harmless_of_quiet {v : View} {s : ℕ} {act : Act} (hmarks : ∀ addr record, ¬ act.Marks v s addr record)
    (hcommit : ¬ act.IsCommit) : Harmless v s act where
  marks addr record h := absurd h (hmarks addr record)
  commits h := absurd h hcommit

/-- What a transaction sees of the versions of others, compared with what it saw when it had been started. -/
theorem sees_run {db₁ db₂ : Db} {t : ℕ} (hv : Inv db₁.view) (hsettled : Settled db₁.view) (ht : db₁.view.Running t)
    (h : Relation.ReflTransGen (Step fun v s act => Harmless v s act ∧ Keeps t s act) db₁ db₂)
    (hlt : db₂.currentTrxId < maxTrxId) :
    Inv db₂.view ∧ Settled db₂.view ∧ (db₂.view.Running t ∧ db₂.view.trxId t = db₁.view.trxId t) ∧
      ∀ addr data, ¬ db₂.view.Wrote t addr → (db₁.view.Sees t addr data ↔ db₂.view.Sees t addr data) := by
  induction h with
  | refl => exact ⟨hv, hsettled, ⟨ht, rfl⟩, fun _ _ _ => Iff.rfl⟩
  | tail _ hstep ih =>
    obtain ⟨s, act, rc, hpossible, ⟨hharmless, hkeeps⟩, hcall⟩ := hstep
    have heffect := step_effect hpossible hcall
    obtain ⟨hv', hsettled', ⟨ht', hid⟩, hsees⟩ := ih (lt_of_le_of_lt heffect.current_le hlt)
    obtain ⟨hrunning, hsame⟩ := heffect.keeps ht' hkeeps
    refine ⟨hv'.step heffect hharmless.proper hlt, hsettled'.step hv' heffect hharmless,
      ⟨hrunning, hsame.trans hid⟩, ?_⟩
    intro addr data hwrote
    have hbefore : ¬ View.Wrote _ t addr := fun hw => hwrote (hw.step hv' heffect hharmless.proper ht' hkeeps)
    rw [hsees addr data hbefore]
    exact sees_step hv' hsettled' heffect hharmless ht' hkeeps hwrote data

/-- Every run of harmless calls, and every transaction in it: from its start to its end the transaction sees the same
versions of others, and these were committed before it started. -/
theorem snapshot_stable {db₀ db db₁ db₂ : Db} {t : ℕ} (hfresh : db₀.Fresh)
    (hbefore : Relation.ReflTransGen (Step Harmless) db₀ db)
    (hstart : db.startIfNeed t = some (.success, db₁))
    (hrun : Relation.ReflTransGen (Step fun v s act => Harmless v s act ∧ Keeps t s act) db₁ db₂)
    (hlt : db₂.currentTrxId < maxTrxId) :
    (∀ addr data, ¬ db₂.view.Wrote t addr → (db₁.view.Sees t addr data ↔ db₂.view.Sees t addr data)) ∧
      ∀ addr record, db₂.version addr = some record → ¬ db₂.view.Wrote t addr →
        visitRecord (db₂.view.trxId t) record true = .success →
          0 < record.beginXid ∧ record.beginXid ≤ db₁.view.trxId t := by
  have hmono : db₁.currentTrxId ≤ db₂.currentTrxId := current_le_of_run hrun
  have heffect : Effect db.view t .startIfNeed .success db₁.view := step_effect trivial hstart
  have hlt₀ : db.currentTrxId < maxTrxId := lt_of_le_of_lt heffect.current_le (lt_of_le_of_lt hmono hlt)
  have hnone : Settled db₀.view := by
    intro addr record hrecord
    rw [show db₀.view.version addr = none from hfresh.records addr] at hrecord
    cases hrecord
  have hv : Inv db.view := hfresh.inv.run (fun _ _ _ hh => hh.proper) hbefore hlt₀
  have hsettled : Settled db.view := Settled.run hfresh.inv hnone hbefore hlt₀
  have hquiet : Harmless db.view t .startIfNeed := harmless_of_quiet (fun _ _ h => h.elim) (fun h => h.elim)
  have hv₁ : Inv db₁.view := hv.step heffect hquiet.proper (lt_of_le_of_lt hmono hlt)
  have hrunning : db₁.view.Running t := by
    generalize hview : db₁.view = v₁ at heffect
    cases heffect with
    | running hstarted => exact hstarted
    | start hstarted hops => exact (View.startTrx_running _ t t).mpr (Or.inl rfl)
  obtain ⟨hv₂, hsettled₂, ⟨hrunning₂, hid⟩, hsees⟩ :=
    sees_run hv₁ (hsettled.step hv heffect hquiet) hrunning hrun hlt
  refine ⟨hsees, ?_⟩
  intro addr record hrecord hwrote hvisit
  have hrange := hv₂.range addr record hrecord
  have hpos := (hv₂.ids t hrunning₂).1
  rw [visit_read hpos record hrange.begin_ne hrange.end_ne] at hvisit
  have hbegin : record.beginXid ≠ -db₂.view.trxId t := fun heq => hwrote ⟨record, hrecord, Or.inl heq⟩
  have hold := hsettled₂ addr record hrecord
  rw [← hid]
  rcases hvisit with hown | ⟨hb, ⟨-, hle, -⟩ | ⟨he, hne⟩⟩
  · exact absurd hown hbegin
  · exact ⟨hb, hle⟩
  · exact ⟨hb, hold hb he t hrunning₂ hne⟩

/-- A row is committed, a transaction starts, and another one deletes the row: the first one still sees it. -/
theorem snapshot_stable_deleted :
    let tables : ℕ → Table := fun _ => ⟨[], 0, [], fun _ => none⟩
    let before := [(1, Act.startIfNeed), (1, .insertRecord 0 [7] ⟨1, 0⟩), (1, .commit [⟨.insert, 0, ⟨1, 0⟩⟩])]
    let after := [(1, Act.startIfNeed), (1, .visitRecord 0 ⟨1, 0⟩ false), (1, .deleteRecord 0 ⟨1, 0⟩)]
    ∃ db db₁ db₂, (Db.create tables).runActs before = some db ∧ db.startIfNeed 0 = some (.success, db₁) ∧
      db₁.runActs after = some db₂ ∧ db₂.version (0, ⟨1, 0⟩) = some ⟨2, -4, [7]⟩ ∧ db₂.view.Sees 0 (0, ⟨1, 0⟩) [7] := by
  intro tables before after
  have hquiet : ∀ v s act, act = .startIfNeed ∨ act = .insertRecord 0 [7] ⟨1, 0⟩ ∨
      act = .visitRecord 0 ⟨1, 0⟩ false → Harmless v s act := by
    rintro v s act (rfl | rfl | rfl) <;> exact harmless_of_quiet (fun _ _ h => h.elim) (fun h => h.elim)
  have hfresh : (Db.create tables).Fresh := create_fresh fun _ => rfl
  obtain ⟨db₂, hall, hafterwards⟩ := Option.map_eq_some_iff.mp (show ((Db.create tables).runActs
    (before ++ (0, .startIfNeed) :: after)).map (fun db => (db.version (0, ⟨1, 0⟩), db.currentTrxId,
      (db.trxes 0).trxId)) = some (some ⟨2, -4, [7]⟩, 4, 3) by decide +kernel)
  simp only [Prod.mk.injEq] at hafterwards
  obtain ⟨hversion, hcurrent, hid⟩ := hafterwards
  rw [runActs_append, Option.bind_eq_some_iff] at hall
  obtain ⟨db, hbefore, hrest⟩ := hall
  obtain ⟨-, rc, db₁, hstart, hafter⟩ := runActs_cons_inv hrest
  have hone : (Db.create tables).runActs (before ++ [(0, .startIfNeed)]) = some db₁ := by
    rw [runActs_append, hbefore]
    exact runActs_cons trivial hstart rfl
  have hobserved := runActs_observed (f := fun db => (db.version (0, ⟨1, 0⟩), db.trxes 0)) hone
    (a := (some ⟨2, maxTrxId, [7]⟩, ⟨3, true, false, .empty⟩)) (by decide +kernel)
  obtain ⟨hold, htrx⟩ := Prod.mk.inj hobserved
  obtain rfl : rc = .success := by
    have heffect : Effect db.view 0 .startIfNeed rc db₁.view := step_effect trivial hstart
    generalize db₁.view = v₁ at heffect
    cases heffect <;> rfl
  have hsees : db₁.view.Sees 0 (0, ⟨1, 0⟩) [7] := by
    refine ⟨_, hold, rfl, ?_⟩
    rw [View.trxId, show db₁.view.trxes 0 = ⟨3, true, false, .empty⟩ from htrx]
    decide
  refine ⟨db, db₁, db₂, hbefore, hstart, hafter, hversion, ?_⟩
  refine ((snapshot_stable hfresh (runActs_steps ?_ hbefore) hstart (runActs_steps ?_ hafter) ?_).1 (0, ⟨1, 0⟩) [7] ?_).mp hsees
  · -- before the start
    intro i hi db' hdb'
    have hi' : i < 3 := hi
    interval_cases i
    · exact hquiet _ _ _ (Or.inl rfl)
    · exact hquiet _ _ _ (Or.inr (Or.inl rfl))
    · refine ⟨fun _ _ h => h.elim, fun _ addr record hop hrecord hend => ?_⟩
      obtain ⟨hops, hstored⟩ := Prod.mk.inj (runActs_observed (a := ([⟨.insert, 0, ⟨1, 0⟩⟩], some ⟨-1, maxTrxId, [7]⟩))
        (f := fun db => ((db.trxes 1).operations.toList, db.version (0, ⟨1, 0⟩))) hdb' (by decide +kernel))
      have hop' : (⟨.insert, addr.1, addr.2⟩ : Operation) ∈ (db'.trxes 1).operations.toList := hop
      rw [hops, List.mem_singleton, Operation.mk.injEq] at hop'
      obtain rfl : addr = (0, ⟨1, 0⟩) := Prod.ext hop'.2.1 hop'.2.2
      obtain rfl := Option.some.inj (hstored.symm.trans hrecord)
      exact absurd hend (by decide)
  · -- after the start
    intro i hi db' hdb'
    have hi' : i < 3 := hi
    interval_cases i
    · exact ⟨hquiet _ _ _ (Or.inl rfl), keeps_of_ne (show 1 ≠ 0 by decide)⟩
    · exact ⟨hquiet _ _ _ (Or.inr (Or.inr rfl)), keeps_of_ne (show 1 ≠ 0 by decide)⟩
    · refine ⟨⟨?_, fun h => h.elim⟩, keeps_of_ne (show 1 ≠ 0 by decide)⟩
      rintro addr record ⟨rfl, hrecord, -⟩
      have hcalls : (Db.create tables).runActs (before ++ (0, .startIfNeed) :: after.take 2) = some db' := by
        rw [runActs_append, hbefore]
        exact runActs_cons trivial hstart hdb'
      obtain ⟨hstored, htrx⟩ := Prod.mk.inj (runActs_observed (a := (some ⟨2, maxTrxId, [7]⟩, ⟨3, true, false, .empty⟩))
        (f := fun db => (db.version (0, ⟨1, 0⟩), db.trxes 0)) hcalls (by decide +kernel))
      obtain rfl := Option.some.inj (hstored.symm.trans hrecord)
      refine Or.inr ⟨by decide, fun s' hs' hne => ?_⟩
      by_cases hzero : s' = 0
      · rw [hzero, View.trxId, show db'.view.trxes 0 = ⟨3, true, false, .empty⟩ from htrx]
        decide
      · have hidle := runActs_trxes hcalls (s := s') (by
          intro call hcall
          fin_cases hcall <;> assumption)
        rw [View.Running, show db'.view.trxes s' = ⟨-1, false, false, .empty⟩ from hidle] at hs'
        cases hs'
  · rw [hcurrent]
    decide
  · rintro ⟨record, hrecord, hwrote⟩
    obtain rfl := Option.some.inj (hversion.symm.trans hrecord)
    rw [View.trxId, show (db₂.view.trxes 0).trxId = 3 from hid] at hwrote
    exact absurd hwrote (by decide)

/-- A transaction does not see the row that is committed after its start, until the row is deleted. -/
theorem snapshot_deleted_row_appears :
    let tables : ℕ → Table := fun _ => ⟨[], 0, [], fun _ => none⟩
    let calls := [(1, Act.startIfNeed), (1, .insertRecord 0 [7] ⟨1, 0⟩), (1, .commit [⟨.insert, 0, ⟨1, 0⟩⟩]),
      (2, .startIfNeed), (2, .visitRecord 0 ⟨1, 0⟩ false), (2, .deleteRecord 0 ⟨1, 0⟩)]
    ∃ db₁ db₂, (Db.create tables).startIfNeed 0 = some (.success, db₁) ∧ db₁.runActs calls = some db₂ ∧
      ¬ db₂.view.Wrote 0 (0, ⟨1, 0⟩) ∧ ¬ db₁.view.Sees 0 (0, ⟨1, 0⟩) [7] ∧ db₂.view.Sees 0 (0, ⟨1, 0⟩) [7] := by
  intro tables calls
  obtain ⟨db₂, hall, hobserved⟩ := Option.map_eq_some_iff.mp (show ((Db.create tables).runActs
    ((0, .startIfNeed) :: calls)).map (fun db => (db.version (0, ⟨1, 0⟩), (db.trxes 0).trxId)) =
      some (some ⟨3, -4, [7]⟩, 1) by decide +kernel)
  obtain ⟨hversion, hid⟩ := Prod.mk.inj hobserved
  obtain ⟨-, rc, db₁, hstart, hcalls⟩ := runActs_cons_inv hall
  obtain ⟨rfl, rfl⟩ := Prod.mk.inj (Option.some.inj hstart)
  have htrx : db₂.view.trxId 0 = 1 := hid
  refine ⟨_, db₂, rfl, hcalls, ?_, ?_, ⟨_, hversion, rfl, by rw [htrx]; decide⟩⟩
  · rintro ⟨record, hrecord, hwrote⟩
    obtain rfl := Option.some.inj (hversion.symm.trans hrecord)
    rw [htrx] at hwrote
    exact absurd hwrote (by decide)
  · rintro ⟨record, hrecord, -⟩
    cases hrecord

end Landbase.Trx
