import Landbase.Trx.LogBuffer
import Landbase.Trx.LostUpdate

/-! # Own writes

What a transaction deletes or updates is gone for itself at once, and for all that start after its commit. This holds
for versions that were committed before; `visit_record` looks at the inserting transaction first, so a transaction goes
on seeing what it has itself inserted and deleted, and its commit leaves the mark on that version for ever.
-/

namespace Landbase.Trx
open Landbase.Storage
set_option autoImplicit false

/-- The caller has found that the transaction may write the version: `visit_record(readonly = false)` accepts it. -/
def Checked (v : View) (s : ℕ) (act : Act) : Prop :=
  ∀ addr ∈ act.target, ∀ record ∈ v.version addr, Trx.visitRecord (v.trxId s) record false = .success

/-- The version that is deleted or updated is a committed one, and no committed transaction has deleted it. -/
def Foreign (v : View) (act : Act) : Prop :=
  ∀ addr ∈ act.target, ∀ record ∈ v.version addr,
    0 < record.beginXid ∧ (record.endXid < 0 ∨ record.endXid = maxTrxId)

def OwnOrder (v : View) (s : ℕ) (act : Act) : Prop := Checked v s act ∧ Foreign v act

theorem Checked.proper {v : View} {s : ℕ} {act : Act} (hchecked : Checked v s act) : Proper v s act := by
  cases act with
  | deleteRecord table rid =>
    intro record hrecord hnew hbegin
    have hvisit := hchecked (table, rid) rfl record hrecord
    simp only [visitRecord] at hvisit
    split_ifs at hvisit <;> omega
  | _ => trivial

theorem ownOrder_of_none {v : View} {s : ℕ} {act : Act} (h : act.target = none) : OwnOrder v s act := by
  refine ⟨fun addr haddr => ?_, fun addr haddr => ?_⟩
  · rw [h] at haddr
    cases haddr
  · rw [h] at haddr
    cases haddr

theorem Foreign.unended {v : View} {act : Act} (h : Foreign v act) : Unended v act :=
  fun addr haddr record hrecord => (h addr haddr record hrecord).2

theorem OwnOrder.newest {v : View} {s : ℕ} {act : Act} (h : OwnOrder v s act) (hv : Inv v) (hs : v.Running s)
    {addr : ℕ × RID} (htarget : act.target = some addr) {record : Record} (hrecord : v.version addr = some record) :
    0 < record.beginXid ∧ record.endXid = maxTrxId := by
  obtain ⟨hbegin, hend⟩ := h.2 addr htarget record hrecord
  have hrange := hv.range addr record hrecord
  have hvisit := (visit_write (hv.ids s hs).1 record hrange.begin_ne hrange.end_ne).mp (h.1 addr htarget record hrecord)
  have hpos := (hv.ids s hs).1
  refine ⟨hbegin, hend.resolve_left ?_⟩
  omega

theorem Act.Marks.target {v : View} {s : ℕ} {act : Act} {addr : ℕ × RID} {record : Record}
    (h : act.Marks v s addr record) : act.target = some addr ∧ v.version addr = some record := by
  cases act with
  | deleteRecord table rid => exact ⟨congrArg some h.1.symm, h.2.1⟩
  | updateRecord table rid newData newRid => exact ⟨congrArg some h.1.symm, h.2.1⟩
  | _ => exact h.elim

/-! ## Until the transaction ends -/

/-- The transaction of session `t` has deleted or updated the version at this address. -/
structure Gone (v : View) (t : ℕ) (addr : ℕ × RID) : Prop where
  running : v.Running t
  marked : ∃ record, v.version addr = some record ∧ 0 < record.beginXid ∧ record.endXid = -v.trxId t
  operation : ⟨.delete, addr.1, addr.2⟩ ∈ v.operations t

theorem Effect.operations_mono {v v' : View} {s t : ℕ} {act : Act} {rc : RC} (h : Effect v s act rc v')
    (hkeeps : Keeps t s act) {op : Operation} (hop : op ∈ v.operations t) :
    op ∈ v'.operations t := by
  cases h with
  | start hstarted hops =>
    rw [View.startTrx_operations]
    exact hop
  | insert hstarted table data rid hfree rc hrc => exact (View.mem_addOperation _ s t _ op).mpr (Or.inl hop)
  | delete hstarted table rid record hrecord hnew => exact (View.mem_addOperation _ s t _ op).mpr (Or.inl hop)
  | update hstarted table rid newData newRid record hrecord hfree hvisit =>
    exact (View.mem_addOperation _ s t _ op).mpr (Or.inl ((View.mem_addOperation _ s t _ op).mpr (Or.inl hop)))
  | commit hstarted order version hwalk =>
    rw [View.endTrx_operations, if_neg (fun heq => (hkeeps heq.symm).1 trivial)]
    exact hop
  | rollback hstarted order version hwalk =>
    rw [View.endTrx_operations, if_neg (fun heq => (hkeeps heq.symm).2 trivial)]
    exact hop
  | _ => exact hop

theorem Gone.of_write {v v' : View} {t : ℕ} {act : Act} {addr : ℕ × RID} (hv : Inv v)
    (h : Effect v t act .success v') (horder : OwnOrder v t act) (htarget : act.target = some addr) :
    Gone v' t addr := by
  obtain ⟨ht, record, hrecord, -, hversion⟩ := h.target_marked hv htarget horder.2.unended
  obtain ⟨hbegin, hnew⟩ := horder.newest hv ht htarget hrecord
  have hkeeps : Keeps t t act := by
    cases act with
    | commit order => cases htarget
    | rollback order => cases htarget
    | _ => exact fun _ => ⟨fun hc => hc, fun hc => hc⟩
  obtain ⟨hrunning, hid⟩ := h.keeps ht hkeeps
  refine ⟨hrunning, ⟨_, hversion, hbegin, by rw [hid]⟩, ?_⟩
  -- no operation is about a version without a mark, so this one is added
  have hfresh : (⟨.delete, addr.1, addr.2⟩ : Operation).addr ∉ (v.operations t).map Operation.addr := by
    intro hmem
    obtain ⟨op, hop, haddr⟩ := List.mem_map.mp hmem
    exact hv.untouched hrecord hbegin (by rw [hnew]; decide) hop haddr
  generalize hrc : RC.success = rc at h
  cases h with
  | deleteOld table rid stored hstored hpos hold =>
    obtain rfl := Option.some.inj htarget
    obtain rfl := Option.some.inj (hstored.symm.trans hrecord)
    exact absurd hnew hold
  | delete hstarted table rid stored hstored _ =>
    obtain rfl := Option.some.inj htarget
    exact (View.mem_addOperation _ t t _ _).mpr (Or.inr ⟨rfl, rfl, hfresh⟩)
  | updateConflict table rid newData newRid stored hstored hvisit => exact absurd hrc.symm hvisit
  | updateRefused hstarted table rid newData newRid stored hstored hvisit rc hrefused =>
    exact absurd hrc.symm hrefused
  | update hstarted table rid newData newRid stored hstored hfree hvisit =>
    obtain rfl := Option.some.inj htarget
    refine (View.mem_addOperation _ t t _ _).mpr (Or.inl ?_)
    exact (View.mem_addOperation _ t t _ _).mpr (Or.inr ⟨rfl, rfl, hfresh⟩)
  | _ => cases htarget

theorem Gone.step {v v' : View} {s t : ℕ} {act : Act} {rc : RC} {addr : ℕ × RID} (hg : Gone v t addr) (hv : Inv v)
    (h : Effect v s act rc v') (horder : OwnOrder v s act) (hkeeps : Keeps t s act) : Gone v' t addr := by
  obtain ⟨ht, ⟨record, hrecord, hbegin, hend⟩, hop⟩ := hg
  obtain ⟨hrunning, hid⟩ := h.keeps ht hkeeps
  have hids := hv.ids t ht
  refine ⟨hrunning, ?_, h.operations_mono hkeeps hop⟩
  rw [hid]
  have hchange := hv.change h horder.1.proper addr
  rw [hrecord] at hchange
  generalize hslot : v'.version addr = slot at hchange
  cases hchange with
  | same => exact ⟨record, rfl, hbegin, hend⟩
  | marked hs _ hmarks _ =>
    have hnew := (horder.newest hv hs hmarks.target.1 hrecord).2
    have hmax := hv.current_lt
    omega
  | insertCommitted _ hact hop' hbegin' =>
    have hids' := hv.ids s (hv.running_of_mem hop')
    omega
  | deleteCommitted _ hact hop' _ hend' =>
    have heq := hv.distinct s t (hv.running_of_mem hop') ht (by omega)
    exact absurd hact (hkeeps heq).1
  | insertUndone _ hact hop' hbegin' =>
    have hids' := hv.ids s (hv.running_of_mem hop')
    omega
  | deleteUndone _ hact hop' _ hend' =>
    have heq := hv.distinct s t (hv.running_of_mem hop') ht (by omega)
    exact absurd hact (hkeeps heq).2

theorem Gone.invisible {v : View} {t : ℕ} {addr : ℕ × RID} (hg : Gone v t addr) (hv : Inv v) {record : Record}
    (hrecord : v.version addr = some record) (readonly : Bool) :
    Trx.visitRecord (v.trxId t) record readonly ≠ .success := by
  obtain ⟨ht, ⟨stored, hstored, hbegin, hend⟩, -⟩ := hg
  obtain rfl := Option.some.inj (hstored.symm.trans hrecord)
  have hids := hv.ids t ht
  intro hvisit
  simp only [visitRecord] at hvisit
  split_ifs at hvisit <;> omega

/-! ## After the commit -/

/-- The version at this address was deleted by the commit with this id. -/
def Ended (v : View) (addr : ℕ × RID) (commitXid : ℤ) : Prop :=
  ∃ record, v.version addr = some record ∧ 0 < record.beginXid ∧ record.endXid = commitXid

theorem Gone.commit {v v' : View} {t : ℕ} {order : List Operation} {rc : RC} {addr : ℕ × RID} (hg : Gone v t addr)
    (h : Effect v t (.commit order) rc v') : Ended v' addr v'.current := by
  obtain ⟨ht, ⟨record, hrecord, hbegin, hend⟩, hop⟩ := hg
  cases h with
  | commit hstarted _ version hwalk =>
    obtain ⟨stored, slot, hstored, hslot, hversion⟩ := hwalk.here _ hop
    obtain rfl := Option.some.inj (hrecord.symm.trans hstored)
    rw [commitRecord] at hslot
    obtain rfl := Option.some.inj ((if_pos hend).symm.trans hslot)
    exact ⟨_, hversion, hbegin, rfl⟩

theorem Ended.step {v v' : View} {s : ℕ} {act : Act} {rc : RC} {addr : ℕ × RID} {commitXid : ℤ}
    (he : Ended v addr commitXid) (hpos : 0 < commitXid) (hlt : commitXid < maxTrxId) (hv : Inv v)
    (h : Effect v s act rc v') (horder : OwnOrder v s act) : Ended v' addr commitXid := by
  obtain ⟨record, hrecord, hbegin, hend⟩ := he
  have hchange := hv.change h horder.1.proper addr
  rw [hrecord] at hchange
  unfold Ended
  generalize hslot : v'.version addr = slot at hchange
  cases hchange with
  | same => exact ⟨record, rfl, hbegin, hend⟩
  | marked hs _ hmarks _ =>
    have hnew := (horder.newest hv hs hmarks.target.1 hrecord).2
    omega
  | insertCommitted _ hact hop' hbegin' =>
    have hids' := hv.ids s (hv.running_of_mem hop')
    omega
  | deleteCommitted _ hact hop' _ hend' =>
    have hids' := hv.ids s (hv.running_of_mem hop')
    omega
  | insertUndone _ hact hop' hbegin' =>
    have hids' := hv.ids s (hv.running_of_mem hop')
    omega
  | deleteUndone _ hact hop' _ hend' =>
    have hids' := hv.ids s (hv.running_of_mem hop')
    omega

theorem Ended.invisible {v : View} {addr : ℕ × RID} {commitXid : ℤ} (he : Ended v addr commitXid) (hpos : 0 < commitXid)
    {record : Record} (hrecord : v.version addr = some record) {trxId : ℤ} (hlater : commitXid < trxId)
    (readonly : Bool) : Trx.visitRecord trxId record readonly ≠ .success := by
  obtain ⟨stored, hstored, hbegin, hend⟩ := he
  obtain rfl := Option.some.inj (hstored.symm.trans hrecord)
  intro hvisit
  simp only [visitRecord] at hvisit
  split_ifs at hvisit <;> omega

/-! ## The assertions -/

/-- A loop over operations about different records, each of which can be carried out while `I` holds. -/
theorem foldlM_isSome {I : (ℕ → Table) → Prop} {f : Operation → Record → Option (Option Record)}
    {round : (ℕ → Table) → Operation → Option (ℕ → Table)}
    (hround : ∀ tables op record slot, I tables → versionOf tables op.addr = some record → f op record = some slot →
      ∃ tables', round tables op = some tables' ∧ I tables' ∧
        versionOf tables' = Function.update (versionOf tables) op.addr slot)
    {order : List Operation} (hnodup : (order.map Operation.addr).Nodup) {tables : ℕ → Table} (h : I tables)
    (hops : ∀ op ∈ order, ∃ record slot, versionOf tables op.addr = some record ∧ f op record = some slot) :
    ∃ tables', order.foldlM round tables = some tables' ∧ I tables' := by
  induction order generalizing tables with
  | nil => exact ⟨tables, rfl, h⟩
  | cons op order ih =>
    rw [List.map_cons, List.nodup_cons] at hnodup
    obtain ⟨record, slot, hrecord, hslot⟩ := hops op (by simp)
    obtain ⟨tables₁, hfirst, h₁, hversion⟩ := hround tables op record slot h hrecord hslot
    have hrest : ∀ op' ∈ order, ∃ record slot, versionOf tables₁ op'.addr = some record ∧ f op' record = some slot := by
      intro op' hop'
      have hne : op'.addr ≠ op.addr := by
        intro heq
        exact hnodup.1 (heq ▸ List.mem_map_of_mem hop')
      rw [hversion, Function.update_of_ne hne]
      exact hops op' (by simp [hop'])
    obtain ⟨tables', htables', h'⟩ := ih hnodup.2 h₁ hrest
    refine ⟨tables', ?_, h'⟩
    rw [List.foldlM_cons, hfirst]
    exact htables'

theorem commitOperation_isSome {trxId commitXid : ℤ} {tables : ℕ → Table} {op : Operation} {record : Record}
    {slot : Option Record} (hrecord : versionOf tables op.addr = some record)
    (hslot : commitRecord trxId commitXid op record = some slot) :
    ∃ tables', Db.commitOperation trxId commitXid tables op = some tables' ∧
      versionOf tables' = Function.update (versionOf tables) op.addr slot := by
  have hsome : ∃ tables', Db.commitOperation trxId commitXid tables op = some tables' := by
    unfold commitRecord at hslot
    unfold Db.commitOperation
    cases htype : op.type with
    | insert =>
      simp only [htype] at hslot ⊢
      split at hslot
      · next hbegin => simp [hrecord, hbegin]
      · cases hslot
    | delete =>
      simp only [htype] at hslot ⊢
      split at hslot
      · next hend => simp [hrecord, hend]
      · cases hslot
    | update => simp [htype] at hslot
  obtain ⟨tables', htables'⟩ := hsome
  obtain ⟨stored, slot', hstored, hslot', hversion⟩ := commitOperation_spec htables'
  obtain rfl := Option.some.inj (hstored.symm.trans hrecord)
  obtain rfl := Option.some.inj (hslot'.symm.trans hslot)
  exact ⟨tables', htables', hversion⟩

theorem commit_isSome {db : Db} {s : ℕ} {order : List Operation} (hv : Inv db.view)
    (hperm : order.Perm (db.trxes s).operations.toList) : (db.commit s order).isSome := by
  have hnodup : (order.map Operation.addr).Nodup :=
    (hperm.map Operation.addr).nodup_iff.mpr (db.trxes s).operations.nodup
  have hops : ∀ op ∈ order, ∃ record slot, versionOf db.tables op.addr = some record ∧
      commitRecord (db.trxes s).trxId (db.currentTrxId + 1) op record = some slot := by
    intro op hop
    obtain ⟨record, hrecord, hcase⟩ := hv.stored (show op ∈ db.view.operations s from hperm.mem_iff.mp hop)
    unfold commitRecord
    rcases hcase with ⟨htype, hbegin⟩ | ⟨htype, -, hend⟩
    · exact ⟨record, _, hrecord, by simp only [htype]; exact if_pos hbegin⟩
    · exact ⟨record, _, hrecord, by simp only [htype]; exact if_pos hend⟩
  have hround : ∀ tables op record slot, True → versionOf tables op.addr = some record →
      commitRecord (db.trxes s).trxId (db.currentTrxId + 1) op record = some slot → ∃ tables',
        Db.commitOperation (db.trxes s).trxId (db.currentTrxId + 1) tables op = some tables' ∧ True ∧
          versionOf tables' = Function.update (versionOf tables) op.addr slot := by
    intro tables op record slot _ hrecord hslot
    obtain ⟨tables', htables', hversion⟩ := commitOperation_isSome hrecord hslot
    exact ⟨tables', htables', trivial, hversion⟩
  obtain ⟨tables, htables, -⟩ := foldlM_isSome hround hnodup trivial hops
  unfold Db.commit Db.commitWithTrxId
  simp only [htables, Option.bind_eq_bind, Option.bind_some]
  split <;> rfl

theorem deleteRecord_isSome {db : Db} {s table : ℕ} {rid : RID} (hv : Inv db.view) (hs : db.view.Running s)
    (horder : OwnOrder db.view s (.deleteRecord table rid)) {record : Record}
    (hrecord : db.version (table, rid) = some record) : (db.deleteRecord s table rid).isSome := by
  have hnew := (horder.newest hv hs rfl hrecord).2
  unfold Db.deleteRecord
  simp only [show (db.tables table).records rid = some record from hrecord, Option.bind_eq_bind, Option.bind_some, hnew]
  rfl

/-! ## Whole runs -/

theorem Gone.run {db₁ db₂ : Db} {t : ℕ} {addr : ℕ × RID} (hg : Gone db₁.view t addr) (hv : Inv db₁.view)
    (hrun : Relation.ReflTransGen (Step fun v s act => OwnOrder v s act ∧ Keeps t s act) db₁ db₂)
    (hlt : db₂.currentTrxId < maxTrxId) : Gone db₂.view t addr ∧ Inv db₂.view := by
  induction hrun with
  | refl => exact ⟨hg, hv⟩
  | tail _ hstep ih =>
    obtain ⟨s, act, rc, hpossible, ⟨horder, hkeeps⟩, hcall⟩ := hstep
    have heffect := step_effect hpossible hcall
    obtain ⟨hg', hv'⟩ := ih (lt_of_le_of_lt heffect.current_le hlt)
    exact ⟨hg'.step hv' heffect horder hkeeps, hv'.step heffect horder.1.proper hlt⟩

theorem Ended.run {db₁ db₂ : Db} {addr : ℕ × RID} {commitXid : ℤ} (he : Ended db₁.view addr commitXid)
    (hpos : 0 < commitXid) (hcommit : commitXid < maxTrxId) (hv : Inv db₁.view)
    (hrun : Relation.ReflTransGen (Step OwnOrder) db₁ db₂) (hlt : db₂.currentTrxId < maxTrxId) :
    Ended db₂.view addr commitXid := by
  induction hrun with
  | refl => exact he
  | tail hrun hstep ih =>
    obtain ⟨s, act, rc, hpossible, horder, hcall⟩ := hstep
    have heffect := step_effect hpossible hcall
    have hlt' := lt_of_le_of_lt heffect.current_le hlt
    exact (ih hlt').step hpos hcommit (hv.run (fun _ _ _ h => h.1.proper) hrun hlt') heffect horder

/-- In every run in which no transaction deletes or updates what it has itself inserted, nor what a committed
transaction has deleted, and in which the log buffer has room for every call: deletions and commits pass their assertions
(that on the code of `append_log` among them), a transaction does not see what it has deleted or updated, and after its
commit none that starts later sees it. -/
theorem own_writes {db₀ db : Db} (hfresh : db₀.Fresh) (hrun : Relation.ReflTransGen (LoggedStep OwnOrder) db₀ db)
    (hlt : db.currentTrxId < maxTrxId) :
    (∀ s table rid record, (db.trxes s).started = true → OwnOrder db.view s (.deleteRecord table rid) →
      db.version (table, rid) = some record → Roomy db (.deleteRecord table rid) →
      (db.stepLogged s (.deleteRecord table rid)).isSome) ∧
    (∀ s order, (Act.commit order).Possible db s → Roomy db (.commit order) →
      ∃ db', db.stepLogged s (.commit order) = some (.success, db')) ∧
    ∀ t act addr db₁ db₂, act.Possible db t → OwnOrder db.view t act → act.target = some addr → Roomy db act →
      db.stepLogged t act = some (.success, db₁) →
      Relation.ReflTransGen (LoggedStep fun v s act => OwnOrder v s act ∧ Keeps t s act) db₁ db₂ →
      db₂.currentTrxId < maxTrxId →
      (∀ record readonly, db₂.version addr = some record →
        visitRecord (db₂.view.trxId t) record readonly ≠ .success) ∧
      ∀ order rc db₃ db₄ s, (Act.commit order).Possible db₂ t → Roomy db₂ (.commit order) →
        db₂.stepLogged t (.commit order) = some (rc, db₃) →
        Relation.ReflTransGen (LoggedStep OwnOrder) db₃ db₄ → db₄.currentTrxId < maxTrxId →
        db₃.currentTrxId < db₄.view.trxId s → ∀ record readonly, db₄.version addr = some record →
          visitRecord (db₄.view.trxId s) record readonly ≠ .success := by
  have hv : Inv db.view := hfresh.inv.run (fun _ _ _ h => h.1.proper) (LoggedStep.run hrun) hlt
  refine ⟨fun s table rid record hs horder hrecord hroom => ?_, fun s order hpossible hroom => ?_, ?_⟩
  · rw [stepLogged_eq hroom]
    exact deleteRecord_isSome hv hs horder hrecord
  · obtain ⟨⟨rc, db'⟩, hcommit⟩ := Option.isSome_iff_exists.mp (commit_isSome hv hpossible.2)
    have heffect : Effect db.view s (.commit order) rc db'.view := step_effect hpossible hcommit
    refine ⟨db', ?_⟩
    rw [stepLogged_eq hroom]
    generalize db'.view = v' at heffect
    cases heffect
    exact hcommit
  intro t act addr db₁ db₂ hpossible horder htarget hroom hcall hrun₂ hlt₂
  rw [stepLogged_eq hroom] at hcall
  have hrun₂ := LoggedStep.run hrun₂
  have heffect := step_effect hpossible hcall
  have hlt₁ : db₁.currentTrxId < maxTrxId := lt_of_le_of_lt (current_le_of_run hrun₂) hlt₂
  have hv₁ : Inv db₁.view := hv.step heffect horder.1.proper hlt₁
  obtain ⟨hgone, hv₂⟩ := (Gone.of_write hv heffect horder htarget).run hv₁ hrun₂ hlt₂
  refine ⟨fun record readonly hrecord => hgone.invisible hv₂ hrecord readonly, ?_⟩
  intro order rc db₃ db₄ s hpossible₂ hroom₂ hcommit hrun₄ hlt₄ hlater record readonly hrecord
  rw [stepLogged_eq hroom₂] at hcommit
  have hrun₄ := LoggedStep.run hrun₄
  have heffect₂ : Effect db₂.view t (.commit order) rc db₃.view := step_effect hpossible₂ hcommit
  have hlt₃ : db₃.currentTrxId < maxTrxId := lt_of_le_of_lt (current_le_of_run hrun₄) hlt₄
  have hv₃ : Inv db₃.view := hv₂.step heffect₂ trivial hlt₃
  have hpos : 0 < db₃.view.current := by
    rw [heffect₂.current_of_commit trivial]
    have := hv₂.current_nonneg
    omega
  have hended : Ended db₄.view addr db₃.view.current := (hgone.commit heffect₂).run hpos hlt₃ hv₃ hrun₄ hlt₄
  exact hended.invisible hpos hrecord hlater readonly

/-- A committed row is deleted; neither the transaction nor, after its commit, a later one sees it. -/
theorem own_writes_deleted :
    let tables : ℕ → Table := fun _ => ⟨[], 0, [], fun _ => none⟩
    let calls := [(0, Act.startIfNeed), (0, .insertRecord 0 [7] ⟨1, 0⟩), (0, .commit [⟨.insert, 0, ⟨1, 0⟩⟩]),
      (1, .startIfNeed)]
    ∃ db db₁ db₂ db₃, (Db.create tables).runActs calls = some db ∧
      db.stepLogged 1 (.deleteRecord 0 ⟨1, 0⟩) = some (.success, db₁) ∧ db₁.version (0, ⟨1, 0⟩) = some ⟨2, -3, [7]⟩ ∧
      visitRecord (db₁.view.trxId 1) ⟨2, -3, [7]⟩ true ≠ .success ∧
      db₁.stepLogged 1 (.commit [⟨.delete, 0, ⟨1, 0⟩⟩]) = some (.success, db₂) ∧
      db₂.runActs [(2, .startIfNeed)] = some db₃ ∧ db₃.version (0, ⟨1, 0⟩) = some ⟨2, 4, [7]⟩ ∧
      visitRecord (db₃.view.trxId 2) ⟨2, 4, [7]⟩ true ≠ .success := by
  intro tables calls
  obtain ⟨db₃, hall, hobserved⟩ := Option.map_eq_some_iff.mp (show ((Db.create tables).runActs (calls ++
    [(1, .deleteRecord 0 ⟨1, 0⟩), (1, .commit [⟨.delete, 0, ⟨1, 0⟩⟩]), (2, .startIfNeed)])).map (fun db =>
      (db.version (0, ⟨1, 0⟩), decide (db.currentTrxId < maxTrxId), (db.trxes 2).trxId)) =
        some (some ⟨2, 4, [7]⟩, true, 5) by decide +kernel)
  simp only [Prod.mk.injEq, decide_eq_true_eq] at hobserved
  obtain ⟨hversion₃, hlt₃, hid₃⟩ := hobserved
  rw [runActs_append, Option.bind_eq_some_iff] at hall
  obtain ⟨db, hrun, hall⟩ := hall
  obtain ⟨hpossible, rc, db₁, hdelete, hrest⟩ := runActs_cons_inv hall
  obtain ⟨hpossible₁, rc₁, db₂, hcommit, hstart⟩ := runActs_cons_inv hrest
  have hcalls₁ : (Db.create tables).runActs (calls ++ [(1, .deleteRecord 0 ⟨1, 0⟩)]) = some db₁ := by
    rw [runActs_append, hrun]
    exact runActs_cons hpossible hdelete rfl
  obtain ⟨hstored, htrx, hlt⟩ := by
    simpa only [Prod.mk.injEq] using runActs_observed (f := fun db => (db.version (0, ⟨1, 0⟩), (db.trxes 1).trxId,
      db.currentTrxId)) (a := (some ⟨2, maxTrxId, [7]⟩, 3, 3)) hrun (by decide +kernel)
  obtain ⟨hversion₁, htrx₁, hlt₁⟩ := by
    simpa only [Prod.mk.injEq] using runActs_observed (f := fun db => (db.version (0, ⟨1, 0⟩), (db.trxes 1).trxId,
      db.currentTrxId)) (a := (some ⟨2, -3, [7]⟩, 3, 3)) hcalls₁ (by decide +kernel)
  have hrc : rc = .success := by
    have heffect : Effect db.view 1 (.deleteRecord 0 ⟨1, 0⟩) rc db₁.view := step_effect hpossible hdelete
    generalize db₁.view = v₁ at heffect
    cases heffect <;> rfl
  have hrc₁ : rc₁ = .success := by
    have heffect : Effect db₁.view 1 (.commit [⟨.delete, 0, ⟨1, 0⟩⟩]) rc₁ db₂.view := step_effect hpossible₁ hcommit
    generalize db₂.view = v₂ at heffect
    cases heffect
    rfl
  subst hrc hrc₁
  have horder : OwnOrder db.view 1 (.deleteRecord 0 ⟨1, 0⟩) := by
    have hid : db.view.trxId 1 = 3 := htrx
    refine ⟨fun addr haddr record hrecord => ?_, fun addr haddr record hrecord => ?_⟩
    · obtain rfl := Option.some.inj haddr
      obtain rfl := Option.some.inj (hstored.symm.trans hrecord)
      rw [hid]
      decide
    · obtain rfl := Option.some.inj haddr
      obtain rfl := Option.some.inj (hstored.symm.trans hrecord)
      exact ⟨by decide, Or.inr rfl⟩
  -- the buffer has room all along
  have hroomy : ∀ i : Fin 4, ((Db.create tables).runActs (calls.take i)).all
      (fun db => decide (Roomy db (calls.get i).2)) = true := by decide +kernel
  have hroom := runActs_observed (f := fun db => decide (Roomy db (.deleteRecord 0 ⟨1, 0⟩))) (a := true) hrun
    (by decide +kernel)
  have hroom₁ := runActs_observed (f := fun db => decide (Roomy db (.commit [⟨.delete, 0, ⟨1, 0⟩⟩]))) (a := true) hcalls₁
    (by decide +kernel)
  have hcalls₂ : (Db.create tables).runActs (calls ++ [(1, .deleteRecord 0 ⟨1, 0⟩), (1, .commit [⟨.delete, 0, ⟨1, 0⟩⟩])]) =
      some db₂ := by
    rw [runActs_append, hrun]
    exact runActs_cons hpossible hdelete (runActs_cons hpossible₁ hcommit rfl)
  have hroom₂ := runActs_observed (f := fun db => decide (Roomy db .startIfNeed)) (a := true) hcalls₂ (by decide +kernel)
  simp only [decide_eq_true_eq] at hroom hroom₁ hroom₂
  have hbefore : Relation.ReflTransGen (LoggedStep OwnOrder) (Db.create tables) db := by
    refine runActs_loggedSteps (fun i hi db' hdb' => ⟨?_, ?_⟩) hrun
    · exact ownOrder_of_none ((by decide : ∀ call ∈ calls, call.2.target = none) _ (List.get_mem calls ⟨i, hi⟩))
    · have hi' := hroomy ⟨i, hi⟩
      rw [hdb'] at hi'
      simpa using hi'
  have hlast : Relation.ReflTransGen (LoggedStep OwnOrder) db₂ db₃ := by
    refine runActs_loggedSteps (fun i hi db' hdb' => ?_) hstart
    obtain rfl : i = 0 := Nat.lt_one_iff.mp hi
    obtain rfl : db₂ = db' := by simpa [Db.runActs] using hdb'
    exact ⟨ownOrder_of_none rfl, hroom₂⟩
  obtain ⟨-, -, hwrites⟩ := own_writes (create_fresh fun _ => rfl) hbefore (by rw [hlt]; decide)
  have hdelete' : db.stepLogged 1 (.deleteRecord 0 ⟨1, 0⟩) = some (.success, db₁) := (stepLogged_eq hroom 1).trans hdelete
  have hcommit' : db₁.stepLogged 1 (.commit [⟨.delete, 0, ⟨1, 0⟩⟩]) = some (.success, db₂) :=
    (stepLogged_eq hroom₁ 1).trans hcommit
  obtain ⟨hown, hlater⟩ := hwrites 1 (.deleteRecord 0 ⟨1, 0⟩) (0, ⟨1, 0⟩) db₁ db₁ hpossible horder rfl hroom hdelete' .refl
    (by rw [hlt₁]; decide)
  have hafter : db₂.currentTrxId < db₃.view.trxId 2 := by
    have hcurrent : db₂.currentTrxId = db₁.currentTrxId + 1 :=
      Effect.current_of_commit (step_effect hpossible₁ hcommit) trivial
    rw [hcurrent, hlt₁, View.trxId, show (db₃.view.trxes 2).trxId = 5 from hid₃]
    decide
  exact ⟨db, db₁, db₂, db₃, hrun, hdelete', hversion₁, hown _ true hversion₁, hcommit', hstart, hversion₃,
    hlater _ _ db₂ db₃ 2 hpossible₁ hroom₁ hcommit' hlast hlt₃ hafter _ true hversion₃⟩

/-- A transaction inserts a row and deletes it: it still sees the row, a second deletion fails the assertion, and after
the commit a later transaction sees the row too. -/
theorem own_insert_deleted :
    let tables : ℕ → Table := fun _ => ⟨[], 0, [], fun _ => none⟩
    let calls := [(0, Act.startIfNeed), (0, .insertRecord 0 [7] ⟨1, 0⟩), (0, .visitRecord 0 ⟨1, 0⟩ false),
      (0, .deleteRecord 0 ⟨1, 0⟩)]
    let later := [(0, Act.commit [⟨.insert, 0, ⟨1, 0⟩⟩]), (1, .startIfNeed)]
    ∃ db db', (Db.create tables).runActs calls = some db ∧
      (db.step 0 (.visitRecord 0 ⟨1, 0⟩ true)).map Prod.fst = some .success ∧
      db.deleteRecord 0 0 ⟨1, 0⟩ = none ∧ db.runActs later = some db' ∧
      (db'.step 1 (.visitRecord 0 ⟨1, 0⟩ true)).map Prod.fst = some .success := by
  intro tables calls later
  obtain ⟨db', hall, hseen'⟩ := Option.map_eq_some_iff.mp (show ((Db.create tables).runActs (calls ++ later)).map
    (fun db => (db.step 1 (.visitRecord 0 ⟨1, 0⟩ true)).map Prod.fst) = some (some .success) by decide +kernel)
  rw [runActs_append, Option.bind_eq_some_iff] at hall
  obtain ⟨db, hcalls, hlater⟩ := hall
  obtain ⟨hseen, hfails⟩ := by
    simpa only [Prod.mk.injEq] using runActs_observed (f := fun db => ((db.step 0 (.visitRecord 0 ⟨1, 0⟩ true)).map
      Prod.fst, (db.deleteRecord 0 0 ⟨1, 0⟩).isNone)) (a := (some .success, true)) hcalls (by decide +kernel)
  exact ⟨db, db', hcalls, hseen, Option.isNone_iff_eq_none.mp hfails, hlater, hseen'⟩

end Landbase.Trx
