import Landbase.Clog.Recover

/-! # What a log says about the rows

`slots` reads off a log, without tables and transactions, which row stands in a slot: who inserted it, with which bytes, and
who deleted it. A log is well logged when each of its records fits the records before it, as the records of running
transactions do. `Survives` is the same in terms of the records of the log: the rows that the committed transactions leave.
-/

namespace Landbase.Clog
open Landbase.Storage Landbase.Trx
set_option autoImplicit false

/-! ## Transactions of a log -/

def commitIdOf (t : ℤ) : CLogRecord → Option ℤ
  | .mtrCommit t' commitXid => if t' = t then some commitXid else none
  | _ => none

/-- The id of the commit of a transaction. -/
def commitId (log : List CLogRecord) (t : ℤ) : Option ℤ := log.findSome? (commitIdOf t)

def Committed (log : List CLogRecord) (t : ℤ) : Prop := ∃ commitXid, .mtrCommit t commitXid ∈ log

/-- The transaction has begun and not ended. -/
def Open (log : List CLogRecord) (t : ℤ) : Prop :=
  .mtrBegin t ∈ log ∧ ¬ Committed log t ∧ .mtrRollback t ∉ log

/-- What the fields of a version say about a transaction: the id of its commit, or that it has not been committed. -/
def stamp (log : List CLogRecord) (t : ℤ) : ℤ := (commitId log t).getD (-t)

/-- A committed transaction has inserted the row, and no committed one has deleted it. -/
def Survives (log : List CLogRecord) (addr : ℕ × RID) (data : Bytes) : Prop :=
  (∃ t record, .insert t addr.1 addr.2 record ∈ log ∧ record.data = data ∧ Committed log t) ∧
    ∀ t, .delete t addr.1 addr.2 ∈ log → ¬ Committed log t

section Transactions

variable {log : List CLogRecord} {t : ℤ}

theorem commitIdOf_eq_some {record : CLogRecord} {c : ℤ} : commitIdOf t record = some c ↔ record = .mtrCommit t c := by
  cases record with
  | mtrCommit t' c' =>
    simp only [commitIdOf, CLogRecord.mtrCommit.injEq]
    split <;> simp_all
  | _ => simp [commitIdOf]

theorem mem_of_commitId {c : ℤ} (h : commitId log t = some c) : .mtrCommit t c ∈ log := by
  obtain ⟨record, hmem, hrecord⟩ := List.exists_of_findSome?_eq_some h
  rw [commitIdOf_eq_some] at hrecord
  exact hrecord ▸ hmem

theorem committed_iff : Committed log t ↔ (commitId log t).isSome := by
  rw [commitId, List.findSome?_isSome_iff]
  constructor
  · rintro ⟨c, hc⟩
    exact ⟨_, hc, by rw [commitIdOf_eq_some.mpr rfl]; rfl⟩
  · rintro ⟨record, hmem, hsome⟩
    obtain ⟨c, hc⟩ := Option.isSome_iff_exists.mp hsome
    exact ⟨c, commitIdOf_eq_some.mp hc ▸ hmem⟩

instance : Decidable (Committed log t) := decidable_of_iff _ committed_iff.symm

instance : Decidable (Open log t) := inferInstanceAs (Decidable (.mtrBegin t ∈ log ∧ ¬ Committed log t ∧ .mtrRollback t ∉ log))

theorem stamp_of_not_committed (h : ¬ Committed log t) : stamp log t = -t := by
  rw [committed_iff, Option.not_isSome_iff_eq_none] at h
  rw [stamp, h]
  rfl

theorem stamp_of_committed (h : Committed log t) : .mtrCommit t (stamp log t) ∈ log := by
  obtain ⟨c, hc⟩ := Option.isSome_iff_exists.mp (committed_iff.mp h)
  rw [stamp, hc]
  exact mem_of_commitId hc

end Transactions

/-! ## Rows -/

/-- The row in a slot: who inserted it, its bytes, and who deleted it. -/
structure Slot where
  writer : ℤ
  data : Bytes
  deleter : Option ℤ
  deriving DecidableEq, Repr

/-- The row without what some transactions have done to it. -/
def Slot.without (dead : ℤ → Prop) [DecidablePred dead] (s : Slot) : Option Slot :=
  if dead s.writer then none else some { s with deleter := s.deleter.filter fun t => ¬ dead t }

abbrev Slots := ℕ × RID → Option Slot

def slotStep (slots : Slots) : CLogRecord → Slots
  | .insert t table rid record => Function.update slots (table, rid) (some ⟨t, record.data, none⟩)
  | .delete t table rid =>
    Function.update slots (table, rid) ((slots (table, rid)).map fun s => { s with deleter := some t })
  | .mtrRollback t => fun addr => (slots addr).bind (Slot.without (· = t))
  | .mtrBegin _ | .mtrCommit _ _ => slots

/-- The rows that a log tells of. -/
def slots (log : List CLogRecord) : Slots := log.foldl slotStep fun _ => none

/-- A transaction that deletes its own row leaves a mark that its commit does not touch. -/
def Slot.endXid (log : List CLogRecord) (s : Slot) : ℤ :=
  match s.deleter with
  | none => maxTrxId
  | some t => if t = s.writer then -t else stamp log t

/-- The version that a row is stored as. -/
def Slot.record (log : List CLogRecord) (s : Slot) : Record := ⟨stamp log s.writer, s.endXid log, s.data⟩

/-- The operation that a transaction has noted about a row. -/
def opAt (slots : Slots) (t : ℤ) (addr : ℕ × RID) : Option OperationType :=
  match slots addr with
  | none => none
  | some s => if s.writer = t then some .insert else if s.deleter = some t then some .delete else none

/-! ## Well-logged logs -/

/-- A record fits the log before it. -/
def Fits (log : List CLogRecord) : CLogRecord → Prop
  | .mtrBegin t => 0 < t ∧ .mtrBegin t ∉ log
  | .insert t table rid record =>
    Open log t ∧ slots log (table, rid) = none ∧ record.beginXid = -t ∧ record.endXid = maxTrxId
  | .delete t table rid =>
    Open log t ∧ ∃ s, slots log (table, rid) = some s ∧ s.deleter = none ∧ (t = s.writer ∨ Committed log s.writer)
  | .mtrCommit t commitXid => Open log t ∧ 0 < commitXid ∧ commitXid < maxTrxId
  | .mtrRollback t => Open log t

inductive WellLogged : List CLogRecord → Prop
  | nil : WellLogged []
  | snoc {log : List CLogRecord} {record : CLogRecord} (h : WellLogged log) (hfits : Fits log record) :
      WellLogged (log ++ [record])

/-! ## One more record -/

section Snoc

variable (log : List CLogRecord) (record : CLogRecord) (t : ℤ)

theorem slots_snoc : slots (log ++ [record]) = slotStep (slots log) record := by
  rw [slots, List.foldl_append]
  rfl

theorem commitId_snoc : commitId (log ++ [record]) t = (commitId log t).or (commitIdOf t record) := by
  simp [commitId, List.findSome?_append]

theorem committed_snoc : Committed (log ++ [record]) t ↔ Committed log t ∨ ∃ c, record = .mtrCommit t c := by
  unfold Committed
  simp only [List.mem_append, List.mem_singleton, exists_or, eq_comm]

theorem mem_snoc {other : CLogRecord} : other ∈ log ++ [record] ↔ other ∈ log ∨ other = record := by
  rw [List.mem_append, List.mem_singleton]

variable {log record t}

theorem stamp_snoc (h : ∀ c, record ≠ .mtrCommit t c) : stamp (log ++ [record]) t = stamp log t := by
  have hnone : commitIdOf t record = none := by
    rw [Option.eq_none_iff_forall_ne_some]
    intro c hc
    exact h c (commitIdOf_eq_some.mp hc)
  rw [stamp, commitId_snoc, hnone, Option.or_none]
  rfl

theorem stamp_mtrCommit {c : ℤ} (h : ¬ Committed log t) : stamp (log ++ [.mtrCommit t c]) t = c := by
  rw [committed_iff, Option.not_isSome_iff_eq_none] at h
  rw [stamp, commitId_snoc, h, commitIdOf_eq_some.mpr rfl]
  rfl

theorem open_snoc (hbegin : record ≠ .mtrBegin t) (hcommit : ∀ c, record ≠ .mtrCommit t c)
    (hrollback : record ≠ .mtrRollback t) : Open (log ++ [record]) t ↔ Open log t := by
  unfold Open
  rw [committed_snoc, mem_snoc, mem_snoc, or_iff_left (Ne.symm hbegin), or_iff_left (Ne.symm hrollback),
    or_iff_left (fun ⟨c, hc⟩ => hcommit c hc)]

end Snoc

section Without

variable {dead : ℤ → Prop} [DecidablePred dead] {s : Slot}

theorem Slot.without_of_dead (h : dead s.writer) : s.without dead = none := if_pos h

theorem Slot.without_of_not (h : ¬ dead s.writer) :
    s.without dead = some { s with deleter := s.deleter.filter fun t => ¬ dead t } := if_neg h

theorem Slot.without_self (h : ¬ dead s.writer) (h' : ∀ t, s.deleter = some t → ¬ dead t) : s.without dead = some s := by
  obtain ⟨writer, data, deleter⟩ := s
  rw [without_of_not h]
  cases deleter with
  | none => rfl
  | some t => simp [h' t rfl]

theorem Slot.without_without {dead' : ℤ → Prop} [DecidablePred dead'] :
    (s.without dead).bind (Slot.without dead') = s.without fun t => dead t ∨ dead' t := by
  obtain ⟨writer, data, deleter⟩ := s
  unfold Slot.without
  by_cases h : dead writer
  · simp [h]
  · by_cases h' : dead' writer
    · simp [h, h']
    · cases deleter with
      | none => simp [h, h']
      | some t => by_cases ht : dead t <;> simp [h, h']

theorem filter_live {deleter : Option ℤ} {t : ℤ} (hd : deleter = some t) (h : ¬ dead t) :
    (deleter.filter fun t' => ¬ dead t') = some t := by
  rw [hd, Option.filter_some, if_pos (decide_eq_true h)]

theorem filter_dead {deleter : Option ℤ} {t : ℤ} (hd : deleter = some t) (h : dead t) :
    (deleter.filter fun t' => ¬ dead t') = none := by
  rw [hd, Option.filter_some, if_neg]
  simpa using h

end Without

section EndXid

variable {log : List CLogRecord} {writer t : ℤ} {data : Bytes} {deleter : Option ℤ}

theorem Slot.endXid_of_none (hd : deleter = none) : Slot.endXid log ⟨writer, data, deleter⟩ = maxTrxId := by
  rw [hd]
  rfl

theorem Slot.endXid_of_own (hd : deleter = some t) (hw : t = writer) : Slot.endXid log ⟨writer, data, deleter⟩ = -t := by
  rw [hd]
  exact if_pos hw

theorem Slot.endXid_of_other (hd : deleter = some t) (hw : t ≠ writer) :
    Slot.endXid log ⟨writer, data, deleter⟩ = stamp log t := by
  rw [hd]
  exact if_neg hw

end EndXid

/-! ## The rows of a well-logged log -/

/-- What the rows of a log say about its records, and the other way round. -/
structure LogFacts (log : List CLogRecord) : Prop where
  begins : ∀ t, .mtrBegin t ∈ log → 0 < t
  begun : ∀ record ∈ log, .mtrBegin (recordTrxId record) ∈ log
  once : ∀ t, Committed log t → .mtrRollback t ∉ log
  commits : ∀ t c, .mtrCommit t c ∈ log → 0 < c ∧ c < maxTrxId
  writer : ∀ addr s, slots log addr = some s → .mtrRollback s.writer ∉ log ∧
    ∃ record, .insert s.writer addr.1 addr.2 record ∈ log ∧ record.data = s.data
  deleter : ∀ addr s t, slots log addr = some s → s.deleter = some t →
    .mtrRollback t ∉ log ∧ .delete t addr.1 addr.2 ∈ log ∧ (t = s.writer ∨ Committed log s.writer)
  inserted : ∀ t addr record, .insert t addr.1 addr.2 record ∈ log → .mtrRollback t ∉ log →
    ∃ s, slots log addr = some s ∧ s.writer = t ∧ s.data = record.data
  deleted : ∀ t addr, .delete t addr.1 addr.2 ∈ log → .mtrRollback t ∉ log →
    ∃ s, slots log addr = some s ∧ s.deleter = some t

namespace LogFacts

variable {log : List CLogRecord} (hl : LogFacts log)
include hl

theorem mtrBegin {t : ℤ} (hfits : Fits log (.mtrBegin t)) : LogFacts (log ++ [.mtrBegin t]) := by
  have hcommitted : ∀ t', Committed (log ++ [.mtrBegin t]) t' ↔ Committed log t' := by simp [committed_snoc]
  refine ⟨?_, ?_, ?_, ?_, ?_, ?_, ?_, ?_⟩
  · intro t' h
    cases (mem_snoc _ _).mp h with
    | inl h => exact hl.begins t' h
    | inr h =>
      obtain rfl : t' = t := by simpa using h
      exact hfits.1
  · intro record h
    rcases (mem_snoc _ _).mp h with h | rfl
    · exact List.mem_append_left _ (hl.begun record h)
    · exact h
  · simpa [hcommitted] using hl.once
  · simpa using hl.commits
  · simpa [slots_snoc, slotStep] using hl.writer
  · simpa [slots_snoc, slotStep, hcommitted] using hl.deleter
  · simpa [slots_snoc, slotStep] using hl.inserted
  · simpa [slots_snoc, slotStep] using hl.deleted

theorem begun_snoc {record : CLogRecord} (hopen : Open log (recordTrxId record)) :
    ∀ other ∈ log ++ [record], .mtrBegin (recordTrxId other) ∈ log ++ [record] := by
  intro other h
  apply List.mem_append_left
  rcases (mem_snoc _ _).mp h with h | rfl
  · exact hl.begun other h
  · exact hopen.1

theorem insert {t : ℤ} {table : ℕ} {rid : RID} {record : Record} (hfits : Fits log (.insert t table rid record)) :
    LogFacts (log ++ [.insert t table rid record]) := by
  obtain ⟨hopen, hfree, -⟩ := hfits
  have hcommitted : ∀ t', Committed (log ++ [.insert t table rid record]) t' ↔ Committed log t' := by
    simp [committed_snoc]
  have hslots : slots (log ++ [.insert t table rid record]) =
      Function.update (slots log) (table, rid) (some ⟨t, record.data, none⟩) := slots_snoc _ _
  have hold : ∀ {addr s}, slots log addr = some s → slots (log ++ [.insert t table rid record]) addr = some s := by
    intro addr s hs
    rw [hslots, Function.update_of_ne]
    · exact hs
    · rintro rfl
      rw [hfree] at hs
      cases hs
  refine ⟨by simpa using hl.begins, hl.begun_snoc hopen, by simpa [hcommitted] using hl.once,
    by simpa using hl.commits, ?_, ?_, ?_, ?_⟩
  · intro addr s hs
    rw [hslots, Function.update_apply] at hs
    split at hs
    · next haddr =>
      subst haddr
      obtain rfl := Option.some.inj hs
      exact ⟨by simpa using hopen.2.2, record, by simp, rfl⟩
    · obtain ⟨hnot, logged, hlogged, hdata⟩ := hl.writer addr s hs
      exact ⟨by simpa using hnot, logged, List.mem_append_left _ hlogged, hdata⟩
  · intro addr s t' hs hdeleter
    rw [hslots, Function.update_apply] at hs
    split at hs
    · obtain rfl := Option.some.inj hs
      cases hdeleter
    · simpa [hcommitted] using hl.deleter addr s t' hs hdeleter
  · intro t' addr logged h hnot
    cases (mem_snoc _ _).mp h with
    | inl h =>
      obtain ⟨s, hs, hrest⟩ := hl.inserted t' addr logged h (by simpa using hnot)
      exact ⟨s, hold hs, hrest⟩
    | inr h =>
      obtain ⟨rfl, rfl, rfl, rfl⟩ := CLogRecord.insert.inj h
      exact ⟨_, by rw [hslots, Function.update_self], rfl, rfl⟩
  · intro t' addr h hnot
    obtain ⟨s, hs, hrest⟩ := hl.deleted t' addr (by simpa using h) (by simpa using hnot)
    exact ⟨s, hold hs, hrest⟩

theorem delete {t : ℤ} {table : ℕ} {rid : RID} (hfits : Fits log (.delete t table rid)) :
    LogFacts (log ++ [.delete t table rid]) := by
  obtain ⟨hopen, row, hrow, hnone, hwriter⟩ := hfits
  have hcommitted : ∀ t', Committed (log ++ [.delete t table rid]) t' ↔ Committed log t' := by simp [committed_snoc]
  have hslots : slots (log ++ [.delete t table rid]) =
      Function.update (slots log) (table, rid) (some { row with deleter := some t }) := by
    rw [slots_snoc, slotStep, hrow]
    rfl
  -- the row keeps its writer and its bytes, and had no deleter
  have hold : ∀ {addr s}, slots log addr = some s → ∃ s', slots (log ++ [.delete t table rid]) addr = some s' ∧
      s'.writer = s.writer ∧ s'.data = s.data ∧ ∀ t', s.deleter = some t' → s'.deleter = some t' := by
    intro addr s hs
    rw [hslots, Function.update_apply]
    split
    · next haddr =>
      subst haddr
      obtain rfl := Option.some.inj (hrow.symm.trans hs)
      refine ⟨_, rfl, rfl, rfl, fun t' ht' => ?_⟩
      rw [hnone] at ht'
      cases ht'
    · exact ⟨s, hs, rfl, rfl, fun _ ht' => ht'⟩
  refine ⟨by simpa using hl.begins, hl.begun_snoc hopen, by simpa [hcommitted] using hl.once,
    by simpa using hl.commits, ?_, ?_, ?_, ?_⟩
  · intro addr s hs
    rw [hslots, Function.update_apply] at hs
    split at hs
    · next haddr =>
      subst haddr
      obtain rfl := Option.some.inj hs
      simpa using hl.writer _ row hrow
    · simpa using hl.writer addr s hs
  · intro addr s t' hs hdeleter
    rw [hslots, Function.update_apply] at hs
    split at hs
    · next haddr =>
      subst haddr
      obtain rfl := Option.some.inj hs
      obtain rfl := Option.some.inj hdeleter
      exact ⟨by simpa using hopen.2.2, by simp, by simpa [hcommitted] using hwriter⟩
    · obtain ⟨hnot, hlogged, hcase⟩ := hl.deleter addr s t' hs hdeleter
      exact ⟨by simpa using hnot, List.mem_append_left _ hlogged, by simpa [hcommitted] using hcase⟩
  · intro t' addr logged h hnot
    obtain ⟨s, hs, hw, hdata⟩ := hl.inserted t' addr logged (by simpa using h) (by simpa using hnot)
    obtain ⟨s', hs', hw', hdata', -⟩ := hold hs
    exact ⟨s', hs', hw'.trans hw, hdata'.trans hdata⟩
  · intro t' addr h hnot
    cases (mem_snoc _ _).mp h with
    | inl h =>
      obtain ⟨s, hs, hd⟩ := hl.deleted t' addr h (by simpa using hnot)
      obtain ⟨s', hs', -, -, hd'⟩ := hold hs
      exact ⟨s', hs', hd' t' hd⟩
    | inr h =>
      obtain ⟨rfl, rfl, rfl⟩ := CLogRecord.delete.inj h
      exact ⟨_, by rw [hslots, Function.update_self], rfl⟩

theorem mtrCommit {t c : ℤ} (hfits : Fits log (.mtrCommit t c)) : LogFacts (log ++ [.mtrCommit t c]) := by
  obtain ⟨hopen, hrange⟩ := hfits
  have hslots : slots (log ++ [.mtrCommit t c]) = slots log := slots_snoc _ _
  refine ⟨by simpa using hl.begins, hl.begun_snoc hopen, ?_, ?_, by simpa [hslots] using hl.writer, ?_,
    by simpa [hslots] using hl.inserted, by simpa [hslots] using hl.deleted⟩
  · intro t' h
    rcases (committed_snoc _ _ _).mp h with h | ⟨c', h⟩
    · simpa using hl.once t' h
    · obtain ⟨rfl, -⟩ := CLogRecord.mtrCommit.inj h
      simpa using hopen.2.2
  · intro t' c' h
    cases (mem_snoc _ _).mp h with
    | inl h => exact hl.commits t' c' h
    | inr h =>
      obtain ⟨-, rfl⟩ := CLogRecord.mtrCommit.inj h
      exact hrange
  · intro addr s t' hs hdeleter
    rw [hslots] at hs
    obtain ⟨hnot, hlogged, hcase⟩ := hl.deleter addr s t' hs hdeleter
    refine ⟨by simpa using hnot, List.mem_append_left _ hlogged, hcase.imp_right fun hc => ?_⟩
    exact (committed_snoc _ _ _).mpr (Or.inl hc)

theorem mtrRollback {t : ℤ} (hfits : Fits log (.mtrRollback t)) : LogFacts (log ++ [.mtrRollback t]) := by
  have hopen : Open log t := hfits
  have hcommitted : ∀ t', Committed (log ++ [.mtrRollback t]) t' ↔ Committed log t' := by simp [committed_snoc]
  have hslots : ∀ addr, slots (log ++ [.mtrRollback t]) addr = (slots log addr).bind (Slot.without (· = t)) :=
    fun addr => congrFun (slots_snoc _ _) addr
  -- what is left of a row
  have hrow : ∀ {addr s'}, slots (log ++ [.mtrRollback t]) addr = some s' → ∃ s, slots log addr = some s ∧
      s.writer ≠ t ∧ s' = { s with deleter := s.deleter.filter fun t' => ¬ t' = t } := by
    intro addr s' hs'
    rw [hslots, Option.bind_eq_some_iff] at hs'
    obtain ⟨s, hs, hs'⟩ := hs'
    by_cases hw : s.writer = t
    · rw [Slot.without_of_dead hw] at hs'
      cases hs'
    · rw [Slot.without_of_not hw] at hs'
      exact ⟨s, hs, hw, (Option.some.inj hs').symm⟩
  have hkept : ∀ {addr s}, slots log addr = some s → s.writer ≠ t → slots (log ++ [.mtrRollback t]) addr =
      some { s with deleter := s.deleter.filter fun t' => ¬ t' = t } := by
    intro addr s hs hw
    rw [hslots, hs, Option.bind_some, Slot.without_of_not hw]
  refine ⟨by simpa using hl.begins, hl.begun_snoc hopen, ?_, by simpa using hl.commits, ?_, ?_, ?_, ?_⟩
  · intro t' h
    rw [hcommitted] at h
    have hne : t' ≠ t := by
      rintro rfl
      exact hopen.2.1 h
    simpa [hne] using hl.once t' h
  · intro addr s' hs'
    obtain ⟨s, hs, hw, rfl⟩ := hrow hs'
    simpa [hw] using hl.writer addr s hs
  · intro addr s' t' hs' hdeleter
    obtain ⟨s, hs, hw, rfl⟩ := hrow hs'
    obtain ⟨hd, hne⟩ := Option.filter_eq_some_iff.mp hdeleter
    have hne' : t' ≠ t := by simpa using hne
    simpa [hne', hcommitted] using hl.deleter addr s t' hs hd
  · intro t' addr logged h hnot
    rw [mem_snoc, not_or] at hnot
    obtain ⟨s, hs, hw, hdata⟩ := hl.inserted t' addr logged (by simpa using h) hnot.1
    have hne : s.writer ≠ t := by
      rintro heq
      exact hnot.2 (by rw [← hw, heq])
    exact ⟨_, hkept hs hne, hw, hdata⟩
  · intro t' addr h hnot
    rw [mem_snoc, not_or] at hnot
    obtain ⟨s, hs, hd⟩ := hl.deleted t' addr (by simpa using h) hnot.1
    have hne' : t' ≠ t := fun heq => hnot.2 (by rw [heq])
    -- the writer of a deleted row is its deleter or has been committed
    have hne : s.writer ≠ t := by
      cases (hl.deleter addr s t' hs hd).2.2 with
      | inl heq =>
        rw [← heq]
        exact hne'
      | inr hc =>
        rintro rfl
        exact hopen.2.1 hc
    refine ⟨_, hkept hs hne, ?_⟩
    rw [hd]
    simp [hne']

end LogFacts

theorem WellLogged.facts {log : List CLogRecord} (h : WellLogged log) : LogFacts log := by
  induction h with
  | nil => exact ⟨by simp, by simp, by simp, by simp, by simp [slots], by simp [slots], by simp, by simp⟩
  | @snoc log record h hfits ih =>
    cases record with
    | mtrBegin t => exact ih.mtrBegin hfits
    | insert t table rid record => exact ih.insert hfits
    | delete t table rid => exact ih.delete hfits
    | mtrCommit t c => exact ih.mtrCommit hfits
    | mtrRollback t => exact ih.mtrRollback hfits

theorem WellLogged.stamp_eq {log : List CLogRecord} (h : WellLogged log) {t c : ℤ} (hc : .mtrCommit t c ∈ log) :
    stamp log t = c := by
  induction h with
  | nil => cases hc
  | @snoc log record h hfits ih =>
    rcases (mem_snoc _ _).mp hc with hold | rfl
    · rw [stamp_snoc, ih hold]
      rintro c' rfl
      exact hfits.1.2.1 ⟨c, hold⟩
    · exact stamp_mtrCommit hfits.1.2.1

theorem LogFacts.survives_iff {log : List CLogRecord} (hl : LogFacts log) {addr : ℕ × RID} {data : Bytes} :
    Survives log addr data ↔ ∃ s, slots log addr = some s ∧ s.data = data ∧ Committed log s.writer ∧
      ∀ t, s.deleter = some t → ¬ Committed log t := by
  constructor
  · rintro ⟨⟨t, record, hlogged, rfl, hc⟩, hdeletes⟩
    obtain ⟨s, hs, rfl, hdata⟩ := hl.inserted t addr record hlogged (hl.once t hc)
    exact ⟨s, hs, hdata, hc, fun t' ht' => hdeletes t' (hl.deleter addr s t' hs ht').2.1⟩
  · rintro ⟨s, hs, rfl, hc, hdeleter⟩
    obtain ⟨-, record, hlogged, hdata⟩ := hl.writer addr s hs
    refine ⟨⟨s.writer, record, hlogged, hdata, hc⟩, fun t ht htc => ?_⟩
    obtain ⟨s', hs', hd⟩ := hl.deleted t addr ht (hl.once t htc)
    obtain rfl := Option.some.inj (hs.symm.trans hs')
    exact hdeleter t hd htc

end Landbase.Clog
