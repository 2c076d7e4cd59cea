import Landbase.Clog.Slots

/-! # Versions that agree with a log

The versions of a database and the operations that its transactions have noted follow from the log. `Agrees` says this of the
versions, whether running transactions have written them or recovery has, and every record of the log keeps it together with
what the record does to the versions.

Two things are left open. The transactions in `dead` have been undone without a record of it in the log, as recovery undoes
the unfinished ones. And a version may carry the mark of a deletion that was not logged (`loose`), as an update leaves it
that fails.
-/

namespace Landbase.Clog
open Landbase.Storage Landbase.Trx
set_option autoImplicit false

/-! ## Agreement -/

/-- A version is the one that a row is stored as. -/
def Matches (loose : Prop) (log : List CLogRecord) : Option Slot → Option Record → Prop
  | none, none => True
  | some s, some record => record.beginXid = stamp log s.writer ∧ record.data = s.data ∧
      (record.endXid = s.endXid log ∨ loose ∧ record.endXid < 0)
  | _, _ => False

structure Agrees (loose : Prop) (dead : ℤ → Prop) [DecidablePred dead] (log : List CLogRecord)
    (version : ℕ × RID → Option Record) (ops : ℤ → Operation → Prop) : Prop where
  dead_open : ∀ t, dead t → Open log t
  version : ∀ addr, Matches loose log ((slots log addr).bind (Slot.without dead)) (version addr)
  ops : ∀ t op, ops t op ↔ Open log t ∧ ¬ dead t ∧ opAt (slots log) t op.addr = some op.type

/-- A transaction notes an operation, unless it has noted one about the same row. -/
def Notes (ops : ℤ → Operation → Prop) (t : ℤ) (op : Operation) (ops' : ℤ → Operation → Prop) : Prop :=
  ∀ t' other, ops' t' other ↔ ops t' other ∨ (t' = t ∧ other = op ∧ ∀ old, ops t old → old.addr ≠ op.addr)

/-- A transaction has ended. -/
def Forgets (ops : ℤ → Operation → Prop) (t : ℤ) (ops' : ℤ → Operation → Prop) : Prop :=
  ∀ t' op, ops' t' op ↔ t' ≠ t ∧ ops t' op

theorem Matches.some_iff {loose : Prop} {log : List CLogRecord} {s : Slot} {slot : Option Record} :
    Matches loose log (some s) slot ↔ ∃ record, slot = some record ∧ record.beginXid = stamp log s.writer ∧
      record.data = s.data ∧ (record.endXid = s.endXid log ∨ loose ∧ record.endXid < 0) := by
  cases slot with
  | none => simp [Matches]
  | some record => simp [Matches]

theorem Matches.none_iff {loose : Prop} {log : List CLogRecord} {slot : Option Record} :
    Matches loose log none slot ↔ slot = none := by
  cases slot with
  | none => simp [Matches]
  | some record => simp [Matches]

theorem Matches.mono {loose : Prop} {log log' : List CLogRecord} {s : Option Slot} {slot : Option Record}
    (h : Matches loose log s slot)
    (hstamp : ∀ row, s = some row → stamp log' row.writer = stamp log row.writer ∧
      ∀ t, row.deleter = some t → t ≠ row.writer → stamp log' t = stamp log t) : Matches loose log' s slot := by
  cases s with
  | none => exact Matches.none_iff.mpr (Matches.none_iff.mp h)
  | some s =>
    obtain ⟨record, rfl, hbegin, hdata, hend⟩ := Matches.some_iff.mp h
    obtain ⟨hwriter, hdeleter⟩ := hstamp s rfl
    have hsame : s.endXid log' = s.endXid log := by
      unfold Slot.endXid
      cases hd : s.deleter with
      | none => rfl
      | some t =>
        dsimp only
        split
        · rfl
        · next hne => exact hdeleter t hd hne
    refine Matches.some_iff.mpr ⟨record, rfl, hbegin.trans hwriter.symm, hdata, ?_⟩
    rw [hsame]
    exact hend

theorem opAt_of_eq_some {rows : Slots} {t : ℤ} {addr : ℕ × RID} {s : Slot} (hs : rows addr = some s) :
    opAt rows t addr =
      if s.writer = t then some .insert else if s.deleter = some t then some .delete else none := by
  simp only [opAt, hs]

theorem opAt_isSome {rows : Slots} {t : ℤ} {addr : ℕ × RID} {type : OperationType} (h : opAt rows t addr = some type) :
    ∃ s, rows addr = some s := by
  unfold opAt at h
  cases hs : rows addr with
  | none =>
    rw [hs] at h
    cases h
  | some s => exact ⟨s, rfl⟩

/-! ## The records of a log -/

namespace Agrees

variable {loose : Prop} {dead : ℤ → Prop} [DecidablePred dead] {log : List CLogRecord}
  {version version' : ℕ × RID → Option Record} {ops ops' : ℤ → Operation → Prop}

theorem stored (h : Agrees loose dead log version ops) {addr : ℕ × RID} {s : Slot} (hs : slots log addr = some s)
    (hw : ¬ dead s.writer) : ∃ record, version addr = some record ∧ record.beginXid = stamp log s.writer ∧
      record.data = s.data ∧ (record.endXid = Slot.endXid log { s with deleter := s.deleter.filter fun t => ¬ dead t } ∨
        loose ∧ record.endXid < 0) := by
  have hmatch := h.version addr
  rw [hs, Option.bind_some, Slot.without_of_not hw] at hmatch
  exact Matches.some_iff.mp hmatch

/-- The transactions in `dead` are still open after a record of another one. -/
theorem dead_snoc (h : Agrees loose dead log version ops) {record : CLogRecord} (hopen : Open log (recordTrxId record))
    (hlive : ¬ dead (recordTrxId record)) : ∀ t, dead t → Open (log ++ [record]) t := by
  intro t ht
  have hne : recordTrxId record ≠ t := by
    rintro rfl
    exact hlive ht
  rw [open_snoc]
  · exact h.dead_open t ht
  · rintro rfl
    exact hne rfl
  · rintro c rfl
    exact hne rfl
  · rintro rfl
    exact hne rfl

theorem mtrBegin (h : Agrees loose dead log version ops) (hl : LogFacts log) {t : ℤ} (hfits : Fits log (.mtrBegin t)) :
    Agrees loose dead (log ++ [.mtrBegin t]) version ops := by
  have hslots : slots (log ++ [.mtrBegin t]) = slots log := slots_snoc _ _
  have hopen : ∀ t', t' ≠ t → (Open (log ++ [.mtrBegin t]) t' ↔ Open log t') := fun t' hne =>
    open_snoc (by simpa using hne.symm) (by simp) (by simp)
  have hnew : ∀ t', Open log t' → t' ≠ t := by
    rintro t' ht' rfl
    exact hfits.2 ht'.1
  refine ⟨fun t' ht' => ?_, fun addr => ?_, fun t' op => ?_⟩
  · exact (hopen t' (hnew t' (h.dead_open t' ht'))).mpr (h.dead_open t' ht')
  · rw [hslots]
    exact (h.version addr).mono fun row _ => ⟨stamp_snoc (by simp), fun _ _ _ => stamp_snoc (by simp)⟩
  · rw [h.ops, hslots]
    by_cases ht : t' = t
    · -- the new transaction has no rows yet
      subst ht
      refine ⟨fun hop => absurd hop.1.1 hfits.2, fun ⟨_, _, hop⟩ => ?_⟩
      obtain ⟨s, hs⟩ := opAt_isSome hop
      rw [opAt_of_eq_some hs] at hop
      split at hop
      · next hw =>
        obtain ⟨-, record, hlogged, -⟩ := hl.writer _ s hs
        exact absurd (hw ▸ hl.begun _ hlogged) hfits.2
      · split at hop
        · next hd => exact absurd (hl.begun _ (hl.deleter _ s t' hs hd).2.1) hfits.2
        · cases hop
    · rw [hopen t' ht]

theorem ops_snoc (h : Agrees loose dead log version ops) {record : CLogRecord} {t : ℤ} {op : Operation}
    (hopens : ∀ t', Open (log ++ [record]) t' ↔ Open log t') (hopen : Open log t) (hlive : ¬ dead t)
    (hnotes : Notes ops t op ops')
    (hslots : ∀ t' addr, (t' ≠ t ∨ addr ≠ op.addr) → opAt (slots (log ++ [record])) t' addr = opAt (slots log) t' addr)
    (hold : ∀ type, opAt (slots log) t op.addr = some type → opAt (slots (log ++ [record])) t op.addr = some type)
    (hnew : opAt (slots log) t op.addr = none → opAt (slots (log ++ [record])) t op.addr = some op.type) :
    ∀ t' other, ops' t' other ↔
      Open (log ++ [record]) t' ∧ ¬ dead t' ∧ opAt (slots (log ++ [record])) t' other.addr = some other.type := by
  intro t' other
  rw [hnotes t' other, hopens]
  have hfresh : (∀ old, ops t old → old.addr ≠ op.addr) ↔ opAt (slots log) t op.addr = none := by
    constructor
    · intro hno
      cases hop : opAt (slots log) t op.addr with
      | none => rfl
      | some type =>
        have hmem : ops t ⟨type, op.table, op.rid⟩ := (h.ops _ _).mpr ⟨hopen, hlive, hop⟩
        exact absurd rfl (hno ⟨type, op.table, op.rid⟩ hmem)
    · intro hnone old hold heq
      have := ((h.ops _ _).mp hold).2.2
      rw [heq, hnone] at this
      cases this
  by_cases hhere : t' = t ∧ other.addr = op.addr
  · obtain ⟨rfl, haddr⟩ := hhere
    rw [h.ops, haddr, hfresh]
    cases hop : opAt (slots log) t' op.addr with
    | some type =>
      rw [hold type hop]
      simp
    | none =>
      rw [hnew hop]
      have heq : other = op ↔ op.type = other.type := by
        obtain ⟨type, table, rid⟩ := other
        obtain ⟨type', table', rid'⟩ := op
        rw [Operation.addr, Operation.addr, Prod.mk.injEq] at haddr
        obtain ⟨rfl, rfl⟩ := haddr
        simp [eq_comm]
      simp [heq, hopen, hlive]
  · have hne : t' ≠ t ∨ other.addr ≠ op.addr := by tauto
    rw [h.ops, hslots t' other.addr hne]
    constructor
    · rintro (hop | ⟨rfl, rfl, -⟩)
      · exact hop
      · exact absurd ⟨rfl, rfl⟩ hhere
    · exact Or.inl

theorem insert (h : Agrees loose dead log version ops) {t : ℤ} {table : ℕ} {rid : RID} {record : Record}
    (hfits : Fits log (.insert t table rid record)) (hlive : ¬ dead t)
    (hnotes : Notes ops t ⟨.insert, table, rid⟩ ops') :
    Agrees loose dead (log ++ [.insert t table rid record]) (Function.update version (table, rid) (some record)) ops' := by
  obtain ⟨hopen, hfree, hbegin, hend⟩ := hfits
  have hslots : slots (log ++ [.insert t table rid record]) =
      Function.update (slots log) (table, rid) (some ⟨t, record.data, none⟩) := slots_snoc _ _
  have hopens : ∀ t', Open (log ++ [.insert t table rid record]) t' ↔ Open log t' := fun t' =>
    open_snoc (by simp) (by simp) (by simp)
  refine ⟨h.dead_snoc hopen hlive, fun addr => ?_, h.ops_snoc hopens hopen hlive hnotes ?_ ?_ ?_⟩
  · rw [hslots]
    by_cases haddr : addr = (table, rid)
    · subst haddr
      rw [Function.update_self, Function.update_self, Option.bind_some, Slot.without_of_not hlive]
      refine Matches.some_iff.mpr ⟨record, rfl, ?_, rfl, Or.inl hend⟩
      rw [stamp_snoc (by simp), stamp_of_not_committed hopen.2.1]
      exact hbegin
    · rw [Function.update_of_ne haddr, Function.update_of_ne haddr]
      exact (h.version addr).mono fun row _ => ⟨stamp_snoc (by simp), fun _ _ _ => stamp_snoc (by simp)⟩
  · intro t' addr hne
    rw [hslots]
    by_cases haddr : addr = (table, rid)
    · subst haddr
      have hne' : t' ≠ t := hne.resolve_right fun hx => hx rfl
      simp [opAt, hfree, hne'.symm]
    · simp [opAt, Function.update_of_ne haddr]
  · intro type htype
    obtain ⟨s, hs⟩ := opAt_isSome htype
    exact absurd (hfree.symm.trans hs) (by simp)
  · intro _
    simp [hslots, opAt, Operation.addr]

theorem delete (h : Agrees loose dead log version ops) {t : ℤ} {table : ℕ} {rid : RID}
    (hfits : Fits log (.delete t table rid)) (hlive : ¬ dead t) (hnotes : Notes ops t ⟨.delete, table, rid⟩ ops')
    {record : Record} (hrecord : version (table, rid) = some record) :
    Agrees loose dead (log ++ [.delete t table rid])
      (Function.update version (table, rid) (some { record with endXid := -t })) ops' := by
  obtain ⟨hopen, s, hs, hnone, hwriter⟩ := hfits
  have hslots : slots (log ++ [.delete t table rid]) =
      Function.update (slots log) (table, rid) (some { s with deleter := some t }) := by
    rw [slots_snoc, slotStep, hs]
    rfl
  have hopens : ∀ t', Open (log ++ [.delete t table rid]) t' ↔ Open log t' := fun t' =>
    open_snoc (by simp) (by simp) (by simp)
  have hw : ¬ dead s.writer := by
    rcases hwriter with rfl | hc
    · exact hlive
    · exact fun hd => (h.dead_open _ hd).2.1 hc
  refine ⟨h.dead_snoc hopen hlive, fun addr => ?_, h.ops_snoc hopens hopen hlive hnotes ?_ ?_ ?_⟩
  · rw [hslots]
    by_cases haddr : addr = (table, rid)
    · subst haddr
      obtain ⟨stored, hstored, hbegin, hdata, -⟩ := h.stored hs hw
      obtain rfl := Option.some.inj (hrecord.symm.trans hstored)
      have hkept : Slot.without dead { s with deleter := some t } = some { s with deleter := some t } := by
        have hself : ∀ row : Slot, ¬ dead row.writer → row.deleter = some t → row.without dead = some row := by
          intro row hrow hd
          apply Slot.without_self hrow
          intro t' ht'
          exact Option.some.inj (hd.symm.trans ht') ▸ hlive
        exact hself _ hw rfl
      rw [Function.update_self, Function.update_self, Option.bind_some, hkept]
      refine Matches.some_iff.mpr ⟨_, rfl, ?_, hdata, Or.inl ?_⟩
      · rw [stamp_snoc (by simp)]
        exact hbegin
      · have hstamp : stamp (log ++ [.delete t table rid]) t = -t := by
          rw [stamp_snoc (by simp), stamp_of_not_committed hopen.2.1]
        simp [Slot.endXid, hstamp]
    · rw [Function.update_of_ne haddr, Function.update_of_ne haddr]
      exact (h.version addr).mono fun row _ => ⟨stamp_snoc (by simp), fun _ _ _ => stamp_snoc (by simp)⟩
  · intro t' addr hne
    rw [hslots]
    by_cases haddr : addr = (table, rid)
    · subst haddr
      have hne' : t' ≠ t := hne.resolve_right fun hx => hx rfl
      simp [opAt, hs, hnone, hne'.symm]
    · simp [opAt, Function.update_of_ne haddr]
  · intro type htype
    have htype' : opAt (slots log) t (table, rid) = some type := htype
    rw [opAt_of_eq_some hs, hnone] at htype'
    show opAt _ t (table, rid) = some type
    rw [hslots, opAt_of_eq_some (Function.update_self _ _ _)]
    split at htype'
    · next heq =>
      rw [if_pos heq]
      exact htype'
    · simp at htype'
  · intro hno
    have hno' : opAt (slots log) t (table, rid) = none := hno
    rw [opAt_of_eq_some hs, hnone] at hno'
    show opAt _ t (table, rid) = some .delete
    rw [hslots, opAt_of_eq_some (Function.update_self _ _ _)]
    split at hno'
    · cases hno'
    · next hne => rw [if_neg hne, if_pos rfl]

/-! ### The end of a transaction -/

theorem open_end {record : CLogRecord} {t : ℤ}
    (hrecord : record = .mtrRollback t ∨ ∃ c, record = .mtrCommit t c) :
    ¬ Open (log ++ [record]) t ∧ ∀ t', t' ≠ t → (Open (log ++ [record]) t' ↔ Open log t') := by
  rcases hrecord with rfl | ⟨c, rfl⟩
  · refine ⟨fun hopen => hopen.2.2 (by simp), fun t' hne => open_snoc (by simp) (by simp) (by simpa using hne.symm)⟩
  · refine ⟨fun hopen => hopen.2.1 ⟨c, by simp⟩, fun t' hne => open_snoc (by simp) ?_ (by simp)⟩
    intro c' heq
    exact hne (CLogRecord.mtrCommit.inj heq).1.symm

theorem walked_other (h : Agrees loose dead log version ops) {t : ℤ} {order : List Operation}
    (horder : ∀ op, op ∈ order ↔ ops t op) {f : Operation → Record → Option (Option Record)}
    (hwalk : Walked f order version version') {addr : ℕ × RID} (hno : opAt (slots log) t addr = none) :
    version' addr = version addr := by
  refine hwalk.other addr fun hmem => ?_
  obtain ⟨op, hop, rfl⟩ := List.mem_map.mp hmem
  have hat := ((h.ops t op).mp ((horder op).mp hop)).2.2
  rw [hno] at hat
  cases hat

theorem walked_here (h : Agrees loose dead log version ops) {t : ℤ} (hopen : Open log t) (hlive : ¬ dead t)
    {order : List Operation} (horder : ∀ op, op ∈ order ↔ ops t op) {f : Operation → Record → Option (Option Record)}
    (hwalk : Walked f order version version') {addr : ℕ × RID} {type : OperationType}
    (hat : opAt (slots log) t addr = some type) :
    ∃ record, version addr = some record ∧ f ⟨type, addr.1, addr.2⟩ record = some (version' addr) := by
  have hop : (⟨type, addr.1, addr.2⟩ : Operation) ∈ order :=
    (horder _).mpr ((h.ops _ _).mpr ⟨hopen, hlive, hat⟩)
  obtain ⟨record, slot, hrecord, hslot, hnew⟩ := hwalk.here _ hop
  refine ⟨record, hrecord, ?_⟩
  rw [hslot]
  exact congrArg some hnew.symm

/-- Where there is no version, the walk makes none. -/
theorem walked_none (h : Agrees loose dead log version ops) {t : ℤ} (hopen : Open log t) (hlive : ¬ dead t)
    {order : List Operation} (horder : ∀ op, op ∈ order ↔ ops t op) {f : Operation → Record → Option (Option Record)}
    (hwalk : Walked f order version version') {addr : ℕ × RID} (hnone : version addr = none) : version' addr = none := by
  cases hop : opAt (slots log) t addr with
  | none => rw [h.walked_other horder hwalk hop, hnone]
  | some type =>
    obtain ⟨record, hrecord, -⟩ := h.walked_here hopen hlive horder hwalk hop
    rw [hnone] at hrecord
    cases hrecord

theorem ops_end (h : Agrees loose dead log version ops) {record : CLogRecord} {t : ℤ}
    (hrecord : record = .mtrRollback t ∨ ∃ c, record = .mtrCommit t c) (hforgets : Forgets ops t ops')
    (hslots : ∀ t' addr, t' ≠ t → Open log t' → ¬ dead t' →
      opAt (slots (log ++ [record])) t' addr = opAt (slots log) t' addr) :
    ∀ t' op, ops' t' op ↔
      Open (log ++ [record]) t' ∧ ¬ dead t' ∧ opAt (slots (log ++ [record])) t' op.addr = some op.type := by
  obtain ⟨hended, hothers⟩ : ¬ Open (log ++ [record]) t ∧ ∀ t', t' ≠ t → (Open (log ++ [record]) t' ↔ Open log t') :=
    open_end hrecord
  intro t' op
  rw [hforgets, h.ops]
  by_cases ht : t' = t
  · subst ht
    exact ⟨fun hop => absurd rfl hop.1, fun hop => absurd hop.1 hended⟩
  · rw [hothers t' ht]
    constructor
    · rintro ⟨-, hopen, hlive, hat⟩
      exact ⟨hopen, hlive, (hslots t' op.addr ht hopen hlive).trans hat⟩
    · rintro ⟨hopen, hlive, hat⟩
      exact ⟨ht, hopen, hlive, (hslots t' op.addr ht hopen hlive).symm.trans hat⟩

theorem mtrCommit (h : Agrees loose dead log version ops) (hl : LogFacts log) {t c : ℤ}
    (hfits : Fits log (.mtrCommit t c)) (hlive : ¬ dead t) {order : List Operation}
    (horder : ∀ op, op ∈ order ↔ ops t op) (hwalk : Walked (commitRecord t c) order version version')
    (hforgets : Forgets ops t ops') : Agrees loose dead (log ++ [.mtrCommit t c]) version' ops' := by
  obtain ⟨hopen, -⟩ := hfits
  have hslots : slots (log ++ [.mtrCommit t c]) = slots log := slots_snoc _ _
  have hstamp : ∀ t', t' ≠ t → stamp (log ++ [.mtrCommit t c]) t' = stamp log t' := by
    intro t' hne
    apply stamp_snoc
    intro c' heq
    exact hne (CLogRecord.mtrCommit.inj heq).1.symm
  have hstamp' : stamp (log ++ [.mtrCommit t c]) t = c := stamp_mtrCommit hopen.2.1
  refine ⟨h.dead_snoc hopen hlive, fun addr => ?_, h.ops_end (Or.inr ⟨c, rfl⟩) hforgets fun _ _ _ _ _ => by rw [hslots]⟩
  rw [hslots]
  have hmatch := h.version addr
  cases hs : slots log addr with
  | none =>
    rw [hs] at hmatch
    exact Matches.none_iff.mpr (h.walked_none hopen hlive horder hwalk (Matches.none_iff.mp hmatch))
  | some s =>
    have hat := opAt_of_eq_some (t := t) hs
    rw [hs] at hmatch
    by_cases hdead : dead s.writer
    · rw [Option.bind_some, Slot.without_of_dead hdead] at hmatch ⊢
      exact Matches.none_iff.mpr (h.walked_none hopen hlive horder hwalk (Matches.none_iff.mp hmatch))
    · rw [Option.bind_some, Slot.without_of_not hdead] at hmatch ⊢
      obtain ⟨record, hrecord, hbegin, hdata, hend⟩ := Matches.some_iff.mp hmatch
      by_cases hw : s.writer = t
      · -- an insertion of the transaction
        rw [if_pos hw] at hat
        obtain ⟨record', hrecord', hnew⟩ := h.walked_here hopen hlive horder hwalk hat
        obtain rfl := Option.some.inj (hrecord.symm.trans hrecord')
        have hown : record.beginXid = -t := by rw [hbegin, hw, stamp_of_not_committed hopen.2.1]
        rw [commitRecord] at hnew
        simp only [if_pos hown] at hnew
        refine Matches.some_iff.mpr ⟨_, (Option.some.inj hnew).symm, ?_, hdata, ?_⟩
        · rw [hw, hstamp']
        · have hsame : ∀ log', Slot.endXid log' { s with deleter := s.deleter.filter fun t => ¬ dead t } =
              Slot.endXid log { s with deleter := s.deleter.filter fun t => ¬ dead t } := by
            intro log'
            cases hd : s.deleter with
            | none => rfl
            | some t' =>
              -- nobody else can have deleted it
              have hown' : t' = s.writer := by
                refine (hl.deleter addr s t' hs hd).2.2.resolve_right fun hc => ?_
                exact hopen.2.1 (hw ▸ hc)
              have hkept := filter_live rfl (hown' ▸ hdead : ¬ dead t')
              rw [Slot.endXid_of_own hkept hown', Slot.endXid_of_own hkept hown']
          rw [hsame]
          exact hend
      · rw [if_neg hw] at hat
        by_cases hd : s.deleter = some t
        · -- a deletion
          rw [if_pos hd] at hat
          obtain ⟨record', hrecord', hnew⟩ := h.walked_here hopen hlive horder hwalk hat
          obtain rfl := Option.some.inj (hrecord.symm.trans hrecord')
          rw [commitRecord] at hnew
          dsimp only at hnew
          split at hnew
          · refine Matches.some_iff.mpr ⟨_, (Option.some.inj hnew).symm, ?_, hdata, Or.inl ?_⟩
            · rw [hstamp _ hw]
              exact hbegin
            · rw [Slot.endXid_of_other (filter_live hd hlive) (Ne.symm hw), hstamp']
          · cases hnew
        · -- a row of other transactions
          rw [if_neg hd] at hat
          rw [h.walked_other horder hwalk hat]
          refine hmatch.mono ?_
          rintro row ⟨⟩
          refine ⟨hstamp _ hw, fun t' ht' _ => hstamp t' ?_⟩
          rintro rfl
          exact hd (Option.filter_eq_some_iff.mp ht').1

theorem mtrRollback (h : Agrees loose dead log version ops) (hl : LogFacts log) {t : ℤ} (hfits : Fits log (.mtrRollback t))
    (hlive : ¬ dead t) {order : List Operation} (horder : ∀ op, op ∈ order ↔ ops t op)
    (hwalk : Walked (rollbackRecord t) order version version') (hforgets : Forgets ops t ops') :
    Agrees loose dead (log ++ [.mtrRollback t]) version' ops' := by
  have hopen : Open log t := hfits
  have hslots : ∀ addr, slots (log ++ [.mtrRollback t]) addr = (slots log addr).bind (Slot.without (· = t)) :=
    fun addr => congrFun (slots_snoc _ _) addr
  have hstamp : ∀ t', stamp (log ++ [.mtrRollback t]) t' = stamp log t' := fun t' => stamp_snoc (by simp)
  refine ⟨h.dead_snoc hopen hlive, fun addr => ?_, h.ops_end (Or.inl rfl) hforgets ?_⟩
  · rw [hslots]
    have hmatch := h.version addr
    cases hs : slots log addr with
    | none =>
      rw [hs] at hmatch
      exact Matches.none_iff.mpr (h.walked_none hopen hlive horder hwalk (Matches.none_iff.mp hmatch))
    | some s =>
      have hat := opAt_of_eq_some (t := t) hs
      rw [hs] at hmatch
      by_cases hdead : dead s.writer
      · rw [Option.bind_some, Slot.without_of_dead hdead] at hmatch
        rw [Option.bind_some, Slot.without_without, Slot.without_of_dead (Or.inr hdead)]
        exact Matches.none_iff.mpr (h.walked_none hopen hlive horder hwalk (Matches.none_iff.mp hmatch))
      · rw [Option.bind_some, Slot.without_of_not hdead] at hmatch
        obtain ⟨record, hrecord, hbegin, hdata, hend⟩ := Matches.some_iff.mp hmatch
        by_cases hw : s.writer = t
        · -- an insertion of the transaction
          rw [if_pos hw] at hat
          obtain ⟨record', -, hnew⟩ := h.walked_here hopen hlive horder hwalk hat
          rw [Option.bind_some, Slot.without_of_dead hw]
          exact Matches.none_iff.mpr (Option.some.inj hnew).symm
        · rw [if_neg hw] at hat
          rw [Option.bind_some, Slot.without_without, Slot.without_of_not (not_or.mpr ⟨hw, hdead⟩)]
          by_cases hd : s.deleter = some t
          · -- a deletion
            rw [if_pos hd] at hat
            obtain ⟨record', hrecord', hnew⟩ := h.walked_here hopen hlive horder hwalk hat
            obtain rfl := Option.some.inj (hrecord.symm.trans hrecord')
            rw [rollbackRecord] at hnew
            dsimp only at hnew
            split at hnew
            · refine Matches.some_iff.mpr ⟨_, (Option.some.inj hnew).symm, ?_, hdata, Or.inl ?_⟩
              · rw [hstamp]
                exact hbegin
              · rw [Slot.endXid_of_none (filter_dead hd (Or.inl rfl))]
            · cases hnew
          · -- a row of other transactions
            rw [if_neg hd] at hat
            rw [h.walked_other horder hwalk hat]
            have hfilter : (s.deleter.filter fun t' => ¬ (t' = t ∨ dead t')) = s.deleter.filter fun t' => ¬ dead t' := by
              cases hd' : s.deleter with
              | none => rfl
              | some t' =>
                have hne : t' ≠ t := fun heq => hd (by rw [hd', heq])
                rw [Option.filter_some, Option.filter_some]
                simp [hne]
            rw [hfilter]
            exact hmatch.mono fun row _ => ⟨hstamp _, fun t' _ _ => hstamp t'⟩
  · intro t' addr hne hopen' _
    unfold opAt
    rw [hslots]
    cases hs : slots log addr with
    | none => rfl
    | some s =>
      rw [Option.bind_some]
      by_cases hw : s.writer = t
      · rw [Slot.without_of_dead hw]
        have hne' : s.writer ≠ t' := fun heq => hne (heq.symm.trans hw)
        have hd : s.deleter ≠ some t' := by
          intro hd
          cases (hl.deleter addr s t' hs hd).2.2 with
          | inl heq => exact hne' heq.symm
          | inr hc => exact hopen.2.1 (hw ▸ hc)
        simp [hne', hd]
      · rw [Slot.without_of_not hw]
        have hfilter : (s.deleter.filter fun t' => ¬ t' = t) = some t' ↔ s.deleter = some t' := by
          rw [Option.filter_eq_some_iff]
          simp [hne]
        simp only [hfilter]

end Agrees

end Landbase.Clog
