import Landbase.Clog.Agree
import Landbase.Trx.OwnWrites

/-! # Replaying a log

Recovery over a well-logged log. As long as its records are accepted (their tables are known, and no unique index refuses a
row), the tables that recovery has built agree with the part of the log that it has replayed, every index holds exactly the
entries of the stored versions, and at the end the unfinished transactions are undone.
-/

namespace Landbase.Clog
open Landbase.Storage Landbase.Trx
set_option autoImplicit false

/-! ## The state while a log is replayed -/

/-- The largest id of a transaction that has begun. -/
def maxBegun (log : List CLogRecord) : ℤ :=
  log.foldl (fun current record =>
    match record with
    | .mtrBegin t => if current < t then t else current
    | _ => current) 0

/-- The operations that transactions have noted. -/
def notes (trxes : List MvccTrx) (t : ℤ) (op : Operation) : Prop :=
  ∃ trx ∈ trxes, trx.trxId = t ∧ op ∈ trx.operations.toList

/-- Every index of the tables holds exactly the entries of the stored versions, and the schemas are those of `base`. -/
def Kept (base tables : ℕ → Table) : Prop := ∀ table, (tables table).Sound ∧ SameSchema (base table) (tables table)

structure Replayed (base : ℕ → Table) (log : List CLogRecord) (r : Recovery) : Prop where
  logged : WellLogged log
  agrees : Agrees False (fun _ => False) log (versionOf r.tables) (notes r.trxes)
  kept : Kept base r.tables
  nodup : (r.trxes.map MvccTrx.trxId).Nodup
  begun : ∀ t, .mtrBegin t ∈ log ↔ t ∈ r.trxes.map MvccTrx.trxId
  current : r.currentTrxId = maxBegun log

/-- No stored row has the key of these bytes in a unique index. -/
def Fresh (base : ℕ → Table) (log : List CLogRecord) (table : ℕ) (data : Bytes) : Prop :=
  ∀ index ∈ (base table).indexes, index.unique = true → (base table).hasNull data index.fieldMetas = some false →
    ∀ rid s, slots log (table, rid) = some s → (base table).hasNull s.data index.fieldMetas = some false →
      index.key s.data ≠ index.key data

/-- Recovery does not refuse the record. -/
def Accepted (known : ℕ → Bool) (base : ℕ → Table) (log : List CLogRecord) : CLogRecord → Prop
  | .insert _ table _ record => known table = true ∧ Fresh base log table record.data
  | .delete _ table _ => known table = true
  | _ => True

/-! ## Transactions -/

section Transactions

variable {trxes : List MvccTrx} {i : ℕ} {trx trx' : MvccTrx}

theorem notes_iff (hnodup : (trxes.map MvccTrx.trxId).Nodup) (htrx : trx ∈ trxes) (op : Operation) :
    notes trxes trx.trxId op ↔ op ∈ trx.operations.toList := by
  refine ⟨fun ⟨other, hother, hid, hop⟩ => ?_, fun hop => ⟨trx, htrx, rfl, hop⟩⟩
  rw [← List.inj_on_of_nodup_map hnodup hother htrx hid]
  exact hop

theorem map_trxId_set (hi : trxes[i]? = some trx) (hid : trx'.trxId = trx.trxId) :
    (trxes.set i trx').map MvccTrx.trxId = trxes.map MvccTrx.trxId := by
  obtain ⟨hlt, rfl⟩ := List.getElem?_eq_some_iff.mp hi
  have hlt' : i < (trxes.map MvccTrx.trxId).length := by rwa [List.length_map]
  rw [List.map_set, hid, ← List.getElem_map MvccTrx.trxId (h := hlt'), List.set_getElem_self]

theorem notes_set (hnodup : (trxes.map MvccTrx.trxId).Nodup) (hi : trxes[i]? = some trx) (hid : trx'.trxId = trx.trxId)
    (t : ℤ) (op : Operation) :
    notes (trxes.set i trx') t op ↔ if t = trx.trxId then op ∈ trx'.operations.toList else notes trxes t op := by
  obtain ⟨hlt, hget⟩ := List.getElem?_eq_some_iff.mp hi
  have hmem' : trx' ∈ trxes.set i trx' := List.mem_set hlt trx'
  have hnodup' : ((trxes.set i trx').map MvccTrx.trxId).Nodup := by
    rw [map_trxId_set hi hid]
    exact hnodup
  split
  · next ht =>
    rw [ht, ← hid]
    exact notes_iff hnodup' hmem' op
  · next ht =>
    constructor
    · rintro ⟨other, hother, rfl, hop⟩
      rcases List.mem_or_eq_of_mem_set hother with hother | rfl
      · exact ⟨other, hother, rfl, hop⟩
      · exact absurd hid ht
    · rintro ⟨other, hother, rfl, hop⟩
      refine ⟨other, ?_, rfl, hop⟩
      obtain ⟨j, hj⟩ := List.mem_iff_getElem?.mp hother
      refine List.mem_iff_getElem?.mpr ⟨j, ?_⟩
      have hne : i ≠ j := by
        rintro rfl
        exact ht (by rw [Option.some.inj (hi.symm.trans hj)])
      rw [List.getElem?_set_ne hne, hj]

theorem findTrx_of_mem {r : Recovery} {t : ℤ} (h : t ∈ r.trxes.map MvccTrx.trxId) :
    ∃ i trx, r.findTrx t = some i ∧ r.trxes[i]? = some trx ∧ trx.trxId = t := by
  obtain ⟨trx, htrx, hid⟩ := List.mem_map.mp h
  have hsome : (r.trxes.findIdx? fun trx => trx.trxId == t).isSome := by
    rw [List.findIdx?_isSome, List.any_eq_true]
    exact ⟨trx, htrx, by simpa using hid⟩
  obtain ⟨i, hi⟩ := Option.isSome_iff_exists.mp hsome
  obtain ⟨hlt, hp, -⟩ := List.findIdx?_eq_some_iff_getElem.mp hi
  exact ⟨i, r.trxes[i], hi, List.getElem?_eq_getElem hlt, by simpa using hp⟩

end Transactions

/-! ## Loops over operations -/

section Loops

variable {base tables tables' : ℕ → Table}

theorem Kept.update (h : Kept base tables) (table : ℕ) {t : Table} (hs : t.Sound) (hschema : SameSchema (tables table) t) :
    Kept base (Function.update tables table t) := by
  intro table'
  by_cases htable : table' = table
  · rw [htable, Function.update_self]
    exact ⟨hs, (h table).2.trans hschema⟩
  · rw [Function.update_of_ne htable]
    exact h table'

theorem Kept.setVersion (h : Kept base tables) {addr : ℕ × RID} {record record' : Record}
    (hrecord : versionOf tables addr = some record) (hdata : record'.data = record.data) :
    Kept base (Db.setVersion tables addr record') :=
  h.update addr.1 ((h addr.1).1.setRecord hrecord hdata) (sameSchema_setRecord _ _ _)

theorem Kept.commitOperation (h : Kept base tables) {t c : ℤ} {op : Operation}
    (hround : Db.commitOperation t c tables op = some tables') : Kept base tables' := by
  obtain ⟨record, record', hrecord, -, hdata, rfl⟩ := commitOperation_setVersion hround
  exact h.setVersion hrecord hdata

theorem Kept.rollbackOperation (h : Kept base tables) {t : ℤ} {op : Operation}
    (hround : Db.rollbackOperation t tables op = some tables') : Kept base tables' := by
  obtain ⟨record, hrecord, ⟨-, -, rfl⟩ | ⟨-, -, rfl⟩⟩ := rollbackOperation_cases hround
  · exact h.update op.table ((h op.table).1.deleteRecord hrecord) (sameSchema_deleteRecord (h op.table).1 hrecord)
  · exact h.setVersion hrecord rfl

theorem rollbackOperation_isSome (h : Kept base tables) {t : ℤ} {op : Operation} {record : Record} {slot : Option Record}
    (hrecord : versionOf tables op.addr = some record) (hslot : rollbackRecord t op record = some slot) :
    ∃ tables', Db.rollbackOperation t tables op = some tables' ∧ Kept base tables' ∧
      versionOf tables' = Function.update (versionOf tables) op.addr slot := by
  have hsome : ∃ tables', Db.rollbackOperation t tables op = some tables' := by
    unfold Db.rollbackOperation
    unfold rollbackRecord at hslot
    have hrecord' : (tables op.table).records op.rid = some record := hrecord
    cases htype : op.type with
    | insert =>
      have hrc : ((tables op.table).deleteRecord record op.rid).1 = .success := by
        rw [Table.deleteRecord_eq (h op.table).1 hrecord']
      simp [hrecord, hrc]
    | update =>
      simp only [htype] at hslot ⊢
      split at hslot
      · next hend => simp [hrecord, hend]
      · cases hslot
    | delete =>
      simp only [htype] at hslot ⊢
      split at hslot
      · next hend => simp [hrecord, hend]
      · cases hslot
  obtain ⟨tables', htables'⟩ := hsome
  obtain ⟨stored, slot', hstored, hslot', hversion⟩ := rollbackOperation_spec htables'
  obtain rfl := Option.some.inj (hstored.symm.trans hrecord)
  obtain rfl := Option.some.inj (hslot'.symm.trans hslot)
  exact ⟨tables', htables', h.rollbackOperation htables', hversion⟩

end Loops

section Ends

variable {base tables : ℕ → Table} {log : List CLogRecord} {ops : ℤ → Operation → Prop} {t : ℤ} {order : List Operation}

theorem Agrees.version_eq {version : ℕ × RID → Option Record} (h : Agrees False (fun _ => False) log version ops)
    (addr : ℕ × RID) : version addr = (slots log addr).map (Slot.record log) := by
  have hmatch := h.version addr
  cases hs : slots log addr with
  | none =>
    rw [hs] at hmatch
    exact Matches.none_iff.mp hmatch
  | some s =>
    rw [hs, Option.bind_some, Slot.without_self id fun _ _ => id] at hmatch
    obtain ⟨record, hrecord, hbegin, hdata, hend⟩ := Matches.some_iff.mp hmatch
    rw [hrecord, Option.map_some, Slot.record, ← hbegin, ← hdata, ← hend.resolve_right fun hloose => hloose.1]

theorem Agrees.noted (h : Agrees False (fun _ => False) log (versionOf tables) ops) {op : Operation} (hop : ops t op) :
    ∃ record, versionOf tables op.addr = some record ∧
      ((op.type = .insert ∧ record.beginXid = -t) ∨ (op.type = .delete ∧ record.endXid = -t)) := by
  obtain ⟨hopen, -, hat⟩ := (h.ops t op).mp hop
  obtain ⟨s, hs⟩ := opAt_isSome hat
  obtain ⟨record, hrecord, hbegin, -, hend⟩ := h.stored hs id
  rw [opAt_of_eq_some hs] at hat
  refine ⟨record, hrecord, ?_⟩
  split at hat
  · next hw =>
    refine Or.inl ⟨(Option.some.inj hat).symm, ?_⟩
    rw [hbegin, hw, stamp_of_not_committed hopen.2.1]
  · next hw =>
    split at hat
    · next hd =>
      refine Or.inr ⟨(Option.some.inj hat).symm, ?_⟩
      rw [hend.resolve_right fun hloose => hloose.1, Slot.endXid_of_other (filter_live hd id) (Ne.symm hw),
        stamp_of_not_committed hopen.2.1]
    · cases hat

theorem Agrees.commit_isSome (h : Agrees False (fun _ => False) log (versionOf tables) ops) (hkept : Kept base tables)
    (horder : ∀ op, op ∈ order ↔ ops t op) (hnodup : (order.map Operation.addr).Nodup) (c : ℤ) :
    ∃ tables', order.foldlM (Db.commitOperation t c) tables = some tables' ∧ Kept base tables' ∧
      Walked (commitRecord t c) order (versionOf tables) (versionOf tables') := by
  have hops : ∀ op ∈ order, ∃ record slot, versionOf tables op.addr = some record ∧
      commitRecord t c op record = some slot := by
    intro op hop
    obtain ⟨record, hrecord, ⟨htype, hbegin⟩ | ⟨htype, hend⟩⟩ := h.noted ((horder op).mp hop)
    · exact ⟨record, _, hrecord, by simp only [commitRecord, htype]; exact if_pos hbegin⟩
    · exact ⟨record, _, hrecord, by simp only [commitRecord, htype]; exact if_pos hend⟩
  have hround : ∀ tables op record slot, Kept base tables → versionOf tables op.addr = some record →
      commitRecord t c op record = some slot → ∃ tables', Db.commitOperation t c tables op = some tables' ∧
        Kept base tables' ∧ versionOf tables' = Function.update (versionOf tables) op.addr slot := by
    intro tables op record slot hkept hrecord hslot
    obtain ⟨tables', htables', hversion⟩ := commitOperation_isSome hrecord hslot
    exact ⟨tables', htables', hkept.commitOperation htables', hversion⟩
  obtain ⟨tables', hfold, hkept'⟩ := foldlM_isSome hround hnodup hkept hops
  exact ⟨tables', hfold, hkept', walked_foldlM (fun _ _ _ => commitOperation_spec) hnodup hfold⟩

theorem Agrees.rollback_isSome (h : Agrees False (fun _ => False) log (versionOf tables) ops) (hkept : Kept base tables)
    (horder : ∀ op, op ∈ order ↔ ops t op) (hnodup : (order.map Operation.addr).Nodup) :
    ∃ tables', order.foldlM (Db.rollbackOperation t) tables = some tables' ∧ Kept base tables' ∧
      Walked (rollbackRecord t) order (versionOf tables) (versionOf tables') := by
  have hops : ∀ op ∈ order, ∃ record slot, versionOf tables op.addr = some record ∧
      rollbackRecord t op record = some slot := by
    intro op hop
    obtain ⟨record, hrecord, ⟨htype, -⟩ | ⟨htype, hend⟩⟩ := h.noted ((horder op).mp hop)
    · exact ⟨record, none, hrecord, by simp only [rollbackRecord, htype]⟩
    · exact ⟨record, _, hrecord, by simp only [rollbackRecord, htype]; exact if_pos hend⟩
  obtain ⟨tables', hfold, hkept'⟩ :=
    foldlM_isSome (fun _ _ _ _ hkept => rollbackOperation_isSome hkept) hnodup hkept hops
  exact ⟨tables', hfold, hkept', walked_foldlM (fun _ _ _ => rollbackOperation_spec) hnodup hfold⟩

end Ends

/-! ## One record -/

theorem maxBegun_snoc (log : List CLogRecord) (record : CLogRecord) : maxBegun (log ++ [record]) =
    match record with
    | .mtrBegin t => if maxBegun log < t then t else maxBegun log
    | _ => maxBegun log := by
  rw [maxBegun, List.foldl_append]
  rfl

section Redo

variable {known : ℕ → Bool} {walk : OperationSet → List Operation} {base : ℕ → Table} {log : List CLogRecord}
  {r : Recovery} {t : ℤ}

theorem Replayed.version (h : Replayed base log r) (addr : ℕ × RID) :
    versionOf r.tables addr = (slots log addr).map (Slot.record log) := h.agrees.version_eq addr

theorem Replayed.findTrx (h : Replayed base log r) (hopen : Open log t) :
    ∃ i trx, r.findTrx t = some i ∧ r.trxes[i]? = some trx ∧ trx.trxId = t ∧
      ∀ op, op ∈ trx.operations.toList ↔ notes r.trxes t op := by
  obtain ⟨i, trx, hfind, hget, rfl⟩ := findTrx_of_mem ((h.begun t).mp hopen.1)
  refine ⟨i, trx, hfind, hget, rfl, fun op => ?_⟩
  exact (notes_iff h.nodup (List.mem_of_getElem? hget) op).symm

theorem notes_insert {trxes : List MvccTrx} (hnodup : (trxes.map MvccTrx.trxId).Nodup) {i : ℕ} {trx : MvccTrx}
    (hget : trxes[i]? = some trx) (op : Operation) :
    Notes (notes trxes) trx.trxId op
      (notes (trxes.set i { trx with operations := (trx.operations.insert op).2 })) := by
  intro t other
  refine Iff.trans (notes_set hnodup hget (by rfl) t other) ?_
  have hown := notes_iff hnodup (List.mem_of_getElem? hget)
  split
  · next ht =>
    subst ht
    rw [OperationSet.mem_insert, hown]
    simp only [true_and, List.mem_map, not_exists, not_and]
    refine or_congr_right (and_congr_right fun _ => ?_)
    simp only [hown]
  · next ht => simp [ht]

theorem notes_end {trxes : List MvccTrx} (hnodup : (trxes.map MvccTrx.trxId).Nodup) {i : ℕ} {trx : MvccTrx}
    (hget : trxes[i]? = some trx) :
    Forgets (notes trxes) trx.trxId
      (notes (trxes.set i { trx with started := false, operations := .empty })) := by
  intro t op
  refine Iff.trans (notes_set hnodup hget (by rfl) t op) ?_
  split
  · next ht => simp [ht, OperationSet.empty]
  · next ht => simp [ht]

theorem Replayed.mtrBegin (h : Replayed base log r) (hfits : Fits log (.mtrBegin t)) :
    Replayed base (log ++ [.mtrBegin t]) (r.createTrx t) := by
  have hnew : t ∉ r.trxes.map MvccTrx.trxId := fun hmem => hfits.2 ((h.begun t).mpr hmem)
  have hids : (r.createTrx t).trxes.map MvccTrx.trxId = r.trxes.map MvccTrx.trxId ++ [t] := by
    simp [Recovery.createTrx]
  have hnotes : notes (r.createTrx t).trxes = notes r.trxes := by
    funext t' op
    simp [notes, Recovery.createTrx, OperationSet.empty, or_and_right, exists_or]
  refine ⟨h.logged.snoc hfits, ?_, h.kept, ?_, fun t' => ?_, ?_⟩
  · rw [hnotes]
    exact h.agrees.mtrBegin h.logged.facts hfits
  · rw [hids]
    exact h.nodup.append (List.nodup_singleton t) (List.disjoint_singleton.mpr hnew)
  · rw [hids, mem_snoc, List.mem_append, h.begun t', List.mem_singleton, CLogRecord.mtrBegin.injEq]
  · rw [maxBegun_snoc, ← h.current]
    rfl

theorem Replayed.set (h : Replayed base log r) {record : CLogRecord} (hfits : Fits log record)
    (hbegin : ∀ t, record ≠ .mtrBegin t) {i : ℕ} {trx trx' : MvccTrx} (hget : r.trxes[i]? = some trx)
    (hid : trx'.trxId = trx.trxId) {tables : ℕ → Table} (hkept : Kept base tables)
    (hagrees : Agrees False (fun _ => False) (log ++ [record]) (versionOf tables) (notes (r.trxes.set i trx'))) :
    Replayed base (log ++ [record]) { r with tables := tables, trxes := r.trxes.set i trx' } := by
  refine ⟨h.logged.snoc hfits, hagrees, hkept, ?_, fun t' => ?_, ?_⟩
  · rw [map_trxId_set hget hid]
    exact h.nodup
  · rw [map_trxId_set hget hid, mem_snoc, h.begun t', or_iff_left (Ne.symm (hbegin t'))]
  · rw [maxBegun_snoc]
    cases record with
    | mtrBegin t => exact absurd rfl (hbegin t)
    | _ => exact h.current

theorem Replayed.accepts (h : Replayed base log r) {table : ℕ} {rid : RID} {data : Bytes}
    (hfree : slots log (table, rid) = none) (hfresh : Fresh base log table data) :
    (r.tables table).Accepts data rid := by
  obtain ⟨hsound, hschema⟩ := h.kept table
  intro index hindex hnull
  obtain ⟨index', hindex', hmetas, hunique⟩ := hschema.exists_index hindex
  rw [hschema.hasNull, ← hmetas] at hnull
  have hstored : ∀ rid' record, (r.tables table).records rid' = some record →
      ∃ s, slots log (table, rid') = some s ∧ s.data = record.data := by
    intro rid' record hrecord
    have hversion := h.version (table, rid')
    rw [show versionOf r.tables (table, rid') = some record from hrecord, eq_comm, Option.map_eq_some_iff] at hversion
    obtain ⟨s, hs, rfl⟩ := hversion
    exact ⟨s, hs, rfl⟩
  unfold Index.refuses
  split
  · next hu =>
    rw [decide_eq_false_iff_not]
    rintro ⟨⟨key, rid'⟩, hmem, hkey⟩
    obtain ⟨record, hrecord, hnull', rfl⟩ := (hsound.consistent index hindex key rid').mp hmem
    obtain ⟨s, hs, hdata⟩ := hstored rid' record hrecord
    rw [hschema.hasNull, ← hmetas, ← hdata] at hnull'
    apply hfresh index' hindex' (hunique.trans hu) hnull rid' s hs hnull'
    rw [Index.key_congr hmetas, Index.key_congr hmetas, hdata]
    exact hkey
  · rw [decide_eq_false_iff_not]
    intro hmem
    obtain ⟨record, hrecord, -⟩ := (hsound.consistent index hindex _ rid).mp hmem
    obtain ⟨s, hs, -⟩ := hstored rid record hrecord
    rw [hfree] at hs
    cases hs

/-- What a record must do: it can be replayed, leaves the tables in agreement with the log when it has succeeded, and
succeeds when it is accepted. -/
def Redoes (known : ℕ → Bool) (walk : OperationSet → List Operation) (base : ℕ → Table) (log : List CLogRecord)
    (r : Recovery) (record : CLogRecord) : Prop :=
  ∃ rc r', r.redoRecord known walk record = some (rc, r') ∧ (rc = .success → Replayed base (log ++ [record]) r') ∧
    (Accepted known base log record → rc = .success)

theorem Replayed.insert (h : Replayed base log r) {table : ℕ} {rid : RID} {record : Record}
    (hfits : Fits log (.insert t table rid record)) :
    Redoes known walk base log r (.insert t table rid record) := by
  obtain ⟨hopen, hfree, -⟩ := id hfits
  obtain ⟨i, trx, hfind, hget, rfl, hops⟩ := h.findTrx hopen
  have hrun : ∀ rc trx' tables, redo known walk r.tables trx (.insert trx.trxId table rid record) = some (rc, trx', tables) →
      r.redoRecord known walk (.insert trx.trxId table rid record) =
        some (rc, { r with tables := tables, trxes := r.trxes.set i trx' }) := by
    intro rc trx' tables hredo
    exact redoRecord_of_redo (by simp) hfind hget hredo
  by_cases hknown : known table = true
  · have hslot : (r.tables table).records rid = none := by
      have hversion := h.version (table, rid)
      rw [hfree] at hversion
      exact hversion
    by_cases hrc : ((r.tables table).insertRecord record rid).1 = .success
    · refine ⟨_, _, hrun .success _ _ (by simp only [redo, hknown, if_true, hrc, ne_eq, not_true_eq_false, if_false]; rfl),
        fun _ => ?_, fun _ => rfl⟩
      have hrecords := records_insertRecord (r.tables table) record rid
      rw [if_pos hrc] at hrecords
      have hversion := versionOf_update r.tables table _ rid _ hrecords
      refine h.set hfits (by simp) hget (by rfl) ?_ ?_
      · exact h.kept.update table ((h.kept table).1.insertRecord record hslot) (sameSchema_insertRecord hrc)
      · rw [hversion]
        exact h.agrees.insert hfits id (notes_insert h.nodup hget _)
    · refine ⟨_, _, hrun ((r.tables table).insertRecord record rid).1 trx _
        (by simp only [redo, hknown, if_true, hrc, ne_eq, not_false_eq_true]; rfl), fun heq => absurd heq hrc, ?_⟩
      rintro ⟨-, hfresh⟩
      exact absurd (Table.insertRecord_accepted (h.kept table).1.wellFormed record (h.accepts hfree hfresh)) hrc
  · refine ⟨_, _, hrun .schemaTableNotExist trx r.tables (by simp [redo, hknown]), fun heq => (by cases heq), ?_⟩
    rintro ⟨hknown', -⟩
    exact absurd hknown' hknown

theorem Replayed.delete (h : Replayed base log r) {table : ℕ} {rid : RID} (hfits : Fits log (.delete t table rid)) :
    Redoes known walk base log r (.delete t table rid) := by
  obtain ⟨hopen, s, hs, hnone, -⟩ := id hfits
  obtain ⟨i, trx, hfind, hget, rfl, hops⟩ := h.findTrx hopen
  have hrun : ∀ rc trx' tables, redo known walk r.tables trx (.delete trx.trxId table rid) = some (rc, trx', tables) →
      r.redoRecord known walk (.delete trx.trxId table rid) =
        some (rc, { r with tables := tables, trxes := r.trxes.set i trx' }) := by
    intro rc trx' tables hredo
    exact redoRecord_of_redo (by simp) hfind hget hredo
  by_cases hknown : known table = true
  · have hrecord : versionOf r.tables (table, rid) = some (s.record log) := by rw [h.version, hs, Option.map_some]
    have hend : (s.record log).endXid = maxTrxId := Slot.endXid_of_none hnone
    refine ⟨_, _, hrun .success _ _ (by
      simp only [redo, hknown, if_true, hrecord, Option.bind_eq_bind, Option.bind_some, hend, ne_eq, not_true_eq_false,
        if_false]; rfl), fun _ => ?_, fun _ => rfl⟩
    refine h.set hfits (by simp) hget (by rfl) (h.kept.setVersion hrecord rfl) ?_
    rw [versionOf_setVersion]
    exact h.agrees.delete hfits id (notes_insert h.nodup hget _) hrecord
  · refine ⟨_, _, hrun .schemaTableNotExist trx r.tables (by simp [redo, hknown]), fun heq => (by cases heq), ?_⟩
    intro hknown'
    exact absurd hknown' hknown

theorem Replayed.mtrCommit (h : Replayed base log r) (hwalk : ∀ set, (walk set).Perm set.toList) {c : ℤ}
    (hfits : Fits log (.mtrCommit t c)) : Redoes known walk base log r (.mtrCommit t c) := by
  obtain ⟨hopen, -⟩ := id hfits
  obtain ⟨i, trx, hfind, hget, rfl, hops⟩ := h.findTrx hopen
  have hperm := hwalk trx.operations
  have horder : ∀ op, op ∈ walk trx.operations ↔ notes r.trxes trx.trxId op := fun op =>
    hperm.mem_iff.trans (hops op)
  have hnodup : ((walk trx.operations).map Operation.addr).Nodup :=
    (hperm.map Operation.addr).nodup_iff.mpr trx.operations.nodup
  obtain ⟨tables, hfold, hkept, hwalked⟩ := h.agrees.commit_isSome h.kept horder hnodup c
  refine ⟨.success, { r with
    tables := tables
    trxes := r.trxes.set i { trx with started := false, operations := .empty } }, ?_, fun _ => ?_, fun _ => rfl⟩
  · simp only [Recovery.redoRecord, recordTrxId, hfind, hget, redo, hfold, Option.bind_eq_bind, Option.bind_some]
  · refine h.set hfits (by simp) hget (by rfl) hkept ?_
    exact h.agrees.mtrCommit h.logged.facts hfits id horder hwalked (notes_end h.nodup hget)

theorem Replayed.mtrRollback (h : Replayed base log r) (hwalk : ∀ set, (walk set).Perm set.toList)
    (hfits : Fits log (.mtrRollback t)) : Redoes known walk base log r (.mtrRollback t) := by
  have hopen : Open log t := hfits
  obtain ⟨i, trx, hfind, hget, rfl, hops⟩ := h.findTrx hopen
  have hperm := hwalk trx.operations
  have horder : ∀ op, op ∈ walk trx.operations ↔ notes r.trxes trx.trxId op := fun op =>
    hperm.mem_iff.trans (hops op)
  have hnodup : ((walk trx.operations).map Operation.addr).Nodup :=
    (hperm.map Operation.addr).nodup_iff.mpr trx.operations.nodup
  obtain ⟨tables, hfold, hkept, hwalked⟩ := h.agrees.rollback_isSome h.kept horder hnodup
  refine ⟨.success, { r with
    tables := tables
    trxes := r.trxes.set i { trx with started := false, operations := .empty } }, ?_, fun _ => ?_, fun _ => rfl⟩
  · simp only [Recovery.redoRecord, recordTrxId, hfind, hget, redo, hfold, Option.bind_eq_bind, Option.bind_some]
  · refine h.set hfits (by simp) hget (by rfl) hkept ?_
    exact h.agrees.mtrRollback h.logged.facts hfits id horder hwalked (notes_end h.nodup hget)

theorem Replayed.redoRecord (h : Replayed base log r) (hwalk : ∀ set, (walk set).Perm set.toList) {record : CLogRecord}
    (hfits : Fits log record) : Redoes known walk base log r record := by
  cases record with
  | mtrBegin t => exact ⟨.success, r.createTrx t, rfl, fun _ => h.mtrBegin hfits, fun _ => rfl⟩
  | insert t table rid record => exact h.insert hfits
  | delete t table rid => exact h.delete hfits
  | mtrCommit t c => exact h.mtrCommit hwalk hfits
  | mtrRollback t => exact h.mtrRollback hwalk hfits

end Redo

/-! ## The whole log -/

section Whole

variable {known : ℕ → Bool} {walk : OperationSet → List Operation} {base : ℕ → Table} {log : List CLogRecord}

theorem redoAll_append (r : Recovery) (log log' : List CLogRecord) :
    r.redoAll known walk (log ++ log') =
      (r.redoAll known walk log).bind fun x => if x.1 ≠ .success then some x else x.2.redoAll known walk log' := by
  induction log generalizing r with
  | nil => rfl
  | cons record log ih =>
    rw [List.cons_append, Recovery.redoAll, Recovery.redoAll]
    cases hredo : r.redoRecord known walk record with
    | none => rfl
    | some x =>
      obtain ⟨rc, r'⟩ := x
      simp only [Option.bind_eq_bind, Option.bind_some]
      by_cases hrc : rc = .success
      · simp only [hrc, ne_eq, not_true_eq_false, if_false]
        exact ih r'
      · simp only [hrc, ne_eq, not_false_eq_true, if_true, Option.bind_some]

theorem redoAll_snoc {r : Recovery} {record : CLogRecord} {r' : Recovery}
    (h : r.redoAll known walk (log ++ [record]) = some (.success, r')) :
    ∃ r₁, r.redoAll known walk log = some (.success, r₁) ∧ r₁.redoRecord known walk record = some (.success, r') := by
  rw [redoAll_append, Option.bind_eq_some_iff] at h
  obtain ⟨⟨rc, r₁⟩, hfirst, hrest⟩ := h
  split at hrest
  · next hrc =>
    obtain ⟨rfl, -⟩ := Prod.mk.inj (Option.some.inj hrest)
    exact absurd rfl hrc
  · next hrc =>
    obtain rfl : rc = .success := not_not.mp hrc
    refine ⟨r₁, hfirst, ?_⟩
    rw [Recovery.redoAll, Option.bind_eq_bind, Option.bind_eq_some_iff] at hrest
    obtain ⟨⟨rc, r₂⟩, hredo, hrest⟩ := hrest
    dsimp only at hrest
    split at hrest
    · next hrc' =>
      obtain ⟨rfl, -⟩ := Prod.mk.inj (Option.some.inj hrest)
      exact absurd rfl hrc'
    · next hrc' =>
      obtain rfl : rc = .success := not_not.mp hrc'
      rw [hredo]
      exact hrest

theorem redoAll_snoc_success {r r₁ r' : Recovery} {record : CLogRecord}
    (hfirst : r.redoAll known walk log = some (.success, r₁))
    (hredo : r₁.redoRecord known walk record = some (.success, r')) :
    r.redoAll known walk (log ++ [record]) = some (.success, r') := by
  rw [redoAll_append, hfirst]
  simp only [Option.bind_some, ne_eq, not_true_eq_false, if_false, Recovery.redoAll, hredo, Option.bind_eq_bind]

/-- Tables without records, with empty indexes on their own fields. -/
structure Empty (base : ℕ → Table) : Prop where
  wellFormed : ∀ table, (base table).WellFormed
  records : ∀ table rid, (base table).records rid = none
  indexes : ∀ table, ∀ index ∈ (base table).indexes, index.entries = ∅

/-- Such tables, the trees of whose indexes are sets of entries. -/
structure NewTables (base : ℕ → Table) : Prop extends Empty base where
  wellKeyed : ∀ table, (base table).WellKeyed

theorem Replayed.nil (hbase : Empty base) : Replayed base [] ⟨base, 0, []⟩ := by
  refine ⟨.nil, ⟨?_, fun addr => ?_, fun t op => ?_⟩, fun table => ⟨?_, SameSchema.refl _⟩, List.nodup_nil, ?_, rfl⟩
  · rintro t ⟨⟩
  · exact Matches.none_iff.mpr (hbase.records addr.1 addr.2)
  · simp [notes, Open]
  · exact Table.sound_of_empty (hbase.wellFormed table) (hbase.records table) (hbase.indexes table)
  · simp

theorem replayed_of_redoAll (hwalk : ∀ set, (walk set).Perm set.toList) (hbase : Empty base) (hlog : WellLogged log)
    {r : Recovery} (hredo : Recovery.redoAll known walk ⟨base, 0, []⟩ log = some (.success, r)) :
    Replayed base log r := by
  induction hlog generalizing r with
  | nil =>
    obtain ⟨-, rfl⟩ := Prod.mk.inj (Option.some.inj hredo)
    exact Replayed.nil hbase
  | @snoc log record hlog hfits ih =>
    obtain ⟨r₁, hfirst, hlast⟩ := redoAll_snoc hredo
    obtain ⟨rc, r', hrun, hreplayed, -⟩ := (ih hfirst).redoRecord hwalk hfits
    obtain ⟨rfl, rfl⟩ := Prod.mk.inj (Option.some.inj (hrun.symm.trans hlast))
    exact hreplayed rfl

/-- Every record of the log is accepted after those before it. -/
def AllAccepted (known : ℕ → Bool) (base : ℕ → Table) (log : List CLogRecord) : Prop :=
  ∀ front record, front ++ [record] <+: log → Accepted known base front record

theorem AllAccepted.of_snoc {record : CLogRecord} (h : AllAccepted known base (log ++ [record])) :
    AllAccepted known base log ∧ Accepted known base log record :=
  ⟨fun front other hfront => h front other (hfront.trans (List.prefix_append _ _)), h log record (List.prefix_refl _)⟩

theorem snoc_front_cases {front : List CLogRecord} {record other : CLogRecord} (h : front ++ [other] <+: log ++ [record]) :
    front = log ∧ other = record ∨ front ++ [other] <+: log := by
  cases List.prefix_concat_iff.mp h with
  | inl heq =>
    obtain ⟨hfront, hlast⟩ := List.append_inj' heq rfl
    exact Or.inl ⟨hfront, List.singleton_inj.mp hlast⟩
  | inr hfront => exact Or.inr hfront

theorem redoAll_isSome (hwalk : ∀ set, (walk set).Perm set.toList) (hbase : Empty base) (hlog : WellLogged log)
    (haccepted : AllAccepted known base log) :
    ∃ r, Recovery.redoAll known walk ⟨base, 0, []⟩ log = some (.success, r) := by
  induction hlog with
  | nil => exact ⟨_, rfl⟩
  | @snoc log record hlog hfits ih =>
    obtain ⟨hfront, hlast⟩ := haccepted.of_snoc
    obtain ⟨r₁, hfirst⟩ := ih hfront
    obtain ⟨rc, r', hrun, -, hrc⟩ :=
      (replayed_of_redoAll hwalk hbase hlog hfirst).redoRecord hwalk hfits
    obtain rfl := hrc hlast
    exact ⟨r', redoAll_snoc_success hfirst hrun⟩

/-! ## The unfinished transactions -/

theorem Slot.record_congr {log log' : List CLogRecord} (h : ∀ t, stamp log' t = stamp log t) (s : Slot) :
    s.record log' = s.record log := by
  simp only [Slot.record, Slot.endXid, h]

/-- The last loop takes away what the open ones among the transactions have done. -/
theorem rollbackAll_spec (hwalk : ∀ set, (walk set).Perm set.toList) {trxes : List MvccTrx} {tables : ℕ → Table}
    (hl : LogFacts log) (hagrees : Agrees False (fun _ => False) log (versionOf tables) (notes trxes))
    (hkept : Kept base tables) (hnodup : (trxes.map MvccTrx.trxId).Nodup) :
    ∃ tables', rollbackAll walk tables trxes = some tables' ∧ Kept base tables' ∧ ∀ addr, versionOf tables' addr =
      ((slots log addr).bind (Slot.without fun t => Open log t ∧ t ∈ trxes.map MvccTrx.trxId)).map (Slot.record log) := by
  induction trxes generalizing tables log with
  | nil =>
    refine ⟨tables, rfl, hkept, fun addr => ?_⟩
    rw [hagrees.version_eq addr]
    cases slots log addr with
    | none => rfl
    | some s => rw [Option.bind_some, Slot.without_self (by simp) (by simp)]
  | cons trx trxes ih =>
    have hown := notes_iff hnodup List.mem_cons_self
    rw [List.map_cons, List.nodup_cons] at hnodup
    obtain ⟨hnew, hnodup⟩ := hnodup
    have hforgets : Forgets (notes (trx :: trxes)) trx.trxId (notes trxes) := by
      intro t op
      constructor
      · rintro ⟨other, hother, rfl, hop⟩
        refine ⟨fun heq => hnew (heq ▸ List.mem_map_of_mem hother), other, List.mem_cons_of_mem _ hother, rfl, hop⟩
      · rintro ⟨hne, other, hother, rfl, hop⟩
        rcases List.mem_cons.mp hother with rfl | hother
        · exact absurd rfl hne
        · exact ⟨other, hother, rfl, hop⟩
    by_cases hopen : Open log trx.trxId
    · have hperm := hwalk trx.operations
      have horder : ∀ op, op ∈ walk trx.operations ↔ notes (trx :: trxes) trx.trxId op := fun op =>
        hperm.mem_iff.trans (hown op).symm
      obtain ⟨tables₁, hfold, hkept₁, hwalked⟩ := hagrees.rollback_isSome hkept horder
        ((hperm.map Operation.addr).nodup_iff.mpr trx.operations.nodup)
      have hagrees₁ := hagrees.mtrRollback hl hopen id horder hwalked hforgets
      obtain ⟨tables', hrest, hkept', hversion⟩ := ih (hl.mtrRollback hopen) hagrees₁ hkept₁ hnodup
      refine ⟨tables', ?_, hkept', fun addr => ?_⟩
      · simp only [rollbackAll, hfold, Option.bind_eq_bind, Option.bind_some, hrest]
      · have hothers : ∀ t', t' ≠ trx.trxId → (Open (log ++ [.mtrRollback trx.trxId]) t' ↔ Open log t') :=
          (Agrees.open_end (Or.inl rfl)).2
        have hdead : ∀ t, (t = trx.trxId ∨ Open (log ++ [.mtrRollback trx.trxId]) t ∧ t ∈ trxes.map MvccTrx.trxId) ↔
            Open log t ∧ t ∈ (trx :: trxes).map MvccTrx.trxId := by
          intro t
          rw [List.map_cons, List.mem_cons]
          by_cases ht : t = trx.trxId
          · simp [ht, hopen]
          · simp [ht, hothers t ht]
        rw [hversion addr, slots_snoc, slotStep, Option.bind_assoc]
        have hrecord : ∀ s : Slot, s.record (log ++ [.mtrRollback trx.trxId]) = s.record log :=
          Slot.record_congr fun t => stamp_snoc (by simp)
        congr 1
        · exact funext hrecord
        · congr 1
          funext s
          rw [Slot.without_without]
          simp only [hdead]
    · have hnil : trx.operations.toList = [] := by
        rw [List.eq_nil_iff_forall_not_mem]
        intro op hop
        exact hopen ((hagrees.ops _ op).mp ((hown op).mpr hop)).1
      have hwalked : walk trx.operations = [] := (hnil ▸ hwalk trx.operations).eq_nil
      have hnotes : notes (trx :: trxes) = notes trxes := by
        funext t op
        rw [eq_iff_iff, hforgets t op, iff_and_self]
        rintro hop rfl
        exact hopen ((hagrees.ops _ op).mp hop).1
      rw [hnotes] at hagrees
      obtain ⟨tables', hrest, hkept', hversion⟩ := ih hl hagrees hkept hnodup
      refine ⟨tables', ?_, hkept', fun addr => ?_⟩
      · simp only [rollbackAll, hwalked, List.foldlM_nil, Option.pure_def, Option.bind_eq_bind, Option.bind_some, hrest]
      · have hdead : ∀ t, Open log t ∧ t ∈ (trx :: trxes).map MvccTrx.trxId ↔
            Open log t ∧ t ∈ trxes.map MvccTrx.trxId := by
          intro t
          rw [List.map_cons, List.mem_cons]
          refine and_congr_right fun ht => or_iff_right ?_
          rintro rfl
          exact hopen ht
        rw [hversion addr]
        simp only [hdead]

/-- What recovery leaves of a log. -/
structure Recovered (base : ℕ → Table) (log : List CLogRecord) (r : Recovery) : Prop where
  kept : Kept base r.tables
  version : ∀ addr, versionOf r.tables addr =
    ((slots log addr).bind (Slot.without (Open log))).map (Slot.record log)
  current : r.currentTrxId = maxBegun log

theorem recover_of_redoAll {r : Recovery} (hwalk : ∀ set, (walk set).Perm set.toList) (h : Replayed base log r)
    (hredo : Recovery.redoAll known walk ⟨base, 0, []⟩ log = some (.success, r)) :
    ∃ r', recover known walk base log = some (.success, r') ∧ Recovered base log r' := by
  obtain ⟨tables, hundo, hkept, hversion⟩ := rollbackAll_spec hwalk h.logged.facts h.agrees h.kept h.nodup
  refine ⟨{ r with tables := tables, trxes := [] }, ?_, hkept, fun addr => ?_, h.current⟩
  · simp only [recover, hredo, Option.bind_eq_bind, Option.bind_some, ne_eq, not_true_eq_false, if_false, hundo]
  · have hdead : ∀ t, Open log t ∧ t ∈ r.trxes.map MvccTrx.trxId ↔ Open log t := by
      intro t
      rw [← h.begun t, and_iff_left_iff_imp]
      exact fun hopen => hopen.1
    rw [hversion addr]
    simp only [hdead]

theorem redoAll_of_recover {r : Recovery} (hrun : recover known walk base log = some (.success, r)) :
    ∃ r', Recovery.redoAll known walk ⟨base, 0, []⟩ log = some (.success, r') := by
  obtain ⟨r', -, hredo, -⟩ := recover_success hrun
  exact ⟨r', hredo⟩

theorem recover_isSome (hwalk : ∀ set, (walk set).Perm set.toList) (hbase : Empty base) (hlog : WellLogged log)
    (haccepted : AllAccepted known base log) :
    ∃ r, recover known walk base log = some (.success, r) ∧ Recovered base log r := by
  obtain ⟨r, hredo⟩ := redoAll_isSome hwalk hbase hlog haccepted
  exact recover_of_redoAll hwalk (replayed_of_redoAll hwalk hbase hlog hredo) hredo

theorem recovered_of_recover (hwalk : ∀ set, (walk set).Perm set.toList) (hbase : Empty base) (hlog : WellLogged log)
    {r : Recovery} (hrun : recover known walk base log = some (.success, r)) : Recovered base log r := by
  obtain ⟨r₁, hredo⟩ := redoAll_of_recover hrun
  obtain ⟨r', hrun', hrecovered⟩ := recover_of_redoAll hwalk (replayed_of_redoAll hwalk hbase hlog hredo) hredo
  obtain ⟨-, rfl⟩ := Prod.mk.inj (Option.some.inj (hrun.symm.trans hrun'))
  exact hrecovered

end Whole

end Landbase.Clog
