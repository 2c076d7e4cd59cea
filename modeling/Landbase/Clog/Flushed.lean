import Landbase.Index.Focus
import Landbase.Clog.Crashes

/-! # Recovery over pages that have been flushed

A page may reach the disk at any time before the crash, and the whole log is replayed over what is there. For records this
does no harm: the insertion of a row overwrites whatever its slot holds, and before it nothing reads the slot. An index
that is not empty refuses the entries that it holds already.
-/

namespace Landbase.Clog
open Landbase.Storage Landbase.Trx
set_option autoImplicit false

/-! ## Tables that differ in their records -/

/-- The tables with other records in their slots. -/
def overlay (tables : ℕ → Table) (f : ℕ × RID → Option Record) : ℕ → Table :=
  fun table => { tables table with records := fun rid => f (table, rid) }

section Overlay

variable (tables : ℕ → Table) (f : ℕ × RID → Option Record)

theorem overlay_versionOf : overlay tables (versionOf tables) = tables := rfl

theorem update_overlay (table : ℕ) (t : Table) (rid : RID) :
    Function.update (overlay tables f) table
        { t with records := Function.update (fun rid' => f (table, rid')) rid (t.records rid) } =
      overlay (Function.update tables table t) (Function.update f (table, rid) (t.records rid)) := by
  funext table'
  by_cases htable : table' = table
  · subst htable
    rw [Function.update_self, overlay, Function.update_self]
    congr 1
    funext rid'
    by_cases hrid : rid' = rid
    · rw [hrid, Function.update_self, Function.update_self]
    · rw [Function.update_of_ne hrid, Function.update_of_ne]
      simpa using hrid
  · rw [Function.update_of_ne htable, overlay, overlay, Function.update_of_ne htable]
    congr 1
    funext rid'
    rw [Function.update_of_ne]
    simp [htable]

theorem setVersion_overlay (addr : ℕ × RID) (record : Record) :
    Db.setVersion (overlay tables f) addr record =
      overlay (Db.setVersion tables addr record) (Function.update f addr (some record)) := by
  have h := update_overlay tables f addr.1 ((tables addr.1).setRecord addr.2 (some record)) addr.2
  have hrecord : ((tables addr.1).setRecord addr.2 (some record)).records addr.2 = some record := Function.update_self ..
  rw [hrecord] at h
  exact h

theorem insertRecord_overlay (table : ℕ) (record : Record) (rid : RID) :
    (overlay tables f table).insertRecord record rid =
      (((tables table).insertRecord record rid).1,
        { ((tables table).insertRecord record rid).2 with
          records := Function.update (fun rid' => f (table, rid')) rid
            (((tables table).insertRecord record rid).2.records rid) }) := by
  have hentries : ∀ indexes, (overlay tables f table).insertEntries record.data rid indexes =
      (tables table).insertEntries record.data rid indexes := by
    intro indexes
    apply Table.insertEntries_congr <;> rfl
  have hdelete : ∀ rc indexes, (overlay tables f table).deleteEntries record.data rid false rc indexes =
      (tables table).deleteEntries record.data rid false rc indexes := by
    intro rc indexes
    apply Table.deleteEntries_congr <;> rfl
  rw [Table.insertRecord_eq, Table.insertRecord_eq (tables table)]
  have hindexes : (overlay tables f table).indexes = (tables table).indexes := rfl
  rw [hindexes, hentries, hdelete]
  split
  · simp [overlay]
  · simp [overlay]

theorem deleteRecord_overlay {table : ℕ} {record : Record} {rid : RID} (h : f (table, rid) = (tables table).records rid) :
    (overlay tables f table).deleteRecord record rid =
      (((tables table).deleteRecord record rid).1,
        { ((tables table).deleteRecord record rid).2 with
          records := Function.update (fun rid' => f (table, rid')) rid
            (((tables table).deleteRecord record rid).2.records rid) }) := by
  have hdelete : (overlay tables f table).deleteEntries record.data rid true .success (tables table).indexes =
      (tables table).deleteEntries record.data rid true .success (tables table).indexes := by
    apply Table.deleteEntries_congr <;> rfl
  have hindexes : (overlay tables f table).indexes = (tables table).indexes := rfl
  unfold Table.deleteRecord Table.deleteEntryOfIndexes
  rw [hindexes, hdelete]
  dsimp only
  split
  · simp [overlay, ← h]
  · simp only [Table.eraseRecord, overlay, h]
    cases hrecord : (tables table).records rid with
    | none =>
      simp only [hrecord]
      rw [← hrecord, ← h, Function.update_eq_self]
    | some stored => simp [Table.setRecord]

end Overlay

/-! ## Replaying over other records -/

/-- A row is inserted into the slot. -/
def Inserted (log : List CLogRecord) (addr : ℕ × RID) : Prop := ∃ t record, .insert t addr.1 addr.2 record ∈ log

/-- The slots hold what they should, but for those that the rest of the log is to overwrite. -/
def Pending (rest : List CLogRecord) (version f : ℕ × RID → Option Record) : Prop :=
  ∀ addr, f addr = version addr ∨ (version addr = none ∧ Inserted rest addr)

section Pending

variable {rest : List CLogRecord} {version f : ℕ × RID → Option Record}

theorem Pending.here (h : Pending rest version f) {addr : ℕ × RID} {record : Record} (hrecord : version addr = some record) :
    f addr = some record := by
  rcases h addr with heq | ⟨hnone, -⟩
  · rw [heq, hrecord]
  · rw [hrecord] at hnone
    cases hnone

theorem Pending.update (h : Pending rest version f) (addr : ℕ × RID) (slot : Option Record) :
    Pending rest (Function.update version addr slot) (Function.update f addr slot) := by
  intro addr'
  by_cases haddr : addr' = addr
  · rw [haddr, Function.update_self, Function.update_self]
    exact Or.inl rfl
  · rw [Function.update_of_ne haddr, Function.update_of_ne haddr]
    exact h addr'

theorem Pending.insert {t : ℤ} {table : ℕ} {rid : RID} {record : Record}
    (h : Pending (.insert t table rid record :: rest) version f) (slot : Option Record) :
    Pending rest (Function.update version (table, rid) slot) (Function.update f (table, rid) slot) := by
  intro addr
  by_cases haddr : addr = (table, rid)
  · rw [haddr, Function.update_self, Function.update_self]
    exact Or.inl rfl
  · rw [Function.update_of_ne haddr, Function.update_of_ne haddr]
    refine (h addr).imp_right (And.imp_right ?_)
    rintro ⟨t', record', hlogged⟩
    cases List.mem_cons.mp hlogged with
    | inl heq =>
      cases heq
      exact absurd rfl haddr
    | inr hlogged => exact ⟨t', record', hlogged⟩

theorem Pending.tail {record : CLogRecord} (h : Pending (record :: rest) version f)
    (hrecord : ∀ t table rid row, record ≠ .insert t table rid row) : Pending rest version f := by
  intro addr
  refine (h addr).imp_right (And.imp_right ?_)
  rintro ⟨t, row, hlogged⟩
  cases List.mem_cons.mp hlogged with
  | inl heq => exact absurd heq.symm (hrecord _ _ _ _)
  | inr hlogged => exact ⟨t, row, hlogged⟩

end Pending

section Replay

variable {known : ℕ → Bool} {walk : OperationSet → List Operation} {rest : List CLogRecord} {tables tables' : ℕ → Table}
  {f : ℕ × RID → Option Record}

theorem commitOperation_overlay {t c : ℤ} {op : Operation} (h : Pending rest (versionOf tables) f)
    (hround : Db.commitOperation t c tables op = some tables') :
    ∃ f', Db.commitOperation t c (overlay tables f) op = some (overlay tables' f') ∧
      Pending rest (versionOf tables') f' := by
  obtain ⟨record, record', hrecord, hslot, -, rfl⟩ := commitOperation_setVersion hround
  have hf : versionOf (overlay tables f) op.addr = some record := h.here hrecord
  obtain ⟨after, hround', -⟩ := commitOperation_isSome hf hslot
  obtain ⟨_, record'', hrecord'', hslot'', -, rfl⟩ := commitOperation_setVersion hround'
  obtain rfl := Option.some.inj (hf.symm.trans hrecord'')
  obtain rfl := Option.some.inj (Option.some.inj (hslot.symm.trans hslot''))
  refine ⟨Function.update f op.addr (some record'), ?_, ?_⟩
  · rw [hround', setVersion_overlay]
  · rw [versionOf_setVersion]
    exact h.update _ _

theorem rollbackOperation_overlay {t : ℤ} {op : Operation} (h : Pending rest (versionOf tables) f)
    (hround : Db.rollbackOperation t tables op = some tables') :
    ∃ f', Db.rollbackOperation t (overlay tables f) op = some (overlay tables' f') ∧
      Pending rest (versionOf tables') f' := by
  obtain ⟨record, hrecord, ⟨htype, hrc, rfl⟩ | ⟨htype, hend, rfl⟩⟩ := rollbackOperation_cases hround
  · have hf : f op.addr = some record := h.here hrecord
    have hdelete : (overlay tables f op.table).deleteRecord record op.rid = _ :=
      deleteRecord_overlay tables f (hf.trans hrecord.symm)
    refine ⟨Function.update f op.addr (((tables op.table).deleteRecord record op.rid).2.records op.rid), ?_, ?_⟩
    · have hversion : versionOf (overlay tables f) op.addr = some record := hf
      unfold Db.rollbackOperation
      simp only [htype, hversion, Option.bind_eq_bind, Option.bind_some, hdelete, hrc, ne_eq, not_true_eq_false, if_false]
      exact congrArg some (update_overlay tables f op.table _ op.rid)
    · have hrecords := records_deleteRecord _ _ _ hrc
      rw [versionOf_update _ _ _ _ _ hrecords, hrecords, Function.update_self]
      exact h.update _ _
  · have hf : f op.addr = some record := h.here hrecord
    refine ⟨Function.update f op.addr (some { record with endXid := maxTrxId }), ?_, ?_⟩
    · have hversion : versionOf (overlay tables f) op.addr = some record := hf
      unfold Db.rollbackOperation
      cases htype' : op.type with
      | insert => exact absurd htype' htype
      | update => simp [hversion, hend, setVersion_overlay]
      | delete => simp [hversion, hend, setVersion_overlay]
    · rw [versionOf_setVersion]
      exact h.update _ _

theorem foldlM_overlay {g : (ℕ → Table) → Operation → Option (ℕ → Table)}
    (hround : ∀ tables tables' f op, Pending rest (versionOf tables) f → g tables op = some tables' →
      ∃ f', g (overlay tables f) op = some (overlay tables' f') ∧ Pending rest (versionOf tables') f')
    {order : List Operation} (h : Pending rest (versionOf tables) f) (hloop : order.foldlM g tables = some tables') :
    ∃ f', order.foldlM g (overlay tables f) = some (overlay tables' f') ∧ Pending rest (versionOf tables') f' := by
  induction order generalizing tables f with
  | nil =>
    obtain rfl := Option.some.inj hloop
    exact ⟨f, rfl, h⟩
  | cons op order ih =>
    rw [List.foldlM_cons, Option.bind_eq_bind, Option.bind_eq_some_iff] at hloop
    obtain ⟨tables₁, hfirst, hrest⟩ := hloop
    obtain ⟨f₁, hfirst', h₁⟩ := hround _ _ _ _ h hfirst
    obtain ⟨f', hrest', h'⟩ := ih h₁ hrest
    refine ⟨f', ?_, h'⟩
    rw [List.foldlM_cons, hfirst', Option.bind_eq_bind, Option.bind_some]
    exact hrest'

theorem redo_overlay {trx trx' : MvccTrx} {record : CLogRecord} (h : Pending (record :: rest) (versionOf tables) f)
    (hredo : redo known walk tables trx record = some (.success, trx', tables')) :
    ∃ f', redo known walk (overlay tables f) trx record = some (.success, trx', overlay tables' f') ∧
      Pending rest (versionOf tables') f' := by
  cases record with
  | mtrBegin t => cases hredo
  | insert t table rid row =>
    obtain ⟨hknown, hrc, rfl, rfl⟩ := redo_insert_success hredo
    have hrecords : ((tables table).insertRecord row rid).2.records =
        Function.update (tables table).records rid (some row) := by
      rw [insertRecord_success hrc]
    refine ⟨Function.update f (table, rid) (((tables table).insertRecord row rid).2.records rid), ?_, ?_⟩
    · simp only [redo]
      rw [if_pos hknown, insertRecord_overlay, if_neg (not_not.mpr hrc), update_overlay]
    · rw [versionOf_update _ _ _ _ _ hrecords, hrecords, Function.update_self]
      exact h.insert _
  | delete t table rid =>
    have h := h.tail (by simp)
    obtain ⟨hknown, row, hrow, hend, rfl, rfl⟩ := redo_delete_success hredo
    have hversion : versionOf (overlay tables f) (table, rid) = some row := h.here hrow
    refine ⟨Function.update f (table, rid) (some { row with endXid := -trx.trxId }), ?_, ?_⟩
    · simp only [redo]
      rw [if_pos hknown, hversion, Option.bind_eq_bind, Option.bind_some, if_neg (not_not.mpr hend), setVersion_overlay]
    · rw [versionOf_setVersion]
      exact h.update _ _
  | mtrCommit t c =>
    obtain ⟨hloop, rfl⟩ := redo_mtrCommit_success hredo
    obtain ⟨f', hloop', h'⟩ := foldlM_overlay (g := Db.commitOperation trx.trxId c)
      (fun _ _ _ _ => commitOperation_overlay) (h.tail (by simp)) hloop
    refine ⟨f', ?_, h'⟩
    simp only [redo, hloop', Option.bind_eq_bind, Option.bind_some]
  | mtrRollback t =>
    obtain ⟨hloop, rfl⟩ := redo_mtrRollback_success hredo
    obtain ⟨f', hloop', h'⟩ := foldlM_overlay (g := Db.rollbackOperation trx.trxId)
      (fun _ _ _ _ => rollbackOperation_overlay) (h.tail (by simp)) hloop
    refine ⟨f', ?_, h'⟩
    simp only [redo, hloop', Option.bind_eq_bind, Option.bind_some]

theorem redoRecord_overlay {r r' : Recovery} {record : CLogRecord} (h : Pending (record :: rest) (versionOf r.tables) f)
    (hround : r.redoRecord known walk record = some (.success, r')) :
    ∃ f', Recovery.redoRecord known walk { r with tables := overlay r.tables f } record =
      some (.success, { r' with tables := overlay r'.tables f' }) ∧ Pending rest (versionOf r'.tables) f' := by
  rcases redoRecord_cases hround with ⟨t, rfl, rfl⟩ | ⟨hrecord, i, trx, trx', tables', hfind, hget, hredo, rfl⟩
  · exact ⟨f, rfl, h.tail (by simp)⟩
  · obtain ⟨f', hredo', h'⟩ := redo_overlay h hredo
    exact ⟨f', redoRecord_of_redo hrecord hfind hget hredo', h'⟩

theorem redoAll_overlay {r r' : Recovery} {log : List CLogRecord} (h : Pending log (versionOf r.tables) f)
    (hredo : r.redoAll known walk log = some (.success, r')) :
    Recovery.redoAll known walk { r with tables := overlay r.tables f } log = some (.success, r') := by
  induction log generalizing r f with
  | nil =>
    obtain ⟨-, rfl⟩ := Prod.mk.inj (Option.some.inj hredo)
    have hf : f = versionOf r.tables := by
      funext addr
      rcases h addr with heq | ⟨-, t, record, hlogged⟩
      · exact heq
      · cases hlogged
    rw [hf, overlay_versionOf]
    rfl
  | cons record log ih =>
    obtain ⟨r₁, hfirst, hrest⟩ := redoAll_cons hredo
    obtain ⟨f₁, hfirst', h₁⟩ := redoRecord_overlay h hfirst
    rw [Recovery.redoAll, hfirst', Option.bind_eq_bind, Option.bind_some]
    exact ih h₁ hrest

/-- Recovery does not depend on what is stored in the slots of the rows of the log. -/
theorem recover_overlay {base : ℕ → Table} {log : List CLogRecord} {r : Recovery}
    (h : Pending log (versionOf base) f) (hrecover : recover known walk base log = some (.success, r)) :
    recover known walk (overlay base f) log = some (.success, r) := by
  obtain ⟨r₁, tables', hredo, hundo, rfl⟩ := recover_success hrecover
  have hredo' := redoAll_overlay h hredo
  simp only [recover, hredo', hundo, Option.bind_eq_bind, Option.bind_some, ne_eq, not_true_eq_false, if_false]

end Replay

/-! ## Indexes that are not empty -/

/-- The indexes have kept their entries. -/
structure Grown (tables tables' : ℕ → Table) : Prop where
  schema : ∀ table, SameSchema (tables table) (tables' table)
  entries : ∀ table (i : ℕ) (index : Index), (tables table).indexes[i]? = some index →
    ∃ index', (tables' table).indexes[i]? = some index' ∧ index.entries ⊆ index'.entries

namespace Grown

variable {tables tables' tables'' : ℕ → Table}

theorem refl (tables : ℕ → Table) : Grown tables tables :=
  ⟨fun _ => SameSchema.refl _, fun _ _ index hindex => ⟨index, hindex, Finset.Subset.refl _⟩⟩

theorem trans (h : Grown tables tables') (h' : Grown tables' tables'') : Grown tables tables'' := by
  refine ⟨fun table => (h.schema table).trans (h'.schema table), fun table i index hindex => ?_⟩
  obtain ⟨index', hindex', hsub⟩ := h.entries table i index hindex
  obtain ⟨index'', hindex'', hsub'⟩ := h'.entries table i index' hindex'
  exact ⟨index'', hindex'', hsub.trans hsub'⟩

theorem update {table : ℕ} {t : Table} (hschema : SameSchema (tables table) t)
    (hentries : ∀ (i : ℕ) (index : Index), (tables table).indexes[i]? = some index →
      ∃ index', t.indexes[i]? = some index' ∧ index.entries ⊆ index'.entries) :
    Grown tables (Function.update tables table t) := by
  constructor
  · intro table'
    by_cases htable : table' = table
    · subst htable
      rw [Function.update_self]
      exact hschema
    · rw [Function.update_of_ne htable]
      exact SameSchema.refl _
  · intro table' i index hindex
    by_cases htable : table' = table
    · subst htable
      rw [Function.update_self]
      exact hentries i index hindex
    · rw [Function.update_of_ne htable]
      exact ⟨index, hindex, Finset.Subset.refl _⟩

theorem setVersion (tables : ℕ → Table) (addr : ℕ × RID) (record : Record) :
    Grown tables (Db.setVersion tables addr record) :=
  update (sameSchema_setRecord _ _ _) fun _ index hindex => ⟨index, hindex, Finset.Subset.refl _⟩

theorem insertRecord {table : ℕ} {record : Record} {rid : RID}
    (h : ((tables table).insertRecord record rid).1 = .success) :
    Grown tables (Function.update tables table ((tables table).insertRecord record rid).2) := by
  refine update (sameSchema_insertRecord h) fun i index hindex => ?_
  rw [insertRecord_success h]
  refine ⟨(tables table).addEntry record.data rid index, ?_, fun e he => ?_⟩
  · rw [List.getElem?_map, hindex]
    rfl
  · rw [Table.mem_addEntry]
    exact Or.inr he

theorem commit {t c : ℤ} {order : List Operation} (h : order.foldlM (Db.commitOperation t c) tables = some tables') :
    Grown tables tables' := by
  induction order generalizing tables with
  | nil =>
    obtain rfl := Option.some.inj h
    exact refl _
  | cons op order ih =>
    rw [List.foldlM_cons, Option.bind_eq_bind, Option.bind_eq_some_iff] at h
    obtain ⟨tables₁, hfirst, hrest⟩ := h
    obtain ⟨record, record', -, -, -, rfl⟩ := commitOperation_setVersion hfirst
    exact (setVersion tables op.addr record').trans (ih hrest)

end Grown

section Refusal

variable {known : ℕ → Bool} {walk : OperationSet → List Operation} {r r' : Recovery}

theorem redo_grown {tables tables' : ℕ → Table} {trx trx' : MvccTrx} {record : CLogRecord}
    (hrecord : ∀ t, record ≠ .mtrRollback t) (h : redo known walk tables trx record = some (.success, trx', tables')) :
    Grown tables tables' := by
  cases record with
  | mtrBegin t => cases h
  | insert t table rid row =>
    obtain ⟨-, hrc, -, rfl⟩ := redo_insert_success h
    exact Grown.insertRecord hrc
  | delete t table rid =>
    obtain ⟨-, row, -, -, -, rfl⟩ := redo_delete_success h
    exact Grown.setVersion _ _ _
  | mtrCommit t c => exact Grown.commit (redo_mtrCommit_success h).1
  | mtrRollback t => exact absurd rfl (hrecord t)

theorem redoRecord_grown {record : CLogRecord} (hrecord : ∀ t, record ≠ .mtrRollback t)
    (h : r.redoRecord known walk record = some (.success, r')) : Grown r.tables r'.tables := by
  rcases redoRecord_cases h with ⟨t, rfl, rfl⟩ | ⟨-, i, trx, trx', tables', -, -, hredo, rfl⟩
  · exact Grown.refl _
  · exact redo_grown hrecord hredo

theorem redoAll_grown {log : List CLogRecord} (hlog : ∀ t, .mtrRollback t ∉ log)
    (h : r.redoAll known walk log = some (.success, r')) : Grown r.tables r'.tables := by
  induction log generalizing r with
  | nil =>
    obtain ⟨-, rfl⟩ := Prod.mk.inj (Option.some.inj h)
    exact Grown.refl _
  | cons record log ih =>
    obtain ⟨r₁, hfirst, hrest⟩ := redoAll_cons h
    have hrecord : ∀ t, record ≠ .mtrRollback t := fun t heq => hlog t (heq ▸ List.mem_cons_self)
    exact (redoRecord_grown hrecord hfirst).trans (ih (fun t ht => hlog t (List.mem_cons_of_mem _ ht)) hrest)

/-- No index holds the entry of a row before the row is replayed. -/
theorem not_mem_of_redoAll {log : List CLogRecord} (hlog : ∀ t, .mtrRollback t ∉ log)
    (h : r.redoAll known walk log = some (.success, r')) {t : ℤ} {table : ℕ} {rid : RID} {row : Record}
    (hinsert : .insert t table rid row ∈ log) {i : ℕ} {index : Index} (hindex : (r.tables table).indexes[i]? = some index)
    (hnull : (r.tables table).hasNull row.data index.fieldMetas = some false) :
    (index.key row.data, rid) ∉ index.entries := by
  induction log generalizing r index with
  | nil => cases hinsert
  | cons record log ih =>
    obtain ⟨r₁, hfirst, hrest⟩ := redoAll_cons h
    have hrecord : ∀ t, record ≠ .mtrRollback t := fun t heq => hlog t (heq ▸ List.mem_cons_self)
    rcases List.mem_cons.mp hinsert with rfl | hinsert
    · rcases redoRecord_cases hfirst with ⟨_, heq, -⟩ | ⟨-, _, trx, trx', tables', -, -, hredo, -⟩
      · cases heq
      · have haccepts := Table.accepts_of_insertRecord (redo_insert_success hredo).2.1
        exact Table.not_mem_of_not_refuses (haccepts index (List.mem_of_getElem? hindex) hnull)
    · obtain ⟨hschema, hentries⟩ := redoRecord_grown hrecord hfirst
      obtain ⟨index', hindex', hsub⟩ := hentries table i index hindex
      have hmetas := (hschema table).fieldMetas_eq hindex hindex'
      have hnot := ih (fun t ht => hlog t (List.mem_cons_of_mem _ ht)) hrest hinsert hindex'
        (by rw [(hschema table).hasNull, hmetas]; exact hnull)
      rw [Index.key_congr hmetas] at hnot
      exact fun hmem => hnot (hsub hmem)

theorem redo_trx {tables tables' tables₁ tables₁' : ℕ → Table} {trx trx' trx₁' : MvccTrx} {record : CLogRecord}
    (h : redo known walk tables trx record = some (.success, trx', tables'))
    (h₁ : redo known walk tables₁ trx record = some (.success, trx₁', tables₁')) : trx₁' = trx' := by
  cases record with
  | mtrBegin t => cases h
  | insert t table rid row => rw [(redo_insert_success h).2.2.1, (redo_insert_success h₁).2.2.1]
  | delete t table rid =>
    obtain ⟨-, _, -, -, rfl, -⟩ := redo_delete_success h
    obtain ⟨-, _, -, -, rfl, -⟩ := redo_delete_success h₁
    rfl
  | mtrCommit t c => rw [(redo_mtrCommit_success h).2, (redo_mtrCommit_success h₁).2]
  | mtrRollback t => rw [(redo_mtrRollback_success h).2, (redo_mtrRollback_success h₁).2]

theorem redoAll_trxes {log : List CLogRecord} {r₁ r₁' : Recovery} (htrxes : r₁.trxes = r.trxes)
    (h : r.redoAll known walk log = some (.success, r')) (h₁ : r₁.redoAll known walk log = some (.success, r₁')) :
    r₁'.trxes = r'.trxes := by
  induction log generalizing r r₁ with
  | nil =>
    obtain ⟨-, rfl⟩ := Prod.mk.inj (Option.some.inj h)
    obtain ⟨-, rfl⟩ := Prod.mk.inj (Option.some.inj h₁)
    exact htrxes
  | cons record log ih =>
    obtain ⟨r₂, hfirst, hrest⟩ := redoAll_cons h
    obtain ⟨r₃, hfirst₁, hrest₁⟩ := redoAll_cons h₁
    refine ih ?_ hrest hrest₁
    rcases redoRecord_cases hfirst with ⟨t, rfl, rfl⟩ | ⟨hrecord, i, trx, trx', tables', hfind, hget, hredo, rfl⟩
    · obtain ⟨-, rfl⟩ := Prod.mk.inj (Option.some.inj hfirst₁)
      simp only [Recovery.createTrx, htrxes]
    · rcases redoRecord_cases hfirst₁ with ⟨t, rfl, -⟩ | ⟨-, i₁, trx₁, trx₁', tables₁', hfind₁, hget₁, hredo₁, rfl⟩
      · exact absurd rfl (hrecord t)
      · unfold Recovery.findTrx at hfind hfind₁
        rw [htrxes, hfind] at hfind₁
        obtain rfl := Option.some.inj hfind₁
        rw [htrxes, hget] at hget₁
        obtain rfl := Option.some.inj hget₁
        rw [redo_trx hredo hredo₁, htrxes]

end Refusal

/-! ## The files after the crash -/

section Files

open Landbase.Index

variable {K : Type}

/-- An index file as it is opened after the crash: of its pages only some have been flushed. The others are as they were
when the index was created. -/
def flushedFile (h : BplusTreeHandler K) (flushed : PageNum → Bool) : BplusTreeHandler K where
  header := if flushed 1 then h.header else { h.header with rootPage := none }
  pool :=
    let header := if flushed 0 then h.pool else DiskBufferPool.create
    { header with pages := fun p => if flushed p then h.pool.pages p else none }
  disposedPages := []

/-- Without its header page, or with that of an empty tree, the file holds an empty tree, whatever else has been flushed. -/
theorem flushedFile_represents {B : Type} [LinearOrder B] [BoundedOrder B] {ops : KeyOps K} (ord : KeyOrder ops B)
    {h : BplusTreeHandler K} (hwide : h.header.Wide) (hbounded : h.pool.Bounded) {flushed : PageNum → Bool}
    (hheader : flushed 1 = false ∨ h.header.rootPage = none) : Represents ord (flushedFile h flushed) [] := by
  refine ⟨?_, rfl, Or.inl ⟨?_, rfl, ?_⟩⟩
  · unfold flushedFile
    split
    · exact hwide
    · exact ⟨hwide.leaf, hwide.internal⟩
  · unfold flushedFile
    split
    · next hpage => exact hheader.resolve_left (by simp [hpage])
    · rfl
  · intro p hp
    simp only [flushedFile] at hp ⊢
    cases hfile : flushed 0 with
    | true =>
      rw [hfile, if_pos rfl] at hp
      rw [if_pos rfl]
      exact hbounded p hp
    | false =>
      rw [hfile, if_neg Bool.false_ne_true] at hp
      rw [if_neg Bool.false_ne_true]
      exact DiskBufferPool.create_bounded p hp

/-- With all of its pages it is the tree that it was. -/
theorem flushedFile_whole {h : BplusTreeHandler K} (hdisposed : h.disposedPages = []) {flushed : PageNum → Bool}
    (hall : ∀ p, flushed p = true) : flushedFile h flushed = h := by
  simp only [flushedFile, hall, if_true, ← hdisposed]

end Files

/-- The pages of each table and of each of its indexes that have been flushed. Of an index with entries that is either every
page, or any pages but the header page: no set of entries describes a tree whose header is there and some of whose nodes are
not. -/
structure Files (tables : ℕ → Table) where
  dataPages : ℕ → ℤ → Bool
  indexPages : ℕ → ℕ → PageNum → Bool
  whole : ∀ table i, indexPages table i 1 = true →
    (∀ index, (tables table).indexes[i]? = some index → index.entries = ∅) ∨ ∀ p, indexPages table i p = true

/-- The tables as they are opened after the crash: an index without its header page or without entries is empty
(`flushedFile_represents`), and a whole one is what it was (`flushedFile_whole`). -/
def Files.opened {tables : ℕ → Table} (files : Files tables) (base : ℕ → Table) : ℕ → Table := fun table =>
  { base table with
    records := fun rid => if files.dataPages table rid.pageNum then (tables table).records rid else none
    indexes := (base table).indexes.mapIdx fun i index =>
      { index with entries :=
          if files.indexPages table i 1 then ((tables table).indexes[i]?).elim ∅ Index.entries else ∅ } }

theorem Files.opened_schema {tables : ℕ → Table} (files : Files tables) (base : ℕ → Table) (table : ℕ) :
    SameSchema (base table) (files.opened base table) := by
  refine ⟨rfl, rfl, ?_⟩
  apply List.ext_getElem?
  intro i
  simp only [opened, List.getElem?_map, List.getElem?_mapIdx, Option.map_map]
  rfl

/-- When no index holds an entry, the files differ from new ones in their records only. -/
theorem Files.opened_eq {base tables : ℕ → Table} {files : Files tables} (hbase : Empty base)
    (h : ∀ table, ∀ index ∈ (files.opened base table).indexes, index.entries = ∅) :
    files.opened base = overlay base fun addr =>
      if files.dataPages addr.1 addr.2.pageNum then versionOf tables addr else none := by
  funext table
  have hindexes : (files.opened base table).indexes = (base table).indexes := by
    apply List.ext_getElem?
    intro i
    simp only [opened, List.getElem?_mapIdx]
    cases hindex : (base table).indexes[i]? with
    | none => rfl
    | some index =>
      have hempty := hbase.indexes table index (List.mem_of_getElem? hindex)
      have hopened := h table _ (List.mem_of_getElem? (i := i) (by
        rw [opened, List.getElem?_mapIdx, hindex]
        rfl))
      dsimp only at hopened
      rw [Option.map_some, hopened, ← hempty]
  calc files.opened base table = { base table with
        records := fun rid => if files.dataPages table rid.pageNum then (tables table).records rid else none
        indexes := (files.opened base table).indexes } := rfl
    _ = _ := by
      rw [hindexes]
      rfl

/-! ## Committed transactions -/

section Committed

variable {walk : OperationSet → List Operation} {base : ℕ → Table}

theorem tracks_of_repeatable (hbase : Empty base) {db : Db}
    (hrun : Relation.ReflTransGen (Call fun db s act _ => Checked db.view s act) (Db.create base) db)
    (hlt : db.currentTrxId < maxTrxId) (hrepeat : Repeatable base db.log) : Tracks (fun _ => False) db.view db.log := by
  induction hrun with
  | refl => exact Tracks.create fun addr => hbase.records addr.1 addr.2
  | tail _ hcall ih =>
    have hle := hcall.current_le
    obtain ⟨s, act, rc, hpossible, hchecked, hstep⟩ := hcall
    have htracks := ih (lt_of_le_of_lt hle hlt) (hrepeat.front (step_extends hstep))
    exact (htracks.dbStep hpossible hchecked.proper (htracks.loggable hpossible hstep hrepeat) hstep hlt).1

theorem rollbackAll_of_nil {tables : ℕ → Table} {trxes : List MvccTrx} (h : ∀ trx ∈ trxes, walk trx.operations = []) :
    rollbackAll walk tables trxes = some tables := by
  induction trxes with
  | nil => rfl
  | cons trx trxes ih =>
    rw [rollbackAll, h trx List.mem_cons_self]
    exact ih fun other hother => h other (List.mem_cons_of_mem _ hother)

theorem Replayed.operations_nil {log : List CLogRecord} {r : Recovery} (h : Replayed base log r)
    (hcommitted : ∀ t, .mtrBegin t ∈ log → Committed log t) : ∀ trx ∈ r.trxes, trx.operations.toList = [] := by
  intro trx htrx
  rw [List.eq_nil_iff_forall_not_mem]
  intro op hop
  obtain ⟨hopen, -⟩ := (h.agrees.ops trx.trxId op).mp ⟨trx, htrx, rfl, hop⟩
  exact hopen.2.1 (hcommitted _ hopen.1)

/-- Recovery over the files gives the rows and the index entries that recovery over new files gives. -/
def Idempotent (walk : OperationSet → List Operation) (base disk : ℕ → Table) (log : List CLogRecord) : Prop :=
  ∃ r r', recover (fun _ => true) walk base log = some (.success, r) ∧
    recover (fun _ => true) walk disk log = some (.success, r') ∧ versionOf r'.tables = versionOf r.tables ∧
    ∀ table, (r'.tables table).indexes = (r.tables table).indexes

/-- After any history of committed transactions whose log is repeatable, and whatever data pages have been flushed:
recovery over the files is the same as over new ones, if and only if no index file holds an entry. -/
theorem recover_flushed_iff (hwalk : ∀ set, (walk set).Perm set.toList) (hnew : NewTables base) {db : Db}
    (hrun : Relation.ReflTransGen (Call fun db s act _ => Checked db.view s act) (Db.create base) db)
    (hlt : db.currentTrxId < maxTrxId) (hcommitted : ∀ t, .mtrBegin t ∈ db.log → Committed db.log t)
    (hrepeat : Repeatable base db.log) (files : Files db.tables) :
    Idempotent walk base (files.opened base) db.log ↔
      ∀ table, ∀ index ∈ (files.opened base table).indexes, index.entries = ∅ := by
  have hbase := hnew.toEmpty
  have htracks := tracks_of_repeatable hbase hrun hlt hrepeat
  have hl := htracks.logged.facts
  have haccepted : AllAccepted (fun _ => true) base db.log :=
    hrepeat.allAccepted (fun _ _ _ _ _ => rfl) (fun _ _ _ _ => rfl)
  obtain ⟨r₀, hrecover₀, hrecovered⟩ := recover_isSome hwalk hbase htracks.logged haccepted
  constructor
  · rintro ⟨r, r', hrecover, hrecover', -, hindexes⟩ table index hindex
    obtain ⟨-, rfl⟩ := Prod.mk.inj (Option.some.inj (hrecover₀.symm.trans hrecover))
    obtain ⟨r₁, -, hredo, -⟩ := recover_success hrecover
    obtain ⟨r₁', tables', hredo', hundo', rfl⟩ := recover_success hrecover'
    have hlog : ∀ t, .mtrRollback t ∉ db.log := fun t ht => hl.once t (hcommitted t (hl.begun _ ht)) ht
    -- nothing is undone at last
    have hnil := (replayed_of_redoAll hwalk hbase htracks.logged hredo).operations_nil hcommitted
    have hwalked : ∀ trx ∈ r₁'.trxes, walk trx.operations = [] := by
      intro trx htrx
      rw [redoAll_trxes (by rfl) hredo hredo'] at htrx
      exact (hnil trx htrx ▸ hwalk trx.operations).eq_nil
    rw [rollbackAll_of_nil hwalked] at hundo'
    obtain rfl := Option.some.inj hundo'
    -- an entry on the disk would be one of a row of the log
    obtain ⟨i, hi⟩ := List.mem_iff_getElem?.mp hindex
    rw [Finset.eq_empty_iff_forall_notMem]
    rintro ⟨key, rid⟩ hmem
    obtain ⟨hschema, hentries⟩ := redoAll_grown hlog hredo'
    obtain ⟨index', hi', hsub⟩ := hentries table i index hi
    have hmetas := (hschema table).fieldMetas_eq hi hi'
    have hi₀ : (r₀.tables table).indexes[i]? = some index' := by
      rw [← hindexes table]
      exact hi'
    obtain ⟨hsound, hschema₀⟩ := hrecovered.kept table
    obtain ⟨record, hrecord, hnull, rfl⟩ :=
      (hsound.consistent index' (List.mem_of_getElem? hi₀) key rid).mp (hsub hmem)
    obtain ⟨s, hs, -, -, hdata, -⟩ := hrecovered.row hl (show versionOf r₀.tables (table, rid) = some record from hrecord)
    obtain ⟨-, logged, hinsert, hlogged⟩ := hl.writer _ s hs
    have hdata' : logged.data = record.data := hlogged.trans hdata.symm
    refine not_mem_of_redoAll hlog hredo' hinsert hi ?_ ?_
    · rw [(files.opened_schema base table).hasNull, ← hmetas, hdata', ← hschema₀.hasNull]
      exact hnull
    · rw [hdata', ← Index.key_congr hmetas]
      exact hmem
  · intro hempty
    refine ⟨r₀, r₀, hrecover₀, ?_, rfl, fun _ => rfl⟩
    rw [Files.opened_eq hbase hempty]
    refine recover_overlay (fun addr => ?_) hrecover₀
    have hnone : versionOf base addr = none := hbase.records addr.1 addr.2
    split
    · cases hversion : versionOf db.tables addr with
      | none => exact Or.inl hnone.symm
      | some record =>
        obtain ⟨slot, hslot, -⟩ := htracks.row hversion
        obtain ⟨-, logged, hinsert, -⟩ := hl.writer addr slot hslot
        exact Or.inr ⟨hnone, slot.writer, logged, hinsert⟩
    · exact Or.inl hnone.symm

end Committed

/-- All pages have been flushed. -/
def Files.all (tables : ℕ → Table) : Files tables := ⟨fun _ _ => true, fun _ _ _ => true, fun _ _ _ => Or.inr fun _ => rfl⟩

/-- All pages have been flushed but the header pages of the indexes. -/
def Files.allButHeader (tables : ℕ → Table) : Files tables := ⟨fun _ _ => true, fun _ _ p => p != 1, by simp⟩

/-- The rows are there, and the index is filled from the log. -/
theorem recover_flushed_data_pages :
    let calls := [(0, Act.startIfNeed), (0, .insertRecord 0 [0, 7, 0, 0, 0] ⟨1, 0⟩), (0, .commit [⟨.insert, 0, ⟨1, 0⟩⟩])]
    ∃ db, runCalls (fun db s act _ => Checked db.view s act) (Db.create indexedTable) calls = some db ∧
      versionOf ((Files.allButHeader db.tables).opened indexedTable) (0, ⟨1, 0⟩) =
        some ⟨2, maxTrxId, [0, 7, 0, 0, 0]⟩ ∧
      Idempotent OperationSet.toList indexedTable
        ((Files.allButHeader db.tables).opened indexedTable) db.log := by
  intro calls
  obtain ⟨db, hrun, hobserved⟩ := Option.map_eq_some_iff.mp (show
    (runCalls (fun db s act _ => Checked db.view s act) (Db.create indexedTable) calls).map
    (fun db => (db.currentTrxId, db.log, versionOf db.tables (0, ⟨1, 0⟩))) =
      some (2, [.mtrBegin 1, .insert 1 0 ⟨1, 0⟩ ⟨-1, maxTrxId, [0, 7, 0, 0, 0]⟩, .mtrCommit 1 2],
        some ⟨2, maxTrxId, [0, 7, 0, 0, 0]⟩) by decide +kernel)
  obtain ⟨hcurrent, hlog, hversion⟩ := by simpa only [Prod.mk.injEq] using hobserved
  have hrepeat : Repeatable indexedTable db.log := by
    rw [hlog]
    have hinsert := ((Repeatable.nil indexedTable).snoc (.mtrBegin 1) trivial).snoc
      (.insert 1 0 ⟨1, 0⟩ ⟨-1, maxTrxId, [0, 7, 0, 0, 0]⟩) ⟨by simp [Unused], indexedTable_fresh _ _ _⟩
    exact hinsert.snoc (.mtrCommit 1 2) trivial
  have hcommitted : ∀ t, .mtrBegin t ∈ db.log → Committed db.log t := by
    intro t ht
    rw [hlog] at ht ⊢
    obtain rfl : t = 1 := by simpa using ht
    exact ⟨2, by simp⟩
  refine ⟨db, hrun, hversion, (recover_flushed_iff (fun ops : OperationSet => List.Perm.refl ops.toList)
    indexedTable_new (runCalls_calls hrun) (by rw [hcurrent]; decide) hcommitted hrepeat _).mpr ?_⟩
  intro table index hindex
  obtain ⟨i, _, rfl⟩ := List.mem_mapIdx.mp hindex
  rfl

/-- The pages of the index have been flushed, too: recovery fails. -/
theorem recover_flushed_index :
    let calls := [(0, Act.startIfNeed), (0, .insertRecord 0 [0, 7, 0, 0, 0] ⟨1, 0⟩), (0, .commit [⟨.insert, 0, ⟨1, 0⟩⟩])]
    ∃ db, runCalls (fun db s act _ => Checked db.view s act) (Db.create indexedTable) calls = some db ∧
      ¬ Idempotent OperationSet.toList indexedTable
        ((Files.all db.tables).opened indexedTable) db.log := by
  intro calls
  obtain ⟨db, hrun, hrecover⟩ := Option.map_eq_some_iff.mp (show
    (runCalls (fun db s act _ => Checked db.view s act) (Db.create indexedTable) calls).map
    (fun db => (recover (fun _ => true) OperationSet.toList
      ((Files.all db.tables).opened indexedTable) db.log).map Prod.fst) =
        some (some .recordDuplicateKey) by decide +kernel)
  refine ⟨db, hrun, ?_⟩
  rintro ⟨-, r', -, hrecover', -⟩
  rw [hrecover'] at hrecover
  cases hrecover

end Landbase.Clog
