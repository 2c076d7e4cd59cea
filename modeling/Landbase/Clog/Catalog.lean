import Landbase.Clog.Flushed

/-! # Tables that come and go

`Db::create_table`, `drop_table`, `find_table` and `open_all_tables` of `storage/db/db.cpp`. The log names a table by its
id. Ids are given out by a counter that is set, at every start, to one more than the largest id of a table that is there,
and the log is never cut: an id that stands in the log may belong to no table, or to another one.

`Table::create` makes the file of the table before `TableMeta::init` looks at the attributes, and leaves it behind, empty,
when these are refused; `open_all_tables` then fails at the next start.

To tell the tables apart, `creation` gives for every id the number of the `create_table` that it belongs to now, and
`owners` for every record of the log the number that its table had when it was logged.
-/

namespace Landbase.Clog
open Landbase.Storage Landbase.Trx
set_option autoImplicit false

/-! ## The catalog -/

/-- `opened_tables_` with the ids of the tables, the names of the table files that are empty, `next_table_id_`, the files of
the tables as they were created, and the database. -/
structure Catalog where
  opened : List (String × ℕ)
  emptyFiles : List String
  nextTableId : ℕ
  files : ℕ → Table
  db : Db
  creations : ℕ
  creation : ℕ → ℕ
  owners : List ℕ

/-- What becomes of `Table::create`: it is refused before there is a file, or `TableMeta::init` refuses the attributes, or
the table is made. -/
inductive Creation
  | refused
  | badMeta
  | made (table : Table)

namespace Catalog

/-- `Db::find_table` by the id. -/
def findTable (c : Catalog) (id : ℕ) : Bool := c.opened.any fun entry => entry.2 == id

/-- `Db::create_table` with `Table::create`, which takes no name whose file is there. -/
def createTable (c : Catalog) (name : String) (creation : Creation) : RC × Catalog :=
  if c.opened.any fun entry => entry.1 == name then (.schemaTableExist, c)
  else
    let id := c.nextTableId
    let c := { c with nextTableId := c.nextTableId + 1 }
    match creation with
    | .refused => (.invalidArgument, c)
    | .badMeta =>
      if name ∈ c.emptyFiles then (.schemaTableExist, c)
      else (.invalidArgument, { c with emptyFiles := c.emptyFiles ++ [name] })
    | .made table =>
      if name ∈ c.emptyFiles then (.schemaTableExist, c)
      else (.success, { c with
        opened := c.opened ++ [(name, id)]
        files := Function.update c.files id table
        db := c.db.setTable id table
        creations := c.creations + 1
        creation := Function.update c.creation id c.creations })

/-- `Db::drop_table`: the files are removed. -/
def dropTable (c : Catalog) (name : String) : RC × Catalog :=
  if c.opened.any fun entry => entry.1 == name then
    (.success, { c with opened := c.opened.filter fun entry => entry.1 != name })
  else (.schemaTableNotExist, c)

/-- `next_table_id_` after `Db::open_all_tables`. -/
def openAllTables (opened : List (String × ℕ)) : ℕ :=
  opened.foldl (fun next entry => if next ≤ entry.2 then entry.2 + 1 else next) 0

/-- A call of a session. -/
def call (c : Catalog) (s : ℕ) (act : Act) : Option (RC × Catalog) :=
  match c.db.step s act with
  | none => none
  | some (rc, db) => some (rc, { c with
      db := db
      owners := c.owners ++ (db.log.drop c.db.log.length).map fun record => ((recordTable record).map c.creation).getD 0 })

/-- `Db::init` on the same directory: the data pages hold these records, and the log file what has been written. An empty
table file fails `open_all_tables`. -/
def init (c : Catalog) (walk : OperationSet → List Operation) (flushed : ℕ × RID → Option Record) : Option Catalog :=
  if c.emptyFiles ≠ [] then none
  else
    match restart c.findTable walk (overlay c.files flushed) c.db with
    | none => none
    | some db => some { c with
        nextTableId := openAllTables c.opened
        db := db
        owners := c.owners.take (written c.db.log).length }

end Catalog

/-- A table as `Table::create` leaves it. -/
structure Created (table : Table) : Prop where
  wellFormed : table.WellFormed
  records : ∀ rid, table.records rid = none
  indexes : ∀ index ∈ table.indexes, index.entries = ∅
  wellKeyed : table.WellKeyed

/-- One step of a history, after whose calls the log can be replayed again and again, and in which no table file is left
empty; `P` is asked of every `drop_table`. -/
inductive Change (P : Catalog → String → Prop) (walk : OperationSet → List Operation) (c c' : Catalog) : Prop where
  | call (s : ℕ) (act : Act) (rc : RC) (hpossible : act.Possible c.db s) (hchecked : Checked c.db.view s act)
      (hopened : ∀ id ∈ actTable act, c.findTable id = true) (hrun : c.call s act = some (rc, c'))
      (hlt : c'.db.currentTrxId < maxTrxId) (hrepeat : Repeatable c'.files c'.db.log)
  | create (name : String) (creation : Creation) (rc : RC) (hmeta : creation ≠ .badMeta)
      (hcreated : ∀ t, creation = .made t → Created t) (hrun : c.createTable name creation = (rc, c'))
  | drop (name : String) (rc : RC) (hdrop : P c name) (hrun : c.dropTable name = (rc, c'))
  | init (flushed : ℕ × RID → Option Record)
      (hflushed : ∀ addr record, flushed addr = some record → Inserted (written c.db.log) addr)
      (hrun : c.init walk flushed = some c')

/-- A new directory. -/
def Catalog.empty : Catalog :=
  ⟨[], [], 0, fun _ => ⟨[], 0, [], fun _ => none⟩, Db.create fun _ => ⟨[], 0, [], fun _ => none⟩, 0, fun _ => 0, []⟩

/-- Whatever rows of the log file the data pages hold, the tables can be opened and recovery succeeds, and every row goes to
the table that it was logged for. -/
structure Recovers (walk : OperationSet → List Operation) (c : Catalog) : Prop where
  succeeds : ∀ flushed : ℕ × RID → Option Record,
    (∀ addr record, flushed addr = some record → Inserted (written c.db.log) addr) → ∃ c' r, c.init walk flushed = some c' ∧
      recover c.findTable walk (overlay c.files flushed) (written c.db.log) = some (.success, r) ∧
      c'.db.tables = r.tables ∧ ∀ addr record, versionOf r.tables addr = some record →
        ∃ (i : ℕ) (t : ℤ) (logged : Record), (written c.db.log)[i]? = some (.insert t addr.1 addr.2 logged) ∧
          logged.data = record.data ∧ c.owners[i]? = some (c.creation addr.1)
  owned : ∀ (i : ℕ) record id, c.db.log[i]? = some record → recordTable record = some id →
    c.owners[i]? = some (c.creation id)

/-- No record of the log is about the table that is to be dropped. -/
def Unlogged (c : Catalog) (name : String) : Prop :=
  ∀ id, (name, id) ∈ c.opened → ∀ record ∈ c.db.log, recordTable record ≠ some id

/-! ## Ids -/

theorem findTable_iff {c : Catalog} {id : ℕ} : c.findTable id = true ↔ ∃ name, (name, id) ∈ c.opened := by
  simp [Catalog.findTable]

theorem le_openAllTables_foldl (opened : List (String × ℕ)) (next : ℕ) :
    next ≤ opened.foldl (fun next entry => if next ≤ entry.2 then entry.2 + 1 else next) next ∧
      ∀ entry ∈ opened, entry.2 < opened.foldl (fun next entry => if next ≤ entry.2 then entry.2 + 1 else next) next := by
  induction opened generalizing next with
  | nil => exact ⟨le_refl _, fun entry hentry => by cases hentry⟩
  | cons first opened ih =>
    obtain ⟨hle, hlt⟩ := ih (if next ≤ first.2 then first.2 + 1 else next)
    rw [List.foldl_cons]
    have hnext : next ≤ (if next ≤ first.2 then first.2 + 1 else next) ∧
        first.2 < (if next ≤ first.2 then first.2 + 1 else next) := by
      split <;> omega
    refine ⟨le_trans hnext.1 hle, fun entry hentry => ?_⟩
    rcases List.mem_cons.mp hentry with rfl | hentry
    · exact lt_of_lt_of_le hnext.2 hle
    · exact hlt entry hentry

/-! ## Tables of the log -/

theorem getElem?_of_front {log log' : List CLogRecord} (h : log <+: log') {i : ℕ} {record : CLogRecord}
    (hget : log[i]? = some record) : log'[i]? = some record := by
  obtain ⟨rest, rfl⟩ := h
  obtain ⟨hi, -⟩ := List.getElem?_eq_some_iff.mp hget
  rw [List.getElem?_append_left hi]
  exact hget

/-- The tables of the log are there, and they are the tables that they were when they were logged. -/
structure Catalog.Listed (c : Catalog) : Prop where
  below : ∀ name id, (name, id) ∈ c.opened → id < c.nextTableId
  known : ∀ record ∈ c.db.log, ∀ id, recordTable record = some id → c.findTable id = true
  length : c.owners.length = c.db.log.length
  owned : ∀ (i : ℕ) record id, c.db.log[i]? = some record → recordTable record = some id →
    c.owners[i]? = some (c.creation id)

namespace Catalog

variable {walk : OperationSet → List Operation} {c c' : Catalog}

theorem empty_listed : Catalog.empty.Listed where
  below _ _ h := absurd h List.not_mem_nil
  known _ h := absurd h List.not_mem_nil
  length := rfl
  owned i record id h := by simp [empty, Db.create] at h

theorem call_eq_some {s : ℕ} {act : Act} {rc : RC} (h : c.call s act = some (rc, c')) :
    ∃ db, c.db.step s act = some (rc, db) ∧ c' = { c with
      db := db
      owners := c.owners ++
        (db.log.drop c.db.log.length).map fun record => ((recordTable record).map c.creation).getD 0 } := by
  unfold Catalog.call at h
  split at h
  · cases h
  · next rc' db hstep =>
    obtain ⟨rfl, rfl⟩ := Prod.mk.inj (Option.some.inj h)
    exact ⟨db, hstep, rfl⟩

theorem init_eq_some {flushed : ℕ × RID → Option Record} (h : c.init walk flushed = some c') :
    ∃ r, recover c.findTable walk (overlay c.files flushed) (written c.db.log) = some (.success, r) ∧
      c' = { c with
        nextTableId := openAllTables c.opened
        db := Db.restarted (written c.db.log) r
        owners := c.owners.take (written c.db.log).length } := by
  unfold Catalog.init at h
  split at h
  · cases h
  · split at h
    · cases h
    · next db hrestart =>
      obtain ⟨r, hrecover, rfl⟩ := restart_eq_some hrestart
      exact ⟨r, hrecover, (Option.some.inj h).symm⟩

theorem createTable_cases {name : String} {creation : Creation} {rc : RC} (hmeta : creation ≠ .badMeta)
    (h : c.createTable name creation = (rc, c')) :
    (∃ next, c.nextTableId ≤ next ∧ c' = { c with nextTableId := next }) ∨
      ∃ t, creation = .made t ∧ c' = { c with
        nextTableId := c.nextTableId + 1
        opened := c.opened ++ [(name, c.nextTableId)]
        files := Function.update c.files c.nextTableId t
        db := c.db.setTable c.nextTableId t
        creations := c.creations + 1
        creation := Function.update c.creation c.nextTableId c.creations } := by
  unfold Catalog.createTable at h
  split at h
  · exact Or.inl ⟨c.nextTableId, le_refl _, (Prod.mk.inj h).2.symm⟩
  · cases creation with
    | refused => exact Or.inl ⟨c.nextTableId + 1, Nat.le_succ _, (Prod.mk.inj h).2.symm⟩
    | badMeta => exact absurd rfl hmeta
    | made t =>
      dsimp only at h
      split at h
      · exact Or.inl ⟨c.nextTableId + 1, Nat.le_succ _, (Prod.mk.inj h).2.symm⟩
      · exact Or.inr ⟨t, rfl, (Prod.mk.inj h).2.symm⟩

theorem dropTable_cases {name : String} {rc : RC} (h : c.dropTable name = (rc, c')) :
    c' = c ∨ c' = { c with opened := c.opened.filter fun entry => entry.1 != name } := by
  unfold Catalog.dropTable at h
  split at h
  · exact Or.inr (Prod.mk.inj h).2.symm
  · exact Or.inl (Prod.mk.inj h).2.symm

theorem Listed.next_unlogged (h : c.Listed) {record : CLogRecord} (hmem : record ∈ c.db.log) {id : ℕ}
    (hid : recordTable record = some id) : id ≠ c.nextTableId := by
  rintro rfl
  obtain ⟨name, hmem'⟩ := findTable_iff.mp (h.known record hmem _ hid)
  exact lt_irrefl _ (h.below name _ hmem')

theorem Listed.call (h : c.Listed) {s : ℕ} {act : Act} {rc : RC} (hopened : ∀ id ∈ actTable act, c.findTable id = true)
    (hrun : c.call s act = some (rc, c')) : c'.Listed := by
  obtain ⟨db, hstep, rfl⟩ := call_eq_some hrun
  obtain ⟨records, hlog, hrecords⟩ := step_suffix hstep
  have hdrop : db.log.drop c.db.log.length = records := by
    rw [hlog, List.drop_left]
  refine ⟨h.below, ?_, ?_, ?_⟩
  · intro record hmem id hid
    rw [hlog, List.mem_append] at hmem
    cases hmem with
    | inl hmem => exact h.known record hmem id hid
    | inr hmem => exact hopened id (hrecords record hmem id hid)
  · simp only [List.length_append, List.length_map, h.length, hdrop]
    rw [hlog, List.length_append]
  · intro i record id hget hid
    dsimp only at hget ⊢
    rw [hdrop]
    rw [hlog, List.getElem?_append] at hget
    rw [List.getElem?_append, h.length]
    split at hget
    · next hi =>
      rw [if_pos hi]
      exact h.owned i record id hget hid
    · next hi =>
      rw [if_neg hi, List.getElem?_map, hget, Option.map_some, hid]
      rfl

theorem Listed.create (h : c.Listed) {name : String} {creation : Creation} {rc : RC} (hmeta : creation ≠ .badMeta)
    (hrun : c.createTable name creation = (rc, c')) : c'.Listed := by
  rcases createTable_cases hmeta hrun with ⟨next, hle, rfl⟩ | ⟨t, rfl, rfl⟩
  · exact ⟨fun name id hmem => lt_of_lt_of_le (h.below name id hmem) hle, h.known, h.length, h.owned⟩
  · refine ⟨?_, ?_, h.length, ?_⟩
    · intro name' id hmem
      cases List.mem_append.mp hmem with
      | inl hmem => exact Nat.lt_succ_of_lt (h.below name' id hmem)
      | inr hmem =>
        obtain ⟨-, rfl⟩ := Prod.mk.inj (List.mem_singleton.mp hmem)
        exact Nat.lt_succ_self _
    · intro record hmem id hid
      obtain ⟨name', hmem'⟩ := findTable_iff.mp (h.known record hmem id hid)
      exact findTable_iff.mpr ⟨name', List.mem_append_left _ hmem'⟩
    · intro i record id hget hid
      have hlogged : c.db.log[i]? = some record := hget
      dsimp only
      rw [Function.update_of_ne (h.next_unlogged (List.mem_of_getElem? hlogged) hid)]
      exact h.owned i record id hlogged hid

theorem Listed.drop (h : c.Listed) {name : String} {rc : RC} (hunlogged : Unlogged c name)
    (hrun : c.dropTable name = (rc, c')) : c'.Listed := by
  rcases dropTable_cases hrun with rfl | rfl
  · exact h
  · refine ⟨fun name' id hmem => h.below name' id (List.mem_of_mem_filter hmem), ?_, h.length, h.owned⟩
    intro record hmem id hid
    obtain ⟨name', hmem'⟩ := findTable_iff.mp (h.known record hmem id hid)
    refine findTable_iff.mpr ⟨name', List.mem_filter.mpr ⟨hmem', ?_⟩⟩
    simp only [bne_iff_ne]
    rintro rfl
    exact hunlogged id hmem' record hmem hid

theorem Listed.init (h : c.Listed) {flushed : ℕ × RID → Option Record} (hrun : c.init walk flushed = some c') :
    c'.Listed := by
  obtain ⟨r, -, rfl⟩ := init_eq_some hrun
  have hfile := written_front c.db.log
  have hlength : (written c.db.log).length ≤ c.owners.length := h.length ▸ hfile.length_le
  refine ⟨fun name id hmem => (le_openAllTables_foldl c.opened 0).2 (name, id) hmem,
    fun record hmem => h.known record (hfile.subset hmem), ?_, fun i record id hget hid => ?_⟩
  · rw [List.length_take, Nat.min_eq_left hlength]
    rfl
  · have hlogged : (written c.db.log)[i]? = some record := hget
    obtain ⟨hi, -⟩ := List.getElem?_eq_some_iff.mp hlogged
    rw [List.getElem?_take_of_lt hi]
    exact h.owned i record id (getElem?_of_front hfile hlogged) hid

theorem Listed.change (h : c.Listed) (hchange : Change Unlogged walk c c') : c'.Listed := by
  cases hchange with
  | call s act rc hpossible hchecked hopened hrun hlt hrepeat => exact h.call hopened hrun
  | create name creation rc hmeta hcreated hrun => exact h.create hmeta hrun
  | drop name rc hunlogged hrun => exact h.drop hunlogged hrun
  | init flushed hflushed hrun => exact h.init hrun

end Catalog

/-! ## Recovery at every restart -/

theorem Repeatable.congr {base base' : ℕ → Table} {log : List CLogRecord} (h : Repeatable base log)
    (hbase : ∀ record ∈ log, ∀ id, recordTable record = some id → base' id = base id) : Repeatable base' log := by
  intro front record hfront
  have hmem : record ∈ log := hfront.subset (by simp)
  have hfollows := h front record hfront
  cases record with
  | insert t table rid row =>
    refine ⟨hfollows.1, ?_⟩
    unfold Fresh
    rw [hbase _ hmem table rfl]
    exact hfollows.2
  | delete t table rid => exact hfollows
  | _ => trivial

theorem NewTables.update {files : ℕ → Table} (h : NewTables files) {table : Table} (hnew : Created table) (id : ℕ) :
    NewTables (Function.update files id table) := by
  have hcreated : ∀ id', Created (Function.update files id table id') := by
    intro id'
    by_cases hid : id' = id
    · rw [hid, Function.update_self]
      exact hnew
    · rw [Function.update_of_ne hid]
      exact ⟨h.wellFormed id', h.records id', h.indexes id', h.wellKeyed id'⟩
  exact ⟨⟨fun id' => (hcreated id').wellFormed, fun id' => (hcreated id').records, fun id' => (hcreated id').indexes⟩,
    fun id' => (hcreated id').wellKeyed⟩

/-- What is stored agrees with the log, which is repeatable, and every table file can be opened. -/
structure Catalog.Inv (c : Catalog) : Prop where
  tracks : ∃ dead, ∃ _ : DecidablePred dead, Tracks dead c.db.view c.db.log
  files : NewTables c.files
  repeatable : Repeatable c.files c.db.log
  opens : c.emptyFiles = []

namespace Catalog

variable {walk : OperationSet → List Operation} {c c' : Catalog}

theorem Inv.recover (h : c.Inv) (hlisted : c.Listed) (hwalk : ∀ set, (walk set).Perm set.toList)
    {flushed : ℕ × RID → Option Record}
    (hflushed : ∀ addr record, flushed addr = some record → Inserted (written c.db.log) addr) :
    ∃ r, Clog.recover c.findTable walk (overlay c.files flushed) (written c.db.log) = some (.success, r) ∧
      Recovered c.files (written c.db.log) r := by
  obtain ⟨dead, _, htracks⟩ := h.tracks
  have hfile := written_front c.db.log
  have haccepted : AllAccepted c.findTable c.files (written c.db.log) :=
    (h.repeatable.front hfile).allAccepted (fun _ _ _ _ hmem => hlisted.known _ (hfile.subset hmem) _ rfl)
      (fun _ _ _ hmem => hlisted.known _ (hfile.subset hmem) _ rfl)
  obtain ⟨r, hrecover, hrecovered⟩ := recover_isSome hwalk h.files.toEmpty (htracks.logged.front hfile) haccepted
  refine ⟨r, recover_overlay (fun addr => ?_) hrecover, hrecovered⟩
  have hnone : versionOf c.files addr = none := h.files.records addr.1 addr.2
  cases hversion : flushed addr with
  | none => exact Or.inl hnone.symm
  | some record => exact Or.inr ⟨hnone, hflushed addr record hversion⟩

theorem Inv.create (h : c.Inv) (hlisted : c.Listed) {name : String} {creation : Creation} {rc : RC}
    (hmeta : creation ≠ .badMeta) (hcreated : ∀ t, creation = .made t → Created t)
    (hrun : c.createTable name creation = (rc, c')) : c'.Inv := by
  rcases createTable_cases hmeta hrun with ⟨next, -, rfl⟩ | ⟨t, rfl, rfl⟩
  · exact ⟨h.tracks, h.files, h.repeatable, h.opens⟩
  obtain ⟨dead, hdec, htracks⟩ := h.tracks
  have hnew := hcreated t rfl
  -- nothing is stored under the new id
  have hversion : versionOf (c.db.setTable c.nextTableId t).tables = versionOf c.db.tables := by
    funext addr
    unfold versionOf Db.setTable
    by_cases hid : addr.1 = c.nextTableId
    · simp only [hid, Function.update_self, hnew.records]
      symm
      rw [Option.eq_none_iff_forall_ne_some]
      intro record hrecord
      have hstored : c.db.view.version (c.nextTableId, addr.2) = some record := hrecord
      obtain ⟨slot, hslot, -⟩ := htracks.row hstored
      obtain ⟨-, logged, hinsert, -⟩ := htracks.logged.facts.writer _ slot hslot
      exact hlisted.next_unlogged hinsert rfl rfl
    · simp only [Function.update_of_ne hid]
  have hview : (c.db.setTable c.nextTableId t).view = c.db.view := by
    unfold Db.view Db.version
    rw [hversion]
    rfl
  refine ⟨⟨dead, hdec, ?_⟩, h.files.update hnew _, ?_, h.opens⟩
  · dsimp only
    rw [hview]
    exact htracks
  · exact h.repeatable.congr fun record hmem id hid =>
      Function.update_of_ne (hlisted.next_unlogged hmem hid) _ _

theorem Inv.change (h : c.Inv) (hlisted : c.Listed) (hwalk : ∀ set, (walk set).Perm set.toList)
    (hchange : Change Unlogged walk c c') : c'.Inv := by
  cases hchange with
  | call s act rc hpossible hchecked hopened hrun hlt hrepeat =>
    obtain ⟨db, hstep, rfl⟩ := call_eq_some hrun
    obtain ⟨dead, hdec, htracks⟩ := h.tracks
    refine ⟨⟨dead, hdec, ?_⟩, h.files, hrepeat, h.opens⟩
    exact (htracks.dbStep hpossible hchecked.proper (htracks.loggable hpossible hstep hrepeat) hstep hlt).1
  | create name creation rc hmeta hcreated hrun => exact h.create hlisted hmeta hcreated hrun
  | drop name rc hunlogged hrun =>
    rcases dropTable_cases hrun with rfl | rfl
    · exact h
    · exact ⟨h.tracks, h.files, h.repeatable, h.opens⟩
  | init flushed hflushed hrun =>
    obtain ⟨r, hrecover, rfl⟩ := init_eq_some hrun
    obtain ⟨r', hrecover', hrecovered⟩ := h.recover hlisted hwalk hflushed
    obtain ⟨-, rfl⟩ := Prod.mk.inj (Option.some.inj (hrecover.symm.trans hrecover'))
    obtain ⟨dead, _, htracks⟩ := h.tracks
    have hfile := written_front c.db.log
    exact ⟨⟨_, _, htracks.restarted hfile hrecovered⟩, h.files, h.repeatable.front hfile, h.opens⟩

theorem inv_of_history (hwalk : ∀ set, (walk set).Perm set.toList)
    (hhistory : Relation.ReflTransGen (Change Unlogged walk) Catalog.empty c) : c.Listed ∧ c.Inv := by
  induction hhistory with
  | refl =>
    refine ⟨empty_listed, ⟨fun _ => False, inferInstance, Tracks.create fun _ => rfl⟩, ?_, Repeatable.nil _, rfl⟩
    exact ⟨⟨fun _ _ h => absurd h List.not_mem_nil, fun _ _ => rfl, fun _ _ h => absurd h List.not_mem_nil⟩,
      fun _ _ h => absurd h List.not_mem_nil⟩
  | tail _ hchange ih => exact ⟨ih.1.change hchange, ih.2.change ih.1 hwalk hchange⟩

end Catalog

/-- In every history that drops only tables without a record in the log and leaves no table file empty, while the log is
repeatable: every restart succeeds, and every row goes to the table that it was logged for. -/
theorem recovers_of_unlogged {walk : OperationSet → List Operation} (hwalk : ∀ set, (walk set).Perm set.toList)
    {c : Catalog} (hhistory : Relation.ReflTransGen (Change Unlogged walk) Catalog.empty c) : Recovers walk c := by
  obtain ⟨hlisted, hinv⟩ := Catalog.inv_of_history hwalk hhistory
  refine ⟨fun flushed hflushed => ?_, hlisted.owned⟩
  obtain ⟨r, hrecover, hrecovered⟩ := hinv.recover hlisted hwalk hflushed
  have hinit : c.init walk flushed = some { c with
      nextTableId := Catalog.openAllTables c.opened
      db := Db.restarted (written c.db.log) r
      owners := c.owners.take (written c.db.log).length } := by
    rw [Catalog.init, if_neg (not_not.mpr hinv.opens), restart, hrecover]
  refine ⟨_, r, hinit, hrecover, rfl, fun addr record hrecord => ?_⟩
  obtain ⟨dead, _, htracks⟩ := hinv.tracks
  have hfile := written_front c.db.log
  obtain ⟨t, logged, hinsert, hdata, -⟩ :=
    (hrecovered.durable (htracks.logged.front hfile)).committed addr record hrecord
  obtain ⟨i, hi⟩ := List.mem_iff_getElem?.mp hinsert
  exact ⟨i, t, logged, hi, hdata, hlisted.owned i _ _ (getElem?_of_front hfile hi) rfl⟩

/-! ## Two histories -/

theorem indexedTable_created (id : ℕ) : Created (indexedTable id) :=
  ⟨indexedTable_new.wellFormed id, indexedTable_new.records id, indexedTable_new.indexes id, indexedTable_new.wellKeyed id⟩

/-- A sequence of steps of a history: calls, creations, drops and restarts over files without flushed data pages. -/
inductive Event where
  | call (s : ℕ) (act : Act)
  | create (name : String)
  | drop (name : String)
  | init

section Events

variable (P : Catalog → String → Prop) [∀ c name, Decidable (P c name)]

/-- A step; the tables that are created are `indexedTable`. -/
def Catalog.event (c : Catalog) : Event → Option Catalog
  | .call s act =>
    if act.Possible c.db s ∧ Checked c.db.view s act ∧ ((actTable act).all fun id => c.findTable id) = true then
      match c.call s act with
      | none => none
      | some (_, c') => if c'.db.currentTrxId < maxTrxId ∧ Repeatable c'.files c'.db.log then some c' else none
    else none
  | .create name => some (c.createTable name (.made (indexedTable 0))).2
  | .drop name => if P c name then some (c.dropTable name).2 else none
  | .init => c.init OperationSet.toList fun _ => none

def Catalog.events (c : Catalog) : List Event → Option Catalog
  | [] => some c
  | event :: events => (c.event P event).bind fun c' => c'.events events

variable {P} {c c' : Catalog}

theorem Catalog.event_change {event : Event} (h : c.event P event = some c') : Change P OperationSet.toList c c' := by
  cases event with
  | call s act =>
    simp only [Catalog.event] at h
    split at h
    · next hcall =>
      split at h
      · cases h
      · next rc c₁ hrun =>
        split at h
        · next hlast =>
          obtain rfl := Option.some.inj h
          refine .call s act rc hcall.1 hcall.2.1 (fun id hid => ?_) hrun hlast.1 hlast.2
          rw [Option.mem_def.mp hid] at hcall
          exact hcall.2.2
        · cases h
    · cases h
  | create name =>
    obtain rfl := Option.some.inj h
    refine .create name (.made (indexedTable 0)) _ (fun h => by cases h) (fun t ht => ?_) rfl
    obtain rfl := Creation.made.inj ht
    exact indexedTable_created 0
  | drop name =>
    simp only [Catalog.event] at h
    split at h
    · next hP =>
      obtain rfl := Option.some.inj h
      exact .drop name _ hP rfl
    · cases h
  | init => exact .init (fun _ => none) (fun _ _ h => by cases h) h

theorem Catalog.events_change {events : List Event} (h : c.events P events = some c') :
    Relation.ReflTransGen (Change P OperationSet.toList) c c' := by
  induction events generalizing c with
  | nil =>
    obtain rfl := Option.some.inj h
    exact Relation.ReflTransGen.refl
  | cons event events ih =>
    obtain ⟨c₁, hfirst, hrest⟩ := Option.bind_eq_some_iff.mp h
    exact Relation.ReflTransGen.head (event_change hfirst) (ih hrest)

end Events

instance (c : Catalog) (name : String) : Decidable (Unlogged c name) :=
  decidable_of_iff (∀ entry ∈ c.opened, entry.1 = name → ∀ record ∈ c.db.log, recordTable record ≠ some entry.2)
    ⟨fun h id hmem => h (name, id) hmem rfl, fun h entry hmem hname => h entry.2 (hname ▸ hmem)⟩

/-- A table is dropped before it has rows, and its id is given to another one after the restart. -/
theorem recovers_of_unlogged_reused_id :
    let events := [Event.create "a", .create "b", .call 0 .startIfNeed, .call 0 (.insertRecord 0 [0, 7, 0, 0, 0] ⟨1, 0⟩),
      .call 0 (.commit [⟨.insert, 0, ⟨1, 0⟩⟩]), .drop "b", .init, .create "c"]
    ∃ c, Catalog.empty.events Unlogged events = some c ∧ c.opened = [("a", 0), ("c", 1)] ∧
      Recovers OperationSet.toList c := by
  intro events
  obtain ⟨c, hrun, hopened⟩ := Option.map_eq_some_iff.mp (show (Catalog.empty.events Unlogged events).map Catalog.opened =
    some [("a", 0), ("c", 1)] by decide +kernel)
  refine ⟨c, hrun, hopened, ?_⟩
  exact recovers_of_unlogged (fun ops : OperationSet => List.Perm.refl ops.toList) (Catalog.events_change hrun)

/-- A table is dropped after a row has been committed to it: the restart fails. -/
theorem recovers_dropped :
    let events := [Event.create "a", .call 0 .startIfNeed, .call 0 (.insertRecord 0 [0, 7, 0, 0, 0] ⟨1, 0⟩),
      .call 0 (.commit [⟨.insert, 0, ⟨1, 0⟩⟩]), .drop "a"]
    ∃ c, Catalog.empty.events (fun _ _ => True) events = some c ∧ ¬ Recovers OperationSet.toList c := by
  intro events
  obtain ⟨c, hrun, hrecover⟩ := Option.map_eq_some_iff.mp (show (Catalog.empty.events (fun _ _ => True) events).map
    (fun c => (recover c.findTable OperationSet.toList (overlay c.files fun _ => none) (written c.db.log)).map Prod.fst) =
      some (some .schemaTableNotExist) by decide +kernel)
  refine ⟨c, hrun, fun hrecovers => ?_⟩
  obtain ⟨-, r, -, hsuccess, -⟩ := hrecovers.succeeds (fun _ => none) (fun _ _ h => by cases h)
  rw [hsuccess] at hrecover
  cases hrecover

end Landbase.Clog
