import Landbase.Storage.FailedUpdate
import Landbase.Trx.Rollback

/-! # Updates that an index refuses, in a transaction

`MvccTrx::update_record` marks the old version as deleted before it knows whether the new one can be stored, and the mark
stays when an index refuses the new version. Nothing is left behind only where the mark was there before: on a row that
the transaction has inserted and deleted itself, which `visit_record` still hands out.
-/

namespace Landbase.Trx
open Landbase.Storage
set_option autoImplicit false

/-! ## Unique indexes in every reachable database -/

/-- Every unique index of every table holds a key once. -/
def Keyed (tables : ℕ → Table) : Prop := ∀ table, (tables table).Keyed

theorem Edit.keyed {t t' : Table} (hedit : Edit t t') (h : t.Keyed) : t'.Keyed := by
  cases hedit with
  | setRecord => exact h
  | deleteEntryOfIndexes record rid => exact h.deleteEntryOfIndexes record rid false
  | @insertEntryOfIndexes rid record => exact h.insertEntryOfIndexes record rid
  | @insertRecord rid record => exact h.insertRecord record rid
  | @deleteRecord rid record => exact h.deleteRecord record rid

theorem keyed_run {P : View → ℕ → Act → Prop} {db₀ db : Db} (h : Keyed db₀.tables)
    (hrun : Relation.ReflTransGen (Step P) db₀ db) : Keyed db.tables :=
  (edited_run hrun).keeps Edit.keyed h

/-! ## Taking the entries out and putting them back -/

/-- The index should hold the entry of the record and does not. -/
def misses (t : Table) (data : Bytes) (rid : RID) (index : Index) : Bool :=
  t.hasNull data index.fieldMetas == some false && decide ((index.key data, rid) ∉ index.entries)

theorem deleteEntries_until {t : Table} {data : Bytes} {rid : RID} {front rest : List Index}
    (hfields : ∀ index ∈ front, t.hasNull data index.fieldMetas ≠ none)
    (hfront : ∀ index ∈ front, misses t data rid index = false)
    (hrest : rest = [] ∨ ∃ index rest', rest = index :: rest' ∧ misses t data rid index = true) (rc : RC) :
    (t.deleteEntries data rid false rc (front ++ rest)).2 = front.map (t.dropEntry data rid) ++ rest := by
  induction front generalizing rc with
  | nil =>
    rcases hrest with rfl | ⟨index, rest', rfl, hmisses⟩
    · rfl
    · simp only [misses, Bool.and_eq_true, beq_iff_eq, decide_eq_true_eq] at hmisses
      simp [Table.deleteEntries, hmisses.1, Index.deleteEntry, hmisses.2]
  | cons index front ih =>
    have hnext := ih (fun i hi => hfields i (by simp [hi])) (fun i hi => hfront i (by simp [hi]))
    have hhere := hfront index (by simp)
    rw [List.cons_append, List.map_cons, List.cons_append, Table.deleteEntries, Table.dropEntry]
    cases hnull : t.hasNull data index.fieldMetas with
    | none => exact absurd hnull (hfields index (by simp))
    | some b =>
      cases b with
      | true => simp [hnext]
      | false =>
        have hmem : (index.key data, rid) ∈ index.entries := by simpa [misses, hnull] using hhere
        simp [Index.deleteEntry, hmem, hnext]

/-- Taking the entries of a slot out and putting them back leaves the indexes as they were when the first index that
missed its entry refuses it. -/
theorem putBack_eq_iff {t : Table} (hw : t.WellFormed) (hk : t.Keyed) (data : Bytes) (rid : RID) (rc : RC) :
    (t.insertEntries data rid (t.deleteEntries data rid false rc t.indexes).2).2 = t.indexes ↔
      ∀ index, t.indexes.find? (misses t data rid) = some index → index.refuses (index.key data) rid = true := by
  generalize hfront : t.indexes.takeWhile (fun i => !misses t data rid i) = front
  generalize hrest : t.indexes.dropWhile (fun i => !misses t data rid i) = rest
  have hindexes : t.indexes = front ++ rest := by rw [← hfront, ← hrest, List.takeWhile_append_dropWhile]
  have hfields : ∀ i ∈ t.indexes, t.hasNull data i.fieldMetas ≠ none := fun i hi => Table.hasNull_isSome data (hw i hi)
  have hmem : ∀ i ∈ front, i ∈ t.indexes := fun i hi => by rw [hindexes]; exact List.mem_append_left _ hi
  have hheld : ∀ i ∈ front, misses t data rid i = false := by
    intro i hi
    rw [← hfront] at hi
    simpa using List.all_eq_true.mp List.all_takeWhile i hi
  have hstored : ∀ i ∈ front, t.hasNull data i.fieldMetas = some false → (i.key data, rid) ∈ i.entries := by
    intro i hi hnull
    simpa [misses, hnull] using hheld i hi
  have hstop : rest = [] ∨ ∃ index rest', rest = index :: rest' ∧ misses t data rid index = true := by
    cases rest with
    | nil => exact Or.inl rfl
    | cons index rest' =>
      refine Or.inr ⟨index, rest', rfl, ?_⟩
      have hhead := List.head_dropWhile_not (l := t.indexes) (fun i => !misses t data rid i) (by rw [hrest]; simp)
      simpa [hrest] using hhead
  have hback := hk.restore_dropped hmem (fun i hi => hfields i (hmem i hi)) hstored rest
  have hfind : (front ++ rest).find? (misses t data rid) = rest.find? (misses t data rid) := by
    rw [List.find?_append, List.find?_eq_none.mpr fun i hi => by simp [hheld i hi], Option.none_or]
  rw [hindexes, deleteEntries_until (fun i hi => hfields i (hmem i hi)) hheld hstop, hback,
    List.append_cancel_left_eq, hfind]
  rcases hstop with rfl | ⟨index, rest', rfl, hmisses⟩
  · simp [Table.insertEntries]
  · have hfirst : (index :: rest').find? (misses t data rid) = some index := by simp [hmisses]
    rw [hfirst]
    simp only [Option.some.injEq, forall_eq']
    simp only [misses, Bool.and_eq_true, beq_iff_eq, decide_eq_true_eq] at hmisses
    constructor
    · intro heq
      by_contra hnot
      have hin : (index.key data, rid) ∈ (t.addEntry data rid index).entries := by
        rw [Table.mem_addEntry]
        exact Or.inl ⟨hmisses.1, rfl⟩
      have htake := t.insertEntries_append data rid [index] rest'
        (fun i hi => by rw [List.mem_singleton.mp hi, hmisses.1]; simp)
        (fun i hi _ => by rw [List.mem_singleton.mp hi]; exact Bool.eq_false_iff.mpr hnot)
      rw [List.singleton_append] at htake
      rw [htake, List.map_singleton, List.singleton_append, List.cons.injEq] at heq
      rw [heq.1] at hin
      exact hmisses.2 hin
    · intro hrefuses
      rw [t.insertEntries_refused data rid rest' hmisses.1 hrefuses]

/-! ## Failed updates -/

/-- What an `update_record` that an index refuses leaves: the mark on the row, and its entries taken out and put back. -/
theorem updateRecord_refused_eq {db db' : Db} {s table : ℕ} {rid newRid : RID} {newData : Bytes} {record : Record}
    (htidy : (db.tables table).Tidy) (hrecord : (db.tables table).records rid = some record)
    (hfree : (db.tables table).records newRid = none)
    (hrefused : db.updateRecord s table rid newData newRid = some (.recordDuplicateKey, db')) :
    db' = db.setTable table ⟨(db.tables table).fields, (db.tables table).nullOffset,
      ((db.tables table).insertEntries record.data rid
        ((db.tables table).deleteEntries record.data rid false .success (db.tables table).indexes).2).2,
      Function.update (db.tables table).records rid (some { record with endXid := -(db.trxes s).trxId })⟩ := by
  generalize hmark : ({ record with endXid := -(db.trxes s).trxId } : Record) = marked
  have hdata : marked.data = record.data := by rw [← hmark]
  have hne : newRid ≠ rid := by
    rintro rfl
    rw [hrecord] at hfree
    cases hfree
  unfold Db.updateRecord at hrefused
  simp only [hrecord, Option.bind_eq_bind, Option.bind_some, hmark] at hrefused
  split at hrefused
  · have hrc := (Prod.mk.inj (Option.some.inj hrefused)).1
    unfold visitRecord at hrc
    repeat' split at hrc
    all_goals cases hrc
  generalize ht : (((db.tables table).setRecord rid (some marked)).deleteEntryOfIndexes marked rid false).2 = t at hrefused
  have htidy' : t.Tidy := by
    rw [← ht]
    exact (htidy.setRecord hrecord hdata).deleteEntryOfIndexes marked rid false
  have hfree' : t.records newRid = none := by
    rw [← ht]
    exact (Function.update_of_ne hne _ _).trans hfree
  have hinsert : ∀ indexes, t.insertEntries record.data rid indexes =
      (db.tables table).insertEntries record.data rid indexes := by
    intro indexes
    rw [← ht]
    apply Table.insertEntries_congr <;> rfl
  have hindexes : t.indexes =
      ((db.tables table).deleteEntries record.data rid false .success (db.tables table).indexes).2 := by
    have hdelete : Table.deleteEntries ((db.tables table).setRecord rid (some marked)) record.data rid false .success
        (db.tables table).indexes =
          (db.tables table).deleteEntries record.data rid false .success (db.tables table).indexes := by
      apply Table.deleteEntries_congr <;> rfl
    rw [← ht, ← hdelete, ← hdata]
    rfl
  split at hrefused
  · next hrc =>
    obtain ⟨-, rfl⟩ := Prod.mk.inj (Option.some.inj hrefused)
    rw [Table.insertRecord_refused _ (htidy'.faithful.unlisted hfree') hfree' hrc]
    unfold Table.insertEntryOfIndexes
    simp only [hdata, hinsert, hindexes]
    rw [← ht]
    rfl
  · have hcode := (Prod.mk.inj (Option.some.inj hrefused)).1
    cases hcode

/-- An `update_record` that an index refuses, in any reachable database: it leaves everything as it was exactly when the
row carries the mark of this transaction already, and the first index that misses its entry refuses it. -/
theorem updateRecord_refused_unchanged_iff {P : View → ℕ → Act → Prop} {db₀ db db' : Db}
    (htables : ∀ table, (db₀.tables table).WellKeyed ∧ (db₀.tables table).Sound ∧ (db₀.tables table).Keyed)
    (hrun : Relation.ReflTransGen (Step P) db₀ db) {s table : ℕ} {rid newRid : RID} {newData : Bytes} {record : Record}
    (hrecord : (db.tables table).records rid = some record) (hfree : (db.tables table).records newRid = none)
    (hrefused : db.updateRecord s table rid newData newRid = some (.recordDuplicateKey, db')) :
    db' = db ↔ record.endXid = -(db.trxes s).trxId ∧
      ∀ index, (db.tables table).indexes.find? (misses (db.tables table) record.data rid) = some index →
        index.refuses (index.key record.data) rid = true := by
  have htidy : Tidy db.tables := tidy_run (fun table => (htables table).2.1.tidy) hrun
  have hkeyed : Keyed db.tables := keyed_run (fun table => (htables table).2.2) hrun
  rw [updateRecord_refused_eq (htidy table) hrecord hfree hrefused,
    ← putBack_eq_iff (htidy table).wellFormed (hkeyed table) record.data rid .success]
  constructor
  · intro heq
    have htable : Function.update db.tables table _ table = db.tables table := congrFun (congrArg Db.tables heq) table
    rw [Function.update_self] at htable
    have hstored : Function.update (db.tables table).records rid _ rid = (db.tables table).records rid :=
      congrFun (congrArg Table.records htable) rid
    rw [Function.update_self, hrecord] at hstored
    exact ⟨(congrArg Record.endXid (Option.some.inj hstored)).symm, congrArg Table.indexes htable⟩
  · rintro ⟨hend, hindexes⟩
    rw [hindexes, ← hend, ← hrecord, Function.update_eq_self, Db.setTable, Function.update_eq_self]

/-- New tables with a nullable integer field, on which there is a unique index. -/
def uniqueTables : ℕ → Table :=
  fun _ => ⟨[⟨.chars, 0, 1⟩, ⟨.ints, 1, 4⟩], 0, [⟨[⟨.ints, 1, 4⟩], true, ∅⟩], fun _ => none⟩

theorem uniqueTables_sound (table : ℕ) :
    (uniqueTables table).WellKeyed ∧ (uniqueTables table).Sound ∧ (uniqueTables table).Keyed := by
  refine ⟨show (uniqueTables 0).WellKeyed by decide, ?_, ?_⟩
  · apply Table.sound_of_empty
    · intro index hindex f hf
      fin_cases hindex
      fin_cases hf
      exact ⟨1, rfl⟩
    · intro rid
      rfl
    · intro index hindex
      fin_cases hindex
      rfl
  · intro index hindex
    fin_cases hindex
    simp [Index.Keyed]

/-- A row with a NULL is inserted, deleted and updated in one transaction: the update is refused, and nothing is left. -/
theorem updateRecord_refused_own_deleted :
    let calls := [(0, Act.startIfNeed), (0, .insertRecord 0 [0, 7, 0, 0, 0] ⟨1, 0⟩),
      (0, .commit [⟨.insert, 0, ⟨1, 0⟩⟩]), (1, .startIfNeed), (1, .insertRecord 0 [2, 0, 0, 0, 0] ⟨1, 1⟩),
      (1, .deleteRecord 0 ⟨1, 1⟩)]
    ∃ db db', (Db.create uniqueTables).runActs calls = some db ∧
      db.version (0, ⟨1, 1⟩) = some ⟨-3, -3, [2, 0, 0, 0, 0]⟩ ∧
      db.updateRecord 1 0 ⟨1, 1⟩ [0, 7, 0, 0, 0] ⟨1, 2⟩ = some (.recordDuplicateKey, db') ∧ db' = db := by
  intro calls
  obtain ⟨db, hcalls, hobserved⟩ := Option.map_eq_some_iff.mp (show ((Db.create uniqueTables).runActs calls).map
    (fun db => (db.version (0, ⟨1, 1⟩), (db.trxes 1).trxId, (db.tables 0).records ⟨1, 2⟩,
      (db.updateRecord 1 0 ⟨1, 1⟩ [0, 7, 0, 0, 0] ⟨1, 2⟩).map Prod.fst,
      ((db.tables 0).indexes.find? (misses (db.tables 0) [2, 0, 0, 0, 0] ⟨1, 1⟩)).isNone)) =
        some (some ⟨-3, -3, [2, 0, 0, 0, 0]⟩, 3, none, some .recordDuplicateKey, true) by decide +kernel)
  simp only [Prod.mk.injEq] at hobserved
  obtain ⟨hversion, hid, hfree, hrc, hmissed⟩ := hobserved
  obtain ⟨⟨rc, db'⟩, hcall, rfl⟩ := Option.map_eq_some_iff.mp hrc
  have hrun : Relation.ReflTransGen (Step fun _ _ _ => True) (Db.create uniqueTables) db :=
    runActs_steps (fun _ _ _ _ => trivial) hcalls
  refine ⟨db, db', hcalls, hversion, hcall, ?_⟩
  refine (updateRecord_refused_unchanged_iff uniqueTables_sound hrun hversion hfree hcall).mpr ⟨?_, ?_⟩
  · rw [hid]
  · intro index hindex
    rw [Option.isNone_iff_eq_none.mp hmissed] at hindex
    cases hindex

/-- A committed row is updated to a key that another row has: the update is refused, and the row stays marked. -/
theorem updateRecord_refused_marked :
    let calls := [(0, Act.startIfNeed), (0, .insertRecord 0 [0, 7, 0, 0, 0] ⟨1, 0⟩),
      (0, .insertRecord 0 [0, 8, 0, 0, 0] ⟨1, 1⟩), (0, .commit [⟨.insert, 0, ⟨1, 0⟩⟩, ⟨.insert, 0, ⟨1, 1⟩⟩]),
      (1, .startIfNeed)]
    ∃ db db', (Db.create uniqueTables).runActs calls = some db ∧
      db.version (0, ⟨1, 0⟩) = some ⟨2, maxTrxId, [0, 7, 0, 0, 0]⟩ ∧
      visitRecord (db.trxes 1).trxId ⟨2, maxTrxId, [0, 7, 0, 0, 0]⟩ false = .success ∧
      db.updateRecord 1 0 ⟨1, 0⟩ [0, 8, 0, 0, 0] ⟨1, 2⟩ = some (.recordDuplicateKey, db') ∧
      db'.version (0, ⟨1, 0⟩) = some ⟨2, -3, [0, 7, 0, 0, 0]⟩ ∧ (db'.trxes 1).operations.toList = [] ∧ db' ≠ db := by
  intro calls
  obtain ⟨⟨db, rc, db'⟩, hall, hobserved⟩ := Option.map_eq_some_iff.mp (show
    (((Db.create uniqueTables).runActs calls).bind fun db =>
      (db.updateRecord 1 0 ⟨1, 0⟩ [0, 8, 0, 0, 0] ⟨1, 2⟩).map fun result => (db, result)).map
        (fun o => (o.2.1, (o.1.trxes 1).trxId, (o.2.2.trxes 1).operations.toList.isEmpty,
          [o.1.version (0, ⟨1, 0⟩), o.2.2.version (0, ⟨1, 0⟩)])) =
            some (.recordDuplicateKey, 3, true, [some ⟨2, maxTrxId, [0, 7, 0, 0, 0]⟩, some ⟨2, -3, [0, 7, 0, 0, 0]⟩])
      by decide +kernel)
  simp only [Prod.mk.injEq, List.cons.injEq, and_true] at hobserved
  obtain ⟨rfl, hid, hops, hversion, hversion'⟩ := hobserved
  obtain ⟨_, hcalls, hupdate⟩ := Option.bind_eq_some_iff.mp hall
  obtain ⟨_, hcall, hpair⟩ := Option.map_eq_some_iff.mp hupdate
  simp only [Prod.mk.injEq] at hpair
  obtain ⟨rfl, rfl⟩ := hpair
  refine ⟨_, db', hcalls, hversion, by rw [hid]; decide, hcall, hversion', List.isEmpty_iff.mp hops, ?_⟩
  intro heq
  rw [heq, hversion] at hversion'
  exact absurd hversion' (by decide)

end Landbase.Trx
