import Landbase.Storage.IndexTree
import Landbase.Storage.Schema

/-! # Indexes on tables that are filled

`Table::create_index` fills a new index from a scan: every record that the transaction sees is handed to
`Index::insert_entry`. A record that is inserted when the index is there goes through `insert_entry_of_indexes`, which
passes over records with a NULL in the fields of the index, whoever can see them. The two agree just when the records that
are seen are those without a NULL, unless both fail on equal keys (`lateEqualsEarly_iff`).

A scan goes through the records in the order of their identifiers. In this order the tree of a unique index refuses exactly
the keys that it holds, so both ways of filling the index do to its tree what they do to the set of its entries
(`insertAll_stores`).
-/

namespace Landbase.Storage
open Landbase.Index
set_option autoImplicit false

namespace Index

/-- The loop of `Table::create_index` over its scan. -/
def fill (visible : Record → Bool) : List (RID × Record) → Index → RC × Index
  | [], index => (.success, index)
  | (rid, record) :: rows, index =>
    if visible record then
      let r := index.insertEntry record.data rid
      if r.1 ≠ .success then r else fill visible rows r.2
    else fill visible rows index

end Index

namespace Table

/-- What an index is created of: its fields and whether it is unique. -/
structure IndexDef where
  fieldMetas : List FieldMeta
  unique : Bool
  wellKeyed : Index.WellKeyed (fieldMetas.map fun f => ⟨f.type, f.len⟩)

/-- The index as `BplusTreeIndex::create` makes it. -/
def IndexDef.new (d : IndexDef) : Index := ⟨d.fieldMetas, d.unique, ∅⟩

/-- `Table::create_index` behind the checks of its arguments, which look at no record. `rows` is what a scan of the table
comes to, and `visible` what the transaction sees. -/
def createIndex (t : Table) (visible : Record → Bool) (rows : List (RID × Record)) (d : IndexDef) : RC × Table :=
  let r := Index.fill visible rows d.new
  if r.1 ≠ .success then (r.1, t) else (.success, { t with indexes := t.indexes ++ [r.2] })

/-- Records are inserted one after the other, up to the first that is refused. -/
def insertRows : List (RID × Record) → Table → RC × Table
  | [], t => (.success, t)
  | (rid, record) :: rows, t =>
    let r := t.insertRecord record rid
    if r.1 ≠ .success then r else insertRows rows r.2

/-- The table without records and indexes. -/
def emptied (t : Table) : Table := { t with indexes := [], records := fun _ => none }

/-- The rows are the records of the table, each under its identifier, in the order of the scan. -/
structure Lists (t : Table) (rows : List (RID × Record)) : Prop where
  valid : ∀ row ∈ rows, row.1.Valid
  ascending : rows.Pairwise fun row row' => RID.compare row.1 row'.1 < 0
  mem : ∀ rid record, (rid, record) ∈ rows ↔ t.records rid = some record

theorem Lists.nodup {t : Table} {rows : List (RID × Record)} (h : t.Lists rows) : (rows.map Prod.fst).Nodup := by
  refine List.pairwise_map.mpr (h.ascending.imp fun {row row'} hlt heq => ?_)
  rw [heq] at hlt
  simp [RID.compare, toInt32] at hlt

/-- An index that is created on the table is the one that is there when it is created first and the records come after: the
one fails just when the other does, and otherwise they hold the same. -/
def LateEqualsEarly (t : Table) (visible : Record → Bool) (rows : List (RID × Record)) (d : IndexDef) : Prop :=
  let late := t.createIndex visible rows d
  let early := (t.emptied.createIndex visible [] d).2.insertRows rows
  (late.1 = .success ↔ early.1 = .success) ∧
    (late.1 = .success → late.2.indexes.getLast? = early.2.indexes.getLast?)

end Table

/-! ## Inserting many entries -/

namespace Index

/-- Entries are inserted one after the other, up to the first that is refused. -/
def insertAll : List (RID × Record) → Index → RC × Index
  | [], index => (.success, index)
  | (rid, record) :: rows, index =>
    let r := index.insertEntry record.data rid
    if r.1 ≠ .success then r else insertAll rows r.2

variable {index : Index} {rows : List (RID × Record)}

theorem insertAll_refused {rid : RID} {record : Record} (h : index.refuses (index.key record.data) rid = true) :
    insertAll ((rid, record) :: rows) index = (.recordDuplicateKey, index) := by
  have hentry : index.insertEntry record.data rid = (.recordDuplicateKey, index) := if_pos h
  rw [insertAll, hentry]
  rfl

theorem insertAll_accepted {rid : RID} {record : Record} (h : index.refuses (index.key record.data) rid = false) :
    insertAll ((rid, record) :: rows) index =
      insertAll rows { index with entries := insert (index.key record.data, rid) index.entries } := by
  have hentry : index.insertEntry record.data rid =
      (.success, { index with entries := insert (index.key record.data, rid) index.entries }) :=
    if_neg (by rw [h]; exact Bool.false_ne_true)
  rw [insertAll, hentry]
  rfl

/-- The loop of `create_index` inserts the entries of the records that are seen. -/
theorem fill_eq (visible : Record → Bool) (rows : List (RID × Record)) (index : Index) :
    fill visible rows index = insertAll (rows.filter fun row => visible row.2) index := by
  induction rows generalizing index with
  | nil => rfl
  | cons row rows ih =>
    obtain ⟨rid, record⟩ := row
    rw [fill]
    by_cases hvisible : visible record = true
    · rw [if_pos hvisible, List.filter_cons, if_pos hvisible, insertAll]
      simp only [ih]
    · rw [if_neg hvisible, List.filter_cons, if_neg hvisible, ih]

/-- The entries of the rows. -/
def entriesOf (index : Index) (rows : List (RID × Record)) : Finset (IndexKey × RID) :=
  (rows.map fun row => (index.key row.2.data, row.1)).toFinset

/-- The rows are accepted when the index is not unique, or they have different keys that the index does not hold. -/
def Admits (index : Index) (rows : List (RID × Record)) : Prop :=
  index.unique = true → (rows.map fun row => index.key row.2.data).Nodup ∧
    ∀ row ∈ rows, ∀ e ∈ index.entries, e.1 ≠ index.key row.2.data

theorem refuses_eq_false_iff {key : IndexKey} {rid : RID} (hnew : (key, rid) ∉ index.entries) :
    index.refuses key rid = false ↔ (index.unique = true → ∀ e ∈ index.entries, e.1 ≠ key) := by
  unfold refuses
  cases hunique : index.unique with
  | true =>
    rw [if_pos rfl, decide_eq_false_iff_not]
    constructor
    · exact fun hnone _ e he hkey => hnone ⟨e, he, hkey⟩
    · rintro hall ⟨e, he, hkey⟩
      exact hall rfl e he hkey
  | false =>
    rw [if_neg Bool.false_ne_true, decide_eq_false_iff_not]
    exact iff_of_true hnew fun htrue => by cases htrue

/-- One row more, in front. -/
theorem admits_cons {rid : RID} {record : Record} (hnew : (index.key record.data, rid) ∉ index.entries) :
    index.Admits ((rid, record) :: rows) ↔ index.refuses (index.key record.data) rid = false ∧
      Admits { index with entries := insert (index.key record.data, rid) index.entries } rows := by
  have hkey : ∀ data, Index.key { index with entries := insert (index.key record.data, rid) index.entries } data =
      index.key data := fun _ => rfl
  rw [refuses_eq_false_iff hnew]
  unfold Admits
  simp only [hkey]
  constructor
  · intro h
    refine ⟨fun hunique => (h hunique).2 _ List.mem_cons_self, fun hunique => ?_⟩
    obtain ⟨hkeys, hother⟩ := h hunique
    rw [List.map_cons, List.nodup_cons] at hkeys
    refine ⟨hkeys.2, fun row hrow e he => ?_⟩
    rcases Finset.mem_insert.mp he with rfl | he
    · exact fun heq => hkeys.1 (List.mem_map.mpr ⟨row, hrow, heq.symm⟩)
    · exact hother row (List.mem_cons_of_mem _ hrow) e he
  · rintro ⟨hhead, hrest⟩ hunique
    obtain ⟨hkeys, hother⟩ := hrest hunique
    constructor
    · rw [List.map_cons, List.nodup_cons]
      refine ⟨fun hmem => ?_, hkeys⟩
      obtain ⟨row, hrow, heq⟩ := List.mem_map.mp hmem
      exact hother row hrow _ (Finset.mem_insert_self _ _) heq.symm
    · intro row hrow e he
      rcases List.mem_cons.mp hrow with rfl | hrow
      · exact hhead hunique e he
      · exact hother row hrow e (Finset.mem_insert_of_mem he)

theorem insertAll_spec (hnodup : (rows.map Prod.fst).Nodup)
    (hnew : ∀ row ∈ rows, ∀ key, (key, row.1) ∉ index.entries) :
    ((insertAll rows index).1 = .success ↔ index.Admits rows) ∧
      ((insertAll rows index).1 = .success →
        (insertAll rows index).2 = { index with entries := index.entries ∪ index.entriesOf rows }) := by
  induction rows generalizing index with
  | nil =>
    refine ⟨iff_of_true rfl fun _ => ⟨List.nodup_nil, fun row hrow => absurd hrow List.not_mem_nil⟩, fun _ => ?_⟩
    show index = { index with entries := index.entries ∪ ∅ }
    rw [Finset.union_empty]
  | cons row rows ih =>
    obtain ⟨rid, record⟩ := row
    obtain ⟨hout, hnodup'⟩ := List.nodup_cons.mp hnodup
    rw [admits_cons (hnew _ List.mem_cons_self _)]
    cases hrefuses : index.refuses (index.key record.data) rid with
    | true =>
      rw [insertAll_refused hrefuses]
      refine ⟨iff_of_false (fun h => ?_) fun h => ?_, fun h => ?_⟩
      · cases h
      · cases h.1
      · cases h
    | false =>
      rw [insertAll_accepted hrefuses]
      have hnew' : ∀ row ∈ rows, ∀ key, (key, row.1) ∉ insert (index.key record.data, rid) index.entries := by
        intro row hrow key hmem
        cases Finset.mem_insert.mp hmem with
        | inl heq => exact hout (List.mem_map.mpr ⟨row, hrow, (Prod.mk.inj heq).2⟩)
        | inr hmem => exact hnew row (List.mem_cons_of_mem _ hrow) key hmem
      obtain ⟨hsuccess, hentries⟩ := @ih { index with entries := insert (index.key record.data, rid) index.entries }
        hnodup' hnew'
      refine ⟨hsuccess.trans (and_iff_right rfl).symm, fun h => ?_⟩
      rw [hentries h]
      have hall : insert (index.key record.data, rid) index.entries ∪ index.entriesOf rows =
          index.entries ∪ index.entriesOf ((rid, record) :: rows) := by
        unfold entriesOf
        rw [List.map_cons, List.toFinset_cons, Finset.insert_union, Finset.union_insert]
      exact congrArg (fun entries => { index with entries := entries }) hall

/-! ## The tree of the index -/

/-- The loop of `create_index`, on the tree of the index. -/
def fillTree (layout : KeyLayout) : List (RID × Record) → BplusTreeHandler Key → Option (RC × BplusTreeHandler Key)
  | [], tree => some (.success, tree)
  | (rid, record) :: rows, tree =>
    match tree.call layout (.insertEntry record.data rid) with
    | none => none
    | some (rc, tree) => if rc ≠ .success then some (rc, tree) else fillTree layout rows tree

/-- The records as `insert_entry` gets them. -/
def userRows (rows : List (RID × Record)) : List (Bytes × RID) := rows.map fun row => (row.2.data, row.1)

/-- Rows that are all behind those that have been inserted. -/
theorem insertAll_stores_behind (hw : WellKeyed index.attrs) {before : List (RID × Record)} {tree : BplusTreeHandler Key} {rcs : List RC}
    (hvalid : ∀ row ∈ before ++ rows, row.1.Valid)
    (hascending : (before ++ rows).Pairwise fun row row' => RID.compare row.1 row'.1 < 0)
    (hrun : index.newTree.run (index.layout hw) (inserts (userRows before)) = some (rcs, tree)) (hstores : index.Stores tree) :
    ∃ tree', fillTree (index.layout hw) rows tree = some ((insertAll rows index).1, tree') ∧
      (insertAll rows index).2.Stores tree' := by
  induction rows generalizing index before tree rcs with
  | nil => exact ⟨tree, rfl, hstores⟩
  | cons row rows ih =>
    obtain ⟨rid, record⟩ := row
    have hrid : rid.Valid := hvalid (rid, record) (by simp)
    have hbefore : ∀ other ∈ userRows before, other.2.Valid := by
      intro other hmem
      obtain ⟨row, hrow, rfl⟩ := List.mem_map.mp hmem
      exact hvalid row (List.mem_append_left _ hrow)
    have hlater : ∀ other ∈ userRows before, RID.compare other.2 rid < 0 := by
      intro other hmem
      obtain ⟨row, hrow, rfl⟩ := List.mem_map.mp hmem
      exact (List.pairwise_append.mp hascending).2.2 row hrow (rid, record) List.mem_cons_self
    have hclear : index.unique = true → Undivided (keyOps index.attrs) tree (index.treeKey record.data rid) := by
      intro hunique
      obtain ⟨B, _, _, ord, -, entries, hholds⟩ := hstores
      have hexact : ∀ a ∈ index.attrs, a.Exact := hw.exact
      rw [newTree, hunique] at hrun
      exact undivided_of_later hexact hw.leaf hw.internal hbefore
        (show ((record.data, rid) : Bytes × RID).2.Valid from hrid) hlater hrun (leafChain_eq hholds.represents)
        (hholds.distinct hunique)
    obtain ⟨tree₁, hcall, hstores₁⟩ := insertEntry_stores hw hstores hrid hclear
    cases hrefuses : index.refuses (index.key record.data) rid with
    | true =>
      have hentry : index.insertEntry record.data rid = (.recordDuplicateKey, index) := if_pos hrefuses
      rw [insertAll_refused hrefuses]
      rw [hentry] at hcall hstores₁
      refine ⟨tree₁, ?_, hstores₁⟩
      rw [fillTree, hcall]
      rfl
    | false =>
      have hentry : index.insertEntry record.data rid =
          (.success, { index with entries := insert (index.key record.data, rid) index.entries }) :=
        if_neg (by rw [hrefuses]; exact Bool.false_ne_true)
      rw [insertAll_accepted hrefuses]
      rw [hentry] at hcall hstores₁
      have hrun₁ : index.newTree.run (index.layout hw) (inserts (userRows (before ++ [(rid, record)]))) =
          some (rcs ++ [.success], tree₁) := by
        rw [userRows, List.map_append, inserts, List.map_append]
        exact run_concat hrun hcall
      rw [List.append_cons] at hvalid hascending
      obtain ⟨tree', hfill, hstores'⟩ := @ih { index with entries := insert (index.key record.data, rid) index.entries }
        hw _ _ _ hvalid hascending hrun₁ hstores₁
      refine ⟨tree', ?_, hstores'⟩
      rw [fillTree, hcall]
      exact hfill

/-- Filled in the order of the identifiers, a new index and its tree refuse the same row, or take all of them. -/
theorem insertAll_stores (hw : WellKeyed index.attrs) (hempty : index.entries = ∅) (hvalid : ∀ row ∈ rows, row.1.Valid)
    (hascending : rows.Pairwise fun row row' => RID.compare row.1 row'.1 < 0) :
    ∃ tree, fillTree (index.layout hw) rows index.newTree = some ((insertAll rows index).1, tree) ∧
      (insertAll rows index).2.Stores tree :=
  @insertAll_stores_behind index rows hw [] index.newTree [] hvalid hascending rfl (newTree_stores hw hempty)

end Index

/-! ## Inserting the records one by one -/

namespace Table

/-- The rows that have no NULL in the fields. -/
def withoutNull (t : Table) (fieldMetas : List FieldMeta) (rows : List (RID × Record)) : List (RID × Record) :=
  rows.filter fun row => t.hasNull row.2.data fieldMetas = some false

section OneIndex

variable {t : Table} {index : Index} {record : Record} {rid : RID}

theorem insertRecord_success_iff (hindexes : t.indexes = [index])
    (hfields : ∀ f ∈ index.fieldMetas, ∃ i, t.fieldIndex f = some i) (record : Record) (rid : RID) :
    (t.insertRecord record rid).1 = .success ↔
      (t.hasNull record.data index.fieldMetas = some false → index.refuses (index.key record.data) rid = false) := by
  have hwell : t.WellFormed := by
    intro other hother
    obtain rfl := List.mem_singleton.mp (hindexes ▸ hother)
    exact hfields
  have haccepts : t.Accepts record.data rid ↔
      (t.hasNull record.data index.fieldMetas = some false → index.refuses (index.key record.data) rid = false) := by
    unfold Accepts
    rw [hindexes]
    exact List.forall_mem_singleton
  rw [← haccepts]
  exact ⟨accepts_of_insertRecord, insertRecord_accepted hwell record⟩

theorem indexes_insertRecord (hindexes : t.indexes = [index]) (hrc : (t.insertRecord record rid).1 = .success) :
    (t.insertRecord record rid).2.indexes = [t.addEntry record.data rid index] := by
  rw [insertRecord_success hrc]
  show t.indexes.map _ = _
  rw [hindexes]
  rfl

theorem withoutNull_insertRecord (hrc : (t.insertRecord record rid).1 = .success) (fieldMetas : List FieldMeta)
    (rows : List (RID × Record)) :
    (t.insertRecord record rid).2.withoutNull fieldMetas rows = t.withoutNull fieldMetas rows := by
  unfold withoutNull
  simp only [(sameSchema_insertRecord hrc).hasNull]

/-- A row that the table takes is one that the filling of the index passes over, or takes as well. -/
theorem insertAll_cons_accepted
    (haccepts : t.hasNull record.data index.fieldMetas = some false → index.refuses (index.key record.data) rid = false)
    (rows : List (RID × Record)) :
    Index.insertAll (t.withoutNull index.fieldMetas ((rid, record) :: rows)) index =
      Index.insertAll (t.withoutNull index.fieldMetas rows) (t.addEntry record.data rid index) := by
  unfold addEntry
  by_cases hnull : t.hasNull record.data index.fieldMetas = some false
  · rw [withoutNull, List.filter_cons, if_pos (decide_eq_true hnull), if_pos hnull,
      Index.insertAll_accepted (haccepts hnull)]
    rfl
  · rw [withoutNull, List.filter_cons, if_neg (by rw [decide_eq_true_eq]; exact hnull), if_neg hnull]
    rfl

theorem insertAll_cons_refused (hnull : t.hasNull record.data index.fieldMetas = some false)
    (hrefuses : index.refuses (index.key record.data) rid = true) (rows : List (RID × Record)) :
    (Index.insertAll (t.withoutNull index.fieldMetas ((rid, record) :: rows)) index).1 ≠ .success := by
  rw [withoutNull, List.filter_cons, if_pos (decide_eq_true hnull), Index.insertAll_refused hrefuses]
  exact fun h => RC.noConfusion h

/-- On a table with one index: the rows go into it as a filling of it with those that have no NULL. -/
theorem insertRows_spec (hindexes : t.indexes = [index])
    (hfields : ∀ f ∈ index.fieldMetas, ∃ i, t.fieldIndex f = some i) (rows : List (RID × Record)) :
    ((t.insertRows rows).1 = .success ↔ (Index.insertAll (t.withoutNull index.fieldMetas rows) index).1 = .success) ∧
      ((t.insertRows rows).1 = .success →
        (t.insertRows rows).2.indexes = [(Index.insertAll (t.withoutNull index.fieldMetas rows) index).2]) := by
  induction rows generalizing t index with
  | nil => exact ⟨Iff.rfl, fun _ => hindexes⟩
  | cons row rows ih =>
    obtain ⟨rid, record⟩ := row
    have haccepts := insertRecord_success_iff hindexes hfields record rid
    rw [insertRows]
    by_cases hrc : (t.insertRecord record rid).1 = .success
    · have hmetas : (t.addEntry record.data rid index).fieldMetas = index.fieldMetas := addEntry_fieldMetas _ _ _ _
      have hfields' : ∀ f ∈ (t.addEntry record.data rid index).fieldMetas,
          ∃ i, (t.insertRecord record rid).2.fieldIndex f = some i := by
        intro f hf
        rw [fieldIndex, (sameSchema_insertRecord hrc).fields]
        exact hfields f (hmetas ▸ hf)
      have hrest := ih (indexes_insertRecord hindexes hrc) hfields'
      rw [hmetas, withoutNull_insertRecord hrc] at hrest
      rw [if_neg (not_not.mpr hrc), insertAll_cons_accepted (haccepts.mp hrc)]
      exact hrest
    · obtain ⟨hnull, hrefuses⟩ := Classical.not_imp.mp ((not_congr haccepts).mp hrc)
      have hrefused := insertAll_cons_refused hnull (Bool.not_eq_false _ ▸ hrefuses) rows
      rw [if_pos hrc]
      exact ⟨iff_of_false hrc hrefused, fun h => absurd h hrc⟩

end OneIndex

end Table

namespace Table

variable {t : Table} {rows : List (RID × Record)}

/-! ## Late and early -/

theorem withoutNull_congr {t' : Table} (hfields : t'.fields = t.fields) (hnull : t'.nullOffset = t.nullOffset)
    (fieldMetas : List FieldMeta) : t'.withoutNull fieldMetas rows = t.withoutNull fieldMetas rows := by
  unfold withoutNull
  simp only [hasNull_congr hfields hnull]

/-- The keys of the rows, as the index sees them. -/
def keysOf (d : IndexDef) (rows : List (RID × Record)) : List IndexKey := rows.map fun row => d.new.key row.2.data

theorem admits_new {d : IndexDef} :
    d.new.Admits rows ↔ (d.unique = true → (keysOf d rows).Nodup) :=
  forall_congr' fun _ => and_iff_left fun _ _ e he => absurd he (Finset.notMem_empty e)

/-- The new index, filled with the rows. -/
def filled (d : IndexDef) (rows : List (RID × Record)) : Index :=
  { d.new with entries := d.new.entriesOf rows }

theorem insertAll_new (d : IndexDef) (hnodup : (rows.map Prod.fst).Nodup) :
    ((Index.insertAll rows d.new).1 = .success ↔
        (d.unique = true → (keysOf d rows).Nodup)) ∧
      ((Index.insertAll rows d.new).1 = .success →
        (Index.insertAll rows d.new).2 = filled d rows) := by
  obtain ⟨hsuccess, hentries⟩ := @Index.insertAll_spec d.new rows hnodup
    fun _ _ _ => Finset.notMem_empty _
  refine ⟨hsuccess.trans admits_new, fun h => ?_⟩
  rw [hentries h, show d.new.entries = ∅ from rfl, Finset.empty_union]
  rfl

theorem nodup_filter (hnodup : (rows.map Prod.fst).Nodup) (p : RID × Record → Bool) :
    ((rows.filter p).map Prod.fst).Nodup := hnodup.sublist (List.filter_sublist.map _)

/-- Rows under different identifiers have the same entries only when they are the same. -/
theorem filled_filter_eq_iff (d : IndexDef) (hnodup : (rows.map Prod.fst).Nodup)
    (p q : RID × Record → Bool) : filled d (rows.filter p) = filled d (rows.filter q) ↔
      ∀ row ∈ rows, p row = true ↔ q row = true := by
  have hmem : ∀ (p q : RID × Record → Bool), filled d (rows.filter p) =
      filled d (rows.filter q) → ∀ row ∈ rows, p row = true → q row = true := by
    intro p q heq row hrow hp
    have hentries := congrArg Index.entries heq
    have hin : (d.new.key row.2.data, row.1) ∈
        (filled d (rows.filter q)).entries := by
      rw [← hentries]
      exact List.mem_toFinset.mpr (List.mem_map.mpr ⟨row, List.mem_filter.mpr ⟨hrow, hp⟩, rfl⟩)
    obtain ⟨row', hrow', heq'⟩ := List.mem_map.mp (List.mem_toFinset.mp hin)
    obtain ⟨hrows', hq⟩ := List.mem_filter.mp hrow'
    rwa [← List.inj_on_of_nodup_map hnodup hrows' hrow (Prod.mk.inj heq').2]
  constructor
  · exact fun heq row hrow => ⟨hmem p q heq row hrow, hmem q p heq.symm row hrow⟩
  · intro hsame
    rw [List.filter_congr fun row hrow => Bool.eq_iff_iff.mpr (hsame row hrow)]

theorem createIndex_spec (visible : Record → Bool) (d : IndexDef)
    (hnodup : (rows.map Prod.fst).Nodup) :
    ((t.createIndex visible rows d).1 = .success ↔
        (d.unique = true → (keysOf d (rows.filter fun row => visible row.2)).Nodup)) ∧
      ((t.createIndex visible rows d).1 = .success →
        (t.createIndex visible rows d).2.indexes.getLast? =
          some (filled d (rows.filter fun row => visible row.2))) := by
  obtain ⟨hsuccess, hindex⟩ := insertAll_new d (nodup_filter hnodup fun row => visible row.2)
  rw [← hsuccess]
  unfold createIndex
  rw [Index.fill_eq]
  by_cases hrc : (Index.insertAll (rows.filter fun row => visible row.2) d.new).1 = .success
  · rw [if_neg (not_not.mpr hrc)]
    refine ⟨iff_of_true rfl hrc, fun _ => ?_⟩
    rw [List.getLast?_concat, hindex hrc]
  · rw [if_pos hrc]
    exact ⟨Iff.rfl, fun h => absurd h hrc⟩

theorem insertRows_new (visible : Record → Bool) (d : IndexDef)
    (hnodup : (rows.map Prod.fst).Nodup) (hfields : ∀ f ∈ d.fieldMetas, ∃ i, t.fieldIndex f = some i) :
    (((t.emptied.createIndex visible [] d).2.insertRows rows).1 = .success ↔
        (d.unique = true → (keysOf d (t.withoutNull d.fieldMetas rows)).Nodup)) ∧
      (((t.emptied.createIndex visible [] d).2.insertRows rows).1 = .success →
        ((t.emptied.createIndex visible [] d).2.insertRows rows).2.indexes.getLast? =
          some (filled d (t.withoutNull d.fieldMetas rows))) := by
  have hspec := @insertRows_spec (t.emptied.createIndex visible [] d).2 d.new rfl hfields
    rows
  have hwithout : (t.emptied.createIndex visible [] d).2.withoutNull d.new.fieldMetas rows =
      t.withoutNull d.fieldMetas rows := by
    apply withoutNull_congr <;> rfl
  rw [hwithout] at hspec
  obtain ⟨hrc, hindexes⟩ := hspec
  obtain ⟨hsuccess, hindex⟩ := insertAll_new d
    (nodup_filter hnodup fun row => t.hasNull row.2.data d.fieldMetas = some false)
  refine ⟨hrc.trans hsuccess, fun h => ?_⟩
  rw [hindexes h]
  exact congrArg some (hindex (hrc.mp h))

/-- Of whichever rows of the scan the index is filled with, its tree refuses and holds what the set of its entries does. -/
theorem Lists.stores (hrows : t.Lists rows) (d : IndexDef) (p : RID × Record → Bool) :
    ∃ tree, Index.fillTree (d.new.layout d.wellKeyed) (rows.filter p) d.new.newTree =
        some ((Index.insertAll (rows.filter p) d.new).1, tree) ∧
      (Index.insertAll (rows.filter p) d.new).2.Stores tree :=
  Index.insertAll_stores (show Index.WellKeyed d.new.attrs from d.wellKeyed) rfl
    (fun row hrow => hrows.valid row (List.mem_of_mem_filter hrow)) (hrows.ascending.sublist List.filter_sublist)

/-- A record whose integer is NULL. -/
def nullRow : RID × Record := (⟨1, 0⟩, ⟨0, 0, [2, 0, 0, 0, 0]⟩)

/-- A table with a column of integers and this record. -/
def oneNull : Table where
  fields := [⟨.chars, 0, 1⟩, ⟨.ints, 1, 4⟩]
  nullOffset := 0
  indexes := []
  records := Function.update (fun _ => none) nullRow.1 (some nullRow.2)

theorem lists_oneNull : oneNull.Lists [nullRow] := by
  have hrecords : oneNull.records = Function.update (fun _ => none) nullRow.1 (some nullRow.2) := rfl
  refine ⟨by decide, List.pairwise_singleton _ _, fun rid record => ?_⟩
  rw [hrecords, List.mem_singleton]
  by_cases hrid : rid = nullRow.1
  · rw [hrid, Function.update_self, Option.some_inj]
    exact ⟨fun h => (congrArg Prod.snd h).symm, fun h => Prod.ext rfl h.symm⟩
  · rw [Function.update_of_ne hrid]
    exact ⟨fun h => absurd (congrArg Prod.fst h) hrid, fun h => nomatch h⟩

end Table

end Landbase.Storage
