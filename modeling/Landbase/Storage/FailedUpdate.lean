import Landbase.Storage.Consistent

/-! # Updates that an index refuses

`Table::update_record` takes the old entries out of all indexes, puts the new ones in, and when an index refuses, puts
the old ones back. It does not take out the new entries that were accepted before, and putting the old ones back stops
at the first index that still has its entry. `Undone` says when nothing is left behind all the same.
-/

namespace Landbase.Storage
open Landbase.Index
set_option autoImplicit false

/-- A unique index holds a key once. -/
def Index.Keyed (index : Index) : Prop :=
  index.unique = true → ∀ e ∈ index.entries, ∀ e' ∈ index.entries, e.1 = e'.1 → e = e'

theorem Index.Keyed.insertEntry {index : Index} (h : index.Keyed) (data : Bytes) (rid : RID) :
    (index.insertEntry data rid).2.Keyed := by
  unfold Index.insertEntry
  split
  · exact h
  · next hrefuses =>
    intro hunique e he e' he' hkey
    have hunique' : index.unique = true := hunique
    have hnew : ∀ d ∈ index.entries, d.1 ≠ index.key data := by
      intro d hd hdk
      refine hrefuses ?_
      simp only [Index.refuses, hunique', if_true, decide_eq_true_eq]
      exact ⟨d, hd, hdk⟩
    rcases Finset.mem_insert.mp he with rfl | he
    · rcases Finset.mem_insert.mp he' with rfl | he'
      · rfl
      · exact absurd hkey.symm (hnew e' he')
    · rcases Finset.mem_insert.mp he' with rfl | he'
      · exact absurd hkey (hnew e he)
      · exact h hunique' e he e' he' hkey

theorem Index.Keyed.deleteEntry {index : Index} (h : index.Keyed) (data : Bytes) (rid : RID) :
    (index.deleteEntry data rid).2.Keyed := by
  unfold Index.deleteEntry
  split
  · intro hunique e he e' he'
    exact h hunique e (Finset.mem_of_mem_erase he) e' (Finset.mem_of_mem_erase he')
  · exact h

namespace Table

/-- Every unique index holds a key once. -/
def Keyed (t : Table) : Prop := ∀ index ∈ t.indexes, index.Keyed

theorem insertEntries_keyed (t : Table) (data : Bytes) (rid : RID) {indexes : List Index}
    (h : ∀ index ∈ indexes, index.Keyed) : ∀ index ∈ (t.insertEntries data rid indexes).2, index.Keyed := by
  induction indexes with
  | nil => exact h
  | cons index indexes ih =>
    obtain ⟨hfirst, hrest⟩ := List.forall_mem_cons.mp h
    unfold insertEntries
    cases t.hasNull data index.fieldMetas with
    | none => exact h
    | some b =>
      cases b with
      | true => exact List.forall_mem_cons.mpr ⟨hfirst, ih hrest⟩
      | false =>
        dsimp only
        split
        · exact List.forall_mem_cons.mpr ⟨hfirst.insertEntry data rid, hrest⟩
        · exact List.forall_mem_cons.mpr ⟨hfirst.insertEntry data rid, ih hrest⟩

theorem deleteEntries_keyed (t : Table) (data : Bytes) (rid : RID) (errorOnNotExists : Bool) (rc : RC)
    {indexes : List Index} (h : ∀ index ∈ indexes, index.Keyed) :
    ∀ index ∈ (t.deleteEntries data rid errorOnNotExists rc indexes).2, index.Keyed := by
  induction indexes generalizing rc with
  | nil => exact h
  | cons index indexes ih =>
    obtain ⟨hfirst, hrest⟩ := List.forall_mem_cons.mp h
    unfold deleteEntries
    cases t.hasNull data index.fieldMetas with
    | none => exact h
    | some b =>
      cases b with
      | true => exact List.forall_mem_cons.mpr ⟨hfirst, ih rc hrest⟩
      | false =>
        dsimp only
        split
        · exact List.forall_mem_cons.mpr ⟨hfirst.deleteEntry data rid, hrest⟩
        · exact List.forall_mem_cons.mpr ⟨hfirst.deleteEntry data rid, ih _ hrest⟩

theorem Keyed.insertEntryOfIndexes {t : Table} (h : t.Keyed) (record : Record) (rid : RID) :
    (t.insertEntryOfIndexes record rid).2.Keyed := t.insertEntries_keyed record.data rid h

theorem Keyed.deleteEntryOfIndexes {t : Table} (h : t.Keyed) (record : Record) (rid : RID) (errorOnNotExists : Bool) :
    (t.deleteEntryOfIndexes record rid errorOnNotExists).2.Keyed :=
  t.deleteEntries_keyed record.data rid errorOnNotExists .success h

theorem Keyed.eraseRecord {t : Table} (h : t.Keyed) (rid : RID) : (t.eraseRecord rid).2.Keyed := by
  unfold Table.eraseRecord
  split <;> exact h

theorem Keyed.insertRecord {t : Table} (h : t.Keyed) (record : Record) (rid : RID) :
    (t.insertRecord record rid).2.Keyed := by
  have hinsert : ((t.setRecord rid (some record)).insertEntryOfIndexes record rid).2.Keyed :=
    Keyed.insertEntryOfIndexes (t := t.setRecord rid (some record)) h record rid
  unfold Table.insertRecord
  dsimp only
  split
  · exact (hinsert.deleteEntryOfIndexes record rid false).eraseRecord rid
  · exact hinsert

theorem Keyed.deleteRecord {t : Table} (h : t.Keyed) (record : Record) (rid : RID) :
    (t.deleteRecord record rid).2.Keyed := by
  unfold Table.deleteRecord
  dsimp only
  split
  · exact h.deleteEntryOfIndexes record rid true
  · exact (h.deleteEntryOfIndexes record rid true).eraseRecord rid

theorem Keyed.updateRecord {t : Table} (h : t.Keyed) (record newRecord : Record) (rid : RID) :
    (t.updateRecord record newRecord rid).2.Keyed := by
  have hdelete := h.deleteEntryOfIndexes record rid false
  have hinsert := hdelete.insertEntryOfIndexes newRecord rid
  unfold Table.updateRecord
  dsimp only
  split
  · exact hdelete
  · split
    · exact hinsert.insertEntryOfIndexes record rid
    · split
      · exact hinsert
      · exact hinsert

theorem keyed_of_run {t t' : Table} (h : t.Keyed) (hrun : Relation.ReflTransGen Step t t') : t'.Keyed := by
  induction hrun with
  | refl => exact h
  | tail _ hstep ih =>
    cases hstep with
    | insert record _ => exact ih.insertRecord record _
    | delete _ => exact ih.deleteRecord _ _
    | update _ newRecord _ => exact ih.updateRecord _ newRecord _

/-! ## Where the loop stops -/

theorem insertEntries_append (t : Table) (data : Bytes) (rid : RID) (front rest : List Index)
    (hfields : ∀ index ∈ front, t.hasNull data index.fieldMetas ≠ none)
    (htake : ∀ index ∈ front, t.hasNull data index.fieldMetas = some false →
      index.refuses (index.key data) rid = false) :
    t.insertEntries data rid (front ++ rest) =
      ((t.insertEntries data rid rest).1, front.map (t.addEntry data rid) ++ (t.insertEntries data rid rest).2) := by
  induction front with
  | nil => rfl
  | cons index front ih =>
    have hrest := ih (fun other ho => hfields other (by simp [ho])) (fun other ho => htake other (by simp [ho]))
    rw [List.cons_append, insertEntries, List.map_cons, addEntry]
    cases hnull : t.hasNull data index.fieldMetas with
    | none => exact absurd hnull (hfields index (by simp))
    | some b =>
      cases b with
      | true => simp [hrest]
      | false => simp [Index.insertEntry, htake index (by simp) hnull, hrest]

theorem insertEntries_refused (t : Table) (data : Bytes) (rid : RID) {index : Index} (rest : List Index)
    (hnull : t.hasNull data index.fieldMetas = some false) (hrefuses : index.refuses (index.key data) rid = true) :
    t.insertEntries data rid (index :: rest) = (.recordDuplicateKey, index :: rest) := by
  simp [insertEntries, hnull, Index.insertEntry, hrefuses]

theorem insertEntries_fails (t : Table) (data : Bytes) (rid : RID) (indexes : List Index)
    (hfields : ∀ index ∈ indexes, t.hasNull data index.fieldMetas ≠ none)
    (h : (t.insertEntries data rid indexes).1 ≠ .success) :
    ∃ front index rest, indexes = front ++ index :: rest ∧
      (∀ i ∈ front, t.hasNull data i.fieldMetas = some false → i.refuses (i.key data) rid = false) ∧
      t.hasNull data index.fieldMetas = some false ∧ index.refuses (index.key data) rid = true := by
  induction indexes with
  | nil => exact absurd rfl h
  | cons index indexes ih =>
    by_cases hhere : t.hasNull data index.fieldMetas = some false ∧ index.refuses (index.key data) rid = true
    · exact ⟨[], index, indexes, rfl, by simp, hhere.1, hhere.2⟩
    · have htake : ∀ i ∈ [index], t.hasNull data i.fieldMetas = some false → i.refuses (i.key data) rid = false := by
        intro i hi hnull
        rw [List.mem_singleton.mp hi] at hnull ⊢
        exact Bool.eq_false_iff.mpr fun hr => hhere ⟨hnull, hr⟩
      have happend := t.insertEntries_append data rid [index] indexes
        (fun i hi => hfields i (by rw [List.mem_singleton.mp hi]; simp)) htake
      rw [List.singleton_append] at happend
      rw [happend] at h
      obtain ⟨front, other, rest, rfl, hfront, hother⟩ := ih (fun i hi => hfields i (by simp [hi])) h
      refine ⟨index :: front, other, rest, rfl, ?_, hother⟩
      intro i hi
      rcases List.mem_cons.mp hi with rfl | hi
      · exact htake i (by simp)
      · exact hfront i hi

theorem insertEntries_grows (t : Table) (data : Bytes) (rid : RID) (indexes : List Index) :
    List.Forall₂ (fun index index' : Index => index.entries ⊆ index'.entries) indexes
      (t.insertEntries data rid indexes).2 := by
  have hsame : ∀ rest : List Index, List.Forall₂ (fun index index' : Index => index.entries ⊆ index'.entries) rest rest :=
    fun rest => List.forall₂_same.mpr fun _ _ => Finset.Subset.refl _
  induction indexes with
  | nil => exact List.Forall₂.nil
  | cons index indexes ih =>
    unfold insertEntries Index.insertEntry
    cases t.hasNull data index.fieldMetas with
    | none => exact hsame _
    | some b =>
      cases b with
      | true => exact List.Forall₂.cons (Finset.Subset.refl _) ih
      | false =>
        by_cases hrefuses : index.refuses (index.key data) rid = true
        · simp only [hrefuses, if_true, ne_eq, reduceCtorEq, not_false_eq_true]
          exact hsame _
        · simp only [hrefuses, if_false, ne_eq, not_true_eq_false, Bool.false_eq_true]
          exact List.Forall₂.cons (Finset.subset_insert _ _) ih

/-! ## The entries of one slot -/

section Slot

variable {t : Table} {rid : RID} {record : Record}

theorem dropEntry_of_null {data : Bytes} {index : Index} (hnull : t.hasNull data index.fieldMetas ≠ some false) :
    t.dropEntry data rid index = index := by
  rw [dropEntry, if_neg hnull]

theorem addEntry_of_null {data : Bytes} {index : Index} (hnull : t.hasNull data index.fieldMetas ≠ some false) :
    t.addEntry data rid index = index := by
  rw [addEntry, if_neg hnull]

theorem Keyed.takes_dropped (hk : t.Keyed) {data : Bytes} {index : Index} (hindex : index ∈ t.indexes)
    (hnull : t.hasNull data index.fieldMetas = some false) (hmem : (index.key data, rid) ∈ index.entries) :
    (t.dropEntry data rid index).refuses (index.key data) rid = false := by
  rw [dropEntry, if_pos hnull]
  unfold Index.refuses
  split
  · next hunique =>
    rw [decide_eq_false_iff_not]
    rintro ⟨e, he, hkey⟩
    obtain ⟨hne, he⟩ := Finset.mem_erase.mp he
    exact hne (hk index hindex hunique e he _ hmem hkey)
  · simp

theorem addEntry_dropEntry {data : Bytes} {index : Index} (hmem : t.hasNull data index.fieldMetas = some false →
    (index.key data, rid) ∈ index.entries) : t.addEntry data rid (t.dropEntry data rid index) = index := by
  by_cases hnull : t.hasNull data index.fieldMetas = some false
  · have hnull' : t.hasNull data (t.dropEntry data rid index).fieldMetas = some false := by rwa [dropEntry_fieldMetas]
    rw [addEntry, if_pos hnull', dropEntry_key, dropEntry, if_pos hnull]
    show ({ index with entries := insert (index.key data, rid) (index.entries.erase (index.key data, rid)) } : Index) = _
    rw [Finset.insert_erase (hmem hnull)]
  · rw [dropEntry_of_null hnull, addEntry_of_null hnull]

/-- A record and its successor have the same entry in the index, or both have none. -/
def SameEntry (t : Table) (old new : Bytes) (index : Index) : Prop :=
  t.hasNull old index.fieldMetas = t.hasNull new index.fieldMetas ∧
    (t.hasNull new index.fieldMetas = some false → index.key old = index.key new)

variable (hs : t.Sound) (hrecord : t.records rid = some record)

include hs hrecord in
theorem Sound.mem_slot {index : Index} (hindex : index ∈ t.indexes) (key : IndexKey) :
    (key, rid) ∈ index.entries ↔
      t.hasNull record.data index.fieldMetas = some false ∧ key = index.key record.data := by
  rw [hs.consistent index hindex key rid, hrecord]
  constructor
  · rintro ⟨r, hr, h⟩
    obtain rfl := Option.some.inj hr
    exact h
  · exact fun h => ⟨record, rfl, h⟩

include hs hrecord in
theorem Sound.dropEntry_eq_iff {index : Index} (hindex : index ∈ t.indexes) :
    t.dropEntry record.data rid index = index ↔ t.hasNull record.data index.fieldMetas ≠ some false := by
  refine ⟨fun heq hnull => ?_, dropEntry_of_null⟩
  have hmem := (hs.mem_slot hrecord hindex _).mpr ⟨hnull, rfl⟩
  rw [← heq, mem_dropEntry, dropEntry_key] at hmem
  exact hmem.1 ⟨hnull, rfl⟩

include hs hrecord in
theorem Sound.replaced_eq_iff {index : Index} (hindex : index ∈ t.indexes) (new : Bytes) :
    t.addEntry new rid (t.dropEntry record.data rid index) = index ↔ t.SameEntry record.data new index := by
  have hfields := hasNull_isSome (t := t) record.data (hs.wellFormed index hindex)
  have hfields' := hasNull_isSome (t := t) new (hs.wellFormed index hindex)
  by_cases hnew : t.hasNull new index.fieldMetas = some false
  · constructor
    · intro heq
      have hmem : (index.key new, rid) ∈ index.entries := by
        rw [← heq, mem_addEntry, addEntry_key, dropEntry_key, dropEntry_fieldMetas]
        exact Or.inl ⟨hnew, rfl⟩
      obtain ⟨hnull, hkey⟩ := (hs.mem_slot hrecord hindex _).mp hmem
      exact ⟨hnull.trans hnew.symm, fun _ => hkey.symm⟩
    · rintro ⟨hnull, hkey⟩
      have hadd : t.addEntry new rid (t.dropEntry record.data rid index) =
          t.addEntry record.data rid (t.dropEntry record.data rid index) := by
        simp only [addEntry, dropEntry_fieldMetas, hnew, hnull.trans hnew, dropEntry_key, hkey hnew]
      rw [hadd]
      exact addEntry_dropEntry fun h => (hs.mem_slot hrecord hindex _).mpr ⟨h, rfl⟩
  · rw [addEntry_of_null (by rw [dropEntry_fieldMetas]; exact hnew), hs.dropEntry_eq_iff hrecord hindex]
    have htrue : ∀ {b : Option Bool}, b ≠ none → b ≠ some false → b = some true := by
      intro b hnone hfalse
      cases b with
      | none => exact absurd rfl hnone
      | some b =>
        cases b with
        | false => exact absurd rfl hfalse
        | true => rfl
    constructor
    · intro hold
      exact ⟨(htrue hfields hold).trans (htrue hfields' hnew).symm, fun h => absurd h hnew⟩
    · rintro ⟨hnull, -⟩
      rw [hnull]
      exact hnew

end Slot

/-! ## Failed updates -/

/-- The index takes the entry of the new record in the place of the old one. -/
def takesUpdate (t : Table) (old new : Bytes) (rid : RID) (index : Index) : Bool :=
  t.hasNull new index.fieldMetas != some false || !(t.dropEntry old rid index).refuses (index.key new) rid

/-- An update that some index refuses leaves nothing behind: before that index nothing was put in, or the first entry
that was put in is the old one again, nothing else has changed up to the index that refuses, and the old record has no
entry from there on. -/
def Undone (t : Table) (old new : Bytes) (rid : RID) : Prop :=
  let front := t.indexes.takeWhile (t.takesUpdate old new rid)
  let rest := t.indexes.dropWhile (t.takesUpdate old new rid)
  (∀ index ∈ front, t.hasNull new index.fieldMetas ≠ some false) ∨
    ∃ before index after, front = before ++ index :: after ∧
      (∀ i ∈ before, t.hasNull new i.fieldMetas ≠ some false) ∧ t.hasNull new index.fieldMetas = some false ∧
      t.SameEntry old new index ∧ (∀ i ∈ after, t.SameEntry old new i) ∧
      ∀ i ∈ rest, t.hasNull old i.fieldMetas ≠ some false

section Failed

variable {t : Table} {rid : RID} {record : Record}

/-- What the indexes are after an update that one of them refuses. -/
theorem Sound.updateRecord_refused (hs : t.Sound) (hrecord : t.records rid = some record) (newRecord : Record)
    (h : (t.updateRecord record newRecord rid).1 = .recordDuplicateKey) :
    ∃ front index rest, t.indexes.takeWhile (t.takesUpdate record.data newRecord.data rid) = front ∧
      t.indexes.dropWhile (t.takesUpdate record.data newRecord.data rid) = index :: rest ∧
      (t.updateRecord record newRecord rid).2 = { t with
        indexes := (t.insertEntries record.data rid
          (front.map (fun i => t.addEntry newRecord.data rid (t.dropEntry record.data rid i)) ++
            (index :: rest).map (t.dropEntry record.data rid))).2 } := by
  generalize hdropped : t.indexes.map (t.dropEntry record.data rid) = dropped
  have hins : ∀ indexes (data : Bytes), Table.insertEntries { t with indexes := indexes } data rid indexes =
      t.insertEntries data rid indexes := by
    intro indexes data
    apply insertEntries_congr <;> rfl
  have hupdate := h
  unfold Table.updateRecord at hupdate ⊢
  rw [deleteEntryOfIndexes_stored hs hrecord, hdropped] at hupdate ⊢
  simp only [ne_eq, not_true_eq_false, if_false, insertEntryOfIndexes, hins] at hupdate ⊢
  by_cases hrc : (t.insertEntries newRecord.data rid dropped).1 = .success
  · simp [hrc, hrecord] at hupdate
  have hfields : ∀ i ∈ dropped, t.hasNull newRecord.data i.fieldMetas ≠ none := by
    intro i hi
    rw [← hdropped] at hi
    obtain ⟨j, hj, rfl⟩ := List.mem_map.mp hi
    rw [dropEntry_fieldMetas]
    exact hasNull_isSome newRecord.data (hs.wellFormed j hj)
  obtain ⟨front', index', rest', hsplit, hfront, hnull, hrefuses⟩ :=
    t.insertEntries_fails newRecord.data rid dropped hfields hrc
  have hloop := t.insertEntries_append newRecord.data rid _ (index' :: rest')
    (fun i hi => hfields i (by rw [hsplit]; exact List.mem_append_left _ hi)) hfront
  rw [← hsplit, t.insertEntries_refused newRecord.data rid rest' hnull hrefuses] at hloop
  rw [← hdropped] at hsplit
  obtain ⟨front, rest, hindexes, rfl, hrest⟩ := List.map_eq_append_iff.mp hsplit
  obtain ⟨index, rest, rfl, rfl, rfl⟩ := List.map_eq_cons_iff.mp hrest
  have htakes : ∀ i ∈ front, t.takesUpdate record.data newRecord.data rid i = true := by
    intro i hi
    have hi' := hfront _ (List.mem_map_of_mem hi)
    rw [dropEntry_fieldMetas, dropEntry_key] at hi'
    unfold takesUpdate
    by_cases hnew : t.hasNull newRecord.data i.fieldMetas = some false
    · simp [hnew, hi' hnew]
    · simp [hnew]
  have hstop : t.takesUpdate record.data newRecord.data rid index = false := by
    rw [dropEntry_fieldMetas] at hnull
    rw [dropEntry_key] at hrefuses
    simp [takesUpdate, hnull, hrefuses]
  refine ⟨front, index, rest, ?_, ?_, ?_⟩
  · rw [hindexes, List.takeWhile_append_of_pos htakes, List.takeWhile_cons_of_neg (by simp [hstop]), List.append_nil]
  · rw [hindexes, List.dropWhile_append_of_pos htakes, List.dropWhile_cons_of_neg (by simp [hstop])]
  · simp only [hloop, reduceCtorEq, not_false_eq_true, if_true, List.map_map]
    rfl

theorem Keyed.restore_dropped (hk : t.Keyed) {data : Bytes} {front : List Index} (hmem : ∀ i ∈ front, i ∈ t.indexes)
    (hfields : ∀ i ∈ front, t.hasNull data i.fieldMetas ≠ none)
    (hstored : ∀ i ∈ front, t.hasNull data i.fieldMetas = some false → (i.key data, rid) ∈ i.entries)
    (rest : List Index) :
    (t.insertEntries data rid (front.map (t.dropEntry data rid) ++ rest)).2 =
      front ++ (t.insertEntries data rid rest).2 := by
  rw [t.insertEntries_append data rid _ rest]
  · rw [List.map_map]
    have hid : front.map (t.addEntry data rid ∘ t.dropEntry data rid) = front.map id :=
      List.map_congr_left fun i hi => addEntry_dropEntry (hstored i hi)
    rw [hid, List.map_id]
  · intro i hi
    obtain ⟨j, hj, rfl⟩ := List.mem_map.mp hi
    rw [dropEntry_fieldMetas]
    exact hfields j hj
  · intro i hi hnull
    obtain ⟨j, hj, rfl⟩ := List.mem_map.mp hi
    rw [dropEntry_fieldMetas] at hnull
    rw [dropEntry_key]
    exact hk.takes_dropped (hmem j hj) hnull (hstored j hj hnull)

theorem Sound.restore_dropped (hs : t.Sound) (hk : t.Keyed) (hrecord : t.records rid = some record) {front : List Index}
    (hfront : ∀ i ∈ front, i ∈ t.indexes) (rest : List Index) :
    (t.insertEntries record.data rid (front.map (t.dropEntry record.data rid) ++ rest)).2 =
      front ++ (t.insertEntries record.data rid rest).2 :=
  hk.restore_dropped hfront (fun i hi => hasNull_isSome record.data (hs.wellFormed i (hfront i hi)))
    (fun i hi hnull => (hs.mem_slot hrecord (hfront i hi) _).mpr ⟨hnull, rfl⟩) rest

theorem replaced_of_null {old new : Bytes} {front : List Index}
    (hnew : ∀ i ∈ front, t.hasNull new i.fieldMetas ≠ some false) :
    front.map (fun i => t.addEntry new rid (t.dropEntry old rid i)) = front.map (t.dropEntry old rid) := by
  refine List.map_congr_left fun i hi => ?_
  exact addEntry_of_null (by rw [dropEntry_fieldMetas]; exact hnew i hi)

/-- Putting the old entries back stops at an index that has its entry. -/
theorem Sound.restore_stops (hs : t.Sound) (hk : t.Keyed) (hrecord : t.records rid = some record) {new : Bytes}
    {before after : List Index} {g : Index} (hbefore : ∀ i ∈ before, i ∈ t.indexes) (hg : g ∈ t.indexes)
    (hnull : ∀ i ∈ before, t.hasNull new i.fieldMetas ≠ some false) (hnew : t.hasNull new g.fieldMetas = some false)
    (hsame : t.SameEntry record.data new g) (rest : List Index) :
    (t.insertEntries record.data rid
        ((before ++ g :: after).map (fun i => t.addEntry new rid (t.dropEntry record.data rid i)) ++ rest)).2 =
      before ++ g :: (after.map (fun i => t.addEntry new rid (t.dropEntry record.data rid i)) ++ rest) := by
  have hold : t.hasNull record.data g.fieldMetas = some false := hsame.1.trans hnew
  have hmem := (hs.mem_slot hrecord hg _).mpr ⟨hold, rfl⟩
  have hrefuses : g.refuses (g.key record.data) rid = true := by
    by_contra hnot
    exact not_mem_of_not_refuses (Bool.eq_false_iff.mpr hnot) hmem
  rw [List.map_append, List.map_cons, (hs.replaced_eq_iff hrecord hg new).mpr hsame, replaced_of_null hnull,
    List.append_assoc, hs.restore_dropped hk hrecord hbefore, List.cons_append,
    t.insertEntries_refused record.data rid _ hold hrefuses]

/-- A `WellKeyed` table whose indexes agree with its records, and an update that an index refuses: the records and the
indexes are as before exactly when the update is `Undone`. -/
theorem updateRecord_refused_iff (hkeyed : t.WellKeyed ∧ t.Keyed) (hs : t.Sound) (hrecord : t.records rid = some record)
    (newRecord : Record) (h : (t.updateRecord record newRecord rid).1 = .recordDuplicateKey) :
    (t.updateRecord record newRecord rid).2 = t ↔ t.Undone record.data newRecord.data rid := by
  obtain ⟨-, hk⟩ := hkeyed
  obtain ⟨front, index, rest, hfront, hrest, hresult⟩ := hs.updateRecord_refused hrecord newRecord h
  have hindexes : t.indexes = front ++ index :: rest := by
    rw [← hfront, ← hrest, List.takeWhile_append_dropWhile]
  have hmem : ∀ i ∈ front, i ∈ t.indexes := fun i hi => by rw [hindexes]; exact List.mem_append_left _ hi
  have hmem' : ∀ i ∈ index :: rest, i ∈ t.indexes := fun i hi => by rw [hindexes]; exact List.mem_append_right _ hi
  have hlists : (t.updateRecord record newRecord rid).2 = t ↔
      (t.insertEntries record.data rid
        (front.map (fun i => t.addEntry newRecord.data rid (t.dropEntry record.data rid i)) ++
          (index :: rest).map (t.dropEntry record.data rid))).2 = front ++ index :: rest := by
    rw [hresult, ← hindexes]
    exact ⟨fun heq => congrArg Table.indexes heq, fun heq => by rw [heq]⟩
  rw [hlists, Undone, hfront, hrest]
  clear hlists hresult hfront hrest h
  generalize newRecord.data = new
  constructor
  · intro heq
    by_cases hnone : ∀ i ∈ front, t.hasNull new i.fieldMetas ≠ some false
    · exact Or.inl hnone
    · -- the first index that got a new entry has kept it, so the entry was there before
      obtain ⟨g, hfind⟩ : ∃ g, front.find? (fun i => t.hasNull new i.fieldMetas == some false) = some g := by
        rw [← Option.isSome_iff_exists, List.find?_isSome]
        push Not at hnone
        obtain ⟨i, hi, hnull⟩ := hnone
        exact ⟨i, hi, by simp [hnull]⟩
      obtain ⟨hg, before, after, rfl, hbefore⟩ := List.find?_eq_some_iff_append.mp hfind
      have hbefore' : ∀ i ∈ before, t.hasNull new i.fieldMetas ≠ some false := fun i hi => by simpa using hbefore i hi
      have hg' : t.hasNull new g.fieldMetas = some false := by simpa using hg
      have hgmem : g ∈ t.indexes := hmem g (by simp)
      have hsame : t.SameEntry record.data new g := by
        have hgrows := t.insertEntries_grows record.data rid
          ((before ++ g :: after).map (fun i => t.addEntry new rid (t.dropEntry record.data rid i)) ++
            (index :: rest).map (t.dropEntry record.data rid))
        rw [heq, List.map_append, List.append_assoc, List.append_assoc, List.map_cons, List.cons_append,
          List.cons_append] at hgrows
        obtain ⟨-, htail⟩ := (List.forall₂_iff_get.mp hgrows)
        have hsub : (t.addEntry new rid (t.dropEntry record.data rid g)).entries ⊆ g.entries := by
          have hat := htail before.length (by simp) (by simp)
          simpa using hat
        have hin : (g.key new, rid) ∈ g.entries := by
          refine hsub ?_
          rw [mem_addEntry, dropEntry_fieldMetas, dropEntry_key]
          exact Or.inl ⟨hg', rfl⟩
        obtain ⟨hold, hkey⟩ := (hs.mem_slot hrecord hgmem _).mp hin
        exact ⟨hold.trans hg'.symm, fun _ => hkey.symm⟩
      rw [hs.restore_stops hk hrecord (fun i hi => hmem i (by simp [hi])) hgmem hbefore' hg' hsame, List.append_assoc,
        List.cons_append, List.append_cancel_left_eq, List.cons.injEq] at heq
      obtain ⟨hafter, hrest⟩ := List.append_inj heq.2 (by simp)
      refine Or.inr ⟨before, g, after, rfl, hbefore', hg', hsame, ?_, ?_⟩
      · intro i hi
        refine (hs.replaced_eq_iff hrecord (hmem i (by simp [hi])) new).mp ?_
        exact List.map_inj_left.mp (hafter.trans (List.map_id _).symm) i hi
      · intro i hi
        refine (hs.dropEntry_eq_iff hrecord (hmem' i hi)).mp ?_
        exact List.map_inj_left.mp (hrest.trans (List.map_id _).symm) i hi
  · rintro (hnone | ⟨before, g, after, rfl, hbefore, hg, hsame, hafter, hold⟩)
    · have hrest := hs.restore_dropped hk hrecord hmem' []
      rw [List.append_nil] at hrest
      rw [replaced_of_null hnone, hs.restore_dropped hk hrecord hmem, hrest]
      simp [insertEntries]
    · have hkept : after.map (fun i => t.addEntry new rid (t.dropEntry record.data rid i)) = after := by
        refine (List.map_congr_left fun i hi => ?_).trans (List.map_id after)
        exact (hs.replaced_eq_iff hrecord (hmem i (by simp [hi])) new).mpr (hafter i hi)
      have hrest : (index :: rest).map (t.dropEntry record.data rid) = index :: rest := by
        refine (List.map_congr_left fun i hi => ?_).trans (List.map_id (index :: rest))
        exact (hs.dropEntry_eq_iff hrecord (hmem' i hi)).mpr (hold i hi)
      rw [hs.restore_stops hk hrecord (fun i hi => hmem i (by simp [hi])) (hmem g (by simp)) hbefore hg hsame, hkept,
        hrest, List.append_assoc, List.cons_append]

end Failed

/-- A table with a unique index on the first of two integer fields and an index on the second. -/
def uniqueFirst : Table :=
  ⟨[⟨.chars, 0, 1⟩, ⟨.ints, 1, 4⟩, ⟨.ints, 5, 4⟩], 0, [⟨[⟨.ints, 1, 4⟩], true, ∅⟩, ⟨[⟨.ints, 5, 4⟩], false, ∅⟩], fun _ => none⟩

/-- The same table with its indexes in the other order. -/
def uniqueLast : Table :=
  ⟨[⟨.chars, 0, 1⟩, ⟨.ints, 1, 4⟩, ⟨.ints, 5, 4⟩], 0, [⟨[⟨.ints, 5, 4⟩], false, ∅⟩, ⟨[⟨.ints, 1, 4⟩], true, ∅⟩], fun _ => none⟩

def twoInts (a b : UInt8) : Record := ⟨0, 0, [0, a, 0, 0, 0, b, 0, 0, 0]⟩

/-- The unique index comes first and refuses the new key; nothing was put in before. -/
theorem updateRecord_refused_first :
    let t := ((uniqueFirst.insertRecord (twoInts 1 1) ⟨1, 0⟩).2.insertRecord (twoInts 2 2) ⟨1, 1⟩).2
    (t.updateRecord (twoInts 1 1) (twoInts 2 3) ⟨1, 0⟩).1 = .recordDuplicateKey ∧
      (t.updateRecord (twoInts 1 1) (twoInts 2 3) ⟨1, 0⟩).2 = t := by
  intro t
  have hrun : Relation.ReflTransGen Step uniqueFirst t :=
    (Relation.ReflTransGen.single (Step.insert (twoInts 1 1) rfl)).tail (Step.insert (twoInts 2 2) (by decide))
  have hsound : t.Sound := by
    refine sound_of_run (sound_of_empty ?_ (fun _ => rfl) ?_) hrun
    · intro index hindex f hf
      fin_cases hindex <;> fin_cases hf
      · exact ⟨1, rfl⟩
      · exact ⟨2, rfl⟩
    · intro index hindex
      fin_cases hindex <;> rfl
  have hrefused : (t.updateRecord (twoInts 1 1) (twoInts 2 3) ⟨1, 0⟩).1 = .recordDuplicateKey := by decide +kernel
  have hkeyed : t.Keyed := by
    refine keyed_of_run (fun index hindex => ?_) hrun
    fin_cases hindex <;> simp [Index.Keyed]
  have hwell : t.WellKeyed := by decide +kernel
  refine ⟨hrefused, (updateRecord_refused_iff ⟨hwell, hkeyed⟩ hsound ?_ (twoInts 2 3) hrefused).mpr (Or.inl ?_)⟩
  · decide +kernel
  · decide +kernel

/-- The unique index comes last: the other index keeps the entry of the new record beside that of the old one. -/
theorem updateRecord_refused_last :
    let t := ((uniqueLast.insertRecord (twoInts 1 1) ⟨1, 0⟩).2.insertRecord (twoInts 2 2) ⟨1, 1⟩).2
    t.Sound ∧ t.Keyed ∧ t.records ⟨1, 0⟩ = some (twoInts 1 1) ∧
      (t.updateRecord (twoInts 1 1) (twoInts 2 3) ⟨1, 0⟩).1 = .recordDuplicateKey ∧
      (t.updateRecord (twoInts 1 1) (twoInts 2 3) ⟨1, 0⟩).2 ≠ t := by
  intro t
  have hrun : Relation.ReflTransGen Step uniqueLast t :=
    (Relation.ReflTransGen.single (Step.insert (twoInts 1 1) rfl)).tail (Step.insert (twoInts 2 2) (by decide))
  refine ⟨?_, ?_, by decide +kernel, by decide +kernel, ?_⟩
  · refine sound_of_run (sound_of_empty ?_ (fun _ => rfl) ?_) hrun
    · intro index hindex f hf
      fin_cases hindex <;> fin_cases hf
      · exact ⟨2, rfl⟩
      · exact ⟨1, rfl⟩
    · intro index hindex
      fin_cases hindex <;> rfl
  · refine keyed_of_run (fun index hindex => ?_) hrun
    fin_cases hindex <;> simp [Index.Keyed]
  · intro heq
    have hindexes : (t.updateRecord (twoInts 1 1) (twoInts 2 3) ⟨1, 0⟩).2.indexes ≠ t.indexes := by decide +kernel
    exact hindexes (congrArg Table.indexes heq)

end Table

end Landbase.Storage
