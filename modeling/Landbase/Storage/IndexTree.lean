import Landbase.Index.Unique
import Landbase.Storage.Table

/-! # The tree behind an index

`Index` is the set of the entries of an index, and the code keeps them in a B+ tree. `Stores` says that the tree holds the
entries of the set. When the fields of the index are `WellKeyed`, the calls on the two return the same and keep this; of an
insertion into a unique index that is so when no separator of the tree hides an entry with the same key from it
(`Undivided`).
-/

namespace Landbase.Storage
open Landbase.Index Landbase.Lib
set_option autoImplicit false

namespace Index

/-- What the file header of the index says about its keys. -/
def layout (index : Index) (hw : WellKeyed index.attrs) : KeyLayout where
  attrs := index.attrs
  attrOffsets := index.fieldMetas.map FieldMeta.offset
  offsets_length := by rw [attrs, List.length_map, List.length_map]
  fits := hw.fits

/-- The key of the tree for a record. -/
def treeKey (index : Index) (data : Bytes) (rid : RID) : Key :=
  makeKey index.attrs (index.fieldMetas.map FieldMeta.offset) data rid

/-- What the index sees of an entry of the tree. -/
def entryOf (index : Index) (x : Key × RID) : IndexKey × RID := (attrVals index.attrs x.1.attrs, x.2)

/-- The tree has these entries, each under its own identifier, and they are those of the index. -/
structure Holds {B : Type} [Preorder B] [BoundedOrder B] (index : Index) (ord : KeyOrder (keyOps index.attrs) B)
    (tree : BplusTreeHandler Key) (entries : List (Key × RID)) : Prop where
  represents : Represents ord tree entries
  unique : tree.header.unique = index.unique
  rids : ∀ x ∈ entries, x.1.rid = x.2
  distinct : index.unique = true → Distinct (keyOps index.attrs) entries
  entries : (entries.map index.entryOf).toFinset = index.entries

/-- The tree stores the entries of the index. -/
def Stores (index : Index) (tree : BplusTreeHandler Key) : Prop :=
  ∃ (B : Type) (_ : Preorder B) (_ : BoundedOrder B) (ord : KeyOrder (keyOps index.attrs) B),
    (∀ k, ord.Known k ↔ k.rid.Valid) ∧ ∃ entries, index.Holds ord tree entries

/-- The tree of a new index. -/
def newTree (index : Index) : BplusTreeHandler Key :=
  BplusTreeHandler.create index.unique (calcInternalPageCapacity (attrLength index.attrs))
    (calcLeafPageCapacity (attrLength index.attrs))

theorem newTree_stores {index : Index} (hw : WellKeyed index.attrs) (hempty : index.entries = ∅) :
    index.Stores index.newTree := by
  obtain ⟨B, _, _, ord, hknown, -⟩ := exists_keyOrder (keyComparator_consistent hw.exact)
  refine ⟨B, _, _, ord, hknown, [], ?_, rfl, fun x hx => absurd hx List.not_mem_nil, fun _ => List.Pairwise.nil, hempty.symm⟩
  exact create_represents ord index.unique hw.leaf hw.internal

section Calls

variable {B : Type} [Preorder B] [BoundedOrder B] {index : Index} {ord : KeyOrder (keyOps index.attrs) B}
  {tree : BplusTreeHandler Key} {entries : List (Key × RID)} {data : Bytes} {rid : RID}

theorem same_iff (hw : WellKeyed index.attrs) (hknown : ∀ k, ord.Known k ↔ k.rid.Valid) {a b : Key} (ha : a.rid.Valid) (hb : b.rid.Valid) :
    ord.Same a b ↔ attrVals index.attrs a.attrs = attrVals index.attrs b.attrs ∧ a.rid = b.rid := by
  have hzero : keyComparator index.attrs a b = 0 ↔ ord.Same a b := KeyOrder.zero_iff ((hknown a).mpr ha) ((hknown b).mpr hb)
  rw [← hzero, (keyComparator_threeWay index.attrs hw.exact ha hb).zero_iff]
  obtain ⟨bytes, page, slot⟩ := a
  obtain ⟨bytes', page', slot'⟩ := b
  simp [keyVal]

namespace Holds

/-- The entry is in the index when the tree has its key. -/
theorem mem_entries_iff (h : index.Holds ord tree entries) (hw : WellKeyed index.attrs)
    (hknown : ∀ k, ord.Known k ↔ k.rid.Valid) (hrid : rid.Valid) (data : Bytes) :
    (index.key data, rid) ∈ index.entries ↔ ∃ x ∈ entries, ord.Same x.1 (index.treeKey data rid) := by
  rw [← h.entries, List.mem_toFinset, List.mem_map]
  refine exists_congr fun x => and_congr_right fun hx => ?_
  have hvalid : x.1.rid.Valid := (hknown x.1).mp (h.represents.known x hx)
  rw [same_iff hw hknown hvalid hrid, h.rids x hx]
  exact Prod.ext_iff

/-- The key is in the index when the tree has an entry with the same attributes. -/
theorem mem_keys_iff (h : index.Holds ord tree entries) (hw : WellKeyed index.attrs) (data : Bytes) (rid : RID) :
    (∃ e ∈ index.entries, e.1 = index.key data) ↔
      ∃ x ∈ entries, (keyOps index.attrs).attrComparator x.1 (index.treeKey data rid) = 0 := by
  simp only [← h.entries, List.mem_toFinset, List.mem_map, exists_exists_and_eq_and]
  refine exists_congr fun x => and_congr_right fun _ => ?_
  exact (attrComparator_threeWay index.attrs hw.exact _ _).zero_iff.symm

/-- The tree has taken an entry. -/
theorem inserted (h : index.Holds ord tree entries) {tree' : BplusTreeHandler Key} {front back : List (Key × RID)}
    (hentries : entries = front ++ back)
    (hrebuilt : Rebuilt ord tree tree' (front ++ (index.treeKey data rid, rid) :: back))
    (hdistinct : index.unique = true → Distinct (keyOps index.attrs) (front ++ (index.treeKey data rid, rid) :: back)) :
    Holds { index with entries := insert (index.key data, rid) index.entries } ord tree'
      (front ++ (index.treeKey data rid, rid) :: back) where
  represents := hrebuilt.represents h.represents.wide h.represents.disposed
  unique := by
    obtain ⟨rootPage, hheader⟩ := hrebuilt.limits
    rw [hheader]
    exact h.unique
  rids x hx := by
    rcases List.mem_append.mp hx with hx | hx
    · exact h.rids x (hentries ▸ List.mem_append_left _ hx)
    · rcases List.mem_cons.mp hx with rfl | hx
      · rfl
      · exact h.rids x (hentries ▸ List.mem_append_right _ hx)
  distinct := hdistinct
  entries := by
    show _ = insert _ index.entries
    rw [← h.entries, hentries]
    ext e
    simp only [List.map_append, List.map_cons, List.mem_toFinset, List.mem_append, List.mem_cons, Finset.mem_insert]
    exact or_left_comm

end Holds

end Calls

variable {index : Index} {tree : BplusTreeHandler Key} {data : Bytes} {rid : RID}

theorem insertEntry_stores (hw : WellKeyed index.attrs) (h : index.Stores tree) (hrid : rid.Valid)
    (hclear : index.unique = true → Undivided (keyOps index.attrs) tree (index.treeKey data rid)) :
    ∃ tree', tree.call (index.layout hw) (.insertEntry data rid) = some ((index.insertEntry data rid).1, tree') ∧
      (index.insertEntry data rid).2.Stores tree' := by
  obtain ⟨B, _, _, ord, hknown, entries, hholds⟩ := h
  have hq : ord.Known (index.treeKey data rid) := (hknown _).mpr hrid
  unfold insertEntry refuses
  by_cases hunique : index.unique = true
  · have hattrs := attrOrder_keyOps (attrComparator_consistent hw.exact ord.Known)
    have hkeys := hholds.mem_keys_iff hw data rid
    rw [if_pos hunique]
    rcases insertEntry_unique hattrs hholds.represents (hholds.unique.trans hunique) (hholds.distinct hunique) hq
        (hclear hunique) rid with ⟨hpresent, hrun⟩ | ⟨habsent, tree', front, back, hentries, hrun, hrebuilt⟩
    · rw [if_pos (decide_eq_true (hkeys.mpr hpresent))]
      exact ⟨tree, hrun, B, _, _, ord, hknown, entries, hholds⟩
    · rw [if_neg (by
        rw [decide_eq_true_eq, hkeys]
        rintro ⟨x, hx, hzero⟩
        exact habsent x hx hzero)]
      refine ⟨tree', hrun, B, _, _, ord, hknown, _, hholds.inserted hentries hrebuilt fun hu => ?_⟩
      exact Distinct.insert hattrs (hentries ▸ hholds.distinct hu) (hentries ▸ hholds.represents.known) hq (hentries ▸ habsent) rid
  · have hmem := hholds.mem_entries_iff hw hknown hrid data
    have hnot : tree.header.unique = false := hholds.unique.trans (Bool.eq_false_of_not_eq_true hunique)
    rw [if_neg hunique]
    rcases insertEntry_nonunique hholds.represents hnot hq rid with
      ⟨hpresent, hrun⟩ | ⟨tree', front, back, hentries, hrun, hrebuilt⟩
    · rw [if_pos (decide_eq_true (hmem.mpr hpresent))]
      exact ⟨tree, hrun, B, _, _, ord, hknown, entries, hholds⟩
    · have hself : ord.Same (index.treeKey data rid) (index.treeKey data rid) := ⟨le_refl _, le_refl _⟩
      have habsent := (hrebuilt.represents hholds.represents.wide hholds.represents.disposed).not_same hself
      rw [if_neg (by
        rw [decide_eq_true_eq, hmem, hentries]
        rintro ⟨x, hx, hsame⟩
        exact habsent x hx hsame)]
      exact ⟨tree', hrun, B, _, _, ord, hknown, _, hholds.inserted hentries hrebuilt fun hu => absurd hu hunique⟩

theorem deleteEntry_stores (hw : WellKeyed index.attrs) (h : index.Stores tree) (hrid : rid.Valid) :
    ∃ tree', tree.call (index.layout hw) (.deleteEntry data rid) = some ((index.deleteEntry data rid).1, tree') ∧
      (index.deleteEntry data rid).2.Stores tree' := by
  obtain ⟨B, _, _, ord, hknown, entries, hholds⟩ := h
  have hq : ord.Known (index.treeKey data rid) := (hknown _).mpr hrid
  have hmem := hholds.mem_entries_iff hw hknown hrid data
  unfold deleteEntry
  rcases deleteEntry_spec hholds.represents hq with ⟨tree', front, x, back, rfl, hx, hrun, ⟨rootPage, hheader⟩, hr'⟩ | ⟨hno, hrun⟩
  · rw [if_pos (hmem.mpr ⟨x, by simp, hx⟩)]
    have hsub : (front ++ back).Sublist (front ++ x :: back) := (List.sublist_cons_self x back).append_left front
    have hvalid : x.1.rid.Valid := (hknown x.1).mp (hholds.represents.known x (by simp))
    obtain ⟨hvals, hxrid⟩ := (same_iff hw hknown hvalid hrid).mp hx
    have hentry : index.entryOf x = (index.key data, rid) := Prod.ext hvals ((hholds.rids x (by simp)).symm.trans hxrid)
    refine ⟨tree', hrun, B, _, _, ord, hknown, front ++ back, hr', by rw [hheader]; exact hholds.unique,
      fun y hy => hholds.rids y (hsub.subset hy), fun hu => (hholds.distinct hu).sublist hsub, ?_⟩
    -- no other entry is the one that is erased
    have hother : ∀ y ∈ front ++ back, index.entryOf y ≠ (index.key data, rid) := by
      intro y hy heq
      have hyvalid : y.1.rid.Valid := (hknown y.1).mp (hholds.represents.known y (hsub.subset hy))
      refine hholds.represents.not_same hx y hy ((same_iff hw hknown hyvalid hrid).mpr ⟨congrArg Prod.fst heq, ?_⟩)
      exact (hholds.rids y (hsub.subset hy)).trans (congrArg Prod.snd heq)
    show ((front ++ back).map index.entryOf).toFinset = index.entries.erase (index.key data, rid)
    rw [← hholds.entries]
    ext e
    simp only [List.mem_toFinset, List.mem_map, Finset.mem_erase]
    constructor
    · rintro ⟨y, hy, rfl⟩
      exact ⟨hother y hy, y, hsub.subset hy, rfl⟩
    · rintro ⟨hne, y, hy, rfl⟩
      rcases List.mem_append.mp hy with hy | hy
      · exact ⟨y, List.mem_append_left _ hy, rfl⟩
      · rcases List.mem_cons.mp hy with rfl | hy
        · exact absurd hentry hne
        · exact ⟨y, List.mem_append_right _ hy, rfl⟩
  · rw [if_neg (by
      rw [hmem]
      rintro ⟨x, hx, hsame⟩
      exact hno x hx hsame)]
    exact ⟨tree, hrun, B, _, _, ord, hknown, entries, hholds⟩

end Index

end Landbase.Storage
