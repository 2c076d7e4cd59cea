import Landbase.Index.Delete
import Landbase.Index.Insert
import Landbase.Index.Key
import Landbase.Index.Validate
import Landbase.Lib.Comparator

/-! # Runs of an index

Sequences of `insert_entry` and `delete_entry` calls on the tree of an index, with the keys that `make_key` builds. The
contents of a tree are specified by `EntrySet`: a finite set of entries that knows keys only up to the comparator. A
non-unique tree whose comparator orders the keys of the calls behaves like that set (`run_spec`).
-/

namespace Landbase.Index
open Landbase.Lib
set_option autoImplicit false

/-! ## The order behind a comparator -/

/-- A comparator that orders the keys of a run is a `KeyOrder` for them, in which only equal keys share a place. -/
theorem exists_keyOrder {K : Type} {ops : KeyOps K} {ok : K → Prop} (hc : Consistent ops.keyComparator ok) :
    ∃ (B : Type) (_ : Preorder B) (_ : BoundedOrder B) (ord : KeyOrder ops B),
      (∀ k, ord.Known k ↔ ok k) ∧ ∀ a b, ok a → ord.key a = ord.key b → a = b := by
  let _ := hc.preorder
  refine ⟨WithBot (WithTop { k // ok k }), inferInstance, inferInstance, ⟨Consistent.rank ok, Consistent.rank_lt_top,
    ?_, ?_, ?_⟩, fun _ => Consistent.bot_lt_rank_iff, fun _ _ => Consistent.rank_injective⟩
  · intro a b ha hb
    rw [Consistent.rank_lt_rank (Consistent.bot_lt_rank_iff.mp ha) (Consistent.bot_lt_rank_iff.mp hb)]
    exact Iff.rfl
  · intro a b ha hb
    rw [Consistent.bot_lt_rank_iff] at ha hb
    rw [Consistent.rank_lt_rank hb ha]
    exact (hc.flip b a hb ha).symm
  · intro a b ha hb
    rw [Consistent.bot_lt_rank_iff] at ha hb
    rw [Consistent.rank_le_rank ha hb, Consistent.rank_lt_rank hb ha, lt_iff_le_not_ge, not_and_not_right]
    refine ⟨fun hab _ => hab, fun hab => ?_⟩
    by_contra hnot
    have hlt : 0 < ops.keyComparator a b := not_le.mp hnot
    exact hnot (hab (le_of_lt ((hc.flip b a hb ha).mpr hlt)))

/-! ## Calls on an index -/

/-- `MAX_LEAF_SIZE`, the size of the attribute arrays of `IndexFileHeader`. -/
def maxLeafSize : ℕ := 20

/-- What `IndexFileHeader` says about the attributes of a key, when they fit its arrays. -/
structure KeyLayout where
  attrs : List Attr
  attrOffsets : List ℕ
  offsets_length : attrOffsets.length = attrs.length := by decide
  fits : attrs.length ≤ maxLeafSize := by decide

/-- The key operations of an index: `key_comparator_`, its `attr_comparator()` and the zeroed key of a new root. -/
def keyOps (attrs : List Attr) : KeyOps Key where
  keyComparator := Index.keyComparator attrs
  attrComparator a b := Index.attrComparator attrs a.attrs b.attrs
  zero := ⟨List.replicate (attrs.map Attr.length).sum 0, ⟨0, 0⟩⟩

/-- One call on the tree of an index. -/
inductive Call
  | insertEntry (userKey : Bytes) (rid : RID)
  | deleteEntry (userKey : Bytes) (rid : RID)
  deriving DecidableEq, Repr

/-- The record identifier of a call. -/
def Call.rid : Call → RID
  | .insertEntry _ rid => rid
  | .deleteEntry _ rid => rid

/-- The key that `make_key` builds for a call. -/
def Call.key (layout : KeyLayout) : Call → Key
  | .insertEntry userKey rid => makeKey layout.attrs layout.attrOffsets userKey rid
  | .deleteEntry userKey rid => makeKey layout.attrs layout.attrOffsets userKey rid

/-- `BplusTreeHandler::insert_entry` and `BplusTreeHandler::delete_entry`, with `make_key`. -/
def BplusTreeHandler.call (layout : KeyLayout) (h : BplusTreeHandler Key) : Call → Option (RC × BplusTreeHandler Key)
  | .insertEntry userKey rid =>
    BplusTreeHandler.insertEntry (keyOps layout.attrs) h (makeKey layout.attrs layout.attrOffsets userKey rid) rid
  | .deleteEntry userKey rid =>
    BplusTreeHandler.deleteEntry (keyOps layout.attrs) h (makeKey layout.attrs layout.attrOffsets userKey rid)

/-- A sequence of calls, with the codes they return. -/
def BplusTreeHandler.run (layout : KeyLayout) : BplusTreeHandler Key → List Call → Option (List RC × BplusTreeHandler Key)
  | h, [] => some ([], h)
  | h, c :: calls => do
    let (rc, h) ← h.call layout c
    let (rcs, h) ← run layout h calls
    return (rc :: rcs, h)

/-! ## The specification -/

/-- The contents of an index: the entries that were inserted and not deleted since. -/
abbrev EntrySet := Finset (Key × RID)

namespace EntrySet

/-- The entry with a key that the comparator does not tell from `k` is there. -/
def Present (attrs : List Attr) (s : EntrySet) (k : Key) : Prop := ∃ x ∈ s, keyComparator attrs x.1 k = 0

instance (attrs : List Attr) (s : EntrySet) (k : Key) : Decidable (Present attrs s k) :=
  inferInstanceAs (Decidable (∃ x ∈ s, keyComparator attrs x.1 k = 0))

/-- What a call does to the contents, and its return code. -/
def step (layout : KeyLayout) (s : EntrySet) (c : Call) : RC × EntrySet :=
  let k := c.key layout
  match c with
  | .insertEntry _ rid => if Present layout.attrs s k then (.recordDuplicateKey, s) else (.success, insert (k, rid) s)
  | .deleteEntry _ _ =>
    if Present layout.attrs s k then (.success, s.filter fun x => keyComparator layout.attrs x.1 k ≠ 0)
    else (.recordNotExist, s)

/-- A sequence of calls. -/
def run (layout : KeyLayout) : EntrySet → List Call → List RC × EntrySet
  | s, [] => ([], s)
  | s, c :: calls => ((step layout s c).1 :: (run layout (step layout s c).2 calls).1, (run layout (step layout s c).2 calls).2)

end EntrySet

/-! ## The tree keeps the contents -/

section Spec

variable {B : Type} [Preorder B] [BoundedOrder B] {layout : KeyLayout} {ord : KeyOrder (keyOps layout.attrs) B}
  {h : BplusTreeHandler Key} {entries : List (Key × RID)}

theorem present_iff (hr : Represents ord h entries) {k : Key} (hk : ord.Known k) :
    EntrySet.Present layout.attrs entries.toFinset k ↔ ∃ x ∈ entries, ord.Same x.1 k := by
  unfold EntrySet.Present
  refine exists_congr fun x => ?_
  rw [List.mem_toFinset]
  refine and_congr_right fun hx => ?_
  show (keyOps layout.attrs).keyComparator x.1 k = 0 ↔ _
  exact KeyOrder.zero_iff (hr.known x hx) hk

theorem Represents.not_same {K : Type} {ops : KeyOps K} {ord : KeyOrder ops B} {h : BplusTreeHandler K}
    {front back : List (K × RID)} {x : K × RID} (hr : Represents ord h (front ++ x :: back)) {k : K} (hx : ord.Same x.1 k) :
    ∀ y ∈ front ++ back, ¬ ord.Same y.1 k := by
  have hsorted := hr.sorted
  rw [List.map_append, List.map_cons, List.pairwise_append, List.pairwise_cons] at hsorted
  obtain ⟨-, ⟨hback, -⟩, hfront⟩ := hsorted
  intro y hy hsame
  cases List.mem_append.mp hy with
  | inl hy =>
    have hlt : ord.key y.1 < ord.key x.1 := hfront _ (List.mem_map_of_mem hy) _ (by simp)
    exact not_lt_of_ge (le_trans hx.1 hsame.2) hlt
  | inr hy =>
    have hlt : ord.key x.1 < ord.key y.1 := hback _ (List.mem_map_of_mem hy)
    exact not_lt_of_ge (le_trans hsame.1 hx.2) hlt

theorem call_spec (hr : Represents ord h entries) (hu : h.header.unique = false) (c : Call)
    (hc : ord.Known (c.key layout)) :
    ∃ h' entries', h.call layout c = some ((EntrySet.step layout entries.toFinset c).1, h') ∧
      Represents ord h' entries' ∧ entries'.toFinset = (EntrySet.step layout entries.toFinset c).2 ∧
      h'.header.unique = false := by
  have hpresent := present_iff hr hc
  cases c with
  | insertEntry userKey rid =>
    rcases insertEntry_nonunique hr hu hc rid with ⟨hx, hrun⟩ | ⟨h', front, back, rfl, hrun, hrebuilt⟩
    · rw [← hpresent] at hx
      refine ⟨h, entries, ?_, hr, ?_, hu⟩
      · simp only [EntrySet.step, if_pos hx]
        exact hrun
      · simp only [EntrySet.step, if_pos hx]
    · have hr' := hrebuilt.represents hr.wide hr.disposed
      have hno : ¬ EntrySet.Present layout.attrs (front ++ back).toFinset (Call.key layout (.insertEntry userKey rid)) := by
        rw [hpresent]
        rintro ⟨y, hy, hsame⟩
        exact hr'.not_same ⟨le_refl _, le_refl _⟩ y hy hsame
      refine ⟨h', _, ?_, hr', ?_, ?_⟩
      · simp only [EntrySet.step, if_neg hno]
        exact hrun
      · simp only [EntrySet.step, if_neg hno]
        ext y
        simp only [List.mem_toFinset, List.mem_append, List.mem_cons, Finset.mem_insert]
        tauto
      · obtain ⟨rootPage, hheader⟩ := hrebuilt.limits
        rw [hheader]
        exact hu
  | deleteEntry userKey rid =>
    rcases deleteEntry_spec hr hc with ⟨h', front, x, back, rfl, hx, hrun, ⟨rootPage, hheader⟩, hr'⟩ | ⟨hno, hrun⟩
    · have hyes := hpresent.mpr ⟨x, by simp, hx⟩
      refine ⟨h', front ++ back, ?_, hr', ?_, ?_⟩
      · simp only [EntrySet.step, if_pos hyes]
        exact hrun
      · have hzero : ∀ y ∈ front ++ x :: back,
            (keyComparator layout.attrs y.1 (Call.key layout (.deleteEntry userKey rid)) = 0 ↔
              ord.Same y.1 (Call.key layout (.deleteEntry userKey rid))) := by
          intro y hy
          show (keyOps layout.attrs).keyComparator y.1 _ = 0 ↔ _
          exact KeyOrder.zero_iff (hr.known y hy) hc
        have hrest := hr.not_same hx
        simp only [EntrySet.step, if_pos hyes]
        ext y
        simp only [List.mem_toFinset, Finset.mem_filter]
        refine ⟨fun hy => ?_, fun ⟨hy, hne⟩ => ?_⟩
        · have hmem : y ∈ front ++ x :: back := by
            rcases List.mem_append.mp hy with hy | hy <;> simp [hy]
          exact ⟨hmem, fun h0 => hrest y hy ((hzero y hmem).mp h0)⟩
        · cases List.mem_append.mp hy with
          | inl hy' => exact List.mem_append_left _ hy'
          | inr hy' =>
            rcases List.mem_cons.mp hy' with rfl | hy'
            · exact absurd ((hzero y hy).mpr hx) hne
            · exact List.mem_append_right _ hy'
      · rw [hheader]
        exact hu
    · have hno' : ¬ EntrySet.Present layout.attrs entries.toFinset (Call.key layout (.deleteEntry userKey rid)) := by
        rw [hpresent]
        rintro ⟨y, hy, hsame⟩
        exact hno y hy hsame
      refine ⟨h, entries, ?_, hr, ?_, hu⟩
      · simp only [EntrySet.step, if_neg hno']
        exact hrun
      · simp only [EntrySet.step, if_neg hno']

/-- A run: the tree stays well formed, returns the codes of the specification and holds its entries. -/
theorem run_spec (hr : Represents ord h entries) (hu : h.header.unique = false) (calls : List Call)
    (hcalls : ∀ c ∈ calls, ord.Known (c.key layout)) :
    ∃ h' entries', h.run layout calls = some ((EntrySet.run layout entries.toFinset calls).1, h') ∧
      Represents ord h' entries' ∧ entries'.toFinset = (EntrySet.run layout entries.toFinset calls).2 := by
  induction calls generalizing h entries with
  | nil => exact ⟨h, entries, rfl, hr, rfl⟩
  | cons c calls ih =>
    obtain ⟨h₁, entries₁, hcall, hr₁, hset₁, hu₁⟩ := call_spec hr hu c (hcalls c (by simp))
    obtain ⟨h₂, entries₂, hrun, hr₂, hset₂⟩ := ih hr₁ hu₁ fun d hd => hcalls d (by simp [hd])
    rw [hset₁] at hrun hset₂
    refine ⟨h₂, entries₂, ?_, hr₂, hset₂⟩
    simp only [BplusTreeHandler.run, EntrySet.run, hcall, hrun, Option.bind_eq_bind, Option.bind_some, Option.pure_def]

end Spec

theorem create_represents {K B : Type} [Preorder B] [BoundedOrder B] {ops : KeyOps K} (ord : KeyOrder ops B)
    (unique : Bool) {internalMaxSize leafMaxSize : ℕ} (hleaf : 4 ≤ leafMaxSize) (hinternal : 6 ≤ internalMaxSize) :
    Represents ord (BplusTreeHandler.create unique internalMaxSize leafMaxSize) [] :=
  ⟨⟨hleaf, hinternal⟩, rfl, Or.inl ⟨rfl, rfl, DiskBufferPool.create_bounded⟩⟩

theorem keyComparator_consistent {attrs : List Attr} (hattrs : ∀ a ∈ attrs, a.Exact) :
    Consistent (keyOps attrs).keyComparator fun k => k.rid.Valid :=
  Consistent.of_threeWay (keyVal attrs) fun _ _ ha hb => keyComparator_threeWay attrs hattrs ha hb

theorem attrComparator_consistent {attrs : List Attr} (hattrs : ∀ a ∈ attrs, a.Exact) (ok : Key → Prop) :
    Consistent (keyOps attrs).attrComparator ok :=
  Consistent.of_threeWay (fun k => attrVals attrs k.attrs) fun _ _ _ _ => attrComparator_threeWay attrs hattrs _ _

theorem Call.key_rid (layout : KeyLayout) (c : Call) : (c.key layout).rid = c.rid := by
  cases c <;> rfl

/-! ## Content refinement -/

/-- Any sequence of calls on a new non-unique index over integers, dates and characters: the calls return the codes of
the specification, and the leaf chain lists the entries of the specification in strictly increasing order. -/
theorem run_entrySet (layout : KeyLayout)
    (hattrs : ∀ a ∈ layout.attrs, a.type = .ints ∨ a.type = .dates ∨ a.type = .chars) (internalMaxSize leafMaxSize : ℕ)
    (hleaf : 4 ≤ leafMaxSize) (hinternal : 6 ≤ internalMaxSize) (calls : List Call)
    (hrids : ∀ c ∈ calls, c.rid.Valid) :
    ∃ h entries, (BplusTreeHandler.create false internalMaxSize leafMaxSize).run layout calls =
        some ((EntrySet.run layout ∅ calls).1, h) ∧
      h.leafChain = some entries ∧ entries.Pairwise (fun x y => keyComparator layout.attrs x.1 y.1 < 0) ∧
      entries.toFinset = (EntrySet.run layout ∅ calls).2 := by
  have hexact : ∀ a ∈ layout.attrs, a.Exact := fun a ha => by
    rcases hattrs a ha with h | h | h <;> simp [Attr.Exact, h]
  obtain ⟨B, _, _, ord, hknown, -⟩ := exists_keyOrder (keyComparator_consistent hexact)
  obtain ⟨h, entries, hrun, hr, hset⟩ := run_spec (create_represents ord false hleaf hinternal) rfl calls
    fun c hmem => (hknown _).mpr ((Call.key_rid layout c).symm ▸ hrids c hmem)
  refine ⟨h, entries, hrun, leafChain_eq hr, ?_, hset⟩
  have hsorted := List.pairwise_map.mp hr.sorted
  refine hsorted.imp_of_mem fun {x y} hx _ hlt => ?_
  show (keyOps layout.attrs).keyComparator x.1 y.1 < 0
  exact KeyOrder.neg (hr.known x hx) hlt

end Landbase.Index
