import Landbase.Index.Unique

/-! # `delete_entry` stays inside its nodes

The position of a child is looked up in its parent under the child's last key. A leaf of at least two items still has a
key after one is removed, and an internal node of at least three items still has one behind its first slot, which holds a
stale key; `floor (max_size / 2)` items are left after a split, so this asks for `leaf_max_size >= 4` and
`internal_max_size >= 6`. With smaller nodes the lookup reads outside the node or finds another child.
-/

namespace Landbase.Index
open Landbase.Lib
set_option autoImplicit false

section Runs

variable {B : Type} [Preorder B] [BoundedOrder B] {layout : KeyLayout} {ord : KeyOrder (keyOps layout.attrs) B}
  {h : BplusTreeHandler Key} {entries : List (Key × RID)}

/-- One call on a unique or non-unique tree. The tree of a unique index is in order too, whether or not its entries have
different attributes: a new entry goes between entries with other attributes. -/
theorem Represents.call (hattrs : h.header.unique = true → AttrOrder (keyOps layout.attrs) ord.Known)
    (hr : Represents ord h entries) {c : Call} (hc : ord.Known (c.key layout)) :
    ∃ rc h' entries', h.call layout c = some (rc, h') ∧ Represents ord h' entries' ∧
      h'.header.unique = h.header.unique ∧ ∀ x ∈ entries', x ∈ entries ∨ x.1 = c.key layout := by
  cases c with
  | insertEntry userKey rid =>
    -- both kinds of index either refuse the entry or put it at its place
    have hinsert : h.call layout (.insertEntry userKey rid) = some (.recordDuplicateKey, h) ∨
        ∃ h' front back, entries = front ++ back ∧ h.call layout (.insertEntry userKey rid) = some (.success, h') ∧
          Rebuilt ord h h' (front ++ (Call.key layout (.insertEntry userKey rid), rid) :: back) := by
      cases hu : h.header.unique with
      | false => exact (insertEntry_nonunique hr hu hc rid).imp_left And.right
      | true => exact insertEntry_unique_represents (hattrs hu) hr hu hc rid
    rcases hinsert with hrun | ⟨h', front, back, rfl, hrun, hrebuilt⟩
    · exact ⟨_, h, entries, hrun, hr, rfl, fun x hx => Or.inl hx⟩
    · obtain ⟨rootPage, hheader⟩ := hrebuilt.limits
      refine ⟨_, h', _, hrun, hrebuilt.represents hr.wide hr.disposed, by rw [hheader], ?_⟩
      intro x hx
      cases List.mem_append.mp hx with
      | inl hx => exact Or.inl (List.mem_append_left _ hx)
      | inr hx =>
        rcases List.mem_cons.mp hx with rfl | hx
        · exact Or.inr rfl
        · exact Or.inl (List.mem_append_right _ hx)
  | deleteEntry userKey rid =>
    rcases deleteEntry_spec hr hc with ⟨h', front, x, back, rfl, -, hrun, ⟨rootPage, hheader⟩, hr'⟩ | ⟨-, hrun⟩
    · refine ⟨_, h', front ++ back, hrun, hr', by rw [hheader], fun y hy => Or.inl ?_⟩
      cases List.mem_append.mp hy with
      | inl hy => exact List.mem_append_left _ hy
      | inr hy => exact List.mem_append_right _ (List.mem_cons_of_mem _ hy)
    · exact ⟨_, h, entries, hrun, hr, rfl, fun x hx => Or.inl hx⟩

theorem Represents.run (hattrs : h.header.unique = true → AttrOrder (keyOps layout.attrs) ord.Known)
    (hr : Represents ord h entries) {calls : List Call} (hcalls : ∀ c ∈ calls, ord.Known (c.key layout)) :
    ∃ rcs h' entries', h.run layout calls = some (rcs, h') ∧ Represents ord h' entries' ∧
      h'.header.unique = h.header.unique ∧ ∀ x ∈ entries', x ∈ entries ∨ ∃ c ∈ calls, x.1 = c.key layout := by
  induction calls generalizing h entries with
  | nil => exact ⟨[], h, entries, rfl, hr, rfl, fun x hx => Or.inl hx⟩
  | cons c calls ih =>
    obtain ⟨rc, h₁, entries₁, hcall, hr₁, hu₁, hmem₁⟩ := hr.call hattrs (hcalls c List.mem_cons_self)
    obtain ⟨rcs, h₂, entries₂, hrun, hr₂, hu₂, hmem₂⟩ :=
      ih (hu₁ ▸ hattrs) hr₁ fun d hd => hcalls d (List.mem_cons_of_mem _ hd)
    refine ⟨rc :: rcs, h₂, entries₂, ?_, hr₂, hu₂.trans hu₁, ?_⟩
    · simp only [BplusTreeHandler.run, hcall, hrun, Option.bind_eq_bind, Option.bind_some, Option.pure_def]
    · intro x hx
      rcases hmem₂ x hx with hx | ⟨d, hd, hkey⟩
      · exact (hmem₁ x hx).imp_right fun hkey => ⟨c, List.mem_cons_self, hkey⟩
      · exact Or.inr ⟨d, List.mem_cons_of_mem _ hd, hkey⟩

end Runs

/-- A tree of wide nodes whose comparators order the keys of the calls: every call of a run returns, so no `delete_entry`
among them reads outside a node or finds another page at the position it looked up. -/
theorem run_delete_safe (layout : KeyLayout) (unique : Bool) (internalMaxSize leafMaxSize : ℕ) (hleaf : 4 ≤ leafMaxSize)
    (hinternal : 6 ≤ internalMaxSize) (calls : List Call)
    (hkeys : Consistent (keyOps layout.attrs).keyComparator fun k => ∃ c ∈ calls, c.key layout = k)
    (hattrs : unique = true → Consistent (keyOps layout.attrs).attrComparator fun k => ∃ c ∈ calls, c.key layout = k) :
    ∀ before userKey rid after, calls = before ++ .deleteEntry userKey rid :: after →
      ∃ rcs h rc h', (BplusTreeHandler.create unique internalMaxSize leafMaxSize).run layout before = some (rcs, h) ∧
        h.call layout (.deleteEntry userKey rid) = some (rc, h') := by
  obtain ⟨B, _, _, ord, hknown, -⟩ := exists_keyOrder hkeys
  intro before userKey rid after heq
  have hmem : ∀ c ∈ calls, ord.Known (c.key layout) := fun c hc => (hknown _).mpr ⟨c, hc, rfl⟩
  have hbefore : ∀ c ∈ before, ord.Known (c.key layout) := fun c hc => hmem c (by simp [heq, hc])
  have hfirst : ∀ {h : BplusTreeHandler Key}, h.header.unique = unique → h.header.unique = true →
      AttrOrder (keyOps layout.attrs) ord.Known := by
    intro h hu hu'
    exact attrOrder_keyOps ((hattrs (hu ▸ hu')).mono fun k hk => (hknown k).mp hk)
  obtain ⟨rcs, h, entries, hrun, hr, hu, -⟩ :=
    (create_represents ord unique hleaf hinternal).run (hfirst rfl) hbefore
  obtain ⟨rc, h', -, hcall, -⟩ := hr.call (hfirst hu) (c := .deleteEntry userKey rid) (hmem _ (by simp [heq]))
  exact ⟨rcs, h, rc, h', hrun, hcall⟩

/-- A unique index with entries in two leaves, one of which is deleted. -/
theorem run_delete_safe_two_leaves :
    let layout : KeyLayout := { attrs := [⟨.ints, 4⟩], attrOffsets := [0] }
    let before : List Call := [.insertEntry [1, 0, 0, 0] ⟨1, 0⟩, .insertEntry [2, 0, 0, 0] ⟨1, 1⟩,
      .insertEntry [253, 255, 255, 255] ⟨1, 2⟩, .insertEntry [4, 0, 0, 0] ⟨1, 3⟩, .insertEntry [5, 0, 0, 0] ⟨1, 4⟩]
    ∃ rcs h rc h', (BplusTreeHandler.create true 6 4).run layout before = some (rcs, h) ∧
      h.call layout (.deleteEntry [253, 255, 255, 255] ⟨1, 2⟩) = some (rc, h') := by
  intro layout before
  have hexact : ∀ a ∈ layout.attrs, a.Exact := by decide
  have hvalid : ∀ c ∈ before ++ [.deleteEntry [253, 255, 255, 255] ⟨1, 2⟩], c.rid.Valid := by decide
  refine run_delete_safe layout true 6 4 (by decide) (by decide) (before ++ [.deleteEntry [253, 255, 255, 255] ⟨1, 2⟩])
    ((keyComparator_consistent hexact).mono ?_) (fun _ => attrComparator_consistent hexact _) before _ _ [] rfl
  rintro k ⟨c, hc, rfl⟩
  rw [Call.key_rid]
  exact hvalid c hc

/-- With `leaf_max_size` 2 a leaf becomes empty and its last key is read. With `internal_max_size` 5, and the keys -14 to
-1 in leaves of at most 4, an internal node on the left edge keeps one child, and the zero key of its first slot is looked
up instead of its keys, all of which are negative. -/
theorem run_delete_unsafe :
    let layout : KeyLayout := { attrs := [⟨.ints, 4⟩], attrOffsets := [0] }
    let three : List Call := [.insertEntry [1, 0, 0, 0] ⟨1, 0⟩, .insertEntry [2, 0, 0, 0] ⟨1, 1⟩,
      .insertEntry [3, 0, 0, 0] ⟨1, 2⟩]
    let negative : List Call := (List.range 14).map fun j => .insertEntry [UInt8.ofNat (242 + j), 255, 255, 255] ⟨1, j⟩
    (∃ rcs h, (BplusTreeHandler.create false 6 2).run layout three = some (rcs, h) ∧
      h.call layout (.deleteEntry [1, 0, 0, 0] ⟨1, 0⟩) = none) ∧
    ∃ rcs h, (BplusTreeHandler.create false 5 4).run layout negative = some (rcs, h) ∧
      h.call layout (.deleteEntry [242, 255, 255, 255] ⟨1, 0⟩) = none := by
  intro layout three negative
  have hsmall : ((BplusTreeHandler.create false 6 2).run layout three).any
      (fun r => (r.2.call layout (.deleteEntry [1, 0, 0, 0] ⟨1, 0⟩)).isNone) = true := by decide +kernel
  have hodd : ((BplusTreeHandler.create false 5 4).run layout negative).any
      (fun r => (r.2.call layout (.deleteEntry [242, 255, 255, 255] ⟨1, 0⟩)).isNone) = true := by decide +kernel
  obtain ⟨r, hrun, hr⟩ := (Option.any_eq_true _ _).mp hsmall
  obtain ⟨r', hrun', hr'⟩ := (Option.any_eq_true _ _).mp hodd
  exact ⟨⟨r.1, r.2, hrun, Option.isNone_iff_eq_none.mp hr⟩, r'.1, r'.2, hrun', Option.isNone_iff_eq_none.mp hr'⟩

end Landbase.Index
