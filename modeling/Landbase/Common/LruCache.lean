import Mathlib.Data.List.Nodup

/-! # The least-recently-used cache

`common::LruCache` keeps its nodes in a doubly linked list and finds them through a hash set of their keys. Here the
list from `lru_front_` to `lru_tail_` is all there is; that the set holds one node for each key is the field `nodup`.
-/

namespace Landbase
set_option autoImplicit false

variable {κ ν : Type} [DecidableEq κ]

/-- `class LruCache`, most recently used node first. -/
structure LruCache (κ ν : Type) where
  nodes : List (κ × ν)
  nodup : (nodes.map Prod.fst).Nodup

namespace LruCache

/-- An empty cache. -/
def empty : LruCache κ ν := ⟨[], List.nodup_nil⟩

instance : Membership (κ × ν) (LruCache κ ν) := ⟨fun cache node => node ∈ cache.nodes⟩

/-- The node of a key, with the list as it was. -/
def find (cache : LruCache κ ν) (key : κ) : Option ν := (cache.nodes.find? (·.1 = key)).map Prod.snd

/-- `LruCache::remove`. -/
def remove (cache : LruCache κ ν) (key : κ) : LruCache κ ν :=
  ⟨cache.nodes.filter (·.1 ≠ key), cache.nodup.sublist (List.filter_sublist.map Prod.fst)⟩

theorem notMem_keys_remove (cache : LruCache κ ν) (key : κ) : key ∉ (cache.remove key).nodes.map Prod.fst := by
  intro hmem
  obtain ⟨node, hnode, hkey⟩ := List.mem_map.mp hmem
  simpa [hkey] using (List.mem_filter.mp hnode).2

/-- `LruCache::put`: the node of the key moves to the front with the new value, or is a new one there. -/
def put (cache : LruCache κ ν) (key : κ) (value : ν) : LruCache κ ν :=
  ⟨(key, value) :: (cache.remove key).nodes,
    List.nodup_cons.mpr ⟨cache.notMem_keys_remove key, (cache.remove key).nodup⟩⟩

/-- `LruCache::get`: the value of the key, whose node `lru_touch` moves to the front. -/
def get (cache : LruCache κ ν) (key : κ) : Option ν × LruCache κ ν :=
  match cache.find key with
  | some value => (some value, cache.put key value)
  | none => (none, cache)

/-! ## Members -/

variable {cache : LruCache κ ν} {key : κ} {value : ν} {node : κ × ν}

omit [DecidableEq κ] in
theorem eq_of_mem {value' : ν} (h : (key, value) ∈ cache) (h' : (key, value') ∈ cache) : value = value' := by
  have heq := List.inj_on_of_nodup_map cache.nodup h h' rfl
  exact (Prod.mk.inj heq).2

theorem find_eq_some_iff : cache.find key = some value ↔ (key, value) ∈ cache := by
  constructor
  · intro h
    obtain ⟨node, hnode, hvalue⟩ := Option.map_eq_some_iff.mp h
    have hkey : node.1 = key := by simpa using List.find?_some hnode
    have hmem : node ∈ cache.nodes := List.mem_of_find?_eq_some hnode
    rw [← hkey, ← hvalue]
    exact hmem
  · intro h
    have hsome : (cache.nodes.find? (·.1 = key)).isSome := by
      rw [List.find?_isSome]
      exact ⟨(key, value), h, by simp⟩
    obtain ⟨found, hfound⟩ := Option.isSome_iff_exists.mp hsome
    have hkey : found.1 = key := by simpa using List.find?_some hfound
    have hmem : (key, found.2) ∈ cache := by
      rw [← hkey]
      exact List.mem_of_find?_eq_some hfound
    rw [find, hfound, Option.map_some, eq_of_mem h hmem]

theorem find_eq_none_iff : cache.find key = none ↔ ∀ value, (key, value) ∉ cache := by
  rw [Option.eq_none_iff_forall_ne_some]
  exact forall_congr' fun value => not_congr find_eq_some_iff

@[simp] theorem mem_remove : node ∈ cache.remove key ↔ node ∈ cache ∧ node.1 ≠ key := by
  show node ∈ cache.nodes.filter _ ↔ _
  rw [List.mem_filter, decide_eq_true_eq]
  rfl

@[simp] theorem mem_put : node ∈ cache.put key value ↔ node = (key, value) ∨ node ∈ cache ∧ node.1 ≠ key := by
  show node ∈ (key, value) :: _ ↔ _
  rw [List.mem_cons]
  exact or_congr_right mem_remove

theorem mem_put_of_mem (h : (key, value) ∈ cache) : node ∈ cache.put key value ↔ node ∈ cache := by
  rw [mem_put]
  constructor
  · rintro (rfl | ⟨hmem, -⟩)
    · exact h
    · exact hmem
  · intro hmem
    by_cases hkey : node.1 = key
    · left
      exact Prod.ext hkey (eq_of_mem (show (key, node.2) ∈ cache from hkey ▸ hmem) h)
    · exact Or.inr ⟨hmem, hkey⟩

omit [DecidableEq κ] in
theorem mem_empty : node ∉ (empty : LruCache κ ν) := List.not_mem_nil

/-! ## The list of the nodes -/

theorem put_nodes (cache : LruCache κ ν) (key : κ) (value : ν) :
    (cache.put key value).nodes = (key, value) :: (cache.remove key).nodes := rfl

theorem remove_nodes_of_notMem (h : key ∉ cache.nodes.map Prod.fst) : (cache.remove key).nodes = cache.nodes := by
  refine List.filter_eq_self.mpr fun node hnode => decide_eq_true fun hkey => h ?_
  exact List.mem_map.mpr ⟨node, hnode, hkey⟩

theorem remove_nodes_of_split {xs ys : List (κ × ν)} (h : cache.nodes = xs ++ (key, value) :: ys) :
    (cache.remove key).nodes = xs ++ ys := by
  have hkeys := cache.nodup
  rw [h, List.map_append, List.map_cons] at hkeys
  have hnot := (List.nodup_cons.mp (List.perm_middle.nodup_iff.mp hkeys)).1
  rw [← List.map_append] at hnot
  show cache.nodes.filter _ = _
  rw [h, List.filter_append, List.filter_cons_of_neg (by simp), ← List.filter_append]
  exact List.filter_eq_self.mpr fun node hnode => decide_eq_true fun hkey => hnot (List.mem_map.mpr ⟨node, hnode, hkey⟩)

theorem get_of_notMem (h : key ∉ cache.nodes.map Prod.fst) : cache.get key = (none, cache) := by
  have hfind : cache.find key = none :=
    find_eq_none_iff.mpr fun value hmem => h (List.mem_map.mpr ⟨(key, value), hmem, rfl⟩)
  rw [get, hfind]

theorem get_of_mem (h : (key, value) ∈ cache) : cache.get key = (some value, cache.put key value) := by
  rw [get, find_eq_some_iff.mpr h]

theorem get_fst (cache : LruCache κ ν) (key : κ) : (cache.get key).1 = cache.find key := by
  rw [get]
  cases cache.find key <;> rfl

theorem find_remove (cache : LruCache κ ν) (key key' : κ) :
    (cache.remove key).find key' = if key = key' then none else cache.find key' := by
  refine Option.ext fun value => ?_
  rw [find_eq_some_iff, mem_remove]
  split
  case isTrue heq => exact iff_of_false (fun h => h.2 heq.symm) (Option.some_ne_none value).symm
  case isFalse hne => exact (and_iff_left fun heq => hne heq.symm).trans find_eq_some_iff.symm

theorem find_put (cache : LruCache κ ν) (key key' : κ) (value : ν) :
    (cache.put key value).find key' = if key = key' then some value else cache.find key' := by
  refine Option.ext fun value' => ?_
  rw [find_eq_some_iff, mem_put]
  split
  case isTrue heq =>
    subst heq
    constructor
    · intro h
      cases h with
      | inl hnew => rw [(Prod.mk.inj hnew).2]
      | inr hold => exact absurd rfl hold.2
    · intro h
      exact Or.inl (congrArg _ (Option.some.inj h).symm)
  case isFalse hne =>
    rw [find_eq_some_iff]
    constructor
    · intro h
      exact (h.resolve_left fun hnew => hne (Prod.mk.inj hnew).1.symm).1
    · intro h
      exact Or.inr ⟨h, fun heq => hne heq.symm⟩

end LruCache

end Landbase
