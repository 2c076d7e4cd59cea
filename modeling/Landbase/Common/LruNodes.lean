import Landbase.Common.LruCache
import Landbase.Lib.LinkedList
import Mathlib.Tactic

/-! # The nodes of the least-recently-used cache

`common::LruCache` as it is in memory: nodes that `lru_touch`, `lru_push` and `lru_remove` link by hand, the pointers
`lru_front_` and `lru_tail_`, and the hash set `searcher_` of pointers to the nodes, which are compared by their keys.
The nodes are a heap, and what the operations do to it is what the cache of `LruCache` does to its list.

`none` stands for the use of a pointer to memory that holds no node.
-/

namespace Landbase
open Lib
set_option autoImplicit false

variable {κ ν : Type} [DecidableEq κ]

/-! ## The operations -/

/-- `class LruCache`. The datum of a node is its key and its value; the order in `searcher_` does not matter. -/
structure LruNodes (κ ν : Type) where
  heap : LinkedHeap (κ × ν)
  searcher : List ℕ
  front : Option ℕ
  tail : Option ℕ

/-- `operator new`: an address that is not in use, as long as there is one. -/
structure Allocator (α : Type) where
  new : LinkedHeap α → ℕ
  fresh : ∀ heap : LinkedHeap α, (∃ a, heap a = none) → heap (new heap) = none

instance {α : Type} : Nonempty (Allocator α) := by
  classical
  refine ⟨⟨fun heap => if h : ∃ a, heap a = none then h.choose else 0, fun heap h => ?_⟩⟩
  rw [dif_pos h]
  exact h.choose_spec

namespace LruNodes

def empty : LruNodes κ ν := ⟨fun _ => none, [], none, none⟩

/-- `searcher_.find`, through the keys of the nodes. -/
def find (heap : LinkedHeap (κ × ν)) (key : κ) : List ℕ → Option (Option ℕ)
  | [] => some none
  | a :: searcher =>
    match heap a with
    | none => none
    | some node => if node.data.1 = key then some (some a) else find heap key searcher

/-- `searcher_.insert`, which does nothing when a node with the same key is there. -/
def insertNode (heap : LinkedHeap (κ × ν)) (node : ℕ) (searcher : List ℕ) : Option (List ℕ) := do
  let n ← heap node
  match ← find heap n.data.1 searcher with
  | some _ => some searcher
  | none => some (node :: searcher)

/-- `searcher_.erase`, of the node with the same key. -/
def eraseNode (heap : LinkedHeap (κ × ν)) (node : ℕ) (searcher : List ℕ) : Option (List ℕ) := do
  let n ← heap node
  match ← find heap n.data.1 searcher with
  | some a => some (searcher.erase a)
  | none => some searcher

variable (cache : LruNodes κ ν)

/-- `lru_touch`. -/
def lruTouch (node : ℕ) : Option (LruNodes κ ν) := do
  let n ← cache.heap node
  if n.prev = none then some cache
  else
    let heap ← cache.heap.relinkNext n.prev n.next
    let n ← heap node
    let tail := if n.next = none then n.prev else cache.tail
    let heap ← heap.relinkPrev n.next n.prev
    let heap ← heap.setPrev node none
    let heap ← heap.setNext node cache.front
    let heap ← heap.relinkPrev cache.front (some node)
    some { cache with heap := heap, front := some node, tail := tail }

/-- `lru_push`. -/
def lruPush (node : ℕ) : Option (LruNodes κ ν) := do
  let tail := if cache.tail = none then some node else cache.tail
  let heap ← cache.heap.setPrev node none
  let heap ← heap.setNext node cache.front
  let heap ← heap.relinkPrev cache.front (some node)
  let searcher ← insertNode heap node cache.searcher
  some ⟨heap, searcher, some node, tail⟩

/-- `lru_remove`. -/
def lruRemove (node : ℕ) : Option (LruNodes κ ν) := do
  let n ← cache.heap node
  let heap ← cache.heap.relinkNext n.prev n.next
  let n ← heap node
  let heap ← heap.relinkPrev n.next n.prev
  let n ← heap node
  let front := if cache.front = some node then n.next else cache.front
  let tail := if cache.tail = some node then n.prev else cache.tail
  let searcher ← eraseNode heap node cache.searcher
  some ⟨Function.update heap node none, searcher, front, tail⟩

/-- `get`. -/
def get (key : κ) : Option (Option ν × LruNodes κ ν) := do
  match ← find cache.heap key cache.searcher with
  | none => some (none, cache)
  | some a =>
    let cache ← cache.lruTouch a
    let n ← cache.heap a
    some (some n.data.2, cache)

/-- `put`. -/
def put (alloc : Allocator (κ × ν)) (key : κ) (value : ν) : Option (LruNodes κ ν) := do
  match ← find cache.heap key cache.searcher with
  | some a =>
    let n ← cache.heap a
    lruTouch { cache with heap := Function.update cache.heap a (some { n with data := (n.data.1, value) }) } a
  | none =>
    let a := alloc.new cache.heap
    lruPush { cache with heap := Function.update cache.heap a (some ⟨(key, value), none, none⟩) } a

/-- `remove`. -/
def remove (key : κ) : Option (LruNodes κ ν) := do
  match ← find cache.heap key cache.searcher with
  | none => some cache
  | some a => cache.lruRemove a

/-- `foreach`, with the nodes that it hands to `func`. -/
def foreach (func : κ × ν → Bool) (rounds : ℕ) : Option (List (κ × ν)) :=
  cache.heap.walk LinkedNode.next func rounds cache.front

/-- `foreach_reverse`. -/
def foreachReverse (func : κ × ν → Bool) (rounds : ℕ) : Option (List (κ × ν)) :=
  cache.heap.walk LinkedNode.prev func rounds cache.tail

/-- The key of the node at an address. -/
def keyAt (heap : LinkedHeap (κ × ν)) (a : ℕ) : Option κ := (heap a).map fun node => node.data.1

/-- The keys that the hash set holds. -/
def keys : List κ := cache.searcher.filterMap (keyAt cache.heap)

/-- `count`. -/
def count : ℕ := cache.searcher.length

/-! ## The nodes in their order -/

/-- The nodes are those at `addrs`, from the front to the tail. -/
structure Wf (cache : LruNodes κ ν) (addrs : List ℕ) : Prop where
  linked : cache.heap.Linked none addrs none
  nodup : addrs.Nodup
  front : cache.front = addrs.head?
  tail : cache.tail = addrs.getLast?
  keys : (addrs.filterMap (keyAt cache.heap)).Nodup
  searcher : cache.searcher.Perm addrs
  live : ∀ a, cache.heap a ≠ none → a ∈ addrs

variable {heap heap' : LinkedHeap (κ × ν)} {searcher addrs xs ys : List ℕ} {a : ℕ} {node : LinkedNode (κ × ν)} {key : κ}
  {value : ν}

omit [DecidableEq κ] in
theorem keyAt_eq (h : heap a = some node) : keyAt heap a = some node.data.1 := by
  rw [keyAt, h, Option.map_some]

omit [DecidableEq κ] in
theorem keyAt_congr (h : heap.SameData heap') : keyAt heap' = keyAt heap := by
  funext a
  have hdata := congrArg (Option.map Prod.fst) (h a)
  rwa [Option.map_map, Option.map_map] at hdata

omit [DecidableEq κ] in
theorem keys_contents (heap : LinkedHeap (κ × ν)) (addrs : List ℕ) :
    (heap.contents addrs).map Prod.fst = addrs.filterMap (keyAt heap) := by
  rw [LinkedHeap.contents, List.map_filterMap]
  refine List.filterMap_congr fun a _ => ?_
  rw [Option.map_map]
  rfl

theorem find_eq (hlive : ∀ a ∈ searcher, ∃ node, heap a = some node) :
    find heap key searcher = some (searcher.find? fun a => keyAt heap a = some key) := by
  induction searcher with
  | nil => rfl
  | cons a rest ih =>
    obtain ⟨node, hnode⟩ := hlive a List.mem_cons_self
    rw [find, hnode, List.find?_cons, keyAt_eq hnode]
    by_cases hkey : node.data.1 = key
    · simp [hkey]
    · have hrest := ih fun b hb => hlive b (List.mem_cons_of_mem a hb)
      simp [hkey, hrest]

omit [DecidableEq κ] in
/-- The key of a node is the key of no other one. -/
theorem keyAt_notMem (hkeys : ((xs ++ a :: ys).filterMap (keyAt heap)).Nodup) (hkey : keyAt heap a = some key) :
    key ∉ (xs ++ ys).filterMap (keyAt heap) := by
  have hperm : ((xs ++ a :: ys).filterMap (keyAt heap)).Perm (key :: (xs ++ ys).filterMap (keyAt heap)) := by
    have hmiddle : (xs ++ a :: ys).Perm (a :: (xs ++ ys)) := List.perm_middle
    have hfront := hmiddle.filterMap (keyAt heap)
    rwa [List.filterMap_cons_some hkey] at hfront
  exact (List.nodup_cons.mp (hperm.nodup_iff.mp hkeys)).1

/-- The hash set finds the node of a key. -/
theorem find_node (hlive : ∀ b ∈ searcher, ∃ node, heap b = some node) (hperm : searcher.Perm (xs ++ a :: ys))
    (hkeys : ((xs ++ a :: ys).filterMap (keyAt heap)).Nodup) (hkey : keyAt heap a = some key) :
    find heap key searcher = some (some a) := by
  rw [find_eq hlive]
  have hsome : (searcher.find? fun b => keyAt heap b = some key).isSome := by
    rw [List.find?_isSome]
    exact ⟨a, hperm.mem_iff.mpr (List.mem_append_right xs List.mem_cons_self), decide_eq_true hkey⟩
  obtain ⟨b, hb⟩ := Option.isSome_iff_exists.mp hsome
  have hkeyB : keyAt heap b = some key := by simpa using List.find?_some hb
  have hmem : b ∈ xs ++ a :: ys := hperm.mem_iff.mp (List.mem_of_find?_eq_some hb)
  by_cases heq : b = a
  · exact congrArg some (heq ▸ hb)
  · have hother : b ∈ xs ++ ys := by
      rw [List.mem_append, List.mem_cons] at hmem
      rw [List.mem_append]
      exact hmem.imp_right fun hys => hys.resolve_left heq
    exact absurd (List.mem_filterMap.mpr ⟨b, hother, hkeyB⟩) (keyAt_notMem hkeys hkey)

theorem find_none (hlive : ∀ b ∈ searcher, ∃ node, heap b = some node)
    (hkey : key ∉ searcher.filterMap (keyAt heap)) : find heap key searcher = some none := by
  rw [find_eq hlive]
  congr 1
  rw [List.find?_eq_none]
  intro b hb heq
  exact hkey (List.mem_filterMap.mpr ⟨b, hb, of_decide_eq_true heq⟩)

namespace Wf

variable {cache : LruNodes κ ν}

omit [DecidableEq κ] in
theorem empty : Wf (empty : LruNodes κ ν) [] where
  linked := trivial
  nodup := List.nodup_nil
  front := rfl
  tail := rfl
  keys := List.nodup_nil
  searcher := List.Perm.refl _
  live := fun _ h => absurd rfl h

omit [DecidableEq κ] in
theorem exists_node (h : cache.Wf addrs) (ha : a ∈ cache.searcher) : ∃ node, cache.heap a = some node :=
  h.linked.exists_node (h.searcher.mem_iff.mp ha)

/-! ## What the three edits do -/

omit [DecidableEq κ] in
theorem setValue (h : cache.Wf addrs) (hnode : cache.heap a = some node) (value : ν) :
    Wf { cache with heap := Function.update cache.heap a (some { node with data := (node.data.1, value) }) } addrs := by
  have hkeyAt : keyAt (Function.update cache.heap a (some { node with data := (node.data.1, value) })) =
      keyAt cache.heap := by
    funext b
    by_cases hb : b = a
    · rw [hb, keyAt_eq hnode, keyAt_eq (Function.update_self ..)]
    · rw [keyAt, keyAt, Function.update_of_ne hb]
  exact
    { linked := h.linked.setData hnode _
      nodup := h.nodup
      front := h.front
      tail := h.tail
      keys := by
        rw [hkeyAt]
        exact h.keys
      searcher := h.searcher
      live := by
        intro b hb
        by_cases heq : b = a
        · exact h.live b (by rw [heq, hnode]; exact Option.some_ne_none _)
        · exact h.live b fun hnone => hb ((Function.update_of_ne heq _ _).trans hnone) }

omit [DecidableEq κ] in
theorem reorder (h : cache.Wf addrs) {addrs' : List ℕ} {front tail : Option ℕ} (hperm : addrs'.Perm addrs)
    (hlinked : heap'.Linked none addrs' none) (hdata : cache.heap.SameData heap') (hfront : front = addrs'.head?)
    (htail : tail = addrs'.getLast?) : Wf ⟨heap', cache.searcher, front, tail⟩ addrs' where
  linked := hlinked
  nodup := hperm.nodup_iff.mpr h.nodup
  front := hfront
  tail := htail
  keys := by
    rw [keyAt_congr hdata]
    exact (hperm.filterMap _).nodup_iff.mpr h.keys
  searcher := h.searcher.trans hperm.symm
  live := by
    intro b hb
    exact hperm.mem_iff.mpr (h.live b fun hnone => hb ((hdata.eq_none_iff b).mpr hnone))

omit [DecidableEq κ] in
/-- `lru_touch` moves the node to the front. -/
theorem lruTouch (h : cache.Wf (xs ++ a :: ys)) :
    ∃ cache', cache.lruTouch a = some cache' ∧ cache'.Wf (a :: (xs ++ ys)) ∧ cache.heap.SameData cache'.heap := by
  obtain ⟨-, node, hnode, hprev, hnext, -⟩ := LinkedHeap.linked_append.mp h.linked
  rw [Option.or_none] at hprev hnext
  by_cases hxs : xs = []
  · subst hxs
    refine ⟨cache, ?_, h, fun _ => rfl⟩
    have hfirst : node.prev = none := hprev
    rw [LruNodes.lruTouch, hnode, Option.bind_eq_bind, Option.bind_some, if_pos hfirst]
  · obtain ⟨heap₁, heap₂, hwrite₁, hwrite₂, hlinked₂, hkept₁, hkept₂, hdata₂⟩ := h.linked.unlink h.nodup
    obtain ⟨hnodup, hnot⟩ : (xs ++ ys).Nodup ∧ a ∉ xs ++ ys := by
      have hfront := List.nodup_cons.mp (List.perm_middle.nodup_iff.mp h.nodup)
      exact ⟨hfront.2, hfront.1⟩
    obtain ⟨heap₃, heap₄, heap₅, hwrite₃, hwrite₄, hwrite₅, hlinked₅, hdata₅⟩ :=
      hlinked₂.pushFront hnodup (hkept₂.trans hnode) hnot
    have hfront : cache.front = (xs ++ ys).head? := by
      rw [h.front, List.head?_append_of_ne_nil _ hxs, List.head?_append_of_ne_nil _ hxs]
    have hbehind : node.prev ≠ none := by
      rw [hprev, ne_eq, List.getLast?_eq_none_iff]
      exact hxs
    rw [← hprev, ← hnext] at hwrite₁ hwrite₂
    rw [← hfront] at hwrite₄ hwrite₅
    refine ⟨⟨heap₅, cache.searcher, some a, if node.next = none then node.prev else cache.tail⟩, ?_, ?_, ?_⟩
    · simp only [LruNodes.lruTouch, hnode, if_neg hbehind, hwrite₁, hkept₁, hwrite₂, hwrite₃, hwrite₄, hwrite₅,
        Option.bind_eq_bind, Option.bind_some]
    · refine h.reorder List.perm_middle.symm hlinked₅ (hdata₂.trans hdata₅) rfl ?_
      rw [hnext, hprev, h.tail]
      cases ys with
      | nil => simp [List.getLast?_cons, List.getLast?_eq_getLast_of_ne_nil hxs]
      | cons b ys => simp [List.getLast?_cons, List.getLast?_append]
    · exact hdata₂.trans hdata₅

/-- `lru_push` puts a new node in front. -/
theorem lruPush (h : cache.Wf addrs) (hfree : cache.heap a = none) (hkey : key ∉ addrs.filterMap (keyAt cache.heap))
    (value : ν) :
    ∃ cache', LruNodes.lruPush { cache with heap := Function.update cache.heap a (some ⟨(key, value), none, none⟩) } a =
        some cache' ∧ cache'.Wf (a :: addrs) ∧
      cache'.heap.contents (a :: addrs) = (key, value) :: cache.heap.contents addrs := by
  let heap₀ : LinkedHeap (κ × ν) := Function.update cache.heap a (some ⟨(key, value), none, none⟩)
  have hnode₀ : heap₀ a = some ⟨(key, value), none, none⟩ := Function.update_self ..
  have hnot : a ∉ addrs := by
    intro hmem
    obtain ⟨node, hnode⟩ := h.linked.exists_node hmem
    exact absurd (hfree.symm.trans hnode) (Option.some_ne_none node).symm
  have hkept₀ : ∀ b ∈ addrs, heap₀ b = cache.heap b := fun b hb =>
    Function.update_of_ne (fun heq : b = a => hnot (heq ▸ hb)) _ _
  obtain ⟨heap₁, heap₂, heap₃, hwrite₁, hwrite₂, hwrite₃, hlinked, hdata⟩ :=
    (h.linked.congr hkept₀).pushFront h.nodup hnode₀ hnot
  rw [← h.front] at hwrite₂ hwrite₃
  obtain ⟨node, hnode, hnodeData⟩ := hdata.exists_node hnode₀
  have hkeyAt : ∀ b ∈ addrs, keyAt heap₃ b = keyAt cache.heap b := by
    intro b hb
    rw [keyAt_congr hdata, keyAt, keyAt, hkept₀ b hb]
  have hkeys : addrs.filterMap (keyAt heap₃) = addrs.filterMap (keyAt cache.heap) := List.filterMap_congr hkeyAt
  have hfind : find heap₃ node.data.1 cache.searcher = some none := by
    rw [hnodeData]
    refine find_none (fun b hb => ?_) ?_
    · exact hlinked.exists_node (List.mem_cons_of_mem a (h.searcher.mem_iff.mp hb))
    · rw [(h.searcher.filterMap _).mem_iff, hkeys]
      exact hkey
  have hinsert : insertNode heap₃ a cache.searcher = some (a :: cache.searcher) := by
    simp only [insertNode, hnode, hfind, Option.bind_eq_bind, Option.bind_some]
  refine ⟨⟨heap₃, a :: cache.searcher, some a, if cache.tail = none then some a else cache.tail⟩, ?_, ?_, ?_⟩
  · simp only [LruNodes.lruPush, hwrite₁, hwrite₂, hwrite₃, hinsert, heap₀, Option.bind_eq_bind, Option.bind_some]
  · exact
      { linked := hlinked
        nodup := List.nodup_cons.mpr ⟨hnot, h.nodup⟩
        front := rfl
        tail := by
          show (if cache.tail = none then some a else cache.tail) = _
          rw [h.tail, List.getLast?_cons]
          cases addrs.getLast? <;> rfl
        keys := by
          rw [List.filterMap_cons_some (keyAt_eq hnode), hkeys, hnodeData]
          exact List.nodup_cons.mpr ⟨hkey, h.keys⟩
        searcher := h.searcher.cons a
        live := by
          intro b hb
          by_cases heq : b = a
          · exact heq ▸ List.mem_cons_self
          · refine List.mem_cons_of_mem a (h.live b fun hnone => hb ?_)
            have hnone₀ : heap₀ b = none := (Function.update_of_ne heq _ _).trans hnone
            exact (hdata.eq_none_iff b).mpr hnone₀ }
  · rw [LinkedHeap.contents_cons hnode, hnodeData, hdata.contents_eq]
    rw [LinkedHeap.contents_congr hkept₀]

/-- `lru_remove` takes the node out. -/
theorem lruRemove (h : cache.Wf (xs ++ a :: ys)) :
    ∃ cache', cache.lruRemove a = some cache' ∧ cache'.Wf (xs ++ ys) ∧
      cache'.heap.contents (xs ++ ys) = cache.heap.contents (xs ++ ys) := by
  obtain ⟨-, node, hnode, hprev, hnext, -⟩ := LinkedHeap.linked_append.mp h.linked
  rw [Option.or_none] at hprev hnext
  obtain ⟨heap₁, heap₂, hwrite₁, hwrite₂, hlinked₂, hkept₁, hkept₂, hdata₂⟩ := h.linked.unlink h.nodup
  obtain ⟨hnodup, hnot⟩ : (xs ++ ys).Nodup ∧ a ∉ xs ++ ys := by
    have hfront := List.nodup_cons.mp (List.perm_middle.nodup_iff.mp h.nodup)
    exact ⟨hfront.2, hfront.1⟩
  have hfind : find heap₂ node.data.1 cache.searcher = some (some a) := by
    refine find_node (fun b hb => ?_) h.searcher ?_ (keyAt_eq (hkept₂.trans hnode))
    · obtain ⟨node', hnode'⟩ := h.exists_node hb
      obtain ⟨node'', hnode'', -⟩ := hdata₂.exists_node hnode'
      exact ⟨node'', hnode''⟩
    · rw [keyAt_congr hdata₂]
      exact h.keys
  have herase : eraseNode heap₂ a cache.searcher = some (cache.searcher.erase a) := by
    simp only [eraseNode, hkept₂, hnode, hfind, Option.bind_eq_bind, Option.bind_some]
  have hkept : ∀ b ∈ xs ++ ys, Function.update heap₂ a none b = heap₂ b := fun b hb =>
    Function.update_of_ne (fun heq : b = a => hnot (heq ▸ hb)) _ _
  have hcontents : LinkedHeap.contents (Function.update heap₂ a none) (xs ++ ys) = cache.heap.contents (xs ++ ys) := by
    rw [← hdata₂.contents_eq]
    exact LinkedHeap.contents_congr hkept
  rw [← hprev, ← hnext] at hwrite₁ hwrite₂
  let front := if cache.front = some a then node.next else cache.front
  let tail := if cache.tail = some a then node.prev else cache.tail
  refine ⟨⟨Function.update heap₂ a none, cache.searcher.erase a, front, tail⟩, ?_, ?_, hcontents⟩
  · simp only [LruNodes.lruRemove, hnode, hwrite₁, hkept₁, hwrite₂, hkept₂, herase, Option.bind_eq_bind,
      Option.bind_some, front, tail]
  · exact
      { linked := hlinked₂.congr hkept
        nodup := hnodup
        front := by
          show (if cache.front = some a then node.next else cache.front) = _
          rw [h.front, hnext]
          cases xs with
          | nil => simp
          | cons b xs =>
            have hne : b ≠ a := fun heq => hnot (heq ▸ List.mem_cons_self)
            simp [hne]
        tail := by
          show (if cache.tail = some a then node.prev else cache.tail) = _
          rw [h.tail, hprev]
          cases ys using List.reverseRecOn with
          | nil => simp
          | append_singleton ys b =>
            have hne : b ≠ a := fun heq => hnot (heq ▸ List.mem_append_right xs List.mem_concat_self)
            rw [← List.cons_append, ← List.append_assoc, ← List.append_assoc, List.getLast?_concat,
              List.getLast?_concat, if_neg fun heq => hne (Option.some.inj heq)]
        keys := by
          rw [← keys_contents, hcontents, keys_contents]
          have hsub : (xs ++ ys).Sublist (xs ++ a :: ys) := (List.sublist_cons_self a ys).append_left xs
          exact h.keys.sublist (hsub.filterMap _)
        searcher := by
          have hperm := h.searcher.erase a
          rwa [List.erase_append_right _ fun hmem => hnot (List.mem_append_left ys hmem), List.erase_cons_head] at hperm
        live := by
          intro b hb
          have heq : b ≠ a := fun heq => hb (heq ▸ Function.update_self ..)
          have hmem : b ∈ xs ++ a :: ys := by
            refine h.live b fun hnone => hb ((Function.update_of_ne heq _ _).trans ?_)
            exact (hdata₂.eq_none_iff b).mpr hnone
          rw [List.mem_append, List.mem_cons] at hmem
          exact List.mem_append.mpr (hmem.imp_right fun hys => hys.resolve_left heq) }

end Wf

/-! ## The cache that the nodes stand for -/

/-- From the front to the tail are the nodes of `model`. -/
def Represents (cache : LruNodes κ ν) (model : LruCache κ ν) : Prop :=
  ∃ addrs, cache.Wf addrs ∧ cache.heap.contents addrs = model.nodes

variable {cache : LruNodes κ ν} {model : LruCache κ ν}

omit [DecidableEq κ] in
theorem represents_empty : Represents (empty : LruNodes κ ν) LruCache.empty := ⟨[], Wf.empty, rfl⟩

/-- A key that the cache does not hold is not found; of one that it holds, the node is found. -/
theorem Represents.find_cases (h : cache.Represents model) (key : κ) :
    (key ∉ model.nodes.map Prod.fst ∧ find cache.heap key cache.searcher = some none) ∨
      ∃ value xs a ys node, find cache.heap key cache.searcher = some (some a) ∧ cache.heap a = some node ∧
        node.data = (key, value) ∧ cache.Wf (xs ++ a :: ys) ∧
        model.nodes = cache.heap.contents xs ++ (key, value) :: cache.heap.contents ys := by
  obtain ⟨addrs, hwf, hcontents⟩ := h
  have hlive : ∀ b ∈ cache.searcher, ∃ node, cache.heap b = some node := fun b hb => hwf.exists_node hb
  rw [← hcontents, keys_contents]
  by_cases hkey : key ∈ addrs.filterMap (keyAt cache.heap)
  · right
    obtain ⟨a, hmem, hkeyA⟩ := List.mem_filterMap.mp hkey
    obtain ⟨xs, ys, rfl⟩ := List.append_of_mem hmem
    obtain ⟨node, hnode⟩ := hwf.linked.exists_node hmem
    have hdata : node.data = (key, node.data.2) := by
      rw [keyAt_eq hnode] at hkeyA
      exact Prod.ext (Option.some.inj hkeyA) rfl
    refine ⟨node.data.2, xs, a, ys, node, find_node hlive hwf.searcher hwf.keys hkeyA, hnode, hdata, hwf, ?_⟩
    rw [LinkedHeap.contents_append, LinkedHeap.contents_cons hnode, ← hdata]
  · left
    refine ⟨hkey, find_none hlive ?_⟩
    rwa [(hwf.searcher.filterMap _).mem_iff]

omit [DecidableEq κ] in
/-- `lru_touch` of the node of a key puts it back with its own value. -/
theorem Wf.lruTouch_represents (h : cache.Wf (xs ++ a :: ys)) (hnode : cache.heap a = some node)
    (hdata : node.data = (key, value)) :
    ∃ cache' node', cache.lruTouch a = some cache' ∧ cache'.heap a = some node' ∧ node'.data = (key, value) ∧
      cache'.Wf (a :: (xs ++ ys)) ∧
      cache'.heap.contents (a :: (xs ++ ys)) = (key, value) :: (cache.heap.contents xs ++ cache.heap.contents ys) := by
  obtain ⟨cache', htouch, hwf, hsame⟩ := h.lruTouch
  obtain ⟨node', hnode', hdata'⟩ := hsame.exists_node hnode
  refine ⟨cache', node', htouch, hnode', hdata'.trans hdata, hwf, ?_⟩
  rw [hsame.contents_eq, LinkedHeap.contents_cons hnode, LinkedHeap.contents_append, hdata]

theorem Represents.get (h : cache.Represents model) (key : κ) :
    ∃ cache', cache.get key = some ((model.get key).1, cache') ∧ cache'.Represents (model.get key).2 := by
  cases h.find_cases key with
  | inl habsent =>
    obtain ⟨hkey, hfind⟩ := habsent
    refine ⟨cache, ?_, ?_⟩
    · rw [LruNodes.get, hfind, LruCache.get_of_notMem hkey]
      rfl
    · rw [LruCache.get_of_notMem hkey]
      exact h
  | inr hfound =>
    obtain ⟨value, xs, a, ys, node, hfind, hnode, hdata, hwf, hnodes⟩ := hfound
    obtain ⟨cache', node', htouch, hnode', hdata', hwf', hcontents⟩ := hwf.lruTouch_represents hnode hdata
    have hmodel : model.get key = (some value, model.put key value) := by
      refine LruCache.get_of_mem (show _ ∈ model.nodes from ?_)
      rw [hnodes]
      exact List.mem_append_right _ List.mem_cons_self
    refine ⟨cache', ?_, ?_⟩
    · simp only [LruNodes.get, hfind, htouch, hnode', hdata', hmodel, Option.bind_eq_bind, Option.bind_some]
    · rw [hmodel]
      refine ⟨_, hwf', hcontents.trans ?_⟩
      rw [LruCache.put_nodes, LruCache.remove_nodes_of_split hnodes]

theorem Represents.put (h : cache.Represents model) (alloc : Allocator (κ × ν)) (key : κ) (value : ν) :
    ∃ cache', cache.put alloc key value = some cache' ∧ cache'.Represents (model.put key value) := by
  cases h.find_cases key with
  | inl habsent =>
    obtain ⟨hkey, hfind⟩ := habsent
    obtain ⟨addrs, hwf, hcontents⟩ := h
    have hfree : cache.heap (alloc.new cache.heap) = none := by
      obtain ⟨a, ha⟩ := Infinite.exists_notMem_finset addrs.toFinset
      refine alloc.fresh _ ⟨a, ?_⟩
      by_contra hlive
      exact ha (List.mem_toFinset.mpr (hwf.live a hlive))
    rw [← hcontents, keys_contents] at hkey
    obtain ⟨cache', hpush, hwf', hcontents'⟩ := hwf.lruPush hfree hkey value
    refine ⟨cache', ?_, _, hwf', ?_⟩
    · simp only [LruNodes.put, hfind, hpush, Option.bind_eq_bind, Option.bind_some]
    · rw [hcontents', hcontents, LruCache.put_nodes, LruCache.remove_nodes_of_notMem]
      rwa [← hcontents, keys_contents]
  | inr hfound =>
    obtain ⟨old, xs, a, ys, node, hfind, hnode, hdata, hwf, hnodes⟩ := hfound
    let heap₁ : LinkedHeap (κ × ν) := Function.update cache.heap a (some { node with data := (node.data.1, value) })
    have hdata₁ : (node.data.1, value) = (key, value) := by rw [hdata]
    have hother : ∀ zs : List ℕ, a ∉ zs → heap₁.contents zs = cache.heap.contents zs := fun zs hzs =>
      LinkedHeap.contents_congr fun b hb => Function.update_of_ne (fun heq : b = a => hzs (heq ▸ hb)) _ _
    obtain ⟨cache', -, htouch, -, -, hwf', hcontents⟩ :=
      (hwf.setValue hnode value).lruTouch_represents (Function.update_self ..) hdata₁
    have hnot : a ∉ xs ++ ys := (List.nodup_cons.mp (List.perm_middle.nodup_iff.mp hwf.nodup)).1
    rw [List.mem_append, not_or] at hnot
    refine ⟨cache', ?_, _, hwf', hcontents.trans ?_⟩
    · simp only [LruNodes.put, hfind, hnode, htouch, Option.bind_eq_bind, Option.bind_some]
    · rw [LruCache.put_nodes, LruCache.remove_nodes_of_split hnodes, ← hother xs hnot.1, ← hother ys hnot.2]

theorem Represents.remove (h : cache.Represents model) (key : κ) :
    ∃ cache', cache.remove key = some cache' ∧ cache'.Represents (model.remove key) := by
  cases h.find_cases key with
  | inl habsent =>
    obtain ⟨hkey, hfind⟩ := habsent
    obtain ⟨addrs, hwf, hcontents⟩ := h
    refine ⟨cache, ?_, addrs, hwf, hcontents.trans (LruCache.remove_nodes_of_notMem hkey).symm⟩
    simp only [LruNodes.remove, hfind, Option.bind_eq_bind, Option.bind_some]
  | inr hfound =>
    obtain ⟨value, xs, a, ys, node, hfind, hnode, hdata, hwf, hnodes⟩ := hfound
    obtain ⟨cache', hremove, hwf', hcontents⟩ := hwf.lruRemove
    refine ⟨cache', ?_, _, hwf', hcontents.trans ?_⟩
    · simp only [LruNodes.remove, hfind, hremove, Option.bind_eq_bind, Option.bind_some]
    · rw [LruCache.remove_nodes_of_split hnodes, LinkedHeap.contents_append]

end LruNodes

/-! ## What the operations were -/

/-- The calls that reach the nodes. -/
inductive LruOp (κ ν : Type) where
  | get (key : κ)
  | put (key : κ) (value : ν)
  | remove (key : κ)

namespace LruOp

/-- The value last put for the key, unless the key was removed since. The history begins with the latest call. -/
def lastPut : List (LruOp κ ν) → κ → Option ν
  | [], _ => none
  | .get _ :: earlier, key => lastPut earlier key
  | .put key' value :: earlier, key => if key' = key then some value else lastPut earlier key
  | .remove key' :: earlier, key => if key' = key then none else lastPut earlier key

/-- A call that makes the key, if the cache holds it then, the one most recently used. -/
def uses (key : κ) : LruOp κ ν → Bool
  | .get key' => key' = key
  | .put key' _ => key' = key
  | .remove _ => false

/-- The number of calls since the key was used. -/
def sinceUse (history : List (LruOp κ ν)) (key : κ) : ℕ := history.findIdx (uses key)

/-- The cache of the list, after a call. -/
def apply (model : LruCache κ ν) : LruOp κ ν → LruCache κ ν
  | .get key => (model.get key).2
  | .put key value => model.put key value
  | .remove key => model.remove key

/-- The cache holds what was last put, the most recently used first. -/
structure Recent (history : List (LruOp κ ν)) (model : LruCache κ ν) : Prop where
  held : ∀ key, model.find key = lastPut history key
  sorted : model.nodes.Pairwise fun node node' => sinceUse history node.1 < sinceUse history node'.1

variable {history : List (LruOp κ ν)} {model : LruCache κ ν} {op : LruOp κ ν}

theorem recent_nil : Recent ([] : List (LruOp κ ν)) LruCache.empty := ⟨fun _ => rfl, List.Pairwise.nil⟩

theorem sinceUse_cons (op : LruOp κ ν) (history : List (LruOp κ ν)) (key : κ) :
    sinceUse (op :: history) key = if uses key op then 0 else sinceUse history key + 1 := by
  rw [sinceUse, List.findIdx_cons]
  cases uses key op <;> rfl

/-- A call that uses none of the keys leaves their order. -/
theorem Recent.keep (h : Recent history model) {nodes : List (κ × ν)} (hsub : nodes.Sublist model.nodes)
    (hunused : ∀ node ∈ nodes, uses node.1 op = false) :
    nodes.Pairwise fun node node' => sinceUse (op :: history) node.1 < sinceUse (op :: history) node'.1 := by
  refine (h.sorted.sublist hsub).imp_of_mem fun hnode hnode' hlt => ?_
  rw [sinceUse_cons, sinceUse_cons, hunused _ hnode, hunused _ hnode']
  exact Nat.add_lt_add_right hlt 1

/-- The node of the key that a call uses goes to the front. -/
theorem Recent.front (h : Recent history model) {key : κ} {value : ν}
    (huses : ∀ key', uses key' op = decide (key = key')) :
    (model.put key value).nodes.Pairwise
      fun node node' => sinceUse (op :: history) node.1 < sinceUse (op :: history) node'.1 := by
  have hother : ∀ node ∈ (model.remove key).nodes, uses node.1 op = false := by
    intro node hnode
    rw [huses, decide_eq_false_iff_not]
    exact fun heq => (LruCache.mem_remove.mp hnode).2 heq.symm
  refine List.pairwise_cons.mpr ⟨fun node hnode => ?_, h.keep List.filter_sublist hother⟩
  rw [sinceUse_cons, sinceUse_cons, hother node hnode, huses, decide_eq_true rfl]
  exact Nat.succ_pos _

theorem Recent.apply (h : Recent history model) (op : LruOp κ ν) : Recent (op :: history) (op.apply model) := by
  cases op with
  | get key =>
    rw [LruOp.apply]
    by_cases hkey : key ∈ model.nodes.map Prod.fst
    · obtain ⟨node, hnode, rfl⟩ := List.mem_map.mp hkey
      rw [LruCache.get_of_mem (show (node.1, node.2) ∈ model from hnode)]
      refine ⟨fun key' => ?_, h.front fun _ => rfl⟩
      rw [LruCache.find_put, lastPut, ← h.held]
      split
      case isTrue heq => exact (LruCache.find_eq_some_iff.mpr (heq ▸ hnode)).symm
      case isFalse => rfl
    · rw [LruCache.get_of_notMem hkey]
      refine ⟨fun key' => h.held key', h.keep (List.Sublist.refl _) fun node hnode => ?_⟩
      exact decide_eq_false fun heq => hkey (List.mem_map.mpr ⟨node, hnode, heq.symm⟩)
  | put key value =>
    refine ⟨fun key' => ?_, h.front fun _ => rfl⟩
    rw [LruOp.apply, LruCache.find_put, lastPut, h.held]
  | remove key =>
    refine ⟨fun key' => ?_, h.keep List.filter_sublist fun _ _ => rfl⟩
    rw [LruOp.apply, LruCache.find_remove, lastPut, h.held]

end LruOp

/-! ## Runs -/

namespace LruNodes

def step (alloc : Allocator (κ × ν)) (cache : LruNodes κ ν) : LruOp κ ν → Option (LruNodes κ ν)
  | .get key => (cache.get key).map Prod.snd
  | .put key value => cache.put alloc key value
  | .remove key => cache.remove key

/-- A sequence of calls on a new cache. -/
def run (alloc : Allocator (κ × ν)) (ops : List (LruOp κ ν)) : Option (LruNodes κ ν) := ops.foldlM (step alloc) empty

theorem Represents.step {cache : LruNodes κ ν} {model : LruCache κ ν} (h : cache.Represents model)
    (alloc : Allocator (κ × ν)) (op : LruOp κ ν) :
    ∃ cache', cache.step alloc op = some cache' ∧ cache'.Represents (op.apply model) := by
  cases op with
  | get key =>
    obtain ⟨cache', hget, hcache'⟩ := h.get key
    exact ⟨cache', by rw [LruNodes.step, hget, Option.map_some], hcache'⟩
  | put key value => exact h.put alloc key value
  | remove key => exact h.remove key

/-- Every sequence of calls goes through, and the list is that of a cache with the same history. -/
theorem run_represents (alloc : Allocator (κ × ν)) (ops : List (LruOp κ ν)) :
    ∃ cache model, run alloc ops = some cache ∧ cache.Represents model ∧ LruOp.Recent ops.reverse model := by
  induction ops using List.reverseRecOn with
  | nil => exact ⟨empty, LruCache.empty, rfl, represents_empty, LruOp.recent_nil⟩
  | append_singleton ops op ih =>
    obtain ⟨cache, model, hrun, hcache, hrecent⟩ := ih
    obtain ⟨cache', hstep, hcache'⟩ := hcache.step alloc op
    refine ⟨cache', op.apply model, ?_, hcache', ?_⟩
    · have hfold : ops.foldlM (LruNodes.step alloc) empty = some cache := hrun
      rw [run, List.foldlM_append, hfold]
      rw [Option.bind_eq_bind, Option.bind_some, List.foldlM_cons, hstep]
      rfl
    · rw [List.reverse_append]
      exact hrecent.apply op

/-- After every sequence of calls `next_` leads from `lru_front_` through the keys of the hash set, each once, from the
most to the least recently used one; `prev_` leads back from `lru_tail_`; and `get` answers what was last put. -/
theorem run_lru (alloc : Allocator (κ × ν)) (ops : List (LruOp κ ν)) :
    ∃ cache visited, run alloc ops = some cache ∧
      (∀ func rounds, visited.length < rounds → cache.foreach func rounds = some (LinkedHeap.handed func visited)) ∧
      (∀ func rounds, visited.length < rounds →
        cache.foreachReverse func rounds = some (LinkedHeap.handed func visited.reverse)) ∧
      cache.keys.Perm (visited.map Prod.fst) ∧ cache.count = visited.length ∧ (visited.map Prod.fst).Nodup ∧
      (visited.Pairwise fun node node' =>
        LruOp.sinceUse ops.reverse node.1 < LruOp.sinceUse ops.reverse node'.1) ∧
      (∀ key value, (key, value) ∈ visited ↔ LruOp.lastPut ops.reverse key = some value) ∧
      ∀ key, ∃ cache', cache.get key = some (LruOp.lastPut ops.reverse key, cache') := by
  obtain ⟨cache, model, hrun, hcache, hrecent⟩ := run_represents alloc ops
  obtain ⟨addrs, hwf, hcontents⟩ := hcache
  have hlength : model.nodes.length = addrs.length := by
    rw [← hcontents]
    exact hwf.linked.length_contents
  refine ⟨cache, model.nodes, hrun, ?_, ?_, ?_, ?_, model.nodup, hrecent.sorted, ?_, ?_⟩
  · intro func rounds hrounds
    rw [foreach, hwf.front, ← hcontents]
    exact hwf.linked.walk_next func (hlength ▸ hrounds)
  · intro func rounds hrounds
    rw [foreachReverse, hwf.tail, ← hcontents]
    exact hwf.linked.walk_prev func (hlength ▸ hrounds)
  · rw [← hcontents, keys_contents]
    exact hwf.searcher.filterMap _
  · rw [count, hwf.searcher.length_eq, hlength]
  · intro key value
    rw [← hrecent.held]
    exact LruCache.find_eq_some_iff.symm
  · intro key
    obtain ⟨cache', hget, -⟩ := Represents.get ⟨addrs, hwf, hcontents⟩ key
    refine ⟨cache', hget.trans ?_⟩
    rw [LruCache.get_fst, hrecent.held]

end LruNodes
end Landbase
