import Mathlib.Data.List.Basic
import Mathlib.Data.List.Nodup
import Mathlib.Data.List.Induction
import Mathlib.Logic.Function.Basic

/-! # Doubly linked lists

A heap holds nodes with a datum and two links, and a list of addresses is `Linked` when every node points to its neighbours
in both directions. Lists are edited by writing single links: a node is taken out by linking its neighbours to each other,
and put in front by linking it to the first node. A walk that follows one of the links hands out the data on its way.
-/

namespace Landbase.Lib
set_option autoImplicit false

variable {α : Type}

structure LinkedNode (α : Type) where
  data : α
  prev : Option ℕ
  next : Option ℕ

/-- The nodes by their addresses; `none` is an address where there is no node. -/
abbrev LinkedHeap (α : Type) := ℕ → Option (LinkedNode α)

namespace LinkedHeap

/-! ## Writing links -/

/-- Assigning to the `prev` link of the node at `a`. -/
def setPrev (heap : LinkedHeap α) (a : ℕ) (link : Option ℕ) : Option (LinkedHeap α) :=
  (heap a).map fun node => Function.update heap a (some { node with prev := link })

/-- Assigning to the `next` link of the node at `a`. -/
def setNext (heap : LinkedHeap α) (a : ℕ) (link : Option ℕ) : Option (LinkedHeap α) :=
  (heap a).map fun node => Function.update heap a (some { node with next := link })

/-- The same through a pointer that may be null, when nothing is written. -/
def relinkPrev (heap : LinkedHeap α) (pointer link : Option ℕ) : Option (LinkedHeap α) :=
  match pointer with
  | none => some heap
  | some a => heap.setPrev a link

def relinkNext (heap : LinkedHeap α) (pointer link : Option ℕ) : Option (LinkedHeap α) :=
  match pointer with
  | none => some heap
  | some a => heap.setNext a link

/-- Two heaps have the same nodes, with the same data, and may differ in their links. -/
def SameData (heap heap' : LinkedHeap α) : Prop :=
  ∀ a, (heap' a).map LinkedNode.data = (heap a).map LinkedNode.data

variable {heap heap' : LinkedHeap α} {a : ℕ} {node : LinkedNode α} {addrs xs ys : List ℕ} {before behind link : Option ℕ}

theorem SameData.trans {heap'' : LinkedHeap α} (h : SameData heap heap') (h' : SameData heap' heap'') :
    SameData heap heap'' := fun a => (h' a).trans (h a)

theorem SameData.eq_none_iff (h : SameData heap heap') (a : ℕ) : heap' a = none ↔ heap a = none := by
  rw [← Option.map_eq_none_iff (f := LinkedNode.data), h a, Option.map_eq_none_iff]

theorem SameData.exists_node (h : SameData heap heap') (hnode : heap a = some node) :
    ∃ node', heap' a = some node' ∧ node'.data = node.data := by
  have hdata := h a
  rw [hnode, Option.map_some, Option.map_eq_some_iff] at hdata
  exact hdata

theorem sameData_update {node' : LinkedNode α} (h : heap a = some node) (hdata : node'.data = node.data) :
    SameData heap (Function.update heap a (some node')) := by
  intro b
  by_cases hb : b = a
  · rw [hb, Function.update_self, h, Option.map_some, Option.map_some, hdata]
  · rw [Function.update_of_ne hb]

theorem setPrev_eq (h : heap a = some node) (link : Option ℕ) :
    heap.setPrev a link = some (Function.update heap a (some { node with prev := link })) := by
  rw [setPrev, h, Option.map_some]

theorem setNext_eq (h : heap a = some node) (link : Option ℕ) :
    heap.setNext a link = some (Function.update heap a (some { node with next := link })) := by
  rw [setNext, h, Option.map_some]

/-! ## Linked addresses -/

/-- The nodes at the addresses point to one another; the first one points back to `before`, the last one on to `behind`. -/
def Linked (heap : LinkedHeap α) : Option ℕ → List ℕ → Option ℕ → Prop
  | _, [], _ => True
  | before, a :: rest, behind => ∃ node, heap a = some node ∧ node.prev = before ∧ node.next = rest.head?.or behind ∧
      Linked heap (some a) rest behind

/-- The data at the addresses. -/
def contents (heap : LinkedHeap α) (addrs : List ℕ) : List α := addrs.filterMap fun a => (heap a).map LinkedNode.data

theorem Linked.congr (h : Linked heap before addrs behind) (hsame : ∀ a ∈ addrs, heap' a = heap a) :
    Linked heap' before addrs behind := by
  induction addrs generalizing before with
  | nil => trivial
  | cons a rest ih =>
    obtain ⟨node, hnode, hprev, hnext, hrest⟩ := h
    exact ⟨node, (hsame a List.mem_cons_self).trans hnode, hprev, hnext,
      ih hrest fun b hb => hsame b (List.mem_cons_of_mem a hb)⟩

theorem linked_append :
    Linked heap before (xs ++ ys) behind ↔
      Linked heap before xs (ys.head?.or behind) ∧ Linked heap (xs.getLast?.or before) ys behind := by
  induction xs generalizing before with
  | nil => exact (and_iff_right trivial).symm
  | cons a xs ih =>
    have hnext : (xs ++ ys).head?.or behind = xs.head?.or (ys.head?.or behind) := by
      rw [List.head?_append, Option.or_assoc]
    have hlast : (a :: xs).getLast?.or before = xs.getLast?.or (some a) := by
      rw [List.getLast?_cons]
      cases xs.getLast? <;> rfl
    rw [List.cons_append, hlast]
    constructor
    · rintro ⟨node, hnode, hprev, hlink, hrest⟩
      obtain ⟨hleft, hright⟩ := ih.mp hrest
      exact ⟨⟨node, hnode, hprev, hlink.trans hnext, hleft⟩, hright⟩
    · rintro ⟨⟨node, hnode, hprev, hlink, hleft⟩, hright⟩
      exact ⟨node, hnode, hprev, hlink.trans hnext.symm, ih.mpr ⟨hleft, hright⟩⟩

theorem Linked.exists_node (h : Linked heap before addrs behind) (ha : a ∈ addrs) : ∃ node, heap a = some node := by
  induction addrs generalizing before with
  | nil => exact absurd ha List.not_mem_nil
  | cons b rest ih =>
    obtain ⟨node, hnode, -, -, hrest⟩ := h
    cases List.mem_cons.mp ha with
    | inl heq => exact ⟨node, heq ▸ hnode⟩
    | inr hmem => exact ih hrest hmem

theorem SameData.contents_eq (h : SameData heap heap') (addrs : List ℕ) : heap'.contents addrs = heap.contents addrs :=
  List.filterMap_congr fun a _ => h a

theorem contents_congr (h : ∀ a ∈ addrs, heap' a = heap a) : heap'.contents addrs = heap.contents addrs :=
  List.filterMap_congr fun a ha => congrArg _ (h a ha)

theorem contents_append (heap : LinkedHeap α) (xs ys : List ℕ) :
    heap.contents (xs ++ ys) = heap.contents xs ++ heap.contents ys := List.filterMap_append

theorem contents_cons (h : heap a = some node) (rest : List ℕ) :
    heap.contents (a :: rest) = node.data :: heap.contents rest := by
  rw [contents, List.filterMap_cons, h]
  rfl

theorem Linked.length_contents (h : Linked heap before addrs behind) : (heap.contents addrs).length = addrs.length := by
  induction addrs generalizing before with
  | nil => rfl
  | cons a rest ih =>
    obtain ⟨node, hnode, -, -, hrest⟩ := h
    rw [contents_cons hnode, List.length_cons, List.length_cons, ih hrest]

/-! ## Editing a list -/

/-- The first node gets another predecessor. -/
theorem Linked.relinkPrev (h : Linked heap before addrs behind) (hnodup : addrs.Nodup) (link : Option ℕ) :
    ∃ heap', heap.relinkPrev addrs.head? link = some heap' ∧ Linked heap' link addrs behind ∧ SameData heap heap' ∧
      ∀ a, addrs.head? ≠ some a → heap' a = heap a := by
  cases addrs with
  | nil => exact ⟨heap, rfl, trivial, fun _ => rfl, fun _ _ => rfl⟩
  | cons a rest =>
    obtain ⟨node, hnode, -, hnext, hrest⟩ := h
    refine ⟨_, setPrev_eq hnode link, ?_, sameData_update hnode rfl, ?_⟩
    · refine ⟨_, Function.update_self .., rfl, hnext, hrest.congr fun b hb => ?_⟩
      exact Function.update_of_ne (fun heq : b = a => (List.nodup_cons.mp hnodup).1 (heq ▸ hb)) _ _
    · intro b hb
      exact Function.update_of_ne (fun heq => hb (congrArg some heq.symm)) _ _

/-- The last node gets another successor. -/
theorem Linked.relinkNext (h : Linked heap before addrs behind) (hnodup : addrs.Nodup) (link : Option ℕ) :
    ∃ heap', heap.relinkNext addrs.getLast? link = some heap' ∧ Linked heap' before addrs link ∧ SameData heap heap' ∧
      ∀ a, addrs.getLast? ≠ some a → heap' a = heap a := by
  cases addrs using List.reverseRecOn with
  | nil => exact ⟨heap, rfl, trivial, fun _ => rfl, fun _ _ => rfl⟩
  | append_singleton init a =>
    obtain ⟨hinit, node, hnode, hprev, -, -⟩ := linked_append.mp h
    have hlast : (init ++ [a]).getLast? = some a := List.getLast?_concat
    have hnot : a ∉ init := fun hmem => (List.nodup_append.mp hnodup).2.2 a hmem a List.mem_cons_self rfl
    rw [hlast]
    refine ⟨_, setNext_eq hnode link, ?_, sameData_update hnode rfl, ?_⟩
    · refine linked_append.mpr ⟨hinit.congr fun b hb => ?_, _, Function.update_self .., hprev, rfl, trivial⟩
      exact Function.update_of_ne (fun heq : b = a => hnot (heq ▸ hb)) _ _
    · intro b hb
      exact Function.update_of_ne (fun heq => hb (congrArg some heq.symm)) _ _

/-- A node gets another datum. -/
theorem Linked.setData (h : Linked heap before addrs behind) (hnode : heap a = some node) (data : α) :
    Linked (Function.update heap a (some { node with data := data })) before addrs behind := by
  induction addrs generalizing before with
  | nil => trivial
  | cons b rest ih =>
    obtain ⟨node', hnode', hprev, hnext, hrest⟩ := h
    by_cases hb : b = a
    · subst hb
      obtain rfl : node = node' := Option.some.inj (hnode.symm.trans hnode')
      exact ⟨_, Function.update_self .., hprev, hnext, ih hrest⟩
    · exact ⟨node', (Function.update_of_ne hb _ _).trans hnode', hprev, hnext, ih hrest⟩

/-- A node is taken out: its neighbours are linked to each other, and it keeps its own links. -/
theorem Linked.unlink (h : Linked heap none (xs ++ a :: ys) none) (hnodup : (xs ++ a :: ys).Nodup) :
    ∃ heap₁ heap₂, heap.relinkNext xs.getLast? ys.head? = some heap₁ ∧ heap₁.relinkPrev ys.head? xs.getLast? = some heap₂ ∧
      Linked heap₂ none (xs ++ ys) none ∧ heap₁ a = heap a ∧ heap₂ a = heap a ∧ SameData heap heap₂ := by
  obtain ⟨hleft, node, hnode, hprev, hnext, hright⟩ := linked_append.mp h
  obtain ⟨hxs, hays, hdisjoint⟩ := List.nodup_append.mp hnodup
  obtain ⟨hnotYs, hys⟩ := List.nodup_cons.mp hays
  have hnotXs : a ∉ xs := fun hmem => hdisjoint a hmem a List.mem_cons_self rfl
  obtain ⟨heap₁, hwrite₁, hlinked₁, hdata₁, hsame₁⟩ := hleft.relinkNext hxs ys.head?
  have hright₁ : Linked heap₁ (some a) ys none := by
    refine hright.congr fun b hb => hsame₁ b fun hlast => ?_
    exact hdisjoint b (List.mem_of_getLast? hlast) b (List.mem_cons_of_mem a hb) rfl
  obtain ⟨heap₂, hwrite₂, hlinked₂, hdata₂, hsame₂⟩ := hright₁.relinkPrev hys xs.getLast?
  have hleft₂ : Linked heap₂ none xs ys.head? := by
    refine hlinked₁.congr fun b hb => hsame₂ b fun hhead => ?_
    exact hdisjoint b hb b (List.mem_cons_of_mem a (List.mem_of_head? hhead)) rfl
  have hkept₁ : heap₁ a = heap a := hsame₁ a fun hlast => hnotXs (List.mem_of_getLast? hlast)
  have hkept₂ : heap₂ a = heap₁ a := hsame₂ a fun hhead => hnotYs (List.mem_of_head? hhead)
  refine ⟨heap₁, heap₂, hwrite₁, hwrite₂, linked_append.mpr ⟨?_, ?_⟩, hkept₁, hkept₂.trans hkept₁, hdata₁.trans hdata₂⟩
  · rw [Option.or_none]
    exact hleft₂
  · rw [Option.or_none]
    exact hlinked₂

/-- A node that is in no list is put in front of one. -/
theorem Linked.pushFront (h : Linked heap none addrs none) (hnodup : addrs.Nodup) (hnode : heap a = some node)
    (hnot : a ∉ addrs) :
    ∃ heap₁ heap₂ heap₃, heap.setPrev a none = some heap₁ ∧ heap₁.setNext a addrs.head? = some heap₂ ∧
      heap₂.relinkPrev addrs.head? (some a) = some heap₃ ∧ Linked heap₃ none (a :: addrs) none ∧ SameData heap heap₃ := by
  let heap₁ : LinkedHeap α := Function.update heap a (some { node with prev := none })
  let heap₂ : LinkedHeap α := Function.update heap₁ a (some { node with prev := none, next := addrs.head? })
  have hnode₁ : heap₁ a = some { node with prev := none } := Function.update_self ..
  have hnode₂ : heap₂ a = some { node with prev := none, next := addrs.head? } := Function.update_self ..
  have hlinked : Linked heap₂ none addrs none := by
    refine h.congr fun b hb => ?_
    have hne : b ≠ a := fun heq => hnot (heq ▸ hb)
    exact (Function.update_of_ne hne _ _).trans (Function.update_of_ne hne _ _)
  obtain ⟨heap₃, hwrite, hlinked₃, hdata, hsame⟩ := hlinked.relinkPrev hnodup (some a)
  have hkept := hsame a fun hhead => hnot (List.mem_of_head? hhead)
  refine ⟨heap₁, heap₂, heap₃, setPrev_eq hnode none, setNext_eq hnode₁ _, hwrite, ?_, ?_⟩
  · refine ⟨_, hkept.trans hnode₂, rfl, ?_, hlinked₃⟩
    rw [Option.or_none]
  · have hdata₁ : SameData heap heap₁ := sameData_update hnode rfl
    have hdata₂ : SameData heap₁ heap₂ := sameData_update hnode₁ rfl
    exact (hdata₁.trans hdata₂).trans hdata

/-! ## Walks -/

/-- Follows a link from node to node and hands the data to `go`, until there is no further node or `go` says so. `none` is
a link to an address without a node, or a walk that has not ended. -/
def walk (link : LinkedNode α → Option ℕ) (go : α → Bool) (heap : LinkedHeap α) : ℕ → Option ℕ → Option (List α)
  | 0, _ => none
  | _ + 1, none => some []
  | rounds + 1, some a =>
    match heap a with
    | none => none
    | some node => if go node.data then (walk link go heap rounds (link node)).map (node.data :: ·) else some [node.data]

/-- What is handed out of a list before the walk ends. -/
def handed (go : α → Bool) : List α → List α
  | [] => []
  | x :: xs => if go x then x :: handed go xs else [x]

theorem Linked.walk_next (h : Linked heap before addrs none) (go : α → Bool) {rounds : ℕ} (hrounds : addrs.length < rounds) :
    heap.walk LinkedNode.next go rounds addrs.head? = some (handed go (heap.contents addrs)) := by
  induction addrs generalizing before rounds with
  | nil =>
    obtain ⟨rounds, rfl⟩ : ∃ n, rounds = n + 1 := ⟨rounds - 1, by omega⟩
    rfl
  | cons a rest ih =>
    obtain ⟨rounds, rfl⟩ : ∃ n, rounds = n + 1 := ⟨rounds - 1, by omega⟩
    obtain ⟨node, hnode, -, hnext, hrest⟩ := h
    have htail := ih hrest (Nat.lt_of_succ_lt_succ hrounds)
    rw [Option.or_none] at hnext
    rw [contents_cons hnode, handed, List.head?_cons, walk, hnode]
    simp only [hnext, htail, Option.map_some]
    split
    · rfl
    · rfl

theorem Linked.walk_prev (h : Linked heap none addrs behind) (go : α → Bool) {rounds : ℕ} (hrounds : addrs.length < rounds) :
    heap.walk LinkedNode.prev go rounds addrs.getLast? = some (handed go (heap.contents addrs).reverse) := by
  induction addrs using List.reverseRecOn generalizing behind rounds with
  | nil =>
    obtain ⟨rounds, rfl⟩ : ∃ n, rounds = n + 1 := ⟨rounds - 1, by omega⟩
    rfl
  | append_singleton init a ih =>
    obtain ⟨rounds, rfl⟩ : ∃ n, rounds = n + 1 := ⟨rounds - 1, by omega⟩
    obtain ⟨hinit, node, hnode, hprev, -, -⟩ := linked_append.mp h
    rw [List.length_append, List.length_singleton] at hrounds
    have htail := ih hinit (Nat.lt_of_succ_lt_succ hrounds)
    rw [Option.or_none] at hprev
    rw [contents_append, contents_cons hnode, List.reverse_append, List.getLast?_concat, walk, hnode]
    simp only [hprev, htail, Option.map_some]
    show _ = some (handed go (node.data :: (heap.contents init).reverse))
    rw [handed]
    split
    · rfl
    · rfl

end LinkedHeap
end Landbase.Lib
