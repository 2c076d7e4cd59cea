import Landbase.Index.Scanner

/-! # Range scans

A cursor is known by the entries that are still to come (`At`): the items of its leaf from its place on, and the leaves
behind it in the chain. One call of `next_entry` takes the first of them, or ends at the right key, so a scan reads a
stretch of the leaf chain. The left key is where the stretch begins; with keys in order the stretch is the range.
-/

namespace Landbase.Index
open Landbase.Lib Landbase.Common
set_option autoImplicit false

variable {K B : Type} {n : ℕ}

/-! ## The chain from a leaf on -/

/-- The leaves to the left of the node in focus. -/
def Path.leavesBefore : {n : ℕ} → Path K n → List (PageNum × List (K × RID))
  | _, .top => []
  | n, .step _ left _ _ up => up.leavesBefore ++ left.flatMap fun x => leavesOf n x.2.tree

/-- The leaves to the right of the node in focus. -/
def Path.leavesAfter : {n : ℕ} → Path K n → List (PageNum × List (K × RID))
  | _, .top => []
  | n, .step _ _ _ right up => (right.flatMap fun x => leavesOf n x.2.tree) ++ up.leavesAfter

theorem flatMap_leavesOf (items : Items K (n + 1)) :
    (items.flatMap fun x => leavesOf n x.2.tree).flatMap Prod.snd = contents (n + 1) items :=
  contents_leavesOf (⟨0, items⟩ : Tree K (n + 1))

theorem Path.contents_leavesAfter (path : Path K n) : path.leavesAfter.flatMap Prod.snd = path.after := by
  induction path with
  | top => rfl
  | step page left k right up ih => rw [leavesAfter, after, List.flatMap_append, flatMap_leavesOf, ih]

section Chain

variable [Preorder B] [BoundedOrder B] {ops : KeyOps K} {ord : KeyOrder ops B} {h : BplusTreeHandler K} {lo hi : B}

theorem Focus.leaves {path : Path K n} {t : Tree K n} (hf : Focus ord h path t lo hi) (hw : h.header.Wide) :
    ∃ (m : ℕ) (r : Tree K m), Focus ord h Path.top r ⊥ ⊤ ∧
      leavesOf m r = path.leavesBefore ++ leavesOf n t ++ path.leavesAfter := by
  induction path generalizing lo hi with
  | top =>
    obtain ⟨rfl, rfl⟩ := hf.pathOrdered
    exact ⟨_, t, hf, by simp [Path.leavesBefore, Path.leavesAfter]⟩
  | step page left k right up ih =>
    obtain ⟨lo', hi', hup⟩ := hf.up hw
    obtain ⟨m, r, hr, hleaves⟩ := ih hup
    refine ⟨m, r, hr, hleaves.trans ?_⟩
    simp only [leavesOf, Path.leavesBefore, Path.leavesAfter, List.flatMap_append, List.flatMap_cons, toVal_tree,
      List.append_assoc]

theorem Focus.leafChain {path : Path K 0} {page : PageNum} {items : List (K × RID)}
    (hf : Focus ord h path (leafTree page items) lo hi) (hw : h.header.Wide) :
    ∃ leaves, Linked h.pool ((page, items) :: leaves) none ∧ leaves.flatMap Prod.snd = path.after ∧
      (∀ leaf ∈ (page, items) :: leaves, leaf.2 ≠ []) ∧ leaves.length < h.pool.pageCount := by
  obtain ⟨m, r, hr, hleaves⟩ := hf.leaves hw
  obtain ⟨first, rest, hall, -, hlinked, hlen, hne⟩ := hr.chain hw
  rw [← hall, hleaves] at hlinked hne
  have hlength := congrArg List.length (hall.symm.trans hleaves)
  rw [List.append_assoc] at hlinked hne
  refine ⟨path.leavesAfter, (linked_append.mp hlinked).2, path.contents_leavesAfter,
    fun leaf hleaf => hne leaf (List.mem_append_right _ hleaf), ?_⟩
  simp only [leavesOf, List.length_cons, List.length_append, List.length_nil] at hlength
  omega

end Chain

/-! ## The cursor -/

namespace BplusTreeScanner

/-- The entries that are still to come, the one under the cursor first. -/
def At (h : BplusTreeHandler K) (s : BplusTreeScanner K) (entries : List (K × RID)) : Prop :=
  ∃ (page : PageNum) (items : List (K × RID)) (index : ℕ) (leaves : List (PageNum × List (K × RID))),
    s.currentFrame = some page ∧ s.iterIndex = index ∧ index < items.length ∧
      Linked h.pool ((page, items) :: leaves) none ∧ (∀ leaf ∈ leaves, leaf.2 ≠ []) ∧
      leaves.length < h.pool.pageCount ∧ entries = items.drop index ++ leaves.flatMap Prod.snd

/-- An entry lies behind the right key. -/
def past (ops : KeyOps K) (rightKey : Option K) (x : K × RID) : Bool :=
  match rightKey with
  | none => false
  | some rightKey => decide (0 < ops.keyComparator x.1 rightKey)

variable (ops : KeyOps K) {h : BplusTreeHandler K} {s : BplusTreeScanner K} {x : K × RID} {entries : List (K × RID)}

theorem At.ne_nil (hat : At h s entries) : entries ≠ [] := by
  obtain ⟨page, items, index, leaves, -, -, hlt, -, -, -, rfl⟩ := hat
  rw [List.drop_eq_getElem_cons hlt]
  exact List.cons_ne_nil _ _

theorem At.item_eq (hat : At h s (x :: entries)) : s.item h = some x := by
  obtain ⟨page, items, index, leaves, hframe, hindex, hlt, ⟨⟨parent, hget⟩, -⟩, -, -, hentries⟩ := hat
  have hhead : items[index]? = some x := by
    rw [List.drop_eq_getElem_cons hlt, List.cons_append] at hentries
    rw [List.getElem?_eq_getElem hlt, (List.cons.inj hentries).1]
  unfold item
  simp only [hframe, hget, hindex, Option.bind_eq_bind, Option.bind_some, Int.toNat_natCast, hhead]
  rw [if_neg (by omega)]

theorem At.touchEnd_eq (hat : At h s (x :: entries)) : s.touchEnd ops h = some (past ops s.rightKey x) := by
  unfold touchEnd past
  cases s.rightKey with
  | none => rfl
  | some rightKey =>
    simp only [hat.item_eq, Option.bind_eq_bind, Option.bind_some]

theorem At.nextEntry_first (hat : At h s (x :: entries)) (hfirst : s.firstEmitted = false) (fuel : ℕ) :
    s.nextEntry ops h (fuel + 1) true = some (.success, some x.2, { s with firstEmitted := true }) := by
  obtain ⟨page, -, -, -, hframe, -⟩ := id hat
  simp only [nextEntry, hframe, hfirst, hat.item_eq, if_pos, Option.bind_eq_bind, Option.bind_some]

theorem nextEntry_at (hat : At h { s with iterIndex := s.iterIndex + 1 } (x :: entries)) (hfirst : s.firstEmitted = true)
    (fuel : ℕ) : s.nextEntry ops h (fuel + 1) true =
      if past ops s.rightKey x then some (.recordEof, none, { s with iterIndex := s.iterIndex + 1 })
      else some (.success, some x.2, { s with iterIndex := s.iterIndex + 1 }) := by
  obtain ⟨currentFrame, rightKey, iterIndex, firstEmitted⟩ := s
  obtain rfl : firstEmitted = true := hfirst
  have htouch := hat.touchEnd_eq ops
  obtain ⟨page, items, index, leaves, hframe, hindex, hlt, ⟨⟨parent, hget⟩, -⟩, -⟩ := id hat
  obtain rfl : currentFrame = some page := hframe
  have hlt' : iterIndex + 1 < items.length := by
    have hplace : iterIndex + 1 = index := hindex
    omega
  rw [nextEntry]
  simp only [Bool.true_eq_false, if_false, if_true, hget, Option.bind_eq_bind, Option.bind_some, if_pos hlt', htouch,
    hat.item_eq]

/-- Then the cursor moves to the next entry, in its leaf or at the start of the next one, or the scan ends. -/
theorem At.nextEntry_next (hat : At h s (x :: entries)) (hfirst : s.firstEmitted = true) :
    ∃ s', s'.rightKey = s.rightKey ∧ s'.firstEmitted = true ∧
      match entries with
      | [] => s.nextEntry ops h (h.pool.pageCount + 1) true = some (.recordEof, none, s')
      | y :: _ =>
        if past ops s.rightKey y then s.nextEntry ops h (h.pool.pageCount + 1) true = some (.recordEof, none, s')
        else s.nextEntry ops h (h.pool.pageCount + 1) true = some (.success, some y.2, s') ∧ At h s' entries := by
  obtain ⟨page, items, index, leaves, hframe, hindex, hlt, hlinked, hne, hlen, hentries⟩ := id hat
  obtain ⟨⟨parent, hget⟩, hrest⟩ := id hlinked
  rw [List.drop_eq_getElem_cons hlt, List.cons_append] at hentries
  obtain ⟨-, hentries⟩ := List.cons.inj hentries
  by_cases hinside : index + 1 < items.length
  · -- the next entry is in the same leaf
    have hat' : At h { s with iterIndex := s.iterIndex + 1 } entries := by
      refine ⟨page, items, index + 1, leaves, hframe, ?_, hinside, hlinked, hne, hlen, hentries⟩
      show s.iterIndex + 1 = _
      omega
    cases entries with
    | nil =>
      rw [List.drop_eq_getElem_cons hinside] at hentries
      cases hentries
    | cons y entries =>
      refine ⟨{ s with iterIndex := s.iterIndex + 1 }, rfl, hfirst, ?_⟩
      simp only [nextEntry_at ops hat' hfirst]
      split
      · rfl
      · exact ⟨rfl, hat'⟩
  · rw [List.drop_eq_nil_of_le (by omega), List.nil_append] at hentries
    have hlast : ¬ s.iterIndex + 1 < items.length := by omega
    cases leaves with
    | nil =>
      obtain rfl : entries = [] := hentries
      refine ⟨{ s with iterIndex := s.iterIndex + 1 }, rfl, hfirst, ?_⟩
      simp only [nextEntry, hframe, hfirst, if_true, hget, Option.bind_eq_bind, Option.bind_some, if_neg hlast,
        headPage]
      rfl
    | cons leaf leaves =>
      -- the next entry is the first of the next leaf
      have hleaf : 0 < leaf.2.length := List.length_pos_of_ne_nil (hne leaf List.mem_cons_self)
      obtain ⟨fuel, hfuel⟩ : ∃ fuel, h.pool.pageCount = fuel + 1 := ⟨h.pool.pageCount - 1, by omega⟩
      have hstep : s.nextEntry ops h (fuel + 1 + 1) true =
          nextEntry ops h (fuel + 1) { s with currentFrame := some leaf.1, iterIndex := -1 } true := by
        rw [nextEntry]
        simp only [hframe, hfirst, if_true, hget, Option.bind_eq_bind, Option.bind_some, if_neg hlast, headPage]
        rfl
      have hat' : At h { s with currentFrame := some leaf.1, iterIndex := -1 + 1 } entries := by
        refine ⟨leaf.1, leaf.2, 0, leaves, rfl, rfl, hleaf, hrest, fun l hl => hne l (List.mem_cons_of_mem _ hl), ?_, ?_⟩
        · rw [List.length_cons] at hlen
          omega
        · rw [hentries, List.drop_zero, List.flatMap_cons]
      cases entries with
      | nil =>
        rw [List.flatMap_cons] at hentries
        exact absurd (List.append_eq_nil_iff.mp hentries.symm).1 (hne leaf List.mem_cons_self)
      | cons y entries =>
        refine ⟨{ s with currentFrame := some leaf.1, iterIndex := -1 + 1 }, rfl, hfirst, ?_⟩
        simp only [hfuel, hstep]
        rw [nextEntry_at ops (s := { s with currentFrame := some leaf.1, iterIndex := -1 }) hat' hfirst]
        split
        · rfl
        · exact ⟨rfl, hat'⟩

theorem At.collect_rest (hat : At h s (x :: entries)) (hfirst : s.firstEmitted = true) (fuel : ℕ)
    (hfuel : entries.length < fuel) :
    s.collect ops h fuel = some ((entries.takeWhile fun y => !past ops s.rightKey y).map Prod.snd) := by
  induction entries generalizing s x fuel with
  | nil =>
    obtain ⟨fuel, rfl⟩ : ∃ f, fuel = f + 1 := ⟨fuel - 1, by omega⟩
    obtain ⟨s', -, -, hnext⟩ := hat.nextEntry_next ops hfirst
    simp only [collect, hnext, Option.bind_eq_bind, Option.bind_some]
    rfl
  | cons y entries ih =>
    obtain ⟨fuel, rfl⟩ : ∃ f, fuel = f + 1 := ⟨fuel - 1, by omega⟩
    obtain ⟨s', hright, hfirst', hnext⟩ := hat.nextEntry_next ops hfirst
    simp only at hnext
    split at hnext
    · rename_i hpast
      simp only [collect, hnext, Option.bind_eq_bind, Option.bind_some, List.takeWhile_cons, hpast]
      rfl
    · rename_i hpast
      obtain ⟨hnext, hat'⟩ := hnext
      rw [List.length_cons] at hfuel
      have hrest := ih hat' hfirst' fuel (by omega)
      simp only [collect, hnext, Option.bind_eq_bind, Option.bind_some, hrest, hright, List.takeWhile_cons, hpast]
      rfl

theorem At.collect_eq (hat : At h s (x :: entries)) (hfirst : s.firstEmitted = false) (fuel : ℕ)
    (hfuel : (x :: entries).length < fuel) :
    s.collect ops h fuel = some (x.2 :: (entries.takeWhile fun y => !past ops s.rightKey y).map Prod.snd) := by
  obtain ⟨fuel, rfl⟩ : ∃ f, fuel = f + 1 := ⟨fuel - 1, by omega⟩
  have hat' : At h { s with firstEmitted := true } (x :: entries) := hat
  rw [List.length_cons] at hfuel
  have hrest := At.collect_rest ops hat' rfl fuel (by omega)
  rw [collect, hat.nextEntry_first ops hfirst]
  simp only [Option.bind_eq_bind, Option.bind_some, hrest]
  rfl

theorem collect_ended (hframe : s.currentFrame = none) (fuel : ℕ) : s.collect ops h (fuel + 1) = some [] := by
  rw [collect, nextEntry, hframe]
  rfl

/-- A scan that is about to return the first entries of a list, up to the right key. -/
def Opened (h : BplusTreeHandler K) (s : BplusTreeScanner K) (rightKey : Option K) (entries : List (K × RID)) : Prop :=
  (s.currentFrame = none ∧ (entries.takeWhile fun y => !past ops rightKey y) = []) ∨
    (s.firstEmitted = false ∧ s.rightKey = rightKey ∧ At h s entries ∧ ∀ x ∈ entries.head?, past ops rightKey x = false)

theorem Opened.collect_eq {rightKey : Option K} (hs : Opened ops h s rightKey entries) (fuel : ℕ)
    (hfuel : entries.length < fuel) :
    s.collect ops h fuel = some ((entries.takeWhile fun y => !past ops rightKey y).map Prod.snd) := by
  rcases hs with ⟨hframe, hnil⟩ | ⟨hfirst, rfl, hat, hhead⟩
  · obtain ⟨fuel, rfl⟩ : ∃ f, fuel = f + 1 := ⟨fuel - 1, by omega⟩
    rw [collect_ended ops hframe, hnil]
    rfl
  · obtain ⟨x, entries, rfl⟩ := List.exists_cons_of_ne_nil hat.ne_nil
    rw [hat.collect_eq ops hfirst fuel hfuel, List.takeWhile_cons, hhead x rfl]
    rfl

theorem atPlace_opened {page : PageNum} {index : ℕ} {rightKey : Option K}
    (hat : At h ⟨some page, rightKey, index, false⟩ entries) :
    ∃ s, atPlace ops h page index rightKey = some (.success, s) ∧ Opened ops h s rightKey entries := by
  obtain ⟨x, entries, rfl⟩ := List.exists_cons_of_ne_nil hat.ne_nil
  have htouch := hat.touchEnd_eq ops
  by_cases hpast : past ops rightKey x = true
  · refine ⟨⟨none, rightKey, index, false⟩, ?_, Or.inl ⟨rfl, ?_⟩⟩
    · simp only [atPlace, htouch, hpast, Option.bind_eq_bind, Option.bind_some, if_true]
    · rw [List.takeWhile_cons, hpast]
      rfl
  · rw [Bool.not_eq_true] at hpast
    refine ⟨⟨some page, rightKey, index, false⟩, ?_, Or.inr ⟨rfl, rfl, hat, ?_⟩⟩
    · simp only [atPlace, htouch, hpast, Option.bind_eq_bind, Option.bind_some, Bool.false_eq_true, if_false]
    · intro y hy
      rw [← Option.some.inj hy]
      exact hpast

end BplusTreeScanner

/-! ## Opening a scan -/

namespace BplusTreeScanner

theorem dropWhile_split {α : Type} {p : α → Bool} {front back : List α} (hfront : ∀ x ∈ front, p x = true)
    (hback : ∀ x ∈ back, p x = false) : (front ++ back).dropWhile p = back := by
  rw [List.dropWhile_append_of_pos hfront]
  cases back with
  | nil => rfl
  | cons x back => rw [List.dropWhile_cons, hback x List.mem_cons_self, if_neg Bool.false_ne_true]

/-- An entry lies before the left key. -/
def before (ops : KeyOps K) (leftKey : Option K) (x : K × RID) : Bool :=
  match leftKey with
  | none => false
  | some leftKey => decide (ops.keyComparator x.1 leftKey < 0)

section Open

variable [Preorder B] [BoundedOrder B] {ops : KeyOps K} {ord : KeyOrder ops B} {h : BplusTreeHandler K}
  {entries : List (K × RID)}

theorem leftMost_at {t : Tree K n} (hf : Focus ord h Path.top t ⊥ ⊤) (hw : h.header.Wide) (rightKey : Option K) :
    ∃ page, h.leftMostPage t.page = some page ∧ At h ⟨some page, rightKey, (0 : ℕ), false⟩ (contents n t.items) := by
  obtain ⟨leaf, leaves, hleaves, hfirst, hlinked, hlen, hne⟩ := hf.chain hw
  refine ⟨leaf.1, ?_, leaf.1, leaf.2, 0, leaves, rfl, rfl, ?_, hlinked, ?_, hlen, ?_⟩
  · rw [hfirst]
    exact leftMost_eq hw hf h.pool.pageCount (hf.height_lt hw)
  · exact List.length_pos_of_ne_nil (hne leaf List.mem_cons_self)
  · exact fun l hl => hne l (List.mem_cons_of_mem _ hl)
  · rw [← contents_leavesOf, hleaves, List.flatMap_cons, List.drop_zero]

theorem findLeaf_cut {t : Tree K n} (hf : Focus ord h Path.top t ⊥ ⊤) (hw : h.header.Wide) {q : K} (hq : ord.Known q) :
    ∃ (page : PageNum) (node : LeafIndexNode K) (pre post : List (K × RID))
      (leaves : List (PageNum × List (K × RID))),
      h.findLeaf ops t.page q = some page ∧ h.pool.getLeaf page = some node ∧
      (node.lookup ops.keyComparator q).1 = pre.length ∧ node.items = pre ++ post ∧
      Linked h.pool ((page, node.items) :: leaves) none ∧ (∀ leaf ∈ leaves, leaf.2 ≠ []) ∧
      leaves.length < h.pool.pageCount ∧
      (contents n t.items).dropWhile (before ops (some q)) = post ++ leaves.flatMap Prod.snd := by
  obtain ⟨path, page, items, lo, hi, hleaf, hlo, hhi, hentries, hfind⟩ := findLeaf_spec hw hf hq
  obtain ⟨leaves, hlinked, hafter, hne, hlen⟩ := hleaf.leafChain hw
  obtain ⟨hbefore, hbehind⟩ := hleaf.pathOrdered.outside
  have hknown : ∀ x ∈ path.before ++ items ++ path.after, ord.Known x.1 := by
    intro x hx
    rw [hentries] at hx
    exact (hf.ordered.sorted.2 x hx).2.1
  have hget := hleaf.getLeaf
  -- whether the key is in the leaf or not, the lookup stops at the first item that is not below it
  obtain ⟨pre, post, hitems, hpre, hpost, hlookup⟩ : ∃ pre post, items = pre ++ post ∧
      (∀ x ∈ pre, ord.key x.1 < ord.key q) ∧ (∀ x ∈ post, ¬ ord.key x.1 < ord.key q) ∧
      (LeafIndexNode.lookup ops.keyComparator ⟨path.parent, path.next, items⟩ q).1 = pre.length := by
    have hitemKnown : ∀ x ∈ items, ord.Known x.1 := fun x hx => hknown x (by simp [hx])
    rcases leaf_split ord hleaf.ordered hq with ⟨pre, post, hitems, hpre, hpost⟩ |
      ⟨pre, x, post, hitems, hsame, hpre, hpost⟩
    · have hitems' : items = pre ++ post := hitems
      refine ⟨pre, post, hitems', hpre, fun x hx => not_lt_of_gt (hpost x hx), ?_⟩
      rw [leaf_lookup_absent ord hitems' hq (fun x hx => hitemKnown x (by rw [hitems']; simp [hx])) hpre hpost]
    · have hitems' : items = pre ++ x :: post := hitems
      refine ⟨pre, x :: post, hitems', hpre, ?_, ?_⟩
      · intro y hy
        rcases List.mem_cons.mp hy with rfl | hy
        · exact not_lt_of_ge hsame.2
        · exact not_lt_of_gt (hpost y hy)
      · rw [leaf_lookup_present ord hitems' hq (fun y hy => hitemKnown y (by rw [hitems']; simp [hy])) hpre hsame hpost]
  refine ⟨page, ⟨path.parent, path.next, items⟩, pre, post, leaves, hfind, hget, hlookup, hitems, hlinked,
    fun leaf hl => hne leaf (List.mem_cons_of_mem _ hl), hlen, ?_⟩
  rw [← hentries, hafter, hitems, ← List.append_assoc, List.append_assoc (path.before ++ pre)]
  have hiff : ∀ x ∈ path.before ++ items ++ path.after,
      (before ops (some q) x = true ↔ ord.key x.1 < ord.key q) := by
    intro x hx
    rw [before, decide_eq_true_iff]
    exact ord.neg_iff x.1 q (hknown x hx) hq
  apply dropWhile_split
  · intro x hx
    rw [hiff x (by rw [hitems]; rcases List.mem_append.mp hx with hx | hx <;> simp [hx])]
    cases List.mem_append.mp hx with
    | inl hx => exact lt_of_lt_of_le (hbefore x hx) hlo
    | inr hx => exact hpre x hx
  · intro x hx
    rw [← Bool.not_eq_true, hiff x (by rw [hitems]; rcases List.mem_append.mp hx with hx | hx <;> simp [hx])]
    cases List.mem_append.mp hx with
    | inl hx => exact hpost x hx
    | inr hx => exact not_lt_of_gt (lt_of_lt_of_le hhi (hbehind x hx))

end Open

/-- The keys of both bounds, if there are bounds. -/
structure Keys (layout : KeyLayout) (left right : Option Bound) (leftKey rightKey : Option Key) : Prop where
  leftKey_eq : left.map (Bound.leftKey layout) = leftKey.map some
  rightKey_eq : rightKeyOf layout right = some rightKey
  accepted : acceptsRange layout left right = some true

/-- `open` puts the cursor to the first entry that is not before the left key. -/
theorem openScan_opened [Preorder B] [BoundedOrder B] {layout : KeyLayout} {ord : KeyOrder (keyOps layout.attrs) B}
    {h : BplusTreeHandler Key} {entries : List (Key × RID)} (hr : Represents ord h entries) {left right : Option Bound}
    {leftKey rightKey : Option Key} (hkeys : Keys layout left right leftKey rightKey)
    (hknown : ∀ q, leftKey = some q → ord.Known q) :
    ∃ rc s, openScan layout h left right = some (rc, s) ∧ (rc = .success ∨ rc = .empty ∧ entries = []) ∧
      Opened (keyOps layout.attrs) h s rightKey (entries.dropWhile (before (keyOps layout.attrs) leftKey)) := by
  have hended : entries.dropWhile (before (keyOps layout.attrs) leftKey) = [] →
      Opened (keyOps layout.attrs) h nothing rightKey (entries.dropWhile (before (keyOps layout.attrs) leftKey)) :=
    fun hnil => Or.inl ⟨rfl, by rw [hnil]; rfl⟩
  obtain ⟨hleft, hright, haccepted⟩ := hkeys
  cases left with
  | none =>
    obtain rfl : leftKey = none := by simpa using hleft.symm
    have hall : entries.dropWhile (before (keyOps layout.attrs) none) = entries :=
      dropWhile_split (fun _ hx => absurd hx List.not_mem_nil) fun _ _ => rfl
    rcases hr.tree with ⟨hroot, hnil, -⟩ | ⟨n, t, hf, rfl⟩
    · refine ⟨.empty, nothing, ?_, Or.inr ⟨rfl, hnil⟩, hended (hall.trans hnil)⟩
      rw [openScan, haccepted]
      simp only [Option.bind_eq_bind, Option.bind_some, Bool.not_true, Bool.false_eq_true, if_false, hroot]
    · have hroot : h.header.rootPage = some t.page := hf.root
      obtain ⟨page, hpage, hat⟩ := leftMost_at hf hr.wide rightKey
      obtain ⟨s, hs, hopened⟩ := atPlace_opened (keyOps layout.attrs) hat
      refine ⟨.success, s, ?_, Or.inl rfl, ?_⟩
      · rw [openScan, haccepted]
        simp only [Option.bind_eq_bind, Option.bind_some, Bool.not_true, Bool.false_eq_true, if_false, hroot, hpage,
          hright, hs]
      · rw [hall]
        exact hopened
  | some left =>
    obtain ⟨q, rfl, hq⟩ : ∃ q, leftKey = some q ∧ left.leftKey layout = some q := by
      cases leftKey with
      | none => cases hleft
      | some q => exact ⟨q, rfl, Option.some.inj hleft⟩
    rcases hr.tree with ⟨hroot, rfl, -⟩ | ⟨n, t, hf, rfl⟩
    · refine ⟨.success, nothing, ?_, Or.inl rfl, hended rfl⟩
      rw [openScan, haccepted]
      simp only [Option.bind_eq_bind, Option.bind_some, Bool.not_true, Bool.false_eq_true, if_false, hq, hroot]
    · have hroot : h.header.rootPage = some t.page := hf.root
      obtain ⟨page, node, pre, post, leaves, hfind, hget, hlookup, hitems, hlinked, hne, hlen, hdrop⟩ :=
        findLeaf_cut hf hr.wide (hknown q rfl)
      have hsize : node.items.length = pre.length + post.length := by rw [hitems, List.length_append]
      obtain ⟨⟨parent, hnode⟩, hrest⟩ := id hlinked
      have hnext : node.nextBrother = headPage leaves none := by
        rw [Option.some.inj (hget.symm.trans hnode)]
      have hopen : openScan layout h (some left) right =
          if node.items.length ≤ pre.length then
            node.nextBrother.elim (some (.success, nothing))
              fun nextPage => atPlace (keyOps layout.attrs) h nextPage 0 rightKey
          else atPlace (keyOps layout.attrs) h page pre.length rightKey := by
        rw [openScan, haccepted]
        simp only [Option.bind_eq_bind, Option.bind_some, Bool.not_true, Bool.false_eq_true, if_false, hq, hroot, hfind,
          hget, hlookup, hright]
        cases node.nextBrother with
        | none => rfl
        | some nextPage => rfl
      cases post with
      | nil =>
        rw [List.length_nil, Nat.add_zero] at hsize
        rw [if_pos (le_of_eq hsize), hnext] at hopen
        rw [List.nil_append] at hdrop
        cases leaves with
        | nil => exact ⟨.success, nothing, hopen, Or.inl rfl, hended hdrop⟩
        | cons leaf leaves =>
          have hat : At h ⟨some leaf.1, rightKey, (0 : ℕ), false⟩ ((leaf :: leaves).flatMap Prod.snd) := by
            refine ⟨leaf.1, leaf.2, 0, leaves, rfl, rfl, List.length_pos_of_ne_nil (hne leaf List.mem_cons_self), hrest,
              fun l hl => hne l (List.mem_cons_of_mem _ hl), ?_, ?_⟩
            · rw [List.length_cons] at hlen
              omega
            · rw [List.drop_zero, List.flatMap_cons]
          obtain ⟨s, hs, hopened⟩ := atPlace_opened (keyOps layout.attrs) hat
          exact ⟨.success, s, hopen.trans hs, Or.inl rfl, by rw [hdrop]; exact hopened⟩
      | cons x post =>
        rw [List.length_cons] at hsize
        rw [if_neg (by omega)] at hopen
        have hat : At h ⟨some page, rightKey, pre.length, false⟩ (x :: post ++ leaves.flatMap Prod.snd) := by
          refine ⟨page, node.items, pre.length, leaves, rfl, rfl, by omega, hlinked, hne, hlen, ?_⟩
          rw [hitems, List.drop_left]
        obtain ⟨s, hs, hopened⟩ := atPlace_opened (keyOps layout.attrs) hat
        exact ⟨.success, s, hopen.trans hs, Or.inl rfl, by rw [hdrop]; exact hopened⟩

/-- A scan returns the stretch of the entries from the left key to the right key. -/
theorem openScan_eq [Preorder B] [BoundedOrder B] {layout : KeyLayout} {ord : KeyOrder (keyOps layout.attrs) B}
    {h : BplusTreeHandler Key} {entries : List (Key × RID)} (hr : Represents ord h entries) {left right : Option Bound}
    {leftKey rightKey : Option Key} (hkeys : Keys layout left right leftKey rightKey)
    (hknown : ∀ q, leftKey = some q → ord.Known q) :
    ∃ rc s, openScan layout h left right = some (rc, s) ∧ (rc = .success ∨ rc = .empty ∧ entries = []) ∧
      ∀ fuel, entries.length < fuel → s.collect (keyOps layout.attrs) h fuel =
        some (((entries.dropWhile (before (keyOps layout.attrs) leftKey)).takeWhile
          fun y => !past (keyOps layout.attrs) rightKey y).map Prod.snd) := by
  obtain ⟨rc, s, hopen, hrc, hopened⟩ := openScan_opened hr hkeys hknown
  refine ⟨rc, s, hopen, hrc, fun fuel hfuel => hopened.collect_eq _ fuel ?_⟩
  exact lt_of_le_of_lt (List.dropWhile_sublist _).length_le hfuel

end BplusTreeScanner

/-! ## Stretches and ranges -/

theorem takeWhile_dropWhile {α : Type} {p q : α → Bool} {l : List α}
    (h : l.Pairwise fun x y => (p y = true → p x = true) ∧ (q y = true → q x = true)) :
    (l.dropWhile p).takeWhile q = l.filter fun x => !p x && q x := by
  induction l with
  | nil => rfl
  | cons x l ih =>
    rw [List.pairwise_cons] at h
    obtain ⟨hx, hl⟩ := h
    rw [List.dropWhile_cons, List.filter_cons]
    by_cases hp : p x = true
    · rw [if_pos hp, ih hl, if_neg (by simp [hp])]
    · -- behind `x` nothing meets the first condition any more
      have hnot : ∀ y ∈ l, p y = false := fun y hy => by
        rw [← Bool.not_eq_true]
        exact fun hy' => hp ((hx y hy).1 hy')
      have hself : l.dropWhile p = l := BplusTreeScanner.dropWhile_split (fun _ h => absurd h List.not_mem_nil) hnot
      have hrest := ih hl
      rw [hself] at hrest
      rw [if_neg hp, List.takeWhile_cons]
      by_cases hq : q x = true
      · rw [if_pos hq, if_pos (by simp [hp, hq]), hrest]
      · rw [if_neg hq, if_neg (by simp [hq]), eq_comm, List.filter_eq_nil_iff]
        intro y hy hy'
        exact hq ((hx y hy).2 (by simpa [hnot y hy] using hy'))

/-- A record identifier strictly between the least and the greatest one. -/
def Inner (rid : RID) : Prop := rid.Valid ∧ rid ≠ RID.min ∧ rid ≠ RID.max

instance (rid : RID) : Decidable (Inner rid) := inferInstanceAs (Decidable (rid.Valid ∧ rid ≠ RID.min ∧ rid ≠ RID.max))

theorem min_valid : RID.min.Valid := by decide

theorem max_valid : RID.max.Valid := by decide

theorem compare_min_pos {rid : RID} (h : Inner rid) : 0 < RID.compare rid RID.min := by
  obtain ⟨⟨⟨hpage, -⟩, hslot, -⟩, hne, -⟩ := id h
  rw [RID.compare_of_valid h.1 min_valid]
  have hne' : ¬ (rid.pageNum = 0 ∧ rid.slotNum = 0) := fun heq => hne (by
    obtain ⟨pageNum, slotNum⟩ := rid
    rw [RID.min, RID.mk.injEq]
    exact heq)
  have hminPage : RID.min.pageNum = 0 := rfl
  have hminSlot : RID.min.slotNum = 0 := rfl
  split <;> omega

theorem compare_max_neg {rid : RID} (h : Inner rid) : RID.compare rid RID.max < 0 := by
  obtain ⟨⟨⟨-, hpage⟩, -, hslot⟩, -, hne⟩ := id h
  rw [RID.compare_of_valid h.1 max_valid]
  have hne' : ¬ (rid.pageNum = 2 ^ 31 - 1 ∧ rid.slotNum = 2 ^ 31 - 1) := fun heq => hne (by
    obtain ⟨pageNum, slotNum⟩ := rid
    rw [RID.max, RID.mk.injEq]
    exact heq)
  have hmaxPage : RID.max.pageNum = 2 ^ 31 - 1 := rfl
  have hmaxSlot : RID.max.slotNum = 2 ^ 31 - 1 := rfl
  split <;> omega

/-! ## Range scans -/

/-- The attributes of a bound, as `make_key` reads them. -/
def Bound.attrs (layout : KeyLayout) (bound : Bound) : Bytes :=
  (makeKey layout.attrs layout.attrOffsets bound.userKey RID.min).attrs

/-- The attributes of the key are not below the bound. -/
def Bound.admitsLeft (layout : KeyLayout) (bound : Bound) (key : Key) : Bool :=
  let result := attrComparator layout.attrs key.attrs (bound.attrs layout)
  if bound.inclusive then decide (0 ≤ result) else decide (0 < result)

/-- The attributes of the key are not above the bound. -/
def Bound.admitsRight (layout : KeyLayout) (bound : Bound) (key : Key) : Bool :=
  let result := attrComparator layout.attrs key.attrs (bound.attrs layout)
  if bound.inclusive then decide (result ≤ 0) else decide (result < 0)

/-- The attributes of the key lie in the range. -/
def inRange (layout : KeyLayout) (left right : Option Bound) (key : Key) : Bool :=
  left.all (fun bound => bound.admitsLeft layout key) && right.all fun bound => bound.admitsRight layout key

/-- The keys that a scan compares with: the least or the greatest record identifier makes the bound strict or not. -/
def Bound.scanLeft (layout : KeyLayout) (bound : Bound) : Key :=
  ⟨bound.attrs layout, if bound.inclusive then RID.min else RID.max⟩

def Bound.scanRight (layout : KeyLayout) (bound : Bound) : Key :=
  ⟨bound.attrs layout, if bound.inclusive then RID.max else RID.min⟩

section Range

variable {layout : KeyLayout} {bound : Bound} {x : Key × RID}

theorem before_scanLeft (hx : Inner x.1.rid) :
    BplusTreeScanner.before (keyOps layout.attrs) (some (bound.scanLeft layout)) x = !bound.admitsLeft layout x.1 := by
  have hmin := compare_min_pos hx
  have hmax := compare_max_neg hx
  unfold BplusTreeScanner.before Bound.admitsLeft Bound.scanLeft keyOps keyComparator
  simp only
  cases bound.inclusive with
  | true =>
    simp only [if_true, ← decide_not, decide_eq_decide]
    split <;> omega
  | false =>
    simp only [Bool.false_eq_true, if_false, ← decide_not, decide_eq_decide]
    split <;> omega

theorem past_scanRight (hx : Inner x.1.rid) :
    BplusTreeScanner.past (keyOps layout.attrs) (some (bound.scanRight layout)) x = !bound.admitsRight layout x.1 := by
  have hmin := compare_min_pos hx
  have hmax := compare_max_neg hx
  unfold BplusTreeScanner.past Bound.admitsRight Bound.scanRight keyOps keyComparator
  simp only
  cases bound.inclusive with
  | true =>
    simp only [if_true, ← decide_not, decide_eq_decide]
    split <;> omega
  | false =>
    simp only [Bool.false_eq_true, if_false, ← decide_not, decide_eq_decide]
    split <;> omega

theorem Bound.leftKey_eq (hplain : ∀ a, layout.attrs.head? = some a → a.type ≠ .chars)
    (hinside : layout.Inside bound.userKey) : bound.leftKey layout = some (bound.scanLeft layout) := by
  have hfix : bound.fix layout.attrs true = some (bound.userKey, bound.inclusive) := by
    unfold Bound.fix
    split
    · rfl
    · rename_i a attrs hattrs
      rw [if_neg (hplain a (by rw [hattrs]; rfl))]
  simp only [Bound.leftKey, hfix, Option.bind_eq_bind, Option.bind_some, KeyLayout.makeKey?, if_pos hinside]
  rfl

theorem Bound.rightKey_eq (hplain : ∀ a, layout.attrs.head? = some a → a.type ≠ .chars)
    (hinside : layout.Inside bound.userKey) : bound.rightKey layout = some (bound.scanRight layout) := by
  have hfix : bound.fix layout.attrs false = some (bound.userKey, bound.inclusive) := by
    unfold Bound.fix
    split
    · rfl
    · rename_i a attrs hattrs
      rw [if_neg (hplain a (by rw [hattrs]; rfl))]
  simp only [Bound.rightKey, hfix, Option.bind_eq_bind, Option.bind_some, KeyLayout.makeKey?, if_pos hinside]
  rfl

end Range

section Exact

variable [Preorder B] [BoundedOrder B] {layout : KeyLayout} {ord : KeyOrder (keyOps layout.attrs) B}
  {h : BplusTreeHandler Key} {entries : List (Key × RID)} {left right : Option Bound}

theorem Represents.past_mono (hr : Represents ord h entries) {rightKey : Option Key}
    (hknown : ∀ q, rightKey = some q → ord.Known q) :
    entries.Pairwise fun x y => BplusTreeScanner.past (keyOps layout.attrs) rightKey x = true →
      BplusTreeScanner.past (keyOps layout.attrs) rightKey y = true := by
  have hsorted := List.pairwise_map.mp hr.sorted
  refine hsorted.imp_of_mem fun {x y} hx hy hlt hpast => ?_
  cases rightKey with
  | none => exact hpast
  | some q =>
    have hq := hknown q rfl
    have hx' := (ord.pos_iff x.1 _ (hr.known x hx) hq).mp (of_decide_eq_true hpast)
    exact decide_eq_true ((ord.pos_iff y.1 _ (hr.known y hy) hq).mpr (lt_trans hx' hlt))

theorem openScan_exact (hr : Represents ord h entries) (hinner : ∀ x ∈ entries, Inner x.1.rid)
    (hplain : ∀ a, layout.attrs.head? = some a → a.type ≠ .chars)
    (hinsideLeft : ∀ bound, left = some bound → layout.Inside bound.userKey ∧ ord.Known (bound.scanLeft layout))
    (hinsideRight : ∀ bound, right = some bound → layout.Inside bound.userKey ∧ ord.Known (bound.scanRight layout))
    (haccepted : BplusTreeScanner.acceptsRange layout left right = some true) :
    ∃ rc s, BplusTreeScanner.openScan layout h left right = some (rc, s) ∧
      (rc = .success ∨ rc = .empty ∧ entries = []) ∧ ∀ fuel, entries.length < fuel →
        s.collect (keyOps layout.attrs) h fuel =
          some ((entries.filter fun x => inRange layout left right x.1).map Prod.snd) := by
  have hkeys : BplusTreeScanner.Keys layout left right (left.map (Bound.scanLeft layout))
      (right.map (Bound.scanRight layout)) := by
    refine ⟨?_, ?_, haccepted⟩
    · cases left with
      | none => rfl
      | some bound => exact congrArg some (Bound.leftKey_eq hplain (hinsideLeft bound rfl).1)
    · cases right with
      | none => rfl
      | some bound => exact congrArg (Option.map some) (Bound.rightKey_eq hplain (hinsideRight bound rfl).1)
  have hknown : ∀ q, left.map (Bound.scanLeft layout) = some q → ord.Known q := by
    intro q hq
    obtain ⟨bound, hbound, rfl⟩ := Option.map_eq_some_iff.mp hq
    exact (hinsideLeft bound hbound).2
  obtain ⟨rc, s, hopen, hrc, hcollect⟩ := BplusTreeScanner.openScan_eq hr hkeys hknown
  refine ⟨rc, s, hopen, hrc, fun fuel hfuel => ?_⟩
  rw [hcollect fuel hfuel, takeWhile_dropWhile]
  · congr 2
    apply List.filter_congr
    intro x hx
    have hx' := hinner x hx
    unfold inRange
    cases left with
    | none =>
      cases right with
      | none => rfl
      | some bound => simp [past_scanRight hx', BplusTreeScanner.before]
    | some bound =>
      cases right with
      | none => simp [before_scanLeft hx', BplusTreeScanner.past]
      | some bound => simp [before_scanLeft hx', past_scanRight hx']
  · -- the entries are in order, so a bound separates them
    have hright : ∀ q, right.map (Bound.scanRight layout) = some q → ord.Known q := by
      intro q hq
      obtain ⟨bound, hbound, rfl⟩ := Option.map_eq_some_iff.mp hq
      exact (hinsideRight bound hbound).2
    have hpast := hr.past_mono hright
    refine ((List.pairwise_map.mp hr.sorted).and hpast).imp_of_mem fun {x y} hx hy hlt => ⟨?_, ?_⟩
    · cases left with
      | none => exact id
      | some bound =>
        have hq := (hinsideLeft bound rfl).2
        intro hbefore
        have hy' := (ord.neg_iff y.1 _ (hr.known y hy) hq).mp (of_decide_eq_true hbefore)
        exact decide_eq_true ((ord.neg_iff x.1 _ (hr.known x hx) hq).mpr (lt_trans hlt.1 hy'))
    · intro hnot
      rw [Bool.not_eq_true'] at hnot ⊢
      rw [← Bool.not_eq_true] at hnot ⊢
      exact fun hx' => hnot (hlt.2 hx')

end Exact

theorem EntrySet.mem_run {layout : KeyLayout} {s : EntrySet} {calls : List Call} {x : Key × RID}
    (hx : x ∈ (EntrySet.run layout s calls).2) : x ∈ s ∨ ∃ c ∈ calls, x.1 = c.key layout := by
  induction calls generalizing s with
  | nil => exact Or.inl hx
  | cons c calls ih =>
    rcases ih hx with hx | ⟨d, hd, hkey⟩
    · cases c with
      | insertEntry userKey rid =>
        simp only [EntrySet.step] at hx
        split at hx
        · exact Or.inl hx
        · rcases Finset.mem_insert.mp hx with rfl | hx
          · exact Or.inr ⟨_, List.mem_cons_self, rfl⟩
          · exact Or.inl hx
      | deleteEntry userKey rid =>
        simp only [EntrySet.step] at hx
        split at hx
        · exact Or.inl (Finset.mem_filter.mp hx).1
        · exact Or.inl hx
    · exact Or.inr ⟨d, List.mem_cons_of_mem _ hd, hkey⟩

end Landbase.Index
