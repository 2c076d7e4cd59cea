import Landbase.Index.EqualScan

/-! # Scans that wait for a latch

`next_entry` hops to the next leaf with `try_slatch`. When the latch is not to be had it returns `LOCKED_NEED_WAIT`, and the
caller is to call again. By then `current_frame_` is the next leaf already, while `iter_index_` still counts the items of
the leaf behind; the call that follows goes on from there, so that the front of the next leaf is never returned.
-/

namespace Landbase.Index
open Landbase.Lib
set_option autoImplicit false

namespace BplusTreeScanner

variable {K : Type}

/-- `BplusTreeScanner::next_entry`, with the outcomes of the next calls of `try_slatch`; when they are used up every call
succeeds. -/
def nextEntryLatched (ops : KeyOps K) (h : BplusTreeHandler K) : ℕ → BplusTreeScanner K → List Bool →
    Option (RC × Option RID × BplusTreeScanner K × List Bool)
  | 0, _, _ => none
  | fuel + 1, s, latches =>
    match s.currentFrame with
    | none => some (.recordEof, none, s, latches)
    | some page =>
      if s.firstEmitted = false then do
        let item ← s.item h
        some (.success, some item.2, { s with firstEmitted := true }, latches)
      else do
        let s := { s with iterIndex := s.iterIndex + 1 }
        let node ← h.pool.getLeaf page
        if s.iterIndex < (node.items.length : ℤ) then
          if ← s.touchEnd ops h then some (.recordEof, none, s, latches)
          else
            let item ← s.item h
            some (.success, some item.2, s, latches)
        else
          match node.nextBrother with
          | none => some (.recordEof, none, s, latches)
          | some nextPage =>
            let s := { s with currentFrame := some nextPage }
            match latches with
            | false :: latches => some (.lockedNeedWait, none, s, latches)
            | true :: latches => nextEntryLatched ops h fuel { s with iterIndex := -1 } latches
            | [] => nextEntryLatched ops h fuel { s with iterIndex := -1 } []

/-- The caller: `next_entry` until the scan ends, and again after each `LOCKED_NEED_WAIT`. -/
def collectLatched (ops : KeyOps K) (h : BplusTreeHandler K) : ℕ → BplusTreeScanner K → List Bool → Option (List RID)
  | 0, _, _ => none
  | fuel + 1, s, latches => do
    let (rc, rid, s, latches) ← s.nextEntryLatched ops h (h.pool.pageCount + 1) latches
    match rid with
    | some rid => return rid :: (← collectLatched ops h fuel s latches)
    | none =>
      if rc = .lockedNeedWait then collectLatched ops h fuel s latches
      else if rc = .recordEof then some []
      else none

/-- The leaf behind `hops + 1` links. -/
def leafBehind (pool : DiskBufferPool K) : ℕ → PageNum → Option (LeafIndexNode K)
  | 0, page => do pool.getLeaf (← (← pool.getLeaf page).nextBrother)
  | hops + 1, page => do leafBehind pool hops (← (← pool.getLeaf page).nextBrother)

/-- The first `try_slatch` that fails, if there is one on the way, is for a leaf that begins behind the right key. -/
def Harmless (ops : KeyOps K) (h : BplusTreeHandler K) (s : BplusTreeScanner K) (latches : List Bool) : Prop :=
  ∀ hops page node x, latches.findIdx? (· == false) = some hops → s.currentFrame = some page →
    leafBehind h.pool hops page = some node → node.items.head? = some x → past ops s.rightKey x = true

/-! ## One call -/

/-- The scanner stands on a leaf of the chain; its index may be anywhere. -/
structure Standing (h : BplusTreeHandler K) (s : BplusTreeScanner K) (leaf : PageNum × List (K × RID))
    (leaves : List (PageNum × List (K × RID))) : Prop where
  frame : s.currentFrame = some leaf.1
  emitted : s.firstEmitted = true
  index : 0 ≤ s.iterIndex
  linked : Linked h.pool (leaf :: leaves) none
  nonempty : ∀ l ∈ leaves, l.2 ≠ []
  pages : 0 < h.pool.pageCount

/-- What `next_entry` returns when its cursor has come to an entry. -/
def answer (ops : KeyOps K) (s : BplusTreeScanner K) (y : K × RID) (latches : List Bool) :
    Option (RC × Option RID × BplusTreeScanner K × List Bool) :=
  if past ops s.rightKey y then some (.recordEof, none, s, latches) else some (.success, some y.2, s, latches)

/-- The entries behind the cursor. -/
def remaining (s : BplusTreeScanner K) (leaf : PageNum × List (K × RID)) (leaves : List (PageNum × List (K × RID))) :
    List (K × RID) :=
  leaf.2.drop (s.iterIndex + 1).toNat ++ leaves.flatMap Prod.snd

variable (ops : KeyOps K) {h : BplusTreeHandler K} {s : BplusTreeScanner K} {leaf : PageNum × List (K × RID)}
  {leaves : List (PageNum × List (K × RID))}

theorem nextEntryLatched_at {page : PageNum} {node : LeafIndexNode K} {y : K × RID} {i : ℤ} {rightKey : Option K}
    (hget : h.pool.getLeaf page = some node) (hindex : 0 ≤ i + 1) (hy : node.items[(i + 1).toNat]? = some y)
    (fuel : ℕ) (latches : List Bool) :
    (⟨some page, rightKey, i, true⟩ : BplusTreeScanner K).nextEntryLatched ops h (fuel + 1) latches =
      answer ops ⟨some page, rightKey, i + 1, true⟩ y latches := by
  have hlt : i + 1 < (node.items.length : ℤ) := by
    have := (List.getElem?_eq_some_iff.mp hy).1
    omega
  have hitem : (⟨some page, rightKey, i + 1, true⟩ : BplusTreeScanner K).item h = some y := by
    unfold item
    simp only [hget, Option.bind_eq_bind, Option.bind_some, if_neg (not_lt.mpr hindex), hy]
  have htouch : (⟨some page, rightKey, i + 1, true⟩ : BplusTreeScanner K).touchEnd ops h =
      some (past ops rightKey y) := by
    unfold touchEnd past
    cases rightKey with
    | none => rfl
    | some q => simp only [hitem, Option.bind_eq_bind, Option.bind_some]
  rw [nextEntryLatched]
  simp only [Bool.true_eq_false, if_false, hget, Option.bind_eq_bind, Option.bind_some, if_pos hlt, htouch, hitem]
  rfl

/-- Everything that a call of `next_entry` can do. -/
theorem Standing.next (hs : Standing h s leaf leaves) (latches : List Bool) :
    (∃ y, leaf.2[(s.iterIndex + 1).toNat]? = some y ∧ s.nextEntryLatched ops h (h.pool.pageCount + 1) latches =
        answer ops { s with iterIndex := s.iterIndex + 1 } y latches) ∨
    ((leaf.2.length : ℤ) ≤ s.iterIndex + 1 ∧ leaves = [] ∧
      s.nextEntryLatched ops h (h.pool.pageCount + 1) latches =
        some (.recordEof, none, { s with iterIndex := s.iterIndex + 1 }, latches)) ∨
    ((leaf.2.length : ℤ) ≤ s.iterIndex + 1 ∧ ∃ next rest, leaves = next :: rest ∧
      ((∃ latches', latches = false :: latches' ∧ s.nextEntryLatched ops h (h.pool.pageCount + 1) latches =
          some (.lockedNeedWait, none, { s with currentFrame := some next.1, iterIndex := s.iterIndex + 1 }, latches')) ∨
        (latches.head? ≠ some false ∧ ∃ y, next.2[0]? = some y ∧ s.nextEntryLatched ops h (h.pool.pageCount + 1) latches =
          answer ops { s with currentFrame := some next.1, iterIndex := 0 } y latches.tail))) := by
  obtain ⟨currentFrame, rightKey, index, emitted⟩ := s
  obtain ⟨hframe, hemitted, hindex, hlinked, hne, hpages⟩ := hs
  obtain rfl : currentFrame = some leaf.1 := hframe
  obtain rfl : emitted = true := hemitted
  have hindex' : 0 ≤ index := hindex
  obtain ⟨⟨parent, hget⟩, hrest⟩ := hlinked
  by_cases hlt : index + 1 < (leaf.2.length : ℤ)
  · left
    have hlt' : (index + 1).toNat < leaf.2.length := by omega
    exact ⟨_, List.getElem?_eq_getElem hlt', nextEntryLatched_at ops hget (by omega) (List.getElem?_eq_getElem hlt') _ _⟩
  · right
    have hend : (leaf.2.length : ℤ) ≤ index + 1 := not_lt.mp hlt
    cases leaves with
    | nil =>
      left
      refine ⟨hend, rfl, ?_⟩
      rw [nextEntryLatched]
      simp only [Bool.true_eq_false, if_false, hget, Option.bind_eq_bind, Option.bind_some, if_neg hlt, headPage]
    | cons next rest =>
      right
      refine ⟨hend, next, rest, rfl, ?_⟩
      obtain ⟨⟨parent', hget'⟩, -⟩ := hrest
      have hfirst : 0 < next.2.length := List.length_pos_of_ne_nil (hne next List.mem_cons_self)
      obtain ⟨fuel, hfuel⟩ : ∃ fuel, h.pool.pageCount = fuel + 1 := ⟨h.pool.pageCount - 1, by omega⟩
      have hhop : ∀ latches', (⟨some next.1, rightKey, -1, true⟩ : BplusTreeScanner K).nextEntryLatched ops h (fuel + 1)
          latches' = answer ops ⟨some next.1, rightKey, 0, true⟩ next.2[0] latches' := by
        intro latches'
        apply nextEntryLatched_at ops (i := -1) hget' (by norm_num)
        exact List.getElem?_eq_getElem hfirst
      rw [nextEntryLatched]
      simp only [Bool.true_eq_false, if_false, hget, Option.bind_eq_bind, Option.bind_some, if_neg hlt, headPage, hfuel]
      cases latches with
      | nil => exact Or.inr ⟨by simp, _, List.getElem?_eq_getElem hfirst, hhop []⟩
      | cons latch latches =>
        cases latch with
        | false => exact Or.inl ⟨latches, rfl, rfl⟩
        | true => exact Or.inr ⟨by simp, _, List.getElem?_eq_getElem hfirst, hhop latches⟩

/-! ## What the caller gets -/

theorem Standing.stay (hs : Standing h s leaf leaves) : Standing h { s with iterIndex := s.iterIndex + 1 } leaf leaves :=
  { hs with index := le_trans hs.index (by show s.iterIndex ≤ s.iterIndex + 1; omega) }

theorem Standing.hop {next : PageNum × List (K × RID)} (hs : Standing h s leaf (next :: leaves)) {i : ℤ} (hi : 0 ≤ i) :
    Standing h { s with currentFrame := some next.1, iterIndex := i } next leaves where
  frame := rfl
  emitted := hs.emitted
  index := hi
  linked := hs.linked.2
  nonempty l hl := hs.nonempty l (List.mem_cons_of_mem _ hl)
  pages := hs.pages

theorem remaining_at {y : K × RID} (hy : leaf.2[(s.iterIndex + 1).toNat]? = some y) (hindex : 0 ≤ s.iterIndex) :
    remaining s leaf leaves = y :: remaining { s with iterIndex := s.iterIndex + 1 } leaf leaves := by
  obtain ⟨hlt, rfl⟩ := List.getElem?_eq_some_iff.mp hy
  unfold remaining
  have hnext : (s.iterIndex + 1 + 1).toNat = (s.iterIndex + 1).toNat + 1 := by omega
  rw [List.drop_eq_getElem_cons hlt, hnext]
  rfl

theorem remaining_end {next : PageNum × List (K × RID)} {y : K × RID} (hend : (leaf.2.length : ℤ) ≤ s.iterIndex + 1)
    (hy : next.2[0]? = some y) :
    remaining s leaf (next :: leaves) = y :: remaining { s with currentFrame := some next.1, iterIndex := 0 } next leaves := by
  obtain ⟨hlt, rfl⟩ := List.getElem?_eq_some_iff.mp hy
  unfold remaining
  rw [List.drop_eq_nil_of_le (by omega), List.nil_append, List.flatMap_cons]
  show next.2 ++ _ = next.2[0] :: (next.2.drop 1 ++ _)
  rw [← List.cons_append, ← List.drop_eq_getElem_cons hlt, List.drop_zero]

/-! ### One answer of the cursor -/

theorem filter_eq_nil_of_past {rightKey : Option K} {y : K × RID} {rest : List (K × RID)}
    (hmono : (y :: rest).Pairwise fun x y => past ops rightKey x = true → past ops rightKey y = true)
    (hpast : past ops rightKey y = true) : (y :: rest).filter (fun y => !past ops rightKey y) = [] := by
  rw [List.pairwise_cons] at hmono
  rw [List.filter_eq_nil_iff]
  intro x hx
  rcases List.mem_cons.mp hx with rfl | hx
  · simp [hpast]
  · simp [hmono.1 x hx hpast]

section Answer

variable {s' : BplusTreeScanner K} {latches latches' : List Bool} {y : K × RID} {fuel : ℕ}

theorem collectLatched_past
    (hnext : s.nextEntryLatched ops h (h.pool.pageCount + 1) latches = answer ops s' y latches')
    (hpast : past ops s'.rightKey y = true) : s.collectLatched ops h (fuel + 1) latches = some [] := by
  rw [collectLatched, hnext, answer, if_pos hpast]
  rfl

theorem collectLatched_inside
    (hnext : s.nextEntryLatched ops h (h.pool.pageCount + 1) latches = answer ops s' y latches')
    (hpast : ¬past ops s'.rightKey y = true) {rids : List RID}
    (hrids : s'.collectLatched ops h fuel latches' = some rids) :
    s.collectLatched ops h (fuel + 1) latches = some (y.2 :: rids) := by
  rw [collectLatched, hnext, answer, if_neg hpast]
  simp only [Option.bind_eq_bind, Option.bind_some, hrids]
  rfl

/-- One more entry in front of a scan that gets no more than there are. -/
theorem collectLatched_le_cons {todo : List (K × RID)}
    (hnext : s.nextEntryLatched ops h (h.pool.pageCount + 1) latches = answer ops s' y latches')
    (hkey : s'.rightKey = s.rightKey)
    (hrest : ∃ rids, s'.collectLatched ops h fuel latches' = some rids ∧
      rids.length ≤ (todo.filter fun y => !past ops s.rightKey y).length) :
    ∃ rids, s.collectLatched ops h (fuel + 1) latches = some rids ∧
      rids.length ≤ ((y :: todo).filter fun y => !past ops s.rightKey y).length := by
  rw [← hkey] at hrest ⊢
  by_cases hpast : past ops s'.rightKey y = true
  · exact ⟨[], collectLatched_past ops hnext hpast, Nat.zero_le _⟩
  · obtain ⟨rids, hrids, hle⟩ := hrest
    refine ⟨y.2 :: rids, collectLatched_inside ops hnext hpast hrids, ?_⟩
    rw [List.filter_cons_of_pos (by simpa using hpast), List.length_cons, List.length_cons]
    exact Nat.succ_le_succ hle

/-- One more entry in front of a scan that gets all of them just when the failure is harmless. -/
theorem collectLatched_cons {todo : List (K × RID)} {harmless : Prop}
    (hnext : s.nextEntryLatched ops h (h.pool.pageCount + 1) latches = answer ops s' y latches')
    (hkey : s'.rightKey = s.rightKey)
    (hmono : (y :: todo).Pairwise fun x y => past ops s.rightKey x = true → past ops s.rightKey y = true)
    (hharm : (y :: todo).filter (fun y => !past ops s.rightKey y) = [] → harmless)
    (hrest : ∃ rids, s'.collectLatched ops h fuel latches' = some rids ∧
      (harmless → rids = (todo.filter fun y => !past ops s.rightKey y).map Prod.snd) ∧
      (¬harmless → rids.length < (todo.filter fun y => !past ops s.rightKey y).length)) :
    ∃ rids, s.collectLatched ops h (fuel + 1) latches = some rids ∧
      (harmless → rids = ((y :: todo).filter fun y => !past ops s.rightKey y).map Prod.snd) ∧
      (¬harmless → rids.length < ((y :: todo).filter fun y => !past ops s.rightKey y).length) := by
  rw [← hkey] at hmono hharm hrest ⊢
  by_cases hpast : past ops s'.rightKey y = true
  · have hnil := filter_eq_nil_of_past ops hmono hpast
    refine ⟨[], collectLatched_past ops hnext hpast, fun _ => ?_, fun hnot => absurd (hharm hnil) hnot⟩
    rw [hnil]
    rfl
  · obtain ⟨rids, hrids, heq, hlt⟩ := hrest
    refine ⟨y.2 :: rids, collectLatched_inside ops hnext hpast hrids, fun hharmless => ?_, fun hnot => ?_⟩
    · rw [List.filter_cons_of_pos (by simpa using hpast), List.map_cons, heq hharmless]
    · rw [List.filter_cons_of_pos (by simpa using hpast), List.length_cons, List.length_cons]
      exact Nat.succ_lt_succ (hlt hnot)

end Answer

/-- However the latches fall, the caller gets no more entries than there are in the range. -/
theorem Standing.collectLatched_le (hs : Standing h s leaf leaves) (fuel : ℕ) (latches : List Bool)
    (hfuel : (remaining s leaf leaves).length + latches.length < fuel) :
    ∃ rids, s.collectLatched ops h fuel latches = some rids ∧
      rids.length ≤ ((remaining s leaf leaves).filter fun y => !past ops s.rightKey y).length := by
  induction fuel generalizing s leaf leaves latches with
  | zero => omega
  | succ fuel ih =>
    rcases hs.next ops latches with ⟨y, hy, hnext⟩ | ⟨-, -, hnext⟩ | ⟨hend, next, rest, rfl, hhop⟩
    · have hrem : remaining s leaf leaves = _ := remaining_at hy hs.index
      rw [hrem, List.length_cons] at hfuel
      rw [hrem]
      exact collectLatched_le_cons ops hnext rfl (ih hs.stay latches (by omega))
    · refine ⟨[], ?_, Nat.zero_le _⟩
      rw [collectLatched, hnext]
      rfl
    · rcases hhop with ⟨latches', rfl, hnext⟩ | ⟨-, y, hy, hnext⟩
      · -- the index of the leaf behind is kept: the entries in front of it are lost
        have hsub : List.Sublist
            (remaining { s with currentFrame := some next.1, iterIndex := s.iterIndex + 1 } next rest)
            (remaining s leaf (next :: rest)) := by
          unfold remaining
          rw [List.flatMap_cons]
          exact (((List.drop_sublist _ _).append_right _)).trans (List.sublist_append_right _ _)
        have hlen := hsub.length_le
        rw [List.length_cons] at hfuel
        have hindex := hs.index
        have hindex' : 0 ≤ s.iterIndex + 1 := by omega
        obtain ⟨rids, hrids, hle⟩ := ih (hs.hop hindex') latches' (by omega)
        refine ⟨rids, ?_, le_trans hle (hsub.filter _).length_le⟩
        rw [collectLatched, hnext]
        exact hrids
      · have hrem : remaining s leaf (next :: rest) = _ := remaining_end hend hy
        have htail : latches.tail.length ≤ latches.length := by simp
        rw [hrem, List.length_cons] at hfuel
        rw [hrem]
        exact collectLatched_le_cons ops hnext rfl (ih (hs.hop (le_refl 0)) latches.tail (by omega))

/-- The leaf of the first `try_slatch` that fails begins behind the right key, in terms of the chain. -/
def HarmlessOn (rightKey : Option K) (leaves : List (PageNum × List (K × RID))) (latches : List Bool) : Prop :=
  ∀ hops l x, latches.findIdx? (· == false) = some hops → leaves[hops]? = some l → l.2.head? = some x →
    past ops rightKey x = true

theorem harmlessOn_of_filter {rightKey : Option K} {latches : List Bool}
    (hnil : (remaining s leaf leaves).filter (fun y => !past ops rightKey y) = []) :
    HarmlessOn ops rightKey leaves latches := by
  intro hops l x _ hl hx
  have hmem : x ∈ remaining s leaf leaves :=
    List.mem_append_right _ (List.mem_flatMap.mpr ⟨l, List.mem_of_getElem? hl, List.mem_of_head? hx⟩)
  simpa using List.filter_eq_nil_iff.mp hnil x hmem

theorem harmlessOn_tail {rightKey : Option K} {next : PageNum × List (K × RID)} {latches : List Bool}
    (hhead : latches.head? ≠ some false) :
    HarmlessOn ops rightKey (next :: leaves) latches ↔ HarmlessOn ops rightKey leaves latches.tail := by
  cases latches with
  | nil => exact ⟨fun _ hops l x hfind => (nomatch hfind), fun _ hops l x hfind => (nomatch hfind)⟩
  | cons latch latches =>
    cases latch with
    | false => exact absurd rfl hhead
    | true =>
      have hfind : (true :: latches).findIdx? (· == false) = (latches.findIdx? (· == false)).map (· + 1) := by
        simp [List.findIdx?_cons]
      refine ⟨fun hharm hops l x hhops hl hx => ?_, fun hharm hops l x hhops hl hx => ?_⟩
      · refine hharm (hops + 1) l x ?_ hl hx
        rw [hfind, show latches.findIdx? (· == false) = some hops from hhops]
        rfl
      · rw [hfind] at hhops
        obtain ⟨hops', hhops', rfl⟩ := Option.map_eq_some_iff.mp hhops
        exact hharm hops' l x hhops' hl hx

/-- When no entry comes back into the range, the caller gets every entry that remains in it if the first failure is
harmless, and fewer otherwise. -/
theorem Standing.collectLatched_eq (hs : Standing h s leaf leaves) (fuel : ℕ) (latches : List Bool)
    (hfuel : (remaining s leaf leaves).length + latches.length < fuel)
    (hmono : (remaining s leaf leaves).Pairwise fun x y => past ops s.rightKey x = true → past ops s.rightKey y = true) :
    ∃ rids, s.collectLatched ops h fuel latches = some rids ∧
      (HarmlessOn ops s.rightKey leaves latches →
        rids = ((remaining s leaf leaves).filter fun y => !past ops s.rightKey y).map Prod.snd) ∧
      (¬HarmlessOn ops s.rightKey leaves latches →
        rids.length < ((remaining s leaf leaves).filter fun y => !past ops s.rightKey y).length) := by
  induction fuel generalizing s leaf leaves latches with
  | zero => omega
  | succ fuel ih =>
    rcases hs.next ops latches with ⟨y, hy, hnext⟩ | ⟨hend, rfl, hnext⟩ | ⟨hend, next, rest, rfl, hhop⟩
    · -- the cursor moves in its leaf
      have hrem : remaining s leaf leaves = _ := remaining_at hy hs.index
      rw [hrem, List.length_cons] at hfuel
      have hharm : (remaining s leaf leaves).filter (fun y => !past ops s.rightKey y) = [] →
          HarmlessOn ops s.rightKey leaves latches := harmlessOn_of_filter ops
      rw [hrem] at hmono hharm ⊢
      exact collectLatched_cons ops hnext rfl hmono hharm (ih hs.stay latches (by omega) (List.pairwise_cons.mp hmono).2)
    · -- the last leaf ends
      have hnil : (remaining s leaf []).filter (fun y => !past ops s.rightKey y) = [] := by
        unfold remaining
        rw [List.drop_eq_nil_of_le (by omega)]
        rfl
      refine ⟨[], ?_, fun _ => by rw [hnil]; rfl, fun hnot => absurd (harmlessOn_of_filter ops hnil) hnot⟩
      rw [collectLatched, hnext]
      rfl
    · rcases hhop with ⟨latches', rfl, hnext⟩ | ⟨hhead, y, hy, hnext⟩
      · -- the latch is not to be had
        obtain ⟨y, hy⟩ : ∃ y, next.2[0]? = some y :=
          ⟨_, List.getElem?_eq_getElem (List.length_pos_of_ne_nil (hs.nonempty next List.mem_cons_self))⟩
        have hrem : remaining s leaf (next :: rest) = _ := remaining_end hend hy
        rw [hrem, List.length_cons, List.length_cons] at hfuel
        have hindex := hs.index
        have hindex' : 0 ≤ s.iterIndex + 1 := by omega
        have hsub : List.Sublist
            (remaining { s with currentFrame := some next.1, iterIndex := s.iterIndex + 1 } next rest)
            (remaining { s with currentFrame := some next.1, iterIndex := 0 } next rest) := by
          unfold remaining
          apply List.Sublist.append_right
          apply List.drop_sublist_drop_left
          show (0 + 1 : ℤ).toNat ≤ (s.iterIndex + 1 + 1).toNat
          omega
        have hlen := hsub.length_le
        obtain ⟨rids, hrids, hle⟩ := (hs.hop hindex').collectLatched_le ops fuel latches' (by omega)
        have hle' := le_trans hle (hsub.filter _).length_le
        refine ⟨rids, ?_, ?_, ?_⟩
        · rw [collectLatched, hnext]
          exact hrids
        · intro hharm
          have hpast : past ops s.rightKey y = true := hharm 0 next y rfl rfl (by rw [List.head?_eq_getElem?]; exact hy)
          have hnil := filter_eq_nil_of_past ops (hrem ▸ hmono) hpast
          have hnil' : (remaining { s with currentFrame := some next.1, iterIndex := 0 } next rest).filter
              (fun y => !past ops s.rightKey y) = [] := by
            rw [List.filter_cons_of_neg (by simp [hpast])] at hnil
            exact hnil
          have hzero : rids.length = 0 := Nat.le_zero.mp (hle'.trans (by rw [hnil']; exact le_refl _))
          rw [hrem, hnil, List.length_eq_zero_iff.mp hzero]
          rfl
        · intro hnot
          have hpast : past ops s.rightKey y = false := by
            by_contra hpast
            rw [Bool.not_eq_false] at hpast
            have hnil := filter_eq_nil_of_past ops (hrem ▸ hmono) hpast
            rw [← hrem] at hnil
            exact hnot (harmlessOn_of_filter ops hnil)
          rw [hrem, List.filter_cons_of_pos (by simpa using hpast), List.length_cons]
          exact Nat.lt_succ_of_le hle'
      · -- the cursor moves to the next leaf
        have hrem : remaining s leaf (next :: rest) = _ := remaining_end hend hy
        rw [hrem, List.length_cons] at hfuel
        have htail : latches.tail.length ≤ latches.length := by simp
        have hharm : (remaining s leaf (next :: rest)).filter (fun y => !past ops s.rightKey y) = [] →
            HarmlessOn ops s.rightKey (next :: rest) latches := harmlessOn_of_filter ops
        rw [harmlessOn_tail ops hhead] at hharm ⊢
        rw [hrem] at hmono hharm ⊢
        exact collectLatched_cons ops hnext rfl hmono hharm
          (ih (hs.hop (le_refl 0)) latches.tail (by omega) (List.pairwise_cons.mp hmono).2)

/-! ## A whole scan -/

theorem leafBehind_eq (hlinked : Linked h.pool (leaf :: leaves) none) (hops : ℕ) :
    (leafBehind h.pool hops leaf.1).map (fun node => node.items) = leaves[hops]?.map Prod.snd := by
  induction hops generalizing leaf leaves with
  | zero =>
    obtain ⟨⟨parent, hget⟩, hrest⟩ := hlinked
    cases leaves with
    | nil => simp only [leafBehind, hget, Option.bind_eq_bind, Option.bind_some, headPage, Option.bind_none]; rfl
    | cons next rest =>
      obtain ⟨⟨parent', hget'⟩, -⟩ := hrest
      simp only [leafBehind, hget, Option.bind_eq_bind, Option.bind_some, headPage, hget']
      rfl
  | succ hops ih =>
    obtain ⟨⟨parent, hget⟩, hrest⟩ := hlinked
    cases leaves with
    | nil => simp only [leafBehind, hget, Option.bind_eq_bind, Option.bind_some, headPage, Option.bind_none]; rfl
    | cons next rest =>
      simp only [leafBehind, hget, Option.bind_eq_bind, Option.bind_some, headPage]
      exact ih hrest

theorem harmless_iff (hframe : s.currentFrame = some leaf.1) (hlinked : Linked h.pool (leaf :: leaves) none)
    (latches : List Bool) : Harmless ops h s latches ↔ HarmlessOn ops s.rightKey leaves latches := by
  have hleaf := leafBehind_eq hlinked
  refine ⟨fun hharm hops l x hfind hl hx => ?_, fun hharm hops page node x hfind hpage hnode hx => ?_⟩
  · have hmap := hleaf hops
    rw [hl, Option.map_some] at hmap
    obtain ⟨node, hnode, hitems⟩ := Option.map_eq_some_iff.mp hmap
    exact hharm hops leaf.1 node x hfind hframe hnode (by rw [hitems]; exact hx)
  · obtain rfl : leaf.1 = page := Option.some.inj (hframe.symm.trans hpage)
    have hmap := hleaf hops
    rw [hnode, Option.map_some] at hmap
    obtain ⟨l, hl, hitems⟩ := Option.map_eq_some_iff.mp hmap.symm
    exact hharm hops l x hfind hl (by rw [hitems]; exact hx)

theorem takeWhile_eq_filter {rightKey : Option K} {entries : List (K × RID)}
    (hmono : entries.Pairwise fun x y => past ops rightKey x = true → past ops rightKey y = true) :
    entries.takeWhile (fun y => !past ops rightKey y) = entries.filter fun y => !past ops rightKey y := by
  induction entries with
  | nil => rfl
  | cons x entries ih =>
    by_cases hpast : past ops rightKey x = true
    · rw [filter_eq_nil_of_past ops hmono hpast, List.takeWhile_cons_of_neg (by simp [hpast])]
    · rw [List.takeWhile_cons_of_pos (by simpa using hpast), List.filter_cons_of_pos (by simpa using hpast),
        ih (List.pairwise_cons.mp hmono).2]

/-- The caller of an opened scan gets what it would get without failures if and only if the first failure is harmless. -/
theorem Opened.collectLatched_iff {rightKey : Option K} {entries : List (K × RID)} (hs : Opened ops h s rightKey entries)
    (hmono : entries.Pairwise fun x y => past ops rightKey x = true → past ops rightKey y = true) (latches : List Bool)
    (fuel : ℕ) (hfuel : entries.length + latches.length + 1 < fuel) :
    ∃ rids rids', s.collectLatched ops h fuel latches = some rids ∧ s.collect ops h fuel = some rids' ∧
      (rids = rids' ↔ Harmless ops h s latches) := by
  have hcollect := hs.collect_eq ops fuel (by omega)
  obtain ⟨fuel, rfl⟩ : ∃ f, fuel = f + 1 := ⟨fuel - 1, by omega⟩
  rcases hs with ⟨hframe, hnil⟩ | ⟨hfirst, rfl, hat, hhead⟩
  · refine ⟨[], _, ?_, hcollect, ?_⟩
    · rw [collectLatched, nextEntryLatched, hframe]
      rfl
    · rw [hnil]
      refine ⟨fun _ hops page node x _ hpage => ?_, fun _ => rfl⟩
      rw [hframe] at hpage
      cases hpage
  · obtain ⟨page, items, index, leaves, hframe, hindex, hlt, hlinked, hne, hlen, rfl⟩ := id hat
    have hcons : items.drop index ++ leaves.flatMap Prod.snd =
        items[index] :: (items.drop (index + 1) ++ leaves.flatMap Prod.snd) := by
      rw [List.drop_eq_getElem_cons hlt]
      rfl
    rw [hcons] at hat hhead hcollect hmono hfuel
    have hpast := hhead _ rfl
    rw [List.takeWhile_cons_of_pos (by simpa using hpast), takeWhile_eq_filter ops (List.pairwise_cons.mp hmono).2] at hcollect
    have hnext : s.nextEntryLatched ops h (h.pool.pageCount + 1) latches =
        some (.success, some items[index].2, { s with firstEmitted := true }, latches) := by
      simp only [nextEntryLatched, hframe, hfirst, hat.item_eq, if_true, Option.bind_eq_bind, Option.bind_some]
    have hstand : Standing h { s with firstEmitted := true } (page, items) leaves := by
      refine ⟨hframe, rfl, ?_, hlinked, hne, by omega⟩
      show 0 ≤ s.iterIndex
      omega
    have hrem : remaining { s with firstEmitted := true } (page, items) leaves =
        items.drop (index + 1) ++ leaves.flatMap Prod.snd := by
      unfold remaining
      show items.drop (s.iterIndex + 1).toNat ++ _ = _
      rw [hindex]
      rfl
    rw [List.length_cons] at hfuel
    obtain ⟨rids, hrids, heq, hlt'⟩ := hstand.collectLatched_eq ops fuel latches (by rw [hrem]; omega)
      (by rw [hrem]; exact (List.pairwise_cons.mp hmono).2)
    rw [hrem] at heq hlt'
    refine ⟨items[index].2 :: rids, _, ?_, hcollect, ?_⟩
    · rw [collectLatched, hnext]
      simp only [Option.bind_eq_bind, Option.bind_some, hrids]
      rfl
    · rw [harmless_iff ops hframe hlinked, List.map_cons, List.cons.injEq, and_iff_right rfl]
      refine ⟨fun hsame => ?_, heq⟩
      by_contra hnot
      have hlen' := hlt' hnot
      rw [hsame, List.length_map] at hlen'
      exact lt_irrefl _ hlen'

theorem openScan_cases {layout : KeyLayout} {h : BplusTreeHandler Key} {left right : Option Bound} {rc : RC}
    {s : BplusTreeScanner Key} (hopen : openScan layout h left right = some (rc, s)) :
    s = nothing ∨ ∃ leftKey rightKey, Keys layout left right leftKey rightKey := by
  unfold openScan at hopen
  cases haccepted : acceptsRange layout left right with
  | none =>
    rw [haccepted] at hopen
    cases hopen
  | some accepted =>
    cases accepted with
    | false =>
      rw [haccepted] at hopen
      exact Or.inl (congrArg Prod.snd (Option.some.inj hopen)).symm
    | true =>
      simp only [haccepted, Option.bind_eq_bind, Option.bind_some, Bool.not_true, Bool.false_eq_true, if_false] at hopen
      cases left with
      | none =>
        cases hroot : h.header.rootPage with
        | none =>
          rw [hroot] at hopen
          exact Or.inl (congrArg Prod.snd (Option.some.inj hopen)).symm
        | some rootPage =>
          simp only [hroot] at hopen
          obtain ⟨page, -, hopen⟩ := Option.bind_eq_some_iff.mp hopen
          obtain ⟨rightKey, hright, -⟩ := Option.bind_eq_some_iff.mp hopen
          exact Or.inr ⟨none, rightKey, rfl, hright, haccepted⟩
      | some bound =>
        obtain ⟨leftKey, hleft, hopen⟩ := Option.bind_eq_some_iff.mp hopen
        cases hroot : h.header.rootPage with
        | none =>
          simp only [hroot] at hopen
          exact Or.inl (congrArg Prod.snd (Option.some.inj hopen)).symm
        | some rootPage =>
          simp only [hroot] at hopen
          obtain ⟨page, -, hopen⟩ := Option.bind_eq_some_iff.mp hopen
          obtain ⟨node, -, hopen⟩ := Option.bind_eq_some_iff.mp hopen
          split at hopen
          · split at hopen
            · exact Or.inl (congrArg Prod.snd (Option.some.inj hopen)).symm
            · obtain ⟨rightKey, hright, -⟩ := Option.bind_eq_some_iff.mp hopen
              exact Or.inr ⟨some leftKey, rightKey, congrArg some hleft, hright, haccepted⟩
          · obtain ⟨rightKey, hright, -⟩ := Option.bind_eq_some_iff.mp hopen
            exact Or.inr ⟨some leftKey, rightKey, congrArg some hleft, hright, haccepted⟩

end BplusTreeScanner

/-- After any calls on a new index whose comparators order the keys of the calls and of the range: a caller that calls
`next_entry` again after each `LOCKED_NEED_WAIT` gets the same record identifiers as without failures if and only if the
first `try_slatch` that fails, if there is one on the way, is for a leaf that begins behind the right key. -/
theorem retry_iff (layout : KeyLayout) (unique : Bool) (internalMaxSize leafMaxSize : ℕ) (hleaf : 4 ≤ leafMaxSize)
    (hinternal : 6 ≤ internalMaxSize) (ok : Key → Prop) (hkeys : Consistent (keyOps layout.attrs).keyComparator ok)
    (hattrs : unique = true → Consistent (keyOps layout.attrs).attrComparator ok) (calls : List Call)
    (hcalls : ∀ c ∈ calls, ok (c.key layout)) (left right : Option Bound)
    (hleft : ∀ bound q, left = some bound → bound.leftKey layout = some q → ok q)
    (hright : ∀ bound q, right = some bound → bound.rightKey layout = some q → ok q) (latches : List Bool) :
    ∃ rcs h, (BplusTreeHandler.create unique internalMaxSize leafMaxSize).run layout calls = some (rcs, h) ∧
      ∀ rc s, BplusTreeScanner.openScan layout h left right = some (rc, s) → ∃ bound, ∀ fuel, bound < fuel →
        ∃ rids rids', s.collectLatched (keyOps layout.attrs) h fuel latches = some rids ∧
          s.collect (keyOps layout.attrs) h fuel = some rids' ∧ (rids = rids' ↔ s.Harmless (keyOps layout.attrs) h latches) := by
  obtain ⟨B, _, _, ord, hknown, -⟩ := exists_keyOrder hkeys
  have hfirst : unique = true → AttrOrder (keyOps layout.attrs) ord.Known := fun hu =>
    attrOrder_keyOps ((hattrs hu).mono fun k => (hknown k).mp)
  obtain ⟨rcs, h, entries, hrun, hr, -⟩ := (create_represents ord unique hleaf hinternal).run hfirst
    fun c hc => (hknown _).mpr (hcalls c hc)
  refine ⟨rcs, h, hrun, fun rc s hopen => ?_⟩
  rcases BplusTreeScanner.openScan_cases hopen with rfl | ⟨leftKey, rightKey, hboth⟩
  · refine ⟨latches.length + 1, fun fuel hfuel => ?_⟩
    have hopened : BplusTreeScanner.Opened (keyOps layout.attrs) h BplusTreeScanner.nothing none [] := Or.inl ⟨rfl, rfl⟩
    exact hopened.collectLatched_iff _ List.Pairwise.nil latches fuel (by simpa using hfuel)
  · have hleft' : ∀ q, leftKey = some q → ord.Known q := by
      rintro q rfl
      cases left with
      | none => cases hboth.leftKey_eq
      | some bound => exact (hknown q).mpr (hleft bound q rfl (Option.some.inj hboth.leftKey_eq))
    have hright' : ∀ q, rightKey = some q → ord.Known q := by
      rintro q rfl
      have hkey := hboth.rightKey_eq
      cases right with
      | none => cases hkey
      | some bound =>
        obtain ⟨q', hq', heq⟩ := Option.map_eq_some_iff.mp hkey
        exact (hknown q).mpr (hright bound q rfl (Option.some.inj heq ▸ hq'))
    obtain ⟨rc', s', hopen', -, hopened⟩ := BplusTreeScanner.openScan_opened hr hboth hleft'
    obtain ⟨-, rfl⟩ := Prod.mk.inj (Option.some.inj (hopen.symm.trans hopen'))
    exact ⟨_, fun fuel hfuel => hopened.collectLatched_iff _ ((hr.past_mono hright').sublist (List.dropWhile_sublist _))
      latches fuel hfuel⟩

/-- The keys 1 to 5 in leaves of two and three entries; the latch of the second leaf is not to be had at first, and the scan
ends in the first leaf. -/
theorem retry_iff_first_leaf :
    let layout : KeyLayout := { attrs := [⟨.ints, 4⟩], attrOffsets := [0] }
    let calls : List Call := [.insertEntry [1, 0, 0, 0] ⟨1, 0⟩, .insertEntry [2, 0, 0, 0] ⟨1, 1⟩,
      .insertEntry [3, 0, 0, 0] ⟨1, 2⟩, .insertEntry [4, 0, 0, 0] ⟨1, 3⟩, .insertEntry [5, 0, 0, 0] ⟨1, 4⟩]
    ∃ rcs h, (BplusTreeHandler.create false 6 4).run layout calls = some (rcs, h) ∧
      ∀ rc s, BplusTreeScanner.openScan layout h none (some ⟨[2, 0, 0, 0], 4, true⟩) = some (rc, s) →
        ∃ bound, ∀ fuel, bound < fuel →
          ∃ rids rids', s.collectLatched (keyOps layout.attrs) h fuel [false] = some rids ∧
            s.collect (keyOps layout.attrs) h fuel = some rids' ∧
            (rids = rids' ↔ s.Harmless (keyOps layout.attrs) h [false]) := by
  intro layout calls
  have hexact : ∀ a ∈ layout.attrs, a.Exact := by decide
  refine retry_iff layout false 6 4 (by decide) (by decide) (fun k => k.rid.Valid) (keyComparator_consistent hexact)
    (fun hu => (nomatch hu)) calls (by decide) none (some ⟨[2, 0, 0, 0], 4, true⟩) (fun _ _ hnone => (nomatch hnone)) ?_
    [false]
  intro bound q hbound hq
  obtain rfl := Option.some.inj hbound
  have hkey : Bound.rightKey layout ⟨[2, 0, 0, 0], 4, true⟩ = some ⟨[2, 0, 0, 0], RID.max⟩ := by decide +kernel
  rw [← Option.some.inj (hkey.symm.trans hq)]
  decide

/-- The keys 1 to 5 in leaves of two and three entries: after one failure to latch the second leaf, the caller never gets
the keys 3, 4 and 5. -/
theorem retry_skips :
    let layout : KeyLayout := { attrs := [⟨.ints, 4⟩], attrOffsets := [0] }
    let calls : List Call := [.insertEntry [1, 0, 0, 0] ⟨1, 0⟩, .insertEntry [2, 0, 0, 0] ⟨1, 1⟩,
      .insertEntry [3, 0, 0, 0] ⟨1, 2⟩, .insertEntry [4, 0, 0, 0] ⟨1, 3⟩, .insertEntry [5, 0, 0, 0] ⟨1, 4⟩]
    ∃ rcs h rc s, (BplusTreeHandler.create false 6 4).run layout calls = some (rcs, h) ∧
      BplusTreeScanner.openScan layout h none none = some (rc, s) ∧
      s.collect (keyOps layout.attrs) h 9 = some [⟨1, 0⟩, ⟨1, 1⟩, ⟨1, 2⟩, ⟨1, 3⟩, ⟨1, 4⟩] ∧
      s.collectLatched (keyOps layout.attrs) h 9 [false] = some [⟨1, 0⟩, ⟨1, 1⟩] := by
  intro layout calls
  have hsome : ((BplusTreeHandler.create false 6 4).run layout calls).any (fun r =>
      (BplusTreeScanner.openScan layout r.2 none none).any fun o =>
        decide (o.2.collect (keyOps layout.attrs) r.2 9 = some [⟨1, 0⟩, ⟨1, 1⟩, ⟨1, 2⟩, ⟨1, 3⟩, ⟨1, 4⟩]) &&
        decide (o.2.collectLatched (keyOps layout.attrs) r.2 9 [false] = some [⟨1, 0⟩, ⟨1, 1⟩])) = true := by
    decide +kernel
  simp only [Option.any_eq_true, Bool.and_eq_true, decide_eq_true_eq] at hsome
  obtain ⟨r, hrun, o, hopen, hcollect, hlatched⟩ := hsome
  exact ⟨r.1, r.2, o.1, o.2, hrun, hopen, hcollect, hlatched⟩

end Landbase.Index
