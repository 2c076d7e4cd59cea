import Landbase.Sql.PhysicalOperator

/-! # `NestedLoopJoinPhysicalOperator`

The join of `sql/operator/join_physical_operator.cpp`: for every tuple of the left child, the right child is opened and
run through. `round_done_` says that the right child has come to its end, `right_closed_` that it need not be closed
before it is opened again. When both children replay a sequence, the join replays the pairs, the left tuple being the
slower one (`nestedLoopJoin_replays`); it may then itself be the child of a join.
-/

namespace Landbase.Sql
open PhysicalOperator
set_option autoImplicit false

/-- `JoinedTuple`: a pair of pointers. -/
structure JoinedTuple (L R : Type) where
  left : Option L
  right : Option R
  deriving DecidableEq, Repr

namespace NestedLoopJoin

variable {L R : Type} (leftOp : PhysicalOperator L) (rightOp : PhysicalOperator R)

/-- The members of the operator and the states of its two children. -/
structure State where
  left : leftOp.State
  right : rightOp.State
  leftTuple : Option L
  rightTuple : Option R
  joinedTuple : JoinedTuple L R
  roundDone : Bool
  rightClosed : Bool

variable {leftOp rightOp}

/-- A new operator. -/
def initial (left : leftOp.State) (right : rightOp.State) : State leftOp rightOp :=
  ⟨left, right, none, none, ⟨none, none⟩, true, true⟩

/-- `NestedLoopJoinPhysicalOperator::open`. -/
def open_ (s : State leftOp rightOp) : RC × State leftOp rightOp :=
  let opened := leftOp.open_ s.left
  (opened.1, { s with left := opened.2, roundDone := true, rightClosed := true })

/-- `NestedLoopJoinPhysicalOperator::left_next`. -/
def leftNext (s : State leftOp rightOp) : RC × State leftOp rightOp :=
  let next := leftOp.next s.left
  if next.1 ≠ .success then (next.1, { s with left := next.2 })
  else
    let tuple := leftOp.currentTuple next.2
    (next.1, { s with left := next.2, leftTuple := tuple, joinedTuple := { s.joinedTuple with left := tuple } })

/-- The part of `right_next` that starts a round: close the right child if it is open, and open it. -/
def startRound (s : State leftOp rightOp) : RC × State leftOp rightOp :=
  let closed : RC × State leftOp rightOp :=
    if s.rightClosed then (.success, s)
    else ((rightOp.close s.right).1, { s with right := (rightOp.close s.right).2, rightClosed := true })
  if closed.1 ≠ .success then closed
  else
    let opened := rightOp.open_ closed.2.right
    if opened.1 ≠ .success then (opened.1, { closed.2 with right := opened.2 })
    else (opened.1, { closed.2 with right := opened.2, rightClosed := false, roundDone := false })

/-- The part of `right_next` behind it. -/
def advanceRight (s : State leftOp rightOp) : RC × State leftOp rightOp :=
  let next := rightOp.next s.right
  if next.1 ≠ .success then
    (next.1, { s with right := next.2, roundDone := if next.1 = .recordEof then true else s.roundDone })
  else
    let tuple := rightOp.currentTuple next.2
    (next.1, { s with right := next.2, rightTuple := tuple, joinedTuple := { s.joinedTuple with right := tuple } })

/-- `NestedLoopJoinPhysicalOperator::right_next`. -/
def rightNext (s : State leftOp rightOp) : RC × State leftOp rightOp :=
  if s.roundDone then
    let started := startRound s
    if started.1 ≠ .success then started else advanceRight started.2
  else advanceRight s

/-- The end of `next`: the left child steps, and the right one after it. -/
def stepLeft (s : State leftOp rightOp) : RC × State leftOp rightOp :=
  let next := leftNext s
  if next.1 ≠ .success then next else rightNext next.2

/-- `NestedLoopJoinPhysicalOperator::next`. Where `left_need_step` is tested it is always true. -/
def next (s : State leftOp rightOp) : RC × State leftOp rightOp :=
  if s.roundDone then stepLeft s
  else
    let right := rightNext s
    if right.1 ≠ .success then
      if right.1 = .recordEof then stepLeft right.2 else right
    else right

/-- `NestedLoopJoinPhysicalOperator::close`. -/
def close (s : State leftOp rightOp) : RC × State leftOp rightOp :=
  let left := leftOp.close s.left
  if s.rightClosed then (left.1, { s with left := left.2 })
  else
    let right := rightOp.close s.right
    (right.1, { s with left := left.2, right := right.2, rightClosed := decide (right.1 = .success) })

end NestedLoopJoin

/-- `NestedLoopJoinPhysicalOperator` over its two children. -/
def nestedLoopJoin {L R : Type} (leftOp : PhysicalOperator L) (rightOp : PhysicalOperator R) :
    PhysicalOperator (JoinedTuple L R) where
  State := NestedLoopJoin.State leftOp rightOp
  open_ := NestedLoopJoin.open_
  next := NestedLoopJoin.next
  close := NestedLoopJoin.close
  currentTuple s := some s.joinedTuple

/-- The pairs of two sequences in lexicographic order. -/
def pairs {L R : Type} (ls : List L) (rs : List R) : List (JoinedTuple L R) :=
  ls.flatMap fun l => rs.map fun r => ⟨some l, some r⟩

namespace NestedLoopJoin

variable {L R : Type} {leftOp : PhysicalOperator L} {rightOp : PhysicalOperator R}

/-! ## The places of a session -/

section Places

variable (ls : List L) (rs : List R) (closedL : leftOp.State → Prop) (aheadL : leftOp.State → List L → Prop)
  (endedL : leftOp.State → Prop) (closedR : rightOp.State → Prop) (aheadR : rightOp.State → List R → Prop)
  (endedR : rightOp.State → Prop)

/-- The right child, when it is not in the middle of a round. -/
def RightIdle (s : State leftOp rightOp) : Prop :=
  if s.rightClosed then closedR s.right else endedR s.right

/-- Both children closed. -/
def Closed (s : State leftOp rightOp) : Prop := closedL s.left ∧ closedR s.right

/-- Either a round is running for the left tuple `l`, or the next round is still to start. -/
def Ahead (s : State leftOp rightOp) (rest : List (JoinedTuple L R)) : Prop :=
  (∃ l lrest rrest, s.roundDone = false ∧ s.rightClosed = false ∧ s.joinedTuple.left = some l ∧ aheadL s.left lrest ∧
    aheadR s.right rrest ∧ rest = (rrest.map fun r => ⟨some l, some r⟩) ++ pairs lrest rs) ∨
  (s.roundDone = true ∧ RightIdle closedR endedR s ∧ ∃ lrest, aheadL s.left lrest ∧ rest = pairs lrest rs)

/-- The left child has come to its end, or the right one has no tuples at all. -/
def Ended (s : State leftOp rightOp) : Prop :=
  RightIdle closedR endedR s ∧ (endedL s.left ∨ ∃ lrest, aheadL s.left lrest)

/-- What `next` does when the tuples of `rest` are to come. -/
def Steps (rest : List (JoinedTuple L R)) (out : RC × State leftOp rightOp) : Prop :=
  (rest = [] → out.1 = .recordEof ∧ Ended aheadL endedL closedR endedR out.2) ∧
  ∀ t tail, rest = t :: tail →
    out.1 = .success ∧ out.2.joinedTuple = t ∧ Ahead rs aheadL closedR aheadR endedR out.2 tail

end Places

variable {ls : List L} {rs : List R} {closedL : leftOp.State → Prop} {aheadL : leftOp.State → List L → Prop}
  {endedL : leftOp.State → Prop} {closedR : rightOp.State → Prop} {aheadR : rightOp.State → List R → Prop}
  {endedR : rightOp.State → Prop} {s : State leftOp rightOp}

theorem RightIdle.closeable (h : RightIdle closedR endedR s) :
    if s.rightClosed then closedR s.right else (∃ rrest, aheadR s.right rrest) ∨ endedR s.right := by
  unfold RightIdle at h
  split
  · rwa [if_pos ‹_›] at h
  · rw [if_neg ‹_›] at h
    exact Or.inr h

/-! ## The right child -/

section Right

variable (hright : rightOp.Replay rs closedR aheadR endedR)
include hright

/-- In the middle of a round. -/
theorem advanceRight_cons {r : R} {rrest : List R} (hs : aheadR s.right (r :: rrest)) :
    ∃ right, aheadR right rrest ∧ advanceRight s =
      (.success, { s with right := right, rightTuple := some r, joinedTuple := { s.joinedTuple with right := some r } }) := by
  obtain ⟨hrc, htuple, hahead⟩ := hright.next_cons s.right r rrest hs
  refine ⟨_, hahead, ?_⟩
  simp only [advanceRight, hrc, htuple, ne_eq, not_true_eq_false, if_false]

/-- At the end of a round. -/
theorem advanceRight_nil (hs : aheadR s.right []) :
    ∃ right, endedR right ∧ advanceRight s = (.recordEof, { s with right := right, roundDone := true }) := by
  obtain ⟨hrc, hended⟩ := hright.next_nil s.right hs
  refine ⟨_, hended, ?_⟩
  simp [advanceRight, hrc]

theorem startRound_eq (hs : RightIdle closedR endedR s) :
    ∃ right, aheadR right rs ∧
      startRound s = (.success, { s with right := right, rightClosed := false, roundDone := false }) := by
  unfold RightIdle at hs
  cases hclosed : s.rightClosed with
  | true =>
    rw [hclosed, if_pos rfl] at hs
    obtain ⟨hrc, hahead⟩ := hright.open_ s.right hs
    exact ⟨_, hahead, by simp [startRound, hclosed, hrc]⟩
  | false =>
    rw [hclosed, if_neg Bool.false_ne_true] at hs
    obtain ⟨hclose, hidle⟩ := hright.close_ended s.right hs
    obtain ⟨hrc, hahead⟩ := hright.open_ _ hidle
    exact ⟨_, hahead, by simp [startRound, hclosed, hclose, hrc]⟩

end Right

/-! ## The left child -/

section Left

variable (hleft : leftOp.Replay ls closedL aheadL endedL)
include hleft

theorem leftNext_cons {l : L} {lrest : List L} (hs : aheadL s.left (l :: lrest)) :
    ∃ left, aheadL left lrest ∧ leftNext s =
      (.success, { s with left := left, leftTuple := some l, joinedTuple := { s.joinedTuple with left := some l } }) := by
  obtain ⟨hrc, htuple, hahead⟩ := hleft.next_cons s.left l lrest hs
  refine ⟨_, hahead, ?_⟩
  simp only [leftNext, hrc, htuple, ne_eq, not_true_eq_false, if_false]

theorem leftNext_nil (hs : aheadL s.left []) :
    ∃ left, endedL left ∧ leftNext s = (.recordEof, { s with left := left }) := by
  obtain ⟨hrc, hended⟩ := hleft.next_nil s.left hs
  refine ⟨_, hended, ?_⟩
  simp [leftNext, hrc]

end Left

/-! ## The join -/

variable (hleft : leftOp.Replay ls closedL aheadL endedL) (hright : rightOp.Replay rs closedR aheadR endedR)
include hleft hright

/-- Between two rounds the left child steps: to its end, to a round without tuples, or to the first pair of a round. -/
theorem stepLeft_steps {lrest : List L} (hdone : s.roundDone = true) (hidle : RightIdle closedR endedR s)
    (hs : aheadL s.left lrest) :
    Steps rs aheadL endedL closedR aheadR endedR (pairs lrest rs) (stepLeft s) := by
  cases lrest with
  | nil =>
    obtain ⟨left, hended, heq⟩ := leftNext_nil hleft hs
    have hstep : stepLeft s = (.recordEof, { s with left := left }) := by
      simp [stepLeft, heq]
    rw [hstep]
    exact ⟨fun _ => ⟨rfl, hidle, Or.inl hended⟩, fun t tail h => by cases h⟩
  | cons l lrest =>
    obtain ⟨left, hahead, heq⟩ := leftNext_cons hleft hs
    -- the state in which the round starts
    let s1 : State leftOp rightOp :=
      { s with left := left, leftTuple := some l, joinedTuple := { s.joinedTuple with left := some l } }
    obtain ⟨right, haheadR, hstart⟩ := startRound_eq (s := s1) hright hidle
    let s2 : State leftOp rightOp := { s1 with right := right, rightClosed := false, roundDone := false }
    have hstep : stepLeft s = advanceRight s2 := by
      have hdone1 : s1.roundDone = true := hdone
      simp only [stepLeft, heq, ne_eq, not_true_eq_false, if_false]
      rw [rightNext, if_pos hdone1, hstart]
      rfl
    rw [hstep]
    cases hrs : rs with
    | nil =>
      obtain ⟨right', hended, hadvance⟩ := advanceRight_nil (s := s2) hright (hrs ▸ haheadR)
      have hpairs : pairs (l :: lrest) ([] : List R) = [] := by simp [pairs]
      rw [hadvance, hpairs]
      exact ⟨fun _ => ⟨rfl, hended, Or.inr ⟨lrest, hahead⟩⟩, fun t tail h => by cases h⟩
    | cons r rrest =>
      obtain ⟨right', haheadR', hadvance⟩ := advanceRight_cons (s := s2) hright (hrs ▸ haheadR)
      rw [hadvance, ← hrs]
      refine ⟨fun h => by simp [pairs, hrs] at h, fun t tail h => ?_⟩
      have hpairs : pairs (l :: lrest) rs =
          ⟨some l, some r⟩ :: ((rrest.map fun r => ⟨some l, some r⟩) ++ pairs lrest rs) := by
        simp [pairs, hrs]
      obtain ⟨rfl, rfl⟩ := List.cons.inj (hpairs.symm.trans h)
      exact ⟨rfl, rfl, Or.inl ⟨l, lrest, rrest, rfl, rfl, rfl, hahead, haheadR', rfl⟩⟩

theorem next_steps {rest : List (JoinedTuple L R)} (hs : Ahead rs aheadL closedR aheadR endedR s rest) :
    Steps rs aheadL endedL closedR aheadR endedR rest (next s) := by
  rcases hs with ⟨l, lrest, rrest, hdone, hclosed, hjoined, hahead, haheadR, rfl⟩ | ⟨hdone, hidle, lrest, hahead, rfl⟩
  · have hrunning : ¬s.roundDone = true := by
      rw [hdone]
      exact Bool.false_ne_true
    have hnext : rightNext s = advanceRight s := by rw [rightNext, if_neg hrunning]
    cases rrest with
    | nil =>
      obtain ⟨right, hended, hadvance⟩ := advanceRight_nil hright haheadR
      have heq : next s = stepLeft { s with right := right, roundDone := true } := by
        rw [next, if_neg hrunning, hnext, hadvance]
        rfl
      have hidle : RightIdle closedR endedR { s with right := right, roundDone := true } := by
        simp only [RightIdle, hclosed]
        exact hended
      rw [heq]
      exact stepLeft_steps hleft hright rfl hidle hahead
    | cons r rrest =>
      obtain ⟨right, haheadR', hadvance⟩ := advanceRight_cons hright haheadR
      have heq : next s = (.success,
          { s with right := right, rightTuple := some r, joinedTuple := { s.joinedTuple with right := some r } }) := by
        rw [next, if_neg hrunning, hnext, hadvance]
        rfl
      rw [heq]
      refine ⟨fun h => (by cases h), fun t tail h => ?_⟩
      obtain ⟨rfl, rfl⟩ := List.cons.inj h
      refine ⟨rfl, by simp [hjoined], Or.inl ⟨l, lrest, rrest, hdone, hclosed, hjoined, hahead, haheadR', rfl⟩⟩
  · have heq : next s = stepLeft s := by rw [next, hdone, if_pos rfl]
    rw [heq]
    exact stepLeft_steps hleft hright hdone hidle hahead

/-- Closing a join closes the left child, and the right one if it is open. -/
theorem close_closed (hl : (∃ lrest, aheadL s.left lrest) ∨ endedL s.left)
    (hr : if s.rightClosed then closedR s.right else (∃ rrest, aheadR s.right rrest) ∨ endedR s.right) :
    (close s).1 = .success ∧ Closed closedL closedR (close s).2 := by
  have hcloseL : (leftOp.close s.left).1 = .success ∧ closedL (leftOp.close s.left).2 := by
    rcases hl with ⟨lrest, hl⟩ | hl
    · exact hleft.close_ahead s.left lrest hl
    · exact hleft.close_ended s.left hl
  cases hclosed : s.rightClosed with
  | true =>
    rw [hclosed, if_pos rfl] at hr
    simp only [close, hclosed, if_true]
    exact ⟨hcloseL.1, hcloseL.2, hr⟩
  | false =>
    rw [hclosed, if_neg Bool.false_ne_true] at hr
    have hcloseR : (rightOp.close s.right).1 = .success ∧ closedR (rightOp.close s.right).2 := by
      rcases hr with ⟨rrest, hr⟩ | hr
      · exact hright.close_ahead s.right rrest hr
      · exact hright.close_ended s.right hr
    simp only [close, hclosed, Bool.false_eq_true, if_false]
    exact ⟨hcloseR.1, hcloseL.2, hcloseR.2⟩

theorem replay : (nestedLoopJoin leftOp rightOp).Replay (pairs ls rs) (Closed closedL closedR)
    (Ahead rs aheadL closedR aheadR endedR) (Ended aheadL endedL closedR endedR) where
  open_ s hs := by
    obtain ⟨hrc, hahead⟩ := hleft.open_ s.left hs.1
    exact ⟨hrc, Or.inr ⟨rfl, hs.2, ls, hahead, rfl⟩⟩
  next_cons s t rest hs := by
    obtain ⟨hrc, htuple, hahead⟩ := (next_steps hleft hright hs).2 t rest rfl
    exact ⟨hrc, congrArg some htuple, hahead⟩
  next_nil s hs := (next_steps hleft hright hs).1 rfl
  close_ahead s rest hs := by
    rcases hs with ⟨l, lrest, rrest, -, hclosed, -, hahead, haheadR, -⟩ | ⟨-, hidle, lrest, hahead, -⟩
    · refine close_closed hleft hright (Or.inl ⟨lrest, hahead⟩) ?_
      rw [hclosed, if_neg Bool.false_ne_true]
      exact Or.inl ⟨rrest, haheadR⟩
    · exact close_closed hleft hright (Or.inl ⟨lrest, hahead⟩) hidle.closeable
  close_ended s hs := close_closed hleft hright hs.2.symm hs.1.closeable

end NestedLoopJoin

/-! ## The join replays the pairs -/

theorem nestedLoopJoin_replays {L R : Type} {leftOp : PhysicalOperator L} {rightOp : PhysicalOperator R}
    {left : leftOp.State} {right : rightOp.State} {ls : List L} {rs : List R} (hleft : leftOp.Replays left ls)
    (hright : rightOp.Replays right rs) :
    (Sql.nestedLoopJoin leftOp rightOp).Replays (NestedLoopJoin.initial left right) (pairs ls rs) :=
  (NestedLoopJoin.replay (Replays.replay ls) (Replays.replay rs)).replays ⟨hleft, hright⟩

/-- A join whose right child is a join. -/
theorem nestedLoopJoin_replays_values :
    (Sql.nestedLoopJoin (valuesOperator [1, 2]) (Sql.nestedLoopJoin (valuesOperator [3]) (valuesOperator [4, 5]))).Replays
      (NestedLoopJoin.initial ⟨[], none⟩ (NestedLoopJoin.initial ⟨[], none⟩ ⟨[], none⟩)) (pairs [1, 2] (pairs [3] [4, 5])) :=
  nestedLoopJoin_replays ((valuesOperator_replay _).replays trivial)
    (nestedLoopJoin_replays ((valuesOperator_replay _).replays trivial) ((valuesOperator_replay _).replays trivial))

end Landbase.Sql
