import Landbase.Sql.PhysicalOperator
import Landbase.Lib.Comparator

/-! # `OrderPhysicalOperator`

The sorting operator of `sql/operator/order_physical_operator.cpp`. The first `next` takes all tuples from the child,
sorts them and puts an iterator at their beginning; the later ones move the iterator.

The first `next` answers `SUCCESS` also when there are no tuples, an error of the child ends the collecting like
`RECORD_EOF`, and neither `close` nor `open` resets `is_inited_`. What is left is one execution over a child that has
tuples and no error (`orderExecutions_iff`).
-/

namespace Landbase.Sql
open PhysicalOperator LoopingOperator Landbase.Lib
set_option autoImplicit false

namespace OrderPhysicalOperator

variable {T : Type} {child : PhysicalOperator T}

/-- The members that change, and the state of the child. The iterator is an index. -/
structure State (child : PhysicalOperator T) where
  child : child.State
  isInited : Bool
  orderedTuples : List T
  iterator : ℕ

/-- A new operator. -/
def initial (s : child.State) : State child := ⟨s, false, [], 0⟩

/-- The loop of `initialize`: the result code, `ordered_tuples_` and the child behind it. -/
def collect : ℕ → child.State → List T → Option (RC × List T × child.State)
  | 0, _, _ => none
  | fuel + 1, s, tuples =>
    if (child.next s).1 ≠ .success then some (.success, tuples, (child.next s).2)
    else (child.currentTuple (child.next s).2).elim (some (.internal, tuples, (child.next s).2))
      fun tuple => collect fuel (child.next s).2 (tuples ++ [tuple])

variable (sort : (T → T → Bool) → List T → List T) (comprule : T → T → Bool)

/-- `OrderPhysicalOperator::initialize`. -/
def initializeTuples (fuel : ℕ) (s : State child) : Option (RC × State child) :=
  (collect fuel s.child s.orderedTuples).map fun (rc, tuples, childState) =>
    if rc ≠ .success then (rc, { s with child := childState, orderedTuples := tuples })
    else (.success, ⟨childState, true, sort comprule tuples, 0⟩)

/-- `OrderPhysicalOperator::open`, with the one child that the plan gives it. -/
def open_ (s : State child) : RC × State child :=
  ((child.open_ s.child).1, { s with child := (child.open_ s.child).2 })

/-- `OrderPhysicalOperator::next`. It has no result when the iterator is moved from behind the last tuple. -/
def next (fuel : ℕ) (s : State child) : Option (RC × State child) :=
  if ¬s.isInited then initializeTuples sort comprule fuel s
  else if s.orderedTuples.isEmpty then some (.recordEof, s)
  else if s.iterator = s.orderedTuples.length then none
  else some (if s.iterator + 1 = s.orderedTuples.length then .recordEof else .success,
    { s with iterator := s.iterator + 1 })

/-- `OrderPhysicalOperator::close`. -/
def close (s : State child) : RC × State child :=
  ((child.close s.child).1, { s with child := (child.close s.child).2 })

/-- `OrderPhysicalOperator::current_tuple`. -/
def currentTuple (s : State child) : Option T := if s.orderedTuples.isEmpty then none else s.orderedTuples[s.iterator]?

/-- The operator with its three calls. -/
abbrev operator (child : PhysicalOperator T) : LoopingOperator T where
  State := State child
  open_ := open_
  next := next sort comprule
  close := close
  currentTuple := currentTuple

/-- An execution over a child that yields `tuples` and then answers `rc`: the tuples in order, or an error. -/
def Right (tuples : List T) (rc : RC) (execution : Execution T) : Prop :=
  execution.opened = .success ∧ execution.closed = .success ∧
  if rc = .recordEof then
    execution.final = .recordEof ∧ ∃ sorted : List T, sorted.Perm tuples ∧
      sorted.Pairwise (fun a b => ¬comprule b a) ∧ execution.tuples = sorted.map some
  else execution.final ≠ .recordEof

variable (child) in
/-- All executions end, and are right. -/
def ExecutionsRight (s : child.State) (cycles : List (List T × RC)) : Prop :=
  ∃ fuel shown, (operator sort comprule child).executions fuel cycles.length (initial s) = some shown ∧
    List.Forall₂ (fun cycle execution => Right comprule cycle.1 cycle.2 execution) cycles shown

/-! ## Collecting -/

theorem collect_eq {s s' : child.State} {ts : List T} {rc : RC} (h : child.Fetches s ts rc s') (tuples : List T)
    (fuel : ℕ) : collect fuel s tuples = if ts.length < fuel then some (.success, tuples ++ ts, s') else none := by
  induction h generalizing tuples fuel with
  | stop hrc =>
    cases fuel with
    | zero => rfl
    | succ fuel => simp [collect, hrc]
  | more hrc htuple _ ih =>
    cases fuel with
    | zero => rfl
    | succ fuel =>
      simp only [collect, hrc, ne_eq, not_true_eq_false, if_false, htuple, Option.elim_some, ih, List.append_assoc,
        List.cons_append, List.nil_append, List.length_cons, Nat.add_lt_add_iff_right]

/-! ## Running through the sorted tuples -/

variable {sort comprule}

theorem next_inited {s : State child} (hinited : s.isInited = true) (hlt : s.iterator < s.orderedTuples.length)
    (fuel : ℕ) : next sort comprule fuel s =
      some (if s.iterator + 1 = s.orderedTuples.length then .recordEof else .success,
        { s with iterator := s.iterator + 1 }) := by
  have hne : s.orderedTuples.isEmpty = false := by
    rw [List.isEmpty_eq_false_iff]
    rintro hnil
    rw [hnil] at hlt
    exact absurd hlt (Nat.not_lt_zero _)
  simp [next, hinited, hne, Nat.ne_of_lt hlt]

theorem drain_inited (fuel calls : ℕ) {s : State child} (hinited : s.isInited = true)
    (hlt : s.iterator < s.orderedTuples.length) : (operator sort comprule child).drain fuel calls s =
      if s.orderedTuples.length - s.iterator ≤ calls then
        some ((s.orderedTuples.drop (s.iterator + 1)).map some, .recordEof,
          { s with iterator := s.orderedTuples.length })
      else none := by
  induction calls generalizing s with
  | zero =>
    rw [if_neg (by omega)]
    rfl
  | succ calls ih =>
    have hnext : next sort comprule fuel s = _ := next_inited hinited hlt fuel
    by_cases hlast : s.iterator + 1 = s.orderedTuples.length
    · rw [if_pos hlast] at hnext
      have hle : s.orderedTuples.length - s.iterator ≤ calls + 1 := by omega
      rw [drain_stop hnext (by decide), if_pos hle, hlast, List.drop_length]
      rfl
    · rw [if_neg hlast] at hnext
      have hlt' : s.iterator + 1 < s.orderedTuples.length := by omega
      have hne : s.orderedTuples.isEmpty = false := by
        rw [List.isEmpty_eq_false_iff]
        rintro hnil
        rw [hnil] at hlt
        exact absurd hlt (Nat.not_lt_zero _)
      have hcons : (s.orderedTuples.drop (s.iterator + 1)).map some =
          currentTuple { s with iterator := s.iterator + 1 } :: (s.orderedTuples.drop (s.iterator + 1 + 1)).map some := by
        rw [List.drop_eq_getElem_cons hlt', List.map_cons]
        simp only [currentTuple, hne, Bool.false_eq_true, if_false, List.getElem?_eq_getElem hlt']
      rw [drain_success hnext, ih (s := { s with iterator := s.iterator + 1 }) hinited hlt', hcons]
      by_cases hle : s.orderedTuples.length - s.iterator ≤ calls + 1
      · have hle' : s.orderedTuples.length - (s.iterator + 1) ≤ calls := by omega
        rw [if_pos hle, if_pos hle']
        rfl
      · have hle' : ¬s.orderedTuples.length - (s.iterator + 1) ≤ calls := by omega
        rw [if_neg hle, if_neg hle']
        rfl

/-! ## The first execution -/

section First

variable {s s' : child.State} {ts : List T} {rc : RC} (hopen : (child.open_ s).1 = .success)
  (hfetches : child.Fetches (child.open_ s).2 ts rc s') (hclose : (child.close s').1 = .success)
  (hperm : (sort comprule ts).Perm ts)

include hfetches in
theorem next_initial (fuel : ℕ) : next sort comprule fuel (open_ (initial s)).2 =
    if ts.length < fuel then some (.success, ⟨s', true, sort comprule ts, 0⟩) else none := by
  have hinited : ¬(open_ (initial s)).2.isInited := Bool.false_ne_true
  rw [next, if_pos hinited]
  simp only [initializeTuples, open_, initial, collect_eq hfetches]
  split <;> rfl

include hfetches hperm in
theorem drain_initial (fuel : ℕ) : (operator sort comprule child).drain fuel fuel (open_ (initial s)).2 =
    if max ts.length 1 < fuel then
      some (if ts = [] then [none] else (sort comprule ts).map some, .recordEof,
        ⟨s', true, sort comprule ts, (sort comprule ts).length⟩)
    else none := by
  have hlength := hperm.length_eq
  have hnext : next sort comprule fuel (open_ (initial s)).2 = _ := next_initial hfetches fuel
  by_cases hfuel : ts.length < fuel
  · rw [if_pos hfuel] at hnext
    obtain ⟨calls, rfl⟩ : ∃ calls, fuel = calls + 1 := ⟨fuel - 1, by omega⟩
    rw [drain_success hnext]
    by_cases hts : ts = []
    · subst hts
      have hsorted : sort comprule ([] : List T) = [] := List.perm_nil.mp hperm
      rw [if_pos rfl, hsorted]
      cases calls with
      | zero => rfl
      | succ calls =>
        have hend : next sort comprule (calls + 1 + 1) (⟨s', true, [], 0⟩ : State child) =
            some (.recordEof, ⟨s', true, [], 0⟩) := rfl
        rw [drain_stop hend (by decide), if_pos (by simp)]
        rfl
    · have hpos : 0 < (sort comprule ts).length := by
        rw [hlength]
        exact List.length_pos_of_ne_nil hts
      have hcurrent : currentTuple (⟨s', true, sort comprule ts, 0⟩ : State child) ::
          ((sort comprule ts).drop (0 + 1)).map some = (sort comprule ts).map some := by
        obtain ⟨x, xs, hxs⟩ := List.exists_cons_of_ne_nil (List.ne_nil_of_length_pos hpos)
        simp [currentTuple, hxs]
      have hle : (sort comprule ts).length - 0 ≤ calls := by omega
      have hmax : max ts.length 1 < calls + 1 := by omega
      rw [drain_inited (s := ⟨s', true, sort comprule ts, 0⟩) _ _ rfl hpos, if_pos hle, if_pos hmax, if_neg hts, ← hcurrent]
      rfl
  · rw [if_neg hfuel] at hnext
    rw [drain_none hnext, if_neg (by omega)]

include hopen hfetches hclose hperm in
/-- Whatever the child ends with, the execution ends with `RECORD_EOF`, and without tuples there is one `SUCCESS`. -/
theorem execute_initial (fuel : ℕ) : (operator sort comprule child).execute fuel (initial s) =
    if max ts.length 1 < fuel then
      some (⟨.success, if ts = [] then [none] else (sort comprule ts).map some, .recordEof, .success⟩,
        ⟨(child.close s').2, true, sort comprule ts, (sort comprule ts).length⟩)
    else none := by
  have hdrain := drain_initial hfetches hperm fuel
  have hopened : (open_ (initial s)).1 = .success := hopen
  have hclosed : (close (⟨s', true, sort comprule ts, (sort comprule ts).length⟩ : State child)).1 = .success := hclose
  by_cases hfuel : max ts.length 1 < fuel
  · rw [if_pos hfuel] at hdrain ⊢
    rw [execute_of_drain hdrain]
    show some ((⟨(open_ (initial s)).1, _, _, (close _).1⟩ : Execution T), _) = _
    rw [hopened, hclosed]
    rfl
  · rw [if_neg hfuel] at hdrain ⊢
    exact execute_none hdrain

include hperm in
/-- In a second execution the iterator is moved from behind the last tuple, which has no result. -/
theorem execute_again (hne : ts ≠ []) (fuel : ℕ) : (operator sort comprule child).execute fuel
    (⟨(child.close s').2, true, sort comprule ts, (sort comprule ts).length⟩ : State child) = none := by
  have hnonempty : (sort comprule ts).isEmpty = false := by
    rw [List.isEmpty_eq_false_iff]
    intro h
    exact hne (List.nil_perm.mp (h ▸ hperm))
  refine execute_none (drain_none ?_ fuel)
  simp [operator, next, open_, hnonempty]

end First

/-! ## When the executions are right -/

section Right

variable {s s' : child.State} {ts : List T} {rc : RC} {rest : List (List T × RC)}

/-- Only an execution over a child with tuples and without an error is right, and no other one may follow. -/
theorem ExecutionsRight.first (hopen : (child.open_ s).1 = .success)
    (hfetches : child.Fetches (child.open_ s).2 ts rc s') (hclose : (child.close s').1 = .success)
    (hperm : (sort comprule ts).Perm ts) (h : ExecutionsRight child sort comprule s ((ts, rc) :: rest)) :
    ts ≠ [] ∧ rc = .recordEof ∧ rest = [] := by
  obtain ⟨fuel, shown, hrun, hright⟩ := h
  have hexecute := execute_initial hopen hfetches hclose hperm fuel
  rw [List.length_cons] at hrun
  by_cases hfuel : max ts.length 1 < fuel
  · rw [if_pos hfuel] at hexecute
    rw [executions_succ hexecute, Option.map_eq_some_iff] at hrun
    obtain ⟨later, hlater, rfl⟩ := hrun
    obtain ⟨⟨-, -, hfirst⟩, -⟩ := List.forall₂_cons.mp hright
    have hrc : rc = .recordEof := by
      by_contra hrc
      rw [if_neg hrc] at hfirst
      exact hfirst rfl
    rw [if_pos hrc] at hfirst
    obtain ⟨-, sorted, hsortedPerm, -, hshown⟩ := hfirst
    have hne : ts ≠ [] := by
      rintro rfl
      rw [List.perm_nil.mp hsortedPerm] at hshown
      cases hshown
    refine ⟨hne, hrc, ?_⟩
    cases rest with
    | nil => rfl
    | cons cycle rest =>
      rw [List.length_cons, executions_none (execute_again hperm hne fuel)] at hlater
      cases hlater
  · rw [if_neg hfuel] at hexecute
    rw [executions_none hexecute] at hrun
    cases hrun

theorem ExecutionsRight.of_single (hopen : (child.open_ s).1 = .success)
    (hfetches : child.Fetches (child.open_ s).2 ts .recordEof s') (hclose : (child.close s').1 = .success)
    (hperm : (sort comprule ts).Perm ts) (hsorted : (sort comprule ts).Pairwise fun a b => ¬comprule b a)
    (hne : ts ≠ []) : ExecutionsRight child sort comprule s [(ts, .recordEof)] := by
  have hexecute := execute_initial hopen hfetches hclose hperm (max ts.length 1 + 1)
  rw [if_pos (Nat.lt_succ_self _), if_neg hne] at hexecute
  refine ⟨max ts.length 1 + 1, [⟨.success, (sort comprule ts).map some, .recordEof, .success⟩], ?_, ?_⟩
  · rw [List.length_singleton, executions_succ hexecute]
    rfl
  · refine .cons ⟨rfl, rfl, ?_⟩ .nil
    rw [if_pos rfl]
    exact ⟨rfl, sort comprule ts, hperm, hsorted, rfl⟩

theorem orderExecutions_iff {cycles : List (List T × RC)} (hchild : child.Executes s cycles)
    (hsort : ∀ ts : List T, StrictWeak comprule (· ∈ ts) →
      (sort comprule ts).Perm ts ∧ (sort comprule ts).Pairwise fun a b => ¬comprule b a)
    (hweak : ∀ cycle ∈ cycles, StrictWeak comprule (· ∈ cycle.1)) :
    ExecutionsRight child sort comprule s cycles ↔ cycles = [] ∨ ∃ ts, ts ≠ [] ∧ cycles = [(ts, .recordEof)] := by
  cases hchild with
  | nil s => exact iff_of_true ⟨0, [], rfl, .nil⟩ (Or.inl rfl)
  | cons hopen hfetches hclose hrest =>
    obtain ⟨hperm, hsorted⟩ := hsort _ (hweak _ (List.mem_cons_self))
    constructor
    · intro h
      obtain ⟨hne, rfl, rfl⟩ := h.first hopen hfetches hclose hperm
      exact Or.inr ⟨_, hne, rfl⟩
    · rintro (h | ⟨ts, hne, h⟩)
      · cases h
      · cases h
        exact ExecutionsRight.of_single hopen hfetches hclose hperm hsorted hne

end Right

/-- Sorting numbers. -/
def numberSort (lt : ℕ → ℕ → Bool) (tuples : List ℕ) : List ℕ := tuples.mergeSort fun a b => !lt b a

theorem orderExecutions_iff_numbers :
    ExecutionsRight (valuesOperator [2, 1, 2]) numberSort (fun a b => decide (a < b)) ⟨[], none⟩
        (List.replicate 2 ([2, 1, 2], .recordEof)) ↔
      List.replicate 2 ([2, 1, 2], RC.recordEof) = [] ∨
        ∃ ts : List ℕ, ts ≠ [] ∧ List.replicate 2 ([2, 1, 2], RC.recordEof) = [(ts, .recordEof)] := by
  have hlt : ∀ ok : ℕ → Prop, StrictWeak (fun a b : ℕ => decide (a < b)) ok := fun _ =>
    ⟨fun _ _ => by simp, fun _ _ _ _ _ _ => by simpa using lt_trans, fun _ _ _ _ _ _ => by
      simp only [decide_eq_true_eq]
      omega⟩
  refine orderExecutions_iff ((valuesOperator_replay _).executes trivial 2) (fun ts _ => ⟨List.mergeSort_perm _ _, ?_⟩)
    (fun _ _ => hlt _)
  have hsorted := @List.pairwise_mergeSort ℕ (fun a b => !decide (b < a)) (fun a b c => by simp; omega)
    (fun a b => by simp; omega) ts
  exact hsorted.imp fun h => by simpa using h

/-- A child without tuples. -/
theorem not_executionsRight_empty :
    ¬ExecutionsRight (valuesOperator []) numberSort (fun a b => decide (a < b)) ⟨[], none⟩
      [([], .recordEof)] := by
  intro h
  have hfetches : (valuesOperator ([] : List ℕ)).Fetches ⟨[], none⟩ [] .recordEof ⟨[], none⟩ := by
    have hrc : ((valuesOperator ([] : List ℕ)).next ⟨[], none⟩).1 ≠ .success := by decide
    exact .stop hrc
  exact (h.first rfl hfetches rfl (List.mergeSort_perm _ _)).1 rfl

end OrderPhysicalOperator

end Landbase.Sql
