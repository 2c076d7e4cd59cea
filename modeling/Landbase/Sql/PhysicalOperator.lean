import Mathlib.Tactic
import Landbase.Common.Basic

/-! # Physical operators

`PhysicalOperator` of `sql/operator/physical_operator.h`: an operator is opened, asked for tuples until it answers
`RECORD_EOF`, and closed; a parent may close it early, and may open it again.

An operator *replays* a sequence of tuples when every history of such sessions, however early each of them is broken
off, shows this sequence (`Replays`). `Replay` is the same by invariants, one for each place of a session that an
operator can be in, and the two agree (`Replay.replays`, `Replays.replay`).
-/

namespace Landbase.Sql
set_option autoImplicit false

/-- `PhysicalOperator`. The tuple of `current_tuple` is a pointer, which can be null. -/
structure PhysicalOperator (T : Type) where
  State : Type
  open_ : State → RC × State
  next : State → RC × State
  close : State → RC × State
  currentTuple : State → Option T

namespace PhysicalOperator

variable {T : Type} (op : PhysicalOperator T)

/-! ## Sessions -/

/-- One call of `next`, and the tuple behind it if there is one. -/
def answer (s : op.State) : RC × Option T :=
  ((op.next s).1, if (op.next s).1 = .success then op.currentTuple (op.next s).2 else none)

/-- A number of calls of `next`. -/
def answers : ℕ → op.State → List (RC × Option T)
  | 0, _ => []
  | n + 1, s => op.answer s :: answers n (op.next s).2

/-- The state behind them. -/
def afterNexts : ℕ → op.State → op.State
  | 0, s => s
  | n + 1, s => afterNexts n (op.next s).2

/-- What a caller sees from `open` to `close`. -/
structure Session (T : Type) where
  opened : RC
  answers : List (RC × Option T)
  closed : RC

/-- A session with `n` calls of `next`. -/
def session (n : ℕ) (s : op.State) : Session T :=
  ⟨(op.open_ s).1, op.answers n (op.open_ s).2, (op.close (op.afterNexts n (op.open_ s).2)).1⟩

def afterSession (n : ℕ) (s : op.State) : op.State := (op.close (op.afterNexts n (op.open_ s).2)).2

/-- One session after the other. -/
def sessions : List ℕ → op.State → List (Session T)
  | [], _ => []
  | n :: ns, s => op.session n s :: sessions ns (op.afterSession n s)

/-- The answers of an operator that runs through the tuples. -/
def allAnswers (tuples : List T) : List (RC × Option T) :=
  tuples.map (fun t => (RC.success, some t)) ++ [(.recordEof, none)]

/-- From `s` on, every session shows the tuples in order and then `RECORD_EOF`, as far as it is asked. -/
def Replays (s : op.State) (tuples : List T) : Prop :=
  ∀ ns : List ℕ, (∀ n ∈ ns, n ≤ tuples.length + 1) →
    op.sessions ns s = ns.map fun n => ⟨.success, (allAnswers tuples).take n, .success⟩

/-- The same by invariants: `closed` between two sessions, `ahead` with the tuples still to come, `ended` behind
`RECORD_EOF`. -/
structure Replay (tuples : List T) (closed : op.State → Prop) (ahead : op.State → List T → Prop)
    (ended : op.State → Prop) : Prop where
  open_ : ∀ s, closed s → (op.open_ s).1 = .success ∧ ahead (op.open_ s).2 tuples
  next_cons : ∀ s t rest, ahead s (t :: rest) →
    (op.next s).1 = .success ∧ op.currentTuple (op.next s).2 = some t ∧ ahead (op.next s).2 rest
  next_nil : ∀ s, ahead s [] → (op.next s).1 = .recordEof ∧ ended (op.next s).2
  close_ahead : ∀ s rest, ahead s rest → (op.close s).1 = .success ∧ closed (op.close s).2
  close_ended : ∀ s, ended s → (op.close s).1 = .success ∧ closed (op.close s).2

variable {op} {tuples : List T}

/-! ## From invariants to sessions -/

namespace Replay

variable {closed : op.State → Prop} {ahead : op.State → List T → Prop} {ended : op.State → Prop}
  (h : op.Replay tuples closed ahead ended)
include h

theorem answers_eq {s : op.State} {rest : List T} (hs : ahead s rest) {n : ℕ} (hn : n ≤ rest.length + 1) :
    op.answers n s = (allAnswers rest).take n := by
  induction n generalizing s rest with
  | zero => rfl
  | succ n ih =>
    cases rest with
    | nil =>
      have hn0 : n = 0 := by
        rw [List.length_nil] at hn
        omega
      obtain ⟨hrc, -⟩ := h.next_nil s hs
      rw [hn0, answers, answer, hrc]
      rfl
    | cons t rest =>
      obtain ⟨hrc, htuple, hrest⟩ := h.next_cons s t rest hs
      rw [answers, answer, hrc, htuple, ih hrest (by rw [List.length_cons] at hn; omega)]
      rfl

theorem close_afterNexts {s : op.State} {rest : List T} (hs : ahead s rest) {n : ℕ} (hn : n ≤ rest.length + 1) :
    (op.close (op.afterNexts n s)).1 = .success ∧ closed (op.close (op.afterNexts n s)).2 := by
  induction n generalizing s rest with
  | zero => exact h.close_ahead s rest hs
  | succ n ih =>
    cases rest with
    | nil =>
      have hn0 : n = 0 := by
        rw [List.length_nil] at hn
        omega
      rw [hn0]
      exact h.close_ended _ (h.next_nil s hs).2
    | cons t rest =>
      rw [afterNexts]
      exact ih (h.next_cons s t rest hs).2.2 (by rw [List.length_cons] at hn; omega)

theorem replays {s : op.State} (hs : closed s) : op.Replays s tuples := by
  intro ns hns
  induction ns generalizing s with
  | nil => rfl
  | cons n ns ih =>
    have hn := hns n (by simp)
    obtain ⟨hopen, hahead⟩ := h.open_ s hs
    obtain ⟨hclose, hclosed⟩ := h.close_afterNexts hahead hn
    rw [sessions, session, hopen, h.answers_eq hahead hn, hclose, List.map_cons]
    exact congrArg _ (ih hclosed fun m hm => hns m (by simp [hm]))

end Replay

/-! ## From sessions to invariants -/

theorem afterNexts_succ (n : ℕ) (s : op.State) : op.afterNexts (n + 1) s = (op.next (op.afterNexts n s)).2 := by
  induction n generalizing s with
  | zero => rfl
  | succ n ih => exact ih _

theorem answers_succ (n : ℕ) (s : op.State) :
    op.answers (n + 1) s = op.answers n s ++ [op.answer (op.afterNexts n s)] := by
  induction n generalizing s with
  | zero => rfl
  | succ n ih =>
    rw [answers, ih]
    rfl

namespace Replays

variable {s : op.State} (h : op.Replays s tuples)
include h

theorem session {n : ℕ} (hn : n ≤ tuples.length + 1) :
    op.session n s = ⟨.success, (allAnswers tuples).take n, .success⟩ := by
  have hsessions := h [n] (by simpa using hn)
  rw [sessions, sessions, List.map_singleton] at hsessions
  exact (List.cons.inj hsessions).1

theorem afterSession {n : ℕ} (hn : n ≤ tuples.length + 1) : op.Replays (op.afterSession n s) tuples := by
  intro ns hns
  have hsessions := h (n :: ns) (List.forall_mem_cons.mpr ⟨hn, hns⟩)
  rw [sessions, List.map_cons] at hsessions
  exact (List.cons.inj hsessions).2

theorem answer_eq {k : ℕ} (hk : k ≤ tuples.length) {a : RC × Option T} (ha : (allAnswers tuples)[k]? = some a) :
    op.answer (op.afterNexts k (op.open_ s).2) = a := by
  have hlong := congrArg Session.answers (h.session (n := k + 1) (by omega))
  have hshort := congrArg Session.answers (h.session (n := k) (by omega))
  simp only [PhysicalOperator.session] at hlong hshort
  rw [answers_succ, hshort, List.take_add_one, ha] at hlong
  exact List.head_eq_of_cons_eq (List.append_cancel_left hlong)

end Replays

/-- An operator that replays is, at every moment, in one of the three places of a session. -/
theorem Replays.replay (tuples : List T) : op.Replay tuples (fun s => op.Replays s tuples)
    (fun s rest => ∃ s0 k, op.Replays s0 tuples ∧ k ≤ tuples.length ∧ s = op.afterNexts k (op.open_ s0).2 ∧
      rest = tuples.drop k)
    (fun s => ∃ s0, op.Replays s0 tuples ∧ s = op.afterNexts (tuples.length + 1) (op.open_ s0).2) := by
  constructor
  · intro s hs
    exact ⟨congrArg Session.opened (hs.session (Nat.zero_le _)), s, 0, hs, Nat.zero_le _, rfl, rfl⟩
  · rintro s t rest ⟨s0, k, hs0, hk, rfl, hrest⟩
    have hget : tuples[k]? = some t := by
      rw [← List.head?_drop, ← hrest]
      rfl
    obtain ⟨hlt, -⟩ := List.getElem?_eq_some_iff.mp hget
    have ha : (allAnswers tuples)[k]? = some (.success, some t) := by
      rw [allAnswers, List.getElem?_append_left (by simpa using hlt), List.getElem?_map, hget]
      rfl
    have hanswer := hs0.answer_eq hk ha
    have hrc : (op.next (op.afterNexts k (op.open_ s0).2)).1 = .success := congrArg Prod.fst hanswer
    have htuple := congrArg Prod.snd hanswer
    rw [answer, if_pos hrc] at htuple
    refine ⟨hrc, htuple, s0, k + 1, hs0, hlt, (afterNexts_succ k _).symm, ?_⟩
    rw [← List.drop_drop, List.drop_one, ← hrest]
    rfl
  · rintro s ⟨s0, k, hs0, hk, rfl, hrest⟩
    have hlength : k = tuples.length := le_antisymm hk (List.drop_eq_nil_iff.mp hrest.symm)
    subst hlength
    have ha : (allAnswers tuples)[tuples.length]? = some (.recordEof, none) := by
      rw [allAnswers, List.getElem?_append_right (by simp), List.length_map, Nat.sub_self]
      rfl
    exact ⟨congrArg Prod.fst (hs0.answer_eq hk ha), s0, hs0, (afterNexts_succ _ _).symm⟩
  · rintro s rest ⟨s0, k, hs0, hk, rfl, -⟩
    exact ⟨congrArg Session.closed (hs0.session (n := k) (by omega)), hs0.afterSession (n := k) (by omega)⟩
  · rintro s ⟨s0, hs0, rfl⟩
    exact ⟨congrArg Session.closed (hs0.session (le_refl _)), hs0.afterSession (le_refl _)⟩

/-! ## Executions that run to the end -/

/-- From a state on, `next` yields the tuples and then fails with `rc`. -/
inductive Fetches (op : PhysicalOperator T) : op.State → List T → RC → op.State → Prop
  | stop {s : op.State} (hrc : (op.next s).1 ≠ .success) : Fetches op s [] (op.next s).1 (op.next s).2
  | more {s s' : op.State} {t : T} {ts : List T} {rc : RC} (hrc : (op.next s).1 = .success)
      (htuple : op.currentTuple (op.next s).2 = some t) (hrest : Fetches op (op.next s).2 ts rc s') :
      Fetches op s (t :: ts) rc s'

/-- One execution after the other, each with its tuples and with what `next` answers behind them. -/
inductive Executes (op : PhysicalOperator T) : op.State → List (List T × RC) → Prop
  | nil (s : op.State) : Executes op s []
  | cons {s s' : op.State} {ts : List T} {rc : RC} {rest : List (List T × RC)} (hopen : (op.open_ s).1 = .success)
      (hfetches : Fetches op (op.open_ s).2 ts rc s') (hclose : (op.close s').1 = .success)
      (hrest : Executes op (op.close s').2 rest) : Executes op s ((ts, rc) :: rest)

theorem Fetches.nil_inv {s s' : op.State} {rc : RC} (h : op.Fetches s [] rc s') :
    (op.next s).1 = rc ∧ (op.next s).2 = s' ∧ rc ≠ .success := by
  cases h with
  | stop hrc => exact ⟨rfl, rfl, hrc⟩

theorem Fetches.cons_inv {s s' : op.State} {t : T} {ts : List T} {rc : RC} (h : op.Fetches s (t :: ts) rc s') :
    (op.next s).1 = .success ∧ op.currentTuple (op.next s).2 = some t ∧ op.Fetches (op.next s).2 ts rc s' := by
  cases h with
  | more hrc htuple hrest => exact ⟨hrc, htuple, hrest⟩

theorem Executes.cons_inv {s : op.State} {ts : List T} {rc : RC} {rest : List (List T × RC)}
    (h : op.Executes s ((ts, rc) :: rest)) : ∃ s', (op.open_ s).1 = .success ∧ op.Fetches (op.open_ s).2 ts rc s' ∧
      (op.close s').1 = .success ∧ op.Executes (op.close s').2 rest := by
  cases h with
  | cons hopen hfetches hclose hrest => exact ⟨_, hopen, hfetches, hclose, hrest⟩

/-- What a replaying operator shows in one execution. -/
theorem Replay.fetches {closed : op.State → Prop} {ahead : op.State → List T → Prop} {ended : op.State → Prop}
    (h : op.Replay tuples closed ahead ended) {s : op.State} {rest : List T} (hs : ahead s rest) :
    ∃ s', op.Fetches s rest .recordEof s' ∧ ended s' := by
  induction rest generalizing s with
  | nil =>
    obtain ⟨hrc, hended⟩ := h.next_nil s hs
    exact ⟨_, hrc ▸ Fetches.stop (by rw [hrc]; decide), hended⟩
  | cons t rest ih =>
    obtain ⟨hrc, htuple, hrest⟩ := h.next_cons s t rest hs
    obtain ⟨s', hfetches, hended⟩ := ih hrest
    exact ⟨s', .more hrc htuple hfetches, hended⟩

theorem Replay.executes {closed : op.State → Prop} {ahead : op.State → List T → Prop} {ended : op.State → Prop}
    (h : op.Replay tuples closed ahead ended) {s : op.State} (hs : closed s) (n : ℕ) :
    op.Executes s (List.replicate n (tuples, .recordEof)) := by
  induction n generalizing s with
  | zero => exact .nil s
  | succ n ih =>
    obtain ⟨hopen, hahead⟩ := h.open_ s hs
    obtain ⟨s', hfetches, hended⟩ := h.fetches hahead
    obtain ⟨hclose, hclosed⟩ := h.close_ended s' hended
    exact .cons hopen hfetches hclose (ih hclosed)

end PhysicalOperator

/-! ## Operators that run through their child

Such an operator has a loop in `next`. Its model takes fuel for it; with too little of it, and where the code has no
defined behaviour, there is no result. -/

/-- A physical operator with a loop in `next`. -/
structure LoopingOperator (T : Type) where
  State : Type
  open_ : State → RC × State
  next : ℕ → State → Option (RC × State)
  close : State → RC × State
  currentTuple : State → Option T

/-- What a caller sees of an execution: the tuples behind each `SUCCESS`, and the answer that ends it. -/
structure Execution (T : Type) where
  opened : RC
  tuples : List (Option T)
  final : RC
  closed : RC

namespace LoopingOperator

variable {T : Type} (op : LoopingOperator T)

/-- `next` until it does not answer `SUCCESS`. -/
def drain (fuel : ℕ) : ℕ → op.State → Option (List (Option T) × RC × op.State)
  | 0, _ => none
  | calls + 1, s =>
    (op.next fuel s).bind fun (rc, s') =>
      if rc ≠ .success then some ([], rc, s')
      else (drain fuel calls s').map fun (tuples, final, s'') => (op.currentTuple s' :: tuples, final, s'')

/-- `open`, `next` to the end, `close`. -/
def execute (fuel : ℕ) (s : op.State) : Option (Execution T × op.State) :=
  (op.drain fuel fuel (op.open_ s).2).map fun (tuples, final, s') =>
    (⟨(op.open_ s).1, tuples, final, (op.close s').1⟩, (op.close s').2)

/-- A number of executions. -/
def executions (fuel : ℕ) : ℕ → op.State → Option (List (Execution T))
  | 0, _ => some []
  | n + 1, s => (op.execute fuel s).bind fun (execution, s') =>
    (executions fuel n s').map fun rest => execution :: rest

variable {op} {fuel : ℕ} {s s' : op.State} {rc : RC}

theorem drain_success (h : op.next fuel s = some (.success, s')) (calls : ℕ) : op.drain fuel (calls + 1) s =
    (op.drain fuel calls s').map fun (tuples, final, s'') => (op.currentTuple s' :: tuples, final, s'') := by
  rw [drain, h]
  rfl

theorem drain_stop (h : op.next fuel s = some (rc, s')) (hrc : rc ≠ .success) (calls : ℕ) :
    op.drain fuel (calls + 1) s = some ([], rc, s') := by
  rw [drain, h]
  exact if_pos hrc

theorem drain_none (h : op.next fuel s = none) (calls : ℕ) : op.drain fuel calls s = none := by
  cases calls with
  | zero => rfl
  | succ calls =>
    rw [drain, h]
    rfl

theorem execute_of_drain {tuples : List (Option T)} (h : op.drain fuel fuel (op.open_ s).2 = some (tuples, rc, s')) :
    op.execute fuel s = some (⟨(op.open_ s).1, tuples, rc, (op.close s').1⟩, (op.close s').2) := by
  rw [execute, h]
  rfl

theorem execute_none (h : op.drain fuel fuel (op.open_ s).2 = none) : op.execute fuel s = none := by
  rw [execute, h]
  rfl

theorem executions_succ {execution : Execution T} (h : op.execute fuel s = some (execution, s')) (n : ℕ) :
    op.executions fuel (n + 1) s = (op.executions fuel n s').map fun rest => execution :: rest := by
  rw [executions, h]
  rfl

theorem executions_none (h : op.execute fuel s = none) (n : ℕ) : op.executions fuel (n + 1) s = none := by
  rw [executions, h]
  rfl

end LoopingOperator

/-! ## An operator over given tuples -/

namespace Values

variable {T : Type}

/-- The tuples still to come, and the one that was fetched. -/
structure State (T : Type) where
  rest : List T
  current : Option T

def next : List T → RC × State T
  | [] => (.recordEof, ⟨[], none⟩)
  | t :: rest => (.success, ⟨rest, some t⟩)

end Values

/-- A leaf of a plan: it runs through given tuples. -/
def valuesOperator {T : Type} (tuples : List T) : PhysicalOperator T where
  State := Values.State T
  open_ _ := (.success, ⟨tuples, none⟩)
  next s := Values.next s.rest
  close s := (.success, s)
  currentTuple s := s.current

theorem valuesOperator_replay {T : Type} (tuples : List T) :
    (valuesOperator tuples).Replay tuples (fun _ => True) (fun s rest => s.rest = rest) (fun _ => True) where
  open_ _ _ := ⟨rfl, rfl⟩
  next_cons s t rest hs := by
    show (Values.next s.rest).1 = .success ∧ (Values.next s.rest).2.current = some t ∧ (Values.next s.rest).2.rest = rest
    rw [hs]
    exact ⟨rfl, rfl, rfl⟩
  next_nil s hs := by
    show (Values.next s.rest).1 = .recordEof ∧ True
    rw [hs]
    exact ⟨rfl, trivial⟩
  close_ahead _ _ _ := ⟨rfl, trivial⟩
  close_ended _ _ := ⟨rfl, trivial⟩

end Landbase.Sql
