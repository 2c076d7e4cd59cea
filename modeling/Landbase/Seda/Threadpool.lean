import Landbase.Lib.Tally
import Landbase.Lib.Transition

/-! # `Stage` and `Threadpool`

Stages with their queues of events, and the thread pools that serve them: `common/seda/stage.cpp` and
`common/seda/thread_pool.cpp`. An event that is added to a connected stage is followed by an entry of the stage in the run queue
of its pool; a thread of the pool takes an entry, then the first event of that stage, and handles it.

Every step is a section under one mutex. `home` is the pool of a thread, `none` for a thread of no pool, and `killer` tells the
`KillThreadStage`s, whose handler ends the thread.
-/

namespace Landbase.Seda
open Relation Lib
set_option autoImplicit false

variable {σ π ε τ : Type*}

/-! ## Stages -/

structure Stage (π ε : Type*) where
  eventList : List ε
  connected : Bool
  eventRef : ℕ
  thPool : Option π

namespace Stage

/-- The section of `add_event`; the stage is to be scheduled if it is connected. -/
def addEvent (stage : Stage π ε) (event : ε) : Stage π ε :=
  { stage with
    eventList := stage.eventList ++ [event]
    eventRef := if stage.connected then stage.eventRef + 1 else stage.eventRef }

/-- `set_pool` and the section of `connect`. -/
def connect (stage : Stage π ε) (pool : π) : Stage π ε :=
  { stage with connected := true, eventRef := stage.eventList.length, thPool := some pool }

def releaseEvent (stage : Stage π ε) : Stage π ε := { stage with eventRef := stage.eventRef - 1 }

end Stage

/-! ## Threads -/

/-- What a thread is in the middle of: nothing, a stage that is to be scheduled once or for all of its backlog, or a
`disconnect` that waits, asleep or not. -/
inductive Call (σ : Type*)
  | idle
  | adding (stage : σ)
  | connecting (stage : σ) (backlog : ℕ)
  | disconnecting (stage : σ) (asleep : Bool)

/-- The stage that the call schedules next, and what is left of the call then. -/
def Call.schedules : Call σ → Option (σ × Call σ)
  | .adding stage => some (stage, .idle)
  | .connecting stage (backlog + 1) => some (stage, .connecting stage backlog)
  | _ => none

/-- Where a thread is: not there, in the loop of `run_thread` and about to lock the run queue, asleep on `run_cond_` or woken
from it, with a stage whose event it has not removed yet, or busy: with an event, or with none if it is a thread of no pool. -/
inductive Place (σ ε : Type*)
  | gone
  | loop
  | asleep
  | woken
  | took (stage : σ)
  | busy (event : Option (σ × ε)) (call : Call σ)

structure Threadpool (σ : Type*) where
  runQueue : List σ
  nIdles : ℕ

/-- All of the stages, pools and threads, and for each stage the events that were added to it and taken from it so far. -/
structure State (σ π ε τ : Type*) where
  stage : σ → Stage π ε
  pool : π → Threadpool σ
  place : τ → Place σ ε
  added : σ → List ε
  removed : σ → List ε

section
variable [DecidableEq σ] [DecidableEq π] [DecidableEq τ]

namespace State

def setStage (st : State σ π ε τ) (s : σ) (stage : Stage π ε) : State σ π ε τ :=
  { st with stage := Function.update st.stage s stage }

def setPool (st : State σ π ε τ) (p : π) (pool : Threadpool σ) : State σ π ε τ :=
  { st with pool := Function.update st.pool p pool }

def move (st : State σ π ε τ) (t : τ) (place : Place σ ε) : State σ π ε τ :=
  { st with place := Function.update st.place t place }

end State

namespace State

/-- The stage goes to the end of the run queue of the pool, and the thread goes on. -/
def enqueue (st : State σ π ε τ) (t : τ) (p : π) (s : σ) (place : Place σ ε) : State σ π ε τ :=
  (st.setPool p { st.pool p with runQueue := (st.pool p).runQueue ++ [s] }).move t place

/-- The reference of an event is released, and the thread goes on. -/
def release (st : State σ π ε τ) (t : τ) (s : σ) (place : Place σ ε) : State σ π ε τ :=
  (st.setStage s (st.stage s).releaseEvent).move t place

end State

variable (home : τ → Option π) (killer : σ → Bool)

/-- The handler of a `KillThreadStage` calls nothing. -/
def MayCall (event : Option (σ × ε)) : Prop := ∀ x ∈ event, killer x.1 = false

/-- `COND_SIGNAL(&run_cond_)`: one of the threads that sleep is woken, if there is one. -/
def Signalled (p : π) (st st' : State σ π ε τ) : Prop :=
  (∃ t, home t = some p ∧ st.place t = .asleep ∧ st' = st.move t .woken) ∨
    ((∀ t, home t = some p → st.place t ≠ .asleep) ∧ st' = st)

/-- `COND_SIGNAL(&disconnect_cond_)`. -/
def Finished (s : σ) (st st' : State σ π ε τ) : Prop :=
  (∃ t event, st.place t = .busy event (.disconnecting s true) ∧ st' = st.move t (.busy event (.disconnecting s false))) ∨
    ((∀ t event, st.place t ≠ .busy event (.disconnecting s true)) ∧ st' = st)

/-- The thread `t` schedules a stage of its own pool that is idle: it will see to the stage itself. -/
def Keeps (st : State σ π ε τ) (t : τ) (p : π) : Prop := (st.pool p).runQueue = [] ∧ home t = some p

/-- Where the loop of `run_thread` goes on after the handler of the stage. -/
def afterEvent (s : σ) : Place σ ε := if killer s then .gone else .loop

inductive Step : State σ π ε τ → State σ π ε τ → Prop
  | spawn {st : State σ π ε τ} {t : τ} (hplace : st.place t = .gone) (hhome : home t ≠ none) : Step st (st.move t .loop)
  | addEvent {st : State σ π ε τ} {t : τ} {event : Option (σ × ε)} (s : σ) (e : ε) (hplace : st.place t = .busy event .idle)
      (hmay : MayCall killer event) :
    Step st { (st.setStage s ((st.stage s).addEvent e)).move t
        (.busy event (if (st.stage s).connected then .adding s else .idle)) with
      added := Function.update st.added s (st.added s ++ [e]) }
  | schedule {st : State σ π ε τ} {t : τ} {event : Option (σ × ε)} {call call' : Call σ} {s : σ} {p : π}
      (hplace : st.place t = .busy event call) (hcall : call.schedules = some (s, call')) (hpool : (st.stage s).thPool = some p)
      (hquiet : Keeps home st t p ∨ (st.pool p).nIdles = 0) : Step st (st.enqueue t p s (.busy event call'))
  | scheduleSignal {st st' : State σ π ε τ} {t : τ} {event : Option (σ × ε)} {call call' : Call σ} {s : σ} {p : π}
      (hplace : st.place t = .busy event call) (hcall : call.schedules = some (s, call')) (hpool : (st.stage s).thPool = some p)
      (hkeeps : ¬Keeps home st t p) (hidles : 0 < (st.pool p).nIdles)
      (hsignal : Signalled home p (st.enqueue t p s (.busy event call')) st') : Step st st'
  | scheduled {st : State σ π ε τ} {t : τ} {event : Option (σ × ε)} {s : σ}
      (hplace : st.place t = .busy event (.connecting s 0)) : Step st (st.move t (.busy event .idle))
  | wait {st : State σ π ε τ} {t : τ} {p : π} (hplace : st.place t = .loop) (hhome : home t = some p)
      (hempty : (st.pool p).runQueue = []) :
    Step st ((st.setPool p { st.pool p with nIdles := (st.pool p).nIdles + 1 }).move t .asleep)
  | waitAgain {st : State σ π ε τ} {t : τ} {p : π} (hplace : st.place t = .woken) (hhome : home t = some p)
      (hempty : (st.pool p).runQueue = []) : Step st (st.move t .asleep)
  | wakeUp {st : State σ π ε τ} {t : τ} (hplace : st.place t = .asleep) : Step st (st.move t .woken)
  | take {st : State σ π ε τ} {t : τ} {p : π} {s : σ} {rest : List σ} (hplace : st.place t = .loop) (hhome : home t = some p)
      (hqueue : (st.pool p).runQueue = s :: rest) :
    Step st ((st.setPool p { st.pool p with runQueue := rest }).move t (.took s))
  | takeWoken {st : State σ π ε τ} {t : τ} {p : π} {s : σ} {rest : List σ} (hplace : st.place t = .woken)
      (hhome : home t = some p) (hqueue : (st.pool p).runQueue = s :: rest) :
    Step st ((st.setPool p ⟨rest, (st.pool p).nIdles - 1⟩).move t (.took s))
  | removeEvent {st : State σ π ε τ} {t : τ} {s : σ} {e : ε} {rest : List ε} (hplace : st.place t = .took s)
      (hqueue : (st.stage s).eventList = e :: rest) :
    Step st { (st.setStage s { st.stage s with eventList := rest }).move t (.busy (some (s, e)) .idle) with
      removed := Function.update st.removed s (st.removed s ++ [e]) }
  | releaseEvent {st : State σ π ε τ} {t : τ} {s : σ} {e : ε} (hplace : st.place t = .busy (some (s, e)) .idle)
      (hmore : (st.stage s).connected = true ∨ (st.stage s).releaseEvent.eventRef ≠ 0) :
    Step st (st.release t s (afterEvent killer s))
  | releaseSignal {st st' : State σ π ε τ} {t : τ} {s : σ} {e : ε} (hplace : st.place t = .busy (some (s, e)) .idle)
      (hconnected : (st.stage s).connected = false) (hlast : (st.stage s).releaseEvent.eventRef = 0)
      (hsignal : Finished s (st.release t s (afterEvent killer s)) st') : Step st st'
  | connect {st : State σ π ε τ} {t : τ} {event : Option (σ × ε)} (s : σ) (p : π) (hplace : st.place t = .busy event .idle)
      (hmay : MayCall killer event) (hconnected : (st.stage s).connected = false)
      (hquiet : ∀ u event asleep, st.place u ≠ .busy event (.disconnecting s asleep)) :
    Step st ((st.setStage s ((st.stage s).connect p)).move t (.busy event (.connecting s (st.stage s).eventList.length)))
  | disconnect {st : State σ π ε τ} {t : τ} {event : Option (σ × ε)} (s : σ) (hplace : st.place t = .busy event .idle)
      (hmay : MayCall killer event) (hconnected : (st.stage s).connected = true) (href : 0 < (st.stage s).eventRef) :
    Step st ((st.setStage s { st.stage s with connected := false }).move t (.busy event (.disconnecting s true)))
  | disconnectNow {st : State σ π ε τ} {t : τ} {event : Option (σ × ε)} (s : σ) (hplace : st.place t = .busy event .idle)
      (hmay : MayCall killer event) (hconnected : (st.stage s).connected = true) (href : (st.stage s).eventRef = 0) :
    Step st (st.setStage s { st.stage s with connected := false, thPool := none })
  | wakeDisconnect {st : State σ π ε τ} {t : τ} {event : Option (σ × ε)} {s : σ}
      (hplace : st.place t = .busy event (.disconnecting s true)) :
    Step st (st.move t (.busy event (.disconnecting s false)))
  | waitDisconnect {st : State σ π ε τ} {t : τ} {event : Option (σ × ε)} {s : σ}
      (hplace : st.place t = .busy event (.disconnecting s false)) (href : 0 < (st.stage s).eventRef) :
    Step st (st.move t (.busy event (.disconnecting s true)))
  | disconnected {st : State σ π ε τ} {t : τ} {event : Option (σ × ε)} {s : σ}
      (hplace : st.place t = .busy event (.disconnecting s false)) (href : (st.stage s).eventRef = 0) :
    Step st ((st.setStage s { st.stage s with thPool := none }).move t (.busy event .idle))

end

end Landbase.Seda
