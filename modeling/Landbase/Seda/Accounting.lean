import Landbase.Seda.Threadpool

/-! # The accounts of the stages

For every stage, its events are the entries of the run queue and the threads that are about to schedule or to take it; its
reference count adds the threads that handle one. For every pool, `n_idles_` is the number of the threads that wait.
-/

namespace Landbase.Seda
open Relation Lib
set_option autoImplicit false
set_option linter.unusedSectionVars false

variable {σ π ε τ : Type*}

/-! ## What a thread counts for -/

section
variable [DecidableEq σ]

/-- How many times the call still schedules the stage. -/
def Call.token (s : σ) : Call σ → ℕ
  | .adding stage => if stage = s then 1 else 0
  | .connecting stage backlog => if stage = s then backlog else 0
  | _ => 0

def Call.leaving (s : σ) : Call σ → ℕ
  | .disconnecting stage _ => if stage = s then 1 else 0
  | _ => 0

namespace Place

def token (s : σ) : Place σ ε → ℕ
  | .took stage => if stage = s then 1 else 0
  | .busy _ call => call.token s
  | _ => 0

def handling (s : σ) : Place σ ε → ℕ
  | .busy event _ => event.elim 0 fun x => if x.1 = s then 1 else 0
  | _ => 0

def leaving (s : σ) : Place σ ε → ℕ
  | .busy _ call => call.leaving s
  | _ => 0

def sleeps : Place σ ε → ℕ
  | .asleep => 1
  | _ => 0

def idle : Place σ ε → ℕ
  | .asleep => 1
  | .woken => 1
  | _ => 0

/-- The thread comes back to the run queue, as soon as its handler is over. -/
def serves (killer : σ → Bool) : Place σ ε → ℕ
  | .loop => 1
  | .woken => 1
  | .took stage => if killer stage then 0 else 1
  | .busy event _ => event.elim 0 fun x => if killer x.1 then 0 else 1
  | _ => 0

/-- The handler sleeps in a `disconnect`. -/
def waits : Place σ ε → ℕ
  | .busy (some _) (.disconnecting _ true) => 1
  | _ => 0

/-- The thread comes back to the run queue without being woken. -/
def ready (killer : σ → Bool) : Place σ ε → ℕ
  | .loop => 1
  | .woken => 1
  | .took stage => if killer stage then 0 else 1
  | .busy _ (.disconnecting _ true) => 0
  | .busy event _ => event.elim 0 fun x => if killer x.1 then 0 else 1
  | _ => 0

theorem serves_le (killer : σ → Bool) (place : Place σ ε) : place.serves killer ≤ place.ready killer + place.waits := by
  cases place with
  | busy event call =>
    cases call with
    | disconnecting s asleep =>
      cases event with
      | none => exact Nat.zero_le _
      | some x =>
        cases asleep with
        | false => exact Nat.le_add_right _ _
        | true =>
          simp only [serves, ready, waits, Option.elim]
          split <;> omega
    | _ => exact Nat.le_add_right _ _
  | _ => exact Nat.le_add_right _ _

end Place

theorem token_of_schedules {call call' : Call σ} {s : σ} (h : call.schedules = some (s, call')) (s' : σ) :
    call.token s' = call'.token s' + if s = s' then 1 else 0 := by
  match call, h with
  | .adding stage, h =>
    obtain ⟨rfl, rfl⟩ : stage = s ∧ Call.idle = call' := by simpa [Call.schedules] using h
    simp [Call.token]
  | .connecting stage (backlog + 1), h =>
    obtain ⟨rfl, rfl⟩ : stage = s ∧ Call.connecting stage backlog = call' := by simpa [Call.schedules] using h
    by_cases hs : stage = s' <;> simp [Call.token, hs]

theorem leaving_of_schedules {call call' : Call σ} {s : σ} (h : call.schedules = some (s, call')) (s' : σ) :
    call.leaving s' = 0 ∧ call'.leaving s' = 0 := by
  match call, h with
  | .adding stage, h =>
    obtain ⟨rfl, rfl⟩ : stage = s ∧ Call.idle = call' := by simpa [Call.schedules] using h
    simp [Call.leaving]
  | .connecting stage (backlog + 1), h =>
    obtain ⟨rfl, rfl⟩ : stage = s ∧ Call.connecting stage backlog = call' := by simpa [Call.schedules] using h
    simp [Call.leaving]

end

theorem schedules_ne_idle {call call' : Call σ} {s : σ} (h : call.schedules = some (s, call')) : call ≠ .idle := by
  rintro rfl
  simp [Call.schedules] at h

/-! ## Counting -/

namespace State
variable [Fintype τ]

def count (st : State σ π ε τ) (w : Place σ ε → ℕ) : ℕ := tally (fun _ => w) st.place

/-- The threads of the pool, counted. -/
def countOf [DecidableEq π] (home : τ → Option π) (p : π) (st : State σ π ε τ) (w : Place σ ε → ℕ) : ℕ :=
  tally (fun t place => if home t = some p then w place else 0) st.place

/-- How many times the stage is in the run queue of its pool. -/
def scheduled [DecidableEq σ] (st : State σ π ε τ) (s : σ) : ℕ :=
  match (st.stage s).thPool with
  | some p => (st.pool p).runQueue.count s
  | none => 0

/-- The events of the stage that some thread is going to take. -/
def due [DecidableEq σ] (st : State σ π ε τ) (s : σ) : ℕ := st.scheduled s + st.count (Place.token s)

end State

section
variable [Fintype τ] {st : State σ π ε τ} {t : τ} {old new : Place σ ε}

theorem count_of_update [DecidableEq τ] (st' : State σ π ε τ) (hold : st.place t = old)
    (hplace : st'.place = Function.update st.place t new) (w : Place σ ε → ℕ) :
    st'.count w + w old = st.count w + w new := by
  unfold State.count
  rw [hplace, ← hold]
  exact tally_update _ _ _ _

theorem countOf_of_update [DecidableEq π] [DecidableEq τ] (st' : State σ π ε τ) (hold : st.place t = old)
    (hplace : st'.place = Function.update st.place t new)
    (home : τ → Option π) (p : π) (w : Place σ ε → ℕ) :
    st'.countOf home p w + (if home t = some p then w old else 0) =
      st.countOf home p w + if home t = some p then w new else 0 := by
  unfold State.countOf
  rw [hplace, ← hold]
  exact tally_update (fun t place => if home t = some p then w place else 0) st.place t new

theorem le_count (st : State σ π ε τ) (w : Place σ ε → ℕ) (t : τ) : w (st.place t) ≤ st.count w := le_tally (fun _ => w) st.place t

end

/-! ## The account of a stage -/

/-- Events that come while the stage is not connected wait for the next `connect`. -/
structure Account (stage : Stage π ε) (due handling leaving : ℕ) : Prop where
  pending : due ≤ stage.eventList.length
  covered : stage.connected = true → stage.eventList.length = due
  refs : stage.eventRef = due + handling
  owner : stage.connected.toNat + leaving = stage.thPool.isSome.toNat
  orphan : stage.thPool = none → stage.eventRef = 0

namespace Account
variable {stage : Stage π ε} {due due' handling handling' leaving leaving' : ℕ}

theorem addEvent (h : Account stage due handling leaving) (e : ε) (hdue : due' = due + stage.connected.toNat) :
    Account (stage.addEvent e) due' handling leaving := by
  obtain ⟨hpending, hcovered, hrefs, howner, horphan⟩ := h
  cases hconnected : stage.connected with
  | false =>
    simp only [hconnected, Bool.toNat_false, Nat.add_zero] at hdue
    refine ⟨?_, ?_, ?_, howner, ?_⟩ <;> simp [Stage.addEvent, hconnected]
    · omega
    · omega
    · exact horphan
  | true =>
    simp only [hconnected, Bool.toNat_true] at hdue howner
    have hlength := hcovered hconnected
    refine ⟨?_, ?_, ?_, ?_, ?_⟩ <;> simp [Stage.addEvent, hconnected]
    · omega
    · omega
    · omega
    · exact howner
    · intro hnone
      simp [hnone] at howner

theorem removeEvent (h : Account stage due handling leaving) {e : ε} {rest : List ε} (hqueue : stage.eventList = e :: rest)
    (hdue : due = due' + 1) : Account { stage with eventList := rest } due' (handling + 1) leaving := by
  have hlength : stage.eventList.length = rest.length + 1 := by rw [hqueue, List.length_cons]
  refine ⟨?_, ?_, ?_, h.owner, h.orphan⟩
  · have := h.pending
    show due' ≤ rest.length
    omega
  · intro hconnected
    have := h.covered hconnected
    show rest.length = due'
    omega
  · have := h.refs
    show stage.eventRef = due' + (handling + 1)
    omega

theorem release (h : Account stage due handling leaving) (hhandling : handling = handling' + 1) :
    Account stage.releaseEvent due handling' leaving := by
  refine ⟨h.pending, h.covered, ?_, h.owner, ?_⟩
  · have := h.refs
    show stage.eventRef - 1 = due + handling'
    omega
  · intro hnone
    have := h.orphan hnone
    show stage.eventRef - 1 = 0
    omega

/-- A stage without a pool has nothing under way. -/
theorem quiet (h : Account stage due handling leaving) (hnone : stage.thPool = none) : due = 0 ∧ handling = 0 := by
  have hrefs := h.refs
  rw [h.orphan hnone] at hrefs
  omega

theorem thPool_of_quiet (h : Account stage due handling 0) (hconnected : stage.connected = false) : stage.thPool = none := by
  have howner := h.owner
  cases hpool : stage.thPool with
  | none => rfl
  | some p => simp [hconnected, hpool] at howner

theorem thPool_of_due (h : Account stage due handling leaving) (hdue : 0 < due + handling) : ∃ p, stage.thPool = some p := by
  cases hpool : stage.thPool with
  | some p => exact ⟨p, rfl⟩
  | none =>
    obtain ⟨hdue0, hhandling0⟩ := h.quiet hpool
    omega

theorem thPool_of_connected (h : Account stage due handling leaving) (hconnected : stage.connected = true) :
    ∃ p, stage.thPool = some p := by
  have howner := h.owner
  cases hpool : stage.thPool with
  | some p => exact ⟨p, rfl⟩
  | none => simp [hconnected, hpool] at howner

theorem connect (h : Account stage due handling 0) (hconnected : stage.connected = false) (p : π) :
    Account (stage.connect p) stage.eventList.length handling 0 := by
  obtain ⟨-, hhandling⟩ := h.quiet (h.thPool_of_quiet hconnected)
  subst hhandling
  exact ⟨le_rfl, fun _ => rfl, rfl, rfl, fun hnone => by simp [Stage.connect] at hnone⟩

theorem disconnect (h : Account stage due handling leaving) (hconnected : stage.connected = true) :
    Account { stage with connected := false } due handling (leaving + 1) := by
  have howner := h.owner
  rw [hconnected, Bool.toNat_true] at howner
  refine ⟨h.pending, fun hfalse => by simp at hfalse, h.refs, ?_, h.orphan⟩
  show 0 + (leaving + 1) = stage.thPool.isSome.toNat
  omega

theorem disconnected (h : Account stage due handling (leaving + 1)) (href : stage.eventRef = 0) :
    Account ({ stage with thPool := none } : Stage π ε) due handling leaving := by
  have howner := h.owner
  have hsome : stage.thPool.isSome.toNat ≤ 1 := Bool.toNat_le _
  refine ⟨h.pending, h.covered, h.refs, ?_, fun _ => href⟩
  show stage.connected.toNat + leaving = 0
  omega

end Account

/-! ## The invariant -/

/-- A handler runs on a thread of a pool, and the handler of a `KillThreadStage` calls nothing. -/
def Place.Proper (home : Option π) (killer : σ → Bool) : Place σ ε → Prop
  | .busy none _ => home = none
  | .busy (some x) call => killer x.1 = true → call = .idle
  | _ => True

section
variable [Fintype τ] [DecidableEq σ] [DecidableEq π] (home : τ → Option π) (killer : σ → Bool)

structure Accounts (st : State σ π ε τ) : Prop where
  fifo : ∀ s, st.removed s ++ (st.stage s).eventList = st.added s
  account : ∀ s, Account (st.stage s) (st.due s) (st.count (Place.handling s)) (st.count (Place.leaving s))
  queued : ∀ p, ∀ s ∈ (st.pool p).runQueue, (st.stage s).thPool = some p
  idles : ∀ p, (st.pool p).nIdles = st.countOf home p Place.idle
  proper : ∀ t, (st.place t).Proper (home t) killer

end

/-! ## What a step keeps of the accounts -/

section
variable [Fintype τ] [DecidableEq σ] [DecidableEq π] [DecidableEq τ] {home : τ → Option π} {killer : σ → Bool}
  {st st' : State σ π ε τ} {t : τ} {old new : Place σ ε}

theorem scheduled_of_some {s : σ} {p : π} (h : (st.stage s).thPool = some p) : st.scheduled s = (st.pool p).runQueue.count s := by
  unfold State.scheduled
  rw [h]

theorem scheduled_congr {s : σ} (hpool : st'.pool = st.pool) (hth : (st'.stage s).thPool = (st.stage s).thPool) :
    st'.scheduled s = st.scheduled s := by
  unfold State.scheduled
  rw [hpool, hth]

theorem scheduled_of_update (st st' : State σ π ε τ) {p : π} {pool : Threadpool σ} (hstage : st'.stage = st.stage)
    (hpool : st'.pool = Function.update st.pool p pool) (s : σ) :
    st'.scheduled s + (if (st.stage s).thPool = some p then (st.pool p).runQueue.count s else 0) =
      st.scheduled s + if (st.stage s).thPool = some p then pool.runQueue.count s else 0 := by
  unfold State.scheduled
  rw [hstage, hpool]
  cases hth : (st.stage s).thPool with
  | none => simp
  | some q =>
    by_cases hq : q = p
    · subst hq
      simp [Nat.add_comm]
    · simp [hq]

theorem scheduled_enqueue {s : σ} {p : π} (hpool : (st.stage s).thPool = some p) (place : Place σ ε) (s' : σ) :
    (st.enqueue t p s place).scheduled s' = st.scheduled s' + if s = s' then 1 else 0 := by
  have h := scheduled_of_update st (st.enqueue t p s place) rfl rfl s'
  by_cases hs : s = s'
  · subst hs
    simp only [hpool, if_true, List.count_append, List.count_singleton_self] at h ⊢
    omega
  · have hcount : ((st.pool p).runQueue ++ [s]).count s' = (st.pool p).runQueue.count s' := by simp [hs]
    simp only [hcount, hs, if_false] at h ⊢
    omega

theorem scheduled_dequeue {s : σ} {p : π} {rest : List σ} {nIdles : ℕ} (hpool : (st.stage s).thPool = some p)
    (hqueue : (st.pool p).runQueue = s :: rest) (place : Place σ ε) (s' : σ) :
    st.scheduled s' = ((st.setPool p ⟨rest, nIdles⟩).move t place).scheduled s' + if s = s' then 1 else 0 := by
  have h := scheduled_of_update st ((st.setPool p ⟨rest, nIdles⟩).move t place) rfl rfl s'
  rw [hqueue] at h
  by_cases hs : s = s'
  · subst hs
    simp only [hpool, if_true, List.count_cons_self] at h ⊢
    omega
  · have hcount : (s :: rest).count s' = rest.count s' := List.count_cons_of_ne hs
    simp only [hcount, hs, if_false] at h ⊢
    omega

namespace Accounts

/-- A stage that nobody has touched. -/
theorem account_congr (h : Accounts home killer st) {s : σ} (hstage : st'.stage s = st.stage s) (hdue : st'.due s = st.due s)
    (hhandling : st'.count (Place.handling s) = st.count (Place.handling s))
    (hleaving : st'.count (Place.leaving s) = st.count (Place.leaving s)) :
    Account (st'.stage s) (st'.due s) (st'.count (Place.handling s)) (st'.count (Place.leaving s)) := by
  rw [hstage, hdue, hhandling, hleaving]
  exact h.account s

theorem proper_update (h : Accounts home killer st) (hnew : new.Proper (home t) killer) (u : τ) :
    (Function.update st.place t new u).Proper (home u) killer := by
  by_cases hu : u = t
  · subst hu
    rwa [Function.update_self]
  · rw [Function.update_of_ne hu]
    exact h.proper u

/-- A thread moves on and counts for the same. -/
theorem move (h : Accounts home killer st) (hold : st.place t = old) (hnew : new.Proper (home t) killer)
    (hweight : ∀ s, new.token s = old.token s ∧ new.handling s = old.handling s ∧ new.leaving s = old.leaving s)
    (hidle : new.idle = old.idle) : Accounts home killer (st.move t new) := by
  have hcount : ∀ w : Place σ ε → ℕ, w new = w old → (st.move t new).count w = st.count w := by
    intro w hw
    have := count_of_update (st.move t new) hold rfl w
    omega
  refine ⟨h.fifo, fun s => ?_, h.queued, fun p => ?_, h.proper_update hnew⟩
  · obtain ⟨htoken, hhandling, hleaving⟩ := hweight s
    have hdue : (st.move t new).due s = st.due s := by
      unfold State.due
      rw [hcount _ htoken]
      rfl
    exact h.account_congr rfl hdue (hcount _ hhandling) (hcount _ hleaving)
  · have := countOf_of_update (st.move t new) hold rfl home p Place.idle
    rw [hidle] at this
    rw [show ((st.move t new).pool p).nIdles = (st.pool p).nIdles from rfl, h.idles p]
    omega

theorem enqueue (h : Accounts home killer st) {event : Option (σ × ε)} {call call' : Call σ} {s : σ} {p : π}
    (hplace : st.place t = .busy event call) (hcall : call.schedules = some (s, call')) (hpool : (st.stage s).thPool = some p) :
    Accounts home killer (st.enqueue t p s (.busy event call')) := by
  have hcount := count_of_update (st.enqueue t p s (.busy event call')) hplace rfl
  refine ⟨h.fifo, fun s' => ?_, fun q s' hs' => ?_, fun q => ?_, h.proper_update ?_⟩
  · obtain ⟨hleaving, hleaving'⟩ := leaving_of_schedules hcall s'
    refine h.account_congr rfl ?_ ?_ ?_
    · have htoken := hcount (Place.token s')
      simp only [Place.token, token_of_schedules hcall s'] at htoken
      unfold State.due
      rw [scheduled_enqueue hpool]
      omega
    · have hhandling := hcount (Place.handling s')
      simp only [Place.handling] at hhandling
      omega
    · have := hcount (Place.leaving s')
      simp only [Place.leaving, hleaving, hleaving'] at this
      omega
  · show (st.stage s').thPool = some q
    by_cases hq : q = p
    · subst hq
      simp only [State.enqueue, State.setPool, State.move, Function.update_self, List.mem_append, List.mem_singleton] at hs'
      rcases hs' with hs' | rfl
      · exact h.queued q s' hs'
      · exact hpool
    · simp only [State.enqueue, State.setPool, State.move, Function.update_of_ne hq] at hs'
      exact h.queued q s' hs'
  · have hidle := countOf_of_update (st.enqueue t p s (.busy event call')) hplace rfl home q Place.idle
    have hnIdles : ((st.enqueue t p s (.busy event call')).pool q).nIdles = (st.pool q).nIdles := by
      by_cases hq : q = p
      · subst hq
        simp [State.enqueue, State.setPool, State.move]
      · simp [State.enqueue, State.setPool, State.move, hq]
    rw [hnIdles, h.idles q]
    simpa [Place.idle] using hidle.symm
  · have hproper := h.proper t
    rw [hplace] at hproper
    cases event with
    | none => exact hproper
    | some x =>
      intro hkiller
      exact absurd (hproper hkiller) (schedules_ne_idle hcall)

theorem wait (h : Accounts home killer st) {p : π} (hplace : st.place t = .loop) (hhome : home t = some p) :
    Accounts home killer ((st.setPool p { st.pool p with nIdles := (st.pool p).nIdles + 1 }).move t .asleep) := by
  set st' := (st.setPool p { st.pool p with nIdles := (st.pool p).nIdles + 1 }).move t .asleep with hst'
  have hcount : ∀ w : Place σ ε → ℕ, w .asleep = w .loop → st'.count w = st.count w := by
    intro w hw
    have := count_of_update st' hplace rfl w
    omega
  have hqueue : ∀ q, (st'.pool q).runQueue = (st.pool q).runQueue := by
    intro q
    by_cases hq : q = p
    · subst hq
      simp [hst', State.setPool, State.move]
    · simp [hst', State.setPool, State.move, hq]
  refine ⟨h.fifo, fun s => h.account_congr rfl ?_ (hcount _ rfl) (hcount _ rfl), fun q s hs => ?_, fun q => ?_,
    h.proper_update trivial⟩
  · have hscheduled : st'.scheduled s = st.scheduled s := by
      unfold State.scheduled
      simp only [hqueue]
      rfl
    unfold State.due
    rw [hscheduled, hcount _ rfl]
  · rw [hqueue] at hs
    exact h.queued q s hs
  · have hidle := countOf_of_update st' hplace rfl home q Place.idle
    by_cases hq : q = p
    · subst hq
      rw [show (st'.pool q).nIdles = (st.pool q).nIdles + 1 by simp [hst', State.setPool, State.move], h.idles q]
      simpa [Place.idle, hhome] using hidle.symm
    · have hne : home t ≠ some q := by
        rw [hhome]
        simpa using fun h : p = q => hq h.symm
      rw [show (st'.pool q).nIdles = (st.pool q).nIdles by simp [hst', State.setPool, State.move, hq], h.idles q]
      simpa [hne] using hidle.symm

/-- The first entry of the run queue is taken, by a thread that has been counted as idle or not. -/
theorem dequeue (h : Accounts home killer st) {p : π} {s : σ} {rest : List σ} {nIdles : ℕ} (hplace : st.place t = old)
    (hhome : home t = some p) (hqueue : (st.pool p).runQueue = s :: rest)
    (hold : ∀ s, old.token s = 0 ∧ old.handling s = 0 ∧ old.leaving s = 0) (hidles : (st.pool p).nIdles = nIdles + old.idle) :
    Accounts home killer ((st.setPool p ⟨rest, nIdles⟩).move t (.took s)) := by
  set st' := (st.setPool p ⟨rest, nIdles⟩).move t (.took s) with hst'
  have hcount := count_of_update st' hplace rfl
  have hpool : (st.stage s).thPool = some p := h.queued p s (hqueue ▸ List.mem_cons_self)
  refine ⟨h.fifo, fun s' => ?_, fun q s' hs' => ?_, fun q => ?_, h.proper_update trivial⟩
  · obtain ⟨htoken, hhandling, hleaving⟩ := hold s'
    refine h.account_congr rfl ?_ ?_ ?_
    · have := hcount (Place.token s')
      rw [htoken] at this
      simp only [Place.token] at this
      unfold State.due
      have hscheduled : st.scheduled s' = st'.scheduled s' + _ := scheduled_dequeue hpool hqueue (.took s) s'
      omega
    · have := hcount (Place.handling s')
      rw [hhandling] at this
      simpa [Place.handling] using this
    · have := hcount (Place.leaving s')
      rw [hleaving] at this
      simpa [Place.leaving] using this
  · show (st.stage s').thPool = some q
    by_cases hq : q = p
    · subst hq
      simp only [hst', State.setPool, State.move, Function.update_self] at hs'
      exact h.queued q s' (hqueue ▸ List.mem_cons_of_mem s hs')
    · simp only [hst', State.setPool, State.move, Function.update_of_ne hq] at hs'
      exact h.queued q s' hs'
  · have hidle := countOf_of_update st' hplace rfl home q Place.idle
    by_cases hq : q = p
    · subst hq
      simp only [hhome, if_true, show (Place.took s : Place σ ε).idle = 0 from rfl] at hidle
      rw [← h.idles q] at hidle
      rw [show (st'.pool q).nIdles = nIdles by simp [hst', State.setPool, State.move]]
      omega
    · have hne : home t ≠ some q := by
        rw [hhome]
        simpa using fun h : p = q => hq h.symm
      rw [show (st'.pool q).nIdles = (st.pool q).nIdles by simp [hst', State.setPool, State.move, hq], h.idles q]
      simpa [hne] using hidle.symm

/-- One stage changes, and one thread moves on, idle neither before nor after. -/
theorem stage_move (h : Accounts home killer st) {s : σ} {stage : Stage π ε} {added removed : σ → List ε}
    (hplace : st.place t = old) (hnew : new.Proper (home t) killer) (hst' : st' = ⟨Function.update st.stage s stage, st.pool,
      Function.update st.place t new, added, removed⟩)
    (hfifo : removed s ++ stage.eventList = added s) (hadded : ∀ s', s' ≠ s → added s' = st.added s')
    (hremoved : ∀ s', s' ≠ s → removed s' = st.removed s')
    (hother : ∀ s', s' ≠ s → new.token s' = old.token s' ∧ new.handling s' = old.handling s' ∧ new.leaving s' = old.leaving s')
    (hscheduled : st'.scheduled s = st.scheduled s)
    (haccount : ∀ due handling leaving, due + old.token s = st.due s + new.token s →
      handling + old.handling s = st.count (Place.handling s) + new.handling s →
      leaving + old.leaving s = st.count (Place.leaving s) + new.leaving s → Account stage due handling leaving)
    (hqueued : ∀ p, s ∈ (st.pool p).runQueue → stage.thPool = some p) (hidle : new.idle = old.idle) :
    Accounts home killer st' := by
  have hstage : ∀ s', s' ≠ s → st'.stage s' = st.stage s' := by
    intro s' hs'
    rw [hst']
    exact Function.update_of_ne hs' _ _
  have hself : st'.stage s = stage := by
    rw [hst']
    exact Function.update_self _ _ _
  have hplace' : st'.place = Function.update st.place t new := by rw [hst']
  have hpool : st'.pool = st.pool := by rw [hst']
  have hcount : ∀ w : Place σ ε → ℕ, w new = w old → st'.count w = st.count w := by
    intro w hw
    have := count_of_update st' hplace hplace' w
    omega
  refine ⟨fun s' => ?_, fun s' => ?_, fun p s' hs' => ?_, fun p => ?_, fun u => ?_⟩
  · by_cases hs' : s' = s
    · subst hs'
      rw [hself, hst']
      exact hfifo
    · rw [hstage s' hs', hst']
      show removed s' ++ (st.stage s').eventList = added s'
      rw [hadded s' hs', hremoved s' hs']
      exact h.fifo s'
  · by_cases hs' : s' = s
    · subst hs'
      have htoken := count_of_update st' hplace hplace' (Place.token s')
      rw [hself]
      apply haccount
      · unfold State.due
        omega
      · exact count_of_update st' hplace hplace' (Place.handling s')
      · exact count_of_update st' hplace hplace' (Place.leaving s')
    · obtain ⟨htoken, hhandling, hleaving⟩ := hother s' hs'
      refine h.account_congr (hstage s' hs') ?_ (hcount _ hhandling) (hcount _ hleaving)
      unfold State.due
      rw [hcount _ htoken, scheduled_congr hpool (congrArg Stage.thPool (hstage s' hs'))]
  · rw [hpool] at hs'
    by_cases hs : s' = s
    · subst hs
      rw [hself]
      exact hqueued p hs'
    · rw [hstage s' hs]
      exact h.queued p s' hs'
  · have := countOf_of_update st' hplace hplace' home p Place.idle
    rw [hidle] at this
    rw [hpool, h.idles p]
    omega
  · rw [hplace']
    exact h.proper_update hnew u

theorem proper_call {event : Option (σ × ε)} {call call' : Call σ} (h : Accounts home killer st)
    (hplace : st.place t = .busy event call) (hmay : MayCall killer event) :
    (Place.busy event call').Proper (home t) killer := by
  have hproper := h.proper t
  rw [hplace] at hproper
  cases event with
  | none => exact hproper
  | some x =>
    intro hkiller
    rw [hmay x rfl] at hkiller
    cases hkiller

/-- A call that the handler of a `KillThreadStage` does not make. -/
theorem mayCall {event : Option (σ × ε)} {call : Call σ} (h : Accounts home killer st)
    (hplace : st.place t = .busy event call) (hcall : call ≠ .idle) : MayCall killer event := by
  intro x hx
  have hproper := h.proper t
  rw [hplace, Option.mem_def.1 hx] at hproper
  by_contra hkiller
  exact hcall (hproper (Bool.not_eq_false _ ▸ hkiller))

theorem addEvent (h : Accounts home killer st) {event : Option (σ × ε)} (s : σ) (e : ε) (hplace : st.place t = .busy event .idle)
    (hmay : MayCall killer event) :
    Accounts home killer { (st.setStage s ((st.stage s).addEvent e)).move t
        (.busy event (if (st.stage s).connected then .adding s else .idle)) with
      added := Function.update st.added s (st.added s ++ [e]) } := by
  have hfifo : st.removed s ++ ((st.stage s).addEvent e).eventList = Function.update st.added s (st.added s ++ [e]) s := by
    rw [Function.update_self, ← h.fifo s, List.append_assoc]
    rfl
  refine h.stage_move hplace (h.proper_call hplace hmay) rfl hfifo (fun s' hs' => Function.update_of_ne hs' _ _) (fun _ _ => rfl)
    (fun s' hs' => ?_) (scheduled_congr rfl ?_) ?_ (h.queued · s) rfl
  · cases (st.stage s).connected <;> simp [Place.token, Place.handling, Place.leaving, Call.token, Call.leaving, hs'.symm]
  · simp [State.setStage, State.move, Stage.addEvent]
  · intro due handling leaving hdue hhandling hleaving
    have hdue' : due = st.due s + (st.stage s).connected.toNat := by
      cases hconnected : (st.stage s).connected <;> simpa [Place.token, Call.token, hconnected] using hdue
    have hhandling' : handling = st.count (Place.handling s) := by simpa [Place.handling] using hhandling
    have hleaving' : leaving = st.count (Place.leaving s) := by
      cases hconnected : (st.stage s).connected <;> simpa [Place.leaving, Call.leaving, hconnected] using hleaving
    subst hhandling' hleaving'
    exact (h.account s).addEvent e hdue'

theorem removeEvent (h : Accounts home killer st) {s : σ} {e : ε} {rest : List ε} (hplace : st.place t = .took s)
    (hqueue : (st.stage s).eventList = e :: rest) :
    Accounts home killer { (st.setStage s { st.stage s with eventList := rest }).move t (.busy (some (s, e)) .idle) with
      removed := Function.update st.removed s (st.removed s ++ [e]) } := by
  have hfifo : Function.update st.removed s (st.removed s ++ [e]) s ++ rest = st.added s := by
    rw [Function.update_self, ← h.fifo s, hqueue, List.append_assoc]
    rfl
  have hproper : (Place.busy (some (s, e)) .idle).Proper (home t) killer := fun _ => rfl
  refine h.stage_move hplace hproper rfl hfifo (fun _ _ => rfl) (fun s' hs' => Function.update_of_ne hs' _ _)
    (fun s' hs' => ?_) (scheduled_congr rfl ?_) ?_ (h.queued · s) rfl
  · simp [Place.token, Place.handling, Place.leaving, Call.token, Call.leaving, hs'.symm]
  · simp [State.setStage, State.move]
  · intro due handling leaving hdue hhandling hleaving
    have hdue' : st.due s = due + 1 := by simpa [Place.token, Call.token] using hdue.symm
    have hhandling' : handling = st.count (Place.handling s) + 1 := by simpa [Place.handling] using hhandling
    have hleaving' : leaving = st.count (Place.leaving s) := by simpa [Place.leaving, Call.leaving] using hleaving
    subst hhandling' hleaving'
    exact (h.account s).removeEvent hqueue hdue'

theorem release (h : Accounts home killer st) {s : σ} {e : ε} (hplace : st.place t = .busy (some (s, e)) .idle) :
    Accounts home killer (st.release t s (afterEvent killer s)) := by
  have hafter : (afterEvent killer s : Place σ ε) = .gone ∨ (afterEvent killer s : Place σ ε) = .loop := by
    unfold afterEvent
    cases killer s <;> simp
  refine h.stage_move hplace ?_ rfl (h.fifo s) (fun _ _ => rfl) (fun _ _ => rfl) (fun s' hs' => ?_) (scheduled_congr rfl ?_) ?_
    (h.queued · s) ?_
  · rcases hafter with hafter | hafter <;> rw [hafter] <;> trivial
  · rcases hafter with hafter | hafter <;> rw [hafter] <;>
      simp [Place.token, Place.handling, Place.leaving, Call.token, Call.leaving, hs'.symm]
  · simp [State.release, State.setStage, State.move, Stage.releaseEvent]
  · intro due handling leaving hdue hhandling hleaving
    have hweight : (afterEvent killer s : Place σ ε).token s = 0 ∧ (afterEvent killer s : Place σ ε).handling s = 0 ∧
        (afterEvent killer s : Place σ ε).leaving s = 0 := by
      rcases hafter with hafter | hafter <;> rw [hafter] <;> exact ⟨rfl, rfl, rfl⟩
    obtain ⟨htoken, hhandled, hleft⟩ := hweight
    rw [htoken] at hdue
    rw [hhandled] at hhandling
    rw [hleft] at hleaving
    have hdue' : due = st.due s := by simpa [Place.token, Call.token] using hdue
    have hhandling' : st.count (Place.handling s) = handling + 1 := by simpa [Place.handling] using hhandling.symm
    have hleaving' : leaving = st.count (Place.leaving s) := by simpa [Place.leaving, Call.leaving] using hleaving
    subst hdue' hleaving'
    exact (h.account s).release hhandling'
  · rcases hafter with hafter | hafter <;> rw [hafter] <;> rfl

/-- Nobody is in the middle of a `disconnect` of the stage. -/
theorem leaving_eq_zero {s : σ} (hquiet : ∀ u event asleep, st.place u ≠ .busy event (.disconnecting s asleep)) :
    st.count (Place.leaving s) = 0 := by
  apply tally_eq_zero.2
  intro u
  cases hplace : st.place u with
  | busy event call =>
    cases call with
    | disconnecting s' asleep =>
      have hs : s' ≠ s := by
        rintro rfl
        exact hquiet u event asleep hplace
      simp [Place.leaving, Call.leaving, hs]
    | _ => rfl
  | _ => rfl

/-- A stage without a pool is in no run queue. -/
theorem not_mem_runQueue (h : Accounts home killer st) {s : σ} (hnone : (st.stage s).thPool = none) (p : π) :
    s ∉ (st.pool p).runQueue := by
  intro hs
  rw [h.queued p s hs] at hnone
  cases hnone

theorem scheduled_eq_zero (h : Accounts home killer st) {s : σ} (href : (st.stage s).eventRef = 0) :
    st.due s = 0 ∧ st.count (Place.handling s) = 0 ∧ st.scheduled s = 0 ∧ ∀ p, s ∉ (st.pool p).runQueue := by
  have hrefs := (h.account s).refs
  have hdue : st.due s = st.scheduled s + st.count (Place.token s) := rfl
  have hscheduled : st.scheduled s = 0 := by omega
  refine ⟨by omega, by omega, hscheduled, ?_⟩
  intro p hs
  rw [scheduled_of_some (h.queued p s hs)] at hscheduled
  exact List.count_eq_zero.1 hscheduled hs

theorem connect (h : Accounts home killer st) {event : Option (σ × ε)} (s : σ) (p : π) (hplace : st.place t = .busy event .idle)
    (hmay : MayCall killer event) (hconnected : (st.stage s).connected = false)
    (hquiet : ∀ u event asleep, st.place u ≠ .busy event (.disconnecting s asleep)) :
    Accounts home killer ((st.setStage s ((st.stage s).connect p)).move t
      (.busy event (.connecting s (st.stage s).eventList.length))) := by
  have haccount := h.account s
  rw [leaving_eq_zero hquiet] at haccount
  have hnone := haccount.thPool_of_quiet hconnected
  obtain ⟨hdue, -⟩ := haccount.quiet hnone
  obtain ⟨-, -, hscheduled, hqueue⟩ := h.scheduled_eq_zero (haccount.orphan hnone)
  refine h.stage_move hplace (h.proper_call hplace hmay) rfl (h.fifo s) (fun _ _ => rfl) (fun _ _ => rfl) (fun s' hs' => ?_) ?_ ?_
    (fun q hs => absurd hs (hqueue q)) rfl
  · simp [Place.token, Place.handling, Place.leaving, Call.token, Call.leaving, hs'.symm]
  · rw [scheduled_of_some (by simp [State.setStage, State.move, Stage.connect] : _ = some p), hscheduled]
    exact List.count_eq_zero.2 (hqueue p)
  · intro due' handling' leaving' hdue' hhandling' hleaving'
    rw [hdue] at hdue'
    rw [leaving_eq_zero hquiet] at hleaving'
    have hdue'' : due' = (st.stage s).eventList.length := by simpa [Place.token, Call.token] using hdue'
    have hhandling'' : handling' = st.count (Place.handling s) := by simpa [Place.handling] using hhandling'
    have hleaving'' : leaving' = 0 := by simpa [Place.leaving, Call.leaving] using hleaving'
    subst hdue'' hhandling'' hleaving''
    exact haccount.connect hconnected p

theorem disconnect (h : Accounts home killer st) {event : Option (σ × ε)} (s : σ) (hplace : st.place t = .busy event .idle)
    (hmay : MayCall killer event) (hconnected : (st.stage s).connected = true) :
    Accounts home killer
      ((st.setStage s { st.stage s with connected := false }).move t (.busy event (.disconnecting s true))) := by
  refine h.stage_move hplace (h.proper_call hplace hmay) rfl (h.fifo s) (fun _ _ => rfl) (fun _ _ => rfl) (fun s' hs' => ?_)
    (scheduled_congr rfl ?_) ?_ (h.queued · s) rfl
  · simp [Place.token, Place.handling, Place.leaving, Call.token, Call.leaving, hs'.symm]
  · simp [State.setStage, State.move]
  · intro due handling leaving hdue hhandling hleaving
    have hdue' : due = st.due s := by simpa [Place.token, Call.token] using hdue
    have hhandling' : handling = st.count (Place.handling s) := by simpa [Place.handling] using hhandling
    have hleaving' : leaving = st.count (Place.leaving s) + 1 := by simpa [Place.leaving, Call.leaving] using hleaving
    subst hdue' hhandling' hleaving'
    exact (h.account s).disconnect hconnected

theorem disconnected (h : Accounts home killer st) {event : Option (σ × ε)} {s : σ}
    (hplace : st.place t = .busy event (.disconnecting s false)) (href : (st.stage s).eventRef = 0) :
    Accounts home killer ((st.setStage s { st.stage s with thPool := none }).move t (.busy event .idle)) := by
  obtain ⟨-, -, hscheduled, hqueue⟩ := h.scheduled_eq_zero href
  refine h.stage_move hplace (h.proper_call hplace (h.mayCall hplace (by simp))) rfl (h.fifo s) (fun _ _ => rfl) (fun _ _ => rfl)
    (fun s' hs' => ?_) ?_ ?_ (fun q hs => absurd hs (hqueue q)) rfl
  · simp [Place.token, Place.handling, Place.leaving, Call.token, Call.leaving, hs'.symm]
  · rw [hscheduled]
    simp [State.scheduled, State.setStage, State.move]
  · intro due handling leaving hdue hhandling hleaving
    have hdue' : due = st.due s := by simpa [Place.token, Call.token] using hdue
    have hhandling' : handling = st.count (Place.handling s) := by simpa [Place.handling] using hhandling
    have hleaving' : st.count (Place.leaving s) = leaving + 1 := by simpa [Place.leaving, Call.leaving] using hleaving.symm
    have haccount := h.account s
    rw [hleaving'] at haccount
    subst hdue' hhandling'
    exact haccount.disconnected href

theorem disconnectNow (h : Accounts home killer st) {event : Option (σ × ε)} (s : σ)
    (hplace : st.place t = .busy event .idle) (hmay : MayCall killer event) (hconnected : (st.stage s).connected = true)
    (href : (st.stage s).eventRef = 0) :
    Accounts home killer (st.setStage s { st.stage s with connected := false, thPool := none }) := by
  obtain ⟨-, -, hscheduled, hqueue⟩ := h.scheduled_eq_zero href
  have hstays : st.setStage s { st.stage s with connected := false, thPool := none } = ⟨Function.update st.stage s
      { st.stage s with connected := false, thPool := none }, st.pool, Function.update st.place t (.busy event .idle), st.added,
      st.removed⟩ := by
    rw [← hplace, Function.update_eq_self]
    rfl
  refine h.stage_move hplace (h.proper_call hplace hmay) hstays (h.fifo s) (fun _ _ => rfl) (fun _ _ => rfl)
    (fun _ _ => ⟨rfl, rfl, rfl⟩) ?_ ?_ (fun q hs => absurd hs (hqueue q)) rfl
  · rw [hscheduled]
    simp [State.scheduled, State.setStage]
  · intro due handling leaving hdue hhandling hleaving
    obtain rfl : due = st.due s := by omega
    obtain rfl : handling = st.count (Place.handling s) := by omega
    obtain rfl : leaving = st.count (Place.leaving s) := by omega
    exact ((h.account s).disconnect hconnected).disconnected href

theorem signalled (h : Accounts home killer st) {p : π} (hsignal : Signalled home p st st') : Accounts home killer st' := by
  rcases hsignal with ⟨t, -, hplace, rfl⟩ | ⟨-, rfl⟩
  · exact h.move hplace trivial (fun _ => ⟨rfl, rfl, rfl⟩) rfl
  · exact h

/-- A call that is not over goes on. -/
theorem move_call (h : Accounts home killer st) {event : Option (σ × ε)} {call call' : Call σ}
    (hplace : st.place t = .busy event call) (hcall : call ≠ .idle)
    (hweight : ∀ s, call'.token s = call.token s ∧ call'.leaving s = call.leaving s) :
    Accounts home killer (st.move t (.busy event call')) :=
  h.move hplace (h.proper_call hplace (h.mayCall hplace hcall)) (fun s => ⟨(hweight s).1, rfl, (hweight s).2⟩) rfl

theorem finished (h : Accounts home killer st) {s : σ} (hsignal : Finished s st st') : Accounts home killer st' := by
  rcases hsignal with ⟨t, event, hplace, rfl⟩ | ⟨-, rfl⟩
  · exact h.move_call hplace (by simp) fun _ => ⟨rfl, rfl⟩
  · exact h

theorem step (h : Accounts home killer st) (hstep : Step home killer st st') : Accounts home killer st' := by
  cases hstep with
  | spawn hplace => exact h.move hplace trivial (fun _ => ⟨rfl, rfl, rfl⟩) rfl
  | addEvent s e hplace hmay => exact h.addEvent s e hplace hmay
  | schedule hplace hcall hpool => exact h.enqueue hplace hcall hpool
  | scheduleSignal hplace hcall hpool hkeeps hidles hsignal => exact (h.enqueue hplace hcall hpool).signalled hsignal
  | scheduled hplace => exact h.move_call hplace (by simp) fun s => ⟨by simp [Call.token], rfl⟩
  | wait hplace hhome => exact h.wait hplace hhome
  | waitAgain hplace => exact h.move hplace trivial (fun _ => ⟨rfl, rfl, rfl⟩) rfl
  | wakeUp hplace => exact h.move hplace trivial (fun _ => ⟨rfl, rfl, rfl⟩) rfl
  | take hplace hhome hqueue => exact h.dequeue hplace hhome hqueue (fun _ => ⟨rfl, rfl, rfl⟩) rfl
  | @takeWoken t p s rest hplace hhome hqueue =>
    refine h.dequeue hplace hhome hqueue (fun _ => ⟨rfl, rfl, rfl⟩) ?_
    have hle := le_tally (fun u place => if home u = some p then place.idle else 0) st.place t
    rw [hplace, if_pos hhome] at hle
    have hidles : 1 ≤ (st.pool p).nIdles := (h.idles p).symm ▸ hle
    show (st.pool p).nIdles = (st.pool p).nIdles - 1 + 1
    omega
  | removeEvent hplace hqueue => exact h.removeEvent hplace hqueue
  | releaseEvent hplace => exact h.release hplace
  | releaseSignal hplace hconnected hlast hsignal => exact (h.release hplace).finished hsignal
  | connect s p hplace hmay hconnected hquiet => exact h.connect s p hplace hmay hconnected hquiet
  | disconnect s hplace hmay hconnected => exact h.disconnect s hplace hmay hconnected
  | disconnectNow s hplace hmay hconnected href => exact h.disconnectNow s hplace hmay hconnected href
  | wakeDisconnect hplace => exact h.move_call hplace (by simp) fun _ => ⟨rfl, rfl⟩
  | waitDisconnect hplace => exact h.move_call hplace (by simp) fun _ => ⟨rfl, rfl⟩
  | disconnected hplace href => exact h.disconnected hplace href

end Accounts

end

end Landbase.Seda
