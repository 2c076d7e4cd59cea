import Landbase.Seda.Accounting

/-! # No thread sleeps through an event

While a thread of a pool sleeps, each entry of the run queue has a thread of the pool that comes back for it, except where a
handler sleeps in a `disconnect`: such a thread may have been counted on. A `disconnect` that sleeps has an event to wait for. With the accounts of the stages this holds in every run.
-/

namespace Landbase.Seda
open Relation Lib
set_option autoImplicit false
set_option linter.unusedSectionVars false

variable {σ π ε τ : Type*}

section
variable [Fintype τ] [DecidableEq π] (home : τ → Option π) (killer : σ → Bool)

/-- While a thread of the pool sleeps, the run queue is left to others. -/
def Awake (st : State σ π ε τ) : Prop :=
  ∀ p, 0 < st.countOf home p Place.sleeps → (st.pool p).runQueue.length ≤ st.countOf home p (Place.serves killer)

/-- A `disconnect` that sleeps has something to wait for. -/
def Awaited (st : State σ π ε τ) : Prop :=
  ∀ t event s, st.place t = .busy event (.disconnecting s true) → 0 < (st.stage s).eventRef

end

section
variable [Fintype τ] [DecidableEq σ] [DecidableEq π] [DecidableEq τ] {home : τ → Option π} {killer : σ → Bool}
  {st st' : State σ π ε τ} {t : τ} {old new : Place σ ε}

/-! ## Nobody sleeps through an entry of the run queue -/

namespace Awake

theorem update (h : Awake home killer st) (hold : st.place t = old) (hplace : st'.place = Function.update st.place t new)
    (hstep : ∀ p, (st'.pool p).runQueue = [] ∨ (home t ≠ some p ∨ new.sleeps ≤ old.sleeps) ∧
      (st'.pool p).runQueue.length + (if home t = some p then old.serves killer else 0) ≤
        (st.pool p).runQueue.length + if home t = some p then new.serves killer else 0) : Awake home killer st' := by
  intro p hasleep
  rcases hstep p with hempty | ⟨hsleeps, hready⟩
  · rw [hempty]
    exact Nat.zero_le _
  · have hcountSleeps := countOf_of_update st' hold hplace home p Place.sleeps
    have hcountReady := countOf_of_update st' hold hplace home p (Place.serves killer)
    have hle : (if home t = some p then new.sleeps else 0) ≤ if home t = some p then old.sleeps else 0 := by
      rcases hsleeps with hhome | hle
      · simp [hhome]
      · split <;> simp [hle]
    have hbefore := h p (by omega)
    omega

/-- A thread moves on, and the run queues stay. -/
theorem move (h : Awake home killer st) (hold : st.place t = old) (hplace : st'.place = Function.update st.place t new)
    (hqueue : ∀ p, (st'.pool p).runQueue = (st.pool p).runQueue) (hsleeps : new.sleeps ≤ old.sleeps)
    (hready : old.serves killer ≤ new.serves killer) : Awake home killer st' := by
  refine h.update hold hplace (fun p => Or.inr ⟨Or.inr hsleeps, ?_⟩)
  rw [hqueue p]
  split
  · omega
  · omega

/-- The thread goes to sleep when the run queue of its pool is empty. -/
theorem sleep (h : Awake home killer st) {p : π} (hold : st.place t = old)
    (hplace : st'.place = Function.update st.place t .asleep) (hhome : home t = some p)
    (hqueue : ∀ q, (st'.pool q).runQueue = (st.pool q).runQueue) (hempty : (st.pool p).runQueue = []) :
    Awake home killer st' := by
  refine h.update hold hplace (fun q => ?_)
  by_cases hq : q = p
  · left
    rw [hqueue q, hq, hempty]
  · have hne : home t ≠ some q := by
      rw [hhome]
      simpa using fun h : p = q => hq h.symm
    right
    rw [hqueue q, if_neg hne, if_neg hne]
    exact ⟨Or.inl hne, le_rfl⟩

end Awake

theorem sleeps_eq_zero {p : π} (hquiet : ∀ u, home u = some p → st.place u ≠ .asleep) : st.countOf home p Place.sleeps = 0 := by
  apply tally_eq_zero.2
  intro u
  by_cases hhome : home u = some p
  · rw [if_pos hhome]
    cases hplace : st.place u with
    | asleep => exact absurd hplace (hquiet u hhome)
    | _ => rfl
  · rw [if_neg hhome]

theorem sleeps_le_idle (home : τ → Option π) (st : State σ π ε τ) (p : π) :
    st.countOf home p Place.sleeps ≤ st.countOf home p Place.idle := by
  apply tally_mono
  intro u place
  split
  · cases place <;> simp [Place.sleeps, Place.idle]
  · exact le_rfl

theorem serves_le_ready (home : τ → Option π) (killer : σ → Bool) (st : State σ π ε τ) (p : π) :
    st.countOf home p (Place.serves killer) ≤ st.countOf home p (Place.ready killer) + st.countOf home p Place.waits := by
  unfold State.countOf
  rw [← tally_add]
  apply tally_mono
  intro u place
  split
  · exact place.serves_le killer
  · exact le_rfl

theorem enqueue_runQueue (st : State σ π ε τ) (t : τ) (p q : π) (s : σ) (place : Place σ ε) :
    ((st.enqueue t p s place).pool q).runQueue = if q = p then (st.pool p).runQueue ++ [s] else (st.pool q).runQueue := by
  by_cases hq : q = p
  · subst hq
    simp [State.enqueue, State.setPool, State.move]
  · simp [State.enqueue, State.setPool, State.move, hq]

/-- An entry is added to the run queue of the pool `p`; the other pools notice nothing. -/
theorem Awake.enqueue_of_ne (h : Awake home killer st) {event : Option (σ × ε)} {call call' : Call σ} {s : σ} {p q : π}
    (hplace : st.place t = .busy event call) (hq : q ≠ p)
    (hasleep : 0 < (st.enqueue t p s (.busy event call')).countOf home q Place.sleeps) :
    ((st.enqueue t p s (.busy event call')).pool q).runQueue.length ≤
      (st.enqueue t p s (.busy event call')).countOf home q (Place.serves killer) := by
  have hcount := countOf_of_update (st.enqueue t p s (.busy event call')) hplace rfl home q
  have hsleeps := hcount Place.sleeps
  have hready := hcount (Place.serves killer)
  simp only [Place.sleeps, ite_self] at hsleeps
  simp only [Place.serves] at hready
  have hbefore := h q (by omega)
  rw [enqueue_runQueue, if_neg hq]
  omega

theorem Awake.schedule (h : Awake home killer st) (haccounts : Accounts home killer st) {event : Option (σ × ε)}
    {call call' : Call σ} {s : σ} {p : π} (hplace : st.place t = .busy event call) (hcall : call.schedules = some (s, call'))
    (hquiet : Keeps home st t p ∨ (st.pool p).nIdles = 0) : Awake home killer (st.enqueue t p s (.busy event call')) := by
  intro q hasleep
  by_cases hq : q = p
  · subst hq
    have hcount := countOf_of_update (st.enqueue t q s (.busy event call')) hplace rfl home q
    rcases hquiet with ⟨hempty, hhome⟩ | hidles
    · -- the thread that schedules is not a killer's, and comes back itself
      have hready : Place.serves killer (.busy event call') = 1 := by
        have hmay := haccounts.mayCall hplace (schedules_ne_idle hcall)
        have hproper := haccounts.proper t
        rw [hplace] at hproper
        cases event with
        | none => cases hproper.symm.trans hhome
        | some x => simp [Place.serves, hmay x rfl]
      have hle := le_tally (fun u place => if home u = some q then place.serves killer else 0)
        (st.enqueue t q s (.busy event call')).place t
      rw [if_pos hhome, show (st.enqueue t q s (.busy event call')).place t = .busy event call' from Function.update_self _ _ _,
        hready] at hle
      rw [enqueue_runQueue, if_pos rfl, hempty]
      exact hle
    · have hsleeps := hcount Place.sleeps
      simp only [Place.sleeps, ite_self] at hsleeps
      have hle := sleeps_le_idle home st q
      rw [← haccounts.idles q] at hle
      omega
  · exact h.enqueue_of_ne hplace hq hasleep

theorem Awake.scheduleSignal (h : Awake home killer st) {event : Option (σ × ε)} {call call' : Call σ} {s : σ} {p : π}
    (hplace : st.place t = .busy event call) (hsignal : Signalled home p (st.enqueue t p s (.busy event call')) st') :
    Awake home killer st' := by
  have hcount := countOf_of_update (st.enqueue t p s (.busy event call')) hplace rfl home p
  rcases hsignal with ⟨u, hhome, hasleep, rfl⟩ | ⟨hquiet, rfl⟩
  · have hcount' := countOf_of_update ((st.enqueue t p s (.busy event call')).move u .woken) hasleep rfl home
    intro q hq'
    by_cases hq : q = p
    · subst hq
      have hsleeps := hcount Place.sleeps
      have hready := hcount (Place.serves killer)
      have hsleeps' := hcount' q Place.sleeps
      have hready' := hcount' q (Place.serves killer)
      simp only [Place.sleeps, hhome, if_true, ite_self] at hsleeps hsleeps'
      simp only [Place.serves, hhome, if_true] at hready hready'
      have hbefore := h q (by omega)
      show ((st.enqueue t q s (.busy event call')).pool q).runQueue.length ≤ _
      rw [enqueue_runQueue, if_pos rfl, List.length_append, List.length_singleton]
      omega
    · have hne : home u ≠ some q := by
        rw [hhome]
        simpa using fun h : p = q => hq h.symm
      have hsleeps' := hcount' q Place.sleeps
      have hready' := hcount' q (Place.serves killer)
      simp only [hne, if_false] at hsleeps' hready'
      have := h.enqueue_of_ne hplace hq
        (show 0 < (st.enqueue t p s (.busy event call')).countOf home q Place.sleeps by omega)
      show ((st.enqueue t p s (.busy event call')).pool q).runQueue.length ≤ _
      omega
  · intro q hq'
    by_cases hq : q = p
    · subst hq
      rw [sleeps_eq_zero hquiet] at hq'
      exact absurd hq' (lt_irrefl 0)
    · exact h.enqueue_of_ne hplace hq hq'

/-- The entry that is taken is one less, and so may be the thread. -/
theorem Awake.dequeue (h : Awake home killer st) {p : π} {s : σ} {rest : List σ} {nIdles : ℕ} (hplace : st.place t = old)
    (hhome : home t = some p) (hqueue : (st.pool p).runQueue = s :: rest) (hready : old.serves killer = 1) :
    Awake home killer ((st.setPool p ⟨rest, nIdles⟩).move t (.took s)) := by
  refine h.update hplace rfl (fun q => Or.inr ⟨Or.inr (Nat.zero_le _), ?_⟩)
  by_cases hq : q = p
  · subst hq
    simp only [State.setPool, State.move, Function.update_self, hqueue, List.length_cons, hhome, if_true, hready]
    omega
  · have hne : home t ≠ some q := by
      rw [hhome]
      simpa using fun h : p = q => hq h.symm
    simp [State.setPool, State.move, hq, hne]

theorem Awake.release (h : Awake home killer st) {s : σ} {e : ε} (hplace : st.place t = .busy (some (s, e)) .idle) :
    Awake home killer (st.release t s (afterEvent killer s)) := by
  refine h.move hplace rfl (fun _ => rfl) ?_ ?_ <;> cases hkiller : killer s <;>
    simp [afterEvent, hkiller, Place.sleeps, Place.serves]

theorem Awake.finished (h : Awake home killer st) {s : σ} (hsignal : Finished s st st') : Awake home killer st' := by
  rcases hsignal with ⟨t, event, hplace, rfl⟩ | ⟨-, rfl⟩
  · exact h.move hplace rfl (fun _ => rfl) le_rfl le_rfl
  · exact h

theorem Awake.step (h : Awake home killer st) (haccounts : Accounts home killer st) (hstep : Step home killer st st') :
    Awake home killer st' := by
  cases hstep with
  | spawn hplace => exact h.move hplace rfl (fun _ => rfl) le_rfl (Nat.zero_le _)
  | addEvent s e hplace => exact h.move hplace rfl (fun _ => rfl) le_rfl le_rfl
  | schedule hplace hcall hpool hquiet => exact h.schedule haccounts hplace hcall hquiet
  | scheduleSignal hplace hcall hpool hkeeps hidles hsignal => exact h.scheduleSignal hplace hsignal
  | scheduled hplace => exact h.move hplace rfl (fun _ => rfl) le_rfl le_rfl
  | @wait t p hplace hhome hempty =>
    refine h.sleep hplace rfl hhome (fun q => ?_) hempty
    by_cases hq : q = p
    · subst hq
      simp [State.setPool, State.move]
    · simp [State.setPool, State.move, hq]
  | waitAgain hplace hhome hempty => exact h.sleep hplace rfl hhome (fun _ => rfl) hempty
  | wakeUp hplace => exact h.move hplace rfl (fun _ => rfl) (Nat.zero_le _) (Nat.zero_le _)
  | take hplace hhome hqueue => exact h.dequeue hplace hhome hqueue rfl
  | takeWoken hplace hhome hqueue => exact h.dequeue hplace hhome hqueue rfl
  | removeEvent hplace => exact h.move hplace rfl (fun _ => rfl) le_rfl le_rfl
  | releaseEvent hplace => exact h.release hplace
  | releaseSignal hplace hconnected hlast hsignal => exact (h.release hplace).finished hsignal
  | connect s p hplace => exact h.move hplace rfl (fun _ => rfl) le_rfl le_rfl
  | disconnect s hplace => exact h.move hplace rfl (fun _ => rfl) le_rfl le_rfl
  | disconnectNow s hplace => exact h
  | wakeDisconnect hplace => exact h.move hplace rfl (fun _ => rfl) le_rfl le_rfl
  | waitDisconnect hplace => exact h.move hplace rfl (fun _ => rfl) le_rfl le_rfl
  | disconnected hplace => exact h.move hplace rfl (fun _ => rfl) le_rfl le_rfl

/-! ## Nobody waits for a signal that has been sent -/

namespace Awaited

theorem update (h : Awaited st) (hplace : st'.place = Function.update st.place t new)
    (hnew : ∀ event s, new = .busy event (.disconnecting s true) → 0 < (st'.stage s).eventRef)
    (hstage : ∀ u event s, u ≠ t → st.place u = .busy event (.disconnecting s true) → 0 < (st.stage s).eventRef →
      0 < (st'.stage s).eventRef) : Awaited st' := by
  intro u event s hu
  rw [hplace] at hu
  by_cases hut : u = t
  · subst hut
    rw [Function.update_self] at hu
    exact hnew event s hu
  · rw [Function.update_of_ne hut] at hu
    exact hstage u event s hut hu (h u event s hu)

theorem move (h : Awaited st) (hplace : st'.place = Function.update st.place t new) (hstage : st'.stage = st.stage)
    (hnew : ∀ event s, new ≠ .busy event (.disconnecting s true)) : Awaited st' := by
  refine h.update hplace (fun event s hs => absurd hs (hnew event s)) (fun _ _ s _ _ href => ?_)
  rw [hstage]
  exact href

theorem signalled (h : Awaited st) {p : π} (hsignal : Signalled home p st st') : Awaited st' := by
  rcases hsignal with ⟨t, -, -, rfl⟩ | ⟨-, rfl⟩
  · exact h.move rfl rfl (by simp)
  · exact h

end Awaited

/-- There is one `disconnect` of a stage at a time, and none of a connected one. -/
theorem Accounts.leaving_le_one (h : Accounts home killer st) (s : σ) :
    (st.stage s).connected.toNat + st.count (Place.leaving s) ≤ 1 := by
  rw [(h.account s).owner]
  exact Bool.toNat_le _

theorem Accounts.not_connected (h : Accounts home killer st) {event : Option (σ × ε)} {s : σ} {asleep : Bool}
    (hplace : st.place t = .busy event (.disconnecting s asleep)) : (st.stage s).connected = false := by
  have hle := h.leaving_le_one s
  have hcount := le_count st (Place.leaving s) t
  rw [hplace] at hcount
  simp only [Place.leaving, Call.leaving, if_true] at hcount
  cases hconnected : (st.stage s).connected with
  | false => rfl
  | true =>
    rw [hconnected, Bool.toNat_true] at hle
    omega

theorem Accounts.disconnecting_unique (h : Accounts home killer st) {event event' : Option (σ × ε)} {s : σ}
    {asleep asleep' : Bool} {u : τ} (hplace : st.place t = .busy event (.disconnecting s asleep))
    (hplace' : st.place u = .busy event' (.disconnecting s asleep')) : u = t := by
  by_contra hne
  have hle := h.leaving_le_one s
  have hcount : _ ≤ st.count (Place.leaving s) := add_le_tally (fun _ => Place.leaving s) st.place hne
  rw [hplace, hplace'] at hcount
  simp only [Place.leaving, Call.leaving, if_true] at hcount
  omega

namespace Awaited

/-- A stage that nobody waits for changes, or one whose reference count stays positive. -/
theorem setStage (h : Awaited st) {s : σ} {stage : Stage π ε} {st' : State σ π ε τ}
    (hplace : st'.place = Function.update st.place t new) (hstage : st'.stage = Function.update st.stage s stage)
    (hnew : ∀ event s', new = .busy event (.disconnecting s' true) → s' = s ∧ 0 < stage.eventRef)
    (href : ∀ u event, st.place u = .busy event (.disconnecting s true) → 0 < (st.stage s).eventRef → 0 < stage.eventRef) :
    Awaited st' := by
  refine h.update hplace (fun event s' hs' => ?_) (fun u event s' _ hu hpos => ?_)
  · obtain ⟨rfl, hpos⟩ := hnew event s' hs'
    rw [hstage, Function.update_self]
    exact hpos
  · rw [hstage]
    by_cases hs : s' = s
    · subst hs
      rw [Function.update_self]
      exact href u event hu hpos
    · rw [Function.update_of_ne hs]
      exact hpos

theorem afterEvent_ne (s s' : σ) (event : Option (σ × ε)) :
    (afterEvent killer s : Place σ ε) ≠ .busy event (.disconnecting s' true) := by
  unfold afterEvent
  split <;> simp

/-- The last reference goes, and the signal wakes the one that waits for it. -/
theorem releaseSignal (h : Awaited st) (haccounts : Accounts home killer st) {s : σ} {e : ε}
    (hplace : st.place t = .busy (some (s, e)) .idle) (hsignal : Finished s (st.release t s (afterEvent killer s)) st') :
    Awaited st' := by
  have hother : ∀ u event s', s' ≠ s → (st.release t s (afterEvent killer s)).place u = .busy event (.disconnecting s' true) →
      0 < ((st.release t s (afterEvent killer s)).stage s').eventRef := by
    intro u event s' hs' hu
    have hut : u ≠ t := by
      rintro rfl
      exact afterEvent_ne s s' event ((Function.update_self u _ st.place).symm.trans hu)
    have hu' : st.place u = .busy event (.disconnecting s' true) := (Function.update_of_ne hut _ _).symm.trans hu
    rw [show (st.release t s (afterEvent killer s)).stage s' = st.stage s' from Function.update_of_ne hs' _ _]
    exact h u event s' hu'
  rcases hsignal with ⟨v, event', hv, rfl⟩ | ⟨hquiet, rfl⟩
  · intro u event s' hu
    have huv : u ≠ v := by
      rintro rfl
      have := (Function.update_self u _ (st.release t s (afterEvent killer s)).place).symm.trans hu
      simp at this
    have hu' : (st.release t s (afterEvent killer s)).place u = .busy event (.disconnecting s' true) :=
      (Function.update_of_ne huv _ _).symm.trans hu
    by_cases hs' : s' = s
    · subst hs'
      exact absurd ((haccounts.release hplace).disconnecting_unique hv hu') huv
    · exact hother u event s' hs' hu'
  · intro u event s' hu
    by_cases hs' : s' = s
    · subst hs'
      exact absurd hu (hquiet u event)
    · exact hother u event s' hs' hu

theorem schedule (h : Awaited st) {event : Option (σ × ε)} {call call' : Call σ} {s : σ} {p : π}
    (hcall : call.schedules = some (s, call')) : Awaited (st.enqueue t p s (.busy event call')) := by
  refine h.move rfl rfl (fun event' s' hs' => ?_)
  have hleaving := (leaving_of_schedules hcall s').2
  rw [(Place.busy.inj hs').2] at hleaving
  simp [Call.leaving] at hleaving

theorem step (h : Awaited st) (haccounts : Accounts home killer st) (hstep : Step home killer st st') : Awaited st' := by
  cases hstep with
  | spawn hplace => exact h.move rfl rfl (by simp)
  | addEvent s e hplace =>
    refine h.setStage rfl rfl (fun event s' hs' => ?_) (fun _ _ _ hpos => ?_)
    · cases hconnected : (st.stage s).connected <;> simp [hconnected] at hs'
    · simp only [Stage.addEvent]
      split <;> omega
  | schedule hplace hcall => exact h.schedule hcall
  | scheduleSignal hplace hcall hpool hkeeps hidles hsignal => exact (h.schedule hcall).signalled hsignal
  | scheduled hplace => exact h.move rfl rfl (by simp)
  | wait hplace => exact h.move rfl rfl (by simp)
  | waitAgain hplace => exact h.move rfl rfl (by simp)
  | wakeUp hplace => exact h.move rfl rfl (by simp)
  | take hplace => exact h.move rfl rfl (by simp)
  | takeWoken hplace => exact h.move rfl rfl (by simp)
  | removeEvent hplace => exact h.setStage rfl rfl (by simp) (fun _ _ _ hpos => hpos)
  | @releaseEvent t s e hplace hmore =>
    refine h.setStage rfl rfl (fun event s' hs' => absurd hs' (afterEvent_ne s s' event)) (fun u event hu _ => ?_)
    rcases hmore with hconnected | hmore
    · rw [haccounts.not_connected hu] at hconnected
      cases hconnected
    · exact Nat.pos_of_ne_zero hmore
  | releaseSignal hplace hconnected hlast hsignal => exact h.releaseSignal haccounts hplace hsignal
  | connect s p hplace hmay hconnected hquiet =>
    exact h.setStage rfl rfl (by simp) (fun u event hu _ => absurd hu (hquiet u event true))
  | disconnect s hplace hmay hconnected href =>
    refine h.setStage rfl rfl (fun event s' hs' => ?_) (fun _ _ _ hpos => hpos)
    simp only [Place.busy.injEq, Call.disconnecting.injEq] at hs'
    exact ⟨hs'.2.1.symm, href⟩
  | @disconnectNow t event s hplace hmay hconnected href =>
    refine h.setStage (Function.update_eq_self t st.place).symm rfl (fun event' s' hs' => ?_) (fun u event' hu _ => ?_)
    · rw [hplace] at hs'
      simp at hs'
    · rw [haccounts.not_connected hu] at hconnected
      cases hconnected
  | wakeDisconnect hplace => exact h.move rfl rfl (by simp)
  | @waitDisconnect t event s hplace href =>
    refine h.update rfl (fun event' s' hs' => ?_) (fun _ _ _ _ _ hpos => hpos)
    simp only [Place.busy.injEq, Call.disconnecting.injEq] at hs'
    obtain ⟨-, rfl, -⟩ := hs'
    exact href
  | disconnected hplace href => exact h.setStage rfl rfl (by simp) (fun _ _ _ hpos => hpos)

end Awaited

/-! ## Every run -/

/-- No stage is connected and nothing was added. The threads of the pools are still to be made. -/
structure Initial (home : τ → Option π) (st : State σ π ε τ) : Prop where
  stage : ∀ s, st.stage s = ⟨[], false, 0, none⟩
  pool : ∀ p, st.pool p = ⟨[], 0⟩
  place : ∀ t, st.place t = if home t = none then .busy none .idle else .gone
  added : ∀ s, st.added s = []
  removed : ∀ s, st.removed s = []

/-- The state of the stages and pools, as the code relies on it.

* The events of a stage are taken in the order in which they were added, each of them once.
* `remove_event` finds an event; `schedule` finds an event and a pool; the thread that runs a handler finds the pool of its
  stage.
* A connected stage has a pool, and there as many entries in the run queue, and threads that are about to take its event or to
  schedule it, as it has events.
* While a thread sleeps, the run queue of its pool has at most as many entries as threads of the pool come back to it, and
  sleep in a `disconnect`.
* A `disconnect` that sleeps has an event to wait for; a stage whose `disconnect` is over is neither in a run queue nor in a
  handler.
-/
structure Sound (home : τ → Option π) (killer : σ → Bool) (st : State σ π ε τ) : Prop where
  fifo : ∀ s, st.removed s ++ (st.stage s).eventList = st.added s
  taken : ∀ t s, st.place t = .took s → (st.stage s).eventList ≠ []
  scheduled : ∀ t event call s call', st.place t = .busy event call → call.schedules = some (s, call') →
    (st.stage s).eventList ≠ [] ∧ ∃ p, (st.stage s).thPool = some p
  handled : ∀ t s e call, st.place t = .busy (some (s, e)) call → ∃ p, (st.stage s).thPool = some p
  pending : ∀ s, (st.stage s).connected = true → ∃ p, (st.stage s).thPool = some p ∧
    (st.stage s).eventList.length = (st.pool p).runQueue.count s + st.count (Place.token s)
  awake : ∀ p, (∃ t, home t = some p ∧ st.place t = .asleep) →
    (st.pool p).runQueue.length ≤ st.countOf home p (Place.ready killer) + st.countOf home p Place.waits
  awaited : ∀ t event s, st.place t = .busy event (.disconnecting s true) → 0 < (st.stage s).eventRef
  quiet : ∀ s, (st.stage s).thPool = none →
    (∀ p, s ∉ (st.pool p).runQueue) ∧ ∀ t, (st.place t).token s = 0 ∧ (st.place t).handling s = 0

theorem Accounts.initial (h : Initial home st) : Accounts home killer st := by
  have hcount : ∀ w : Place σ ε → ℕ, w .gone = 0 → w (.busy none .idle) = 0 → st.count w = 0 := by
    intro w hgone hidle
    apply tally_eq_zero.2
    intro t
    rw [h.place t]
    split
    · exact hidle
    · exact hgone
  have hscheduled : ∀ s, st.scheduled s = 0 := by
    intro s
    simp [State.scheduled, h.stage s]
  refine ⟨fun s => ?_, fun s => ?_, fun p s hs => ?_, fun p => ?_, fun t => ?_⟩
  · rw [h.removed s, h.stage s, h.added s]
    rfl
  · have hdue : st.due s = 0 := by rw [State.due, hscheduled s, hcount _ rfl rfl]
    rw [h.stage s, hdue, hcount _ rfl rfl, hcount _ rfl rfl]
    exact ⟨le_rfl, fun _ => rfl, rfl, rfl, fun _ => rfl⟩
  · rw [h.pool p] at hs
    cases hs
  · rw [h.pool p]
    symm
    apply tally_eq_zero.2
    intro t
    split
    · rw [h.place t]
      split <;> rfl
    · rfl
  · rw [h.place t]
    split
    · assumption
    · trivial

theorem Awake.initial (h : Initial home st) : Awake home killer st := by
  intro p _
  rw [h.pool p]
  exact Nat.zero_le _

theorem Awaited.initial (h : Initial home st) : Awaited st := by
  intro t event s ht
  rw [h.place t] at ht
  split at ht <;> simp at ht

theorem Accounts.eventList_ne_nil (h : Accounts home killer st) {s : σ} (htoken : 0 < (st.place t).token s) :
    (st.stage s).eventList ≠ [] ∧ ∃ p, (st.stage s).thPool = some p := by
  have hle := le_count st (Place.token s) t
  have hdue : st.due s = st.scheduled s + st.count (Place.token s) := rfl
  have hpending := (h.account s).pending
  constructor
  · intro hnil
    rw [hnil, List.length_nil] at hpending
    omega
  · exact (h.account s).thPool_of_due (by omega)

theorem sound_of_accounts (h : Accounts home killer st) (hawake : Awake home killer st) (hawaited : Awaited st) :
    Sound home killer st where
  fifo := h.fifo
  taken t s ht := (h.eventList_ne_nil (t := t) (s := s) (by simp [ht, Place.token])).1
  scheduled t event call s call' ht hcall := by
    apply h.eventList_ne_nil (t := t)
    rw [ht]
    simp [Place.token, token_of_schedules hcall s]
  handled t s e call ht := by
    have hle := le_count st (Place.handling s) t
    rw [ht] at hle
    simp only [Place.handling, Option.elim, if_true] at hle
    exact (h.account s).thPool_of_due (by omega)
  pending s hconnected := by
    obtain ⟨p, hpool⟩ := (h.account s).thPool_of_connected hconnected
    refine ⟨p, hpool, ?_⟩
    rw [(h.account s).covered hconnected, State.due, scheduled_of_some hpool]
  awake p := by
    rintro ⟨t, hhome, ht⟩
    refine le_trans (hawake p ?_) (serves_le_ready home killer st p)
    apply tally_pos.2
    refine ⟨t, ?_⟩
    rw [if_pos hhome, ht]
    exact Nat.one_pos
  awaited := hawaited
  quiet s hnone := by
    obtain ⟨hdue, hhandling⟩ := (h.account s).quiet hnone
    refine ⟨h.not_mem_runQueue hnone, fun t => ?_⟩
    have htoken := le_count st (Place.token s) t
    have hhandled := le_count st (Place.handling s) t
    have : st.due s = st.scheduled s + st.count (Place.token s) := rfl
    omega

/-- Whatever the threads do, in whatever order. -/
theorem run_sound {st₀ : State σ π ε τ} (hinitial : Initial home st₀) (hrun : ReflTransGen (Step home killer) st₀ st) :
    Sound home killer st := by
  have hinv := keeps_run (I := fun st => Accounts home killer st ∧ Awake home killer st ∧ Awaited st)
    (fun _ _ hstep h => ⟨h.1.step hstep, h.2.1.step h.1 hstep, h.2.2.step h.1 hstep⟩) hrun
    ⟨Accounts.initial hinitial, Awake.initial hinitial, Awaited.initial hinitial⟩
  exact sound_of_accounts hinv.1 hinv.2.1 hinv.2.2

end

/-- The thread `true` belongs to the pool and sleeps; the thread `false` connects the stage and adds an event. -/
theorem run_sound_signal : ∃ st₀ st : State Unit Unit ℕ Bool,
    Initial (fun t => if t then some () else none) st₀ ∧
      ReflTransGen (Step (fun t => if t then some () else none) fun _ => false) st₀ st ∧ st.place true = .took () ∧
      st.removed () = [] ∧ st.added () = [7] ∧ Sound (fun t => if t then some () else none) (fun _ => false) st := by
  let home : Bool → Option Unit := fun t => if t then some () else none
  let st₀ : State Unit Unit ℕ Bool := ⟨fun _ => ⟨[], false, 0, none⟩, fun _ => ⟨[], 0⟩,
    fun t => if t then .gone else .busy none .idle, fun _ => [], fun _ => []⟩
  have hinitial : Initial home st₀ := ⟨fun _ => rfl, fun _ => rfl, by simp [home, st₀], fun _ => rfl, fun _ => rfl⟩
  have hmay : MayCall (fun _ : Unit => false) (none : Option (Unit × ℕ)) := by simp [MayCall]
  have hrun := ((((((ReflTransGen.refl (r := Step home fun _ => false) (a := st₀)).tail
    (.spawn (t := true) rfl (by decide))).tail
    (.wait (t := true) (p := ()) rfl rfl rfl)).tail
    (.connect (t := false) () () rfl hmay rfl (by rintro (_ | _) event _ <;> simp [st₀, State.move, State.setPool]))).tail
    (.scheduled (t := false) rfl)).tail
    (.addEvent (t := false) () 7 rfl hmay)).tail
    (.scheduleSignal (t := false) (p := ()) rfl rfl rfl (by simp [Keeps, home]) Nat.one_pos (.inl ⟨true, rfl, rfl, rfl⟩))
  have hrun := hrun.tail (.takeWoken (t := true) (p := ()) (s := ()) rfl rfl rfl)
  exact ⟨st₀, _, hinitial, hrun, rfl, rfl, rfl, run_sound hinitial hrun⟩

end Landbase.Seda
