import Landbase.Lib.RwLock

/-! # `RecursiveSharedMutex`

The lock of a frame, `common/lang/mutex.cpp` with `CONCURRENCY`: two counters under a `std::mutex`, one condition variable
for readers that wait and one for writers. A thread runs a section under the mutex until it returns or waits; a round of
the loop in `lock_shared` or `lock` is such a section, and so is each of the other calls. A thread that waits may also wake
up without a notification.

The lock does not keep track of its readers. `held` does, for the specification: it says which calls have returned.
-/

namespace Landbase.Common
open Relation Lib
set_option autoImplicit false

/-! ## The members and the sections -/

/-- The members of the lock; the default `std::thread::id` is no thread. -/
structure RecursiveSharedMutex (T : Type) where
  sharedLockCount : ℤ := 0
  exclusiveLockCount : ℤ := 0
  recursiveOwner : Option T := none
  recursiveCount : ℤ := 0
  deriving DecidableEq

namespace RecursiveSharedMutex

variable {T : Type} [DecidableEq T]

/-- The condition variables. -/
inductive Condition
  | shared | exclusive
  deriving DecidableEq, Repr

/-- A round of the loop in `lock_shared`: `none` when it waits. -/
def lockShared (m : RecursiveSharedMutex T) : Option (RecursiveSharedMutex T) :=
  if 0 < m.exclusiveLockCount then none else some { m with sharedLockCount := m.sharedLockCount + 1 }

/-- `try_lock_shared`: `none` when it returns `false`. -/
def tryLockShared (m : RecursiveSharedMutex T) : Option (RecursiveSharedMutex T) :=
  if m.exclusiveLockCount = 0 then some { m with sharedLockCount := m.sharedLockCount + 1 } else none

/-- `unlock_shared`, and whether it notifies a writer. -/
def unlockShared (m : RecursiveSharedMutex T) : RecursiveSharedMutex T × Bool :=
  let m := { m with sharedLockCount := m.sharedLockCount - 1 }
  (m, m.sharedLockCount == 0)

/-- A round of the loop in `lock`: `none` when it waits. -/
def lock (m : RecursiveSharedMutex T) (t : T) : Option (RecursiveSharedMutex T) :=
  if 0 < m.sharedLockCount ∨ 0 < m.exclusiveLockCount then
    if m.recursiveOwner = some t then some { m with recursiveCount := m.recursiveCount + 1 } else none
  else some { m with recursiveOwner := some t, recursiveCount := 1, exclusiveLockCount := m.exclusiveLockCount + 1 }

/-- `unlock`, and whether it notifies all readers and a writer. -/
def unlock (m : RecursiveSharedMutex T) (t : T) : RecursiveSharedMutex T × Bool :=
  if m.recursiveOwner = some t ∧ 1 < m.recursiveCount then
    ({ m with recursiveCount := m.recursiveCount - 1 }, false)
  else
    let m := { m with recursiveOwner := none, recursiveCount := 0, exclusiveLockCount := m.exclusiveLockCount - 1 }
    (m, m.exclusiveLockCount == 0)

/-! ## Threads -/

/-- Where a thread is: in no call, before a round of a loop, or waiting. -/
inductive Place
  | outside
  | awake (c : Condition)
  | asleep (c : Condition)
  deriving DecidableEq, Repr

structure State (T : Type) where
  mutex : RecursiveSharedMutex T
  place : T → Place
  held : RwLock T

def State.initial : State T := ⟨{}, fun _ => .outside, .free⟩

namespace State

variable (s : State T) (t : T)

def move (p : Place) : State T := { s with place := Function.update s.place t p }

/-- `notify_all`. -/
def notifyAll (c : Condition) : State T :=
  { s with place := fun u => if s.place u = .asleep c then .awake c else s.place u }

end State

/-- `notify_one` wakes one of the threads that wait, if there is one. -/
inductive NotifyOne (c : Condition) (s : State T) : State T → Prop
  | nobody (h : ∀ u, s.place u ≠ .asleep c) : NotifyOne c s s
  | thread (u : T) (h : s.place u = .asleep c) : NotifyOne c s (s.move u (.awake c))

/-- One section of one thread. Callers give back only what they hold, do not ask for the one kind while they hold the
other one, and make one call at a time. -/
inductive Step (s : State T) : State T → Prop
  | callLockShared (t : T) (hout : s.place t = .outside) (hheld : t ∉ s.held.writers) :
      Step s (s.move t (.awake .shared))
  | callLock (t : T) (hout : s.place t = .outside) (hheld : t ∉ s.held.readers) :
      Step s (s.move t (.awake .exclusive))
  | waitShared (t : T) (hplace : s.place t = .awake .shared) (hround : s.mutex.lockShared = none) :
      Step s (s.move t (.asleep .shared))
  | wait (t : T) (hplace : s.place t = .awake .exclusive) (hround : s.mutex.lock t = none) :
      Step s (s.move t (.asleep .exclusive))
  | lockShared (t : T) (hplace : s.place t = .awake .shared) {m : RecursiveSharedMutex T}
      (hround : s.mutex.lockShared = some m) :
      Step s { s.move t .outside with mutex := m, held := s.held.addReader t }
  | lock (t : T) (hplace : s.place t = .awake .exclusive) {m : RecursiveSharedMutex T}
      (hround : s.mutex.lock t = some m) :
      Step s { s.move t .outside with mutex := m, held := s.held.addWriter t }
  | tryLockShared (t : T) (hout : s.place t = .outside) (hheld : t ∉ s.held.writers) {m : RecursiveSharedMutex T}
      (hround : s.mutex.tryLockShared = some m) :
      Step s { s with mutex := m, held := s.held.addReader t }
  | unlockShared (t : T) (hout : s.place t = .outside) (hheld : t ∈ s.held.readers) {s' : State T}
      (hnotify : if s.mutex.unlockShared.2 then
        NotifyOne .exclusive { s with mutex := s.mutex.unlockShared.1, held := s.held.eraseReader t } s'
        else s' = { s with mutex := s.mutex.unlockShared.1, held := s.held.eraseReader t }) : Step s s'
  | unlock (t : T) (hout : s.place t = .outside) (hheld : t ∈ s.held.writers) {s' : State T}
      (hnotify : if (s.mutex.unlock t).2 then
        NotifyOne .exclusive
          (State.notifyAll { s with mutex := (s.mutex.unlock t).1, held := s.held.eraseWriter t } .shared) s'
        else s' = { s with mutex := (s.mutex.unlock t).1, held := s.held.eraseWriter t }) : Step s s'
  | wakeUp (t : T) {c : Condition} (hplace : s.place t = .asleep c) : Step s (s.move t (.awake c))

/-! ## The counters -/

/-- The members say who holds the lock. -/
structure Counts (m : RecursiveSharedMutex T) (l : RwLock T) : Prop where
  shared : m.sharedLockCount = l.readers.card
  exclusive : m.exclusiveLockCount = if l.writers = 0 then 0 else 1
  owner : ∀ t, m.recursiveOwner = some t ↔ t ∈ l.writers
  recursive : m.recursiveCount = l.writers.card
  exclusion : l.Exclusive

namespace Counts

variable {m m' : RecursiveSharedMutex T} {l : RwLock T} {t : T}

theorem exclusive_pos (h : Counts m l) : 0 < m.exclusiveLockCount ↔ l.writers ≠ 0 := by
  rw [h.exclusive]
  split
  · next hnone => simp [hnone]
  · next hsome => simp [hsome]

theorem shared_pos (h : Counts m l) : 0 < m.sharedLockCount ↔ l.readers ≠ 0 := by
  rw [h.shared, Int.natCast_pos, Multiset.card_pos]

/-- A round of `lock_shared` waits if and only if somebody writes. -/
theorem lockShared_none (h : Counts m l) : m.lockShared = none ↔ ¬l.Readable := by
  rw [RwLock.Readable, ← ne_eq, ← h.exclusive_pos, RecursiveSharedMutex.lockShared]
  split <;> simp_all

/-- A round of `lock` waits if and only if somebody reads or somebody else writes. -/
theorem lock_none (h : Counts m l) : m.lock t = none ↔ ¬l.Writable t := by
  have hbusy : (0 < m.sharedLockCount ∨ 0 < m.exclusiveLockCount) ↔ (l.readers ≠ 0 ∨ l.writers ≠ 0) :=
    or_congr h.shared_pos h.exclusive_pos
  rw [RecursiveSharedMutex.lock]
  by_cases howner : m.recursiveOwner = some t
  · -- the owner gets the lock once more
    have hmem := (h.owner t).mp howner
    have hwritable : l.Writable t := ⟨h.exclusion.reader t hmem, h.exclusion.writer t hmem⟩
    rw [if_pos (hbusy.mpr (Or.inr (ne_zero_of_mem hmem))), if_pos howner]
    simp [hwritable]
  · have hnot : t ∉ l.writers := fun hmem => howner ((h.owner t).mpr hmem)
    by_cases hfree : l.readers = 0 ∧ l.writers = 0
    · rw [if_neg (by rw [hbusy]; simp [hfree])]
      simp [RwLock.Writable, hfree]
    · rw [if_pos (hbusy.mpr (by tauto)), if_neg howner]
      refine ⟨fun _ hwritable => hfree ⟨hwritable.1, ?_⟩, fun _ => rfl⟩
      exact Multiset.eq_zero_of_forall_notMem fun u hu => hnot (hwritable.2 u hu ▸ hu)

theorem addReader (h : Counts m l) (hreadable : l.Readable) (t : T) :
    Counts { m with sharedLockCount := m.sharedLockCount + 1 } (l.addReader t) where
  shared := by
    show m.sharedLockCount + 1 = ((t ::ₘ l.readers).card : ℤ)
    rw [h.shared, Multiset.card_cons]
    push_cast
    rfl
  exclusive := h.exclusive
  owner := h.owner
  recursive := h.recursive
  exclusion := .addReader hreadable t

theorem lockShared (h : Counts m l) (hround : m.lockShared = some m') : l.Readable ∧ Counts m' (l.addReader t) := by
  have hreadable : l.Readable := by
    by_contra hbusy
    rw [h.lockShared_none.mpr hbusy] at hround
    cases hround
  rw [RecursiveSharedMutex.lockShared] at hround
  split at hround
  · cases hround
  · obtain rfl := Option.some.inj hround
    exact ⟨hreadable, h.addReader hreadable t⟩

theorem tryLockShared (h : Counts m l) (hround : m.tryLockShared = some m') :
    l.Readable ∧ Counts m' (l.addReader t) := by
  rw [RecursiveSharedMutex.tryLockShared] at hround
  split at hround
  · next hzero =>
    obtain rfl := Option.some.inj hround
    have hreadable : l.writers = 0 := by
      rw [h.exclusive] at hzero
      by_contra hsome
      rw [if_neg hsome] at hzero
      cases hzero
    exact ⟨hreadable, h.addReader hreadable t⟩
  · cases hround

theorem unlockShared (h : Counts m l) (ht : t ∈ l.readers) : Counts m.unlockShared.1 (l.eraseReader t) where
  shared := by
    have hcard := Multiset.card_erase_add_one ht
    show m.sharedLockCount - 1 = ((l.readers.erase t).card : ℤ)
    rw [h.shared]
    omega
  exclusive := h.exclusive
  owner := h.owner
  recursive := h.recursive
  exclusion := h.exclusion.eraseReader t

theorem lock (h : Counts m l) (hround : m.lock t = some m') :
    l.Writable t ∧ Counts m' (l.addWriter t) := by
  have hwritable : l.Writable t := by
    by_contra hbusy
    rw [h.lock_none.mpr hbusy] at hround
    cases hround
  have hexclusion := RwLock.Exclusive.addWriter hwritable
  have hne : (l.addWriter t).writers ≠ 0 := Multiset.cons_ne_zero
  have howner : ∀ u, some t = some u ↔ u ∈ (l.addWriter t).writers := by
    intro u
    rw [RwLock.addWriter, Multiset.mem_cons, Option.some_inj]
    constructor
    · exact fun heq => Or.inl heq.symm
    · rintro (heq | hmem)
      · exact heq.symm
      · exact (hwritable.2 u hmem).symm
  refine ⟨hwritable, ?_⟩
  rw [RecursiveSharedMutex.lock] at hround
  split at hround
  · split at hround
    · next hagain =>
      obtain rfl := Option.some.inj hround
      have hmem := (h.owner t).mp hagain
      constructor
      · exact h.shared
      · rw [if_neg hne]
        show m.exclusiveLockCount = 1
        rw [h.exclusive, if_neg (ne_zero_of_mem hmem)]
      · intro u
        show m.recursiveOwner = some u ↔ _
        rw [hagain]
        exact howner u
      · show m.recursiveCount + 1 = ((t ::ₘ l.writers).card : ℤ)
        rw [h.recursive, Multiset.card_cons]
        push_cast
        rfl
      · exact hexclusion
    · cases hround
  · next hfree =>
    obtain rfl := Option.some.inj hround
    have hnone : l.writers = 0 := by
      by_contra hsome
      exact hfree (Or.inr (h.exclusive_pos.mpr hsome))
    constructor
    · exact h.shared
    · rw [if_neg hne]
      show m.exclusiveLockCount + 1 = 1
      rw [h.exclusive, if_pos hnone]
      rfl
    · exact howner
    · show (1 : ℤ) = ((t ::ₘ l.writers).card : ℤ)
      rw [hnone]
      rfl
    · exact hexclusion

/-- The counter of the owner says whether the lock is given back for the last time. -/
theorem unlock (h : Counts m l) (ht : t ∈ l.writers) :
    Counts (m.unlock t).1 (l.eraseWriter t) ∧ ((m.unlock t).2 = true ↔ l.writers.erase t = 0) := by
  have howner := (h.owner t).mpr ht
  have hcard := Multiset.card_erase_add_one ht
  have hexclusive : m.exclusiveLockCount = 1 := by
    rw [h.exclusive, if_neg (ne_zero_of_mem ht)]
  have hexclusion := h.exclusion.eraseWriter t
  rw [RecursiveSharedMutex.unlock]
  by_cases hmore : 1 < m.recursiveCount
  · have hne : l.writers.erase t ≠ 0 := by
      rw [h.recursive] at hmore
      rw [← Multiset.card_pos]
      omega
    obtain ⟨u, hu⟩ := Multiset.exists_mem_of_ne_zero hne
    have hmem : t ∈ l.writers.erase t := h.exclusion.writer t ht u (Multiset.mem_of_mem_erase hu) ▸ hu
    rw [if_pos ⟨howner, hmore⟩]
    refine ⟨⟨h.shared, ?_, fun v => ?_, ?_, hexclusion⟩, by simp [hne]⟩
    · show m.exclusiveLockCount = if l.writers.erase t = 0 then 0 else 1
      rw [if_neg hne, hexclusive]
    · show m.recursiveOwner = some v ↔ v ∈ l.writers.erase t
      rw [howner, Option.some_inj]
      constructor
      · rintro rfl
        exact hmem
      · exact fun hv => (h.exclusion.writer t ht v (Multiset.mem_of_mem_erase hv)).symm
    · show m.recursiveCount - 1 = ((l.writers.erase t).card : ℤ)
      rw [h.recursive]
      omega
  · have hzero : l.writers.erase t = 0 := by
      rw [h.recursive] at hmore
      rw [← Multiset.card_eq_zero]
      omega
    rw [if_neg fun hboth => hmore hboth.2]
    refine ⟨⟨h.shared, ?_, fun v => ?_, ?_, hexclusion⟩, ?_⟩
    · show m.exclusiveLockCount - 1 = if l.writers.erase t = 0 then 0 else 1
      rw [if_pos hzero, hexclusive]
      rfl
    · show none = some v ↔ v ∈ l.writers.erase t
      rw [hzero]
      simp
    · show (0 : ℤ) = ((l.writers.erase t).card : ℤ)
      rw [hzero]
      rfl
    · simp [hzero, hexclusive]

end Counts

/-! ## Who waits -/

/-- Nobody waits who holds the lock, and readers wait for a writer only. -/
structure Waits (s : State T) : Prop where
  counts : Counts s.mutex s.held
  reader : ∀ t ∈ s.held.readers, s.place t = .outside ∨ s.place t = .awake .shared
  writer : ∀ t ∈ s.held.writers, s.place t = .outside ∨ s.place t = .awake .exclusive
  shared : ∀ t, s.place t = .asleep .shared → s.held.writers ≠ 0

/-- A writer that waits has somebody to wake it up: one who holds the lock, or a writer that is awake. -/
def Awaited (s : State T) : Prop :=
  ∀ t, s.place t = .asleep .exclusive → s.held.readers ≠ 0 ∨ s.held.writers ≠ 0 ∨ ∃ u, s.place u = .awake .exclusive

structure Inv (s : State T) : Prop extends Waits s where
  awaited : Awaited s

theorem inv_initial : Inv (State.initial : State T) where
  counts := ⟨rfl, rfl, fun t => by simp [State.initial, RwLock.free], rfl, RwLock.exclusive_free⟩
  reader t ht := absurd ht (Multiset.notMem_zero t)
  writer t ht := absurd ht (Multiset.notMem_zero t)
  shared t ht := by cases ht
  awaited t ht := by cases ht

variable {s s' : State T} {t u : T} {c : Condition} {p : Place}

theorem place_move : (s.move t p).place u = if u = t then p else s.place u := by
  simp only [State.move, Function.update_apply]

/-- A thread that holds nothing may go anywhere, except that it does not wait for a reader as a reader. -/
theorem Waits.move (h : Waits s) (hreader : t ∈ s.held.readers → p = .outside ∨ p = .awake .shared)
    (hwriter : t ∈ s.held.writers → p = .outside ∨ p = .awake .exclusive)
    (hshared : p = .asleep .shared → s.held.writers ≠ 0) : Waits (s.move t p) where
  counts := h.counts
  reader u hu := by
    rw [place_move]
    split
    · next heq => exact hreader (heq ▸ hu)
    · exact h.reader u hu
  writer u hu := by
    rw [place_move]
    split
    · next heq => exact hwriter (heq ▸ hu)
    · exact h.writer u hu
  shared u hu := by
    rw [place_move] at hu
    split at hu
    · exact hshared hu
    · exact h.shared u hu

theorem Inv.move (h : Inv s) (hwaits : Waits (s.move t p)) (hplace : s.place t ≠ .awake .exclusive)
    (hp : p ≠ .asleep .exclusive) : Inv (s.move t p) := by
  refine ⟨hwaits, fun u hu => ?_⟩
  rw [place_move] at hu
  split at hu
  · exact absurd hu hp
  · cases h.awaited u hu with
    | inl hreaders => exact Or.inl hreaders
    | inr hrest =>
      cases hrest with
      | inl hwriters => exact Or.inr (Or.inl hwriters)
      | inr hawake =>
        obtain ⟨v, hv⟩ := hawake
        refine Or.inr (Or.inr ⟨v, ?_⟩)
        rw [place_move, if_neg]
        · exact hv
        · rintro rfl
          exact hplace hv

/-- Behind a notification of a writer, a writer that waits is awaited. -/
theorem NotifyOne.inv (h : NotifyOne .exclusive s s') (hwaits : Waits s) : Inv s' := by
  cases h with
  | nobody hnobody => exact ⟨hwaits, fun u hu => absurd hu (hnobody u)⟩
  | thread u hu =>
    refine ⟨hwaits.move ?_ ?_ ?_, fun v _ => Or.inr (Or.inr ⟨u, ?_⟩)⟩
    · intro hmem
      have := hwaits.reader u hmem
      simp [hu] at this
    · exact fun _ => Or.inr rfl
    · exact fun heq => by cases heq
    · rw [place_move, if_pos rfl]

/-- A reader comes in. -/
theorem Inv.enterShared (h : Inv s) {m : RecursiveSharedMutex T} (hreadable : s.held.Readable)
    (hcounts : Counts m (s.held.addReader t)) (hp : p = .outside) : Inv { s.move t p with mutex := m, held := s.held.addReader t } := by
  subst hp
  have hnobody : s.held.writers = 0 := hreadable
  refine ⟨⟨hcounts, fun u hu => ?_, fun u hu => ?_, fun u hu => ?_⟩, fun u hu => ?_⟩
  · show (s.move t .outside).place u = .outside ∨ (s.move t .outside).place u = .awake .shared
    rw [place_move]
    split
    · exact Or.inl rfl
    · next hne => exact h.reader u ((RwLock.mem_addReader.mp hu).resolve_left hne)
  · exact absurd hnobody (ne_zero_of_mem hu)
  · replace hu : (s.move t .outside).place u = .asleep .shared := hu
    rw [place_move] at hu
    split at hu
    · cases hu
    · exact absurd hnobody (h.shared u hu)
  · exact Or.inl (ne_zero_of_mem (RwLock.mem_addReader.mpr (Or.inl rfl)))

/-- A writer comes in. -/
theorem Inv.enter (h : Inv s) {m : RecursiveSharedMutex T} (hwritable : s.held.Writable t)
    (hcounts : Counts m (s.held.addWriter t)) :
    Inv { s.move t .outside with mutex := m, held := s.held.addWriter t } := by
  have hmem : t ∈ (s.held.addWriter t).writers := RwLock.mem_addWriter.mpr (Or.inl rfl)
  refine ⟨⟨hcounts, fun u hu => ?_, fun u hu => ?_, fun _ _ => ne_zero_of_mem hmem⟩, fun _ _ =>
    Or.inr (Or.inl (ne_zero_of_mem hmem))⟩
  · exact absurd hwritable.1 (ne_zero_of_mem hu)
  · show (s.move t .outside).place u = .outside ∨ (s.move t .outside).place u = .awake .exclusive
    rw [place_move]
    split
    · exact Or.inl rfl
    · next hne => exact h.writer u ((RwLock.mem_addWriter.mp hu).resolve_left hne)

/-- A reader leaves; the last one notifies a writer. -/
theorem Inv.leaveShared (h : Inv s) (ht : t ∈ s.held.readers)
    (hnotify : if s.mutex.unlockShared.2 then
      NotifyOne .exclusive { s with mutex := s.mutex.unlockShared.1, held := s.held.eraseReader t } s'
      else s' = { s with mutex := s.mutex.unlockShared.1, held := s.held.eraseReader t }) : Inv s' := by
  have hcounts : Counts s.mutex.unlockShared.1 (s.held.eraseReader t) := h.counts.unlockShared ht
  have hwaits : Waits { s with mutex := s.mutex.unlockShared.1, held := s.held.eraseReader t } :=
    ⟨hcounts, fun u hu => h.reader u (Multiset.mem_of_mem_erase hu), h.writer, h.shared⟩
  split at hnotify
  · exact hnotify.inv hwaits
  · next hmore =>
    subst hnotify
    refine ⟨hwaits, fun _ _ => Or.inl ?_⟩
    intro hnone
    refine hmore (beq_iff_eq.mpr ?_)
    have hshared := hcounts.shared
    rw [hnone] at hshared
    exact hshared

theorem Waits.notifyAll (hcounts : Counts s.mutex s.held)
    (hreader : ∀ t ∈ s.held.readers, s.place t = .outside ∨ s.place t = .awake .shared)
    (hwriter : ∀ t ∈ s.held.writers, s.place t = .outside ∨ s.place t = .awake .exclusive) :
    Waits (s.notifyAll .shared) where
  counts := hcounts
  reader u hu := by
    cases hreader u hu with
    | inl hout => exact Or.inl (by simp [State.notifyAll, hout])
    | inr hawake => exact Or.inr (by simp [State.notifyAll, hawake])
  writer u hu := by
    cases hwriter u hu with
    | inl hout => exact Or.inl (by simp [State.notifyAll, hout])
    | inr hawake => exact Or.inr (by simp [State.notifyAll, hawake])
  shared u hu := by
    simp only [State.notifyAll] at hu
    split at hu
    · cases hu
    · next hnot => exact absurd hu hnot

/-- A writer gives the lock back; the last time it notifies all readers and a writer. -/
theorem Inv.leave (h : Inv s) (ht : t ∈ s.held.writers)
    (hnotify : if (s.mutex.unlock t).2 then
      NotifyOne .exclusive
        (State.notifyAll { s with mutex := (s.mutex.unlock t).1, held := s.held.eraseWriter t } .shared) s'
      else s' = { s with mutex := (s.mutex.unlock t).1, held := s.held.eraseWriter t }) : Inv s' := by
  obtain ⟨hcounts, hlast⟩ := h.counts.unlock ht
  have hwriter : ∀ u ∈ s.held.writers.erase t, s.place u = .outside ∨ s.place u = .awake .exclusive :=
    fun u hu => h.writer u (Multiset.mem_of_mem_erase hu)
  split at hnotify
  · exact hnotify.inv (Waits.notifyAll hcounts h.reader hwriter)
  · next hmore =>
    subst hnotify
    have hne : s.held.writers.erase t ≠ 0 := fun hzero => hmore (hlast.mpr hzero)
    exact ⟨⟨hcounts, h.reader, hwriter, fun _ _ => hne⟩, fun _ _ => Or.inr (Or.inl hne)⟩

/-- What every section does to the holders is a step of a reader-writer lock, and it keeps the invariant. -/
theorem Inv.step (h : Inv s) (hstep : Step s s') : Inv s' ∧ (s'.held = s.held ∨ RwLock.Step s.held s'.held) := by
  cases hstep with
  | callLockShared t hout hheld =>
    refine ⟨h.move (h.toWaits.move (fun _ => Or.inr rfl) (fun hmem => absurd hmem hheld) (fun heq => by cases heq)) ?_ ?_,
      Or.inl rfl⟩
    · simp [hout]
    · simp
  | callLock t hout hheld =>
    have hwaits := h.toWaits.move (t := t) (p := .awake .exclusive) (fun hmem => absurd hmem hheld) (fun _ => Or.inr rfl)
      (fun heq => by cases heq)
    exact ⟨⟨hwaits, fun u _ => Or.inr (Or.inr ⟨t, by rw [place_move, if_pos rfl]⟩)⟩, Or.inl rfl⟩
  | waitShared t hplace hround =>
    have hbusy : s.held.writers ≠ 0 := h.counts.lockShared_none.mp hround
    refine ⟨h.move (h.toWaits.move ?_ ?_ fun _ => hbusy) ?_ ?_, Or.inl rfl⟩
    · intro hmem
      obtain ⟨u, hu⟩ := Multiset.exists_mem_of_ne_zero hbusy
      exact absurd (h.counts.exclusion.reader u hu) (ne_zero_of_mem hmem)
    · intro hmem
      have := h.writer t hmem
      simp [hplace] at this
    · simp [hplace]
    · simp
  | wait t hplace hround =>
    have hbusy := h.counts.lock_none.mp hround
    have hheld : s.held.readers ≠ 0 ∨ s.held.writers ≠ 0 := by
      by_contra hfree
      rw [not_or, not_not, not_not] at hfree
      exact hbusy ⟨hfree.1, fun u hu => absurd hfree.2 (ne_zero_of_mem hu)⟩
    refine ⟨⟨h.toWaits.move ?_ ?_ fun heq => ?_, fun _ _ => ?_⟩, Or.inl rfl⟩
    · intro hmem
      have := h.reader t hmem
      simp [hplace] at this
    · exact fun hmem => absurd ⟨h.counts.exclusion.reader t hmem, h.counts.exclusion.writer t hmem⟩ hbusy
    · cases heq
    · cases hheld with
      | inl hreaders => exact Or.inl hreaders
      | inr hwriters => exact Or.inr (Or.inl hwriters)
  | lockShared t hplace hround =>
    obtain ⟨hreadable, hcounts⟩ := h.counts.lockShared (t := t) hround
    exact ⟨h.enterShared hreadable hcounts rfl, Or.inr (.lockShared t hreadable)⟩
  | lock t hplace hround =>
    obtain ⟨hwritable, hcounts⟩ := h.counts.lock hround
    exact ⟨h.enter hwritable hcounts, Or.inr (.lock t hwritable)⟩
  | tryLockShared t hout hheld hround =>
    obtain ⟨hreadable, hcounts⟩ := h.counts.tryLockShared (t := t) hround
    have hsame : s.move t (s.place t) = s := by
      rw [State.move, Function.update_eq_self]
    have hinv := h.enterShared hreadable hcounts (p := s.place t) hout
    rw [hsame] at hinv
    exact ⟨hinv, Or.inr (.lockShared t hreadable)⟩
  | unlockShared t hout hheld hnotify =>
    refine ⟨h.leaveShared hheld hnotify, Or.inr ?_⟩
    have hsame : s'.held = s.held.eraseReader t := by
      split at hnotify
      · cases hnotify <;> rfl
      · rw [hnotify]
    rw [hsame]
    exact .unlockShared t hheld
  | unlock t hout hheld hnotify =>
    refine ⟨h.leave hheld hnotify, Or.inr ?_⟩
    have hsame : s'.held = s.held.eraseWriter t := by
      split at hnotify
      · cases hnotify <;> rfl
      · rw [hnotify]
    rw [hsame]
    exact .unlock t hheld
  | wakeUp t hplace =>
    refine ⟨h.move (h.toWaits.move ?_ ?_ fun heq => by cases heq) ?_ ?_, Or.inl rfl⟩
    · intro hmem
      have := h.reader t hmem
      simp [hplace] at this
    · intro hmem
      have := h.writer t hmem
      simp [hplace] at this
    · simp [hplace]
    · simp

/-! ## Runs -/

/-- What callers rely on. -/
structure Sound (s : State T) : Prop where
  /-- Writers keep out everybody else. -/
  exclusion : s.held.Exclusive
  /-- A thread that looks gets in if and only if it may. -/
  shared : s.mutex.lockShared ≠ none ↔ s.held.Readable
  exclusive : ∀ t, s.mutex.lock t ≠ none ↔ s.held.Writable t
  /-- Who holds the lock does not wait for it. -/
  holder : ∀ t c, t ∈ s.held.readers ∨ t ∈ s.held.writers → s.place t ≠ .asleep c
  /-- When the lock is free and somebody is in a call, somebody in a call is awake, and gets in. -/
  notified : s.held = .free → ∀ t, s.place t ≠ .outside → ∃ u c s', s.place u = .awake c ∧ Step s s' ∧
    (s'.held = s.held.addReader u ∨ s'.held = s.held.addWriter u)

/-- From a free lock a thread that is awake gets in. -/
theorem Inv.enters (h : Inv s) (hfree : s.held = .free) (hplace : s.place t = .awake c) :
    ∃ s', Step s s' ∧ (s'.held = s.held.addReader t ∨ s'.held = s.held.addWriter t) := by
  cases c with
  | shared =>
    have hround : s.mutex.lockShared ≠ none := by
      rw [ne_eq, h.counts.lockShared_none, hfree]
      exact not_not.mpr rfl
    obtain ⟨m, hm⟩ := Option.ne_none_iff_exists'.mp hround
    exact ⟨_, .lockShared t hplace hm, Or.inl rfl⟩
  | exclusive =>
    have hround : s.mutex.lock t ≠ none := by
      rw [ne_eq, h.counts.lock_none, hfree]
      exact not_not.mpr ⟨rfl, fun u hu => absurd hu (Multiset.notMem_zero u)⟩
    obtain ⟨m, hm⟩ := Option.ne_none_iff_exists'.mp hround
    exact ⟨_, .lock t hplace hm, Or.inr rfl⟩

theorem Inv.sound (h : Inv s) : Sound s where
  exclusion := h.counts.exclusion
  shared := by rw [ne_eq, h.counts.lockShared_none, not_not]
  exclusive t := by rw [ne_eq, h.counts.lock_none, not_not]
  holder t c ht heq := by
    cases ht with
    | inl hmem =>
      have := h.reader t hmem
      simp [heq] at this
    | inr hmem =>
      have := h.writer t hmem
      simp [heq] at this
  notified hfree t ht := by
    have hawake : ∃ u c, s.place u = .awake c := by
      cases hplace : s.place t with
      | outside => exact absurd hplace ht
      | awake c => exact ⟨t, c, hplace⟩
      | asleep c =>
        cases c with
        | shared =>
          have hwriters := h.shared t hplace
          rw [hfree] at hwriters
          exact absurd rfl hwriters
        | exclusive =>
          have hawaited := h.awaited t hplace
          rw [hfree] at hawaited
          obtain hreaders | hwriters | ⟨u, hu⟩ := hawaited
          · exact absurd rfl hreaders
          · exact absurd rfl hwriters
          · exact ⟨u, _, hu⟩
    obtain ⟨u, c, hu⟩ := hawake
    obtain ⟨s', hstep, hheld⟩ := h.enters hfree hu
    exact ⟨u, c, s', hu, hstep, hheld⟩

theorem Inv.held_run (h : Inv s) (hstep : Step s s') : ReflTransGen RwLock.Step s.held s'.held := by
  cases (h.step hstep).2 with
  | inl hsame => rw [hsame]
  | inr hlock => exact ReflTransGen.single hlock

/-- In every run of any number of threads the lock is a reader-writer lock, and no notification is lost. -/
theorem run_refines_rwLock (hrun : ReflTransGen Step State.initial s) :
    ReflTransGen RwLock.Step RwLock.free s.held ∧ Sound s :=
  ⟨refines_run (I := Inv) (fun _ _ hstep h => (h.step hstep).1) (fun _ _ h hstep => h.held_run hstep) hrun inv_initial,
    (keeps_run (I := Inv) (fun _ _ hstep h => (h.step hstep).1) hrun inv_initial).sound⟩

/-- A writer waits for another one and is notified. -/
theorem run_refines_rwLock_handover : ∃ s : State ℕ, s.place 1 = .awake .exclusive ∧ s.held = .free ∧
    ReflTransGen RwLock.Step RwLock.free s.held ∧ Sound s := by
  have h1 : ReflTransGen Step State.initial _ := .single (.callLock 0 rfl (Multiset.notMem_zero 0))
  have h2 := h1.tail (.lock 0 rfl rfl)
  have h3 := h2.tail (.callLock 1 rfl (Multiset.notMem_zero 1))
  have h4 := h3.tail (.wait 1 rfl rfl)
  have h5 := h4.tail (.unlock 0 rfl (Multiset.mem_singleton_self 0) (NotifyOne.thread 1 rfl))
  exact ⟨_, rfl, congrArg (RwLock.mk 0) (Multiset.erase_cons_head 0 0), run_refines_rwLock h5⟩

end RecursiveSharedMutex

end Landbase.Common
