import Landbase.Common.Basic
import Landbase.Lib.RwLock

/-! # `LatchMemo`

The latches and pins of one operation on an index, `storage/trx/latch_memo.cpp`, with the latches of a frame of
`storage/buffer/frame.cpp`. An operation may hold a frame several times; the memo writes down each time and gives them
back, the last one first, so that a frame is unlatched before it is unpinned.

Each thread runs one operation at a time. A frame is known by its page, since it stays where it is while it is pinned.
`root_lock_` is the lock of the tree, a `std::shared_mutex`. The assertions of a frame are those of a build with `DEBUG`.
-/

namespace Landbase.Latch
open Relation Lib
set_option autoImplicit false

/-! ## Frames -/

/-- How a call ends: with a result, not before another thread has moved, or with a failed assertion. -/
inductive Outcome (α : Type)
  | done (a : α)
  | waits
  | fails

def Outcome.bind {α β : Type} (x : Outcome α) (f : α → Outcome β) : Outcome β :=
  match x with
  | .done a => f a
  | .waits => .waits
  | .fails => .fails

/-- What can be latched: the frame of a page, or `root_lock_`. -/
inductive Target
  | frame (pageNum : PageNum)
  | rootLock
  deriving DecidableEq, Repr

/-- `enum class LatchMemoType`. -/
inductive LatchMemoType
  | shared | exclusive | pin
  deriving DecidableEq, Repr

/-- `pin_count_`, `lock_` with the owner of `write_locker_`, and `read_lockers_`, in which a reader stands as often as its
count says. -/
structure Frames (T : Type) where
  pinCount : PageNum → ℕ
  lock : Target → RwLock T
  readLockers : PageNum → Multiset T

variable {T : Type}

namespace Frames

variable (f : Frames T)

def setLock (target : Target) (l : RwLock T) : Frames T := { f with lock := Function.update f.lock target l }

theorem setLock_self (target : Target) (l : RwLock T) : (f.setLock target l).lock target = l := Function.update_self ..

theorem setLock_of_ne {target target' : Target} (hne : target' ≠ target) (l : RwLock T) :
    (f.setLock target l).lock target' = f.lock target' := Function.update_of_ne hne ..

/-- `++read_lockers_[xid]`. -/
def addLocker (t : T) : Target → Frames T
  | .frame p => { f with readLockers := Function.update f.readLockers p (t ::ₘ f.readLockers p) }
  | .rootLock => f

theorem addLocker_eq (t : T) (target : Target) :
    f.addLocker t target = { f with readLockers := (f.addLocker t target).readLockers } := by
  cases target <;> rfl

/-- `read_lockers_` keeps up with the lock, when a reader comes. -/
theorem addLocker_readLockers {f : Frames T} (h : ∀ p, f.readLockers p = (f.lock (.frame p)).readers) (t : T)
    (target : Target) (p : PageNum) :
    ((f.setLock target ((f.lock target).addReader t)).addLocker t target).readLockers p =
      ((f.setLock target ((f.lock target).addReader t)).lock (.frame p)).readers := by
  by_cases htarget : .frame p = target
  · subst htarget
    rw [setLock_self]
    simp only [addLocker, setLock, Function.update_self, h p]
    rfl
  · rw [setLock_of_ne _ htarget, ← h p]
    cases target with
    | frame q =>
      have hne : p ≠ q := fun heq => htarget (heq ▸ rfl)
      simp only [addLocker, setLock, Function.update_of_ne hne]
    | rootLock => rfl

variable [DecidableEq T]

/-- `Frame::pin`. -/
def pin (p : PageNum) : Frames T := { f with pinCount := Function.update f.pinCount p (f.pinCount p + 1) }

/-- `Frame::unpin`. -/
def unpin (p : PageNum) : Outcome (Frames T) :=
  if f.pinCount p = 0 then .fails
  else if f.pinCount p = 1 ∧ (f.readLockers p ≠ 0 ∨ (f.lock (.frame p)).writers ≠ 0) then .fails
  else .done { f with pinCount := Function.update f.pinCount p (f.pinCount p - 1) }

/-- A frame that is latched or unlatched is pinned. -/
def Pinned : Target → Prop
  | .frame p => 0 < f.pinCount p
  | .rootLock => True

instance (target : Target) : Decidable (f.Pinned target) :=
  match target with
  | .frame p => inferInstanceAs (Decidable (0 < f.pinCount p))
  | .rootLock => inferInstanceAs (Decidable True)

/-- The assertions of `write_latch`; a thread that has the shared mutex does not ask for it again. -/
def MayWrite (t : T) : Target → Prop
  | .frame p => 0 < f.pinCount p ∧ t ∉ f.readLockers p
  | .rootLock => t ∉ (f.lock .rootLock).readers ∧ t ∉ (f.lock .rootLock).writers

/-- The assertions of `read_latch` and `try_read_latch`. -/
def MayRead (t : T) : Target → Prop
  | .frame p => 0 < f.pinCount p ∧ t ∉ (f.lock (.frame p)).writers
  | .rootLock => t ∉ (f.lock .rootLock).readers ∧ t ∉ (f.lock .rootLock).writers

instance (t : T) (target : Target) : Decidable (f.MayWrite t target) :=
  match target with
  | .frame p => inferInstanceAs (Decidable (0 < f.pinCount p ∧ t ∉ f.readLockers p))
  | .rootLock => inferInstanceAs (Decidable (t ∉ (f.lock .rootLock).readers ∧ t ∉ (f.lock .rootLock).writers))

instance (t : T) (target : Target) : Decidable (f.MayRead t target) :=
  match target with
  | .frame p => inferInstanceAs (Decidable (0 < f.pinCount p ∧ t ∉ (f.lock (.frame p)).writers))
  | .rootLock => inferInstanceAs (Decidable (t ∉ (f.lock .rootLock).readers ∧ t ∉ (f.lock .rootLock).writers))

/-- The assertions of `read_unlatch`. -/
def Reads (t : T) : Target → Prop
  | .frame p => 0 < f.pinCount p ∧ t ∈ f.readLockers p
  | .rootLock => t ∈ (f.lock .rootLock).readers

instance (t : T) (target : Target) : Decidable (f.Reads t target) :=
  match target with
  | .frame p => inferInstanceAs (Decidable (0 < f.pinCount p ∧ t ∈ f.readLockers p))
  | .rootLock => inferInstanceAs (Decidable (t ∈ (f.lock .rootLock).readers))

/-- `read_unlatch` erases a reader whose count is one, and leaves every other count as it is. -/
def eraseLocker (t : T) : Target → Frames T
  | .frame p =>
    let lockers := f.readLockers p
    { f with
      readLockers := Function.update f.readLockers p (if lockers.count t = 1 then lockers.erase t else lockers) }
  | .rootLock => f

instance (l : RwLock T) (t : T) : Decidable (l.Writable t) :=
  inferInstanceAs (Decidable (l.readers = 0 ∧ ∀ u ∈ l.writers, u = t))

instance (l : RwLock T) : Decidable l.Readable := inferInstanceAs (Decidable (l.writers = 0))

/-- `write_latch`, and `lock` of the shared mutex. -/
def writeLatch (t : T) (target : Target) : Outcome (Frames T) :=
  if ¬f.MayWrite t target then .fails
  else if (f.lock target).Writable t then .done (f.setLock target ((f.lock target).addWriter t)) else .waits

/-- `read_latch`, and `lock_shared` of the shared mutex. -/
def readLatch (t : T) (target : Target) : Outcome (Frames T) :=
  if ¬f.MayRead t target then .fails
  else if (f.lock target).Readable then .done ((f.setLock target ((f.lock target).addReader t)).addLocker t target)
  else .waits

/-- `write_unlatch`, and `unlock` of the shared mutex. -/
def writeUnlatch (t : T) (target : Target) : Outcome (Frames T) :=
  if f.Pinned target ∧ t ∈ (f.lock target).writers then
    .done (f.setLock target ((f.lock target).eraseWriter t))
  else .fails

/-- `read_unlatch`, and `unlock_shared` of the shared mutex. -/
def readUnlatch (t : T) (target : Target) : Outcome (Frames T) :=
  if f.Reads t target then .done ((f.setLock target ((f.lock target).eraseReader t)).eraseLocker t target)
  else .fails

variable {f}

theorem eraseLocker_eq (t : T) (target : Target) :
    f.eraseLocker t target = { f with readLockers := (f.eraseLocker t target).readLockers } := by
  cases target <;> rfl

/-- `read_lockers_` keeps up with the lock, when a reader goes that has the frame once. -/
theorem eraseLocker_readLockers {t : T} {target : Target} (h : ∀ p, f.readLockers p = (f.lock (.frame p)).readers)
    (honce : ∀ p, target = .frame p → (f.lock target).readers.count t = 1) (p : PageNum) :
    ((f.setLock target ((f.lock target).eraseReader t)).eraseLocker t target).readLockers p =
      ((f.setLock target ((f.lock target).eraseReader t)).lock (.frame p)).readers := by
  by_cases htarget : .frame p = target
  · subst htarget
    rw [setLock_self]
    simp only [eraseLocker, setLock, Function.update_self, h p, if_pos (honce p rfl)]
    rfl
  · rw [setLock_of_ne _ htarget, ← h p]
    cases target with
    | frame q =>
      have hne : p ≠ q := fun heq => htarget (heq ▸ rfl)
      simp only [eraseLocker, setLock, Function.update_of_ne hne]
    | rootLock => rfl

end Frames

variable [DecidableEq T]

/-! ## The memo -/

structure LatchMemoItem where
  type : LatchMemoType
  target : Target
  deriving DecidableEq, Repr

structure LatchMemo where
  items : List LatchMemoItem := []
  disposedPages : List PageNum := []
  deriving DecidableEq, Repr

namespace LatchMemo

variable (f : Frames T) (memo : LatchMemo) (t : T)

def push (item : LatchMemoItem) : LatchMemo := { memo with items := memo.items ++ [item] }

/-- `LatchMemo::get_page`, when the page can be had. -/
def getPage (p : PageNum) : Frames T × LatchMemo := (f.pin p, memo.push ⟨.pin, .frame p⟩)

/-- `LatchMemo::allocate_page`, when the pool gives the page `p`. -/
def allocatePage (p : PageNum) : Outcome (Frames T × LatchMemo) :=
  let r := memo.getPage f p
  if r.1.pinCount p = 1 then .done r else .fails

/-- `LatchMemo::dispose_page`. -/
def disposePage (p : PageNum) : LatchMemo := { memo with disposedPages := memo.disposedPages ++ [p] }

/-- `LatchMemo::latch`, `xlatch` and `slatch`. -/
def latch (type : LatchMemoType) (target : Target) : Outcome (Frames T × LatchMemo) :=
  match type with
  | .exclusive => (f.writeLatch t target).bind fun f => .done (f, memo.push ⟨.exclusive, target⟩)
  | .shared => (f.readLatch t target).bind fun f => .done (f, memo.push ⟨.shared, target⟩)
  | .pin => .fails

/-- `LatchMemo::try_slatch`. -/
def trySlatch (p : PageNum) : Outcome (Bool × Frames T × LatchMemo) :=
  match f.readLatch t (.frame p) with
  | .done f => .done (true, f, memo.push ⟨.shared, .frame p⟩)
  | .waits => .done (false, f, memo)
  | .fails => .fails

/-- `LatchMemo::release_item`. -/
def releaseItem (item : LatchMemoItem) : Outcome (Frames T) :=
  match item.type, item.target with
  | .exclusive, target => f.writeUnlatch t target
  | .shared, target => f.readUnlatch t target
  | .pin, .frame p => f.unpin p
  | .pin, .rootLock => .fails

/-- The loop of `release_to`. -/
def releaseItems : Frames T → List LatchMemoItem → Outcome (Frames T)
  | f, [] => .done f
  | f, item :: items => (releaseItem f t item).bind fun f => releaseItems f items

/-- `LatchMemo::release_to`: the first `point` items are given back, the last of them first. -/
def releaseTo (point : ℕ) : Outcome (Frames T × LatchMemo) :=
  if memo.items.length < point then .fails
  else (releaseItems t f (memo.items.take point).reverse).bind fun f =>
    .done (f, { memo with items := memo.items.drop point })

/-- `LatchMemo::release`, with the pages that are given to `dispose_page` of the pool in the end. -/
def release : Outcome (Frames T × LatchMemo × List PageNum) :=
  (memo.releaseTo f t memo.items.length).bind fun r => .done (r.1, { r.2 with disposedPages := [] }, memo.disposedPages)

end LatchMemo

/-! ## Threads -/

/-- The calls of an operation on its memo. -/
inductive Call
  | getPage (p : PageNum)
  | allocatePage (p : PageNum)
  | disposePage (p : PageNum)
  | latch (type : LatchMemoType) (target : Target)
  | trySlatch (p : PageNum)
  | releaseTo (point : ℕ)
  | release

def Call.run (f : Frames T) (memo : LatchMemo) (t : T) : Call → Outcome (Frames T × LatchMemo)
  | .getPage p => .done (memo.getPage f p)
  | .allocatePage p => memo.allocatePage f p
  | .disposePage p => .done (f, memo.disposePage p)
  | .latch type target => memo.latch f t type target
  | .trySlatch p => (memo.trySlatch f t p).bind fun r => .done r.2
  | .releaseTo point => memo.releaseTo f t point
  | .release => (memo.release f t).bind fun r => .done (r.1, r.2.1)

/-- Every latch has its pin before it. -/
def Covered (items : List LatchMemoItem) : Prop :=
  ∀ front item back, items = front ++ item :: back → item.type ≠ .pin → ∀ p, item.target = .frame p →
    ⟨.pin, .frame p⟩ ∈ front

/-- What an operation takes care of: it latches frames that it has pinned, holds no frame for reading and writing at once
and none for reading twice, takes `root_lock_` once, and does not give back the pin of a frame that stays latched. The
pool allocates pages that nobody pins. -/
def Call.Proper (f : Frames T) (memo : LatchMemo) : Call → Prop
  | .getPage _ => True
  | .allocatePage p => f.pinCount p = 0
  | .disposePage _ => True
  | .latch type (.frame p) => ⟨.pin, .frame p⟩ ∈ memo.items ∧
      (type = .exclusive ∧ ⟨.shared, .frame p⟩ ∉ memo.items ∨
        type = .shared ∧ ⟨.exclusive, .frame p⟩ ∉ memo.items ∧ ⟨.shared, .frame p⟩ ∉ memo.items)
  | .latch type .rootLock => type ≠ .pin ∧ ⟨.shared, .rootLock⟩ ∉ memo.items ∧ ⟨.exclusive, .rootLock⟩ ∉ memo.items
  | .trySlatch p =>
    ⟨.pin, .frame p⟩ ∈ memo.items ∧ ⟨.exclusive, .frame p⟩ ∉ memo.items ∧ ⟨.shared, .frame p⟩ ∉ memo.items
  | .releaseTo point => point ≤ memo.items.length ∧ Covered (memo.items.drop point)
  | .release => True

/-- All threads with their memos. -/
structure System (T : Type) where
  frames : Frames T
  memos : T → LatchMemo

/-- Nobody runs an operation; the frames may be pinned by others. -/
def System.start (base : PageNum → ℕ) : System T := ⟨⟨base, fun _ => .free, fun _ => 0⟩, fun _ => {}⟩

/-- A call of a thread. -/
inductive Step (s : System T) : System T → Prop
  | call (t : T) (c : Call) (hproper : c.Proper s.frames (s.memos t)) {f : Frames T} {memo : LatchMemo}
      (hrun : c.run s.frames (s.memos t) t = .done (f, memo)) : Step s ⟨f, Function.update s.memos t memo⟩

/-! ## Pins and latches are those of the memos -/

/-- A frame that is latched is pinned, by the same operation. -/
def Backed (items : Multiset LatchMemoItem) : Prop :=
  ∀ type p, type ≠ LatchMemoType.pin → (⟨type, .frame p⟩ : LatchMemoItem) ∈ items →
    (⟨.pin, .frame p⟩ : LatchMemoItem) ∈ items

/-- Who holds the lock in this way. -/
def holders (l : RwLock T) : LatchMemoType → Multiset T
  | .shared => l.readers
  | .exclusive => l.writers
  | .pin => 0

/-- Each lock is held as often as the memos say, which is at most once for reading a frame, and each frame is pinned as
often beside the pins of others. -/
structure Accounts (base : PageNum → ℕ) (f : Frames T) (items : T → Multiset LatchMemoItem) : Prop where
  pins : ∀ p, ∃ pinners : Multiset T, f.pinCount p = base p + pinners.card ∧
    ∀ t, pinners.count t = (items t).count ⟨.pin, .frame p⟩
  latches : ∀ type target t, type ≠ .pin → (holders (f.lock target) type).count t = (items t).count ⟨type, target⟩
  exclusion : ∀ target, (f.lock target).Exclusive
  lockers : ∀ p, f.readLockers p = (f.lock (.frame p)).readers
  once : ∀ p t, (items t).count ⟨.shared, .frame p⟩ ≤ 1

namespace Accounts

variable {base : PageNum → ℕ} {f f' : Frames T} {items : T → Multiset LatchMemoItem} {t : T} {type : LatchMemoType}
  {target : Target} {p : PageNum} {item : LatchMemoItem} {rest : Multiset LatchMemoItem} {l : RwLock T}

theorem mem_holders (h : Accounts base f items) (type : LatchMemoType) (htype : type ≠ .pin) :
    t ∈ holders (f.lock target) type ↔ ⟨type, target⟩ ∈ items t := by
  rw [← Multiset.count_pos, h.latches _ _ _ htype, Multiset.count_pos]

theorem pinCount_pos (h : Accounts base f items) (hmem : ⟨.pin, .frame p⟩ ∈ items t) : 0 < f.pinCount p := by
  obtain ⟨pinners, hcount, hpinners⟩ := h.pins p
  have hcard : 0 < pinners.card := by
    rw [Multiset.card_pos]
    refine ne_zero_of_mem (t := t) ?_
    rw [← Multiset.count_pos, hpinners, Multiset.count_pos]
    exact hmem
  omega

/-- One more item of one thread. -/
theorem count_cons (items : T → Multiset LatchMemoItem) (t u : T) (item other : LatchMemoItem) :
    (Function.update items t (item ::ₘ items t) u).count other =
      (items u).count other + if u = t ∧ other = item then 1 else 0 := by
  rw [Function.update_apply]
  split
  · next heq => simp [heq, Multiset.count_cons]
  · next hne => simp [hne]

/-- One item less. -/
theorem count_of_cons (hitems : items t = item ::ₘ rest) (u : T) (other : LatchMemoItem) :
    (items u).count other = (Function.update items t rest u).count other + if u = t ∧ other = item then 1 else 0 := by
  rw [Function.update_apply]
  split
  · next heq => simp [heq, hitems, Multiset.count_cons]
  · next hne => simp [hne]

/-! ### Taking -/

theorem pin (h : Accounts base f items) (t : T) (p : PageNum) :
    Accounts base (f.pin p) (Function.update items t (⟨.pin, .frame p⟩ ::ₘ items t)) where
  pins q := by
    obtain ⟨pinners, hcount, hpinners⟩ := h.pins q
    by_cases hq : q = p
    · subst hq
      refine ⟨t ::ₘ pinners, ?_, fun u => ?_⟩
      · simp only [Frames.pin, Function.update_self, hcount, Multiset.card_cons]
        omega
      · simp [count_cons, Multiset.count_cons, hpinners]
    · refine ⟨pinners, ?_, fun u => ?_⟩
      · simp only [Frames.pin, Function.update_of_ne hq, hcount]
      · simp [count_cons, hpinners, hq]
  latches type target u htype := by
    rw [count_cons, if_neg (by simp [htype])]
    exact h.latches type target u htype
  exclusion := h.exclusion
  lockers := h.lockers
  once q u := by
    rw [count_cons, if_neg (by simp)]
    exact h.once q u

/-- A thread takes a lock. -/
theorem take (h : Accounts base f items) (htype : type ≠ .pin) (hl : l.Exclusive)
    (hself : holders l type = t ::ₘ holders (f.lock target) type)
    (hother : ∀ type', type' ≠ type → holders l type' = holders (f.lock target) type')
    {readLockers : PageNum → Multiset T}
    (hlockers : ∀ p, readLockers p = ((f.setLock target l).lock (.frame p)).readers)
    (honce : type = .shared → ∀ p, target = .frame p → ⟨.shared, .frame p⟩ ∉ items t) :
    Accounts base { f.setLock target l with readLockers := readLockers }
      (Function.update items t (⟨type, target⟩ ::ₘ items t)) := by
  refine ⟨fun q => ?_, fun type' target' u htype' => ?_, fun target' => ?_, hlockers, fun q u => ?_⟩
  · obtain ⟨pinners, hcount, hpinners⟩ := h.pins q
    refine ⟨pinners, hcount, fun u => ?_⟩
    rw [count_cons, if_neg (by simp [htype.symm])]
    exact hpinners u
  · have hcount := h.latches type' target' u htype'
    rw [count_cons, ← hcount]
    by_cases htarget : target' = target
    · subst htarget
      rw [Frames.setLock_self]
      by_cases heq : type' = type
      · subst heq
        simp [hself, Multiset.count_cons]
      · simp [hother type' heq, heq]
    · simp [Frames.setLock_of_ne _ htarget, htarget]
  · by_cases htarget : target' = target
    · subst htarget
      exact (Frames.setLock_self f target' l).symm ▸ hl
    · exact (Frames.setLock_of_ne f htarget l).symm ▸ h.exclusion target'
  · have hcount := h.once q u
    rw [count_cons]
    split
    · next heq =>
      obtain ⟨rfl, hitem⟩ := heq
      obtain ⟨htype', htarget⟩ := LatchMemoItem.mk.inj hitem
      rw [Multiset.count_eq_zero_of_notMem (honce htype'.symm q htarget.symm)]
    · exact hcount

theorem readLatch (h : Accounts base f items) (honce : ∀ p, target = .frame p → ⟨.shared, .frame p⟩ ∉ items t)
    (hlatch : f.readLatch t target = .done f') :
    Accounts base f' (Function.update items t (⟨.shared, target⟩ ::ₘ items t)) := by
  rw [Frames.readLatch] at hlatch
  split at hlatch
  · cases hlatch
  · split at hlatch
    · next hreadable =>
      cases hlatch
      rw [Frames.addLocker_eq]
      refine h.take (by decide) (.addReader hreadable t) rfl ?_ (Frames.addLocker_readLockers h.lockers t target)
        fun _ => honce
      intro type' hne
      cases type' with
      | shared => exact absurd rfl hne
      | exclusive => rfl
      | pin => rfl
    · cases hlatch

theorem writeLatch (h : Accounts base f items) (hlatch : f.writeLatch t target = .done f') :
    Accounts base f' (Function.update items t (⟨.exclusive, target⟩ ::ₘ items t)) := by
  rw [Frames.writeLatch] at hlatch
  split at hlatch
  · cases hlatch
  · split at hlatch
    · next hwritable =>
      cases hlatch
      refine h.take (by decide) (.addWriter hwritable) rfl ?_ (fun p => ?_)
        fun heq => by cases heq
      · intro type' hne
        cases type' with
        | shared => rfl
        | exclusive => exact absurd rfl hne
        | pin => rfl
      · rw [h.lockers p]
        by_cases htarget : .frame p = target
        · rw [← htarget, Frames.setLock_self]
          rfl
        · rw [Frames.setLock_of_ne _ htarget]
    · cases hlatch

/-! ### Giving back -/

/-- A frame that nobody pins is not latched. -/
theorem unlatched (h : Accounts base f items) (hbacked : ∀ u, Backed (items u)) (hzero : f.pinCount p = 0) :
    (f.lock (.frame p)).readers = 0 ∧ (f.lock (.frame p)).writers = 0 := by
  constructor
  · refine Multiset.eq_zero_of_forall_notMem fun u hu => ?_
    have hpos := h.pinCount_pos (hbacked u _ p (by simp) ((h.mem_holders .shared (by decide)).mp hu))
    omega
  · refine Multiset.eq_zero_of_forall_notMem fun u hu => ?_
    have hpos := h.pinCount_pos (hbacked u _ p (by simp) ((h.mem_holders .exclusive (by decide)).mp hu))
    omega

theorem unpin (h : Accounts base f items) (hitems : items t = ⟨.pin, .frame p⟩ ::ₘ rest)
    (hbacked : ∀ u, Backed (Function.update items t rest u)) :
    ∃ f', f.unpin p = .done f' ∧ Accounts base f' (Function.update items t rest) := by
  have hmem : ⟨.pin, .frame p⟩ ∈ items t := by
    rw [hitems]
    exact Multiset.mem_cons_self _ _
  have hpos := h.pinCount_pos hmem
  have hcount : ∀ (type : LatchMemoType) (target : Target) (u : T), (⟨type, target⟩ : LatchMemoItem) ≠ ⟨.pin, .frame p⟩ →
      (items u).count ⟨type, target⟩ = (Function.update items t rest u).count ⟨type, target⟩ := by
    intro type target u hne
    rw [count_of_cons hitems u, if_neg (fun hboth => hne hboth.2), add_zero]
  have haccounts : Accounts base { f with pinCount := Function.update f.pinCount p (f.pinCount p - 1) }
      (Function.update items t rest) := by
    refine ⟨fun q => ?_, fun type target u htype => ?_, h.exclusion, h.lockers, fun q u => ?_⟩
    · obtain ⟨pinners, hpinCount, hpinners⟩ := h.pins q
      by_cases hq : q = p
      · subst hq
        have ht : t ∈ pinners := by
          rw [← Multiset.count_pos, hpinners, Multiset.count_pos]
          exact hmem
        refine ⟨pinners.erase t, ?_, fun u => ?_⟩
        · have hcard := Multiset.card_erase_add_one ht
          simp only [Function.update_self]
          omega
        · have hu := hpinners u
          rw [count_of_cons hitems u] at hu
          by_cases heq : u = t
          · subst heq
            simp only [and_self, if_true] at hu
            rw [Multiset.count_erase_self, hu, Nat.add_sub_cancel]
          · rw [Multiset.count_erase_of_ne heq, hu, if_neg (fun hboth => heq hboth.1), add_zero]
      · refine ⟨pinners, ?_, fun u => ?_⟩
        · simp only [Function.update_of_ne hq, hpinCount]
        · rw [hpinners, hcount _ _ u (by simp [hq])]
    · rw [← hcount _ _ u (by simp [htype])]
      exact h.latches type target u htype
    · rw [← hcount _ _ u (by simp)]
      exact h.once q u
  refine ⟨_, ?_, haccounts⟩
  rw [Frames.unpin, if_neg (by omega), if_neg]
  rintro ⟨hone, hlatched⟩
  have hfree := haccounts.unlatched hbacked (p := p) (by simp [hone])
  exact hlatched.elim (fun hne => hne ((h.lockers p).trans hfree.1)) (fun hne => hne hfree.2)

/-- A thread gives a lock back. -/
theorem giveBack (h : Accounts base f items) (htype : type ≠ .pin) (hitems : items t = ⟨type, target⟩ ::ₘ rest)
    (hl : l.Exclusive) (hself : holders l type = (holders (f.lock target) type).erase t)
    (hother : ∀ type', type' ≠ type → holders l type' = holders (f.lock target) type')
    {readLockers : PageNum → Multiset T}
    (hlockers : ∀ p, readLockers p = ((f.setLock target l).lock (.frame p)).readers) :
    Accounts base { f.setLock target l with readLockers := readLockers } (Function.update items t rest) := by
  refine ⟨fun q => ?_, fun type' target' u htype' => ?_, fun target' => ?_, hlockers, fun q u => ?_⟩
  · obtain ⟨pinners, hcount, hpinners⟩ := h.pins q
    refine ⟨pinners, hcount, fun u => ?_⟩
    rw [hpinners, count_of_cons hitems u, if_neg (by simp [htype.symm]), add_zero]
  · have hcount := h.latches type' target' u htype'
    rw [count_of_cons hitems u] at hcount
    by_cases htarget : target' = target
    · subst htarget
      rw [Frames.setLock_self]
      by_cases heq : type' = type
      · subst heq
        rw [hself]
        by_cases hu : u = t
        · subst hu
          simp only [and_self, if_true] at hcount
          rw [Multiset.count_erase_self, hcount, Nat.add_sub_cancel]
        · rw [Multiset.count_erase_of_ne hu, hcount, if_neg (fun hboth => hu hboth.1), add_zero]
      · rw [hother type' heq, hcount, if_neg (by simp [heq]), add_zero]
    · rw [Frames.setLock_of_ne _ htarget, hcount, if_neg (by simp [htarget]), add_zero]
  · by_cases htarget : target' = target
    · subst htarget
      exact (Frames.setLock_self f target' l).symm ▸ hl
    · exact (Frames.setLock_of_ne f htarget l).symm ▸ h.exclusion target'
  · have hcount := h.once q u
    rw [count_of_cons hitems u] at hcount
    exact le_trans (Nat.le_add_right _ _) hcount

theorem readUnlatch (h : Accounts base f items) (hitems : items t = ⟨.shared, target⟩ ::ₘ rest)
    (hpinned : f.Pinned target) :
    ∃ f', f.readUnlatch t target = .done f' ∧ Accounts base f' (Function.update items t rest) := by
  have hmem : t ∈ (f.lock target).readers := by
    refine (h.mem_holders .shared (by decide)).mpr ?_
    rw [hitems]
    exact Multiset.mem_cons_self _ _
  have hreads : f.Reads t target := by
    cases target with
    | frame p => exact ⟨hpinned, (h.lockers p).symm ▸ hmem⟩
    | rootLock => exact hmem
  -- the count is one, so the entry goes
  have honce : ∀ p, target = .frame p → (f.lock target).readers.count t = 1 := by
    rintro p rfl
    have hcount := h.latches .shared (.frame p) t (by decide)
    have hle := h.once p t
    have hpos := Multiset.count_pos.mpr hmem
    simp only [holders] at hcount
    omega
  refine ⟨_, if_pos hreads, ?_⟩
  rw [Frames.eraseLocker_eq]
  refine h.giveBack (by decide) hitems ((h.exclusion target).eraseReader t) rfl ?_
    (Frames.eraseLocker_readLockers h.lockers honce)
  intro type' hne
  cases type' with
  | shared => exact absurd rfl hne
  | exclusive => rfl
  | pin => rfl

theorem writeUnlatch (h : Accounts base f items) (hitems : items t = ⟨.exclusive, target⟩ ::ₘ rest)
    (hpinned : f.Pinned target) :
    ∃ f', f.writeUnlatch t target = .done f' ∧ Accounts base f' (Function.update items t rest) := by
  have hmem : t ∈ (f.lock target).writers := by
    refine (h.mem_holders .exclusive (by decide)).mpr ?_
    rw [hitems]
    exact Multiset.mem_cons_self _ _
  refine ⟨_, if_pos ⟨hpinned, hmem⟩, h.giveBack (by decide) hitems
    ((h.exclusion target).eraseWriter t) rfl ?_ fun p => ?_⟩
  · intro type' hne
    cases type' with
    | shared => rfl
    | exclusive => exact absurd rfl hne
    | pin => rfl
  · rw [h.lockers p]
    by_cases htarget : .frame p = target
    · rw [← htarget, Frames.setLock_self]
      rfl
    · rw [Frames.setLock_of_ne _ htarget]

/-- An item is given back, when what stays is still backed. -/
theorem releaseItem (h : Accounts base f items) (rest : Multiset LatchMemoItem) (hitems : items t = item ::ₘ rest)
    (hroot : item ≠ ⟨.pin, .rootLock⟩) (hbacked : ∀ u, Backed (items u)) (hrest : ∀ u, Backed (Function.update items t rest u)) :
    ∃ f', LatchMemo.releaseItem f t item = .done f' ∧ Accounts base f' (Function.update items t rest) := by
  have hpinned : item.type ≠ .pin → f.Pinned item.target := by
    intro htype
    cases htarget : item.target with
    | frame p =>
      refine h.pinCount_pos (t := t) (hbacked t item.type p htype ?_)
      rw [hitems, ← htarget]
      exact Multiset.mem_cons_self _ _
    | rootLock => trivial
  obtain ⟨type, target⟩ := item
  cases type with
  | shared => exact h.readUnlatch hitems (hpinned (by simp))
  | exclusive => exact h.writeUnlatch hitems (hpinned (by simp))
  | pin =>
    cases target with
    | frame p => exact h.unpin hitems hrest
    | rootLock => exact absurd rfl hroot

/-- A list of items is given back, when what stays is backed at every moment. -/
theorem releaseItems (l post : List LatchMemoItem) (items : T → List LatchMemoItem) {t : T}
    (h : Accounts base f fun u => (Function.update items t (l ++ post) u : Multiset LatchMemoItem))
    (hroot : (⟨.pin, .rootLock⟩ : LatchMemoItem) ∉ l) (hbacked : ∀ l', l' <:+ l → Backed (l' ++ post : List LatchMemoItem))
    (hothers : ∀ u, u ≠ t → Backed (items u)) :
    ∃ f', LatchMemo.releaseItems t f l = .done f' ∧
      Accounts base f' fun u => (Function.update items t post u : Multiset LatchMemoItem) := by
  induction l generalizing f with
  | nil => exact ⟨f, rfl, h⟩
  | cons item l ih =>
    have hall : ∀ l', l' <:+ item :: l → ∀ u, Backed (Function.update items t (l' ++ post) u : List LatchMemoItem) := by
      intro l' hl' u
      rw [Function.update_apply]
      split
      · exact hbacked l' hl'
      · next hne => exact hothers u hne
    have hrest : Function.update (fun u => (Function.update items t (item :: l ++ post) u : Multiset LatchMemoItem)) t
        (l ++ post : List LatchMemoItem) = fun u => (Function.update items t (l ++ post) u : Multiset LatchMemoItem) := by
      funext u
      simp only [Function.update_apply]
      split <;> rfl
    obtain ⟨f₁, hf₁, h₁⟩ := h.releaseItem (t := t) (l ++ post : List LatchMemoItem)
      (by rw [Function.update_self]; rfl) (fun heq => hroot (heq ▸ List.mem_cons_self)) (hall _ (List.suffix_refl _))
      (by
        intro u
        rw [hrest]
        exact hall l (List.suffix_cons item l) u)
    rw [hrest] at h₁
    obtain ⟨f₂, hf₂, h₂⟩ := ih h₁ (fun hmem => hroot (List.mem_cons_of_mem _ hmem))
      (fun l' hl' => hbacked l' (hl'.trans (List.suffix_cons item l)))
    exact ⟨f₂, by rw [LatchMemo.releaseItems, hf₁]; exact hf₂, h₂⟩

end Accounts

/-! ## What the order of the items says -/

namespace Covered

variable {items post : List LatchMemoItem} {item : LatchMemoItem}

theorem nil : Covered [] := by
  intro front item back h
  simp at h

theorem front {front : List LatchMemoItem} (h : Covered items) (hfront : front <+: items) : Covered front := by
  obtain ⟨tail, rfl⟩ := hfront
  intro front' item back heq
  exact h front' item (back ++ tail) (by rw [heq, List.append_assoc, List.cons_append])

theorem backed (h : Covered items) : Backed items := by
  intro type p htype hmem
  rw [Multiset.mem_coe] at hmem ⊢
  obtain ⟨front, back, heq⟩ := List.append_of_mem hmem
  rw [heq]
  exact List.mem_append_left _ (h front _ back heq htype p rfl)

theorem append (h : Covered items) (hpost : Covered post) : Backed (items ++ post : List LatchMemoItem) := by
  intro type p htype hmem
  rw [Multiset.mem_coe, List.mem_append] at hmem ⊢
  cases hmem with
  | inl hmem => exact Or.inl (h.backed type p htype hmem)
  | inr hmem => exact Or.inr (hpost.backed type p htype hmem)

theorem push (h : Covered items) (hitem : item.type ≠ .pin → ∀ p, item.target = .frame p → ⟨.pin, .frame p⟩ ∈ items) :
    Covered (items ++ [item]) := by
  intro front other back heq htype p htarget
  rcases List.append_eq_append_iff.mp heq with ⟨mid, rfl, hmid⟩ | ⟨mid, hmid, hrest⟩
  · cases mid with
    | nil =>
      obtain ⟨rfl, -⟩ := List.cons.inj (by simpa using hmid)
      simpa using hitem htype p htarget
    | cons x mid =>
      rw [List.cons_append] at hmid
      have := congrArg List.length hmid
      simp at this
  · cases mid with
    | nil =>
      obtain ⟨rfl, -⟩ := List.cons.inj (by simpa using hrest)
      rw [List.append_nil] at hmid
      rw [← hmid]
      exact hitem htype p htarget
    | cons x mid =>
      obtain ⟨rfl, -⟩ := List.cons.inj (by simpa using hrest)
      exact h front other mid hmid htype p htarget

end Covered

/-! ## Runs -/

/-- What holds between two calls. -/
structure Inv (base : PageNum → ℕ) (s : System T) : Prop where
  accounts : Accounts base s.frames fun t => ((s.memos t).items : Multiset LatchMemoItem)
  covered : ∀ t, Covered (s.memos t).items
  root : ∀ t, (⟨.pin, .rootLock⟩ : LatchMemoItem) ∉ (s.memos t).items

theorem inv_start (base : PageNum → ℕ) : Inv base (System.start base : System T) where
  accounts := ⟨fun _ => ⟨0, rfl, fun _ => rfl⟩, fun type _ _ _ => by cases type <;> rfl, fun _ => RwLock.exclusive_free,
    fun _ => rfl, fun _ _ => Nat.zero_le _⟩
  covered _ := Covered.nil
  root _ := List.not_mem_nil

namespace Inv

variable {base : PageNum → ℕ} {s : System T} {t : T} {f : Frames T} {memo : LatchMemo} {item : LatchMemoItem}

theorem update (h : Inv base s) (haccounts : Accounts base f
      fun u => ((Function.update s.memos t memo u).items : Multiset LatchMemoItem)) (hcovered : Covered memo.items)
    (hroot : (⟨.pin, .rootLock⟩ : LatchMemoItem) ∉ memo.items) : Inv base ⟨f, Function.update s.memos t memo⟩ where
  accounts := haccounts
  covered u := by
    simp only [Function.update_apply]
    split
    · exact hcovered
    · exact h.covered u
  root u := by
    simp only [Function.update_apply]
    split
    · exact hroot
    · exact h.root u

theorem of_items {memos memos' : T → LatchMemo} (h : Inv base ⟨f, memos⟩) (hitems : ∀ u, (memos' u).items = (memos u).items) :
    Inv base ⟨f, memos'⟩ := by
  constructor
  · simp only [hitems]
    exact h.accounts
  · simp only [hitems]
    exact h.covered
  · simp only [hitems]
    exact h.root

/-- An item is added at the end. -/
theorem push (h : Inv base s) (haccounts : Accounts base f (Function.update
      (fun u => ((s.memos u).items : Multiset LatchMemoItem)) t (item ::ₘ ((s.memos t).items : Multiset LatchMemoItem))))
    (hitem : item.type ≠ .pin → ∀ p, item.target = .frame p → ⟨.pin, .frame p⟩ ∈ (s.memos t).items)
    (hroot : item ≠ ⟨.pin, .rootLock⟩) : Inv base ⟨f, Function.update s.memos t ((s.memos t).push item)⟩ := by
  refine h.update ?_ ((h.covered t).push hitem) fun hmem => ?_
  · have hsame : (fun u => ((Function.update s.memos t ((s.memos t).push item) u).items : Multiset LatchMemoItem)) =
        Function.update (fun u => ((s.memos u).items : Multiset LatchMemoItem)) t
          (item ::ₘ ((s.memos t).items : Multiset LatchMemoItem)) := by
      funext u
      simp only [Function.update_apply]
      split
      · rw [LatchMemo.push, ← Multiset.coe_add, Multiset.coe_singleton, add_comm, Multiset.singleton_add]
      · rfl
    rw [hsame]
    exact haccounts
  · rcases List.mem_append.mp hmem with hmem | hmem
    · exact h.root t hmem
    · exact hroot (List.mem_singleton.mp hmem).symm

theorem getPage (h : Inv base s) (t : T) (p : PageNum) :
    Inv base ⟨s.frames.pin p, Function.update s.memos t ((s.memos t).push ⟨.pin, .frame p⟩)⟩ :=
  h.push (h.accounts.pin t p) (fun hne => absurd rfl hne) (by simp)

/-- The first items are given back, and what stays is covered. -/
theorem releaseTo (h : Inv base s) (t : T) {point : ℕ} (hpoint : point ≤ (s.memos t).items.length)
    (hcovered : Covered ((s.memos t).items.drop point)) :
    ∃ f, (s.memos t).releaseTo s.frames t point = .done (f, { s.memos t with items := (s.memos t).items.drop point }) ∧
      Inv base ⟨f, Function.update s.memos t { s.memos t with items := (s.memos t).items.drop point }⟩ := by
  have hstart : (fun u => (Function.update (fun u => (s.memos u).items) t
      (((s.memos t).items.take point).reverse ++ (s.memos t).items.drop point) u : Multiset LatchMemoItem)) =
      fun u => ((s.memos u).items : Multiset LatchMemoItem) := by
    funext u
    simp only [Function.update_apply]
    split
    · next heq =>
      rw [heq, Multiset.coe_eq_coe]
      refine ((List.reverse_perm _).append_right _).trans ?_
      rw [List.take_append_drop]
    · rfl
  obtain ⟨f, hf, haccounts⟩ := Accounts.releaseItems ((s.memos t).items.take point).reverse ((s.memos t).items.drop point)
    (fun u => (s.memos u).items) (t := t)
    (by rw [hstart]; exact h.accounts)
    (fun hmem => h.root t (List.mem_of_mem_take (List.mem_reverse.mp hmem)))
    (by
      intro l' hl'
      have hfront : Covered l'.reverse := by
        refine (h.covered t).front ((List.IsPrefix.trans ?_) (List.take_prefix point _))
        rw [← List.reverse_suffix, List.reverse_reverse]
        exact hl'
      have hbacked := hfront.append hcovered
      rw [← Multiset.coe_add, Multiset.coe_reverse, Multiset.coe_add] at hbacked
      exact hbacked)
    (fun u _ => (h.covered u).backed)
  refine ⟨f, ?_, h.update ?_ hcovered fun hmem => h.root t (List.mem_of_mem_drop hmem)⟩
  · rw [LatchMemo.releaseTo, if_neg (by omega), hf]
    rfl
  · have hsame : (fun u => ((Function.update s.memos t { s.memos t with items := (s.memos t).items.drop point } u).items :
        Multiset LatchMemoItem)) =
        fun u => (Function.update (fun u => (s.memos u).items) t ((s.memos t).items.drop point) u :
          Multiset LatchMemoItem) := by
      funext u
      simp only [Function.update_apply]
      split <;> rfl
    rw [hsame]
    exact haccounts

/-- A release gives everything back. -/
theorem release (h : Inv base s) (t : T) :
    ∃ f, (s.memos t).release s.frames t = .done (f, {}, (s.memos t).disposedPages) ∧
      Inv base ⟨f, Function.update s.memos t {}⟩ := by
  obtain ⟨f, hf, hinv⟩ := h.releaseTo t (le_refl _) (by rw [List.drop_length]; exact Covered.nil)
  rw [List.drop_length] at hf hinv
  refine ⟨f, ?_, ?_⟩
  · rw [LatchMemo.release, hf]
    rfl
  · refine hinv.of_items fun u => ?_
    simp only [Function.update_apply]
    split <;> rfl

/-- Every call that an operation may make keeps the invariant. -/
theorem step (h : Inv base s) {s' : System T} (hstep : Step s s') : Inv base s' := by
  obtain ⟨t, c, hproper, hrun⟩ := hstep
  cases c with
  | getPage p =>
    cases hrun
    exact h.getPage t p
  | allocatePage p =>
    rw [Call.run, LatchMemo.allocatePage] at hrun
    split at hrun
    · cases hrun
      exact h.getPage t p
    · cases hrun
  | disposePage p =>
    cases hrun
    refine Inv.of_items h fun u => ?_
    simp only [Function.update_apply]
    split
    · next heq =>
      rw [heq]
      rfl
    · rfl
  | latch type target =>
    have hpinned : ∀ p, target = .frame p → ⟨.pin, .frame p⟩ ∈ (s.memos t).items := by
      rintro p rfl
      exact hproper.1
    cases type with
    | shared =>
      cases hlatch : s.frames.readLatch t target with
      | done f =>
        simp only [Call.run, LatchMemo.latch, hlatch, Outcome.bind] at hrun
        cases hrun
        have honce : ∀ p, target = .frame p → ⟨.shared, .frame p⟩ ∉ ((s.memos t).items : Multiset LatchMemoItem) := by
          rintro p rfl
          obtain ⟨-, ⟨hshared, -⟩ | ⟨-, -, hnot⟩⟩ := hproper
          · cases hshared
          · exact hnot
        exact h.push (h.accounts.readLatch honce hlatch) (fun _ => hpinned) (by simp)
      | _ => simp [Call.run, LatchMemo.latch, hlatch, Outcome.bind] at hrun
    | exclusive =>
      cases hlatch : s.frames.writeLatch t target with
      | done f =>
        simp only [Call.run, LatchMemo.latch, hlatch, Outcome.bind] at hrun
        cases hrun
        exact h.push (h.accounts.writeLatch hlatch) (fun _ => hpinned) (by simp)
      | _ => simp [Call.run, LatchMemo.latch, hlatch, Outcome.bind] at hrun
    | pin => cases hrun
  | trySlatch p =>
    cases hlatch : s.frames.readLatch t (.frame p) with
    | done f =>
      simp only [Call.run, LatchMemo.trySlatch, hlatch, Outcome.bind] at hrun
      cases hrun
      obtain ⟨hpin, -, hnot⟩ := hproper
      have honce : ∀ q, Target.frame p = .frame q → ⟨.shared, .frame q⟩ ∉ ((s.memos t).items : Multiset LatchMemoItem) := by
        rintro q hq
        obtain rfl := Target.frame.inj hq
        exact hnot
      refine h.push (h.accounts.readLatch honce hlatch) (fun _ q hq => ?_) (by simp)
      obtain rfl := Target.frame.inj hq
      exact hpin
    | waits =>
      simp only [Call.run, LatchMemo.trySlatch, hlatch, Outcome.bind] at hrun
      cases hrun
      exact Inv.of_items h fun u => by rw [Function.update_eq_self]
    | fails => simp [Call.run, LatchMemo.trySlatch, hlatch, Outcome.bind] at hrun
  | releaseTo point =>
    obtain ⟨f, hf, hinv⟩ := h.releaseTo t hproper.1 hproper.2
    rw [Call.run, hf] at hrun
    cases hrun
    exact hinv
  | release =>
    obtain ⟨f, hf, hinv⟩ := h.release t
    rw [Call.run, hf] at hrun
    cases hrun
    exact hinv

/-- No assertion fails. -/
theorem safe (h : Inv base s) {c : Call} (hproper : c.Proper s.frames (s.memos t)) :
    c.run s.frames (s.memos t) t ≠ .fails := by
  have hholds : ∀ type target, type ≠ .pin → ⟨type, target⟩ ∉ (s.memos t).items →
      t ∉ holders (s.frames.lock target) type := by
    intro type target htype hnot hmem
    exact hnot (Multiset.mem_coe.mp ((h.accounts.mem_holders _ htype).mp hmem))
  have hpinned : ∀ p, ⟨.pin, .frame p⟩ ∈ (s.memos t).items → 0 < s.frames.pinCount p :=
    fun p hmem => h.accounts.pinCount_pos (t := t) (Multiset.mem_coe.mpr hmem)
  have hread : ∀ target, s.frames.MayRead t target → s.frames.readLatch t target ≠ .fails := by
    intro target hmay
    rw [Frames.readLatch, if_neg (not_not.mpr hmay)]
    split <;> simp
  have hwrite : ∀ target, s.frames.MayWrite t target → s.frames.writeLatch t target ≠ .fails := by
    intro target hmay
    rw [Frames.writeLatch, if_neg (not_not.mpr hmay)]
    split <;> simp
  cases c with
  | getPage p => simp [Call.run]
  | allocatePage p =>
    rw [Call.run, LatchMemo.allocatePage, if_pos]
    · simp
    · have hzero : s.frames.pinCount p = 0 := hproper
      simp [LatchMemo.getPage, Frames.pin, hzero]
  | disposePage p => simp [Call.run]
  | latch type target =>
    have hmode : type = .exclusive ∧ s.frames.MayWrite t target ∨ type = .shared ∧ s.frames.MayRead t target := by
      cases target with
      | frame p =>
        obtain ⟨hpin, ⟨rfl, hnot⟩ | ⟨rfl, hnot, -⟩⟩ := hproper
        · exact Or.inl ⟨rfl, hpinned p hpin, (h.accounts.lockers p).symm ▸ hholds .shared _ (by decide) hnot⟩
        · exact Or.inr ⟨rfl, hpinned p hpin, hholds .exclusive _ (by decide) hnot⟩
      | rootLock =>
        obtain ⟨htype, hshared, hexclusive⟩ := hproper
        have hboth := And.intro (hholds .shared _ (by decide) hshared) (hholds .exclusive _ (by decide) hexclusive)
        cases type with
        | shared => exact Or.inr ⟨rfl, hboth⟩
        | exclusive => exact Or.inl ⟨rfl, hboth⟩
        | pin => exact absurd rfl htype
    obtain ⟨rfl, hmay⟩ | ⟨rfl, hmay⟩ := hmode
    · intro hfails
      refine hwrite target hmay ?_
      cases hlatch : s.frames.writeLatch t target <;> simp_all [Call.run, LatchMemo.latch, Outcome.bind]
    · intro hfails
      refine hread target hmay ?_
      cases hlatch : s.frames.readLatch t target <;> simp_all [Call.run, LatchMemo.latch, Outcome.bind]
  | trySlatch p =>
    intro hfails
    refine hread (.frame p) ⟨hpinned p hproper.1, hholds .exclusive _ (by decide) hproper.2.1⟩ ?_
    cases hlatch : s.frames.readLatch t (.frame p) <;> simp_all [Call.run, LatchMemo.trySlatch, Outcome.bind]
  | releaseTo point =>
    obtain ⟨f, hf, -⟩ := h.releaseTo t hproper.1 hproper.2
    rw [Call.run, hf]
    simp
  | release =>
    obtain ⟨f, hf, -⟩ := h.release t
    rw [Call.run, hf]
    simp [Outcome.bind]

end Inv

/-- What operations rely on. -/
structure Sound (base : PageNum → ℕ) (s : System T) : Prop where
  /-- No two operations hold a lock against each other. -/
  exclusion : ∀ target, (s.frames.lock target).Exclusive
  /-- A lock is held as the memos say. -/
  readers : ∀ target t, (s.frames.lock target).readers.count t = (s.memos t).items.count ⟨.shared, target⟩
  writers : ∀ target t, (s.frames.lock target).writers.count t = (s.memos t).items.count ⟨.exclusive, target⟩
  /-- No assertion fails. -/
  safe : ∀ t c, Call.Proper s.frames (s.memos t) c → c.run s.frames (s.memos t) t ≠ .fails
  /-- An operation can be ended at any time. -/
  released : ∀ t, ∃ f, (s.memos t).release s.frames t = .done (f, {}, (s.memos t).disposedPages)
  /-- What operations have taken they have given back when they have ended. -/
  idle : (∀ t, (s.memos t).items = []) → s.frames = ⟨base, fun _ => .free, fun _ => 0⟩

theorem Inv.sound {base : PageNum → ℕ} {s : System T} (h : Inv base s) : Sound base s where
  exclusion := h.accounts.exclusion
  readers target t := by
    rw [← Multiset.coe_count]
    exact h.accounts.latches .shared target t (by decide)
  writers target t := by
    rw [← Multiset.coe_count]
    exact h.accounts.latches .exclusive target t (by decide)
  safe t c := h.safe
  released t := by
    obtain ⟨f, hf, -⟩ := h.release t
    exact ⟨f, hf⟩
  idle hidle := by
    have hnone : ∀ t item, item ∉ ((s.memos t).items : Multiset LatchMemoItem) := by
      intro t item
      rw [hidle t]
      exact Multiset.notMem_zero item
    have hfree : ∀ target, s.frames.lock target = .free := by
      intro target
      have hreaders : (s.frames.lock target).readers = 0 :=
        Multiset.eq_zero_of_forall_notMem fun t ht =>
          hnone t _ ((h.accounts.mem_holders .shared (by decide)).mp ht)
      have hwriters : (s.frames.lock target).writers = 0 :=
        Multiset.eq_zero_of_forall_notMem fun t ht =>
          hnone t _ ((h.accounts.mem_holders .exclusive (by decide)).mp ht)
      calc s.frames.lock target
          = ⟨(s.frames.lock target).readers, (s.frames.lock target).writers⟩ := rfl
        _ = .free := by rw [hreaders, hwriters]; rfl
    have hpins : s.frames.pinCount = base := by
      funext p
      obtain ⟨pinners, hcount, hpinners⟩ := h.accounts.pins p
      have hzero : pinners = 0 := Multiset.eq_zero_of_forall_notMem fun t ht => by
        rw [← Multiset.count_pos, hpinners, Multiset.count_pos] at ht
        exact hnone t _ ht
      rw [hcount, hzero]
      rfl
    have hlockers : s.frames.readLockers = fun _ => 0 := by
      funext p
      rw [h.accounts.lockers p, hfree]
      rfl
    calc s.frames
        = ⟨s.frames.pinCount, s.frames.lock, s.frames.readLockers⟩ := rfl
      _ = ⟨base, fun _ => .free, fun _ => 0⟩ := by rw [hpins, funext hfree, hlockers]

/-- In every run of any number of operations on their memos. -/
theorem run_accounted {base : PageNum → ℕ} {s : System T} (hrun : ReflTransGen Step (System.start base) s) : Sound base s :=
  (keeps_run (I := Inv base) (fun _ _ hstep h => h.step hstep) hrun (inv_start base)).sound

/-- A page is latched by one thread, and another one waits. -/
theorem run_accounted_waits : ∃ s : System ℕ, Call.run s.frames (s.memos 1) 1 (.latch .shared (.frame 5)) = .waits ∧
    Sound (fun _ => 0) s := by
  have h1 : ReflTransGen Step (System.start fun _ => 0) _ := .single (.call 0 (.getPage 5) trivial rfl)
  have h2 := h1.tail (.call 0 (.latch .exclusive (.frame 5)) ⟨by decide, Or.inl ⟨rfl, by decide⟩⟩ rfl)
  have h3 := h2.tail (.call 1 (.getPage 5) trivial rfl)
  exact ⟨_, rfl, run_accounted h3⟩

end Landbase.Latch
