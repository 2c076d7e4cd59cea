import Mathlib.Data.Multiset.Count
import Mathlib.Tactic
import Landbase.Lib.Transition

/-! # Reader-writer locks

What a lock is for that any number of threads may read under and one may write under. A thread may hold it several times,
for reading as well as for writing; each time counts.
-/

namespace Landbase.Lib
open Relation
set_option autoImplicit false

theorem ne_zero_of_mem {T : Type} {ts : Multiset T} {t : T} (ht : t ∈ ts) : ts ≠ 0 := by
  rintro rfl
  exact Multiset.notMem_zero t ht

/-- Who holds the lock, once for each time. -/
structure RwLock (T : Type) where
  readers : Multiset T
  writers : Multiset T

namespace RwLock

variable {T : Type}

def free : RwLock T := ⟨0, 0⟩

/-- Nobody writes. -/
def Readable (l : RwLock T) : Prop := l.writers = 0

/-- Nobody reads, and nobody else writes. -/
def Writable (l : RwLock T) (t : T) : Prop := l.readers = 0 ∧ ∀ u ∈ l.writers, u = t

def addReader (l : RwLock T) (t : T) : RwLock T := { l with readers := t ::ₘ l.readers }

def addWriter (l : RwLock T) (t : T) : RwLock T := { l with writers := t ::ₘ l.writers }

theorem mem_addReader {l : RwLock T} {t u : T} : u ∈ (l.addReader t).readers ↔ u = t ∨ u ∈ l.readers := Multiset.mem_cons

theorem mem_addWriter {l : RwLock T} {t u : T} : u ∈ (l.addWriter t).writers ↔ u = t ∨ u ∈ l.writers := Multiset.mem_cons

/-- Writers keep readers out, and all other writers. -/
structure Exclusive (l : RwLock T) : Prop where
  reader : ∀ t ∈ l.writers, l.readers = 0
  writer : ∀ t ∈ l.writers, ∀ u ∈ l.writers, u = t

theorem exclusive_free : (free : RwLock T).Exclusive where
  reader t ht := absurd ht (Multiset.notMem_zero t)
  writer t ht := absurd ht (Multiset.notMem_zero t)

theorem Exclusive.addReader {l : RwLock T} (hreadable : l.Readable) (t : T) : (l.addReader t).Exclusive := by
  constructor
  · intro u hu
    rw [RwLock.addReader, hreadable] at hu
    exact absurd hu (Multiset.notMem_zero u)
  · intro u hu
    rw [RwLock.addReader, hreadable] at hu
    exact absurd hu (Multiset.notMem_zero u)

theorem Exclusive.addWriter {l : RwLock T} {t : T} (hwritable : l.Writable t) : (l.addWriter t).Exclusive := by
  have heq : ∀ u ∈ (l.addWriter t).writers, u = t := by
    intro u hu
    cases Multiset.mem_cons.mp hu with
    | inl heq => exact heq
    | inr hmem => exact hwritable.2 u hmem
  refine ⟨fun _ _ => hwritable.1, fun u hu v hv => ?_⟩
  rw [heq u hu, heq v hv]

variable [DecidableEq T]

def eraseReader (l : RwLock T) (t : T) : RwLock T := { l with readers := l.readers.erase t }

def eraseWriter (l : RwLock T) (t : T) : RwLock T := { l with writers := l.writers.erase t }

/-- A thread takes the lock or gives it back. -/
inductive Step (l : RwLock T) : RwLock T → Prop
  | lockShared (t : T) (h : l.Readable) : Step l (l.addReader t)
  | unlockShared (t : T) (h : t ∈ l.readers) : Step l (l.eraseReader t)
  | lock (t : T) (h : l.Writable t) : Step l (l.addWriter t)
  | unlock (t : T) (h : t ∈ l.writers) : Step l (l.eraseWriter t)

theorem Exclusive.eraseReader {l : RwLock T} (h : l.Exclusive) (t : T) : (l.eraseReader t).Exclusive where
  reader u hu := by
    show l.readers.erase t = 0
    rw [h.reader u hu]
    rfl
  writer := h.writer

theorem Exclusive.eraseWriter {l : RwLock T} (h : l.Exclusive) (t : T) : (l.eraseWriter t).Exclusive where
  reader u hu := h.reader u (Multiset.mem_of_mem_erase hu)
  writer u hu v hv := h.writer u (Multiset.mem_of_mem_erase hu) v (Multiset.mem_of_mem_erase hv)

theorem Exclusive.step {l l' : RwLock T} (h : l.Exclusive) (hstep : Step l l') : l'.Exclusive := by
  cases hstep with
  | lockShared t hreadable => exact .addReader hreadable t
  | unlockShared t _ => exact h.eraseReader t
  | lock t hwritable => exact .addWriter hwritable
  | unlock t _ => exact h.eraseWriter t

theorem Exclusive.run {l l' : RwLock T} (hrun : ReflTransGen Step l l') (h : l.Exclusive) : l'.Exclusive :=
  keeps_run (fun _ _ hstep h => h.step hstep) hrun h

end RwLock

end Landbase.Lib
