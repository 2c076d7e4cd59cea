import Landbase.Lib.Transition

/-! # Snapshot isolation

A store of values under keys, and transactions that each read the store as it was at their begin, with their own writes over
it. A key is written only while no other running transaction has written it and nobody has changed it since the begin; a
commit puts all writes into the store at once.
-/

namespace Landbase.Lib
open Relation
set_option autoImplicit false

variable {S K V : Type*}

/-- What a transaction works on: the store at its begin, and what it has put or removed. -/
structure SnapshotTrx (K V : Type*) where
  snapshot : K → Option V
  writes : K → Option (Option V)

@[ext] structure SnapshotStore (S K V : Type*) where
  committed : K → Option V
  trx : S → Option (SnapshotTrx K V)

/-- The value of a key for the transaction. -/
def SnapshotTrx.value (t : SnapshotTrx K V) (k : K) : Option V := (t.writes k).getD (t.snapshot k)

/-- Later writes over earlier ones. -/
def overlay (changes writes : K → Option (Option V)) : K → Option (Option V) := fun k => (changes k).orElse fun _ => writes k

namespace SnapshotStore

def empty : SnapshotStore S K V := ⟨fun _ => none, fun _ => none⟩

/-- No two running transactions have written the same key, and what a transaction replaces is what it has read. -/
structure Isolated (σ : SnapshotStore S K V) : Prop where
  alone : ∀ s s' t t' k, σ.trx s = some t → σ.trx s' = some t' → s ≠ s' → t.writes k ≠ none → t'.writes k = none
  unchanged : ∀ s t k, σ.trx s = some t → t.writes k ≠ none → t.snapshot k = σ.committed k

theorem isolated_empty : Isolated (empty : SnapshotStore S K V) where
  alone _ _ _ _ _ h := nomatch h
  unchanged _ _ _ h := nomatch h

variable [DecidableEq S]

def setTrx (σ : SnapshotStore S K V) (s : S) (t : Option (SnapshotTrx K V)) : SnapshotStore S K V :=
  { σ with trx := Function.update σ.trx s t }

/-- No other running transaction has written the key, and its value is still that of the begin. -/
def Writable (σ : SnapshotStore S K V) (s : S) (k : K) : Prop :=
  (∀ s' t, s' ≠ s → σ.trx s' = some t → t.writes k = none) ∧
    ∀ t, σ.trx s = some t → t.writes k = none → t.snapshot k = σ.committed k

inductive Step : SnapshotStore S K V → SnapshotStore S K V → Prop
  | begin {σ : SnapshotStore S K V} {s : S} (hidle : σ.trx s = none) :
    Step σ (σ.setTrx s (some ⟨σ.committed, fun _ => none⟩))
  | write {σ : SnapshotStore S K V} {s : S} {t : SnapshotTrx K V} (changes : K → Option (Option V)) (ht : σ.trx s = some t)
      (hwritable : ∀ k, changes k ≠ none → σ.Writable s k) :
    Step σ (σ.setTrx s (some { t with writes := overlay changes t.writes }))
  | commit {σ : SnapshotStore S K V} {s : S} {t : SnapshotTrx K V} (ht : σ.trx s = some t) :
    Step σ (setTrx ⟨fun k => (t.writes k).getD (σ.committed k), σ.trx⟩ s none)
  | rollback {σ : SnapshotStore S K V} {s : S} {t : SnapshotTrx K V} (ht : σ.trx s = some t) : Step σ (σ.setTrx s none)

/-! ## What the isolation gives -/

theorem trx_setTrx (σ : SnapshotStore S K V) (s s' : S) (t : Option (SnapshotTrx K V)) :
    (σ.setTrx s t).trx s' = if s' = s then t else σ.trx s' := by
  unfold setTrx
  by_cases h : s' = s
  · rw [if_pos h, h]
    exact Function.update_self _ _ _
  · rw [if_neg h]
    exact Function.update_of_ne h _ _

/-- With a transaction gone, the others are as isolated as before. -/
theorem Isolated.leave {σ : SnapshotStore S K V} (h : σ.Isolated) {s : S} {t : SnapshotTrx K V} (ht : σ.trx s = some t)
    (committed : K → Option V) (hcommitted : ∀ k, t.writes k = none → committed k = σ.committed k) :
    (setTrx ⟨committed, σ.trx⟩ s none).Isolated := by
  have hother : ∀ {s' t'}, (setTrx ⟨committed, σ.trx⟩ s none).trx s' = some t' → s' ≠ s ∧ σ.trx s' = some t' := by
    intro s' t' ht'
    rw [trx_setTrx] at ht'
    split at ht'
    · cases ht'
    · next hne => exact ⟨hne, ht'⟩
  refine ⟨?_, ?_⟩
  · intro s₁ s₂ t₁ t₂ k h₁ h₂
    exact h.alone s₁ s₂ t₁ t₂ k (hother h₁).2 (hother h₂).2
  · intro s' t' k ht' hwrites
    obtain ⟨hne, hbefore⟩ := hother ht'
    have hfree := h.alone s' s t' t k hbefore ht hne hwrites
    exact (h.unchanged s' t' k hbefore hwrites).trans (hcommitted k hfree).symm

theorem Isolated.step {σ σ' : SnapshotStore S K V} (hstep : Step σ σ') (h : σ.Isolated) : σ'.Isolated := by
  cases hstep with
  | @begin s hidle =>
    refine ⟨?_, ?_⟩
    · intro s₁ s₂ t₁ t₂ k h₁ h₂ hne hwrites
      rw [trx_setTrx] at h₁ h₂
      split at h₁
      · obtain rfl := Option.some.inj h₁
        exact absurd rfl hwrites
      · split at h₂
        · obtain rfl := Option.some.inj h₂
          rfl
        · exact h.alone s₁ s₂ t₁ t₂ k h₁ h₂ hne hwrites
    · intro s' t' k ht' hwrites
      rw [trx_setTrx] at ht'
      split at ht'
      · obtain rfl := Option.some.inj ht'
        exact absurd rfl hwrites
      · exact h.unchanged s' t' k ht' hwrites
  | @write s t changes ht hwritable =>
    have hcase : ∀ k, overlay changes t.writes k ≠ none → changes k ≠ none ∨ t.writes k ≠ none := by
      intro k hwrites
      by_cases hchange : changes k = none
      · right
        simpa [overlay, hchange] using hwrites
      · exact .inl hchange
    refine ⟨?_, ?_⟩
    · intro s₁ s₂ t₁ t₂ k h₁ h₂ hne hwrites
      rw [trx_setTrx] at h₁ h₂
      split at h₁
      · next heq₁ =>
        obtain rfl := Option.some.inj h₁
        rw [if_neg (heq₁ ▸ hne.symm)] at h₂
        cases hcase k hwrites with
        | inl hchange => exact (hwritable k hchange).1 s₂ t₂ (heq₁ ▸ hne.symm) h₂
        | inr hbefore => exact h.alone s s₂ t t₂ k ht h₂ (heq₁ ▸ hne) hbefore
      · next hne₁ =>
        split at h₂
        · obtain rfl := Option.some.inj h₂
          by_contra hwrites₂
          cases hcase k hwrites₂ with
          | inl hchange => exact hwrites ((hwritable k hchange).1 s₁ t₁ hne₁ h₁)
          | inr hbefore => exact hwrites (h.alone s s₁ t t₁ k ht h₁ (Ne.symm hne₁) hbefore)
        · exact h.alone s₁ s₂ t₁ t₂ k h₁ h₂ hne hwrites
    · intro s' t' k ht' hwrites
      rw [trx_setTrx] at ht'
      split at ht'
      · obtain rfl := Option.some.inj ht'
        by_cases hbefore : t.writes k = none
        · exact (hwritable k ((hcase k hwrites).resolve_right (not_not.mpr hbefore))).2 t ht hbefore
        · exact h.unchanged s t k ht hbefore
      · exact h.unchanged s' t' k ht' hwrites
  | commit ht =>
    refine h.leave ht _ fun k hfree => ?_
    rw [hfree]
    rfl
  | rollback ht => exact h.leave ht _ fun _ _ => rfl

theorem Isolated.run {σ σ' : SnapshotStore S K V} (hrun : ReflTransGen Step σ σ') (h : σ.Isolated) : σ'.Isolated :=
  keeps_run (I := Isolated) (fun _ _ hstep => Isolated.step hstep) hrun h

end SnapshotStore

end Landbase.Lib
