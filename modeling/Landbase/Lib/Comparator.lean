import Mathlib.Order.WithBot
import Landbase.Lib.ThreeWay

/-! # Comparators that order their keys

A three-way comparator need not come with an order on its keys. `Consistent cmp ok` is what a search structure relies
on for the keys that satisfy `ok`: swapping the arguments swaps the sign, and "not greater" is transitive. Such a comparator
is a preorder on these keys; with a least and a greatest bound added it ranks all keys, the others being put at the least
bound.
-/

namespace Landbase.Lib
set_option autoImplicit false

variable {K : Type}

/-- The comparator orders the keys that satisfy `ok`. -/
structure Consistent (cmp : K → K → ℤ) (ok : K → Prop) : Prop where
  flip : ∀ a b, ok a → ok b → (cmp a b < 0 ↔ 0 < cmp b a)
  trans : ∀ a b c, ok a → ok b → ok c → cmp a b ≤ 0 → cmp b c ≤ 0 → cmp a c ≤ 0

/-- A strict weak ordering of the keys that satisfy `ok`, as a library sort asks for. -/
structure StrictWeak (lt : K → K → Bool) (ok : K → Prop) : Prop where
  irrefl : ∀ a, ok a → ¬ lt a a
  trans : ∀ a b c, ok a → ok b → ok c → lt a b → lt b c → lt a c
  incomp_trans : ∀ a b c, ok a → ok b → ok c → (¬ lt a b ∧ ¬ lt b a) → (¬ lt b c ∧ ¬ lt c b) → (¬ lt a c ∧ ¬ lt c a)

namespace Consistent

variable {cmp : K → K → ℤ} {ok : K → Prop}

/-- A comparator that agrees with a linear order on some image of the keys. -/
theorem of_threeWay {O : Type} [LinearOrder O] (f : K → O)
    (h : ∀ a b, ok a → ok b → ThreeWay (cmp a b) (f a) (f b)) : Consistent cmp ok where
  flip a b ha hb := by rw [(h a b ha hb).neg_iff, (h b a hb ha).pos_iff]
  trans a b c ha hb hc hab hbc := by
    rw [← not_lt, (h a b ha hb).pos_iff, not_lt] at hab
    rw [← not_lt, (h b c hb hc).pos_iff, not_lt] at hbc
    rw [← not_lt, (h a c ha hc).pos_iff, not_lt]
    exact le_trans hab hbc

theorem mono {ok' : K → Prop} (h : Consistent cmp ok) (hok : ∀ k, ok' k → ok k) : Consistent cmp ok' where
  flip a b ha hb := h.flip a b (hok a ha) (hok b hb)
  trans a b c ha hb hc := h.trans a b c (hok a ha) (hok b hb) (hok c hc)

theorem zero_comm (h : Consistent cmp ok) {a b : K} (ha : ok a) (hb : ok b) : cmp a b = 0 ↔ cmp b a = 0 := by
  have hab := h.flip a b ha hb
  have hba := h.flip b a hb ha
  omega

theorem neg_of_zero (h : Consistent cmp ok) {a b c : K} (ha : ok a) (hb : ok b) (hc : ok c) (hab : cmp a b < 0)
    (hbc : cmp b c = 0) : cmp a c < 0 := by
  by_contra hac
  have hca : cmp c a ≤ 0 := by
    rw [h.flip a c ha hc] at hac
    omega
  have hba := h.trans b c a hb hc ha (le_of_eq hbc) hca
  rw [h.flip a b ha hb] at hab
  omega

theorem pos_of_zero (h : Consistent cmp ok) {a b c : K} (ha : ok a) (hb : ok b) (hc : ok c) (hab : 0 < cmp a b)
    (hbc : cmp b c = 0) : 0 < cmp a c := by
  by_contra hac
  have hcb : cmp c b ≤ 0 := le_of_eq ((h.zero_comm hb hc).mp hbc)
  have hle := h.trans a c b ha hc hb (not_lt.mp hac) hcb
  omega

theorem sign_congr (h : Consistent cmp ok) {a b c : K} (ha : ok a) (hb : ok b) (hc : ok c) (hab : cmp a b = 0) :
    (cmp a c).sign = (cmp b c).sign := by
  have hba := (h.zero_comm ha hb).mp hab
  rcases lt_trichotomy (cmp b c) 0 with hbc | hbc | hbc
  · have hcb := (h.flip b c hb hc).mp hbc
    have hac := (h.flip a c ha hc).mpr (h.pos_of_zero hc hb ha hcb hba)
    rw [Int.sign_eq_neg_one_of_neg hac, Int.sign_eq_neg_one_of_neg hbc]
  · have hle := h.trans a b c ha hb hc (le_of_eq hab) (le_of_eq hbc)
    have hge := h.trans c b a hc hb ha (le_of_eq ((h.zero_comm hb hc).mp hbc)) (le_of_eq hba)
    have hflip := h.flip a c ha hc
    have hac : cmp a c = 0 := by
      have hflip' := h.flip c a hc ha
      omega
    rw [hac, hbc]
  · have hcb := (h.flip c b hc hb).mpr hbc
    have hac := (h.flip c a hc ha).mp (h.neg_of_zero hc hb ha hcb hba)
    rw [Int.sign_eq_one_of_pos hac, Int.sign_eq_one_of_pos hbc]

theorem neg_of_zero_left (h : Consistent cmp ok) {a b c : K} (ha : ok a) (hb : ok b) (hc : ok c) (hab : cmp a b = 0)
    (hbc : cmp b c < 0) : cmp a c < 0 := by
  have hsign := h.sign_congr ha hb hc hab
  rw [Int.sign_eq_neg_one_of_neg hbc] at hsign
  exact Int.sign_eq_neg_one_iff_neg.mp hsign

theorem neg_trans (h : Consistent cmp ok) {a b c : K} (ha : ok a) (hb : ok b) (hc : ok c) (hab : cmp a b < 0)
    (hbc : cmp b c < 0) : cmp a c < 0 := by
  by_contra hac
  have hca : cmp c a ≤ 0 := by
    rw [h.flip a c ha hc] at hac
    omega
  have hba := h.trans b c a hb hc ha (le_of_lt hbc) hca
  rw [h.flip a b ha hb] at hab
  omega

/-- One comparison after the other, where the second orders the keys that the first calls equal. -/
theorem lex {cmp' : K → K → ℤ} (h : Consistent cmp ok) (h' : ∀ a, ok a → Consistent cmp' fun b => ok b ∧ cmp a b = 0) :
    Consistent (fun a b => if cmp a b ≠ 0 then cmp a b else cmp' a b) ok where
  flip a b ha hb := by
    have haa : cmp a a = 0 := by
      have hflip := h.flip a a ha ha
      omega
    by_cases hab : cmp a b = 0
    · have hba := (h.zero_comm ha hb).mp hab
      simp only [hab, hba, ne_eq, not_true_eq_false, if_false]
      exact (h' a ha).flip a b ⟨ha, haa⟩ ⟨hb, hab⟩
    · have hba : ¬cmp b a = 0 := fun hba => hab ((h.zero_comm ha hb).mpr hba)
      simp only [ne_eq, hab, hba, not_false_eq_true, if_true]
      exact h.flip a b ha hb
  trans a b c ha hb hc hab hbc := by
    have haa : cmp a a = 0 := by
      have hflip := h.flip a a ha ha
      omega
    by_cases hab0 : cmp a b = 0
    · by_cases hbc0 : cmp b c = 0
      · have hac0 : cmp a c = 0 := by
          have hsign := h.sign_congr ha hb hc hab0
          rw [hbc0] at hsign
          exact Int.sign_eq_zero_iff_zero.mp hsign
        simp only [hab0, hbc0, hac0, ne_eq, not_true_eq_false, if_false] at hab hbc ⊢
        exact (h' a ha).trans a b c ⟨ha, haa⟩ ⟨hb, hab0⟩ ⟨hc, hac0⟩ hab hbc
      · simp only [ne_eq, hbc0, not_false_eq_true, if_true] at hbc
        have hac := h.neg_of_zero_left ha hb hc hab0 (lt_of_le_of_ne hbc hbc0)
        simp only [ne_eq, ne_of_lt hac, not_false_eq_true, if_true]
        exact le_of_lt hac
    · simp only [ne_eq, hab0, not_false_eq_true, if_true] at hab
      have hneg := lt_of_le_of_ne hab hab0
      have hac : cmp a c < 0 := by
        by_cases hbc0 : cmp b c = 0
        · exact h.neg_of_zero ha hb hc hneg hbc0
        · simp only [ne_eq, hbc0, not_false_eq_true, if_true] at hbc
          exact h.neg_trans ha hb hc hneg (lt_of_le_of_ne hbc hbc0)
      simp only [ne_eq, ne_of_lt hac, not_false_eq_true, if_true]
      exact le_of_lt hac

theorem strictWeak (h : Consistent cmp ok) : StrictWeak (fun a b => decide (cmp a b < 0)) ok where
  irrefl a ha := by
    have hflip := h.flip a a ha ha
    simp only [decide_eq_true_eq]
    omega
  trans a b c ha hb hc hab hbc := by
    simp only [decide_eq_true_eq] at hab hbc ⊢
    exact h.neg_trans ha hb hc hab hbc
  incomp_trans a b c ha hb hc hab hbc := by
    simp only [decide_eq_true_eq] at hab hbc ⊢
    have hab0 : cmp a b = 0 := by
      have hflip := h.flip b a hb ha
      omega
    have hbc0 : cmp b c = 0 := by
      have hflip := h.flip c b hc hb
      omega
    have hac := h.trans a b c ha hb hc (le_of_eq hab0) (le_of_eq hbc0)
    have hca := h.trans c b a hc hb ha (le_of_eq ((h.zero_comm hb hc).mp hbc0))
      (le_of_eq ((h.zero_comm ha hb).mp hab0))
    have hflip := h.flip a c ha hc
    have hflip' := h.flip c a hc ha
    omega

/-- The order on the keys that satisfy `ok`. -/
abbrev preorder (h : Consistent cmp ok) : Preorder { k // ok k } where
  le a b := cmp a.1 b.1 ≤ 0
  lt a b := cmp a.1 b.1 < 0
  le_refl a := by
    have hflip := h.flip a.1 a.1 a.2 a.2
    show cmp a.1 a.1 ≤ 0
    omega
  le_trans a b c := h.trans a.1 b.1 c.1 a.2 b.2 c.2
  lt_iff_le_not_ge a b := by
    have hab := h.flip a.1 b.1 a.2 b.2
    show cmp a.1 b.1 < 0 ↔ cmp a.1 b.1 ≤ 0 ∧ ¬ cmp b.1 a.1 ≤ 0
    omega

open Classical in
/-- The place of a key among the bounds. -/
noncomputable def rank (ok : K → Prop) (k : K) : WithBot (WithTop { k // ok k }) :=
  if hk : ok k then ((⟨k, hk⟩ : { k // ok k }) : WithTop { k // ok k }) else ⊥

theorem rank_of_ok {k : K} (hk : ok k) : rank ok k = ((⟨k, hk⟩ : { k // ok k }) : WithTop { k // ok k }) := dif_pos hk

theorem rank_injective {a b : K} (ha : ok a) (h : rank ok a = rank ok b) : a = b := by
  rw [rank_of_ok ha] at h
  by_cases hb : ok b
  · rw [rank_of_ok hb] at h
    exact congrArg Subtype.val (WithTop.coe_inj.mp (WithBot.coe_inj.mp h))
  · rw [rank, dif_neg hb] at h
    exact absurd h WithBot.coe_ne_bot

variable [Preorder { k // ok k }]

theorem bot_lt_rank_iff {k : K} : ⊥ < rank ok k ↔ ok k := by
  refine ⟨fun h => ?_, fun hk => ?_⟩
  · by_contra hk
    rw [rank, dif_neg hk] at h
    exact lt_irrefl _ h
  · rw [rank_of_ok hk]
    exact WithBot.bot_lt_coe _

theorem rank_lt_top (k : K) : rank ok k < ⊤ := by
  by_cases hk : ok k
  · rw [rank_of_ok hk]
    exact WithBot.coe_lt_coe.mpr (WithTop.coe_lt_top _)
  · rw [rank, dif_neg hk]
    exact WithBot.bot_lt_coe _

theorem rank_lt_rank {a b : K} (ha : ok a) (hb : ok b) :
    rank ok a < rank ok b ↔ (⟨a, ha⟩ : { k // ok k }) < ⟨b, hb⟩ := by
  rw [rank_of_ok ha, rank_of_ok hb, WithBot.coe_lt_coe, WithTop.coe_lt_coe]

theorem rank_le_rank {a b : K} (ha : ok a) (hb : ok b) :
    rank ok a ≤ rank ok b ↔ (⟨a, ha⟩ : { k // ok k }) ≤ ⟨b, hb⟩ := by
  rw [rank_of_ok ha, rank_of_ok hb, WithBot.coe_le_coe, WithTop.coe_le_coe]

end Consistent

end Landbase.Lib
