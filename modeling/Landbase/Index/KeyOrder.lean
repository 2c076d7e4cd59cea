import Landbase.Index.Key
import Landbase.Lib.Comparator

/-! # When `KeyComparator` orders the keys

The binary searches and the separators of the B+ tree take `KeyComparator` for a total order up to equality. The
comparisons of integers, dates and strings are one. `compare_float` calls values within `EPSILON` of each other equal:
`0`, `2 ^ (-20)` and `2 ^ (-19)` are equal one to the next, and the first is less than the last. One attribute of type
`FLOATS` therefore spoils the order of the keys, wherever it stands in the list (`keyComparator_totalOrder_iff`).
-/

namespace Landbase.Index
open Landbase.Lib
set_option autoImplicit false

/-- An attribute that can be indexed: a number takes four bytes, a string any number. -/
def Attr.Indexable (a : Attr) : Prop :=
  ((a.type = .ints ∨ a.type = .dates ∨ a.type = .floats) ∧ a.length = 4) ∨ a.type = .chars ∨ a.type = .texts

instance (a : Attr) : Decidable a.Indexable :=
  inferInstanceAs (Decidable
    (((a.type = .ints ∨ a.type = .dates ∨ a.type = .floats) ∧ a.length = 4) ∨ a.type = .chars ∨ a.type = .texts))

/-- A key over the attributes: their bytes and the identifier of a record. -/
def IsKey (attrs : List Attr) (k : Key) : Prop := k.attrs.length = attrLength attrs ∧ k.rid.Valid

instance (attrs : List Attr) (k : Key) : Decidable (IsKey attrs k) :=
  inferInstanceAs (Decidable (k.attrs.length = attrLength attrs ∧ k.rid.Valid))

/-- A total order up to equality on the keys that satisfy `ok`. -/
structure TotalOrder (cmp : Key → Key → ℤ) (ok : Key → Prop) : Prop where
  antisymm : ∀ a b, ok a → ok b → (cmp a b < 0 ↔ 0 < cmp b a)
  trans : ∀ a b c, ok a → ok b → ok c → cmp a b ≤ 0 → cmp b c ≤ 0 → cmp a c ≤ 0
  congr : ∀ a b c, ok a → ok b → ok c → cmp a b = 0 → (cmp a c).sign = (cmp b c).sign

theorem TotalOrder.of_consistent {cmp : Key → Key → ℤ} {ok : Key → Prop} (h : Consistent cmp ok) :
    TotalOrder cmp ok where
  antisymm := h.flip
  trans := h.trans
  congr _ _ _ := h.sign_congr

/-! ## Without floats -/

theorem Attr.Indexable.exact {a : Attr} (ha : a.Indexable) (hfloat : a.type ≠ .floats) : a.Exact := by
  unfold Attr.Exact
  rcases ha with ⟨h | h | h, -⟩ | h | h
  · exact Or.inl h
  · exact Or.inr (Or.inl h)
  · exact absurd h hfloat
  · exact Or.inr (Or.inr (Or.inl h))
  · exact Or.inr (Or.inr (Or.inr h))

theorem isKey_consistent {attrs : List Attr} (hattrs : ∀ a ∈ attrs, a.Exact) :
    Consistent (keyComparator attrs) (IsKey attrs) :=
  Consistent.of_threeWay (keyVal attrs) fun _ _ ha hb => keyComparator_threeWay attrs hattrs ha.2 hb.2

/-! ## With floats

A comparison reads the bytes of its own attribute and no others, so a key can be filled with zeros around one float. -/

theorem word32_take (v : Bytes) : word32 (v.take 4) = word32 v := by
  unfold word32
  simp [List.getD_eq_getElem?_getD]

theorem strncmp_take (n : ℕ) (s1 s2 : Bytes) : strncmp n (s1.take n) (s2.take n) = strncmp n s1 s2 := by
  induction n generalizing s1 s2 with
  | zero => rfl
  | succ n ih =>
    have hhead : ∀ s : Bytes, (s.take (n + 1)).headD 0 = s.headD 0 := fun s => by cases s <;> rfl
    have htail : ∀ s : Bytes, (s.take (n + 1)).tail = s.tail.take n := fun s => by cases s <;> simp
    unfold strncmp
    rw [hhead, hhead, htail, htail, ih]

theorem compareAttr_take {a : Attr} (ha : a.Indexable) (v1 v2 : Bytes) :
    compareAttr a (v1.take a.length) (v2.take a.length) = compareAttr a v1 v2 := by
  have hint : a.length = 4 → ∀ v : Bytes, intOfBytes (v.take a.length) = intOfBytes v := by
    intro h v
    unfold intOfBytes
    rw [h, word32_take]
  have hfloat : a.length = 4 → ∀ v : Bytes, floatOfBytes (v.take a.length) = floatOfBytes v := by
    intro h v
    unfold floatOfBytes
    rw [h, word32_take]
  unfold compareAttr
  rcases ha with ⟨h | h | h, hlength⟩ | h | h <;> simp only [h]
  · unfold compareInt
    rw [hint hlength, hint hlength]
  · unfold compareDate compareInt
    rw [hint hlength, hint hlength]
  · unfold compareFloat
    rw [hfloat hlength, hfloat hlength]
  · rw [compareString_same_length, compareString_same_length, strncmp_take]
  · rw [compareString_same_length, compareString_same_length, strncmp_take]

/-- Zeros in front of an attribute are skipped. -/
theorem attrComparator_zeros {pre : List Attr} (hpre : ∀ a ∈ pre, a.Indexable) (attrs : List Attr) (v1 v2 : Bytes) :
    attrComparator (pre ++ attrs) (List.replicate (attrLength pre) 0 ++ v1) (List.replicate (attrLength pre) 0 ++ v2)
      = attrComparator attrs v1 v2 := by
  induction pre with
  | nil => rfl
  | cons a pre ih =>
    have hsplit : ∀ v : Bytes, List.replicate (attrLength (a :: pre)) (0 : UInt8) ++ v =
        List.replicate a.length 0 ++ (List.replicate (attrLength pre) 0 ++ v) := by
      intro v
      rw [← List.append_assoc, ← List.replicate_add]
      rfl
    have htake : ∀ v : Bytes, (List.replicate a.length (0 : UInt8) ++ v).take a.length = List.replicate a.length 0 :=
      fun v => List.take_left' List.length_replicate
    have hdrop : ∀ v : Bytes, (List.replicate a.length (0 : UInt8) ++ v).drop a.length = v :=
      fun v => List.drop_left' List.length_replicate
    have ha := hpre a (by simp)
    rw [hsplit, hsplit, List.cons_append, attrComparator]
    rw [← compareAttr_take ha, htake, htake, compareAttr_self, if_neg (not_not.mpr rfl), hdrop, hdrop]
    exact ih fun b hb => hpre b (by simp [hb])

/-- The bytes of `0`, `2 ^ (-20)` and `2 ^ (-19)`. -/
def floatZero : Bytes := [0x00, 0x00, 0x00, 0x00]
def floatNear : Bytes := [0x00, 0x00, 0x80, 0x35]
def floatFar : Bytes := [0x00, 0x00, 0x00, 0x36]

/-- A key with the bytes of one float between zeros. -/
def floatKey (pre post : List Attr) (float : Bytes) : Key where
  attrs := List.replicate (attrLength pre) 0 ++ (float ++ List.replicate (attrLength post) 0)
  rid := ⟨0, 0⟩

theorem floatKey_isKey (pre post : List Attr) {float : Bytes} (hfloat : float.length = 4) :
    IsKey (pre ++ ⟨.floats, 4⟩ :: post) (floatKey pre post float) := by
  have hrid : (⟨0, 0⟩ : RID).Valid := by decide
  refine ⟨?_, hrid⟩
  simp only [floatKey, attrLength, List.length_append, List.length_replicate, List.map_append, List.map_cons,
    List.sum_append, List.sum_cons, hfloat]

theorem keyComparator_floatKey {pre post : List Attr} (hpre : ∀ a ∈ pre, a.Indexable)
    {f g : Bytes} (hf : f.length = 4) (hg : g.length = 4) :
    keyComparator (pre ++ ⟨.floats, 4⟩ :: post) (floatKey pre post f) (floatKey pre post g) = compareFloat f g := by
  have htake : ∀ h : Bytes, h.length = 4 → ∀ v : Bytes, (h ++ v).take 4 = h := fun h hh v => List.take_left' hh
  have hdrop : ∀ h : Bytes, h.length = 4 → ∀ v : Bytes, (h ++ v).drop 4 = v := fun h hh v => List.drop_left' hh
  have hattrs : attrComparator (pre ++ ⟨.floats, 4⟩ :: post) (floatKey pre post f).attrs (floatKey pre post g).attrs =
      compareFloat f g := by
    rw [floatKey, floatKey, attrComparator_zeros hpre]
    unfold attrComparator
    rw [← compareAttr_take (show Attr.Indexable ⟨.floats, 4⟩ from by decide)]
    simp only [htake f hf, htake g hg, hdrop f hf, hdrop g hg, attrComparator_self]
    by_cases hzero : compareFloat f g = 0
    · simp only [compareAttr, hzero]
      rfl
    · simp only [compareAttr, ne_eq, hzero, not_false_eq_true, if_true]
  unfold keyComparator
  simp only [hattrs]
  by_cases hzero : compareFloat f g = 0
  · have hrid : RID.compare ⟨0, 0⟩ ⟨0, 0⟩ = 0 := by decide
    rw [hzero, if_neg (not_not.mpr rfl)]
    exact hrid
  · simp only [ne_eq, hzero, not_false_eq_true, if_true]

/-- Each of the three floats equals the next one, and the first is less than the last. -/
theorem not_totalOrder_of_floats {pre post : List Attr} (hpre : ∀ a ∈ pre, a.Indexable) :
    ¬ TotalOrder (keyComparator (pre ++ ⟨.floats, 4⟩ :: post)) (IsKey (pre ++ ⟨.floats, 4⟩ :: post)) := by
  intro h
  have hle := h.trans (floatKey pre post floatFar) (floatKey pre post floatNear) (floatKey pre post floatZero)
    (floatKey_isKey pre post rfl) (floatKey_isKey pre post rfl) (floatKey_isKey pre post rfl)
    (by rw [keyComparator_floatKey hpre rfl rfl]; decide +kernel)
    (by rw [keyComparator_floatKey hpre rfl rfl]; decide +kernel)
  rw [keyComparator_floatKey hpre rfl rfl] at hle
  exact absurd hle (by decide +kernel)

/-! ## The exact condition -/

theorem keyComparator_totalOrder_iff (attrs : List Attr) (hattrs : ∀ a ∈ attrs, a.Indexable) :
    TotalOrder (keyComparator attrs) (IsKey attrs) ↔ ∀ a ∈ attrs, a.type ≠ .floats := by
  constructor
  · intro h a ha hfloat
    obtain ⟨pre, post, rfl⟩ := List.append_of_mem ha
    have ha4 : a = ⟨.floats, 4⟩ := by
      rcases hattrs a ha with ⟨-, hlength⟩ | hchars | htexts
      · cases a
        simp only at hfloat hlength
        rw [hfloat, hlength]
      · exact absurd (hfloat.symm.trans hchars) (by decide)
      · exact absurd (hfloat.symm.trans htexts) (by decide)
    subst ha4
    exact not_totalOrder_of_floats (fun b hb => hattrs b (by simp [hb])) h
  · intro hfloat
    exact TotalOrder.of_consistent (isKey_consistent fun a ha => (hattrs a ha).exact (hfloat a ha))

theorem keyComparator_totalOrder_iff_int :
    (∀ a ∈ [(⟨.ints, 4⟩ : Attr), ⟨.chars, 9⟩], a.Indexable) ∧
      (TotalOrder (keyComparator [⟨.ints, 4⟩, ⟨.chars, 9⟩]) (IsKey [⟨.ints, 4⟩, ⟨.chars, 9⟩]) ↔
        ∀ a ∈ [(⟨.ints, 4⟩ : Attr), ⟨.chars, 9⟩], a.type ≠ .floats) :=
  ⟨by decide, keyComparator_totalOrder_iff _ (by decide)⟩

/-- An index on one `FLOATS` column. -/
theorem not_totalOrder_float : ¬ TotalOrder (keyComparator [⟨.floats, 4⟩]) (IsKey [⟨.floats, 4⟩]) :=
  @not_totalOrder_of_floats [] [] (by simp)

end Landbase.Index
