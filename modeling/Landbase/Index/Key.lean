import Landbase.Common.Basic
import Landbase.Lib.ThreeWay

/-! # Index keys and their comparators

A key of the B+ tree is the bytes of the indexed attributes followed by the `RID` of the record
(`BplusTreeHandler::make_key`). `AttrComparator` goes through the attributes, `KeyComparator` breaks ties by the
`RID`. Both are transcribed from `storage/index/bplus_tree.h` and `common/lang/comparator.cpp`.

Keys that `KeyComparator` calls equal need not have the same bytes: what follows the terminating NUL of a `CHARS`
attribute is not looked at. `attrVals` is the part of the bytes that is, and the comparators agree with the
lexicographic order on it (`attrComparator_threeWay`, `keyComparator_threeWay`).
-/

namespace Landbase.Index
open Landbase.Lib
set_option autoImplicit false

/-! ## Attribute types and the comparison functions of `comparator.cpp` -/

/-- `enum AttrType`. -/
inductive AttrType
  | undefined | chars | dates | ints | floats | booleans | nulls | texts
  deriving DecidableEq, Repr

/-- One entry of `attr_types_` with its entry of `attr_lengths_`. -/
structure Attr where
  type : AttrType
  length : ℕ
  deriving DecidableEq, Repr

/-- The 32-bit little-endian word at the start of a buffer. -/
def word32 (v : Bytes) : ℕ :=
  (v.getD 0 0).toNat + 256 * (v.getD 1 0).toNat + 65536 * (v.getD 2 0).toNat + 16777216 * (v.getD 3 0).toNat

/-- `*(int *)v`. -/
def intOfBytes (v : Bytes) : ℤ := toInt32 (word32 v)

/-- `*(float *)v` in units of `2 ^ (-149)`, of which every finite float is a multiple; exponents of all ones are read
like the other ones. -/
def floatOfBytes (v : Bytes) : ℤ :=
  let bits : ℕ := word32 v
  let mantissa : ℕ := bits % 2 ^ 23
  let exponent : ℕ := bits / 2 ^ 23 % 256
  let magnitude : ℕ := if exponent = 0 then mantissa else (2 ^ 23 + mantissa) * 2 ^ (exponent - 1)
  if bits / 2 ^ 31 = 1 then -magnitude else magnitude

/-- Rounding to 24 significant bits, ties to even: what a float keeps of a difference. -/
def roundFloat (x : ℤ) : ℤ :=
  let ulp : ℤ := 2 ^ (Nat.log2 x.natAbs - 23)
  let low := x / ulp
  if 2 * (x % ulp) < ulp ∨ (2 * (x % ulp) = ulp ∧ low % 2 = 0) then low * ulp else (low + 1) * ulp

/-- `common::compare_int`. -/
def compareInt (v1 v2 : Bytes) : ℤ :=
  if intOfBytes v1 > intOfBytes v2 then 1 else if intOfBytes v1 < intOfBytes v2 then -1 else 0

/-- `common::compare_date`: a date is stored as the integer `Y*10000 + M*100 + D`. -/
def compareDate (v1 v2 : Bytes) : ℤ := compareInt v1 v2

/-- `EPSILON`, the double nearest to `1E-6`, in units of `2 ^ (-149)`. -/
def epsilon : ℤ := 4722366482869645 * 2 ^ 77

/-- `common::compare_float`. -/
def compareFloat (v1 v2 : Bytes) : ℤ :=
  let cmp := roundFloat (floatOfBytes v1 - floatOfBytes v2)
  if cmp > epsilon then 1 else if cmp < -epsilon then -1 else 0

/-- `strncmp`: the difference of the first bytes that differ, read as unsigned characters. -/
def strncmp : ℕ → Bytes → Bytes → ℤ
  | 0, _, _ => 0
  | n + 1, s1, s2 =>
    if s1.headD 0 ≠ s2.headD 0 then ((s1.headD 0).toNat : ℤ) - (s2.headD 0).toNat
    else if s1.headD 0 = 0 then 0
    else strncmp n s1.tail s2.tail

/-- The value of a plain `char`, which is signed. -/
def signedChar (c : UInt8) : ℤ := Int.bmod c.toNat 256

/-- `common::compare_string`. -/
def compareString (s1 : Bytes) (maxLength1 : ℕ) (s2 : Bytes) (maxLength2 : ℕ) : ℤ :=
  let maxlen := min maxLength1 maxLength2
  let result := strncmp maxlen s1 s2
  if result ≠ 0 then result
  else if maxlen < maxLength1 then signedChar (s1.getD maxlen 0)
  else if maxlen < maxLength2 then 0 - signedChar (s2.getD maxlen 0)
  else 0

/-! ## `AttrComparator` and `KeyComparator` -/

/-- The switch over the attribute type. No index is created on the types of the last case, where the source
asserts. -/
def compareAttr (a : Attr) (v1 v2 : Bytes) : ℤ :=
  match a.type with
  | .ints => compareInt v1 v2
  | .dates => compareDate v1 v2
  | .floats => compareFloat v1 v2
  | .texts | .chars => compareString v1 a.length v2 a.length
  | .undefined | .booleans | .nulls => 0

/-- `AttrComparator::operator()`: `pos` advances by the length of each attribute. -/
def attrComparator : List Attr → Bytes → Bytes → ℤ
  | [], _, _ => 0
  | a :: attrs, v1, v2 =>
    let res := compareAttr a v1 v2
    if res ≠ 0 then res else attrComparator attrs (v1.drop a.length) (v2.drop a.length)

/-- The number of bytes that `AttrComparator` reads. -/
def attrLength (attrs : List Attr) : ℕ := (attrs.map Attr.length).sum

/-- A key: the attribute bytes and the record identifier behind them. -/
structure Key where
  attrs : Bytes
  rid : RID
  deriving DecidableEq, Repr

/-- `KeyComparator::operator()`. -/
def keyComparator (attrs : List Attr) (k1 k2 : Key) : ℤ :=
  let result := attrComparator attrs k1.attrs k2.attrs
  if result ≠ 0 then result else RID.compare k1.rid k2.rid

/-- `BplusTreeHandler::make_key`: the attributes of `userKey` one after the other, then the `RID`. -/
def makeKey (attrs : List Attr) (attrOffsets : List ℕ) (userKey : Bytes) (rid : RID) : Key where
  attrs := (attrs.zip attrOffsets).flatMap fun a => (userKey.drop a.2).take a.1.length
  rid := rid

/-! ## What the comparators look at -/

/-- The attribute types on which the comparators are exact. -/
def Attr.Exact (a : Attr) : Prop := a.type = .ints ∨ a.type = .dates ∨ a.type = .chars ∨ a.type = .texts

instance (a : Attr) : Decidable a.Exact :=
  inferInstanceAs (Decidable (a.type = .ints ∨ a.type = .dates ∨ a.type = .chars ∨ a.type = .texts))

/-- The characters of a string up to its terminator. -/
def cString (s : Bytes) : List ℕ := (s.takeWhile (· ≠ 0)).map UInt8.toNat

/-- The value of one attribute. -/
def attrVal (a : Attr) (v : Bytes) : ℤ ⊕ₗ List ℕ :=
  match a.type with
  | .texts | .chars => toLex (Sum.inr (cString (v.take a.length)))
  | .ints | .dates | .floats | .undefined | .booleans | .nulls => toLex (Sum.inl (intOfBytes v))

/-- The values of the attributes of a key. -/
def attrVals : List Attr → Bytes → List (ℤ ⊕ₗ List ℕ)
  | [], _ => []
  | a :: attrs, v => attrVal a v :: attrVals attrs (v.drop a.length)

/-- The value of a whole key: its attributes and its record identifier. -/
abbrev KeyVal := List (ℤ ⊕ₗ List ℕ) ×ₗ (ℤ ×ₗ ℤ)

/-- What `KeyComparator` sees of a key. -/
def keyVal (attrs : List Attr) (k : Key) : KeyVal :=
  toLex (attrVals attrs k.attrs, toLex (k.rid.pageNum, k.rid.slotNum))

/-! ## Equal bytes compare equal -/

theorem strncmp_self (n : ℕ) (s : Bytes) : strncmp n s s = 0 := by
  induction n generalizing s with
  | zero => rfl
  | succ n ih =>
    rw [strncmp, if_neg (not_not.mpr rfl), ih]
    exact ite_self 0

theorem compareString_same_length (v1 v2 : Bytes) (n : ℕ) : compareString v1 n v2 n = strncmp n v1 v2 := by
  unfold compareString
  simp only [min_self, lt_irrefl, if_false]
  split <;> simp_all

theorem compareAttr_self (a : Attr) (v : Bytes) : compareAttr a v v = 0 := by
  unfold compareAttr
  split
  · simp [compareInt]
  · simp [compareDate, compareInt]
  · simp [compareFloat, roundFloat, epsilon]
  · rw [compareString_same_length, strncmp_self]
  · rw [compareString_same_length, strncmp_self]
  all_goals rfl

theorem attrComparator_self (attrs : List Attr) (v : Bytes) : attrComparator attrs v v = 0 := by
  induction attrs generalizing v with
  | nil => rfl
  | cons a attrs ih =>
    rw [attrComparator, compareAttr_self a v]
    exact ih _

/-! ## The comparators agree with the order of the values -/

theorem strncmp_threeWay (n : ℕ) (s1 s2 : Bytes) :
    ThreeWay (strncmp n s1 s2) (cString (s1.take n)) (cString (s2.take n)) := by
  induction n generalizing s1 s2 with
  | zero =>
    simp only [strncmp, List.take_zero]
    exact ThreeWay.zero _
  | succ n ih =>
    have hcons : ∀ s : Bytes, s.headD 0 ≠ 0 →
        cString (s.take (n + 1)) = (s.headD 0).toNat :: cString (s.tail.take n) := by
      intro s hs
      cases s with
      | nil => exact absurd rfl hs
      | cons c s =>
        have hc : c ≠ 0 := hs
        simp [cString, hc]
    have hnil : ∀ s : Bytes, s.headD 0 = 0 → cString (s.take (n + 1)) = [] := by
      intro s hs
      cases s with
      | nil => rfl
      | cons c s =>
        have hc : c = 0 := hs
        simp [cString, hc]
    have hnat : ∀ c : UInt8, c ≠ 0 → 0 < c.toNat := by
      intro c hc
      cases Nat.eq_zero_or_pos c.toNat with
      | inl h0 => exact absurd (UInt8.toNat_inj.mp h0) hc
      | inr hpos => exact hpos
    unfold strncmp
    by_cases hne : s1.headD 0 = s2.headD 0
    · by_cases hz : s1.headD 0 = 0
      · simp only [hne, ne_eq, not_true_eq_false, if_false, hne ▸ hz, if_true]
        rw [hnil s1 hz, hnil s2 (hne ▸ hz)]
        exact ThreeWay.zero _
      · have hz2 : s2.headD 0 ≠ 0 := hne ▸ hz
        simp only [hne, ne_eq, not_true_eq_false, if_false, hz2]
        rw [hcons s1 hz, hcons s2 hz2, hne]
        exact ⟨fun h => List.cons_lt_cons_iff.mpr (Or.inr ⟨rfl, (ih _ _).lt h⟩), fun h => by rw [(ih _ _).eq h],
          fun h => List.cons_lt_cons_iff.mpr (Or.inr ⟨rfl, (ih _ _).gt h⟩)⟩
    · simp only [hne, ne_eq, not_false_eq_true, if_true]
      have hdiff : (s1.headD 0).toNat ≠ (s2.headD 0).toNat := fun h => hne (UInt8.toNat_inj.mp h)
      by_cases hz1 : s1.headD 0 = 0
      · have hz2 : s2.headD 0 ≠ 0 := fun h => hne (hz1.trans h.symm)
        have hpos := hnat _ hz2
        have hzero : (s1.headD 0).toNat = 0 := by rw [hz1]; rfl
        rw [hnil s1 hz1, hcons s2 hz2, hzero]
        exact ⟨fun _ => List.nil_lt_cons _ _, fun h => by omega, fun h => by omega⟩
      · by_cases hz2 : s2.headD 0 = 0
        · have hpos := hnat _ hz1
          have hzero : (s2.headD 0).toNat = 0 := by rw [hz2]; rfl
          rw [hnil s2 hz2, hcons s1 hz1, hzero]
          exact ⟨fun h => by omega, fun h => by omega, fun _ => List.nil_lt_cons _ _⟩
        · rw [hcons s1 hz1, hcons s2 hz2]
          exact ⟨fun h => List.cons_lt_cons_iff.mpr (Or.inl (by omega)), fun h => by omega,
            fun h => List.cons_lt_cons_iff.mpr (Or.inl (by omega))⟩

theorem compareAttr_threeWay (a : Attr) (ha : a.Exact) (v1 v2 : Bytes) :
    ThreeWay (compareAttr a v1 v2) (attrVal a v1) (attrVal a v2) := by
  have hstr : ThreeWay (compareString v1 a.length v2 a.length)
      (toLex (Sum.inr (cString (v1.take a.length))) : ℤ ⊕ₗ List ℕ)
      (toLex (Sum.inr (cString (v2.take a.length)))) := by
    rw [compareString_same_length]
    exact (strncmp_threeWay a.length v1 v2).map (fun s => (toLex (Sum.inr s) : ℤ ⊕ₗ List ℕ))
      (fun h => Sum.Lex.inr_lt_inr_iff.mpr h)
  have hint : ThreeWay (compareInt v1 v2) (toLex (Sum.inl (intOfBytes v1)) : ℤ ⊕ₗ List ℕ)
      (toLex (Sum.inl (intOfBytes v2))) :=
    (ThreeWay.of_ite _ _).map (fun i => (toLex (Sum.inl i) : ℤ ⊕ₗ List ℕ))
      (fun h => Sum.Lex.inl_lt_inl_iff.mpr h)
  unfold compareAttr attrVal
  rcases ha with h | h | h | h <;> simp only [h]
  · exact hint
  · exact hint
  · exact hstr
  · exact hstr

theorem attrComparator_threeWay (attrs : List Attr) (hattrs : ∀ a ∈ attrs, a.Exact) (v1 v2 : Bytes) :
    ThreeWay (attrComparator attrs v1 v2) (attrVals attrs v1) (attrVals attrs v2) := by
  induction attrs generalizing v1 v2 with
  | nil => exact ThreeWay.zero _
  | cons a attrs ih =>
    exact (compareAttr_threeWay a (hattrs a (by simp)) v1 v2).cons
      (ih (fun b hb => hattrs b (by simp [hb])) _ _)

theorem RID.compare_threeWay {r s : RID} (hr : r.Valid) (hs : s.Valid) :
    ThreeWay (RID.compare r s) (toLex (r.pageNum, r.slotNum)) (toLex (s.pageNum, s.slotNum)) := by
  rw [RID.compare_of_valid hr hs]
  exact (ThreeWay.of_sub _ _).prod (ThreeWay.of_sub _ _)

theorem keyComparator_threeWay (attrs : List Attr) (hattrs : ∀ a ∈ attrs, a.Exact) {k1 k2 : Key}
    (h1 : k1.rid.Valid) (h2 : k2.rid.Valid) :
    ThreeWay (keyComparator attrs k1 k2) (keyVal attrs k1) (keyVal attrs k2) :=
  (attrComparator_threeWay attrs hattrs _ _).prod (RID.compare_threeWay h1 h2)

end Landbase.Index
