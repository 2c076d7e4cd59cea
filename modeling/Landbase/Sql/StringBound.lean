import Landbase.Index.Scan
import Landbase.Lib.Truncation
import Landbase.Sql.CompareValue
import Mathlib.Data.List.TakeWhile

/-! # String bounds of a range

`fix_user_key` makes a string bound as long as the attribute: a short one is filled with zeros, and a long one is cut, with
its last character raised for a lower bound, and then belongs to the range. Among the strings that the attribute can hold the
new bound selects what the original comparison asks for. Strings are compared by their characters as unsigned numbers, as
`strncmp` does; on ASCII strings this is what `common::compare_string` says of the whole strings.
-/

namespace Landbase.Sql
open Lib Index
set_option autoImplicit false

/-- A string of ASCII characters, in front of its NUL. -/
def Ascii (s : Bytes) : Prop := NoNul s ∧ ∀ c ∈ s, c < 128

/-- `>=`, `>`, `<=` or `<`, of the result of a comparison with the bound. -/
def Meets (wantGreater inclusive : Bool) (result : ℤ) : Prop :=
  match wantGreater, inclusive with
  | true, true => 0 ≤ result
  | true, false => 0 < result
  | false, true => result ≤ 0
  | false, false => result < 0

/-- The same of a string and the bound. -/
def Satisfies {O : Type} [LE O] [LT O] (wantGreater inclusive : Bool) (x bound : O) : Prop :=
  match wantGreater, inclusive with
  | true, true => bound ≤ x
  | true, false => bound < x
  | false, true => x ≤ bound
  | false, false => x < bound

theorem meets_iff {O : Type} [LinearOrder O] {result : ℤ} {x bound : O} (h : ThreeWay result x bound)
    (wantGreater inclusive : Bool) : Meets wantGreater inclusive result ↔ Satisfies wantGreater inclusive x bound := by
  cases wantGreater with
  | true =>
    cases inclusive with
    | true => exact not_lt.symm.trans ((not_congr h.neg_iff).trans not_lt)
    | false => exact h.pos_iff
  | false =>
    cases inclusive with
    | true => exact not_lt.symm.trans ((not_congr h.pos_iff).trans not_lt)
    | false => exact h.neg_iff

/-! ## Strings in memory -/

theorem cString_of_noNul {s : Bytes} (hs : NoNul s) : cString s = s.map UInt8.toNat := by
  have hall : s.takeWhile (· ≠ 0) = s := by
    rw [List.takeWhile_eq_self_iff]
    intro c hc
    have hne : c ≠ 0 := fun hzero => hs (hzero ▸ hc)
    simpa using hne
  rw [cString, hall]

theorem cString_append_nul {s : Bytes} (hs : NoNul s) (n : ℕ) : cString (s ++ List.replicate n 0) = cString s := by
  induction s with
  | nil => cases n <;> rfl
  | cons c s ih =>
    obtain ⟨hc, hs⟩ := noNul_cons.mp hs
    have htail := ih hs
    unfold cString at htail ⊢
    rw [List.cons_append, List.takeWhile_cons_of_pos (by simpa using hc), List.takeWhile_cons_of_pos (by simpa using hc),
      List.map_cons, List.map_cons, htail]

theorem length_cString_le (s : Bytes) : (cString s).length ≤ s.length := by
  rw [cString, List.length_map]
  exact (List.takeWhile_prefix _).length_le

theorem NoNul.take {s : Bytes} (hs : NoNul s) (n : ℕ) : NoNul (s.take n) := fun h => hs (List.mem_of_mem_take h)

/-- `strlen`. -/
theorem findIdx?_nul {s : Bytes} (hs : NoNul s) (behind : Bytes) :
    (s ++ 0 :: behind).findIdx? (· == 0) = some s.length := by
  have hnone : s.findIdx? (· == 0) = none := by
    rw [List.findIdx?_eq_none_iff]
    intro c hc
    have hne : c ≠ 0 := fun hzero => hs (hzero ▸ hc)
    simpa using hne
  rw [List.findIdx?_append, hnone, List.findIdx?_cons]
  simp

/-- On ASCII strings `common::compare_string` is the order of the characters. -/
theorem compareStringValue_threeWay {s t : Bytes} (hs : Ascii s) (ht : Ascii t) :
    ThreeWay (compareStringValue s t) (cString s) (cString t) := by
  rw [cString_of_noNul hs.1, cString_of_noNul ht.1]
  have hpos : ∀ c : UInt8, c ≠ 0 → c < 128 → 0 < signedChar c := by
    intro c hc hlt
    have hnot := mt (signedChar_nonpos_iff hc).mp (not_le.mpr (UInt8.lt_iff_toNat_lt.mp hlt))
    omega
  induction s generalizing t with
  | nil =>
    cases t with
    | nil => exact ThreeWay.zero _
    | cons d t =>
      have hd := hpos d (noNul_cons.mp ht.1).1 (ht.2 d List.mem_cons_self)
      rw [compareStringValue_nil_left, List.map_nil, List.map_cons]
      exact ⟨fun _ => List.nil_lt_cons _ _, fun h => by omega, fun h => by omega⟩
  | cons c s ih =>
    obtain ⟨hc, hs'⟩ := noNul_cons.mp hs.1
    cases t with
    | nil =>
      have hcpos := hpos c hc (hs.2 c List.mem_cons_self)
      rw [compareStringValue_nil_right, List.map_nil, List.map_cons]
      exact ⟨fun h => by omega, fun h => by omega, fun _ => List.nil_lt_cons _ _⟩
    | cons d t =>
      have hrest := ih ⟨hs', fun b hb => hs.2 b (List.mem_cons_of_mem c hb)⟩
        ⟨(noNul_cons.mp ht.1).2, fun b hb => ht.2 b (List.mem_cons_of_mem d hb)⟩
      rw [compareStringValue_cons hc, List.map_cons, List.map_cons]
      by_cases hcd : c = d
      · rw [if_pos hcd, hcd]
        exact hrest.map _ fun h => List.cons_lt_cons_iff.mpr (Or.inr ⟨rfl, h⟩)
      · have hne : c.toNat ≠ d.toNat := fun h => hcd (UInt8.toNat_inj.mp h)
        rw [if_neg hcd]
        exact ⟨fun h => List.cons_lt_cons_iff.mpr (Or.inl (by omega)), fun h => by omega,
          fun h => List.cons_lt_cons_iff.mpr (Or.inl (by omega))⟩

/-! ## The fixed key -/

/-- The stored strings that the fixed key and the inclusive flag select. -/
def Selects (attrLength : ℕ) (fixedKey : Bytes) (wantGreater inclusive : Bool) (stored : Bytes) : Prop :=
  Meets wantGreater inclusive (compareAttr ⟨.chars, attrLength⟩ stored fixedKey)

theorem selects_iff {n : ℕ} {fixedKey stored : Bytes} (hfixed : fixedKey.length = n) (hstored : stored.length ≤ n)
    (wantGreater inclusive : Bool) : Selects n fixedKey wantGreater inclusive stored ↔
      Satisfies wantGreater inclusive (cString stored) (cString fixedKey) := by
  have hway := strncmp_threeWay n stored fixedKey
  rw [List.take_of_length_le hstored, List.take_of_length_le (le_of_eq hfixed)] at hway
  rw [← meets_iff hway, Selects, compareAttr, compareString_same_length]

/-- A bound that is not longer than the attribute is filled with zeros. -/
theorem fixUserKey_short {n : ℕ} {bound : Bytes} (hbound : NoNul bound) (hlen : bound.length ≤ n) (behind : Bytes)
    (wantGreater : Bool) : fixUserKey n (bound ++ 0 :: behind) bound.length wantGreater =
      some (bound ++ List.replicate (n - bound.length) 0, false) := by
  have htake : (bound ++ 0 :: behind).take bound.length = bound := List.take_left
  unfold fixUserKey
  rw [findIdx?_nul hbound, Option.bind_eq_bind, Option.bind_some, if_neg (lt_irrefl _), if_pos hlen, htake]

/-- A bound that is longer is cut, with its last character raised for a lower bound. -/
theorem fixUserKey_long {n : ℕ} {bound : Bytes} (hbound : NoNul bound) (hlen : n < bound.length) (behind : Bytes)
    (wantGreater : Bool) : fixUserKey n (bound ++ 0 :: behind) bound.length wantGreater =
      some (if wantGreater then (bound.take n).modify (n - 1) (· + 1) else bound.take n, true) := by
  have htake : (bound ++ 0 :: behind).take n = bound.take n := List.take_append_of_le_length (by omega)
  have hget : (bound ++ 0 :: behind)[n]? = some bound[n] := by
    rw [List.getElem?_append_left hlen, List.getElem?_eq_getElem hlen]
  have hne : bound[n] ≠ 0 := fun h => hbound (h ▸ List.getElem_mem hlen)
  unfold fixUserKey
  rw [findIdx?_nul hbound, Option.bind_eq_bind, Option.bind_some, if_neg (lt_irrefl _), if_neg (by omega), htake]
  simp only [hget, Option.bind_eq_bind, Option.bind_some, if_neg hne]
  cases wantGreater with
  | true => rfl
  | false => rfl

/-- Raising a character of an ASCII string does not overflow. -/
theorem map_modify_succ {s : Bytes} (hs : Ascii s) (i : ℕ) :
    (s.modify i (· + 1)).map UInt8.toNat = (s.map UInt8.toNat).modify i Order.succ ∧ NoNul (s.modify i (· + 1)) := by
  induction s generalizing i with
  | nil =>
    rw [List.modify_nil, List.map_nil, List.modify_nil]
    exact ⟨rfl, List.not_mem_nil⟩
  | cons c s ih =>
    obtain ⟨hc, hs'⟩ := noNul_cons.mp hs.1
    cases i with
    | zero =>
      have hlt := UInt8.lt_iff_toNat_lt.mp (hs.2 c List.mem_cons_self)
      have hsucc : (c + 1).toNat = c.toNat + 1 := by
        rw [UInt8.toNat_add]
        exact Nat.mod_eq_of_lt (Nat.succ_lt_succ (lt_of_lt_of_le hlt (by decide)))
      have hne : c + 1 ≠ 0 := by
        intro h
        rw [h] at hsucc
        exact absurd hsucc.symm (Nat.succ_ne_zero _)
      rw [List.modify_zero_cons, List.map_cons, List.map_cons, List.modify_zero_cons, hsucc]
      exact ⟨rfl, noNul_cons.mpr ⟨hne, hs'⟩⟩
    | succ i =>
      obtain ⟨hmap, hnul⟩ := ih ⟨hs', fun b hb => hs.2 b (List.mem_cons_of_mem c hb)⟩ i
      rw [List.modify_succ_cons, List.map_cons, List.map_cons, List.modify_succ_cons, hmap]
      exact ⟨rfl, noNul_cons.mpr ⟨hc, hnul⟩⟩

theorem cString_modify {s : Bytes} (hs : Ascii s) (i : ℕ) :
    cString (s.modify i (· + 1)) = (cString s).modify i Order.succ := by
  obtain ⟨hmap, hnul⟩ := map_modify_succ hs i
  rw [cString_of_noNul hnul, cString_of_noNul hs.1, hmap]

theorem cString_take {s : Bytes} (hs : NoNul s) (n : ℕ) : cString (s.take n) = (cString s).take n := by
  rw [cString_of_noNul (hs.take n), cString_of_noNul hs, List.map_take]

/-- No string that the attribute can hold equals a longer bound, so it does not matter whether the bound belongs to the
range. -/
theorem satisfies_of_ne {O : Type} [LinearOrder O] {x bound : O} (h : x ≠ bound) (wantGreater inclusive : Bool) :
    Satisfies wantGreater inclusive x bound ↔ Satisfies wantGreater false x bound := by
  cases inclusive with
  | false => exact Iff.rfl
  | true =>
    cases wantGreater with
    | true => exact (lt_iff_le_and_ne.trans (and_iff_left (Ne.symm h))).symm
    | false => exact (lt_iff_le_and_ne.trans (and_iff_left h)).symm

/-- A fixed key that stands for the bound. -/
theorem fixUserKey_exact {n : ℕ} (hn : 0 < n) {bound : Bytes} (hbound : Ascii bound) (behind : Bytes)
    (wantGreater : Bool) :
    ∃ fixedKey shouldInclusive,
      fixUserKey n (bound ++ 0 :: behind) bound.length wantGreater = some (fixedKey, shouldInclusive) ∧
      fixedKey.length = n ∧ ∀ (stored : Bytes) inclusive, stored.length ≤ n →
        (Satisfies wantGreater (inclusive || shouldInclusive) (cString stored) (cString fixedKey) ↔
          Satisfies wantGreater inclusive (cString stored) (cString bound)) := by
  have hnul := hbound.1
  by_cases hlen : bound.length ≤ n
  · refine ⟨_, _, fixUserKey_short hnul hlen behind wantGreater, ?_, fun stored inclusive hstored => ?_⟩
    · rw [List.length_append, List.length_replicate]
      omega
    · rw [cString_append_nul hnul, Bool.or_false]
  · have hlong : n < (cString bound).length := by
      rw [cString_of_noNul hnul, List.length_map]
      omega
    refine ⟨_, _, fixUserKey_long hnul (not_le.mp hlen) behind wantGreater, ?_, fun stored inclusive hstored => ?_⟩
    · cases wantGreater with
      | true => rw [if_pos rfl, List.length_modify, List.length_take]; omega
      | false => rw [if_neg Bool.false_ne_true, List.length_take]; omega
    · have hshort : (cString stored).length ≤ n := le_trans (length_cString_le stored) hstored
      have hne : cString stored ≠ cString bound := by
        intro h
        rw [h] at hshort
        omega
      rw [satisfies_of_ne hne, Bool.or_true]
      cases wantGreater with
      | false =>
        rw [if_neg Bool.false_ne_true, cString_take hnul]
        exact (lt_iff_le_take n _ _ hshort hlong).symm
      | true =>
        obtain ⟨m, rfl⟩ : ∃ m, n = m + 1 := ⟨n - 1, by omega⟩
        have htake : Ascii (bound.take (m + 1)) := ⟨hnul.take _, fun c hc => hbound.2 c (List.mem_of_mem_take hc)⟩
        rw [if_pos rfl, Nat.add_sub_cancel, cString_modify htake, cString_take hnul]
        exact (lt_iff_succ_le m _ _ hshort hlong).symm

/-- The fixed key and the flag select, among the strings that the attribute can hold, those that satisfy the original
comparison with the whole bound. -/
theorem fixUserKey_selects {n : ℕ} (hn : 0 < n) {bound : Bytes} (hbound : Ascii bound) (behind : Bytes)
    (wantGreater : Bool) :
    ∃ fixedKey shouldInclusive,
      fixUserKey n (bound ++ 0 :: behind) bound.length wantGreater = some (fixedKey, shouldInclusive) ∧
      ∀ (stored : Bytes) inclusive, stored.length ≤ n →
        (Selects n fixedKey wantGreater (inclusive || shouldInclusive) stored ↔
          Satisfies wantGreater inclusive (cString stored) (cString bound)) ∧
        (Ascii stored → (Selects n fixedKey wantGreater (inclusive || shouldInclusive) stored ↔
          Meets wantGreater inclusive (compareStringValue stored bound))) := by
  obtain ⟨fixedKey, shouldInclusive, hfix, hlength, hexact⟩ := fixUserKey_exact hn hbound behind wantGreater
  refine ⟨fixedKey, shouldInclusive, hfix, fun stored inclusive hstored => ?_⟩
  have hselects : Selects n fixedKey wantGreater (inclusive || shouldInclusive) stored ↔
      Satisfies wantGreater inclusive (cString stored) (cString bound) :=
    (selects_iff hlength hstored wantGreater _).trans (hexact stored inclusive hstored)
  exact ⟨hselects, fun hascii =>
    hselects.trans (meets_iff (compareStringValue_threeWay hascii hbound) wantGreater inclusive).symm⟩

/-- `> 'ABCD1'` on an attribute of four characters. -/
theorem fixUserKey_selects_ABCD1 :
    ∃ fixedKey shouldInclusive, fixUserKey 4 ([65, 66, 67, 68, 49] ++ 0 :: []) 5 true = some (fixedKey, shouldInclusive) ∧
      ∀ (stored : Bytes) inclusive, stored.length ≤ 4 →
        (Selects 4 fixedKey true (inclusive || shouldInclusive) stored ↔
          Satisfies true inclusive (cString stored) (cString [65, 66, 67, 68, 49])) ∧
        (Ascii stored → (Selects 4 fixedKey true (inclusive || shouldInclusive) stored ↔
          Meets true inclusive (compareStringValue stored [65, 66, 67, 68, 49]))) := by
  have hbound : Ascii [65, 66, 67, 68, 49] := by
    refine ⟨by simp [NoNul], fun c hc => ?_⟩
    simp only [List.mem_cons, List.not_mem_nil, or_false] at hc
    obtain rfl | rfl | rfl | rfl | rfl := hc <;> decide
  exact fixUserKey_selects (by decide) hbound [] true

/-! ## The keys of a scan -/

/-- A key made of one string. -/
def stringLayout (n : ℕ) : KeyLayout := ⟨[⟨.chars, n⟩], [0], rfl, Nat.le_of_ble_eq_true rfl⟩

theorem attrComparator_string (n : ℕ) (v1 v2 : Bytes) :
    attrComparator (stringLayout n).attrs v1 v2 = compareAttr ⟨.chars, n⟩ v1 v2 := by
  show (if compareAttr ⟨.chars, n⟩ v1 v2 ≠ 0 then compareAttr ⟨.chars, n⟩ v1 v2 else 0) = _
  split
  · rfl
  · next h => exact (not_not.mp h).symm

theorem makeKey?_string {n : ℕ} {userKey : Bytes} (h : userKey.length = n) (rid : RID) :
    (stringLayout n).makeKey? userKey rid = some ⟨userKey, rid⟩ := by
  have hinside : (stringLayout n).Inside userKey := by
    intro a ha
    obtain rfl := List.mem_singleton.mp ha
    exact le_of_eq (by rw [Nat.zero_add, h])
  have hattrs : (makeKey (stringLayout n).attrs (stringLayout n).attrOffsets userKey rid).attrs = userKey.take n := by
    show (userKey.drop 0).take n ++ [] = _
    rw [List.append_nil, List.drop_zero]
  rw [KeyLayout.makeKey?, if_pos hinside, Option.some.injEq, Key.mk.injEq, hattrs, ← h, List.take_length]
  exact ⟨rfl, rfl⟩

theorem fix_string {n len : ℕ} {userKey fixedKey : Bytes} {wantGreater shouldInclusive : Bool}
    (h : fixUserKey n userKey len wantGreater = some (fixedKey, shouldInclusive)) (inclusive : Bool) :
    (⟨userKey, len, inclusive⟩ : Bound).fix (stringLayout n).attrs wantGreater =
      some (fixedKey, inclusive || shouldInclusive) := by
  unfold Bound.fix stringLayout
  simp only [if_true, h, Option.bind_eq_bind, Option.bind_some]

/-- The scan starts at the first entry whose string satisfies the comparison with the left bound. -/
theorem leftKey_selects {n : ℕ} (hn : 0 < n) {bound : Bytes} (hbound : Ascii bound) (behind : Bytes) (inclusive : Bool) :
    ∃ leftKey, (⟨bound ++ 0 :: behind, bound.length, inclusive⟩ : Bound).leftKey (stringLayout n) = some leftKey ∧
      ∀ key : Key, key.attrs.length ≤ n → Inner key.rid →
        (0 ≤ keyComparator (stringLayout n).attrs key leftKey ↔
          Satisfies true inclusive (cString key.attrs) (cString bound)) := by
  obtain ⟨fixedKey, shouldInclusive, hfix, hlength, hexact⟩ := fixUserKey_exact hn hbound behind true
  refine ⟨⟨fixedKey, if inclusive || shouldInclusive then RID.min else RID.max⟩, ?_, fun key hkey hrid => ?_⟩
  · rw [Bound.leftKey, fix_string hfix inclusive]
    exact makeKey?_string hlength _
  · rw [← hexact key.attrs inclusive hkey, ← selects_iff hlength hkey, Selects, keyComparator, attrComparator_string]
    have hmin := compare_min_pos hrid
    have hmax := compare_max_neg hrid
    generalize compareAttr ⟨.chars, n⟩ key.attrs fixedKey = result
    cases inclusive || shouldInclusive with
    | true =>
      show 0 ≤ (if result ≠ 0 then result else RID.compare key.rid RID.min) ↔ 0 ≤ result
      split <;> omega
    | false =>
      show 0 ≤ (if result ≠ 0 then result else RID.compare key.rid RID.max) ↔ 0 < result
      split <;> omega

/-- It ends at the last entry whose string satisfies the comparison with the right bound. -/
theorem rightKey_selects {n : ℕ} (hn : 0 < n) {bound : Bytes} (hbound : Ascii bound) (behind : Bytes) (inclusive : Bool) :
    ∃ rightKey, (⟨bound ++ 0 :: behind, bound.length, inclusive⟩ : Bound).rightKey (stringLayout n) = some rightKey ∧
      ∀ key : Key, key.attrs.length ≤ n → Inner key.rid →
        (keyComparator (stringLayout n).attrs key rightKey ≤ 0 ↔
          Satisfies false inclusive (cString key.attrs) (cString bound)) := by
  obtain ⟨fixedKey, shouldInclusive, hfix, hlength, hexact⟩ := fixUserKey_exact hn hbound behind false
  refine ⟨⟨fixedKey, if inclusive || shouldInclusive then RID.max else RID.min⟩, ?_, fun key hkey hrid => ?_⟩
  · rw [Bound.rightKey, fix_string hfix inclusive]
    exact makeKey?_string hlength _
  · rw [← hexact key.attrs inclusive hkey, ← selects_iff hlength hkey, Selects, keyComparator, attrComparator_string]
    have hmin := compare_min_pos hrid
    have hmax := compare_max_neg hrid
    generalize compareAttr ⟨.chars, n⟩ key.attrs fixedKey = result
    cases inclusive || shouldInclusive with
    | true =>
      show (if result ≠ 0 then result else RID.compare key.rid RID.max) ≤ 0 ↔ result ≤ 0
      split <;> omega
    | false =>
      show (if result ≠ 0 then result else RID.compare key.rid RID.min) ≤ 0 ↔ result < 0
      split <;> omega

end Landbase.Sql
