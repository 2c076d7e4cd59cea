import Landbase.Index.Scan
import Landbase.Index.Safety

/-! # Scans for one key in record layout

`PhysicalPlanGenerator` turns equality predicates on the fields of an index into a scan from a key to the same key. The key
is a buffer in the layout of a record, as long as the last indexed field needs it. Three readers take it apart: the check
of the range reads the attributes one after the other from its start, `fix_user_key` reads a string from its start, and
`make_key` reads each field at its offset in the record.
-/

namespace Landbase.Index
open Landbase.Lib Landbase.Common
set_option autoImplicit false

/-- The bound that the plan generator passes on both sides. -/
def recordBound (ukey : Bytes) : Bound := ⟨ukey, ukey.length, true⟩

/-- The length of the buffer: up to the end of the last indexed field. -/
def KeyLayout.ukeyLen (layout : KeyLayout) : ℕ :=
  (layout.attrs.zip layout.attrOffsets).foldl (fun len a => max len (a.2 + a.1.length)) 0

/-- The scan stays inside the buffer and returns the entries whose attributes equal the fields of the buffer. -/
def ScansEqual (layout : KeyLayout) (h : BplusTreeHandler Key) (entries : List (Key × RID)) (ukey : Bytes) : Prop :=
  ∃ rc s, BplusTreeScanner.openScan layout h (some (recordBound ukey)) (some (recordBound ukey)) = some (rc, s) ∧
    ∀ fuel, entries.length < fuel → s.collect (keyOps layout.attrs) h fuel =
      some ((entries.filter fun x =>
        attrComparator layout.attrs x.1.attrs ((recordBound ukey).attrs layout) = 0).map Prod.snd)

/-! ## The readers -/

theorem inside_of_ukeyLen {layout : KeyLayout} {ukey : Bytes} (hlen : ukey.length = layout.ukeyLen) :
    layout.Inside ukey := by
  have hle : ∀ (l : List (Attr × ℕ)) (len : ℕ), len ≤ l.foldl (fun len a => max len (a.2 + a.1.length)) len ∧
      ∀ a ∈ l, a.2 + a.1.length ≤ l.foldl (fun len a => max len (a.2 + a.1.length)) len := by
    intro l
    induction l with
    | nil => exact fun len => ⟨le_refl _, fun a ha => absurd ha List.not_mem_nil⟩
    | cons b l ih =>
      intro len
      obtain ⟨hfirst, hrest⟩ := ih (max len (b.2 + b.1.length))
      rw [List.foldl_cons]
      refine ⟨le_trans (le_max_left _ _) hfirst, fun a ha => ?_⟩
      rcases List.mem_cons.mp ha with rfl | ha
      · exact le_trans (le_max_right _ _) hfirst
      · exact hrest a ha
  intro a ha
  rw [hlen]
  exact (hle _ 0).2 a ha

/-- `fix_user_key` never gets past its assertion with a buffer that is as long as the key: `strlen` ends inside of it, or
does not end there at all. -/
theorem fixUserKey_whole (attrLength : ℕ) (ukey : Bytes) (wantGreater : Bool) :
    fixUserKey attrLength ukey ukey.length wantGreater = none := by
  unfold fixUserKey
  cases hstrlen : ukey.findIdx? (· == 0) with
  | none => rfl
  | some strlen =>
    have hlt : strlen < ukey.length := (List.findIdx?_eq_some_iff_findIdx_eq.mp hstrlen).1
    simp only [Option.bind_eq_bind, Option.bind_some, if_pos hlt]

theorem acceptsRange_recordBound (layout : KeyLayout) (ukey : Bytes) :
    BplusTreeScanner.acceptsRange layout (some (recordBound ukey)) (some (recordBound ukey)) =
      if attrLength layout.attrs ≤ ukey.length then some true else none := by
  simp [BplusTreeScanner.acceptsRange, recordBound, attrComparator_self]

theorem openScan_outside {layout : KeyLayout} (h : BplusTreeHandler Key) {ukey : Bytes}
    (hlong : ukey.length < attrLength layout.attrs) :
    BplusTreeScanner.openScan layout h (some (recordBound ukey)) (some (recordBound ukey)) = none := by
  rw [BplusTreeScanner.openScan, acceptsRange_recordBound, if_neg (by omega)]
  rfl

theorem openScan_chars {layout : KeyLayout} (h : BplusTreeHandler Key) {a : Attr} (ha : layout.attrs.head? = some a)
    (hchars : a.type = .chars) (ukey : Bytes) :
    BplusTreeScanner.openScan layout h (some (recordBound ukey)) (some (recordBound ukey)) = none := by
  have hkey : (recordBound ukey).leftKey layout = none := by
    obtain ⟨attrs, hattrs⟩ : ∃ attrs, layout.attrs = a :: attrs := by
      cases hattrs : layout.attrs with
      | nil =>
        rw [hattrs] at ha
        cases ha
      | cons b attrs =>
        rw [hattrs] at ha
        exact ⟨attrs, by rw [Option.some.inj ha]⟩
    have hfix : (recordBound ukey).fix layout.attrs true = none := by
      rw [hattrs, Bound.fix, if_pos hchars]
      rw [show (recordBound ukey).len = (recordBound ukey).userKey.length from rfl, fixUserKey_whole]
      rfl
    rw [Bound.leftKey, hfix]
    rfl
  rw [BplusTreeScanner.openScan, acceptsRange_recordBound]
  split
  · simp only [Option.bind_eq_bind, Option.bind_some, Bool.not_true, Bool.false_eq_true, if_false, hkey, Option.bind_none]
  · rfl

/-! ## Scans -/

theorem inRange_recordBound (layout : KeyLayout) (ukey : Bytes) (key : Key) :
    inRange layout (some (recordBound ukey)) (some (recordBound ukey)) key =
      decide (attrComparator layout.attrs key.attrs ((recordBound ukey).attrs layout) = 0) := by
  show (decide (0 ≤ attrComparator layout.attrs key.attrs ((recordBound ukey).attrs layout)) &&
    decide (attrComparator layout.attrs key.attrs ((recordBound ukey).attrs layout) ≤ 0)) = _
  rw [Bool.eq_iff_iff, Bool.and_eq_true, decide_eq_true_iff, decide_eq_true_iff, decide_eq_true_iff]
  omega

theorem atPlace_rc {K : Type} {ops : KeyOps K} {h : BplusTreeHandler K} {page : PageNum} {index : ℕ} {rightKey : Option K}
    {rc : RC} {s : BplusTreeScanner K} (hat : BplusTreeScanner.atPlace ops h page index rightKey = some (rc, s)) :
    rc = .success := by
  simp only [BplusTreeScanner.atPlace, Option.bind_eq_bind] at hat
  obtain ⟨atEnd, -, hat⟩ := Option.bind_eq_some_iff.mp hat
  split at hat
  · exact (congrArg Prod.fst (Option.some.inj hat)).symm
  · exact (congrArg Prod.fst (Option.some.inj hat)).symm

theorem openScan_ne_empty {layout : KeyLayout} {h : BplusTreeHandler Key} {left : Bound} {right : Option Bound} {rc : RC}
    {s : BplusTreeScanner Key} (hopen : BplusTreeScanner.openScan layout h (some left) right = some (rc, s)) :
    rc ≠ .empty := by
  simp only [BplusTreeScanner.openScan, Option.bind_eq_bind] at hopen
  obtain ⟨accepted, -, hopen⟩ := Option.bind_eq_some_iff.mp hopen
  split at hopen
  · obtain rfl := congrArg Prod.fst (Option.some.inj hopen)
    decide
  · obtain ⟨leftKey, -, hopen⟩ := Option.bind_eq_some_iff.mp hopen
    split at hopen
    · obtain rfl := congrArg Prod.fst (Option.some.inj hopen)
      decide
    · obtain ⟨page, -, hopen⟩ := Option.bind_eq_some_iff.mp hopen
      obtain ⟨node, -, hopen⟩ := Option.bind_eq_some_iff.mp hopen
      split at hopen
      · split at hopen
        · obtain rfl := congrArg Prod.fst (Option.some.inj hopen)
          decide
        · obtain ⟨rightKey, -, hat⟩ := Option.bind_eq_some_iff.mp hopen
          rw [atPlace_rc hat]
          decide
      · obtain ⟨rightKey, -, hat⟩ := Option.bind_eq_some_iff.mp hopen
        rw [atPlace_rc hat]
        decide

theorem openScan_recordBound {B : Type} [Preorder B] [BoundedOrder B] {layout : KeyLayout}
    {ord : KeyOrder (keyOps layout.attrs) B} {h : BplusTreeHandler Key} {entries : List (Key × RID)}
    (hr : Represents ord h entries) (hinner : ∀ x ∈ entries, Inner x.1.rid) {ukey : Bytes}
    (hlen : ukey.length = layout.ukeyLen) (hleft : ord.Known ((recordBound ukey).scanLeft layout))
    (hright : ord.Known ((recordBound ukey).scanRight layout))
    (hplain : ∀ a, layout.attrs.head? = some a → a.type ≠ .chars) (hshort : attrLength layout.attrs ≤ ukey.length) :
    ∃ s, BplusTreeScanner.openScan layout h (some (recordBound ukey)) (some (recordBound ukey)) = some (.success, s) ∧
      ∀ fuel, entries.length < fuel → s.collect (keyOps layout.attrs) h fuel =
        some ((entries.filter fun x =>
          attrComparator layout.attrs x.1.attrs ((recordBound ukey).attrs layout) = 0).map Prod.snd) := by
  have hinside := inside_of_ukeyLen hlen
  have haccepted := acceptsRange_recordBound layout ukey
  rw [if_pos hshort] at haccepted
  obtain ⟨rc, s, hopen, hrc, hcollect⟩ := openScan_exact hr hinner hplain
    (fun bound hbound => by
      rw [← Option.some.inj hbound]
      exact ⟨hinside, hleft⟩)
    (fun bound hbound => by
      rw [← Option.some.inj hbound]
      exact ⟨hinside, hright⟩) haccepted
  rcases hrc with rfl | ⟨rfl, -⟩
  · refine ⟨s, hopen, fun fuel hfuel => ?_⟩
    rw [hcollect fuel hfuel]
    congr 2
    apply List.filter_congr
    intro x hx
    exact inRange_recordBound layout ukey x.1
  · exact absurd rfl (openScan_ne_empty hopen)

end Landbase.Index
