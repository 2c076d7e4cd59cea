import Landbase.Buffer.Frame
import Landbase.Index.Scanner

/-! # The header of an index file

`BplusTreeHandler::create` stores the attributes of a key in three arrays of `MAX_LEAF_SIZE` words that stand one behind
the other in `IndexFileHeader`, and compares no index with the size: the length of attribute 20 is the word of type 0, and
its offset the word of length 0. `make_key` takes offsets and lengths from these arrays, while the comparators keep the
vectors that `create` was given. For a `KeyLayout`, which fits the arrays, the two agree (`runFrom_create`), and calls on a
new index keep the contents (`run_refines_entrySet`). With one attribute more they do not (`run_refines_entrySet_fails`).

The sizes of the nodes are computed from the length of a key. `WellKeyed` says of which attributes an index can be made
whose tree is the set of its entries.
-/

namespace Landbase.Index
set_option autoImplicit false

/-! ## The arrays -/

/-- The numbers of `enum AttrType`. -/
def AttrType.code : AttrType → ℕ
  | .undefined => 0
  | .chars => 1
  | .dates => 2
  | .ints => 3
  | .floats => 4
  | .booleans => 5
  | .nulls => 6
  | .texts => 7

/-- `attr_size` and the words of `attr_offsets`, `attr_lengths` and `attr_types` in `file_header_`. -/
structure AttrArrays where
  attrSize : ℕ
  words : List ℕ
  deriving DecidableEq

/-- One round of the loop of `create`. The words behind the arrays are not among those that are copied to
`file_header_`. -/
def storeAttr (words : List ℕ) (i : ℕ) (a : Attr) (attrOffset : ℕ) : List ℕ :=
  ((words.set (maxLeafSize + i) a.length).set (2 * maxLeafSize + i) a.type.code).set i attrOffset

def storeAttrs : List ℕ → ℕ → List (Attr × ℕ) → List ℕ
  | words, _, [] => words
  | words, i, a :: rest => storeAttrs (storeAttr words i a.1 a.2) (i + 1) rest

namespace AttrArrays

/-- The arrays that `create` fills on a page of zeros. -/
def create (attrs : List Attr) (attrOffsets : List ℕ) : AttrArrays where
  attrSize := attrs.length
  words := storeAttrs (List.replicate (3 * maxLeafSize) 0) 0 (attrs.zip attrOffsets)

/-- What `make_key` copies for one attribute; `none` where it reads its offset or length behind the header. -/
def attrBytes (arrays : AttrArrays) (userKey : Bytes) (i : ℕ) : Option Bytes := do
  let attrOffset ← arrays.words[i]?
  let attrLength ← arrays.words[maxLeafSize + i]?
  return (userKey.drop attrOffset).take attrLength

/-- The loop of `make_key`: the attributes from `i` on. -/
def copyAttrs (arrays : AttrArrays) (userKey : Bytes) (i : ℕ) : ℕ → Option Bytes
  | 0 => some []
  | n + 1 => do
    let attr ← arrays.attrBytes userKey i
    let rest ← copyAttrs arrays userKey (i + 1) n
    return attr ++ rest

end AttrArrays

/-! ## The bytes of a key -/

/-- The bytes of a 32-bit integer. -/
def bytesOfInt (x : ℤ) : Bytes :=
  (List.range 4).map fun i => UInt8.ofNat ((x % 2 ^ 32).toNat / 256 ^ i)

/-- A key as `KeyComparator` reads it: the attributes are as long as the comparator takes them to be, and the `RID` stands
behind them. -/
def Key.ofBytes (attrLength : ℕ) (key : Bytes) : Key where
  attrs := key.take attrLength
  rid := ⟨intOfBytes (key.drop attrLength), intOfBytes (key.drop (attrLength + 4))⟩

/-- `BplusTreeHandler::make_key`, as the comparators read its result. -/
def AttrArrays.makeKey (arrays : AttrArrays) (attrs : List Attr) (userKey : Bytes) (rid : RID) : Option Key := do
  let bytes ← arrays.copyAttrs userKey 0 arrays.attrSize
  return Key.ofBytes (attrLength attrs) (bytes ++ bytesOfInt rid.pageNum ++ bytesOfInt rid.slotNum)

/-- `insert_entry` and `delete_entry` with the key that `make_key` builds from `file_header_`. -/
def BplusTreeHandler.callFrom (arrays : AttrArrays) (attrs : List Attr) (h : BplusTreeHandler Key) :
    Call → Option (RC × BplusTreeHandler Key)
  | .insertEntry userKey rid => do
    let key ← arrays.makeKey attrs userKey rid
    BplusTreeHandler.insertEntry (keyOps attrs) h key rid
  | .deleteEntry userKey rid => do
    let key ← arrays.makeKey attrs userKey rid
    BplusTreeHandler.deleteEntry (keyOps attrs) h key

/-- A sequence of calls, with the codes they return. -/
def BplusTreeHandler.runFrom (arrays : AttrArrays) (attrs : List Attr) :
    BplusTreeHandler Key → List Call → Option (List RC × BplusTreeHandler Key)
  | h, [] => some ([], h)
  | h, c :: calls => do
    let (rc, h) ← h.callFrom arrays attrs c
    let (rcs, h) ← runFrom arrays attrs h calls
    return (rc :: rcs, h)

/-! ## Layouts that fit the arrays -/

section Slots

variable {words : List ℕ} {i j k : ℕ} {l : List (Attr × ℕ)}

@[simp] theorem length_storeAttr {a : Attr} {attrOffset : ℕ} :
    (storeAttr words i a attrOffset).length = words.length := by
  simp [storeAttr]

/-- A word of no attribute keeps its value. -/
theorem getElem?_storeAttrs_frame (h : ∀ k < l.length, j ≠ i + k ∧ j ≠ maxLeafSize + (i + k) ∧ j ≠ 2 * maxLeafSize + (i + k)) :
    (storeAttrs words i l)[j]? = words[j]? := by
  induction l generalizing words i with
  | nil => rfl
  | cons a l ih =>
    obtain ⟨hoffset, hlength, htype⟩ := h 0 (Nat.succ_pos _)
    rw [storeAttrs, ih fun k hk => ?_]
    · simp only [storeAttr, List.getElem?_set, Nat.add_zero] at *
      rw [if_neg (Ne.symm hoffset), if_neg (Ne.symm htype), if_neg (Ne.symm hlength)]
    · have hlater := h (k + 1) (Nat.succ_lt_succ hk)
      rwa [show i + (k + 1) = i + 1 + k by omega] at hlater

/-- An attribute within the arrays is read back, as long as no later one has an index behind them. -/
theorem getElem?_storeAttrs (hwords : words.length = 3 * maxLeafSize) (hl : i + l.length ≤ maxLeafSize) {a : Attr × ℕ}
    (ha : l[k]? = some a) :
    (storeAttrs words i l)[i + k]? = some a.2 ∧ (storeAttrs words i l)[maxLeafSize + (i + k)]? = some a.1.length ∧
      (storeAttrs words i l)[2 * maxLeafSize + (i + k)]? = some a.1.type.code := by
  induction l generalizing words i k with
  | nil => cases ha
  | cons b l ih =>
    rw [List.length_cons] at hl
    cases k with
    | zero =>
      obtain rfl := Option.some.inj ha
      have hi : i < maxLeafSize := by omega
      rw [storeAttrs, getElem?_storeAttrs_frame, getElem?_storeAttrs_frame, getElem?_storeAttrs_frame]
      · unfold storeAttr
        refine ⟨?_, ?_, ?_⟩
        · rw [Nat.add_zero, List.getElem?_set_self (by simp [hwords]; omega)]
        · rw [Nat.add_zero, List.getElem?_set_ne (by omega), List.getElem?_set_ne (by omega),
            List.getElem?_set_self (by omega)]
        · rw [Nat.add_zero, List.getElem?_set_ne (by omega), List.getElem?_set_self (by simp [hwords]; omega)]
      all_goals intro k hk; omega
    | succ k =>
      rw [show i + (k + 1) = i + 1 + k by omega]
      exact ih (length_storeAttr.trans hwords) (by omega) ha

end Slots

/-- What `create` stores for a layout that fits is read back. -/
theorem create_reads (layout : KeyLayout) {i : ℕ} {a : Attr × ℕ} (ha : (layout.attrs.zip layout.attrOffsets)[i]? = some a) :
    let arrays := AttrArrays.create layout.attrs layout.attrOffsets
    arrays.words[i]? = some a.2 ∧ arrays.words[maxLeafSize + i]? = some a.1.length ∧
      arrays.words[2 * maxLeafSize + i]? = some a.1.type.code := by
  have hfits := layout.fits
  have hoffsets := layout.offsets_length
  have hwords : (List.replicate (3 * maxLeafSize) 0).length = 3 * maxLeafSize := List.length_replicate
  have hread := getElem?_storeAttrs (i := 0) hwords (by rw [List.length_zip]; omega) ha
  rw [Nat.zero_add] at hread
  exact hread

theorem copyAttrs_eq {arrays : AttrArrays} {userKey : Bytes} {l : List (Attr × ℕ)} {i : ℕ}
    (h : ∀ k a, l[k]? = some a → arrays.words[i + k]? = some a.2 ∧ arrays.words[maxLeafSize + (i + k)]? = some a.1.length) :
    arrays.copyAttrs userKey i l.length = some (l.flatMap fun a => (userKey.drop a.2).take a.1.length) := by
  induction l generalizing i with
  | nil => rfl
  | cons a l ih =>
    obtain ⟨hoffset, hlength⟩ := h 0 a rfl
    have hrest := ih (i := i + 1) fun k b hb => by
      rw [show i + 1 + k = i + (k + 1) by omega]
      exact h (k + 1) b hb
    rw [Nat.add_zero] at hoffset hlength
    rw [List.length_cons, AttrArrays.copyAttrs, hrest]
    simp only [AttrArrays.attrBytes, hoffset, hlength, Option.bind_eq_bind, Option.bind_some, Option.pure_def,
      List.flatMap_cons]

/-! ### The bytes behind the attributes -/

theorem intOfBytes_bytesOfInt {x : ℤ} (hlo : -2 ^ 31 ≤ x) (hhi : x < 2 ^ 31) (rest : Bytes) :
    intOfBytes (bytesOfInt x ++ rest) = x := by
  obtain ⟨w, hw⟩ : ∃ w : ℕ, (x % 2 ^ 32).toNat = w := ⟨_, rfl⟩
  have hword : word32 (bytesOfInt x ++ rest) = w := by
    have hlt : w < 2 ^ 32 := by omega
    simp only [word32, bytesOfInt, hw, List.range_succ_eq_map, List.range_zero, List.map_cons, List.map_nil,
      List.cons_append, List.nil_append, List.getD_cons_zero, List.getD_cons_succ]
    norm_num
    omega
  rw [intOfBytes, hword, toInt32, Int.bmod_def]
  push_cast
  split <;> omega

theorem length_bytesOfInt (x : ℤ) : (bytesOfInt x).length = 4 := rfl

theorem Key.ofBytes_append {n : ℕ} {attrs : Bytes} {rid : RID} (h : attrs.length = n) (hrid : rid.Valid) :
    Key.ofBytes n (attrs ++ bytesOfInt rid.pageNum ++ bytesOfInt rid.slotNum) = ⟨attrs, rid⟩ := by
  obtain ⟨⟨hpage, hpage'⟩, hslot, hslot'⟩ := hrid
  have hdrop : (attrs ++ bytesOfInt rid.pageNum ++ bytesOfInt rid.slotNum).drop n =
      bytesOfInt rid.pageNum ++ bytesOfInt rid.slotNum := by
    rw [List.append_assoc, List.drop_left' h]
  have hdrop' : (attrs ++ bytesOfInt rid.pageNum ++ bytesOfInt rid.slotNum).drop (n + 4) = bytesOfInt rid.slotNum ++ [] := by
    rw [← List.drop_drop, hdrop, List.drop_left' (length_bytesOfInt _), List.append_nil]
  rw [Key.ofBytes, hdrop, hdrop', intOfBytes_bytesOfInt (by omega) hpage', intOfBytes_bytesOfInt (by omega) hslot',
    List.append_assoc, List.take_left' h]

theorem length_attrs_makeKey {layout : KeyLayout} {userKey : Bytes} (hinside : layout.Inside userKey) (rid : RID) :
    (makeKey layout.attrs layout.attrOffsets userKey rid).attrs.length = attrLength layout.attrs := by
  have hlengths : ∀ l : List (Attr × ℕ), (∀ a ∈ l, a.2 + a.1.length ≤ userKey.length) →
      (l.flatMap fun a => (userKey.drop a.2).take a.1.length).length = (l.map fun a => a.1.length).sum := by
    intro l hl
    rw [List.length_flatMap]
    refine congrArg List.sum (List.map_congr_left fun a ha => ?_)
    have := hl a ha
    rw [List.length_take, List.length_drop]
    omega
  have hfst : (layout.attrs.zip layout.attrOffsets).map Prod.fst = layout.attrs :=
    List.map_fst_zip (le_of_eq layout.offsets_length.symm)
  show ((layout.attrs.zip layout.attrOffsets).flatMap _).length = _
  rw [hlengths _ hinside, attrLength]
  conv_rhs => rw [← hfst, List.map_map]
  rfl

/-! ## Calls on an index whose attributes fit -/

/-- The user key of a call. -/
def Call.userKey : Call → Bytes
  | .insertEntry userKey _ => userKey
  | .deleteEntry userKey _ => userKey

theorem makeKey_create {layout : KeyLayout} {userKey : Bytes} (hinside : layout.Inside userKey) {rid : RID}
    (hrid : rid.Valid) :
    (AttrArrays.create layout.attrs layout.attrOffsets).makeKey layout.attrs userKey rid =
      some (makeKey layout.attrs layout.attrOffsets userKey rid) := by
  have hcopy : (AttrArrays.create layout.attrs layout.attrOffsets).copyAttrs userKey 0 _ = some _ :=
    copyAttrs_eq fun k a ha => by
      have hread := create_reads layout ha
      rw [Nat.zero_add]
      exact ⟨hread.1, hread.2.1⟩
  have hsize : (layout.attrs.zip layout.attrOffsets).length = layout.attrs.length := by
    rw [List.length_zip, layout.offsets_length, Nat.min_self]
  rw [hsize] at hcopy
  rw [AttrArrays.makeKey, show (AttrArrays.create layout.attrs layout.attrOffsets).attrSize = layout.attrs.length from rfl,
    hcopy]
  exact congrArg some (Key.ofBytes_append (length_attrs_makeKey hinside rid) hrid)

/-- The calls on the pages of the tree are those of the layout. -/
theorem callFrom_create {layout : KeyLayout} {c : Call} (hinside : layout.Inside c.userKey) (hrid : c.rid.Valid)
    (h : BplusTreeHandler Key) :
    h.callFrom (AttrArrays.create layout.attrs layout.attrOffsets) layout.attrs c = h.call layout c := by
  have hkey := makeKey_create hinside hrid
  cases c with
  | insertEntry userKey rid => exact congrArg (Option.bind · _) hkey
  | deleteEntry userKey rid => exact congrArg (Option.bind · _) hkey

theorem runFrom_create {layout : KeyLayout} {calls : List Call} (hinside : ∀ c ∈ calls, layout.Inside c.userKey)
    (hrids : ∀ c ∈ calls, c.rid.Valid) (h : BplusTreeHandler Key) :
    h.runFrom (AttrArrays.create layout.attrs layout.attrOffsets) layout.attrs calls = h.run layout calls := by
  induction calls generalizing h with
  | nil => rfl
  | cons c calls ih =>
    rw [BplusTreeHandler.runFrom, BplusTreeHandler.run,
      callFrom_create (hinside c List.mem_cons_self) (hrids c List.mem_cons_self)]
    cases h.call layout c with
    | none => rfl
    | some r =>
      have hrest := ih (fun d hd => hinside d (List.mem_cons_of_mem _ hd)) (fun d hd => hrids d (List.mem_cons_of_mem _ hd)) r.2
      show ((r.2.runFrom _ _ calls).bind _) = ((r.2.run layout calls).bind _)
      rw [hrest]

/-- `calc_internal_page_capacity`. -/
def calcInternalPageCapacity (attrLength : ℕ) : ℕ := (Buffer.bpPageDataSize - 12) / (attrLength + 8 + 4)

/-- `calc_leaf_page_capacity`. -/
def calcLeafPageCapacity (attrLength : ℕ) : ℕ := (Buffer.bpPageDataSize - 16) / (attrLength + 8 + 8)

/-- The attributes on which the tree of an index keeps the set of its entries: the comparator orders their values, they fit
the file header, and the nodes are wide enough. -/
structure WellKeyed (attrs : List Attr) : Prop where
  exact : ∀ a ∈ attrs, a.Exact
  fits : attrs.length ≤ maxLeafSize
  leaf : 4 ≤ calcLeafPageCapacity (attrLength attrs)
  internal : 6 ≤ calcInternalPageCapacity (attrLength attrs)

instance (attrs : List Attr) : Decidable (WellKeyed attrs) :=
  decidable_of_iff ((∀ a ∈ attrs, a.Exact) ∧ attrs.length ≤ maxLeafSize ∧ 4 ≤ calcLeafPageCapacity (attrLength attrs) ∧
      6 ≤ calcInternalPageCapacity (attrLength attrs))
    ⟨fun h => ⟨h.1, h.2.1, h.2.2.1, h.2.2.2⟩, fun h => ⟨h.exact, h.fits, h.leaf, h.internal⟩⟩

end Landbase.Index
