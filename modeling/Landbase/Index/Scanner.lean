import Landbase.Index.Run

/-! # `BplusTreeScanner`

The scanner of `storage/index/bplus_tree.cpp`. A bound of the range is a buffer that holds a user key; `open` turns it into
a key with the least or the greatest `RID`, goes to the leaf of the left key, and `next_entry` follows the leaf chain up to
the right key.

`none` stands for a read outside a buffer or a node and for an assertion that fails, `fix_user_key` has two of these.
-/

set_option autoImplicit false

namespace Landbase.RID

/-- `RID::min`. -/
def min : RID := ⟨0, 0⟩

/-- `RID::max`. -/
def max : RID := ⟨2 ^ 31 - 1, 2 ^ 31 - 1⟩

end Landbase.RID

namespace Landbase.Index

/-! ## Keys of a range -/

/-- The buffer holds the attributes where `make_key` reads them. -/
def KeyLayout.Inside (layout : KeyLayout) (userKey : Bytes) : Prop :=
  ∀ a ∈ layout.attrs.zip layout.attrOffsets, a.2 + a.1.length ≤ userKey.length

instance (layout : KeyLayout) (userKey : Bytes) : Decidable (layout.Inside userKey) :=
  inferInstanceAs (Decidable (∀ a ∈ layout.attrs.zip layout.attrOffsets, a.2 + a.1.length ≤ userKey.length))

/-- `BplusTreeHandler::make_key` of a buffer. -/
def KeyLayout.makeKey? (layout : KeyLayout) (userKey : Bytes) (rid : RID) : Option Key :=
  if layout.Inside userKey then some (makeKey layout.attrs layout.attrOffsets userKey rid) else none

/-- `BplusTreeScanner::fix_user_key`: the fixed key and `should_inclusive`. Its first assertion takes the `strlen` of the
buffer, which ends at a byte of zero. -/
def fixUserKey (attrLength : ℕ) (userKey : Bytes) (keyLen : ℕ) (wantGreater : Bool) : Option (Bytes × Bool) := do
  let strlen ← userKey.findIdx? (· == 0)
  if strlen < keyLen then none
  else if keyLen ≤ attrLength then some (userKey.take keyLen ++ List.replicate (attrLength - keyLen) 0, false)
  else
    let keyBuf := userKey.take attrLength
    let c ← userKey[attrLength]?
    if c = 0 then some (keyBuf, false)
    else if wantGreater then some (keyBuf.modify (attrLength - 1) (· + 1), true)
    else some (keyBuf, true)

/-- One bound of a range: the user key, its length and whether it belongs to the range. -/
structure Bound where
  userKey : Bytes
  len : ℕ
  inclusive : Bool
  deriving DecidableEq, Repr

/-- The user key and the flag after the fix for strings. -/
def Bound.fix (attrs : List Attr) (bound : Bound) (wantGreater : Bool) : Option (Bytes × Bool) :=
  match attrs with
  | [] => some (bound.userKey, bound.inclusive)
  | a :: _ =>
    if a.type = .chars then do
      let (fixedKey, shouldInclusive) ← fixUserKey a.length bound.userKey bound.len wantGreater
      some (fixedKey, bound.inclusive || shouldInclusive)
    else some (bound.userKey, bound.inclusive)

/-- The key at which a scan starts. -/
def Bound.leftKey (layout : KeyLayout) (bound : Bound) : Option Key := do
  let (fixedKey, inclusive) ← bound.fix layout.attrs true
  layout.makeKey? fixedKey (if inclusive then RID.min else RID.max)

/-- The key behind which a scan ends. -/
def Bound.rightKey (layout : KeyLayout) (bound : Bound) : Option Key := do
  let (fixedKey, inclusive) ← bound.fix layout.attrs false
  layout.makeKey? fixedKey (if inclusive then RID.max else RID.min)

/-! ## The scanner -/

structure BplusTreeScanner (K : Type) where
  currentFrame : Option PageNum
  rightKey : Option K
  iterIndex : ℤ
  firstEmitted : Bool
  deriving DecidableEq

namespace BplusTreeScanner

variable {K : Type}

/-- The item under the cursor. -/
def item (h : BplusTreeHandler K) (s : BplusTreeScanner K) : Option (K × RID) := do
  let node ← h.pool.getLeaf (← s.currentFrame)
  if s.iterIndex < 0 then none else node.items[s.iterIndex.toNat]?

/-- `BplusTreeScanner::touch_end`. -/
def touchEnd (ops : KeyOps K) (h : BplusTreeHandler K) (s : BplusTreeScanner K) : Option Bool :=
  match s.rightKey with
  | none => some false
  | some rightKey => do
    let item ← s.item h
    some (decide (0 < ops.keyComparator item.1 rightKey))

/-- `BplusTreeScanner::next_entry`; without its second argument it is called with `true`. -/
def nextEntry (ops : KeyOps K) (h : BplusTreeHandler K) : ℕ → BplusTreeScanner K → Bool →
    Option (RC × Option RID × BplusTreeScanner K)
  | 0, _, _ => none
  | fuel + 1, s, idxNeedIncrease =>
    match s.currentFrame with
    | none => some (.recordEof, none, s)
    | some page =>
      if s.firstEmitted = false then do
        let item ← s.item h
        some (.success, some item.2, { s with firstEmitted := true })
      else do
        let s := if idxNeedIncrease then { s with iterIndex := s.iterIndex + 1 } else s
        let node ← h.pool.getLeaf page
        if s.iterIndex < node.items.length then
          if ← s.touchEnd ops h then some (.recordEof, none, s)
          else
            let item ← s.item h
            some (.success, some item.2, s)
        else
          match node.nextBrother with
          | none => some (.recordEof, none, s)
          | some nextPage => nextEntry ops h fuel { s with currentFrame := some nextPage, iterIndex := -1 } true

/-- The end of `BplusTreeScanner::open`, with the cursor at its place. -/
def atPlace (ops : KeyOps K) (h : BplusTreeHandler K) (page : PageNum) (index : ℕ) (rightKey : Option K) :
    Option (RC × BplusTreeScanner K) := do
  let s : BplusTreeScanner K := ⟨some page, rightKey, index, false⟩
  if ← s.touchEnd ops h then some (.success, { s with currentFrame := none }) else some (.success, s)

/-- A scanner that has nothing to return. -/
def nothing : BplusTreeScanner K := ⟨none, none, -1, false⟩

/-- The check of the range in `BplusTreeScanner::open`, for two bounds. Both buffers are read as if they held the attributes
one after the other. -/
def acceptsRange (layout : KeyLayout) : Option Bound → Option Bound → Option Bool
  | some left, some right =>
    if attrLength layout.attrs ≤ left.userKey.length ∧ attrLength layout.attrs ≤ right.userKey.length then
      let result := attrComparator layout.attrs left.userKey right.userKey
      some (!(decide (result > 0) || (decide (result = 0) && (!left.inclusive || !right.inclusive))))
    else none
  | _, _ => some true

/-- The key of the right bound, if there is one. -/
def rightKeyOf (layout : KeyLayout) : Option Bound → Option (Option Key)
  | none => some none
  | some right => (right.rightKey layout).map some

/-- `BplusTreeScanner::open`. -/
def openScan (layout : KeyLayout) (h : BplusTreeHandler Key) (left right : Option Bound) :
    Option (RC × BplusTreeScanner Key) := do
  if !(← acceptsRange layout left right) then some (.invalidArgument, nothing)
  else
    match left with
    | none =>
      match h.header.rootPage with
      | none => some (.empty, nothing)
      | some rootPage => do
        let page ← h.leftMostPage rootPage
        atPlace (keyOps layout.attrs) h page 0 (← rightKeyOf layout right)
    | some left => do
      let leftKey ← left.leftKey layout
      match h.header.rootPage with
      | none => some (.success, nothing)
      | some rootPage => do
        let page ← h.findLeaf (keyOps layout.attrs) rootPage leftKey
        let node ← h.pool.getLeaf page
        let (index, _) := node.lookup (keyOps layout.attrs).keyComparator leftKey
        if node.items.length ≤ index then
          match node.nextBrother with
          | none => some (.success, nothing)
          | some nextPage => atPlace (keyOps layout.attrs) h nextPage 0 (← rightKeyOf layout right)
        else atPlace (keyOps layout.attrs) h page index (← rightKeyOf layout right)

/-- Calls of `next_entry` until the scan ends, with the record identifiers they return. -/
def collect (ops : KeyOps K) (h : BplusTreeHandler K) : ℕ → BplusTreeScanner K → Option (List RID)
  | 0, _ => none
  | fuel + 1, s => do
    let (rc, rid, s) ← s.nextEntry ops h (h.pool.pageCount + 1) true
    match rid with
    | none => if rc = .recordEof then some [] else none
    | some rid => return rid :: (← collect ops h fuel s)

end BplusTreeScanner

end Landbase.Index
