import Landbase.Common.Basic
import Landbase.Common.LowerBound

/-! # Index pages and their handlers

The node pages of `storage/index/bplus_tree.h` and the operations of `IndexNodeHandler`, `LeafIndexNodeHandler` and
`InternalIndexNodeHandler`. The item array of a page is a list, so `key_num` is its length and the `memmove` and
`memcpy` calls are list operations. An operation that asserts an index range returns `none` outside it.

The key type and its comparators are parameters (`KeyOps`): nothing in the tree looks inside a key.
-/

namespace Landbase.Index
open Landbase.Common
set_option autoImplicit false

/-- What the tree uses of its keys: `key_comparator_`, its `attr_comparator()`, and the key of zero bytes that
`create_new_root` puts in the first slot. -/
structure KeyOps (K : Type) where
  keyComparator : K → K → ℤ
  attrComparator : K → K → ℤ
  zero : K

/-- `struct LeafIndexNode`. -/
structure LeafIndexNode (K : Type) where
  parent : Option PageNum
  nextBrother : Option PageNum
  items : List (K × RID)
  deriving DecidableEq

/-- `struct InternalIndexNode`. -/
structure InternalIndexNode (K : Type) where
  parent : Option PageNum
  items : List (K × PageNum)
  deriving DecidableEq

/-- A page of the index file, with `is_leaf` as the tag. -/
inductive IndexNode (K : Type)
  | leaf (node : LeafIndexNode K)
  | internal (node : InternalIndexNode K)
  deriving DecidableEq

variable {K : Type}

/-! ## `IndexNodeHandler` -/

namespace IndexNode

/-- `IndexNodeHandler::size`. -/
def size : IndexNode K → ℕ
  | .leaf node => node.items.length
  | .internal node => node.items.length

/-- `IndexNodeHandler::parent_page_num`. -/
def parentPageNum : IndexNode K → Option PageNum
  | .leaf node => node.parent
  | .internal node => node.parent

/-- `IndexNodeHandler::set_parent_page_num`. -/
def setParentPageNum (pageNum : Option PageNum) : IndexNode K → IndexNode K
  | .leaf node => .leaf { node with parent := pageNum }
  | .internal node => .internal { node with parent := pageNum }

/-- `key_at` of the handler that fits the page. -/
def keyAt (index : ℕ) : IndexNode K → Option K
  | .leaf node => (node.items[index]?).map Prod.fst
  | .internal node => (node.items[index]?).map Prod.fst

end IndexNode

/-! ## `LeafIndexNodeHandler` -/

namespace LeafIndexNode

/-- `LeafIndexNodeHandler::init_empty`. -/
def initEmpty : LeafIndexNode K := ⟨none, none, []⟩

/-- `LeafIndexNodeHandler::lookup`, for either comparator: the position and whether the key is there. -/
def lookup (comparator : K → K → ℤ) (node : LeafIndexNode K) (key : K) : ℕ × Bool :=
  lowerBound (fun item : K × RID => comparator item.1 key) node.items

/-- `LeafIndexNodeHandler::insert`. -/
def insert (node : LeafIndexNode K) (index : ℕ) (key : K) (value : RID) : LeafIndexNode K :=
  { node with items := node.items.take index ++ (key, value) :: node.items.drop index }

/-- `LeafIndexNodeHandler::remove(index)`. -/
def removeAt (node : LeafIndexNode K) (index : ℕ) : LeafIndexNode K :=
  { node with items := node.items.take index ++ node.items.drop (index + 1) }

/-- `LeafIndexNodeHandler::remove(key, comparator)`: the node, and whether an item was removed. -/
def remove (comparator : K → K → ℤ) (node : LeafIndexNode K) (key : K) : LeafIndexNode K × Bool :=
  let (index, found) := node.lookup comparator key
  if found then (node.removeAt index, true) else (node, false)

/-- `LeafIndexNodeHandler::move_half_to`: `(this, other)` afterwards. -/
def moveHalfTo (node other : LeafIndexNode K) : LeafIndexNode K × LeafIndexNode K :=
  let moveIndex := node.items.length / 2
  ({ node with items := node.items.take moveIndex },
    { other with items := node.items.drop moveIndex })

/-- `LeafIndexNodeHandler::move_first_to_end`: `(this, other)` afterwards. -/
def moveFirstToEnd (node other : LeafIndexNode K) : LeafIndexNode K × LeafIndexNode K :=
  ({ node with items := node.items.drop 1 }, { other with items := other.items ++ node.items.take 1 })

/-- `LeafIndexNodeHandler::move_last_to_front`: `(this, other)` afterwards. -/
def moveLastToFront (node other : LeafIndexNode K) : LeafIndexNode K × LeafIndexNode K :=
  ({ node with items := node.items.take (node.items.length - 1) },
    { other with items := node.items.drop (node.items.length - 1) ++ other.items })

/-- `LeafIndexNodeHandler::move_to`: all items go to the end of `other`, which also takes over the next page. -/
def moveTo (node other : LeafIndexNode K) : LeafIndexNode K × LeafIndexNode K :=
  ({ node with items := [] },
    { other with items := other.items ++ node.items, nextBrother := node.nextBrother })

end LeafIndexNode

/-! ## `InternalIndexNodeHandler` -/

namespace InternalIndexNode

/-- `InternalIndexNodeHandler::init_empty`. -/
def initEmpty : InternalIndexNode K := ⟨none, []⟩

/-- `InternalIndexNodeHandler::create_new_root`, on an empty node. -/
def createNewRoot (ops : KeyOps K) (node : InternalIndexNode K) (firstPageNum : PageNum) (key : K)
    (pageNum : PageNum) : InternalIndexNode K :=
  { node with items := [(ops.zero, firstPageNum), (key, pageNum)] }

/-- `InternalIndexNodeHandler::key_at`. -/
def keyAt (node : InternalIndexNode K) (index : ℕ) : Option K := (node.items[index]?).map Prod.fst

/-- `InternalIndexNodeHandler::value_at`. -/
def valueAt (node : InternalIndexNode K) (index : ℕ) : Option PageNum := (node.items[index]?).map Prod.snd

/-- `InternalIndexNodeHandler::lookup`: the index of the child to descend to and the insert position. The first key
is not looked at. -/
def lookup (ops : KeyOps K) (node : InternalIndexNode K) (key : K) : ℕ × ℕ :=
  if node.items.length = 0 then (0, 1)
  else
    let ret := (lowerBound (fun item : K × PageNum => ops.keyComparator item.1 key) (node.items.drop 1)).1 + 1
    match node.items[ret]? with
    | none => (ret - 1, ret)
    | some item => if ops.keyComparator key item.1 < 0 then (ret - 1, ret) else (ret, ret)

/-- `InternalIndexNodeHandler::insert`. -/
def insert (ops : KeyOps K) (node : InternalIndexNode K) (key : K) (pageNum : PageNum) : InternalIndexNode K :=
  let insertPosition := (node.lookup ops key).2
  { node with items := node.items.take insertPosition ++ (key, pageNum) :: node.items.drop insertPosition }

/-- `InternalIndexNodeHandler::remove`. -/
def remove (node : InternalIndexNode K) (index : ℕ) : InternalIndexNode K :=
  { node with items := node.items.take index ++ node.items.drop (index + 1) }

/-- `InternalIndexNodeHandler::set_key_at`. -/
def setKeyAt (node : InternalIndexNode K) (index : ℕ) (key : K) : InternalIndexNode K :=
  { node with items := node.items.modify index fun item => (key, item.2) }

/-- `InternalIndexNodeHandler::value_index`, `none` for the result `-1`. -/
def valueIndex (node : InternalIndexNode K) (pageNum : PageNum) : Option ℕ :=
  node.items.findIdx? fun item => item.2 == pageNum

end InternalIndexNode

/-! ## Size limits -/

/-- `struct IndexFileHeader`; the attribute types, lengths and offsets are part of the key operations. -/
structure IndexFileHeader where
  rootPage : Option PageNum
  internalMaxSize : ℕ
  leafMaxSize : ℕ
  unique : Bool
  deriving DecidableEq

/-- `IndexNodeHandler::max_size`. -/
def IndexFileHeader.maxSize (header : IndexFileHeader) : IndexNode K → ℕ
  | .leaf _ => header.leafMaxSize
  | .internal _ => header.internalMaxSize

/-- `IndexNodeHandler::min_size`. -/
def IndexFileHeader.minSize (header : IndexFileHeader) (node : IndexNode K) : ℕ :=
  let max := header.maxSize node
  max - max / 2

end Landbase.Index
