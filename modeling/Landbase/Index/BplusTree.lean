import Landbase.Index.BufferPool

/-! # `BplusTreeHandler`

The operations of `storage/index/bplus_tree.cpp` on a tree of pages: the descent to a leaf, `insert_entry` with
`split` and the propagation to the parents, `delete_entry` with `coalesce`, `redistribute` and `adjust_root`, and the
validator.

A call ends in a return code and a new handler, or in `none` where the source reads outside a node or fails an
assertion. The loops of the source follow page links, so they are given `page_count` rounds: the pages on a path from
the root to a leaf, and the leaves of a chain, are different pages of the file. `none` is also the result when the
rounds run out; the correctness theorems show that neither happens.

`LatchMemo` delays `dispose_page` until the operation ends, so disposed pages are collected first and freed by
`release`.
-/

namespace Landbase.Index
open Landbase.Common
set_option autoImplicit false

/-- `BplusTreeHandler` with the `disposed_pages_` of the running operation's `LatchMemo`. -/
structure BplusTreeHandler (K : Type) where
  header : IndexFileHeader
  pool : DiskBufferPool K
  disposedPages : List PageNum

variable {K : Type}

namespace BplusTreeHandler

/-- `BplusTreeHandler::create`: an index file without a root. -/
def create (unique : Bool) (internalMaxSize leafMaxSize : ℕ) : BplusTreeHandler K :=
  ⟨⟨none, internalMaxSize, leafMaxSize, unique⟩, DiskBufferPool.create, []⟩

/-- `BplusTreeHandler::update_root_page_num_locked`. -/
def updateRootPageNum (h : BplusTreeHandler K) (rootPageNum : Option PageNum) : BplusTreeHandler K :=
  { h with header := { h.header with rootPage := rootPageNum } }

/-- `LatchMemo::release`: the disposed pages go back to the file. -/
def release (h : BplusTreeHandler K) : BplusTreeHandler K :=
  { h with pool := h.disposedPages.foldl DiskBufferPool.disposePage h.pool, disposedPages := [] }

/-! ## Descending to a leaf -/

/-- The loop of `BplusTreeHandler::find_leaf_internal`. -/
def findLeafInternal (childPageGetter : InternalIndexNode K → Option PageNum) (pool : DiskBufferPool K) :
    ℕ → PageNum → Option PageNum
  | 0, _ => none
  | fuel + 1, pageNum => do
    match ← pool.getThisPage pageNum with
    | .leaf _ => some pageNum
    | .internal node => findLeafInternal childPageGetter pool fuel (← childPageGetter node)

/-- `BplusTreeHandler::find_leaf` from the root page. -/
def findLeaf (ops : KeyOps K) (h : BplusTreeHandler K) (rootPage : PageNum) (key : K) : Option PageNum :=
  findLeafInternal (fun node => node.valueAt (node.lookup ops key).1) h.pool h.pool.pageCount rootPage

/-- `BplusTreeHandler::left_most_page` from the root page. -/
def leftMostPage (h : BplusTreeHandler K) (rootPage : PageNum) : Option PageNum :=
  findLeafInternal (fun node => node.valueAt 0) h.pool h.pool.pageCount rootPage

/-- The walk through `next_page` that `print_leafs` makes, with the items of every leaf it passes. -/
def leafLinkItems (pool : DiskBufferPool K) : ℕ → PageNum → Option (List (K × RID))
  | 0, _ => none
  | fuel + 1, pageNum => do
    let leaf ← pool.getLeaf pageNum
    match leaf.nextBrother with
    | none => some leaf.items
    | some nextPage => return leaf.items ++ (← leafLinkItems pool fuel nextPage)

/-- The entries of the tree as read along the leaf chain from `left_most_page`. -/
def leafChain (h : BplusTreeHandler K) : Option (List (K × RID)) :=
  match h.header.rootPage with
  | none => some []
  | some rootPage => do leafLinkItems h.pool h.pool.pageCount (← h.leftMostPage rootPage)

/-! ## Inserting -/

/-- `split<InternalIndexNodeHandler>`: half of the items go to a new page, whose number is returned. -/
def splitInternal (pool : DiskBufferPool K) (frame : PageNum) (node : InternalIndexNode K) :
    PageNum × DiskBufferPool K :=
  let (newFrame, pool) := pool.allocatePage
  let moveIndex := node.items.length / 2
  let moved := node.items.drop moveIndex
  -- `copy_from` sets the parent of the moved children before the sizes are adjusted
  let pool := pool.setParents (moved.map Prod.snd) newFrame
  let newNode := { (InternalIndexNode.initEmpty : InternalIndexNode K) with parent := node.parent, items := moved }
  (newFrame, (pool.setPage frame (.internal { node with items := node.items.take moveIndex })).setPage newFrame
    (.internal newNode))

/-- `BplusTreeHandler::insert_entry_into_parent`. -/
def insertEntryIntoParent (ops : KeyOps K) : ℕ → BplusTreeHandler K → PageNum → PageNum → K →
    Option (RC × BplusTreeHandler K)
  | 0, _, _, _, _ => none
  | fuel + 1, h, frame, newFrame, key => do
    match (← h.pool.getThisPage frame).parentPageNum with
    | none =>
      -- create new root page
      let (rootFrame, pool) := h.pool.allocatePage
      let rootNode := InternalIndexNode.createNewRoot ops InternalIndexNode.initEmpty frame key newFrame
      let pool := pool.setPage rootFrame (.internal rootNode)
      let pool := (pool.setParent frame (some rootFrame)).setParent newFrame (some rootFrame)
      return (.success, { h with pool := pool }.updateRootPageNum (some rootFrame))
    | some parentPageNum =>
      let parentNode ← h.pool.getInternal parentPageNum
      if parentNode.items.length < h.header.internalMaxSize then
        let pool := h.pool.setPage parentPageNum (.internal (parentNode.insert ops key newFrame))
        return (.success, { h with pool := pool.setParent newFrame (some parentPageNum) })
      else
        let (newParentFrame, pool) := splitInternal h.pool parentPageNum parentNode
        let parentNode ← pool.getInternal parentPageNum
        let newNode ← pool.getInternal newParentFrame
        let newNodeKey ← newNode.keyAt 0
        -- insert into left or right ? decide by key compare result
        let pool :=
          if ops.keyComparator key newNodeKey > 0 then
            (pool.setPage newParentFrame (.internal (newNode.insert ops key newFrame))).setParent newFrame
              (some newParentFrame)
          else
            (pool.setPage parentPageNum (.internal (parentNode.insert ops key newFrame))).setParent newFrame
              (some parentPageNum)
        let newNode ← pool.getInternal newParentFrame
        insertEntryIntoParent ops fuel { h with pool := pool } parentPageNum newParentFrame (← newNode.keyAt 0)

/-- `split<LeafIndexNodeHandler>` and what follows it in `insert_entry_into_leaf_node`: half of the items go to the new
page `newFrame`, the links are set, and the entry is inserted into one of the two nodes. -/
def splitLeaf (leafNode : LeafIndexNode K) (newFrame : PageNum) (insertPosition : ℕ) (key : K) (rid : RID) :
    LeafIndexNode K × LeafIndexNode K :=
  let (oldNode, newNode) := leafNode.moveHalfTo { (LeafIndexNode.initEmpty : LeafIndexNode K) with
    parent := leafNode.parent }
  let newNode := { newNode with nextBrother := oldNode.nextBrother, parent := oldNode.parent }
  let oldNode := { oldNode with nextBrother := some newFrame }
  if insertPosition < oldNode.items.length then (oldNode.insert insertPosition key rid, newNode)
  else (oldNode, newNode.insert (insertPosition - oldNode.items.length) key rid)

/-- `BplusTreeHandler::insert_entry_into_leaf_node`. -/
def insertEntryIntoLeafNode (ops : KeyOps K) (h : BplusTreeHandler K) (frame : PageNum) (key : K) (rid : RID) :
    Option (RC × BplusTreeHandler K) := do
  let leafNode ← h.pool.getLeaf frame
  let (insertPosition, found) :=
    if h.header.unique then leafNode.lookup ops.attrComparator key else leafNode.lookup ops.keyComparator key
  if found then
    return (.recordDuplicateKey, h)
  else if leafNode.items.length < h.header.leafMaxSize then
    return (.success, { h with pool := h.pool.setPage frame (.leaf (leafNode.insert insertPosition key rid)) })
  else
    let (newFrame, pool) := h.pool.allocatePage
    let (oldNode, newNode) := splitLeaf leafNode newFrame insertPosition key rid
    let pool := (pool.setPage frame (.leaf oldNode)).setPage newFrame (.leaf newNode)
    let newKey ← (IndexNode.leaf newNode).keyAt 0
    insertEntryIntoParent ops pool.pageCount { h with pool := pool } frame newFrame newKey

/-- `BplusTreeHandler::create_new_tree`. -/
def createNewTree (h : BplusTreeHandler K) (key : K) (rid : RID) : RC × BplusTreeHandler K :=
  let (frame, pool) := h.pool.allocatePage
  let leafNode := (LeafIndexNode.initEmpty : LeafIndexNode K).insert 0 key rid
  (.success, { h with pool := pool.setPage frame (.leaf leafNode) }.updateRootPageNum (some frame))

/-- `BplusTreeHandler::insert_entry`, after `make_key`. -/
def insertEntry (ops : KeyOps K) (h : BplusTreeHandler K) (key : K) (rid : RID) :
    Option (RC × BplusTreeHandler K) :=
  match h.header.rootPage with
  | none => some (h.createNewTree key rid)
  | some rootPage => do insertEntryIntoLeafNode ops h (← h.findLeaf ops rootPage key) key rid

/-! ## Deleting -/

/-- `BplusTreeHandler::adjust_root`. -/
def adjustRoot (h : BplusTreeHandler K) (rootFrame : PageNum) : Option (RC × BplusTreeHandler K) := do
  match ← h.pool.getThisPage rootFrame with
  | .leaf node =>
    if 0 < node.items.length then return (.success, h)
    else
      let h := h.updateRootPageNum none
      return (.success, { h with disposedPages := h.disposedPages ++ [rootFrame] })
  | .internal node =>
    let childPageNum ← node.valueAt 0
    let h := { h with pool := h.pool.setParent childPageNum none }.updateRootPageNum (some childPageNum)
    return (.success, { h with disposedPages := h.disposedPages ++ [rootFrame] })

/-- `move_first_to_end` of the handler that fits the pages: from `frame` to `otherFrame`. -/
def moveFirstToEnd (pool : DiskBufferPool K) (frame otherFrame : PageNum) :
    IndexNode K → IndexNode K → Option (DiskBufferPool K)
  | .leaf node, .leaf other =>
    let (node, other) := node.moveFirstToEnd other
    some ((pool.setPage frame (.leaf node)).setPage otherFrame (.leaf other))
  | .internal node, .internal other =>
    -- `append` is `copy_from` with one item
    let item := node.items.take 1
    let pool := pool.setParents (item.map Prod.snd) otherFrame
    some ((pool.setPage frame (.internal { node with items := node.items.drop 1 })).setPage otherFrame
      (.internal { other with items := other.items ++ item }))
  | _, _ => none

/-- `move_last_to_front` of the handler that fits the pages: from `frame` to `otherFrame`. -/
def moveLastToFront (pool : DiskBufferPool K) (frame otherFrame : PageNum) :
    IndexNode K → IndexNode K → Option (DiskBufferPool K)
  | .leaf node, .leaf other =>
    let (node, other) := node.moveLastToFront other
    some ((pool.setPage frame (.leaf node)).setPage otherFrame (.leaf other))
  | .internal node, .internal other =>
    -- `preappend` links the child to its new parent
    let last := node.items.length - 1
    let item := node.items.drop last
    let pool := pool.setParents (item.map Prod.snd) otherFrame
    some ((pool.setPage frame (.internal { node with items := node.items.take last })).setPage otherFrame
      (.internal { other with items := item ++ other.items }))
  | _, _ => none

/-- `move_to` of the handler that fits the pages, from `frame` to `otherFrame`, and the leaf link that follows it in
`coalesce`. -/
def moveTo (pool : DiskBufferPool K) (frame otherFrame : PageNum) :
    IndexNode K → IndexNode K → Option (DiskBufferPool K)
  | .leaf node, .leaf other =>
    let (node, other) := node.moveTo other
    let other := { other with nextBrother := node.nextBrother }
    some ((pool.setPage otherFrame (.leaf other)).setPage frame (.leaf node))
  | .internal node, .internal other =>
    let pool := pool.setParents (node.items.map Prod.snd) otherFrame
    some ((pool.setPage otherFrame (.internal { other with items := other.items ++ node.items })).setPage frame
      (.internal { node with items := [] }))
  | _, _ => none

/-- `BplusTreeHandler::redistribute`. -/
def redistribute (h : BplusTreeHandler K) (neighborFrame frame parentFrame : PageNum) (index : ℕ) :
    Option (RC × BplusTreeHandler K) := do
  let parentNode ← h.pool.getInternal parentFrame
  let neighborNode ← h.pool.getThisPage neighborFrame
  let node ← h.pool.getThisPage frame
  if index = 0 then
    -- the neighbor is at right
    let pool ← moveFirstToEnd h.pool neighborFrame frame neighborNode node
    let separator ← (← pool.getThisPage neighborFrame).keyAt 0
    return (.success, { h with
      pool := pool.setPage parentFrame (.internal (parentNode.setKeyAt (index + 1) separator)) })
  else
    -- the neighbor is at left
    let pool ← moveLastToFront h.pool neighborFrame frame neighborNode node
    let separator ← (← pool.getThisPage frame).keyAt 0
    return (.success, { h with
      pool := pool.setPage parentFrame (.internal (parentNode.setKeyAt index separator)) })

/-- `BplusTreeHandler::coalesce` up to its last call, which continues with the parent. -/
def coalesce (h : BplusTreeHandler K) (neighborFrame frame parentFrame : PageNum) (index : ℕ) :
    Option (BplusTreeHandler K) := do
  let parentNode ← h.pool.getInternal parentFrame
  let (leftFrame, rightFrame, index) :=
    if index = 0 then (frame, neighborFrame, index + 1) else (neighborFrame, frame, index)
  let left ← h.pool.getThisPage leftFrame
  let right ← h.pool.getThisPage rightFrame
  let pool := h.pool.setPage parentFrame (.internal (parentNode.remove index))
  let pool ← moveTo pool rightFrame leftFrame right left
  return { h with pool := pool, disposedPages := h.disposedPages ++ [rightFrame] }

/-- `BplusTreeHandler::coalesce_or_redistribute`, for leaves and internal nodes alike. -/
def coalesceOrRedistribute (ops : KeyOps K) : ℕ → BplusTreeHandler K → PageNum → Option (RC × BplusTreeHandler K)
  | 0, _, _ => none
  | fuel + 1, h, frame => do
    let indexNode ← h.pool.getThisPage frame
    if h.header.minSize indexNode ≤ indexNode.size then return (.success, h)
    else
      match indexNode.parentPageNum with
      | none =>
        -- this is the root page
        if 1 < indexNode.size then return (.success, h)
        else
          let (_, h) ← h.adjustRoot frame
          return (.success, h)
      | some parentPageNum =>
        let parentIndexNode ← h.pool.getInternal parentPageNum
        let index := (parentIndexNode.lookup ops (← indexNode.keyAt (indexNode.size - 1))).1
        -- lookup return an invalid value
        if (← parentIndexNode.valueAt index) ≠ frame then none
        else
          let neighborPageNum ←
            if index = 0 then parentIndexNode.valueAt 1 else parentIndexNode.valueAt (index - 1)
          let neighborNode ← h.pool.getThisPage neighborPageNum
          if h.header.maxSize indexNode < indexNode.size + neighborNode.size then
            h.redistribute neighborPageNum frame parentPageNum index
          else
            let h ← h.coalesce neighborPageNum frame parentPageNum index
            coalesceOrRedistribute ops fuel h parentPageNum

/-- `BplusTreeHandler::delete_entry_internal`. -/
def deleteEntryInternal (ops : KeyOps K) (h : BplusTreeHandler K) (leafFrame : PageNum) (key : K) :
    Option (RC × BplusTreeHandler K) := do
  let leafIndexNode ← h.pool.getLeaf leafFrame
  let (leafIndexNode, removed) := leafIndexNode.remove ops.keyComparator key
  if removed then
    let h := { h with pool := h.pool.setPage leafFrame (.leaf leafIndexNode) }
    if h.header.minSize (.leaf leafIndexNode) ≤ leafIndexNode.items.length then return (.success, h)
    else coalesceOrRedistribute ops h.pool.pageCount h leafFrame
  else return (.recordNotExist, h)

/-- `BplusTreeHandler::delete_entry`, after `make_key`. -/
def deleteEntry (ops : KeyOps K) (h : BplusTreeHandler K) (key : K) : Option (RC × BplusTreeHandler K) :=
  match h.header.rootPage with
  | none => some (.recordNotExist, h)
  | some rootPage => do
    let (rc, h) ← deleteEntryInternal ops h (← h.findLeaf ops rootPage key) key
    return (rc, h.release)

/-! ## The validator -/

/-- The loop that compares neighbouring keys. -/
def keysIncrease (ops : KeyOps K) : List K → Bool
  | [] => true
  | [_] => true
  | a :: b :: keys => decide (ops.keyComparator a b < 0) && keysIncrease ops (b :: keys)

/-- `IndexNodeHandler::validate`. -/
def validateRoot : IndexNode K → Bool
  | .leaf node => node.parent.isSome || decide (1 ≤ node.items.length)
  | .internal node => node.parent.isSome || decide (2 ≤ node.items.length)

/-- The comparisons of `validate` with the parent's keys around this page: `first` is the key that must not be below
the parent's key for this page, `last` the key that must be below the parent's next key. -/
def validateInParent (ops : KeyOps K) (pool : DiskBufferPool K) (pageNum parentPageNum : PageNum) (first last : K) :
    Bool :=
  match pool.getInternal parentPageNum with
  | none => false
  | some parentNode =>
    match parentNode.valueIndex pageNum with
    | none => false
    | some indexInParent =>
      (indexInParent == 0 || (parentNode.keyAt indexInParent).any fun k => decide (0 ≤ ops.keyComparator first k)) &&
      (match parentNode.keyAt (indexInParent + 1) with
        | none => true
        | some k => decide (ops.keyComparator last k < 0))

/-- `LeafIndexNodeHandler::validate`. -/
def validateLeaf (ops : KeyOps K) (pool : DiskBufferPool K) (pageNum : PageNum) (node : LeafIndexNode K) :
    Option Bool :=
  if !validateRoot (.leaf node) then some false
  else if !keysIncrease ops (node.items.map Prod.fst) then some false
  else
    match node.parent with
    | none => some true
    | some parentPageNum => do
      let first ← (IndexNode.leaf node).keyAt 0
      let last ← (IndexNode.leaf node).keyAt (node.items.length - 1)
      return validateInParent ops pool pageNum parentPageNum first last

/-- The check of a child's parent link. A child that cannot be fetched is only logged. -/
def childLinked (pool : DiskBufferPool K) (pageNum : PageNum) (item : K × PageNum) : Bool :=
  match pool.getThisPage item.2 with
  | none => true
  | some child => child.parentPageNum == some pageNum

/-- `InternalIndexNodeHandler::validate`. -/
def validateInternal (ops : KeyOps K) (pool : DiskBufferPool K) (pageNum : PageNum) (node : InternalIndexNode K) :
    Option Bool :=
  if !validateRoot (.internal node) then some false
  else if !keysIncrease ops ((node.items.drop 1).map Prod.fst) then some false
  else if !node.items.all (childLinked pool pageNum) then some false
  else
    match node.parent with
    | none => some true
    | some parentPageNum => do
      let first ← node.keyAt 1
      let last ← node.keyAt (node.items.length - 1)
      return validateInParent ops pool pageNum parentPageNum first last

/-- `BplusTreeHandler::validate_node_recursive`. -/
def validateNodeRecursive (ops : KeyOps K) (pool : DiskBufferPool K) : ℕ → PageNum → Option Bool
  | 0, _ => none
  | fuel + 1, pageNum => do
    match ← pool.getThisPage pageNum with
    | .leaf node => validateLeaf ops pool pageNum node
    | .internal node =>
      (node.items.map Prod.snd).foldl
        (fun result child => do if ← result then validateNodeRecursive ops pool fuel child else some false)
        (validateInternal ops pool pageNum node)

/-- The loop of `BplusTreeHandler::validate_leaf_link`. -/
def validateLeafLinkLoop (ops : KeyOps K) (pool : DiskBufferPool K) : ℕ → K → Option PageNum → Option Bool
  | _, _, none => some true
  | 0, _, some _ => none
  | fuel + 1, prevKey, some nextPageNum => do
    let leafNode ← pool.getLeaf nextPageNum
    let first ← (IndexNode.leaf leafNode).keyAt 0
    let last ← (IndexNode.leaf leafNode).keyAt (leafNode.items.length - 1)
    if ops.keyComparator prevKey first ≥ 0 then some false
    else validateLeafLinkLoop ops pool fuel last leafNode.nextBrother

/-- `BplusTreeHandler::validate_leaf_link`. -/
def validateLeafLink (ops : KeyOps K) (h : BplusTreeHandler K) (rootPage : PageNum) : Option Bool := do
  let leafNode ← h.pool.getLeaf (← h.leftMostPage rootPage)
  let last ← (IndexNode.leaf leafNode).keyAt (leafNode.items.length - 1)
  validateLeafLinkLoop ops h.pool h.pool.pageCount last leafNode.nextBrother

/-- `BplusTreeHandler::validate_tree`. -/
def validateTree (ops : KeyOps K) (h : BplusTreeHandler K) : Option Bool :=
  match h.header.rootPage with
  | none => some true
  | some rootPage => do
    if ← validateNodeRecursive ops h.pool h.pool.pageCount rootPage then validateLeafLink ops h rootPage
    else some false

end BplusTreeHandler

end Landbase.Index
