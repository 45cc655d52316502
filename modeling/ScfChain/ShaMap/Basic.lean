import Mathlib

/-!
# `SHAMap`

The version-1 tree of a `SHAMap`, as `SHAMap.cpp` and `SHAMapTreeNode.cpp` change it in memory: a radix tree of depth
64 over 256-bit keys, with the hashes of the nodes cached in them.

* `Node.null` is the null pointer. Nodes have a sequence number: 0 for a shared node, which is cloned before it is
  changed, and otherwise that of the map that owns it.
* The explicit stacks of the source are lists with the top first. Of a `SHAMapNodeID` only the depth matters here.
* `none` is the exception `SHAMapMissingNode`; the node database, from which a branch without a child pointer would be
  fetched, is not modelled.
* `sha512Half` is a parameter.
-/

namespace ScfChain.ShaMap

/-- `uint256`, for keys and hashes. -/
abbrev Hash := BitVec 256

/-- The bytes of a `uint256`, most significant first. -/
def bytes256 (h : Hash) : List UInt8 :=
  (List.range 32).map fun i => UInt8.ofNat (h.toNat / 256 ^ (31 - i))

/-- `SHAMapItem`. -/
@[ext]
structure Item where
  key : Hash
  data : List UInt8
  deriving DecidableEq

/-- The leaf types of `SHAMapAbstractNode::TNType`. -/
inductive TNType
  | transactionNM
  | transactionMD
  | accountState
  deriving DecidableEq

/-- The hash prefixes of nodes. -/
inductive HashPrefix
  | transactionID
  | txNode
  | leafNode
  | innerNode
  | innerNodeV2
  deriving DecidableEq

def HashPrefix.bytes : HashPrefix → List UInt8
  | .transactionID => [0x54, 0x58, 0x4E, 0]
  | .txNode => [0x53, 0x4E, 0x44, 0]
  | .leafNode => [0x4D, 0x4C, 0x4E, 0]
  | .innerNode => [0x4D, 0x49, 0x4E, 0]
  | .innerNodeV2 => [0x49, 0x4E, 0x52, 0]

/-- What `SHAMapTreeNode::updateHash` hashes. The key is not part of a transaction without metadata. -/
def Item.preimage (type : TNType) (item : Item) : List UInt8 :=
  match type with
  | .transactionNM => HashPrefix.transactionID.bytes ++ item.data
  | .accountState => HashPrefix.leafNode.bytes ++ item.data ++ bytes256 item.key
  | .transactionMD => HashPrefix.txNode.bytes ++ item.data ++ bytes256 item.key

/-- What `SHAMapInnerNode::updateHash` hashes. -/
def innerPreimage (hashes : Fin 16 → Hash) : List UInt8 :=
  HashPrefix.innerNode.bytes ++ (List.finRange 16).flatMap fun i => bytes256 (hashes i)

/-- `SHAMapNodeID::selectBranch` at a depth: the nibble of the key there. -/
def selectBranch (depth : ℕ) (key : Hash) : Fin 16 :=
  ⟨key.toNat / 16 ^ (63 - depth) % 16, Nat.mod_lt _ (by norm_num)⟩

/-- A node, or a null pointer to one. `isBranch` is the bitmap `mIsBranch`. -/
inductive Node
  | null
  | leaf (item : Item) (type : TNType) (seq : UInt32) (hash : Hash)
  | inner (seq : UInt32) (hash : Hash) (isBranch : Fin 16 → Bool) (hashes : Fin 16 → Hash)
      (children : Fin 16 → Node)

namespace Node

def isNull : Node → Bool
  | null => true
  | _ => false

def seq : Node → UInt32
  | null => 0
  | leaf _ _ s _ => s
  | inner s _ _ _ _ => s

def hash : Node → Hash
  | null => 0
  | leaf _ _ _ h => h
  | inner _ h _ _ _ => h

/-- `clone`: the same node with another sequence number. -/
def clone (s : UInt32) : Node → Node
  | null => null
  | leaf item type _ h => leaf item type s h
  | inner _ h br hs cs => inner s h br hs cs

/-- `SHAMapInnerNode(seq)`. -/
def newInner (s : UInt32) : Node := inner s 0 (fun _ => false) (fun _ => 0) fun _ => null

/-- `SHAMapInnerNode::setChild`. -/
def setChild (n : Node) (m : Fin 16) (child : Node) : Node :=
  match n with
  | inner s _ br hs cs =>
    inner s 0 (Function.update br m (!child.isNull)) (Function.update hs m 0) (Function.update cs m child)
  | n => n

/-- The pointer to a child alone, as when the child is changed in place. -/
def pointChild (n : Node) (m : Fin 16) (child : Node) : Node :=
  match n with
  | inner s h br hs cs => inner s h br hs (Function.update cs m child)
  | n => n

def getBranchCount : Node → ℕ
  | inner _ _ br _ _ => ((List.finRange 16).filter fun i => br i).length
  | _ => 0

/-- `SHAMap::onlyBelow`: the item below a node if there is only one. -/
def onlyBelow : Node → Option (Option Item)
  | null => none
  | leaf item _ _ _ => some (some item)
  | inner _ _ br _ cs =>
    match (List.finRange 16).filter fun i => br i with
    | [] => some none
    | [i] => onlyBelow (cs i)
    | i :: _ :: _ => if (cs i).isNull then none else some none

end Node

/-- The nodes of a walk with their depths, the last one first. -/
abbrev Stack := List (Node × ℕ)

/-- `SHAMap::walkTowardsKey` from a node on, with the nodes before it on the stack. -/
def walkTowardsKey (key : Hash) : Node → ℕ → Stack → Option Stack
  | .null, _, _ => none
  | .leaf item type s h, depth, stack => some ((.leaf item type s h, depth) :: stack)
  | .inner s h br hs cs, depth, stack =>
    let stack := (.inner s h br hs cs, depth) :: stack
    if br (selectBranch depth key) then walkTowardsKey key (cs (selectBranch depth key)) (depth + 1) stack
    else some stack

/-- `SHAMap::unshareNode`: copy on write. -/
def unshareNode (mapSeq : UInt32) (node : Node) : Node :=
  if node.seq ≠ mapSeq then node.clone mapSeq else node

/-- `SHAMap::dirtyUp`: hook `child` to the nodes of the stack. The root comes out. -/
def dirtyUp (mapSeq : UInt32) (target : Hash) : Stack → Node → Node
  | [], child => child
  | (node, depth) :: stack, child =>
    dirtyUp mapSeq target stack ((unshareNode mapSeq node).setChild (selectBranch depth target) child)

/-- The root after the node at the end of the stack was changed in place to `child`. -/
def inPlace (target : Hash) : Stack → Node → Node
  | [], child => child
  | (node, depth) :: stack, child => inPlace target stack (node.pointChild (selectBranch depth target) child)

section

variable (sha512Half : List UInt8 → Hash)

/-- `SHAMapTreeNode(item, type, seq)`. -/
def newLeaf (item : Item) (type : TNType) (s : UInt32) : Node :=
  .leaf item type s (sha512Half (item.preimage type))

/-! ## The hashes -/

/-- `SHAMapInnerNode::updateHash`. -/
def innerHash (br : Fin 16 → Bool) (hashes : Fin 16 → Hash) : Hash :=
  if ∃ i, br i = true then sha512Half (innerPreimage hashes) else 0

/-- The recursion of `SHAMap::walkSubTree` without writing: a node that is not shared yet gets its hash, after its
children have, and is shared. -/
def flushNode : Node → Node
  | .null => .null
  | .leaf item type _ _ => newLeaf sha512Half item type 0
  | .inner _ _ br hs cs =>
    let cs' := fun i => if br i = true ∧ (cs i).seq ≠ 0 then flushNode (cs i) else cs i
    -- updateHashDeep
    let hs' := fun i => if (cs' i).isNull then hs i else (cs' i).hash
    .inner 0 (innerHash sha512Half br hs') br hs' cs'

end

/-- The map. `seq` is `seq_`, the sequence number of the nodes it owns. -/
structure SHAMap where
  root : Node
  seq : UInt32

namespace SHAMap

/-- The empty map. -/
def new : SHAMap := ⟨.newInner 1, 1⟩

variable (sha512Half : List UInt8 → Hash) (m : SHAMap)

/-- `SHAMap::findKey` with `SHAMapTreeNode::peekItem`. -/
def peekItem (key : Hash) : Option (Option Item) := do
  let stack ← walkTowardsKey key m.root 0 []
  match stack with
  | (.leaf item _ _ _, _) :: _ => if item.key = key then some (some item) else some none
  | _ => some none

def hasItem (key : Hash) : Option Bool := (m.peekItem key).map Option.isSome

/-- The leaf type the operations compute from their flags. -/
def leafType (isTransaction hasMeta : Bool) : TNType :=
  if !isTransaction then .accountState else if hasMeta then .transactionMD else .transactionNM

/-- The loop of `addGiveItem` that makes inner nodes as long as two keys are on one branch. Keys have 64 nibbles. -/
def splitLeaf (mapSeq : UInt32) (tag other : Hash) : ℕ → Node → ℕ → Stack → Node × ℕ × Stack
  | 0, node, depth, stack => (node, depth, stack)
  | fuel + 1, node, depth, stack =>
    if selectBranch depth tag = selectBranch depth other then
      splitLeaf mapSeq tag other fuel (.newInner mapSeq) (depth + 1) ((node, depth) :: stack)
    else (node, depth, stack)

def addGiveItem (item : Item) (isTransaction hasMeta : Bool) : Option (Bool × SHAMap) := do
  let type := leafType isTransaction hasMeta
  let stack ← walkTowardsKey item.key m.root 0 []
  match stack with
  | (.leaf otherItem ty s h, depth) :: stack =>
    if otherItem.key = item.key then some (false, m)
    else
      -- this is a leaf node that has to be made an inner node holding two items
      let node := unshareNode m.seq (.leaf otherItem ty s h)
      let (node, depth, stack) :=
        splitLeaf m.seq item.key otherItem.key (64 - depth) (.newInner node.seq) depth stack
      let node := node.setChild (selectBranch depth item.key) (newLeaf sha512Half item type m.seq)
      let node := node.setChild (selectBranch depth otherItem.key) (newLeaf sha512Half otherItem type m.seq)
      some (true, { m with root := dirtyUp m.seq item.key stack node })
  | (node, depth) :: stack =>
    -- easy case, we end on an inner node
    let node := (unshareNode m.seq node).setChild (selectBranch depth item.key) (newLeaf sha512Half item type m.seq)
    some (true, { m with root := dirtyUp m.seq item.key stack node })
  | [] => none

/-- The loop of `delItem`: unhook the branch of the key, dropping nodes that have no item left and pulling up a lone
item. -/
def deleteUp (key : Hash) (type : TNType) : Stack → Node → Option Node
  | [], prevNode => some prevNode
  | (node, depth) :: stack, prevNode =>
    let node := (unshareNode m.seq node).setChild (selectBranch depth key) prevNode
    if depth = 0 then deleteUp key type stack node
    else
      match node.getBranchCount with
      | 0 => deleteUp key type stack .null
      | 1 => do
        let item ← node.onlyBelow
        match item with
        | some item => deleteUp key type stack (newLeaf sha512Half item type node.seq)
        | none => deleteUp key type stack node
      | _ => deleteUp key type stack node

def delItem (key : Hash) : Option (Bool × SHAMap) := do
  let stack ← walkTowardsKey key m.root 0 []
  match stack with
  | (.leaf item type _ _, _) :: stack =>
    if item.key ≠ key then some (false, m)
    else do
      let root ← m.deleteUp sha512Half key type stack .null
      some (true, { m with root := root })
  | _ => some (false, m)

/-- `updateGiveItem`. When `setItem` leaves the hash as it is, nothing is hooked up: the new item is in the tree only if
the leaf was changed in place. -/
def updateGiveItem (item : Item) (isTransaction hasMeta : Bool) : Option (Bool × SHAMap) := do
  let type := leafType isTransaction hasMeta
  let stack ← walkTowardsKey item.key m.root 0 []
  match stack with
  | (.leaf old _ s h, _) :: stack =>
    if old.key ≠ item.key then some (false, m)
    else
      let node := newLeaf sha512Half item type m.seq
      if node.hash = h then
        if s = m.seq then some (true, { m with root := inPlace item.key stack node }) else some (true, m)
      else some (true, { m with root := dirtyUp m.seq item.key stack node })
  | _ => some (false, m)

/-- `SHAMap::walkSubTree` without writing. -/
def unshare : SHAMap :=
  match m.root with
  | .null => m
  | .leaf item type s h => if s = 0 then m else { m with root := flushNode sha512Half (.leaf item type s h) }
  | .inner s h br hs cs =>
    if s = 0 then m
    else if ∃ i, br i = true then { m with root := flushNode sha512Half (.inner s h br hs cs) }
    else { m with root := .newInner 0 }

def getHash : Hash × SHAMap :=
  if m.root.hash = 0 then ((m.unshare sha512Half).root.hash, m.unshare sha512Half) else (m.root.hash, m)

/-! ## Runs -/

inductive Op
  | add (item : Item)
  | del (key : Hash)
  | update (item : Item)

/-- An operation on a map whose items all have one leaf type. -/
def step (isTransaction hasMeta : Bool) : Op → Option (Bool × SHAMap)
  | .add item => m.addGiveItem sha512Half item isTransaction hasMeta
  | .del key => m.delItem sha512Half key
  | .update item => m.updateGiveItem sha512Half item isTransaction hasMeta

/-- A sequence of operations, with what each of them returned. -/
def run (isTransaction hasMeta : Bool) (m : SHAMap) : List Op → Option (List Bool × SHAMap)
  | [] => some ([], m)
  | op :: ops => do
    let (ok, m) ← m.step sha512Half isTransaction hasMeta op
    let (oks, m) ← m.run isTransaction hasMeta ops
    some (ok :: oks, m)

end SHAMap

end ScfChain.ShaMap
