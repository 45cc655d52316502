import ScfChain.ShaMap.Iterate

/-!
# Version-2 maps

The branches for version 2 of `addGiveItem`, `delItem` and `updateGiveItem`, over the nodes of both versions. A version-2
map keeps no inner node with a single child, except the root: a key that leaves the prefix of an inner node splits it at
an arbitrary nibble, and a node with one child left is replaced by the child.

`flushNode` sets the hashes, for both versions.
-/

namespace ScfChain.ShaMap

open Data

/-- The prefix as it is written. -/
def Prefix.toCommon (p : Prefix) : Common := ⟨p.depth, bytes256 p.common⟩

namespace AbstractNode

/-- `clone`: the same node with another sequence number. -/
def clone (s : UInt32) : AbstractNode → AbstractNode
  | null => null
  | leaf item type _ h => leaf item type s h
  | inner v2 _ h br hs cs => inner v2 s h br hs cs

/-- `SHAMapInnerNodeV2(seq, depth)`. Without a depth it is 64. -/
def newInner (s : UInt32) (depth : ℕ) : AbstractNode :=
  inner (some ⟨depth, 0⟩) s 0 (fun _ => false) (fun _ => 0) fun _ => null

/-- `SHAMapInnerNode::setChild`. -/
def setChild (n : AbstractNode) (m : Fin 16) (child : AbstractNode) : AbstractNode :=
  match n with
  | inner v2 s _ br hs cs =>
    inner v2 s 0 (Function.update br m (!child.isNull)) (Function.update hs m 0) (Function.update cs m child)
  | n => n

/-- The pointer to a child alone, as when the child is changed in place. -/
def pointChild (n : AbstractNode) (m : Fin 16) (child : AbstractNode) : AbstractNode :=
  match n with
  | inner v2 s h br hs cs => inner v2 s h br hs (Function.update cs m child)
  | n => n

/-- `SHAMapInnerNodeV2::set_common`. -/
def setCommon (n : AbstractNode) (p : Prefix) : AbstractNode :=
  match n with
  | inner _ s h br hs cs => inner (some p) s h br hs cs
  | n => n

/-- `SHAMapInnerNodeV2::setChildren`, for leaves with the given keys. -/
def setChildren (n child1 child2 : AbstractNode) (key1 key2 : Hash) : AbstractNode :=
  match n with
  | inner _ s h br hs cs =>
    let p := childrenPrefix key1 key2
    let b1 := selectBranch p.depth key1
    let b2 := selectBranch p.depth key2
    inner (some p) s h (Function.update (Function.update br b1 true) b2 true) hs
      (Function.update (Function.update cs b1 child1) b2 child2)
  | n => n

/-- The new inner node above one that lacks the prefix of a key. -/
def forkInner (mapSeq : UInt32) (inner : AbstractNode) (p : Prefix) (tag : Hash) (newNode : AbstractNode) :
    AbstractNode :=
  let depth := p.getCommonPrefix tag
  let node := (newInner mapSeq 64).setChild (selectBranch depth p.common) inner
  let node := node.setChild (selectBranch depth tag) newNode
  node.setCommon ⟨depth, prefixOf depth tag⟩

def getBranchCount : AbstractNode → ℕ
  | inner _ _ _ br _ _ => ((List.finRange 16).filter fun i => br i).length
  | _ => 0

/-- `SHAMap::unshareNode`: copy on write. -/
def unshareNode (mapSeq : UInt32) (node : AbstractNode) : AbstractNode :=
  if node.seq ≠ mapSeq then node.clone mapSeq else node

/-- `SHAMap::dirtyUp`: hook `child` to the nodes of the stack. The root comes out. -/
def dirtyUp (mapSeq : UInt32) (target : Hash) : NodeStack → AbstractNode → AbstractNode
  | [], child => child
  | (node, depth) :: stack, child =>
    dirtyUp mapSeq target stack ((unshareNode mapSeq node).setChild (selectBranch depth target) child)

/-- The root after the node at the end of the stack was changed in place to `child`. -/
def inPlace (target : Hash) : NodeStack → AbstractNode → AbstractNode
  | [], child => child
  | (node, depth) :: stack, child => inPlace target stack (node.pointChild (selectBranch depth target) child)

section

variable (sha512Half : List UInt8 → Hash)

/-- `SHAMapTreeNode(item, type, seq)`. -/
def newLeaf (item : Item) (type : TNType) (s : UInt32) : AbstractNode :=
  leaf item type s (sha512Half (item.preimage type))

/-- `updateHash` of an inner node of either version. -/
def innerHash (v2 : Option Prefix) (br : Fin 16 → Bool) (hashes : Fin 16 → Hash) : Hash :=
  (Content.inner (v2.map Prefix.toCommon) ⟨hashes, br⟩).updateHash sha512Half

/-- The recursion of `SHAMap::walkSubTree` without writing. -/
def flushNode : AbstractNode → AbstractNode
  | null => null
  | leaf item type _ _ => newLeaf sha512Half item type 0
  | inner v2 _ _ br hs cs =>
    let cs' := fun i => if br i = true ∧ (cs i).seq ≠ 0 then flushNode (cs i) else cs i
    -- updateHashDeep
    let hs' := fun i => if (cs' i).isNull then hs i else (cs' i).hash
    inner v2 0 (innerHash sha512Half v2 br hs') br hs' cs'

end

end AbstractNode

open AbstractNode

/-- A map of version 2. -/
structure SHAMapV2 where
  root : AbstractNode
  seq : UInt32

namespace SHAMapV2

/-- The empty map. -/
def new : SHAMapV2 := ⟨newInner 1 0, 1⟩

variable (sha512Half : List UInt8 → Hash) (m : SHAMapV2)

/-- `SHAMap::findKey` with `SHAMapTreeNode::peekItem`. -/
def peekItem (key : Hash) : Option (Option Item) := do
  let stack ← m.root.walkTowardsKey key 0 []
  match stack with
  | (.leaf item _ _ _, _) :: _ => if item.key = key then some (some item) else some none
  | _ => some none

/-- The top of the stack unshared. -/
def unshareTop : NodeStack → NodeStack
  | [] => []
  | (parent, depth) :: stack => (parent.unshareNode m.seq, depth) :: stack

def addGiveItem (item : Item) (isTransaction hasMeta : Bool) : Option (Bool × SHAMapV2) := do
  let newNode := AbstractNode.newLeaf sha512Half item (SHAMap.leafType isTransaction hasMeta) m.seq
  let stack ← m.root.walkTowardsKey item.key 0 []
  match stack with
  | (.leaf other ty s h, _) :: stack =>
    if other.key = item.key then some (false, m)
    else
      let leaf := (AbstractNode.leaf other ty s h).unshareNode m.seq
      let node := (newInner m.seq 64).setChildren leaf newNode other.key item.key
      some (true, { m with root := node.dirtyUp m.seq item.key (m.unshareTop stack) })
  | (.inner (some p) s h br hs cs, depth) :: stack =>
    let inner := (AbstractNode.inner (some p) s h br hs cs).unshareNode m.seq
    if p.hasCommonPrefix item.key then
      let node := inner.setChild (selectBranch depth item.key) newNode
      some (true, { m with root := node.dirtyUp m.seq item.key stack })
    else
      match stack with
      | (parent, parentDepth) :: stack =>
        let parent := parent.unshareNode m.seq
        let node := forkInner m.seq inner p item.key newNode
        let parent := parent.setChild (selectBranch parent.depth item.key) node
        some (true, { m with root := node.dirtyUp m.seq item.key ((parent, parentDepth) :: stack) })
      -- assert (!stack.empty())
      | [] => none
  | _ => none

/-- The loop of `delItem`: unhook the branch of the key; the only child left takes the place of its node. -/
def deleteUp (key : Hash) : NodeStack → AbstractNode → Option AbstractNode
  | [], prevNode => some prevNode
  | (node, depth) :: stack, prevNode =>
    let node := (node.unshareNode m.seq).setChild (selectBranch depth key) prevNode
    if depth = 0 ∨ node.getBranchCount ≠ 1 then deleteUp key stack node
    else
      match node with
      | .inner _ _ _ br _ cs => do
        let i ← firstBranch br 0
        if (cs i).isNull then none else deleteUp key stack (cs i)
      | _ => none

def delItem (key : Hash) : Option (Bool × SHAMapV2) := do
  let stack ← m.root.walkTowardsKey key 0 []
  match stack with
  | (.leaf item _ _ _, _) :: stack =>
    if item.key ≠ key then some (false, m)
    else do
      let root ← m.deleteUp key stack .null
      some (true, { m with root := root })
  | _ => some (false, m)

/-- `updateGiveItem`, as in version 1. -/
def updateGiveItem (item : Item) (isTransaction hasMeta : Bool) : Option (Bool × SHAMapV2) := do
  let type := SHAMap.leafType isTransaction hasMeta
  let stack ← m.root.walkTowardsKey item.key 0 []
  match stack with
  | (.leaf old _ s h, _) :: stack =>
    if old.key ≠ item.key then some (false, m)
    else
      let node := AbstractNode.newLeaf sha512Half item type m.seq
      if node.hash = h then
        if s = m.seq then some (true, { m with root := node.inPlace item.key stack }) else some (true, m)
      else some (true, { m with root := node.dirtyUp m.seq item.key stack })
  | _ => some (false, m)

/-- `SHAMap::walkSubTree` without writing. -/
def unshare : SHAMapV2 :=
  match m.root with
  | .null => m
  | .leaf item type s h => if s = 0 then m else { m with root := AbstractNode.flushNode sha512Half (.leaf item type s h) }
  | .inner v2 s h br hs cs =>
    if s = 0 then m
    else if ∃ i, br i = true then { m with root := AbstractNode.flushNode sha512Half (.inner v2 s h br hs cs) }
    else { m with root := newInner 0 0 }

def getHash : Hash × SHAMapV2 :=
  if m.root.hash = 0 then ((m.unshare sha512Half).root.hash, m.unshare sha512Half) else (m.root.hash, m)

/-- An operation on a map whose items all have one leaf type. -/
def step (isTransaction hasMeta : Bool) : SHAMap.Op → Option (Bool × SHAMapV2)
  | .add item => m.addGiveItem sha512Half item isTransaction hasMeta
  | .del key => m.delItem key
  | .update item => m.updateGiveItem sha512Half item isTransaction hasMeta

/-- A sequence of operations, with what each of them returned. -/
def run (isTransaction hasMeta : Bool) (m : SHAMapV2) : List SHAMap.Op → Option (List Bool × SHAMapV2)
  | [] => some ([], m)
  | op :: ops => do
    let (ok, m) ← m.step sha512Half isTransaction hasMeta op
    let (oks, m) ← m.run isTransaction hasMeta ops
    some (ok :: oks, m)

end SHAMapV2

end ScfChain.ShaMap
