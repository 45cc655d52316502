import ScfChain.Consensus.History

/-!
# `LedgerTrie`: the compressed ancestry trie

The model of `consensus/LedgerTrie.h`, function by function.

* `Span`, `SpanTip`: a span of ancestry `[start, end_)` of a ledger. A span is never empty and never longer
  than its ledger (fields `start_lt`, `end_le`), so the constructor's assertion cannot fail.
* `Node`: a trie node with its address, its stored `parent` address and the children it owns. Supports are
  `UInt32`, as in the source.
* A node of the trie is named by its path, the child positions walked from the root. The loops that climb the
  `parent` links run along the path (`Node.climb`, `Node.compress`); `checkInvariants` compares the stored
  links with it.
* `LedgerTrie.insert`, `remove`, `tipSupport`, `branchSupport`, `getPreferred`, `empty`, `checkInvariants`.
-/

namespace ScfChain.Consensus

open HistoryLedger
open Std (ExtTreeMap)

variable {L ID : Type} [LinearOrder ID] [HistoryLedger L ID]

/-! ## Spans -/

/-- The tip of a span of ledger ancestry. -/
structure SpanTip (L ID : Type) where
  seq : ℕ
  id : ID
  ledger : L

/-- The half-open interval `[start, end_)` of the ancestry of `ledger`. -/
structure Span (L : Type) {ID : Type} [LinearOrder ID] [HistoryLedger L ID] where
  start : ℕ
  end_ : ℕ
  ledger : L
  start_lt : start < end_
  end_le : end_ ≤ Consensus.seq ledger + 1

namespace Span

/-- `Span()`: the genesis ledger alone. -/
def genesis : Span L where
  start := 0
  end_ := 1
  ledger := makeGenesis
  start_lt := Nat.zero_lt_one
  end_le := by omega

/-- `Span(Ledger)`: the whole ancestry of a ledger. -/
def ofLedger (ledger : L) : Span L where
  start := 0
  end_ := Consensus.seq ledger + 1
  ledger := ledger
  start_lt := Nat.succ_pos _
  end_le := le_rfl

variable (s : Span L)

def clamp (val : ℕ) : ℕ := min (max s.start val) s.end_

theorem clamp_le (val : ℕ) : s.clamp val ≤ s.end_ := min_le_right _ _

/-- The part of the span over `[lo, hi)`, or none if that is empty. -/
def sub (lo hi : ℕ) : Option (Span L) :=
  if h : s.clamp lo < s.clamp hi then
    some ⟨s.clamp lo, s.clamp hi, s.ledger, h, (s.clamp_le hi).trans s.end_le⟩
  else none

/-- `Span::from`: the span `[spot, end_)`. -/
def fromSpot (spot : ℕ) : Option (Span L) := s.sub spot s.end_

/-- `Span::before`: the span `[start, spot)`. -/
def before (spot : ℕ) : Option (Span L) := s.sub s.start spot

def startID : ID := Consensus.ancestor s.ledger s.start

/-- The first possible difference between the span and a ledger. -/
def diff (o : L) : ℕ := s.clamp (mismatch s.ledger o)

def tip : SpanTip L ID := ⟨s.end_ - 1, Consensus.ancestor s.ledger (s.end_ - 1), s.ledger⟩

/-- The combined span, with the ledger of the one that ends later. -/
def merge (a b : Span L) : Span L :=
  if a.end_ < b.end_ then
    ⟨min a.start b.start, b.end_, b.ledger, lt_of_le_of_lt (min_le_right _ _) b.start_lt, b.end_le⟩
  else
    ⟨min a.start b.start, a.end_, a.ledger, lt_of_le_of_lt (min_le_left _ _) a.start_lt, a.end_le⟩

end Span

/-! ## Nodes -/

/-- A node of the trie. `addr` is the address of the node and `parent` the address its parent pointer holds. -/
structure Node (L : Type) {ID : Type} [LinearOrder ID] [HistoryLedger L ID] where
  addr : ℕ
  span : Span L
  tipSupport : UInt32
  branchSupport : UInt32
  parent : Option ℕ
  children : List (Node L)

namespace Node

/-- `Node::erase`: the child is swapped with the last one and popped. -/
def erase (children : List (Node L)) (i : ℕ) : List (Node L) :=
  match children.getLast? with
  | some back => (children.set i back).dropLast
  | none => []

/-- The node at a path. -/
def at? : List ℕ → Node L → Option (Node L)
  | [], n => some n
  | i :: path, n => n.children[i]?.bind (at? path)

/-- Change the node at the end of a path with `f`, then, going up, every node above it with `g`. -/
def climb (f g : Node L → Node L) : List ℕ → Node L → Node L
  | [], n => f n
  | i :: path, n => g { n with children := n.children.modify i (climb f g path) }

mutual

/-- `LedgerTrie::find` from a node on: the path to the node with the longest common ancestry and the first
sequence that differs. -/
def find (ledger : L) : Node L → List ℕ × ℕ
  | ⟨_, span, _, _, _, children⟩ =>
    -- keep searching as long as the current position matches the entire span
    if span.diff ledger = span.end_ then
      (findChild ledger span.end_ 0 children).getD ([], span.end_)
    else ([], span.diff ledger)

/-- The loop over the children: the first one that matches past `pos`. -/
def findChild (ledger : L) (pos i : ℕ) : List (Node L) → Option (List ℕ × ℕ)
  | [] => none
  | child :: rest =>
    if pos < child.span.diff ledger then some (i :: (child.find ledger).1, (child.find ledger).2)
    else findChild ledger pos (i + 1) rest

end

mutual

/-- `LedgerTrie::findByLedgerID` from a node on: the path to the node whose tip has the ID. -/
def findByLedgerID (id : ID) : Node L → Option (List ℕ)
  | ⟨_, span, _, _, _, children⟩ =>
    if id = span.tip.id then some [] else findByLedgerIDIn id 0 children

def findByLedgerIDIn (id : ID) (i : ℕ) : List (Node L) → Option (List ℕ)
  | [] => none
  | child :: rest =>
    match child.findByLedgerID id with
    | some path => some (i :: path)
    | none => findByLedgerIDIn id (i + 1) rest

end

/-- `newNode` takes over `loc` past `diffSeq`; `loc` truncates to the common span. -/
def split (addr : ℕ) (loc : Node L) (head oldSuffix : Span L) : Node L :=
  { loc with
    span := head
    tipSupport := 0
    children :=
      [{ addr := addr
         span := oldSuffix
         tipSupport := loc.tipSupport
         branchSupport := loc.branchSupport
         parent := some loc.addr
         children := loc.children.map fun child => { child with parent := some addr } }] }

/-- The changes `LedgerTrie::insert` makes at the node `find` returned, `count` included; `addr` and
`addr + 1` are the addresses of the nodes it creates. -/
def insertAt (addr : ℕ) (ledger : L) (count : UInt32) (diffSeq : ℕ) (loc : Node L) : Node L :=
  let loc' :=
    match loc.span.fromSpot diffSeq, loc.span.before diffSeq with
    | some oldSuffix, some head => loc.split addr head oldSuffix
    | _, _ => loc
  match (Span.ofLedger ledger).fromSpot diffSeq with
  | some newSuffix =>
    { loc' with
      branchSupport := loc'.branchSupport + count
      children := loc'.children ++
        [{ addr := addr + 1
           span := newSuffix
           tipSupport := 0 + count
           branchSupport := 0 + count
           parent := some loc'.addr
           children := [] }] }
  | none =>
    { loc' with
      tipSupport := loc'.tipSupport + count
      branchSupport := loc'.branchSupport + count }

/-- The climbing loops of `insert` and `remove` on `branchSupport`. -/
def addBranch (count : UInt32) (n : Node L) : Node L := { n with branchSupport := n.branchSupport + count }

def subBranch (count : UInt32) (n : Node L) : Node L := { n with branchSupport := n.branchSupport - count }

def subSupport (count : UInt32) (n : Node L) : Node L :=
  { n with tipSupport := n.tipSupport - count, branchSupport := n.branchSupport - count }

/-- One round of the compression loop of `remove` with `loc` the child `i` of `parent`: the parent afterwards,
and whether the loop goes on with it. -/
def compressChild (i : ℕ) (parent : Node L) : Node L × Bool :=
  match parent.children[i]? with
  | none => (parent, false)
  | some loc =>
    if loc.tipSupport = 0 then
      match loc.children with
      | [] => ({ parent with children := erase parent.children i }, true)
      | [child] =>
        let child' := { child with span := loc.span.merge child.span, parent := some parent.addr }
        ({ parent with children := erase (parent.children ++ [child']) i }, true)
      | _ :: _ :: _ => (parent, false)
    else (parent, false)

/-- The compression loop of `remove`, from the node at the path up to the root. -/
def compress : List ℕ → Node L → Node L × Bool
  | [], n => (n, true)
  | i :: path, n =>
    match n.children[i]? with
    | none => (n, false)
    | some child =>
      let n' := { n with children := n.children.set i (compress path child).1 }
      if (compress path child).2 then n'.compressChild i else (n', false)

/-- The number of levels below and including a node. -/
def depth : Node L → ℕ
  | ⟨_, _, _, _, _, children⟩ => depthIn children + 1
where
  /-- The greatest depth of a list of nodes. -/
  depthIn : List (Node L) → ℕ
    | [] => 0
    | child :: rest => max child.depth (depthIn rest)

mutual

/-- The visit of one node by `checkInvariants`, with the map of expected supports so far; none where the source
returns false. -/
def check (isRoot : Bool) (expected : ExtTreeMap ℕ UInt32) : Node L → Option (ExtTreeMap ℕ UInt32)
  | ⟨addr, span, tipSupport, branchSupport, _, children⟩ =>
    if !isRoot && tipSupport == 0 && decide (children.length < 2) then none
    else if children.any (fun child => child.parent != some addr) then none
    else if tipSupport.toUInt64 + (children.map fun child => child.branchSupport.toUInt64).sum
        != branchSupport.toUInt64 then none
    else
      checkAll
        (if tipSupport == 0 then expected
         else expected.alter (span.end_ - 1) fun old => some (old.getD 0 + tipSupport))
        children

/-- The children, last one first, as the stack pops them. -/
def checkAll (expected : ExtTreeMap ℕ UInt32) : List (Node L) → Option (ExtTreeMap ℕ UInt32)
  | [] => some expected
  | child :: rest => (checkAll expected rest).bind fun expected' => child.check false expected'

end

end Node

/-! ## The trie -/

/-- `LedgerTrie`. `next` is the address the next new node gets. -/
structure LedgerTrie (L : Type) {ID : Type} [LinearOrder ID] [HistoryLedger L ID] where
  root : Node L
  seqSupport : ExtTreeMap ℕ UInt32
  next : ℕ

namespace LedgerTrie

/-- The empty trie: a root over the genesis ledger. -/
def new : LedgerTrie L where
  root :=
    { addr := 0, span := Span.genesis, tipSupport := 0, branchSupport := 0, parent := none, children := [] }
  seqSupport := ∅
  next := 1

variable (t : LedgerTrie L)

def insert (ledger : L) (count : UInt32) : LedgerTrie L where
  root :=
    t.root.climb (Node.insertAt t.next ledger count (t.root.find ledger).2) (Node.addBranch count)
      (t.root.find ledger).1
  seqSupport := t.seqSupport.alter (seq ledger) fun old => some (old.getD 0 + count)
  next := t.next + 2

/-- `LedgerTrie::remove`: whether a matching node was decremented, and the trie afterwards. -/
def remove (ledger : L) (count : UInt32) : Bool × LedgerTrie L :=
  match t.root.findByLedgerID (idOf ledger) with
  | none => (false, t)
  | some path =>
    match t.root.at? path with
    | none => (false, t)
    | some loc =>
      -- must be exact match with tip support
      if loc.tipSupport = 0 then (false, t)
      else
        let count := min count loc.tipSupport
        (true,
          { root := ((t.root.climb (Node.subSupport count) (Node.subBranch count) path).compress path).1
            seqSupport := t.seqSupport.alter (seq ledger) fun old =>
              old.bind fun n => if n - count = 0 then none else some (n - count)
            next := t.next })

def tipSupport (ledger : L) : UInt32 :=
  match (t.root.findByLedgerID (idOf ledger)).bind (Node.at? · t.root) with
  | some loc => loc.tipSupport
  | none => 0

def branchSupport (ledger : L) : UInt32 :=
  match (t.root.findByLedgerID (idOf ledger)).bind (Node.at? · t.root) with
  | some loc => loc.branchSupport
  | none =>
    match t.root.at? (t.root.find ledger).1 with
    | some loc =>
      -- check that the ledger is a proper prefix of loc
      if seq ledger < (t.root.find ledger).2 ∧ seq ledger < loc.span.end_ then loc.branchSupport else 0
    | none => 0

def empty : Bool := t.root.branchSupport == 0

def checkInvariants : Bool := t.root.check true ∅ == some t.seqSupport

/-! ### The preferred ledger -/

/-- The walk over the `seqSupport` entries below `bound`: the uncommitted support and the entries left. -/
def addUncommitted (bound : ℕ) (uncommitted : UInt32) : List (ℕ × UInt32) → UInt32 × List (ℕ × UInt32)
  | [] => (uncommitted, [])
  | (s, n) :: rest =>
    if s < bound then addUncommitted bound (uncommitted + n) rest else (uncommitted, (s, n) :: rest)

/-- Advance `nextSeq` along a span that ends at `end_` while its support exceeds the uncommitted one, jumping
from one `seqSupport` entry to the next. -/
def advance (end_ : ℕ) (support : UInt32) (nextSeq : ℕ) (uncommitted : UInt32) :
    List (ℕ × UInt32) → ℕ × UInt32 × List (ℕ × UInt32)
  | [] =>
    if nextSeq < end_ ∧ uncommitted < support then (end_, uncommitted, []) else (nextSeq, uncommitted, [])
  | (s, n) :: rest =>
    if nextSeq < end_ ∧ uncommitted < support then
      if s < end_ then advance end_ support (s + 1) (uncommitted + n) rest
      else (end_, uncommitted, (s, n) :: rest)
    else (nextSeq, uncommitted, (s, n) :: rest)

/-- The order of the children in the fork test: by branch support, ties broken by the starting ID. -/
def outranks (a b : Node L) : Prop :=
  b.branchSupport < a.branchSupport ∨ b.branchSupport = a.branchSupport ∧ b.span.startID ≤ a.span.startID

instance (a b : Node L) : Decidable (outranks a b) := inferInstanceAs (Decidable (_ ∨ _ ∧ _))

/-- The best child and its margin over the others. The source sorts only the first two children into place. -/
def bestChild (children : List (Node L)) : Option (Node L × UInt32) :=
  match children with
  | [] => none
  | [child] => some (child, child.branchSupport)
  | _ :: _ :: _ =>
    match children.insertionSort outranks with
    | best :: second :: _ =>
      let margin := best.branchSupport - second.branchSupport
      some (best, if second.span.startID < best.span.startID then margin + 1 else margin)
    | _ => none

/-- The loop of `getPreferred`, at most `fuel` nodes deep. -/
def preferredFrom (largestIssued : ℕ) :
    ℕ → Node L → UInt32 → List (ℕ × UInt32) → Option (SpanTip L ID)
  | 0, _, _, _ => none
  | fuel + 1, curr, uncommitted, it =>
    let added := addUncommitted (max (curr.span.start + 1) largestIssued) uncommitted it
    let (nextSeq, uncommitted, it) :=
      advance curr.span.end_ curr.branchSupport (curr.span.start + 1) added.1 added.2
    -- the span was not consumed, so its ledger before nextSeq is preferred
    if nextSeq < curr.span.end_ then (curr.span.before nextSeq).map Span.tip
    else
      match bestChild curr.children with
      | some (best, margin) =>
        if uncommitted < margin ∨ uncommitted = 0 then preferredFrom largestIssued fuel best uncommitted it
        else some curr.span.tip
      | none => some curr.span.tip

def getPreferred (largestIssued : ℕ) : Option (SpanTip L ID) :=
  if t.empty then none else preferredFrom largestIssued t.root.depth t.root 0 t.seqSupport.toList

end LedgerTrie

end ScfChain.Consensus
