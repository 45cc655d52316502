import ScfChain.Consensus.Round.State

/-!
# Peers' positions and disputes

What a proposal of a peer, or a set of transactions that arrives, does to the state. A set is compared with ours once, when we first
see it; every transaction that only one of the two has is then disputed, and the votes of all peers whose sets we have are recorded.
-/

set_option linter.unusedSectionVars false

namespace ScfChain.Consensus.Round

open ScfChain.Data

variable {N L T H W : Type} [DecidableEq N] [DecidableEq L] [DecidableEq T] [DecidableEq H] (A : Adaptor N L T H W)

/-! ## What the application is told -/

namespace State

def tellMode (mode : ConsensusMode) : List (RoundLog N L H) → List (RoundLog N L H)
  | [] => []
  | round :: rounds => { round with modes := round.modes ++ [mode] } :: rounds

/-- `MonitoredMode::set` -/
def setMode (s : State N L T H W) (mode : ConsensusMode) : State N L T H W :=
  { s with mode := mode, rounds := tellMode mode s.rounds }

def tellProposal (p : ConsensusProposal N L H × Bool) : List (RoundLog N L H) → List (RoundLog N L H)
  | [] => []
  | round :: rounds => { round with proposals := round.proposals ++ [p] } :: rounds

def propose (s : State N L T H W) (p : ConsensusProposal N L H) : State N L T H W :=
  { s with rounds := tellProposal (p, (s.acquired.lookup p.position).isSome) s.rounds }

end State

/-! ## Disputes -/

/-- The vote of a peer whose set we have. -/
def countPeer (s : State N L T H W) (tx : T) (dtx : DisputedTx N T) (pit : Sigma fun _ : N => ConsensusProposal N L H) :
    DisputedTx N T :=
  match s.acquired.lookup pit.2.position with
  | none => dtx
  | some set => dtx.setVote pit.1 (decide (tx ∈ set))

/-- A dispute over `tx`, with the votes of the peers whose sets we have. -/
def newDispute (s : State N L T H W) (txns : Finset T) (tx : T) : DisputedTx N T :=
  s.currPeerPositions.entries.foldl (countPeer s tx) ⟨0, 0, decide (tx ∈ txns), tx, ∅⟩

def addDispute (s : State N L T H W) (r : ConsensusResult N L T H) (difference : T × Bool) : ConsensusResult N L T H :=
  if (r.disputes.lookup difference.1).isSome then r
  else { r with disputes := r.disputes.insert difference.1 (newDispute s r.txns difference.1) }

def createDisputes (s : State N L T H W) (r : ConsensusResult N L T H) (o : Finset T) : ConsensusResult N L T H :=
  if A.id o ∈ r.compares then r
  -- nothing to dispute if we agree
  else if A.id r.txns = A.id o then { r with compares := insert (A.id o) r.compares }
  else (A.compare r.txns o).foldl (addDispute s) { r with compares := insert (A.id o) r.compares }

def updateDisputes (s : State N L T H W) (r : ConsensusResult N L T H) (node : N) (other : Finset T) : ConsensusResult N L T H :=
  let r := if A.id other ∈ r.compares then r else createDisputes A s r other
  { r with disputes := mapVals (fun d => d.setVote node (decide (d.tx ∈ other))) r.disputes }

/-- The votes of the peers whose position is `set`. -/
def updatePeers (s : State N L T H W) (r : ConsensusResult N L T H) (set : Finset T) : ConsensusResult N L T H :=
  s.currPeerPositions.entries.foldl
    (fun r it => if it.2.position = A.id set then updateDisputes A s r it.1 set else r) r

def unVoteAll (r : ConsensusResult N L T H) (peer : N) : ConsensusResult N L T H :=
  { r with disputes := mapVals (fun d => d.unVote peer) r.disputes }

/-! ## Arrivals -/

def gotTxSet (now : NetTime) (txSet : Finset T) (s : State N L T H W) : State N L T H W :=
  if s.phase = .accepted then s
  else
    let s := { s with now := now }
    if (s.acquired.lookup (A.id txSet)).isSome then s
    else
      let s := { s with acquired := s.acquired.insert (A.id txSet) txSet }
      -- no disputes as long as there is no position
      { s with result := s.result.map fun r => updatePeers A s r txSet }

/-- What follows once the position of a peer is stored. -/
def processPosition (p : ConsensusProposal N L H) (s : State N L T H W) : State N L T H W :=
  match s.acquired.lookup p.position with
  | none =>
    let set := A.acquireTxSet p.position s.world
    let s := { s with world := set.2 }
    match set.1 with
    | none => s
    | some set => gotTxSet A s.now set s
  | some set => { s with result := s.result.map fun r => updateDisputes A s r p.nodeID set }

def recordCloseTime (p : ConsensusProposal N L H) (s : State N L T H W) : State N L T H W :=
  if p.isInitial then
    let peers := Function.update s.rawCloseTimes.peers p.closeTime (s.rawCloseTimes.peers p.closeTime + 1)
    { s with rawCloseTimes := { s.rawCloseTimes with peers := peers } }
  else s

/-- The peer has left the round. -/
def peerBowsOut (peer : N) (s : State N L T H W) : State N L T H W :=
  { s with
    result := s.result.map fun r => unVoteAll r peer
    currPeerPositions := s.currPeerPositions.erase peer
    deadNodes := insert peer s.deadNodes }

/-- The peer has sent a later proposal already. -/
def isLate (p : ConsensusProposal N L H) (s : State N L T H W) : Bool :=
  match s.currPeerPositions.lookup p.nodeID with
  | none => false
  | some p' => decide (p.proposeSeq ≤ p'.proposeSeq)

/-- The state after a proposal, and whether it was of use. -/
def peerProposalInternal (now : NetTime) (p : ConsensusProposal N L H) (s : State N L T H W) : Bool × State N L T H W :=
  if s.phase = .accepted then (false, s)
  else
    let s := { s with now := now }
    if p.previousLedger ≠ s.prevLedgerID then (false, s)
    else if p.nodeID ∈ s.deadNodes then (false, s)
    else if isLate p s then (false, s)
    else if p.isBowOut then (true, peerBowsOut p.nodeID s)
    else
      let s := { s with currPeerPositions := s.currPeerPositions.insert p.nodeID p }
      (true, processPosition A p (recordCloseTime p s))

/-- The last ten proposals of a peer are kept. -/
def storeRecent (p : ConsensusProposal N L H) (s : State N L T H W) : State N L T H W :=
  let props := (s.recentPeerPositions.lookup p.nodeID).getD []
  let props := (if 10 ≤ props.length then props.tail else props) ++ [p]
  { s with recentPeerPositions := s.recentPeerPositions.insert p.nodeID props }

def peerProposal (now : NetTime) (p : ConsensusProposal N L H) (s : State N L T H W) : Bool × State N L T H W :=
  peerProposalInternal A now p (storeRecent p s)

def playbackProposals (s : State N L T H W) : State N L T H W :=
  (s.recentPeerPositions.entries.flatMap fun it => it.2).foldl
    (fun s pos => if pos.previousLedger = s.prevLedgerID then (peerProposalInternal A s.now pos s).2 else s) s

/-! ## Our stance

Disputes and votes never touch our set or our position. -/

/-- The results have the same set and the same position. -/
def SameStance (r r' : ConsensusResult N L T H) : Prop := r'.txns = r.txns ∧ r'.position = r.position

theorem SameStance.trans {r r' r'' : ConsensusResult N L T H} (h : SameStance r r') (h' : SameStance r' r'') : SameStance r r'' :=
  ⟨h'.1.trans h.1, h'.2.trans h.2⟩

theorem sameStance_foldl {α : Type} {f : ConsensusResult N L T H → α → ConsensusResult N L T H} (h : ∀ r a, SameStance r (f r a))
    (l : List α) (r : ConsensusResult N L T H) : SameStance r (l.foldl f r) := by
  induction l generalizing r with
  | nil => exact ⟨rfl, rfl⟩
  | cons a l ih => exact (h r a).trans (ih (f r a))

variable (s : State N L T H W) (r : ConsensusResult N L T H)

theorem sameStance_addDispute (difference : T × Bool) :
    SameStance r (addDispute s r difference) := by
  unfold addDispute
  split_ifs <;> exact ⟨rfl, rfl⟩

theorem sameStance_createDisputes (o : Finset T) :
    SameStance r (createDisputes A s r o) := by
  unfold createDisputes
  split_ifs
  · exact ⟨rfl, rfl⟩
  · exact ⟨rfl, rfl⟩
  · exact SameStance.trans ⟨rfl, rfl⟩ (sameStance_foldl (sameStance_addDispute s) _ _)

theorem sameStance_updateDisputes (node : N) (other : Finset T) :
    SameStance r (updateDisputes A s r node other) := by
  unfold updateDisputes
  split_ifs
  · exact ⟨rfl, rfl⟩
  · exact sameStance_createDisputes A s r other

theorem sameStance_updatePeers (set : Finset T) :
    SameStance r (updatePeers A s r set) := by
  refine sameStance_foldl (fun r it => ?_) _ r
  split_ifs
  · exact sameStance_updateDisputes A s r it.1 set
  · exact ⟨rfl, rfl⟩

end ScfChain.Consensus.Round
