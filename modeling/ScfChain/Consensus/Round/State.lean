import ScfChain.Consensus.Round.Dispute
import ScfChain.Consensus.Timing

/-!
# A round of consensus

`State` is the state of a `Consensus` object, `Adaptor` what the application answers it. An answer may depend on everything that
was answered before: it is given from a state `W` of the application's own, which is passed on.

`RoundLog` is what the application has seen of one round: the modes it was told of, and the positions it was given to propose.
-/

namespace ScfChain.Consensus.Round

open ScfChain.Data

variable {N L T H W : Type}

inductive ConsensusMode
  | proposing | observing | wrongLedger | switchedLedger
deriving DecidableEq, Repr

inductive ConsensusPhase
  | opened | establish | accepted
deriving DecidableEq, Repr

inductive ConsensusState
  | no | movedOn | yes
deriving DecidableEq, Repr

/-! ## Proposals -/

structure ConsensusProposal (N L H : Type) where
  previousLedger : L
  position : H
  closeTime : NetTime
  time : NetTime
  proposeSeq : BitVec 32
  nodeID : N
deriving DecidableEq

namespace ConsensusProposal

def seqJoin : BitVec 32 := 0

def seqLeave : BitVec 32 := 0xffffffff

def isInitial (p : ConsensusProposal N L H) : Bool := p.proposeSeq == seqJoin

def isBowOut (p : ConsensusProposal N L H) : Bool := p.proposeSeq == seqLeave

def isStale (p : ConsensusProposal N L H) (cutoff : NetTime) : Bool := decide (p.time ≤ cutoff)

def changePosition (p : ConsensusProposal N L H) (newPosition : H) (newCloseTime now : NetTime) : ConsensusProposal N L H :=
  { p with
    position := newPosition, closeTime := newCloseTime, time := now
    proposeSeq := if p.proposeSeq = seqLeave then p.proposeSeq else p.proposeSeq + 1 }

def bowOut (p : ConsensusProposal N L H) (now : NetTime) : ConsensusProposal N L H :=
  { p with time := now, proposeSeq := seqLeave }

end ConsensusProposal

/-! ## The state -/

structure Ledger (L : Type) where
  id : L
  seq : BitVec 32
  closeTime : NetTime
  parentCloseTime : NetTime
  closeTimeResolution : NetTime
  closeAgree : Bool

/-- `ConsensusTimer`, in milliseconds. -/
structure ConsensusTimer where
  start : ℤ
  dur : ℤ

def ConsensusTimer.reset (now : ℤ) : ConsensusTimer := ⟨now, 0⟩

def ConsensusTimer.tick (t : ConsensusTimer) (now : ℤ) : ConsensusTimer := { t with dur := now - t.start }

/-- `tick` by a fixed time. -/
def ConsensusTimer.advance (t : ConsensusTimer) (fixed : ℤ) : ConsensusTimer := { t with dur := t.dur + fixed }

structure ConsensusCloseTimes where
  peers : NetTime → ℕ
  self : NetTime

structure ConsensusResult (N L T H : Type) where
  txns : Finset T
  position : ConsensusProposal N L H
  disputes : Assoc T (DisputedTx N T)
  compares : Finset H
  roundTime : ConsensusTimer
  proposers : ℕ
  state : ConsensusState

/-- What the application is told in one round: the modes, and the positions to propose, each with whether the set it names is one
that we have. -/
structure RoundLog (N L H : Type) where
  modes : List ConsensusMode
  proposals : List (ConsensusProposal N L H × Bool)

structure State (N L T H W : Type) where
  phase : ConsensusPhase
  mode : ConsensusMode
  firstRound : Bool
  haveCloseTimeConsensus : Bool
  convergePercent : ℤ
  openTime : ConsensusTimer
  closeResolution : NetTime
  prevRoundTime : ℤ
  now : NetTime
  prevCloseTime : NetTime
  prevLedgerID : L
  previousLedger : Ledger L
  acquired : Assoc H (Finset T)
  result : Option (ConsensusResult N L T H)
  rawCloseTimes : ConsensusCloseTimes
  currPeerPositions : Assoc N (ConsensusProposal N L H)
  recentPeerPositions : Assoc N (List (ConsensusProposal N L H))
  prevProposers : ℕ
  deadNodes : Finset N
  /-- the state of the application -/
  world : W
  /-- what the application was told, the last round first -/
  rounds : List (RoundLog N L H)

/-! ## The application -/

/-- The application's side. A set has an id of its own, sets are compared transaction by transaction, and a set that is acquired for
an id has that id. -/
structure Adaptor (N L T H W : Type) [DecidableEq T] where
  parms : Parms
  nodeID : N
  /-- `TxSet::id` -/
  id : Finset T → H
  id_injective : Function.Injective id
  /-- `TxSet::compare` : the transactions that are not common to both sets, and whether the first has them -/
  compare : Finset T → Finset T → List (T × Bool)
  mem_compare : ∀ ours others tx inOurs, (tx, inOurs) ∈ compare ours others ↔
    inOurs = decide (tx ∈ ours) ∧ (tx ∈ ours ↔ tx ∉ others)
  acquireLedger : L → W → Option (Ledger L) × W
  acquireTxSet : H → W → Option (Finset T) × W
  acquireTxSet_id : ∀ setID w set, (acquireTxSet setID w).1 = some set → id set = setID
  hasOpenTransactions : W → Bool × W
  proposersValidated : L → W → ℕ × W
  proposersFinished : Ledger L → L → W → ℕ × W
  getPrevLedger : L → Ledger L → ConsensusMode → W → L × W
  /-- the set to propose, the parent of the open ledger, and the time that is kept; the rest of the result is `onClose`'s own -/
  onClose : Ledger L → NetTime → ConsensusMode → W → (Finset T × L × NetTime) × W
  /-- whether the round is held up for the servers that lag behind -/
  shouldPause : State N L T H W → W → Bool × W
  /-- the steady clock -/
  clock : W → ℤ × W

/-- A new object. The times, and the ledger it was created with, are of no use until a round starts. -/
def State.created (prevLedgerID : L) (previousLedger : Ledger L) (world : W) : State N L T H W where
  phase := .accepted
  mode := .observing
  firstRound := true
  haveCloseTimeConsensus := false
  convergePercent := 0
  openTime := ⟨0, 0⟩
  closeResolution := 30
  prevRoundTime := 0
  now := 0
  prevCloseTime := 0
  prevLedgerID := prevLedgerID
  previousLedger := previousLedger
  acquired := ∅
  result := none
  rawCloseTimes := ⟨fun _ => 0, 0⟩
  currPeerPositions := ∅
  recentPeerPositions := ∅
  prevProposers := 0
  deadNodes := ∅
  world := world
  rounds := []

/-- An application that knows of no other ledger and has no set but its own, which is empty. There are eight transactions, and a set
is its own id. -/
def Adaptor.alone : Adaptor ℕ ℕ (Fin 8) (Finset (Fin 8)) Unit where
  parms := {}
  nodeID := 0
  id set := set
  id_injective _ _ h := h
  compare ours others := ((List.finRange 8).filter fun tx => tx ∈ ours ↔ tx ∉ others).map fun tx => (tx, decide (tx ∈ ours))
  mem_compare ours others tx inOurs := by
    simp only [List.mem_map, List.mem_filter, List.mem_finRange, true_and, decide_eq_true_eq, Prod.mk.injEq]
    constructor
    · rintro ⟨tx', hdiff, rfl, rfl⟩
      exact ⟨rfl, hdiff⟩
    · rintro ⟨rfl, hdiff⟩
      exact ⟨tx, hdiff, rfl, rfl⟩
  acquireLedger _ w := (none, w)
  acquireTxSet _ w := (none, w)
  acquireTxSet_id _ _ _ h := by cases h
  hasOpenTransactions w := (false, w)
  proposersValidated _ w := (0, w)
  proposersFinished _ _ w := (0, w)
  getPrevLedger prevLedgerID _ _ w := (prevLedgerID, w)
  onClose prevLedger _ _ w := ((∅, prevLedger.id, 0), w)
  shouldPause _ w := (false, w)
  clock w := (0, w)

end ScfChain.Consensus.Round
