import ScfChain.Consensus.Round.Positions
import ScfChain.Data.Poll
import ScfChain.Data.Succeeds

/-!
# The timer of a round

What a round does when its timer fires: it checks that it builds on the right ledger, closes the open ledger when it is time, and
then changes its position until it agrees with its peers. A switch to another ledger starts a new round, which may look at the timer
at once; how often it does is not bounded, so `timerEntry` takes the number of times it may.

A failed assertion is an error.
-/

namespace ScfChain.Consensus.Round

open ScfChain.Data

variable {N L T H W : Type} [DecidableEq N] [DecidableEq L] [DecidableEq T] [DecidableEq H] (A : Adaptor N L T H W)

/-! ## Decisions -/

def shouldCloseLedger (anyTransactions : Bool) (prevProposers proposersClosed proposersValidated : ℕ)
    (prevRoundTime timeSincePrevClose openTime idleInterval : ℤ) (parms : Parms) : Bool :=
  -- unexpected times: we just close the ledger
  if prevRoundTime < -1000 ∨ 600000 < prevRoundTime ∨ 600000 < timeSincePrevClose then true
  else if prevProposers / 2 < proposersClosed + proposersValidated then true
  else if !anyTransactions then decide (idleInterval ≤ timeSincePrevClose)
  else if openTime < parms.ledgerMIN_CLOSE then false
  else if openTime < prevRoundTime.tdiv 2 then false
  else true

def checkConsensusReached (agreeing total : ℕ) (count_self : Bool) (minConsensusPct : ℕ) : Bool :=
  if total = 0 then true
  else if count_self then decide (minConsensusPct ≤ (agreeing + 1) * 100 / (total + 1))
  else decide (minConsensusPct ≤ agreeing * 100 / total)

def checkConsensus (prevProposers currentProposers currentAgree currentFinished : ℕ) (previousAgreeTime currentAgreeTime : ℤ)
    (parms : Parms) (proposing : Bool) : ConsensusState :=
  if currentAgreeTime ≤ parms.ledgerMIN_CONSENSUS then .no
  else if currentProposers < prevProposers * 3 / 4 ∧ currentAgreeTime < previousAgreeTime + parms.ledgerMIN_CONSENSUS then .no
  else if checkConsensusReached currentAgree currentProposers proposing parms.minCONSENSUS_PCT then .yes
  else if checkConsensusReached currentFinished currentProposers false parms.minCONSENSUS_PCT then .movedOn
  else .no

/-- How many of the participants must agree. -/
def participantsNeeded (participants percent : ℕ) : ℕ :=
  if (participants * percent + percent / 2) / 100 = 0 then 1 else (participants * percent + percent / 2) / 100

def asCloseTime (s : State N L T H W) (raw : NetTime) : NetTime :=
  if A.parms.useRoundedCloseTime then roundCloseTime raw s.closeResolution
  else effCloseTime raw s.closeResolution s.previousLedger.closeTime

/-! ## Our position -/

/-- Positions that are too old are removed, with their votes. -/
def removeStale (s : State N L T H W) (r : ConsensusResult N L T H) : ConsensusResult N L T H :=
  (s.currPeerPositions.entries.filter fun it => it.2.isStale (s.now - A.parms.proposeFRESHNESS)).foldl
    (fun r it => unVoteAll r it.2.nodeID) r

def freshPositions (s : State N L T H W) : Assoc N (ConsensusProposal N L H) :=
  filterVals (fun _ p => !p.isStale (s.now - A.parms.proposeFRESHNESS)) s.currPeerPositions

/-- What the update makes of our set: the disputes whose vote it turns are added to it or taken out. -/
def revoteTx (changed : DisputedTx N T × Bool) (newSet : Option (Finset T)) (txns : Finset T) : Option (Finset T) :=
  if changed.2 then
    if changed.1.ourVote then some (insert changed.1.tx (newSet.getD txns)) else some ((newSet.getD txns).erase changed.1.tx)
  else newSet

/-- Our new set, if a vote of ours has changed. -/
def revote (s : State N L T H W) (r : ConsensusResult N L T H) : Option (Finset T) :=
  r.disputes.entries.foldl
    (fun newSet it => revoteTx (it.2.updateVote s.convergePercent (s.mode = .proposing) A.parms) newSet r.txns) none

/-- The disputes with our new votes. -/
def updateVotes (s : State N L T H W) (r : ConsensusResult N L T H) : ConsensusResult N L T H :=
  { r with disputes := mapVals (fun d => (d.updateVote s.convergePercent (s.mode = .proposing) A.parms).1) r.disputes }

/-- The rounded times that are voted for: those of the fresh positions, and ours if we propose. -/
def closeTimeVotes (s : State N L T H W) (r : ConsensusResult N L T H) : List NetTime :=
  (s.currPeerPositions.entries.map fun it => asCloseTime A s it.2.closeTime) ++
    if s.mode = .proposing then [asCloseTime A s r.position.closeTime] else []

def participants (s : State N L T H W) : ℕ := s.currPeerPositions.entries.length + if s.mode = .proposing then 1 else 0

/-- The threshold for a non-zero vote. -/
def threshVote (s : State N L T H W) : ℕ := participantsNeeded (participants s) (A.parms.neededWeight s.convergePercent)

/-- The threshold to declare consensus. -/
def threshConsensus (s : State N L T H W) : ℕ := participantsNeeded (participants s) A.parms.avCT_CONSENSUS_PCT

/-- The close time that is chosen, and whether there is consensus on it. -/
def consensusCloseTime (s : State N L T H W) (r : ConsensusResult N L T H) : NetTime × Bool :=
  if s.currPeerPositions.entries = [] then (asCloseTime A s r.position.closeTime, true)
  else
    let choice := (pollOf BitVec.toNat (closeTimeVotes A s r)).foldl (Choice.offer (threshConsensus A s)) ⟨0, threshVote A s, false⟩
    (choice.chosen, choice.declared)

/-- Our set is one that we have from now on. If it is new, the peers that propose it are counted. -/
def adoptSet (r : ConsensusResult N L T H) (s : State N L T H W) : State N L T H W :=
  if (s.acquired.lookup (A.id r.txns)).isSome then { s with result := some r }
  else
    let s := { s with acquired := s.acquired.insert (A.id r.txns) r.txns }
    { s with result := some (updatePeers A s r r.txns) }

/-- Our position is proposed if we are still participating. -/
def announce (p : ConsensusProposal N L H) (s : State N L T H W) : State N L T H W :=
  if !p.isBowOut && s.mode = .proposing then s.propose p else s

/-- A new position, with the set and the close time that it names. -/
def takePosition (newSet : Finset T) (closeTime : NetTime) (r : ConsensusResult N L T H) (s : State N L T H W) : State N L T H W :=
  let r := { r with txns := newSet, position := r.position.changePosition (A.id newSet) closeTime s.now }
  announce r.position (adoptSet A r s)

/-- The set of our next position, if we take one: our votes, the close time or the age of our position may call for it. -/
def ourNewSet (s : State N L T H W) (r : ConsensusResult N L T H) (newSet : Option (Finset T)) (closeTime : NetTime) :
    Option (Finset T) :=
  match newSet with
  | some newSet => some newSet
  | none =>
    if closeTime ≠ asCloseTime A s r.position.closeTime ∨ r.position.isStale (s.now - A.parms.proposeINTERVAL) then some r.txns
    else none

/-- We take a new position if there is a reason to. -/
def settlePosition (newSet : Option (Finset T)) (closeTime : NetTime × Bool) (r : ConsensusResult N L T H) (s : State N L T H W) :
    State N L T H W :=
  let s := { s with haveCloseTimeConsensus := closeTime.2, result := some r }
  match ourNewSet A s r newSet closeTime.1 with
  | none => s
  | some newSet => takePosition A newSet closeTime.1 r s

/-- The state once the stale positions are removed. -/
def fresh (s : State N L T H W) : State N L T H W := { s with currPeerPositions := freshPositions A s }

def updateOurPositions (s : State N L T H W) (r : ConsensusResult N L T H) : State N L T H W :=
  let r := removeStale A s r
  let s := fresh A s
  let newSet := revote A s r
  let r := updateVotes A s r
  settlePosition A newSet (consensusCloseTime A s r) r s

/-- Stop proposing. -/
def leaveConsensus (s : State N L T H W) : State N L T H W :=
  if s.mode = .proposing then
    match s.result with
    | none => s.setMode .observing
    | some r =>
      if r.position.isBowOut then s.setMode .observing
      else
        let r := { r with position := r.position.bowOut s.now }
        ({ s with result := some r }.propose r.position).setMode .observing
  else s

/-! ## The phases -/

/-- The result with which the ledger is closed, as the application's `onClose` builds it. -/
def onClose (s : State N L T H W) : ConsensusResult N L T H × W :=
  let closed := A.onClose s.previousLedger s.now s.mode s.world
  ({ txns := closed.1.1
     position := ⟨closed.1.2.1, A.id closed.1.1, s.now, closed.1.2.2, ConsensusProposal.seqJoin, A.nodeID⟩
     disputes := ∅, compares := ∅, roundTime := ConsensusTimer.reset 0, proposers := 0, state := .no }, closed.2)

/-- Disputes with every peer whose set we have. -/
def disputePeers (s : State N L T H W) (r : ConsensusResult N L T H) : ConsensusResult N L T H :=
  s.currPeerPositions.entries.foldl
    (fun r pit =>
      match s.acquired.lookup pit.2.position with
      | none => r
      | some set => createDisputes A s r set) r

/-- The first position of a round is taken, and proposed if we propose. -/
def takeStance (r : ConsensusResult N L T H) (world : W) (s : State N L T H W) : State N L T H W :=
  let s : State N L T H W :=
    { s with
      phase := .establish, rawCloseTimes := { s.rawCloseTimes with self := s.now }, world := world, result := some r
      acquired := if (s.acquired.lookup (A.id r.txns)).isSome then s.acquired else s.acquired.insert (A.id r.txns) r.txns }
  if s.mode = .proposing then s.propose r.position else s

def closeLedger (s : State N L T H W) : Except String (State N L T H W) :=
  if s.result.isSome then .error "we already have a position"
  else
    let closed := onClose A s
    let clock := A.clock closed.2
    let r := { closed.1 with roundTime := ConsensusTimer.reset clock.1 }
    let s := takeStance A r clock.2 s
    .ok { s with result := some (disputePeers A s r) }

/-- Milliseconds since the last ledger closed, by its close time or, if that is of no use, by our own clock. -/
def sinceClose (s : State N L T H W) : ℤ :=
  let previousCloseCorrect :=
    s.mode ≠ .wrongLedger ∧ s.previousLedger.closeAgree = true ∧
      s.previousLedger.closeTime.toNat ≠ s.previousLedger.parentCloseTime.toNat + 1
  let lastCloseTime := if previousCloseCorrect then s.previousLedger.closeTime else s.prevCloseTime
  ((s.now.toNat : ℤ) - lastCloseTime.toNat) * 1000

def phaseOpen (s : State N L T H W) : Except String (State N L T H W) :=
  let anyTransactions := A.hasOpenTransactions s.world
  let proposersValidated := A.proposersValidated s.prevLedgerID anyTransactions.2
  let clock := A.clock proposersValidated.2
  let s := { s with world := clock.2, openTime := s.openTime.tick clock.1 }
  let idleInterval := max A.parms.ledgerIDLE_INTERVAL ((2 * s.previousLedger.closeTimeResolution).toNat * 1000)
  if shouldCloseLedger anyTransactions.1 s.prevProposers s.currPeerPositions.entries.length proposersValidated.1 s.prevRoundTime
      (sinceClose s) s.openTime.dur idleInterval A.parms then closeLedger A s
  else .ok s

/-- Whether we agree with our peers. -/
def haveConsensus (s : State N L T H W) (r : ConsensusResult N L T H) : State N L T H W × Bool :=
  let agree := (s.currPeerPositions.entries.filter fun it => it.2.position = r.position.position).length
  let currentFinished := A.proposersFinished s.previousLedger s.prevLedgerID s.world
  let state :=
    checkConsensus s.prevProposers s.currPeerPositions.entries.length agree currentFinished.1 s.prevRoundTime r.roundTime.dur A.parms
      (s.mode = .proposing)
  ({ s with world := currentFinished.2, result := some { r with state := state } }, state ≠ .no)

/-- The round ends if nothing holds it up. -/
def acceptLedger (s : State N L T H W) (r : ConsensusResult N L T H) : State N L T H W :=
  let pause := A.shouldPause s s.world
  let s := { s with world := pause.2 }
  if pause.1 then s
  else
    let consensus := haveConsensus A s r
    let s := consensus.1
    if !consensus.2 || !s.haveCloseTimeConsensus then s
    else { s with phase := .accepted, prevProposers := s.currPeerPositions.entries.length, prevRoundTime := r.roundTime.dur }

def phaseEstablish (s : State N L T H W) : Except String (State N L T H W) :=
  match s.result with
  | none => .error "can only establish consensus if we already took a stance"
  | some r =>
    let clock := A.clock s.world
    let r := { r with roundTime := r.roundTime.tick clock.1, proposers := s.currPeerPositions.entries.length }
    let convergePercent := (r.roundTime.dur * 100).tdiv (max s.prevRoundTime A.parms.avMIN_CONSENSUS_TIME)
    let s := { s with world := clock.2, result := some r, convergePercent := convergePercent }
    -- give everyone a chance to take an initial position
    if r.roundTime.dur < A.parms.ledgerMIN_CONSENSUS then .ok s
    else
      let s := updateOurPositions A s r
      match s.result with
      | none => .error "must have a stance if we are checking for consensus"
      | some r => .ok (acceptLedger A s r)

/-! ## Rounds -/

/-- The state at the start of a round, before the proposals that we have already seen are looked at. -/
def resetRound (now : NetTime) (prevLedgerID : L) (prevLedger : Ledger L) (mode : ConsensusMode) (s : State N L T H W) :
    State N L T H W :=
  let s := { s with phase := .opened, rounds := ⟨[], []⟩ :: s.rounds }.setMode mode
  let clock := A.clock s.world
  { s with
    now := now, prevLedgerID := prevLedgerID, previousLedger := prevLedger, result := none, convergePercent := 0
    haveCloseTimeConsensus := false, openTime := ConsensusTimer.reset clock.1, world := clock.2, currPeerPositions := ∅
    acquired := ∅, rawCloseTimes := ⟨fun _ => 0, 0⟩, deadNodes := ∅
    closeResolution := getNextLedgerTimeResolution prevLedger.closeTimeResolution prevLedger.closeAgree (prevLedger.seq + 1) }

/-- `timer` is what the timer does. -/
def startRoundInternal (timer : NetTime → State N L T H W → Except String (State N L T H W)) (now : NetTime) (prevLedgerID : L)
    (prevLedger : Ledger L) (mode : ConsensusMode) (s : State N L T H W) : Except String (State N L T H W) :=
  let s := playbackProposals A (resetRound A now prevLedgerID prevLedger mode s)
  -- we may be falling behind: don't wait for the timer
  if s.prevProposers / 2 < s.currPeerPositions.entries.length then timer s.now s else .ok s

/-- The positions and disputes of another ledger are dropped, and what we have seen for this one is looked at again. -/
def switchLedger (lgrId : L) (s : State N L T H W) : State N L T H W :=
  playbackProposals A
    { s with
      prevLedgerID := lgrId, result := s.result.map fun r => { r with disputes := ∅, compares := ∅ }, currPeerPositions := ∅
      rawCloseTimes := { s.rawCloseTimes with peers := fun _ => 0 }, deadNodes := ∅ }

/-- We stop proposing, and look at what our peers say of the ledger we should build on. -/
def outOfSync (lgrId : L) (s : State N L T H W) : State N L T H W :=
  let s := leaveConsensus s
  if s.prevLedgerID ≠ lgrId then switchLedger A lgrId s else s

def handleWrongLedger (timer : NetTime → State N L T H W → Except String (State N L T H W)) (lgrId : L) (s : State N L T H W) :
    Except String (State N L T H W) :=
  let s := outOfSync A lgrId s
  if s.previousLedger.id = s.prevLedgerID then .ok s
  else
    let newLedger := A.acquireLedger s.prevLedgerID s.world
    let s := { s with world := newLedger.2 }
    match newLedger.1 with
    | some newLedger => startRoundInternal A timer s.now lgrId newLedger .switchedLedger s
    | none => .ok (s.setMode .wrongLedger)

def checkLedger (timer : NetTime → State N L T H W → Except String (State N L T H W)) (s : State N L T H W) :
    Except String (State N L T H W) :=
  let netLgr := A.getPrevLedger s.prevLedgerID s.previousLedger s.mode s.world
  let s := { s with world := netLgr.2 }
  if netLgr.1 ≠ s.prevLedgerID ∨ s.previousLedger.id ≠ s.prevLedgerID then handleWrongLedger A timer netLgr.1 s else .ok s

/-- What the phase we are in does. -/
def phaseEntry (s : State N L T H W) : Except String (State N L T H W) :=
  match s.phase with
  | .opened => phaseOpen A s
  | .establish => phaseEstablish A s
  | .accepted => .ok s

/-- The timer, at most `depth` times within itself. -/
def timerEntry : ℕ → NetTime → State N L T H W → Except String (State N L T H W)
  | 0, _, _ => .error "out of depth"
  | depth + 1, now, s =>
    if s.phase = .accepted then .ok s
    else do
      -- this may change the phase
      let s ← checkLedger A (timerEntry depth) { s with now := now }
      phaseEntry A s

/-- The last close time is ours, or in the first round the seed ledger's; proposals of peers that are no longer trusted are dropped. -/
def prepareRound (prevLedger : Ledger L) (nowUntrusted : List N) (s : State N L T H W) : State N L T H W :=
  let s :=
    if s.firstRound then
      { s with prevRoundTime := A.parms.ledgerIDLE_INTERVAL, prevCloseTime := prevLedger.closeTime, firstRound := false }
    else { s with prevCloseTime := s.rawCloseTimes.self }
  { s with recentPeerPositions := nowUntrusted.foldl (fun recent n => recent.erase n) s.recentPeerPositions }

def startRound (depth : ℕ) (now : NetTime) (prevLedgerID : L) (prevLedger : Ledger L) (nowUntrusted : List N) (proposing : Bool)
    (s : State N L T H W) : Except String (State N L T H W) :=
  let s := prepareRound A prevLedger nowUntrusted s
  let startMode := if proposing then ConsensusMode.proposing else ConsensusMode.observing
  if prevLedger.id = prevLedgerID then startRoundInternal A (timerEntry A depth) now prevLedgerID prevLedger startMode s
  else
    -- we were handed the wrong ledger
    let newLedger := A.acquireLedger prevLedgerID s.world
    let s := { s with world := newLedger.2 }
    match newLedger.1 with
    | some newLedger => startRoundInternal A (timerEntry A depth) now prevLedgerID newLedger startMode s
    | none => startRoundInternal A (timerEntry A depth) now prevLedgerID prevLedger .wrongLedger s

def simulate (now : NetTime) (consensusDelay : Option ℤ) (s : State N L T H W) : Except String (State N L T H W) := do
  let s ← closeLedger A { s with now := now }
  match s.result with
  | none => .error "no position"
  | some r =>
    let r := { r with roundTime := r.roundTime.advance (consensusDelay.getD 100), proposers := s.currPeerPositions.entries.length }
    .ok { s with
      result := some r, prevProposers := s.currPeerPositions.entries.length, prevRoundTime := r.roundTime.dur, phase := .accepted }

end ScfChain.Consensus.Round
