import ScfChain.Consensus.Round.Engine

/-!
# Runs

A `Consensus` object is told to start a round, of proposals and of sets of transactions, and of the time. `Kept A I` says what has to
be shown of a property `I` for it to hold throughout a run; it names the places where positions, sets, disputes and what the
application is told do change.
-/

set_option linter.unusedSectionVars false

namespace ScfChain.Consensus.Round

open ScfChain.Data

variable {N L T H W : Type} [DecidableEq N] [DecidableEq L] [DecidableEq T] [DecidableEq H] {A : Adaptor N L T H W}

/-- The states agree on the phase and our mode, the sets, our result, the positions of the peers, and what the application was
told. -/
structure Frame (s s' : State N L T H W) : Prop where
  phase : s'.phase = s.phase
  mode : s'.mode = s.mode
  acquired : s'.acquired = s.acquired
  result : s'.result = s.result
  currPeerPositions : s'.currPeerPositions = s.currPeerPositions
  rounds : s'.rounds = s.rounds

theorem frame_recordCloseTime (p : ConsensusProposal N L H) (s : State N L T H W) : Frame s (recordCloseTime p s) := by
  unfold recordCloseTime
  split_ifs <;> exact ⟨rfl, rfl, rfl, rfl, rfl, rfl⟩

theorem frame_prepareRound (prevLedger : Ledger L) (nowUntrusted : List N) (s : State N L T H W) :
    Frame s (prepareRound A prevLedger nowUntrusted s) := by
  unfold prepareRound
  dsimp only
  split_ifs <;> exact ⟨rfl, rfl, rfl, rfl, rfl, rfl⟩

structure Kept (A : Adaptor N L T H W) (I : State N L T H W → Prop) : Prop where
  frame : ∀ {s}, I s → ∀ {s'}, Frame s s' → I s'
  retimed : ∀ {s : State N L T H W}, I s → ∀ {r}, s.result = some r → ∀ roundTime proposers state,
    I { s with result := some { r with roundTime := roundTime, proposers := proposers, state := state } }
  accepted : ∀ {s : State N L T H W}, I s → I { s with phase := .accepted }
  reset : ∀ {s} now prevLedgerID prevLedger mode, I s → I (resetRound A now prevLedgerID prevLedger mode s)
  proposal : ∀ {s} now p, I s → I (peerProposalInternal A now p s).2
  txSet : ∀ {s} now set, I s → I (gotTxSet A now set s)
  leave : ∀ {s : State N L T H W}, I s → I (leaveConsensus s)
  cleared : ∀ {s : State N L T H W}, I s →
    I { s with result := s.result.map fun r => { r with disputes := ∅, compares := ∅ }, currPeerPositions := ∅ }
  wrong : ∀ {s : State N L T H W}, I s → I (s.setMode .wrongLedger)
  close : ∀ {s s'}, I s → closeLedger A s = .ok s' → I s'
  update : ∀ {s : State N L T H W} {r}, s.result = some r → I s → I (updateOurPositions A s r)

namespace Kept

variable {I : State N L T H W → Prop} (h : Kept A I) {s s' : State N L T H W}

include h

theorem playback (hs : I s) : I (playbackProposals A s) := by
  unfold playbackProposals
  generalize s.recentPeerPositions.entries.flatMap (fun it => it.2) = props
  induction props generalizing s with
  | nil => exact hs
  | cons pos props ih =>
    rw [List.foldl_cons]
    refine ih ?_
    split_ifs
    · exact h.proposal _ _ hs
    · exact hs

theorem switch (lgrId : L) (hs : I s) : I (switchLedger A lgrId s) :=
  h.playback (h.frame (h.cleared hs) ⟨rfl, rfl, rfl, rfl, rfl, rfl⟩)

theorem closes (hs : I s) : Spec False (closeLedger A s) I := ⟨fun _ => h.close hs, False.elim⟩

theorem opened (hs : I s) : Spec False (phaseOpen A s) I := by
  unfold phaseOpen
  dsimp only
  split_ifs
  · exact h.closes (h.frame hs ⟨rfl, rfl, rfl, rfl, rfl, rfl⟩)
  · exact .ok (h.frame hs ⟨rfl, rfl, rfl, rfl, rfl, rfl⟩)

theorem accept {r : ConsensusResult N L T H} (hr : s.result = some r) (hs : I s) : I (acceptLedger A s r) := by
  have hpaused : I { s with world := (A.shouldPause s s.world).2 } := h.frame hs ⟨rfl, rfl, rfl, rfl, rfl, rfl⟩
  have hstate : ∀ state, I { s with world := (A.shouldPause s s.world).2, result := some { r with state := state } } := fun state =>
    h.retimed hpaused hr r.roundTime r.proposers state
  unfold acceptLedger haveConsensus
  dsimp only
  split_ifs
  · exact hpaused
  · exact h.frame (hstate _) ⟨rfl, rfl, rfl, rfl, rfl, rfl⟩
  · exact h.frame (h.accepted (hstate _)) ⟨rfl, rfl, rfl, rfl, rfl, rfl⟩

theorem establish (hs : I s) : Spec False (phaseEstablish A s) I := by
  unfold phaseEstablish
  split
  · exact .error id
  · rename_i r hr
    dsimp only
    have hticked := h.retimed hs hr (r.roundTime.tick (A.clock s.world).1) s.currPeerPositions.entries.length r.state
    split_ifs
    · exact .ok (h.frame hticked ⟨rfl, rfl, rfl, rfl, rfl, rfl⟩)
    · split
      · exact .error id
      · rename_i r' hr'
        exact .ok (h.accept hr' (h.update rfl (h.frame hticked ⟨rfl, rfl, rfl, rfl, rfl, rfl⟩)))

theorem phase (hs : I s) : Spec False (phaseEntry A s) I := by
  unfold phaseEntry
  split
  · exact h.opened hs
  · exact h.establish hs
  · exact .ok hs

theorem outOfSync (lgrId : L) (hs : I s) : I (outOfSync A lgrId s) := by
  unfold Round.outOfSync
  dsimp only
  split_ifs
  · exact h.switch lgrId (h.leave hs)
  · exact h.leave hs

section

variable {timer : NetTime → State N L T H W → Except String (State N L T H W)} {now : NetTime} {prevLedgerID : L}
  {prevLedger : Ledger L} (htimer : ∀ now {s}, I s → Spec False (timer now s) I)

include htimer

theorem startInternal {mode : ConsensusMode} (hs : I s) :
    Spec False (startRoundInternal A timer now prevLedgerID prevLedger mode s) I := by
  have hplayed := h.playback (h.reset now prevLedgerID prevLedger mode hs)
  unfold startRoundInternal
  dsimp only
  split_ifs
  · exact htimer _ hplayed
  · exact .ok hplayed

theorem wrongLedger (lgrId : L) (hs : I s) : Spec False (handleWrongLedger A timer lgrId s) I := by
  have hsync := h.outOfSync lgrId hs
  unfold handleWrongLedger
  dsimp only
  generalize Round.outOfSync A lgrId s = s₁ at hsync ⊢
  split_ifs
  · exact .ok hsync
  · have hasked : I { s₁ with world := (A.acquireLedger s₁.prevLedgerID s₁.world).2 } :=
      h.frame hsync ⟨rfl, rfl, rfl, rfl, rfl, rfl⟩
    split
    · exact h.startInternal htimer hasked
    · exact .ok (h.wrong hasked)

theorem check (hs : I s) : Spec False (checkLedger A timer s) I := by
  have hasked : I { s with world := (A.getPrevLedger s.prevLedgerID s.previousLedger s.mode s.world).2 } :=
    h.frame hs ⟨rfl, rfl, rfl, rfl, rfl, rfl⟩
  unfold checkLedger
  dsimp only
  split_ifs
  · exact h.wrongLedger htimer _ hasked
  · exact .ok hasked

end

theorem timer (depth : ℕ) (now : NetTime) {s : State N L T H W} (hs : I s) : Spec False (timerEntry A depth now s) I := by
  induction depth generalizing now s with
  | zero => exact .error id
  | succ depth ih =>
    unfold timerEntry
    split_ifs
    · exact .ok hs
    · refine (h.check ih (h.frame hs ?_)).bind fun _ => h.phase
      exact ⟨rfl, rfl, rfl, rfl, rfl, rfl⟩

theorem start {depth : ℕ} {now : NetTime} {prevLedgerID : L} {prevLedger : Ledger L} {nowUntrusted : List N} {proposing : Bool}
    (hs : I s) : Spec False (startRound A depth now prevLedgerID prevLedger nowUntrusted proposing s) I := by
  have hfirst := h.frame hs (frame_prepareRound (A := A) prevLedger nowUntrusted s)
  unfold startRound
  dsimp only
  generalize prepareRound A prevLedger nowUntrusted s = s₁ at hfirst ⊢
  split
  · exact h.startInternal (h.timer depth) hfirst
  · split
    · exact h.startInternal (h.timer depth) (h.frame hfirst ⟨rfl, rfl, rfl, rfl, rfl, rfl⟩)
    · exact h.startInternal (h.timer depth) (h.frame hfirst ⟨rfl, rfl, rfl, rfl, rfl, rfl⟩)

theorem simulated {now : NetTime} {consensusDelay : Option ℤ} (hs : I s) : Spec False (simulate A now consensusDelay s) I := by
  refine (h.closes (h.frame hs ?_)).bind fun s₁ hclosed => ?_
  · exact ⟨rfl, rfl, rfl, rfl, rfl, rfl⟩
  split
  · exact .error id
  · rename_i r hr
    have htimed := h.retimed hclosed hr (r.roundTime.advance (consensusDelay.getD 100)) s₁.currPeerPositions.entries.length r.state
    exact .ok (h.frame (h.accepted htimed) ⟨rfl, rfl, rfl, rfl, rfl, rfl⟩)

end Kept

/-! ## Events -/

/-- What a `Consensus` object is told, with how often the timer may look at itself. -/
inductive Event (N L T H : Type)
  | startRound (depth : ℕ) (now : NetTime) (prevLedgerID : L) (prevLedger : Ledger L) (nowUntrusted : List N) (proposing : Bool)
  | peerProposal (now : NetTime) (p : ConsensusProposal N L H)
  | gotTxSet (now : NetTime) (txSet : Finset T)
  | timerEntry (depth : ℕ) (now : NetTime)
  | simulate (now : NetTime) (consensusDelay : Option ℤ)

def step (A : Adaptor N L T H W) : Event N L T H → State N L T H W → Except String (State N L T H W)
  | .startRound depth now prevLedgerID prevLedger nowUntrusted proposing, s =>
    startRound A depth now prevLedgerID prevLedger nowUntrusted proposing s
  | .peerProposal now p, s => .ok (peerProposal A now p s).2
  | .gotTxSet now txSet, s => .ok (gotTxSet A now txSet s)
  | .timerEntry depth now, s => timerEntry A depth now s
  | .simulate now consensusDelay, s => simulate A now consensusDelay s

/-- From a new object, the events lead to `s`. -/
def Run (A : Adaptor N L T H W) (events : List (Event N L T H)) (s : State N L T H W) : Prop :=
  ∃ prevLedgerID previousLedger world,
    events.foldlM (fun s e => step A e s) (State.created prevLedgerID previousLedger world) = .ok s

theorem Kept.step {I : State N L T H W → Prop} (h : Kept A I) {e : Event N L T H} {s : State N L T H W} (hs : I s) :
    Spec False (Round.step A e s) I := by
  cases e with
  | startRound depth now prevLedgerID prevLedger nowUntrusted proposing => exact h.start hs
  | peerProposal now p => exact .ok (h.proposal now p (h.frame hs ⟨rfl, rfl, rfl, rfl, rfl, rfl⟩))
  | gotTxSet now txSet => exact .ok (h.txSet now txSet hs)
  | timerEntry depth now => exact h.timer depth now hs
  | simulate now consensusDelay => exact h.simulated hs

theorem Kept.run {I : State N L T H W → Prop} (h : Kept A I)
    (hcreated : ∀ prevLedgerID previousLedger world, I (State.created prevLedgerID previousLedger world))
    {events : List (Event N L T H)} {s : State N L T H W} (hrun : Run A events s) : I s := by
  obtain ⟨prevLedgerID, previousLedger, world, hsteps⟩ := hrun
  have hstart := hcreated prevLedgerID previousLedger world
  exact (Spec.foldlM events hstart fun _ _ _ hs => h.step hs).post s hsteps

/-! ## Assertions -/

variable {s : State N L T H W} {text : String}

/-- Before a round is over, we have a position iff the ledger is closed. -/
def Staged (s : State N L T H W) : Prop := s.phase = .accepted ∨ (s.result.isSome ↔ s.phase = .establish)

theorem staged_reset (now lgrId ledger mode) : Staged (resetRound A now lgrId ledger mode s) := by
  simp [Staged, resetRound, State.setMode]

theorem Staged.gotTxSet (hs : Staged s) (now set) : Staged (gotTxSet A now set s) := by
  unfold Round.gotTxSet
  grind [Staged]

theorem staged_update (r : ConsensusResult N L T H) :
    (updateOurPositions A s r).phase = s.phase ∧ (updateOurPositions A s r).result.isSome := by
  unfold updateOurPositions settlePosition takePosition announce adoptSet fresh
  grind [State.propose]

theorem kept_staged (A : Adaptor N L T H W) : Kept A Staged where
  frame hs _ f := by grind [Staged, f.phase, f.result]
  retimed hs _ hr _ _ _ := by grind [Staged]
  accepted _ := .inl rfl
  reset _ _ _ _ _ := staged_reset ..
  proposal _ _ hs := by
    unfold peerProposalInternal processPosition recordCloseTime peerBowsOut
    grind [Staged, Staged.gotTxSet]
  txSet now set hs := hs.gotTxSet now set
  leave hs := by
    unfold leaveConsensus
    grind [Staged, State.setMode, State.propose]
  cleared hs := by grind [Staged]
  wrong hs := hs
  close hs h := by
    unfold closeLedger takeStance at h
    grind [Staged, State.propose]
  update hr hs := by grind [Staged, staged_update]

theorem Staged.phaseEntry (hs : Staged s) : phaseEntry A s ≠ .error text := by
  unfold Round.phaseEntry phaseOpen closeLedger phaseEstablish
  dsimp only
  repeat' split
  all_goals grind [Staged, staged_update]

theorem startRoundInternal_error {timer now lgrId ledger mode}
    (h : startRoundInternal A timer now lgrId ledger mode s = .error text) : ∃ now s', Staged s' ∧ timer now s' = .error text := by
  have hs := (kept_staged A).playback (staged_reset (A := A) (s := s) now lgrId ledger mode)
  unfold startRoundInternal at h
  grind

theorem timerEntry_error (depth now) (hs : Staged s) (h : timerEntry A depth now s = .error text) : text = "out of depth" := by
  induction depth generalizing now s with
  | zero => exact (Except.error.inj h).symm
  | succ depth ih =>
    have hs' := ((kept_staged A).check ((kept_staged A).timer depth) (s := { s with now := now }) hs).post
    unfold timerEntry at h
    split_ifs at h
    cases hcheck : checkLedger A (timerEntry A depth) { s with now := now } with
    | error e =>
      cases hcheck ▸ h
      unfold checkLedger handleWrongLedger at hcheck
      grind [startRoundInternal_error]
    | ok s' => exact absurd (hcheck ▸ h) (hs' s' hcheck).phaseEntry

/-- **What a round asserts of our position holds**, unless `simulate` finds one. -/
theorem assertions_hold {events e} (hrun : Run A events s) (h : step A e s = .error text) :
    text = "out of depth" ∨ (∃ now delay, e = .simulate now delay) ∧ s.result.isSome := by
  have hs := (kept_staged A).run (fun _ _ _ => .inl rfl) hrun
  cases e with
  | startRound =>
    unfold step startRound at h
    grind [startRoundInternal_error, timerEntry_error]
  | peerProposal | gotTxSet => cases h
  | timerEntry depth now => exact .inl (timerEntry_error depth now hs h)
  | simulate =>
    unfold step simulate closeLedger at h
    grind [ok_bind]

theorem assertions_hold_twice : ∃ s, Run Adaptor.alone [.simulate 0 none] s ∧
    step Adaptor.alone (.simulate 0 none) s = .error "we already have a position" ∧ s.result.isSome := by
  have hrun : Run Adaptor.alone [.simulate 0 none] _ := ⟨1, ⟨1, 5, 30, 20, 30, true⟩, (), rfl⟩
  exact ⟨_, hrun, rfl, ((assertions_hold hrun (e := .simulate 0 none) rfl).resolve_left (by decide)).2⟩

end ScfChain.Consensus.Round
