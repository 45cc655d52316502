import ScfChain.Consensus.Round.OurPosition

/-!
# Our own proposals

What we propose in one round has ever higher sequences, from the first position of the round on, and names sets that we have. A
bow-out has the highest sequence there is, so nothing is proposed after it.

* `Proper log` : this of what was proposed in one round;
* `Orderly s` : this of all rounds, with what the round we are in needs for its next proposal.
-/

set_option linter.unusedSectionVars false

namespace ScfChain.Consensus.Round

open ScfChain.Data ConsensusProposal

variable {N L T H W : Type} [DecidableEq N] [DecidableEq L] [DecidableEq T] [DecidableEq H] {A : Adaptor N L T H W}
  {s s' : State N L T H W}

structure Proper (log : RoundLog N L H) : Prop where
  increasing : log.proposals.Pairwise fun p q => p.1.proposeSeq.toNat < q.1.proposeSeq.toNat
  initial : ∀ p ∈ log.proposals.head?, p.1.proposeSeq = seqJoin
  acquired : ∀ p ∈ log.proposals, p.2 = true
  proposing : log.proposals ≠ [] → .proposing ∈ log.modes

/-- What is known of the round we are in. -/
structure Current (mode : ConsensusMode) (position : Option (ConsensusProposal N L H)) (log : RoundLog N L H) : Prop where
  silent : position = none → log.proposals = []
  told : mode = .proposing → ConsensusMode.proposing ∈ log.modes
  bound : ∀ p, position = some p → ∀ q ∈ log.proposals, q.1.proposeSeq.toNat ≤ p.proposeSeq.toNat
  begun : ∀ p, position = some p → mode = .proposing → log.proposals ≠ []

structure Orderly (s : State N L T H W) : Prop where
  proper : ∀ log ∈ s.rounds, Proper log
  current : ∀ log ∈ s.rounds.head?, Current s.mode (s.result.map (·.position)) log

theorem Orderly.of_eq (h : Orderly s) (hmode : s'.mode = s.mode) (hresult : s'.result.map (·.position) = s.result.map (·.position))
    (hrounds : s'.rounds = s.rounds) : Orderly s' := by
  refine ⟨by rw [hrounds]; exact h.proper, ?_⟩
  rw [hrounds, hmode, hresult]
  exact h.current

theorem Proper.not_bowOut {log : RoundLog N L H} (h : Proper log) {p : ConsensusProposal N L H × Bool}
    (hp : p ∈ log.proposals.dropLast) : p.1.isBowOut = false := by
  have hne : log.proposals ≠ [] := by
    rintro hnil
    rw [hnil] at hp
    cases hp
  have hpairs := h.increasing
  rw [← List.dropLast_append_getLast hne] at hpairs
  have hlt := (List.pairwise_append.mp hpairs).2.2 p hp _ (List.mem_singleton_self _)
  have hmax := (log.proposals.getLast hne).1.proposeSeq.isLt
  refine Bool.eq_false_iff.mpr fun hbow => ?_
  have hleave : p.1.proposeSeq.toNat = 2 ^ 32 - 1 := congrArg BitVec.toNat (beq_iff_eq.mp hbow)
  omega

/-! ## What the application is told -/

variable {p : ConsensusProposal N L H} {r : ConsensusResult N L T H}

theorem Proper.tell {log : RoundLog N L H} (h : Proper log)
    (hlater : ∀ q ∈ log.proposals, q.1.proposeSeq.toNat < p.proposeSeq.toNat) (hfirst : log.proposals = [] → p.proposeSeq = seqJoin)
    (hmode : .proposing ∈ log.modes) : Proper { log with proposals := log.proposals ++ [(p, true)] } := by
  refine ⟨?_, fun q hq => ?_, fun q hq => ?_, fun _ => hmode⟩
  · refine List.pairwise_append.mpr ⟨h.increasing, List.pairwise_singleton _ _, fun q hq q' hq' => ?_⟩
    rw [List.mem_singleton.mp hq']
    exact hlater q hq
  · cases hproposals : log.proposals with
    | nil =>
      rw [hproposals] at hq
      rw [← Option.some.inj hq]
      exact hfirst hproposals
    | cons first rest =>
      rw [hproposals] at hq
      rw [← Option.some.inj hq]
      exact h.initial first (by rw [hproposals]; rfl)
  · rcases List.mem_append.mp hq with hq | hq
    · exact h.acquired q hq
    · rw [List.mem_singleton.mp hq]

theorem Orderly.propose (hproper : ∀ log ∈ s.rounds, Proper log)
    (hlater : ∀ log ∈ s.rounds.head?, ∀ q ∈ log.proposals, q.1.proposeSeq.toNat < p.proposeSeq.toNat)
    (hfirst : ∀ log ∈ s.rounds.head?, log.proposals = [] → p.proposeSeq = seqJoin)
    (hmode : ∀ log ∈ s.rounds.head?, .proposing ∈ log.modes) (hacquired : (s.acquired.lookup p.position).isSome = true)
    (hposition : s.result.map (·.position) = some p) : Orderly (s.propose p) := by
  unfold State.propose
  rw [hacquired]
  cases hrounds : s.rounds with
  | nil =>
    refine ⟨fun log hlog => ?_, fun log hlog => ?_⟩
    · cases hlog
    · cases hlog
  | cons log rounds =>
    rw [hrounds] at hproper hlater hfirst hmode
    have hlog := (hproper log List.mem_cons_self).tell (hlater log rfl) (hfirst log rfl) (hmode log rfl)
    refine ⟨fun log' hlog' => ?_, fun log' hlog' => ?_⟩
    · rcases List.mem_cons.mp hlog' with rfl | hlog'
      · exact hlog
      · exact hproper log' (List.mem_cons_of_mem _ hlog')
    · obtain rfl := Option.some.inj hlog'
      refine ⟨fun hnone => ?_, fun _ => hmode log rfl, fun p' hp' q hq => ?_, fun _ _ _ => ?_⟩
      · cases hposition.symm.trans hnone
      · rw [← Option.some.inj (hposition.symm.trans hp')]
        rcases List.mem_append.mp hq with hq | hq
        · exact (hlater log rfl q hq).le
        · rw [List.mem_singleton.mp hq]
      · exact List.append_ne_nil_of_right_ne_nil _ (by simp)

theorem Orderly.setMode (h : Orderly s) {mode : ConsensusMode} (hmode : mode ≠ .proposing) : Orderly (s.setMode mode) := by
  cases hrounds : s.rounds with
  | nil =>
    have heq : (s.setMode mode).rounds = [] := by rw [State.setMode, hrounds]; rfl
    refine ⟨fun log hlog => ?_, fun log hlog => ?_⟩
    · rw [heq] at hlog
      cases hlog
    · rw [heq] at hlog
      cases hlog
  | cons log rounds =>
    have heq : (s.setMode mode).rounds = { log with modes := log.modes ++ [mode] } :: rounds := by rw [State.setMode, hrounds]; rfl
    have hlog := h.proper log (by rw [hrounds]; exact List.mem_cons_self)
    have hcurrent := h.current log (by rw [hrounds]; rfl)
    refine ⟨fun log' hlog' => ?_, fun log' hlog' => ?_⟩
    · rw [heq] at hlog'
      rcases List.mem_cons.mp hlog' with rfl | hlog'
      · exact ⟨hlog.increasing, hlog.initial, hlog.acquired, fun hne => List.mem_append_left _ (hlog.proposing hne)⟩
      · exact h.proper log' (by rw [hrounds]; exact List.mem_cons_of_mem _ hlog')
    · rw [heq] at hlog'
      obtain rfl := Option.some.inj hlog'
      exact ⟨hcurrent.silent, fun heq => absurd heq hmode, hcurrent.bound, fun _ _ heq => absurd heq hmode⟩

/-! ## Where we propose -/

theorem toNat_lt_seqLeave (h : ¬ p.isBowOut = true) : p.proposeSeq.toNat < seqLeave.toNat := by
  have hlt := p.proposeSeq.isLt
  have hne : p.proposeSeq.toNat ≠ seqLeave.toNat := fun heq => h (beq_iff_eq.mpr (BitVec.eq_of_toNat_eq heq))
  have hmax : seqLeave.toNat = 2 ^ 32 - 1 := rfl
  omega

theorem Orderly.leave (h : Orderly s) (hsound : Sound A s) : Orderly (leaveConsensus s) := by
  have hmode : ConsensusMode.observing ≠ .proposing := by decide
  unfold leaveConsensus
  split
  · rename_i hproposing
    split
    · exact h.setMode hmode
    · rename_i r hr
      split
      · exact h.setMode hmode
      · rename_i hbow
        have hmap : s.result.map (·.position) = some r.position := by rw [hr]; rfl
        have hstance := hsound.stance r hr
        refine Orderly.setMode ?_ hmode
        refine Orderly.propose h.proper ?_ ?_ ?_ ?_ rfl
        · intro log hlog q hq
          exact ((h.current log hlog).bound _ hmap q hq).trans_lt (toNat_lt_seqLeave hbow)
        · exact fun log hlog hnil => absurd hnil ((h.current log hlog).begun _ hmap hproposing)
        · exact fun log hlog => (h.current log hlog).told hproposing
        · show (s.acquired.lookup r.position.position).isSome = true
          rw [hstance.position, hstance.ours]
          rfl
  · exact h

theorem toNat_changePosition (p : ConsensusProposal N L H) (position : H) (closeTime now : NetTime) :
    p.proposeSeq.toNat ≤ (p.changePosition position closeTime now).proposeSeq.toNat ∧
    (¬ (p.changePosition position closeTime now).isBowOut = true →
      p.proposeSeq.toNat < (p.changePosition position closeTime now).proposeSeq.toNat) := by
  by_cases hleave : p.proposeSeq = seqLeave
  · have heq : (p.changePosition position closeTime now).proposeSeq = p.proposeSeq := if_pos hleave
    rw [heq]
    refine ⟨le_rfl, fun hnot => absurd ?_ hnot⟩
    exact beq_iff_eq.mpr (heq.trans hleave)
  · have heq : (p.changePosition position closeTime now).proposeSeq = p.proposeSeq + 1 := if_neg hleave
    have hlt := toNat_lt_seqLeave (p := p) fun hbow => hleave (beq_iff_eq.mp hbow)
    have hsucc : (p.proposeSeq + 1).toNat = p.proposeSeq.toNat + 1 := by
      have hmax : seqLeave.toNat = 2 ^ 32 - 1 := rfl
      rw [BitVec.toNat_add, Nat.mod_eq_of_lt]
      · rfl
      · show p.proposeSeq.toNat + 1 < 2 ^ 32
        omega
    rw [heq, hsucc]
    exact ⟨Nat.le_succ _, fun _ => Nat.lt_succ_self _⟩

theorem mode_adoptSet (r : ConsensusResult N L T H) (s : State N L T H W) :
    (adoptSet A r s).mode = s.mode ∧ (adoptSet A r s).rounds = s.rounds ∧
      ((adoptSet A r s).acquired.lookup (A.id r.txns)).isSome = true ∧ (adoptSet A r s).result.map (·.position) = some r.position := by
  obtain ⟨r', hresult, -, hposition⟩ := result_adoptSet A r s
  refine ⟨?_, ?_, ?_, by rw [hresult, ← hposition]; rfl⟩
  · unfold adoptSet
    split_ifs <;> rfl
  · unfold adoptSet
    split_ifs <;> rfl
  · unfold adoptSet
    split_ifs with hold
    · exact hold
    · show ((s.acquired.insert (A.id r.txns) r.txns).lookup (A.id r.txns)).isSome = true
      rw [AList.lookup_insert]
      rfl

theorem Orderly.takePosition (h : Orderly s) (hr : s.result.map (·.position) = some r.position) (newSet : Finset T)
    (closeTime : NetTime) : Orderly (takePosition A newSet closeTime r s) := by
  obtain ⟨hle, hlt⟩ := toNat_changePosition r.position (A.id newSet) closeTime s.now
  obtain ⟨hmode, hrounds, hacquired, hposition⟩ := mode_adoptSet (A := A)
    { r with txns := newSet, position := r.position.changePosition (A.id newSet) closeTime s.now } s
  unfold Round.takePosition announce
  dsimp only
  generalize adoptSet A _ s = s₁ at hmode hrounds hacquired hposition
  have hproper := h.proper
  have hcurrent := h.current
  rw [← hrounds] at hproper hcurrent
  split
  · rename_i hannounce
    obtain ⟨hbow, hproposing⟩ := Bool.and_eq_true_iff.mp hannounce
    have hproposing : s.mode = .proposing := hmode ▸ of_decide_eq_true hproposing
    refine Orderly.propose hproper (fun log hlog q hq => ?_) (fun log hlog hnil => ?_) (fun log hlog => ?_) hacquired hposition
    · refine ((hcurrent log hlog).bound _ hr q hq).trans_lt (hlt fun hbow' => ?_)
      rw [hbow'] at hbow
      cases hbow
    · exact absurd hnil ((hcurrent log hlog).begun _ hr hproposing)
    · exact (hcurrent log hlog).told hproposing
  · refine ⟨hproper, fun log hlog => ?_⟩
    rw [hposition, hmode]
    have hlog := hcurrent log hlog
    refine ⟨fun hnone => ?_, hlog.told, fun p hp q hq => ?_, fun p hp hproposing => hlog.begun _ hr hproposing⟩
    · cases hnone
    · rw [← Option.some.inj hp]
      exact (hlog.bound _ hr q hq).trans hle

theorem Orderly.updateOurPositions (h : Orderly s) (hr : s.result = some r) : Orderly (updateOurPositions A s r) := by
  have hposition : (updateVotes A (fresh A s) (removeStale A s r)).position = r.position := (sameStance_removeStale A s r).2
  unfold Round.updateOurPositions settlePosition
  dsimp only
  generalize updateVotes A (fresh A s) (removeStale A s r) = r₁ at hposition
  generalize revote A (fresh A s) (removeStale A s r) = newSet
  generalize consensusCloseTime A (fresh A s) r₁ = closeTime
  have hstate : Orderly { fresh A s with haveCloseTimeConsensus := closeTime.2, result := some r₁ } := by
    refine h.of_eq rfl ?_ rfl
    rw [hr]
    exact congrArg some hposition
  split
  · exact hstate
  · exact hstate.takePosition rfl _ _

theorem sameStance_disputePeers (s : State N L T H W) (r : ConsensusResult N L T H) : SameStance r (disputePeers A s r) := by
  refine sameStance_foldl (fun r pit => ?_) _ r
  split
  · exact ⟨rfl, rfl⟩
  · exact sameStance_createDisputes A s r _

theorem Orderly.takeStance (h : Orderly s) (hnone : s.result = none) (hseq : r.position.proposeSeq = seqJoin)
    (hposition : r.position.position = A.id r.txns) (world : W) :
    Orderly (takeStance A r world s) := by
  have hresult : s.result.map (·.position) = none := by rw [hnone]; rfl
  unfold Round.takeStance
  dsimp only
  split
  · rename_i hproposing
    refine Orderly.propose h.proper (fun log hlog q hq => ?_) (fun _ _ _ => hseq) (fun log hlog => ?_) ?_ rfl
    · rw [(h.current log hlog).silent hresult] at hq
      cases hq
    · exact (h.current log hlog).told hproposing
    · show (AList.lookup r.position.position _).isSome = true
      rw [hposition]
      split
      · assumption
      · rw [AList.lookup_insert]
        rfl
  · rename_i hproposing
    refine ⟨h.proper, fun log hlog => ?_⟩
    have hsilent := (h.current log hlog).silent hresult
    refine ⟨fun hsome => ?_, fun hmode => absurd hmode hproposing, fun p _ q hq => ?_, fun _ _ hmode => absurd hmode hproposing⟩
    · cases hsome
    · rw [hsilent] at hq
      cases hq

theorem result_takeStance (r : ConsensusResult N L T H) (world : W) (s : State N L T H W) :
    (takeStance A r world s).result = some r := by
  unfold takeStance
  dsimp only
  split <;> rfl

theorem Orderly.closeLedger (h : Orderly s) (hrun : closeLedger A s = .ok s') : Orderly s' := by
  unfold Round.closeLedger at hrun
  split at hrun
  · cases hrun
  rename_i hnone
  obtain rfl := Except.ok.inj hrun
  have hstance := h.takeStance (A := A) (Option.not_isSome_iff_eq_none.mp hnone)
    (r := { (onClose A s).1 with roundTime := ConsensusTimer.reset (A.clock (onClose A s).2).1 }) rfl rfl (A.clock (onClose A s).2).2
  refine hstance.of_eq rfl ?_ rfl
  rw [result_takeStance]
  exact congrArg some (sameStance_disputePeers _ _).2

/-! ## Runs -/

theorem Orderly.map (h : Orderly s) {f : ConsensusResult N L T H → ConsensusResult N L T H} (hresult : s'.result = s.result.map f)
    (hmode : s'.mode = s.mode) (hrounds : s'.rounds = s.rounds) (hf : ∀ r, SameStance r (f r)) : Orderly s' := by
  refine h.of_eq hmode ?_ hrounds
  rw [hresult, Option.map_map]
  cases s.result with
  | none => rfl
  | some r => exact congrArg some (hf r).2

theorem Orderly.gotTxSet (h : Orderly s) (now : NetTime) (set : Finset T) : Orderly (gotTxSet A now set s) := by
  unfold Round.gotTxSet
  split
  · exact h
  dsimp only
  split
  · exact h.of_eq rfl rfl rfl
  · exact h.map rfl rfl rfl fun r => sameStance_updatePeers A _ r set

theorem Orderly.processPosition (h : Orderly s) (p : ConsensusProposal N L H) : Orderly (processPosition A p s) := by
  unfold Round.processPosition
  split
  · dsimp only
    split
    · exact h.of_eq rfl rfl rfl
    · refine Orderly.gotTxSet (h.of_eq ?_ ?_ ?_) _ _ <;> rfl
  · exact h.map rfl rfl rfl fun r => sameStance_updateDisputes A s r p.nodeID _

theorem Orderly.peerProposalInternal (h : Orderly s) (now : NetTime) (p : ConsensusProposal N L H) :
    Orderly (peerProposalInternal A now p s).2 := by
  have hnow : Orderly { s with now := now } := h.of_eq rfl rfl rfl
  unfold Round.peerProposalInternal
  split
  · exact h
  dsimp only
  split
  · exact hnow
  split
  · exact hnow
  split
  · exact hnow
  split
  · exact hnow.map rfl rfl rfl fun r => ⟨rfl, rfl⟩
  · have hframe := frame_recordCloseTime p { s with now := now, currPeerPositions := s.currPeerPositions.insert p.nodeID p }
    exact Orderly.processPosition (h.of_eq hframe.mode (by rw [hframe.result]) hframe.rounds) p

theorem kept_orderly (A : Adaptor N L T H W) : Kept A fun s => Sound A s ∧ Orderly s where
  frame h _ hframe := ⟨(kept_sound A).frame h.1 hframe, h.2.of_eq hframe.mode (by rw [hframe.result]) hframe.rounds⟩
  retimed h _ hr _ _ _ := ⟨(kept_sound A).retimed h.1 hr _ _ _, h.2.of_eq rfl (by rw [hr]; rfl) rfl⟩
  accepted h := ⟨(kept_sound A).accepted h.1, h.2.of_eq rfl rfl rfl⟩
  reset now prevLedgerID prevLedger mode h := by
    refine ⟨(kept_sound A).reset now prevLedgerID prevLedger mode h.1, fun log hlog => ?_, fun log hlog => ?_⟩
    · rcases List.mem_cons.mp hlog with rfl | hlog
      · refine ⟨List.Pairwise.nil, fun p hp => ?_, fun p hp => ?_, fun hne => absurd rfl hne⟩
        · cases hp
        · cases hp
      · exact h.2.proper log hlog
    · obtain rfl := Option.some.inj hlog
      refine ⟨fun _ => rfl, fun hmode => ?_, fun p hp => ?_, fun p hp => ?_⟩
      · exact List.mem_singleton.mpr hmode.symm
      · cases hp
      · cases hp
  proposal now p h := ⟨h.1.peerProposalInternal now p, h.2.peerProposalInternal now p⟩
  txSet now set h := ⟨h.1.gotTxSet now set, h.2.gotTxSet now set⟩
  leave h := ⟨h.1.leaveConsensus, h.2.leave h.1⟩
  cleared h := ⟨(kept_sound A).cleared h.1, h.2.map rfl rfl rfl fun r => ⟨rfl, rfl⟩⟩
  wrong h := ⟨(kept_sound A).wrong h.1, h.2.setMode (by decide)⟩
  close h hrun := ⟨h.1.closeLedger hrun, h.2.closeLedger hrun⟩
  update hr h := ⟨h.1.updateOurPositions hr, h.2.updateOurPositions hr⟩

/-- In every round of every run, what we propose has strictly increasing sequences, the first being the initial one; nothing follows a
bow-out; every proposed position names a set that we had when we proposed it; and the round was one in which we were proposing. -/
theorem own_proposals {events : List (Event N L T H)} (hrun : Run A events s) :
    ∀ log ∈ s.rounds,
      (log.proposals.Pairwise fun p q => p.1.proposeSeq.toNat < q.1.proposeSeq.toNat) ∧
      (∀ p ∈ log.proposals.head?, p.1.isInitial = true) ∧
      (∀ p ∈ log.proposals.dropLast, p.1.isBowOut = false) ∧
      (∀ p ∈ log.proposals, p.2 = true) ∧
      (ConsensusMode.proposing ∉ log.modes → log.proposals = []) := by
  have horderly := ((kept_orderly A).run (fun prevLedgerID previousLedger world => ⟨sound_created _ _ _, ⟨fun log hlog => ?_,
    fun log hlog => ?_⟩⟩) hrun).2
  · intro log hlog
    have hlog := horderly.proper log hlog
    refine ⟨hlog.increasing, fun p hp => beq_iff_eq.mpr (hlog.initial p hp), ?_, hlog.acquired, fun hnot => ?_⟩
    · intro p hp
      exact hlog.not_bowOut hp
    · by_contra hne
      exact hnot (hlog.proposing hne)
  · cases hlog
  · cases hlog

/-- We start a round in which we propose, and close the ledger once a peer has. -/
theorem own_proposals_closed :
    let events : List (Event ℕ ℕ (Fin 8) (Finset (Fin 8))) :=
      [.startRound 1 100 1 ⟨1, 5, 30, 20, 30, true⟩ [] true, .peerProposal 101 ⟨1, {3}, 100, 101, 0, 7⟩, .timerEntry 1 102]
    ∃ s log, Run Adaptor.alone events s ∧ log ∈ s.rounds ∧ log.proposals.length = 1 ∧
      ∀ p ∈ log.proposals.head?, p.1.isInitial = true := by
  intro events
  have hend : ((events.foldlM (fun s e => step Adaptor.alone e s) (State.created 1 ⟨1, 5, 30, 20, 30, true⟩ ())).toOption.bind
      fun s => s.rounds.head?.map fun log => log.proposals.length) = some 1 := by decide
  obtain ⟨s, hs, hend⟩ := Option.bind_eq_some_iff.mp hend
  obtain ⟨log, hlog, hlength⟩ := Option.map_eq_some_iff.mp hend
  have hrun : Run Adaptor.alone events s := ⟨1, _, (), toOption_eq_some.mp hs⟩
  have hmem : log ∈ s.rounds := List.mem_of_mem_head? hlog
  exact ⟨s, log, hrun, hmem, hlength, (own_proposals hrun log hmem).2.1⟩

end ScfChain.Consensus.Round
