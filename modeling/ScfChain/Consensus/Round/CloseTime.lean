import ScfChain.Consensus.Round.Engine

/-!
# The vote on the close time

The close times of the fresh positions are rounded and counted, with ours if we propose. The votes are read from the earliest time
to the latest, and the threshold rises to the votes of what was chosen last.

* `consensusCloseTime_spec` : so the latest of the times with the most votes is chosen, if those are enough;
* `closeTime_updateOurPositions` : our position names the chosen time, or a time that rounds to it already.
-/

set_option linter.unusedSectionVars false

namespace ScfChain.Consensus.Round

open ScfChain.Data

variable {N L T H W : Type} [DecidableEq N] [DecidableEq L] [DecidableEq T] [DecidableEq H] (A : Adaptor N L T H W)

/-- A vote on the close time is decided by the number of votes for each time, of which `threshVote` are required and
`threshConsensus` make a consensus. -/
structure Decided (votes : NetTime → ℕ) (threshVote threshConsensus : ℕ) (chosen : NetTime) (consensus : Bool) : Prop where
  none : (∀ t, votes t < threshVote) → chosen = 0 ∧ consensus = false
  some : (∃ t, threshVote ≤ votes t) →
    threshVote ≤ votes chosen ∧ (∀ t, votes t ≤ votes chosen) ∧ (∀ t, votes t = votes chosen → t.toNat ≤ chosen.toNat) ∧
      (consensus = true ↔ threshConsensus ≤ votes chosen)

theorem participantsNeeded_pos (participants percent : ℕ) : 0 < participantsNeeded participants percent := by
  unfold participantsNeeded
  split_ifs with h
  · exact Nat.one_pos
  · exact Nat.pos_of_ne_zero h

theorem toNat_injective : Function.Injective (BitVec.toNat : NetTime → ℕ) := fun _ _ => BitVec.eq_of_toNat_eq

theorem decided_foldl (votes : List NetTime) {threshVote : ℕ} (threshConsensus : ℕ) (hpos : 0 < threshVote) :
    let choice := (pollOf BitVec.toNat votes).foldl (Choice.offer threshConsensus) ⟨0, threshVote, false⟩
    Decided (fun t => votes.count t) threshVote threshConsensus choice.chosen choice.declared := by
  intro choice
  have hmem := mem_pollOf toNat_injective votes
  obtain ⟨hless, hchoice⟩ | helects := foldl_offer threshConsensus (ordered_pollOf toNat_injective votes) ⟨0, threshVote, false⟩
  · have hchoice : choice = ⟨0, threshVote, false⟩ := hchoice
    rw [hchoice]
    refine ⟨fun _ => ⟨rfl, rfl⟩, ?_⟩
    rintro ⟨t, ht⟩
    have := hless (t, votes.count t) ((hmem t _).mpr ⟨rfl, hpos.trans_le ht⟩)
    exact absurd this (not_lt.mpr ht)
  · obtain ⟨hchosen, hle, hmost, hlast, hdeclared⟩ := (helects : Elects BitVec.toNat _ _ _ choice)
    obtain ⟨hvotes, -⟩ := (hmem _ _).mp hchosen
    rw [hvotes] at hle hmost hlast hdeclared
    refine ⟨fun hnone => absurd hle (not_le.mpr (hnone _)), fun _ => ⟨hle, fun t => ?_, fun t ht => ?_, ?_⟩⟩
    · rcases Nat.eq_zero_or_pos (votes.count t) with hzero | ht
      · exact hzero ▸ Nat.zero_le _
      · exact hmost _ ((hmem t _).mpr ⟨rfl, ht⟩)
    · exact hlast (t, votes.count t) ((hmem t _).mpr ⟨rfl, ht ▸ hpos.trans_le hle⟩) ht
    · show choice.declared = true ↔ _
      rw [show choice.declared = _ from hdeclared, Bool.false_or, decide_eq_true_eq]

variable (s : State N L T H W) (r : ConsensusResult N L T H)

theorem consensusCloseTime_spec (hpeers : s.currPeerPositions.entries ≠ []) :
    Decided (fun t => (closeTimeVotes A s r).count t) (threshVote A s) (threshConsensus A s) (consensusCloseTime A s r).1
      (consensusCloseTime A s r).2 := by
  rw [consensusCloseTime, if_neg hpeers]
  exact decided_foldl _ _ (participantsNeeded_pos _ _)

theorem consensusCloseTime_congr {r r' : ConsensusResult N L T H} (h : r'.position = r.position) :
    consensusCloseTime A s r' = consensusCloseTime A s r := by
  unfold consensusCloseTime closeTimeVotes
  rw [h]

theorem exists_eq_chosen (hround : A.parms.useRoundedCloseTime = true) (s : State N L T H W) (r : ConsensusResult N L T H) :
    ∃ t, (consensusCloseTime A s r).1 = roundCloseTime t s.closeResolution := by
  have has : ∀ t, asCloseTime A s t = roundCloseTime t s.closeResolution := fun t => if_pos hround
  by_cases hpeers : s.currPeerPositions.entries = []
  · rw [consensusCloseTime, if_pos hpeers]
    exact ⟨_, has _⟩
  · have hspec := consensusCloseTime_spec A s r hpeers
    by_cases hsome : ∃ t, threshVote A s ≤ (closeTimeVotes A s r).count t
    · obtain ⟨hle, -⟩ := hspec.some hsome
      have hmem := List.count_pos_iff.mp ((participantsNeeded_pos _ _).trans_le hle)
      rcases List.mem_append.mp hmem with hmem | hmem
      · obtain ⟨it, -, hit⟩ := List.mem_map.mp hmem
        exact ⟨it.2.closeTime, hit.symm.trans (has _)⟩
      · split_ifs at hmem
        · exact ⟨_, (List.mem_singleton.mp hmem).trans (has _)⟩
        · cases hmem
    · obtain ⟨hzero, -⟩ := hspec.none fun t => not_le.mp fun hle => hsome ⟨t, hle⟩
      exact ⟨0, hzero⟩

/-! ## Our position -/

theorem result_announce (p : ConsensusProposal N L H) (s : State N L T H W) : (announce p s).result = s.result := by
  unfold announce
  split_ifs <;> rfl

theorem result_adoptSet (s : State N L T H W) :
    ∃ r', (adoptSet A r s).result = some r' ∧ SameStance r r' := by
  unfold adoptSet
  split_ifs
  · exact ⟨r, rfl, rfl, rfl⟩
  · exact ⟨_, rfl, sameStance_updatePeers A _ r _⟩

theorem result_takePosition (newSet : Finset T) (closeTime : NetTime) (r : ConsensusResult N L T H) (s : State N L T H W) :
    ∃ r', (takePosition A newSet closeTime r s).result = some r' ∧ r'.txns = newSet ∧
      r'.position = r.position.changePosition (A.id newSet) closeTime s.now := by
  obtain ⟨r', hresult, htxns, hposition⟩ := result_adoptSet A
    { r with txns := newSet, position := r.position.changePosition (A.id newSet) closeTime s.now } s
  exact ⟨r', (result_announce _ _).trans hresult, htxns, hposition⟩

theorem sameStance_removeStale : SameStance r (removeStale A s r) := by
  have hstep : ∀ (r : ConsensusResult N L T H) (it : Sigma fun _ : N => ConsensusProposal N L H),
      SameStance r (unVoteAll r it.2.nodeID) := fun _ _ => ⟨rfl, rfl⟩
  exact sameStance_foldl hstep _ r

theorem have_takePosition (newSet : Finset T) (closeTime : NetTime) (r : ConsensusResult N L T H) (s : State N L T H W) :
    (takePosition A newSet closeTime r s).haveCloseTimeConsensus = s.haveCloseTimeConsensus := by
  unfold takePosition announce adoptSet
  dsimp only
  split_ifs <;> rfl

theorem settlePosition_closeTime (newSet : Option (Finset T)) (closeTime : NetTime × Bool) (r : ConsensusResult N L T H)
    (s : State N L T H W) :
    (settlePosition A newSet closeTime r s).haveCloseTimeConsensus = closeTime.2 ∧
    ∃ r', (settlePosition A newSet closeTime r s).result = some r' ∧
      (r'.position.closeTime = closeTime.1 ∨ r' = r ∧ asCloseTime A s r.position.closeTime = closeTime.1) := by
  unfold settlePosition
  dsimp only
  split
  · rename_i hnone
    refine ⟨rfl, r, rfl, .inr ⟨rfl, ?_⟩⟩
    unfold ourNewSet at hnone
    split at hnone
    · cases hnone
    · split_ifs at hnone with hreason
      exact (not_ne_iff.mp fun h => hreason (.inl h)).symm
  · rename_i newSet' hsome
    obtain ⟨r', hresult, -, hposition⟩ := result_takePosition A newSet' closeTime.1 r
      { s with haveCloseTimeConsensus := closeTime.2, result := some r }
    exact ⟨have_takePosition A _ _ _ _, r', hresult, .inl (by rw [hposition]; rfl)⟩

/-- With rounded close times: without peers there is consensus on our own time. With peers, the latest of the times with the most
votes is chosen, if those reach the required threshold, and zero otherwise; there is consensus if they also reach the threshold for
it. Then the close time of our position rounds to the chosen time, unless the rounding overflows. -/
theorem close_time_voting (hround : A.parms.useRoundedCloseTime = true) (s : State N L T H W) (r : ConsensusResult N L T H) :
    let positions := (freshPositions A s).entries
    let ours := roundCloseTime r.position.closeTime s.closeResolution
    let times := positions.map (fun it => roundCloseTime it.2.closeTime s.closeResolution) ++
      if s.mode = .proposing then [ours] else []
    let participants := positions.length + if s.mode = .proposing then 1 else 0
    let chosen := (consensusCloseTime A (fresh A s) r).1
    let consensus := (updateOurPositions A s r).haveCloseTimeConsensus
    (positions = [] → chosen = ours ∧ consensus = true) ∧
    (positions ≠ [] →
      Decided (fun t => times.count t) (participantsNeeded participants (A.parms.neededWeight s.convergePercent))
        (participantsNeeded participants A.parms.avCT_CONSENSUS_PCT) chosen consensus) ∧
    ∃ r', (updateOurPositions A s r).result = some r' ∧
      (r'.position.closeTime = chosen ∨ r'.position = r.position ∧ ours = chosen) ∧
      (consensus = true → chosen.toNat + s.closeResolution.toNat / 2 < 2 ^ 32 →
        roundCloseTime r'.position.closeTime s.closeResolution = chosen) := by
  intro positions ours times participants chosen consensus
  have has : ∀ t, asCloseTime A (fresh A s) t = roundCloseTime t s.closeResolution := fun t => if_pos hround
  have hposition : (updateVotes A (fresh A s) (removeStale A s r)).position = r.position := (sameStance_removeStale A s r).2
  have hvote := consensusCloseTime_congr A (fresh A s) hposition
  obtain ⟨hconsensus, r', hresult, hclose⟩ := settlePosition_closeTime A (revote A (fresh A s) (removeStale A s r))
    (consensusCloseTime A (fresh A s) (updateVotes A (fresh A s) (removeStale A s r))) (updateVotes A (fresh A s) (removeStale A s r))
    (fresh A s)
  rw [hvote] at hclose
  have hconsensus : consensus = (consensusCloseTime A (fresh A s) r).2 := hconsensus.trans (congrArg Prod.snd hvote)
  have hclose : r'.position.closeTime = chosen ∨ r'.position = r.position ∧ ours = chosen := by
    rcases hclose with hclose | ⟨hr', hours⟩
    · exact .inl hclose
    · rw [hposition, has] at hours
      exact .inr ⟨by rw [hr', hposition], hours⟩
  refine ⟨fun hnone => ?_, fun hpeers => ?_, r', hresult, hclose, fun _ hno => ?_⟩
  · have heq : consensusCloseTime A (fresh A s) r = (asCloseTime A (fresh A s) r.position.closeTime, true) := if_pos hnone
    rw [hconsensus, heq]
    exact ⟨(congrArg Prod.fst heq).trans (has _), rfl⟩
  · have hspec := consensusCloseTime_spec A (fresh A s) r hpeers
    have htimes : closeTimeVotes A (fresh A s) r = times := by
      unfold closeTimeVotes
      simp only [has]
      rfl
    rw [htimes] at hspec
    rw [hconsensus]
    exact hspec
  · obtain ⟨t, ht⟩ := exists_eq_chosen A hround (fresh A s) r
    rcases hclose with hclose | ⟨hclose, hours⟩
    · rw [hclose, show chosen = roundCloseTime t s.closeResolution from ht]
      exact roundCloseTime_idem (by rw [← show chosen = roundCloseTime t s.closeResolution from ht]; exact hno)
    · rw [hclose]
      exact hours

/-! ## Two rounds -/

/-- We observe, at the time 100 and with a position of our own, a peer that names `closeTime`. -/
def onePeer (closeTime closeResolution : NetTime) : State ℕ ℕ (Fin 8) (Finset (Fin 8)) Unit :=
  { State.created 1 ⟨1, 5, 30, 20, closeResolution, true⟩ () with
    phase := .establish, now := 100, closeResolution := closeResolution
    currPeerPositions := AList.insert 7 ⟨1, ∅, closeTime, 95, 0, 7⟩ ∅ }

def ourResult : ConsensusResult ℕ ℕ (Fin 8) (Finset (Fin 8)) :=
  ⟨∅, ⟨1, ∅, 100, 90, 0, 0⟩, ∅, ∅, ⟨0, 0⟩, 1, .no⟩

/-- The peer's 131 rounds to 120, and we name that. -/
theorem close_time_voting_onePeer :
    (consensusCloseTime Adaptor.alone (fresh Adaptor.alone (onePeer 131 30)) ourResult).1 = 120 ∧
    ∃ r', (updateOurPositions Adaptor.alone (onePeer 131 30) ourResult).result = some r' ∧ roundCloseTime r'.position.closeTime 30 = 120 := by
  obtain ⟨-, -, r', hresult, -, hrounds⟩ := close_time_voting Adaptor.alone rfl (onePeer 131 30) ourResult
  exact ⟨by decide, r', hresult, hrounds (by decide) (by decide)⟩

/-- At a resolution of 60 seconds the peer's 4294967260 rounds to 4294967280. That is chosen and agreed on, and our position names it;
but rounded again, with 30 seconds added, it overflows to zero. -/
theorem chosen_time_overflows :
    (consensusCloseTime Adaptor.alone (fresh Adaptor.alone (onePeer 4294967260 60)) ourResult) = (4294967280, true) ∧
    (updateOurPositions Adaptor.alone (onePeer 4294967260 60) ourResult).haveCloseTimeConsensus = true ∧
    (updateOurPositions Adaptor.alone (onePeer 4294967260 60) ourResult).result.map (fun r' => roundCloseTime r'.position.closeTime 60) =
      some 0 := by
  decide

end ScfChain.Consensus.Round
