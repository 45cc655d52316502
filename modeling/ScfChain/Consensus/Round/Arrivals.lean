import ScfChain.Consensus.Round.Positions

/-!
# Proposals in any order

Proposals of a round may arrive in any order, and more than once, with sets of transactions in between. What is known of the peers in
the end only depends on which proposals have arrived.

* `Heard P s` : what is known of the peers in `s` is what the proposals `P` say;
* `Heard.arrival` : one more arrival keeps that.
-/

set_option linter.unusedSectionVars false

namespace ScfChain.Consensus.Round

open ScfChain.Data

variable {N L T H W : Type} [DecidableEq N] [DecidableEq L] [DecidableEq T] [DecidableEq H] (A : Adaptor N L T H W)

/-! ## Frames -/

/-- The states agree on the round and on what is known of its peers. -/
structure SamePeers (s s' : State N L T H W) : Prop where
  phase : s'.phase = s.phase
  prevLedgerID : s'.prevLedgerID = s.prevLedgerID
  currPeerPositions : s'.currPeerPositions = s.currPeerPositions
  deadNodes : s'.deadNodes = s.deadNodes

variable {s s' : State N L T H W} {P : List (ConsensusProposal N L H)} {p : ConsensusProposal N L H}

theorem SamePeers.trans {s'' : State N L T H W} (h : SamePeers s s') (h' : SamePeers s' s'') : SamePeers s s'' :=
  ⟨h'.phase.trans h.phase, h'.prevLedgerID.trans h.prevLedgerID, h'.currPeerPositions.trans h.currPeerPositions,
    h'.deadNodes.trans h.deadNodes⟩

theorem samePeers_gotTxSet (now : NetTime) (txSet : Finset T) (s : State N L T H W) : SamePeers s (gotTxSet A now txSet s) := by
  unfold gotTxSet
  split_ifs
  · exact ⟨rfl, rfl, rfl, rfl⟩
  · dsimp only
    split_ifs <;> exact ⟨rfl, rfl, rfl, rfl⟩

theorem samePeers_processPosition (p : ConsensusProposal N L H) (s : State N L T H W) : SamePeers s (processPosition A p s) := by
  unfold processPosition
  split
  · dsimp only
    split
    · exact ⟨rfl, rfl, rfl, rfl⟩
    · rename_i set _
      have h := samePeers_gotTxSet A s.now set { s with world := (A.acquireTxSet p.position s.world).2 }
      exact ⟨h.phase, h.prevLedgerID, h.currPeerPositions, h.deadNodes⟩
  · exact ⟨rfl, rfl, rfl, rfl⟩

theorem samePeers_recordCloseTime (p : ConsensusProposal N L H) (s : State N L T H W) : SamePeers s (recordCloseTime p s) := by
  unfold recordCloseTime
  split_ifs <;> exact ⟨rfl, rfl, rfl, rfl⟩

/-! ## One proposal -/

/-- What a proposal for the ledger we build on does to what is known of its peer: nothing, if the peer has left or has sent a later
one; else it is dropped if the proposal says so, and otherwise the proposal is its position. -/
theorem peers_peerProposalInternal (now : NetTime) (p : ConsensusProposal N L H) (hphase : s.phase ≠ .accepted)
    (hprev : p.previousLedger = s.prevLedgerID) :
    let s' := (peerProposalInternal A now p s).2
    s'.phase = s.phase ∧ s'.prevLedgerID = s.prevLedgerID ∧
      (s'.currPeerPositions, s'.deadNodes) =
        if p.nodeID ∈ s.deadNodes ∨ isLate p s = true then (s.currPeerPositions, s.deadNodes)
        else if p.isBowOut then (s.currPeerPositions.erase p.nodeID, insert p.nodeID s.deadNodes)
        else (s.currPeerPositions.insert p.nodeID p, s.deadNodes) := by
  have hlate : isLate p { s with now := now } = isLate p s := rfl
  unfold peerProposalInternal
  rw [if_neg hphase]
  dsimp only
  rw [if_neg (not_not.mpr hprev)]
  by_cases hdead : p.nodeID ∈ s.deadNodes
  · rw [if_pos hdead, if_pos (.inl hdead)]
    exact ⟨rfl, rfl, rfl⟩
  rw [if_neg hdead, hlate]
  by_cases hlater : isLate p s = true
  · rw [if_pos hlater, if_pos (.inr hlater)]
    exact ⟨rfl, rfl, rfl⟩
  rw [if_neg hlater, if_neg (not_or.mpr ⟨hdead, hlater⟩)]
  split_ifs with hbow
  · exact ⟨rfl, rfl, rfl⟩
  · obtain ⟨hphase', hprev', hpositions, hdeads⟩ :=
      (samePeers_recordCloseTime p { s with now := now, currPeerPositions := s.currPeerPositions.insert p.nodeID p }).trans
        (samePeers_processPosition A p _)
    exact ⟨hphase', hprev', by rw [hpositions, hdeads]⟩

/-! ## Many proposals -/

/-- What the proposals in `P` say of their peers: a peer that has bowed out is gone, any other has the position with the highest
sequence. -/
structure Heard (P : List (ConsensusProposal N L H)) (s : State N L T H W) : Prop where
  dead : ∀ n, n ∈ s.deadNodes ↔ ∃ p ∈ P, p.nodeID = n ∧ p.isBowOut = true
  position : ∀ n p, s.currPeerPositions.lookup n = some p ↔
    n ∉ s.deadNodes ∧ p ∈ P ∧ p.nodeID = n ∧ ∀ q ∈ P, q.nodeID = n → q.proposeSeq ≤ p.proposeSeq
  alive : ∀ p ∈ P, p.nodeID ∉ s.deadNodes → ∃ q, s.currPeerPositions.lookup p.nodeID = some q

theorem heard_nil (hpositions : s.currPeerPositions = ∅) (hdead : s.deadNodes = ∅) : Heard [] s := by
  refine ⟨fun n => ?_, fun n p => ?_, fun p hp => by cases hp⟩
  · simp [hdead]
  · simp [hpositions]

theorem Heard.congr {Q : List (ConsensusProposal N L H)} (h : Heard P s) (hPQ : ∀ p, p ∈ Q ↔ p ∈ P) : Heard Q s := by
  refine ⟨fun n => ?_, fun n p => ?_, fun p hp => h.alive p ((hPQ p).mp hp)⟩
  · simp only [hPQ]
    exact h.dead n
  · simp only [hPQ]
    exact h.position n p

theorem isBowOut_of_seqLeave_le {q : ConsensusProposal N L H} (hp : p.isBowOut = true) (h : p.proposeSeq ≤ q.proposeSeq) :
    q.isBowOut = true := by
  simp only [ConsensusProposal.isBowOut, ConsensusProposal.seqLeave, beq_iff_eq] at hp ⊢
  rw [hp] at h
  have hq := q.proposeSeq.isLt
  refine BitVec.eq_of_toNat_eq ?_
  rw [BitVec.le_def] at h
  have hmax : (0xffffffff : BitVec 32).toNat = 2 ^ 32 - 1 := rfl
  omega

/-- The position of `n` is the one with the highest sequence. -/
def Highest (P : List (ConsensusProposal N L H)) (n : N) (p : ConsensusProposal N L H) : Prop :=
  p ∈ P ∧ p.nodeID = n ∧ ∀ q ∈ P, q.nodeID = n → q.proposeSeq ≤ p.proposeSeq

theorem Heard.cons (h : Heard P s) (p : ConsensusProposal N L H)
    (hother : ∀ n ≠ p.nodeID, s'.currPeerPositions.lookup n = s.currPeerPositions.lookup n ∧ (n ∈ s'.deadNodes ↔ n ∈ s.deadNodes))
    (hdead : p.nodeID ∈ s'.deadNodes ↔ ∃ q ∈ p :: P, q.nodeID = p.nodeID ∧ q.isBowOut = true)
    (hposition : ∀ q, s'.currPeerPositions.lookup p.nodeID = some q ↔ p.nodeID ∉ s'.deadNodes ∧ Highest (p :: P) p.nodeID q)
    (halive : p.nodeID ∉ s'.deadNodes → ∃ q, s'.currPeerPositions.lookup p.nodeID = some q) : Heard (p :: P) s' := by
  refine ⟨fun n => ?_, fun n q => ?_, fun q hq hlive => ?_⟩
  · by_cases hn : n = p.nodeID
    · rw [hn]
      exact hdead
    · rw [(hother n hn).2, h.dead n]
      simp [Ne.symm hn]
  · by_cases hn : n = p.nodeID
    · rw [hn]
      exact hposition q
    · have hp : p.nodeID ≠ n := Ne.symm hn
      rw [(hother n hn).1, h.position n q, (hother n hn).2]
      simp only [List.mem_cons, forall_eq_or_imp, hp, false_implies, true_and]
      constructor
      · rintro ⟨hlive, hq, hnode, hhigh⟩
        exact ⟨hlive, .inr hq, hnode, hhigh⟩
      · rintro ⟨hlive, hq | hq, hnode, hhigh⟩
        · exact absurd (hq ▸ hnode) hp
        · exact ⟨hlive, hq, hnode, hhigh⟩
  · by_cases hn : q.nodeID = p.nodeID
    · rw [hn] at hlive ⊢
      exact halive hlive
    · have hq : q ∈ P := (List.mem_cons.mp hq).resolve_left fun e => hn (by rw [e])
      rw [(hother _ hn).2] at hlive
      rw [(hother _ hn).1]
      exact h.alive q hq hlive

theorem Heard.gone (h : Heard P s) (hdead : p.nodeID ∈ s.deadNodes)
    (hpositions : s'.currPeerPositions = s.currPeerPositions) (hdeads : s'.deadNodes = s.deadNodes) :
    Heard (p :: P) s' := by
  obtain ⟨q, hq, hnode, hbow⟩ := (h.dead _).mp hdead
  refine h.cons p (fun n _ => by rw [hpositions, hdeads]; exact ⟨rfl, Iff.rfl⟩) ?_ (fun q => ?_) ?_
  · rw [hdeads]
    exact ⟨fun _ => ⟨q, List.mem_cons_of_mem _ hq, hnode, hbow⟩, fun _ => hdead⟩
  · rw [hpositions, hdeads, h.position]
    exact ⟨fun hq => absurd hdead hq.1, fun hq => absurd hdead hq.1⟩
  · rw [hdeads]
    exact fun hlive => absurd hdead hlive

theorem exists_of_isLate (h : isLate p s = true) :
    ∃ p', s.currPeerPositions.lookup p.nodeID = some p' ∧ p.proposeSeq ≤ p'.proposeSeq := by
  unfold isLate at h
  split at h
  · cases h
  · exact ⟨_, by assumption, of_decide_eq_true h⟩

theorem Heard.late (h : Heard P s) (hsame : ∀ q ∈ P, q.nodeID = p.nodeID → q.proposeSeq = p.proposeSeq → q = p)
    (hdead : p.nodeID ∉ s.deadNodes) (hlate : isLate p s = true) (hpositions : s'.currPeerPositions = s.currPeerPositions)
    (hdeads : s'.deadNodes = s.deadNodes) :
    Heard (p :: P) s' := by
  obtain ⟨p', hp', hle⟩ := exists_of_isLate hlate
  obtain ⟨-, hmem', hnode', hhigh'⟩ := (h.position _ _).mp hp'
  have hnot : ¬ p.isBowOut = true := fun hbow => hdead ((h.dead _).mpr ⟨p', hmem', hnode', isBowOut_of_seqLeave_le hbow hle⟩)
  refine h.cons p (fun n _ => by rw [hpositions, hdeads]; exact ⟨rfl, Iff.rfl⟩) ?_ (fun q => ?_) ?_
  · rw [hdeads, h.dead]
    constructor
    · rintro ⟨q, hq, hq'⟩
      exact ⟨q, List.mem_cons_of_mem _ hq, hq'⟩
    · rintro ⟨q, hq, hnode, hbow⟩
      rcases List.mem_cons.mp hq with rfl | hq
      · exact absurd hbow hnot
      · exact ⟨q, hq, hnode, hbow⟩
  · rw [hpositions, hdeads, h.position]
    constructor
    · rintro ⟨hlive, hq, hnode, hhigh⟩
      refine ⟨hlive, List.mem_cons_of_mem _ hq, hnode, List.forall_mem_cons.mpr ⟨fun _ => ?_, hhigh⟩⟩
      exact BitVec.le_trans hle (hhigh p' hmem' hnode')
    · rintro ⟨hlive, hq, hnode, hhigh⟩
      refine ⟨hlive, ?_, hnode, fun q' hq' => hhigh q' (List.mem_cons_of_mem _ hq')⟩
      rcases List.mem_cons.mp hq with rfl | hq
      · have hge := hhigh p' (List.mem_cons_of_mem _ hmem') hnode'
        rw [← hsame p' hmem' hnode' (BitVec.le_antisymm hge hle)]
        exact hmem'
      · exact hq
  · exact fun _ => ⟨p', by rw [hpositions]; exact hp'⟩

theorem Heard.bowsOut (h : Heard P s) (hbow : p.isBowOut = true)
    (hpositions : s'.currPeerPositions = s.currPeerPositions.erase p.nodeID)
    (hdeads : s'.deadNodes = insert p.nodeID s.deadNodes) : Heard (p :: P) s' := by
  have hin : p.nodeID ∈ s'.deadNodes := hdeads ▸ Finset.mem_insert_self _ _
  refine h.cons p (fun n hn => ?_) ?_ (fun q => ?_) (fun hlive => absurd hin hlive)
  · rw [hpositions, hdeads, AList.lookup_erase_ne hn, Finset.mem_insert]
    exact ⟨rfl, ⟨fun hmem => hmem.resolve_left hn, .inr⟩⟩
  · exact ⟨fun _ => ⟨p, List.mem_cons_self, rfl, hbow⟩, fun _ => hin⟩
  · rw [hpositions, AList.lookup_erase]
    refine ⟨fun hq => ?_, fun hq => absurd hin hq.1⟩
    cases hq

theorem Heard.stored (h : Heard P s) (hdead : p.nodeID ∉ s.deadNodes) (hlate : ¬ isLate p s = true)
    (hbow : ¬ p.isBowOut = true) (hpositions : s'.currPeerPositions = s.currPeerPositions.insert p.nodeID p)
    (hdeads : s'.deadNodes = s.deadNodes) :
    Heard (p :: P) s' := by
  have hlower : ∀ q ∈ P, q.nodeID = p.nodeID → ¬ p.proposeSeq ≤ q.proposeSeq := by
    intro q hq hnode hle
    obtain ⟨p', hp'⟩ := h.alive q hq (by rw [hnode]; exact hdead)
    rw [hnode] at hp'
    obtain ⟨-, -, -, hhigh⟩ := (h.position _ _).mp hp'
    refine hlate ?_
    unfold isLate
    rw [hp']
    exact decide_eq_true (BitVec.le_trans hle (hhigh q hq hnode))
  refine h.cons p (fun n hn => ?_) ?_ (fun q => ?_) (fun _ => ⟨p, by rw [hpositions, AList.lookup_insert]⟩)
  · rw [hpositions, hdeads, AList.lookup_insert_ne hn]
    exact ⟨rfl, Iff.rfl⟩
  · rw [hdeads]
    refine ⟨fun hmem => absurd hmem hdead, ?_⟩
    rintro ⟨q, hq, hnode, hbow'⟩
    rcases List.mem_cons.mp hq with rfl | hq
    · exact absurd hbow' hbow
    · exact (h.dead _).mpr ⟨q, hq, hnode, hbow'⟩
  · rw [hpositions, hdeads, AList.lookup_insert]
    constructor
    · intro hq
      obtain rfl := Option.some.inj hq
      refine ⟨hdead, List.mem_cons_self, rfl, List.forall_mem_cons.mpr ⟨fun _ => BitVec.le_refl _, fun q hq hnode => ?_⟩⟩
      exact (BitVec.le_total _ _).resolve_right (hlower q hq hnode)
    · rintro ⟨-, hq, hnode, hhigh⟩
      rcases List.mem_cons.mp hq with rfl | hq
      · rfl
      · exact absurd (hhigh p List.mem_cons_self rfl) (hlower q hq hnode)

theorem Heard.proposal (h : Heard P s) (now : NetTime) (p : ConsensusProposal N L H) (hphase : s.phase ≠ .accepted)
    (hprev : p.previousLedger = s.prevLedgerID)
    (hsame : ∀ q ∈ P, q.nodeID = p.nodeID → q.proposeSeq = p.proposeSeq → q = p) :
    Heard (p :: P) (peerProposalInternal A now p s).2 := by
  obtain ⟨-, -, hpeers⟩ := peers_peerProposalInternal A now p hphase hprev
  by_cases hdead : p.nodeID ∈ s.deadNodes
  · rw [if_pos (.inl hdead)] at hpeers
    obtain ⟨hpositions, hdeads⟩ := Prod.mk.inj hpeers
    exact h.gone hdead hpositions hdeads
  by_cases hlate : isLate p s = true
  · rw [if_pos (.inr hlate)] at hpeers
    obtain ⟨hpositions, hdeads⟩ := Prod.mk.inj hpeers
    exact h.late hsame hdead hlate hpositions hdeads
  rw [if_neg (not_or.mpr ⟨hdead, hlate⟩)] at hpeers
  by_cases hbow : p.isBowOut = true
  · rw [if_pos hbow] at hpeers
    obtain ⟨hpositions, hdeads⟩ := Prod.mk.inj hpeers
    exact h.bowsOut hbow hpositions hdeads
  · rw [if_neg hbow] at hpeers
    obtain ⟨hpositions, hdeads⟩ := Prod.mk.inj hpeers
    exact h.stored hdead hlate hbow hpositions hdeads

/-! ## Any order -/

/-- What may arrive without the timer. At the start of a round, proposals that have been seen before are looked at again. -/
inductive Arrival (N L T H : Type)
  | proposal (now : NetTime) (p : ConsensusProposal N L H)
  | replay (now : NetTime) (p : ConsensusProposal N L H)
  | txSet (now : NetTime) (set : Finset T)

def Arrival.proposal? : Arrival N L T H → Option (ConsensusProposal N L H)
  | .proposal _ p => some p
  | .replay _ p => some p
  | .txSet _ _ => none

def arrive (s : State N L T H W) : Arrival N L T H → State N L T H W
  | .proposal now p => (peerProposal A now p s).2
  | .replay now p => (peerProposalInternal A now p s).2
  | .txSet now set => gotTxSet A now set s

theorem Heard.of_samePeers (h : Heard P s) (hframe : SamePeers s s') : Heard P s' := by
  refine ⟨fun n => ?_, fun n p => ?_, fun p hp => ?_⟩
  · rw [hframe.deadNodes]
    exact h.dead n
  · rw [hframe.deadNodes, hframe.currPeerPositions]
    exact h.position n p
  · rw [hframe.deadNodes, hframe.currPeerPositions]
    exact h.alive p hp

theorem Heard.arrival (h : Heard P s) (hphase : s.phase ≠ .accepted) (e : Arrival N L T H)
    (hprev : ∀ p ∈ e.proposal?, p.previousLedger = s.prevLedgerID)
    (hsame : ∀ p ∈ e.proposal?, ∀ q ∈ P, q.nodeID = p.nodeID → q.proposeSeq = p.proposeSeq → q = p) :
    Heard (e.proposal?.toList ++ P) (arrive A s e) ∧ (arrive A s e).phase = s.phase ∧ (arrive A s e).prevLedgerID = s.prevLedgerID := by
  cases e with
  | txSet now set =>
    have hframe := samePeers_gotTxSet A now set s
    exact ⟨h.of_samePeers hframe, hframe.phase, hframe.prevLedgerID⟩
  | replay now p =>
    obtain ⟨hphase', hprev', -⟩ := peers_peerProposalInternal A now p hphase (hprev p rfl)
    exact ⟨h.proposal A now p hphase (hprev p rfl) (hsame p rfl), hphase', hprev'⟩
  | proposal now p =>
    have hstored : Heard P (storeRecent p s) := h.of_samePeers ⟨rfl, rfl, rfl, rfl⟩
    obtain ⟨hphase', hprev', -⟩ := peers_peerProposalInternal A now p (show (storeRecent p s).phase ≠ .accepted from hphase)
      (hprev p rfl)
    exact ⟨hstored.proposal A now p hphase (hprev p rfl) (hsame p rfl), hphase', hprev'⟩

theorem Heard.arrivals (h : Heard P s) (hphase : s.phase ≠ .accepted) (arrivals : List (Arrival N L T H))
    (hprev : ∀ p ∈ arrivals.filterMap Arrival.proposal?, p.previousLedger = s.prevLedgerID)
    (hsame : ∀ p ∈ P ++ arrivals.filterMap Arrival.proposal?, ∀ q ∈ P ++ arrivals.filterMap Arrival.proposal?,
      p.nodeID = q.nodeID → p.proposeSeq = q.proposeSeq → p = q) :
    Heard (P ++ arrivals.filterMap Arrival.proposal?) (arrivals.foldl (arrive A) s) := by
  induction arrivals generalizing P s with
  | nil => exact h.congr fun p => by simp
  | cons e arrivals ih =>
    have hmem : ∀ q, q ∈ P ++ (e :: arrivals).filterMap Arrival.proposal? ↔
        q ∈ (e.proposal?.toList ++ P) ++ arrivals.filterMap Arrival.proposal? := by
      intro q
      cases e <;> simp [Arrival.proposal?, List.filterMap_cons, or_left_comm]
    have hfirst : ∀ p ∈ e.proposal?, p ∈ (e :: arrivals).filterMap Arrival.proposal? := fun p hp =>
      List.mem_filterMap.mpr ⟨e, List.mem_cons_self, hp⟩
    have hrest : ∀ p ∈ arrivals.filterMap Arrival.proposal?, p ∈ (e :: arrivals).filterMap Arrival.proposal? := fun p hp => by
      obtain ⟨e', he', hp⟩ := List.mem_filterMap.mp hp
      exact List.mem_filterMap.mpr ⟨e', List.mem_cons_of_mem _ he', hp⟩
    obtain ⟨hnext, hphase', hprev'⟩ := h.arrival A hphase e (fun p hp => hprev p (hfirst p hp)) fun p hp q hq =>
      hsame q (List.mem_append_left _ hq) p (List.mem_append_right _ (hfirst p hp))
    refine (ih hnext (hphase' ▸ hphase) (fun p hp => ?_) fun p hp q hq => ?_).congr hmem
    · rw [hprev']
      exact hprev p (hrest p hp)
    · exact hsame p ((hmem p).mpr hp) q ((hmem q).mpr hq)

/-- Let the proposals `P` of a round arrive, each at least once. Whatever the order, and whatever sets arrive in between, a peer that
bowed out is gone, and any other has the position with the highest sequence; and so all orders end the same. -/
theorem proposals_commute {s : State N L T H W} (hphase : s.phase ≠ .accepted) (hpositions : s.currPeerPositions = ∅)
    (hdead : s.deadNodes = ∅) (P : Finset (ConsensusProposal N L H)) (hprev : ∀ p ∈ P, p.previousLedger = s.prevLedgerID)
    (hsame : ∀ p ∈ P, ∀ q ∈ P, p.nodeID = q.nodeID → p.proposeSeq = q.proposeSeq → p = q)
    (arrivals : List (Arrival N L T H)) (harrivals : ∀ p, p ∈ arrivals.filterMap Arrival.proposal? ↔ p ∈ P) :
    (∀ n, n ∈ (arrivals.foldl (arrive A) s).deadNodes ↔ ∃ p ∈ P, p.nodeID = n ∧ p.isBowOut = true) ∧
    (∀ n p, (arrivals.foldl (arrive A) s).currPeerPositions.lookup n = some p ↔
      (¬ ∃ q ∈ P, q.nodeID = n ∧ q.isBowOut = true) ∧ p ∈ P ∧ p.nodeID = n ∧ ∀ q ∈ P, q.nodeID = n → q.proposeSeq ≤ p.proposeSeq) ∧
    (∀ p ∈ P, (¬ ∃ q ∈ P, q.nodeID = p.nodeID ∧ q.isBowOut = true) →
      ∃ q, (arrivals.foldl (arrive A) s).currPeerPositions.lookup p.nodeID = some q) ∧
    ∀ arrivals' : List (Arrival N L T H), (∀ p, p ∈ arrivals'.filterMap Arrival.proposal? ↔ p ∈ P) →
      (arrivals'.foldl (arrive A) s).deadNodes = (arrivals.foldl (arrive A) s).deadNodes ∧
      ∀ n, (arrivals'.foldl (arrive A) s).currPeerPositions.lookup n = (arrivals.foldl (arrive A) s).currPeerPositions.lookup n := by
  have hheard : ∀ arrivals : List (Arrival N L T H), (∀ p, p ∈ arrivals.filterMap Arrival.proposal? ↔ p ∈ P) →
      Heard P.toList (arrivals.foldl (arrive A) s) := by
    intro arrivals harrivals
    refine ((heard_nil hpositions hdead).arrivals A hphase arrivals (fun p hp => ?_) fun p hp q hq => ?_).congr fun p => ?_
    · exact hprev p ((harrivals p).mp hp)
    · exact hsame p ((harrivals p).mp hp) q ((harrivals q).mp hq)
    · rw [Finset.mem_toList, List.nil_append, harrivals]
  have hend := hheard arrivals harrivals
  have hdeads : ∀ n, n ∈ (arrivals.foldl (arrive A) s).deadNodes ↔ ∃ p ∈ P, p.nodeID = n ∧ p.isBowOut = true := by
    intro n
    rw [hend.dead]
    simp only [Finset.mem_toList]
  refine ⟨hdeads, fun n p => ?_, fun p hp hlive => ?_, fun arrivals' harrivals' => ?_⟩
  · rw [hend.position, hdeads]
    simp only [Finset.mem_toList]
  · exact hend.alive p (Finset.mem_toList.mpr hp) fun hmem => hlive ((hdeads _).mp hmem)
  · have hend' := hheard arrivals' harrivals'
    have hdeads' : ∀ n, n ∈ (arrivals'.foldl (arrive A) s).deadNodes ↔ n ∈ (arrivals.foldl (arrive A) s).deadNodes := fun n =>
      (hend'.dead n).trans (hend.dead n).symm
    refine ⟨Finset.ext hdeads', fun n => Option.ext fun p => ?_⟩
    rw [hend'.position, hend.position, hdeads']

/-- Peer 7 sends its second position, with a set of transactions right after it, before its first. -/
theorem proposals_commute_overtaken :
    let first : ConsensusProposal ℕ ℕ (Finset (Fin 8)) := ⟨1, ∅, 100, 95, 0, 7⟩
    let second : ConsensusProposal ℕ ℕ (Finset (Fin 8)) := ⟨1, {3}, 100, 96, 1, 7⟩
    let s : State ℕ ℕ (Fin 8) (Finset (Fin 8)) Unit := { State.created 1 ⟨1, 5, 30, 20, 30, true⟩ () with phase := .opened }
    let arrivals : List (Arrival ℕ ℕ (Fin 8) (Finset (Fin 8))) := [.proposal 97 second, .txSet 98 {3}, .proposal 99 first]
    (arrivals.foldl (arrive Adaptor.alone) s).currPeerPositions.lookup 7 = some second := by
  intro first second s arrivals
  have hend := proposals_commute Adaptor.alone (show s.phase ≠ .accepted by decide) rfl rfl {first, second} (by decide) (by decide)
    arrivals fun p => by
      show p ∈ [second, first] ↔ _
      simp [or_comm]
  exact (hend.2.1 7 second).mpr (by decide)

end ScfChain.Consensus.Round
