import ScfChain.Consensus.Round.Sound

/-!
# Disputes and our own position

Our set changes in disputed transactions only: those whose vote an update has turned. So the sets that were compared with it before
still differ from it in disputed transactions only.

* `revote_spec` : our new set has a disputed transaction if our new vote is for it, and any other if our set has it;
* `sound_run` : disputes agree with the sets in every state of a run.
-/

set_option linter.unusedSectionVars false

namespace ScfChain.Consensus.Round

open ScfChain.Data

variable {N L T H W : Type} [DecidableEq N] [DecidableEq L] [DecidableEq T] [DecidableEq H] {A : Adaptor N L T H W}
  {s s' : State N L T H W} {r r' : ConsensusResult N L T H}

/-! ## Our set -/

/-- `f` turns our vote, and says so, or it does nothing. -/
def TurnsVote (f : DisputedTx N T → DisputedTx N T × Bool) : Prop :=
  ∀ d, f d = (d, false) ∨ f d = ({ d with ourVote := !d.ourVote }, true)

variable {f : DisputedTx N T → DisputedTx N T × Bool} (txns : Finset T) (tx : T)

theorem mem_revoteTx (hf : TurnsVote f) (d : DisputedTx N T) (newSet : Option (Finset T)) :
    tx ∈ (revoteTx (f d) newSet txns).getD txns ↔
      if tx = d.tx ∧ (f d).2 = true then (f d).1.ourVote = true else tx ∈ newSet.getD txns := by
  obtain heq | heq := hf d
  · simp [heq, revoteTx]
  · rw [heq]
    cases d.ourVote with
    | false =>
      simp only [revoteTx, Bool.not_false, if_true, Option.getD_some, Finset.mem_insert, and_true]
      split_ifs with htx
      · simp [htx]
      · simp [htx]
    | true =>
      simp only [revoteTx, Bool.not_true, if_true, Bool.false_eq_true, if_false, Option.getD_some, Finset.mem_erase, and_true]
      split_ifs with htx
      · simp [htx]
      · simp [htx]

theorem mem_foldl_revoteTx (hf : TurnsVote f) (entries : List (Sigma fun _ : T => DisputedTx N T)) (hkeys : entries.NodupKeys)
    (hsubject : ∀ it ∈ entries, it.2.tx = it.1) (newSet : Option (Finset T)) :
    tx ∈ (entries.foldl (fun newSet it => revoteTx (f it.2) newSet txns) newSet).getD txns ↔
      (entries.dlookup tx).elim (tx ∈ newSet.getD txns) fun d =>
        if (f d).2 = true then (f d).1.ourVote = true else tx ∈ newSet.getD txns := by
  induction entries generalizing newSet with
  | nil => rfl
  | cons it entries ih =>
    obtain ⟨tx', d⟩ := it
    obtain ⟨hnew, hkeys⟩ := List.nodupKeys_cons.mp hkeys
    have htx' : d.tx = tx' := hsubject ⟨tx', d⟩ List.mem_cons_self
    rw [List.foldl_cons, ih hkeys fun it hit => hsubject it (List.mem_cons_of_mem _ hit)]
    by_cases htx : tx = tx'
    · have hnone : entries.dlookup tx = none := List.dlookup_eq_none.mpr (htx ▸ hnew)
      rw [hnone, htx, List.dlookup_cons_eq]
      simp only [Option.elim_none, Option.elim_some]
      rw [mem_revoteTx txns tx' hf, htx']
      simp
    · rw [List.dlookup_cons_ne _ _ htx]
      have hsame : tx ∈ (revoteTx (f d) newSet txns).getD txns ↔ tx ∈ newSet.getD txns := by
        rw [mem_revoteTx txns tx hf, if_neg fun hand => htx (hand.1.trans htx')]
      cases entries.dlookup tx with
      | none => exact hsame
      | some d' =>
        simp only [Option.elim_some]
        rw [hsame]

theorem turnsVote_updateVote (s : State N L T H W) : TurnsVote fun d : DisputedTx N T =>
    d.updateVote s.convergePercent (s.mode = .proposing) A.parms := fun d => d.updateVote_eq _ _ _

/-- Our set after the update of our votes. -/
def revotedSet (A : Adaptor N L T H W) (s : State N L T H W) (r : ConsensusResult N L T H) : Finset T := (revote A s r).getD r.txns

theorem revote_spec (hright : ∀ tx d, r.disputes.lookup tx = some d → RightDispute s r.txns tx d) :
    tx ∈ revotedSet A s r ↔ (r.disputes.lookup tx).elim (tx ∈ r.txns) fun d =>
      (d.updateVote s.convergePercent (s.mode = .proposing) A.parms).1.ourVote = true := by
  have hsubject : ∀ it ∈ r.disputes.entries, it.2.tx = it.1 := fun it hit => (hright it.1 it.2 (AList.mem_lookup_iff.mpr hit)).subject
  have hmem := mem_foldl_revoteTx r.txns tx (turnsVote_updateVote (A := A) s) r.disputes.entries r.disputes.nodupKeys hsubject none
  refine hmem.trans ?_
  change (r.disputes.lookup tx).elim _ _ ↔ _
  cases hlookup : r.disputes.lookup tx with
  | none => rfl
  | some d =>
    simp only [Option.elim_some]
    obtain heq | heq := turnsVote_updateVote (A := A) s d
    · have hours := (hright tx d hlookup).ourVote
      simp [heq, hours]
    · simp [heq]

/-- The disputes of `r` are right where our set is `txns`. -/
structure Disputed (s : State N L T H W) (r : ConsensusResult N L T H) (txns : Finset T) : Prop where
  dispute : ∀ tx d, r.disputes.lookup tx = some d → RightDispute s txns tx d
  compared : ∀ h ∈ r.compares, ∃ o, s.acquired.lookup h = some o ∧ ∀ tx, (tx ∈ txns ↔ tx ∉ o) → tx ∈ r.disputes

theorem Stance.disputed (h : Stance A s r) : Disputed s r r.txns := ⟨h.dispute, h.compared⟩

theorem lookup_updateVotes {d : DisputedTx N T} (h : (updateVotes A s r).disputes.lookup tx = some d) :
    ∃ d', r.disputes.lookup tx = some d' ∧ d = (d'.updateVote s.convergePercent (s.mode = .proposing) A.parms).1 ∧
      d.tx = d'.tx ∧ d.votes = d'.votes ∧ (d'.Tallied → d.Tallied) := by
  obtain ⟨d', hd', rfl⟩ := Option.map_eq_some_iff.mp ((lookup_mapVals _ _ _).symm.trans h)
  refine ⟨d', hd', rfl, ?_⟩
  obtain heq | heq := d'.updateVote_eq s.convergePercent (s.mode = .proposing) A.parms
  · rw [heq]
    exact ⟨rfl, rfl, fun ht => ht⟩
  · rw [heq]
    exact ⟨rfl, rfl, fun ht => ht⟩

theorem mem_updateVotes (h : tx ∈ r.disputes) : tx ∈ (updateVotes A s r).disputes := by
  obtain ⟨d, hd⟩ := (mem_iff_lookup _ _).mp h
  exact (mem_iff_lookup _ _).mpr ⟨_, (lookup_mapVals _ _ _).trans (by rw [hd]; rfl)⟩

/-- Our new set is right for the disputes with our new votes. A transaction that the new set and a compared one do not agree on was
one they did not agree on before, or a disputed one. -/
theorem Disputed.revote (h : Disputed s r r.txns) : Disputed s (updateVotes A s r) (revotedSet A s r) := by
  refine ⟨fun tx d hd => ?_, fun id hid => ?_⟩
  · obtain ⟨d', hd', hvote, htx, hvotes, htallied⟩ := lookup_updateVotes tx hd
    have hright := h.dispute tx d' hd'
    refine ⟨htx.trans hright.subject, ?_, htallied hright.tallied, fun n vote hn => hright.voters n vote (hvotes ▸ hn)⟩
    have hspec := revote_spec (A := A) tx h.dispute
    rw [hd'] at hspec
    rw [Bool.eq_iff_iff, decide_eq_true_eq, hspec, hvote]
    rfl
  · obtain ⟨o, ho, hdisputed⟩ := h.compared id hid
    refine ⟨o, ho, fun tx htx => mem_updateVotes tx ?_⟩
    by_contra hnot
    have hspec := revote_spec (A := A) tx h.dispute
    rw [AList.lookup_eq_none.mpr hnot] at hspec
    exact hnot (hdisputed tx (hspec.symm.trans htx))

theorem Counted.updateVotes {n : N} (h : Counted s r n) : Counted s (updateVotes A s r) n := by
  intro tx d vote hd hvote
  obtain ⟨d', hd', -, -, hvotes, -⟩ := lookup_updateVotes tx hd
  rw [hvotes]
  exact h tx d' vote hd' hvote

/-! ## A new position -/

theorem Disputed.mono {txns : Finset T} (h : Disputed s r txns)
    (hacquired : ∀ id o, s.acquired.lookup id = some o → s'.acquired.lookup id = some o)
    (hpeers : s'.currPeerPositions = s.currPeerPositions) : Disputed s' r txns := by
  refine ⟨fun tx d hd => ?_, fun id hid => ?_⟩
  · obtain ⟨hsubject, hours, htallied, hvoters⟩ := h.dispute tx d hd
    exact ⟨hsubject, hours, htallied, fun n vote hvote => by rw [hpeers]; exact hvoters n vote hvote⟩
  · obtain ⟨o, ho, hdisputed⟩ := h.compared id hid
    exact ⟨o, hacquired id o ho, hdisputed⟩

theorem Sound.announce (h : Sound A s) (p : ConsensusProposal N L H) : Sound A (announce p s) := by
  unfold Round.announce
  split_ifs
  · exact h.frame rfl rfl rfl
  · exact h

theorem Sound.adoptSet (hids : ∀ h o, s.acquired.lookup h = some o → A.id o = h)
    (hnodes : ∀ n p, s.currPeerPositions.lookup n = some p → p.nodeID = n) (hposition : r.position.position = A.id r.txns)
    (hdisputed : Disputed s r r.txns) (hcounted : ∀ n, Counted s r n) : Sound A (adoptSet A r s) := by
  unfold Round.adoptSet
  split_ifs with hold
  · obtain ⟨o, ho⟩ := Option.isSome_iff_exists.mp hold
    rw [A.id_injective (hids _ _ ho)] at ho
    have hstance : Stance A s r := ⟨hposition, ho, hdisputed.dispute, hdisputed.compared⟩
    refine ⟨hids, hnodes, fun r' hr' => ?_, fun r' hr' n => ?_⟩
    · rw [← Option.some.inj hr']
      exact hstance.frame rfl rfl
    · rw [← Option.some.inj hr']
      exact (hcounted n).frame rfl rfl
  · have hdisputed' : Disputed { s with acquired := s.acquired.insert (A.id r.txns) r.txns } r r.txns :=
      hdisputed.mono (fun id o ho => lookup_insert_of_new hold ho) rfl
    have hstance : Stance A { s with acquired := s.acquired.insert (A.id r.txns) r.txns } r :=
      ⟨hposition, AList.lookup_insert _, hdisputed'.dispute, hdisputed'.compared⟩
    obtain ⟨hstance', hcounted'⟩ := hstance.updatePeers (AList.lookup_insert _)
    refine ⟨ids_insert hids r.txns, hnodes, fun r' hr' => ?_, fun r' hr' n => ?_⟩
    · rw [← Option.some.inj hr']
      exact hstance'.frame rfl rfl
    · rw [← Option.some.inj hr']
      exact (hcounted' n (hcounted n).insert).frame rfl rfl

/-! ## The update of our position -/

theorem Unvoted.congr {gone gone' : N → Prop} (h : Unvoted gone r r') (hgone : ∀ n, gone' n ↔ gone n) : Unvoted gone' r r' := by
  have heq : gone' = gone := funext fun n => propext (hgone n)
  rw [heq]
  exact h

theorem unvoted_foldl {α : Type} (node : α → N) (l : List α) (r : ConsensusResult N L T H) :
    Unvoted (fun n => ∃ a ∈ l, node a = n) r (l.foldl (fun r a => unVoteAll r (node a)) r) := by
  induction l generalizing r with
  | nil =>
    refine ⟨⟨rfl, rfl⟩, rfl, fun _ htx => htx, fun tx d hd => ⟨d, hd, rfl, rfl, fun ht => ht, fun n hn => ?_, fun _ _ => rfl⟩⟩
    obtain ⟨a, ha, -⟩ := hn
    cases ha
  | cons a l ih =>
    refine ((unvoted_unVoteAll r (node a)).trans (ih _)).congr fun n => ?_
    simp [eq_comm]

theorem stance_removeStale (h : Sound A s) (hr : Stance A s r) (hcounted : ∀ n, Counted s r n) :
    Stance A (fresh A s) (removeStale A s r) ∧ ∀ n, Counted (fresh A s) (removeStale A s r) n := by
  have hstale := unvoted_foldl (fun it : Sigma fun _ : N => ConsensusProposal N L H => it.2.nodeID)
    (s.currPeerPositions.entries.filter fun it => it.2.isStale (s.now - A.parms.proposeFRESHNESS)) r
  refine hstale.sound hr hcounted rfl (fun n hn => ?_) fun n hn => ?_
  · obtain ⟨it, hit, rfl⟩ := hn
    obtain ⟨hmem, hold⟩ := List.mem_filter.mp hit
    have hlookup := AList.mem_lookup_iff.mpr hmem
    rw [h.nodes it.1 it.2 hlookup]
    refine Option.eq_none_iff_forall_not_mem.mpr fun p hp => ?_
    obtain ⟨hp, hyoung⟩ := (lookup_filterVals _ _ _).mp hp
    rw [Option.some.inj (hp.symm.trans hlookup), hold] at hyoung
    cases hyoung
  · refine Option.ext fun p => ?_
    refine (lookup_filterVals _ _ _).trans ⟨fun hp => hp.1, fun hp => ⟨hp, ?_⟩⟩
    cases hold : p.isStale (s.now - A.parms.proposeFRESHNESS) with
    | false => rfl
    | true => exact absurd ⟨⟨n, p⟩, List.mem_filter.mpr ⟨AList.mem_lookup_iff.mp hp, hold⟩, h.nodes n p hp⟩ hn

theorem ourNewSet_eq (s₁ : State N L T H W) (closeTime : NetTime) :
    (ourNewSet A s₁ (updateVotes A s r) (revote A s r) closeTime = none → revote A s r = none) ∧
    ∀ newSet, ourNewSet A s₁ (updateVotes A s r) (revote A s r) closeTime = some newSet → newSet = revotedSet A s r := by
  unfold ourNewSet revotedSet
  cases revote A s r with
  | some newSet => simp [eq_comm]
  | none =>
    dsimp only
    split_ifs
    · simp [updateVotes, eq_comm]
    · simp

theorem Sound.settlePosition (hids : ∀ h o, s.acquired.lookup h = some o → A.id o = h)
    (hnodes : ∀ n p, s.currPeerPositions.lookup n = some p → p.nodeID = n) (hstance : Stance A s r) (hcounted : ∀ n, Counted s r n)
    (closeTime : NetTime × Bool) : Sound A (settlePosition A (revote A s r) closeTime (updateVotes A s r) s) := by
  have hdisputed : Disputed s (updateVotes A s r) (revotedSet A s r) := hstance.disputed.revote
  have hvotes : ∀ n, Counted s (updateVotes A s r) n := fun n => (hcounted n).updateVotes
  unfold Round.settlePosition
  dsimp only
  obtain ⟨hnone, hsome⟩ := ourNewSet_eq (A := A) (s := s) (r := r)
    { s with haveCloseTimeConsensus := closeTime.2, result := some (updateVotes A s r) } closeTime.1
  split
  · rename_i heq
    have hsame : revotedSet A s r = r.txns := by
      unfold revotedSet
      rw [hnone heq]
      rfl
    rw [hsame] at hdisputed
    have hstance' : Stance A s (updateVotes A s r) := ⟨hstance.position, hstance.ours, hdisputed.dispute, hdisputed.compared⟩
    refine ⟨hids, hnodes, fun r' hr' => ?_, fun r' hr' n => ?_⟩
    · rw [← Option.some.inj hr']
      exact hstance'.frame rfl rfl
    · rw [← Option.some.inj hr']
      exact (hvotes n).frame rfl rfl
  · rename_i newSet heq
    obtain rfl := hsome newSet heq
    have hdisputed' : Disputed { s with haveCloseTimeConsensus := closeTime.2, result := some (updateVotes A s r) }
        (updateVotes A s r) (revotedSet A s r) := hdisputed.mono (fun _ _ ho => ho) rfl
    refine Sound.announce ?_ _
    refine Sound.adoptSet hids hnodes rfl ⟨?_, ?_⟩ fun n => ?_
    · exact hdisputed'.dispute
    · exact hdisputed'.compared
    · exact (hvotes n).frame rfl rfl

theorem Sound.updateOurPositions (h : Sound A s) (hr : s.result = some r) : Sound A (updateOurPositions A s r) := by
  obtain ⟨hstance, hcounted⟩ := stance_removeStale h (h.stance r hr) (h.counted r hr)
  refine Sound.settlePosition (s := fresh A s) h.ids (fun n p hp => ?_) hstance hcounted _
  exact h.nodes n p ((lookup_filterVals _ _ _).mp hp).1

/-! ## The first position -/

theorem stance_disputePeers (h : Stance A s r) (hids : ∀ id o, s.acquired.lookup id = some o → A.id o = id)
    (hcounted : ∀ n, Counted s r n) : Stance A s (disputePeers A s r) ∧ ∀ n, Counted s (disputePeers A s r) n := by
  unfold disputePeers
  generalize s.currPeerPositions.entries = entries
  induction entries generalizing r with
  | nil => exact ⟨h, hcounted⟩
  | cons pit entries ih =>
    rw [List.foldl_cons]
    cases hset : s.acquired.lookup pit.2.position with
    | none => exact ih h hcounted
    | some set =>
      rw [← hids _ _ hset] at hset
      obtain ⟨hstance, hextends⟩ := h.createDisputes hset
      exact ih hstance fun n => hextends.counted n (hcounted n)

theorem acquired_takeStance (world : W) (hids : ∀ id o, s.acquired.lookup id = some o → A.id o = id) (r : ConsensusResult N L T H) :
    (takeStance A r world s).currPeerPositions = s.currPeerPositions ∧
    (takeStance A r world s).acquired.lookup (A.id r.txns) = some r.txns ∧
    ∀ id o, (takeStance A r world s).acquired.lookup id = some o → A.id o = id := by
  have hacquired : (takeStance A r world s).acquired =
      if (s.acquired.lookup (A.id r.txns)).isSome then s.acquired else s.acquired.insert (A.id r.txns) r.txns := by
    unfold takeStance
    dsimp only
    split_ifs <;> rfl
  have hpeers : (takeStance A r world s).currPeerPositions = s.currPeerPositions := by
    unfold takeStance
    dsimp only
    split_ifs <;> rfl
  rw [hacquired, hpeers]
  refine ⟨rfl, ?_⟩
  split_ifs with hold
  · obtain ⟨o, ho⟩ := Option.isSome_iff_exists.mp hold
    rw [A.id_injective (hids _ _ ho)] at ho
    exact ⟨ho, hids⟩
  · exact ⟨AList.lookup_insert _, ids_insert hids r.txns⟩

theorem Sound.closeLedger (h : Sound A s) (hrun : closeLedger A s = .ok s') : Sound A s' := by
  unfold Round.closeLedger at hrun
  split_ifs at hrun
  dsimp only at hrun
  obtain rfl := Except.ok.inj hrun
  generalize hr : ({ (onClose A s).1 with roundTime := ConsensusTimer.reset (A.clock (onClose A s).2).1 } : ConsensusResult N L T H) = r
  have hposition : r.position.position = A.id r.txns := by rw [← hr]; rfl
  have hdisputes : r.disputes = ∅ := by rw [← hr]; rfl
  have hcompares : r.compares = ∅ := by rw [← hr]; rfl
  obtain ⟨hpeers, hours, hids⟩ := acquired_takeStance (A.clock (onClose A s).2).2 h.ids r
  generalize takeStance A r (A.clock (onClose A s).2).2 s = s₁ at hpeers hours hids
  have hstance : Stance A s₁ r := by
    refine ⟨hposition, hours, fun tx d hd => ?_, fun id hid => ?_⟩
    · rw [hdisputes] at hd
      cases hd
    · rw [hcompares] at hid
      cases hid
  obtain ⟨hstance', hcounted⟩ := stance_disputePeers hstance hids fun n tx d vote hd => by
    rw [hdisputes] at hd
    cases hd
  refine ⟨hids, fun n p hp => h.nodes n p (hpeers ▸ hp), fun r' hr' => ?_, fun r' hr' n => ?_⟩
  · rw [← Option.some.inj hr']
    exact hstance'.frame rfl rfl
  · rw [← Option.some.inj hr']
    exact (hcounted n).frame rfl rfl

/-! ## Runs -/

theorem Sound.retimed (h : Sound A s) (hr : s.result = some r) (hresult : s'.result = some r') (htxns : r'.txns = r.txns)
    (hposition : r'.position.position = r.position.position) (hdisputes : r'.disputes = r.disputes)
    (hcompares : r'.compares = r.compares) (hacquired : s'.acquired = s.acquired)
    (hpeers : s'.currPeerPositions = s.currPeerPositions) : Sound A s' := by
  have hstance := h.stance r hr
  refine ⟨by rw [hacquired]; exact h.ids, by rw [hpeers]; exact h.nodes, fun r'' hr'' => ?_, fun r'' hr'' n => ?_⟩
  · rw [← Option.some.inj (hresult.symm.trans hr'')]
    refine Stance.frame (s := s) ⟨?_, ?_, ?_, ?_⟩ hacquired hpeers
    · rw [hposition, htxns]
      exact hstance.position
    · rw [htxns]
      exact hstance.ours
    · rw [hdisputes, htxns]
      exact hstance.dispute
    · rw [hdisputes, htxns, hcompares]
      exact hstance.compared
  · rw [← Option.some.inj (hresult.symm.trans hr'')]
    refine Counted.frame (s := s) ?_ hacquired hpeers
    intro tx d vote hd
    rw [hdisputes] at hd
    exact h.counted r hr n tx d vote hd

theorem Sound.leaveConsensus (h : Sound A s) : Sound A (leaveConsensus s) := by
  unfold Round.leaveConsensus
  split
  · split
    · exact h.frame rfl rfl rfl
    · rename_i r hr
      split
      · exact h.frame rfl rfl rfl
      · exact h.retimed hr rfl rfl rfl rfl rfl rfl rfl
  · exact h

theorem kept_sound (A : Adaptor N L T H W) : Kept A (Sound A) where
  frame h _ hframe := h.frame hframe.acquired hframe.currPeerPositions hframe.result
  retimed h _ hr _ _ _ := h.retimed hr rfl rfl rfl rfl rfl rfl rfl
  accepted h := h.frame rfl rfl rfl
  reset _ _ _ _ _ := by
    refine ⟨fun id o ho => ?_, fun n p hp => ?_, fun r hr => ?_, fun r hr => ?_⟩
    · cases ho
    · cases hp
    · cases hr
    · cases hr
  proposal now p h := h.peerProposalInternal now p
  txSet now set h := h.gotTxSet now set
  leave h := h.leaveConsensus
  cleared h := by
    refine ⟨h.ids, fun n p hp => ?_, fun r hr => ?_, fun r hr n tx d vote hd => ?_⟩
    · cases hp
    · obtain ⟨r', hr', rfl⟩ := Option.map_eq_some_iff.mp hr
      refine ⟨(h.stance r' hr').position, (h.stance r' hr').ours, fun tx d hd => ?_, fun id hid => ?_⟩
      · cases hd
      · cases hid
    · obtain ⟨r', hr', rfl⟩ := Option.map_eq_some_iff.mp hr
      cases hd
  wrong h := h.frame rfl rfl rfl
  close h hrun := h.closeLedger hrun
  update hr h := h.updateOurPositions hr

theorem sound_created (prevLedgerID : L) (previousLedger : Ledger L) (world : W) :
    Sound A (State.created prevLedgerID previousLedger world) := by
  refine ⟨fun id o ho => ?_, fun n p hp => ?_, fun r hr => ?_, fun r hr => ?_⟩
  · cases ho
  · cases hp
  · cases hr
  · cases hr

/-- In every state of every run in which we have a position: it names our set, which we have; in every dispute our vote is what our set
says; a set that was compared with ours differs from it in disputed transactions only; only peers with a position have votes; a peer
whose set we have has a vote in every dispute, and that is what its set says; and the counts of a dispute are those of its votes. -/
theorem disputes_agree {events : List (Event N L T H)} (hrun : Run A events s) (hr : s.result = some r) :
    (r.position.position = A.id r.txns ∧ s.acquired.lookup (A.id r.txns) = some r.txns) ∧
    (∀ tx d, r.disputes.lookup tx = some d → d.tx = tx ∧ d.ourVote = decide (tx ∈ r.txns)) ∧
    (∀ id ∈ r.compares, ∃ o, A.id o = id ∧ s.acquired.lookup id = some o ∧ ∀ tx, (tx ∈ r.txns ↔ tx ∉ o) → tx ∈ r.disputes) ∧
    (∀ tx d n vote, r.disputes.lookup tx = some d → d.votes.lookup n = some vote → n ∈ s.currPeerPositions) ∧
    (∀ tx d n p o, r.disputes.lookup tx = some d → s.currPeerPositions.lookup n = some p → s.acquired.lookup p.position = some o →
      d.votes.lookup n = some (decide (tx ∈ o))) ∧
    ∀ tx d, r.disputes.lookup tx = some d →
      d.yays = DisputedTx.countVotes d.votes true ∧ d.nays = DisputedTx.countVotes d.votes false := by
  have hsound := (kept_sound A).run sound_created hrun
  have hstance := hsound.stance r hr
  refine ⟨⟨hstance.position, hstance.ours⟩, fun tx d hd => ?_, fun id hid => ?_, fun tx d n vote hd hvote => ?_,
    fun tx d n p o hd hp ho => ?_, fun tx d hd => ?_⟩
  · exact ⟨(hstance.dispute tx d hd).subject, (hstance.dispute tx d hd).ourVote⟩
  · obtain ⟨o, ho, hdisputed⟩ := hstance.compared id hid
    exact ⟨o, hsound.ids id o ho, ho, hdisputed⟩
  · exact (hstance.dispute tx d hd).voters n vote hvote
  · exact hsound.counted r hr n tx d _ hd (peerVote_eq.mpr ⟨p, o, hp, ho, rfl⟩)
  · exact (hstance.dispute tx d hd).tallied

/-- We propose the empty set, and then get the set of a peer that proposes transaction 3. -/
theorem disputes_agree_late :
    let events : List (Event ℕ ℕ (Fin 8) (Finset (Fin 8))) :=
      [.startRound 1 100 1 ⟨1, 5, 30, 20, 30, true⟩ [] true, .peerProposal 101 ⟨1, {3}, 100, 101, 0, 7⟩, .timerEntry 1 102,
        .gotTxSet 103 {3}]
    ∃ s r d, Run Adaptor.alone events s ∧ s.result = some r ∧ r.disputes.lookup 3 = some d ∧ d.ourVote = false ∧
      d.votes.lookup 7 = some true := by
  intro events
  have hend : ((events.foldlM (fun s e => step Adaptor.alone e s)
      (State.created 1 ⟨1, 5, 30, 20, 30, true⟩ ())).toOption.bind fun s => s.result.bind fun r => (r.disputes.lookup 3).map fun _ =>
        (decide (3 ∈ r.txns), (s.currPeerPositions.lookup 7).map (·.position), s.acquired.lookup {3})) =
      some (false, some {3}, some {3}) := by decide
  obtain ⟨s, hs, hend⟩ := Option.bind_eq_some_iff.mp hend
  obtain ⟨r, hr, hend⟩ := Option.bind_eq_some_iff.mp hend
  obtain ⟨d, hd, hend⟩ := Option.map_eq_some_iff.mp hend
  simp only [Prod.mk.injEq] at hend
  obtain ⟨hours, hposition, hset⟩ := hend
  obtain ⟨p, hp, hp3⟩ := Option.map_eq_some_iff.mp hposition
  have hrun : Run Adaptor.alone events s := ⟨1, _, (), toOption_eq_some.mp hs⟩
  obtain ⟨-, hvote, -, -, hvotes, -⟩ := disputes_agree hrun hr
  refine ⟨s, r, d, hrun, hr, hd, (hvote 3 d hd).2.trans hours, ?_⟩
  exact (hvotes 3 d 7 p {3} hd hp (hp3 ▸ hset)).trans (by decide)

end ScfChain.Consensus.Round
