import ScfChain.Consensus.Round.CloseTime
import ScfChain.Consensus.Round.Runs
import ScfChain.Consensus.Round.Votes

/-!
# Disputes agree with the sets

`Sound A s` : the sets we have are those their ids name, and once we have a position, `Stance` and `Counted` hold of it. Everything
that a round does keeps this, and so it holds in every state of every run.
-/

set_option linter.unusedSectionVars false

namespace ScfChain.Consensus.Round

open ScfChain.Data

variable {N L T H W : Type} [DecidableEq N] [DecidableEq L] [DecidableEq T] [DecidableEq H] {A : Adaptor N L T H W}
  {s s' : State N L T H W} {r r' : ConsensusResult N L T H}

structure Sound (A : Adaptor N L T H W) (s : State N L T H W) : Prop where
  ids : ∀ h o, s.acquired.lookup h = some o → A.id o = h
  nodes : ∀ n p, s.currPeerPositions.lookup n = some p → p.nodeID = n
  stance : ∀ r, s.result = some r → Stance A s r
  counted : ∀ r, s.result = some r → ∀ n, Counted s r n

/-! ## Sets and peers that arrive -/

theorem Stance.mono (h : Stance A s r) (hacquired : ∀ id o, s.acquired.lookup id = some o → s'.acquired.lookup id = some o)
    (hpeers : ∀ n ∈ s.currPeerPositions, n ∈ s'.currPeerPositions) : Stance A s' r := by
  refine ⟨h.position, hacquired _ _ h.ours, fun tx d hd => ?_, fun id hid => ?_⟩
  · obtain ⟨hsubject, hours, htallied, hvoters⟩ := h.dispute tx d hd
    exact ⟨hsubject, hours, htallied, fun n vote hvote => hpeers n (hvoters n vote hvote)⟩
  · obtain ⟨o, ho, hdisputed⟩ := h.compared id hid
    exact ⟨o, hacquired id o ho, hdisputed⟩

theorem Stance.frame (h : Stance A s r) (hacquired : s'.acquired = s.acquired) (hpeers : s'.currPeerPositions = s.currPeerPositions) :
    Stance A s' r :=
  h.mono (fun _ _ ho => by rw [hacquired]; exact ho) fun _ hn => by rw [hpeers]; exact hn

theorem Counted.frame {n : N} (h : Counted s r n) (hacquired : s'.acquired = s.acquired)
    (hpeers : s'.currPeerPositions = s.currPeerPositions) : Counted s' r n := by
  intro tx d vote hd hvote
  refine h tx d vote hd ?_
  unfold peerVote at hvote ⊢
  rw [← hacquired, ← hpeers]
  exact hvote

theorem Sound.frame (h : Sound A s) (hacquired : s'.acquired = s.acquired) (hpeers : s'.currPeerPositions = s.currPeerPositions)
    (hresult : s'.result = s.result) : Sound A s' where
  ids := by rw [hacquired]; exact h.ids
  nodes := by rw [hpeers]; exact h.nodes
  stance r hr := (h.stance r (hresult ▸ hr)).frame hacquired hpeers
  counted r hr n := (h.counted r (hresult ▸ hr) n).frame hacquired hpeers

theorem lookup_insert_of_new {K V : Type} [DecidableEq K] {m : Assoc K V} {k k' : K} {v v' : V} (hnew : ¬ (m.lookup k).isSome = true)
    (h : m.lookup k' = some v') : (m.insert k v).lookup k' = some v' := by
  have hne : k' ≠ k := by
    rintro rfl
    exact hnew (by rw [h]; rfl)
  rw [AList.lookup_insert_ne hne]
  exact h

theorem ids_insert (h : ∀ id o, s.acquired.lookup id = some o → A.id o = id) (set : Finset T) :
    ∀ id o, (s.acquired.insert (A.id set) set).lookup id = some o → A.id o = id := by
  intro id o ho
  by_cases heq : id = A.id set
  · rw [heq, AList.lookup_insert] at ho
    rw [heq, ← Option.some.inj ho]
  · rw [AList.lookup_insert_ne heq] at ho
    exact h id o ho

theorem Counted.insert {n : N} {set : Finset T} (h : Counted s r n) :
    Counted { s with acquired := s.acquired.insert (A.id set) set } r n ∨
      ∃ p, s.currPeerPositions.lookup n = some p ∧ p.position = A.id set := by
  by_cases hposition : ∃ p, s.currPeerPositions.lookup n = some p ∧ p.position = A.id set
  · exact .inr hposition
  · refine .inl fun tx d vote hd hvote => h tx d vote hd ?_
    obtain ⟨p, o, hp, ho, rfl⟩ := peerVote_eq.mp hvote
    have hne : p.position ≠ A.id set := fun heq => hposition ⟨p, hp, heq⟩
    exact peerVote_eq.mpr ⟨p, o, hp, (AList.lookup_insert_ne hne).symm.trans ho, rfl⟩

/-- A new set arrives when the stance is right and everyone whose set we have has been counted, for the set itself is one that we did
not have. -/
theorem Stance.arrive (hr : Stance A s r) (hcounted : ∀ n, Counted s r n) {set : Finset T}
    (hnew : ¬ (s.acquired.lookup (A.id set)).isSome = true) :
    let s₁ := { s with acquired := s.acquired.insert (A.id set) set }
    Stance A s₁ (Round.updatePeers A s₁ r set) ∧ ∀ n, Counted s₁ (Round.updatePeers A s₁ r set) n := by
  intro s₁
  have hstance : Stance A s₁ r := hr.mono (fun id o ho => lookup_insert_of_new hnew ho) fun n hn => hn
  obtain ⟨hstance', hcounted'⟩ := hstance.updatePeers (AList.lookup_insert _)
  exact ⟨hstance', fun n => hcounted' n (hcounted n).insert⟩

theorem Sound.gotTxSet (h : Sound A s) (now : NetTime) (set : Finset T) : Sound A (gotTxSet A now set s) := by
  unfold Round.gotTxSet
  split_ifs with haccepted
  · exact h
  · dsimp only
    split_ifs with hold
    · exact h.frame rfl rfl rfl
    · refine ⟨ids_insert h.ids set, h.nodes, fun r hr => ?_, fun r hr => ?_⟩
      · obtain ⟨r', hr', rfl⟩ := Option.map_eq_some_iff.mp hr
        exact ((h.stance r' hr').arrive (h.counted r' hr') hold).1.frame rfl rfl
      · obtain ⟨r', hr', rfl⟩ := Option.map_eq_some_iff.mp hr
        exact fun n => (((h.stance r' hr').arrive (h.counted r' hr') hold).2 n).frame rfl rfl

/-! ## Positions of the peers -/

theorem Sound.processPosition {p : ConsensusProposal N L H} (hids : ∀ h o, s.acquired.lookup h = some o → A.id o = h)
    (hnodes : ∀ n p, s.currPeerPositions.lookup n = some p → p.nodeID = n) (hstance : ∀ r, s.result = some r → Stance A s r)
    (hcounted : ∀ r, s.result = some r → ∀ n ≠ p.nodeID, Counted s r n) (hp : s.currPeerPositions.lookup p.nodeID = some p) :
    Sound A (processPosition A p s) := by
  unfold Round.processPosition
  split
  · rename_i hnone
    -- its votes are not known, so there is nothing to be counted
    have hsound : Sound A s := by
      refine ⟨hids, hnodes, hstance, fun r hr n => ?_⟩
      by_cases hn : n = p.nodeID
      · intro tx d vote hd hvote
        obtain ⟨p', o, hp', ho, -⟩ := peerVote_eq.mp hvote
        rw [hn, hp] at hp'
        rw [← Option.some.inj hp', hnone] at ho
        cases ho
      · exact hcounted r hr n hn
    dsimp only
    split
    · exact hsound.frame rfl rfl rfl
    · refine Sound.gotTxSet (hsound.frame ?_ ?_ ?_) _ _ <;> rfl
  · rename_i set hset
    have hid : A.id set = p.position := hids _ _ hset
    rw [← hid] at hset
    have hupdate : ∀ r, s.result = some r → Stance A s (updateDisputes A s r p.nodeID set) ∧
        ∀ n, Counted s (updateDisputes A s r p.nodeID set) n := by
      intro r hr
      obtain ⟨hstance', hself, hothers⟩ := (hstance r hr).updateDisputes hp hid.symm hset
      refine ⟨hstance', fun n => ?_⟩
      by_cases hn : n = p.nodeID
      · rw [hn]
        exact hself
      · exact hothers n (hcounted r hr n hn)
    refine ⟨hids, hnodes, fun r hr => ?_, fun r hr n => ?_⟩
    · obtain ⟨r', hr', rfl⟩ := Option.map_eq_some_iff.mp hr
      exact (hupdate r' hr').1.frame rfl rfl
    · obtain ⟨r', hr', rfl⟩ := Option.map_eq_some_iff.mp hr
      exact ((hupdate r' hr').2 n).frame rfl rfl

theorem Sound.stored (h : Sound A s) {p : ConsensusProposal N L H} (hacquired : s'.acquired = s.acquired)
    (hpeers : s'.currPeerPositions = s.currPeerPositions.insert p.nodeID p) (hresult : s'.result = s.result) :
    Sound A (Round.processPosition A p s') := by
  have hlookup : ∀ n ≠ p.nodeID, s'.currPeerPositions.lookup n = s.currPeerPositions.lookup n := fun n hn => by
    rw [hpeers, AList.lookup_insert_ne hn]
  have hself : s'.currPeerPositions.lookup p.nodeID = some p := by rw [hpeers, AList.lookup_insert]
  refine Sound.processPosition ?_ (fun n p' hp' => ?_) (fun r hr => ?_) (fun r hr n hn tx d vote hd hvote => ?_) hself
  · rw [hacquired]
    exact h.ids
  · by_cases hn : n = p.nodeID
    · rw [hn, hself] at hp'
      rw [hn, ← Option.some.inj hp']
    · rw [hlookup n hn] at hp'
      exact h.nodes n p' hp'
  · refine (h.stance r (hresult ▸ hr)).mono (fun id o ho => by rw [hacquired]; exact ho) fun n hn => ?_
    rw [hpeers]
    exact (AList.mem_insert _).mpr (.inr hn)
  · refine h.counted r (hresult ▸ hr) n tx d vote hd ?_
    unfold peerVote at hvote ⊢
    rw [hlookup n hn, hacquired] at hvote
    exact hvote

/-! ## Peers that leave -/

/-- The votes of some peers are gone, and nothing else has changed. -/
structure Unvoted (gone : N → Prop) (r r' : ConsensusResult N L T H) : Prop where
  stance : SameStance r r'
  compares : r'.compares = r.compares
  mem : ∀ tx, tx ∈ r.disputes → tx ∈ r'.disputes
  dispute : ∀ tx d', r'.disputes.lookup tx = some d' → ∃ d, r.disputes.lookup tx = some d ∧ d'.tx = d.tx ∧ d'.ourVote = d.ourVote ∧
    (d.Tallied → d'.Tallied) ∧ (∀ n, gone n → d'.votes.lookup n = none) ∧ ∀ n, ¬ gone n → d'.votes.lookup n = d.votes.lookup n

theorem unvoted_unVoteAll (r : ConsensusResult N L T H) (peer : N) : Unvoted (· = peer) r (unVoteAll r peer) := by
  refine ⟨⟨rfl, rfl⟩, rfl, fun tx htx => ?_, fun tx d' hd' => ?_⟩
  · obtain ⟨d, hd⟩ := (mem_iff_lookup _ _).mp htx
    exact (mem_iff_lookup _ _).mpr ⟨_, (lookup_mapVals _ _ _).trans (by rw [hd]; rfl)⟩
  · obtain ⟨d, hd, rfl⟩ := Option.map_eq_some_iff.mp ((lookup_mapVals _ _ _).symm.trans hd')
    refine ⟨d, hd, DisputedTx.unVote_tx _ _, DisputedTx.unVote_ourVote _ _, fun ht => ht.unVote _, fun n hn => ?_, fun n hn => ?_⟩
    · rw [DisputedTx.lookup_unVote, if_pos hn]
    · rw [DisputedTx.lookup_unVote, if_neg hn]

theorem Unvoted.trans {gone gone' : N → Prop} {r r' r'' : ConsensusResult N L T H} (h : Unvoted gone r r') (h' : Unvoted gone' r' r'') :
    Unvoted (fun n => gone n ∨ gone' n) r r'' := by
  refine ⟨h.stance.trans h'.stance, h'.compares.trans h.compares, fun tx htx => h'.mem tx (h.mem tx htx), fun tx d'' hd'' => ?_⟩
  obtain ⟨d', hd', htx', hours', htallied', hgone', hkept'⟩ := h'.dispute tx d'' hd''
  obtain ⟨d, hd, htx, hours, htallied, hgone, hkept⟩ := h.dispute tx d' hd'
  refine ⟨d, hd, htx'.trans htx, hours'.trans hours, fun ht => htallied' (htallied ht), fun n hn => ?_, fun n hn => ?_⟩
  · by_cases hn' : gone' n
    · exact hgone' n hn'
    · rw [hkept' n hn']
      exact hgone n (hn.resolve_right hn')
  · obtain ⟨hn, hn'⟩ := not_or.mp hn
    rw [hkept' n hn', hkept n hn]

theorem Unvoted.sound {gone : N → Prop} (h : Unvoted gone r r') (hr : Stance A s r) (hcounted : ∀ n, Counted s r n)
    (hacquired : s'.acquired = s.acquired) (hgone : ∀ n, gone n → s'.currPeerPositions.lookup n = none)
    (hkept : ∀ n, ¬ gone n → s'.currPeerPositions.lookup n = s.currPeerPositions.lookup n) :
    Stance A s' r' ∧ ∀ n, Counted s' r' n := by
  obtain ⟨htxns, hposition⟩ := h.stance
  constructor
  · refine ⟨?_, ?_, fun tx d' hd' => ?_, fun id hid => ?_⟩
    · rw [hposition, htxns]
      exact hr.position
    · rw [hacquired, htxns]
      exact hr.ours
    · obtain ⟨d, hd, htx, hours, htallied, hgone', hkept'⟩ := h.dispute tx d' hd'
      have hright := hr.dispute tx d hd
      refine ⟨htx.trans hright.subject, by rw [hours, htxns]; exact hright.ourVote, htallied hright.tallied, fun n vote hvote => ?_⟩
      by_cases hn : gone n
      · rw [hgone' n hn] at hvote
        cases hvote
      · rw [hkept' n hn] at hvote
        obtain ⟨p, hp⟩ := (mem_iff_lookup _ _).mp (hright.voters n vote hvote)
        exact (mem_iff_lookup _ _).mpr ⟨p, by rw [hkept n hn]; exact hp⟩
    · rw [h.compares] at hid
      obtain ⟨o, ho, hdisputed⟩ := hr.compared id hid
      rw [htxns]
      exact ⟨o, by rw [hacquired]; exact ho, fun tx htx => h.mem tx (hdisputed tx htx)⟩
  · intro n tx d' vote hd' hvote
    obtain ⟨d, hd, -, -, -, -, hkept'⟩ := h.dispute tx d' hd'
    by_cases hn : gone n
    · obtain ⟨p, o, hp, -⟩ := peerVote_eq.mp hvote
      rw [hgone n hn] at hp
      cases hp
    · rw [hkept' n hn]
      refine hcounted n tx d vote hd ?_
      unfold peerVote at hvote ⊢
      rw [hkept n hn, hacquired] at hvote
      exact hvote

theorem Sound.peerBowsOut (h : Sound A s) (peer : N) : Sound A (peerBowsOut peer s) := by
  have hunvoted : ∀ r, s.result = some r → Stance A (Round.peerBowsOut peer s) (unVoteAll r peer) ∧
      ∀ n, Counted (Round.peerBowsOut peer s) (unVoteAll r peer) n := by
    intro r hr
    refine (unvoted_unVoteAll r peer).sound (h.stance r hr) (h.counted r hr) rfl (fun n hn => ?_) fun n hn => ?_
    · rw [hn]
      exact AList.lookup_erase _ _
    · exact AList.lookup_erase_ne hn
  refine ⟨h.ids, fun n p hp => ?_, fun r hr => ?_, fun r hr n => ?_⟩
  · by_cases hn : n = peer
    · rw [hn] at hp
      cases (AList.lookup_erase _ _).symm.trans hp
    · exact h.nodes n p ((AList.lookup_erase_ne hn).symm.trans hp)
  · obtain ⟨r', hr', rfl⟩ := Option.map_eq_some_iff.mp hr
    exact (hunvoted r' hr').1
  · obtain ⟨r', hr', rfl⟩ := Option.map_eq_some_iff.mp hr
    exact (hunvoted r' hr').2 n

theorem Sound.peerProposalInternal (h : Sound A s) (now : NetTime) (p : ConsensusProposal N L H) :
    Sound A (peerProposalInternal A now p s).2 := by
  have hnow : Sound A { s with now := now } := h.frame rfl rfl rfl
  unfold Round.peerProposalInternal
  split
  · exact h
  dsimp only
  split
  · exact hnow
  split
  · exact hnow
  split
  · exact hnow
  split
  · exact hnow.peerBowsOut p.nodeID
  · have hframe := frame_recordCloseTime p { s with now := now, currPeerPositions := s.currPeerPositions.insert p.nodeID p }
    exact h.stored hframe.acquired hframe.currPeerPositions hframe.result

end ScfChain.Consensus.Round
