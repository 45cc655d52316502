import ScfChain.Consensus.Round.Positions

/-!
# What the disputes record

* `Stance A s r` : our position names our set, which we have; a dispute records our vote, counts its votes, and has votes of peers
  with a position only; a set that was compared with ours differs from it in disputed transactions only;
* `Counted s r n` : every dispute has the vote of the peer `n`, as its set says, if we have that set.

`createDisputes`, `updateDisputes` and `updatePeers` keep the first and establish the second.
-/

set_option linter.unusedSectionVars false

namespace ScfChain.Consensus.Round

open ScfChain.Data

variable {N L T H W : Type} [DecidableEq N] [DecidableEq L] [DecidableEq T] [DecidableEq H] {A : Adaptor N L T H W}
  {s : State N L T H W} {r : ConsensusResult N L T H}

/-- What a dispute over `tx` records, where our set is `txns` and the peers are those of `s`. -/
structure RightDispute (s : State N L T H W) (txns : Finset T) (tx : T) (d : DisputedTx N T) : Prop where
  subject : d.tx = tx
  ourVote : d.ourVote = decide (tx ∈ txns)
  tallied : d.Tallied
  voters : ∀ n vote, d.votes.lookup n = some vote → n ∈ s.currPeerPositions

structure Stance (A : Adaptor N L T H W) (s : State N L T H W) (r : ConsensusResult N L T H) : Prop where
  position : r.position.position = A.id r.txns
  ours : s.acquired.lookup (A.id r.txns) = some r.txns
  dispute : ∀ tx d, r.disputes.lookup tx = some d → RightDispute s r.txns tx d
  compared : ∀ h ∈ r.compares, ∃ o, s.acquired.lookup h = some o ∧ ∀ tx, (tx ∈ r.txns ↔ tx ∉ o) → tx ∈ r.disputes

/-- The vote of the peer `n` on `tx`, if we have its set. -/
def peerVote (s : State N L T H W) (n : N) (tx : T) : Option Bool :=
  (s.currPeerPositions.lookup n).bind fun p => (s.acquired.lookup p.position).map fun o => decide (tx ∈ o)

def Counted (s : State N L T H W) (r : ConsensusResult N L T H) (n : N) : Prop :=
  ∀ tx d vote, r.disputes.lookup tx = some d → peerVote s n tx = some vote → d.votes.lookup n = some vote

theorem peerVote_eq {n : N} {tx : T} {vote : Bool} :
    peerVote s n tx = some vote ↔
      ∃ p o, s.currPeerPositions.lookup n = some p ∧ s.acquired.lookup p.position = some o ∧ vote = decide (tx ∈ o) := by
  simp only [peerVote, Option.bind_eq_some_iff, Option.map_eq_some_iff]
  constructor
  · rintro ⟨p, hp, o, ho, rfl⟩
    exact ⟨p, o, hp, ho, rfl⟩
  · rintro ⟨p, o, hp, ho, rfl⟩
    exact ⟨p, hp, o, ho, rfl⟩

/-! ## A new dispute -/

theorem countPeer_eq (tx : T) (d : DisputedTx N T) (pit : Sigma fun _ : N => ConsensusProposal N L H) :
    countPeer s tx d pit = d ∨
      ∃ set, s.acquired.lookup pit.2.position = some set ∧ countPeer s tx d pit = d.setVote pit.1 (decide (tx ∈ set)) := by
  unfold countPeer
  split
  · exact .inl rfl
  · exact .inr ⟨_, by assumption, rfl⟩

theorem lookup_foldl_countPeer (tx : T) (n : N) (entries : List (Sigma fun _ : N => ConsensusProposal N L H))
    (hkeys : entries.NodupKeys) (d : DisputedTx N T) :
    (entries.foldl (countPeer s tx) d).votes.lookup n =
      ((entries.dlookup n).bind fun p => (s.acquired.lookup p.position).map fun o => decide (tx ∈ o)).or (d.votes.lookup n) := by
  induction entries generalizing d with
  | nil => rfl
  | cons pit entries ih =>
    obtain ⟨peer, p⟩ := pit
    obtain ⟨hpeer, hkeys⟩ := List.nodupKeys_cons.mp hkeys
    rw [List.foldl_cons, ih hkeys]
    by_cases hn : n = peer
    · have hnone : entries.dlookup n = none := List.dlookup_eq_none.mpr (hn ▸ hpeer)
      rw [hnone, hn, List.dlookup_cons_eq]
      cases hset : s.acquired.lookup p.position with
      | none => simp [countPeer, hset]
      | some set => simp [countPeer, hset, DisputedTx.lookup_setVote]
    · rw [List.dlookup_cons_ne _ _ hn]
      cases hset : s.acquired.lookup p.position with
      | none => simp [countPeer, hset]
      | some set => simp [countPeer, hset, DisputedTx.lookup_setVote, hn]

theorem lookup_newDispute (txns : Finset T) (tx : T) (n : N) : (newDispute s txns tx).votes.lookup n = peerVote s n tx := by
  rw [newDispute, lookup_foldl_countPeer tx n _ s.currPeerPositions.nodupKeys]
  simp [peerVote, AList.lookup]

theorem rightDispute_new (txns : Finset T) (tx : T) : RightDispute s txns tx (newDispute s txns tx) := by
  have hkeep : ∀ (entries : List (Sigma fun _ : N => ConsensusProposal N L H)) (d : DisputedTx N T),
      d.tx = tx → d.ourVote = decide (tx ∈ txns) → d.Tallied →
      (entries.foldl (countPeer s tx) d).tx = tx ∧ (entries.foldl (countPeer s tx) d).ourVote = decide (tx ∈ txns) ∧
        (entries.foldl (countPeer s tx) d).Tallied := by
    intro entries
    induction entries with
    | nil => exact fun d htx hours htallied => ⟨htx, hours, htallied⟩
    | cons pit entries ih =>
      intro d htx hours htallied
      rw [List.foldl_cons]
      obtain heq | ⟨set, -, heq⟩ := countPeer_eq (s := s) tx d pit
      · rw [heq]
        exact ih d htx hours htallied
      · rw [heq]
        exact ih _ (by rw [DisputedTx.setVote_tx, htx]) (by rw [DisputedTx.setVote_ourVote, hours]) (htallied.setVote _ _)
  obtain ⟨htx, hours, htallied⟩ := hkeep s.currPeerPositions.entries ⟨0, 0, decide (tx ∈ txns), tx, ∅⟩ rfl rfl
    (DisputedTx.tallied_new _ _)
  refine ⟨htx, hours, htallied, fun n vote hvote => ?_⟩
  rw [lookup_newDispute, peerVote_eq] at hvote
  obtain ⟨p, -, hp, -⟩ := hvote
  exact (mem_iff_lookup _ _).mpr ⟨p, hp⟩

/-! ## Disputes with another set -/

/-- `r'` has the disputes of `r` and more, with the votes of the peers that `r` has counted. -/
structure Extends (s : State N L T H W) (r r' : ConsensusResult N L T H) : Prop where
  stance : SameStance r r'
  dispute : (∀ tx d, r.disputes.lookup tx = some d → RightDispute s r.txns tx d) →
    ∀ tx d, r'.disputes.lookup tx = some d → RightDispute s r.txns tx d
  grows : ∀ tx, tx ∈ r.disputes → tx ∈ r'.disputes
  counted : ∀ n, Counted s r n → Counted s r' n

theorem Extends.refl (r : ConsensusResult N L T H) : Extends s r r := ⟨⟨rfl, rfl⟩, fun h => h, fun _ h => h, fun _ h => h⟩

theorem Extends.trans {r r' r'' : ConsensusResult N L T H} (h : Extends s r r') (h' : Extends s r' r'') : Extends s r r'' where
  stance := h.stance.trans h'.stance
  dispute hr := by
    have hr' := h.dispute hr
    rw [← h.stance.1] at hr' ⊢
    exact h'.dispute hr'
  grows tx htx := h'.grows tx (h.grows tx htx)
  counted n hn := h'.counted n (h.counted n hn)

theorem extends_addDispute (r : ConsensusResult N L T H) (difference : T × Bool) :
    Extends s r (addDispute s r difference) ∧ difference.1 ∈ (addDispute s r difference).disputes := by
  obtain ⟨tx, inOurs⟩ := difference
  unfold addDispute
  split_ifs with hmem
  · exact ⟨.refl r, (mem_iff_lookup _ _).mpr (Option.isSome_iff_exists.mp hmem)⟩
  · have hlookup : ∀ tx' d, (r.disputes.insert tx (newDispute s r.txns tx)).lookup tx' = some d →
        (tx' = tx ∧ d = newDispute s r.txns tx) ∨ r.disputes.lookup tx' = some d := by
      intro tx' d hd
      by_cases htx : tx' = tx
      · rw [htx, AList.lookup_insert] at hd
        exact .inl ⟨htx, (Option.some.inj hd).symm⟩
      · rw [AList.lookup_insert_ne htx] at hd
        exact .inr hd
    refine ⟨⟨⟨rfl, rfl⟩, fun hr tx' d hd => ?_, fun tx' htx' => ?_, fun n hn tx' d vote hd hvote => ?_⟩, ?_⟩
    · obtain ⟨rfl, rfl⟩ | hd := hlookup tx' d hd
      · exact rightDispute_new _ _
      · exact hr tx' d hd
    · exact AList.mem_insert _ |>.mpr (.inr htx')
    · obtain ⟨rfl, rfl⟩ | hd := hlookup tx' d hd
      · rw [lookup_newDispute]
        exact hvote
      · exact hn tx' d vote hd hvote
    · exact AList.mem_insert _ |>.mpr (.inl rfl)

theorem extends_foldl_addDispute (differences : List (T × Bool)) (r : ConsensusResult N L T H) :
    Extends s r (differences.foldl (addDispute s) r) ∧
      ∀ e ∈ differences, e.1 ∈ (differences.foldl (addDispute s) r).disputes := by
  induction differences generalizing r with
  | nil => exact ⟨.refl r, by simp⟩
  | cons e differences ih =>
    obtain ⟨hfirst, hmem⟩ := extends_addDispute (s := s) r e
    obtain ⟨hrest, hmems⟩ := ih (addDispute s r e)
    exact ⟨hfirst.trans hrest, List.forall_mem_cons.mpr ⟨hrest.grows _ hmem, hmems⟩⟩

theorem compares_foldl_addDispute (differences : List (T × Bool)) (r : ConsensusResult N L T H) :
    (differences.foldl (addDispute s) r).compares = r.compares := by
  induction differences generalizing r with
  | nil => rfl
  | cons e differences ih =>
    rw [List.foldl_cons, ih]
    unfold addDispute
    split_ifs <;> rfl

theorem Stance.createDisputes (h : Stance A s r) {o : Finset T} (ho : s.acquired.lookup (A.id o) = some o) :
    Stance A s (createDisputes A s r o) ∧ Extends s r (createDisputes A s r o) := by
  unfold Round.createDisputes
  split_ifs with hmem hsame
  · exact ⟨h, .refl r⟩
  · -- the sets are the same, so they differ in nothing
    have heq : r.txns = o := A.id_injective hsame
    refine ⟨⟨h.position, h.ours, h.dispute, fun id hid => ?_⟩, ⟨⟨rfl, rfl⟩, fun hr => hr, fun _ htx => htx, fun _ hn => hn⟩⟩
    rcases Finset.mem_insert.mp hid with rfl | hid
    · refine ⟨o, ho, fun tx htx => ?_⟩
      rw [heq] at htx
      exact absurd htx (by tauto)
    · exact h.compared id hid
  · obtain ⟨hextends, hmems⟩ := extends_foldl_addDispute (s := s) (A.compare r.txns o)
      { r with compares := insert (A.id o) r.compares }
    obtain ⟨htxns, hposition⟩ := hextends.stance
    have hcompares := compares_foldl_addDispute (s := s) (A.compare r.txns o) { r with compares := insert (A.id o) r.compares }
    refine ⟨⟨?_, ?_, ?_, fun id hid => ?_⟩, ⟨hextends.stance, hextends.dispute, hextends.grows, hextends.counted⟩⟩
    · rw [hposition, htxns]
      exact h.position
    · rw [htxns]
      exact h.ours
    · rw [htxns]
      exact hextends.dispute h.dispute
    · rw [hcompares] at hid
      rw [htxns]
      rcases Finset.mem_insert.mp hid with rfl | hid
      · exact ⟨o, ho, fun tx htx => hmems (tx, decide (tx ∈ r.txns)) ((A.mem_compare _ _ _ _).mpr ⟨rfl, htx⟩)⟩
      · obtain ⟨o', ho', hdisputed⟩ := h.compared id hid
        exact ⟨o', ho', fun tx htx => hextends.grows tx (hdisputed tx htx)⟩

theorem Stance.setVotes (h : Stance A s r) {node : N} (hnode : node ∈ s.currPeerPositions) (other : Finset T) :
    Stance A s { r with disputes := mapVals (fun d => d.setVote node (decide (d.tx ∈ other))) r.disputes } := by
  refine ⟨h.position, h.ours, fun tx d hd => ?_, fun id hid => ?_⟩
  · obtain ⟨d', hd', rfl⟩ := Option.map_eq_some_iff.mp ((lookup_mapVals _ _ _).symm.trans hd)
    have hright := h.dispute tx d' hd'
    refine ⟨by rw [DisputedTx.setVote_tx, hright.subject], by rw [DisputedTx.setVote_ourVote, hright.ourVote],
      hright.tallied.setVote _ _, fun n vote hvote => ?_⟩
    rw [DisputedTx.lookup_setVote] at hvote
    split_ifs at hvote with hn
    · rw [hn]
      exact hnode
    · exact hright.voters n vote hvote
  · obtain ⟨o, ho, hdisputed⟩ := h.compared id hid
    refine ⟨o, ho, fun tx htx => ?_⟩
    obtain ⟨d, hd⟩ := (mem_iff_lookup _ _).mp (hdisputed tx htx)
    exact (mem_iff_lookup _ _).mpr ⟨_, by rw [lookup_mapVals, hd]; rfl⟩

theorem Stance.updateDisputes (h : Stance A s r) {node : N} {p : ConsensusProposal N L H} {other : Finset T}
    (hnode : s.currPeerPositions.lookup node = some p) (hp : p.position = A.id other)
    (hother : s.acquired.lookup (A.id other) = some other) :
    Stance A s (updateDisputes A s r node other) ∧ Counted s (updateDisputes A s r node other) node ∧
      ∀ n, Counted s r n → Counted s (updateDisputes A s r node other) n := by
  have hmem : node ∈ s.currPeerPositions := (mem_iff_lookup _ _).mpr ⟨p, hnode⟩
  obtain ⟨hstance, hextends⟩ : Stance A s (if A.id other ∈ r.compares then r else Round.createDisputes A s r other) ∧
      Extends s r (if A.id other ∈ r.compares then r else Round.createDisputes A s r other) := by
    split_ifs
    · exact ⟨h, .refl r⟩
    · exact h.createDisputes hother
  unfold Round.updateDisputes
  generalize (if A.id other ∈ r.compares then r else Round.createDisputes A s r other) = r' at hstance hextends
  have hvotes : ∀ tx vote, peerVote s node tx = some vote → vote = decide (tx ∈ other) := by
    intro tx vote hvote
    obtain ⟨p', o, hp', ho, rfl⟩ := peerVote_eq.mp hvote
    obtain rfl := Option.some.inj (hnode.symm.trans hp')
    rw [hp, hother] at ho
    rw [Option.some.inj ho]
  refine ⟨hstance.setVotes hmem other, fun tx d vote hd hvote => ?_, fun n hn tx d vote hd hvote => ?_⟩
  · obtain ⟨d', hd', rfl⟩ := Option.map_eq_some_iff.mp ((lookup_mapVals _ _ _).symm.trans hd)
    rw [DisputedTx.lookup_setVote, if_pos rfl, (hstance.dispute tx d' hd').subject, hvotes tx vote hvote]
  · obtain ⟨d', hd', rfl⟩ := Option.map_eq_some_iff.mp ((lookup_mapVals _ _ _).symm.trans hd)
    rw [DisputedTx.lookup_setVote]
    split_ifs with heq
    · rw [heq] at hvote
      rw [(hstance.dispute tx d' hd').subject, hvotes tx vote hvote]
    · exact hextends.counted n hn tx d' vote hd' hvote

theorem Stance.updatePeers (h : Stance A s r) {set : Finset T} (hset : s.acquired.lookup (A.id set) = some set) :
    Stance A s (updatePeers A s r set) ∧
      ∀ n, (Counted s r n ∨ ∃ p, s.currPeerPositions.lookup n = some p ∧ p.position = A.id set) →
        Counted s (updatePeers A s r set) n := by
  have hfold : ∀ (entries : List (Sigma fun _ : N => ConsensusProposal N L H)),
      (∀ it ∈ entries, s.currPeerPositions.lookup it.1 = some it.2) → ∀ r, Stance A s r →
      let r' := entries.foldl (fun r it => if it.2.position = A.id set then Round.updateDisputes A s r it.1 set else r) r
      Stance A s r' ∧ ∀ n, (Counted s r n ∨ ∃ it ∈ entries, it.1 = n ∧ it.2.position = A.id set) → Counted s r' n := by
    intro entries hentries
    induction entries with
    | nil => exact fun r hr => ⟨hr, fun n hn => hn.resolve_right (by simp)⟩
    | cons it entries ih =>
      intro r hr
      have hit := hentries it List.mem_cons_self
      have ih := ih fun it hit => hentries it (List.mem_cons_of_mem _ hit)
      rw [List.foldl_cons]
      by_cases hposition : it.2.position = A.id set
      · rw [if_pos hposition]
        obtain ⟨hstance, hself, hothers⟩ := hr.updateDisputes hit hposition hset
        obtain ⟨hstance', hcounted⟩ := ih _ hstance
        refine ⟨hstance', fun n hn => hcounted n ?_⟩
        rcases hn with hn | ⟨it', hmem, rfl, hit'⟩
        · exact .inl (hothers n hn)
        · rcases List.mem_cons.mp hmem with rfl | hmem
          · exact .inl hself
          · exact .inr ⟨it', hmem, rfl, hit'⟩
      · rw [if_neg hposition]
        obtain ⟨hstance', hcounted⟩ := ih r hr
        refine ⟨hstance', fun n hn => hcounted n ?_⟩
        rcases hn with hn | ⟨it', hmem, rfl, hit'⟩
        · exact .inl hn
        · rcases List.mem_cons.mp hmem with rfl | hmem
          · exact absurd hit' hposition
          · exact .inr ⟨it', hmem, rfl, hit'⟩
  obtain ⟨hstance, hcounted⟩ := hfold s.currPeerPositions.entries (fun it hit => AList.mem_lookup_iff.mpr hit) r h
  refine ⟨hstance, fun n hn => hcounted n ?_⟩
  rcases hn with hn | ⟨p, hp, hposition⟩
  · exact .inl hn
  · exact .inr ⟨⟨n, p⟩, AList.mem_lookup_iff.mp hp, rfl, hposition⟩

end ScfChain.Consensus.Round
