import ScfChain.Consensus.Trie.Run
import ScfChain.Consensus.Trie.Ancestry

/-!
# The ancestry tree inside the trie

`Covers net n`: the node `n` counts exactly the supported ledgers that descend from the start of its span. It holds
at the root and goes down to the children, so the children the ledger-by-ledger walk meets are those of the trie:
one inside a span (`childrenAt_inside`), and the starts of the child nodes at its tip (`childrenAt_end`).
-/

namespace ScfChain.Consensus

open Data Ancestry

variable {L ID : Type} [LinearOrder ID] [HistoryLedger L ID] {net : L →₀ ℕ}

/-! ## The ledgers below a node -/

/-- The node counts exactly the supported ledgers that descend from the start of its span. -/
structure Covers (net : L →₀ ℕ) (n : Node L) : Prop where
  wf : n.WF
  known : ∀ y, n.support y ≠ 0 → ∃ m : L, idOf m = y
  count : ∀ m, Share n.span.ledger m n.span.start → n.support (idOf m) = net m

theorem covers_root {t : LedgerTrie L} (h : t.Inv net) : Covers net t.root where
  wf := h.wf
  known y hy := by
    rw [h.support] at hy
    by_contra hne
    refine hy (Finsupp.mapDomain_of_notMem_range net y fun ⟨m, hm⟩ => hne ⟨m, hm⟩)
  count m _ := h.support_idOf m

theorem Node.exists_child {n : Node L} {m : L} (hm : n.support (idOf m) ≠ 0) (hle : n.span.end_ ≤ seq m) :
    ∃ c ∈ n.children, c.support (idOf m) ≠ 0 := by
  rw [Node.support_apply, Finsupp.single_eq_of_ne, Nat.zero_add] at hm
  · exact Node.exists_mem_of_sum_ne_zero hm
  · intro htip
    have := (n.span.tip_id_eq_idOf_iff.mp htip.symm).1
    omega

namespace Covers

variable {n : Node L} (h : Covers net n)
include h

theorem share_tip_of_support {m : L} (hm : n.support (idOf m) ≠ 0) :
    Share n.span.ledger m (n.span.end_ - 1) :=
  n.span.below_idOf_iff.mp (h.wf.below_of_mem hm)

theorem share_tip {m : L} (hm : net m ≠ 0) (hs : Share n.span.ledger m n.span.start) :
    Share n.span.ledger m (n.span.end_ - 1) :=
  h.share_tip_of_support (by rwa [h.count m hs])

theorem support_eq_mapDomain :
    n.support = (net.filter fun m => Share n.span.ledger m n.span.start).mapDomain idOf := by
  have hinj : Function.Injective (idOf : L → ID) := fun a b => HistoryLedger.idOf_injective a b
  ext y
  by_cases hy : y ∈ Set.range (idOf : L → ID)
  · obtain ⟨m, rfl⟩ := hy
    rw [Finsupp.mapDomain_apply hinj, Finsupp.filter_apply]
    split
    · next hs => exact h.count m hs
    · next hs =>
      by_contra hne
      exact hs ((h.share_tip_of_support hne).mono (by have := n.span.start_lt; omega))
  · rw [Finsupp.mapDomain_of_notMem_range _ _ hy]
    by_contra hne
    exact hy (h.known y hne)

theorem branch_eq : n.branchSupport.toNat = branchAt net n.span.start n.span.startID := by
  rw [h.wf.branch_eq_total, h.support_eq_mapDomain, total_mapDomain, total_filter]
  unfold branchAt
  simp only [n.span.share_start_iff]

theorem exists_of_branch_pos (hpos : 0 < n.branchSupport.toNat) :
    ∃ m, net m ≠ 0 ∧ Share n.span.ledger m n.span.start := by
  rw [h.branch_eq] at hpos
  obtain ⟨m, hm, hs⟩ := tally_pos_iff.mp hpos
  exact ⟨m, Finsupp.mem_support_iff.mp hm, n.span.share_start_iff.mpr hs⟩

theorem child {c : Node L} (hc : c ∈ n.children) : Covers net c := by
  have hstart := h.wf.local.start_eq c hc
  have hlt := n.span.start_lt
  have hclt := c.span.start_lt
  have hle : ∀ y, c.support y ≤ n.support y := by
    intro y
    rw [Node.support_apply n]
    exact (List.single_le_sum (fun _ _ => Nat.zero_le _) _
      (List.mem_map_of_mem (f := fun c : Node L => c.support y) hc)).trans (Nat.le_add_left _ _)
  refine ⟨h.wf.child hc, fun y hy => h.known y (by have := hle y; omega), fun m hm => ?_⟩
  have hshare : Share n.span.ledger m (n.span.end_ - 1) :=
    (h.wf.local.share c hc).trans (hm.mono (by omega))
  have hcount := h.count m (hshare.mono (by omega))
  by_cases h0 : net m = 0
  · have := hle (idOf m)
    omega
  · -- the child that counts `m` starts where `m` passes, so it is `c`
    obtain ⟨d, hd, hdm⟩ := Node.exists_child (by rwa [hcount]) (by have := hm.2.1; omega)
    obtain ⟨pre, post, hch⟩ := List.append_of_mem hc
    have hds : Share d.span.ledger m d.span.start :=
      (d.span.below_idOf_iff.mp ((h.wf.child hd).below_of_mem hdm)).mono (by have := d.span.start_lt; omega)
    have hrest : ∀ e ∈ pre ++ post, e.support (idOf m) = 0 := by
      intro e he
      by_contra hne
      have hemem : e ∈ n.children := by
        rw [hch]
        simp only [List.mem_append, List.mem_cons] at he ⊢
        tauto
      refine h.wf.local.not_share_of_split hch hm e he ?_
      exact (e.span.below_idOf_iff.mp ((h.wf.child hemem).below_of_mem hne)).mono
        (by have := e.span.start_lt; omega)
    rw [← hcount, Node.support_apply n, hch, Node.sum_map_split _ pre c post hrest, Finsupp.single_eq_of_ne,
      Nat.zero_add]
    intro htip
    have := (n.span.tip_id_eq_idOf_iff.mp htip.symm).1
    have := hm.2.1
    omega

theorem childrenAt_inside (hpos : 0 < n.branchSupport.toNat) {s : ℕ} (hs : n.span.start < s)
    (hs' : s < n.span.end_) :
    childrenAt net (ancestor n.span.ledger (s - 1)) s = {ancestor n.span.ledger s} := by
  have hle := n.span.end_le
  ext y
  rw [mem_childrenAt, Finset.mem_singleton]
  constructor
  · rintro ⟨m, hm, hsm, hx, rfl⟩
    have hsh : Share n.span.ledger m (s - 1) := ⟨by omega, by omega, hx.symm⟩
    exact ((h.share_tip hm (hsh.mono (by omega))).mono (by omega)).2.2.symm
  · rintro rfl
    obtain ⟨m, hm, hsm⟩ := h.exists_of_branch_pos hpos
    have htip := h.share_tip hm hsm
    have hs1 : Share n.span.ledger m s := htip.mono (by omega)
    exact ⟨m, hm, hs1.2.1, ((htip.mono (by omega : s - 1 ≤ _)).2.2).symm, hs1.2.2.symm⟩

theorem childrenAt_end : childrenAt net n.span.tip.id n.span.end_ =
    (n.children.map fun c => c.span.startID).toFinset := by
  have hlt := n.span.start_lt
  ext y
  rw [mem_childrenAt, List.mem_toFinset, List.mem_map]
  constructor
  · rintro ⟨m, hm, hle, hx, rfl⟩
    have hsh : Share n.span.ledger m (n.span.end_ - 1) := ⟨n.span.tip_le_seq, by omega, hx.symm⟩
    have hcount := h.count m (hsh.mono (by omega))
    obtain ⟨c, hc, hcm⟩ := Node.exists_child (by rwa [hcount]) hle
    refine ⟨c, hc, ?_⟩
    have := (h.child hc).share_tip_of_support hcm
    rw [← h.wf.local.start_eq c hc]
    exact (this.mono (by have := c.span.start_lt; omega)).2.2
  · rintro ⟨c, hc, rfl⟩
    have hstart := h.wf.local.start_eq c hc
    obtain ⟨m, hm, hsm⟩ := (h.child hc).exists_of_branch_pos
      ((h.wf.child hc).branch_pos (h.wf.local.compressed c hc))
    have hn : Share n.span.ledger m (n.span.end_ - 1) :=
      (h.wf.local.share c hc).trans (hsm.mono (by omega))
    rw [hstart] at hsm
    refine ⟨m, hm, hsm.2.1, hn.2.2.symm, ?_⟩
    rw [← hsm.2.2, ← hstart]
    rfl

theorem branchAt_child {c : Node L} (hc : c ∈ n.children) :
    branchAt net n.span.end_ c.span.startID = c.branchSupport.toNat := by
  rw [(h.child hc).branch_eq, h.wf.local.start_eq c hc]

theorem branchAt_inside {s : ℕ} (hs : n.span.start ≤ s) (hs' : s < n.span.end_) :
    branchAt net s (ancestor n.span.ledger s) = n.branchSupport.toNat := by
  have hle := n.span.end_le
  rw [h.branch_eq]
  refine tally_congr fun m hm => ?_
  rw [← n.span.share_start_iff]
  constructor
  · rintro ⟨hsm, he⟩
    exact Share.mono ⟨by omega, hsm, he.symm⟩ hs
  · intro hsm
    have := (h.share_tip (Finsupp.mem_support_iff.mp hm) hsm).mono (by omega : s ≤ _)
    exact ⟨this.2.1, this.2.2.symm⟩

/-- **Inside a span the walk moves on iff the branch support exceeds what is uncommitted.** -/
theorem move_inside (hpos : 0 < n.branchSupport.toNat) (largest : ℕ) {s : ℕ} (hs : n.span.start < s)
    (hs' : s < n.span.end_) :
    move net largest (ancestor n.span.ledger (s - 1)) s =
      if uncommitted net largest s < n.branchSupport.toNat then some (ancestor n.span.ledger s) else none := by
  have hch := h.childrenAt_inside hpos hs hs'
  have hbest : best net s (childrenAt net (ancestor n.span.ledger (s - 1)) s) =
      some (ancestor n.span.ledger s) := by
    rw [hch, best_eq_some_iff]
    simp
  have hmargin : margin net s (childrenAt net (ancestor n.span.ledger (s - 1)) s) (ancestor n.span.ledger s) =
      n.branchSupport.toNat := by
    rw [hch, margin_singleton, h.branchAt_inside hs.le hs']
  split
  · next hlt => exact move_of_lt hbest (by rwa [hmargin])
  · next hlt => exact move_of_le hbest (by rw [hmargin]; omega)

theorem ends_through (hpos : 0 < n.branchSupport.toNat) {largest v w : ℕ} (hv : n.span.start < v)
    (hvw : v ≤ w) (hw : w ≤ n.span.end_)
    (hlt : ∀ s, v ≤ s → s < w → uncommitted net largest s < n.branchSupport.toNat) {r : ℕ × ID}
    (hr : Ends net largest (ancestor n.span.ledger (w - 1)) w r) :
    Ends net largest (ancestor n.span.ledger (v - 1)) v r := by
  induction hvw using Nat.decreasingInduction with
  | self => exact hr
  | of_succ v hvw ih =>
    have hmove := h.move_inside hpos largest hv (by omega : v < n.span.end_)
    rw [if_pos (hlt v le_rfl hvw)] at hmove
    refine .step hmove ?_
    exact ih (by omega) fun s hs hs' => hlt s (by omega) hs'

end Covers

end ScfChain.Consensus
