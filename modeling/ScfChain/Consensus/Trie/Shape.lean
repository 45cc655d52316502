import ScfChain.Consensus.Trie.Span
import ScfChain.Data.Tally

/-!
# The shape of the trie

* `Node.Local`: what holds between a node and its children; `Node.WF`: it holds at every node.
* `Node.support`: the tip supports below a node, as counts of IDs. It is what the trie stands for: the branch
  support of a node is its total (`WF.branch_eq_total`), and every counted ID is below the span of the node
  (`WF.below_of_mem`).
* `Local.perm`, `support_perm`: the order of the children does not matter.
-/

namespace ScfChain.Consensus

open Data

variable {L ID : Type} [LinearOrder ID] [HistoryLedger L ID]

namespace Node

/-- What holds between a node and its children. -/
structure Local (n : Node L) : Prop where
  start_eq : ∀ c ∈ n.children, c.span.start = n.span.end_
  share : ∀ c ∈ n.children, Share n.span.ledger c.span.ledger (n.span.end_ - 1)
  nodup : (n.children.map fun c => c.span.startID).Nodup
  parent_eq : ∀ c ∈ n.children, c.parent = some n.addr
  compressed : ∀ c ∈ n.children, c.tipSupport = 0 → 2 ≤ c.children.length
  branch_eq : n.branchSupport.toNat =
    n.tipSupport.toNat + (n.children.map fun c => c.branchSupport.toNat).sum

/-- `Local` holds at the node and everywhere below it. -/
inductive WF : Node L → Prop
  | intro {n : Node L} : n.Local → (∀ c ∈ n.children, c.WF) → n.WF

theorem WF.local {n : Node L} (h : n.WF) : n.Local := by
  cases h
  assumption

theorem WF.child {n c : Node L} (h : n.WF) (hc : c ∈ n.children) : c.WF := by
  cases h with
  | intro _ hcs => exact hcs c hc

/-! ## Supports -/

mutual

/-- The tip supports at and below a node, counted by ID. -/
noncomputable def support : Node L → ID →₀ ℕ
  | ⟨_, span, tipSupport, _, _, children⟩ => Finsupp.single span.tip.id tipSupport.toNat + supportIn children

noncomputable def supportIn : List (Node L) → ID →₀ ℕ
  | [] => 0
  | child :: rest => child.support + supportIn rest

end

theorem supportIn_eq : ∀ cs : List (Node L), supportIn cs = (cs.map support).sum
  | [] => rfl
  | c :: cs => by rw [supportIn, supportIn_eq cs, List.map_cons, List.sum_cons]

theorem support_eq (n : Node L) :
    n.support = Finsupp.single n.span.tip.id n.tipSupport.toNat + (n.children.map support).sum := by
  cases n
  rw [support, supportIn_eq]

theorem tally_support (P : ID → Prop) (n : Node L) :
    tally P n.support = tally P (Finsupp.single n.span.tip.id n.tipSupport.toNat) +
      (n.children.map fun c => tally P c.support).sum := by
  rw [support_eq, tally_add, tally_list_sum, List.map_map]
  rfl

theorem support_apply (n : Node L) (y : ID) :
    n.support y = (Finsupp.single n.span.tip.id n.tipSupport.toNat) y +
      (n.children.map fun c => c.support y).sum := by
  rw [← tally_eq_apply, tally_support, tally_eq_apply]
  simp only [tally_eq_apply]

variable {n : Node L} {cs : List (Node L)}

theorem WF.branch_eq_total (h : n.WF) : n.branchSupport.toNat = total n.support := by
  induction h with
  | @intro n hn _ ih =>
    rw [support_eq, total_add, total_single, total_list_sum, List.map_map, hn.branch_eq]
    congr 2
    exact List.map_congr_left ih

theorem exists_mem_of_sum_ne_zero {α : Type*} {f : α → ℕ} {cs : List α} (h : (cs.map f).sum ≠ 0) : ∃ c ∈ cs, f c ≠ 0 := by
  obtain ⟨_, hx, hne⟩ := List.exists_mem_ne_zero_of_sum_ne_zero h
  obtain ⟨c, hc, rfl⟩ := List.mem_map.mp hx
  exact ⟨c, hc, hne⟩

theorem WF.below_of_mem (h : n.WF) {y : ID} (hy : n.support y ≠ 0) : n.span.Below y := by
  induction h with
  | @intro n hn _ ih =>
    rw [support_apply] at hy
    by_cases htip : n.span.tip.id = y
    · rw [← htip]
      exact n.span.below_tip
    · rw [Finsupp.single_eq_of_ne (Ne.symm htip), Nat.zero_add] at hy
      obtain ⟨c, hc, hne⟩ := exists_mem_of_sum_ne_zero hy
      exact (ih c hc hne).of_child (hn.start_eq c hc) (hn.share c hc)

theorem WF.tally_eq_branch (h : n.WF) {P : ID → Prop} (hP : ∀ y, n.span.Below y → P y) :
    tally P n.support = n.branchSupport.toNat := by
  rw [h.branch_eq_total]
  exact tally_eq_total fun y hy => hP y (h.below_of_mem (Finsupp.mem_support_iff.mp hy))

theorem WF.tally_eq_zero (h : n.WF) {P : ID → Prop} (hP : ∀ y, n.span.Below y → ¬ P y) : tally P n.support = 0 :=
  Data.tally_eq_zero fun y hy => hP y (h.below_of_mem (Finsupp.mem_support_iff.mp hy))

theorem WF.branch_pos (h : n.WF) (hn : n.tipSupport = 0 → 2 ≤ n.children.length) : 0 < n.branchSupport.toNat := by
  induction h with
  | @intro n hloc _ ih =>
    rw [hloc.branch_eq]
    by_cases htip : n.tipSupport = 0
    · obtain ⟨c, hc⟩ := List.exists_mem_of_length_pos (lt_of_lt_of_le Nat.zero_lt_two (hn htip))
      have hpos := ih c hc (hloc.compressed c hc)
      have hle : c.branchSupport.toNat ≤ (n.children.map fun c => c.branchSupport.toNat).sum :=
        List.single_le_sum (fun _ _ => Nat.zero_le _) _ (List.mem_map_of_mem hc)
      omega
    · have : n.tipSupport.toNat ≠ 0 := fun h0 => htip (UInt32.toNat_inj.mp h0)
      omega

theorem WF.tip_le (h : n.WF) : n.tipSupport.toNat ≤ n.branchSupport.toNat := by
  rw [h.local.branch_eq]
  exact Nat.le_add_right _ _

/-! ## Different children -/

theorem Local.startID_eq {c d : Node L} (h : n.Local) (hc : c ∈ n.children) (hd : d ∈ n.children) {l : L}
    (hcl : Share c.span.ledger l c.span.start) (hdl : Share d.span.ledger l d.span.start) :
    c.span.startID = d.span.startID := by
  have hs : d.span.start = c.span.start := (h.start_eq d hd).trans (h.start_eq c hc).symm
  rw [hs] at hdl
  show ancestor c.span.ledger c.span.start = ancestor d.span.ledger d.span.start
  rw [hs, hcl.2.2, hdl.2.2]

theorem Local.not_share_of_split {c : Node L} {pre post : List (Node L)} (h : n.Local)
    (hch : n.children = pre ++ c :: post) {l : L} (hcl : Share c.span.ledger l c.span.start) :
    ∀ d ∈ pre ++ post, ¬ Share d.span.ledger l d.span.start := by
  intro d hd hdl
  have hnd := h.nodup
  have hperm : (pre ++ c :: post).Perm (c :: (pre ++ post)) := List.perm_middle
  rw [hch, (hperm.map _).nodup_iff, List.map_cons, List.nodup_cons] at hnd
  have hdn : d ∈ n.children := by
    rw [hch]
    exact hperm.mem_iff.mpr (List.mem_cons_of_mem _ hd)
  have hcn : c ∈ n.children := by
    rw [hch]
    exact hperm.mem_iff.mpr List.mem_cons_self
  exact hnd.1 (h.startID_eq hcn hdn hcl hdl ▸ List.mem_map_of_mem hd)

/-! ## The order of the children -/

theorem Local.perm (h : n.Local) (hp : n.children.Perm cs) : Local { n with children := cs } where
  start_eq c hc := h.start_eq c (hp.mem_iff.mpr hc)
  share c hc := h.share c (hp.mem_iff.mpr hc)
  nodup := (hp.map _).nodup_iff.mp h.nodup
  parent_eq c hc := h.parent_eq c (hp.mem_iff.mpr hc)
  compressed c hc := h.compressed c (hp.mem_iff.mpr hc)
  branch_eq := by
    rw [h.branch_eq]
    congr 1
    exact (hp.map _).sum_eq

theorem WF.perm (h : n.WF) (hp : n.children.Perm cs) : WF { n with children := cs } :=
  .intro (h.local.perm hp) fun _ hc => h.child (hp.mem_iff.mpr hc)

theorem support_perm (hp : n.children.Perm cs) : support { n with children := cs } = n.support := by
  rw [support_eq, support_eq n]
  congr 1
  exact ((hp.map _).sum_eq).symm

end Node

end ScfChain.Consensus
