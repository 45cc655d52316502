import ScfChain.Consensus.Trie.Remove
import ScfChain.Consensus.Trie.Check

/-!
# Runs of the trie

A trie stands for the net count of every ledger inserted into it. `LedgerTrie.Run t net`: `t` is reached from the
empty trie by inserts and removes that leave the net counts `net`; since `getPreferred` sorts the children of the
nodes it visits, a run may also permute the children of a node. `LedgerTrie.Inv t net` is what holds along a run
(`Run.inv`), and what the queries answer follows from it.
-/

namespace ScfChain.Consensus

open Data
open Std (ExtTreeMap)

variable {L ID : Type} [LinearOrder ID] [HistoryLedger L ID]

namespace Node

/-! ## Permuted children -/

/-- `n'` is `n` up to the order of children. -/
structure Reordered (n n' : Node L) : Prop where
  wf : n'.WF
  addr : n'.addr = n.addr
  parent : n'.parent = n.parent
  span : n'.span = n.span
  tip : n'.tipSupport = n.tipSupport
  branch : n'.branchSupport = n.branchSupport
  support : n'.support = n.support
  length : n'.children.length = n.children.length

/-- The node at the path gets its children in the order `cs`. -/
def reorder (path : List ℕ) (cs : List (Node L)) (n : Node L) : Node L :=
  n.climb (fun m => { m with children := cs }) id path

theorem reorder_reordered {cs : List (Node L)} : ∀ {path : List ℕ} {n m : Node L}, n.WF → n.at? path = some m →
    m.children.Perm cs → Reordered n (n.reorder path cs)
  | [], n, m, hn, hat, hp => by
    obtain rfl : n = m := Option.some.inj hat
    exact ⟨hn.perm hp, rfl, rfl, rfl, rfl, rfl, support_perm hp, hp.length_eq.symm⟩
  | i :: path, n, m, hn, hat, hp => by
    obtain ⟨c, hc, hat⟩ := Option.bind_eq_some_iff.mp hat
    obtain ⟨hi, rfl⟩ := List.getElem?_eq_some_iff.mp hc
    have hch : n.children = n.children.take i ++ n.children[i] :: n.children.drop (i + 1) := by simp
    have hmem : n.children[i] ∈ n.children := List.getElem_mem hi
    have hlen : (n.children.take i).length = i := by
      rw [List.length_take]
      omega
    have hr := reorder_reordered (hn.child hmem) hat hp
    have heq : n.reorder (i :: path) cs =
        { n with children := n.children.take i ++ reorder path cs n.children[i] :: n.children.drop (i + 1) } := by
      have := modify_append_cons (climb (fun m => { m with children := cs }) id path) n.children[i]
        (n.children.drop (i + 1)) (n.children.take i)
      rw [hlen, ← hch] at this
      unfold reorder
      rw [climb, this]
      rfl
    have hfit : Fit n n.children[i] n.children[i] n.branchSupport
        (n.children.take i ++ reorder path cs n.children[i] :: n.children.drop (i + 1)) := by
      refine fit_replace hn hch hr.wf (by rw [hr.span]) (by rw [hr.span]) ?_ ?_ ?_ hr.branch hr.support rfl
      · rw [hr.span]
        exact hn.local.share _ hmem
      · rw [hr.parent]
        exact hn.local.parent_eq _ hmem
      · rw [hr.tip, hr.length]
        exact hn.local.compressed _ hmem
    rw [heq]
    refine ⟨.intro hfit.loc hfit.wf, rfl, rfl, rfl, rfl, rfl, ?_, ?_⟩
    · rw [support_eq, support_eq n]
      exact congrArg _ (add_right_cancel hfit.support)
    · simp only [List.length_append, List.length_cons, List.length_take, List.length_drop]
      omega

theorem WF.at? : ∀ {path : List ℕ} {n m : Node L}, n.WF → n.at? path = some m → m.WF
  | [], n, m, hn, hat => Option.some.inj hat ▸ hn
  | i :: path, n, m, hn, hat => by
    obtain ⟨c, hc, hat⟩ := Option.bind_eq_some_iff.mp hat
    exact WF.at? (hn.child (List.mem_of_getElem? hc)) hat

end Node

namespace LedgerTrie

/-! ## The invariant -/

/-- The count of the ledgers with sequence number `s`. -/
noncomputable def countAt (net : L →₀ ℕ) (s : ℕ) : ℕ := tally (fun m => seq m = s) net

/-- `t` is a well-formed trie for the net counts `net`. -/
structure Inv (t : LedgerTrie L) (net : L →₀ ℕ) : Prop where
  wf : t.root.WF
  start : t.root.span.start = 0
  end_ : t.root.span.end_ = 1
  support : t.root.support = net.mapDomain idOf
  bound : total net < 2 ^ 32
  seqs : Tracks t.seqSupport (countAt net)

theorem inv_new : (new : LedgerTrie L).Inv 0 where
  wf := .intro ⟨by simp [new], by simp [new], by simp [new], by simp [new], by simp [new], by simp [new]⟩
    (by simp [new])
  start := rfl
  end_ := rfl
  support := by
    rw [Node.support_eq]
    simp [new]
  bound := by simp
  seqs s := by simp [new, countAt]

section Queries

variable {t : LedgerTrie L} {net : L →₀ ℕ} (h : t.Inv net)
include h

theorem Inv.share_start (l : L) : Share t.root.span.ledger l t.root.span.start := by
  rw [h.start]
  exact share_zero _ _

theorem Inv.support_idOf (l : L) : t.root.support (idOf l) = net l := by
  rw [h.support]
  exact Finsupp.mapDomain_apply (fun a b => HistoryLedger.idOf_injective a b) net l

theorem Inv.tally_below (l : L) : tally (BelowLedger l) t.root.support = tally (fun m => Descends m l) net := by
  rw [h.support, tally_mapDomain]
  simp only [belowLedger_idOf_iff]

theorem Inv.branch_root : t.root.branchSupport.toNat = total net := by
  rw [h.wf.branch_eq_total, h.support, total_mapDomain]

theorem Inv.tracks_support : Tracks t.seqSupport fun s => tally (AtSeq L s) t.root.support := by
  have hfun : (fun s => tally (AtSeq L s) t.root.support) = countAt net := by
    funext s
    rw [h.support, tally_mapDomain]
    simp only [atSeq_idOf]
    rfl
  rw [hfun]
  exact h.seqs

theorem Inv.checkInvariants : t.checkInvariants = true := by
  obtain ⟨m', hm', ht⟩ := Node.check_eq h.wf true (fun h => absurd h (by simp)) ∅ _ tracks_empty
  simp only [Nat.zero_add] at ht
  unfold LedgerTrie.checkInvariants
  rw [hm', ht.unique h.tracks_support]
  simp

theorem Inv.lookup (l : L) :
    (t.root.findByLedgerID (idOf l) = none ∧ net l = 0) ∨
    ∃ path loc, t.root.findByLedgerID (idOf l) = some path ∧ Node.Descent l t.root path loc ∧
      loc.span.tip.id = idOf l ∧ loc.tipSupport.toNat = net l := by
  rcases hf : t.root.findByLedgerID (idOf l) with _ | path
  · left
    rw [← h.support_idOf]
    exact ⟨rfl, Node.support_eq_zero_of_findByLedgerID h.wf hf⟩
  · right
    obtain ⟨loc, hd, htip⟩ := Node.descent_of_findByLedgerID h.wf hf
    refine ⟨path, loc, rfl, hd, htip, ?_⟩
    rw [← h.support_idOf, hd.support_apply h.wf htip]

theorem Inv.tipSupport_eq (l : L) : (t.tipSupport l).toNat = net l := by
  unfold LedgerTrie.tipSupport
  rcases h.lookup l with ⟨hf, h0⟩ | ⟨path, loc, hf, hd, -, hc⟩
  · rw [hf, h0]
    rfl
  · rw [hf, Option.bind_some, hd.at?]
    exact hc

theorem Inv.branchSupport_eq (l : L) : (t.branchSupport l).toNat = tally (fun m => Descends m l) net := by
  rw [← h.tally_below]
  unfold LedgerTrie.branchSupport
  rcases h.lookup l with ⟨hf, -⟩ | ⟨path, loc, hf, hd, htip, -⟩
  · -- inside a compressed span, or not in the trie
    obtain ⟨path, loc, hd, hfind⟩ := Node.find_descent (l := l) h.wf
    have hle := loc.span.diff_le l
    rw [hf, hfind, hd.tally_below h.wf (h.share_start l)]
    simp only [Option.bind_none, hd.at?]
    by_cases hlt : seq l < loc.span.diff l
    · rw [if_pos ⟨hlt, by omega⟩, if_pos hlt]
    · rw [if_neg fun h => hlt h.1, if_neg hlt]
      rfl
  · obtain ⟨he, hs⟩ := loc.span.tip_id_eq_idOf_iff.mp htip
    rw [hf, Option.bind_some, hd.at?, hd.tally_below h.wf (h.share_start l),
      loc.span.diff_eq_end_iff.mpr hs, if_pos (by omega)]

theorem Inv.remove_iff (l : L) (k : UInt32) : (t.remove l k).1 = true ↔ net l ≠ 0 := by
  unfold LedgerTrie.remove
  rcases h.lookup l with ⟨hf, h0⟩ | ⟨path, loc, hf, hd, -, hc⟩
  · simp [hf, h0]
  · simp only [hf, hd.at?]
    split
    · next h0 =>
      rw [h0] at hc
      simp [← hc]
    · next h0 =>
      have : net l ≠ 0 := fun hz => h0 (UInt32.toNat_inj.mp (hc.trans hz))
      simp [this]

theorem Inv.empty_iff : t.empty = true ↔ net = 0 := by
  unfold LedgerTrie.empty
  rw [beq_iff_eq, ← UInt32.toNat_inj, h.branch_root, UInt32.toNat_zero, total_eq_zero_iff]

/-! ## Steps -/

theorem Inv.insert (l : L) {k : UInt32} (hk : 1 ≤ k) (hlt : total net + k.toNat < 2 ^ 32) :
    (t.insert l k).Inv (net + Finsupp.single l k.toNat) := by
  have hk0 : k ≠ 0 := by
    rintro rfl
    exact absurd hk (by decide)
  obtain ⟨path, loc, hd, hfind⟩ := Node.find_descent (l := l) h.wf
  have hins := Node.climb_inserted hk0 t.next hd h.wf (h.share_start l)
    (fun hlt => by rw [h.start, h.end_] at hlt; omega) (by rw [h.branch_root]; exact hlt)
  have hroot : (t.insert l k).root =
      t.root.climb (Node.insertAt t.next l k (loc.span.diff l)) (Node.addBranch k) path := by
    unfold LedgerTrie.insert
    rw [hfind]
  rw [← hroot] at hins
  have hend : (t.insert l k).root.span.end_ = 1 := by
    have h1 := hins.end_eq
    have h2 := (t.insert l k).root.span.start_lt
    rw [hins.place.start, h.start] at h2
    rw [h.end_] at h1
    omega
  refine ⟨hins.wf, hins.place.start.trans h.start, hend, ?_, by simpa using hlt, ?_⟩
  · rw [hins.support, h.support, Finsupp.mapDomain_add, Finsupp.mapDomain_single]
  · have hcount : countAt (net + Finsupp.single l k.toNat) =
        fun s => countAt net s + if seq l = s then k.toNat else 0 := by
      funext s
      unfold countAt
      rw [tally_add, tally_single]
    rw [hcount]
    exact h.seqs.add hk0 (seq l)

theorem Inv.remove (l : L) (k : UInt32) : (t.remove l k).2.Inv (net - Finsupp.single l k.toNat) := by
  have hnone : net l = 0 → t.Inv (net - Finsupp.single l k.toNat) := by
    intro h0
    have := tsub_single_add net l k.toNat
    rw [h0, Nat.min_zero, Finsupp.single_zero, add_zero] at this
    rwa [this]
  unfold LedgerTrie.remove
  rcases h.lookup l with ⟨hf, h0⟩ | ⟨path, loc, hf, hd, htip, hc⟩
  · simp only [hf]
    exact hnone h0
  · simp only [hf, hd.at?]
    split
    · next h0 =>
      rw [h0] at hc
      exact hnone hc.symm
    · -- the removed count is the smaller of `k` and the net count
      have hmin : (min k loc.tipSupport).toNat = min k.toNat (net l) := by
        rw [← hc, UInt32.toNat_min]
      have hrem := Node.compress_removed (k := min k loc.tipSupport) hd h.wf htip
        (by rw [hmin, ← hc]; exact Nat.min_le_right _ _)
      have hsplit := tsub_single_add net l k.toNat
      rw [← hmin] at hsplit
      simp only at hrem ⊢
      refine ⟨hrem.wf, by rw [hrem.span, h.start], by rw [hrem.span, h.end_], ?_, ?_, ?_⟩
      · have hsup := hrem.support
        rw [h.support, ← hsplit, Finsupp.mapDomain_add, Finsupp.mapDomain_single] at hsup
        exact add_right_cancel hsup
      · have hb := h.bound
        rw [← hsplit, total_add] at hb
        omega
      · have hcount : ∀ s, countAt net s = countAt (net - Finsupp.single l k.toNat) s +
            if seq l = s then (min k loc.tipSupport).toNat else 0 := by
          intro s
          unfold countAt
          rw [← tally_single (P := fun m => seq m = s), ← tally_add, hsplit]
        exact h.seqs.sub hcount (lt_of_le_of_lt tally_le_total h.bound)

theorem Inv.reorder {path : List ℕ} {m : Node L} {cs : List (Node L)} (hat : t.root.at? path = some m)
    (hp : m.children.Perm cs) : Inv { t with root := t.root.reorder path cs } net := by
  have hr := Node.reorder_reordered h.wf hat hp
  exact ⟨hr.wf, by rw [hr.span, h.start], by rw [hr.span, h.end_], by rw [hr.support, h.support], h.bound, h.seqs⟩

end Queries

/-! ## Runs -/

/-- The tries reached from the empty one, with the net count of every ledger, while the total support stays
below `2 ^ 32`. -/
inductive Run : LedgerTrie L → (L →₀ ℕ) → Prop
  | new : Run LedgerTrie.new 0
  | insert {t : LedgerTrie L} {net : L →₀ ℕ} (l : L) (count : UInt32) : Run t net → 1 ≤ count →
      total net + count.toNat < 2 ^ 32 → Run (t.insert l count) (net + Finsupp.single l count.toNat)
  | remove {t : LedgerTrie L} {net : L →₀ ℕ} (l : L) (count : UInt32) : Run t net →
      Run (t.remove l count).2 (net - Finsupp.single l count.toNat)
  /-- `getPreferred` sorts children. -/
  | reorder {t : LedgerTrie L} {net : L →₀ ℕ} {path : List ℕ} {m : Node L} {cs : List (Node L)} : Run t net →
      t.root.at? path = some m → m.children.Perm cs → Run { t with root := t.root.reorder path cs } net

theorem Run.inv {t : LedgerTrie L} {net : L →₀ ℕ} (h : Run t net) : t.Inv net := by
  induction h with
  | new => exact inv_new
  | insert l count _ hc hlt ih => exact ih.insert l hc hlt
  | remove l count _ ih => exact ih.remove l count
  | reorder _ hat hp ih => exact ih.reorder hat hp

/-- **The trie counts ledgers and their descendants.** -/
theorem run_counts {t : LedgerTrie L} {net : L →₀ ℕ} (h : Run t net) :
    t.checkInvariants = true ∧
    (∀ path n, t.root.at? path = some n → (∀ c ∈ n.children, c.span.start = n.span.end_) ∧
      (n.children.map fun c => c.span.startID).Nodup) ∧
    ∀ l, (t.tipSupport l).toNat = net l ∧ (t.branchSupport l).toNat = tally (fun m => Descends m l) net ∧
      ∀ count, (t.remove l count).1 = true ↔ net l ≠ 0 := by
  refine ⟨h.inv.checkInvariants, fun path n hn => ?_, fun l => ⟨h.inv.tipSupport_eq l, h.inv.branchSupport_eq l,
    h.inv.remove_iff l⟩⟩
  have hloc := (h.inv.wf.at? hn).local
  exact ⟨hloc.start_eq, hloc.nodup⟩

/-- Two ledgers that part after `[1]`, the second partly removed: the prefix `[1]` has the support of both. -/
theorem run_counts_fork :
    let t := ((((new : LedgerTrie (List ℕ)).insert [1, 2] 2).insert [1, 3, 4] 3).remove [1, 3, 4] 1).2
    t.checkInvariants = true ∧ (t.branchSupport [1]).toNat =
      tally (fun m => Descends m [1])
        (0 + Finsupp.single [1, 2] 2 + Finsupp.single [1, 3, 4] 3 - Finsupp.single [1, 3, 4] 1) := by
  have h := run_counts (((Run.new.insert [1, 2] 2 (by decide) (by simp)).insert [1, 3, 4] 3 (by decide)
    (by simp)).remove [1, 3, 4] 1)
  exact ⟨h.1, (h.2.2 [1]).2.1⟩

end LedgerTrie

end ScfChain.Consensus
