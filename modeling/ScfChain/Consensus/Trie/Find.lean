import ScfChain.Consensus.Trie.Shape

/-!
# Searching the trie

`Descent l n path loc` says how `find` walks from `n` to `loc`: at every node the whole span is shared with `l`
and the next child is the only one that shares its start with `l`, and at `loc` no child does. `find` returns
such a walk (`find_descent`), and so does `findByLedgerID` when it finds anything (`descent_of_findByLedgerID`).
Along a descent the supports of and below `l` are those stored at `loc` (`Descent.support_apply`,
`Descent.tally_below`).
-/

namespace ScfChain.Consensus

open Data

variable {L ID : Type} [LinearOrder ID] [HistoryLedger L ID]

namespace Node

/-- The walk of `find`. -/
inductive Descent (l : L) : Node L → List ℕ → Node L → Prop
  | here {n : Node L} :
      (n.span.diff l = n.span.end_ → ∀ c ∈ n.children, ¬ Share c.span.ledger l c.span.start) →
      Descent l n [] n
  | child {n c loc : Node L} {pre post : List (Node L)} {path : List ℕ} :
      n.children = pre ++ c :: post → Share n.span.ledger l (n.span.end_ - 1) →
      Share c.span.ledger l c.span.start → Descent l c path loc →
      Descent l n (pre.length :: path) loc

variable {l : L} {n loc c : Node L} {path : List ℕ}

theorem Descent.at? (h : Descent l n path loc) : n.at? path = some loc := by
  induction h with
  | here _ => rfl
  | child hch _ _ _ ih =>
    rw [Node.at?, hch, List.getElem?_append_right le_rfl, Nat.sub_self]
    exact ih

/-! ## `find` -/

theorem find_eq (l : L) (n : Node L) :
    n.find l = if n.span.diff l = n.span.end_ then (findChild l n.span.end_ 0 n.children).getD ([], n.span.end_)
      else ([], n.span.diff l) := by
  cases n
  rw [find]

theorem findChild_spec (l : L) (pos : ℕ) : ∀ (i : ℕ) (cs : List (Node L)),
    (∃ pre c post, cs = pre ++ c :: post ∧ pos < c.span.diff l ∧
      findChild l pos i cs = some ((i + pre.length) :: (c.find l).1, (c.find l).2)) ∨
    (findChild l pos i cs = none ∧ ∀ d ∈ cs, ¬ pos < d.span.diff l)
  | _, [] => Or.inr ⟨by rw [findChild], fun d hd => absurd hd List.not_mem_nil⟩
  | i, c :: cs => by
    rw [findChild]
    by_cases hc : pos < c.span.diff l
    · exact Or.inl ⟨[], c, cs, rfl, hc, by rw [if_pos hc]; rfl⟩
    · rw [if_neg hc]
      rcases findChild_spec l pos (i + 1) cs with ⟨pre, d, post, rfl, hd, he⟩ | ⟨he, hnone⟩
      · refine Or.inl ⟨c :: pre, d, post, rfl, hd, ?_⟩
        rw [he, List.length_cons, show i + 1 + pre.length = i + (pre.length + 1) by omega]
      · refine Or.inr ⟨he, fun d hd => ?_⟩
        rcases List.mem_cons.mp hd with rfl | hd
        · exact hc
        · exact hnone d hd

theorem Local.end_lt_diff_iff (h : n.Local) (hc : c ∈ n.children) :
    n.span.end_ < c.span.diff l ↔ Share c.span.ledger l c.span.start := by
  rw [← h.start_eq c hc]
  exact c.span.start_lt_diff_iff

/-- **`find` walks a descent** and returns the first difference with the node it ends at. -/
theorem find_descent (hn : n.WF) : ∃ path loc, Descent l n path loc ∧ n.find l = (path, loc.span.diff l) := by
  induction hn with
  | @intro n hloc _ ih =>
    by_cases hd : n.span.diff l = n.span.end_
    · rcases findChild_spec l n.span.end_ 0 n.children with ⟨pre, c, post, hch, hlt, he⟩ | ⟨he, hnone⟩
      · have hc : c ∈ n.children := by rw [hch]; simp
        obtain ⟨path, loc, hdesc, hfind⟩ := ih c hc
        refine ⟨pre.length :: path, loc, .child hch (n.span.diff_eq_end_iff.mp hd)
          ((hloc.end_lt_diff_iff hc).mp hlt) hdesc, ?_⟩
        rw [find_eq, if_pos hd, he, hfind, Nat.zero_add]
        rfl
      · refine ⟨[], n, .here fun _ c hc hs => hnone c hc ((hloc.end_lt_diff_iff hc).mpr hs), ?_⟩
        rw [find_eq, if_pos hd, he, hd]
        rfl
    · refine ⟨[], n, .here fun h => absurd h hd, ?_⟩
      rw [find_eq, if_neg hd]

/-! ## `findByLedgerID` -/

theorem findByLedgerID_eq (x : ID) (n : Node L) :
    n.findByLedgerID x = if x = n.span.tip.id then some [] else findByLedgerIDIn x 0 n.children := by
  cases n
  rw [findByLedgerID]

theorem findByLedgerIDIn_spec (x : ID) : ∀ (i : ℕ) (cs : List (Node L)),
    (∃ pre c post path, cs = pre ++ c :: post ∧ c.findByLedgerID x = some path ∧
      findByLedgerIDIn x i cs = some ((i + pre.length) :: path)) ∨
    (findByLedgerIDIn x i cs = none ∧ ∀ d ∈ cs, d.findByLedgerID x = none)
  | _, [] => Or.inr ⟨by rw [findByLedgerIDIn], fun d hd => absurd hd List.not_mem_nil⟩
  | i, c :: cs => by
    rw [findByLedgerIDIn]
    cases hc : c.findByLedgerID x with
    | some path => exact Or.inl ⟨[], c, cs, path, rfl, hc, rfl⟩
    | none =>
      rcases findByLedgerIDIn_spec x (i + 1) cs with ⟨pre, d, post, path, rfl, hd, he⟩ | ⟨he, hnone⟩
      · refine Or.inl ⟨c :: pre, d, post, path, rfl, hd, ?_⟩
        simp only [he, List.length_cons, show i + 1 + pre.length = i + (pre.length + 1) by omega]
      · refine Or.inr ⟨he, fun d hd => ?_⟩
        rcases List.mem_cons.mp hd with rfl | hd
        · exact hc
        · exact hnone d hd

theorem below_of_findByLedgerID {x : ID} (hn : n.WF) (h : n.findByLedgerID x = some path) : n.span.Below x := by
  induction hn generalizing path with
  | @intro n hloc _ ih =>
    rw [findByLedgerID_eq] at h
    split at h
    · next htip =>
      rw [htip]
      exact n.span.below_tip
    · rcases findByLedgerIDIn_spec x 0 n.children with ⟨pre, c, post, p, hch, hc, -⟩ | ⟨he, -⟩
      · have hmem : c ∈ n.children := by rw [hch]; simp
        exact (ih c hmem hc).of_child (hloc.start_eq c hmem) (hloc.share c hmem)
      · rw [he] at h
        cases h

theorem descent_of_findByLedgerID (hn : n.WF) (h : n.findByLedgerID (idOf l) = some path) :
    ∃ loc, Descent l n path loc ∧ loc.span.tip.id = idOf l := by
  induction hn generalizing path with
  | @intro n hloc hcs ih =>
    rw [findByLedgerID_eq] at h
    split at h
    · next htip =>
      cases h
      refine ⟨n, .here fun _ c hc hs => ?_, htip.symm⟩
      -- a child that shares its start with `l` would start past the end of `l`
      have hend := (n.span.tip_id_eq_idOf_iff.mp htip.symm).1
      have hstart := hloc.start_eq c hc
      have := hs.2.1
      omega
    · rcases findByLedgerIDIn_spec (idOf l) 0 n.children with ⟨pre, c, post, p, hch, hc, he⟩ | ⟨he, -⟩
      · rw [he] at h
        cases h
        have hmem : c ∈ n.children := by rw [hch]; simp
        have hbelow := c.span.below_idOf_iff.mp (below_of_findByLedgerID (hcs c hmem) hc)
        have hlt := c.span.start_lt
        have hstart := hloc.start_eq c hmem
        obtain ⟨loc, hdesc, htip⟩ := ih c hmem hc
        refine ⟨loc, ?_, htip⟩
        rw [Nat.zero_add]
        exact .child hch ((hloc.share c hmem).trans (hbelow.mono (by omega))) (hbelow.mono (by omega)) hdesc
      · rw [he] at h
        cases h

theorem support_eq_zero_of_findByLedgerID {x : ID} (hn : n.WF) (h : n.findByLedgerID x = none) : n.support x = 0 := by
  induction hn with
  | @intro n hloc _ ih =>
    rw [findByLedgerID_eq] at h
    split at h
    · cases h
    · next htip =>
      rcases findByLedgerIDIn_spec x 0 n.children with ⟨pre, c, post, p, -, -, he⟩ | ⟨-, hnone⟩
      · rw [he] at h
        cases h
      · by_contra hne
        rw [support_apply, Finsupp.single_eq_of_ne htip, Nat.zero_add] at hne
        obtain ⟨c, hc, hne⟩ := exists_mem_of_sum_ne_zero hne
        exact hne (ih c hc (hnone c hc))

/-! ## Supports along a descent -/

theorem end_le_seq (h : n.Local) (hc : c ∈ n.children)
    (hs : Share c.span.ledger l c.span.start) : n.span.end_ ≤ seq l := by
  rw [← h.start_eq c hc]
  exact hs.2.1

theorem tally_below_eq_zero (hn : n.WF) (hc : c ∈ n.children) (hend : n.span.end_ ≤ seq l)
    (hs : ¬ Share c.span.ledger l c.span.start) :
    tally (BelowLedger l) c.support = 0 := by
  have hstart := hn.local.start_eq c hc
  have hlt := c.span.start_lt
  exact (hn.child hc).tally_eq_zero fun y hy hl => hs (hy.share_ledger hl hlt (by omega))

theorem not_below_tip (hend : n.span.end_ ≤ seq l) : ¬ BelowLedger l n.span.tip.id := by
  rintro ⟨m, t, ht, hy, -, hle⟩
  have hlt := n.span.start_lt
  have hle : seq l + 1 - 1 ≤ t := hle
  have := (Share.of_ancestor_eq ht n.span.tip_le_seq hy).1
  omega

theorem sum_map_split {α : Type*} (f : α → ℕ) (pre : List α) (c : α) (post : List α)
    (h : ∀ d ∈ pre ++ post, f d = 0) : ((pre ++ c :: post).map f).sum = f c := by
  have hz : ((pre ++ post).map f).sum = 0 := List.sum_eq_zero fun x hx => by
    obtain ⟨d, hd, rfl⟩ := List.mem_map.mp hx
    exact h d hd
  rw [(List.perm_middle.map f).sum_eq, List.map_cons, List.sum_cons, hz, Nat.add_zero]

theorem Descent.tally_below (h : Descent l n path loc) (hn : n.WF) (hs : Share n.span.ledger l n.span.start) :
    tally (BelowLedger l) n.support = if seq l < loc.span.diff l then loc.branchSupport.toNat else 0 := by
  induction h with
  | @here n hnone =>
    have hdle := n.span.diff_le l
    split
    · next hlt =>
      have hsh := ((n.span.lt_diff_iff hs.2.1).mp hlt).2
      exact hn.tally_eq_branch fun y hy => hy.belowLedger hsh (by omega)
    · next hge =>
      by_cases hd : n.span.diff l = n.span.end_
      · have hend : n.span.end_ ≤ seq l := by omega
        rw [tally_support, tally_single_of_not _ _ (not_below_tip hend), Nat.zero_add]
        refine List.sum_eq_zero fun x hx => ?_
        obtain ⟨c, hc, rfl⟩ := List.mem_map.mp hx
        exact tally_below_eq_zero hn hc hend (hnone hd c hc)
      · exact hn.tally_eq_zero fun y hy hl =>
          n.span.not_share_diff hs (by omega) (hy.share_ledger hl (by omega) (by omega))
  | @child n c loc pre post path hch _ hc _ ih =>
    have hmem : c ∈ n.children := by rw [hch]; simp
    have hend := end_le_seq hn.local hmem hc
    rw [tally_support, tally_single_of_not _ _ (not_below_tip hend), Nat.zero_add, hch,
      sum_map_split _ pre c post, ih (hn.child hmem) hc]
    intro d hd
    have hdm : d ∈ n.children := by
      rw [hch]
      exact (List.perm_middle (a := c)).mem_iff.mpr (List.mem_cons_of_mem _ hd)
    exact tally_below_eq_zero hn hdm hend (hn.local.not_share_of_split hch hc d hd)

theorem Descent.support_apply (h : Descent l n path loc) (hn : n.WF)
    (htip : loc.span.tip.id = idOf l) : n.support (idOf l) = loc.tipSupport.toNat := by
  induction h with
  | @here n _ =>
    rw [Node.support_apply, htip, Finsupp.single_eq_same]
    refine Nat.add_eq_left.mpr (List.sum_eq_zero fun x hx => ?_)
    obtain ⟨c, hc, rfl⟩ := List.mem_map.mp hx
    by_contra hne
    have := (hn.child hc).below_of_mem hne
    rw [← htip] at this
    exact Span.not_below_tip (hn.local.start_eq c hc) this
  | @child n c loc pre post path hch _ hc _ ih =>
    have hmem : c ∈ n.children := by rw [hch]; simp
    have hend := end_le_seq hn.local hmem hc
    have hne : n.span.tip.id ≠ idOf l := by
      intro he
      have := (n.span.tip_id_eq_idOf_iff.mp he).1
      omega
    rw [Node.support_apply, Finsupp.single_eq_of_ne hne.symm, Nat.zero_add, hch,
      sum_map_split _ pre c post, ih (hn.child hmem) htip]
    intro d hd
    have hdm : d ∈ n.children := by
      rw [hch]
      exact (List.perm_middle (a := c)).mem_iff.mpr (List.mem_cons_of_mem _ hd)
    by_contra hne
    have hbelow := d.span.below_idOf_iff.mp ((hn.child hdm).below_of_mem hne)
    have hlt := d.span.start_lt
    exact hn.local.not_share_of_split hch hc d hd (hbelow.mono (by omega))

end Node

end ScfChain.Consensus
