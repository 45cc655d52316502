import ScfChain.Consensus.Trie.Insert

/-!
# `remove` keeps the shape

`remove` first lowers the supports from the node up to the root and then compresses on the same path. The two
loops are followed together: `Removed l k n n' more` says that `n'` stands where `n` did, counts `k` less for
`l`, and is compressed itself unless the compression loop still has to look at it (`more`).

* `compressChild_spec`: one round of the compression loop repairs the child it looks at;
* `compress_removed`: both loops below a node.
-/

namespace ScfChain.Consensus

open Data

variable {L ID : Type} [LinearOrder ID] [HistoryLedger L ID]

namespace Node

/-! ## Dropping a child -/

theorem erase_perm (pre : List (Node L)) (c : Node L) (post : List (Node L)) :
    (erase (pre ++ c :: post) pre.length).Perm (pre ++ post) := by
  rcases List.eq_nil_or_concat post with rfl | ⟨post, b, rfl⟩
  · simp [erase]
  · -- the last child takes the place of `c`
    have hset : (pre ++ c :: post ++ [b]).set pre.length b = pre ++ b :: post ++ [b] := by simp
    rw [List.concat_eq_append, ← List.cons_append, ← List.append_assoc, erase, List.getLast?_concat]
    simp only [hset, List.dropLast_concat]
    exact List.Perm.append_left pre (List.perm_append_singleton _ _).symm

variable {n c c' : Node L} {pre post : List (Node L)} {b k : UInt32} {l : L}

theorem Local.drop (h : n.Local) (hch : n.children = pre ++ c :: post)
    (hb : b.toNat + c.branchSupport.toNat = n.branchSupport.toNat) :
    Local { n with branchSupport := b, children := pre ++ post } := by
  have hold : ∀ d ∈ pre ++ post, d ∈ n.children := by
    intro d hd
    rw [hch]
    simp only [List.mem_append, List.mem_cons] at hd ⊢
    tauto
  refine ⟨fun d hd => h.start_eq d (hold d hd), fun d hd => h.share d (hold d hd), ?_,
    fun d hd => h.parent_eq d (hold d hd), fun d hd => h.compressed d (hold d hd), ?_⟩
  · have := h.nodup
    rw [hch, (List.perm_middle.map _).nodup_iff, List.map_cons] at this
    exact this.of_cons
  · have hbr := h.branch_eq
    rw [hch, (List.perm_middle.map _).sum_eq, List.map_cons, List.sum_cons] at hbr
    show b.toNat = n.tipSupport.toNat + ((pre ++ post).map fun c => c.branchSupport.toNat).sum
    omega

/-! ## One round of the compression loop -/

/-- The children of `n` after a round: fit for `n` with branch support `b`, and counting for `c` what `c'`
counted. -/
structure Fit (n c c' : Node L) (b : UInt32) (cs : List (Node L)) : Prop where
  loc : Local { n with branchSupport := b, children := cs }
  wf : ∀ d ∈ cs, d.WF
  support : (cs.map support).sum + c.support = (n.children.map Node.support).sum + c'.support

theorem Fit.perm {cs cs' : List (Node L)} (h : Fit n c c' b cs) (hp : cs.Perm cs') : Fit n c c' b cs' where
  loc := h.loc.perm hp
  wf d hd := h.wf d (hp.mem_iff.mpr hd)
  support := by
    rw [← (hp.map _).sum_eq]
    exact h.support

section

variable (hn : n.WF) (hch : n.children = pre ++ c :: post)
include hn hch

theorem fit_replace {d : Node L} (hd : d.WF)
    (hstart : d.span.start = c.span.start) (hid : d.span.startID = c.span.startID)
    (hshare : Share n.span.ledger d.span.ledger (n.span.end_ - 1)) (hparent : d.parent = some n.addr)
    (hcomp : d.tipSupport = 0 → 2 ≤ d.children.length) (hbr : d.branchSupport = c'.branchSupport)
    (hsup : d.support = c'.support)
    (hb : b.toNat + c.branchSupport.toNat = n.branchSupport.toNat + c'.branchSupport.toNat) :
    Fit n c c' b (pre ++ d :: post) where
  loc := hn.local.replace hch hstart hid hshare hparent hcomp (by rw [hbr]; exact hb)
  wf e he := by
    have : e = d ∨ e ∈ n.children := by
      rw [hch]
      simp only [List.mem_append, List.mem_cons] at he ⊢
      tauto
    rcases this with rfl | he
    · exact hd
    · exact hn.child he
  support := by
    rw [hch]
    simp only [List.map_append, List.map_cons, List.sum_append, List.sum_cons, hsup]
    abel

theorem fit_drop (hwf : c'.WF) (htip : c'.tipSupport = 0)
    (hcs : c'.children = []) (hb : b.toNat + c.branchSupport.toNat = n.branchSupport.toNat + c'.branchSupport.toNat) :
    Fit n c c' b (pre ++ post) where
  loc := by
    have h0 := hwf.local.branch_eq
    rw [htip, hcs] at h0
    simp only [List.map_nil, List.sum_nil, UInt32.toNat_zero] at h0
    exact hn.local.drop hch (by omega)
  wf e he := hn.child (by rw [hch]; simp only [List.mem_append, List.mem_cons] at he ⊢; tauto)
  support := by
    rw [support_eq c', htip, hcs, hch]
    simp only [List.map_append, List.map_cons, List.sum_append, List.sum_cons, List.map_nil, List.sum_nil,
      UInt32.toNat_zero, Finsupp.single_zero, add_zero]
    abel

theorem fit_merge {d : Node L} (hwf : c'.WF) (hspan : c'.span = c.span)
    (htip : c'.tipSupport = 0) (hcs : c'.children = [d])
    (hb : b.toNat + c.branchSupport.toNat = n.branchSupport.toNat + c'.branchSupport.toNat) :
    Fit n c c' b (pre ++ { d with span := c'.span.merge d.span, parent := some n.addr } :: post) := by
  have hc : c ∈ n.children := by rw [hch]; simp
  have hdmem : d ∈ c'.children := by rw [hcs]; simp
  have hd := hwf.child hdmem
  have hstart := hwf.local.start_eq d hdmem
  have hlt := c'.span.start_lt
  have hshare : Share c'.span.ledger d.span.ledger c'.span.start :=
    (hwf.local.share d hdmem).mono (by omega)
  rw [Span.merge_eq hstart]
  refine fit_replace (d := { d with span := ⟨c'.span.start, d.span.end_, d.span.ledger, _, _⟩, parent := some n.addr })
    hn hch (.intro ⟨hd.local.start_eq, hd.local.share, hd.local.nodup, hd.local.parent_eq,
    hd.local.compressed, hd.local.branch_eq⟩ fun _ he => hd.child he) ?_ ?_ ?_ rfl ?_ ?_ ?_ hb
  · show c'.span.start = c.span.start
    rw [hspan]
  · rw [← hspan]
    exact hshare.2.2.symm
  · have hnc := hn.local.share c hc
    have hcs := hn.local.start_eq c hc
    rw [← hspan] at hnc hcs
    exact hnc.trans (hshare.mono (by omega))
  · exact hwf.local.compressed d hdmem
  · have h0 := hwf.local.branch_eq
    rw [htip, hcs] at h0
    exact UInt32.toNat_inj.mp (by simpa using h0.symm)
  · rw [support_eq c', htip, hcs, support_eq]
    simp [support_eq d, Span.tip]

/-- **One round of the compression loop.** -/
theorem compressChild_spec (hwf : c'.WF) (hspan : c'.span = c.span)
    (hparent : c'.parent = c.parent)
    (hb : b.toNat + c.branchSupport.toNat = n.branchSupport.toNat + c'.branchSupport.toNat) :
    ∃ cs more, compressChild pre.length { n with branchSupport := b, children := pre ++ c' :: post } =
        ({ n with branchSupport := b, children := cs }, more) ∧ Fit n c c' b cs ∧
      (more = false → cs.length = n.children.length) := by
  have hc : c ∈ n.children := by rw [hch]; simp
  have hget : (pre ++ c' :: post)[pre.length]? = some c' := by simp
  have hkeep : (c'.tipSupport = 0 → 2 ≤ c'.children.length) → Fit n c c' b (pre ++ c' :: post) := fun hcomp =>
    fit_replace hn hch hwf (by rw [hspan]) (by rw [hspan]) (by rw [hspan]; exact hn.local.share c hc)
      (by rw [hparent]; exact hn.local.parent_eq c hc) hcomp rfl rfl hb
  have hlen : (pre ++ c' :: post).length = n.children.length := by rw [hch]; simp
  unfold compressChild
  simp only [hget]
  by_cases htip : c'.tipSupport = 0
  · simp only [htip, if_true]
    rcases hcs : c'.children with _ | ⟨d, _ | ⟨e, rest⟩⟩
    · exact ⟨_, _, rfl, (fit_drop hn hch hwf htip hcs hb).perm (erase_perm pre c' post).symm, by simp⟩
    · refine ⟨_, _, rfl, (fit_merge hn hch hwf hspan htip hcs hb).perm ?_, by simp⟩
      rw [List.append_assoc, List.cons_append]
      refine (List.Perm.append_left pre ?_).trans (erase_perm pre c' _).symm
      exact (List.perm_append_singleton _ _).symm
    · exact ⟨_, _, rfl, hkeep fun _ => by rw [hcs]; simp, fun _ => hlen⟩
  · simp only [if_neg htip]
    exact ⟨_, _, rfl, hkeep fun h => absurd h htip, fun _ => hlen⟩

/-! ## Both loops -/

end

/-- `n'` stands where `n` did and counts `k` less for `l`. -/
structure Removed (l : L) (k : UInt32) (n n' : Node L) (more : Bool) : Prop where
  wf : n'.WF
  addr : n'.addr = n.addr
  parent : n'.parent = n.parent
  span : n'.span = n.span
  branch : n'.branchSupport.toNat + k.toNat = n.branchSupport.toNat
  support : n'.support + Finsupp.single (idOf l) k.toNat = n.support
  compressed : more = false → (n.tipSupport = 0 → 2 ≤ n.children.length) →
    n'.tipSupport = 0 → 2 ≤ n'.children.length

theorem toNat_sub_of_le {a : UInt32} (h : b.toNat ≤ a.toNat) : (a - b).toNat + b.toNat = a.toNat := by
  rw [UInt32.toNat_sub_of_le _ _ (UInt32.le_iff_toNat_le.mpr h)]
  omega

theorem subSupport_removed (hn : n.WF) (htip : n.span.tip.id = idOf l)
    (hk : k.toNat ≤ n.tipSupport.toNat) : Removed l k n (subSupport k n) true := by
  have hbr := toNat_sub_of_le (hk.trans hn.tip_le)
  have ht := toNat_sub_of_le hk
  refine ⟨.intro ⟨hn.local.start_eq, hn.local.share, hn.local.nodup, hn.local.parent_eq,
    hn.local.compressed, ?_⟩ fun _ hc => hn.child hc, rfl, rfl, rfl, hbr, ?_, by simp⟩
  · have := hn.local.branch_eq
    show (n.branchSupport - k).toNat = (n.tipSupport - k).toNat + (n.children.map _).sum
    omega
  · rw [support_eq, support_eq n]
    show Finsupp.single n.span.tip.id (n.tipSupport - k).toNat + (n.children.map _).sum + _ = _
    rw [← ht, Finsupp.single_add, htip]
    abel

theorem Removed.step {more : Bool} (h : Removed l k c c' more) (hn : n.WF) (hch : n.children = pre ++ c :: post) :
    let m := subBranch k { n with children := pre ++ c' :: post }
    let r := if more then m.compressChild pre.length else (m, false)
    Removed l k n r.1 r.2 := by
  have hc : c ∈ n.children := by rw [hch]; simp
  have hle : c.branchSupport.toNat ≤ n.branchSupport.toNat := by
    rw [hn.local.branch_eq]
    have := List.single_le_sum (fun _ _ => Nat.zero_le _) _
      (List.mem_map_of_mem (f := fun c : Node L => c.branchSupport.toNat) hc)
    omega
  have hbr := toNat_sub_of_le ((Nat.le.intro ((Nat.add_comm _ _).trans h.branch)).trans hle)
  have hb : (n.branchSupport - k).toNat + c.branchSupport.toNat =
      n.branchSupport.toNat + c'.branchSupport.toNat := by
    have := h.branch
    omega
  obtain ⟨cs, more', heq, hfit, hlen⟩ : ∃ cs more',
      (if more then compressChild pre.length (subBranch k { n with children := pre ++ c' :: post })
        else (subBranch k { n with children := pre ++ c' :: post }, false)) =
      ({ n with branchSupport := n.branchSupport - k, children := cs }, more') ∧
      Fit n c c' (n.branchSupport - k) cs ∧ (more' = false → cs.length = n.children.length) := by
    cases more with
    | true => exact compressChild_spec hn hch h.wf h.span h.parent hb
    | false =>
      refine ⟨_, _, rfl, fit_replace hn hch h.wf (by rw [h.span]) (by rw [h.span]) ?_ ?_
        (h.compressed rfl (hn.local.compressed c hc)) rfl rfl hb, fun _ => by rw [hch]; simp⟩
      · rw [h.span]
        exact hn.local.share c hc
      · rw [h.parent]
        exact hn.local.parent_eq c hc
  simp only
  rw [heq]
  refine ⟨.intro hfit.loc hfit.wf, rfl, rfl, rfl, hbr, ?_, fun hm hcomp h0 => ?_⟩
  · have hsum := hfit.support
    rw [← h.support, ← add_assoc, add_right_comm] at hsum
    rw [support_eq, support_eq n, ← add_right_cancel hsum]
    abel
  · show 2 ≤ cs.length
    rw [hlen hm]
    exact hcomp h0

/-- **A whole `remove` below a node.** -/
theorem compress_removed {loc : Node L} {path : List ℕ} (h : Descent l n path loc) (hn : n.WF)
    (htip : loc.span.tip.id = idOf l) (hk : k.toNat ≤ loc.tipSupport.toNat) :
    let r := (n.climb (subSupport k) (subBranch k) path).compress path
    Removed l k n r.1 r.2 := by
  induction h with
  | @here n _ => exact subSupport_removed hn htip hk
  | @child n c loc pre post path hch _ _ _ ih =>
    have hmem : c ∈ n.children := by rw [hch]; simp
    have hstep := (ih (hn.child hmem) htip hk).step hn hch
    have hclimb : n.climb (subSupport k) (subBranch k) (pre.length :: path) =
        subBranch k { n with children := pre ++ c.climb (subSupport k) (subBranch k) path :: post } := by
      rw [climb, hch, modify_append_cons]
    simp only
    rw [hclimb, compress]
    simp only [subBranch, List.getElem?_append_right le_rfl, Nat.sub_self,
      List.getElem?_cons_zero, List.set_append_right _ _ le_rfl, List.set_cons_zero] at hstep ⊢
    exact hstep

end Node

end ScfChain.Consensus
