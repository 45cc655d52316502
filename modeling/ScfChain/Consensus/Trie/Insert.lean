import ScfChain.Consensus.Trie.Find

/-!
# `insert` keeps the shape

`Inserted l k n n'`: `n'` stands where `n` did and counts `k` more for `l`. The changes at the node `find` ends at
give it (`insertAt_inserted`), a step up the climbing loop keeps it (`Inserted.step`), so the whole climb does
(`climb_inserted`).
-/

namespace ScfChain.Consensus

open Data

variable {L ID : Type} [LinearOrder ID] [HistoryLedger L ID]

namespace Node

/-! ## Changing children -/

/-- `n'` can stand where `n` stood. -/
structure SamePlace (n n' : Node L) : Prop where
  addr : n'.addr = n.addr
  parent : n'.parent = n.parent
  start : n'.span.start = n.span.start
  ledger : n'.span.ledger = n.span.ledger

variable {n c loc : Node L} {pre post : List (Node L)} {b k : UInt32} {l : L}

theorem SamePlace.startID {n' : Node L} (h : SamePlace n n') : n'.span.startID = n.span.startID := by
  unfold Span.startID
  rw [h.start, h.ledger]

theorem Local.replace {c' : Node L} (h : n.Local) (hch : n.children = pre ++ c :: post)
    (hstart : c'.span.start = c.span.start) (hid : c'.span.startID = c.span.startID)
    (hshare : Share n.span.ledger c'.span.ledger (n.span.end_ - 1)) (hparent : c'.parent = some n.addr)
    (hcomp : c'.tipSupport = 0 → 2 ≤ c'.children.length)
    (hb : b.toNat + c.branchSupport.toNat = n.branchSupport.toNat + c'.branchSupport.toNat) :
    Local { n with branchSupport := b, children := pre ++ c' :: post } := by
  have hold : ∀ d ∈ pre ++ c' :: post, d = c' ∨ d ∈ n.children := by
    intro d hd
    rw [hch]
    simp only [List.mem_append, List.mem_cons] at hd ⊢
    tauto
  have hc : c ∈ n.children := by rw [hch]; simp
  constructor
  · intro d hd
    rcases hold d hd with rfl | hd
    · rw [hstart]
      exact h.start_eq c hc
    · exact h.start_eq d hd
  · intro d hd
    rcases hold d hd with rfl | hd
    · exact hshare
    · exact h.share d hd
  · have := h.nodup
    rw [hch] at this
    simpa only [List.map_append, List.map_cons, hid] using this
  · intro d hd
    rcases hold d hd with rfl | hd
    · exact hparent
    · exact h.parent_eq d hd
  · intro d hd
    rcases hold d hd with rfl | hd
    · exact hcomp
    · exact h.compressed d hd
  · have hbr := h.branch_eq
    rw [hch] at hbr
    simp only [List.map_append, List.map_cons, List.sum_append, List.sum_cons] at hbr ⊢
    omega

theorem Local.append (h : n.Local) (hstart : c.span.start = n.span.end_)
    (hshare : Share n.span.ledger c.span.ledger (n.span.end_ - 1))
    (hnew : ∀ d ∈ n.children, d.span.startID ≠ c.span.startID) (hparent : c.parent = some n.addr)
    (hcomp : c.tipSupport = 0 → 2 ≤ c.children.length) (hb : b.toNat = n.branchSupport.toNat + c.branchSupport.toNat) :
    Local { n with branchSupport := b, children := n.children ++ [c] } := by
  have hold : ∀ {P : Node L → Prop}, (∀ d ∈ n.children, P d) → P c → ∀ d ∈ n.children ++ [c], P d := by
    intro P h1 h2 d hd
    rcases List.mem_append.mp hd with hd | hd
    · exact h1 d hd
    · rw [List.mem_singleton.mp hd]
      exact h2
  constructor
  · exact hold h.start_eq hstart
  · exact hold h.share hshare
  · rw [List.map_append, List.map_singleton, List.nodup_append]
    refine ⟨h.nodup, by simp, fun x hx y hy => ?_⟩
    obtain ⟨d, hd, rfl⟩ := List.mem_map.mp hx
    rw [List.mem_singleton.mp hy]
    exact hnew d hd
  · exact hold h.parent_eq hparent
  · exact hold h.compressed hcomp
  · rw [List.map_append, List.map_singleton, List.sum_append, List.sum_singleton]
    show b.toNat = n.tipSupport.toNat + _
    rw [hb, h.branch_eq]
    omega

theorem support_replace (hch : n.children = pre ++ c :: post) (c' : Node L) (b : UInt32) :
    support { n with branchSupport := b, children := pre ++ c' :: post } + c.support =
      n.support + c'.support := by
  rw [support_eq, support_eq n, hch]
  simp only [List.map_append, List.map_cons, List.sum_append, List.sum_cons]
  abel

/-! ## Splitting a node -/

theorem setParent_wf (h : n.WF) (p : Option ℕ) : WF { n with parent := p } :=
  .intro ⟨h.local.start_eq, h.local.share, h.local.nodup, h.local.parent_eq, h.local.compressed,
    h.local.branch_eq⟩ fun _ hc => h.child hc

theorem setParent_support (n : Node L) (p : Option ℕ) : support { n with parent := p } = n.support := by
  rw [support_eq, support_eq n]

theorem split_child_wf {a d : ℕ} (hloc : loc.WF) (h' : d < loc.span.end_) (p : Option ℕ) :
    WF { addr := a, span := ⟨d, loc.span.end_, loc.span.ledger, h', loc.span.end_le⟩,
         tipSupport := loc.tipSupport, branchSupport := loc.branchSupport, parent := p,
         children := loc.children.map fun child => { child with parent := some a } } := by
  refine .intro ⟨?_, ?_, ?_, ?_, ?_, ?_⟩ ?_
  · exact List.forall_mem_map.mpr hloc.local.start_eq
  · exact List.forall_mem_map.mpr hloc.local.share
  · rw [List.map_map]
    exact hloc.local.nodup
  · exact List.forall_mem_map.mpr fun _ _ => rfl
  · exact List.forall_mem_map.mpr hloc.local.compressed
  · rw [List.map_map]
    exact hloc.local.branch_eq
  · exact List.forall_mem_map.mpr fun c hc => setParent_wf (hloc.child hc) _

/-- What `insertAt` makes of `loc` before it counts the ledger: a node that ends at the first difference. -/
structure Cut (l : L) (loc loc' : Node L) : Prop where
  wf : loc'.WF
  place : SamePlace loc loc'
  end_eq : loc'.span.end_ = loc.span.diff l
  support : loc'.support = loc.support
  branch : loc'.branchSupport = loc.branchSupport
  none_shared : ∀ c ∈ loc'.children, ¬ Share c.span.ledger l c.span.start
  compressed : (loc.tipSupport = 0 → 2 ≤ loc.children.length) → loc'.tipSupport = 0 →
    1 ≤ loc'.children.length ∧ (loc'.span.end_ = loc.span.end_ → 2 ≤ loc'.children.length)

theorem cut_split {a : ℕ} (hloc : loc.WF) (hs : Share loc.span.ledger l loc.span.start)
    (hd : loc.span.diff l < loc.span.end_) (hcomp : loc.tipSupport = 0 → 2 ≤ loc.children.length) :
    Cut l loc (loc.split a
      ⟨loc.span.start, loc.span.diff l, loc.span.ledger, loc.span.start_lt_diff_iff.mpr hs,
        hd.le.trans loc.span.end_le⟩
      ⟨loc.span.diff l, loc.span.end_, loc.span.ledger, hd, loc.span.end_le⟩) := by
  have hlt := loc.span.start_lt_diff_iff.mpr hs
  have hle := loc.span.end_le
  refine ⟨.intro ⟨?_, ?_, ?_, ?_, ?_, ?_⟩ ?_, ⟨rfl, rfl, rfl, rfl⟩, rfl, ?_, rfl, ?_, ?_⟩
  · exact fun c hc => by rw [List.mem_singleton.mp hc]; rfl
  · intro c hc
    rw [List.mem_singleton.mp hc]
    show Share loc.span.ledger loc.span.ledger (loc.span.diff l - 1)
    exact Share.refl (by omega)
  · exact List.nodup_singleton _
  · exact fun c hc => by rw [List.mem_singleton.mp hc]; rfl
  · exact fun c hc => by rw [List.mem_singleton.mp hc]; simpa using hcomp
  · simp [split]
  · exact fun c hc => by rw [List.mem_singleton.mp hc]; exact split_child_wf hloc hd _
  · rw [support_eq, support_eq loc]
    simp only [split, List.map_singleton, List.sum_singleton]
    rw [support_eq]
    simp [Span.tip, Function.comp_def, setParent_support]
  · intro c hc
    rw [List.mem_singleton.mp hc]
    exact loc.span.not_share_diff hs hd
  · intro _ _
    refine ⟨le_rfl, fun h => ?_⟩
    have h : loc.span.diff l = loc.span.end_ := h
    omega

theorem cut_whole (hloc : loc.WF) (hd : loc.span.diff l = loc.span.end_)
    (hnone : ∀ c ∈ loc.children, ¬ Share c.span.ledger l c.span.start) : Cut l loc loc :=
  ⟨hloc, ⟨rfl, rfl, rfl, rfl⟩, hd.symm, rfl, rfl, hnone,
    fun h h0 => ⟨Nat.le_of_succ_le (h h0), fun _ => h h0⟩⟩

/-! ## Counting the ledger -/

/-- `n'` stands where `n` did and counts `k` more for `l`. -/
structure Inserted (l : L) (k : UInt32) (n n' : Node L) : Prop where
  wf : n'.WF
  place : SamePlace n n'
  end_eq : n'.span.end_ ≤ n.span.end_
  branch : n'.branchSupport.toNat = n.branchSupport.toNat + k.toNat
  support : n'.support = n.support + Finsupp.single (idOf l) k.toNat
  compressed : (n.tipSupport = 0 → 2 ≤ n.children.length) → n'.tipSupport = 0 → 2 ≤ n'.children.length

theorem toNat_add_of_lt {a : UInt32} (h : a.toNat + b.toNat < 2 ^ 32) : (a + b).toNat = a.toNat + b.toNat := by
  rw [UInt32.toNat_add, Nat.mod_eq_of_lt h]

theorem Cut.push (hk : k ≠ 0) {loc' : Node L} (h : Cut l loc loc') (hs : Share loc.span.ledger l loc.span.start)
    (hlt : loc.branchSupport.toNat + k.toNat < 2 ^ 32) (hd : loc.span.diff l ≤ seq l) (a : ℕ) :
    Inserted l k loc
      { loc' with
        branchSupport := loc'.branchSupport + k
        children := loc'.children ++
          [{ addr := a, span := ⟨loc.span.diff l, seq l + 1, l, Nat.lt_succ_of_le hd, le_rfl⟩,
             tipSupport := 0 + k, branchSupport := 0 + k, parent := some loc'.addr, children := [] }] } := by
  have hbr : (loc'.branchSupport + k).toNat = loc.branchSupport.toNat + k.toNat := by
    rw [h.branch, toNat_add_of_lt hlt]
  have hleaf : WF (L := L)
      { addr := a, span := ⟨loc.span.diff l, seq l + 1, l, Nat.lt_succ_of_le hd, le_rfl⟩,
        tipSupport := 0 + k, branchSupport := 0 + k, parent := some loc'.addr, children := [] } :=
    .intro ⟨by simp, by simp, by simp, by simp, by simp, by simp⟩ (by simp)
  have hdle := loc.span.diff_le l
  refine ⟨.intro (h.wf.local.append h.end_eq.symm ?_ ?_ rfl ?_ ?_) ?_, ?_, ?_, hbr, ?_, ?_⟩
  · show Share loc'.span.ledger l (loc'.span.end_ - 1)
    rw [h.place.ledger, h.end_eq]
    exact loc.span.share_pred_diff hs
  · -- a child with the same start ID would share its start with `l`
    intro c hc he
    refine h.none_shared c hc ⟨c.span.start_le_seq, ?_, ?_⟩
    · rw [h.wf.local.start_eq c hc, h.end_eq]
      exact hd
    · rw [show ancestor l c.span.start = ancestor l (loc.span.diff l) by
        rw [h.wf.local.start_eq c hc, h.end_eq]]
      exact he
  · exact fun h0 => absurd (by simpa using h0) hk
  · rw [hbr, h.branch]
    simp
  · intro c hc
    rcases List.mem_append.mp hc with hc | hc
    · exact h.wf.child hc
    · rw [List.mem_singleton.mp hc]
      exact hleaf
  · exact ⟨h.place.addr, h.place.parent, h.place.start, h.place.ledger⟩
  · show loc'.span.end_ ≤ _
    rw [h.end_eq]
    exact hdle
  · have hidl : ancestor l (seq l) = idOf l := HistoryLedger.ancestor_seq l
    rw [support_eq, List.map_append, List.sum_append, ← add_assoc]
    rw [← h.support, support_eq loc', List.map_singleton, List.sum_singleton, support_eq]
    simp [Span.tip, hidl]
  · intro hcomp h0
    have h1 := h.compressed hcomp h0
    show 2 ≤ (loc'.children ++ _).length
    rw [List.length_append, List.length_singleton]
    by_cases he : loc'.span.end_ = loc.span.end_
    · have := h1.2 he
      omega
    · have := h1.1
      omega

theorem Cut.bump (hk : k ≠ 0) {loc' : Node L} (h : Cut l loc loc') (hs : Share loc.span.ledger l loc.span.start)
    (hlt : loc.branchSupport.toNat + k.toNat < 2 ^ 32) (hd : loc.span.diff l = seq l + 1) :
    Inserted l k loc
      { loc' with tipSupport := loc'.tipSupport + k, branchSupport := loc'.branchSupport + k } := by
  have hle : loc'.tipSupport.toNat ≤ loc.branchSupport.toNat := by
    rw [← h.branch]
    exact h.wf.tip_le
  have hbr : (loc'.branchSupport + k).toNat = loc.branchSupport.toNat + k.toNat := by
    rw [h.branch, toNat_add_of_lt hlt]
  have htip : (loc'.tipSupport + k).toNat = loc'.tipSupport.toNat + k.toNat :=
    toNat_add_of_lt (by omega)
  have hid : loc'.span.tip.id = idOf l := by
    rw [Span.tip_id_eq_idOf_iff, h.end_eq, h.place.ledger]
    exact ⟨hd, loc.span.share_pred_diff hs⟩
  have hkpos : k.toNat ≠ 0 := fun h0 => hk (UInt32.toNat_inj.mp h0)
  refine ⟨.intro ⟨h.wf.local.start_eq, h.wf.local.share, h.wf.local.nodup, h.wf.local.parent_eq,
    h.wf.local.compressed, ?_⟩ fun _ hc => h.wf.child hc, ?_, ?_, hbr, ?_, ?_⟩
  · have := h.wf.local.branch_eq
    rw [h.branch] at this
    simp only [hbr, htip, this]
    omega
  · exact ⟨h.place.addr, h.place.parent, h.place.start, h.place.ledger⟩
  · show loc'.span.end_ ≤ _
    rw [h.end_eq]
    exact loc.span.diff_le l
  · rw [support_eq, ← h.support, support_eq loc']
    show Finsupp.single loc'.span.tip.id (loc'.tipSupport + k).toNat + _ = _
    rw [htip, Finsupp.single_add, hid]
    abel
  · intro _ h0
    have h0 : (loc'.tipSupport + k).toNat = 0 := congrArg UInt32.toNat h0
    omega

/-- **The changes at the node `find` ends at.** -/
theorem insertAt_inserted (hk : k ≠ 0) (hloc : loc.WF) (hs : Share loc.span.ledger l loc.span.start)
    (hnone : loc.span.diff l = loc.span.end_ → ∀ c ∈ loc.children, ¬ Share c.span.ledger l c.span.start)
    (hcomp : loc.span.start + 1 < loc.span.end_ → loc.tipSupport = 0 → 2 ≤ loc.children.length)
    (hlt : loc.branchSupport.toNat + k.toNat < 2 ^ 32) (a : ℕ) :
    Inserted l k loc (loc.insertAt a l k (loc.span.diff l)) := by
  have hstart := loc.span.start_lt_diff_iff.mpr hs
  have hdle := loc.span.diff_le l
  have hseq : loc.span.diff l ≤ seq l + 1 := by
    have := (loc.span.share_pred_diff hs).2.1
    omega
  rcases hdle.lt_or_eq with hd | hd
  · have hcut := cut_split (a := a) hloc hs hd (hcomp (by omega))
    unfold insertAt
    simp only [loc.span.fromSpot_eq hstart.le hd, loc.span.before_eq hstart hd.le]
    rcases hseq.lt_or_eq with hl | hl
    · simp only [Span.fromSpot_ofLedger (Nat.le_of_lt_succ hl)]
      exact hcut.push hk hs hlt (Nat.le_of_lt_succ hl) (a + 1)
    · simp only [hl, Span.fromSpot_ofLedger_seq]
      simpa only [hl] using hcut.bump hk hs hlt hl
  · have hcut := cut_whole hloc hd (hnone hd)
    unfold insertAt
    simp only [show loc.span.fromSpot (loc.span.diff l) = none by rw [hd]; exact loc.span.fromSpot_end]
    rcases hseq.lt_or_eq with hl | hl
    · simp only [Span.fromSpot_ofLedger (Nat.le_of_lt_succ hl)]
      exact hcut.push hk hs hlt (Nat.le_of_lt_succ hl) (a + 1)
    · simp only [hl, Span.fromSpot_ofLedger_seq]
      exact hcut.bump hk hs hlt hl

/-! ## The climbing loop -/

theorem modify_append_cons {α : Type*} (f : α → α) (c : α) (post : List α) : ∀ pre : List α,
    (pre ++ c :: post).modify pre.length f = pre ++ f c :: post
  | [] => rfl
  | d :: pre => by
    rw [List.cons_append, List.length_cons, List.modify_succ_cons, modify_append_cons f c post pre,
      List.cons_append]

theorem Inserted.step {c' : Node L} (h : Inserted l k c c') (hn : n.WF) (hch : n.children = pre ++ c :: post)
    (hlt : n.branchSupport.toNat + k.toNat < 2 ^ 32) :
    Inserted l k n (addBranch k { n with children := pre ++ c' :: post }) := by
  have hc : c ∈ n.children := by rw [hch]; simp
  have hbr : (n.branchSupport + k).toNat = n.branchSupport.toNat + k.toNat := toNat_add_of_lt hlt
  refine ⟨.intro (hn.local.replace hch h.place.start h.place.startID ?_ ?_
    (h.compressed (hn.local.compressed c hc)) ?_) ?_, ⟨rfl, rfl, rfl, rfl⟩, le_rfl, hbr, ?_, ?_⟩
  · rw [h.place.ledger]
    exact hn.local.share c hc
  · rw [h.place.parent]
    exact hn.local.parent_eq c hc
  · show (n.branchSupport + k).toNat + _ = _
    rw [hbr, h.branch]
    omega
  · intro d hd
    have : d = c' ∨ d ∈ n.children := by
      rw [hch]
      simp only [addBranch, List.mem_append, List.mem_cons] at hd ⊢
      tauto
    rcases this with rfl | hd
    · exact h.wf
    · exact hn.child hd
  · have := support_replace hch c' (n.branchSupport + k)
    rw [h.support, ← add_assoc] at this
    have hcancel : Node.support (addBranch k { n with children := pre ++ c' :: post }) + c.support =
        n.support + Finsupp.single (idOf l) k.toNat + c.support := by
      rw [show addBranch k { n with children := pre ++ c' :: post } =
        { n with branchSupport := n.branchSupport + k, children := pre ++ c' :: post } from rfl, this]
      abel
    exact add_right_cancel hcancel
  · intro hcomp h0
    have := hcomp h0
    rw [hch] at this
    simpa [addBranch] using this

/-- **A whole `insert` below a node.** -/
theorem climb_inserted (hk : k ≠ 0) (a : ℕ) {path : List ℕ} (h : Descent l n path loc) (hn : n.WF)
    (hs : Share n.span.ledger l n.span.start)
    (hcomp : n.span.start + 1 < n.span.end_ → n.tipSupport = 0 → 2 ≤ n.children.length)
    (hlt : n.branchSupport.toNat + k.toNat < 2 ^ 32) :
    Inserted l k n (n.climb (insertAt a l k (loc.span.diff l)) (addBranch k) path) := by
  induction h with
  | @here n hnone => exact insertAt_inserted hk hn hs hnone hcomp hlt a
  | @child n c loc pre post path hch _ hc _ ih =>
    have hmem : c ∈ n.children := by rw [hch]; simp
    have hle : c.branchSupport.toNat ≤ n.branchSupport.toNat := by
      rw [hn.local.branch_eq]
      have := List.single_le_sum (fun _ _ => Nat.zero_le _) _
        (List.mem_map_of_mem (f := fun c : Node L => c.branchSupport.toNat) hmem)
      omega
    have hins := ih (hn.child hmem) hc (fun _ => hn.local.compressed c hmem) (by omega)
    rw [climb, hch, modify_append_cons]
    exact hins.step hn hch hlt

end Node

end ScfChain.Consensus
