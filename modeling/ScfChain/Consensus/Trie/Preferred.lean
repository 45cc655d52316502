import ScfChain.Consensus.Trie.Covers

/-!
# `getPreferred` is the walk over the ancestry tree

The loop of `getPreferred` jumps along compressed spans and carries an iterator over `seqSupport` from node to
node. `Cursor net b unc it`: the iterator stands at `b`, and `unc` is the support of the sequence numbers before it.

* `advance_spec`: the jumps along a span stop where the plain walk does;
* `fork`: at the tip of a span the sorted children give the best child and its margin;
* `preferredFrom_spec`: the loop from a node on ends where the plain walk from its first ledger does.
-/

namespace ScfChain.Consensus

open Data Ancestry

variable {L ID : Type} [LinearOrder ID] [HistoryLedger L ID] {net : L →₀ ℕ}

namespace LedgerTrie

/-! ## The iterator over `seqSupport` -/

structure Cursor (net : L →₀ ℕ) (b : ℕ) (unc : UInt32) (it : List (ℕ × UInt32)) : Prop where
  counted : unc.toNat = tally (fun m => seq m < b) net
  sorted : it.Pairwise fun e e' => e.1 < e'.1
  mem_iff : ∀ s k, (s, k) ∈ it ↔ b ≤ s ∧ countAt net s ≠ 0 ∧ k = UInt32.ofNat (countAt net s)

theorem cursor_start {t : LedgerTrie L} (h : t.Inv net) : Cursor net 0 0 t.seqSupport.toList where
  counted := by
    rw [tally_eq_zero fun m _ => Nat.not_lt_zero _]
    rfl
  sorted := by
    simpa only [Nat.compare_eq_lt] using t.seqSupport.ordered_keys_toList
  mem_iff s k := by
    rw [Std.ExtTreeMap.mem_toList_iff_getElem?_eq_some, h.seqs s]
    by_cases h0 : countAt net s = 0
    · simp [h0]
    · simp [h0, eq_comm]

theorem countAt_ne_zero {m : L} (hm : m ∈ net.support) : countAt net (seq m) ≠ 0 :=
  ((tally_pos_iff (P := fun m' => seq m' = seq m)).mpr ⟨m, hm, rfl⟩).ne'

theorem Cursor.skip {b c : ℕ} {unc : UInt32} {it : List (ℕ × UInt32)} (h : Cursor net b unc it) (hbc : b ≤ c)
    (hit : ∀ e ∈ it, c ≤ e.1) : Cursor net c unc it where
  counted := by
    rw [h.counted]
    refine tally_congr fun m hm => ⟨fun hlt => by omega, fun hlt => ?_⟩
    by_contra hge
    have := hit _ ((h.mem_iff (seq m) _).mpr ⟨by omega, countAt_ne_zero hm, rfl⟩)
    omega
  sorted := h.sorted
  mem_iff s k := by
    rw [h.mem_iff]
    refine ⟨fun hs => ⟨hit (s, k) ((h.mem_iff s k).mpr hs), hs.2⟩, fun hs => ⟨by omega, hs.2⟩⟩

theorem Cursor.next {b s : ℕ} {unc k : UInt32} {it : List (ℕ × UInt32)} (hbound : total net < 2 ^ 32)
    (h : Cursor net b unc ((s, k) :: it)) : b ≤ s ∧ Cursor net (s + 1) (unc + k) it := by
  obtain ⟨hbs, hne, rfl⟩ := (h.mem_iff s k).mp List.mem_cons_self
  have hsorted := List.pairwise_cons.mp h.sorted
  have hfirst : ∀ e ∈ (s, UInt32.ofNat (countAt net s)) :: it, s ≤ e.1 := by
    intro e he
    rcases List.mem_cons.mp he with rfl | he
    · exact le_rfl
    · exact (hsorted.1 e he).le
  have hsum : tally (fun m => seq m < s + 1) net = tally (fun m => seq m < s) net + countAt net s := by
    unfold countAt
    rw [← tally_or fun m _ => fun hlt => hlt.ne]
    exact tally_congr fun m _ => by omega
  have hle : tally (fun m => seq m < s + 1) net < 2 ^ 32 := lt_of_le_of_lt tally_le_total hbound
  refine ⟨hbs, ?_, hsorted.2, fun s' k' => ?_⟩
  · have hc := (h.skip hbs hfirst).counted
    rw [hsum, UInt32.toNat_add, UInt32.toNat_ofNat_of_lt' (by omega : countAt net s < 2 ^ 32), hc,
      Nat.mod_eq_of_lt (by omega)]
  · constructor
    · intro he
      have hlt := hsorted.1 (s', k') he
      exact ⟨hlt, ((h.mem_iff s' k').mp (List.mem_cons_of_mem _ he)).2⟩
    · rintro ⟨hlt, hrest⟩
      rcases List.mem_cons.mp ((h.mem_iff s' k').mpr ⟨by omega, hrest⟩) with he | he
      · have := (Prod.ext_iff.mp he).1
        omega
      · exact he

theorem addUncommitted_spec (hbound : total net < 2 ^ 32) {bound : ℕ} : ∀ {it : List (ℕ × UInt32)} {b : ℕ}
    {unc : UInt32}, Cursor net b unc it → b ≤ bound →
      Cursor net bound (addUncommitted bound unc it).1 (addUncommitted bound unc it).2
  | [], b, unc, h, hb => h.skip hb (by simp)
  | (s, k) :: it, b, unc, h, hb => by
    rw [addUncommitted]
    split
    · next hlt => exact addUncommitted_spec hbound (h.next hbound).2 hlt
    · next hge =>
      refine h.skip hb fun e he => ?_
      rcases List.mem_cons.mp he with rfl | he
      · exact Nat.le_of_not_lt hge
      · have := (List.pairwise_cons.mp h.sorted).1 e he
        omega

/-! ## Along a span -/

/-- What `advance` returns: the position `w` at which the walk along the span stops, and the iterator there. -/
structure Advanced (net : L →₀ ℕ) (largest end_ support v : ℕ) (w : ℕ) (unc : UInt32)
    (it : List (ℕ × UInt32)) : Prop where
  cursor : Cursor net (max w largest) unc it
  le : v ≤ w
  le_end : w ≤ end_
  passed : ∀ s, v ≤ s → s < w → uncommitted net largest s < support
  stopped : w < end_ → support ≤ uncommitted net largest w

theorem Cursor.passed {largest v w support : ℕ} {unc : UInt32} {it : List (ℕ × UInt32)}
    (h : Cursor net (max v largest) unc it) (hit : ∀ e ∈ it, w ≤ e.1) (hlt : unc.toNat < support) :
    ∀ s, v ≤ s → s ≤ w → uncommitted net largest s < support := by
  intro s hv hw
  have hfirst : ∀ e ∈ it, max v largest ≤ e.1 := fun e he => ((h.mem_iff e.1 e.2).mp he).1
  have hs : Cursor net (max s largest) unc it := h.skip (by omega) fun e he => by
    have := hit e he
    have := hfirst e he
    omega
  have hc := hs.counted
  unfold uncommitted
  omega

/-- **The jumps of `getPreferred` along a span.** -/
theorem advance_spec (hbound : total net < 2 ^ 32) {largest end_ : ℕ} (support : UInt32) :
    ∀ {it : List (ℕ × UInt32)} {v : ℕ} {unc : UInt32}, Cursor net (max v largest) unc it → v ≤ end_ →
      let r := advance end_ support v unc it
      Advanced net largest end_ support.toNat v r.1 r.2.1 r.2.2
  | [], v, unc, h, hv => by
    simp only [advance]
    split
    · next hlt =>
      refine ⟨h.skip (by omega) (by simp), hv, le_rfl, fun s hs hs' => ?_, fun h => absurd h (lt_irrefl _)⟩
      exact h.passed (w := end_) (by simp) (UInt32.lt_iff_toNat_lt.mp hlt.2) s hs hs'.le
    · next hnot =>
      refine ⟨h, le_rfl, hv, fun s hs hs' => by omega, fun hlt => ?_⟩
      have hge : support.toNat ≤ unc.toNat := Nat.le_of_not_lt fun h' => hnot ⟨hlt, UInt32.lt_iff_toNat_lt.mpr h'⟩
      exact hge.trans_eq h.counted
  | (s₀, k) :: it, v, unc, h, hv => by
    have hfirst : ∀ e ∈ (s₀, k) :: it, s₀ ≤ e.1 := by
      intro e he
      rcases List.mem_cons.mp he with rfl | he
      · exact le_rfl
      · exact ((List.pairwise_cons.mp h.sorted).1 e he).le
    obtain ⟨hle, hnext⟩ := h.next hbound
    simp only [advance]
    split
    · next hlt =>
      have hunc := UInt32.lt_iff_toNat_lt.mp hlt.2
      split
      · next hs₀ =>
        have hcur : Cursor net (max (s₀ + 1) largest) (unc + k) it := by
          rwa [show max (s₀ + 1) largest = s₀ + 1 by omega]
        have ih := advance_spec hbound support hcur (by omega : s₀ + 1 ≤ end_)
        refine ⟨ih.cursor, ?_, ih.le_end, fun s hs hs' => ?_, ih.stopped⟩
        · have := ih.le
          omega
        · by_cases hss : s ≤ s₀
          · exact h.passed hfirst hunc s hs hss
          · exact ih.passed s (by omega) hs'
      · next hs₀ =>
        have hend : ∀ e ∈ (s₀, k) :: it, end_ ≤ e.1 := fun e he => by
          have := hfirst e he
          omega
        refine ⟨h.skip (by omega) fun e he => ?_, hv, le_rfl, fun s hs hs' => h.passed hend hunc s hs hs'.le,
          fun h => absurd h (lt_irrefl _)⟩
        have := hend e he
        have := hfirst e he
        omega
    · next hnot =>
      refine ⟨h, le_rfl, hv, fun s hs hs' => by omega, fun hlt => ?_⟩
      have hge : support.toNat ≤ unc.toNat := Nat.le_of_not_lt fun h' => hnot ⟨hlt, UInt32.lt_iff_toNat_lt.mpr h'⟩
      exact hge.trans_eq h.counted

/-! ## At a fork -/

theorem outranks_iff_lex {a b : Node L} : outranks a b ↔
    toLex (b.branchSupport.toNat, b.span.startID) ≤ toLex (a.branchSupport.toNat, a.span.startID) := by
  unfold outranks
  rw [Prod.Lex.toLex_le_toLex, UInt32.lt_iff_toNat_lt, UInt32.toNat_inj]

instance : Std.Total (outranks (L := L)) where
  total a b := by
    rw [outranks_iff_lex, outranks_iff_lex]
    exact le_total _ _

instance : IsTrans (Node L) outranks where
  trans a b c hab hbc := by
    rw [outranks_iff_lex] at *
    exact hbc.trans hab

theorem bestChild_spec {cs : List (Node L)} {top : Node L} {margin : UInt32}
    (h : bestChild cs = some (top, margin)) :
    (cs = [top] ∧ margin = top.branchSupport) ∨
    ∃ second rest, cs.Perm (top :: second :: rest) ∧ (∀ c ∈ second :: rest, outranks top c) ∧
      (∀ c ∈ rest, outranks second c) ∧
      margin = if second.span.startID < top.span.startID then top.branchSupport - second.branchSupport + 1
        else top.branchSupport - second.branchSupport := by
  match cs, h with
  | [c], h =>
    obtain ⟨rfl, rfl⟩ := Prod.ext_iff.mp (Option.some.inj h)
    exact Or.inl ⟨rfl, rfl⟩
  | a :: b :: rest, h =>
    right
    have hperm := List.perm_insertionSort outranks (a :: b :: rest)
    have hsorted := List.pairwise_insertionSort outranks (a :: b :: rest)
    unfold bestChild at h
    simp only at h
    split at h
    · next first second more heq =>
      obtain ⟨rfl, rfl⟩ := Prod.ext_iff.mp (Option.some.inj h)
      rw [heq] at hperm hsorted
      rw [List.pairwise_cons, List.pairwise_cons] at hsorted
      exact ⟨second, more, hperm.symm, hsorted.1, hsorted.2.1, rfl⟩
    · cases h

theorem bestChild_isSome {cs : List (Node L)} (hne : cs ≠ []) : ∃ top margin, bestChild cs = some (top, margin) := by
  match cs, hne with
  | [c], _ => exact ⟨_, _, rfl⟩
  | a :: b :: rest, _ =>
    have hlen := (List.perm_insertionSort outranks (a :: b :: rest)).length_eq
    unfold bestChild
    simp only
    split
    · exact ⟨_, _, rfl⟩
    · next hnone =>
      rcases heq : List.insertionSort outranks (a :: b :: rest) with _ | ⟨x, _ | ⟨y, more⟩⟩
      · rw [heq] at hlen
        simp at hlen
      · rw [heq] at hlen
        simp at hlen
      · exact absurd heq (hnone x y more)

theorem outranks_iff {n a b : Node L} (h : Covers net n) (ha : a ∈ n.children) (hb : b ∈ n.children) :
    outranks a b ↔ rank net n.span.end_ b.span.startID ≤ rank net n.span.end_ a.span.startID := by
  unfold rank
  rw [outranks_iff_lex, h.branchAt_child ha, h.branchAt_child hb]

/-- **At the tip of a span** the code and the walk agree on the best child and its margin. -/
theorem fork {n top : Node L} {mg : UInt32} (h : Covers net n) (hb : bestChild n.children = some (top, mg)) :
    top ∈ n.children ∧ best net n.span.end_ (childrenAt net n.span.tip.id n.span.end_) = some top.span.startID ∧
      mg.toNat = margin net n.span.end_ (childrenAt net n.span.tip.id n.span.end_) top.span.startID ∧
      0 < mg.toNat := by
  have hpos : ∀ c ∈ n.children, 0 < c.branchSupport.toNat := fun c hc =>
    (h.wf.child hc).branch_pos (h.wf.local.compressed c hc)
  rw [h.childrenAt_end]
  rcases bestChild_spec hb with ⟨hcs, rfl⟩ | ⟨second, rest, hperm, htop, hsecond, hmg⟩
  · have hmem : top ∈ n.children := by rw [hcs]; simp
    have hset : (n.children.map fun c => c.span.startID).toFinset = {top.span.startID} := by
      rw [hcs]
      simp
    rw [hset, margin_singleton, h.branchAt_child hmem]
    exact ⟨hmem, best_eq_some_iff.mpr (by simp), rfl, hpos top hmem⟩
  · have hmem : ∀ c, c ∈ n.children ↔ c = top ∨ c = second ∨ c ∈ rest := by
      intro c
      rw [hperm.mem_iff, List.mem_cons, List.mem_cons]
    have htopmem := (hmem top).mpr (Or.inl rfl)
    have hsecmem := (hmem second).mpr (Or.inr (Or.inl rfl))
    have hnd := h.wf.local.nodup
    rw [(hperm.map _).nodup_iff, List.map_cons, List.nodup_cons] at hnd
    have hbest : best net n.span.end_ (n.children.map fun c => c.span.startID).toFinset =
        some top.span.startID := by
      rw [best_eq_some_iff]
      refine ⟨List.mem_toFinset.mpr (List.mem_map_of_mem htopmem), fun z hz => ?_⟩
      obtain ⟨c, hc, rfl⟩ := List.mem_map.mp (List.mem_toFinset.mp hz)
      rcases (hmem c).mp hc with rfl | hc'
      · exact le_rfl
      · exact (outranks_iff h htopmem hc).mp (htop c (List.mem_cons.mpr hc'))
    have hrunner : best net n.span.end_
        ((n.children.map fun c => c.span.startID).toFinset.erase top.span.startID) =
        some second.span.startID := by
      rw [best_eq_some_iff]
      constructor
      · refine Finset.mem_erase.mpr ⟨fun he => hnd.1 ?_, List.mem_toFinset.mpr (List.mem_map_of_mem hsecmem)⟩
        rw [← he]
        exact List.mem_cons_self
      · intro z hz
        obtain ⟨hne, hz⟩ := Finset.mem_erase.mp hz
        obtain ⟨c, hc, rfl⟩ := List.mem_map.mp (List.mem_toFinset.mp hz)
        rcases (hmem c).mp hc with rfl | rfl | hc'
        · exact absurd rfl hne
        · exact le_rfl
        · exact (outranks_iff h hsecmem hc).mp (hsecond c hc')
    have hout := htop second List.mem_cons_self
    have hle : second.branchSupport.toNat ≤ top.branchSupport.toNat := by
      rcases hout with hlt | ⟨heq, -⟩
      · exact (UInt32.lt_iff_toNat_lt.mp hlt).le
      · rw [heq]
    have hsub : (top.branchSupport - second.branchSupport).toNat =
        top.branchSupport.toNat - second.branchSupport.toNat := by
      have := Node.toNat_sub_of_le hle
      omega
    have hne : second.span.startID ≠ top.span.startID := fun he => hnd.1 (by rw [← he]; exact List.mem_cons_self)
    have hsecpos := hpos second hsecmem
    have htoplt := top.branchSupport.toNat_lt
    have hmgval : mg.toNat = top.branchSupport.toNat - second.branchSupport.toNat +
        if second.span.startID < top.span.startID then 1 else 0 := by
      rw [hmg]
      split
      · rw [Node.toNat_add_of_lt (by rw [hsub, UInt32.toNat_one]; omega), hsub, UInt32.toNat_one]
      · rw [hsub, Nat.add_zero]
    refine ⟨htopmem, hbest, ?_, ?_⟩
    · unfold margin
      rw [hrunner]
      simp only [h.branchAt_child htopmem, h.branchAt_child hsecmem]
      exact hmgval
    · -- a tie in the supports is broken by the ID, which is worth one
      rw [hmgval]
      rcases hout with hlt | ⟨-, hid⟩
      · have := UInt32.lt_iff_toNat_lt.mp hlt
        omega
      · rw [if_pos (lt_of_le_of_ne hid hne)]
        omega

/-! ## The loop -/

theorem depth_child {n c : Node L} (hc : c ∈ n.children) : c.depth < n.depth := by
  have hle : ∀ {cs : List (Node L)}, c ∈ cs → c.depth ≤ Node.depth.depthIn cs := by
    intro cs
    induction cs with
    | nil => exact fun h => absurd h List.not_mem_nil
    | cons d cs ih =>
      intro h
      rw [Node.depth.depthIn]
      rcases List.mem_cons.mp h with rfl | h
      · exact Nat.le_max_left _ _
      · exact (ih h).trans (Nat.le_max_right _ _)
  cases n
  rw [Node.depth]
  exact Nat.lt_succ_of_le (hle hc)

/-- **The loop of `getPreferred` from a node on** ends where the walk from its first ledger does. -/
theorem preferredFrom_spec (hbound : total net < 2 ^ 32) (largest : ℕ) : ∀ (fuel : ℕ) {n : Node L} {b : ℕ}
    {unc : UInt32} {it : List (ℕ × UInt32)}, Covers net n → 0 < n.branchSupport.toNat → n.depth ≤ fuel →
    Cursor net b unc it → b ≤ max (n.span.start + 1) largest →
    ∃ tip, preferredFrom largest fuel n unc it = some tip ∧
      Ends net largest n.span.startID (n.span.start + 1) (tip.seq, tip.id) ∧
      tip.seq ≤ seq tip.ledger ∧ ancestor tip.ledger tip.seq = tip.id
  | 0, n, b, unc, it, _, _, hdepth, _, _ => by
    cases n
    simp [Node.depth] at hdepth
  | fuel + 1, n, b, unc, it, h, hpos, hdepth, hcur, hb => by
    have hlt := n.span.start_lt
    have hadd := addUncommitted_spec hbound hcur hb
    have hadv := advance_spec hbound n.branchSupport hadd hlt
    simp only at hadv
    rw [preferredFrom]
    generalize advance n.span.end_ n.branchSupport (n.span.start + 1) _ _ = r at hadv
    obtain ⟨w, unc', it'⟩ := r
    simp only at hadv ⊢
    have hthrough : ∀ {r : ℕ × ID}, Ends net largest (ancestor n.span.ledger (w - 1)) w r →
        Ends net largest n.span.startID (n.span.start + 1) r := fun hr =>
      h.ends_through hpos (Nat.lt_succ_self _) hadv.le hadv.le_end hadv.passed hr
    split
    · next hw =>
      -- the walk stops inside the span
      have hsw : n.span.start < w := hadv.le
      rw [n.span.before_eq hsw hw.le, Option.map_some]
      have hmove := h.move_inside hpos largest hsw hw
      rw [if_neg (Nat.not_lt.mpr (hadv.stopped hw))] at hmove
      exact ⟨_, rfl, hthrough (.stop hmove), by show w - 1 ≤ seq n.span.ledger; have := n.span.end_le; omega, rfl⟩
    · next hw =>
      obtain rfl : w = n.span.end_ := le_antisymm hadv.le_end (Nat.le_of_not_lt hw)
      have hstop : move net largest n.span.tip.id n.span.end_ = none →
          ∃ tip, some n.span.tip = some tip ∧
            Ends net largest n.span.startID (n.span.start + 1) (tip.seq, tip.id) ∧
            tip.seq ≤ seq tip.ledger ∧ ancestor tip.ledger tip.seq = tip.id := fun hmove =>
        ⟨_, rfl, hthrough (.stop hmove), n.span.tip_le_seq, rfl⟩
      by_cases hcs : n.children = []
      · rw [hcs]
        simp only [bestChild]
        refine hstop (move_of_empty ?_)
        rw [h.childrenAt_end, hcs]
        rfl
      · obtain ⟨top, mg, hbest⟩ := bestChild_isSome hcs
        obtain ⟨hmem, hbest', hmg, hmgpos⟩ := fork h hbest
        have hunc : unc'.toNat = uncommitted net largest n.span.end_ := hadv.cursor.counted
        rw [hbest]
        simp only
        split
        · next hgo =>
          -- the second test is redundant: a margin is positive
          have hgo : uncommitted net largest n.span.end_ < mg.toNat := by
            rcases hgo with hgo | hgo
            · rw [← hunc]
              exact UInt32.lt_iff_toNat_lt.mp hgo
            · rw [← hunc, hgo]
              exact hmgpos
          have hstart := h.wf.local.start_eq top hmem
          obtain ⟨tip, htip, hends, hseq, hid⟩ := preferredFrom_spec hbound largest fuel
            (h.child hmem) ((h.wf.child hmem).branch_pos (h.wf.local.compressed top hmem))
            (by have := depth_child hmem; omega) hadv.cursor (by omega)
          rw [hstart] at hends
          rw [hmg] at hgo
          exact ⟨tip, htip, hthrough (.step (move_of_lt hbest' hgo) hends), hseq, hid⟩
        · next hgo =>
          refine hstop (move_of_le hbest' ?_)
          rw [← hmg, ← hunc]
          exact Nat.le_of_not_lt fun hlt => hgo (Or.inl (UInt32.lt_iff_toNat_lt.mpr hlt))

/-- **`getPreferred` is the ledger-by-ledger walk**, so it depends on the net counts only. -/
theorem getPreferred_eq_preferred {t : LedgerTrie L} (h : Run t net) (largest : ℕ) :
    (t.getPreferred largest).map (fun tip => (tip.seq, tip.id)) = preferred net largest ∧
    (∀ tip, t.getPreferred largest = some tip → tip.seq ≤ seq tip.ledger ∧ ancestor tip.ledger tip.seq = tip.id) ∧
    (t.getPreferred largest = none ↔ net = 0) ∧
    ∀ t', Run t' net → (t'.getPreferred largest).map (fun tip => (tip.seq, tip.id)) =
      (t.getPreferred largest).map fun tip => (tip.seq, tip.id) := by
  have key : ∀ {t : LedgerTrie L}, t.Inv net →
      (t.getPreferred largest = none ∧ net = 0) ∨ ∃ tip, t.getPreferred largest = some tip ∧ net ≠ 0 ∧
        preferred net largest = some (tip.seq, tip.id) ∧
        tip.seq ≤ seq tip.ledger ∧ ancestor tip.ledger tip.seq = tip.id := by
    intro t hinv
    unfold getPreferred
    by_cases h0 : net = 0
    · exact Or.inl ⟨by rw [if_pos (hinv.empty_iff.mpr h0)], h0⟩
    · have hpos : 0 < t.root.branchSupport.toNat := by
        rw [hinv.branch_root]
        exact Nat.pos_of_ne_zero fun hz => h0 (total_eq_zero_iff.mp hz)
      obtain ⟨tip, htip, hends, hid⟩ := preferredFrom_spec hinv.bound largest _ (covers_root hinv) hpos
        le_rfl (cursor_start hinv) (Nat.zero_le _)
      have hgen : t.root.span.startID = idOf (makeGenesis : L) := by
        unfold Span.startID
        rw [hinv.start, HistoryLedger.ancestor_zero]
      rw [hgen, hinv.start] at hends
      exact Or.inr ⟨tip, by rw [if_neg fun he => h0 (hinv.empty_iff.mp he), htip], h0, preferred_eq h0 hends, hid⟩
  have hval : ∀ {t : LedgerTrie L}, t.Inv net →
      (t.getPreferred largest).map (fun tip => (tip.seq, tip.id)) = preferred net largest := by
    intro t hinv
    rcases key hinv with ⟨hn, h0⟩ | ⟨tip, ht, -, hp, -⟩
    · rw [hn, (preferred_eq_none_iff net largest).mpr h0]
      rfl
    · rw [ht, hp]
      rfl
  refine ⟨hval h.inv, fun tip ht => ?_, ?_, fun t' h' => (hval h'.inv).trans (hval h.inv).symm⟩
  · rcases key h.inv with ⟨hn, -⟩ | ⟨tip', ht', -, -, hid⟩
    · rw [hn] at ht
      cases ht
    · rw [ht'] at ht
      cases ht
      exact hid
  · rw [← preferred_eq_none_iff net largest, ← hval h.inv, Option.map_eq_none_iff]

/-- Three validators on `[1, 2]` and two on its sibling `[1, 3]`, one of whom left. -/
theorem getPreferred_eq_preferred_fork :
    let t := (((new : LedgerTrie (List ℕ)).insert [1, 2] 3).insert [1, 3] 2).remove [1, 3] 1
    (t.2.getPreferred 0).map (fun tip => (tip.seq, tip.id)) =
      preferred (0 + Finsupp.single [1, 2] 3 + Finsupp.single [1, 3] 2 - Finsupp.single [1, 3] 1) 0 :=
  (getPreferred_eq_preferred (((Run.new.insert [1, 2] 3 (by decide) (by simp)).insert [1, 3] 2 (by decide)
    (by simp)).remove [1, 3] 1) 0).1

/-- The supports are 32-bit counters: once they wrap around, a supported trie looks empty. -/
theorem getPreferred_wraps :
    let t := ((new : LedgerTrie (List ℕ)).insert [1] (2 ^ 31)).insert [1] (2 ^ 31)
    t.getPreferred 0 = none ∧
      preferred (0 + Finsupp.single [1] (2 ^ 31) + Finsupp.single [1] (2 ^ 31)) 0 ≠ none := by
  refine ⟨by decide +kernel, fun h => ?_⟩
  have h0 := (preferred_eq_none_iff _ _).mp h
  have := congrArg total h0
  simp at this

end LedgerTrie

end ScfChain.Consensus
