import ScfChain.Consensus.Trie.Basic

/-!
# Spans and shared ancestry

What `diff`, `before`, `fromSpot` and `merge` compute, in terms of `Share`:

* `lt_diff_iff`, `diff_eq_end_iff`, `start_lt_diff_iff`: where a span and a ledger part;
* `before_eq`, `fromSpot_eq`, `fromSpot_ofLedger`: the two halves of a cut span;
* `Below s y`: the ID `y` is that of the tip of `s` or of one of its descendants.
-/

namespace ScfChain.Consensus

variable {L ID : Type} [LinearOrder ID] [HistoryLedger L ID]

namespace Span

variable (s : Span L)

theorem tip_le_seq : s.end_ - 1 ≤ seq s.ledger := by
  have := s.end_le
  omega

theorem start_le_seq : s.start ≤ seq s.ledger := by
  have := s.end_le
  have := s.start_lt
  omega

theorem share_start_iff {m : L} :
    Share s.ledger m s.start ↔ s.start ≤ Consensus.seq m ∧ Consensus.ancestor m s.start = s.startID :=
  ⟨fun hs => ⟨hs.2.1, hs.2.2.symm⟩, fun hs => ⟨s.start_le_seq, hs.1, hs.2.symm⟩⟩

theorem diff_le (l : L) : s.diff l ≤ s.end_ := s.clamp_le _

variable {l : L} {d : ℕ}

theorem lt_diff_iff {x : ℕ} (hx : s.start ≤ x) : x < s.diff l ↔ x < s.end_ ∧ Share s.ledger l x := by
  unfold diff clamp
  rw [lt_min_iff, lt_max_iff, lt_mismatch_iff]
  constructor
  · rintro ⟨h | h, he⟩
    · omega
    · exact ⟨he, h⟩
  · rintro ⟨he, h⟩
    exact ⟨Or.inr h, he⟩

theorem start_lt_diff_iff : s.start < s.diff l ↔ Share s.ledger l s.start := by
  rw [s.lt_diff_iff le_rfl]
  exact ⟨fun h => h.2, fun h => ⟨s.start_lt, h⟩⟩

theorem diff_eq_end_iff : s.diff l = s.end_ ↔ Share s.ledger l (s.end_ - 1) := by
  have hlt := s.start_lt
  have hle := s.diff_le l
  have key := s.lt_diff_iff (l := l) (x := s.end_ - 1) (by omega)
  constructor
  · intro h
    exact (key.mp (by omega)).2
  · intro h
    have := key.mpr ⟨by omega, h⟩
    omega

theorem share_pred_diff (h : Share s.ledger l s.start) : Share s.ledger l (s.diff l - 1) := by
  have hlt := s.start_lt_diff_iff.mpr h
  exact ((s.lt_diff_iff (by omega)).mp (by omega : s.diff l - 1 < s.diff l)).2

theorem not_share_diff (h : Share s.ledger l s.start) (hd : s.diff l < s.end_) : ¬ Share s.ledger l (s.diff l) := by
  intro hs
  have hlt := s.start_lt_diff_iff.mpr h
  exact absurd ((s.lt_diff_iff hlt.le).mpr ⟨hd, hs⟩) (lt_irrefl _)

theorem before_eq (h : s.start < d) (h' : d ≤ s.end_) :
    s.before d = some ⟨s.start, d, s.ledger, h, h'.trans s.end_le⟩ := by
  have hlt := s.start_lt
  have h1 : s.clamp s.start = s.start := by
    unfold clamp
    omega
  have h2 : s.clamp d = d := by
    unfold clamp
    omega
  unfold before sub
  simp only [h1, h2, h, dite_true]

theorem fromSpot_eq (h : s.start ≤ d) (h' : d < s.end_) : s.fromSpot d = some ⟨d, s.end_, s.ledger, h', s.end_le⟩ := by
  have h1 : s.clamp d = d := by
    unfold clamp
    omega
  have h2 : s.clamp s.end_ = s.end_ := by
    have := s.start_lt
    unfold clamp
    omega
  unfold fromSpot sub
  simp only [h1, h2, h', dite_true]

theorem fromSpot_end : s.fromSpot s.end_ = none := by
  unfold fromSpot sub
  rw [dif_neg (lt_irrefl _)]

theorem fromSpot_ofLedger (h : d ≤ seq l) :
    (ofLedger l).fromSpot d = some ⟨d, seq l + 1, l, Nat.lt_succ_of_le h, le_rfl⟩ :=
  (ofLedger l).fromSpot_eq (Nat.zero_le _) (Nat.lt_succ_of_le h)

theorem fromSpot_ofLedger_seq (l : L) : (ofLedger l).fromSpot (seq l + 1) = none :=
  (ofLedger l).fromSpot_end

theorem merge_eq {a b : Span L} (h : b.start = a.end_) :
    a.merge b = ⟨a.start, b.end_, b.ledger, by have := a.start_lt; have := b.start_lt; omega, b.end_le⟩ := by
  have ha := a.start_lt
  have hb := b.start_lt
  unfold merge
  rw [if_pos (by omega)]
  simp only [show min a.start b.start = a.start by omega]

theorem tip_id_eq_idOf_iff : s.tip.id = idOf l ↔ s.end_ = seq l + 1 ∧ Share s.ledger l (s.end_ - 1) := by
  have hlt := s.start_lt
  constructor
  · intro h
    have := Share.of_ancestor_eq (a := s.ledger) (b := l) s.tip_le_seq le_rfl
      (h.trans (HistoryLedger.ancestor_seq l).symm)
    exact ⟨by omega, this.2⟩
  · rintro ⟨he, hs⟩
    have hd : s.end_ - 1 = seq l := by omega
    show ancestor s.ledger (s.end_ - 1) = idOf l
    rw [hs.2.2, hd, HistoryLedger.ancestor_seq]

/-! ## Descendants of a tip -/

/-- `y` is the ID of the tip of the span or of a descendant of it. -/
def Below (y : ID) : Prop :=
  ∃ (m : L) (t : ℕ), t ≤ seq m ∧ ancestor m t = y ∧ Share s.ledger m (s.end_ - 1) ∧ s.end_ - 1 ≤ t

theorem below_tip : s.Below s.tip.id :=
  ⟨s.ledger, s.end_ - 1, s.tip_le_seq, rfl, Share.refl s.tip_le_seq, le_rfl⟩

theorem Below.of_child {s c : Span L} {y : ID} (h : c.Below y) (hstart : c.start = s.end_)
    (hshare : Share s.ledger c.ledger (s.end_ - 1)) : s.Below y := by
  obtain ⟨m, t, ht, hy, hm, hle⟩ := h
  have hlt := c.start_lt
  exact ⟨m, t, ht, hy, hshare.trans (hm.mono (by omega)), by omega⟩

theorem Below.share {a b : Span L} {y : ID} (ha : a.Below y) (hb : b.Below y) {x : ℕ}
    (hxa : x ≤ a.end_ - 1) (hxb : x ≤ b.end_ - 1) : Share a.ledger b.ledger x := by
  obtain ⟨m, t, ht, hy, hm, hle⟩ := ha
  obtain ⟨m', t', ht', hy', hm', hle'⟩ := hb
  obtain ⟨rfl, hmm⟩ := Share.of_ancestor_eq ht ht' (hy.trans hy'.symm)
  exact (hm.mono hxa).trans ((hmm.mono (by omega)).trans (hm'.mono hxb).symm)

theorem not_below_tip {s c : Span L} (hstart : c.start = s.end_) : ¬ c.Below s.tip.id := by
  rintro ⟨m, t, ht, hy, -, hle⟩
  have hlt := c.start_lt
  have hls := s.start_lt
  have := (Share.of_ancestor_eq ht s.tip_le_seq hy).1
  omega

theorem below_idOf_iff : s.Below (idOf l) ↔ Share s.ledger l (s.end_ - 1) := by
  constructor
  · rintro ⟨m, t, ht, hy, hm, hle⟩
    obtain ⟨rfl, hml⟩ := Share.of_ancestor_eq ht le_rfl (hy.trans (HistoryLedger.ancestor_seq l).symm)
    exact hm.trans (hml.mono hle)
  · intro h
    exact ⟨l, seq l, le_rfl, HistoryLedger.ancestor_seq l, h, h.2.1⟩

end Span

/-- `y` is the ID of `l` or of a descendant of `l`. -/
def BelowLedger (l : L) (y : ID) : Prop := (Span.ofLedger l).Below y

variable {l : L}

theorem belowLedger_idOf_iff {m : L} : BelowLedger l (idOf m) ↔ Descends m l :=
  (Span.ofLedger l).below_idOf_iff

theorem Span.Below.belowLedger {s : Span L} {y : ID} (h : s.Below y) (hshare : Share s.ledger l (seq l))
    (hlt : seq l < s.end_) : BelowLedger l y := by
  obtain ⟨m, t, ht, hy, hm, hle⟩ := h
  exact ⟨m, t, ht, hy, hshare.symm.trans (hm.mono (by omega)), by
    show seq l + 1 - 1 ≤ t
    omega⟩

theorem Span.Below.share_ledger {s : Span L} {y : ID} (h : s.Below y) (h' : BelowLedger l y) {x : ℕ} (hx : x < s.end_)
    (hxl : x ≤ seq l) : Share s.ledger l x :=
  Span.Below.share h h' (by omega) (by show x ≤ seq l + 1 - 1; omega)

end ScfChain.Consensus
