import ScfChain.Consensus.History

/-!
# Where two validated ledgers part

`RCLValidatedLedger` is the ledger that `LedgerTrie` is used with. It knows the hashes of its last ancestors only, so its
`mismatch` is a search in what both ledgers know. `mismatch_window` compares it with the exact one of `HistoryLedger`.
-/

namespace ScfChain.Consensus

structure RCLValidatedLedger (ID : Type) where
  ledgerID : ID
  ledgerSeq : ℕ
  ancestors : List ID

namespace RCLValidatedLedger

variable {L ID : Type}

def minSeq (l : RCLValidatedLedger ID) : ℕ := l.ledgerSeq - min l.ledgerSeq (l.ancestors.length % 2 ^ 32)

variable [LinearOrder ID] [Inhabited ID]

/-- `operator[]` -/
def get (l : RCLValidatedLedger ID) (s : ℕ) : ID :=
  if l.minSeq ≤ s ∧ s ≤ l.ledgerSeq then
    if s = l.ledgerSeq then l.ledgerID else l.ancestors.getD (l.ancestors.length - (l.ledgerSeq - s)) default
  else default

/-- The loop of `mismatch`, from `curr` on. -/
def back (a b : RCLValidatedLedger ID) (lower : ℕ) : ℕ → ℕ
  | 0 => 0
  | curr + 1 => if a.get (curr + 1) ≠ b.get (curr + 1) ∧ lower ≤ curr + 1 then back a b lower curr else curr + 1

def mismatch (a b : RCLValidatedLedger ID) : ℕ :=
  let lower := max a.minSeq b.minSeq
  let curr := back a b lower (min a.ledgerSeq b.ledgerSeq)
  if curr < lower then 1 else (curr + 1) % 2 ^ 32

variable {a b : RCLValidatedLedger ID} {lower : ℕ}

theorem back_comm (curr : ℕ) : back a b lower curr = back b a lower curr := by
  induction curr with
  | zero => rfl
  | succ curr ih => simp only [back, ih, ne_comm]

theorem mismatch_comm (a b : RCLValidatedLedger ID) : mismatch a b = mismatch b a := by
  simp only [mismatch, back_comm (a := a), max_comm a.minSeq, min_comm a.ledgerSeq]

/-- The search stops at the highest sequence where the two agree, or below `lower`. -/
theorem back_spec (lower curr : ℕ) : back a b lower curr ≤ curr ∧
    (∀ s, back a b lower curr < s → s ≤ curr → a.get s ≠ b.get s) ∧
    (lower ≤ back a b lower curr → 0 < lower → a.get (back a b lower curr) = b.get (back a b lower curr)) := by
  induction curr with
  | zero => exact ⟨le_rfl, fun s _ _ => by omega, fun hlow hpos => absurd (hpos.trans_le hlow) (lt_irrefl 0)⟩
  | succ curr ih =>
    rw [back]
    split_ifs with hnext
    · refine ⟨by omega, fun s hlow hs => ?_, ih.2.2⟩
      obtain rfl | hs : s = curr + 1 ∨ s ≤ curr := by omega
      · exact hnext.1
      · exact ih.2.1 s hlow hs
    · refine ⟨le_rfl, fun s _ _ => by omega, fun hlow _ => ?_⟩
      exact not_not.mp fun hne => hnext ⟨hne, hlow⟩

/-! ## In a tree of histories -/

variable [HistoryLedger L ID]

/-- A ledger that knows its last `n` ancestors. -/
def window (l : L) (n : ℕ) : RCLValidatedLedger ID :=
  ⟨idOf l, seq l, (List.range n).map fun i => ancestor l (seq l - n + i)⟩

/-- Whether the hash at `s` is known. -/
def Known (l : L) (n s : ℕ) : Prop := seq l - n ≤ s ∧ s ≤ seq l

variable {x y : L} {m n s : ℕ}

omit [Inhabited ID] in
theorem minSeq_window (hn : n < seq x) (hx : seq x < 2 ^ 32) : (window x n).minSeq = seq x - n := by
  simp only [minSeq, window, List.length_map, List.length_range]
  omega

theorem get_window (hn : n < seq x) (hx : seq x < 2 ^ 32) (hs : Known x n s) : (window x n).get s = ancestor x s := by
  obtain ⟨hlow, hhigh⟩ := hs
  rw [get, minSeq_window hn hx, if_pos ⟨hlow, hhigh⟩]
  simp only [window, List.length_map, List.length_range]
  split_ifs with hseq
  · rw [hseq, HistoryLedger.ancestor_seq]
  · rw [List.getD_eq_getElem _ _ (by simp; omega)]
    simp only [List.getElem_map, List.getElem_range]
    congr 1
    omega

/-- **The search in what both ledgers know**: it is exact if they agree somewhere there, and never too high. -/
theorem mismatch_window (x y : L) (m n : ℕ) (hm : m < seq x) (hn : n < seq y) (hx : seq x < 2 ^ 32 - 1)
    (hy : seq y < 2 ^ 32 - 1) :
    mismatch (window x m) (window y n) = mismatch (window y n) (window x m) ∧
    (∀ s, IsGreatest {s | Known x m s ∧ Known y n s ∧ ancestor x s = ancestor y s} s →
      mismatch (window x m) (window y n) = s + 1 ∧ s + 1 = HistoryLedger.mismatch x y) ∧
    ((∀ s, Known x m s → Known y n s → ancestor x s ≠ ancestor y s) → mismatch (window x m) (window y n) = 1) ∧
    mismatch (window x m) (window y n) ≤ HistoryLedger.mismatch x y := by
  obtain ⟨lower, hlower⟩ : ∃ lower, lower = max (seq x - m) (seq y - n) := ⟨_, rfl⟩
  obtain ⟨curr, hcurr⟩ : ∃ curr, curr = back (window x m) (window y n) lower (min (seq x) (seq y)) := ⟨_, rfl⟩
  have hresult : mismatch (window x m) (window y n) = if curr < lower then 1 else (curr + 1) % 2 ^ 32 := by
    rw [mismatch, minSeq_window hm (by omega), minSeq_window hn (by omega), hcurr, hlower]
    rfl
  obtain ⟨hle, hdiffer, hagree⟩ := back_spec (a := window x m) (b := window y n) lower (min (seq x) (seq y))
  rw [← hcurr] at hle hdiffer hagree
  have hget : ∀ s, Known x m s → Known y n s → ((window x m).get s = (window y n).get s ↔ ancestor x s = ancestor y s) := by
    intro s hxs hys
    rw [get_window hm (by omega) hxs, get_window hn (by omega) hys]
  have hknown : ∀ s, Known x m s ∧ Known y n s ↔ lower ≤ s ∧ s ≤ min (seq x) (seq y) := by
    unfold Known
    omega
  have hnone : ∀ s, Known x m s → Known y n s → curr < s → ancestor x s ≠ ancestor y s := fun s hxs hys hs hsame =>
    hdiffer s hs ((hknown s).mp ⟨hxs, hys⟩).2 ((hget s hxs hys).mpr hsame)
  have hexact : lower ≤ curr → ancestor x curr = ancestor y curr ∧ curr + 1 = HistoryLedger.mismatch x y := by
    intro hlow
    obtain ⟨hxs, hys⟩ := (hknown curr).mpr ⟨hlow, hle⟩
    have hsame := (hget curr hxs hys).mp (hagree hlow (by omega))
    have hshare : Share x y curr := ⟨hxs.2, hys.2, hsame⟩
    refine ⟨hsame, le_antisymm (lt_mismatch_iff.mpr hshare) (not_lt.mp fun hlt => ?_)⟩
    obtain ⟨hx', hy', hsame'⟩ := lt_mismatch_iff.mp hlt
    obtain ⟨hxs', hys'⟩ := (hknown (curr + 1)).mpr (by omega)
    exact hnone _ hxs' hys' (Nat.lt_succ_self _) hsame'
  refine ⟨mismatch_comm _ _, fun s hs => ?_, fun hdiff => ?_, ?_⟩
  · obtain ⟨⟨hxs, hys, hsame⟩, hmax⟩ := hs
    have hlow := (hknown s).mp ⟨hxs, hys⟩
    have hsc : s ≤ curr := not_lt.mp fun hlt => hnone s hxs hys hlt hsame
    obtain ⟨hcs, hexact⟩ := hexact (by omega)
    obtain ⟨hxc, hyc⟩ := (hknown curr).mpr (by omega)
    obtain rfl : curr = s := le_antisymm (hmax ⟨hxc, hyc, hcs⟩) hsc
    exact ⟨by rw [hresult, if_neg (by omega), Nat.mod_eq_of_lt (by omega)], hexact⟩
  · rw [hresult, if_pos (not_le.mp fun hlow => ?_)]
    obtain ⟨hxc, hyc⟩ := (hknown curr).mpr ⟨hlow, hle⟩
    exact hdiff curr hxc hyc (hexact hlow).1
  · rw [hresult]
    split_ifs with hlow
    · exact lt_mismatch_iff.mpr (share_zero x y)
    · rw [← (hexact (not_lt.mp hlow)).2]
      exact Nat.mod_le _ _

/-- Two ledgers that part after sequence 3, with one and two known ancestors. -/
theorem mismatch_window_fork :
    mismatch (window [7, 7, 7, 1] 1) (window [7, 7, 7, 2] 2) ≤ HistoryLedger.mismatch [7, 7, 7, 1] [7, 7, 7, 2] :=
  (mismatch_window [7, 7, 7, 1] [7, 7, 7, 2] 1 2 (by decide) (by decide) (by decide) (by decide)).2.2.2

/-- With the last sequence number there is, a ledger does not even agree with itself. -/
theorem mismatch_wraps : mismatch (⟨5, 2 ^ 32 - 1, []⟩ : RCLValidatedLedger ℕ) ⟨5, 2 ^ 32 - 1, []⟩ = 0 := by
  have hself : ∀ (l : RCLValidatedLedger ℕ) lower curr, back l l lower curr = curr := fun l lower curr => by
    cases curr <;> simp [back]
  rw [mismatch, hself]
  rfl

end RCLValidatedLedger

end ScfChain.Consensus
