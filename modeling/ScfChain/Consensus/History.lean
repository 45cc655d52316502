import Mathlib

/-!
# Ledgers with unique history

`LedgerTrie` and `Validations` are templates over a `Ledger` type. `HistoryLedger` is the contract the
documentation of `LedgerTrie` states for that type:

* every ledger knows its sequence number and the IDs of all its ancestors (`seq`, `ancestor`, `idOf`);
* all ledgers share the genesis ledger (`ancestor_zero`);
* ledgers that agree on the ID of one ancestor agree on everything before it (`unique_history`), and an ID
  names one ledger at one sequence number;
* `mismatch` is exact.

`Share a b s` says that two ledgers have the same ancestor at `s`; it is transitive, closed downwards, and
decided by `mismatch` (`lt_mismatch_iff`), so later proofs argue with `Share` alone.
-/

namespace ScfChain.Consensus

/-- The requirements of `LedgerTrie` on its `Ledger` type, with `Seq` read as the natural numbers. -/
class HistoryLedger (L : Type) (ID : outParam Type) [LinearOrder ID] where
  /-- `seq()`. -/
  seq : L → ℕ
  /-- `operator[]`: the ID of the ancestor with the given sequence number. -/
  ancestor : L → ℕ → ID
  /-- `id()`. -/
  idOf : L → ID
  /-- `Ledger(MakeGenesis{})`. -/
  makeGenesis : L
  /-- The sequence number of the first mismatching ancestor of two ledgers. -/
  mismatch : L → L → ℕ
  ancestor_seq : ∀ l, ancestor l (seq l) = idOf l
  seq_makeGenesis : seq makeGenesis = 0
  ancestor_zero : ∀ l, ancestor l 0 = idOf makeGenesis
  unique_history : ∀ a b s, s ≤ seq a → s ≤ seq b → ancestor a s = ancestor b s →
    ∀ p < s, ancestor a p = ancestor b p
  seq_of_ancestor : ∀ a b s t, s ≤ seq a → t ≤ seq b → ancestor a s = ancestor b t → s = t
  idOf_injective : ∀ a b, idOf a = idOf b → a = b
  mismatch_agree : ∀ a b s, s < mismatch a b → s ≤ seq a ∧ s ≤ seq b ∧ ancestor a s = ancestor b s
  mismatch_exact : ∀ a b, mismatch a b ≤ seq a → mismatch a b ≤ seq b →
    ancestor a (mismatch a b) ≠ ancestor b (mismatch a b)

export HistoryLedger (seq ancestor idOf makeGenesis mismatch)

variable {L ID : Type} [LinearOrder ID] [HistoryLedger L ID]

/-! ## Shared ancestors -/

/-- Both ledgers reach sequence `s` and have the same ancestor there. -/
def Share (a b : L) (s : ℕ) : Prop := s ≤ seq a ∧ s ≤ seq b ∧ ancestor a s = ancestor b s

instance (a b : L) (s : ℕ) : Decidable (Share a b s) := inferInstanceAs (Decidable (_ ∧ _ ∧ _))

variable {a b : L} {s : ℕ}

theorem Share.refl (h : s ≤ seq a) : Share a a s := ⟨h, h, rfl⟩

theorem Share.symm (h : Share a b s) : Share b a s := ⟨h.2.1, h.1, h.2.2.symm⟩

theorem Share.trans {c : L} (h : Share a b s) (h' : Share b c s) : Share a c s :=
  ⟨h.1, h'.2.1, h.2.2.trans h'.2.2⟩

theorem Share.mono {p : ℕ} (h : Share a b s) (hp : p ≤ s) : Share a b p := by
  refine ⟨hp.trans h.1, hp.trans h.2.1, ?_⟩
  rcases hp.lt_or_eq with hlt | rfl
  · exact HistoryLedger.unique_history a b s h.1 h.2.1 h.2.2 p hlt
  · exact h.2.2

theorem share_zero (a b : L) : Share a b 0 :=
  ⟨Nat.zero_le _, Nat.zero_le _,
    (HistoryLedger.ancestor_zero a).trans (HistoryLedger.ancestor_zero b).symm⟩

/-- **`mismatch` decides which ancestors are shared.** -/
theorem lt_mismatch_iff : s < mismatch a b ↔ Share a b s := by
  constructor
  · exact HistoryLedger.mismatch_agree a b s
  · intro h
    by_contra hlt
    have hm := h.mono (Nat.le_of_not_lt hlt)
    exact HistoryLedger.mismatch_exact a b hm.1 hm.2.1 hm.2.2

theorem Share.of_ancestor_eq {t : ℕ} (hs : s ≤ seq a) (ht : t ≤ seq b)
    (h : ancestor a s = ancestor b t) : s = t ∧ Share a b s := by
  obtain rfl := HistoryLedger.seq_of_ancestor a b s t hs ht h
  exact ⟨rfl, hs, ht, h⟩

/-- `m` is `l` or a descendant of `l`. -/
def Descends (m l : L) : Prop := Share l m (seq l)

instance (m l : L) : Decidable (Descends m l) := inferInstanceAs (Decidable (Share _ _ _))

/-! ## Ledgers as closing histories

The ledger type of a simulation: a ledger is the list of what each ledger after genesis added, so its ID is
its whole history. -/

/-- Length of the longest common beginning of two lists. -/
def commonLength : List ℕ → List ℕ → ℕ
  | a :: as, b :: bs => if a = b then commonLength as bs + 1 else 0
  | _, _ => 0

theorem take_eq_of_le_commonLength : ∀ {a b : List ℕ} {s : ℕ}, s ≤ commonLength a b →
    s ≤ a.length ∧ s ≤ b.length ∧ a.take s = b.take s
  | a, b, 0, _ => ⟨Nat.zero_le _, Nat.zero_le _, by simp⟩
  | [], _, s + 1, h => absurd h (by simp [commonLength])
  | _ :: _, [], s + 1, h => absurd h (by simp [commonLength])
  | x :: a, y :: b, s + 1, h => by
    unfold commonLength at h
    split at h
    · next hxy =>
      obtain ⟨ha, hb, he⟩ := take_eq_of_le_commonLength (a := a) (b := b) (s := s) (by omega)
      exact ⟨Nat.succ_le_succ ha, Nat.succ_le_succ hb, by simp [hxy, he]⟩
    · omega

theorem take_commonLength_ne : ∀ {a b : List ℕ}, commonLength a b + 1 ≤ a.length →
    commonLength a b + 1 ≤ b.length → a.take (commonLength a b + 1) ≠ b.take (commonLength a b + 1)
  | [], _, h, _ => absurd h (by simp)
  | _ :: _, [], _, h => absurd h (by simp)
  | x :: a, y :: b, ha, hb => by
    unfold commonLength at ha hb ⊢
    split
    · next hxy =>
      rw [if_pos hxy] at ha hb
      intro h
      rw [List.take_succ_cons, List.take_succ_cons] at h
      exact take_commonLength_ne (Nat.le_of_succ_le_succ ha) (Nat.le_of_succ_le_succ hb)
        (List.cons.inj h).2
    · next hxy => simpa using hxy

instance closingHistory : HistoryLedger (List ℕ) (List ℕ) where
  seq l := l.length
  ancestor l s := l.take s
  idOf l := l
  makeGenesis := []
  mismatch a b := commonLength a b + 1
  ancestor_seq l := List.take_length
  seq_makeGenesis := rfl
  ancestor_zero _ := List.take_zero
  unique_history a b s _ _ h p hp := by
    have := congrArg (List.take p) h
    simpa [List.take_take, Nat.min_eq_left hp.le] using this
  seq_of_ancestor a b s t hs ht h := by
    have := congrArg List.length h
    simpa [Nat.min_eq_left hs, Nat.min_eq_left ht] using this
  idOf_injective _ _ h := h
  mismatch_agree _ _ _ h := take_eq_of_le_commonLength (Nat.le_of_lt_succ h)
  mismatch_exact _ _ ha hb := take_commonLength_ne ha hb

end ScfChain.Consensus
