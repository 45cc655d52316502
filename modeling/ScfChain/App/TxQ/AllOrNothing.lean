import Mathlib
import ScfChain.App.TxQ.Runs

/-!
# `TxQ::apply` is all or nothing

A call that neither applies nor queues its transaction leaves the queued transactions and the open view as they were. A call
that queues it leaves the view. A call that applies it applies this transaction alone, or all the account's queued
transactions from its sequence on before it, and exactly these leave the queue.
-/

namespace ScfChain.App

open Data

variable {A R V C : Type} [DecidableEq A] [DecidableEq R]

/-- `doApply` changes its view only when it reports that the transaction was applied. -/
def Transactors.ChangesWhenApplied (env : Transactors A R V C) : Prop :=
  ∀ pc view, (env.doApply pc view).1.2 = false → (env.doApply pc view).2 = view

namespace TxQ

variable {env : Transactors A R V C} {setup : Setup} {q : TxQ A R} {view : V} {tx : STTx A} {flags : ApplyFlags}
  {r : (TER × Bool) × TxQ A R × V}

/-- The account's queued transactions from a sequence on, before this one. -/
def before (q : TxQ A R) (tx : STTx A) (aSeq : ℕ) : List (MaybeTx A R) :=
  (q.queued tx.account).filter fun m => aSeq ≤ m.sequence ∧ m.sequence < tx.sequence

omit [DecidableEq A] [DecidableEq R] in
theorem pairwise_before (hq : Consistent q) (aSeq : ℕ) :
    ((q.before tx aSeq).map fun m => m.sequence).Pairwise (· < ·) := by
  have hordered := hq.ordered tx.account
  unfold contents at hordered
  rw [List.pairwise_map] at hordered
  exact List.pairwise_map.mpr (hordered.filter _)

omit [DecidableEq R] in
theorem items_unlink_before (hq : Consistent q) {q₁ : TxQ A R} (hsame : Same q q₁) {aSeq : ℕ} (hlt : aSeq < tx.sequence) :
    (q₁.unlink tx.account (((q.before tx aSeq).map fun m => m.sequence) ++ [tx.sequence])).items =
      fun p => if p.1 = tx.account ∧ aSeq ≤ p.2 ∧ p.2 ≤ tx.sequence then none else q.items p := by
  rw [items_unlink, hsame.items]
  funext p
  obtain ⟨a, s⟩ := p
  by_cases hrange : a = tx.account ∧ aSeq ≤ s ∧ s ≤ tx.sequence
  · rw [if_pos hrange]
    obtain ⟨rfl, hlow, hhigh⟩ := hrange
    split_ifs with hmem
    · rfl
    -- a sequence in the range that does not leave is not queued
    refine Option.eq_none_iff_forall_not_mem.mpr fun c hc => hmem ?_
    obtain ⟨hc, hseq⟩ := (find_eq_some_iff (hq.ordered tx.account)).mp hc
    obtain ⟨m, hm, rfl⟩ := List.mem_map.mp hc
    by_cases hs : s = tx.sequence
    · simp [hs]
    · refine List.mem_map_of_mem (List.mem_append_left _ (List.mem_map.mpr ⟨m, ?_, hseq⟩))
      refine List.mem_filter.mpr ⟨hm, ?_⟩
      simp only [decide_eq_true_eq]
      exact ⟨hseq ▸ hlow, hseq ▸ lt_of_le_of_ne hhigh hs⟩
  · rw [if_neg hrange, if_neg]
    intro hmem
    obtain ⟨s', hs', he⟩ := List.mem_map.mp hmem
    obtain ⟨rfl, rfl⟩ := Prod.mk.inj he
    refine hrange ⟨rfl, ?_⟩
    rcases List.mem_append.mp hs' with hs' | hs'
    · obtain ⟨m, hm, rfl⟩ := List.mem_map.mp hs'
      have := (List.mem_filter.mp hm).2
      simp only [decide_eq_true_eq] at this
      omega
    · obtain rfl := List.mem_singleton.mp hs'
      omega

/-- For any results of the transactors: if the transaction is neither applied nor queued, the queued transactions and the open
view are unchanged; if it is queued, the view is; and if it is applied, then alone, or after all the account's queued
transactions from its sequence on, in order, and exactly these, and one of the same sequence, have left the queue. -/
theorem apply_all_or_nothing (hq : Consistent q) (henv : env.ChangesWhenApplied)
    (h : q.apply env setup view tx flags = .ok r) :
    (r.1.2 = false → r.1.1 ≠ terQUEUED → r.2.1.items = q.items ∧ r.2.1.byFee_ = q.byFee_ ∧ r.2.2 = view) ∧
    (r.1 = (terQUEUED, false) → r.2.2 = view) ∧
    (r.1.2 = true →
      (env.doApply (env.preclaim (env.preflightResult (env.rules view) tx flags) view) view = (r.1, r.2.2) ∧
        r.2.1.items = Function.update q.items (tx.account, tx.sequence) none) ∨
      ∃ aSeq w view', (env.accountRoot view tx.account).map Prod.fst = some aSeq ∧ aSeq < tx.sequence ∧
        ((q.before tx aSeq).map fun m => m.sequence).Pairwise (· < ·) ∧
        applyAll env (q.before tx aSeq) (env.sandbox view) = some w ∧
        env.doApply (env.preclaim (env.preflightResult (env.rules view) tx flags) w) w = (r.1, view') ∧
        r.2.2 = env.commit view view' ∧
        r.2.1.items = fun p => if p.1 = tx.account ∧ aSeq ≤ p.2 ∧ p.2 ≤ tx.sequence then none else q.items p) := by
  cases (apply_post hq h).outcome with
  | rejected hsame => exact ⟨fun _ _ => ⟨hsame.items, hsame.byFee, rfl⟩, fun _ => rfl, by simp⟩
  | failed hsame hrun =>
    have hview := henv (env.preclaim (env.preflightResult (env.rules view) tx flags) view) view (by rw [hrun])
    rw [hrun] at hview
    exact ⟨fun _ _ => ⟨hsame.items, hsame.byFee, hview⟩, fun _ => hview, by simp⟩
  | applied hsame hrun hleft =>
    refine ⟨by simp, by simp, fun _ => .inl ⟨hrun, ?_⟩⟩
    rcases hleft with ⟨rfl, hnone⟩ | rfl
    · rw [hsame.items, ← hnone, Function.update_eq_self]
    · rw [items_unlink, hsame.items]
      funext p
      by_cases hp : p = (tx.account, tx.sequence) <;> simp [hp]
  | cleared hsame haSeq hlt hseries hall hrun =>
    subst hseries
    exact ⟨by simp, by simp, fun _ => .inr ⟨_, _, _, haSeq, hlt, pairwise_before hq _, hall, hrun, rfl,
      items_unlink_before hq hsame hlt⟩⟩
  | queued hsame hroom htx hfresh hadd => exact ⟨fun _ hne => absurd rfl hne, fun _ => rfl, by simp⟩

/-! ## A run -/

/-- Transactors under which every transaction applies. A view is the account's sequence and what has been applied to it. -/
def applyEverything : Transactors Unit Unit (ℕ × List ℕ) ℕ where
  asserts := true
  preflight := fun _ _ _ => tesSUCCESS
  preclaim := fun pf _ => pf.tx.sequence
  preclaimTer := fun _ => tesSUCCESS
  likelyToClaimFee := fun _ => true
  doApply := fun sequence view => ((tesSUCCESS, true), (view.1, view.2 ++ [sequence]))
  calculateBaseFee := fun _ _ => 10
  rules := fun _ => ()
  accountRoot := fun view _ => some (view.1, 1000000)
  reserve := fun _ => 1000000
  seq := fun _ => 1
  txs := fun _ => []
  txCount := fun _ => 10
  withAccount := fun view _ _ _ => view
  sandbox := id
  commit := fun _ view => view

/-- A transaction of the account. -/
def pay (sequence fee : ℕ) : STTx Unit where
  transactionID := sequence
  account := ()
  sequence := sequence
  fee := fee
  lastLedgerSequence := none
  previousTxnID := false
  accountTxnID := false
  affectsSubsequentTransactionAuth := false
  calculateMaxSpend := 0

/-- What a computation returns, or `d`. -/
def valueOr {α : Type} (x : Except String α) (d : α) : α := x.toOption.getD d

theorem eq_ok_valueOr {α : Type} {x : Except String α} (d : α) (h : x.toOption.isSome) : x = .ok (valueOr x d) := by
  cases x with
  | error e => cases h
  | ok a => rfl

/-- The queue after two transactions, of sequences 5 and 6, that pay too little for the open ledger. -/
def twoQueued : Except String (TxQ Unit Unit) :=
  run Setup.default (.new Setup.default)
    [.apply applyEverything (5, []) (pay 5 20) 0, .apply applyEverything (5, []) (pay 6 20) 0]

/-- The account's sequence has become 6 without the queue. A transaction of sequence 7 pays for itself and the one before it:
both are applied, and the transaction of sequence 5 stays in the queue. -/
theorem stale_sequence_stays :
    ∃ q r, twoQueued = .ok q ∧ Consistent q ∧ applyEverything.ChangesWhenApplied ∧
      q.apply applyEverything Setup.default (6, []) (pay 7 1000000) 0 = .ok r ∧ r.1.2 = true ∧ r.2.2 = (6, [6, 7]) ∧
      (q.items ((), 5)).isSome ∧ (r.2.1.items ((), 5)).isSome := by
  have htwo : twoQueued = .ok (valueOr twoQueued (.new Setup.default)) := eq_ok_valueOr _ (by decide)
  refine ⟨_, _, htwo, (consistent_new _).run htwo, ?_, eq_ok_valueOr ((0, false), .new Setup.default, 0, []) ?_, ?_, ?_, ?_, ?_⟩
  · intro pc view h
    cases h
  · decide
  · decide
  · decide
  · decide
  · decide

/-- The theorem, at the queue after the two transactions. -/
theorem apply_all_or_nothing_cleared :
    ∃ q r, Consistent q ∧ applyEverything.ChangesWhenApplied ∧
      q.apply applyEverything Setup.default (6, []) (pay 7 1000000) 0 = .ok r ∧ r.1.2 = true ∧
      ((applyEverything.doApply 7 (6, []) = (r.1, r.2.2) ∧ r.2.1.items = Function.update q.items ((), 7) none) ∨
        ∃ aSeq w view', some 6 = some aSeq ∧ aSeq < 7 ∧
          ((q.before (pay 7 1000000) aSeq).map fun m => m.sequence).Pairwise (· < ·) ∧
          applyAll applyEverything (q.before (pay 7 1000000) aSeq) (6, []) = some w ∧
          applyEverything.doApply 7 w = (r.1, view') ∧ r.2.2 = view' ∧
          r.2.1.items = fun p => if p.1 = () ∧ aSeq ≤ p.2 ∧ p.2 ≤ 7 then none else q.items p) := by
  have htwo : twoQueued = .ok (valueOr twoQueued (.new Setup.default)) := eq_ok_valueOr _ (by decide)
  have hcons := (consistent_new Setup.default).run htwo
  have henv : applyEverything.ChangesWhenApplied := fun pc view h => by cases h
  have hrun := eq_ok_valueOr (x := (valueOr twoQueued (.new Setup.default)).apply applyEverything Setup.default (6, [])
    (pay 7 1000000) 0) ((0, false), .new Setup.default, 0, []) (by decide)
  have hdid : (valueOr ((valueOr twoQueued (.new Setup.default)).apply applyEverything Setup.default (6, [])
    (pay 7 1000000) 0) ((0, false), .new Setup.default, 0, [])).1.2 = true := by decide
  exact ⟨_, _, hcons, henv, hrun, hdid, (apply_all_or_nothing hcons henv hrun).2.2 hdid⟩

end TxQ

end ScfChain.App
