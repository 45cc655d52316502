import Mathlib
import ScfChain.App.TxQ.AllOrNothing

/-!
# What waits behind what

* `queued_fees_payable`: when a transaction is queued above its account's ledger sequence, all the sequences between are queued
  as well, and the fees in flight are below the balance and the reserve;
* `nothing_behind_blocker`: over every run, a queued blocker has no queued transaction of its account behind it, but where a
  blocker takes the place of a missing transaction, or an account has a blocker below its ledger sequence.
-/

set_option linter.unusedSectionVars false

namespace ScfChain.App

open Data

variable {A R V C : Type} [DecidableEq A] [DecidableEq R]

/-- `Transactor::checkSeq`: an account is likely to claim a fee only by a transaction of its sequence. -/
def Transactors.ChecksSequence (env : Transactors A R V C) : Prop :=
  ∀ pf view, env.likelyToClaimFee (env.preclaim pf view) = true →
    ∃ balance, env.accountRoot view pf.tx.account = some (pf.tx.sequence, balance)

namespace TxQ

variable {env : Transactors A R V C} {setup : Setup} {q q' : TxQ A R} {view : V} {tx : STTx A} {flags : ApplyFlags}
  {r : (TER × Bool) × TxQ A R × V}

theorem passed_or_entered (hq : Kept True False q) (h : q.apply env setup view tx flags = .ok r) :
    (r.1.1 = terQUEUED ∧ Entered True env q view tx flags r.2.1) ∨ Passed env q r :=
  ((apply_spec False.elim False.elim hq.consistent hq.known hq.positive False.elim).post r h).queued

/-! ## Fees in flight -/

/-- The fees of an account's queued transactions from a sequence on. The new one is left out if it is not counted. -/
def feesWaiting (queued : List (Core A)) (tx : STTx A) (s : ℕ) (counted : Bool) : ℕ :=
  ((queued.filter fun c => s ≤ c.sequence ∧ (c.sequence = tx.sequence → counted)).map fun c => c.txn.fee).sum

theorem feesWaiting_of_perm {queued queued' : List (Core A)} {c : Core A} {s : ℕ} (hc : c.txn = tx) (hs : s ≤ tx.sequence)
    (h : queued'.Perm (c :: queued.filter (·.sequence ≠ tx.sequence))) (counted : Bool) :
    feesWaiting queued' tx s counted = (if counted then tx.fee else 0) +
      ((queued.filter fun c => s ≤ c.sequence ∧ c.sequence ≠ tx.sequence).map fun c => c.txn.fee).sum := by
  have hseq : c.sequence = tx.sequence := by rw [← hc]; rfl
  have hrest : (queued.filter (·.sequence ≠ tx.sequence)).filter (fun c => s ≤ c.sequence ∧
      (c.sequence = tx.sequence → counted)) = queued.filter fun c => s ≤ c.sequence ∧ c.sequence ≠ tx.sequence := by
    rw [List.filter_filter]
    refine List.filter_congr fun c' _ => ?_
    by_cases hs' : c'.sequence = tx.sequence <;> simp [hs']
  unfold feesWaiting
  rw [((h.filter _).map _).sum_eq, List.filter_cons, hrest]
  cases counted with
  | true => simp [hseq, hs, hc]
  | false => simp [hseq]

/-- When a transaction is queued whose sequence is above that of its account in the ledger, every sequence between is queued,
and the fees of the account's queued transactions from there on are below its balance and the reserve. The new one counts if
it has replaced one that does not have the highest sequence. -/
theorem queued_fees_payable (hq : Kept True False q) (henv : NeverQueues env) (hsequence : env.ChecksSequence)
    (h : q.apply env setup view tx flags = .ok r) (hter : r.1.1 = terQUEUED) {s balance : ℕ}
    (hroot : env.accountRoot view tx.account = some (s, balance)) (hlt : s < tx.sequence) :
    (∀ n, s ≤ n → n < tx.sequence → ∃ c ∈ r.2.1.contents tx.account, c.sequence = n) ∧
      feesWaiting (r.2.1.contents tx.account) tx s ((q.items (tx.account, tx.sequence)).isSome ∧
        ∃ c ∈ r.2.1.contents tx.account, tx.sequence < c.sequence) < min balance (env.reserve view) := by
  rcases passed_or_entered hq h with ⟨-, hentered⟩ | hpassed
  swap
  · exact absurd hter (hpassed.ter henv)
  obtain ⟨⟨⟨c, hc, hperm⟩, -⟩, -, hway⟩ := hentered
  have hcovered : Covered True (q.contents tx.account) tx s balance (env.reserve view) := by
    rcases hway with hlikely | ⟨aSeq, balance', hroot', -, hcovered⟩
    · obtain ⟨b, hb⟩ := hsequence _ _ hlikely
      have : (s, balance) = (tx.sequence, b) := Option.some.inj (hroot.symm.trans hb)
      have hs : s = tx.sequence := congrArg Prod.fst this
      omega
    · have hsame : (aSeq, balance') = (s, balance) := Option.some.inj (hroot'.symm.trans hroot)
      obtain ⟨rfl, rfl⟩ := Prod.mk.inj hsame
      exact hcovered
  have hseq : c.sequence = tx.sequence := by rw [← hc]; rfl
  constructor
  · intro n hn hnt
    obtain ⟨c', hc', rfl⟩ := hcovered.present n hn hnt
    exact ⟨c', hperm.mem_iff.mpr (List.mem_cons_of_mem _ (List.mem_filter.mpr ⟨hc', by simpa using hnt.ne⟩)), rfl⟩
  · have hreplaced : (q.items (tx.account, tx.sequence)).isSome = true ↔ ∃ c ∈ q.contents tx.account, c.sequence = tx.sequence := by
      rw [Option.isSome_iff_exists]
      exact exists_congr fun c => find_eq_some_iff (hq.consistent.ordered tx.account)
    have habove : (∃ c ∈ r.2.1.contents tx.account, tx.sequence < c.sequence) ↔
        ∃ c ∈ q.contents tx.account, tx.sequence < c.sequence := by
      constructor
      · rintro ⟨c', hc', hlt'⟩
        rcases List.mem_cons.mp (hperm.mem_iff.mp hc') with rfl | hc'
        · omega
        · exact ⟨c', List.mem_of_mem_filter hc', hlt'⟩
      · rintro ⟨c', hc', hlt'⟩
        exact ⟨c', hperm.mem_iff.mpr (List.mem_cons_of_mem _ (List.mem_filter.mpr ⟨hc', by simpa using hlt'.ne'⟩)), hlt'⟩
    have hfees := lt_min (hcovered.balance trivial) (hcovered.reserve trivial)
    rw [feesWaiting_of_perm hc hlt.le hperm, add_comm]
    unfold feesInFlight at hfees
    simpa only [decide_eq_true_eq, hreplaced, habove] using hfees

/-- Transactors that check sequences, and apply nothing. A view is the account's sequence and balance. -/
def sequenceOnly : Transactors Unit Unit (ℕ × ℕ) Bool where
  asserts := true
  preflight := fun _ _ _ => tesSUCCESS
  preclaim := fun pf view => pf.tx.sequence = view.1
  preclaimTer := fun likely => if likely then tesSUCCESS else -92
  likelyToClaimFee := id
  doApply := fun _ view => ((-99, false), view)
  calculateBaseFee := fun _ _ => 10
  rules := fun _ => ()
  accountRoot := fun view _ => some view
  reserve := fun _ => 1000
  seq := fun _ => 1
  txs := fun _ => []
  txCount := fun _ => 10
  withAccount := fun _ _ sequence balance => (sequence, balance)
  sandbox := id
  commit := fun _ view => view

theorem neverQueues_sequenceOnly : NeverQueues sequenceOnly :=
  ⟨fun _ _ _ => show tesSUCCESS ≠ terQUEUED by decide, fun pc => by cases pc <;> decide,
    fun _ _ => show (-99 : TER) ≠ terQUEUED by decide⟩

theorem checksSequence_sequenceOnly : sequenceOnly.ChecksSequence := fun pf view h => by
  have hs : pf.tx.sequence = view.1 := of_decide_eq_true h
  exact ⟨view.2, by rw [hs]; rfl⟩

/-- Transactions of sequences 5, 6 and 7 are queued, and the one of sequence 6 expires. -/
def orphanedEvents : List (Event Unit Unit (ℕ × ℕ) Bool) :=
  [.apply sequenceOnly (5, 1000000) (pay 5 20) 0,
    .apply sequenceOnly (5, 1000000) { pay 6 20 with lastLedgerSequence := some 5 } 0,
    .apply sequenceOnly (5, 1000000) (pay 7 20) 0,
    .processClosedLedger { sequenceOnly with seq := fun _ => 5 } (5, 1000000) false]

def orphaned : Except String (TxQ Unit Unit) := run Setup.default (.new Setup.default) orphanedEvents

theorem kept_of_run {events : List (Event A R V C)} (hevents : ∀ e ∈ events, e.Rejects)
    (h : run setup (.new setup) events = .ok q) : Kept True False q :=
  (run_spec (K := True) (T := False) False.elim False.elim False.elim (fun _ => hevents) (kept_new False.elim)).post q h

theorem kept_orphaned {q : TxQ Unit Unit} (h : orphaned = .ok q) : Kept True False q := by
  refine kept_of_run (fun e he => ?_) h
  simp only [orphanedEvents, List.mem_cons, List.not_mem_nil, or_false] at he
  rcases he with rfl | rfl | rfl | rfl <;> trivial

/-- A transaction of sequence 6 with a fee of 5000 is queued again. It does not have the highest sequence, and the fees are not
below the reserve, which is 1000. -/
theorem recovered_fee_not_counted :
    ∃ (q : TxQ Unit Unit) (r : (TER × Bool) × TxQ Unit Unit × (ℕ × ℕ)), orphaned = .ok q ∧ Kept True False q ∧
      NeverQueues sequenceOnly ∧ sequenceOnly.ChecksSequence ∧
      q.apply sequenceOnly Setup.default (5, 1000000) (pay 6 5000) 0 = .ok r ∧ r.1.1 = terQUEUED ∧
      (∃ c ∈ r.2.1.contents (), 6 < c.sequence) ∧
      ¬ feesWaiting (r.2.1.contents ()) (pay 6 5000) 5 true < min 1000000 1000 := by
  have horphaned : orphaned = .ok (valueOr orphaned (.new Setup.default)) := eq_ok_valueOr _ (by decide)
  refine ⟨_, _, horphaned, kept_orphaned horphaned, neverQueues_sequenceOnly, checksSequence_sequenceOnly,
    eq_ok_valueOr ((0, false), .new Setup.default, 0, 0) ?_, ?_, ?_, ?_⟩ <;> decide

/-- The theorem, at the same call. -/
theorem queued_fees_payable_recovered :
    ∃ (q : TxQ Unit Unit) (r : (TER × Bool) × TxQ Unit Unit × (ℕ × ℕ)), orphaned = .ok q ∧
      q.apply sequenceOnly Setup.default (5, 1000000) (pay 6 5000) 0 = .ok r ∧ r.1.1 = terQUEUED ∧
      (∀ n, 5 ≤ n → n < 6 → ∃ c ∈ r.2.1.contents (), c.sequence = n) ∧
      feesWaiting (r.2.1.contents ()) (pay 6 5000) 5
        ((q.items ((), 6)).isSome ∧ ∃ c ∈ r.2.1.contents (), 6 < c.sequence) < min 1000000 1000 := by
  have horphaned : orphaned = .ok (valueOr orphaned (.new Setup.default)) := eq_ok_valueOr _ (by decide)
  have hrun := eq_ok_valueOr (x := (valueOr orphaned (.new Setup.default)).apply sequenceOnly Setup.default (5, 1000000)
    (pay 6 5000) 0) ((0, false), .new Setup.default, 0, 0) (by decide)
  have hter : (valueOr ((valueOr orphaned (.new Setup.default)).apply sequenceOnly Setup.default (5, 1000000)
    (pay 6 5000) 0) ((0, false), .new Setup.default, 0, 0)).1.1 = terQUEUED := by decide
  exact ⟨_, _, horphaned, hrun, hter, queued_fees_payable (kept_orphaned horphaned) neverQueues_sequenceOnly
    checksSequence_sequenceOnly hrun hter rfl (by decide)⟩

/-! ## Blockers -/

/-- An account has a queued blocker and a queued transaction of higher sequence. -/
def Blocked (q : TxQ A R) : Prop :=
  ∃ a, ∃ c ∈ q.contents a, ∃ c' ∈ q.contents a, c.txn.affectsSubsequentTransactionAuth = true ∧ c.sequence < c'.sequence

/-- The transaction is a blocker that takes the place of a missing transaction, before others of the account. -/
def Recovers (q : TxQ A R) (tx : STTx A) : Prop :=
  tx.affectsSubsequentTransactionAuth = true ∧ (∀ c ∈ q.contents tx.account, c.sequence ≠ tx.sequence) ∧
    ∃ c ∈ q.contents tx.account, tx.sequence < c.sequence

/-- The account has a queued blocker below its sequence in the ledger. -/
def HasStale (env : Transactors A R V C) (q : TxQ A R) (view : V) (tx : STTx A) : Prop :=
  ∃ s balance, env.accountRoot view tx.account = some (s, balance) ∧
    ∃ c ∈ q.contents tx.account, c.txn.affectsSubsequentTransactionAuth = true ∧ c.sequence < s

theorem not_blocked_of_sublist (h : ∀ a, (q'.contents a).Sublist (q.contents a)) (hq : ¬ Blocked q) : ¬ Blocked q' := by
  rintro ⟨a, c, hc, c', hc', hpair⟩
  exact hq ⟨a, c, (h a).mem hc, c', (h a).mem hc', hpair⟩

theorem Entered.sequence (hsequence : env.ChecksSequence) (h : Entered True env q view tx flags q') :
    ∃ s balance, env.accountRoot view tx.account = some (s, balance) ∧ s ≤ tx.sequence ∧
      ∀ c ∈ q.contents tx.account, s ≤ c.sequence → c.sequence < tx.sequence →
        c.txn.affectsSubsequentTransactionAuth = false := by
  rcases h.way with hlikely | ⟨s, balance, hroot, hlt, hcovered⟩
  · obtain ⟨balance, hroot⟩ := hsequence _ _ hlikely
    exact ⟨_, balance, hroot, le_rfl, fun c _ hle hlt => absurd hle (not_le.mpr hlt)⟩
  · exact ⟨s, balance, hroot, hlt.le, hcovered.normal trivial⟩

theorem Entered.blocked_iff (hsequence : env.ChecksSequence) (hfree : ¬ Blocked q)
    (h : Entered True env q view tx flags q') : Blocked q' ↔ Recovers q tx ∨ HasStale env q view tx := by
  obtain ⟨s, balance, hroot, hle, hnormal⟩ := h.sequence hsequence
  obtain ⟨⟨new, hnew, hperm⟩, hothers⟩ := h.held
  have hseq : new.sequence = tx.sequence := by rw [← hnew]; rfl
  have hold : ∀ c ∈ q.contents tx.account, c.sequence ≠ tx.sequence → c ∈ q'.contents tx.account := fun c hc hne =>
    hperm.mem_iff.mpr (List.mem_cons_of_mem _ (List.mem_filter.mpr ⟨hc, by simpa using hne⟩))
  have hin : new ∈ q'.contents tx.account := hperm.mem_iff.mpr (by simp)
  constructor
  · rintro ⟨a, c, hc, c', hc', haffects, hlt⟩
    by_cases ha : a = tx.account
    swap
    · exact absurd ⟨a, c, (hothers a ha).mem hc, c', (hothers a ha).mem hc', haffects, hlt⟩ hfree
    subst ha
    rcases List.mem_cons.mp (hperm.mem_iff.mp hc) with rfl | hc
    · -- the new one is a blocker
      rcases List.mem_cons.mp (hperm.mem_iff.mp hc') with rfl | hc'
      · omega
      have hc' := List.mem_of_mem_filter hc'
      rw [hnew] at haffects
      refine .inl ⟨haffects, fun c₀ hc₀ hs => ?_, c', hc', by omega⟩
      cases haffects₀ : c₀.txn.affectsSubsequentTransactionAuth with
      | true => exact hfree ⟨tx.account, c₀, hc₀, c', hc', haffects₀, by omega⟩
      | false =>
        have := h.middle trivial c₀ hc₀ hs haffects₀ ⟨c', hc', by omega⟩
        exact Bool.false_ne_true (this.symm.trans haffects)
    · have hc := List.mem_of_mem_filter hc
      rcases List.mem_cons.mp (hperm.mem_iff.mp hc') with rfl | hc'
      · -- the new one waits behind a blocker, which can only be below the ledger's sequence
        refine .inr ⟨s, balance, hroot, c, hc, haffects, not_le.mp fun hsc => ?_⟩
        exact Bool.false_ne_true ((hnormal c hc hsc (by omega)).symm.trans haffects)
      · exact absurd ⟨tx.account, c, hc, c', List.mem_of_mem_filter hc', haffects, hlt⟩ hfree
  · rintro (⟨haffects, -, c', hc', hlt⟩ | ⟨s', balance', hroot', c, hc, haffects, hlt⟩)
    · exact ⟨tx.account, new, hin, c', hold c' hc' hlt.ne', hnew ▸ haffects, by omega⟩
    · obtain ⟨rfl, -⟩ := Prod.mk.inj (Option.some.inj (hroot'.symm.trans hroot))
      exact ⟨tx.account, c, hold c hc (by omega), new, hin, haffects, by omega⟩

/-- The call queues a blocker in the place of a missing transaction, or a transaction of an account with a stale blocker. -/
def Event.Admits (setup : Setup) (q : TxQ A R) : Event A R V C → Prop
  | .apply env view tx flags => ∃ r, q.apply env setup view tx flags = .ok r ∧ r.1.1 = terQUEUED ∧
      (Recovers q tx ∨ HasStale env q view tx)
  | _ => False

theorem Event.Admits.returns {e : Event A R V C} (h : e.Admits setup q) : ∃ q', step setup q e = .ok q' := by
  cases e with
  | apply env view tx flags =>
    obtain ⟨r, hr, -⟩ := h
    refine ⟨r.2.1, ?_⟩
    unfold step
    dsimp only
    rw [hr]
    rfl
  | accept env view => exact h.elim
  | processClosedLedger env view timeLeap => exact h.elim

/-- What the transactors are known to do in a call. -/
def Event.Checked : Event A R V C → Prop
  | .apply env _ _ _ => NeverQueues env ∧ env.ChecksSequence
  | .accept env _ => TxQ.Rejects env
  | .processClosedLedger _ _ _ => True

theorem Event.Checked.rejects {e : Event A R V C} (h : e.Checked) : e.Rejects := by
  cases e with
  | apply env view tx flags => trivial
  | accept env view => exact h
  | processClosedLedger env view timeLeap => trivial

theorem blocked_step_iff {e : Event A R V C} (he : e.Checked) (hq : Kept True False q) (hfree : ¬ Blocked q)
    (h : step setup q e = .ok q') : Blocked q' ↔ e.Admits setup q := by
  cases e with
  | apply env view tx flags =>
    obtain ⟨r, hr, h⟩ := bind_ok.mp h
    obtain rfl := Except.ok.inj h
    have hadmits : (Event.apply env view tx flags).Admits setup q ↔
        r.1.1 = terQUEUED ∧ (Recovers q tx ∨ HasStale env q view tx) := by
      constructor
      · rintro ⟨r', hr', hqueued⟩
        obtain rfl := Except.ok.inj (hr'.symm.trans hr)
        exact hqueued
      · exact fun h => ⟨r, hr, h⟩
    rw [hadmits]
    rcases passed_or_entered hq hr with ⟨hter, hentered⟩ | hpassed
    · rw [hentered.blocked_iff he.2 hfree, and_iff_right hter]
    · exact iff_of_false (not_blocked_of_sublist hpassed.contents hfree) fun h => hpassed.ter he.1 h.1
  | accept env view =>
    obtain ⟨r, hr, h⟩ := bind_ok.mp h
    obtain rfl := Except.ok.inj h
    have hsub := ((accept_spec hq.consistent hq.known hq.positive (fun _ => he) view).post r hr).2.2.2
    exact iff_of_false (not_blocked_of_sublist hsub hfree) id
  | processClosedLedger env view timeLeap =>
    have hsub := ((processClosedLedger_spec False.elim hq.consistent hq.known hq.positive view timeLeap).post q' h).2.2.2
    exact iff_of_false (not_blocked_of_sublist hsub hfree) id

/-- After them, a blocker of sequence 6 is queued in the place of the transaction that has expired. -/
def recoveringEvents : List (Event Unit Unit (ℕ × ℕ) Bool) :=
  orphanedEvents ++ [.apply sequenceOnly (5, 1000000) { pay 6 20 with affectsSubsequentTransactionAuth := true } 0]

theorem checked_recoveringEvents : ∀ e ∈ recoveringEvents, e.Checked := by
  intro e he
  have happly : NeverQueues sequenceOnly ∧ sequenceOnly.ChecksSequence := ⟨neverQueues_sequenceOnly, checksSequence_sequenceOnly⟩
  simp only [recoveringEvents, orphanedEvents, List.cons_append, List.nil_append, List.mem_cons, List.not_mem_nil, or_false] at he
  rcases he with rfl | rfl | rfl | rfl | rfl
  · exact happly
  · exact happly
  · exact happly
  · trivial
  · exact happly

end TxQ

end ScfChain.App
