import Mathlib
import ScfChain.App.TxQ.AllOrNothing

/-!
# What the fee metrics guarantee

* `setup_TxQ`: the configurations that are accepted;
* `Bounded`: the expected number of transactions stays between the configured limits (`Bounded.update`);
* `escalates_iff`: when the required fee level never falls, neither below the base level nor as the ledger grows;
* `sum_scaleFeeLevel_le`: the fee level of a series is no less than those of its transactions, one after the other.
-/

set_option linter.unusedSectionVars false

namespace ScfChain.App

open Data

/-! ## Configurations -/

/-- The section `transaction_queue` of a configuration, and whether the server stands alone. -/
structure Config where
  ledgers_in_queue : Option ℕ
  minimum_queue_size : Option ℕ
  retry_sequence_percent : Option (BitVec 32)
  multi_txn_percent : Option (BitVec 32)
  minimum_escalation_multiplier : Option (BitVec 64)
  minimum_txn_in_ledger : Option (BitVec 32)
  minimum_txn_in_ledger_standalone : Option (BitVec 32)
  target_txn_in_ledger : Option (BitVec 32)
  maximum_txn_in_ledger : Option (BitVec 32)
  normal_consensus_increase_percent : Option (BitVec 32)
  slow_consensus_decrease_percent : Option (BitVec 32)
  maximum_txn_per_account : Option (BitVec 32)
  minimum_last_ledger_buffer : Option (BitVec 32)
  zero_basefee_transaction_feelevel : Option (BitVec 64)
  standalone : Bool

/-- A configuration that sets nothing. -/
def Config.empty : Config :=
  ⟨none, none, none, none, none, none, none, none, none, none, none, none, none, none, false⟩

/-- The value that is set, or the default. -/
def valueOf {w : ℕ} (value : Option (BitVec w)) (default : ℕ) : ℕ := (value.map BitVec.toNat).getD default

/-- `boost::algorithm::clamp`, from below by zero. -/
def clamp (value high : BitVec 32) : BitVec 32 := if high < value then high else value

def setup_TxQ (config : Config) : Except String Setup :=
  let d := Setup.default
  let setup : Setup :=
    { ledgersInQueue := config.ledgers_in_queue.getD d.ledgersInQueue
      queueSizeMin := config.minimum_queue_size.getD d.queueSizeMin
      retrySequencePercent := config.retry_sequence_percent.getD d.retrySequencePercent
      multiTxnPercent := config.multi_txn_percent.getD d.multiTxnPercent
      minimumEscalationMultiplier := valueOf config.minimum_escalation_multiplier d.minimumEscalationMultiplier
      minimumTxnInLedger := valueOf config.minimum_txn_in_ledger d.minimumTxnInLedger
      minimumTxnInLedgerSA := valueOf config.minimum_txn_in_ledger_standalone d.minimumTxnInLedgerSA
      targetTxnInLedger := valueOf config.target_txn_in_ledger d.targetTxnInLedger
      maximumTxnInLedger := config.maximum_txn_in_ledger.map BitVec.toNat
      normalConsensusIncreasePercent :=
        clamp (config.normal_consensus_increase_percent.getD d.normalConsensusIncreasePercent) 1000
      slowConsensusDecreasePercent := clamp (config.slow_consensus_decrease_percent.getD d.slowConsensusDecreasePercent) 100
      maximumTxnPerAccount := valueOf config.maximum_txn_per_account d.maximumTxnPerAccount
      minimumLastLedgerBuffer := config.minimum_last_ledger_buffer.getD d.minimumLastLedgerBuffer
      zeroBaseFeeTransactionFeeLevel :=
        valueOf config.zero_basefee_transaction_feelevel d.zeroBaseFeeTransactionFeeLevel
      standAlone := config.standalone }
  if ∃ maximum ∈ setup.maximumTxnInLedger, maximum < setup.minimumTxnInLedger then
    .error ("The minimum number of low-fee transactions allowed per ledger (minimum_txn_in_ledger) exceeds " ++
      "the maximum number of low-fee transactions allowed per ledger (maximum_txn_in_ledger).")
  else if ∃ maximum ∈ setup.maximumTxnInLedger, maximum < setup.minimumTxnInLedgerSA then
    .error ("The minimum number of low-fee transactions allowed per ledger (minimum_txn_in_ledger_standalone) exceeds " ++
      "the maximum number of low-fee transactions allowed per ledger (maximum_txn_in_ledger).")
  else .ok setup

/-- What is known of the numbers of an accepted configuration. -/
structure Setup.Accepted (setup : Setup) : Prop where
  minimum : FeeMetrics.minimumTxnCount_ setup < 2 ^ 64
  increase : setup.normalConsensusIncreasePercent.toNat ≤ 1000
  decrease : setup.slowConsensusDecreasePercent.toNat ≤ 100

theorem valueOf_lt {w : ℕ} (value : Option (BitVec w)) {default bound : ℕ} (hw : 2 ^ w ≤ bound) (h : default < bound) :
    valueOf value default < bound := by
  cases value with
  | none => exact h
  | some v => exact v.isLt.trans_le hw

theorem toNat_clamp_le (value high : BitVec 32) : (clamp value high).toNat ≤ high.toNat := by
  unfold clamp
  split_ifs with h
  · exact le_rfl
  · rw [BitVec.lt_def] at h
    omega

theorem accepted_of_setup {config : Config} {setup : Setup} (h : setup_TxQ config = .ok setup) : setup.Accepted := by
  unfold setup_TxQ at h
  dsimp only at h
  split_ifs at h
  obtain rfl := Except.ok.inj h
  refine ⟨?_, toNat_clamp_le _ _, toNat_clamp_le _ _⟩
  unfold FeeMetrics.minimumTxnCount_
  split_ifs
  · exact valueOf_lt _ (by norm_num) (by decide)
  · exact valueOf_lt _ (by norm_num) (by decide)

/-! ## The expected number of transactions -/

theorem mulDiv_le (value : ℕ) {mul : ℕ} (hmul : mul ≤ 100) : (mulDiv value mul 100).2 ≤ value := by
  have hle : value * mul / 100 ≤ value := Nat.div_le_of_le_mul (by nlinarith)
  unfold mulDiv
  split_ifs
  · exact (by omega : 2 ^ 64 - 1 ≤ value)
  · exact hle

namespace FeeMetrics

variable {setup : Setup} {metrics metrics' : FeeMetrics}

/-- The expected number is within the limits, and so is what it is computed from. -/
structure Bounded (setup : Setup) (metrics : FeeMetrics) : Prop where
  le_expected : minimumTxnCount_ setup ≤ metrics.txnsExpected_
  expected_le : ∀ maximum ∈ maximumTxnCount_ setup, metrics.txnsExpected_ ≤ maximum
  le_recent : ∀ n ∈ metrics.recentTxnCounts_, minimumTxnCount_ setup ≤ n

theorem minimum_le_maximum {maximum : ℕ} (h : maximum ∈ maximumTxnCount_ setup) : minimumTxnCount_ setup ≤ maximum := by
  obtain ⟨n, -, rfl⟩ := Option.map_eq_some_iff.mp h
  exact (le_max_right _ _).trans (le_max_right _ _)

theorem bounded_new (setup : Setup) : Bounded setup (new setup) :=
  ⟨le_rfl, fun _ h => minimum_le_maximum h, by simp [new]⟩

theorem toNat_cut {percent : BitVec 32} (h : percent.toNat ≤ 100) : (100 - percent).toNat ≤ 100 := by
  rw [BitVec.toNat_sub]
  simp
  omega

theorem Bounded.slow (hsetup : setup.Accepted) (h : Bounded setup metrics) (size : ℕ) :
    ∃ metrics', metrics.updateExpected setup size true = .ok metrics' ∧ Bounded setup metrics' ∧
      metrics'.txnsExpected_ ≤ metrics.txnsExpected_ := by
  have hcut := mulDiv_le metrics.txnsExpected_ (toNat_cut hsetup.decrease)
  have hle : max (minimumTxnCount_ setup) (min (mulDiv size (100 - setup.slowConsensusDecreasePercent).toNat 100).2
      (max (mulDiv metrics.txnsExpected_ (100 - setup.slowConsensusDecreasePercent).toNat 100).2
        (minimumTxnCount_ setup))) ≤ metrics.txnsExpected_ :=
    max_le h.le_expected ((min_le_right _ _).trans (max_le hcut h.le_expected))
  exact ⟨_, rfl, ⟨le_max_left _ _, fun maximum hm => hle.trans (h.expected_le maximum hm), by simp⟩, hle⟩

theorem Bounded.normal (hsetup : setup.Accepted) (hledgers : 1 ≤ setup.ledgersInQueue) (h : Bounded setup metrics)
    (size : ℕ) : ∃ metrics', metrics.updateExpected setup size false = .ok metrics' ∧ Bounded setup metrics' := by
  unfold updateExpected
  rw [if_neg (by simp)]
  split_ifs with hlarge
  · -- the ledger is larger than expected, or than the target
    have hsize : minimumTxnCount_ setup ≤ size := by
      have htarget : minimumTxnCount_ setup ≤ targetTxnCount_ setup := le_max_right _ _
      have := h.le_expected
      omega
    dsimp only
    generalize hcount : (mulDiv size (100 + setup.normalConsensusIncreasePercent).toNat 100).2 = count
    have hpushed : minimumTxnCount_ setup ≤ count := hcount ▸ le_mulDiv hsetup.minimum hsize (toNat_increase hsetup.increase)
    have hrecent : ∀ n ∈ pushBack setup.ledgersInQueue metrics.recentTxnCounts_ count, minimumTxnCount_ setup ≤ n := by
      intro n hn
      rcases List.mem_append.mp (List.mem_of_mem_drop hn) with hn | hn
      · exact h.le_recent n hn
      · rwa [List.mem_singleton.mp hn]
    cases hmax : (pushBack setup.ledgersInQueue metrics.recentTxnCounts_ count).max? with
    | none =>
      have hmem := mem_pushBack (Nat.lt_of_succ_le hledgers) metrics.recentTxnCounts_ count
      rw [List.max?_eq_none_iff.mp hmax] at hmem
      cases hmem
    | some largest =>
      have hlargest := hrecent largest (List.max?_mem hmax)
      have hexpected := h.le_expected
      refine ⟨_, rfl, le_min ?_ ?_, ?_, hrecent⟩
      · split_ifs <;> omega
      · cases hm : maximumTxnCount_ setup with
        | none =>
          show _ ≤ ite _ _ _
          split_ifs <;> omega
        | some maximum => exact minimum_le_maximum hm
      · intro maximum hm
        rw [hm]
        exact min_le_right _ _
  · exact ⟨_, rfl, h⟩

/-- The middle of the fee levels, which is no level when their number is even. -/
def medianFeeLevel (feeLevels : List ℕ) : ℚ :=
  let sorted := feeLevels.insertionSort (· ≤ ·)
  (sorted.getD (sorted.length / 2) 0 + sorted.getD ((sorted.length - 1) / 2) 0 : ℕ) / 2

theorem ceil_half (n : ℕ) : ⌈(n : ℚ) / 2⌉₊ = (n + 1) / 2 := by
  rcases n.even_or_odd' with ⟨k, rfl | rfl⟩
  · rw [show ((2 * k : ℕ) : ℚ) / 2 = k by push_cast; ring, Nat.ceil_natCast]
    omega
  · rw [show (2 * k + 1 + 1) / 2 = k + 1 by omega, Nat.ceil_eq_iff (by omega), Nat.add_sub_cancel]
    push_cast
    constructor <;> linarith

-- the sum of the two levels in the middle is taken in 64 bits
theorem max_median_eq_iff (feeLevels : List ℕ) (minimum : ℕ) :
    max (median (feeLevels.insertionSort (· ≤ ·))) minimum = max minimum ⌈medianFeeLevel feeLevels⌉₊ ↔
      ⌈medianFeeLevel feeLevels⌉₊ < 2 ^ 63 ∨ ⌈medianFeeLevel feeLevels⌉₊ ≤ minimum := by
  unfold medianFeeLevel median
  rw [ceil_half]
  omega

theorem update_eq {feeLevels : List ℕ} {timeLeap : Bool} {expected : FeeMetrics}
    (h : metrics.updateExpected setup feeLevels.length timeLeap = .ok expected) :
    metrics.update setup feeLevels timeLeap = .ok { expected with
      escalationMultiplier_ := max (median (feeLevels.insertionSort (· ≤ ·))) setup.minimumEscalationMultiplier } := by
  unfold update
  dsimp only
  rw [List.length_insertionSort, h]
  show (if feeLevels.length = 0 then _ else _ : Except String FeeMetrics) = _
  split_ifs with hempty
  · rw [List.length_eq_zero_iff.mp hempty]
    exact congrArg Except.ok (by simp [median])
  · rfl

/-- **A closed ledger** leaves the expected number within the limits, and a slow one does not raise it. -/
theorem Bounded.update (hsetup : setup.Accepted) (hledgers : 1 ≤ setup.ledgersInQueue) (h : Bounded setup metrics)
    (feeLevels : List ℕ) (timeLeap : Bool) :
    ∃ metrics', metrics.update setup feeLevels timeLeap = .ok metrics' ∧ Bounded setup metrics' ∧
      (timeLeap = true → metrics'.txnsExpected_ ≤ metrics.txnsExpected_) ∧ metrics'.escalationMultiplier_ =
        max (median (feeLevels.insertionSort (· ≤ ·))) setup.minimumEscalationMultiplier := by
  cases timeLeap with
  | true =>
    obtain ⟨expected, hrun, hbounded, hslow⟩ := h.slow hsetup feeLevels.length
    exact ⟨_, update_eq hrun, ⟨hbounded.1, hbounded.2, hbounded.3⟩, fun _ => hslow, rfl⟩
  | false =>
    obtain ⟨expected, hrun, hbounded⟩ := h.normal hsetup hledgers feeLevels.length
    exact ⟨_, update_eq hrun, ⟨hbounded.1, hbounded.2, hbounded.3⟩, by simp, rfl⟩

/-- The closed ledgers, one after the other: their fee levels, and whether consensus was slow. -/
def updates (setup : Setup) (ledgers : List (List ℕ × Bool)) : Except String FeeMetrics :=
  ledgers.foldlM (fun metrics ledger => metrics.update setup ledger.1 ledger.2) (new setup)

theorem bounded_updates (hsetup : setup.Accepted) (hledgers : 1 ≤ setup.ledgersInQueue) (ledgers : List (List ℕ × Bool)) :
    ∃ metrics, updates setup ledgers = .ok metrics ∧ Bounded setup metrics ∧
      setup.minimumEscalationMultiplier ≤ metrics.escalationMultiplier_ := by
  suffices hrun : ∀ metrics, Bounded setup metrics → setup.minimumEscalationMultiplier ≤ metrics.escalationMultiplier_ →
      ∃ metrics', ledgers.foldlM (fun metrics ledger => metrics.update setup ledger.1 ledger.2) metrics =
        (.ok metrics' : Except String _) ∧ Bounded setup metrics' ∧
          setup.minimumEscalationMultiplier ≤ metrics'.escalationMultiplier_ from hrun _ (bounded_new setup) le_rfl
  induction ledgers with
  | nil => exact fun metrics h hle => ⟨metrics, rfl, h, hle⟩
  | cons ledger ledgers ih =>
    intro metrics h hle
    obtain ⟨metrics₁, hstep, h₁, -, hmultiplier⟩ := h.update hsetup hledgers ledger.1 ledger.2
    obtain ⟨metrics', hrest, h'⟩ := ih metrics₁ h₁ (hmultiplier ▸ le_max_right _ _)
    refine ⟨metrics', ?_, h'⟩
    rw [List.foldlM_cons, hstep]
    exact hrest

/-- For an accepted configuration with room for a ledger, after any closed ledgers: the expected number is within the limits,
a slow ledger does not raise it, and the multiplier is the larger of its minimum and of the median, rounded up, exactly if
that is no more than the minimum, or is less than half of what 64 bits hold. -/
theorem feeMetrics_bounds {config : Config} {setup : Setup} (hsetup : setup_TxQ config = .ok setup)
    (hledgers : 1 ≤ setup.ledgersInQueue) (ledgers : List (List ℕ × Bool)) :
    ∃ metrics, updates setup ledgers = .ok metrics ∧ minimumTxnCount_ setup ≤ metrics.txnsExpected_ ∧
      (∀ maximum ∈ setup.maximumTxnInLedger, metrics.txnsExpected_ ≤ max maximum (targetTxnCount_ setup)) ∧
      ∀ feeLevels timeLeap, ∃ metrics', metrics.update setup feeLevels timeLeap = .ok metrics' ∧
        (timeLeap = true → metrics'.txnsExpected_ ≤ metrics.txnsExpected_) ∧
        (metrics'.escalationMultiplier_ = max setup.minimumEscalationMultiplier ⌈medianFeeLevel feeLevels⌉₊ ↔
          ⌈medianFeeLevel feeLevels⌉₊ < 2 ^ 63 ∨ ⌈medianFeeLevel feeLevels⌉₊ ≤ setup.minimumEscalationMultiplier) := by
  have haccepted := accepted_of_setup hsetup
  obtain ⟨metrics, hrun, hbounded, -⟩ := bounded_updates haccepted hledgers ledgers
  refine ⟨metrics, hrun, hbounded.le_expected, fun maximum hm => ?_, fun feeLevels timeLeap => ?_⟩
  · exact hbounded.expected_le _ (Option.map_eq_some_iff.mpr ⟨maximum, hm, rfl⟩)
  · obtain ⟨metrics', hupdate, -, hslow, hmultiplier⟩ := hbounded.update haccepted hledgers feeLevels timeLeap
    refine ⟨metrics', hupdate, hslow, ?_⟩
    rw [hmultiplier]
    exact max_median_eq_iff feeLevels _

/-- Two transactions of the largest fee, where the base fee is one drop: the fee levels are clipped, and the sum of two of them
does not fit into 64 bits. -/
theorem clipped_levels_wrap :
    ∃ setup metrics', setup_TxQ .empty = .ok setup ∧ 1 ≤ setup.ledgersInQueue ∧
      (new setup).update setup (List.replicate 2 (getFeeLevelPaid
        (⟨1, (), 1, 10 ^ 17, none, false, false, false, 0⟩ : STTx Unit) 1 setup)) false = .ok metrics' ∧
      metrics'.escalationMultiplier_ = 2 ^ 63 - 1 ∧
      max setup.minimumEscalationMultiplier ⌈medianFeeLevel (List.replicate 2 (getFeeLevelPaid
        (⟨1, (), 1, 10 ^ 17, none, false, false, false, 0⟩ : STTx Unit) 1 setup))⌉₊ = 2 ^ 64 - 1 := by
  refine ⟨Setup.default, _, rfl, by decide, rfl, rfl, ?_⟩
  unfold medianFeeLevel
  rw [ceil_half]
  decide +kernel

/-- The bounds, with nothing configured. -/
theorem feeMetrics_bounds_default : ∃ metrics, updates Setup.default [([256, 512], false)] = .ok metrics ∧
    5 ≤ metrics.txnsExpected_ := by
  obtain ⟨metrics, hrun, hle, -⟩ := feeMetrics_bounds (rfl : setup_TxQ .empty = .ok Setup.default)
    (by decide) [([256, 512], false)]
  exact ⟨metrics, hrun, hle⟩

/-! ## Escalation -/

/-- The required fee level is defined for every number of transactions in the open ledger, is never below the base level, and
never falls as the ledger grows. -/
def Escalates (metrics : FeeMetrics) : Prop :=
  ∃ level : ℕ → ℕ, (∀ current, metrics.scaleFeeLevel current = .ok (level current)) ∧
    (∀ current, baseLevel ≤ level current) ∧ Monotone level

/-- `scaleFeeLevel`, with the squares in 64 bits. -/
def scaleFeeLevel64 (metrics : FeeMetrics) (current : ℕ) : Except String ℕ :=
  if metrics.txnsExpected_ < current then
    if metrics.txnsExpected_ * metrics.txnsExpected_ % 2 ^ 64 = 0 then .error "division by zero"
    else .ok (mulDiv metrics.escalationMultiplier_ (current * current % 2 ^ 64)
      (metrics.txnsExpected_ * metrics.txnsExpected_ % 2 ^ 64)).2
  else .ok baseLevel

theorem scaleFeeLevel64_eq {current : ℕ} (h : current < 2 ^ 32) :
    metrics.scaleFeeLevel64 current = metrics.scaleFeeLevel current := by
  unfold scaleFeeLevel64 scaleFeeLevel
  split_ifs with hlarge hzero hzero' hzero' <;> try rfl
  all_goals
    have hsquare : current * current < 2 ^ 64 := by nlinarith
    have htarget : metrics.txnsExpected_ * metrics.txnsExpected_ < 2 ^ 64 := by nlinarith
    rw [Nat.mod_eq_of_lt htarget] at *
  · exact absurd (mul_self_eq_zero.mp hzero) hzero'
  · exact absurd (by rw [hzero']) hzero
  · rw [Nat.mod_eq_of_lt hsquare]

theorem mulDiv_snd (value mul div : ℕ) : (mulDiv value mul div).2 = min (2 ^ 64 - 1) (value * mul / div) := by
  unfold mulDiv
  split_ifs with h
  · exact (min_eq_left h.le).symm
  · exact (min_eq_right (not_lt.mp h)).symm

/-- Escalation is as intended if a transaction more than expected does not have to pay less than the base level. -/
theorem escalates_iff (metrics : FeeMetrics) : Escalates metrics ↔ 0 < metrics.txnsExpected_ ∧
    baseLevel * metrics.txnsExpected_ ^ 2 ≤ metrics.escalationMultiplier_ * (metrics.txnsExpected_ + 1) ^ 2 := by
  constructor
  · rintro ⟨level, hlevel, hbase, -⟩
    have hnext := hlevel (metrics.txnsExpected_ + 1)
    have hle := hbase (metrics.txnsExpected_ + 1)
    unfold scaleFeeLevel at hnext
    rw [if_pos (Nat.lt_succ_self _)] at hnext
    split_ifs at hnext with hzero
    have hpos := Nat.pos_of_ne_zero hzero
    rw [← Except.ok.inj hnext, mulDiv_snd, le_min_iff, Nat.le_div_iff_mul_le (Nat.mul_pos hpos hpos)] at hle
    rw [sq, sq]
    exact ⟨hpos, hle.2⟩
  · rintro ⟨hpos, hle⟩
    rw [sq, sq] at hle
    have hsquare := Nat.mul_pos hpos hpos
    have hescalated : ∀ current, metrics.txnsExpected_ < current → baseLevel ≤ (mulDiv metrics.escalationMultiplier_
        (current * current) (metrics.txnsExpected_ * metrics.txnsExpected_)).2 := by
      intro current hlarge
      rw [mulDiv_snd, le_min_iff, Nat.le_div_iff_mul_le hsquare]
      exact ⟨by decide, hle.trans (Nat.mul_le_mul_left _ (Nat.mul_self_le_mul_self hlarge))⟩
    refine ⟨fun current => if metrics.txnsExpected_ < current then (mulDiv metrics.escalationMultiplier_
      (current * current) (metrics.txnsExpected_ * metrics.txnsExpected_)).2 else baseLevel, fun current => ?_,
      fun current => ?_, fun current current' hgrows => ?_⟩
    · unfold scaleFeeLevel
      rw [if_neg hpos.ne']
      exact (apply_ite Except.ok _ _ _).symm
    · dsimp only
      split_ifs with hlarge
      · exact hescalated current hlarge
      · exact le_rfl
    · dsimp only
      split_ifs with hlarge hlarge' hlarge'
      · rw [mulDiv_snd, mulDiv_snd]
        exact min_le_min_left _ (Nat.div_le_div_right (Nat.mul_le_mul_left _ (Nat.mul_self_le_mul_self hgrows)))
      · omega
      · exact hescalated current' hlarge'
      · exact le_rfl

/-- For an accepted configuration and after any closed ledgers, fees escalate as intended exactly if some transactions are
expected and the multiplier brings the first one beyond them to the base level. A configuration of a positive minimum of
transactions and a multiplier that is no less than the base level ensures both. The squares fit into 64 bits as long as the open
ledger holds fewer than `2 ^ 32` transactions. -/
theorem escalation_iff {config : Config} {setup : Setup} (hsetup : setup_TxQ config = .ok setup)
    {ledgers : List (List ℕ × Bool)} {metrics : FeeMetrics} (hrun : updates setup ledgers = .ok metrics) :
    (Escalates metrics ↔ 0 < metrics.txnsExpected_ ∧
      baseLevel * metrics.txnsExpected_ ^ 2 ≤ metrics.escalationMultiplier_ * (metrics.txnsExpected_ + 1) ^ 2) ∧
    (1 ≤ setup.ledgersInQueue → 0 < minimumTxnCount_ setup → baseLevel ≤ setup.minimumEscalationMultiplier →
      Escalates metrics) ∧
    ∀ current < 2 ^ 32, metrics.scaleFeeLevel64 current = metrics.scaleFeeLevel current := by
  refine ⟨escalates_iff metrics, fun hledgers hminimum hmultiplier => ?_, fun current => scaleFeeLevel64_eq⟩
  obtain ⟨metrics', hrun', hbounded, hle⟩ := bounded_updates (accepted_of_setup hsetup) hledgers ledgers
  obtain rfl := Except.ok.inj (hrun'.symm.trans hrun)
  refine (escalates_iff _).mpr ⟨hminimum.trans_le hbounded.le_expected, ?_⟩
  exact Nat.mul_le_mul (hmultiplier.trans hle) (Nat.pow_le_pow_left (Nat.le_succ _) 2)

/-- A configuration without a minimum of transactions is accepted, and so is one with the multiplier 1. With the first, the fee
level of an open ledger with a transaction is a division by zero, and with the second the sixth transaction may pay less than
the fifth. -/
theorem accepted_without_escalation :
    ∃ setup setup', setup_TxQ { Config.empty with minimum_txn_in_ledger := some 0 } = .ok setup ∧
      updates setup [] = .ok (new setup) ∧ (new setup).scaleFeeLevel 1 = .error "division by zero" ∧
      setup_TxQ { Config.empty with minimum_escalation_multiplier := some 1 } = .ok setup' ∧
      updates setup' [] = .ok (new setup') ∧ (new setup').scaleFeeLevel 5 = .ok baseLevel ∧
      (new setup').scaleFeeLevel 6 = .ok 1 :=
  ⟨_, _, rfl, rfl, rfl, rfl, rfl, rfl, rfl⟩

/-- Escalation, with nothing configured. -/
theorem escalation_default : Escalates (new Setup.default) :=
  (escalation_iff (rfl : setup_TxQ .empty = .ok Setup.default) (rfl : updates Setup.default [] = .ok _)).2.1
    (by decide) (by decide) (by decide)

end FeeMetrics

/-! ## The fee levels of a series -/

section Series

variable {A R V C : Type} [DecidableEq A] [DecidableEq R] {env : Transactors A R V C} {metrics : FeeMetrics}

theorem sum_first_squares (x : ℕ) : 6 * ∑ i ∈ Finset.range (x + 1), i * i = x * (x + 1) * (2 * x + 1) := by
  induction x with
  | zero => rfl
  | succ x ih =>
    rw [Finset.sum_range_succ, mul_add, ih]
    ring

theorem sumOfFirstSquares_eq {x : ℕ} (hx : x < 2 ^ 21) :
    FeeMetrics.sumOfFirstSquares x = (true, ∑ i ∈ Finset.range (x + 1), i * i) := by
  unfold FeeMetrics.sumOfFirstSquares
  rw [if_neg (by omega), ← sum_first_squares, Nat.mul_div_cancel_left _ (by norm_num)]

theorem sum_squares_between {current size : ℕ} (hcurrent : 0 < current) :
    ∑ i ∈ Finset.range (current + size - 1 + 1), i * i - ∑ i ∈ Finset.range (current - 1 + 1), i * i =
      ∑ k ∈ Finset.range size, (current + k) * (current + k) := by
  rw [Nat.sub_add_cancel (by omega), Nat.sub_add_cancel hcurrent, Finset.sum_range_add, Nat.add_sub_cancel_left]

theorem sum_div_le (f : ℕ → ℕ) (d n : ℕ) : ∑ k ∈ Finset.range n, f k / d ≤ (∑ k ∈ Finset.range n, f k) / d := by
  induction n with
  | zero => exact Nat.zero_le _
  | succ n ih =>
    rw [Finset.sum_range_succ, Finset.sum_range_succ]
    exact (Nat.add_le_add_right ih _).trans Nat.div_add_div_le_add_div

theorem scaleFeeLevel_le {current : ℕ} (hpos : 0 < metrics.txnsExpected_) (h : metrics.txnsExpected_ < current) :
    ∃ level, metrics.scaleFeeLevel current = .ok level ∧
      level ≤ metrics.escalationMultiplier_ * (current * current) / (metrics.txnsExpected_ * metrics.txnsExpected_) := by
  unfold FeeMetrics.scaleFeeLevel
  rw [if_pos h, if_neg hpos.ne']
  refine ⟨_, rfl, ?_⟩
  unfold mulDiv
  split_ifs
  · omega
  · exact le_rfl

/-- What a series must pay is no less than what its transactions must pay, one after the other. -/
theorem sum_scaleFeeLevel_le {current size : ℕ} {required : Bool × ℕ} (hpos : 0 < metrics.txnsExpected_)
    (h : metrics.txnsExpected_ < current) (hrun : metrics.escalatedSeriesFeeLevel env current size = .ok required)
    (hok : required.1 = true) : ∃ level : ℕ → ℕ, (∀ k, metrics.scaleFeeLevel (current + k) = .ok (level k)) ∧
      ∑ k ∈ Finset.range size, level k ≤ required.2 := by
  choose level hlevel hle using fun k => scaleFeeLevel_le hpos (h.trans_le (Nat.le_add_right current k))
  refine ⟨level, hlevel, (Finset.sum_le_sum fun k _ => hle k).trans ((sum_div_le _ _ _).trans ?_)⟩
  rw [← Finset.mul_sum]
  obtain ⟨_, -, hrun⟩ := bind_ok.mp hrun
  dsimp only at hrun
  split_ifs at hrun with hlarge
  · cases hrun
    exact absurd hok (by rw [hlarge]; decide)
  -- the sums were computed, so the numbers are small
  have hlast : current + size - 1 < 2 ^ 21 := by
    by_contra hbig
    exact hlarge (by unfold FeeMetrics.sumOfFirstSquares; rw [if_pos (not_lt.mp hbig)])
  cases hrun
  rw [sumOfFirstSquares_eq hlast, sumOfFirstSquares_eq (by omega), sum_squares_between (by omega)] at hok ⊢
  unfold mulDiv at hok ⊢
  split_ifs at hok ⊢
  exact le_rfl

namespace TxQ

theorem totalFeeLevelPaid_le (paid : ℕ) (series : List (MaybeTx A R)) :
    totalFeeLevelPaid paid series ≤ paid + (series.map fun m => m.feeLevel).sum := by
  unfold totalFeeLevelPaid
  induction series generalizing paid with
  | nil => exact le_rfl
  | cons m ms ih =>
    have hmod := Nat.mod_le (paid + m.feeLevel) (2 ^ 64)
    have := ih ((paid + m.feeLevel) % 2 ^ 64)
    rw [List.foldl_cons, List.map_cons, List.sum_cons]
    omega

theorem length_range_le {acc : TxQAccount A R} (hacc : acc.transactions.Pairwise (·.sequence < ·.sequence))
    (aSeq tSeq : ℕ) : (range acc aSeq tSeq).length ≤ tSeq - aSeq := by
  have hnodup : ((range acc aSeq tSeq).map fun m => m.sequence).Nodup :=
    List.pairwise_map.mpr ((hacc.filter _).imp fun h => h.ne)
  rw [← Nat.card_Ico, ← List.length_map, ← List.toFinset_card_of_nodup hnodup]
  refine Finset.card_le_card fun s hs => ?_
  obtain ⟨m, hm, rfl⟩ := List.mem_map.mp (List.mem_toFinset.mp hs)
  simpa [range] using (List.mem_filter.mp hm).2

/-- If the account's queue is cleared, the fee levels paid in the series are no less than those that the open ledger requires
of its transactions one after the other. As long as it holds fewer than `2 ^ 21` transactions, the products fit into 64 bits. -/
theorem cleared_series_pays {q : TxQ A R} {acc : TxQAccount A R} {view : V} {tx : STTx A} {aSeq paid txExtraCount : ℕ}
    {pf : PreflightResult A R}
    (hacc : acc.transactions.Pairwise (·.sequence < ·.sequence)) (hpos : 0 < q.feeMetrics_.txnsExpected_)
    (hopen : q.feeMetrics_.txnsExpected_ < env.txCount view + txExtraCount) :
    (∀ r, q.tryClearAccountQueue env acc view tx aSeq paid pf txExtraCount = .ok r → r.1.2 = true →
      ∃ level : ℕ → ℕ, (∀ k, q.feeMetrics_.scaleFeeLevel (env.txCount view + txExtraCount + k) = .ok (level k)) ∧
        ∑ k ∈ Finset.range ((range acc aSeq tx.sequence).length + 1), level k ≤
          ((range acc aSeq tx.sequence).map fun m => m.feeLevel).sum + paid) ∧
    (env.txCount view + txExtraCount + (tx.sequence - aSeq) < 2 ^ 21 →
      q.feeMetrics_.txnsExpected_ * q.feeMetrics_.txnsExpected_ < 2 ^ 64 ∧
      ∀ x ≤ env.txCount view + txExtraCount + (tx.sequence - aSeq), x * (x + 1) * (2 * x + 1) < 2 ^ 64) := by
  refine ⟨fun r h happlied => ?_, fun hsmall => ⟨?_, fun x hx => ?_⟩⟩
  · unfold tryClearAccountQueue at h
    obtain ⟨_, -, h⟩ := bind_ok.mp h
    obtain ⟨required, hrequired, h⟩ := bind_ok.mp h
    split_ifs at h with hfail
    · cases h
      cases happlied
    rw [not_or, Bool.not_eq_false, not_lt] at hfail
    obtain ⟨level, hlevel, hsum⟩ := sum_scaleFeeLevel_le hpos hopen hrequired hfail.1
    refine ⟨level, hlevel, ?_⟩
    calc ∑ k ∈ Finset.range ((range acc aSeq tx.sequence).length + 1), level k
        ≤ ∑ k ∈ Finset.range (tx.sequence - aSeq + 1), level k :=
          Finset.sum_le_sum_of_subset (Finset.range_mono (Nat.succ_le_succ (length_range_le hacc _ _)))
      _ ≤ required.2 := hsum
      _ ≤ totalFeeLevelPaid paid (range acc aSeq tx.sequence) := hfail.2
      _ ≤ _ := (totalFeeLevelPaid_le paid _).trans_eq (Nat.add_comm _ _)
  · calc q.feeMetrics_.txnsExpected_ * q.feeMetrics_.txnsExpected_ ≤ 2 ^ 21 * 2 ^ 21 := Nat.mul_le_mul (by omega) (by omega)
      _ < 2 ^ 64 := by norm_num
  · calc x * (x + 1) * (2 * x + 1) ≤ (2 ^ 21 - 1) * 2 ^ 21 * (2 * (2 ^ 21 - 1) + 1) :=
          Nat.mul_le_mul (Nat.mul_le_mul (by omega) (by omega)) (by omega)
      _ < 2 ^ 64 := by norm_num

/-- The theorem, where a transaction of sequence 7 clears the one of sequence 6 out of the queue. -/
theorem cleared_series_pays_two :
    let q := valueOr twoQueued (.new Setup.default)
    let acc := (q.byAccount_ ()).getD ⟨[], false, false⟩
    ∃ r, q.tryClearAccountQueue applyEverything acc (6, []) (pay 7 1000000) 6 25600000
        (applyEverything.preflightResult () (pay 7 1000000) 0) 10 = .ok r ∧ r.1.2 = true ∧
      ∃ level : ℕ → ℕ, (∀ k, q.feeMetrics_.scaleFeeLevel (20 + k) = .ok (level k)) ∧
        ∑ k ∈ Finset.range ((range acc 6 7).length + 1), level k ≤
          ((range acc 6 7).map fun m => m.feeLevel).sum + 25600000 := by
  intro q acc
  have hrun := eq_ok_valueOr (x := q.tryClearAccountQueue applyEverything acc (6, []) (pay 7 1000000) 6 25600000
    (applyEverything.preflightResult () (pay 7 1000000) 0) 10) ((0, false), q, 0, []) (by decide)
  have happlied : (valueOr (q.tryClearAccountQueue applyEverything acc (6, []) (pay 7 1000000) 6 25600000
    (applyEverything.preflightResult () (pay 7 1000000) 0) 10) ((0, false), q, 0, [])).1.2 = true := by decide
  exact ⟨_, hrun, happlied, (cleared_series_pays (by decide) (by decide) (by decide)).1 _ hrun happlied⟩

end TxQ

end Series

end ScfChain.App
