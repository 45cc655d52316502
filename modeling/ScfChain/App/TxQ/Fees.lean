import Mathlib
import ScfChain.App.TxQ.Queue

/-!
# Fee levels

A fee level is a fee relative to the base fee of its transaction: `baseLevel` is what a transaction that pays its base fee has.
Fee levels are 64 bits wide. Numbers of transactions and of ledgers are not bounded.
-/

namespace ScfChain.App

variable {A R V C : Type}

/-- `TxQ::Setup`. -/
structure Setup where
  ledgersInQueue : ℕ
  queueSizeMin : ℕ
  retrySequencePercent : BitVec 32
  multiTxnPercent : BitVec 32
  minimumEscalationMultiplier : ℕ
  minimumTxnInLedger : ℕ
  minimumTxnInLedgerSA : ℕ
  targetTxnInLedger : ℕ
  maximumTxnInLedger : Option ℕ
  normalConsensusIncreasePercent : BitVec 32
  slowConsensusDecreasePercent : BitVec 32
  maximumTxnPerAccount : ℕ
  minimumLastLedgerBuffer : BitVec 32
  zeroBaseFeeTransactionFeeLevel : ℕ
  standAlone : Bool

/-- The values that a configuration which sets nothing has. -/
def Setup.default : Setup where
  ledgersInQueue := 20
  queueSizeMin := 2000
  retrySequencePercent := 25
  multiTxnPercent := -90
  minimumEscalationMultiplier := 256 * 500
  minimumTxnInLedger := 5
  minimumTxnInLedgerSA := 1000
  targetTxnInLedger := 50
  maximumTxnInLedger := none
  normalConsensusIncreasePercent := 20
  slowConsensusDecreasePercent := 50
  maximumTxnPerAccount := 10
  minimumLastLedgerBuffer := 2
  zeroBaseFeeTransactionFeeLevel := 256000
  standAlone := false

def baseLevel : ℕ := 256

/-- `mulDiv`, for a divisor other than zero. -/
def mulDiv (value mul div : ℕ) : Bool × ℕ :=
  if 2 ^ 64 - 1 < value * mul / div then (false, 2 ^ 64 - 1) else (true, value * mul / div)

def getFeeLevelPaid (tx : STTx A) (refTxnCostDrops : ℕ) (setup : Setup) : ℕ :=
  if refTxnCostDrops = 0 then setup.zeroBaseFeeTransactionFeeLevel
  else (mulDiv tx.fee baseLevel refTxnCostDrops).2

def increase (level : ℕ) (increasePercent : BitVec 32) : ℕ := (mulDiv level (100 + increasePercent).toNat 100).2

namespace FeeMetrics

def minimumTxnCount_ (setup : Setup) : ℕ := if setup.standAlone then setup.minimumTxnInLedgerSA else setup.minimumTxnInLedger

def targetTxnCount_ (setup : Setup) : ℕ := max setup.targetTxnInLedger (minimumTxnCount_ setup)

def maximumTxnCount_ (setup : Setup) : Option ℕ := setup.maximumTxnInLedger.map (max · (targetTxnCount_ setup))

/-- The constructor. -/
def new (setup : Setup) : FeeMetrics where
  txnsExpected_ := minimumTxnCount_ setup
  recentTxnCounts_ := []
  escalationMultiplier_ := setup.minimumEscalationMultiplier

/-- `push_back` of a circular buffer of the given capacity. -/
def pushBack (capacity : ℕ) (l : List ℕ) (n : ℕ) : List ℕ := (l ++ [n]).drop ((l ++ [n]).length - capacity)

/-- The expected number of transactions, after a ledger of `size` transactions. -/
def updateExpected (metrics : FeeMetrics) (setup : Setup) (size : ℕ) (timeLeap : Bool) : Except String FeeMetrics :=
  if timeLeap then
    let cutPct := (100 - setup.slowConsensusDecreasePercent).toNat
    let upperLimit := max (mulDiv metrics.txnsExpected_ cutPct 100).2 (minimumTxnCount_ setup)
    .ok { metrics with
      txnsExpected_ := max (minimumTxnCount_ setup) (min (mulDiv size cutPct 100).2 upperLimit), recentTxnCounts_ := [] }
  else if metrics.txnsExpected_ < size ∨ targetTxnCount_ setup < size then
    let recent := pushBack setup.ledgersInQueue metrics.recentTxnCounts_
      (mulDiv size (100 + setup.normalConsensusIncreasePercent).toNat 100).2
    match recent.max? with
    | none => .error "iter != recentTxnCounts_.end()"
    | some largest =>
      let next := if metrics.txnsExpected_ ≤ largest then largest else (metrics.txnsExpected_ * 9 + largest) / 10
      .ok { metrics with
        txnsExpected_ := min next ((maximumTxnCount_ setup).getD next), recentTxnCounts_ := recent }
  else .ok metrics

/-- The middle element, or the mean of the two in the middle. -/
def median (sorted : List ℕ) : ℕ :=
  (sorted.getD (sorted.length / 2) 0 + sorted.getD ((sorted.length - 1) / 2) 0 + 1) % 2 ^ 64 / 2

/-- `FeeMetrics::update`, of the fee levels of the transactions of a ledger. -/
def update (metrics : FeeMetrics) (setup : Setup) (feeLevels : List ℕ) (timeLeap : Bool) : Except String FeeMetrics := do
  let sorted := feeLevels.insertionSort (· ≤ ·)
  let expected ← metrics.updateExpected setup sorted.length timeLeap
  if sorted.length = 0 then return { expected with escalationMultiplier_ := setup.minimumEscalationMultiplier }
  else return { expected with escalationMultiplier_ := max (median sorted) setup.minimumEscalationMultiplier }

/-- The fee level for the open ledger, which holds `current` transactions. -/
def scaleFeeLevel (metrics : FeeMetrics) (current : ℕ) : Except String ℕ :=
  if metrics.txnsExpected_ < current then
    if metrics.txnsExpected_ = 0 then .error "division by zero"
    else .ok (mulDiv metrics.escalationMultiplier_ (current * current) (metrics.txnsExpected_ * metrics.txnsExpected_)).2
  else .ok baseLevel

def sumOfFirstSquares (x : ℕ) : Bool × ℕ :=
  if 2 ^ 21 ≤ x then (false, 2 ^ 64 - 1) else (true, x * (x + 1) * (2 * x + 1) / 6)

/-- What a series of transactions must pay; `current` transactions are in the open ledger when the first is attempted. -/
def escalatedSeriesFeeLevel (env : Transactors A R V C) (metrics : FeeMetrics) (current seriesSize : ℕ) :
    Except String (Bool × ℕ) := do
  env.assert (metrics.txnsExpected_ < current) "current > target"
  let sumNlast := sumOfFirstSquares (current + seriesSize - 1)
  if sumNlast.1 = false then return sumNlast
  else if metrics.txnsExpected_ = 0 then .error "division by zero"
  else
    return mulDiv metrics.escalationMultiplier_ (sumNlast.2 - (sumOfFirstSquares (current - 1)).2)
      (metrics.txnsExpected_ * metrics.txnsExpected_)

end FeeMetrics

/-- The constructor. -/
def TxQ.new (setup : Setup) : TxQ A R where
  feeMetrics_ := .new setup
  byFee_ := []
  byAccount_ := fun _ => none
  maxSize_ := none

end ScfChain.App
