import Mathlib
import ScfChain.Data.Ranked

/-!
# The transaction queue

`TxQ` holds transactions that pay too little for the open ledger. A `MaybeTx` is stored under its account and its sequence
(`byAccount_`), and linked into a multiset ordered by fee level (`byFee_`): here the list of the accounts and the sequences of
its elements, which is what an iterator is.

What the transactors do is not modelled: `Transactors` are any results of `preflight`, `preclaim` and `doApply`, with what the
queue reads of views. An assertion that fails, where assertions are compiled in, an exception, and an iterator that points
nowhere are errors.
-/

namespace ScfChain.App

open Data

/-- Result codes, as integers. -/
abbrev TER := ℤ

def telINSUF_FEE_P : TER := -394
def telCAN_NOT_QUEUE : TER := -392
def telCAN_NOT_QUEUE_BALANCE : TER := -391
def telCAN_NOT_QUEUE_BLOCKS : TER := -390
def telCAN_NOT_QUEUE_BLOCKED : TER := -389
def telCAN_NOT_QUEUE_FEE : TER := -388
def telCAN_NOT_QUEUE_FULL : TER := -387
def terQUEUED : TER := -89
def tesSUCCESS : TER := 0

def isTemMalformed (ter : TER) : Bool := -299 ≤ ter ∧ ter < -199
def isTefFailure (ter : TER) : Bool := -199 ≤ ter ∧ ter < -99

abbrev ApplyFlags := BitVec 32

def tapRETRY : ApplyFlags := 0x20
def tapPREFER_QUEUE : ApplyFlags := 0x40

/-- What the queue reads of a transaction. The fee is in drops; the last two fields are what the transactor of its type
computes from it. -/
structure STTx (A : Type) where
  transactionID : ℕ
  account : A
  sequence : ℕ
  fee : ℕ
  lastLedgerSequence : Option ℕ
  previousTxnID : Bool
  accountTxnID : Bool
  affectsSubsequentTransactionAuth : Bool
  calculateMaxSpend : ℕ
  deriving DecidableEq

structure PreflightResult (A R : Type) where
  tx : STTx A
  rules : R
  flags : ApplyFlags
  ter : TER

inductive Category
  | normal
  | blocker
  deriving DecidableEq

structure TxConsequences where
  category : Category
  fee : ℕ
  potentialSpend : ℕ
  deriving DecidableEq

/-- The transactors, and what is read of views. -/
structure Transactors (A R V C : Type) where
  /-- Are assertions compiled in? -/
  asserts : Bool
  preflight : R → STTx A → ApplyFlags → TER
  preclaim : PreflightResult A R → V → C
  preclaimTer : C → TER
  likelyToClaimFee : C → Bool
  doApply : C → V → (TER × Bool) × V
  calculateBaseFee : V → STTx A → ℕ
  rules : V → R
  /-- Sequence and balance of an account. -/
  accountRoot : V → A → Option (ℕ × ℕ)
  /-- `accountReserve (0)`. -/
  reserve : V → ℕ
  seq : V → ℕ
  txs : V → List (STTx A)
  txCount : V → ℕ
  /-- A throwaway view with another sequence and balance of an account. -/
  withAccount : V → A → ℕ → ℕ → V
  /-- An `OpenView` over a view, and its `apply`. -/
  sandbox : V → V
  commit : V → V → V

variable {A R V C : Type}

namespace Transactors

variable (env : Transactors A R V C)

def assert (c : Prop) [Decidable c] (text : String) : Except String Unit :=
  if env.asserts ∧ ¬ c then .error text else .ok ()

def preflightResult (rules : R) (tx : STTx A) (flags : ApplyFlags) : PreflightResult A R :=
  ⟨tx, rules, flags, env.preflight rules tx flags⟩

def calculateConsequences (pf : PreflightResult A R) : Except String TxConsequences := do
  env.assert (pf.ter = tesSUCCESS) "preflightResult.ter == tesSUCCESS"
  if pf.ter ≠ tesSUCCESS then return ⟨.blocker, pf.tx.fee, 0⟩
  else
    return ⟨if pf.tx.affectsSubsequentTransactionAuth then .blocker else .normal, pf.tx.fee, pf.tx.calculateMaxSpend⟩

end Transactors

/-! ## The queue -/

/-- The constant fields of a `MaybeTx`. -/
structure Core (A : Type) where
  txn : STTx A
  feeLevel : ℕ
  flags : ApplyFlags
  deriving DecidableEq

def Core.sequence (c : Core A) : ℕ := c.txn.sequence

/-- The fields of a `MaybeTx` that change. -/
structure Cache (A R : Type) where
  pfresult : PreflightResult A R
  consequences : Option TxConsequences
  retriesRemaining : ℤ
  lastResult : Option TER

structure MaybeTx (A R : Type) extends Core A, Cache A R

def retriesAllowed : ℤ := 10

/-- The transactions of an account, by sequence. -/
structure TxQAccount (A R : Type) where
  transactions : List (MaybeTx A R)
  retryPenalty : Bool
  dropPenalty : Bool

structure FeeMetrics where
  txnsExpected_ : ℕ
  recentTxnCounts_ : List ℕ
  escalationMultiplier_ : ℕ

structure TxQ (A R : Type) where
  feeMetrics_ : FeeMetrics
  byFee_ : List (A × ℕ)
  byAccount_ : A → Option (TxQAccount A R)
  maxSize_ : Option ℕ

/-- `transactions.find`. -/
def TxQAccount.find (acc : TxQAccount A R) (sequence : ℕ) : Option (MaybeTx A R) :=
  acc.transactions.find? (·.sequence = sequence)

/-- `std::map::emplace`. -/
def emplace (m : MaybeTx A R) : List (MaybeTx A R) → List (MaybeTx A R)
  | [] => [m]
  | x :: xs =>
    if x.sequence < m.sequence then x :: emplace m xs
    else if m.sequence < x.sequence then m :: x :: xs
    else x :: xs

/-- Only the fields that change do. -/
def MaybeTx.modify (f : Cache A R → Cache A R) (m : MaybeTx A R) : MaybeTx A R := ⟨m.toCore, f m.toCache⟩

namespace TxQ

/-- The element that an iterator points to. -/
def deref (q : TxQ A R) (p : A × ℕ) : Option (MaybeTx A R) := (q.byAccount_ p.1).bind (·.find p.2)

/-- Its fee level. -/
def feeLevel (q : TxQ A R) (p : A × ℕ) : ℕ := ((q.deref p).map (·.feeLevel)).getD 0

/-- `isFull<fillPercentage>`. -/
def isFull (q : TxQ A R) (fillPercentage : ℕ) : Bool :=
  match q.maxSize_ with
  | none => false
  | some maxSize => maxSize * fillPercentage / 100 ≤ q.byFee_.length

variable [DecidableEq A]

/-- An account that is there changes. -/
def modifyAccount (q : TxQ A R) (account : A) (f : TxQAccount A R → TxQAccount A R) : TxQ A R :=
  { q with byAccount_ := Function.update q.byAccount_ account ((q.byAccount_ account).map f) }

def setTransactions (q : TxQ A R) (account : A) (transactions : List (MaybeTx A R)) : TxQ A R :=
  q.modifyAccount account fun acc => { acc with transactions := transactions }

/-- The element that an iterator points to changes. -/
def modifyTx (q : TxQ A R) (p : A × ℕ) (f : Cache A R → Cache A R) : TxQ A R :=
  q.modifyAccount p.1 fun acc =>
    { acc with transactions := acc.transactions.map fun m => if m.sequence = p.2 then m.modify f else m }

/-- Elements of an account leave both containers. -/
def unlink (q : TxQ A R) (account : A) (sequences : List ℕ) : TxQ A R :=
  let rest := q.modifyAccount account fun acc =>
    { acc with transactions := acc.transactions.filter (·.sequence ∉ sequences) }
  { rest with byFee_ := q.byFee_.diff (sequences.map (account, ·)) }

/-- `erase` of an iterator into `byFee_`. -/
def erase (env : Transactors A R V C) (q : TxQ A R) (p : A × ℕ) : Except String (TxQ A R) :=
  match q.byAccount_ p.1 with
  | none => .error "byAccount_.at"
  | some acc => do
    env.assert ((acc.find p.2).isSome) "found"
    return q.unlink p.1 [p.2]

/-- A candidate is stored under its account, for which there is an entry or which gets one, and linked into `byFee_`. -/
def add (env : Transactors A R V C) (q : TxQ A R) (m : MaybeTx A R) : Except String (TxQ A R) := do
  let acc := (q.byAccount_ m.txn.account).getD ⟨[], false, false⟩
  env.assert ((acc.find m.sequence).isNone) "result.second"
  let stored : TxQ A R :=
    { q with byAccount_ :=
        Function.update q.byAccount_ m.txn.account (some { acc with transactions := emplace m acc.transactions }) }
  return { stored with byFee_ := insertRanked stored.feeLevel (m.txn.account, m.sequence) q.byFee_ }

end TxQ

end ScfChain.App
