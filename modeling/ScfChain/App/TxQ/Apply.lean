import Mathlib
import ScfChain.App.TxQ.Fees

/-!
# `TxQ::apply`

A new transaction goes into the open ledger, into the queue, or nowhere. The function is cut where the source has its
numbered steps: `replacement` (2), `multiTxn` (3), `preclaimed` (4 and 5, with `tryClearAccountQueue`), `hold` (6 to 8).
-/

namespace ScfChain.App

variable {A R V C : Type} [DecidableEq A] [DecidableEq R]

/-- `MaybeTx::apply`. If the rules or the flags have changed, `preflight` is run again, and its result kept. -/
def MaybeTx.apply (env : Transactors A R V C) (m : MaybeTx A R) (view : V) : (TER × Bool) × V × PreflightResult A R :=
  let pf := if m.pfresult.rules ≠ env.rules view ∨ m.pfresult.flags ≠ m.flags
    then env.preflightResult (env.rules view) m.pfresult.tx m.flags else m.pfresult
  let result := env.doApply (env.preclaim pf view) view
  (result.1, result.2, pf)

/-- The consequences of a queued transaction, computed when they are first needed. -/
def Cache.getConsequences (env : Transactors A R V C) (c : Cache A R) : Except String TxConsequences :=
  match c.consequences with
  | some consequences => .ok consequences
  | none => env.calculateConsequences c.pfresult

namespace TxQ

variable (env : Transactors A R V C) (setup : Setup)

def requiredFeeLevel (q : TxQ A R) (view : V) (flags : ApplyFlags) : Except String ℕ := do
  let feeLevel ← q.feeMetrics_.scaleFeeLevel (env.txCount view)
  match q.byFee_ with
  | [] => return feeLevel
  | p :: _ => return if flags &&& tapPREFER_QUEUE ≠ 0 then max feeLevel (q.feeLevel p) else feeLevel

def canBeHeld (q : TxQ A R) (tx : STTx A) (view : V) (replaced : Bool) : Except String Bool :=
  let lasts : Bool := match tx.lastLedgerSequence with
    | none => true
    | some lastValid => (BitVec.ofNat 32 (env.seq view) + setup.minimumLastLedgerBuffer).toNat ≤ lastValid
  if tx.previousTxnID || tx.accountTxnID || !lasts then .ok false
  else match q.byAccount_ tx.account with
    | none => .ok true
    | some acc =>
      if replaced ∨ acc.transactions.length < setup.maximumTxnPerAccount then .ok true
      else match acc.transactions.getLast? with
        | none => .error "transactions.rbegin"
        | some last => .ok (tx.sequence < last.sequence)

/-! ## A transaction with the same sequence -/

/-- May a transaction that pays `paid` take the place of `existing`? -/
def mayReplace (acc : TxQAccount A R) (existing : MaybeTx A R) (paid required : ℕ) : Bool :=
  increase existing.feeLevel setup.retrySequencePercent < paid ∨
    (existing.feeLevel < required ∧ required ≤ paid ∧
      acc.transactions.head?.map (fun m => m.sequence) = some existing.sequence)

/-- A normal transaction that is not the account's last is not replaced by a blocker. Returns the consequences of the new
transaction, where they are computed. -/
def checkBlocker (q : TxQ A R) (p : A × ℕ) (existing : MaybeTx A R) (pf : PreflightResult A R) :
    Except String ((TER ⊕ Option TxConsequences) × TxQ A R) := do
  let found ← existing.getConsequences env
  let q := q.modifyTx p fun c => { c with consequences := some found }
  if found.category = .normal then do
    let own ← env.calculateConsequences pf
    if own.category = .blocker then return (.inl telCAN_NOT_QUEUE_BLOCKS, q) else return (.inr (some own), q)
  else return (.inr none, q)

/-- The assertions about the iterator to the replaced transaction. -/
def linked (q : TxQ A R) (p : A × ℕ) (existing : MaybeTx A R) : Except String Unit := do
  env.assert (p ∈ q.byFee_) "deleteIter != byFee_.end()"
  env.assert (existing.txn.account = p.1) "deleteIter->account == txQAcct.account"

/-- The queued transaction of the same sequence: whether there is one to replace. -/
def replacement (q : TxQ A R) (tx : STTx A) (pf : PreflightResult A R) (paid required : ℕ) :
    Except String ((TER ⊕ Bool × Option TxConsequences) × TxQ A R) :=
  match q.byAccount_ tx.account with
  | none => .ok (.inr (false, none), q)
  | some acc =>
    match acc.find tx.sequence with
    | none => .ok (.inr (false, none), q)
    | some existing =>
      if mayReplace setup acc existing paid required = false then .ok (.inl telCAN_NOT_QUEUE_FEE, q)
      else if acc.transactions.getLast?.map (fun m => m.sequence) = some tx.sequence then do
        q.linked env (tx.account, tx.sequence) existing
        return (.inr (true, none), q)
      else do
        let r ← q.checkBlocker env (tx.account, tx.sequence) existing pf
        match r.1 with
        | .inl ter => return (.inl ter, r.2)
        | .inr consequences => do
          r.2.linked env (tx.account, tx.sequence) existing
          return (.inr (true, consequences), r.2)

/-! ## The account's transactions before this one -/

structure MultiTxn where
  fee : ℕ
  potentialSpend : ℕ
  includeCurrentFee : Bool

/-- The loop over the account's transactions from its current sequence on. -/
def scan (tx : STTx A) (paid : ℕ) (replaced : Bool) : List (MaybeTx A R) → ℕ → MultiTxn →
    Except String ((TER ⊕ Option MultiTxn) × List (MaybeTx A R))
  | [], workingSeq, multi => .ok (.inr (if workingSeq < tx.sequence then none else some multi), [])
  | m :: ms, workingSeq, multi =>
    if workingSeq < tx.sequence ∧ m.sequence ≠ workingSeq then .ok (.inr none, m :: ms)
    else if m.sequence + 1 = tx.sequence ∧ paid ≤ increase m.feeLevel setup.multiTxnPercent then
      .ok (.inl telINSUF_FEE_P, m :: ms)
    else if m.sequence = tx.sequence then do
      env.assert (replaced = true) "replacedItemDeleteIter"
      let r ← scan tx paid replaced ms (workingSeq + 1) { multi with includeCurrentFee := !ms.isEmpty }
      return (r.1, m :: r.2)
    else do
      let found ← m.getConsequences env
      let m' := m.modify fun c => { c with consequences := some found }
      if m.sequence < tx.sequence ∧ found.category = .blocker then return (.inl telCAN_NOT_QUEUE_BLOCKED, m' :: ms)
      else do
        let r ← scan tx paid replaced ms (workingSeq + 1)
          { multi with fee := multi.fee + found.fee, potentialSpend := multi.potentialSpend + found.potentialSpend }
        return (r.1, m' :: r.2)

/-- The fees in flight must leave the balance and the reserve. Returns the throwaway view. -/
def inFlight (view : V) (tx : STTx A) (balance : ℕ) (multi : MultiTxn) : Except String (TER ⊕ V) :=
  let totalFee := if multi.includeCurrentFee then multi.fee + tx.fee else multi.fee
  if balance ≤ totalFee ∨ env.reserve view ≤ totalFee then .ok (.inl telCAN_NOT_QUEUE_BALANCE)
  else do
    let potentialTotalSpend := multi.fee + min (balance - min balance (env.reserve view)) multi.potentialSpend
    env.assert (0 < potentialTotalSpend) "potentialTotalSpend > 0"
    return .inr (env.withAccount view tx.account tx.sequence (balance - potentialTotalSpend))

/-- The account's transactions are examined from its sequence `aSeq` on. -/
def scanFrom (q : TxQ A R) (acc : TxQAccount A R) (view : V) (tx : STTx A) (paid : ℕ) (replaced : Bool)
    (aSeq balance : ℕ) : Except String ((TER ⊕ Option (ℕ × V)) × TxQ A R) := do
  let r ← scan env setup tx paid replaced (acc.transactions.dropWhile (·.sequence < aSeq)) aSeq ⟨0, 0, false⟩
  let q := q.setTransactions tx.account (acc.transactions.takeWhile (·.sequence < aSeq) ++ r.2)
  match r.1 with
  | .inl ter => return (.inl ter, q)
  | .inr none => return (.inr none, q)
  | .inr (some multi) => do
    let checked ← inFlight env view tx balance multi
    match checked with
    | .inl ter => return (.inl ter, q)
    | .inr testView => return (.inr (some (aSeq, testView)), q)

/-- If the account's sequences up to this one are queued: its current sequence, and the view to check this transaction on. -/
def multiTxn (q : TxQ A R) (view : V) (tx : STTx A) (paid : ℕ) (replaced : Bool) :
    Except String ((TER ⊕ Option (ℕ × V)) × TxQ A R) :=
  match q.byAccount_ tx.account, env.accountRoot view tx.account with
  | some acc, some root =>
    if root.1 < tx.sequence then do
      let held ← q.canBeHeld env setup tx view replaced
      if held ∧ (acc.find root.1).isSome then q.scanFrom env setup acc view tx paid replaced root.1 root.2
      else return (.inr none, q)
    else .ok (.inr none, q)
  | _, _ => .ok (.inr none, q)

/-! ## Clearing an account's queue -/

/-- The queued transactions are applied one after the other, up to one that does not apply, whose result is returned. -/
def applyQueued : List (MaybeTx A R) → V → Option TER × V × List (MaybeTx A R)
  | [], view => (none, view, [])
  | m :: ms, view =>
    let result := m.apply env view
    let m' := m.modify fun c =>
      { c with pfresult := result.2.2, retriesRemaining := c.retriesRemaining - 1, lastResult := some result.1.1 }
    if result.1.2 then
      let rest := applyQueued ms result.2.1
      (rest.1, rest.2.1, m' :: rest.2.2)
    else (some result.1.1, result.2.1, m' :: ms)

/-- The sequences `[aSeq, tSeq)` of an account. -/
def range (acc : TxQAccount A R) (aSeq tSeq : ℕ) : List (MaybeTx A R) :=
  acc.transactions.filter fun m => aSeq ≤ m.sequence ∧ m.sequence < tSeq

/-- The account's transactions, with others for the sequences `[aSeq, tSeq)`. -/
def splice (acc : TxQAccount A R) (aSeq tSeq : ℕ) (middle : List (MaybeTx A R)) : List (MaybeTx A R) :=
  acc.transactions.filter (·.sequence < aSeq) ++ middle ++
    acc.transactions.filter fun m => aSeq ≤ m.sequence ∧ tSeq ≤ m.sequence

/-- The fee level paid for the whole series, in 64 bits. -/
def totalFeeLevelPaid (paid : ℕ) (series : List (MaybeTx A R)) : ℕ :=
  series.foldl (fun total m => (total + m.feeLevel) % 2 ^ 64) paid

/-- `tryClearAccountQueue`, on a sandbox. -/
def tryClearAccountQueue (q : TxQ A R) (acc : TxQAccount A R) (view : V) (tx : STTx A) (aSeq paid : ℕ)
    (pf : PreflightResult A R) (txExtraCount : ℕ) : Except String ((TER × Bool) × TxQ A R × V) := do
  env.assert ((acc.find aSeq).isSome) "beginTxIter != accountIter->second.transactions.end()"
  let required ← q.feeMetrics_.escalatedSeriesFeeLevel env (env.txCount view + txExtraCount) (tx.sequence - aSeq + 1)
  if required.1 = false ∨ totalFeeLevelPaid paid (range acc aSeq tx.sequence) < required.2 then
    return ((telINSUF_FEE_P, false), q, view)
  else
    let r := applyQueued env (range acc aSeq tx.sequence) view
    let q := q.setTransactions tx.account (splice acc aSeq tx.sequence r.2.2)
    match r.1 with
    | some ter => return ((ter, false), q, r.2.1)
    | none =>
      let result := env.doApply (env.preclaim pf r.2.1) r.2.1
      if result.1.2 then
        return (result.1, q.unlink tx.account (((range acc aSeq tx.sequence).map fun m => m.sequence) ++ [tx.sequence]),
          result.2)
      else return (result.1, q, result.2)

/-! ## Holding the transaction -/

/-- The mean fee level of an account whose transaction is the cheapest, if that pays no more than `paid`. -/
def endEffectiveFeeLevel (endAccount : TxQAccount A R) (lastFeeLevel paid : ℕ) : ℕ :=
  let size := endAccount.transactions.length
  if paid < lastFeeLevel ∨ size = 1 then lastFeeLevel
  else
    let most := 2 ^ 64 - 1
    let endTotal := endAccount.transactions.foldl (fun total m =>
      if most - m.feeLevel / size ≤ total.1 ∨ most - m.feeLevel % size ≤ total.2 then (most, 0)
      else (total.1 + m.feeLevel / size, total.2 + m.feeLevel % size)) (0, 0)
    (endTotal.1 + endTotal.2 / size) % 2 ^ 64

/-- If the queue is full, the last transaction of the account with the cheapest one leaves, or the new one is rejected. -/
def makeRoom (q : TxQ A R) (tx : STTx A) (paid : ℕ) : Except String (Option TER × TxQ A R) :=
  if q.isFull 100 = false then .ok (none, q)
  else match q.byFee_.getLast? with
    | none => .error "byFee_.rbegin"
    | some last =>
      if last.1 = tx.account then .ok (some telCAN_NOT_QUEUE_FULL, q)
      else match q.byAccount_ last.1 with
        | none => .error "byAccount_.at"
        | some endAccount =>
          if endEffectiveFeeLevel endAccount (q.feeLevel last) paid < paid then
            match endAccount.transactions.getLast? with
            | none => .error "transactions.rbegin"
            | some dropped => do
              env.assert (dropped.txn.account = last.1) "dropRIter->second.account == lastRIter->account"
              let q ← q.erase env (dropped.txn.account, dropped.sequence)
              return (none, q)
          else .ok (some telCAN_NOT_QUEUE_FULL, q)

/-- The transaction as it is put into the queue. -/
def candidate (tx : STTx A) (paid : ℕ) (flags : ApplyFlags) (pf : PreflightResult A R)
    (consequences : Option TxConsequences) : MaybeTx A R where
  txn := tx
  feeLevel := paid
  flags := flags &&& ~~~tapRETRY &&& ~~~tapPREFER_QUEUE
  pfresult := pf
  consequences := consequences
  retriesRemaining := retriesAllowed
  lastResult := none

/-- The transaction is put into the queue. -/
def hold (q : TxQ A R) (view : V) (m : MaybeTx A R) (replaced : Bool) :
    Except String ((TER × Bool) × TxQ A R × V) :=
  if replaced then do
    let q ← q.erase env (m.txn.account, m.sequence)
    let q ← q.add env m
    return ((terQUEUED, false), q, view)
  else do
    let r ← q.makeRoom env m.txn m.feeLevel
    match r.1 with
    | some ter => return ((ter, false), r.2, view)
    | none => do
      let q ← r.2.add env m
      return ((terQUEUED, false), q, view)

/-! ## The function -/

/-- The transaction goes into the open ledger. -/
def applyDirect (q : TxQ A R) (view : V) (tx : STTx A) (pc : C) (replaced : Bool) :
    Except String ((TER × Bool) × TxQ A R × V) := do
  let result := env.doApply pc view
  if result.1.2 ∧ replaced then do
    let q ← q.erase env (tx.account, tx.sequence)
    return (result.1, q, result.2)
  else return (result.1, q, result.2)

/-- Is it worth trying to clear the account's queue? -/
def worthClearing (q : TxQ A R) (tx : STTx A) (flags : ApplyFlags) (aSeq paid required baseFee : ℕ) : Bool :=
  flags &&& tapPREFER_QUEUE = 0 ∧ (q.deref (tx.account, aSeq)).map (fun m => m.retriesRemaining) = some retriesAllowed ∧
    required < paid ∧ baseLevel < required ∧ baseFee ≠ 0

/-- After the check that the account is likely to claim a fee. -/
def preclaimed (q : TxQ A R) (view : V) (tx : STTx A) (flags : ApplyFlags) (pf : PreflightResult A R)
    (paid required baseFee : ℕ) (replaced : Bool) (consequences : Option TxConsequences) (multi : Option (ℕ × V)) :
    Except String ((TER × Bool) × TxQ A R × V) :=
  match multi with
  | some (aSeq, _) =>
    match q.byAccount_ tx.account with
    | none => .error "accountIter"
    | some acc =>
      if q.worthClearing tx flags aSeq paid required baseFee then do
        let r ← q.tryClearAccountQueue env acc (env.sandbox view) tx aSeq paid pf (env.txCount view)
        if r.1.2 then return (r.1, r.2.1, env.commit view r.2.2)
        else r.2.1.hold env view (candidate tx paid flags pf consequences) replaced
      else q.hold env view (candidate tx paid flags pf consequences) replaced
  | none =>
    if required ≤ paid then q.applyDirect env view tx (env.preclaim pf view) replaced
    else do
      let held ← q.canBeHeld env setup tx view replaced
      if held then q.hold env view (candidate tx paid flags pf consequences) replaced
      else return ((telCAN_NOT_QUEUE, false), q, view)

/-- The checks that leave the transaction where it is. -/
def checked (q : TxQ A R) (view : V) (tx : STTx A) (flags : ApplyFlags) (pf : PreflightResult A R)
    (paid required baseFee : ℕ) (replaced : Bool) (consequences : Option TxConsequences) :
    Except String ((TER × Bool) × TxQ A R × V) := do
  let r ← q.multiTxn env setup view tx paid replaced
  match r.1 with
  | .inl ter => return ((ter, false), r.2, view)
  | .inr multi =>
    let pc := env.preclaim pf ((multi.map Prod.snd).getD view)
    if env.likelyToClaimFee pc = false then return ((env.preclaimTer pc, false), r.2, view)
    else do
      env.assert (baseLevel ≤ paid) "feeLevelPaid >= baseLevel"
      r.2.preclaimed env setup view tx flags pf paid required baseFee replaced consequences multi

/-- `TxQ::apply`: the result, the queue and the open view. -/
def apply (q : TxQ A R) (view : V) (tx : STTx A) (flags : ApplyFlags) : Except String ((TER × Bool) × TxQ A R × V) :=
  let pf := env.preflightResult (env.rules view) tx flags
  if pf.ter ≠ tesSUCCESS then .ok ((pf.ter, false), q, view)
  else do
    let baseFee := env.calculateBaseFee view tx
    let paid := getFeeLevelPaid tx baseFee setup
    let required ← q.requiredFeeLevel env view flags
    let r ← q.replacement env setup tx pf paid required
    match r.1 with
    | .inl ter => return ((ter, false), r.2, view)
    | .inr existing => r.2.checked env setup view tx flags pf paid required baseFee existing.1 existing.2

end TxQ

end ScfChain.App
