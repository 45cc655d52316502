import Mathlib
import ScfChain.App.TxQ.Apply

/-!
# `TxQ::accept` and `TxQ::processClosedLedger`

Queued transactions move to a new open ledger from the highest fee level to the lowest. The iterator goes back to a
transaction that was skipped when the one before it leaves the queue.
-/

namespace ScfChain.App

open Data

variable {A R V C : Type} [DecidableEq A] [DecidableEq R]

/-- A transaction of the account is dropped, for too many retries or for its failure. -/
def TxQAccount.penalise (acc : TxQAccount A R) (retries : Bool) : TxQAccount A R :=
  if retries then { acc with retryPenalty := true } else { acc with dropPenalty := true }

namespace TxQ

variable (env : Transactors A R V C) (setup : Setup)

/-- `eraseAndAdvance`: the candidate leaves, and the iterator goes to the account's next transaction, if that was skipped, or
to the next by fee. -/
def eraseAndAdvance (q : TxQ A R) (p : A × ℕ) : Except String (Option (A × ℕ) × TxQ A R) :=
  match q.byAccount_ p.1 with
  | none => .error "byAccount_.at"
  | some acc => do
    env.assert (acc.transactions.head?.map (fun m => m.sequence) = some p.2)
      "accountIter == txQAccount.transactions.begin()"
    match acc.find p.2 with
    | none => .error "accountIter != txQAccount.transactions.end()"
    | some _ =>
      let feeNext := after q.byFee_ p
      let accountNext := (acc.transactions.dropWhile (·.sequence ≤ p.2)).head?
      let useAccountNext : Bool := match accountNext with
        | none => false
        | some m => m.sequence = p.2 + 1 ∧ ∀ f ∈ feeNext, q.feeLevel f < m.feeLevel
      let q := q.unlink p.1 [p.2]
      if useAccountNext then return (some (p.1, p.2 + 1), q) else return (feeNext, q)

/-- The loop of `accept`: the iterator, the queue, the open view, and whether that has changed. -/
structure Loop (A R V : Type) where
  candidate : Option (A × ℕ)
  queue : TxQ A R
  view : V
  ledgerChanged : Bool

/-- A transaction that has failed stays in the queue. If the queue is nearly full, the last one of an account that has been
dropped from before leaves. -/
def leaveInQueue (q : TxQ A R) (p : A × ℕ) (acc : TxQAccount A R) (result : TER) : Except String (TxQ A R) :=
  let q := q.modifyTx p fun c =>
    { c with
      retriesRemaining := if acc.retryPenalty ∧ 2 < c.retriesRemaining then 1 else c.retriesRemaining - 1
      lastResult := some result }
  if acc.dropPenalty ∧ 1 < acc.transactions.length ∧ q.isFull 95 then
    match acc.transactions.getLast? with
    | none => .error "transactions.rbegin"
    | some dropped => do
      env.assert (dropped.txn.account = p.1) "dropRIter->second.account == candidateIter->account"
      env.assert ((dropped.txn.account, dropped.sequence) ≠ p) "endIter != candidateIter"
      q.erase env (dropped.txn.account, dropped.sequence)
  else .ok q

/-- The candidate, which is its account's first and pays enough, is tried. -/
def tryCandidate (s : Loop A R V) (p : A × ℕ) (acc : TxQAccount A R) (m : MaybeTx A R) :
    Except String (Loop A R V) :=
  let result := m.apply env s.view
  let q := s.queue.modifyTx p fun c => { c with pfresult := result.2.2 }
  if result.1.2 then do
    let r ← q.eraseAndAdvance env p
    return ⟨r.1, r.2, result.2.1, true⟩
  else if isTefFailure result.1.1 ∨ isTemMalformed result.1.1 ∨ m.retriesRemaining ≤ 0 then do
    let q := q.modifyAccount p.1 (·.penalise (m.retriesRemaining ≤ 0))
    let r ← q.eraseAndAdvance env p
    return ⟨r.1, r.2, result.2.1, s.ledgerChanged⟩
  else do
    let q ← q.leaveInQueue env p acc result.1.1
    return ⟨after q.byFee_ p, q, result.2.1, s.ledgerChanged⟩

/-- One turn of the loop. -/
def acceptStep (s : Loop A R V) (p : A × ℕ) : Except String (Loop A R V) :=
  match s.queue.byAccount_ p.1 with
  | none => .error "byAccount_.at"
  | some acc =>
    match acc.transactions.head?, acc.find p.2 with
    | some first, some m =>
      if first.sequence < p.2 then .ok { s with candidate := after s.queue.byFee_ p }
      else do
        let required ← s.queue.feeMetrics_.scaleFeeLevel (env.txCount s.view)
        if required ≤ m.feeLevel then tryCandidate env s p acc m
        else return { s with candidate := none }
    | _, _ => .error "candidateIter"

/-- The loop, for a number of turns. -/
def acceptLoop : ℕ → Loop A R V → Except String (Loop A R V)
  | fuel, s =>
    match s.candidate, fuel with
    | none, _ => .ok s
    | some _, 0 => .error "turns"
    | some p, fuel + 1 => do
      let s' ← acceptStep env s p
      acceptLoop fuel s'

/-- `TxQ::accept`: whether the ledger has changed, the queue and the open view. -/
def accept (q : TxQ A R) (view : V) : Except String (Bool × TxQ A R × V) := do
  let s ← acceptLoop env (q.byFee_.length * q.byFee_.length + q.byFee_.length + 1) ⟨q.byFee_.head?, q, view, false⟩
  return (s.ledgerChanged, s.queue, s.view)

/-! ## A closed ledger -/

/-- A transaction whose last ledger has gone by leaves the queue. -/
def expire (ledgerSeq : ℕ) (q : TxQ A R) (p : A × ℕ) : Except String (TxQ A R) :=
  match q.deref p with
  | none => .error "candidateIter"
  | some m =>
    if ∃ lastValid ∈ m.txn.lastLedgerSequence, lastValid ≤ ledgerSeq then
      (q.modifyAccount p.1 (·.penalise false)).erase env p
    else .ok q

/-- Accounts without transactions are forgotten. -/
def dropEmpty (q : TxQ A R) : TxQ A R :=
  { q with byAccount_ := fun a => (q.byAccount_ a).filter fun acc => !acc.transactions.isEmpty }

/-- `TxQ::processClosedLedger`. -/
def processClosedLedger (q : TxQ A R) (view : V) (timeLeap : Bool) : Except String (TxQ A R) := do
  let feeLevels := (env.txs view).map fun tx => getFeeLevelPaid tx (env.calculateBaseFee view tx) setup
  let metrics ← q.feeMetrics_.update setup feeLevels timeLeap
  let maxSize := if timeLeap then q.maxSize_ else some (max (metrics.txnsExpected_ * setup.ledgersInQueue) setup.queueSizeMin)
  let q : TxQ A R := { q with feeMetrics_ := metrics, maxSize_ := maxSize }
  let q ← q.byFee_.foldlM (expire env (env.seq view)) q
  return q.dropEmpty

/-! ## Runs -/

/-- A call, with what the transactors do in it. -/
inductive Event (A R V C : Type)
  | apply (env : Transactors A R V C) (view : V) (tx : STTx A) (flags : ApplyFlags)
  | accept (env : Transactors A R V C) (view : V)
  | processClosedLedger (env : Transactors A R V C) (view : V) (timeLeap : Bool)

def step (q : TxQ A R) : Event A R V C → Except String (TxQ A R)
  | .apply env view tx flags => do
    let r ← q.apply env setup view tx flags
    return r.2.1
  | .accept env view => do
    let r ← q.accept env view
    return r.2.1
  | .processClosedLedger env view timeLeap => q.processClosedLedger env setup view timeLeap

/-- A run of calls. -/
def run (q : TxQ A R) (events : List (Event A R V C)) : Except String (TxQ A R) := events.foldlM (step setup) q

end TxQ

end ScfChain.App
