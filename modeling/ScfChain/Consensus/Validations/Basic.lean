import ScfChain.Consensus.Trie.Basic

/-!
# `Validations`

The validations a node keeps, from `Validations.h`: the most recent one of every validator (`current`), those of
recent ledgers (`byLedger`), and the trie that counts the last acquired ledger of every trusted validator
(`lastLedger`, with the validated ledgers still to be acquired in `acquiring`).

* Hash maps are `AList`s. They are iterated in an order the source does not fix, so every iteration asks `Env.order`
  for one; `Env.acquire` answers the calls of `adaptor.acquire`, each call on its own (`tick` numbers them).
* The readings of the two clocks are arguments of the operations.
* `Op` and `step` collect the public operations, `run` is a sequence of them.
-/

namespace ScfChain.Consensus

/-- `ValidationParms`, in seconds. -/
structure ValidationParms where
  currentWall : ℤ := 300
  currentLocal : ℤ := 180
  currentEarly : ℤ := 180
  setExpires : ℤ := 600

/-- The largest sequence number a validator used, and when (in nanoseconds of the steady clock). -/
structure SeqEnforcer where
  seq : ℕ := 0
  when_ : ℤ := 0

/-- Try advancing the largest observed sequence number. -/
def SeqEnforcer.advance (e : SeqEnforcer) (now : ℤ) (s : ℕ) (p : ValidationParms) : Bool × SeqEnforcer :=
  let e := if e.when_ + p.setExpires * 1000000000 < now then { e with seq := 0 } else e
  if s ≤ e.seq then (false, e) else (true, { seq := s, when_ := now })

/-- `NetClock` counts seconds in 32 bits; the arithmetic of `isCurrent` is done in 64 and cannot overflow. -/
def isCurrent (p : ValidationParms) (now signTime seenTime : UInt32) : Bool :=
  decide ((now.toNat : ℤ) - p.currentEarly < signTime.toNat) &&
    decide ((signTime.toNat : ℤ) < now.toNat + p.currentWall) &&
    (seenTime == 0 || decide ((seenTime.toNat : ℤ) < now.toNat + p.currentLocal))

structure Validation (ID : Type) where
  ledgerID : ID
  seq : ℕ
  signTime : UInt32
  seenTime : UInt32
  trusted : Bool

inductive ValStatus
  | current
  | stale
  | badSeq
  deriving DecidableEq

/-- What the operations take from outside: the answers of `adaptor.acquire`, which has the ledger asked for or not,
and the order in which a hash map is iterated. -/
structure Env (L : Type) {ID : Type} [LinearOrder ID] [HistoryLedger L ID] where
  acquire : ℕ → ID → Option L
  acquire_id : ∀ k x l, acquire k x = some l → idOf l = x
  order : (α : Type) → ℕ → List α → List α
  order_perm : ∀ α k l, (order α k l).Perm l

/-- The validations for one ledger, with the time they were added. -/
structure AgedSet (N ID : Type) where
  ledgerID : ID
  when_ : ℤ
  vals : AList fun _ : N => Validation ID

structure Validations (N L : Type) {ID : Type} [LinearOrder ID] [HistoryLedger L ID] where
  current : AList fun _ : N => Validation ID
  localSeqEnforcer : SeqEnforcer
  seqEnforcers : AList fun _ : N => SeqEnforcer
  /-- In chronological order. -/
  byLedger : List (AgedSet N ID)
  trie : LedgerTrie L
  lastLedger : AList fun _ : N => L
  acquiring : AList fun _ : ℕ × ID => List N
  /-- The validations handed to `adaptor.onStale`. -/
  onStale : List (Validation ID)
  tick : ℕ

namespace Validations

variable {N L ID : Type} [DecidableEq N] [LinearOrder ID] [HistoryLedger L ID]

def new : Validations N L where
  current := ∅
  localSeqEnforcer := {}
  seqEnforcers := ∅
  byLedger := []
  trie := LedgerTrie.new
  lastLedger := ∅
  acquiring := ∅
  onStale := []
  tick := 0

variable (env : Env L) (p : ValidationParms) (s : Validations N L)

/-! ## The trie -/

/-- Take a node out of the set of an acquiring ledger, and the set out of the map when it is empty. -/
def dropAcquiring (key : ℕ × ID) (n : N) : Validations N L :=
  match s.acquiring.lookup key with
  | some nodes =>
    let nodes' := nodes.filter (· ≠ n)
    { s with acquiring := if nodes' = [] then s.acquiring.erase key else s.acquiring.insert key nodes' }
  | none => s

/-- Remove support of a validated ledger. -/
def removeTrie (n : N) (val : Validation ID) : Validations N L :=
  let s := s.dropAcquiring (val.seq, val.ledgerID) n
  match s.lastLedger.lookup n with
  | some last =>
    if idOf last = val.ledgerID then
      { s with trie := (s.trie.remove last 1).2, lastLedger := s.lastLedger.erase n }
    else s
  | none => s

/-- `updateTrie` for an acquired ledger. -/
def updateLedger (ledger : L) (n : N) : Validations N L :=
  let trie :=
    match s.lastLedger.lookup n with
    | some last => (s.trie.remove last 1).2
    | none => s.trie
  { s with trie := trie.insert ledger 1, lastLedger := s.lastLedger.insert n ledger }

/-- One round of `checkAcquired`. -/
def checkEntry (s : Validations N L) (key : ℕ × ID) (nodes : List N) : Validations N L :=
  match env.acquire s.tick key.2 with
  | some ledger =>
    let s := (env.order N s.tick nodes).foldl (fun s n => s.updateLedger ledger n) { s with tick := s.tick + 1 }
    { s with acquiring := s.acquiring.erase key }
  | none => { s with tick := s.tick + 1 }

/-- Check if any pending acquire ledger requests are complete. -/
def checkAcquired : Validations N L :=
  (env.order _ s.tick s.acquiring.entries).foldl (fun s e => checkEntry env s e.1 e.2)
    { s with tick := s.tick + 1 }

/-- Clear any prior acquiring ledger for a node. -/
def clearPrior (n : N) : Option (ℕ × ID) → Validations N L
  | some key => s.dropAcquiring key n
  | none => s

/-- `updateTrie` for a validation: process a new trusted validation. -/
def updateTrie (n : N) (val : Validation ID) (prior : Option (ℕ × ID)) : Validations N L :=
  let s := (s.clearPrior n prior).checkAcquired env
  match s.acquiring.lookup (val.seq, val.ledgerID) with
  | some nodes => { s with acquiring := s.acquiring.insert (val.seq, val.ledgerID) (nodes.insert n) }
  | none =>
    match env.acquire s.tick val.ledgerID with
    | some ledger => updateLedger { s with tick := s.tick + 1 } ledger n
    | none =>
      { s with tick := s.tick + 1, acquiring := s.acquiring.insert (val.seq, val.ledgerID) [n] }

/-- One round of `current`: flush the validation if it is stale. -/
def flushEntry (now : UInt32) (s : Validations N L) (n : N) (val : Validation ID) : Validations N L :=
  if isCurrent p now val.signTime val.seenTime then s
  else
    let s := s.removeTrie n val
    { s with current := s.current.erase n, onStale := s.onStale ++ [val] }

/-- `current`: iterate current validations, flushing any which are stale. -/
def flushStale (now : UInt32) : Validations N L :=
  (env.order _ s.tick s.current.entries).foldl (fun s e => flushEntry p now s e.1 e.2)
    { s with tick := s.tick + 1 }

/-- What `withTrie` does before it uses the trie. -/
def prepareTrie (now : UInt32) : Validations N L := (s.flushStale env p now).checkAcquired env

/-! ## The public operations -/

def canValidateSeq (now : ℤ) (sq : ℕ) : Bool × Validations N L :=
  let (ok, e) := s.localSeqEnforcer.advance now sq p
  (ok, { s with localSeqEnforcer := e })

/-- `byLedger_[ledgerID]`, with the validation of the node added or replaced. -/
def addByLedger (steady : ℤ) (n : N) (val : Validation ID) : List (AgedSet N ID) → List (AgedSet N ID)
  | [] => [⟨val.ledgerID, steady, (∅ : AList fun _ : N => Validation ID).insert n val⟩]
  | a :: rest =>
    if a.ledgerID = val.ledgerID then { a with vals := a.vals.insert n val } :: rest
    else a :: addByLedger steady n val rest

/-- `add`, with the readings of the network clock and of the steady clock. -/
def add (now : UInt32) (steady : ℤ) (n : N) (val : Validation ID) : ValStatus × Validations N L :=
  if !isCurrent p now val.signTime val.seenTime then (.stale, s)
  else
    let (ok, enforcer) := ((s.seqEnforcers.lookup n).getD {}).advance steady val.seq p
    let s := { s with seqEnforcers := s.seqEnforcers.insert n enforcer }
    if !ok then (.badSeq, s)
    else
      let s := { s with byLedger := addByLedger steady n val s.byLedger }
      match s.current.lookup n with
      | some old =>
        -- replace existing only if this one is newer
        if old.signTime < val.signTime then
          let s := { s with current := s.current.insert n val, onStale := s.onStale ++ [old] }
          (.current, if val.trusted then s.updateTrie env n val (some (old.seq, old.ledgerID)) else s)
        else (.stale, s)
      | none =>
        let s := { s with current := s.current.insert n val }
        (.current, if val.trusted then s.updateTrie env n val none else s)

/-- Remove validation sets that were added more than `setExpires` ago. -/
def expire (steady : ℤ) : Validations N L :=
  { s with byLedger := s.byLedger.dropWhile fun a => decide (a.when_ ≤ steady - p.setExpires * 1000000000) }

/-- One round of the first loop of `trustChanged`. -/
def trustEntry (added removed : List N) (s : Validations N L) (n : N) (val : Validation ID) : Validations N L :=
  if n ∈ added then
    let val := { val with trusted := true }
    updateTrie env { s with current := s.current.insert n val } n val none
  else if n ∈ removed then
    let val := { val with trusted := false }
    removeTrie { s with current := s.current.insert n val } n val
  else s

/-- The second loop of `trustChanged`, for one validation. -/
def retrust (added removed : List N) (n : N) (val : Validation ID) : Validation ID :=
  if n ∈ added then { val with trusted := true }
  else if n ∈ removed then { val with trusted := false }
  else val

def trustChanged (added removed : List N) : Validations N L :=
  let s := (env.order _ s.tick s.current.entries).foldl
    (fun s e => trustEntry env added removed s e.1 e.2) { s with tick := s.tick + 1 }
  { s with
    byLedger := s.byLedger.map fun a =>
      { a with vals := a.vals.entries.foldl (fun vs e => vs.insert e.1 (retrust added removed e.1 e.2)) a.vals } }

/-- The acquiring ledger most nodes validate, ties broken by its ID. -/
def mostAcquiring : List (Sigma fun _ : ℕ × ID => List N) → Option (ℕ × ID)
  | [] => none
  | e :: rest =>
    some (rest.foldl (fun best e =>
      if best.2.length < e.2.length ∨ best.2.length = e.2.length ∧ best.1.2 < e.1.2 then e else best) e).1

/-- The sequence number and ID of the preferred working ledger. -/
def getPreferred (now : UInt32) (curr : L) : Option (ℕ × ID) × Validations N L :=
  let s := s.prepareTrie env p now
  match s.trie.getPreferred s.localSeqEnforcer.seq with
  | none =>
    -- no trusted validations: fall back to majority over acquiring ledgers
    (mostAcquiring (env.order _ s.tick s.acquiring.entries), { s with tick := s.tick + 1 })
  | some tip =>
    -- if we are the parent of the preferred ledger, stick with our current ledger
    if tip.seq = seq curr + 1 ∧ ancestor tip.ledger (seq curr) = idOf curr then (some (seq curr, idOf curr), s)
    else if seq curr < tip.seq then (some (tip.seq, tip.id), s)
    else if ancestor curr tip.seq ≠ tip.id then (some (tip.seq, tip.id), s)
    else (some (seq curr, idOf curr), s)

/-- The number of current trusted validators working on a ledger after the specified one. -/
def getNodesAfter (now : UInt32) (ledger : L) (ledgerID : ID) : ℕ × Validations N L :=
  if idOf ledger = ledgerID then
    let s := s.prepareTrie env p now
    ((s.trie.branchSupport ledger - s.trie.tipSupport ledger).toNat, s)
  else
    (s.lastLedger.entries.countP fun e => decide (0 < seq e.2) && ancestor e.2 (seq e.2 - 1) == ledgerID, s)

/-- The node IDs of the current validations. -/
def getCurrentNodeIDs (now : UInt32) : List N × Validations N L :=
  let s := s.flushStale env p now
  (s.current.keys, s)

/-! ## Runs -/

/-- A call of a public operation, with the clock readings it makes. -/
inductive Op (N L ID : Type)
  | canValidateSeq (steady : ℤ) (sq : ℕ)
  | add (now : UInt32) (steady : ℤ) (n : N) (val : Validation ID)
  | expire (steady : ℤ)
  | trustChanged (added removed : List N)
  | getPreferred (now : UInt32) (curr : L)
  | getNodesAfter (now : UInt32) (ledger : L) (ledgerID : ID)
  | getCurrentNodeIDs (now : UInt32)

def step : Op N L ID → Validations N L
  | .canValidateSeq steady sq => (s.canValidateSeq p steady sq).2
  | .add now steady n val => (s.add env p now steady n val).2
  | .expire steady => s.expire p steady
  | .trustChanged added removed => s.trustChanged env added removed
  | .getPreferred now curr => (s.getPreferred env p now curr).2
  | .getNodesAfter now ledger ledgerID => (s.getNodesAfter env p now ledger ledgerID).2
  | .getCurrentNodeIDs now => (s.getCurrentNodeIDs env p now).2

def run (ops : List (Op N L ID)) : Validations N L := ops.foldl (fun s op => s.step env p op) new

end Validations

end ScfChain.Consensus
