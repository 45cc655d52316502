import ScfChain.Ledger.Directory.Basic

/-!
# Ledger objects

The objects of a ledger other than directory pages, and what code that is given an `ApplyView` does with them.

* `Body` is the object, `Object` adds `PreviousTxnID` and `PreviousTxnLgrSeq`, for the types that have them.
* `Kind` is one type of object: how to find it in a `Body` and to make a `Body` of it. `peekAs`, `updateAs` and `insertAs`
  are `peek`, a change with `update`, and `insert` of an object of that type. As with pages, an object that was peeked
  is named by its key, so that two pointers to one object are one name.
* A null pointer that is followed ends the program; it is an error, as a `LogicError` is.
* `Amt` are the amounts of issued currencies. Amounts of SFC are drops, in `ℤ`.
-/

set_option linter.unusedSectionVars false

namespace ScfChain.Ledger

open Std Data

abbrev AccountID := ℕ

/-- `ltACCOUNT_ROOT`. -/
structure AccountRoot where
  account : AccountID
  balance : ℤ
  sequence : ℕ
  ownerCount : ℕ
  flags : BitVec 32
  accountTxnID : Option ℕ
  regularKey : Option AccountID
  deriving DecidableEq

/-- `ltOFFER`. -/
structure Offer (K Amt : Type) where
  account : AccountID
  takerPays : Amt
  bookDirectory : K
  bookNode : ℕ
  ownerNode : ℕ
  deriving DecidableEq

/-- `ltESCROW`. -/
structure Escrow where
  account : AccountID
  destination : AccountID
  amount : ℤ
  condition : Option ℕ
  cancelAfter : Option ℕ
  finishAfter : Option ℕ
  sourceTag : Option ℕ
  destinationTag : Option ℕ
  ownerNode : ℕ
  destinationNode : Option ℕ
  deriving DecidableEq

/-- `ltPAYCHAN`. -/
structure PayChan where
  account : AccountID
  destination : AccountID
  amount : ℤ
  balance : ℤ
  settleDelay : ℕ
  publicKey : ℕ
  expiration : Option ℕ
  cancelAfter : Option ℕ
  sourceTag : Option ℕ
  destinationTag : Option ℕ
  ownerNode : ℕ
  deriving DecidableEq

/-- `ltCHECK`. -/
structure Check (Amt : Type) where
  account : AccountID
  destination : AccountID
  sendMax : Amt
  expiration : Option ℕ
  destinationTag : Option ℕ
  ownerNode : ℕ
  destinationNode : ℕ
  deriving DecidableEq

/-- One side of a trust line. -/
structure LineSide (Amt : Type) where
  account : AccountID
  limit : Amt
  node : ℕ
  qualityIn : ℕ
  qualityOut : ℕ
  reserve : Bool
  noRipple : Bool
  freeze : Bool
  auth : Bool
  deriving DecidableEq

/-- `ltSUPPLYFINANCECHAIN_STATE`: a trust line. `balance` is that of the low account. -/
structure Line (Amt : Type) where
  balance : Amt
  low : LineSide Amt
  high : LineSide Amt
  deriving DecidableEq

/-- `SignerEntries::SignerEntry`. -/
structure SignerEntry where
  account : AccountID
  weight : BitVec 16
  deriving DecidableEq

/-- `ltSIGNER_LIST`. -/
structure SignerList where
  signerQuorum : BitVec 32
  signerEntries : List SignerEntry
  flags : BitVec 32
  ownerNode : ℕ
  deriving DecidableEq

/-- An object. `other` are the types that no modelled function looks into: `type` is `LedgerEntryType` and `account` the
field `Account`, if there is one. -/
inductive Body (K Amt : Type)
  | accountRoot (root : AccountRoot)
  | offer (offer : Offer K Amt)
  | escrow (escrow : Escrow)
  | payChan (payChan : PayChan)
  | check (check : Check Amt)
  | line (line : Line Amt)
  | signerList (list : SignerList)
  | other (type : ℕ) (account : Option AccountID)
  deriving DecidableEq

/-- An object with its `PreviousTxnID` and `PreviousTxnLgrSeq`. -/
structure Object (K Amt : Type) where
  body : Body K Amt
  previousTxn : Option (ℕ × ℕ)
  deriving DecidableEq

/-- A ledger entry. -/
abbrev Node (K Amt : Type) := SLE K (Object K Amt)

/-- The keys of `Indexes.cpp`. -/
structure Indexes (K : Type) where
  account : AccountID → K
  ownerDir : AccountID → K
  dirNode : K → ℕ → K
  escrow : AccountID → ℕ → K
  payChan : AccountID → AccountID → ℕ → K
  depositPreauth : AccountID → AccountID → K
  line : AccountID → AccountID → ℕ → K
  signers : AccountID → K

/-- Keys without collisions, with numbers for hashes. -/
def Indexes.numbers : Indexes ℕ where
  account a := 8 * a
  ownerDir a := 8 * a + 1
  dirNode d n := 8 * Nat.pair d n + 2
  escrow a n := 8 * Nat.pair a n + 3
  payChan a d n := 8 * Nat.pair (Nat.pair a d) n + 4
  depositPreauth a d := 8 * Nat.pair a d + 5
  line a d n := 8 * Nat.pair (Nat.pair a d) n + 6
  signers a := 8 * a + 7

/-! ## Kinds -/

section Kinds

variable {K Amt : Type}

/-- A type of objects. -/
structure Kind (K Amt α : Type) where
  get : Body K Amt → Option α
  put : α → Body K Amt
  get_put : ∀ a, get (put a) = some a
  put_get : ∀ {b a}, get b = some a → put a = b

def Kind.accountRoot : Kind K Amt AccountRoot where
  get := fun | .accountRoot root => some root | _ => none
  put := .accountRoot
  get_put _ := rfl
  put_get {b a} h := by cases b <;> simp_all

def Kind.line : Kind K Amt (Line Amt) where
  get := fun | .line line => some line | _ => none
  put := .line
  get_put _ := rfl
  put_get {b a} h := by cases b <;> simp_all

def Kind.signerList : Kind K Amt SignerList where
  get := fun | .signerList list => some list | _ => none
  put := .signerList
  get_put _ := rfl
  put_get {b a} h := by cases b <;> simp_all

namespace SLE

def body? : Node K Amt → Option (Body K Amt)
  | dirNode _ => none
  | other a => some a.body

def mapBody (f : Body K Amt → Body K Amt) : Node K Amt → Node K Amt
  | dirNode node => dirNode node
  | other a => other { a with body := f a.body }

end SLE

variable {α : Type} (kind : Kind K Amt α)

/-- The entry as an object of the type. -/
def Kind.of (sle : Node K Amt) : Option α := sle.body?.bind kind.get

/-- A change of the object of the type, if the entry is one. -/
def Kind.map (f : α → α) : Node K Amt → Node K Amt :=
  SLE.mapBody fun b => match kind.get b with
    | some a => kind.put (f a)
    | none => b

/-- The keylet of an object of the type. -/
def Kind.keylet (key : K) : Keylet K (Node K Amt) := ⟨key, fun sle => (kind.of sle).isSome⟩

end Kinds

section

variable {K Amt : Type} [Ord K] [TransOrd K] [LawfulEqOrd K] [DecidableEq K] {α : Type} (kind : Kind K Amt α)

def peekAs (key : K) : ApplyM K (Node K Amt) (Option α) := do
  return (← ApplyM.peek (kind.keylet key)).bind kind.of

def readAs (key : K) : ApplyM K (Node K Amt) (Option α) := do
  return (← ApplyM.read (kind.keylet key)).bind kind.of

/-- `peek` of an object whose pointer is then followed. -/
def demandAs (key : K) : ApplyM K (Node K Amt) α := do
  match ← peekAs kind key with
  | some a => return a
  | none => ApplyM.logicError "null pointer"

def updateAs (key : K) (f : α → α) : ApplyM K (Node K Amt) Unit := ApplyM.update key (kind.map f)

def insertAs (key : K) (a : α) : ApplyM K (Node K Amt) Unit :=
  ApplyM.insert key (.other { body := kind.put a, previousTxn := some (0, 0) })

/-! ## Owner counts -/

def confineOwnerCount (current : ℕ) (adjustment : ℤ) : ℕ :=
  let adjusted := ((current + adjustment) % 2 ^ 32).toNat
  if 0 < adjustment then
    if adjusted < current then 2 ^ 32 - 1 else adjusted
  else
    if current < adjusted then 0 else adjusted

end

end ScfChain.Ledger
