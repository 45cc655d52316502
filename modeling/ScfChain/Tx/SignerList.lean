import ScfChain.Tx.Transactor
import Mathlib.Data.List.Sort

/-!
# Signer lists

`SetSignerList` sets or destroys the list of the accounts that sign for an account. The entries of the transaction are
sorted and checked in `preflight`; the list that is written to the ledger is strictly sorted by account (`WellformedSigners`),
so that no account is on it twice.

* `deserialize` reads the entries, of a transaction or of the ledger.
-/

set_option linter.unusedSectionVars false

namespace ScfChain.Tx

open Std Data Ledger TER

def minMultiSigners : ℕ := 1
def maxMultiSigners : ℕ := 8

def lsfDisableMaster : BitVec 32 := 0x00100000#32
def lsfOneOwnerCount : BitVec 32 := 0x00010000#32

/-- An object of the array `SignerEntries`; `isSignerEntry` says that `SignerEntry` is its name. -/
structure SignerEntryObject where
  isSignerEntry : Bool
  entry : SignerEntry

/-- `SignerEntries::deserialize`, of the array if there is one. -/
def deserialize : Option (List SignerEntryObject) → List SignerEntry × TER
  | none => ([], temMALFORMED)
  | some sEntries =>
    (sEntries.takeWhile SignerEntryObject.isSignerEntry |>.map SignerEntryObject.entry,
      if sEntries.all SignerEntryObject.isSignerEntry then tesSUCCESS else temMALFORMED)

/-- `SetSignerList`, the transaction. -/
structure SetSignerList where
  tx : STTx
  signerQuorum : BitVec 32
  signerEntries : Option (List SignerEntryObject)

namespace SetSignerList

inductive Operation
  | unknown
  | set
  | destroy
  deriving DecidableEq

/-- The order that `std::sort` sorts by. -/
def BySigner (lhs rhs : SignerEntry) : Prop := lhs.account ≤ rhs.account

instance : DecidableRel BySigner := fun lhs rhs => Nat.decLe lhs.account rhs.account

instance : Std.Total BySigner := ⟨fun lhs rhs => Nat.le_total lhs.account rhs.account⟩

instance : IsTrans SignerEntry BySigner := ⟨fun _ _ _ => Nat.le_trans⟩

variable (t : SetSignerList)

/-- `determineOperation`: the result, the quorum, the signers and the operation. -/
def determineOperation : TER × BitVec 32 × List SignerEntry × Operation :=
  if t.signerQuorum ≠ 0 ∧ t.signerEntries.isSome then
    let signers := deserialize t.signerEntries
    if signers.2 ≠ tesSUCCESS then (signers.2, t.signerQuorum, [], .unknown)
    else (tesSUCCESS, t.signerQuorum, signers.1.insertionSort BySigner, .set)
  else if t.signerQuorum = 0 ∧ ¬ t.signerEntries.isSome then (tesSUCCESS, t.signerQuorum, [], .destroy)
  else (tesSUCCESS, t.signerQuorum, [], .unknown)

/-- `quorum_`, `signers_` and `do_`, as `preCompute` sets them. -/
def quorum_ : BitVec 32 := t.determineOperation.2.1
def signers_ : List SignerEntry := t.determineOperation.2.2.1
def do_ : Operation := t.determineOperation.2.2.2

/-- `std::adjacent_find` finds two neighbours with one account. -/
def hasDuplicate : List SignerEntry → Bool
  | e :: e' :: signers => e.account = e'.account ∨ hasDuplicate (e' :: signers)
  | _ => false

/-- The loop over the signers, with `allSignersWeight`. -/
def checkSigners (account : AccountID) (allSignersWeight : BitVec 64) : List SignerEntry → Except TER (BitVec 64)
  | [] => .ok allSignersWeight
  | signer :: signers =>
    if signer.weight = 0 then .error temBAD_WEIGHT
    else if signer.account = account then .error temBAD_SIGNER
    else checkSigners account (allSignersWeight + signer.weight.setWidth 64) signers

def validateQuorumAndSignerEntries (quorum : BitVec 32) (signers : List SignerEntry) (account : AccountID) : TER :=
  if signers.length < minMultiSigners ∨ maxMultiSigners < signers.length then temMALFORMED
  else if hasDuplicate signers then temBAD_SIGNER
  else
    match checkSigners account 0 signers with
    | .error ter => ter
    | .ok allSignersWeight =>
      if quorum = 0 ∨ allSignersWeight < quorum.setWidth 64 then temBAD_QUORUM else tesSUCCESS

section

variable {K : Type} (crypto : Crypto K) (ctx : Context)

def preflight : TER :=
  if ¬ ctx.rules .multiSign then temDISABLED
  else if preflight1 crypto t.tx ≠ tesSUCCESS then preflight1 crypto t.tx
  else if t.determineOperation.1 ≠ tesSUCCESS then t.determineOperation.1
  else if t.do_ = .unknown then temMALFORMED
  else if t.do_ = .set ∧ validateQuorumAndSignerEntries t.quorum_ t.signers_ t.tx.account ≠ tesSUCCESS then
    validateQuorumAndSignerEntries t.quorum_ t.signers_ t.tx.account
  else preflight2 crypto t.tx

end

/-! ## The ledger -/

/-- The list as `writeSignersToSLE` makes it. -/
def signerList (flags : BitVec 32) (ownerNode : ℕ) : SignerList := ⟨t.quorum_, t.signers_, flags, ownerNode⟩

end SetSignerList

/-! ## The lists that are accepted -/

/-- The list is strictly sorted by account, and not empty. -/
structure WellformedSigners (list : SignerList) : Prop where
  sorted : list.signerEntries.Pairwise fun e e' => e.account < e'.account
  min : minMultiSigners ≤ list.signerEntries.length
  max : list.signerEntries.length ≤ maxMultiSigners

namespace SetSignerList

variable {t : SetSignerList} {K : Type} {crypto : Crypto K} {ctx : Context}

theorem pairwise_lt_of_sorted {l : List SignerEntry} (hle : l.Pairwise fun e e' => e.account ≤ e'.account)
    (hdup : hasDuplicate l = false) : l.Pairwise fun e e' => e.account < e'.account := by
  rw [← List.isChain_iff_pairwise]
  induction l with
  | nil => exact .nil
  | cons e l ih =>
    cases l with
    | nil => exact .singleton e
    | cons e' l =>
      simp only [hasDuplicate, decide_eq_false_iff_not, not_or] at hdup
      have hlt : e.account < e'.account := Nat.lt_of_le_of_ne (List.rel_of_pairwise_cons hle List.mem_cons_self) hdup.1
      exact .cons_cons hlt (ih hle.of_cons (Bool.eq_false_iff.mpr hdup.2))

theorem validate_wellformed {quorum : BitVec 32} {signers : List SignerEntry} {account : AccountID}
    (hle : signers.Pairwise fun e e' => e.account ≤ e'.account)
    (h : validateQuorumAndSignerEntries quorum signers account = tesSUCCESS) :
    signers.Pairwise (fun e e' => e.account < e'.account) ∧ minMultiSigners ≤ signers.length ∧
      signers.length ≤ maxMultiSigners := by
  rw [validateQuorumAndSignerEntries] at h
  split_ifs at h with hlength hdup
  · cases h
  · cases h
  rw [not_or, Nat.not_lt, Nat.not_lt] at hlength
  exact ⟨pairwise_lt_of_sorted hle (Bool.eq_false_iff.mpr hdup), hlength⟩

theorem signers_sorted (t : SetSignerList) : t.signers_.Pairwise fun e e' => e.account ≤ e'.account := by
  rw [signers_, determineOperation]
  dsimp only
  split_ifs
  · exact .nil
  · exact List.pairwise_insertionSort BySigner _
  · exact .nil
  · exact .nil

theorem signerList_wellformed (h : t.preflight crypto ctx = tesSUCCESS) (hset : t.do_ = .set) (flags : BitVec 32)
    (ownerNode : ℕ) : WellformedSigners (t.signerList flags ownerNode) := by
  have hvalid : validateQuorumAndSignerEntries t.quorum_ t.signers_ t.tx.account = tesSUCCESS := by
    rw [preflight] at h
    split_ifs at h with _ h₁ hop _ hvalidate
    · exact absurd h h₁
    · exact absurd h hop
    · cases h
    · exact h
    · by_contra hne
      exact hvalidate ⟨hset, hne⟩
    · cases h
  obtain ⟨hsorted, hmin, hmax⟩ := validate_wellformed t.signers_sorted hvalid
  exact ⟨hsorted, hmin, hmax⟩

end SetSignerList

end ScfChain.Tx
