import ScfChain.Ledger.Object

/-!
# Transactions

The result codes, the rules and the header that a transaction is applied under, the common fields of a transaction, and
the checks of `preflight` that all types of transactions share.

* `Crypto` are the functions of the signature library.
-/

set_option linter.unusedSectionVars false

namespace ScfChain.Tx

open Std Data Ledger

/-! ## Results -/

/-- A result code. -/
structure TER where
  code : ℤ
  deriving DecidableEq

namespace TER

def telFAILED_PROCESSING : TER := ⟨-395⟩
def temMALFORMED : TER := ⟨-299⟩
def temBAD_FEE : TER := ⟨-295⟩
def temBAD_PATH : TER := ⟨-291⟩
def temBAD_PATH_LOOP : TER := ⟨-290⟩
def temBAD_SIGNATURE : TER := ⟨-282⟩
def temBAD_SRC_ACCOUNT : TER := ⟨-281⟩
def temINVALID : TER := ⟨-277⟩
def temINVALID_FLAG : TER := ⟨-276⟩
def temDISABLED : TER := ⟨-273⟩
def temBAD_SIGNER : TER := ⟨-272⟩
def temBAD_QUORUM : TER := ⟨-271⟩
def temBAD_WEIGHT : TER := ⟨-270⟩
def temUNKNOWN : TER := ⟨-265⟩
def tefALREADY : TER := ⟨-198⟩
def tefBAD_LEDGER : TER := ⟨-195⟩
def tefINTERNAL : TER := ⟨-192⟩
def tefMASTER_DISABLED : TER := ⟨-188⟩
def tefBAD_SIGNATURE : TER := ⟨-186⟩
def tefBAD_QUORUM : TER := ⟨-185⟩
def tefNOT_MULTI_SIGNING : TER := ⟨-184⟩
def terNO_ACCOUNT : TER := ⟨-96⟩
def tesSUCCESS : TER := ⟨0⟩
def tecDIR_FULL : TER := ⟨121⟩
def tecPATH_DRY : TER := ⟨128⟩
def tecNO_LINE : TER := ⟨135⟩
end TER

open TER

/-! ## Transactions and what they are applied to -/

/-- The amendments that modelled code asks for. -/
inductive Feature
  | depositAuth
  | depositPreauth
  | enforceInvariants
  | escrow
  | payChan
  | fix1523
  | fix1543
  | fix1571
  | sortedDirectories
  | cryptoConditionsSuite
  | multiSign
  | multiSignReserve
  deriving DecidableEq

structure Fees where
  reserve : ℕ
  increment : ℕ

/-- The rules and the header of the view, and `retry`, the flag `tapRETRY`. `minimumFee` is the fee due under the load of
the server. -/
structure Context where
  rules : Feature → Bool
  isOpen : Bool
  seq : ℕ
  parentCloseTime : ℕ
  fees : Fees
  retry : Bool
  minimumFee : ℤ
  txExists : ℕ → Bool

/-- The common fields of a transaction. `id` is its hash; `signingPubKey` is `none` if the field is empty. -/
structure STTx where
  account : AccountID
  fee : ℤ
  sequence : ℕ
  id : ℕ
  flags : BitVec 32
  accountTxnID : Option ℕ
  lastLedgerSequence : Option ℕ
  signingPubKey : Option ℕ
  deriving DecidableEq

def systemCurrencyStart : ℤ := 100000000000 * 1000000

def isLegalAmount (drops : ℤ) : Bool := drops ≤ systemCurrencyStart

abbrev PublicKey := ℕ
abbrev Signature := ℕ

/-- What is asked of the signature library: the signatures of claims, and of the transactions themselves (`preflight2`). -/
structure Crypto (K : Type) where
  publicKeyType : PublicKey → Bool
  verify : PublicKey → K × ℤ → Signature → Bool
  sigBad : STTx → Bool

section Preflight

variable {K : Type} (crypto : Crypto K) (ctx : Context)

/-- `preflight1`. -/
def preflight1 (tx : STTx) : TER :=
  if tx.id = 0 then temINVALID
  else if tx.account = 0 then temBAD_SRC_ACCOUNT
  else if tx.fee < 0 ∨ ¬ isLegalAmount tx.fee then temBAD_FEE
  else if ∃ spk ∈ tx.signingPubKey, ¬ crypto.publicKeyType spk then temBAD_SIGNATURE
  else tesSUCCESS

/-- `preflight2`. -/
def preflight2 (tx : STTx) : TER := if crypto.sigBad tx then temINVALID else tesSUCCESS

end Preflight

/-- A flag is set. -/
def hasFlag (flags flag : BitVec 32) : Bool := flags &&& flag ≠ 0#32

section

variable {K Amt : Type} [Ord K] [TransOrd K] [LawfulEqOrd K] [DecidableEq K]

/-- `read` of an object of a type. -/
def readKind {α : Type} (kind : Kind K Amt α) (v : View K (Node K Amt)) (key : K) : Option α :=
  (v.read (kind.keylet key)).bind kind.of

end

end ScfChain.Tx
