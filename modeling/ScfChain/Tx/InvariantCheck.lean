import Mathlib
import ScfChain.Data.Succeeds
import ScfChain.Protocol.Amount

/-!
# Invariant checkers

After a transaction, every ledger entry that it has changed is shown to every checker (`visitEntry`), in the order of the keys,
and then each of them gives its verdict (`finalize`). An exception in a checker counts as a failure.

* `Visit` : an entry before and after, and whether it is deleted;
* `Checker` : the state, the two functions; `verdict` over a list of visits;
* one `Checker` for each of the source's, with what it is to find in an entry (`Bad`, `Deleted`, …).
-/

namespace ScfChain.Tx

open Protocol Data

/-! ## Entries -/

/-- `LedgerEntryType`. -/
inductive LedgerEntryType
  | ltACCOUNT_ROOT
  | ltDIR_NODE
  | ltSUPPLYFINANCECHAIN_STATE
  | ltTICKET
  | ltSIGNER_LIST
  | ltOFFER
  | ltLEDGER_HASHES
  | ltAMENDMENTS
  | ltFEE_SETTINGS
  | ltESCROW
  | ltPAYCHAN
  | ltCHECK
  | ltDEPOSIT_PREAUTH
  /-- `ltANY`, `ltCHILD`, `ltINVALID`, `ltNICKNAME` and any other number. -/
  | other (code : ℤ)
  deriving DecidableEq

/-- A ledger entry, as far as the checkers read it. -/
inductive SLE
  | accountRoot (balance : STAmount)
  | payChan (amount balance : STAmount)
  | escrow (amount : STAmount)
  | offer (takerPays takerGets : STAmount)
  | trustLine (lowLimit highLimit : STAmount)
  | dirNode
  | ticket
  | signerList
  | ledgerHashes
  | amendments
  | feeSettings
  | check
  | depositPreauth
  | other (code : ℤ)
  deriving DecidableEq

def SLE.getType : SLE → LedgerEntryType
  | .accountRoot _ => .ltACCOUNT_ROOT
  | .payChan _ _ => .ltPAYCHAN
  | .escrow _ => .ltESCROW
  | .offer _ _ => .ltOFFER
  | .trustLine _ _ => .ltSUPPLYFINANCECHAIN_STATE
  | .dirNode => .ltDIR_NODE
  | .ticket => .ltTICKET
  | .signerList => .ltSIGNER_LIST
  | .ledgerHashes => .ltLEDGER_HASHES
  | .amendments => .ltAMENDMENTS
  | .feeSettings => .ltFEE_SETTINGS
  | .check => .ltCHECK
  | .depositPreauth => .ltDEPOSIT_PREAUTH
  | .other code => .other code

structure Visit where
  isDelete : Bool
  before : Option SLE
  after : Option SLE
  deriving DecidableEq

/-! ## Amounts -/

/-- `SYSTEM_CURRENCY_START`, in drops. -/
def SYSTEM_CURRENCY_START : ℤ := 100000000000 * 1000000

/-- `sfc ().drops ()` of a native amount, in 64 bits. -/
def nativeDrops (a : STAmount) : BitVec 64 := if a.mIsNegative then -a.mValue else a.mValue

/-- `sfc ().drops ()`. -/
def sfcDrops (a : STAmount) : Except String (BitVec 64) :=
  if a.mIsNative then .ok (nativeDrops a) else .error "Cannot return non-native STAmount as SFCAmount"

/-- `a < beast::zero`. -/
def isNegative (a : STAmount) : Bool := a.mValue ≠ 0 ∧ a.mIsNegative

/-- `(a - b).sfc ().drops ()`. A difference from zero is made canonical, a difference of issued amounts is not native. -/
def differenceDrops (a b : STAmount) : Except String (BitVec 64) :=
  if a.mIsNative ≠ b.mIsNative ∨ a.mIssue.currency ≠ b.mIssue.currency then
    .error "Can't add amounts that are't comparable!"
  else if a.mIsNative = false then .error "Cannot return non-native STAmount as SFCAmount"
  else if b.mValue ≠ 0 ∧ a.mValue = 0 ∧ cMaxNativeN < b.mValue then .error "Native currency amount out of range"
  else .ok (nativeDrops a - nativeDrops b)

/-! ## Checkers -/

structure Checker (σ : Type) where
  init : σ
  visitEntry : σ → Visit → Except String σ
  finalize : σ → Bool

/-- The entries are visited in order; an exception is a failure. -/
def Checker.verdict {σ : Type} (c : Checker σ) (visits : List Visit) : Bool :=
  match visits.foldlM c.visitEntry c.init with
  | .ok s => c.finalize s
  | .error _ => false

/-- The drops of an entry before the transaction. -/
def dropsBefore : SLE → Except String (BitVec 64)
  | .accountRoot balance => sfcDrops balance
  | .payChan amount balance => differenceDrops amount balance
  | .escrow amount => sfcDrops amount
  | _ => .ok 0

/-- The drops of an entry after it. The amounts of channels and escrows that are deleted have not been adjusted. -/
def dropsAfter (isDelete : Bool) : SLE → Except String (BitVec 64)
  | .accountRoot balance => sfcDrops balance
  | .payChan amount balance => if isDelete then .ok 0 else differenceDrops amount balance
  | .escrow amount => if isDelete then .ok 0 else sfcDrops amount
  | _ => .ok 0

/-- `SFCNotCreated`, for the fee that was charged. -/
def SFCNotCreated (fee : BitVec 64) : Checker (BitVec 64) where
  init := 0
  visitEntry := fun drops v => do
    let removed ← v.before.elim (.ok 0) dropsBefore
    let added ← v.after.elim (.ok 0) (dropsAfter v.isDelete)
    return drops - removed + added
  finalize := fun drops => ¬ 0 < drops.toInt ∧ -drops = fee

/-- A checker that looks for a bad entry, before or after. -/
def badEntries (isBad : SLE → Bool) : Checker Bool where
  init := false
  visitEntry := fun bad v => .ok (bad || v.before.elim false isBad || v.after.elim false isBad)
  finalize := fun bad => !bad

/-- An account's balance that is not SFC, is negative, or is more than there is. -/
def badBalance : SLE → Bool
  | .accountRoot balance =>
    balance.mIsNative = false ∨ SYSTEM_CURRENCY_START < (nativeDrops balance).toInt ∨ (nativeDrops balance).toInt < 0
  | _ => false

def SFCBalanceChecks : Checker Bool := badEntries badBalance

/-- An offer with a negative amount, or of SFC for SFC. -/
def badOffer : SLE → Bool
  | .offer pays gets => isNegative pays || isNegative gets || (pays.mIsNative && gets.mIsNative)
  | _ => false

def NoBadOffers : Checker Bool := badEntries badOffer

/-- An escrow of no SFC, or of all there is. -/
def badEscrow : SLE → Bool
  | .escrow amount =>
    amount.mIsNative = false ∨ (nativeDrops amount).toInt ≤ 0 ∨ SYSTEM_CURRENCY_START ≤ (nativeDrops amount).toInt
  | _ => false

def NoZeroEscrow : Checker Bool := badEntries badEscrow

/-- The entry was an account root, and is deleted. -/
def accountDeleted (v : Visit) : Bool := v.isDelete ∧ v.before.map SLE.getType = some .ltACCOUNT_ROOT

def AccountRootsNotDeleted : Checker Bool where
  init := false
  visitEntry := fun deleted v => .ok (if accountDeleted v then true else deleted)
  finalize := fun deleted => !deleted

/-- The type of the entry has changed. -/
def typeMismatch (v : Visit) : Bool :=
  match v.before, v.after with
  | some before, some after => before.getType ≠ after.getType
  | _, _ => false

/-- The entry has a type that no entry may have. -/
def invalidType (v : Visit) : Bool :=
  match v.after.map SLE.getType with
  | some (.other _) => true
  | _ => false

structure TypesSeen where
  typeMismatch_ : Bool
  invalidTypeAdded_ : Bool

def LedgerEntryTypesMatch : Checker TypesSeen where
  init := ⟨false, false⟩
  visitEntry := fun seen v =>
    .ok ⟨if typeMismatch v then true else seen.typeMismatch_, if invalidType v then true else seen.invalidTypeAdded_⟩
  finalize := fun seen => !seen.typeMismatch_ && !seen.invalidTypeAdded_

/-- `sfcIssue ()`. -/
def sfcIssue : Issue := ⟨0, 0⟩

/-- Of an entry that is a trust line after the transaction: is a limit in SFC? -/
def sfcLine (v : Visit) : Option Bool :=
  match v.after with
  | some (.trustLine lowLimit highLimit) => some (lowLimit.mIssue = sfcIssue ∨ highLimit.mIssue = sfcIssue)
  | _ => none

/-- `NoSFCTrustLines`. Each trust line that is visited overwrites what was found before. -/
def NoSFCTrustLines : Checker Bool where
  init := false
  visitEntry := fun found v => .ok ((sfcLine v).getD found)
  finalize := fun found => !found

/-! ## Verdicts -/

theorem Checker.verdict_eq {σ : Type} (c : Checker σ) {f : σ → Visit → σ} (hf : ∀ s v, c.visitEntry s v = .ok (f s v))
    (visits : List Visit) : c.verdict visits = c.finalize (visits.foldl f c.init) := by
  have hfold : ∀ s, visits.foldlM c.visitEntry s = .ok (visits.foldl f s) := by
    induction visits with
    | nil => intro s; rfl
    | cons v visits ih =>
      intro s
      rw [List.foldlM_cons, hf, ok_bind, ih, List.foldl_cons]
  unfold verdict
  rw [hfold]

theorem foldl_or (p : Visit → Bool) (visits : List Visit) (b : Bool) :
    visits.foldl (fun b v => b || p v) b = (b || visits.any p) := by
  induction visits generalizing b with
  | nil => simp
  | cons v visits ih => rw [List.foldl_cons, ih, List.any_cons, Bool.or_assoc]

/-- An entry that is bad before or after. -/
def seenIn (isBad : SLE → Bool) (v : Visit) : Bool := v.before.elim false isBad || v.after.elim false isBad

theorem verdict_badEntries (isBad : SLE → Bool) (visits : List Visit) :
    (badEntries isBad).verdict visits = !visits.any (seenIn isBad) := by
  rw [(badEntries isBad).verdict_eq (f := fun b v => b || seenIn isBad v) fun s v => by
    rw [seenIn, ← Bool.or_assoc]
    rfl]
  rw [foldl_or]
  rfl

variable (fee : BitVec 64) (visits : List Visit)

theorem verdict_AccountRootsNotDeleted :
    AccountRootsNotDeleted.verdict visits = !visits.any accountDeleted := by
  rw [AccountRootsNotDeleted.verdict_eq (f := fun b v => b || accountDeleted v) fun s v => by
    show Except.ok (if accountDeleted v then true else s) = _
    cases accountDeleted v <;> simp]
  rw [foldl_or]
  rfl

theorem verdict_LedgerEntryTypesMatch :
    LedgerEntryTypesMatch.verdict visits = !visits.any fun v => typeMismatch v || invalidType v := by
  have hfold : ∀ seen : TypesSeen, visits.foldl
      (fun seen v => (⟨seen.typeMismatch_ || typeMismatch v, seen.invalidTypeAdded_ || invalidType v⟩ : TypesSeen)) seen =
        ⟨seen.typeMismatch_ || visits.any typeMismatch, seen.invalidTypeAdded_ || visits.any invalidType⟩ := by
    induction visits with
    | nil => intro seen; simp
    | cons v visits ih =>
      intro seen
      rw [List.foldl_cons, ih, List.any_cons, List.any_cons, Bool.or_assoc, Bool.or_assoc]
  rw [LedgerEntryTypesMatch.verdict_eq
    (f := fun seen v => ⟨seen.typeMismatch_ || typeMismatch v, seen.invalidTypeAdded_ || invalidType v⟩) fun s v => by
      show Except.ok (⟨if typeMismatch v then true else s.typeMismatch_,
        if invalidType v then true else s.invalidTypeAdded_⟩ : TypesSeen) = _
      cases typeMismatch v <;> cases invalidType v <;> simp]
  rw [hfold]
  have hany : (visits.any fun v => typeMismatch v || invalidType v) = (visits.any typeMismatch || visits.any invalidType) := by
    induction visits with
    | nil => rfl
    | cons v visits ih => grind
  rw [hany]
  simp [LedgerEntryTypesMatch]

theorem verdict_NoSFCTrustLines :
    NoSFCTrustLines.verdict visits = !((visits.filterMap sfcLine).getLast?.getD false) := by
  have hfold : ∀ b, visits.foldl (fun found v => (sfcLine v).getD found) b =
      (visits.filterMap sfcLine).getLast?.getD b := by
    induction visits with
    | nil => intro b; rfl
    | cons v visits ih =>
      intro b
      rw [List.foldl_cons, ih, List.filterMap_cons]
      cases sfcLine v with
      | none => rfl
      | some found =>
        rw [List.getLast?_cons]
        cases (visits.filterMap sfcLine).getLast? <;> rfl
  rw [NoSFCTrustLines.verdict_eq (f := fun found v => (sfcLine v).getD found) fun s v => rfl, hfold]
  rfl

/-! ## The drops that an entry adds -/

/-- What one entry adds to the total, if that raises no exception. -/
def netDrops (v : Visit) : Option (BitVec 64) := do
  let removed ← (v.before.elim (.ok 0) dropsBefore).toOption
  let added ← (v.after.elim (.ok 0) (dropsAfter v.isDelete)).toOption
  return added - removed

theorem visitEntry_SFCNotCreated (drops : BitVec 64) (v : Visit) :
    ((SFCNotCreated fee).visitEntry drops v).toOption = (netDrops v).map (drops + ·) := by
  unfold netDrops
  show (((v.before.elim (.ok 0) dropsBefore) >>= fun removed => _ : Except String (BitVec 64))).toOption = _
  cases v.before.elim (.ok 0) dropsBefore with
  | error e => rfl
  | ok removed =>
    rw [ok_bind]
    cases v.after.elim (.ok 0) (dropsAfter v.isDelete) with
    | error e => rfl
    | ok added =>
      show some (drops - removed + added) = some (drops + (added - removed))
      congr 1
      abel

theorem foldlM_SFCNotCreated (drops : BitVec 64) :
    (visits.foldlM (SFCNotCreated fee).visitEntry drops).toOption =
      if ∀ v ∈ visits, (netDrops v).isSome then some (drops + (visits.map fun v => (netDrops v).getD 0).sum) else none := by
  induction visits generalizing drops with
  | nil => simp [Except.toOption, pure, Except.pure]
  | cons v visits ih =>
    have hv := visitEntry_SFCNotCreated fee drops v
    rw [List.foldlM_cons]
    cases hrun : (SFCNotCreated fee).visitEntry drops v with
    | error e =>
      rw [hrun] at hv
      have hnone : netDrops v = none := by
        cases hnet : netDrops v with
        | none => rfl
        | some net => rw [hnet] at hv; cases hv
      simp [hnone, bind, Except.bind, Except.toOption]
    | ok drops' =>
      rw [hrun] at hv
      cases hnet : netDrops v with
      | none => rw [hnet] at hv; cases hv
      | some net =>
        rw [hnet] at hv
        obtain rfl : drops' = drops + net := Option.some_inj.mp hv
        rw [ok_bind, ih]
        simp [hnet, add_assoc]

theorem verdict_SFCNotCreated :
    (SFCNotCreated fee).verdict visits =
      if ∀ v ∈ visits, (netDrops v).isSome then (SFCNotCreated fee).finalize (visits.map fun v => (netDrops v).getD 0).sum
      else false := by
  have hfold := foldlM_SFCNotCreated fee visits (SFCNotCreated fee).init
  unfold Checker.verdict
  cases hrun : visits.foldlM (SFCNotCreated fee).visitEntry (SFCNotCreated fee).init with
  | error e =>
    rw [hrun] at hfold
    split_ifs at hfold ⊢
    · cases hfold
    · rfl
  | ok total =>
    rw [hrun] at hfold
    split_ifs at hfold ⊢
    · obtain rfl := Option.some_inj.mp hfold
      show (SFCNotCreated fee).finalize (0 + _) = _
      rw [zero_add]
    · cases hfold

theorem perm_SFCNotCreated {visits visits' : List Visit} (h : visits.Perm visits') :
    (SFCNotCreated fee).verdict visits' = (SFCNotCreated fee).verdict visits := by
  rw [verdict_SFCNotCreated, verdict_SFCNotCreated, (h.map _).sum_eq]
  have hall : (∀ v ∈ visits', (netDrops v).isSome) ↔ ∀ v ∈ visits, (netDrops v).isSome :=
    forall_congr' fun v => by rw [h.mem_iff]
  simp only [hall]

/-! ## What the checkers judge -/

/-- A verdict that does not depend on the order of the visits, and fails exactly if an entry violates the rule. -/
def Judges (verdict : List Visit → Bool) (violates : Visit → Bool) (visits : List Visit) : Prop :=
  (∀ visits', visits.Perm visits' → verdict visits' = verdict visits) ∧
    (verdict visits = false ↔ ∃ v ∈ visits, violates v = true)

theorem judges_of_any {verdict : List Visit → Bool} {violates : Visit → Bool}
    (h : ∀ visits, verdict visits = !visits.any violates) (visits : List Visit) : Judges verdict violates visits := by
  refine ⟨fun visits' hperm => ?_, ?_⟩
  · rw [h, h, hperm.any_eq]
  · rw [h, Bool.not_eq_false', List.any_eq_true]

/-- A trust line in SFC is visited, and another trust line. -/
def MixedLines (visits : List Visit) : Prop :=
  (∃ v ∈ visits, sfcLine v = some true) ∧ ∃ v ∈ visits, sfcLine v = some false

theorem verdict_of_not_mixed {visits : List Visit} (h : ¬ MixedLines visits) :
    NoSFCTrustLines.verdict visits = !visits.any fun v => sfcLine v = some true := by
  rw [verdict_NoSFCTrustLines]
  congr 1
  cases hlast : (visits.filterMap sfcLine).getLast? with
  | none =>
    have hempty := List.getLast?_eq_none_iff.mp hlast
    rw [List.filterMap_eq_nil_iff] at hempty
    show false = _
    symm
    rw [List.any_eq_false]
    intro v hv
    simp [hempty v hv]
  | some found =>
    obtain ⟨v, hv, hfound⟩ := List.mem_filterMap.mp (List.mem_of_getLast? hlast)
    show found = _
    symm
    cases found with
    | true => exact List.any_eq_true.mpr ⟨v, hv, by simpa using hfound⟩
    | false =>
      rw [List.any_eq_false]
      intro w hw htrue
      exact h ⟨⟨w, hw, by simpa using htrue⟩, v, hv, hfound⟩

theorem not_judges_of_mixed {visits : List Visit} (h : MixedLines visits) :
    ¬ Judges NoSFCTrustLines.verdict (fun v => sfcLine v = some true) visits := by
  rintro ⟨hperm, hfails⟩
  obtain ⟨⟨v, hv, htrue⟩, w, hw, hfalse⟩ := h
  have hlast : visits.Perm (visits.erase w ++ [w]) :=
    (List.perm_cons_erase hw).trans (List.perm_append_singleton w (visits.erase w)).symm
  have hsame := hperm _ hlast
  rw [hfails.mpr ⟨v, hv, by simpa using htrue⟩, verdict_NoSFCTrustLines, List.filterMap_append] at hsame
  simp [hfalse] at hsame

/-- A limit in SFC, and one in another currency. -/
def sfcLimit : STAmount := ⟨sfcIssue, 0, 0, true, false⟩
def otherLimit : STAmount := ⟨⟨1, 1⟩, 0, -100, false, false⟩

end ScfChain.Tx
