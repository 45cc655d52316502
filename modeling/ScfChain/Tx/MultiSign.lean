import ScfChain.Tx.SignerList
import Mathlib.Algebra.BigOperators.Group.Finset.Basic

/-!
# Multi-signing

The signers of a transaction are checked against the signer list of its account in one walk over both: `walk` moves an
iterator over the list forward for each signer. Signers and list are strictly sorted by account, so that no signer can be
met, or counted, twice.

* `MultiSigned.checkMultiSign` is the check of the signatures, `STTx::checkMultiSign`; it ensures the order of the signers.
* `checkMultiSign` is `Transactor::checkMultiSign`. An iterator that is dereferenced at the end is an error.
-/

set_option linter.unusedSectionVars false

namespace ScfChain.Tx

open Std Data Ledger TER

def tfFullyCanonicalSig : BitVec 32 := 0x80000000#32

/-- What is asked of the signature library. A signer signs the transaction together with the signer's account. -/
structure Signing where
  publicKeyType : PublicKey → Bool
  calcAccountID : PublicKey → AccountID
  verify : PublicKey → STTx × AccountID → Signature → Bool → Bool
  toBase58 : AccountID → String

/-- An object of the array `Signers`. -/
structure Signer where
  account : AccountID
  signingPubKey : PublicKey
  txnSignature : Signature
  deriving DecidableEq

/-- A transaction with its signers. -/
structure MultiSigned where
  tx : STTx
  signers : Option (List Signer)
  txnSignature : Option Signature

section

variable (lib : Signing)

namespace MultiSigned

variable (m : MultiSigned)

/-- The loop over the signers. -/
def checkSigners (lastAccountID : AccountID) : List Signer → Except String Unit
  | [] => .ok ()
  | signer :: signers =>
    if signer.account = m.tx.account then .error "Invalid multisigner."
    else if lastAccountID = signer.account then .error "Duplicate Signers not allowed."
    else if signer.account < lastAccountID then .error "Unsorted Signers array."
    else if ¬ (lib.publicKeyType signer.signingPubKey ∧ lib.verify signer.signingPubKey (m.tx, signer.account)
        signer.txnSignature (hasFlag m.tx.flags tfFullyCanonicalSig)) then
      .error ("Invalid signature on account " ++ lib.toBase58 signer.account ++ ".")
    else checkSigners signer.account signers

/-- `STTx::checkMultiSign`. -/
def checkMultiSign : Except String Unit :=
  match m.signers with
  | none => .error "Empty SigningPubKey."
  | some signers =>
    if m.txnSignature.isSome then .error "Cannot both single- and multi-sign."
    else if signers.length < minMultiSigners ∨ maxMultiSigners < signers.length then .error "Invalid Signers array size."
    else m.checkSigners lib 0 signers

end MultiSigned

section

variable {K Amt : Type} [Ord K] [TransOrd K] [LawfulEqOrd K] [DecidableEq K] [DecidableEq Amt] (keys : Indexes K)
  (v : View K (Node K Amt))

/-- The inner loop: the iterator moves to the first entry whose account is not less. There is no result if it gets to the
end. -/
def advance (account : AccountID) : List SignerEntry → Except String (Option (List SignerEntry))
  | [] => .error "dereferenced past the end"
  | e :: iter =>
    if e.account < account then
      if iter = [] then .ok none else advance account iter
    else .ok (some (e :: iter))

/-- Whether the key of a signer signs for the account of the signer. -/
def checkKey (signer : Signer) : TER :=
  if ¬ lib.publicKeyType signer.signingPubKey then tefBAD_SIGNATURE
  else
    let sleTxSignerRoot := readKind Kind.accountRoot v (keys.account signer.account)
    if lib.calcAccountID signer.signingPubKey = signer.account then
      match sleTxSignerRoot with
      | none => tesSUCCESS
      | some root => if hasFlag root.flags lsfDisableMaster then tefMASTER_DISABLED else tesSUCCESS
    else
      match sleTxSignerRoot with
      | none => tefBAD_SIGNATURE
      | some root =>
        if root.regularKey = none then tefBAD_SIGNATURE
        else if some (lib.calcAccountID signer.signingPubKey) ≠ root.regularKey then tefBAD_SIGNATURE
        else tesSUCCESS

/-- The outer loop, with the iterator and `weightSum`: the sum, or what is returned. -/
def walk (iter : List SignerEntry) (weightSum : BitVec 32) : List Signer → Except String (Except TER (BitVec 32))
  | [] => .ok (.ok weightSum)
  | txSigner :: txSigners => do
    match ← advance txSigner.account iter with
    | none => return .error tefBAD_SIGNATURE
    | some [] => .error "dereferenced past the end"
    | some (e :: iter) =>
      if e.account ≠ txSigner.account then return .error tefBAD_SIGNATURE
      else if checkKey lib keys v txSigner ≠ tesSUCCESS then return .error (checkKey lib keys v txSigner)
      else walk (e :: iter) (weightSum + e.weight.setWidth 32) txSigners

/-- **`Transactor::checkMultiSign`**. -/
def checkMultiSign (m : MultiSigned) : Except String TER := do
  match readKind Kind.signerList v (keys.signers m.tx.account) with
  | none => return tefNOT_MULTI_SIGNING
  | some sleAccountSigners =>
    let accountSigners := deserialize (some (sleAccountSigners.signerEntries.map (⟨true, ·⟩)))
    if accountSigners.2 ≠ tesSUCCESS then return accountSigners.2
    else
      match ← walk lib keys v accountSigners.1 0 (m.signers.getD []) with
      | .error ter => return ter
      | .ok weightSum => return if weightSum < sleAccountSigners.signerQuorum then tefBAD_QUORUM else tesSUCCESS

end

/-! ## The walk -/

/-- The weight of an account on a list. -/
def weightOf (signers : List SignerEntry) (account : AccountID) : ℕ :=
  ((signers.find? (·.account = account)).map (·.weight.toNat)).getD 0

theorem weightOf_lt (signers : List SignerEntry) (account : AccountID) : weightOf signers account < 2 ^ 16 := by
  rw [weightOf]
  cases signers.find? (·.account = account) with
  | none => exact Nat.two_pow_pos 16
  | some e => exact e.weight.isLt

section Walk

variable {account : AccountID} {iter : List SignerEntry}

theorem advance_cases (account : AccountID) (h : iter ≠ []) :
    (iter.dropWhile (·.account < account) = [] ∧ advance account iter = .ok none) ∨
      ∃ e iter', iter.dropWhile (·.account < account) = e :: iter' ∧ account ≤ e.account ∧
        advance account iter = .ok (some (e :: iter')) := by
  induction iter with
  | nil => exact absurd rfl h
  | cons e iter ih =>
    rw [advance]
    by_cases hlt : e.account < account
    · rw [if_pos hlt, List.dropWhile_cons_of_pos (by rwa [decide_eq_true_iff])]
      by_cases hnil : iter = []
      · exact Or.inl ⟨by rw [hnil]; rfl, if_pos hnil⟩
      · rw [if_neg hnil]
        exact ih hnil
    · rw [if_neg hlt, List.dropWhile_cons_of_neg (by rwa [decide_eq_true_iff])]
      exact Or.inr ⟨e, iter, rfl, Nat.le_of_not_lt hlt, rfl⟩

theorem find?_dropWhile (iter : List SignerEntry) {account' : AccountID} (h : account ≤ account') :
    (iter.dropWhile (·.account < account)).find? (·.account = account') = iter.find? (·.account = account') := by
  conv_rhs => rw [← List.takeWhile_append_dropWhile (p := fun e => decide (e.account < account)) (l := iter),
    List.find?_append]
  have hnone : (iter.takeWhile (·.account < account)).find? (·.account = account') = none := by
    refine List.find?_eq_none.mpr fun e he => ?_
    have hlt : e.account < account := by simpa using List.mem_takeWhile_imp he
    simpa using (Nat.lt_of_lt_of_le hlt h).ne
  rw [hnone, Option.none_or]

theorem find?_eq_none_of_lt {e : SignerEntry} (hsorted : (e :: iter).Pairwise fun e e' => e.account < e'.account)
    (h : account < e.account) : (e :: iter).find? (·.account = account) = none := by
  refine List.find?_eq_none.mpr fun e' he' => ?_
  have hlt : account < e'.account := by
    rcases List.mem_cons.mp he' with rfl | he'
    · exact h
    · exact Nat.lt_trans h (List.rel_of_pairwise_cons hsorted he')
  simpa using hlt.ne'

variable {K Amt : Type} [Ord K] [TransOrd K] [LawfulEqOrd K] [DecidableEq K] [DecidableEq Amt] (keys : Indexes K)
  (v : View K (Node K Amt))

/-- Every signer is on the list, with a key that signs for the account. -/
def AllMatch (iter : List SignerEntry) (signers : List Signer) : Prop :=
  ∀ signer ∈ signers, (iter.find? (·.account = signer.account)).isSome ∧ checkKey lib keys v signer = tesSUCCESS

theorem walk_cons {signer : Signer} {signers : List Signer} {weightSum : BitVec 32} (hne : iter ≠ [])
    (hsorted : iter.Pairwise fun e e' => e.account < e'.account) :
    (∃ e iter', e.account = signer.account ∧ checkKey lib keys v signer = tesSUCCESS ∧
        iter.dropWhile (·.account < signer.account) = e :: iter' ∧
        walk lib keys v iter weightSum (signer :: signers) =
          walk lib keys v (e :: iter') (weightSum + e.weight.setWidth 32) signers) ∨
      ¬ ((iter.find? (·.account = signer.account)).isSome ∧ checkKey lib keys v signer = tesSUCCESS) ∧
        ∃ ter, ter ≠ tesSUCCESS ∧ walk lib keys v iter weightSum (signer :: signers) = .ok (.error ter) := by
  have hfind := find?_dropWhile iter (Nat.le_refl signer.account)
  rcases advance_cases signer.account hne with ⟨hdrop, hadv⟩ | ⟨e, iter', hdrop, hle, hadv⟩
  · refine Or.inr ⟨fun h => ?_, tefBAD_SIGNATURE, by decide, ?_⟩
    · rw [← hfind, hdrop] at h
      cases h.1
    · rw [walk, hadv]
      rfl
  have hwalk : walk lib keys v iter weightSum (signer :: signers) =
      if e.account ≠ signer.account then .ok (.error tefBAD_SIGNATURE)
      else if checkKey lib keys v signer ≠ tesSUCCESS then .ok (.error (checkKey lib keys v signer))
      else walk lib keys v (e :: iter') (weightSum + e.weight.setWidth 32) signers := by
    rw [walk, hadv]
    rfl
  rw [hwalk]
  by_cases heq : e.account = signer.account
  · rw [if_neg (not_not.mpr heq)]
    by_cases hkey : checkKey lib keys v signer = tesSUCCESS
    · exact Or.inl ⟨e, iter', heq, hkey, hdrop, if_neg (not_not.mpr hkey)⟩
    · exact Or.inr ⟨fun h => hkey h.2, checkKey lib keys v signer, hkey, if_pos hkey⟩
  · refine Or.inr ⟨fun h => ?_, tefBAD_SIGNATURE, by decide, if_pos heq⟩
    have hsorted' : (e :: iter').Pairwise fun e e' => e.account < e'.account :=
      hdrop ▸ hsorted.sublist (List.dropWhile_sublist _)
    rw [← hfind, hdrop, find?_eq_none_of_lt hsorted' (Nat.lt_of_le_of_ne hle (Ne.symm heq))] at h
    cases h.1

theorem walk_spec {signers : List Signer} (weightSum : BitVec 32) (hne : iter ≠ [])
    (hsorted : iter.Pairwise fun e e' => e.account < e'.account)
    (hsigners : signers.Pairwise fun signer signer' => signer.account < signer'.account) :
    (AllMatch lib keys v iter signers ∧ walk lib keys v iter weightSum signers =
        .ok (.ok (weightSum + BitVec.ofNat 32 (signers.map fun signer => weightOf iter signer.account).sum))) ∨
      ¬ AllMatch lib keys v iter signers ∧
        ∃ ter, ter ≠ tesSUCCESS ∧ walk lib keys v iter weightSum signers = .ok (.error ter) := by
  induction signers generalizing iter weightSum with
  | nil => exact Or.inl ⟨nofun, by rw [walk]; simp⟩
  | cons signer signers ih =>
    rcases walk_cons lib keys v hne hsorted with ⟨e, iter', heq, hkey, hdrop, hwalk⟩ | ⟨hno, hwalk⟩
    swap
    · exact Or.inr ⟨fun hall => hno (hall signer List.mem_cons_self), hwalk⟩
    -- later signers are looked up in the rest of the list, with the same result
    have hfind : ∀ s ∈ signer :: signers, (e :: iter').find? (·.account = s.account) = iter.find? (·.account = s.account) := by
      intro s hs
      rw [← hdrop]
      refine find?_dropWhile iter ?_
      rcases List.mem_cons.mp hs with rfl | hs
      · exact Nat.le_refl _
      · exact (List.rel_of_pairwise_cons hsigners hs).le
    have hhere : iter.find? (·.account = signer.account) = some e := by
      rw [← hfind signer List.mem_cons_self]
      exact List.find?_cons_of_pos (decide_eq_true heq)
    have hall : AllMatch lib keys v iter (signer :: signers) ↔ AllMatch lib keys v (e :: iter') signers := by
      constructor
      · intro h s hs
        rw [hfind s (List.mem_cons_of_mem _ hs)]
        exact h s (List.mem_cons_of_mem _ hs)
      · intro h s hs
        rcases List.mem_cons.mp hs with rfl | hs'
        · exact ⟨by rw [hhere]; rfl, hkey⟩
        · rw [← hfind s hs]
          exact h s hs'
    have hweights : (signers.map fun s => weightOf (e :: iter') s.account) = signers.map fun s => weightOf iter s.account :=
      List.map_congr_left fun s hs => by rw [weightOf, weightOf, hfind s (List.mem_cons_of_mem _ hs)]
    have hweight : weightOf iter signer.account = e.weight.toNat := by
      rw [weightOf, hhere]
      rfl
    rw [hwalk, hall]
    have hrest := ih (weightSum + e.weight.setWidth 32) (List.cons_ne_nil e iter')
      (hdrop ▸ hsorted.sublist (List.dropWhile_sublist _)) hsigners.of_cons
    rw [hweights] at hrest
    refine hrest.imp_left fun ⟨hmatch, h⟩ => ⟨hmatch, ?_⟩
    rw [h, List.map_cons, List.sum_cons, hweight, BitVec.add_assoc]
    congr 3
    apply BitVec.eq_of_toNat_eq
    simp

end Walk

/-! ## Multi-signing -/

section

variable {K Amt : Type} [Ord K] [TransOrd K] [LawfulEqOrd K] [DecidableEq K] [DecidableEq Amt] (keys : Indexes K)
  (v : View K (Node K Amt))

/-- The key is the master key of an account that is not in the ledger or has its master key enabled. -/
def IsMasterKey (signer : Signer) : Prop :=
  lib.calcAccountID signer.signingPubKey = signer.account ∧
    ∀ root ∈ readKind Kind.accountRoot v (keys.account signer.account), ¬ hasFlag root.flags lsfDisableMaster

/-- The key is the regular key of the account. -/
def IsRegularKey (signer : Signer) : Prop :=
  ∃ root ∈ readKind Kind.accountRoot v (keys.account signer.account),
    root.regularKey = some (lib.calcAccountID signer.signingPubKey)

theorem checkKey_iff {signer : Signer} (htype : lib.publicKeyType signer.signingPubKey) :
    checkKey lib keys v signer = tesSUCCESS ↔ IsMasterKey lib keys v signer ∨
      lib.calcAccountID signer.signingPubKey ≠ signer.account ∧ IsRegularKey lib keys v signer := by
  rw [checkKey, if_neg (not_not.mpr htype), IsMasterKey, IsRegularKey]
  dsimp only
  by_cases hmaster : lib.calcAccountID signer.signingPubKey = signer.account
  · rw [if_pos hmaster, or_iff_left fun h => h.1 hmaster, and_iff_right hmaster]
    rcases readKind Kind.accountRoot v (keys.account signer.account) with _ | root
    · exact iff_of_true rfl nofun
    · simp only [Option.mem_some_iff, forall_eq']
      split
      · next hdisabled => exact iff_of_false (by decide) (not_not.mpr hdisabled)
      · next henabled => exact iff_of_true rfl henabled
  · rw [if_neg hmaster, or_iff_right fun h => hmaster h.1, and_iff_right hmaster]
    rcases readKind Kind.accountRoot v (keys.account signer.account) with _ | root
    · exact iff_of_false (show tefBAD_SIGNATURE ≠ tesSUCCESS by decide) nofun
    · simp only [Option.mem_some_iff, exists_eq_left']
      split_ifs with hnone hne
      · exact iff_of_false (by decide) (by rw [hnone]; exact nofun)
      · exact iff_of_false (by decide) (Ne.symm hne)
      · exact iff_of_true rfl (not_not.mp hne).symm

theorem MultiSigned.checkSigners_ok {m : MultiSigned} {last : AccountID} {signers : List Signer}
    (h : m.checkSigners lib last signers = .ok ()) :
    (∀ signer ∈ signers, last < signer.account ∧ lib.publicKeyType signer.signingPubKey) ∧
      signers.Pairwise fun signer signer' => signer.account < signer'.account := by
  induction signers generalizing last with
  | nil => exact ⟨nofun, .nil⟩
  | cons signer signers ih =>
    rw [checkSigners] at h
    split_ifs at h with _ hne hlt hsig
    obtain ⟨hall, hsorted⟩ := ih h
    have hlast : last < signer.account := Nat.lt_of_le_of_ne (Nat.le_of_not_lt hlt) hne
    refine ⟨fun s hs => ?_, .cons (fun s hs => (hall s hs).1) hsorted⟩
    rcases List.mem_cons.mp hs with rfl | hs
    · exact ⟨hlast, hsig.1⟩
    · exact ⟨Nat.lt_trans hlast (hall s hs).1, (hall s hs).2⟩

theorem deserialize_entries (l : List SignerEntry) : deserialize (some (l.map (⟨true, ·⟩))) = (l, tesSUCCESS) := by
  have hwhile : (l.map fun e => (⟨true, e⟩ : SignerEntryObject)).takeWhile SignerEntryObject.isSignerEntry =
      l.map (⟨true, ·⟩) := List.takeWhile_eq_self_iff.mpr fun o ho => by
    obtain ⟨e, -, rfl⟩ := List.mem_map.mp ho
    rfl
  have hall : (l.map fun e => (⟨true, e⟩ : SignerEntryObject)).all SignerEntryObject.isSignerEntry = true :=
    List.all_eq_true.mpr fun o ho => by
      obtain ⟨e, -, rfl⟩ := List.mem_map.mp ho
      rfl
  rw [deserialize, hwhile, hall, List.map_map]
  exact Prod.ext (List.map_id l) rfl

theorem sum_weights_lt {list : List SignerEntry} {signers : List Signer} (h : signers.length ≤ maxMultiSigners) :
    (signers.map fun signer => weightOf list signer.account).sum < 2 ^ 32 := by
  have hle : (signers.map fun signer => weightOf list signer.account).sum ≤ signers.length * 2 ^ 16 := by
    have := List.sum_le_card_nsmul (signers.map fun signer => weightOf list signer.account) (2 ^ 16) fun w hw => by
      obtain ⟨signer, -, rfl⟩ := List.mem_map.mp hw
      exact (weightOf_lt list signer.account).le
    simpa using this
  rw [maxMultiSigners] at h
  omega

/-- **`Transactor::checkMultiSign`** on a signer list that `SetSignerList` accepted, for a transaction that passed the check
of its signatures. The iterator is never dereferenced past the end. -/
theorem checkMultiSign_iff {crypto : Crypto K} {ctx : Context} {t : SetSignerList} {flags : BitVec 32} {page : ℕ}
    {m : MultiSigned} {signers : List Signer} (hset : t.preflight crypto ctx = tesSUCCESS) (hop : t.do_ = .set)
    (hlist : readKind Kind.signerList v (keys.signers m.tx.account) = some (t.signerList flags page))
    (hsigners : m.signers = some signers) (hsig : m.checkMultiSign lib = .ok ()) :
    ∃ ter, checkMultiSign lib keys v m = .ok ter ∧
      (ter = tesSUCCESS ↔
        (∀ signer ∈ signers, (∃ e ∈ t.signers_, e.account = signer.account) ∧
          (IsMasterKey lib keys v signer ∨
            lib.calcAccountID signer.signingPubKey ≠ signer.account ∧ IsRegularKey lib keys v signer)) ∧
        t.quorum_.toNat ≤ ∑ account ∈ (signers.map Signer.account).toFinset, weightOf t.signers_ account) := by
  have hwell := t.signerList_wellformed hset hop flags page
  rw [MultiSigned.checkMultiSign, hsigners] at hsig
  dsimp only at hsig
  split_ifs at hsig with _ hlength
  rw [not_or, Nat.not_lt, Nat.not_lt] at hlength
  obtain ⟨hkeys, hsorted⟩ := MultiSigned.checkSigners_ok lib hsig
  have hne : t.signers_ ≠ [] := List.ne_nil_of_length_pos hwell.min
  have hmatch : AllMatch lib keys v t.signers_ signers ↔ ∀ signer ∈ signers,
      (∃ e ∈ t.signers_, e.account = signer.account) ∧ (IsMasterKey lib keys v signer ∨
        lib.calcAccountID signer.signingPubKey ≠ signer.account ∧ IsRegularKey lib keys v signer) := by
    refine forall₂_congr fun signer hs => ?_
    rw [checkKey_iff lib keys v (hkeys signer hs).2, List.find?_isSome]
    simp only [decide_eq_true_eq]
  have hsum : ∑ account ∈ (signers.map Signer.account).toFinset, weightOf t.signers_ account =
      (signers.map fun signer => weightOf t.signers_ signer.account).sum := by
    have hnodup : (signers.map Signer.account).Nodup := List.pairwise_map.mpr (hsorted.imp fun h => h.ne)
    rw [List.sum_toFinset _ hnodup, List.map_map]
    rfl
  have hcheck : checkMultiSign lib keys v m = (do
      match ← walk lib keys v t.signers_ 0 signers with
      | .error ter => return ter
      | .ok weightSum => return if weightSum < t.quorum_ then tefBAD_QUORUM else tesSUCCESS) := by
    rw [checkMultiSign, hlist, hsigners]
    simp only [SetSignerList.signerList, deserialize_entries, ne_eq, not_true_eq_false, if_false, Option.getD_some]
    rfl
  rw [hcheck, ← hmatch, hsum]
  rcases walk_spec lib keys v 0 hne hwell.sorted hsorted with ⟨hall, hwalk⟩ | ⟨hno, ter, hter, hwalk⟩
  · rw [hwalk]
    refine ⟨_, rfl, ?_⟩
    rw [and_iff_right hall, zero_add]
    split_ifs with hlt <;>
      rw [BitVec.lt_def, BitVec.toNat_ofNat, Nat.mod_eq_of_lt (sum_weights_lt hlength.2)] at hlt
    · exact iff_of_false (by decide) (Nat.not_le.mpr hlt)
    · exact iff_of_true rfl (Nat.le_of_not_lt hlt)
  · rw [hwalk]
    exact ⟨ter, rfl, iff_of_false hter fun h => hno h.1⟩

end

end

/-! Account 1 has the signers 2 and 3, of weights 1 and 2, with a quorum of 3. The public key of an account is its
number. -/

namespace SignerSample

def lib : Signing := ⟨fun _ => true, id, fun _ _ _ _ => true, Nat.repr⟩

def crypto : Crypto ℕ := ⟨fun _ => true, fun _ _ _ => false, fun _ => false⟩

def context : Context := ⟨fun _ => true, false, 10, 0, ⟨200, 50⟩, false, 10, fun _ => false⟩

def tx : STTx := ⟨1, 10, 5, 7, 0, none, none, none⟩

def set : SetSignerList := ⟨tx, 3, some [⟨true, ⟨3, 2⟩⟩, ⟨true, ⟨2, 1⟩⟩]⟩

def root (account : AccountID) (flags : BitVec 32) (regularKey : Option AccountID) : Node ℕ ℕ :=
  .other ⟨.accountRoot ⟨account, 1000, 5, 0, flags, none, regularKey⟩, some (0, 0)⟩

/-- Account 2 has the given flags and regular key, account 3 is not in the ledger. -/
def ledger (flags : BitVec 32) (regularKey : Option AccountID) : View ℕ (Node ℕ ℕ) :=
  .ledger (fun k =>
    if k = Indexes.numbers.account 1 then some (root 1 0 none)
    else if k = Indexes.numbers.account 2 then some (root 2 flags regularKey)
    else if k = Indexes.numbers.signers 1 then some (.other ⟨.signerList (set.signerList lsfOneOwnerCount 0), some (0, 0)⟩)
    else none) 0

def signed (key : PublicKey) : MultiSigned := ⟨tx, some [⟨2, key, 0⟩, ⟨3, 3, 0⟩], none⟩

theorem set_ok : set.preflight crypto context = tesSUCCESS ∧ set.do_ = .set := by decide +kernel

theorem ledger_signers (flags : BitVec 32) (regularKey : Option AccountID) :
    readKind Kind.signerList (ledger flags regularKey) (Indexes.numbers.signers 1) =
      some (set.signerList lsfOneOwnerCount 0) := rfl

theorem account_three (flags : BitVec 32) (regularKey : Option AccountID) :
    IsMasterKey lib Indexes.numbers (ledger flags regularKey) ⟨3, 3, 0⟩ := ⟨rfl, nofun⟩

theorem on_list {key : PublicKey} : ∀ signer ∈ [(⟨2, key, 0⟩ : Signer), ⟨3, 3, 0⟩], ∃ e ∈ set.signers_, e.account = signer.account := by
  rintro signer hs
  rcases List.mem_pair.mp hs with rfl | rfl
  · exact ⟨⟨2, 1⟩, by decide +kernel, rfl⟩
  · exact ⟨⟨3, 2⟩, by decide +kernel, rfl⟩

theorem reaches_quorum : set.quorum_.toNat ≤ ∑ account ∈ ({2, 3} : Finset AccountID), weightOf set.signers_ account := by
  decide +kernel

end SignerSample

/-- Account 2 signs with its regular key, 4, and account 3 with its own. -/
theorem checkMultiSign_regularKey :
    checkMultiSign SignerSample.lib Indexes.numbers (SignerSample.ledger lsfDisableMaster (some 4)) (SignerSample.signed 4) =
      .ok tesSUCCESS := by
  obtain ⟨ter, h, hiff⟩ := checkMultiSign_iff SignerSample.lib Indexes.numbers (SignerSample.ledger lsfDisableMaster (some 4))
    (m := SignerSample.signed 4) SignerSample.set_ok.1 SignerSample.set_ok.2
    (SignerSample.ledger_signers lsfDisableMaster (some 4)) rfl (by decide +kernel)
  rw [h, hiff.mpr]
  refine ⟨fun signer hs => ⟨SignerSample.on_list signer hs, ?_⟩, SignerSample.reaches_quorum⟩
  rcases List.mem_pair.mp hs with rfl | rfl
  · exact Or.inr ⟨by decide, _, rfl, rfl⟩
  · exact Or.inl (SignerSample.account_three _ _)

/-- The regular key of account 2 is its master key, which is disabled. It does not sign for the account, although it is the
regular key. -/
theorem masterKey_as_regularKey :
    ∃ signers, (SignerSample.signed 2).signers = some signers ∧
      SignerSample.set.preflight SignerSample.crypto SignerSample.context = tesSUCCESS ∧ SignerSample.set.do_ = .set ∧
      readKind Kind.signerList (SignerSample.ledger lsfDisableMaster (some 2)) (Indexes.numbers.signers 1) =
        some (SignerSample.set.signerList lsfOneOwnerCount 0) ∧
      (SignerSample.signed 2).checkMultiSign SignerSample.lib = .ok () ∧
      (∀ signer ∈ signers, (∃ e ∈ SignerSample.set.signers_, e.account = signer.account) ∧
        (IsMasterKey SignerSample.lib Indexes.numbers (SignerSample.ledger lsfDisableMaster (some 2)) signer ∨
          IsRegularKey SignerSample.lib Indexes.numbers (SignerSample.ledger lsfDisableMaster (some 2)) signer)) ∧
      SignerSample.set.quorum_.toNat ≤
        ∑ account ∈ (signers.map Signer.account).toFinset, weightOf SignerSample.set.signers_ account ∧
      checkMultiSign SignerSample.lib Indexes.numbers (SignerSample.ledger lsfDisableMaster (some 2)) (SignerSample.signed 2) =
        .ok tefMASTER_DISABLED := by
  refine ⟨_, rfl, SignerSample.set_ok.1, SignerSample.set_ok.2, SignerSample.ledger_signers _ _, by decide +kernel,
    fun signer hs => ⟨SignerSample.on_list signer hs, ?_⟩, SignerSample.reaches_quorum, by decide +kernel⟩
  rcases List.mem_pair.mp hs with rfl | rfl
  · exact Or.inr ⟨_, rfl, rfl⟩
  · exact Or.inl (SignerSample.account_three _ _)

end ScfChain.Tx
