import ScfChain.Data.Assoc

/-!
# The amendment table

At a flag ledger the trusted validations of its parent are counted (`AmendmentSet`), and `doVoting` decides for every
amendment the server knows what pseudo-transaction is injected: the amendment has got a majority, has lost it, or has
held it for long enough and is to be enabled.

* `votes_countOf` : an amendment has as many votes as there are trusted validations with it.
* `majority_threshold` : the threshold is rounded down, and when this matters.
* `mem_doVoting` : the actions, one for an amendment at most.
-/

namespace ScfChain.App

open Data

variable {A : Type} [DecidableEq A]

/-- A validation: whether it is trusted, and `sfAmendments` if the field is present. -/
structure STValidation (A : Type) where
  isTrusted : Bool
  sfAmendments : Option (List A)

/-! ## Counting -/

/-- The status of all amendments requested in a given window. -/
structure AmendmentSet (A : Type) where
  votes_ : Assoc A ℕ
  mTrustedValidations : ℕ
  mThreshold : ℕ

namespace AmendmentSet

def empty : AmendmentSet A := ⟨∅, 0, 0⟩

/-- `tally`, with the elements of the ballot. -/
def tally (vote : AmendmentSet A) (ballot : List A) : AmendmentSet A :=
  { vote with mTrustedValidations := vote.mTrustedValidations + 1, votes_ := ballot.foldl increment vote.votes_ }

def votes (vote : AmendmentSet A) (amendment : A) : ℕ := countOf vote.votes_ amendment

/-- A validation in the loop of `doVoting`; the ballot is a set, so an amendment is in it once. -/
def process (vote : AmendmentSet A) (val : STValidation A) : AmendmentSet A :=
  if val.isTrusted then vote.tally (val.sfAmendments.getD []).dedup else vote

/-- The counted validations with the threshold. -/
def of (majorityFraction_ : ℕ) (valSet : List (STValidation A)) : AmendmentSet A :=
  let vote := valSet.foldl process empty
  { vote with mThreshold := max 1 (vote.mTrustedValidations * majorityFraction_ / 256) }

def hasValMajority (vote : AmendmentSet A) (amendment : A) : Bool := vote.mThreshold ≤ vote.votes amendment

end AmendmentSet

/-- A validation that counts for the amendment. -/
def STValidation.VotesFor (amendment : A) (val : STValidation A) : Prop :=
  val.isTrusted = true ∧ amendment ∈ val.sfAmendments.getD []

instance (amendment : A) (val : STValidation A) : Decidable (val.VotesFor amendment) :=
  inferInstanceAs (Decidable (_ ∧ _))

theorem countOf_foldl_increment (ks : List A) (m : Assoc A ℕ) (k : A) :
    countOf (ks.foldl increment m) k = countOf m k + ks.count k := by
  induction ks generalizing m with
  | nil => rfl
  | cons k' ks ih =>
    rw [List.foldl_cons, ih, countOf_increment, List.count_cons]
    by_cases h : k = k'
    · simp [h]
      omega
    · simp [h, Ne.symm h]

namespace AmendmentSet

theorem votes_process (vote : AmendmentSet A) (val : STValidation A) (amendment : A) :
    (vote.process val).votes amendment = vote.votes amendment + if val.VotesFor amendment then 1 else 0 := by
  unfold process STValidation.VotesFor
  by_cases h : val.isTrusted = true
  · rw [if_pos h]
    simp only [h, true_and, votes, tally, countOf_foldl_increment, List.count_dedup]
  · simp [h]

theorem trusted_process (vote : AmendmentSet A) (val : STValidation A) :
    (vote.process val).mTrustedValidations = vote.mTrustedValidations + if val.isTrusted then 1 else 0 := by
  unfold process
  by_cases h : val.isTrusted = true <;> simp [h, tally]

variable (majorityFraction_ : ℕ) (valSet : List (STValidation A))

/-- **One vote for each trusted validation with the amendment.** -/
theorem votes_of (amendment : A) :
    (of majorityFraction_ valSet).votes amendment = valSet.countP (·.VotesFor amendment) := by
  have hfold : ∀ vote : AmendmentSet A,
      (valSet.foldl process vote).votes amendment = vote.votes amendment + valSet.countP (·.VotesFor amendment) := by
    induction valSet with
    | nil => exact fun _ => rfl
    | cons val valSet ih =>
      intro vote
      rw [List.foldl_cons, ih, votes_process, List.countP_cons]
      simp only [decide_eq_true_eq]
      omega
  have hempty := hfold empty
  rwa [show (empty : AmendmentSet A).votes amendment = 0 from rfl, Nat.zero_add] at hempty

theorem trusted_of :
    (of majorityFraction_ valSet).mTrustedValidations = valSet.countP (·.isTrusted) := by
  have hfold : ∀ vote : AmendmentSet A,
      (valSet.foldl process vote).mTrustedValidations = vote.mTrustedValidations + valSet.countP (·.isTrusted) := by
    induction valSet with
    | nil => exact fun _ => rfl
    | cons val valSet ih =>
      intro vote
      rw [List.foldl_cons, ih, trusted_process, List.countP_cons]
      omega
  exact (hfold empty).trans (Nat.zero_add _)

theorem hasValMajority_iff (amendment : A) :
    (of majorityFraction_ valSet).hasValMajority amendment = true ↔
      max 1 (valSet.countP (·.isTrusted) * majorityFraction_ / 256) ≤ valSet.countP (·.VotesFor amendment) := by
  rw [hasValMajority, decide_eq_true_eq, votes_of, ← trusted_of majorityFraction_ valSet]
  rfl

/-- **The threshold is rounded down.** `doVoting` takes an amendment to have a majority only if the votes are the
configured fraction of the trusted validations, if and only if the fraction of them is a whole number, is less than
one, or the votes are another number than the fraction rounded down. -/
theorem majority_threshold (majorityFraction_ : ℕ) (valSet : List (STValidation A)) (amendment : A) :
    (of majorityFraction_ valSet).votes amendment = valSet.countP (·.VotesFor amendment) ∧
    (of majorityFraction_ valSet).mTrustedValidations = valSet.countP (·.isTrusted) ∧
    (((of majorityFraction_ valSet).hasValMajority amendment = true →
        valSet.countP (·.isTrusted) * majorityFraction_ ≤ valSet.countP (·.VotesFor amendment) * 256) ↔
      256 ∣ valSet.countP (·.isTrusted) * majorityFraction_ ∨ valSet.countP (·.isTrusted) * majorityFraction_ < 256 ∨
        valSet.countP (·.VotesFor amendment) ≠ valSet.countP (·.isTrusted) * majorityFraction_ / 256) := by
  refine ⟨votes_of _ _ _, trusted_of _ _, ?_⟩
  rw [hasValMajority_iff]
  generalize valSet.countP (·.VotesFor amendment) = votes
  generalize valSet.countP (·.isTrusted) * majorityFraction_ = needed
  rw [Nat.dvd_iff_mod_eq_zero]
  omega

/-- Three votes of five do for 204/256. -/
theorem majority_of_three_fifths :
    ∃ valSet : List (STValidation ℕ), valSet.countP (·.isTrusted) = 5 ∧ valSet.countP (·.VotesFor 1) = 3 ∧
      (of 204 valSet).hasValMajority 1 = true ∧ ¬ 5 * 204 ≤ 3 * 256 :=
  ⟨[⟨true, some [1]⟩, ⟨true, some [1, 1]⟩, ⟨true, some [1, 2]⟩, ⟨true, some [2]⟩, ⟨true, none⟩, ⟨false, some [1]⟩],
    by decide⟩

end AmendmentSet

/-! ## Voting -/

/-- Current state of an amendment. -/
structure AmendmentState where
  vetoed : Bool := false
  enabled : Bool := false
  supported : Bool := false

/-- `majorityTime_` is in seconds, `majorityFraction_` out of 256. -/
structure AmendmentTable (A : Type) where
  amendmentMap_ : Assoc A AmendmentState
  majorityTime_ : ℤ
  majorityFraction_ : ℕ
  lastVote_ : Option (AmendmentSet A)
  unsupportedEnabled_ : Bool

def tfGotMajority : BitVec 32 := 0x00010000#32
def tfLostMajority : BitVec 32 := 0x00020000#32

namespace AmendmentTable

def isSupported (t : AmendmentTable A) (amendment : A) : Bool :=
  ((t.amendmentMap_.lookup amendment).map AmendmentState.supported).getD false

/-- `AmendmentTableImpl::enable`; `add` finds the state or creates one. -/
def enable (t : AmendmentTable A) (amendment : A) : AmendmentTable A :=
  let s := (t.amendmentMap_.lookup amendment).getD {}
  if s.enabled then { t with amendmentMap_ := t.amendmentMap_.insert amendment s }
  else
    { t with
      amendmentMap_ := t.amendmentMap_.insert amendment { s with enabled := true }
      unsupportedEnabled_ := t.unsupportedEnabled_ || !s.supported }

/-- The body of the loop over the known amendments. The default time point stands for no majority; the sum of a time
point and a number of seconds has 64 bits. -/
def action (t : AmendmentTable A) (vote : AmendmentSet A) (closeTime : BitVec 32) (enabledAmendments : List A)
    (majorityAmendments : A → Option (BitVec 32)) (amendment : A) (state : AmendmentState) : Option (BitVec 32) :=
  let majorityTime := (majorityAmendments amendment).getD 0
  if amendment ∈ enabledAmendments then none
  else if vote.hasValMajority amendment ∧ majorityTime = 0 ∧ ¬ state.vetoed then some tfGotMajority
  else if ¬ vote.hasValMajority amendment ∧ majorityTime ≠ 0 then some tfLostMajority
  else if majorityTime ≠ 0 ∧ (majorityTime.toNat : ℤ) + t.majorityTime_ ≤ closeTime.toNat ∧ ¬ state.vetoed then some 0
  else none

/-- `AmendmentTableImpl::doVoting`: the amendments with the flags of their pseudo-transactions. -/
def doVoting (t : AmendmentTable A) (closeTime : BitVec 32) (enabledAmendments : List A)
    (majorityAmendments : A → Option (BitVec 32)) (valSet : List (STValidation A)) :
    List (A × BitVec 32) × AmendmentTable A :=
  let vote := AmendmentSet.of t.majorityFraction_ valSet
  (t.amendmentMap_.entries.filterMap fun entry =>
      (t.action vote closeTime enabledAmendments majorityAmendments entry.1 entry.2).map (entry.1, ·),
    { t with lastVote_ := some vote })

variable {t : AmendmentTable A} {closeTime : BitVec 32} {enabledAmendments : List A}
  {majorityAmendments : A → Option (BitVec 32)} {valSet : List (STValidation A)} {amendment : A} {flags : BitVec 32}

theorem mem_doVoting :
    (amendment, flags) ∈ (t.doVoting closeTime enabledAmendments majorityAmendments valSet).1 ↔
      ∃ state, t.amendmentMap_.lookup amendment = some state ∧
        t.action (.of t.majorityFraction_ valSet) closeTime enabledAmendments majorityAmendments amendment state =
          some flags := by
  simp only [doVoting, List.mem_filterMap, Option.map_eq_some_iff, Prod.mk.injEq]
  constructor
  · rintro ⟨⟨_, state⟩, hmem, _, haction, rfl, rfl⟩
    exact ⟨state, List.mem_dlookup t.amendmentMap_.nodupKeys hmem, haction⟩
  · rintro ⟨state, hlookup, haction⟩
    exact ⟨⟨amendment, state⟩, List.of_mem_dlookup hlookup, flags, haction, rfl, rfl⟩

theorem nodup_doVoting :
    ((t.doVoting closeTime enabledAmendments majorityAmendments valSet).1.map Prod.fst).Nodup := by
  have hkeys := t.amendmentMap_.nodupKeys
  have hmap : ((t.doVoting closeTime enabledAmendments majorityAmendments valSet).1.map Prod.fst).Sublist
      t.amendmentMap_.entries.keys := by
    simp only [doVoting, List.keys]
    generalize t.amendmentMap_.entries = entries
    induction entries with
    | nil => exact List.Sublist.slnil
    | cons entry entries ih =>
      rw [List.filterMap_cons, List.map_cons]
      cases t.action (.of t.majorityFraction_ valSet) closeTime enabledAmendments majorityAmendments entry.1 entry.2 with
      | none => exact ih.cons _
      | some flags => exact ih.cons_cons _
  exact hmap.nodup hkeys

theorem action_cases {vote : AmendmentSet A} {state : AmendmentState}
    (h : t.action vote closeTime enabledAmendments majorityAmendments amendment state = some flags) :
    amendment ∉ enabledAmendments ∧
      (flags = tfGotMajority ∧ vote.hasValMajority amendment = true ∧ (majorityAmendments amendment).getD 0 = 0 ∨
        flags = tfLostMajority ∧ vote.hasValMajority amendment = false ∧ (majorityAmendments amendment).getD 0 ≠ 0 ∨
        flags = 0 ∧ vote.hasValMajority amendment = true ∧ (majorityAmendments amendment).getD 0 ≠ 0 ∧
          (((majorityAmendments amendment).getD 0).toNat : ℤ) + t.majorityTime_ ≤ closeTime.toNat) := by
  unfold action at h
  dsimp only at h
  split_ifs at h with henabled hgot hlost hheld
  · cases h
    exact ⟨henabled, .inl ⟨rfl, hgot.1, hgot.2.1⟩⟩
  · cases h
    exact ⟨henabled, .inr (.inl ⟨rfl, by simpa using hlost.1, hlost.2⟩)⟩
  · cases h
    refine ⟨henabled, .inr (.inr ⟨rfl, ?_, hheld.1, hheld.2.1⟩)⟩
    by_contra hmajority
    exact hlost ⟨hmajority, hheld.1⟩

theorem action_of_lost {vote : AmendmentSet A} {state : AmendmentState} (henabled : amendment ∉ enabledAmendments)
    (hvote : vote.hasValMajority amendment = false) (htime : (majorityAmendments amendment).getD 0 ≠ 0) :
    t.action vote closeTime enabledAmendments majorityAmendments amendment state = some tfLostMajority := by
  unfold action
  dsimp only
  rw [if_neg henabled, if_neg (by simp [hvote]), if_pos ⟨by simp [hvote], htime⟩]

end AmendmentTable

end ScfChain.App
