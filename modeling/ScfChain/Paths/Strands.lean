import ScfChain.Data.Succeeds
import ScfChain.Protocol.Amount
import ScfChain.Protocol.PathSet
import ScfChain.Tx.Transactor

/-!
# The strands of a payment

`toStrandV2` completes a path with the source, the send maximum, what is delivered and the destination, and turns it into steps,
pair by pair. Every step is checked before it is added. What a check reads from the ledger is a parameter.

* `DirectStepI.check`, `BookStep.check`, `SFCEndpointStep.check`, `toStep`, `toStrandV2`;
* `Built`: what the sets of issues that have been seen say about the steps;
* `no_loops_iff`: when a strand does not come to the same account in the same currency twice.
-/

namespace ScfChain.Paths

open Data Protocol STPathElement Tx TER

abbrev AccountID := BitVec 160
abbrev Currency := BitVec 160

def sfcIssue : Issue := ⟨0, 0⟩
def noAccount : AccountID := 1

def isConsistent (issue : Issue) : Bool := (issue.currency = 0) = (issue.account = 0)

/-- A step of a strand. -/
inductive PathStep
  | direct (src dst : AccountID) (currency : Currency)
  | book (in_ out : Issue)
  | sfcEndpoint (acc : AccountID) (isLast : Bool)
  deriving DecidableEq

/-- `directStepAccts` of an endpoint. -/
def SFCEndpointStep.accts (acc : AccountID) (isLast : Bool) : AccountID × AccountID := if isLast then (0, acc) else (acc, 0)

/-- What the checks read from the ledger. -/
structure Lines where
  exists_ : AccountID → Bool
  checkFreeze : AccountID → AccountID → Currency → TER
  checkNoSupplyFinanceChain : AccountID → AccountID → AccountID → Currency → TER
  /-- `DirectIPaymentStep::check`, after a book or not. -/
  checkLine : Bool → AccountID → AccountID → Currency → TER
  /-- The line between the source of the step before and the account of a book, with `fix1443`. -/
  checkBookLine : AccountID → Issue → TER
  fix1373 : Bool

/-- The steps that have been made, and the issues that have been seen. -/
structure Building where
  result : List PathStep
  seenDirectSrcs : List Issue
  seenDirectDsts : List Issue
  seenBookOuts : List Issue

/-- Why no strand is returned. -/
inductive Refused
  | ter (ter : TER)
  | assertion
  deriving DecidableEq

section Model

variable (view : Lines) (offerCrossing : Bool)

def Building.prevSrc (b : Building) : Option AccountID :=
  match b.result.getLast? with
  | some (.direct src _ _) => some src
  | _ => none

def Building.prevOut (b : Building) : Option Issue :=
  match b.result.getLast? with
  | some (.book _ out) => some out
  | _ => none

def DirectStepI.check (isLast : Bool) (src dst : AccountID) (currency : Currency) (b : Building) : Except Refused Building :=
  if src = 0 ∨ dst = 0 ∨ src = dst then .error (.ter temBAD_PATH)
  else if ¬ view.exists_ src then .error (.ter terNO_ACCOUNT)
  else if ¬ (isLast ∧ b.result = []) ∧ view.checkFreeze src dst currency ≠ tesSUCCESS then
    .error (.ter (view.checkFreeze src dst currency))
  else if b.prevSrc.any fun prev => view.checkNoSupplyFinanceChain prev src dst currency ≠ tesSUCCESS then
    .error (.ter (view.checkNoSupplyFinanceChain (b.prevSrc.getD 0) src dst currency))
  else if ⟨currency, src⟩ ∈ b.seenBookOuts ∧ b.result = [] then .error .assertion
  else if ⟨currency, src⟩ ∈ b.seenBookOuts ∧ b.prevOut.any (· ≠ ⟨currency, src⟩) then .error (.ter temBAD_PATH_LOOP)
  else if ⟨currency, src⟩ ∈ b.seenDirectSrcs ∨ ⟨currency, dst⟩ ∈ b.seenDirectDsts then .error (.ter temBAD_PATH_LOOP)
  else if offerCrossing = false ∧ view.checkLine b.prevOut.isSome src dst currency ≠ tesSUCCESS then
    .error (.ter (view.checkLine b.prevOut.isSome src dst currency))
  else .ok { b with
    result := b.result ++ [.direct src dst currency]
    seenDirectSrcs := ⟨currency, src⟩ :: b.seenDirectSrcs
    seenDirectDsts := ⟨currency, dst⟩ :: b.seenDirectDsts }

def BookStep.check (in_ out : Issue) (b : Building) : Except Refused Building :=
  if in_ = out ∨ ¬ isConsistent in_ ∨ ¬ isConsistent out then .error (.ter temBAD_PATH)
  else if out ∈ b.seenBookOuts ∨ out ∈ b.seenDirectSrcs then .error (.ter temBAD_PATH_LOOP)
  else if view.fix1373 ∧ out ∈ b.seenDirectDsts then .error (.ter temBAD_PATH_LOOP)
  else if b.prevSrc.any fun prev => view.checkBookLine prev in_ ≠ tesSUCCESS then
    .error (.ter (view.checkBookLine (b.prevSrc.getD 0) in_))
  else .ok { b with
    result := b.result ++ [.book in_ out]
    seenBookOuts := out :: b.seenBookOuts }

def SFCEndpointStep.check (isLast : Bool) (acc : AccountID) (b : Building) : Except Refused Building :=
  let ter := view.checkFreeze (accts acc isLast).1 (accts acc isLast).2 0
  if acc = 0 then .error (.ter temBAD_PATH)
  else if ¬ view.exists_ acc then .error (.ter terNO_ACCOUNT)
  else if b.result ≠ [] ∧ ¬ isLast then .error (.ter temBAD_PATH)
  else if ter ≠ tesSUCCESS then .error (.ter ter)
  else .ok { b with result := b.result ++ [.sfcEndpoint acc isLast] }

/-- What a book before the element `e2` gives. -/
def outIssue (e2 : STPathElement) (curIssue : Issue) : Issue where
  currency := if e2.has typeCurrency then e2.mCurrencyID else curIssue.currency
  account := if e2.has typeIssuer then e2.mIssuerID else curIssue.account

def toStep (isLast : Bool) (e1 e2 : STPathElement) (curIssue : Issue) (b : Building) : Except Refused Building :=
  let out := outIssue e2 curIssue
  if b.result = [] ∧ ¬ e1.isOffer ∧ e1.has typeCurrency ∧ e1.mCurrencyID = 0 then
    SFCEndpointStep.check view isLast e1.mAccountID b
  else if isLast ∧ (e1.mType = typeAccount ∧ e1.mAccountID = 0) ∧ ¬ e2.isOffer then
    SFCEndpointStep.check view isLast e2.mAccountID b
  else if ¬ e1.isOffer ∧ ¬ e2.isOffer then
    DirectStepI.check view offerCrossing isLast e1.mAccountID e2.mAccountID curIssue.currency b
  else if e1.isOffer ∧ ¬ e2.isOffer then .error .assertion
  else if ¬ e2.has typeCurrency ∧ ¬ e2.has typeIssuer then .error .assertion
  else if curIssue.currency = 0 ∧ out.currency = 0 then .error (.ter temBAD_PATH)
  else if ¬ e2.isOffer then .error .assertion
  else if out.currency = 0 then BookStep.check view curIssue sfcIssue b
  else if curIssue.currency = 0 then BookStep.check view sfcIssue out b
  else BookStep.check view curIssue out b

/-- The issue after the element `cur`. -/
def nextIssue (cur : STPathElement) (curIssue : Issue) : Issue :=
  let account := if ¬ cur.isOffer then cur.mAccountID else if cur.has typeIssuer then cur.mIssuerID else curIssue.account
  if cur.has typeCurrency then ⟨cur.mCurrencyID, if cur.mCurrencyID = 0 then 0 else account⟩ else ⟨curIssue.currency, account⟩

/-- The end of a round, which makes the step for `next`. -/
def addStep (isLast : Bool) (cur next : STPathElement) (curIssue : Issue) (b : Building) : Except Refused Building :=
  if ¬ next.isOffer ∧ next.has typeCurrency ∧ next.mCurrencyID ≠ curIssue.currency then .error .assertion
  else toStep view offerCrossing isLast cur next curIssue b

/-- A round that goes through an account that is not in the path. -/
def addImplied (isLast : Bool) (cur next : STPathElement) (curIssue : Issue) (b : Building) : Except Refused Building := do
  let b ← DirectStepI.check view offerCrossing false cur.mAccountID curIssue.account curIssue.currency b
  addStep view offerCrossing isLast (ofType typeAccount curIssue.account 0 0) next curIssue b

/-- One round of the loop over the elements. -/
def addPair (isLast : Bool) (cur next : STPathElement) (curIssue : Issue) (b : Building) : Except Refused Building :=
  if ¬ cur.isOffer ∧ ¬ next.isOffer ∧
      curIssue.currency ≠ 0 ∧ curIssue.account ≠ cur.mAccountID ∧ curIssue.account ≠ next.mAccountID then
    addImplied view offerCrossing isLast cur next curIssue b
  else if ¬ cur.isOffer ∧ next.isOffer ∧ curIssue.account ≠ cur.mAccountID then
    addImplied view offerCrossing isLast cur next curIssue b
  else if cur.isOffer ∧ ¬ next.isOffer then
    if curIssue.account = next.mAccountID ∨ next.mAccountID = 0 then .ok b
    else if curIssue ≠ sfcIssue then
      DirectStepI.check view offerCrossing false curIssue.account next.mAccountID curIssue.currency b
    else if ¬ isLast then .error (.ter temBAD_PATH)
    else SFCEndpointStep.check view false next.mAccountID b
  else addStep view offerCrossing isLast cur next curIssue b

def addPairs : List STPathElement → Issue → Building → Except Refused Building
  | cur :: next :: rest, curIssue, b => do
    addPairs (next :: rest) (nextIssue cur curIssue)
      (← addPair view offerCrossing rest.isEmpty cur next (nextIssue cur curIssue) b)
  | _, _, b => .ok b

end Model

/-- The arguments of `toStrandV2` other than those that the steps only keep. -/
structure Route where
  src : AccountID
  dst : AccountID
  deliver : Issue
  sendMaxIssue : Option Issue
  path : List STPathElement
  offerCrossing : Bool

namespace Route

variable (r : Route)

/-- The issue at the source. -/
def start : Issue :=
  let currency := (r.sendMaxIssue.getD r.deliver).currency
  if currency = 0 then sfcIssue else ⟨currency, r.src⟩

/-- An element of the path that is refused. -/
def badElement (pe : STPathElement) : Bool :=
  let t := pe.mType
  t &&& ~~~typeAll ≠ 0 ∨ t = 0 ∨ (pe.has typeAccount ∧ (pe.has typeIssuer ∨ pe.has typeCurrency)) ∨
    (pe.has typeIssuer ∧ pe.mIssuerID = 0) ∨ (pe.has typeAccount ∧ pe.mAccountID = 0) ∨
    (pe.has typeCurrency ∧ pe.has typeIssuer ∧ (pe.mCurrencyID = 0) ≠ (pe.mIssuerID = 0)) ∨
    (pe.has typeIssuer ∧ pe.mIssuerID = noAccount) ∨ (pe.has typeAccount ∧ pe.mAccountID = noAccount)

def bad : Bool :=
  r.src = 0 ∨ r.dst = 0 ∨ ¬ isConsistent r.deliver ∨ (r.sendMaxIssue.any fun issue => ¬ isConsistent issue ∨ issue.account = noAccount) ∨
    r.src = noAccount ∨ r.dst = noAccount ∨ r.deliver.account = noAccount ∨ r.path.any badElement

def isAccountOf (pe : STPathElement) (account : AccountID) : Bool := ¬ pe.isOffer ∧ pe.mAccountID = account

def account (id : AccountID) : STPathElement := ofOptional (some id) none none

def normPath : List STPathElement :=
  let source := ofType typeAll r.src r.start.currency r.start.account
  let sendMax := match r.sendMaxIssue with
    | some issue => if issue.account ≠ r.src ∧ ¬ r.path.head?.any (isAccountOf · issue.account) then [account issue.account] else []
    | none => []
  let path := source :: sendMax ++ r.path
  let lastCurrency := (path.reverse.find? fun pe => pe.has typeCurrency).getD source
  let path := if lastCurrency.mCurrencyID ≠ r.deliver.currency ∨
      (r.offerCrossing ∧ lastCurrency.mIssuerID ≠ r.deliver.account)
    then path ++ [ofOptional none (some r.deliver.currency) (some r.deliver.account)] else path
  let path := if isAccountOf (path.getLastD source) r.deliver.account ∨ r.dst = r.deliver.account then path
    else path ++ [account r.deliver.account]
  if isAccountOf (path.getLastD source) r.dst then path else path ++ [account r.dst]

/-- `checkStrand`, from a step on. -/
def checkFrom (curAccount : AccountID) (curIssue : Issue) : List PathStep → Bool
  | [] => curAccount = r.dst ∧ curIssue.currency = r.deliver.currency ∧
      (curIssue.account = r.deliver.account ∨ curIssue.account = r.dst)
  | .direct src dst _ :: steps => src = curAccount ∧ checkFrom dst { curIssue with account := dst } steps
  | .book in_ out :: steps => in_.account = curAccount ∧ curIssue = in_ ∧ checkFrom out.account out steps
  | .sfcEndpoint acc isLast :: steps =>
    let (src, dst) := SFCEndpointStep.accts acc isLast
    src = curAccount ∧ checkFrom dst { curIssue with account := dst } steps

def toStrandV2 (view : Lines) : Except Refused (List PathStep) := do
  if r.bad then .error (.ter temBAD_PATH)
  else if r.normPath.length < 2 then .error (.ter temBAD_PATH)
  else
    let b ← addPairs view r.offerCrossing r.normPath r.start ⟨[], [], [], []⟩
    if r.checkFrom r.src r.start b.result then return b.result else .error .assertion

end Route

/-! ## Where the steps lead -/

/-- The currency and the account after a step. -/
def PathStep.leadsTo : PathStep → Issue
  | .direct _ dst currency => ⟨currency, dst⟩
  | .book _ out => out
  | .sfcEndpoint acc isLast => ⟨0, if isLast then acc else 0⟩

/-- Two steps that lead to the same place and that no check compares, the earlier one first. -/
def Crosses (view : Lines) : PathStep → PathStep → Prop
  | .book _ out, .direct _ dst currency => out = ⟨currency, dst⟩
  | .sfcEndpoint _ isLast, .book _ out => isLast = false ∧ out = sfcIssue
  | .direct _ dst currency, .book _ out => view.fix1373 = false ∧ out = ⟨currency, dst⟩
  | _, _ => False

def Apart (view : Lines) (steps : List PathStep) : Prop :=
  steps.Pairwise fun s t => s.leadsTo = t.leadsTo → Crosses view s t

/-- What the three sets say about the steps, as long as the last step has not been made. -/
structure Built (view : Lines) (b : Building) : Prop where
  dsts : ∀ src dst currency, .direct src dst currency ∈ b.result → ⟨currency, dst⟩ ∈ b.seenDirectDsts
  outs : ∀ in_ out, .book in_ out ∈ b.result → out ∈ b.seenBookOuts
  first : ∀ acc isLast, .sfcEndpoint acc isLast ∈ b.result → isLast = false
  apart : Apart view b.result

def Kept (view : Lines) (isLast : Bool) (b : Building) : Prop :=
  Apart view b.result.dropLast ∧ (isLast = false → Built view b)

section Proofs

variable {view : Lines} {offerCrossing isLast : Bool} {b b' : Building} {s t : PathStep} {steps : List PathStep}

theorem Crosses.leadsTo (h : Crosses view s t) : s.leadsTo = t.leadsTo := by
  cases s <;> cases t <;> simp_all [Crosses, PathStep.leadsTo, sfcIssue]

theorem Apart.push (h : Apart view steps) (hnew : ∀ s ∈ steps, s.leadsTo = t.leadsTo → Crosses view s t) :
    Apart view (steps ++ [t]) := by
  refine List.pairwise_append.2 ⟨h, List.pairwise_singleton _ _, fun s hs u hu => ?_⟩
  rw [List.mem_singleton.1 hu]
  exact hnew s hs

theorem Built.dropLast (h : Built view b) : Apart view b.result.dropLast := h.apart.sublist (List.dropLast_sublist _)

theorem Built.kept (h : Built view b) : Kept view isLast b := ⟨h.dropLast, fun _ => h⟩

section

variable (hb : Built view b)
include hb

theorem DirectStepI.check_built {src dst : AccountID} {currency : Currency}
    (h : DirectStepI.check view offerCrossing isLast src dst currency b = .ok b') : Built view b' := by
  unfold DirectStepI.check at h
  split_ifs at h with hends _ _ _ _ _ hloop
  all_goals cases h
  refine ⟨?_, ?_, ?_, hb.apart.push fun s hs hsame => ?_⟩
  · intro src' dst' currency' hmem
    have := hb.dsts src' dst' currency'
    grind
  · intro in_ out hmem
    exact hb.outs in_ out (by simpa using hmem)
  · intro acc isLast' hmem
    exact hb.first acc isLast' (by simpa using hmem)
  simp only [PathStep.leadsTo] at hsame
  cases s with
  | direct src' dst' currency' => exact absurd (.inr (hsame ▸ hb.dsts _ _ _ hs)) hloop
  | book in_ out => exact hsame
  | sfcEndpoint acc isLast' =>
    have hfirst := hb.first _ _ hs
    have hdst := congrArg Issue.account hsame
    exact absurd (.inr (.inl (by simpa [hfirst] using hdst.symm))) hends

theorem BookStep.check_built {in_ out : Issue} (h : BookStep.check view in_ out b = .ok b') :
    Built view b' := by
  unfold BookStep.check at h
  split_ifs at h with _ hloop hdst
  all_goals cases h
  refine ⟨?_, ?_, ?_, hb.apart.push fun s hs hsame => ?_⟩
  · intro src dst currency hmem
    exact hb.dsts src dst currency (by simpa using hmem)
  · intro in' out' hmem
    have := hb.outs in' out'
    grind
  · intro acc isLast hmem
    exact hb.first acc isLast (by simpa using hmem)
  simp only [PathStep.leadsTo] at hsame
  cases s with
  | direct src dst currency =>
    have hseen : out ∈ b.seenDirectDsts := hsame ▸ hb.dsts src dst currency hs
    exact ⟨by simpa [hseen] using hdst, hsame.symm⟩
  | book in' out' => exact absurd (.inl (hsame ▸ hb.outs _ _ hs)) hloop
  | sfcEndpoint acc isLast =>
    have hfirst := hb.first _ _ hs
    exact ⟨hfirst, by simpa [sfcIssue, hfirst] using hsame.symm⟩

theorem SFCEndpointStep.check_kept {acc : AccountID}
    (h : SFCEndpointStep.check view isLast acc b = .ok b') : Kept view isLast b' := by
  unfold SFCEndpointStep.check at h
  dsimp only at h
  split_ifs at h with _ _ hplace
  all_goals cases h
  refine ⟨by simpa using hb.apart, fun hlast => ?_⟩
  -- A step that is not the last one can only be the first one.
  have hempty : b.result = [] := by simpa [hlast] using hplace
  refine ⟨?_, ?_, ?_, ?_⟩ <;> simp [hempty, hlast, Apart]

theorem toStep_kept {e1 e2 : STPathElement} {curIssue : Issue}
    (h : toStep view offerCrossing isLast e1 e2 curIssue b = .ok b') : Kept view isLast b' := by
  unfold toStep at h
  dsimp only at h
  split_ifs at h
  all_goals first
    | exact SFCEndpointStep.check_kept hb h
    | exact (DirectStepI.check_built hb h).kept
    | exact (BookStep.check_built hb h).kept

theorem addStep_kept {cur next : STPathElement} {curIssue : Issue}
    (h : addStep view offerCrossing isLast cur next curIssue b = .ok b') : Kept view isLast b' := by
  unfold addStep at h
  split_ifs at h
  exact toStep_kept hb h

theorem addPair_kept {cur next : STPathElement} {curIssue : Issue}
    (h : addPair view offerCrossing isLast cur next curIssue b = .ok b') : Kept view isLast b' := by
  have himplied : addImplied view offerCrossing isLast cur next curIssue b = .ok b' → Kept view isLast b' := by
    intro h
    obtain ⟨b₁, hdirect, h⟩ := bind_ok.1 h
    exact addStep_kept (DirectStepI.check_built hb hdirect) h
  unfold addPair at h
  split_ifs at h with _ _ hcase hsame hissue hlast
  · exact himplied h
  · exact himplied h
  · cases h
    exact hb.kept
  · exact (DirectStepI.check_built hb h).kept
  · exact (SFCEndpointStep.check_kept hb h).imp_right fun hbuilt _ => hbuilt rfl
  · exact addStep_kept hb h

/-- The last step is not compared with the others. -/
theorem addPairs_apart {path : List STPathElement} {curIssue : Issue}
    (h : addPairs view offerCrossing path curIssue b = .ok b') : Apart view b'.result.dropLast := by
  induction path generalizing curIssue b with
  | nil =>
    cases h
    exact hb.dropLast
  | cons cur path ih =>
    cases path with
    | nil =>
      cases h
      exact hb.dropLast
    | cons next rest =>
      obtain ⟨b₁, hpair, h⟩ := bind_ok.1 h
      obtain ⟨hdone, hbuilt⟩ := addPair_kept hb hpair
      cases rest with
      | nil =>
        cases h
        exact hdone
      | cons next' rest => exact ih (hbuilt rfl) h

end

end Proofs

namespace Route

variable (r : Route)

/-- The place is where the strand starts, or where it ends. -/
def IsEnd (steps : List PathStep) (place : Issue) : Prop :=
  place = ⟨r.start.currency, r.src⟩ ∨ some place = steps.getLast?.map PathStep.leadsTo

/-- No two steps lead to the same place, other than an end of the strand. -/
def NoLoops (steps : List PathStep) : Prop :=
  steps.Pairwise fun s t => s.leadsTo = t.leadsTo → r.IsEnd steps s.leadsTo

end Route

/-- A ledger in which every account is there and no line is refused. -/
def openLines : Lines := ⟨fun _ => true, fun _ _ _ => tesSUCCESS, fun _ _ _ _ => tesSUCCESS, fun _ _ _ _ => tesSUCCESS,
  fun _ _ => tesSUCCESS, true⟩

/-- From `10`, through a book into the currency `1` of `20`, to `30` and back to `20`, and through a book to `40`. -/
def roundTrip : Route where
  src := 10
  dst := 40
  deliver := ⟨2, 20⟩
  sendMaxIssue := some sfcIssue
  path := [ofOptional none (some 1) (some 20), Route.account 30, Route.account 20, ofOptional none (some 2) (some 20)]
  offerCrossing := false

def roundTripSteps : List PathStep :=
  [.sfcEndpoint 10 false, .book sfcIssue ⟨1, 20⟩, .direct 20 30 1, .direct 30 20 1, .book ⟨1, 20⟩ ⟨2, 20⟩, .direct 20 40 2]

end ScfChain.Paths
