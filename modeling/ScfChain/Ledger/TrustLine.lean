import ScfChain.Tx.Transactor

/-!
# Trust lines

How `View.cpp` moves issued money: `SupplyFinanceChainCredit` from any account to any other, and `issueIOU` and `redeemIOU` of an
issuer and a holder. Each finds the trust line of the two accounts and changes its balance. A line that is missing is made; a
line whose sender has no more use for it is taken off the reserve of the sender, and deleted if the receiver has none either.

* `AmountOps` is what the code asks of `STAmount`; `sub` is `operator-`, which may throw.
* `PaymentView` is an `ApplyView` with the calls of its hooks. The two hooks are independent of each other.
* A line that was peeked is changed in place by `mutateLine`; `update` is called on it only if it is not deleted.
* An `assert` is not part of the program.
-/

set_option linter.unusedSectionVars false

namespace ScfChain.Ledger

open Std Data Tx Tx.TER

/-- What is asked of `STAmount`. -/
structure AmountOps (Amt : Type) where
  currency : Amt → ℕ
  issuer : Amt → AccountID
  setIssuer : Amt → AccountID → Amt
  /-- The amount zero of an issue. -/
  zero : ℕ → AccountID → Amt
  zeroed : Amt → Amt
  negate : Amt → Amt
  sub : Amt → Amt → Except String Amt
  signum : Amt → ℤ

structure Issue where
  currency : ℕ
  account : AccountID

def noAccount : AccountID := 1

def lsfDefaultSupplyFinanceChain : BitVec 32 := 0x00800000#32

/-- The arguments of `creditHook`. -/
structure CreditCall (Amt : Type) where
  sender : AccountID
  receiver : AccountID
  amount : Amt
  preCreditBalance : Amt

/-- The arguments of `adjustOwnerCountHook`. -/
structure OwnerCountCall where
  account : AccountID
  cur : ℕ
  next : ℕ

/-- A view and the calls of its hooks. -/
structure PaymentView (K Amt : Type) [Ord K] where
  view : Sandbox K (Node K Amt)
  credits : List (CreditCall Amt)
  ownerCounts : List OwnerCountCall

abbrev PaymentM (K Amt : Type) [Ord K] := StateT (PaymentView K Amt) (Except String)

variable {K Amt : Type} [Ord K] [TransOrd K] [LawfulEqOrd K] [DecidableEq K]

/-- A program that calls no hook. -/
def onView {α : Type} (m : ApplyM K (Node K Amt) α) : PaymentM K Amt α := fun s =>
  (m s.view).map fun r => (r.1, { s with view := r.2 })

def creditHook (sender receiver : AccountID) (amount preCreditBalance : Amt) : PaymentM K Amt Unit := fun s =>
  .ok ((), { s with credits := s.credits ++ [⟨sender, receiver, amount, preCreditBalance⟩] })

def adjustOwnerCountHook (account : AccountID) (cur next : ℕ) : PaymentM K Amt Unit := fun s =>
  .ok ((), { s with ownerCounts := s.ownerCounts ++ [⟨account, cur, next⟩] })

/-- A change of a line that was peeked. -/
def mutateLine (key : K) (f : Line Amt → Line Amt) : ApplyM K (Node K Amt) Unit := fun s =>
  match s.items.items[key]? with
  | none => .error "null pointer"
  | some e => .ok ((), { s with items := s.items.set key { e with sle := Kind.line.map f e.sle } })

namespace Line

/-- The side of the account, high or low. -/
def side (line : Line Amt) (high : Bool) : LineSide Amt := if high then line.high else line.low

def clearReserve (high : Bool) (line : Line Amt) : Line Amt :=
  if high then { line with high := { line.high with reserve := false } }
  else { line with low := { line.low with reserve := false } }

end Line

variable (ops : AmountOps Amt) (keys : Indexes K) (sorted : Bool)

/-- `getSupplyFinanceChainStateIndex`. -/
def lineIndex (a b : AccountID) (currency : ℕ) : K := if a < b then keys.line a b currency else keys.line b a currency

/-- `adjustOwnerCount` of an account root that was peeked, with its hook. -/
def adjustOwners (id : AccountID) (sle : AccountRoot) (amount : ℤ) : PaymentM K Amt Unit := do
  adjustOwnerCountHook sle.account sle.ownerCount (confineOwnerCount sle.ownerCount amount)
  onView (updateAs Kind.accountRoot (keys.account id) fun root =>
    { root with ownerCount := confineOwnerCount sle.ownerCount amount })

/-- A line as it is made, before its fields are set. -/
def newLine : Line Amt :=
  let side : LineSide Amt := ⟨0, ops.zero 0 0, 0, 0, 0, false, false, false, false⟩
  ⟨ops.zero 0 0, side, side⟩

/-- `trustCreate`; `sleAccount` is the root of `account`, the one whose side is set. -/
def trustCreate (bSrcHigh : Bool) (uSrcAccountID uDstAccountID : AccountID) (uIndex : K) (account : AccountID)
    (sleAccount : AccountRoot) (bAuth bNoSupplyFinanceChain bFreeze : Bool) (saBalance saLimit : Amt)
    (uQualityIn uQualityOut : ℕ) : PaymentM K Amt TER := do
  let uLowAccountID := if ¬ bSrcHigh then uSrcAccountID else uDstAccountID
  let uHighAccountID := if bSrcHigh then uSrcAccountID else uDstAccountID
  onView (insertAs Kind.line uIndex (newLine ops))
  match ← onView (viewDirAdd keys.dirNode sorted false (keys.ownerDir uLowAccountID) uIndex) with
  | none => return tecDIR_FULL
  | some lowNode =>
    match ← onView (viewDirAdd keys.dirNode sorted false (keys.ownerDir uHighAccountID) uIndex) with
    | none => return tecDIR_FULL
    | some highNode =>
      let bSetDst := ops.issuer saLimit = uDstAccountID
      let bSetHigh : Bool := bSrcHigh ^^ bSetDst
      let slePeer ← onView (demandAs Kind.accountRoot (keys.account (if bSetHigh then uLowAccountID else uHighAccountID)))
      let peerID := if bSetDst then uSrcAccountID else uDstAccountID
      let set : LineSide Amt :=
        ⟨ops.issuer saLimit, saLimit, if bSetHigh then highNode else lowNode, uQualityIn, uQualityOut, true,
          bNoSupplyFinanceChain, bFreeze, bAuth⟩
      let peer : LineSide Amt :=
        ⟨peerID, ops.zero (ops.currency saBalance) peerID, if bSetHigh then lowNode else highNode, 0, 0, false,
          ¬ hasFlag slePeer.flags lsfDefaultSupplyFinanceChain, false, false⟩
      adjustOwners keys account sleAccount 1
      onView (mutateLine uIndex fun _ => if bSetHigh then ⟨ops.negate saBalance, peer, set⟩ else ⟨saBalance, set, peer⟩)
      creditHook uSrcAccountID uDstAccountID saBalance (ops.zeroed saBalance)
      return tesSUCCESS

/-- `trustDelete`. -/
def trustDelete (uIndex : K) (line : Line Amt) (uLowAccountID uHighAccountID : AccountID) : PaymentM K Amt TER := do
  if ¬ (← onView (dirRemove keys.dirNode (keys.ownerDir uLowAccountID) line.low.node uIndex false)) then return tefBAD_LEDGER
  else if ¬ (← onView (dirRemove keys.dirNode (keys.ownerDir uHighAccountID) line.high.node uIndex false)) then return tefBAD_LEDGER
  else
    onView (ApplyM.erase uIndex)
    return tesSUCCESS

/-- The sender had money and has none now, and its side counts toward its reserve. -/
def spent (before after : Amt) (side : LineSide Amt) : Bool := 0 < ops.signum before ∧ ops.signum after ≤ 0 ∧ side.reserve

/-- Nothing else keeps the side in the reserve of an account with the flags `flags`. -/
def unused (flags : BitVec 32) (side : LineSide Amt) : Bool :=
  side.noRipple ≠ hasFlag flags lsfDefaultSupplyFinanceChain ∧ ¬ side.freeze ∧ ops.signum side.limit = 0 ∧
    side.qualityIn = 0 ∧ side.qualityOut = 0

/-- The end of a transfer: the balance, in terms of the sender, is written, and the line is deleted or updated. -/
def settleLine (uIndex : K) (line : Line Amt) (bSenderHigh : Bool) (sender receiver : AccountID) (balance : Amt) (bDelete : Bool) :
    PaymentM K Amt TER := do
  onView (mutateLine uIndex fun line => { line with balance := if bSenderHigh then ops.negate balance else balance })
  if bDelete then
    trustDelete keys uIndex line (if bSenderHigh then receiver else sender) (if bSenderHigh then sender else receiver)
  else
    onView (ApplyM.update uIndex id)
    return tesSUCCESS

/-- The line is missing: it is made, with the amount as the balance of the receiver. -/
def createLine (sender receiver : AccountID) (uIndex : K) (saAmount : Amt) : PaymentM K Amt TER := do
  let sleAccount ← onView (demandAs Kind.accountRoot (keys.account receiver))
  trustCreate ops keys sorted (receiver < sender) sender receiver uIndex receiver sleAccount false
    (¬ hasFlag sleAccount.flags lsfDefaultSupplyFinanceChain) false (ops.setIssuer saAmount noAccount)
    (ops.zero (ops.currency saAmount) receiver) 0 0

/-- What `SupplyFinanceChainCredit` does with the line. -/
def creditLine (uSenderID uReceiverID : AccountID) (uIndex : K) (line : Line Amt) (saAmount : Amt) : PaymentM K Amt TER := do
  let bSenderHigh : Bool := uReceiverID < uSenderID
  let saBefore := if bSenderHigh then ops.negate line.balance else line.balance
  creditHook uSenderID uReceiverID saAmount saBefore
  let saBalance ← ops.sub saBefore saAmount
  let side := line.side bSenderHigh
  if spent ops saBefore saBalance side then
    match ← onView (readAs Kind.accountRoot (keys.account uSenderID)) with
    | none => onView (ApplyM.logicError "null pointer")
    | some root =>
      if unused ops root.flags side then
        let sle ← onView (demandAs Kind.accountRoot (keys.account uSenderID))
        adjustOwners keys uSenderID sle (-1)
        onView (mutateLine uIndex (Line.clearReserve bSenderHigh))
        settleLine ops keys uIndex line bSenderHigh uSenderID uReceiverID saBalance
          (ops.signum saBalance = 0 ∧ ¬ (line.side !bSenderHigh).reserve)
      else settleLine ops keys uIndex line bSenderHigh uSenderID uReceiverID saBalance false
  else settleLine ops keys uIndex line bSenderHigh uSenderID uReceiverID saBalance false

/-- **`SupplyFinanceChainCredit`**. -/
def supplyFinanceChainCredit (uSenderID uReceiverID : AccountID) (saAmount : Amt) : PaymentM K Amt TER := do
  let uIndex := lineIndex keys uSenderID uReceiverID (ops.currency saAmount)
  match ← onView (peekAs Kind.line uIndex) with
  | none => createLine ops keys sorted uSenderID uReceiverID uIndex saAmount
  | some line => creditLine ops keys uSenderID uReceiverID uIndex line saAmount

/-- `updateTrustLine`. -/
def updateTrustLine (uIndex : K) (state : Line Amt) (bSenderHigh : Bool) (sender : AccountID) (before after : Amt) :
    PaymentM K Amt Bool := do
  let side := state.side bSenderHigh
  let sle ← onView (peekAs Kind.accountRoot (keys.account sender))
  if spent ops before after side then
    match sle with
    | none => onView (ApplyM.logicError "null pointer")
    | some sle =>
      if unused ops sle.flags side then
        adjustOwners keys sender sle (-1)
        onView (mutateLine uIndex (Line.clearReserve bSenderHigh))
        return ops.signum after = 0 ∧ ¬ (state.side !bSenderHigh).reserve
      else return false
  else return false

/-- What `issueIOU` and `redeemIOU` do with the line. -/
def moveIOU (sender receiver : AccountID) (uIndex : K) (state : Line Amt) (amount : Amt) : PaymentM K Amt TER := do
  let bSenderHigh : Bool := receiver < sender
  let start_balance := if bSenderHigh then ops.negate state.balance else state.balance
  let final_balance ← ops.sub start_balance amount
  let must_delete ← updateTrustLine ops keys uIndex state bSenderHigh sender start_balance final_balance
  creditHook sender receiver amount start_balance
  settleLine ops keys uIndex state bSenderHigh sender receiver final_balance must_delete

/-- **`issueIOU`**. -/
def issueIOU (account : AccountID) (amount : Amt) (issue : Issue) : PaymentM K Amt TER := do
  let index := lineIndex keys issue.account account issue.currency
  match ← onView (peekAs Kind.line index) with
  | none => createLine ops keys sorted issue.account account index amount
  | some state => moveIOU ops keys issue.account account index state amount

/-- **`redeemIOU`**. -/
def redeemIOU (account : AccountID) (amount : Amt) (issue : Issue) : PaymentM K Amt TER := do
  let index := lineIndex keys account issue.account issue.currency
  match ← onView (peekAs Kind.line index) with
  | none => return tefINTERNAL
  | some state => moveIOU ops keys account issue.account index state amount

/-! ## The two ways agree -/

section Agree

variable {ops keys sorted} {s s' : PaymentView K Amt} {key : K} {v : Sandbox K (Node K Amt)}

/-- Two programs returned the same code and left the same content and the same calls of the hooks, or both ended in an
error. -/
def SameOutcome : Except String (TER × PaymentView K Amt) → Except String (TER × PaymentView K Amt) → Prop
  | .ok (r, s), .ok (r', s') =>
    r = r' ∧ s.view.content = s'.view.content ∧ s.credits = s'.credits ∧ s.ownerCounts = s'.ownerCounts
  | .error _, .error _ => True
  | _, _ => False

theorem SameOutcome.refl (x : Except String (TER × PaymentView K Amt)) : SameOutcome x x := by
  cases x with
  | error e => trivial
  | ok p => exact ⟨rfl, rfl, rfl, rfl⟩

/-- `peek` finds what `read` finds, changes nothing in the content, and keeps the items. -/
theorem peekAs_readAs {α : Type} (kind : Kind K Amt α) (key : K) (v : Sandbox K (Node K Amt)) :
    ∃ r v', peekAs kind key v = .ok (r, v') ∧ readAs kind key v = .ok (r, v) ∧ v'.content = v.content ∧
      ∀ (k : K) e, v.items.items[k]? = some e → v'.items.items[k]? = some e := by
  refine ⟨_, _, rfl, ?_, ?_, fun k e he => ?_⟩
  · show Except.ok ((v.items.read v.base.read (kind.keylet key)).bind kind.of, v) = _
    rw [← peek_read v.items v.base.read (kind.keylet key) v.fresh]
    rfl
  · show overlay Entry.shown (v.items.peek v.base.read (kind.keylet key) v.fresh).2.items v.base.content = _
    rcases peek_cases v.items v.base.read (kind.keylet key) v.fresh with ⟨hsame, -⟩ | ⟨sle, hi, hb, hset⟩
    · rw [hsame]
      rfl
    · rw [View.read_eq] at hb
      obtain ⟨hbase, -⟩ := Option.filter_eq_some_iff.mp hb
      have hc : v.content (kind.keylet key).key = some sle := (overlay_of_none hi).trans hbase
      rw [hset]
      refine (overlay_insert (kind.keylet key).key _).trans ?_
      show Function.update v.content (kind.keylet key).key (some sle) = v.content
      rw [← hc, Function.update_eq_self]
  · show (v.items.peek v.base.read (kind.keylet key) v.fresh).2.items[k]? = some e
    rcases peek_cases v.items v.base.read (kind.keylet key) v.fresh with ⟨hsame, -⟩ | ⟨sle, hi, -, hset⟩
    · rw [hsame, he]
    · rw [hset, ApplyStateTable.set, getElem?_insert_eq, if_neg, he]
      rintro rfl
      cases he.symm.trans hi

theorem onView_ok {α : Type} {m : ApplyM K (Node K Amt) α} {a : α} {v' : Sandbox K (Node K Amt)} (h : m v = .ok (a, v'))
    (credits : List (CreditCall Amt)) (ownerCounts : List OwnerCountCall) :
    onView m ⟨v, credits, ownerCounts⟩ = .ok (a, ⟨v', credits, ownerCounts⟩) := by
  unfold onView
  rw [h]
  rfl

theorem onView_error {α : Type} {m : ApplyM K (Node K Amt) α} {what : String} (h : m v = .error what)
    (credits : List (CreditCall Amt)) (ownerCounts : List OwnerCountCall) :
    onView m ⟨v, credits, ownerCounts⟩ = .error what := by
  unfold onView
  rw [h]
  rfl

variable (ops keys) in
/-- The end of a transfer that does not delete the line. -/
theorem settleLine_update (line : Line Amt) {e : Entry (Node K Amt)} (he : s.view.items.items[key]? = some e)
    (hne : e.action ≠ .erase) (high : Bool) (sender receiver : AccountID) (balance : Amt) :
    ∃ v', settleLine ops keys key line high sender receiver balance false s = .ok (tesSUCCESS, { s with view := v' }) ∧
      v'.content = Function.update s.view.content key (some (Kind.line.map
        (fun line => { line with balance := if high then ops.negate balance else balance }) e.sle)) := by
  generalize hsle : Kind.line.map (fun line : Line Amt => { line with balance := if high then ops.negate balance else balance })
    e.sle = sle
  obtain ⟨a, ha, hupdate⟩ : ∃ a, a ≠ Action.erase ∧ (s.view.items.set key ⟨e.action, e.id, sle⟩).update ⟨key, e.id, sle⟩ =
      .ok ((s.view.items.set key ⟨e.action, e.id, sle⟩).set key ⟨a, e.id, sle⟩) := by
    rw [ApplyStateTable.update]
    simp only [ApplyStateTable.set, getElem?_insert_eq, if_true, ne_eq, not_true, if_false]
    obtain ⟨_ | _ | _ | _, id, _⟩ := e
    · exact ⟨.modify, by decide, rfl⟩
    · exact absurd rfl hne
    · exact ⟨.insert, by decide, rfl⟩
    · exact ⟨.modify, by decide, rfl⟩
  refine ⟨{ s.view with items := (s.view.items.set key ⟨e.action, e.id, sle⟩).set key ⟨a, e.id, sle⟩ }, ?_, ?_⟩
  · have hmutate : mutateLine key (fun line : Line Amt => { line with balance := if high then ops.negate balance else balance })
        s.view = .ok ((), { s.view with items := s.view.items.set key ⟨e.action, e.id, sle⟩ }) := by
      unfold mutateLine
      simp only [he, hsle]
    refine bind_run.mpr ⟨(), _, onView_ok hmutate _ _, bind_run.mpr ⟨(), _, onView_ok ?_ _ _, rfl⟩⟩
    unfold ApplyM.update
    simp only [ApplyStateTable.set, getElem?_insert_eq, if_true, id] at hupdate ⊢
    rw [hupdate]
    rfl
  · refine (overlay_insert key _).trans ?_
    rw [show (s.view.items.set key ⟨e.action, e.id, sle⟩).items = s.view.items.items.insert key ⟨e.action, e.id, sle⟩ from rfl,
      overlay_insert, Function.update_idem]
    cases a <;> first | rfl | exact absurd rfl ha

theorem bind_apply {α β : Type} (m : PaymentM K Amt α) (k : α → PaymentM K Amt β) (s : PaymentView K Amt) :
    (m >>= k) s = m s >>= fun p => k p.1 p.2 := rfl

theorem lift_ok {α : Type} (a : α) (s : PaymentView K Amt) : (liftM (.ok a : Except String α) : PaymentM K Amt α) s = .ok (a, s) :=
  rfl

theorem moveIOU_creditLine {e : Entry (Node K Amt)} (he : s.view.items.items[key]? = some e) (hne : e.action ≠ .erase)
    (sender receiver : AccountID) (line : Line Amt) (amount : Amt) :
    SameOutcome (moveIOU ops keys sender receiver key line amount s) (creditLine ops keys sender receiver key line amount s) := by
  obtain ⟨v, credits, ownerCounts⟩ := s
  obtain ⟨root, v', hpeek, hread, hcontent, hitems⟩ := peekAs_readAs Kind.accountRoot (keys.account sender) v
  unfold moveIOU creditLine updateTrustLine
  dsimp only
  generalize decide (receiver < sender) = high
  generalize (if high = true then ops.negate line.balance else line.balance) = before
  cases hsub : ops.sub before amount with
  | error what => trivial
  | ok after =>
    have hsame : SameOutcome
        (settleLine ops keys key line high sender receiver after false
          ⟨v', credits ++ [⟨sender, receiver, amount, before⟩], ownerCounts⟩)
        (settleLine ops keys key line high sender receiver after false
          ⟨v, credits ++ [⟨sender, receiver, amount, before⟩], ownerCounts⟩) := by
      obtain ⟨w, hw, hcw⟩ := settleLine_update ops keys line
        (s := ⟨v', credits ++ [⟨sender, receiver, amount, before⟩], ownerCounts⟩) (hitems key e he) hne high sender
        receiver after
      obtain ⟨w', hw', hcw'⟩ := settleLine_update ops keys line
        (s := ⟨v, credits ++ [⟨sender, receiver, amount, before⟩], ownerCounts⟩) he hne high sender receiver after
      rw [hw, hw']
      refine ⟨rfl, ?_, rfl, rfl⟩
      show w.content = w'.content
      rw [hcw, hcw', hcontent]
    simp only [bind_apply, ok_bind, lift_ok, creditHook]
    rw [onView_ok hpeek]
    simp only [ok_bind]
    by_cases hspent : spent ops before after (line.side high) = true
    · simp only [hspent, if_true, bind_apply]
      rw [onView_ok hread, ok_bind]
      cases root with
      | none => trivial
      | some root =>
        by_cases hunused : unused ops root.flags (line.side high) = true
        · -- the sender gives up its reserve
          simp only [hunused, if_true, bind_apply]
          have hdemand : demandAs Kind.accountRoot (keys.account sender) v = .ok (root, v') := by
            refine bind_run.mpr ⟨_, _, hpeek, rfl⟩
          rw [onView_ok hdemand, ok_bind]
          simp only [adjustOwners, adjustOwnerCountHook, bind_apply, ok_bind]
          cases hupdate : updateAs Kind.accountRoot (keys.account sender)
            (fun r : AccountRoot => { r with ownerCount := confineOwnerCount root.ownerCount (-1) }) v' with
          | error what =>
            rw [onView_error hupdate, onView_error hupdate]
            trivial
          | ok p =>
            rw [onView_ok hupdate, onView_ok hupdate]
            simp only [ok_bind]
            cases hmutate : mutateLine key (Line.clearReserve high : Line Amt → Line Amt) p.2 with
            | error what =>
              rw [onView_error hmutate, onView_error hmutate]
              trivial
            | ok q =>
              rw [onView_ok hmutate, onView_ok hmutate]
              exact SameOutcome.refl _
        · simp only [hunused]
          exact hsame
    · simp only [hspent]
      exact hsame

/-- A line that was found is among the items. -/
theorem item_of_peekAs {v v' : Sandbox K (Node K Amt)} {line : Line Amt} (h : peekAs Kind.line key v = .ok (some line, v')) :
    ∃ e, v'.items.items[key]? = some e ∧ e.action ≠ .erase := by
  have hrun : Except.ok (((v.items.peek v.base.read (Kind.line.keylet key) v.fresh).1.map Ptr.sle).bind Kind.line.of,
      ({ v with items := (v.items.peek v.base.read (Kind.line.keylet key) v.fresh).2, fresh := v.fresh + 1 } :
        Sandbox K (Node K Amt))) = (Except.ok (some line, v') : Except String _) := h
  obtain ⟨hsome, rfl⟩ := Prod.mk.inj (Except.ok.inj hrun)
  dsimp only
  rcases peek_cases v.items v.base.read (Kind.line.keylet key) v.fresh with ⟨hsame, hitem⟩ | ⟨sle, -, -, hset⟩
  · rw [hsame]
    refine hitem fun hnone => ?_
    rw [hnone] at hsome
    cases hsome
  · rw [hset]
    exact ⟨_, by rw [ApplyStateTable.set, getElem?_insert_eq]; exact if_pos rfl, by simp⟩

/-- Amounts of one issue of account 2 that are whole numbers. -/
def wholeAmounts : AmountOps ℤ where
  currency _ := 840
  issuer _ := 2
  setIssuer a _ := a
  zero _ _ := 0
  zeroed _ := 0
  negate a := -a
  sub a b := .ok (a - b)
  signum a := a.sign

end Agree

end ScfChain.Ledger
