import Mathlib

/-!
# Payment sandboxes

A `PaymentSandbox` keeps the money that a payment moves from being spent in the same payment. Its table `DeferredCredits`
notes, for each pair of accounts and each currency, what went either way and the balance before; `balanceHook` is what is
left to spend of a balance.

* A sandbox is the list of its table and the tables of the sandboxes it is nested in (`ps_`), its own first. What it does to
  ledger entries, and the owner counts in the table, are not part of this module.
* The values of amounts are an ordered group: sums are exact. A sum has the issue of its first amount.
* The account of SFC is `0`.
-/

set_option linter.unusedSectionVars false

namespace ScfChain.Ledger

variable {A C Q : Type} [LinearOrder A] [Zero A] [DecidableEq C] [AddCommGroup Q] [LinearOrder Q] [IsOrderedAddMonoid Q]

/-- `STAmount`. -/
structure Amount (A C Q : Type) where
  currency : C
  issuer : A
  value : Q

namespace Amount

def zeroed (a : Amount A C Q) : Amount A C Q := { a with value := 0 }

def neg (a : Amount A C Q) : Amount A C Q := { a with value := -a.value }

def add (a b : Amount A C Q) : Amount A C Q := { a with value := a.value + b.value }

def sub (a b : Amount A C Q) : Amount A C Q := { a with value := a.value - b.value }

/-- `std::min`. -/
def min (a b : Amount A C Q) : Amount A C Q := if b.value < a.value then b else a

theorem value_min (a b : Amount A C Q) : (a.min b).value = Min.min a.value b.value := by
  unfold min
  split_ifs with h
  · exact (min_eq_right h.le).symm
  · exact (min_eq_left (not_lt.mp h)).symm

end Amount

/-! ## `DeferredCredits` -/

def makeKey (a1 a2 : A) (c : C) : A × A × C := if a1 < a2 then (a1, a2, c) else (a2, a1, c)

structure Value (A C Q : Type) where
  lowAcctCredits : Amount A C Q
  highAcctCredits : Amount A C Q
  lowAcctOrigBalance : Amount A C Q

/-- One entry of `DeferredCredits::apply`: the original balance stays. -/
def Value.merge (toVal fromVal : Value A C Q) : Value A C Q :=
  { toVal with
    lowAcctCredits := toVal.lowAcctCredits.add fromVal.lowAcctCredits
    highAcctCredits := toVal.highAcctCredits.add fromVal.highAcctCredits }

structure Adjustment (A C Q : Type) where
  debits : Amount A C Q
  credits : Amount A C Q
  origBalance : Amount A C Q

structure DeferredCredits (A C Q : Type) where
  credits_ : A × A × C → Option (Value A C Q)

namespace DeferredCredits

def new : DeferredCredits A C Q := ⟨fun _ => none⟩

def credit (t : DeferredCredits A C Q) (sender receiver : A) (amount preCreditSenderBalance : Amount A C Q) :
    DeferredCredits A C Q :=
  let k := makeKey sender receiver amount.currency
  let v : Value A C Q :=
    match t.credits_ k with
    | none =>
      if sender < receiver then ⟨amount.zeroed, amount, preCreditSenderBalance⟩
      else ⟨amount, amount.zeroed, preCreditSenderBalance.neg⟩
    | some v =>
      if sender < receiver then { v with highAcctCredits := v.highAcctCredits.add amount }
      else { v with lowAcctCredits := v.lowAcctCredits.add amount }
  ⟨Function.update t.credits_ k (some v)⟩

/-- The adjustments of the balance between `main` and `other`. -/
def adjustments (t : DeferredCredits A C Q) (main other : A) (currency : C) : Option (Adjustment A C Q) :=
  (t.credits_ (makeKey main other currency)).map fun v =>
    if main < other then ⟨v.highAcctCredits, v.lowAcctCredits, v.lowAcctOrigBalance⟩
    else ⟨v.lowAcctCredits, v.highAcctCredits, v.lowAcctOrigBalance.neg⟩

/-- `apply` of the table to the table `target`. -/
def apply (t target : DeferredCredits A C Q) : DeferredCredits A C Q where
  credits_ k := Option.merge Value.merge (target.credits_ k) (t.credits_ k)

end DeferredCredits

/-! ## `PaymentSandbox` -/

/-- The rules that `balanceHook` asks for; the first and the last depend on the time of the ledger. -/
structure PaymentRules where
  fix1141 : Bool
  fix1368 : Bool
  fix1274 : Bool

/-- `delta`, `lastBal` and `minBal` of `balanceHook`, after a table. -/
def adjustStep (account issuer : A) (currency : C) (r : Amount A C Q × Amount A C Q × Amount A C Q)
    (tab : DeferredCredits A C Q) : Amount A C Q × Amount A C Q × Amount A C Q :=
  match tab.adjustments account issuer currency with
  | none => r
  | some adj =>
    (r.1.add adj.debits, adj.origBalance, if adj.origBalance.value < r.2.2.value then adj.origBalance else r.2.2)

/-- `balanceHook` before its last lines: with `fix1141` the debits are taken from the first balance, without it the credits
from the present one. -/
def adjustedAmt (rules : PaymentRules) (tabs : List (DeferredCredits A C Q)) (account issuer : A) (amount : Amount A C Q) :
    Amount A C Q :=
  if rules.fix1141 then
    let (delta, lastBal, minBal) := tabs.foldl (adjustStep account issuer amount.currency) (amount.zeroed, amount, amount)
    let adjusted := amount.min (lastBal.sub delta)
    let adjusted := if rules.fix1368 then adjusted.min minBal else adjusted
    if rules.fix1274 then { adjusted with issuer := amount.issuer } else adjusted
  else
    tabs.foldl (fun adjusted tab =>
      ((tab.adjustments account issuer amount.currency).map fun adj => adjusted.sub adj.credits).getD adjusted) amount

def balanceHook (rules : PaymentRules) (tabs : List (DeferredCredits A C Q)) (account issuer : A) (amount : Amount A C Q) :
    Amount A C Q :=
  let adjusted := adjustedAmt rules tabs account issuer amount
  if issuer = 0 ∧ adjusted.value < 0 then adjusted.zeroed else adjusted

/-! ## What the tables have noted -/

section Tables

variable {a i : A} {c : C} {tab tab' : DeferredCredits A C Q} {amount pre : Amount A C Q}

theorem makeKey_comm (hne : a ≠ i) : makeKey i a c = makeKey a i c := by
  unfold makeKey
  rcases hne.lt_or_gt with h | h
  · rw [if_neg h.not_gt, if_pos h]
  · rw [if_pos h, if_neg h.not_gt]

/-- The values of adjustments: debits, credits and the original balance. -/
def Adjustment.values (adj : Adjustment A C Q) : Q × Q × Q := (adj.debits.value, adj.credits.value, adj.origBalance.value)

/-- What a table has noted of the account `a` with the issuer `i`. -/
def noted (a i : A) (c : C) (tab : DeferredCredits A C Q) : Option (Q × Q × Q) := (tab.adjustments a i c).map Adjustment.values

/-- The values of an entry, as those of `a`. -/
theorem noted_eq : noted a i c tab = (tab.credits_ (makeKey a i c)).map fun v =>
    if a < i then (v.highAcctCredits.value, v.lowAcctCredits.value, v.lowAcctOrigBalance.value)
    else (v.lowAcctCredits.value, v.highAcctCredits.value, -v.lowAcctOrigBalance.value) := by
  unfold noted DeferredCredits.adjustments
  rw [Option.map_map]
  refine congrArg (Option.map · _) (funext fun v => ?_)
  simp only [Function.comp_apply]
  split_ifs with h
  · rfl
  · rfl

/-- A payment to the issuer. -/
theorem noted_debit (hc : amount.currency = c) : noted a i c (tab.credit a i amount pre) =
    some (((noted a i c tab).map fun n => (n.1 + amount.value, n.2)).getD (amount.value, 0, pre.value)) := by
  rw [noted_eq, noted_eq]
  unfold DeferredCredits.credit
  simp only [hc, Function.update_self]
  cases tab.credits_ (makeKey a i c) with
  | none =>
    by_cases h : a < i
    · simp [h, Amount.zeroed]
    · simp [h, Amount.zeroed, Amount.neg]
  | some v =>
    by_cases h : a < i
    · simp [h, Amount.add]
    · simp [h, Amount.add]

/-- A payment of the issuer. -/
theorem noted_credit (hne : a ≠ i) (hc : amount.currency = c) : noted a i c (tab.credit i a amount pre) =
    some (((noted a i c tab).map fun n => (n.1, n.2.1 + amount.value, n.2.2)).getD (0, amount.value, -pre.value)) := by
  have hlt : i < a ↔ ¬ a < i := ⟨fun h => h.not_gt, fun h => (not_lt.mp h).lt_of_ne hne.symm⟩
  rw [noted_eq, noted_eq]
  unfold DeferredCredits.credit
  simp only [hc, makeKey_comm hne, Function.update_self, hlt]
  cases tab.credits_ (makeKey a i c) with
  | none =>
    by_cases h : a < i
    · simp [h, Amount.zeroed, Amount.neg]
    · simp [h, Amount.zeroed]
  | some v =>
    by_cases h : a < i
    · simp [h, Amount.add]
    · simp [h, Amount.add]

/-- A payment between others. -/
theorem noted_other {s r : A} (hkey : makeKey s r amount.currency ≠ makeKey a i c) :
    noted a i c (tab.credit s r amount pre) = noted a i c tab := by
  rw [noted_eq, noted_eq]
  unfold DeferredCredits.credit
  simp only [Function.update_of_ne hkey.symm]

theorem noted_apply : noted a i c (tab.apply tab') =
    Option.merge (fun n m => (n.1 + m.1, n.2.1 + m.2.1, n.2.2)) (noted a i c tab') (noted a i c tab) := by
  rw [noted_eq, noted_eq, noted_eq]
  show Option.map _ (Option.merge Value.merge (tab'.credits_ (makeKey a i c)) (tab.credits_ (makeKey a i c))) = _
  cases tab'.credits_ (makeKey a i c) with
  | none => simp
  | some v' =>
    cases tab.credits_ (makeKey a i c) with
    | none => rfl
    | some v =>
      by_cases h : a < i
      · simp [h, Value.merge, Amount.add]
      · simp [h, Value.merge, Amount.add]

end Tables

/-! ## Runs -/

/-- Transfers between `a` and the issuer `i` in the innermost sandbox, each with the balance of the sender before it,
transfers between others, and sandboxes that are opened and applied. `debits` is what `a` has paid, `balance` what it
has; `first` is what it had before the first transfer. -/
inductive Transfers (a i : A) (c : C) (first : Q) : List (DeferredCredits A C Q) → Q → Q → Prop
  | start (n : ℕ) : Transfers a i c first (List.replicate (n + 1) .new) 0 first
  | debit {tab : DeferredCredits A C Q} {tabs : List (DeferredCredits A C Q)} {debits balance : Q} (amount pre : Amount A C Q) :
      Transfers a i c first (tab :: tabs) debits balance → amount.currency = c → 0 ≤ amount.value → pre.value = balance →
      Transfers a i c first (tab.credit a i amount pre :: tabs) (debits + amount.value) (balance - amount.value)
  | credit {tab : DeferredCredits A C Q} {tabs : List (DeferredCredits A C Q)} {debits balance : Q} (amount pre : Amount A C Q) :
      Transfers a i c first (tab :: tabs) debits balance → amount.currency = c → 0 ≤ amount.value → pre.value = -balance →
      Transfers a i c first (tab.credit i a amount pre :: tabs) debits (balance + amount.value)
  | other {tab : DeferredCredits A C Q} {tabs : List (DeferredCredits A C Q)} {debits balance : Q} (s r : A)
      (amount pre : Amount A C Q) : Transfers a i c first (tab :: tabs) debits balance →
      makeKey s r amount.currency ≠ makeKey a i c →
      Transfers a i c first (tab.credit s r amount pre :: tabs) debits balance
  | nested {tabs : List (DeferredCredits A C Q)} {debits balance : Q} : Transfers a i c first tabs debits balance →
      Transfers a i c first (.new :: tabs) debits balance
  | applied {tab tab' : DeferredCredits A C Q} {tabs : List (DeferredCredits A C Q)} {debits balance : Q} :
      Transfers a i c first (tab :: tab' :: tabs) debits balance → Transfers a i c first (tab.apply tab' :: tabs) debits balance

/-- The tables account for the balance: each one goes from its original balance, which is where the tables outside of it
end, to the present one. -/
def Accounts (a i : A) (c : C) (first : Q) : List (DeferredCredits A C Q) → Q → Q → Prop
  | [], debits, balance => debits = 0 ∧ balance = first
  | tab :: tabs, debits, balance =>
    match noted a i c tab with
    | none => Accounts a i c first tabs debits balance
    | some n => Accounts a i c first tabs (debits - n.1) n.2.2 ∧ balance = n.2.2 - n.1 + n.2.1 ∧ 0 ≤ n.1 ∧ 0 ≤ n.2.1

section Accounts

variable {a i : A} {c : C} {first debits balance : Q} {tab tab' : DeferredCredits A C Q}
  {tabs : List (DeferredCredits A C Q)}

theorem accounts_of_none (h : noted a i c tab = none) :
    Accounts a i c first (tab :: tabs) debits balance ↔ Accounts a i c first tabs debits balance := by
  rw [Accounts, h]

theorem accounts_of_some {d k b : Q} (h : noted a i c tab = some (d, k, b)) :
    Accounts a i c first (tab :: tabs) debits balance ↔
      Accounts a i c first tabs (debits - d) b ∧ balance = b - d + k ∧ 0 ≤ d ∧ 0 ≤ k := by
  rw [Accounts, h]

theorem Accounts.apply (h : Accounts a i c first (tab :: tab' :: tabs) debits balance) :
    Accounts a i c first (tab.apply tab' :: tabs) debits balance := by
  have happly : noted a i c (tab.apply tab') = _ := noted_apply
  cases hn : noted a i c tab with
  | none =>
    rw [accounts_of_none hn] at h
    rw [hn, Option.merge_none_right] at happly
    rw [Accounts, happly]
    exact h
  | some n =>
    obtain ⟨d, k, b⟩ := n
    obtain ⟨h, hb, hd, hk⟩ := (accounts_of_some hn).mp h
    cases hn' : noted a i c tab' with
    | none =>
      rw [hn, hn'] at happly
      rw [accounts_of_some happly, ← accounts_of_none hn']
      exact ⟨h, hb, hd, hk⟩
    | some n' =>
      obtain ⟨d', k', b'⟩ := n'
      obtain ⟨h, hb', hd', hk'⟩ := (accounts_of_some hn').mp h
      rw [hn, hn'] at happly
      rw [accounts_of_some happly]
      refine ⟨?_, ?_, add_nonneg hd' hd, add_nonneg hk' hk⟩
      · rwa [add_comm, ← sub_sub]
      · rw [hb, hb']
        abel

theorem Transfers.accounts (hne : a ≠ i) (h : Transfers a i c first tabs debits balance) :
    Accounts a i c first tabs debits balance := by
  induction h with
  | start n =>
    induction n with
    | zero => exact ⟨rfl, rfl⟩
    | succ n ih => exact ih
  | @debit tab tabs debits balance amount pre _ hc hamount hpre ih =>
    have hnoted : noted a i c (tab.credit a i amount pre) = _ := noted_debit hc
    cases hn : noted a i c tab with
    | none =>
      rw [hn] at hnoted
      rw [accounts_of_none hn] at ih
      rw [accounts_of_some hnoted, add_sub_cancel_right, hpre, add_zero]
      exact ⟨ih, rfl, hamount, le_rfl⟩
    | some n =>
      obtain ⟨d, k, b⟩ := n
      rw [hn] at hnoted
      obtain ⟨ih, hb, hd, hk⟩ := (accounts_of_some hn).mp ih
      rw [accounts_of_some hnoted, add_sub_add_right_eq_sub]
      refine ⟨ih, ?_, add_nonneg hd hamount, hk⟩
      rw [hb]
      abel
  | @credit tab tabs debits balance amount pre _ hc hamount hpre ih =>
    have hnoted : noted a i c (tab.credit i a amount pre) = _ := noted_credit hne hc
    cases hn : noted a i c tab with
    | none =>
      rw [hn] at hnoted
      rw [accounts_of_none hn] at ih
      rw [accounts_of_some hnoted, sub_zero, hpre, neg_neg, sub_zero]
      exact ⟨ih, rfl, le_rfl, hamount⟩
    | some n =>
      obtain ⟨d, k, b⟩ := n
      rw [hn] at hnoted
      obtain ⟨ih, hb, hd, hk⟩ := (accounts_of_some hn).mp ih
      rw [accounts_of_some hnoted, hb, add_assoc]
      exact ⟨ih, rfl, hd, add_nonneg hk hamount⟩
  | other s r amount pre _ hkey ih =>
    rw [Accounts, noted_other hkey]
    exact ih
  | nested _ ih => exact ih
  | applied _ ih => exact ih.apply

/-- Credits only add to what is left. -/
theorem Accounts.le (h : Accounts a i c first tabs debits balance) : first - debits ≤ balance := by
  induction tabs generalizing debits balance with
  | nil =>
    obtain ⟨rfl, rfl⟩ := h
    exact (sub_zero _).le
  | cons tab tabs ih =>
    cases hn : noted a i c tab with
    | none => exact ih ((accounts_of_none hn).mp h)
    | some n =>
      obtain ⟨d, k, b⟩ := n
      obtain ⟨houter, rfl, -, hk⟩ := (accounts_of_some hn).mp h
      calc first - debits = first - (debits - d) - d := by abel
        _ ≤ b - d := sub_le_sub_right (ih houter) d
        _ ≤ b - d + k := le_add_of_nonneg_right hk

/-! ## `balanceHook` -/

variable {r : Amount A C Q × Amount A C Q × Amount A C Q}

theorem adjustStep_of_none (h : noted a i c tab = none) : adjustStep a i c r tab = r := by
  unfold adjustStep
  rw [Option.map_eq_none_iff.mp h]

theorem adjustStep_of_some {d k b : Q} (h : noted a i c tab = some (d, k, b)) :
    (adjustStep a i c r tab).1.value = r.1.value + d ∧ (adjustStep a i c r tab).2.1.value = b ∧
      (adjustStep a i c r tab).2.2.value = min r.2.2.value b := by
  obtain ⟨adj, hadj, hvalues⟩ := Option.map_eq_some_iff.mp h
  obtain ⟨rfl, -, rfl⟩ : adj.debits.value = d ∧ adj.credits.value = k ∧ adj.origBalance.value = b := by
    simpa [Adjustment.values] using hvalues
  unfold adjustStep
  rw [hadj]
  exact ⟨rfl, rfl, Amount.value_min r.2.2 adj.origBalance⟩

/-- The loop of `balanceHook` ends with all debits and with the first balance, and no original balance is lower than what
is left of it. -/
theorem foldl_adjustStep (h : Accounts a i c first tabs debits balance) (hlast : r.2.1.value = balance) {x : Q}
    (hx : x ≤ r.2.2.value) (hleft : x ≤ first - debits) :
    (tabs.foldl (adjustStep a i c) r).1.value = r.1.value + debits ∧
      (tabs.foldl (adjustStep a i c) r).2.1.value = first ∧ x ≤ (tabs.foldl (adjustStep a i c) r).2.2.value := by
  induction tabs generalizing debits balance r with
  | nil =>
    obtain ⟨rfl, rfl⟩ := h
    exact ⟨(add_zero _).symm, hlast, hx⟩
  | cons tab tabs ih =>
    rw [List.foldl_cons]
    cases hn : noted a i c tab with
    | none =>
      rw [adjustStep_of_none hn]
      exact ih ((accounts_of_none hn).mp h) hlast hx hleft
    | some n =>
      obtain ⟨d, k, b⟩ := n
      obtain ⟨h, -, hd, -⟩ := (accounts_of_some hn).mp h
      obtain ⟨hdelta, hb, hmin⟩ := adjustStep_of_some (r := r) hn
      have hleft' : x ≤ first - (debits - d) := hleft.trans (sub_le_sub_left (sub_le_self _ hd) _)
      obtain ⟨hdelta', hfirst, hx'⟩ := ih h hb (by rw [hmin]; exact le_min hx (hleft'.trans h.le)) hleft'
      refine ⟨?_, hfirst, hx'⟩
      rw [hdelta', hdelta]
      abel

theorem value_adjustedAmt (h : Accounts a i c first tabs debits balance) {rules : PaymentRules} (hrules : rules.fix1141 = true)
    {amount : Amount A C Q} (hc : amount.currency = c) (hbalance : amount.value = balance) :
    (adjustedAmt rules tabs a i amount).value = first - debits := by
  subst hc
  have hle : first - debits ≤ amount.value := hbalance ▸ h.le
  obtain ⟨hdelta, hlast, hmin⟩ := foldl_adjustStep h (r := (amount.zeroed, amount, amount)) hbalance hle le_rfl
  unfold adjustedAmt
  rw [if_pos hrules]
  revert hdelta hlast hmin
  rcases tabs.foldl (adjustStep a i amount.currency) (amount.zeroed, amount, amount) with ⟨delta, lastBal, minBal⟩
  intro hdelta hlast hmin
  have hadjusted : (amount.min (lastBal.sub delta)).value = first - debits := by
    rw [Amount.value_min, Amount.sub, hdelta, hlast, Amount.zeroed, zero_add]
    exact min_eq_right hle
  have hfix : (if rules.fix1368 then (amount.min (lastBal.sub delta)).min minBal else amount.min (lastBal.sub delta)).value =
      first - debits := by
    split_ifs
    · rw [Amount.value_min, hadjusted]
      exact min_eq_left hmin
    · exact hadjusted
  dsimp only
  split_ifs at hfix ⊢ <;> exact hfix

theorem value_balanceHook (h : Accounts a i c first tabs debits balance) {rules : PaymentRules} (hrules : rules.fix1141 = true)
    {amount : Amount A C Q} (hc : amount.currency = c) (hbalance : amount.value = balance) :
    (balanceHook rules tabs a i amount).value = if i = 0 then max (first - debits) 0 else first - debits := by
  unfold balanceHook
  have hvalue := value_adjustedAmt h hrules hc hbalance
  dsimp only
  by_cases hi : i = 0
  · rw [if_pos hi]
    by_cases hneg : first - debits < 0
    · rw [if_pos ⟨hi, hvalue ▸ hneg⟩, max_eq_right hneg.le]
      rfl
    · rw [if_neg fun h => hneg (hvalue ▸ h.2), hvalue, max_eq_left (not_lt.mp hneg)]
  · rw [if_neg hi, if_neg fun h => hi h.1, hvalue]

/-- **Money received during a payment cannot be spent in it.** With `fix1141`, `balanceHook` of the present balance is the
balance before the first transfer without what was paid since, and for SFC not less than zero. It stays the same when the
innermost sandbox is applied. -/
theorem balanceHook_transfers (hne : a ≠ i) (h : Transfers a i c first tabs debits balance) {rules : PaymentRules}
    (hrules : rules.fix1141 = true) {amount : Amount A C Q} (hc : amount.currency = c) (hbalance : amount.value = balance) :
    (balanceHook rules tabs a i amount).value = (if i = 0 then max (first - debits) 0 else first - debits) ∧
      ∀ tab tab' tabs', tabs = tab :: tab' :: tabs' → (balanceHook rules (tab.apply tab' :: tabs') a i amount).value =
        (balanceHook rules tabs a i amount).value := by
  have haccounts := h.accounts hne
  refine ⟨value_balanceHook haccounts hrules hc hbalance, ?_⟩
  rintro tab tab' tabs' rfl
  rw [value_balanceHook haccounts hrules hc hbalance, value_balanceHook haccounts.apply hrules hc hbalance]

/-- An account with 10 pays 3 and receives 100 in a nested sandbox: it can spend 7. -/
theorem balanceHook_transfers_received :
    ∃ tabs : List (DeferredCredits ℕ ℕ ℤ), (balanceHook ⟨true, true, true⟩ tabs 1 2 ⟨840, 2, 107⟩).value = 7 := by
  have h₁ : Transfers 1 2 840 (10 : ℤ) [.new] 0 10 := .start 0
  have h₂ := h₁.debit ⟨840, 2, 3⟩ ⟨840, 2, 10⟩ rfl (by decide) rfl
  have h₃ := h₂.nested.credit ⟨840, 2, 100⟩ ⟨840, 2, -7⟩ rfl (by decide) rfl
  exact ⟨_, (balanceHook_transfers (by decide) h₃ rfl rfl rfl).1⟩

end Accounts

end ScfChain.Ledger
