import Mathlib
import ScfChain.App.TxQ.Stages

/-!
# What `TxQ::apply` can do

`Outcome` lists the ways in which a call returns: the transaction is rejected, it does not apply, it applies, the account's
queued transactions apply before it, or it is queued. `Entered` is what is known in the last case, and in the others nothing
enters the queue. Under `Regular` transactors the call returns.
-/

set_option linter.unusedSectionVars false

namespace ScfChain.App

open Data

variable {A R V C : Type} [DecidableEq A] [DecidableEq R]

namespace TxQ

variable {K T : Prop} {env : Transactors A R V C} {setup : Setup} {q q' q₁ : TxQ A R} {view : V} {tx : STTx A}
  {flags : ApplyFlags} {pf : PreflightResult A R} {paid required : ℕ} {replaced : Bool}

/-! ## Clearing an account's queue -/

theorem cores_applyQueued (ms : List (MaybeTx A R)) (view : V) :
    (applyQueued env ms view).2.2.map (·.toCore) = ms.map (·.toCore) := by
  induction ms generalizing view with
  | nil => rfl
  | cons m ms ih =>
    unfold applyQueued
    dsimp only
    split_ifs
    · rw [List.map_cons, List.map_cons, ih]
      rfl
    · rfl

theorem applyAll_of_applyQueued {ms : List (MaybeTx A R)} (h : (applyQueued env ms view).1 = none) :
    applyAll env ms view = some (applyQueued env ms view).2.1 := by
  induction ms generalizing view with
  | nil => rfl
  | cons m ms ih =>
    unfold applyQueued at h ⊢
    unfold applyAll
    dsimp only at h ⊢
    split_ifs at h ⊢
    exact ih h

theorem filter_append_filter {l : List (MaybeTx A R)} (hl : (l.map (·.toCore)).Pairwise (·.sequence < ·.sequence))
    {aSeq tSeq : ℕ} :
    l.filter (·.sequence < aSeq) ++ l.filter (fun m => aSeq ≤ m.sequence ∧ m.sequence < tSeq) ++
      l.filter (fun m => aSeq ≤ m.sequence ∧ tSeq ≤ m.sequence) = l := by
  induction l with
  | nil => rfl
  | cons m ms ih =>
    obtain ⟨hm, hms⟩ := List.pairwise_cons.mp hl
    have hlater : ∀ m' ∈ ms, m.sequence < m'.sequence := fun m' hm' => hm m'.toCore (List.mem_map_of_mem hm')
    have hrest := ih hms
    by_cases hlow : m.sequence < aSeq
    · rw [List.filter_cons_of_pos (by simpa using hlow), List.filter_cons_of_neg (by simp; omega),
        List.filter_cons_of_neg (by simp; omega)]
      simpa using hrest
    · have hnone : ms.filter (·.sequence < aSeq) = [] := by
        refine List.filter_eq_nil_iff.mpr fun m' hm' => ?_
        have := hlater m' hm'
        simp only [decide_eq_true_eq]
        omega
      rw [List.filter_cons_of_neg (by simpa using hlow), hnone]
      rw [hnone] at hrest
      by_cases hmid : m.sequence < tSeq
      · rw [List.filter_cons_of_pos (by simp; omega), List.filter_cons_of_neg (by simp; omega)]
        simpa using hrest
      · have hnone' : ms.filter (fun m => aSeq ≤ m.sequence ∧ m.sequence < tSeq) = [] := by
          refine List.filter_eq_nil_iff.mpr fun m' hm' => ?_
          have := hlater m' hm'
          simp only [decide_eq_true_eq]
          omega
        rw [List.filter_cons_of_neg (by simp; omega), hnone', List.filter_cons_of_pos (by simp; omega)]
        rw [hnone'] at hrest
        simpa using hrest

theorem tx_apply (env : Transactors A R V C) (m : MaybeTx A R) (view : V) :
    (m.apply env view).2.2.tx = m.pfresult.tx := by
  unfold MaybeTx.apply
  dsimp only
  split_ifs <;> rfl

theorem known_applyQueued {ms : List (MaybeTx A R)} (h : ∀ m ∈ ms, m.Known K T ∧ m.consequences.isSome) (view : V) :
    ∀ m ∈ (applyQueued env ms view).2.2, m.Known K T := by
  induction ms generalizing view with
  | nil => simp [applyQueued]
  | cons m ms ih =>
    obtain ⟨⟨hm, hknown⟩, hms⟩ := List.forall_mem_cons.mp h
    have hattempt : (m.modify fun c => { c with
        pfresult := (m.apply env view).2.2, retriesRemaining := c.retriesRemaining - 1,
        lastResult := some (m.apply env view).1.1 }).Known K T := hm.tried rfl (tx_apply env m view) fun _ => .inr hknown
    unfold applyQueued
    dsimp only
    split_ifs
    · exact List.forall_mem_cons.mpr ⟨hattempt, ih hms _⟩
    · exact List.forall_mem_cons.mpr ⟨hattempt, fun x hx => (hms x hx).1⟩

theorem escalatedSeriesFeeLevel_spec (hpos : T → Positive q) {current : ℕ} (seriesSize : ℕ)
    (hlt : T → q.feeMetrics_.txnsExpected_ < current) :
    Spec T (q.feeMetrics_.escalatedSeriesFeeLevel env current seriesSize) fun _ => True := by
  refine (assert_spec hlt).bind fun _ _ => ?_
  dsimp only
  split_ifs with hover hzero
  · exact .ok trivial
  · refine .error fun ht => ?_
    have := (hpos ht).txnsExpected
    omega
  · exact .ok trivial

variable {acc : TxQAccount A R} {m : MaybeTx A R}

theorem tryClearAccountQueue_spec (hq : Consistent q) (hE : Each (·.Known K T) q) (hpos : T → Positive q)
    {aSeq extra : ℕ} (hacc : q.byAccount_ tx.account = some acc) (hfirst : (acc.find aSeq).isSome)
    (hextra : q.feeMetrics_.txnsExpected_ < extra)
    (hknown : ∀ m ∈ q.queued tx.account, aSeq ≤ m.sequence → m.sequence ≠ tx.sequence → m.consequences.isSome) :
    Spec T (q.tryClearAccountQueue env acc view tx aSeq paid pf extra) fun r =>
      Each (·.Known K T) r.2.1 ∧ ∃ q₁, Same q q₁ ∧ (r.1.2 = false → r.2.1 = q₁) ∧ (r.1.2 = true →
        r.2.1 = q₁.unlink tx.account (((range acc aSeq tx.sequence).map fun m => m.sequence) ++ [tx.sequence]) ∧
        ∃ w, applyAll env (range acc aSeq tx.sequence) view = some w ∧
          env.doApply (env.preclaim pf w) w = (r.1, r.2.2)) := by
  have hqueued := queued_of hacc
  have hE' := hE tx.account
  rw [hqueued] at hknown hE'
  refine (assert_spec fun _ => hfirst).bind fun _ _ => ?_
  refine (escalatedSeriesFeeLevel_spec hpos _ fun _ => lt_of_lt_of_le hextra (Nat.le_add_left _ _)).bind fun required _ => ?_
  split
  · exact .ok ⟨hE, q, .refl q, fun _ => rfl, by simp⟩
  -- the attempts change what is queued only in fields that change
  have hsame : Same q (q.setTransactions tx.account
      (splice acc aSeq tx.sequence (applyQueued env (range acc aSeq tx.sequence) view).2.2)) := by
    refine same_setTransactions hacc ?_
    have hordered : (acc.transactions.map (·.toCore)).Pairwise (·.sequence < ·.sequence) := by
      rw [← hqueued]
      exact hq.ordered tx.account
    unfold splice
    rw [List.map_append, List.map_append, cores_applyQueued, ← List.map_append, ← List.map_append]
    exact congrArg _ (filter_append_filter hordered)
  have heach : Each (·.Known K T) (q.setTransactions tx.account
      (splice acc aSeq tx.sequence (applyQueued env (range acc aSeq tx.sequence) view).2.2)) := by
    refine hE.update (queued_setTransactions _ hacc) fun m hm => ?_
    rcases List.mem_append.mp hm with hm | hm
    · rcases List.mem_append.mp hm with hm | hm
      · exact hE' m (List.mem_of_mem_filter hm)
      · refine known_applyQueued (fun m hm => ?_) view m hm
        obtain ⟨hm, hrange⟩ := List.mem_filter.mp hm
        simp only [decide_eq_true_eq] at hrange
        exact ⟨hE' m hm, hknown m hm hrange.1 (by omega)⟩
    · exact hE' m (List.mem_of_mem_filter hm)
  dsimp only
  split
  · exact .ok ⟨heach, _, hsame, fun _ => rfl, by simp⟩
  next hnone =>
    split_ifs with happlied
    · refine .ok ⟨heach.unlink _ _, _, hsame, fun hf => ?_, fun _ => ⟨rfl, _, applyAll_of_applyQueued hnone, rfl⟩⟩
      rw [happlied] at hf
      cases hf
    · exact .ok ⟨heach, _, hsame, fun _ => rfl, fun hf => absurd hf happlied⟩

/-! ## Holding the transaction -/

/-- The mean fee level of the transactions that an account has queued. -/
def averageFeeLevel (q : TxQ A R) (a : A) : ℚ := (((q.contents a).map (·.feeLevel)).sum : ℕ) / (q.contents a).length

theorem sum_eq_div_add_mod (n : ℕ) (l : List ℕ) : l.sum = n * (l.map (· / n)).sum + (l.map (· % n)).sum := by
  induction l with
  | nil => rfl
  | cons f l ih =>
    have := Nat.div_add_mod f n
    simp only [List.map_cons, List.sum_cons, mul_add]
    omega

/-- Quotients and remainders are added up apart from each other, or one of the sums would not fit into 64 bits. -/
theorem foldl_endTotal (n : ℕ) (l : List (MaybeTx A R)) :
    let endTotal := l.foldl (fun total m => if 2 ^ 64 - 1 - m.feeLevel / n ≤ total.1 ∨ 2 ^ 64 - 1 - m.feeLevel % n ≤ total.2 then
      (2 ^ 64 - 1, 0) else (total.1 + m.feeLevel / n, total.2 + m.feeLevel % n)) (0, 0)
    endTotal = (((l.map (·.feeLevel)).map (· / n)).sum, ((l.map (·.feeLevel)).map (· % n)).sum) ∨
      endTotal = (2 ^ 64 - 1, 0) ∧ (2 ^ 64 - 1 ≤ ((l.map (·.feeLevel)).map (· / n)).sum ∨
        2 ^ 64 - 1 ≤ ((l.map (·.feeLevel)).map (· % n)).sum) := by
  induction l using List.reverseRecOn with
  | nil => exact .inl rfl
  | append_singleton l m ih =>
    dsimp only at ih ⊢
    simp only [List.foldl_append, List.foldl_cons, List.foldl_nil, List.map_append, List.map_cons, List.map_nil,
      List.sum_append, List.sum_singleton]
    rcases ih with h | ⟨h, hlarge⟩
    · rw [h]
      split_ifs with hcond
      · exact .inr ⟨rfl, by dsimp only at hcond; omega⟩
      · exact .inl rfl
    · rw [h, if_pos (.inl (Nat.sub_le _ _))]
      exact .inr ⟨rfl, hlarge.imp (Nat.le_add_right_of_le ·) (Nat.le_add_right_of_le ·)⟩

theorem sum_le_length_mul {l : List ℕ} {b : ℕ} (h : ∀ f ∈ l, f ≤ b) : l.sum ≤ l.length * b :=
  List.sum_le_card_nsmul l b h

/-- The mean is computed exactly, or it is replaced by the largest number of 64 bits, in which case it is that number or there
are at least `2 ^ 32` transactions. -/
theorem endEffectiveFeeLevel_cases {last : ℕ} (hlevels : ∀ m ∈ acc.transactions, m.feeLevel < 2 ^ 64)
    (hsize : 1 < acc.transactions.length) (hlast : last ≤ paid) :
    let mean := (acc.transactions.map (·.feeLevel)).sum / acc.transactions.length
    endEffectiveFeeLevel acc last paid = mean ∨
      endEffectiveFeeLevel acc last paid = 2 ^ 64 - 1 ∧ 2 ^ 32 ≤ acc.transactions.length := by
  intro mean
  have hsplit := sum_eq_div_add_mod acc.transactions.length (acc.transactions.map (·.feeLevel))
  have hmean : mean = ((acc.transactions.map (·.feeLevel)).map (· / acc.transactions.length)).sum +
      ((acc.transactions.map (·.feeLevel)).map (· % acc.transactions.length)).sum / acc.transactions.length := by
    show _ / _ = _
    rw [hsplit, Nat.mul_add_div (by omega)]
  have hbound : mean ≤ 2 ^ 64 - 1 := by
    refine Nat.div_le_of_le_mul ((sum_le_length_mul (b := 2 ^ 64 - 1) fun f hf => ?_).trans_eq (by rw [List.length_map]))
    obtain ⟨m, hm, rfl⟩ := List.mem_map.mp hf
    have := hlevels m hm
    omega
  unfold endEffectiveFeeLevel
  dsimp only
  rw [if_neg (by omega)]
  rcases foldl_endTotal acc.transactions.length acc.transactions with h | ⟨h, hlarge⟩
  · rw [h, ← hmean, Nat.mod_eq_of_lt (by omega)]
    exact .inl rfl
  · rw [h]
    rcases hlarge with hlarge | hlarge
    · have hge : 2 ^ 64 - 1 ≤ mean := hmean ▸ Nat.le_add_right_of_le hlarge
      exact .inl (by simpa using le_antisymm hge hbound)
    · refine .inr ⟨by simp, ?_⟩
      -- each remainder is less than the number of transactions
      have hmods := sum_le_length_mul (l := (acc.transactions.map (·.feeLevel)).map (· % acc.transactions.length))
        (b := acc.transactions.length) fun f hf => by
          obtain ⟨g, -, rfl⟩ := List.mem_map.mp hf
          exact (Nat.mod_lt _ (by omega)).le
      rw [List.length_map, List.length_map] at hmods
      by_contra hsmall
      have := Nat.mul_le_mul (Nat.le_of_lt_succ (not_le.mp hsmall)) (Nat.le_of_lt_succ (not_le.mp hsmall))
      omega

/-- The transaction `p` leaves for one of the account of `tx` that has the fee level `paid`. -/
structure Evicted (q : TxQ A R) (tx : STTx A) (paid : ℕ) (p : A × ℕ) : Prop where
  other : p.1 ≠ tx.account
  highest : ∀ c ∈ q.contents p.1, c.sequence ≤ p.2
  cheaper : (∀ c ∈ q.contents p.1, c.feeLevel < 2 ^ 64) → q.averageFeeLevel p.1 < paid

theorem Evicted.same {p : A × ℕ} (h : Same q q₁) (he : Evicted q₁ tx paid p) : Evicted q tx paid p := by
  obtain ⟨hother, hhighest, hcheaper⟩ := he
  unfold averageFeeLevel at hcheaper
  rw [h.contents] at hhighest hcheaper
  exact ⟨hother, hhighest, hcheaper⟩

theorem average_lt {last : A × ℕ} (hq : Consistent q) (hacc : q.byAccount_ last.1 = some acc) (hlast : last ∈ q.byFee_)
    (hpays : endEffectiveFeeLevel acc (q.feeLevel last) paid < paid)
    (hlevels : ∀ c ∈ q.contents last.1, c.feeLevel < 2 ^ 64) : q.averageFeeLevel last.1 < paid := by
  obtain ⟨acc', m, hacc', hfind, hm, -⟩ := hq.stored hlast
  have hqueued := queued_of hacc
  rw [hqueued] at hm
  have hlevel : q.feeLevel last = m.feeLevel := by simp [feeLevel, deref, hacc', hfind]
  have hpos : 0 < acc.transactions.length := List.length_pos_of_mem hm
  have hlevels' : ∀ m ∈ acc.transactions, m.feeLevel < 2 ^ 64 := fun m hm =>
    hlevels m.toCore (List.mem_map.mpr ⟨m, hqueued ▸ hm, rfl⟩)
  unfold averageFeeLevel contents
  rw [hqueued, List.map_map, List.length_map, div_lt_iff₀ (by exact_mod_cast hpos)]
  suffices hsum : (acc.transactions.map (·.feeLevel)).sum < paid * acc.transactions.length by exact_mod_cast hsum
  by_cases hdirect : paid < q.feeLevel last ∨ acc.transactions.length = 1
  · -- the fee level of the cheapest transaction itself
    unfold endEffectiveFeeLevel at hpays
    dsimp only at hpays
    rw [if_pos hdirect] at hpays
    obtain ⟨m', hsingle⟩ := List.length_eq_one_iff.mp (hdirect.resolve_left (by omega))
    rw [hsingle, List.mem_singleton] at hm
    subst hm
    rw [hsingle]
    simpa [← hlevel] using hpays
  · rw [not_or, not_lt] at hdirect
    rcases endEffectiveFeeLevel_cases hlevels' (by omega) hdirect.1 with hmean | ⟨hmost, -⟩
    · rw [hmean] at hpays
      exact (Nat.div_lt_iff_lt_mul hpos).mp hpays
    · rw [hmost] at hpays
      calc (acc.transactions.map (·.feeLevel)).sum ≤ (acc.transactions.map (·.feeLevel)).length * (2 ^ 64 - 1) := by
            refine sum_le_length_mul fun f hf => ?_
            obtain ⟨m, hm, rfl⟩ := List.mem_map.mp hf
            have := hlevels' m hm
            omega
        _ < paid * acc.transactions.length := by
            rw [List.length_map, mul_comm]
            exact Nat.mul_lt_mul_of_pos_right hpays hpos

theorem makeRoom_spec (hq : Consistent q) (hpos : T → Positive q) :
    Spec T (q.makeRoom env tx paid) fun r => (∀ ter, r.1 = some ter → ter ≠ terQUEUED ∧ r.2 = q) ∧
      (r.1 = none → (r.2 = q ∧ q.isFull 100 = false) ∨ ∃ p ∈ q.byFee_, Evicted q tx paid p ∧
        r.2 = q.unlink p.1 [p.2]) := by
  have hfull' : ∀ ter, some telCAN_NOT_QUEUE_FULL = some ter → ter ≠ terQUEUED ∧ q = q := by
    rintro _ ⟨⟩
    exact ⟨by decide, rfl⟩
  unfold makeRoom
  split_ifs with hfull
  · exact .ok ⟨by simp, fun _ => .inl ⟨rfl, hfull⟩⟩
  cases hlast : q.byFee_.getLast? with
  | none =>
    -- a full queue is not empty
    refine .error fun ht => hfull ?_
    rw [List.getLast?_eq_none_iff] at hlast
    unfold isFull
    cases hmax : q.maxSize_ with
    | none => rfl
    | some n =>
      have := (hpos ht).maxSize n hmax
      simp only [hlast, List.length_nil, decide_eq_false_iff_not]
      omega
  | some last =>
    obtain ⟨acc, m, hacc, -, hm, -⟩ := hq.stored (List.mem_of_getLast? hlast)
    rw [queued_of hacc] at hm
    dsimp only
    split_ifs with haccount
    · exact .ok ⟨hfull', by simp⟩
    rw [hacc]
    dsimp only
    split_ifs with hpays
    · cases hdropped : acc.transactions.getLast? with
      | none =>
        rw [List.getLast?_eq_none_iff] at hdropped
        rw [hdropped] at hm
        cases hm
      | some dropped =>
        obtain ⟨hlinked, howned⟩ := hq.linked (a := last.1) (m := dropped)
          (by rw [queued_of hacc]; exact List.mem_of_getLast? hdropped)
        refine (assert_spec fun _ => howned).bind fun _ _ => ?_
        rw [howned]
        refine (hq.erase_spec hlinked).bind fun q₁ h => .ok ⟨by simp, fun _ => .inr ⟨_, hlinked, ⟨haccount, ?_, ?_⟩, h⟩⟩
        · intro c hc
          obtain ⟨m', hm', rfl⟩ := List.mem_map.mp hc
          exact le_getLast (hq.sequences last.1) (by rw [queued_of hacc]; exact hdropped) hm'
        · show (∀ c ∈ q.contents last.1, _) → q.averageFeeLevel last.1 < _
          exact average_lt hq hacc (List.mem_of_getLast? hlast) hpays
    · exact .ok ⟨hfull', by simp⟩

/-- The ways in which a call returns. -/
inductive Outcome (env : Transactors A R V C) (q : TxQ A R) (view : V) (tx : STTx A) (flags : ApplyFlags) :
    (TER × Bool) × TxQ A R × V → Prop
  /-- The transaction is rejected. -/
  | rejected {ter : TER} {q' : TxQ A R} (hsame : Same q q') : Outcome env q view tx flags ((ter, false), q', view)
  /-- The transaction does not apply to the open ledger. -/
  | failed {ter : TER} {q' : TxQ A R} {view' : V} (hsame : Same q q')
      (hrun : env.doApply (env.preclaim (env.preflightResult (env.rules view) tx flags) view) view = ((ter, false), view')) :
      Outcome env q view tx flags ((ter, false), q', view')
  /-- The transaction applies to the open ledger. -/
  | applied {ter : TER} {q₁ q' : TxQ A R} {view' : V} (hsame : Same q q₁)
      (hrun : env.doApply (env.preclaim (env.preflightResult (env.rules view) tx flags) view) view = ((ter, true), view'))
      (hleft : (q' = q₁ ∧ q.items (tx.account, tx.sequence) = none) ∨ q' = q₁.unlink tx.account [tx.sequence]) :
      Outcome env q view tx flags ((ter, true), q', view')
  /-- The account's queued transactions apply, from its sequence on, and then this one. -/
  | cleared {ter : TER} {q₁ : TxQ A R} {aSeq : ℕ} {series : List (MaybeTx A R)} {w view' : V} (hsame : Same q q₁)
      (haSeq : (env.accountRoot view tx.account).map Prod.fst = some aSeq) (hlt : aSeq < tx.sequence)
      (hseries : series = (q.queued tx.account).filter fun m => aSeq ≤ m.sequence ∧ m.sequence < tx.sequence)
      (hall : applyAll env series (env.sandbox view) = some w)
      (hrun : env.doApply (env.preclaim (env.preflightResult (env.rules view) tx flags) w) w = ((ter, true), view')) :
      Outcome env q view tx flags
        ((ter, true), q₁.unlink tx.account ((series.map fun m => m.sequence) ++ [tx.sequence]), env.commit view view')
  /-- The transaction is put into the queue, for which another may have to leave. -/
  | queued {q₁ q₂ q' : TxQ A R} {m : MaybeTx A R} (hsame : Same q q₁)
      (hroom : (q₂ = q₁ ∧ q₁.isFull 100 = false) ∨ ∃ p ∈ q₁.byFee_, q₂ = q₁.unlink p.1 [p.2]) (htx : m.txn = tx)
      (hfresh : q₂.items (tx.account, tx.sequence) = none) (hadd : q₂.add env m = .ok q') :
      Outcome env q view tx flags ((terQUEUED, false), q', view)

/-- A transaction has been put into the queue: it is stored instead of one of the same sequence, and at most a transaction of
another account has left. -/
structure Held (q q' : TxQ A R) (tx : STTx A) : Prop where
  own : ∃ c : Core A, c.txn = tx ∧
    (q'.contents tx.account).Perm (c :: (q.contents tx.account).filter (·.sequence ≠ tx.sequence))
  others : ∀ a, a ≠ tx.account → (q'.contents a).Sublist (q.contents a)

theorem contents_unlink_sublist (q : TxQ A R) (a : A) (ss : List ℕ) (b : A) :
    ((q.unlink a ss).contents b).Sublist (q.contents b) := by
  rw [contents_unlink]
  by_cases hb : b = a
  · subst hb
    rw [Function.update_self]
    exact List.filter_sublist
  · rw [Function.update_of_ne hb]

theorem held_of_add {q₂ : TxQ A R} (h : q₂.add env m = .ok q') (hfresh : q₂.items (m.txn.account, m.sequence) = none)
    (hown : q₂.contents m.txn.account = (q.contents m.txn.account).filter (·.sequence ≠ m.txn.sequence))
    (hothers : ∀ a, (q₂.contents a).Sublist (q.contents a)) : Held q q' m.txn := by
  refine ⟨⟨m.toCore, rfl, ?_⟩, fun a ha => ?_⟩
  · rw [contents_add h, Function.update_self, ← hown]
    exact perm_insertCore (fresh_of_items hfresh)
  · rw [contents_add h, Function.update_of_ne ha]
    exact hothers a

/-- Whatever has left the queue was evicted. -/
def EvictsFor (q q' : TxQ A R) (tx : STTx A) (paid : ℕ) : Prop :=
  ∀ p, (q.items p).isSome → q'.items p = none → Evicted q tx paid p

theorem EvictsFor.same (h : Same q q') : EvictsFor q q' tx paid := by
  intro p hp hgone
  rw [h.items] at hgone
  rw [hgone] at hp
  cases hp

theorem EvictsFor.unlink {p : A × ℕ} (hsame : Same q q₁) (he : Evicted q₁ tx paid p) :
    EvictsFor q (q₁.unlink p.1 [p.2]) tx paid := by
  intro p' hp hgone
  rw [items_unlink, hsame.items] at hgone
  dsimp only at hgone
  split_ifs at hgone with hmem
  · obtain rfl : p' = p := by simpa using hmem
    exact he.same hsame
  · rw [hgone] at hp
    cases hp

theorem EvictsFor.add {q₂ : TxQ A R} (he : EvictsFor q q₂ tx paid) (hq : Consistent q₂)
    (hfresh : q₂.items (m.txn.account, m.sequence) = none) (h : q₂.add env m = .ok q') : EvictsFor q q' tx paid := by
  intro p hp hgone
  rw [hq.items_add h hfresh] at hgone
  by_cases hself : p = (m.txn.account, m.sequence)
  · rw [hself, Function.update_self] at hgone
    cases hgone
  · rw [Function.update_of_ne hself] at hgone
    exact he p hp hgone

/-- No transactor returns the code of a queued transaction. -/
structure NeverQueues (env : Transactors A R V C) : Prop where
  preflight : ∀ rules tx flags, env.preflight rules tx flags ≠ terQUEUED
  preclaim : ∀ pc, env.preclaimTer pc ≠ terQUEUED
  doApply : ∀ pc view, (env.doApply pc view).1.1 ≠ terQUEUED

theorem NeverQueues.of_doApply {pc : C} {w view' : V} {ter : TER} {did : Bool}
    (h : env.doApply pc w = ((ter, did), view')) (henv : NeverQueues env) : ter ≠ terQUEUED := by
  have := henv.doApply pc w
  rwa [h] at this

/-- Nothing enters the queue. -/
structure Passed (env : Transactors A R V C) (q : TxQ A R) (r : (TER × Bool) × TxQ A R × V) : Prop where
  ter : NeverQueues env → r.1.1 ≠ terQUEUED
  contents : ∀ a, (r.2.1.contents a).Sublist (q.contents a)

theorem Passed.same {ter : TER} {did : Bool} (h : Same q q') (hter : NeverQueues env → ter ≠ terQUEUED) :
    Passed env q ((ter, did), q', view) :=
  ⟨hter, fun a => by rw [h.contents]⟩

theorem Passed.unlink {ter : TER} {did : Bool} (h : Same q q₁) (a : A) (ss : List ℕ)
    (hter : NeverQueues env → ter ≠ terQUEUED) : Passed env q ((ter, did), q₁.unlink a ss, view) :=
  ⟨hter, fun b => h.contents ▸ contents_unlink_sublist q₁ a ss b⟩

/-- What is known when a call returns, where `H` is known of a queue into which the transaction has been put. -/
structure Returned (K T : Prop) (env : Transactors A R V C) (q : TxQ A R) (view : V) (tx : STTx A) (flags : ApplyFlags)
    (paid : ℕ) (H : TxQ A R → Prop) (r : (TER × Bool) × TxQ A R × V) : Prop where
  outcome : Outcome env q view tx flags r
  known : Each (·.Known K T) r.2.1
  queued : (r.1.1 = terQUEUED ∧ H r.2.1) ∨ Passed env q r
  evicts : r.1.2 = false → q.items (tx.account, tx.sequence) = none → EvictsFor q r.2.1 tx paid

theorem Returned.rejected {H : TxQ A R → Prop} {ter : TER} (hsame : Same q q') (hE : Each (·.Known K T) q')
    (hter : NeverQueues env → ter ≠ terQUEUED) : Returned K T env q view tx flags paid H ((ter, false), q', view) :=
  ⟨.rejected hsame, hE, .inr (.same hsame hter), fun _ _ => .same hsame⟩

theorem stored_spec {q₂ : TxQ A R} (hsame : Same q q₁) (hq₂ : Consistent q₂) (hE : Each (·.Known K T) q₂) (hm : m.Known K T)
    (hroom : (q₂ = q₁ ∧ q₁.isFull 100 = false) ∨ ∃ p ∈ q₁.byFee_, q₂ = q₁.unlink p.1 [p.2])
    (hfresh : q₂.items (m.txn.account, m.sequence) = none)
    (hown : q₂.contents m.txn.account = (q.contents m.txn.account).filter (·.sequence ≠ m.txn.sequence))
    (hevicts : q.items (m.txn.account, m.sequence) = none → EvictsFor q q₂ m.txn m.feeLevel) :
    Spec T (do return ((terQUEUED, false), ← q₂.add env m, view))
      (Returned K T env q view m.txn flags m.feeLevel (Held q · m.txn)) := by
  have hothers : ∀ a, (q₂.contents a).Sublist (q.contents a) := by
    intro a
    rw [← hsame.contents]
    rcases hroom with ⟨rfl, -⟩ | ⟨p, -, rfl⟩
    · exact .refl _
    · exact contents_unlink_sublist q₁ _ _ a
  exact (add_spec hfresh).bind fun q' hadd => .ok ⟨.queued hsame hroom rfl hfresh hadd, hE.add hm hadd,
    .inl ⟨rfl, held_of_add hadd hfresh hown hothers⟩, fun _ hnone => (hevicts hnone).add hq₂ hfresh hadd⟩

theorem hold_spec (hq : Consistent q) (hsame : Same q q₁) (hE : Each (·.Known K T) q₁) (hpos : T → Positive q₁)
    (hm : m.Known K T) (hreplaced : replaced = true ↔ (q.items (m.txn.account, m.sequence)).isSome) :
    Spec T (q₁.hold env view m replaced) (Returned K T env q view m.txn flags m.feeLevel (Held q · m.txn)) := by
  have hq₁ := hsame.consistent hq
  unfold hold
  split_ifs with hrep
  · have hsome := hreplaced.mp hrep
    have hlinked : (m.txn.account, m.sequence) ∈ q₁.byFee_ := by
      rw [hsame.byFee, hq.ranking.mem_iff]
      exact hsome
    refine (hq₁.erase_spec hlinked).bind fun q₂ h => ?_
    subst h
    refine stored_spec hsame (hq₁.unlink _ _) (hE.unlink _ _) hm (.inr ⟨_, hlinked, rfl⟩) ?_ ?_ fun hnone => ?_
    · rw [items_unlink]
      exact if_pos (by simp)
    · rw [contents_unlink, Function.update_self, hsame.contents]
      refine List.filter_congr fun c _ => ?_
      simp only [List.mem_singleton]
      rfl
    · rw [hnone] at hsome
      cases hsome
  · have habsent : q₁.items (m.txn.account, m.sequence) = none := by
      rw [hsame.items, ← Option.not_isSome_iff_eq_none]
      exact fun h => hrep (hreplaced.mpr h)
    have hall : q₁.contents m.txn.account = (q.contents m.txn.account).filter (·.sequence ≠ m.txn.sequence) := by
      rw [← hsame.contents, eq_comm, List.filter_eq_self]
      intro c hc
      simp only [decide_eq_true_eq]
      exact fresh_of_items habsent c hc
    refine (makeRoom_spec hq₁ hpos).bind fun r ⟨hsome, hnone⟩ => ?_
    obtain ⟨result, q₂⟩ := r
    cases result with
    | some ter =>
      obtain ⟨hter, h⟩ := hsome ter rfl
      dsimp only at h
      subst h
      exact .ok (.rejected hsame hE fun _ => hter)
    | none =>
      rcases hnone rfl with ⟨h, hfull⟩ | ⟨p, hp, hevicted, h⟩
      · dsimp only at h
        subst h
        exact stored_spec hsame hq₁ hE hm (.inl ⟨rfl, hfull⟩) habsent hall fun _ => .same hsame
      · dsimp only at h
        subst h
        have hother := hevicted.other
        refine stored_spec hsame (hq₁.unlink _ _) (hE.unlink _ _) hm (.inr ⟨p, hp, rfl⟩) ?_ ?_ fun _ =>
          .unlink hsame hevicted
        · have hne : (m.txn.account, m.sequence) ≠ p := fun e => hother (congrArg Prod.fst e).symm
          rw [items_unlink]
          exact (if_neg (by simpa using hne)).trans habsent
        · rw [contents_unlink, Function.update_of_ne (Ne.symm hother)]
          exact hall

/-! ## The function -/

theorem applyDirect_spec {H : TxQ A R → Prop} (hq : Consistent q) (hsame : Same q q₁) (hE : Each (·.Known K T) q₁)
    (hreplaced : replaced = true ↔ (q.items (tx.account, tx.sequence)).isSome) :
    Spec T (q₁.applyDirect env view tx (env.preclaim (env.preflightResult (env.rules view) tx flags) view) replaced)
      (Returned K T env q view tx flags paid H) := by
  unfold applyDirect
  cases hrun : env.doApply (env.preclaim (env.preflightResult (env.rules view) tx flags) view) view with
  | mk result view' =>
    obtain ⟨ter, didApply⟩ := result
    have hter := NeverQueues.of_doApply hrun
    dsimp only
    split_ifs with hboth
    · have hlinked : (tx.account, tx.sequence) ∈ q₁.byFee_ := by
        rw [hsame.byFee, hq.ranking.mem_iff]
        exact hreplaced.mp hboth.2
      refine ((hsame.consistent hq).erase_spec hlinked).bind fun q' h => ?_
      subst h
      rw [hboth.1] at hrun ⊢
      exact .ok ⟨.applied hsame hrun (.inr rfl), hE.unlink _ _, .inr (.unlink hsame _ _ hter), by simp⟩
    · cases didApply with
      | false => exact .ok ⟨.failed hsame hrun, hE, .inr (.same hsame hter), fun _ _ => .same hsame⟩
      | true =>
        refine .ok ⟨.applied hsame hrun (.inl ⟨rfl, ?_⟩), hE, .inr (.same hsame hter), by simp⟩
        rw [← Option.not_isSome_iff_eq_none, ← hreplaced]
        exact fun hrep => hboth ⟨rfl, hrep⟩

theorem preclaimed_spec {baseFee : ℕ} {consequences : Option TxConsequences} {multi : Option (ℕ × V)}
    (hsetup : T → setup.Positive) (hq : Consistent q) (hquiet : Quiet q q₁) (hE : Each (·.Known K T) q₁)
    (hpos : T → Positive q₁) (hreplaced : replaced = true ↔ (q.items (tx.account, tx.sequence)).isSome)
    (hcandidate : (candidate tx paid flags (env.preflightResult (env.rules view) tx flags) consequences).Known K T)
    (hescalated : flags &&& tapPREFER_QUEUE = 0 → baseLevel < required → q₁.feeMetrics_.txnsExpected_ < env.txCount view)
    (hmulti : ∀ m, multi = some m → Scanned K env view tx q₁ m) :
    Spec T (q₁.preclaimed env setup view tx flags (env.preflightResult (env.rules view) tx flags) paid required baseFee
      replaced consequences multi) (Returned K T env q view tx flags paid (Held q · tx)) := by
  have hsame := hquiet.same
  unfold preclaimed
  cases multi with
  | some multi =>
    obtain ⟨aSeq, testView⟩ := multi
    obtain ⟨-, hknown, ⟨acc, hacc, hfirst⟩, hlt, balance, hroot, -⟩ := hmulti _ rfl
    dsimp only at hknown hfirst hlt hroot ⊢
    rw [hacc]
    dsimp only
    split_ifs with hworth
    · unfold worthClearing at hworth
      simp only [decide_eq_true_eq] at hworth
      refine (tryClearAccountQueue_spec (hsame.consistent hq) hE hpos hacc hfirst
        (hescalated hworth.1 hworth.2.2.2.1) hknown).bind fun r ⟨heach, q₂, hsame₂, hfail, hsuccess⟩ => ?_
      split_ifs with hdid
      · obtain ⟨hleft, w, hall, hrun⟩ := hsuccess hdid
        -- the series as it was before the call
        have hattempts : (range acc aSeq tx.sequence).map (·.attempt) =
            ((q.queued tx.account).filter fun m => aSeq ≤ m.sequence ∧ m.sequence < tx.sequence).map (·.attempt) := by
          have := congrArg (List.filter fun a => decide (aSeq ≤ a.1.sequence ∧ a.1.sequence < tx.sequence))
            (hquiet.attempts tx.account)
          rw [queued_of hacc, List.filter_map, List.filter_map] at this
          exact this
        have hseqs := congrArg (List.map fun a => a.1.sequence) hattempts
        rw [List.map_map, List.map_map] at hseqs
        change (range acc aSeq tx.sequence).map (fun m => m.sequence) =
          List.map (fun m : MaybeTx A R => m.sequence) _ at hseqs
        rw [applyAll_congr env hattempts] at hall
        rw [hseqs] at hleft
        obtain ⟨⟨ter, didApply⟩, q', view'⟩ := r
        dsimp only at hdid hleft hrun heach ⊢
        subst hleft
        rw [hdid] at hrun ⊢
        exact .ok ⟨.cleared (hsame.trans hsame₂) (by rw [hroot]; rfl) hlt rfl hall hrun, heach,
          .inr (.unlink (hsame.trans hsame₂) _ _ (NeverQueues.of_doApply hrun)), by simp⟩
      · have hkeep : r.2.1 = q₂ := hfail (by simpa using hdid)
        rw [hkeep] at heach ⊢
        exact hold_spec hq (hsame.trans hsame₂) heach (fun ht => (hpos ht).same hsame₂) hcandidate hreplaced
    · exact hold_spec hq hsame hE hpos hcandidate hreplaced
  | none =>
    dsimp only
    split_ifs
    · exact applyDirect_spec hq hsame hE hreplaced
    · refine (canBeHeld_spec hsetup).bind fun held _ => ?_
      split_ifs
      · exact hold_spec hq hsame hE hpos hcandidate hreplaced
      · exact .ok (.rejected hsame hE fun _ => by decide)

/-- What the transactors must return: the account is not likely to claim a fee below the base level, and only blockers are
free. -/
structure Regular (env : Transactors A R V C) (setup : Setup) (view : V) (tx : STTx A) (flags : ApplyFlags) : Prop where
  paysBaseLevel : ∀ v, (v = view ∨ ∃ balance, v = env.withAccount view tx.account tx.sequence balance) →
    env.likelyToClaimFee (env.preclaim (env.preflightResult (env.rules view) tx flags) v) = true →
      baseLevel ≤ getFeeLevelPaid tx (env.calculateBaseFee view tx) setup
  free : env.calculateBaseFee view tx = 0 → tx.affectsSubsequentTransactionAuth = true

theorem Regular.pays (h : Regular env setup view tx flags)
    (hpaid : baseLevel ≤ getFeeLevelPaid tx (env.calculateBaseFee view tx) setup) :
    tx.affectsSubsequentTransactionAuth = true ∨ 0 < tx.fee := by
  by_cases hbase : env.calculateBaseFee view tx = 0
  · exact .inl (h.free hbase)
  · refine .inr (Nat.pos_of_ne_zero fun hfee => ?_)
    unfold getFeeLevelPaid at hpaid
    rw [if_neg hbase, hfee] at hpaid
    simp [mulDiv, baseLevel] at hpaid

/-- What is known when a transaction has been queued: it is no blocker that replaces a normal transaction which is not the
last, and the account is likely to claim a fee for it on the open view, or the account's sequences before it are queued. -/
structure Entered (K : Prop) (env : Transactors A R V C) (q : TxQ A R) (view : V) (tx : STTx A) (flags : ApplyFlags)
    (q' : TxQ A R) : Prop where
  held : Held q q' tx
  middle : K → ∀ c ∈ q.contents tx.account, c.sequence = tx.sequence → c.txn.affectsSubsequentTransactionAuth = false →
    (∃ c' ∈ q.contents tx.account, tx.sequence < c'.sequence) → tx.affectsSubsequentTransactionAuth = false
  way : env.likelyToClaimFee (env.preclaim (env.preflightResult (env.rules view) tx flags) view) = true ∨
    ∃ aSeq balance, env.accountRoot view tx.account = some (aSeq, balance) ∧ aSeq < tx.sequence ∧
      Covered K (q.contents tx.account) tx aSeq balance (env.reserve view)

/-- **What a call does**, and that it returns. -/
theorem apply_spec (hTK : T → K) (hsetup : T → setup.Positive) (hq : Consistent q) (hE : Each (·.Known K T) q)
    (hpos : T → Positive q) (hregular : T → Regular env setup view tx flags) :
    Spec T (q.apply env setup view tx flags) (Returned K T env q view tx flags
      (getFeeLevelPaid tx (env.calculateBaseFee view tx) setup) (Entered K env q view tx flags)) := by
  unfold apply
  dsimp only
  split_ifs with hpf
  · exact .ok (.rejected (.refl q) hE fun henv => henv.preflight _ _ _)
  rw [not_not] at hpf
  refine (requiredFeeLevel_spec hpos view flags).bind fun required hescalated => ?_
  refine (replacement_spec hTK hq hE hpf rfl).bind fun r₁ hr₁ => ?_
  obtain ⟨result₁, q₁⟩ := r₁
  obtain ⟨hquiet₁, hE₁, hreplacement⟩ := hr₁
  cases result₁ with
  | inl ter => exact .ok (.rejected hquiet₁.same hE₁ fun _ => hreplacement)
  | inr existing =>
    have hexisting : Replaced K q tx existing := hreplacement
    have hreplaced₁ : existing.1 = true ↔ (q₁.items (tx.account, tx.sequence)).isSome = true := by
      rw [hquiet₁.same.items]
      exact hexisting.iff
    refine (multiTxn_spec hTK hsetup (hquiet₁.same.consistent hq) hE₁ hreplaced₁).bind fun r₂ hr₂ => ?_
    obtain ⟨result₂, q₂⟩ := r₂
    obtain ⟨hquiet₂, hE₂, hscanned⟩ := hr₂
    have hquiet := hquiet₁.trans hquiet₂
    have hsame := hquiet.same
    cases result₂ with
    | inl ter => exact .ok (.rejected hsame hE₂ fun _ => hscanned)
    | inr multi =>
      dsimp only
      split_ifs with hlikely
      · exact .ok (.rejected hsame hE₂ fun henv => henv.preclaim _)
      -- the view on which the account is likely to claim a fee
      have hview : (multi.map Prod.snd).getD view = view ∨
          ∃ balance, (multi.map Prod.snd).getD view = env.withAccount view tx.account tx.sequence balance := by
        cases multi with
        | none => exact .inl rfl
        | some multi => exact .inr (hscanned multi rfl).testView
      have hpaid : T → baseLevel ≤ getFeeLevelPaid tx (env.calculateBaseFee view tx) setup := fun ht =>
        (hregular ht).paysBaseLevel _ hview (by simpa using hlikely)
      have hcandidate : (candidate tx (getFeeLevelPaid tx (env.calculateBaseFee view tx) setup) flags
          (env.preflightResult (env.rules view) tx flags) existing.2).Known K T :=
        ⟨fun _ => rfl, fun _ => .inl hpf, fun _ => hexisting.own, fun ht => (hregular ht).pays (hpaid ht)⟩
      refine (assert_spec hpaid).bind fun _ _ => ?_
      refine (preclaimed_spec hsetup hq hquiet hE₂ (fun ht => (hpos ht).same hsame) hexisting.iff hcandidate
        (hsame.feeMetrics ▸ hescalated) hscanned).mono fun r hr => ?_
      refine ⟨hr.outcome, hr.known, hr.queued.imp_left fun h => ⟨h.1, h.2, hexisting.middle, ?_⟩, hr.evicts⟩
      cases multi with
      | none => exact .inl (by simpa using hlikely)
      | some multi =>
        obtain ⟨balance, hroot, hcovered⟩ := (hscanned multi rfl).covered
        rw [hsame.contents] at hcovered
        exact .inr ⟨_, balance, hroot, (hscanned multi rfl).lt, hcovered⟩

theorem apply_post {r : (TER × Bool) × TxQ A R × V} (hq : Consistent q) (h : q.apply env setup view tx flags = .ok r) :
    Returned False False env q view tx flags (getFeeLevelPaid tx (env.calculateBaseFee view tx) setup)
      (Entered False env q view tx flags) r :=
  (apply_spec id False.elim hq (fun _ _ _ => ⟨False.elim, False.elim, False.elim, False.elim⟩) False.elim
    False.elim).post r h

/-! ## Eviction -/

/-- If a transaction that replaces none is not applied and another one is gone from the queue, the new one pays more than the
mean of what the account of the other one pays, the other one has the highest sequence of its account, and the accounts differ.
The mean is computed in 64 bits without an overflow: it is exact, up to the fraction, or it is at least `2 ^ 64 - 1` or of at
least `2 ^ 32` transactions, when nothing is evicted. -/
theorem evicted_pays_less {r : (TER × Bool) × TxQ A R × V} (hq : Consistent q)
    (hlevels : ∀ a, ∀ c ∈ q.contents a, c.feeLevel < 2 ^ 64) (hnew : q.items (tx.account, tx.sequence) = none)
    (h : q.apply env setup view tx flags = .ok r) (hheld : r.1.2 = false) :
    (∀ p, (q.items p).isSome → r.2.1.items p = none →
      q.averageFeeLevel p.1 < getFeeLevelPaid tx (env.calculateBaseFee view tx) setup ∧
        (∀ c ∈ q.contents p.1, c.sequence ≤ p.2) ∧ p.1 ≠ tx.account) ∧
      ∀ a acc last paid, q.byAccount_ a = some acc → 1 < acc.transactions.length → last ≤ paid →
        endEffectiveFeeLevel acc last paid = ⌊q.averageFeeLevel a⌋₊ ∨
          endEffectiveFeeLevel acc last paid = 2 ^ 64 - 1 ∧ 2 ^ 32 ≤ acc.transactions.length := by
  refine ⟨fun p hp hgone => ?_, fun a acc last paid hacc hsize hlast => ?_⟩
  · obtain ⟨hother, hhighest, hcheaper⟩ := (apply_post hq h).evicts hheld hnew p hp hgone
    exact ⟨hcheaper (hlevels p.1), hhighest, hother⟩
  · have hmean : ⌊q.averageFeeLevel a⌋₊ = (acc.transactions.map (·.feeLevel)).sum / acc.transactions.length := by
      unfold averageFeeLevel contents
      rw [Nat.floor_div_natCast, Nat.floor_natCast, List.map_map, List.length_map, queued_of hacc]
      rfl
    rw [hmean]
    refine endEffectiveFeeLevel_cases (fun m hm => ?_) hsize hlast
    exact hlevels a m.toCore (List.mem_map.mpr ⟨m, queued_of hacc ▸ hm, rfl⟩)

/-- Transactors that find nothing wrong, for a ledger with ten transactions. -/
def noFault : Transactors Bool Unit Unit Unit where
  asserts := true
  preflight := fun _ _ _ => tesSUCCESS
  preclaim := fun _ _ => ()
  preclaimTer := fun _ => tesSUCCESS
  likelyToClaimFee := fun _ => true
  doApply := fun _ view => ((tesSUCCESS, true), view)
  calculateBaseFee := fun _ _ => 10
  rules := fun _ => ()
  accountRoot := fun _ _ => some (5, 1000000)
  reserve := fun _ => 1000000
  seq := fun _ => 1
  txs := fun _ => []
  txCount := fun _ => 10
  withAccount := fun view _ _ _ => view
  sandbox := id
  commit := fun _ view => view

/-- The first transaction of one of two accounts. -/
def payFrom (account : Bool) (fee : ℕ) : STTx Bool := ⟨0, account, 5, fee, none, false, false, false, 0⟩

/-- A queue with room for one transaction, which is taken. -/
def oneQueued : TxQ Bool Unit where
  feeMetrics_ := .new Setup.default
  byFee_ := [(true, 5)]
  byAccount_ := fun a => if a = true then
    some ⟨[candidate (payFrom true 20) 512 0 (noFault.preflightResult () (payFrom true 20) 0) none], false, false⟩ else none
  maxSize_ := some 1

/-- A transaction of the second account takes the place of that of the first. -/
theorem evicted_pays_less_one :
    ∃ r, oneQueued.apply noFault Setup.default () (payFrom false 1000) 0 = .ok r ∧ r.2.1.items (true, 5) = none ∧
      oneQueued.averageFeeLevel true < 25600 := by
  have hq : Consistent oneQueued := by
    refine ⟨⟨List.nodup_singleton _, ?_, List.pairwise_singleton _ _⟩, ?_, ?_⟩
    · rintro ⟨a, s⟩
      cases a with
      | false => simp [oneQueued, items, contents, queued]
      | true =>
        simp only [oneQueued, items, contents, queued, candidate, payFrom, Core.sequence, if_true, Option.map_some,
          Option.getD_some, List.map_cons, List.map_nil, List.find?_singleton, List.mem_singleton, Prod.mk.injEq, true_and]
        split_ifs with hs
        · simpa using (of_decide_eq_true hs).symm
        · simpa [eq_comm] using hs
    · rintro (_ | _) <;> simp [oneQueued, contents, queued]
    · rintro (_ | _) <;> simp [oneQueued, contents, queued, candidate, payFrom]
  have hlevels : ∀ a, ∀ c ∈ oneQueued.contents a, c.feeLevel < 2 ^ 64 := by
    rintro (_ | _) <;> simp [oneQueued, contents, queued, candidate]
  have hrun : ∃ r, oneQueued.apply noFault Setup.default () (payFrom false 1000) 0 = .ok r ∧ r.1.2 = false ∧
      r.2.1.items (true, 5) = none := ⟨_, rfl, rfl, rfl⟩
  obtain ⟨r, hrun, hheld, hgone⟩ := hrun
  exact ⟨r, hrun, hgone, ((evicted_pays_less hq hlevels rfl hrun hheld).1 (true, 5) rfl hgone).1⟩

end TxQ

end ScfChain.App
