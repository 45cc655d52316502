import Mathlib
import ScfChain.App.TxQ.Turns

/-!
# Runs of the transaction queue

One specification for each of `TxQ::apply`, `TxQ::accept` and `TxQ::processClosedLedger`, and from them one for every run: a
call that returns leaves a consistent queue, whatever the transactors do, and a full queue does not grow by `TxQ::apply`; a call
returns if the limits are positive and the transactors regular.
-/

set_option linter.unusedSectionVars false

namespace ScfChain.App

open Data

variable {A R V C : Type} [DecidableEq A] [DecidableEq R]

theorem le_mulDiv {bound value mul : ℕ} (hbound : bound < 2 ^ 64) (hvalue : bound ≤ value) (hmul : 100 ≤ mul) :
    bound ≤ (mulDiv value mul 100).2 := by
  unfold mulDiv
  split_ifs
  · exact Nat.le_sub_one_of_lt hbound
  · exact (Nat.le_div_iff_mul_le (by norm_num)).mpr (by nlinarith)

namespace FeeMetrics

variable {T : Prop} {setup : Setup} {metrics : FeeMetrics}

theorem mem_pushBack {capacity : ℕ} (hcapacity : 0 < capacity) (l : List ℕ) (n : ℕ) : n ∈ pushBack capacity l n := by
  unfold pushBack
  rw [List.length_append, List.length_singleton, List.drop_append_of_le_length (by omega)]
  simp

theorem toNat_increase {percent : BitVec 32} (h : percent.toNat ≤ 1000) : 100 ≤ (100 + percent).toNat := by
  rw [BitVec.toNat_add]
  simp
  omega

theorem updateExpected_spec (hsetup : T → setup.Positive) (hpos : T → 0 < metrics.txnsExpected_) (size : ℕ) (timeLeap : Bool) :
    Spec T (metrics.updateExpected setup size timeLeap) fun metrics' => T → 0 < metrics'.txnsExpected_ := by
  unfold updateExpected
  split_ifs with hslow hlarge
  · exact .ok fun ht => lt_of_lt_of_le (hsetup ht).minimumTxnCount (le_max_left _ _)
  · generalize hcount : (mulDiv size (100 + setup.normalConsensusIncreasePercent).toNat 100).2 = count
    have hmem : T → count ∈ pushBack setup.ledgersInQueue metrics.recentTxnCounts_ count := fun ht =>
      mem_pushBack (hsetup ht).ledgersInQueue _ _
    dsimp only
    cases hmax : (pushBack setup.ledgersInQueue metrics.recentTxnCounts_ count).max? with
    | none =>
      rw [List.max?_eq_none_iff] at hmax
      rw [hmax] at hmem
      exact .error fun ht => List.not_mem_nil (hmem ht)
    | some largest =>
      refine .ok fun ht => ?_
      have hpushed : 1 ≤ count := hcount ▸ le_mulDiv (by norm_num) (by omega) (toNat_increase (hsetup ht).increasePercent)
      have hlargest := (List.max?_eq_some_iff.mp hmax).2 _ (hmem ht)
      have hexpected := hpos ht
      have hnext : 0 < (if metrics.txnsExpected_ ≤ largest then largest
          else (metrics.txnsExpected_ * 9 + largest) / 10) := by
        split_ifs <;> omega
      refine lt_min hnext ?_
      unfold maximumTxnCount_ targetTxnCount_
      cases setup.maximumTxnInLedger with
      | none => exact hnext
      | some most =>
        exact lt_of_lt_of_le (hsetup ht).minimumTxnCount ((le_max_right _ _).trans (le_max_right _ _))
  · exact .ok hpos

theorem update_spec (hsetup : T → setup.Positive) (hpos : T → 0 < metrics.txnsExpected_) (feeLevels : List ℕ)
    (timeLeap : Bool) : Spec T (metrics.update setup feeLevels timeLeap) fun metrics' => T → 0 < metrics'.txnsExpected_ := by
  refine (updateExpected_spec hsetup hpos _ timeLeap).bind fun expected hexpected => ?_
  split_ifs
  · exact .ok hexpected
  · exact .ok hexpected

end FeeMetrics

namespace TxQ

variable {K T : Prop} {env : Transactors A R V C} {setup : Setup} {q q' : TxQ A R} {view : V} {tx : STTx A}
  {flags : ApplyFlags}

/-! ## `TxQ::apply` -/

variable {r : (TER × Bool) × TxQ A R × V}

theorem Outcome.consistent (hq : Consistent q) (h : Outcome env q view tx flags r) : Consistent r.2.1 := by
  cases h with
  | rejected hsame => exact hsame.consistent hq
  | failed hsame hrun => exact hsame.consistent hq
  | applied hsame hrun hleft =>
    rcases hleft with ⟨rfl, -⟩ | rfl
    · exact hsame.consistent hq
    · exact (hsame.consistent hq).unlink _ _
  | cleared hsame => exact (hsame.consistent hq).unlink _ _
  | queued hsame hroom htx hfresh hadd =>
    subst htx
    rcases hroom with ⟨rfl, -⟩ | ⟨p, -, rfl⟩
    · exact (hsame.consistent hq).add hadd hfresh
    · exact ((hsame.consistent hq).unlink _ _).add hadd hfresh

theorem length_unlink_le (q : TxQ A R) (a : A) (ss : List ℕ) : (q.unlink a ss).byFee_.length ≤ q.byFee_.length :=
  (List.diff_sublist _ _).length_le

theorem Outcome.length_le (hfull : q.isFull 100 = true)
    (h : Outcome env q view tx flags r) : r.2.1.byFee_.length ≤ q.byFee_.length := by
  cases h with
  | rejected hsame => exact (congrArg _ hsame.byFee).le
  | failed hsame hrun => exact (congrArg _ hsame.byFee).le
  | applied hsame hrun hleft =>
    rw [← hsame.byFee]
    rcases hleft with ⟨rfl, -⟩ | rfl
    · exact le_rfl
    · exact length_unlink_le _ _ _
  | cleared hsame =>
    rw [← hsame.byFee]
    exact length_unlink_le _ _ _
  | queued hsame hroom htx hfresh hadd =>
    rw [← hsame.byFee]
    show List.length _ ≤ _
    rw [length_add hadd]
    rcases hroom with ⟨rfl, hroom⟩ | ⟨p, hp, rfl⟩
    · unfold isFull at hfull hroom
      rw [hsame.maxSize, hsame.byFee, hfull] at hroom
      cases hroom
    · exact (length_unlink_single hp).le

theorem Outcome.positive (hpos : Positive q) (h : Outcome env q view tx flags r) : Positive r.2.1 := by
  -- nothing changes the limits
  have hunlink : ∀ {q₁ : TxQ A R} (a : A) (ss : List ℕ), Positive q₁ → Positive (q₁.unlink a ss) := fun _ _ h => ⟨h.1, h.2⟩
  cases h with
  | rejected hsame => exact hpos.same hsame
  | failed hsame hrun => exact hpos.same hsame
  | applied hsame hrun hleft =>
    rcases hleft with ⟨rfl, -⟩ | rfl
    · exact hpos.same hsame
    · exact hunlink _ _ (hpos.same hsame)
  | cleared hsame => exact hunlink _ _ (hpos.same hsame)
  | @queued q₁ q₂ q' m hsame hroom htx hfresh hadd =>
    have hpos₂ : Positive q₂ := by
      rcases hroom with ⟨rfl, -⟩ | ⟨p, -, rfl⟩
      · exact hpos.same hsame
      · exact hunlink _ _ (hpos.same hsame)
    obtain ⟨-, hmetrics, hmax⟩ := byFee_add hadd
    exact ⟨hmetrics ▸ hpos₂.txnsExpected, hmax ▸ hpos₂.maxSize⟩

/-! ## `TxQ::accept` -/

/-- **What `TxQ::accept` does to the queue**: transactions only leave it. -/
theorem accept_spec (hq : Consistent q) (hE : Each (·.Known K T) q) (hpos : T → Positive q) (hrejects : K → Rejects env)
    (view : V) : Spec T (q.accept env view) fun r => Consistent r.2.1 ∧ Each (·.Known K T) r.2.1 ∧ (T → Positive r.2.1) ∧
      ∀ a, (r.2.1.contents a).Sublist (q.contents a) := by
  have hrule := acceptLoopLogged_rule env [] (s := ⟨q.byFee_.head?, q, view, false⟩)
    (I := fun _ s => Each (·.Known K T) s.queue ∧ (T → Positive s.queue) ∧ ∀ a, (s.queue.contents a).Sublist (q.contents a))
    ?_ hq (fun p h => List.mem_of_head? h) (Nat.lt_succ_of_le (Loop.turns_le _)) ⟨hE, hpos, fun a => .refl _⟩
  · unfold accept
    rw [← acceptLoopLogged_snd env _ _ []]
    rcases hrule with ⟨log, s, hrun, -, hcons, hknown, hpositive, hsub⟩ | ⟨hrun, hzero⟩
    · rw [hrun]
      exact .ok ⟨hcons, hknown, hpositive, hsub⟩
    · rw [hrun]
      refine .error fun ht => ?_
      have := (hpos ht).txnsExpected
      dsimp only at hzero
      omega
  · rintro log s p entries s' ⟨hknown, hpositive, hsub⟩ hcons hp hcandidate hturn
    refine ⟨hturn.known hrejects hknown, fun ht => ?_, fun a => (hturn.contents a).trans (hsub a)⟩
    obtain ⟨hmetrics, hmax⟩ := hturn.limits
    exact ⟨hmetrics ▸ (hpositive ht).txnsExpected, hmax ▸ (hpositive ht).maxSize⟩

/-! ## A closed ledger -/

theorem expireAll_spec (ledgerSeq : ℕ) {ps : List (A × ℕ)} (hnodup : ps.Nodup) (hps : ∀ p ∈ ps, p ∈ q.byFee_)
    (hq : Consistent q) (hE : Each (·.Known K T) q) (hpos : T → Positive q) :
    Spec T (ps.foldlM (expire env ledgerSeq) q) fun q' => Consistent q' ∧ Each (·.Known K T) q' ∧ (T → Positive q') ∧
      ∀ a, (q'.contents a).Sublist (q.contents a) := by
  induction ps generalizing q with
  | nil => exact .ok ⟨hq, hE, hpos, fun a => .refl _⟩
  | cons p ps ih =>
    obtain ⟨hp, hnodup'⟩ := List.nodup_cons.mp hnodup
    obtain ⟨hlinked, hps⟩ := List.forall_mem_cons.mp hps
    obtain ⟨acc, m, hacc, hfind, -, -⟩ := hq.stored hlinked
    have hderef : q.deref p = some m := by
      unfold deref
      rw [hacc]
      exact hfind
    rw [List.foldlM_cons]
    unfold expire
    rw [hderef]
    dsimp only
    split_ifs
    · have hsame := same_penalise q p.1 false
      have hq₁ := hsame.consistent hq
      have hE₁ : Each (·.Known K T) (q.modifyAccount p.1 (·.penalise false)) := by
        unfold Each
        rw [queued_penalise]
        exact hE
      rw [hq₁.erase_ok hlinked, ok_bind]
      refine (ih hnodup' (fun p' hp' => mem_unlink_single (p := p) hq₁ (hps p' hp') fun e => hp (e ▸ hp')) (hq₁.unlink _ _)
        (hE₁.unlink _ _) fun ht => ⟨(hpos ht).1, (hpos ht).2⟩).mono fun q' ⟨hq', hE', hpos', hsub⟩ => ⟨hq', hE', hpos', fun a => ?_⟩
      rw [← hsame.contents]
      exact (hsub a).trans (contents_unlink_sublist _ _ _ a)
    · rw [ok_bind]
      exact ih hnodup' hps hq hE hpos

theorem queued_dropEmpty (q : TxQ A R) : q.dropEmpty.queued = q.queued := by
  funext a
  show (((q.byAccount_ a).filter fun acc => !acc.transactions.isEmpty).map (·.transactions)).getD [] = _
  unfold queued
  cases q.byAccount_ a with
  | none => rfl
  | some acc =>
    by_cases hempty : acc.transactions = []
    · simp [Option.filter, hempty]
    · simp [Option.filter, hempty]

theorem same_dropEmpty (q : TxQ A R) : Same q q.dropEmpty := by
  refine ⟨?_, rfl, rfl, rfl⟩
  unfold contents
  rw [queued_dropEmpty]

theorem processClosedLedger_spec (hsetup : T → setup.Positive) (hq : Consistent q) (hE : Each (·.Known K T) q)
    (hpos : T → Positive q) (view : V) (timeLeap : Bool) :
    Spec T (q.processClosedLedger env setup view timeLeap) fun q' => Consistent q' ∧ Each (·.Known K T) q' ∧
      (T → Positive q') ∧ ∀ a, (q'.contents a).Sublist (q.contents a) := by
  refine (FeeMetrics.update_spec hsetup (fun ht => (hpos ht).txnsExpected) _ timeLeap).bind fun metrics hmetrics => ?_
  have hlimits : T → Positive (⟨metrics, q.byFee_, q.byAccount_, if timeLeap then q.maxSize_ else
      some (max (metrics.txnsExpected_ * setup.ledgersInQueue) setup.queueSizeMin)⟩ : TxQ A R) := by
    refine fun ht => ⟨hmetrics ht, fun n hn => ?_⟩
    dsimp only at hn
    split_ifs at hn
    · exact (hpos ht).maxSize n hn
    · cases hn
      exact lt_of_lt_of_le (Nat.mul_pos (hmetrics ht) (hsetup ht).ledgersInQueue) (le_max_left _ _)
  -- the limits are no part of consistency
  refine (expireAll_spec (q := ⟨metrics, q.byFee_, q.byAccount_, _⟩) (env.seq view) hq.ranking.nodup (fun p hp => hp)
    ⟨hq.ranking, hq.ordered, hq.owned⟩ hE hlimits).bind fun q₁ ⟨hq₁, hE₁, hpos₁, hsub⟩ => .ok ⟨(same_dropEmpty q₁).consistent hq₁, ?_, fun ht => (hpos₁ ht).same (same_dropEmpty q₁), ?_⟩
  · unfold Each
    rw [queued_dropEmpty]
    exact hE₁
  · rw [(same_dropEmpty q₁).contents]
    exact hsub

/-! ## Runs -/

/-- The conditions on a call. -/
def Event.Regular (setup : Setup) : Event A R V C → Prop
  | .apply env view tx flags => TxQ.Regular env setup view tx flags
  | .accept env _ => Rejects env
  | .processClosedLedger _ _ _ => True

/-- Those under which the consequences of queued transactions stay known. -/
def Event.Rejects : Event A R V C → Prop
  | .accept env _ => TxQ.Rejects env
  | _ => True

theorem Event.Regular.rejects {e : Event A R V C} (h : e.Regular setup) : e.Rejects := by
  cases e with
  | apply env view tx flags => trivial
  | accept env view => exact h
  | processClosedLedger env view timeLeap => trivial

/-- What a run keeps. -/
structure Kept (K T : Prop) (q : TxQ A R) : Prop where
  consistent : Consistent q
  known : Each (·.Known K T) q
  positive : T → Positive q

theorem step_spec (hTK : T → K) (hsetup : T → setup.Positive) {e : Event A R V C} (hregular : T → e.Regular setup)
    (hrejects : K → e.Rejects) (hq : Kept K T q) : Spec T (step setup q e) (Kept K T) := by
  obtain ⟨hq, hE, hpos⟩ := hq
  cases e with
  | apply env view tx flags =>
    exact (apply_spec hTK hsetup hq hE hpos hregular).bind fun r ⟨hout, heach, _, _⟩ =>
      .ok ⟨hout.consistent hq, heach, fun ht => hout.positive (hpos ht)⟩
  | accept env view =>
    exact (accept_spec hq hE hpos hrejects view).bind fun r ⟨hq', hE', hpos', _⟩ => .ok ⟨hq', hE', hpos'⟩
  | processClosedLedger env view timeLeap =>
    exact (processClosedLedger_spec hsetup hq hE hpos view timeLeap).mono fun q' ⟨hq', hE', hpos', _⟩ => ⟨hq', hE', hpos'⟩

theorem run_spec (hTK : T → K) (hsetup : T → setup.Positive) {events : List (Event A R V C)}
    (hregular : T → ∀ e ∈ events, e.Regular setup) (hrejects : K → ∀ e ∈ events, e.Rejects) (hq : Kept K T q) :
    Spec T (run setup q events) (Kept K T) :=
  Spec.foldlM events hq fun _ e he hq' => step_spec hTK hsetup (fun ht => hregular ht e he) (fun hk => hrejects hk e he) hq'

theorem kept_new (hsetup : T → setup.Positive) : Kept K T (new setup : TxQ A R) :=
  ⟨consistent_new setup, fun _ m hm => absurd hm List.not_mem_nil, fun ht => ⟨(hsetup ht).minimumTxnCount, by simp [new]⟩⟩

theorem Consistent.run {events : List (Event A R V C)} (hq : Consistent q) (h : run setup q events = .ok q') :
    Consistent q' := by
  have hspec : Spec False (TxQ.run setup q events) (Kept False False) := run_spec id False.elim False.elim False.elim
    ⟨hq, fun _ _ _ => ⟨False.elim, False.elim, False.elim, False.elim⟩, False.elim⟩
  exact (hspec.post q' h).consistent

end TxQ

end ScfChain.App
