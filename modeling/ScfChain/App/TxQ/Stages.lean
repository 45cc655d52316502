import Mathlib
import ScfChain.App.TxQ.Consistent

/-!
# The stages of `TxQ::apply`

Every stage of the function has one specification. It says what the stage returns, and that it returns, so that no assertion
fails, under a condition `T`.

* `Quiet`: nothing that is queued has changed, nor has a preflight result;
* `MaybeTx.Known`: under `K`, the consequences of a queued transaction are those of the transaction;
* `Replaced`: what is known of a transaction with the same sequence;
* `Scanned`, `Covered`: what is known when the account's sequences before this one are queued.
-/

set_option linter.unusedSectionVars false

namespace ScfChain.App

open Data

variable {A R V C : Type} [DecidableEq A] [DecidableEq R]

/-- The limits that a configuration must set, and one that it cannot exceed. -/
structure Setup.Positive (setup : Setup) : Prop where
  ledgersInQueue : 0 < setup.ledgersInQueue
  minimumTxnCount : 0 < FeeMetrics.minimumTxnCount_ setup
  maximumTxnPerAccount : 0 < setup.maximumTxnPerAccount
  increasePercent : setup.normalConsensusIncreasePercent.toNat ≤ 1000

/-- What `MaybeTx::apply` depends on. -/
def MaybeTx.attempt (m : MaybeTx A R) : Core A × PreflightResult A R := (m.toCore, m.pfresult)

/-- Queued transactions applied one after the other, if each of them applies: the view after the last. -/
def applyAll (env : Transactors A R V C) : List (MaybeTx A R) → V → Option V
  | [], view => some view
  | m :: ms, view => if (m.apply env view).1.2 then applyAll env ms (m.apply env view).2.1 else none

theorem apply_congr (env : Transactors A R V C) {m m' : MaybeTx A R} (h : m'.attempt = m.attempt) (view : V) :
    m'.apply env view = m.apply env view := by
  obtain ⟨hcore, hpf⟩ := Prod.mk.inj h
  have hflags : m'.flags = m.flags := by rw [hcore]
  unfold MaybeTx.apply
  rw [hpf, hflags]

theorem applyAll_congr (env : Transactors A R V C) {l l' : List (MaybeTx A R)}
    (h : l'.map (·.attempt) = l.map (·.attempt)) (view : V) : applyAll env l' view = applyAll env l view := by
  induction l generalizing l' view with
  | nil =>
    rw [List.map_nil, List.map_eq_nil_iff] at h
    rw [h]
  | cons m ms ih =>
    cases l' with
    | nil => simp at h
    | cons m' ms' =>
      obtain ⟨hm, hms⟩ := List.cons.inj h
      unfold applyAll
      rw [apply_congr env hm, ih hms]

variable {K T : Prop} {env : Transactors A R V C} {pf : PreflightResult A R}

theorem assert_ok {c : Prop} [Decidable c] {text : String} (h : c) : env.assert c text = .ok () := by
  unfold Transactors.assert
  exact if_neg fun hc => hc.2 h

theorem assert_spec {c : Prop} [Decidable c] {text : String} (h : T → c) : Spec T (env.assert c text) fun _ => True :=
  ⟨fun _ _ => trivial, fun ht => ⟨(), assert_ok (h ht)⟩⟩

/-! ## Consequences -/

/-- The consequences of a transaction that passes `preflight`. -/
def consequencesOf (tx : STTx A) : TxConsequences :=
  ⟨if tx.affectsSubsequentTransactionAuth then .blocker else .normal, tx.fee, tx.calculateMaxSpend⟩

theorem normal_consequencesOf (tx : STTx A) :
    (consequencesOf tx).category ≠ .blocker ↔ tx.affectsSubsequentTransactionAuth = false := by
  unfold consequencesOf
  cases tx.affectsSubsequentTransactionAuth <;> simp

theorem calculateConsequences_eq (env : Transactors A R V C) (h : pf.ter = tesSUCCESS) :
    env.calculateConsequences pf = .ok (consequencesOf pf.tx) := by
  unfold Transactors.calculateConsequences
  rw [assert_ok h]
  exact if_neg (not_not.mpr h)

namespace MaybeTx

/-- Under `K`, the consequences of a queued transaction are known or can be computed, and are those of the transaction. Under
`T`, it is a blocker or pays a fee. -/
structure Known (K T : Prop) (m : MaybeTx A R) : Prop where
  tx : K → m.pfresult.tx = m.txn
  ready : K → m.pfresult.ter = tesSUCCESS ∨ m.consequences.isSome
  sound : K → ∀ c, m.consequences = some c → c = consequencesOf m.txn
  pays : T → m.txn.affectsSubsequentTransactionAuth = true ∨ 0 < m.txn.fee

namespace Known

variable {m : MaybeTx A R}

theorem spec (hTK : T → K) (hm : m.Known K T) :
    Spec T (m.getConsequences env) fun c => K → c = consequencesOf m.txn := by
  have hrun : K → m.getConsequences env = .ok (consequencesOf m.txn) := by
    intro hk
    unfold Cache.getConsequences
    cases hc : m.consequences with
    | some c => rw [hm.sound hk c hc]
    | none =>
      have hter := (hm.ready hk).resolve_right (by simp [hc])
      rw [← hm.tx hk]
      exact calculateConsequences_eq env hter
  exact ⟨fun c hc hk => Except.ok.inj (hc.symm.trans (hrun hk)), fun ht => ⟨_, hrun (hTK ht)⟩⟩

theorem computed (hm : m.Known K T) {c : TxConsequences} (hc : K → c = consequencesOf m.txn) :
    (m.modify fun cache => { cache with consequences := some c }).Known K T := by
  refine ⟨hm.tx, fun _ => .inr rfl, fun hk c' h => ?_, hm.pays⟩
  obtain rfl := Option.some.inj h
  exact hc hk

theorem tried (hm : m.Known K T) {f : Cache A R → Cache A R} (hc : (f m.toCache).consequences = m.consequences)
    (htx : (f m.toCache).pfresult.tx = m.pfresult.tx)
    (hready : K → (f m.toCache).pfresult.ter = tesSUCCESS ∨ m.consequences.isSome) : (m.modify f).Known K T :=
  ⟨fun hk => htx.trans (hm.tx hk), fun hk => (hready hk).imp_right fun h => hc ▸ h, fun hk c h => hm.sound hk c (hc ▸ h), hm.pays⟩

end Known

end MaybeTx

namespace TxQ

/-- Nothing that is queued has changed, nor has a preflight result. -/
structure Quiet (q q' : TxQ A R) : Prop where
  attempts : ∀ a, (q'.queued a).map (·.attempt) = (q.queued a).map (·.attempt)
  byFee : q'.byFee_ = q.byFee_
  feeMetrics : q'.feeMetrics_ = q.feeMetrics_
  maxSize : q'.maxSize_ = q.maxSize_

namespace Quiet

variable {q q' q'' : TxQ A R}

theorem refl (q : TxQ A R) : Quiet q q := ⟨fun _ => rfl, rfl, rfl, rfl⟩

theorem trans (h : Quiet q q') (h' : Quiet q' q'') : Quiet q q'' :=
  ⟨fun a => (h'.attempts a).trans (h.attempts a), h'.byFee.trans h.byFee, h'.feeMetrics.trans h.feeMetrics,
    h'.maxSize.trans h.maxSize⟩

theorem same (h : Quiet q q') : Same q q' := by
  refine ⟨funext fun a => ?_, h.byFee, h.feeMetrics, h.maxSize⟩
  have := congrArg (List.map Prod.fst) (h.attempts a)
  simpa [contents, List.map_map, Function.comp_def, MaybeTx.attempt] using this

theorem of_update {a : A} {l : List (MaybeTx A R)} (h : q'.queued = Function.update q.queued a l)
    (hl : l.map (·.attempt) = (q.queued a).map (·.attempt)) (hfee : q'.byFee_ = q.byFee_)
    (hmetrics : q'.feeMetrics_ = q.feeMetrics_) (hmax : q'.maxSize_ = q.maxSize_) : Quiet q q' := by
  refine ⟨fun b => ?_, hfee, hmetrics, hmax⟩
  rw [h]
  by_cases hb : b = a
  · subst hb
    rw [Function.update_self, hl]
  · rw [Function.update_of_ne hb]

end Quiet

variable {P : MaybeTx A R → Prop} {setup : Setup} {q q' : TxQ A R} {view : V}
  {tx : STTx A} {flags : ApplyFlags} {paid required : ℕ} {replaced : Bool}

/-! ## Properties of all queued transactions -/

/-- Every queued transaction satisfies `P`. -/
def Each (P : MaybeTx A R → Prop) (q : TxQ A R) : Prop := ∀ a, ∀ m ∈ q.queued a, P m

namespace Each

theorem update {a : A} {l : List (MaybeTx A R)} (hq : Each P q) (h : q'.queued = Function.update q.queued a l)
    (hl : ∀ m ∈ l, P m) : Each P q' := by
  intro b m hm
  rw [h] at hm
  by_cases hb : b = a
  · subst hb
    rw [Function.update_self] at hm
    exact hl m hm
  · rw [Function.update_of_ne hb] at hm
    exact hq b m hm

theorem unlink (hq : Each P q) (a : A) (ss : List ℕ) : Each P (q.unlink a ss) :=
  hq.update (q.queued_unlink a ss) fun m hm => hq a m (List.mem_of_mem_filter hm)

theorem modifyTx (hq : Each P q) (p : A × ℕ) {f : Cache A R → Cache A R}
    (hf : ∀ m ∈ q.queued p.1, m.sequence = p.2 → P (m.modify f)) : Each P (q.modifyTx p f) := by
  refine hq.update (q.queued_modifyTx p f) fun m' hm' => ?_
  obtain ⟨m, hm, rfl⟩ := List.mem_map.mp hm'
  split_ifs with hs
  · exact hf m hm hs
  · exact hq p.1 m hm

theorem mem_emplace {m x : MaybeTx A R} {l : List (MaybeTx A R)} (h : x ∈ emplace m l) : x = m ∨ x ∈ l := by
  induction l with
  | nil => exact .inl (List.mem_singleton.mp h)
  | cons y ys ih =>
    unfold emplace at h
    split_ifs at h
    · rcases List.mem_cons.mp h with rfl | h
      · exact .inr (by simp)
      · exact (ih h).imp_right (List.mem_cons_of_mem y)
    · exact List.mem_cons.mp h
    · exact .inr h

theorem add {m : MaybeTx A R} (hq : Each P q) (hm : P m) (h : q.add env m = .ok q') : Each P q' := by
  refine hq.update (queued_add h) fun x hx => ?_
  rcases mem_emplace hx with rfl | hx
  · exact hm
  · exact hq _ x hx

end Each

/-! ## The containers -/

theorem Consistent.sequences (hq : Consistent q) (a : A) : (q.queued a).Pairwise (·.sequence < ·.sequence) := by
  have hordered := hq.ordered a
  unfold contents at hordered
  rw [List.pairwise_map] at hordered
  exact hordered

variable {m : MaybeTx A R} {l : List (MaybeTx A R)} {p : A × ℕ} {balance : ℕ}

theorem Consistent.linked (hq : Consistent q) {a : A} (hm : m ∈ q.queued a) :
    (a, m.sequence) ∈ q.byFee_ ∧ m.txn.account = a := by
  have hcore : m.toCore ∈ q.contents a := List.mem_map_of_mem hm
  refine ⟨?_, hq.owned a _ hcore⟩
  rw [hq.ranking.mem_iff]
  unfold TxQ.items
  rw [(find_eq_some_iff (hq.ordered a)).mpr ⟨hcore, rfl⟩]
  rfl

theorem eq_of_sequence (hl : l.Pairwise (·.sequence < ·.sequence)) {m' : MaybeTx A R} (hm : m ∈ l)
    (hm' : m' ∈ l) (h : m.sequence = m'.sequence) : m = m' := by
  by_contra hne
  have hsymm : Std.Symm fun m m' : MaybeTx A R => m.sequence ≠ m'.sequence := ⟨fun _ _ hn => hn.symm⟩
  exact (hl.imp (S := fun m m' => m.sequence ≠ m'.sequence) ne_of_lt).forall hm hm' hne h

theorem le_getLast (hl : l.Pairwise (·.sequence < ·.sequence)) {last : MaybeTx A R}
    (hlast : l.getLast? = some last) (hm : m ∈ l) : m.sequence ≤ last.sequence := by
  obtain ⟨before, rfl⟩ := List.getLast?_eq_some_iff.mp hlast
  rcases List.mem_append.mp hm with hm | hm
  · exact ((List.pairwise_append.mp hl).2.2 m hm last (by simp)).le
  · rw [List.mem_singleton.mp hm]

theorem byAccount_of_items (h : (q.items p).isSome) : ∃ acc m, q.byAccount_ p.1 = some acc ∧ acc.find p.2 = some m := by
  rw [items_eq, Option.isSome_map] at h
  obtain ⟨m, hm⟩ := Option.isSome_iff_exists.mp h
  obtain ⟨acc, hacc, hfind⟩ := Option.bind_eq_some_iff.mp hm
  exact ⟨acc, m, hacc, hfind⟩

theorem of_find {acc : TxQAccount A R} {a : A} {s : ℕ} (hacc : q.byAccount_ a = some acc)
    (hfind : acc.find s = some m) : m ∈ q.queued a ∧ m.sequence = s := by
  rw [queued_of hacc]
  exact ⟨List.mem_of_find?_eq_some hfind, by simpa using List.find?_some hfind⟩

theorem Consistent.stored (hq : Consistent q) (hp : p ∈ q.byFee_) :
    ∃ acc m, q.byAccount_ p.1 = some acc ∧ acc.find p.2 = some m ∧ m ∈ q.queued p.1 ∧ m.sequence = p.2 := by
  obtain ⟨acc, m, hacc, hfind⟩ := byAccount_of_items ((hq.ranking.mem_iff p).mp hp)
  exact ⟨acc, m, hacc, hfind, of_find hacc hfind⟩

theorem Consistent.erase_ok (hq : Consistent q) (hp : p ∈ q.byFee_) : q.erase env p = .ok (q.unlink p.1 [p.2]) := by
  obtain ⟨acc, m, hacc, hfind, -, -⟩ := hq.stored hp
  unfold TxQ.erase
  rw [hacc]
  dsimp only
  rw [assert_ok (by simp [hfind])]
  rfl

theorem Consistent.erase_spec (hq : Consistent q) (hp : p ∈ q.byFee_) :
    Spec T (q.erase env p) fun q' => q' = q.unlink p.1 [p.2] := by
  rw [hq.erase_ok hp]
  exact .ok rfl

theorem add_spec (hfresh : q.items (m.txn.account, m.sequence) = none) :
    Spec T (q.add env m) fun q' => q.add env m = .ok q' := by
  have habsent : (((q.byAccount_ m.txn.account).getD ⟨[], false, false⟩).find m.sequence).isNone := by
    rw [items_eq, Option.map_eq_none_iff] at hfresh
    unfold deref at hfresh
    cases hacc : q.byAccount_ m.txn.account with
    | none => rfl
    | some acc =>
      rw [hacc] at hfresh
      exact Option.isNone_iff_eq_none.mpr hfresh
  refine ⟨fun _ h => h, fun ht => ?_⟩
  unfold add
  exact ((assert_spec fun _ => habsent).bind (T := T) (B := fun _ => True) fun _ _ => .ok trivial).total ht

/-! ## A transaction with the same sequence -/

theorem checkBlocker_spec (hTK : T → K) (hq : Consistent q) (hE : Each (·.Known K T) q) (hpf : pf.ter = tesSUCCESS)
    {existing : MaybeTx A R} (hmem : existing ∈ q.queued p.1) (hseq : existing.sequence = p.2) :
    Spec T (q.checkBlocker env p existing pf) fun r => Quiet q r.2 ∧ Each (·.Known K T) r.2 ∧
      r.1.elim (· ≠ terQUEUED) fun own => (∀ c, own = some c → c = consequencesOf pf.tx) ∧
        (K → existing.txn.affectsSubsequentTransactionAuth = false → pf.tx.affectsSubsequentTransactionAuth = false) := by
  refine ((hE p.1 existing hmem).spec hTK).bind fun found hfound => ?_
  have hquiet : Quiet q (q.modifyTx p fun c => { c with consequences := some found }) := by
    refine .of_update (q.queued_modifyTx p _) ?_ rfl rfl rfl
    rw [List.map_map]
    refine List.map_congr_left fun m _ => ?_
    show (if m.sequence = p.2 then m.modify _ else m).attempt = m.attempt
    split_ifs <;> rfl
  have heach : Each (·.Known K T) (q.modifyTx p fun c => { c with consequences := some found }) := by
    refine hE.modifyTx p fun m hm hs => ?_
    obtain rfl := eq_of_sequence (hq.sequences p.1) hm hmem (hs.trans hseq.symm)
    exact (hE p.1 m hm).computed hfound
  dsimp only
  split_ifs with hnormal
  · rw [calculateConsequences_eq env hpf, ok_bind]
    split_ifs with hblocker
    · exact .ok ⟨hquiet, heach, (show telCAN_NOT_QUEUE_BLOCKS ≠ terQUEUED by decide)⟩
    · exact .ok ⟨hquiet, heach, fun c hc => (Option.some.inj hc).symm, fun _ _ => (normal_consequencesOf _).mp hblocker⟩
  · refine .ok ⟨hquiet, heach, by simp, fun hk haffects => absurd ?_ hnormal⟩
    rw [hfound hk, consequencesOf, haffects]
    rfl

/-- What is known of the queued transaction of the same sequence: whether there is one, and if it is not the account's last,
that it is no normal one replaced by a blocker. -/
structure Replaced (K : Prop) (q : TxQ A R) (tx : STTx A) (existing : Bool × Option TxConsequences) : Prop where
  iff : existing.1 = true ↔ (q.items (tx.account, tx.sequence)).isSome
  own : ∀ c, existing.2 = some c → c = consequencesOf tx
  middle : K → ∀ c ∈ q.contents tx.account, c.sequence = tx.sequence → c.txn.affectsSubsequentTransactionAuth = false →
    (∃ c' ∈ q.contents tx.account, tx.sequence < c'.sequence) → tx.affectsSubsequentTransactionAuth = false

theorem replacement_spec (hTK : T → K) (hq : Consistent q) (hE : Each (·.Known K T) q) (hpf : pf.ter = tesSUCCESS)
    (htx : pf.tx = tx) :
    Spec T (q.replacement env setup tx pf paid required) fun r => Quiet q r.2 ∧ Each (·.Known K T) r.2 ∧
      r.1.elim (· ≠ terQUEUED) (Replaced K q tx) := by
  have hitems := q.items_eq (tx.account, tx.sequence)
  have habsent : q.deref (tx.account, tx.sequence) = none → Replaced K q tx (false, none) := by
    intro hnone
    refine ⟨by simp [hitems, hnone], by simp, fun _ c hc hs => ?_⟩
    rw [hnone] at hitems
    exact absurd hs (fresh_of_items hitems c hc)
  unfold replacement
  unfold deref at hitems habsent
  cases hacc : q.byAccount_ tx.account with
  | none =>
    rw [hacc] at habsent
    exact .ok ⟨.refl q, hE, habsent rfl⟩
  | some acc =>
    rw [hacc, Option.bind_some] at hitems habsent
    dsimp only
    cases hfind : acc.find tx.sequence with
    | none => exact .ok ⟨.refl q, hE, habsent hfind⟩
    | some existing =>
      obtain ⟨hmem, hseq⟩ := of_find hacc hfind
      obtain ⟨hlinked, howned⟩ := hq.linked hmem
      rw [hfind] at hitems
      -- the assertions about the iterator, on any queue with the same `byFee_`
      have hassert : ∀ q' : TxQ A R, q'.byFee_ = q.byFee_ →
          Spec T (q'.linked env (tx.account, tx.sequence) existing) fun _ => True := fun q' hfee =>
        (assert_spec fun _ => by rw [hfee, ← hseq]; exact hlinked).bind fun _ _ => assert_spec fun _ => howned
      dsimp only
      split_ifs with hmay hlast
      · exact .ok ⟨.refl q, hE, (show telCAN_NOT_QUEUE_FEE ≠ terQUEUED by decide)⟩
      · refine (hassert q rfl).bind fun _ _ => .ok ⟨.refl q, hE, by simp [hitems], by simp, fun _ c _ _ _ ⟨c', hc', hlt⟩ => ?_⟩
        obtain ⟨last, hlast, hs⟩ := Option.map_eq_some_iff.mp hlast
        rw [← queued_of hacc] at hlast
        obtain ⟨m', hm', rfl⟩ := List.mem_map.mp hc'
        have := le_getLast (hq.sequences tx.account) hlast hm'
        omega
      · refine (checkBlocker_spec hTK hq hE hpf hmem hseq).bind fun r ⟨hquiet, heach, hown⟩ => ?_
        obtain ⟨result, q'⟩ := r
        cases result with
        | inl ter => exact .ok ⟨hquiet, heach, hown⟩
        | inr consequences =>
          obtain ⟨hc, hnormal⟩ := hown
          rw [htx] at hc hnormal
          refine (hassert q' hquiet.byFee).bind fun _ _ => .ok
            ⟨hquiet, heach, by simp [hitems], hc, fun hk c hcore hs haffects _ => hnormal hk ?_⟩
          obtain ⟨m, hm, rfl⟩ := List.mem_map.mp hcore
          rwa [eq_of_sequence (hq.sequences tx.account) hmem hm (hseq.trans hs.symm)]

/-! ## The limits -/

/-- The limits are positive. -/
structure Positive (q : TxQ A R) : Prop where
  txnsExpected : 0 < q.feeMetrics_.txnsExpected_
  maxSize : ∀ n, q.maxSize_ = some n → 0 < n

theorem Positive.same (h : Same q q') (hq : Positive q) : Positive q' := by
  refine ⟨?_, ?_⟩
  · rw [h.feeMetrics]
    exact hq.txnsExpected
  · rw [h.maxSize]
    exact hq.maxSize

theorem scaleFeeLevel_spec (hpos : T → Positive q) (current : ℕ) :
    Spec T (q.feeMetrics_.scaleFeeLevel current) fun n => baseLevel < n → q.feeMetrics_.txnsExpected_ < current := by
  unfold FeeMetrics.scaleFeeLevel
  split_ifs with hlt hzero
  · refine .error fun ht => ?_
    have := (hpos ht).txnsExpected
    omega
  · exact .ok fun _ => hlt
  · exact .ok fun h => absurd h (lt_irrefl _)

theorem requiredFeeLevel_spec (hpos : T → Positive q) (view : V) (flags : ApplyFlags) :
    Spec T (q.requiredFeeLevel env view flags) fun n =>
      flags &&& tapPREFER_QUEUE = 0 → baseLevel < n → q.feeMetrics_.txnsExpected_ < env.txCount view := by
  refine (scaleFeeLevel_spec hpos (env.txCount view)).bind fun n hn => ?_
  cases q.byFee_ with
  | nil => exact .ok fun _ => hn
  | cons p ps =>
    refine .ok fun hflags => ?_
    rw [if_neg (not_not.mpr hflags)]
    exact hn

theorem canBeHeld_spec (hsetup : T → setup.Positive) : Spec T (q.canBeHeld env setup tx view replaced) fun _ => True := by
  unfold canBeHeld
  dsimp only
  split_ifs
  · exact .ok trivial
  split
  · exact .ok trivial
  next acc hacc =>
    split_ifs with hcount
    · exact .ok trivial
    split
    next hlast =>
      rw [List.getLast?_eq_none_iff] at hlast
      rw [hlast] at hcount
      exact .error fun ht => hcount (.inr (hsetup ht).maximumTxnPerAccount)
    · exact .ok trivial

/-! ## The account's transactions before this one -/

/-- What the loop has found when it has seen all sequences from `workingSeq` up to this one. -/
structure Seen (K : Prop) (tx : STTx A) (ms : List (MaybeTx A R)) (workingSeq : ℕ) (multi multi' : MultiTxn) : Prop where
  present : ∀ s, workingSeq ≤ s → s < tx.sequence → ∃ m ∈ ms, m.sequence = s
  normal : K → ∀ m ∈ ms, m.sequence < tx.sequence → m.txn.affectsSubsequentTransactionAuth = false
  fee : K → multi'.fee = multi.fee + ((ms.filter (·.sequence ≠ tx.sequence)).map fun m => m.txn.fee).sum
  current : (∃ m ∈ ms, m.sequence = tx.sequence) → (multi'.includeCurrentFee = true ↔ ∃ m ∈ ms, tx.sequence < m.sequence)
  absent : (∀ m ∈ ms, m.sequence ≠ tx.sequence) → multi'.includeCurrentFee = multi.includeCurrentFee

namespace Seen

variable {m : MaybeTx A R} {ms : List (MaybeTx A R)} {workingSeq : ℕ} {multi multi' : MultiTxn}

/-- The transaction that is replaced is not counted. -/
theorem skipped (hm : m.sequence = tx.sequence) (hms : ∀ m' ∈ ms, m.sequence < m'.sequence)
    (hworking : workingSeq < tx.sequence → m.sequence = workingSeq)
    (h : Seen K tx ms (workingSeq + 1) { multi with includeCurrentFee := !ms.isEmpty } multi') :
    Seen K tx (m :: ms) workingSeq multi multi' := by
  refine ⟨fun s hs hlt => ?_, fun hk x hx hlt => ?_, fun hk => ?_, fun _ => ?_, fun hne => ?_⟩
  · have := hworking (by omega)
    omega
  · rcases List.mem_cons.mp hx with rfl | hx
    · omega
    · exact h.normal hk x hx hlt
  · rw [List.filter_cons_of_neg (by simpa using hm)]
    exact h.fee hk
  · rw [h.absent fun x hx => (hm ▸ hms x hx).ne']
    cases ms with
    | nil => simp [hm]
    | cons y ys =>
      have := hms y (by simp)
      simp only [List.isEmpty_cons, Bool.not_false, true_iff]
      exact ⟨y, by simp, by omega⟩
  · exact absurd hm (hne m (by simp))

theorem counted {found : TxConsequences} (hm : m.sequence ≠ tx.sequence) (hms : ∀ m' ∈ ms, m.sequence < m'.sequence)
    (hworking : workingSeq < tx.sequence → m.sequence = workingSeq) (hfound : K → found = consequencesOf m.txn)
    (hnormal : ¬ (m.sequence < tx.sequence ∧ found.category = .blocker))
    (h : Seen K tx ms (workingSeq + 1)
      { multi with fee := multi.fee + found.fee, potentialSpend := multi.potentialSpend + found.potentialSpend } multi') :
    Seen K tx (m :: ms) workingSeq multi multi' := by
  refine ⟨fun s hs hlt => ?_, fun hk x hx hlt => ?_, fun hk => ?_, fun ⟨x, hx, he⟩ => ?_, fun hne => ?_⟩
  · rcases hs.eq_or_lt with rfl | hs
    · exact ⟨m, by simp, hworking hlt⟩
    · obtain ⟨x, hx, hs⟩ := h.present s hs hlt
      exact ⟨x, by simp [hx], hs⟩
  · rcases List.mem_cons.mp hx with rfl | hx
    · refine (normal_consequencesOf x.txn).mp fun hc => hnormal ⟨hlt, ?_⟩
      rw [hfound hk]
      exact hc
    · exact h.normal hk x hx hlt
  · rw [List.filter_cons_of_pos (by simpa using hm), List.map_cons, List.sum_cons, h.fee hk, hfound hk, ← add_assoc]
    rfl
  · rcases List.mem_cons.mp hx with rfl | hx
    · exact absurd he hm
    · have := hms x hx
      rw [h.current ⟨x, hx, he⟩, List.exists_mem_cons_iff, or_iff_right (by omega)]
  · exact h.absent fun x hx => hne x (by simp [hx])

end Seen

theorem elim_mono {α β : Type} {x : α ⊕ β} {F : α → Prop} {G G' : β → Prop} (h : x.elim F G) (hG : ∀ b, G b → G' b) :
    x.elim F G' := by
  cases x with
  | inl a => exact h
  | inr b => exact hG b h

theorem scan_spec (hTK : T → K) {ms : List (MaybeTx A R)} (hE : ∀ m ∈ ms, m.Known K T)
    (hordered : ms.Pairwise (·.sequence < ·.sequence))
    (hreplaced : ∀ m ∈ ms, m.sequence = tx.sequence → replaced = true) (workingSeq : ℕ) (multi : MultiTxn) :
    Spec T (scan env setup tx paid replaced ms workingSeq multi) fun r =>
      r.2.map (·.attempt) = ms.map (·.attempt) ∧ (∀ m ∈ r.2, m.Known K T) ∧
        r.1.elim (· ≠ terQUEUED) fun found => ∀ multi', found = some multi' → Seen K tx ms workingSeq multi multi' ∧
          ∀ m ∈ r.2, m.sequence ≠ tx.sequence → m.consequences.isSome := by
  induction ms generalizing workingSeq multi with
  | nil =>
    refine .ok ⟨rfl, by simp, fun multi' h => ?_⟩
    split_ifs at h with hworking
    · cases h
      exact ⟨⟨fun s hs hlt => by omega, by simp, by simp, by simp, fun _ => rfl⟩, by simp⟩
  | cons m ms ih =>
    obtain ⟨hm, hms⟩ := List.forall_mem_cons.mp hE
    obtain ⟨hlater, hordered⟩ := List.pairwise_cons.mp hordered
    obtain ⟨hrep, hreps⟩ := List.forall_mem_cons.mp hreplaced
    unfold scan
    split_ifs with hmissing hlow hsame
    · exact .ok ⟨rfl, hE, by simp⟩
    · exact .ok ⟨rfl, hE, (show telINSUF_FEE_P ≠ terQUEUED by decide)⟩
    · refine (assert_spec fun _ => hrep hsame).bind fun _ _ => ?_
      refine (ih hms hordered hreps _ _).bind fun r ⟨hattempts, hr, hseen⟩ => ?_
      refine .ok ⟨congrArg (m.attempt :: ·) hattempts, List.forall_mem_cons.mpr ⟨hm, hr⟩, ?_⟩
      refine elim_mono hseen fun found hfound multi' h => ?_
      obtain ⟨hseen, hknown⟩ := hfound multi' h
      exact ⟨hseen.skipped hsame hlater fun hlt => not_not.mp fun hne => hmissing ⟨hlt, hne⟩,
        List.forall_mem_cons.mpr ⟨fun hne => absurd hsame hne, hknown⟩⟩
    · refine (hm.spec hTK).bind fun found hfound => ?_
      have hm' := hm.computed hfound
      dsimp only
      split_ifs with hblocked
      · exact .ok ⟨rfl, List.forall_mem_cons.mpr ⟨hm', hms⟩, (show telCAN_NOT_QUEUE_BLOCKED ≠ terQUEUED by decide)⟩
      · refine (ih hms hordered hreps _ _).bind fun r ⟨hattempts, hr, hseen⟩ => ?_
        refine .ok ⟨congrArg (m.attempt :: ·) hattempts, List.forall_mem_cons.mpr ⟨hm', hr⟩, ?_⟩
        refine elim_mono hseen fun found hmulti multi' h => ?_
        obtain ⟨hseen, hknown⟩ := hmulti multi' h
        exact ⟨hseen.counted hsame hlater (fun hlt => not_not.mp fun hne => hmissing ⟨hlt, hne⟩) hfound hblocked,
          List.forall_mem_cons.mpr ⟨fun _ => rfl, hknown⟩⟩

/-- The fees of an account's queued transactions from a sequence on, without the one that is replaced. The new one counts if
it replaces one that is not the last. -/
def feesInFlight (queued : List (Core A)) (tx : STTx A) (aSeq : ℕ) : ℕ :=
  ((queued.filter fun c => aSeq ≤ c.sequence ∧ c.sequence ≠ tx.sequence).map fun c => c.txn.fee).sum +
    if (∃ c ∈ queued, c.sequence = tx.sequence) ∧ ∃ c ∈ queued, tx.sequence < c.sequence then tx.fee else 0

/-- The account's sequences from `aSeq` up to this one are queued, none of them by a blocker, and the fees in flight are below
the balance and the reserve. -/
structure Covered (K : Prop) (queued : List (Core A)) (tx : STTx A) (aSeq balance reserve : ℕ) : Prop where
  present : ∀ s, aSeq ≤ s → s < tx.sequence → ∃ c ∈ queued, c.sequence = s
  normal : K → ∀ c ∈ queued, aSeq ≤ c.sequence → c.sequence < tx.sequence → c.txn.affectsSubsequentTransactionAuth = false
  balance : K → feesInFlight queued tx aSeq < balance
  reserve : K → feesInFlight queued tx aSeq < reserve

theorem dropWhile_eq_filter (hl : l.Pairwise (·.sequence < ·.sequence)) (s : ℕ) :
    l.dropWhile (·.sequence < s) = l.filter (s ≤ ·.sequence) := by
  induction l with
  | nil => rfl
  | cons x xs ih =>
    obtain ⟨hx, hxs⟩ := List.pairwise_cons.mp hl
    by_cases hlt : x.sequence < s
    · rw [List.dropWhile_cons_of_pos (by simpa using hlt), List.filter_cons_of_neg (by simpa using hlt), ih hxs]
    · rw [List.dropWhile_cons_of_neg (by simpa using hlt), eq_comm, List.filter_eq_self]
      intro m hm
      rcases List.mem_cons.mp hm with rfl | hm
      · simpa using hlt
      · have := hx m hm
        simp only [decide_eq_true_eq]
        omega

theorem Seen.covered {aSeq reserve : ℕ} {multi : MultiTxn} (hlt : aSeq < tx.sequence)
    (h : Seen K tx (l.filter (aSeq ≤ ·.sequence)) aSeq ⟨0, 0, false⟩ multi)
    (hfee : (if multi.includeCurrentFee then multi.fee + tx.fee else multi.fee) < balance ∧
      (if multi.includeCurrentFee then multi.fee + tx.fee else multi.fee) < reserve) :
    Covered K (l.map (·.toCore)) tx aSeq balance reserve := by
  have hfees : K → feesInFlight (l.map (·.toCore)) tx aSeq =
      if multi.includeCurrentFee then multi.fee + tx.fee else multi.fee := by
    intro hk
    have hcurrent : multi.includeCurrentFee = true ↔ (∃ c ∈ l.map (·.toCore), c.sequence = tx.sequence) ∧
        ∃ c ∈ l.map (·.toCore), tx.sequence < c.sequence := by
      have hmem : ∀ m : MaybeTx A R, tx.sequence ≤ m.sequence → (m ∈ l.filter (aSeq ≤ ·.sequence) ↔ m ∈ l) := by
        intro m hm
        rw [List.mem_filter, and_iff_left_iff_imp]
        intro _
        simp only [decide_eq_true_eq]
        omega
      simp only [List.mem_map, exists_exists_and_eq_and]
      by_cases hreplaced : ∃ m ∈ l, m.sequence = tx.sequence
      · obtain ⟨m, hm, hs⟩ := hreplaced
        rw [h.current ⟨m, (hmem m hs.ge).mpr hm, hs⟩]
        constructor
        · rintro ⟨m', hm', hs'⟩
          exact ⟨⟨m, hm, hs⟩, m', (hmem m' hs'.le).mp hm', hs'⟩
        · rintro ⟨-, m', hm', hs'⟩
          exact ⟨m', (hmem m' hs'.le).mpr hm', hs'⟩
      · rw [h.absent fun m hm hs => hreplaced ⟨m, (hmem m hs.ge).mp hm, hs⟩]
        simp only [Bool.false_eq_true, false_iff]
        exact fun hboth => hreplaced hboth.1
    have hsum : multi.fee = (((l.map (·.toCore)).filter fun c => aSeq ≤ c.sequence ∧ c.sequence ≠ tx.sequence).map
        fun c => c.txn.fee).sum := by
      rw [h.fee hk, zero_add, List.filter_filter, List.filter_map, List.map_map]
      congr 2
      refine List.filter_congr fun m _ => ?_
      simp [and_comm]
    unfold feesInFlight
    rw [← hsum]
    by_cases hc : multi.includeCurrentFee = true
    · rw [if_pos (hcurrent.mp hc), if_pos hc]
    · rw [if_neg fun hb => hc (hcurrent.mpr hb), if_neg hc, add_zero]
  refine ⟨fun s hs hst => ?_, fun hk c hc hle hst => ?_, fun hk => (hfees hk).trans_lt hfee.1,
    fun hk => (hfees hk).trans_lt hfee.2⟩
  · obtain ⟨m, hm, rfl⟩ := h.present s hs hst
    exact ⟨m.toCore, List.mem_map_of_mem (List.mem_of_mem_filter hm), rfl⟩
  · obtain ⟨m, hm, rfl⟩ := List.mem_map.mp hc
    exact h.normal hk m (List.mem_filter.mpr ⟨hm, by simpa using hle⟩) hst

theorem inFlight_spec {multi : MultiTxn} (hfee : T → 0 < multi.fee) :
    Spec T (inFlight env view tx balance multi) fun checked => checked.elim (· ≠ terQUEUED) fun testView =>
      (∃ b, testView = env.withAccount view tx.account tx.sequence b) ∧
      (if multi.includeCurrentFee then multi.fee + tx.fee else multi.fee) < balance ∧
      (if multi.includeCurrentFee then multi.fee + tx.fee else multi.fee) < env.reserve view := by
  unfold inFlight
  dsimp only
  generalize (if multi.includeCurrentFee = true then multi.fee + tx.fee else multi.fee) = totalFee
  split_ifs with hlow
  · exact .ok (show telCAN_NOT_QUEUE_BALANCE ≠ terQUEUED by decide)
  · refine (assert_spec fun ht => ?_).bind fun _ _ => .ok
      ⟨⟨_, rfl⟩, not_le.mp fun h => hlow (.inl h), not_le.mp fun h => hlow (.inr h)⟩
    have := hfee ht
    omega

/-- What is known when the account's sequences before this one are queued. -/
structure Scanned (K : Prop) (env : Transactors A R V C) (view : V) (tx : STTx A) (q : TxQ A R) (multi : ℕ × V) : Prop where
  testView : ∃ balance, multi.2 = env.withAccount view tx.account tx.sequence balance
  known : ∀ m ∈ q.queued tx.account, multi.1 ≤ m.sequence → m.sequence ≠ tx.sequence → m.consequences.isSome
  first : ∃ acc, q.byAccount_ tx.account = some acc ∧ (acc.find multi.1).isSome
  lt : multi.1 < tx.sequence
  covered : ∃ balance, env.accountRoot view tx.account = some (multi.1, balance) ∧
    Covered K (q.contents tx.account) tx multi.1 balance (env.reserve view)

theorem scanFrom_spec (hTK : T → K) (hq : Consistent q) (hE : Each (·.Known K T) q) {acc : TxQAccount A R} {aSeq : ℕ}
    (hacc : q.byAccount_ tx.account = some acc) (hreplaced : replaced = true ↔ (q.items (tx.account, tx.sequence)).isSome)
    (hroot : env.accountRoot view tx.account = some (aSeq, balance)) (hfind : (acc.find aSeq).isSome) (hlt : aSeq < tx.sequence) :
    Spec T (q.scanFrom env setup acc view tx paid replaced aSeq balance) fun r => Quiet q r.2 ∧ Each (·.Known K T) r.2 ∧
      r.1.elim (· ≠ terQUEUED) fun found => ∀ multi, found = some multi → Scanned K env view tx r.2 multi := by
  have hqueued := queued_of hacc
  obtain ⟨m₀, hm₀⟩ := Option.isSome_iff_exists.mp hfind
  obtain ⟨hm₀, hseq⟩ := of_find hacc hm₀
  have hordered := hq.sequences tx.account
  have hknown := hE tx.account
  rw [hqueued] at hordered hknown hm₀
  have hdrop := dropWhile_eq_filter hordered aSeq
  have hsub : ∀ m ∈ acc.transactions.dropWhile (·.sequence < aSeq), m ∈ acc.transactions := fun m hm =>
    (List.dropWhile_sublist _).mem hm
  refine (scan_spec hTK (fun m hm => hknown m (hsub m hm)) (hordered.sublist (List.dropWhile_sublist _)) ?_ aSeq
    ⟨0, 0, false⟩).bind fun scanned ⟨hattempts, hscanned, hmulti⟩ => ?_
  · intro m hm hs
    rw [hreplaced, ← hq.ranking.mem_iff, ← hs]
    refine (hq.linked ?_).1
    rw [hqueued]
    exact hsub m hm
  have hupdate := queued_setTransactions (acc.transactions.takeWhile (·.sequence < aSeq) ++ scanned.2) hacc
  have hquiet : Quiet q
      (q.setTransactions tx.account (acc.transactions.takeWhile (·.sequence < aSeq) ++ scanned.2)) := by
    refine .of_update hupdate ?_ rfl rfl rfl
    rw [List.map_append, hattempts, ← List.map_append, List.takeWhile_append_dropWhile, hqueued]
  have heach : Each (·.Known K T)
      (q.setTransactions tx.account (acc.transactions.takeWhile (·.sequence < aSeq) ++ scanned.2)) := by
    refine hE.update hupdate fun m hm => ?_
    rcases List.mem_append.mp hm with hm | hm
    · exact hknown m ((List.takeWhile_sublist _).mem hm)
    · exact hscanned m hm
  obtain ⟨result, scanned⟩ := scanned
  cases result with
  | inl ter => exact .ok ⟨hquiet, heach, hmulti⟩
  | inr found =>
    cases found with
    | none => exact .ok ⟨hquiet, heach, by simp⟩
    | some multi =>
      obtain ⟨hseen, hcached⟩ := hmulti multi rfl
      rw [hdrop] at hseen
      have hfirst : m₀ ∈ acc.transactions.filter (aSeq ≤ ·.sequence) := List.mem_filter.mpr ⟨hm₀, by simpa using hseq.ge⟩
      -- the first transaction is no blocker, and so pays a fee
      have hfee : T → 0 < multi.fee := by
        intro ht
        have hnormal := hseen.normal (hTK ht) m₀ hfirst (by omega)
        have hpays := ((hknown m₀ hm₀).pays ht).resolve_left (by simp [hnormal])
        rw [hseen.fee (hTK ht), zero_add]
        refine hpays.trans_le (List.single_le_sum (by simp) _ (List.mem_map_of_mem (List.mem_filter.mpr ⟨hfirst, ?_⟩)))
        simp only [decide_eq_true_eq, ne_eq]
        omega
      refine (inFlight_spec hfee).bind fun checked hchecked => ?_
      cases checked with
      | inl ter => exact .ok ⟨hquiet, heach, hchecked⟩
      | inr testView =>
        refine .ok ⟨hquiet, heach, fun multi' h => ?_⟩
        cases h
        obtain ⟨htest, hfees⟩ := hchecked
        refine ⟨htest, fun m hm hle hne => ?_, ?_, hlt, balance, hroot, ?_⟩
        · rw [hupdate, Function.update_self] at hm
          rcases List.mem_append.mp hm with hm | hm
          · have := List.mem_takeWhile_imp hm
            simp only [decide_eq_true_eq] at this
            omega
          · exact hcached m hm hne
        · obtain ⟨acc', m', hacc', hfind'⟩ := byAccount_of_items (p := (tx.account, aSeq))
            (hquiet.same.items ▸ (hq.ranking.mem_iff _).mp (hseq ▸ (hq.linked (hqueued ▸ hm₀)).1))
          exact ⟨acc', hacc', by simp [hfind']⟩
        · show Covered K ((q.setTransactions tx.account _).contents tx.account) tx aSeq balance _
          rw [hquiet.same.contents]
          unfold contents
          rw [hqueued]
          exact hseen.covered hlt hfees

theorem multiTxn_spec (hTK : T → K) (hsetup : T → setup.Positive) (hq : Consistent q) (hE : Each (·.Known K T) q)
    (hreplaced : replaced = true ↔ (q.items (tx.account, tx.sequence)).isSome) :
    Spec T (q.multiTxn env setup view tx paid replaced) fun r => Quiet q r.2 ∧ Each (·.Known K T) r.2 ∧
      r.1.elim (· ≠ terQUEUED) fun found => ∀ multi, found = some multi → Scanned K env view tx r.2 multi := by
  unfold multiTxn
  split
  next acc root hacc hroot =>
    split_ifs with hlt
    · refine (canBeHeld_spec hsetup).bind fun held _ => ?_
      split_ifs with hfound
      · exact scanFrom_spec hTK hq hE hacc hreplaced hroot hfound.2 hlt
      · exact .ok ⟨.refl q, hE, by simp⟩
    · exact .ok ⟨.refl q, hE, by simp⟩
  next => exact .ok ⟨.refl q, hE, by simp⟩

end TxQ

end ScfChain.App
