import Mathlib
import ScfChain.App.TxQ.AllOrNothing

/-!
# What `TxQ::accept` attempts

The loop ends. It tries a transaction only as its account's first, and if it pays the level that the view requires, so that
the transactions of an account enter the ledger in the order of their sequences. When it returns, the first transaction of every
account has been tried, or pays too little, or is one that the iterator does not go back to: it does not directly follow the one
removed before it, or has the same fee level.

`Fair` is what every turn keeps: the first transaction of an account has been tried, or is at the iterator or behind it, or is
one that the iterator does not go back to.
-/

set_option linter.unusedSectionVars false

namespace ScfChain.App

open Data

variable {A R V C : Type} [DecidableEq A] [DecidableEq R]

namespace TxQ

variable {env : Transactors A R V C} {q q' q₁ : TxQ A R} {p : A × ℕ} {s s' : Loop A R V} {log entries : List (Attempt A R V)}

/-- `TxQ::accept`, with a record of the transactions that are tried. -/
def acceptLogged (env : Transactors A R V C) (q : TxQ A R) (view : V) :
    Except String (List (Attempt A R V) × Bool × TxQ A R × V) := do
  let r ← acceptLoopLogged env (q.byFee_.length * q.byFee_.length + q.byFee_.length + 1) ⟨q.byFee_.head?, q, view, false⟩ []
  return (r.1, r.2.ledgerChanged, r.2.queue, r.2.view)

theorem acceptLogged_snd (env : Transactors A R V C) (q : TxQ A R) (view : V) :
    (acceptLogged env q view).map Prod.snd = q.accept env view := by
  unfold acceptLogged accept
  rw [← acceptLoopLogged_snd env _ _ []]
  cases acceptLoopLogged env (q.byFee_.length * q.byFee_.length + q.byFee_.length + 1) ⟨q.byFee_.head?, q, view, false⟩ [] with
  | error e => rfl
  | ok r => rfl

/-- The transaction is applied to the open ledger. -/
def Attempt.applied (env : Transactors A R V C) (e : Attempt A R V) : Bool := (e.tx.apply env e.view).1.2

/-- The last transaction of the account that has left the queue. -/
def lastRemoved (log : List (Attempt A R V)) (a : A) : Option (Attempt A R V) :=
  (log.filter fun e => e.left ∧ e.tx.txn.account = a).getLast?

/-- The iterator does not go back to the transaction: it does not directly follow the one removed before it, or has the same fee
level. -/
def PassedOver (log : List (Attempt A R V)) (a : A) (c : Core A) : Prop :=
  ∃ e, lastRemoved log a = some e ∧ (e.tx.sequence + 1 ≠ c.sequence ∨ e.tx.feeLevel = c.feeLevel)

/-- The transaction is at the iterator or behind it; if the loop has ended, it pays less than the view requires. -/
def Ahead (env : Transactors A R V C) (s : Loop A R V) (k : A × ℕ) (level : ℕ) : Prop :=
  match s.candidate with
  | some p => k ∈ onward s.queue.byFee_ p
  | none => ∃ n, s.queue.feeMetrics_.scaleFeeLevel (env.txCount s.view) = .ok n ∧ level < n

/-- What every turn keeps for the first transaction of an account. -/
def Fair (env : Transactors A R V C) (log : List (Attempt A R V)) (s : Loop A R V) : Prop :=
  ∀ a c, (s.queue.contents a).head? = some c →
    (∃ e ∈ log, e.tx.toCore = c) ∨ Ahead env s (a, c.sequence) c.feeLevel ∨ PassedOver log a c

/-! ## The first transactions -/

variable {m : MaybeTx A R} {a : A} {c : Core A} {n : ℕ} {view : V} {changed : Bool} {metrics : FeeMetrics}

theorem head_contents (h : (q.queued p.1).head? = some m) : (q.contents p.1).head? = some m.toCore := by
  unfold contents
  rw [List.head?_map, h]
  rfl

theorem linked_head (hq : Consistent q) (h : (q.contents a).head? = some c) :
    (a, c.sequence) ∈ q.byFee_ ∧ q.feeLevel (a, c.sequence) = c.feeLevel := by
  have hitems : q.items (a, c.sequence) = some c := (find_eq_some_iff (hq.ordered a)).mpr ⟨List.mem_of_head? h, rfl⟩
  refine ⟨(hq.ranking.mem_iff _).mpr (by simp [hitems]), ?_⟩
  rw [feeLevel_eq]
  unfold levelOf
  rw [hitems]
  rfl

theorem head_filter_ne {l : List (Core A)} (h : l.head? = some c) (hn : c.sequence ≠ n) :
    (l.filter (·.sequence ∉ [n])).head? = some c := by
  cases l with
  | nil => cases h
  | cons x xs =>
    obtain rfl := Option.some.inj h
    rw [List.filter_cons_of_pos (by simpa using hn)]
    rfl

theorem contents_other {b : A} (q : TxQ A R) (ss : List ℕ) (h : b ≠ a) : (q.unlink a ss).contents b = q.contents b := by
  rw [contents_unlink, Function.update_of_ne h]

theorem byFee_unlink_single (hq : Consistent q) : (q.unlink p.1 [p.2]).byFee_ = q.byFee_.filter (· ≠ p) := by
  show q.byFee_.diff [p] = _
  rw [hq.ranking.nodup.sdiff_eq_filter]
  exact List.filter_congr fun k _ => by simp

theorem lastRemoved_append {e : Attempt A R V} (h : ¬ (e.left = true ∧ e.tx.txn.account = a)) :
    lastRemoved (log ++ [e]) a = lastRemoved log a := by
  unfold lastRemoved
  rw [List.filter_append, List.filter_cons_of_neg (by simpa using h), List.filter_nil, List.append_nil]

theorem lastRemoved_append_self {e : Attempt A R V} (h : e.left = true) :
    lastRemoved (log ++ [e]) e.tx.txn.account = some e := by
  unfold lastRemoved
  rw [List.filter_append, List.filter_cons_of_pos (by simp [h]), List.filter_nil, List.getLast?_append]
  rfl

/-! ## The turns -/

section

variable (hq : Consistent s.queue) (hp : p ∈ s.queue.byFee_) (hcandidate : s.candidate = some p)
include hq hp hcandidate

theorem Fair.skipped {first : MaybeTx A R}
    (hfirst : (s.queue.queued p.1).head? = some first) (hlt : first.sequence < p.2) (h : Fair env log s) :
    Fair env log { s with candidate := after s.queue.byFee_ p } := by
  intro a c hc
  refine (h a c hc).imp_right fun h => h.imp_left fun hahead => ?_
  unfold Ahead at hahead ⊢
  rw [hcandidate] at hahead
  obtain ⟨next, hnext, hmem⟩ := onward_after hq.ranking.nodup hp hahead fun e => by
    obtain ⟨rfl, hs⟩ := Prod.mk.inj e
    have := hc.symm.trans (head_contents hfirst)
    obtain rfl := Option.some.inj this
    exact hlt.ne hs
  dsimp only
  rw [hnext]
  exact hmem

theorem Fair.stopped
    (hm : (s.queue.queued p.1).head? = some m) (hseq : m.sequence = p.2)
    (hn : s.queue.feeMetrics_.scaleFeeLevel (env.txCount s.view) = .ok n) (hlow : m.feeLevel < n) (h : Fair env log s) :
    Fair env log { s with candidate := none } := by
  intro a c hc
  refine (h a c hc).imp_right fun h => h.imp_left fun hahead => ⟨n, hn, ?_⟩
  unfold Ahead at hahead
  rw [hcandidate] at hahead
  have hle := hq.ranking.level_le hp hahead
  rw [← feeLevel_eq, (linked_head hq hc).2] at hle
  have hlevel := (linked_head hq (head_contents hm)).2
  rw [show (p.1, m.toCore.sequence) = p from Prod.ext rfl hseq] at hlevel
  rw [hlevel] at hle
  exact lt_of_le_of_lt hle hlow

theorem Fair.kept
    (hm : (s.queue.queued p.1).head? = some m) (hseq : m.sequence = p.2) (hsame : Same s.queue q₁)
    (hqueue : q' = q₁ ∨ ∃ c ∈ s.queue.contents p.1, p.2 < c.sequence ∧ q' = q₁.unlink p.1 [c.sequence])
    (h : Fair env log s) :
    Fair env (log ++ [⟨m, s.queue, s.view, false⟩]) ⟨after q'.byFee_ p, q', view, changed⟩ := by
  intro a c hc
  have hq₁ := hsame.consistent hq
  have hp₁ : p ∈ q₁.byFee_ := hsame.byFee ▸ hp
  have hmcore := head_contents hm
  -- the first transactions are those from before
  have hhead : (s.queue.contents a).head? = some c := by
    rcases hqueue with rfl | ⟨c', hc', hlt, rfl⟩
    · rwa [← hsame.contents]
    · rw [← hsame.contents]
      by_cases ha : a = p.1
      · subst ha
        have hfirst : (q₁.contents p.1).head? = some m.toCore := by rwa [hsame.contents]
        have hkeep := head_filter_ne (n := c'.sequence) hfirst (show m.sequence ≠ c'.sequence by omega)
        dsimp only at hc
        rw [contents_unlink, Function.update_self, hkeep] at hc
        rw [hfirst]
        exact hc
      · dsimp only at hc
        rwa [contents_other _ _ ha] at hc
  rcases h a c hhead with ⟨e, he, hcore⟩ | hahead | ⟨e, he, hover⟩
  · exact .inl ⟨e, by simp [he], hcore⟩
  · by_cases hself : (a, c.sequence) = p
    · -- it is the one that has been tried
      obtain rfl : a = p.1 := congrArg Prod.fst hself
      obtain rfl := Option.some.inj (hhead.symm.trans hmcore)
      exact .inl ⟨⟨m, s.queue, s.view, false⟩, by simp, rfl⟩
    · right; left
      unfold Ahead at hahead ⊢
      rw [hcandidate, ← hsame.byFee] at hahead
      have hq' : q'.byFee_.Nodup ∧ p ∈ q'.byFee_ ∧ (a, c.sequence) ∈ onward q'.byFee_ p := by
        rcases hqueue with rfl | ⟨c', hc', hlt, rfl⟩
        · exact ⟨hq₁.ranking.nodup, hp₁, hahead⟩
        · have hother : (p.1, c'.sequence) ≠ p := fun e => hlt.ne' (congrArg Prod.snd e)
          refine ⟨(hq₁.unlink _ _).ranking.nodup, mem_unlink_single (p := (p.1, c'.sequence)) hq₁ hp₁ hother.symm, ?_⟩
          rw [byFee_unlink_single (p := (p.1, c'.sequence)) hq₁]
          refine onward_filter hq₁.ranking.nodup hp₁ hother hahead fun e => ?_
          have hstill := (linked_head (hq₁.unlink _ _) hc).1
          rw [e, ((hq₁.unlink p.1 [c'.sequence]).ranking.mem_iff _), items_unlink] at hstill
          simp at hstill
      obtain ⟨next, hnext, hmem⟩ := onward_after hq'.1 hq'.2.1 hq'.2.2 hself
      dsimp only
      rw [hnext]
      exact hmem
  · refine .inr (.inr ⟨e, ?_, hover⟩)
    rw [lastRemoved_append (by simp)]
    exact he

end

/-- The account's next transaction, to which the iterator goes back, is before the one that leaves. -/
theorem before_of_account (hq : Consistent q) (hp : p ∈ q.byFee_) (hc : c ∈ q.contents p.1) (hseq : c.sequence = p.2 + 1)
    (h : ∀ f ∈ after q.byFee_ p, q.feeLevel f < c.feeLevel) :
    (p.1, p.2 + 1) ∈ q.byFee_ ∧ p ∈ onward q.byFee_ (p.1, p.2 + 1) := by
  have hitems : q.items (p.1, p.2 + 1) = some c := (find_eq_some_iff (hq.ordered p.1)).mpr ⟨hc, hseq⟩
  have hmem : (p.1, p.2 + 1) ∈ q.byFee_ := (hq.ranking.mem_iff _).mpr (by simp [hitems])
  refine ⟨hmem, (onward_total hq.ranking.nodup hp hmem).resolve_left fun hbehind => ?_⟩
  have hne : (p.1, p.2 + 1) ≠ p := fun e => absurd (congrArg Prod.snd e) (by simp)
  obtain ⟨next, hnext, hbehind⟩ := onward_after hq.ranking.nodup hp hbehind hne
  have hle := hq.ranking.level_le (remaining_after hq.ranking.nodup hp hnext).1 hbehind
  rw [← feeLevel_eq] at hle
  have hlevel : q.feeLevel (p.1, p.2 + 1) = c.feeLevel := by
    rw [feeLevel_eq]
    unfold levelOf
    rw [hitems]
    rfl
  have := h next hnext
  omega

section

variable (hq : Consistent s.queue) (hp : p ∈ s.queue.byFee_)
include hq hp

theorem Advances.ahead {next : Option (A × ℕ)} {k : A × ℕ} {level : ℕ}
    (hsame : Same s.queue q₁) (hnext : Advances s.queue p next) (hk : k ∈ onward s.queue.byFee_ p) (hne : k ≠ p) :
    Ahead env ⟨next, q₁.unlink p.1 [p.2], view, changed⟩ k level := by
  have hfee : (q₁.unlink p.1 [p.2]).byFee_ = s.queue.byFee_.filter (· ≠ p) := by
    rw [byFee_unlink_single (hsame.consistent hq), hsame.byFee]
  cases hnext with
  | fee h =>
    obtain ⟨next, hafter, hmem⟩ := onward_after hq.ranking.nodup hp hk hne
    obtain ⟨hin, hlt⟩ := remaining_after hq.ranking.nodup hp hafter
    unfold Ahead
    dsimp only
    rw [hafter, hfee]
    refine onward_filter hq.ranking.nodup hin (fun e => ?_) hmem hne
    rw [e] at hlt
    exact lt_irrefl _ hlt
  | account hc hseq h =>
    obtain ⟨hin, hbefore⟩ := before_of_account hq hp hc hseq h
    unfold Ahead
    dsimp only
    rw [hfee]
    refine onward_filter hq.ranking.nodup hin (fun e => ?_) (onward_trans hq.ranking.nodup hin hbefore hk) hne
    exact absurd (congrArg Prod.snd e) (by simp)

theorem Fair.removed {next : Option (A × ℕ)}
    (hcandidate : s.candidate = some p) (hm : (s.queue.queued p.1).head? = some m) (hseq : m.sequence = p.2)
    (hsame : Same s.queue q₁) (hnext : Advances s.queue p next) (h : Fair env log s) :
    Fair env (log ++ [⟨m, s.queue, s.view, true⟩]) ⟨next, q₁.unlink p.1 [p.2], view, changed⟩ := by
  intro a c hc
  dsimp only at hc
  have haccount : m.txn.account = p.1 := (hq.linked (List.mem_of_head? hm)).2
  by_cases ha : a = p.1
  · subst ha
    rw [contents_unlink, Function.update_self, hsame.contents] at hc
    obtain ⟨hmem, hne⟩ := List.mem_filter.mp (List.mem_of_head? hc)
    have hne : c.sequence ≠ p.2 := by simpa using hne
    have hlast : lastRemoved (log ++ [⟨m, s.queue, s.view, true⟩]) p.1 = some ⟨m, s.queue, s.view, true⟩ :=
      haccount ▸ lastRemoved_append_self rfl
    by_cases hdirect : c.sequence = p.2 + 1
    swap
    · exact .inr (.inr ⟨_, hlast, .inl fun e => hdirect (by rw [← e, ← hseq])⟩)
    have hitems : s.queue.items (p.1, c.sequence) = some c := (find_eq_some_iff (hq.ordered p.1)).mpr ⟨hmem, rfl⟩
    have hk : (p.1, c.sequence) ∈ s.queue.byFee_ := (hq.ranking.mem_iff _).mpr (by simp [hitems])
    have hkne : (p.1, c.sequence) ≠ p := fun e => hne (congrArg Prod.snd e)
    rcases onward_total hq.ranking.nodup hp hk with hbehind | hbefore
    · exact .inr (.inl (hnext.ahead hq hp hsame hbehind hkne))
    cases hnext with
    | account hc' hseq' h' =>
      right; left
      unfold Ahead
      dsimp only
      rw [hdirect]
      exact onward_self ((hsame.consistent hq).unlink _ _).ranking.nodup
        (mem_unlink_single (hsame.consistent hq) (hsame.byFee ▸ hdirect ▸ hk) (hdirect ▸ hkne))
    | fee h' =>
      -- it is before the one that leaves, and pays no more than the next by fee
      obtain ⟨f, hf, hle⟩ := h' c hmem hdirect
      refine .inr (.inr ⟨_, hlast, .inr ?_⟩)
      have hlevel : s.queue.feeLevel (p.1, c.sequence) = c.feeLevel := by
        rw [feeLevel_eq]
        unfold levelOf
        rw [hitems]
        rfl
      have hpLevel := (linked_head hq (head_contents hm)).2
      rw [show (p.1, m.toCore.sequence) = p from Prod.ext rfl hseq] at hpLevel
      have h₁ := hq.ranking.level_le hk hbefore
      have h₂ : s.queue.feeLevel f ≤ s.queue.feeLevel p := by
        obtain ⟨before, rest, -, honward, hafter⟩ := exists_onward hq.ranking.nodup hp
        rw [feeLevel_eq]
        refine hq.ranking.level_le hp ?_
        rw [honward]
        rw [hafter] at hf
        exact List.mem_cons_of_mem _ (List.mem_of_head? hf)
      rw [← feeLevel_eq] at h₁
      show m.toCore.feeLevel = c.feeLevel
      omega
  · rw [contents_other _ _ ha, hsame.contents] at hc
    rcases h a c hc with ⟨e, he, hcore⟩ | hahead | ⟨e, he, hover⟩
    · exact .inl ⟨e, by simp [he], hcore⟩
    · refine .inr (.inl (hnext.ahead hq hp hsame ?_ fun e => ha (congrArg Prod.fst e)))
      unfold Ahead at hahead
      rwa [hcandidate] at hahead
    · refine .inr (.inr ⟨e, ?_, hover⟩)
      rw [lastRemoved_append fun hboth => ha (hboth.2.symm.trans haccount)]
      exact he

theorem Turn.fair (hcandidate : s.candidate = some p)
    (hturn : Turn env s p entries s') (h : Fair env log s) : Fair env (log ++ entries) s' := by
  cases hturn with
  | skipped hfirst hlt =>
    rw [List.append_nil]
    exact h.skipped hq hp hcandidate hfirst hlt
  | stopped hm hseq hn hlow =>
    rw [List.append_nil]
    exact h.stopped hq hp hcandidate hm hseq hn hlow
  | removed hm hseq hn hpays hsame hqueue hnext hknown =>
    subst hqueue
    exact h.removed hq hp hcandidate hm hseq hsame hnext
  | kept hm hseq hn hpays hdid hresult hsame hqueue hknown => exact h.kept hq hp hcandidate hm hseq hsame hqueue

/-! ## What is tried -/

end

/-- What every turn keeps of the record: a transaction is tried as its account's first, and pays what is required; it leaves if
it is applied; and those that leave do so in the order of their sequences. -/
structure Recorded (env : Transactors A R V C) (metrics : FeeMetrics) (log : List (Attempt A R V)) (s : Loop A R V) : Prop where
  unchanged : s.queue.feeMetrics_ = metrics
  lowest : ∀ e ∈ log, ∀ m ∈ e.queue.queued e.tx.txn.account, e.tx.sequence ≤ m.sequence
  pays : ∀ e ∈ log, ∃ n, metrics.scaleFeeLevel (env.txCount e.view) = .ok n ∧ n ≤ e.tx.feeLevel
  applied : ∀ e ∈ log, e.applied env = true → e.left = true
  below : ∀ e ∈ log, e.left = true → ∀ c ∈ s.queue.contents e.tx.txn.account, e.tx.sequence < c.sequence
  ascending : (log.filter fun e => e.left).Pairwise fun e e' => e.tx.txn.account = e'.tx.txn.account →
    e.tx.sequence < e'.tx.sequence

theorem Recorded.shrink (h : Recorded env metrics log s) (hmetrics : s'.queue.feeMetrics_ = metrics)
    (hsub : ∀ a, (s'.queue.contents a).Sublist (s.queue.contents a)) : Recorded env metrics log s' :=
  ⟨hmetrics, h.lowest, h.pays, h.applied, fun e he hleft c hc => h.below e he hleft c ((hsub _).mem hc), h.ascending⟩

theorem Recorded.tried {left : Bool} (h : Recorded env metrics log s) (hq : Consistent s.queue)
    (hm : (s.queue.queued p.1).head? = some m) (hn : s.queue.feeMetrics_.scaleFeeLevel (env.txCount s.view) = .ok n)
    (hpays : n ≤ m.feeLevel) (happlied : (m.apply env s.view).1.2 = true → left = true)
    (hbelow : left = true → ∀ c ∈ s'.queue.contents p.1, m.sequence < c.sequence)
    (hmetrics : s'.queue.feeMetrics_ = metrics) (hsub : ∀ a, (s'.queue.contents a).Sublist (s.queue.contents a)) :
    Recorded env metrics (log ++ [⟨m, s.queue, s.view, left⟩]) s' := by
  have haccount : m.txn.account = p.1 := (hq.linked (List.mem_of_head? hm)).2
  have hs' := h.shrink hmetrics hsub
  refine ⟨hmetrics, ?_, ?_, ?_, ?_, ?_⟩
  · refine List.forall_mem_append.mpr ⟨h.lowest, List.forall_mem_singleton.mpr fun m' hm' => ?_⟩
    dsimp only at hm'
    rw [haccount] at hm'
    exact head_le (hq.sequences p.1) hm hm'
  · exact List.forall_mem_append.mpr ⟨h.pays, List.forall_mem_singleton.mpr ⟨n, h.unchanged ▸ hn, hpays⟩⟩
  · exact List.forall_mem_append.mpr ⟨h.applied, List.forall_mem_singleton.mpr happlied⟩
  · refine List.forall_mem_append.mpr ⟨hs'.below, List.forall_mem_singleton.mpr fun hleft c hc => ?_⟩
    dsimp only at hc
    rw [haccount] at hc
    exact hbelow hleft c hc
  · rw [List.filter_append]
    refine List.pairwise_append.mpr ⟨h.ascending, List.Pairwise.filter _ (List.pairwise_singleton _ _), fun e he e' he' hsame => ?_⟩
    obtain ⟨he, hleft⟩ := List.mem_filter.mp he
    obtain rfl := List.mem_singleton.mp (List.mem_of_mem_filter he')
    refine h.below e he hleft m.toCore ?_
    rw [hsame, haccount]
    exact List.mem_map_of_mem (List.mem_of_head? hm)

theorem Turn.recorded (hq : Consistent s.queue) (hturn : Turn env s p entries s')
    (h : Recorded env metrics log s) : Recorded env metrics (log ++ entries) s' := by
  have hmetrics := hturn.limits.1.trans h.unchanged
  have hsub := hturn.contents
  cases hturn with
  | skipped hfirst hlt =>
    rw [List.append_nil]
    exact h.shrink hmetrics hsub
  | stopped hm hseq hn hlow =>
    rw [List.append_nil]
    exact h.shrink hmetrics hsub
  | @removed m n q₁ q' next changed hm hseq hn hpays hsame hqueue hnext hknown =>
    subst hqueue
    refine h.tried hq hm hn hpays (fun _ => rfl) (fun _ c hc => ?_) hmetrics hsub
    dsimp only at hc
    rw [contents_unlink, Function.update_self, hsame.contents] at hc
    obtain ⟨hc, hne⟩ := List.mem_filter.mp hc
    obtain ⟨m', hm', rfl⟩ := List.mem_map.mp hc
    have hle := head_le (hq.sequences p.1) hm hm'
    exact lt_of_le_of_ne hle fun e => by simp [← e, hseq] at hne
  | kept hm hseq hn hpays hdid hresult hsame hqueue hknown =>
    exact h.tried hq hm hn hpays (fun h => absurd (hdid.symm.trans h) Bool.false_ne_true)
      (fun h => absurd h Bool.false_ne_true) hmetrics hsub

/-- **What `TxQ::accept` attempts**, for every consistent queue, view and behaviour of the transactors. It ends, by returning
or, if no transactions are expected, by a division by zero. A transaction is tried only as its account's first, and if it pays
the required level, and those of an account are applied in the order of their sequences. When it returns, every account's first
transaction has been tried, or pays less than the final view requires, or does not directly follow the last that was removed, or
has the fee level of that. -/
theorem accept_attempts (env : Transactors A R V C) (hq : Consistent q) (view : V) :
    (∀ e, q.accept env view = .error e → e = "division by zero" ∧ q.feeMetrics_.txnsExpected_ = 0) ∧
    ∀ r, q.accept env view = .ok r → ∃ log : List (Attempt A R V), acceptLogged env q view = .ok (log, r) ∧
      (∀ e ∈ log, (∀ m ∈ e.queue.queued e.tx.txn.account, e.tx.sequence ≤ m.sequence) ∧
        ∃ n, q.feeMetrics_.scaleFeeLevel (env.txCount e.view) = .ok n ∧ n ≤ e.tx.feeLevel) ∧
      (log.filter fun e => e.applied env).Pairwise (fun e e' => e.tx.txn.account = e'.tx.txn.account →
        e.tx.sequence < e'.tx.sequence) ∧
      ∀ a m, (r.2.1.queued a).head? = some m →
        (∃ e ∈ log, e.tx.toCore = m.toCore) ∨
        (∃ n, q.feeMetrics_.scaleFeeLevel (env.txCount r.2.2) = .ok n ∧ m.feeLevel < n) ∨
        ∃ e, lastRemoved log a = some e ∧ (e.tx.sequence + 1 ≠ m.sequence ∨ e.tx.feeLevel = m.feeLevel) := by
  have hstart : Fair env [] (⟨q.byFee_.head?, q, view, false⟩ : Loop A R V) := by
    intro a c hc
    right; left
    have hmem := (linked_head hq hc).1
    unfold Ahead
    dsimp only
    cases horder : q.byFee_ with
    | nil =>
      rw [horder] at hmem
      cases hmem
    | cons p ps =>
      rw [horder] at hmem
      simpa [onward] using hmem
  have hrule := acceptLoopLogged_rule env [] (s := ⟨q.byFee_.head?, q, view, false⟩)
    (I := fun log s => Fair env log s ∧ Recorded env q.feeMetrics_ log s)
    (fun log s p entries s' h hq hp hcandidate hturn =>
      ⟨hturn.fair hq hp hcandidate h.1, hturn.recorded hq h.2⟩)
    hq (fun p h => List.mem_of_head? h) (Nat.lt_succ_of_le (Loop.turns_le _))
    ⟨hstart, rfl, by simp, by simp, by simp, by simp, by simp⟩
  rw [← acceptLogged_snd]
  unfold acceptLogged
  rcases hrule with ⟨log, s, hrun, hdone, hcons, hfair, hrecorded⟩ | ⟨hrun, hzero⟩
  · rw [hrun]
    refine ⟨fun e h => (by cases h), fun r h => ?_⟩
    obtain rfl := Except.ok.inj h
    refine ⟨log, rfl, fun e he => ⟨hrecorded.lowest e he, hrecorded.pays e he⟩, ?_, fun a m hm => ?_⟩
    · have hfilter : (log.filter fun e => e.left).filter (fun e => e.applied env) = log.filter fun e => e.applied env := by
        rw [List.filter_filter]
        refine List.filter_congr fun e he => ?_
        by_cases hdid : e.applied env = true
        · simp [hdid, hrecorded.applied e he hdid]
        · simp [hdid]
      exact hfilter ▸ hrecorded.ascending.filter _
    · have := hfair a m.toCore (head_contents (p := (a, 0)) hm)
      unfold Ahead at this
      rw [hdone, hrecorded.unchanged] at this
      exact this
  · rw [hrun]
    refine ⟨fun e h => ?_, fun r h => (by cases h)⟩
    obtain rfl := Except.error.inj h
    exact ⟨rfl, hzero⟩

/-- The theorem, at a queue of two transactions and an empty open ledger: both are applied. -/
theorem accept_attempts_two :
    ∃ (q : TxQ Unit Unit) (r : Bool × TxQ Unit Unit × ℕ × List ℕ) (log : List (Attempt Unit Unit (ℕ × List ℕ))),
      twoQueued = .ok q ∧ q.accept { applyEverything with txCount := fun _ => 0 } (5, []) = .ok r ∧ r.2.2 = (5, [5, 6]) ∧
      acceptLogged { applyEverything with txCount := fun _ => 0 } q (5, []) = .ok (log, r) ∧
      ∀ e ∈ log, (∀ m ∈ e.queue.queued e.tx.txn.account, e.tx.sequence ≤ m.sequence) ∧
        ∃ n, q.feeMetrics_.scaleFeeLevel 0 = .ok n ∧ n ≤ e.tx.feeLevel := by
  have htwo : twoQueued = .ok (valueOr twoQueued (.new Setup.default)) := eq_ok_valueOr _ (by decide)
  have hrun := eq_ok_valueOr (x := (valueOr twoQueued (.new Setup.default)).accept
    { applyEverything with txCount := fun _ => 0 } (5, [])) (false, .new Setup.default, 0, []) (by decide)
  obtain ⟨log, hlog, htried, -⟩ := (accept_attempts { applyEverything with txCount := fun _ => 0 }
    ((consistent_new Setup.default).run htwo) (5, [])).2 _ hrun
  exact ⟨_, _, log, htwo, hrun, by decide, hlog, htried⟩

end TxQ

end ScfChain.App
