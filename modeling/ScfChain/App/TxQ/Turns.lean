import Mathlib
import ScfChain.App.TxQ.Outcome

/-!
# The turns of `TxQ::accept`

`Turn` lists what a turn of the loop does: it skips a transaction that is not its account's first, stops at one that pays too
little, takes a transaction out of the queue, or leaves it there. Every turn moves the iterator on or takes a transaction out
of the queue, so that the loop ends: it returns, or a fee level is divided by an expected number of transactions of zero.
-/

set_option linter.unusedSectionVars false

namespace ScfChain.App

open Data

variable {A R V C : Type} [DecidableEq A] [DecidableEq R]

namespace TxQ

variable {K T : Prop} {env : Transactors A R V C} {q q' q₁ : TxQ A R} {view : V} {p : A × ℕ} {s s' : Loop A R V}

/-! ## A transaction that leaves -/

theorem queued_penalise (q : TxQ A R) (a : A) (retries : Bool) :
    (q.modifyAccount a (·.penalise retries)).queued = q.queued := by
  refine q.queued_modifyAccount_of a fun acc => ?_
  cases retries <;> rfl

theorem same_penalise (q : TxQ A R) (a : A) (retries : Bool) : Same q (q.modifyAccount a (·.penalise retries)) := by
  refine ⟨?_, rfl, rfl, rfl⟩
  unfold contents
  rw [queued_penalise]

theorem mem_unlink_single {p' : A × ℕ} (hq : Consistent q) (hp' : p' ∈ q.byFee_) (hne : p' ≠ p) :
    p' ∈ (q.unlink p.1 [p.2]).byFee_ := by
  refine ((hq.unlink p.1 [p.2]).ranking.mem_iff p').mpr ?_
  rw [items_unlink]
  show (if p' ∈ [p] then none else q.items p').isSome = true
  rw [if_neg (by simpa using hne)]
  exact (hq.ranking.mem_iff p').mp hp'

/-- Where the iterator goes when `p` leaves: to the next by fee, or to the account's next, if that directly follows and pays
more. -/
inductive Advances (q : TxQ A R) (p : A × ℕ) : Option (A × ℕ) → Prop
  | fee (h : ∀ c ∈ q.contents p.1, c.sequence = p.2 + 1 → ∃ f ∈ after q.byFee_ p, c.feeLevel ≤ q.feeLevel f) :
      Advances q p (after q.byFee_ p)
  | account {c : Core A} (hc : c ∈ q.contents p.1) (hseq : c.sequence = p.2 + 1)
      (h : ∀ f ∈ after q.byFee_ p, q.feeLevel f < c.feeLevel) : Advances q p (some (p.1, p.2 + 1))

theorem Advances.same {next : Option (A × ℕ)} (hsame : Same q q₁) (h : Advances q₁ p next) : Advances q p next := by
  have hlevel : q₁.feeLevel = q.feeLevel := by rw [feeLevel_eq, feeLevel_eq, hsame.items]
  cases h with
  | fee h =>
    rw [hsame.byFee, hsame.contents, hlevel] at *
    exact .fee h
  | account hc hseq h =>
    rw [hsame.byFee, hsame.contents, hlevel] at *
    exact .account hc hseq h

theorem Advances.pointing {next : Option (A × ℕ)} (hq : Consistent q) (hp : p ∈ q.byFee_) (h : Advances q p next) :
    ∀ p', next = some p' → p' ∈ (q.unlink p.1 [p.2]).byFee_ := by
  rintro p' rfl
  generalize hnext : some p' = next at h
  cases h with
  | fee h =>
    obtain ⟨hmem, hlt⟩ := remaining_after hq.ranking.nodup hp hnext.symm
    refine mem_unlink_single hq hmem fun e => ?_
    rw [e] at hlt
    exact lt_irrefl _ hlt
  | account hc hseq h =>
    obtain rfl := Option.some.inj hnext
    obtain ⟨m, hm, rfl⟩ := List.mem_map.mp hc
    refine mem_unlink_single hq (hseq ▸ (hq.linked hm).1) fun e => ?_
    have : p.2 + 1 = p.2 := congrArg Prod.snd e
    omega

variable {l : List (MaybeTx A R)} {m : MaybeTx A R} {n : ℕ}

theorem head_filter (hl : l.Pairwise (·.sequence < ·.sequence))
    (hm : m ∈ l) : (l.filter (m.sequence ≤ ·.sequence)).head? = some m := by
  induction l with
  | nil => cases hm
  | cons x xs ih =>
    obtain ⟨hx, hxs⟩ := List.pairwise_cons.mp hl
    rcases List.mem_cons.mp hm with rfl | hm
    · rw [List.filter_cons_of_pos (by simp)]
      rfl
    · rw [List.filter_cons_of_neg (by simpa using hx m hm)]
      exact ih hxs hm

theorem eraseAndAdvance_ok (env : Transactors A R V C) (hq : Consistent q) (hp : p ∈ q.byFee_)
    (hfirst : (q.queued p.1).head?.map (fun m => m.sequence) = some p.2) :
    ∃ next, q.eraseAndAdvance env p = .ok (next, q.unlink p.1 [p.2]) ∧ Advances q p next := by
  obtain ⟨acc, m, hacc, hfind, -, -⟩ := hq.stored hp
  have hqueued := queued_of hacc
  rw [hqueued] at hfirst
  unfold eraseAndAdvance
  rw [hacc]
  dsimp only
  rw [assert_ok hfirst, ok_bind, hfind]
  dsimp only
  have hordered := hq.sequences p.1
  rw [hqueued] at hordered
  have hdrop : acc.transactions.dropWhile (·.sequence ≤ p.2) = acc.transactions.filter (p.2 + 1 ≤ ·.sequence) := by
    rw [← dropWhile_eq_filter hordered]
    congr! 3
    omega
  have hmem : ∀ c, c ∈ q.contents p.1 → c.sequence = p.2 + 1 →
      (acc.transactions.dropWhile (·.sequence ≤ p.2)).head?.map (·.toCore) = some c := by
    intro c hc hs
    obtain ⟨m', hm', rfl⟩ := List.mem_map.mp hc
    rw [hqueued] at hm'
    rw [hdrop, ← hs]
    exact congrArg _ (head_filter hordered hm')
  cases hnext : (acc.transactions.dropWhile (·.sequence ≤ p.2)).head? with
  | none =>
    refine ⟨_, rfl, .fee fun c hc hs => ?_⟩
    rw [hnext] at hmem
    cases hmem c hc hs
  | some m' =>
    rw [hnext] at hmem
    have hm' : m'.toCore ∈ q.contents p.1 := by
      refine List.mem_map_of_mem ?_
      rw [hqueued]
      exact (List.dropWhile_sublist _).mem (List.mem_of_head? hnext)
    dsimp only
    split_ifs with huse
    · simp only [decide_eq_true_eq] at huse
      exact ⟨_, rfl, .account hm' huse.1 huse.2⟩
    · refine ⟨_, rfl, .fee fun c hc hs => ?_⟩
      obtain rfl := Option.some.inj (hmem c hc hs)
      by_contra hnone
      refine huse (decide_eq_true ⟨hs, fun f hf => ?_⟩)
      exact not_le.mp fun hle => hnone ⟨f, hf, hle⟩

/-! ## A transaction that stays -/

theorem lt_getLast (hl : l.Pairwise (·.sequence < ·.sequence)) {last : MaybeTx A R}
    (hlast : l.getLast? = some last) (hlength : 1 < l.length)
    (hfirst : l.head?.map (fun m => m.sequence) = some n) : n < last.sequence := by
  cases l with
  | nil => simp at hlength
  | cons x xs =>
    cases xs with
    | nil => simp at hlength
    | cons y ys =>
      have hmem : last ∈ y :: ys := by
        rw [List.getLast?_cons_cons] at hlast
        exact List.mem_of_getLast? hlast
      obtain rfl : x.sequence = n := by simpa using hfirst
      exact (List.pairwise_cons.mp hl).1 last hmem

theorem leaveInQueue_ok (env : Transactors A R V C) (hq : Consistent q) {acc : TxQAccount A R} (result : TER)
    (hacc : acc.transactions.map (·.toCore) = q.contents p.1)
    (hfirst : acc.transactions.head?.map (fun m => m.sequence) = some p.2) :
    ∃ q₁ q', q.leaveInQueue env p acc result = .ok q' ∧ Same q q₁ ∧
      (q' = q₁ ∨ ∃ c ∈ q.contents p.1, p.2 < c.sequence ∧ q' = q₁.unlink p.1 [c.sequence]) ∧
      ∀ {K T : Prop}, Each (·.Known K T) q → Each (·.Known K T) q' := by
  have hsame := q.same_modifyTx p fun c =>
    { c with
      retriesRemaining := if acc.retryPenalty ∧ 2 < c.retriesRemaining then 1 else c.retriesRemaining - 1
      lastResult := some result }
  have hknown : ∀ {K T : Prop}, Each (·.Known K T) q → Each (·.Known K T) (q.modifyTx p fun c =>
      { c with
        retriesRemaining := if acc.retryPenalty ∧ 2 < c.retriesRemaining then 1 else c.retriesRemaining - 1
        lastResult := some result }) := fun hE => hE.modifyTx p fun m hm _ => (hE p.1 m hm).tried rfl rfl (hE p.1 m hm).ready
  unfold leaveInQueue
  dsimp only
  split_ifs with hdrop
  · cases hlast : acc.transactions.getLast? with
    | none =>
      rw [List.getLast?_eq_none_iff] at hlast
      rw [hlast] at hdrop
      simp at hdrop
    | some last =>
      have hmem : last.toCore ∈ q.contents p.1 := by
        rw [← hacc]
        exact List.mem_map_of_mem (List.mem_of_getLast? hlast)
      have hordered := hq.ordered p.1
      rw [← hacc, List.pairwise_map] at hordered
      have hlt := lt_getLast hordered hlast hdrop.2.1 hfirst
      have howned : last.txn.account = p.1 := hq.owned p.1 _ hmem
      have hne : (last.txn.account, last.sequence) ≠ p := fun e => hlt.ne' (congrArg Prod.snd e)
      have hlinked : (p.1, last.sequence) ∈ q.byFee_ := by
        rw [hq.ranking.mem_iff]
        unfold items
        rw [(find_eq_some_iff (hq.ordered p.1)).mpr ⟨hmem, rfl⟩]
        rfl
      dsimp only
      rw [assert_ok howned, ok_bind, assert_ok hne, ok_bind, howned,
        (hsame.consistent hq).erase_ok (p := (p.1, last.sequence)) (hsame.byFee ▸ hlinked)]
      exact ⟨_, _, rfl, hsame, .inr ⟨_, hmem, hlt, rfl⟩, fun hE => (hknown hE).unlink _ _⟩
  · exact ⟨_, _, rfl, hsame, .inl rfl, hknown⟩

/-! ## What a turn does -/

/-- A transaction that is tried: the queue and the view at that moment, and whether it has left the queue after it. -/
structure Attempt (A R V : Type) where
  tx : MaybeTx A R
  queue : TxQ A R
  view : V
  left : Bool

/-- One turn of the loop, with a record of the transaction that is tried. -/
def acceptStepLogged (env : Transactors A R V C) (s : Loop A R V) (p : A × ℕ) :
    Except String (List (Attempt A R V) × Loop A R V) :=
  match s.queue.byAccount_ p.1 with
  | none => .error "byAccount_.at"
  | some acc =>
    match acc.transactions.head?, acc.find p.2 with
    | some first, some m =>
      if first.sequence < p.2 then .ok ([], { s with candidate := after s.queue.byFee_ p })
      else do
        let required ← s.queue.feeMetrics_.scaleFeeLevel (env.txCount s.view)
        if required ≤ m.feeLevel then do
          let s' ← tryCandidate env s p acc m
          return ([⟨m, s.queue, s.view, (s'.queue.items p).isNone⟩], s')
        else return ([], { s with candidate := none })
    | _, _ => .error "candidateIter"

theorem acceptStepLogged_snd (env : Transactors A R V C) (s : Loop A R V) (p : A × ℕ) :
    (acceptStepLogged env s p).map Prod.snd = acceptStep env s p := by
  unfold acceptStepLogged acceptStep
  cases s.queue.byAccount_ p.1 with
  | none => rfl
  | some acc =>
    dsimp only
    cases acc.transactions.head? with
    | none => rfl
    | some first =>
      cases acc.find p.2 with
      | none => rfl
      | some m =>
        dsimp only
        split_ifs
        · rfl
        cases s.queue.feeMetrics_.scaleFeeLevel (env.txCount s.view) with
        | error e => rfl
        | ok required =>
          simp only [ok_bind]
          split_ifs
          · cases tryCandidate env s p acc m with
            | error e => rfl
            | ok s' => rfl
          · rfl

/-- What a turn does with the candidate `p`, and what it records. -/
inductive Turn (env : Transactors A R V C) (s : Loop A R V) (p : A × ℕ) : List (Attempt A R V) → Loop A R V → Prop
  /-- The candidate is not its account's first. -/
  | skipped {first : MaybeTx A R} (hfirst : (s.queue.queued p.1).head? = some first) (hlt : first.sequence < p.2) :
      Turn env s p [] { s with candidate := after s.queue.byFee_ p }
  /-- The candidate pays too little. -/
  | stopped {m : MaybeTx A R} {n : ℕ} (hm : (s.queue.queued p.1).head? = some m) (hseq : m.sequence = p.2)
      (hn : s.queue.feeMetrics_.scaleFeeLevel (env.txCount s.view) = .ok n) (hlow : m.feeLevel < n) :
      Turn env s p [] { s with candidate := none }
  /-- The candidate is tried, and leaves the queue. -/
  | removed {m : MaybeTx A R} {n : ℕ} {q₁ q' : TxQ A R} {next : Option (A × ℕ)} {changed : Bool}
      (hm : (s.queue.queued p.1).head? = some m) (hseq : m.sequence = p.2)
      (hn : s.queue.feeMetrics_.scaleFeeLevel (env.txCount s.view) = .ok n) (hpays : n ≤ m.feeLevel)
      (hsame : Same s.queue q₁) (hqueue : q' = q₁.unlink p.1 [p.2]) (hnext : Advances s.queue p next)
      (hknown : ∀ {K T : Prop}, Each (·.Known K T) s.queue → Each (·.Known K T) q') :
      Turn env s p [⟨m, s.queue, s.view, true⟩] ⟨next, q', (m.apply env s.view).2.1, changed⟩
  /-- The candidate is tried, and stays; the account's last may leave. -/
  | kept {m : MaybeTx A R} {n : ℕ} {q₁ q' : TxQ A R}
      (hm : (s.queue.queued p.1).head? = some m) (hseq : m.sequence = p.2)
      (hn : s.queue.feeMetrics_.scaleFeeLevel (env.txCount s.view) = .ok n) (hpays : n ≤ m.feeLevel)
      (hdid : (m.apply env s.view).1.2 = false)
      (hresult : ¬ (isTefFailure (m.apply env s.view).1.1 = true ∨ isTemMalformed (m.apply env s.view).1.1 = true))
      (hsame : Same s.queue q₁)
      (hqueue : q' = q₁ ∨ ∃ c ∈ s.queue.contents p.1, p.2 < c.sequence ∧ q' = q₁.unlink p.1 [c.sequence])
      (hknown : ∀ {K T : Prop}, (K → (m.apply env s.view).2.2.ter = tesSUCCESS) → Each (·.Known K T) s.queue →
        Each (·.Known K T) q') :
      Turn env s p [⟨m, s.queue, s.view, false⟩] ⟨after q'.byFee_ p, q', (m.apply env s.view).2.1, s.ledgerChanged⟩

theorem Each.unlink_modified {P : MaybeTx A R → Prop} {f : Cache A R → Cache A R} (hq : Each P q)
    (h : q'.queued = (q.modifyTx p f).queued) : Each P (q'.unlink p.1 [p.2]) := by
  refine hq.update (a := p.1)
    (l := ((q.queued p.1).map fun m => if m.sequence = p.2 then m.modify f else m).filter (·.sequence ∉ [p.2])) ?_ ?_
  · rw [queued_unlink, h, queued_modifyTx, Function.update_self, Function.update_idem]
  · intro m hm
    obtain ⟨hm, hne⟩ := List.mem_filter.mp hm
    obtain ⟨m₀, hm₀, rfl⟩ := List.mem_map.mp hm
    by_cases hs : m₀.sequence = p.2
    · rw [if_pos hs] at hne
      exact absurd (show (m₀.modify f).sequence = p.2 from hs) (by simpa using hne)
    · rw [if_neg hs]
      exact hq p.1 m₀ hm₀

theorem Same.head (h : Same q q₁) (hfirst : (q.queued p.1).head?.map (fun m => m.sequence) = some n) :
    (q₁.queued p.1).head?.map (fun m => m.sequence) = some n := by
  have hcores : (q₁.contents p.1).head?.map Core.sequence = (q.contents p.1).head?.map Core.sequence := by rw [h.contents]
  unfold TxQ.contents at hcores
  rw [List.head?_map, List.head?_map, Option.map_map, Option.map_map] at hcores
  exact hcores.trans hfirst

theorem tryCandidate_turn (hq : Consistent s.queue) (hp : p ∈ s.queue.byFee_) {acc : TxQAccount A R}
    (hacc : s.queue.byAccount_ p.1 = some acc) (hm : (s.queue.queued p.1).head? = some m) (hseq : m.sequence = p.2)
    (hn : s.queue.feeMetrics_.scaleFeeLevel (env.txCount s.view) = .ok n) (hpays : n ≤ m.feeLevel) :
    ∃ s', tryCandidate env s p acc m = .ok s' ∧
      Turn env s p [⟨m, s.queue, s.view, (s'.queue.items p).isNone⟩] s' := by
  have hsame := s.queue.same_modifyTx p fun c => { c with pfresult := (m.apply env s.view).2.2 }
  have hfirst : (s.queue.queued p.1).head?.map (fun m => m.sequence) = some p.2 := by rw [hm, ← hseq]; rfl
  -- the candidate leaves the queue as the attempt has left it
  have hleave : ∀ (q₁ : TxQ A R) (changed : Bool), Same s.queue q₁ →
      q₁.queued = (s.queue.modifyTx p fun c => { c with pfresult := (m.apply env s.view).2.2 }).queued →
      ∃ next, q₁.eraseAndAdvance env p = .ok (next, q₁.unlink p.1 [p.2]) ∧
        Turn env s p [⟨m, s.queue, s.view, ((q₁.unlink p.1 [p.2]).items p).isNone⟩]
          ⟨next, q₁.unlink p.1 [p.2], (m.apply env s.view).2.1, changed⟩ := by
    intro q₁ changed hsame₁ hqueued
    obtain ⟨next, hnext, hadvances⟩ := eraseAndAdvance_ok env (hsame₁.consistent hq) (hsame₁.byFee ▸ hp)
      (hsame₁.head hfirst)
    have hgone : ((q₁.unlink p.1 [p.2]).items p).isNone = true := by
      rw [items_unlink]
      simp
    refine ⟨next, hnext, ?_⟩
    rw [hgone]
    exact .removed hm hseq hn hpays hsame₁ rfl (hadvances.same hsame₁) fun hE => hE.unlink_modified hqueued
  unfold tryCandidate
  dsimp only
  split_ifs with hdid hdropped
  · obtain ⟨next, hnext, hturn⟩ := hleave _ true hsame rfl
    rw [hnext, ok_bind]
    exact ⟨_, rfl, hturn⟩
  · obtain ⟨next, hnext, hturn⟩ := hleave _ s.ledgerChanged
      (hsame.trans (same_penalise _ p.1 (decide (m.retriesRemaining ≤ 0)))) (queued_penalise _ p.1 _)
    rw [hnext, ok_bind]
    exact ⟨_, rfl, hturn⟩
  · have hcontents : acc.transactions.map (·.toCore) = s.queue.contents p.1 := by
      unfold contents
      rw [queued_of hacc]
    rw [queued_of hacc] at hfirst
    obtain ⟨q₁, q', hrun, hsame₁, hqueue, hknown⟩ := leaveInQueue_ok env (hsame.consistent hq)
      (m.apply env s.view).1.1 (hsame.contents ▸ hcontents) hfirst
    rw [hsame.contents] at hqueue
    have hstays : (q'.items p).isNone = false := by
      have hstill : (q₁.items p).isSome := by
        rw [(hsame.trans hsame₁).items]
        exact (hq.ranking.mem_iff p).mp hp
      rcases hqueue with rfl | ⟨c, -, hlt, rfl⟩
      · simpa using hstill
      · rw [items_unlink]
        simp only [List.map_cons, List.map_nil, List.mem_singleton]
        rw [if_neg fun e => hlt.ne (congrArg Prod.snd e)]
        simpa using hstill
    rw [hrun, ok_bind]
    refine ⟨_, rfl, ?_⟩
    dsimp only
    rw [hstays]
    refine .kept hm hseq hn hpays (by simpa using hdid) (fun h => hdropped (h.elim .inl fun h => .inr (.inl h)))
      (hsame.trans hsame₁) hqueue fun hter hE => hknown (hE.modifyTx p fun m' hm' hs => ?_)
    obtain rfl := eq_of_sequence (hq.sequences p.1) hm' (List.mem_of_head? hm) (hs.trans hseq.symm)
    exact (hE p.1 m' hm').tried rfl (tx_apply env m' s.view) fun hk => .inl (hter hk)

theorem head_le (hl : l.Pairwise (·.sequence < ·.sequence)) {first : MaybeTx A R}
    (hfirst : l.head? = some first) (hm : m ∈ l) : first.sequence ≤ m.sequence := by
  cases l with
  | nil => cases hm
  | cons x xs =>
    obtain rfl := Option.some.inj hfirst
    rcases List.mem_cons.mp hm with rfl | hm
    · exact le_rfl
    · exact ((List.pairwise_cons.mp hl).1 m hm).le

theorem acceptStepLogged_turn (env : Transactors A R V C) (hq : Consistent s.queue) (hp : p ∈ s.queue.byFee_) :
    (∃ entries s', acceptStepLogged env s p = .ok (entries, s') ∧ Turn env s p entries s') ∨
      (acceptStepLogged env s p = .error "division by zero" ∧ s.queue.feeMetrics_.txnsExpected_ = 0) := by
  obtain ⟨acc, m, hacc, hfind, hm, hseq⟩ := hq.stored hp
  unfold acceptStepLogged
  rw [hacc]
  dsimp only
  cases hhead : acc.transactions.head? with
  | none =>
    rw [List.head?_eq_none_iff] at hhead
    rw [queued_of hacc, hhead] at hm
    cases hm
  | some first =>
    rw [← queued_of hacc] at hhead
    rw [hfind]
    dsimp only
    split_ifs with hskip
    · exact .inl ⟨_, _, rfl, .skipped hhead hskip⟩
    have hle := head_le (hq.sequences p.1) hhead hm
    obtain rfl := eq_of_sequence (hq.sequences p.1) (List.mem_of_head? hhead) hm (by omega)
    cases hn : s.queue.feeMetrics_.scaleFeeLevel (env.txCount s.view) with
    | error e =>
      unfold FeeMetrics.scaleFeeLevel at hn
      split_ifs at hn with hlt hzero
      obtain rfl := Except.error.inj hn
      exact .inr ⟨rfl, hzero⟩
    | ok n =>
      rw [ok_bind]
      split_ifs with hpays
      · obtain ⟨s', hrun, hturn⟩ := tryCandidate_turn hq hp hacc hhead hseq hn hpays
        rw [hrun]
        exact .inl ⟨_, _, rfl, hturn⟩
      · exact .inl ⟨_, _, rfl, .stopped hhead hseq hn (not_le.mp hpays)⟩

/-- A transaction that `preflight` rejects is not left in the queue: the result is `tef` or `tem`. -/
def Rejects (env : Transactors A R V C) : Prop :=
  ∀ (pf : PreflightResult A R) (view : V), pf.ter ≠ tesSUCCESS →
    (env.doApply (env.preclaim pf view) view).1.2 = true ∨ isTefFailure (env.doApply (env.preclaim pf view) view).1.1 = true ∨
      isTemMalformed (env.doApply (env.preclaim pf view) view).1.1 = true

/-- How many turns there can be. -/
def Loop.turns (s : Loop A R V) : ℕ :=
  s.queue.byFee_.length * s.queue.byFee_.length + (s.candidate.map (remaining s.queue.byFee_)).getD 0

theorem Loop.turns_le (s : Loop A R V) :
    s.turns ≤ s.queue.byFee_.length * s.queue.byFee_.length + s.queue.byFee_.length := by
  unfold turns
  cases s.candidate with
  | none => simp
  | some p => simpa using remaining_le s.queue.byFee_ p

theorem Loop.turns_lt (h : s'.queue.byFee_.length + 1 = s.queue.byFee_.length) : s'.turns < s.turns := by
  have hle := s'.turns_le
  have hge : s.queue.byFee_.length * s.queue.byFee_.length ≤ s.turns := Nat.le_add_right _ _
  rw [← h] at hge
  nlinarith

theorem Loop.turns_next (hp : p ∈ q.byFee_) (hnodup : q.byFee_.Nodup) (hfee : s.queue.byFee_ = q.byFee_)
    (hcandidate : s.candidate = some p) (view : V) (changed : Bool) :
    Loop.turns ⟨after q.byFee_ p, q, view, changed⟩ < s.turns := by
  unfold Loop.turns
  rw [hfee, hcandidate]
  refine Nat.add_lt_add_left ?_ _
  dsimp only
  cases hnext : after q.byFee_ p with
  | none => exact remaining_pos hp
  | some p' => exact (remaining_after hnodup hp hnext).2

namespace Turn

variable {entries : List (Attempt A R V)}

theorem queue (h : Turn env s p entries s') :
    ∃ q₁, Same s.queue q₁ ∧ (s'.queue = q₁ ∨ ∃ n, s'.queue = q₁.unlink p.1 [n]) := by
  cases h with
  | skipped hfirst hlt => exact ⟨_, .refl _, .inl rfl⟩
  | stopped hm hseq hn hlow => exact ⟨_, .refl _, .inl rfl⟩
  | removed hm hseq hn hpays hsame hqueue hnext hknown => exact ⟨_, hsame, .inr ⟨_, hqueue⟩⟩
  | kept hm hseq hn hpays hdid hresult hsame hqueue hknown =>
    exact ⟨_, hsame, hqueue.imp_right fun ⟨c, _, _, h⟩ => ⟨_, h⟩⟩

theorem consistent (hq : Consistent s.queue) (h : Turn env s p entries s') : Consistent s'.queue := by
  obtain ⟨q₁, hsame, h | ⟨n, h⟩⟩ := h.queue
  · exact h ▸ hsame.consistent hq
  · exact h ▸ (hsame.consistent hq).unlink _ _

theorem contents (h : Turn env s p entries s') (a : A) : (s'.queue.contents a).Sublist (s.queue.contents a) := by
  obtain ⟨q₁, hsame, h | ⟨n, h⟩⟩ := h.queue
  · rw [h, hsame.contents]
  · rw [h, ← hsame.contents]
    exact contents_unlink_sublist q₁ _ _ a

theorem limits (h : Turn env s p entries s') :
    s'.queue.feeMetrics_ = s.queue.feeMetrics_ ∧ s'.queue.maxSize_ = s.queue.maxSize_ := by
  obtain ⟨q₁, hsame, h | ⟨n, h⟩⟩ := h.queue
  · exact h ▸ ⟨hsame.feeMetrics, hsame.maxSize⟩
  · exact h ▸ ⟨hsame.feeMetrics, hsame.maxSize⟩

theorem known (hrejects : K → Rejects env) (hE : Each (·.Known K T) s.queue) (h : Turn env s p entries s') :
    Each (·.Known K T) s'.queue := by
  cases h with
  | skipped hfirst hlt => exact hE
  | stopped hm hseq hn hlow => exact hE
  | removed hm hseq hn hpays hsame hqueue hnext hknown => exact hknown hE
  | @kept m n q₁ q' hm hseq hn hpays hdid hresult hsame hqueue hknown =>
    refine hknown (fun hk => ?_) hE
    by_contra hne
    rcases hrejects hk (m.apply env s.view).2.2 s.view hne with h | h | h
    · exact Bool.false_ne_true (hdid.symm.trans h)
    · exact hresult (.inl h)
    · exact hresult (.inr h)

theorem next (hq : Consistent s.queue) (hp : p ∈ s.queue.byFee_) (hcandidate : s.candidate = some p)
    (h : Turn env s p entries s') : (∀ p', s'.candidate = some p' → p' ∈ s'.queue.byFee_) ∧ s'.turns < s.turns := by
  cases h with
  | skipped hfirst hlt =>
    exact ⟨fun p' h => (remaining_after hq.ranking.nodup hp h).1, Loop.turns_next hp hq.ranking.nodup rfl hcandidate _ _⟩
  | stopped hm hseq hn hlow =>
    refine ⟨by simp, ?_⟩
    unfold Loop.turns
    rw [hcandidate]
    exact Nat.add_lt_add_left (remaining_pos hp) _
  | removed hm hseq hn hpays hsame hqueue hnext hknown =>
    subst hqueue
    refine ⟨fun p' h => ?_, Loop.turns_lt ?_⟩
    · have := hnext.pointing hq hp p' h
      show p' ∈ (unlink _ _ _).byFee_
      unfold unlink at this ⊢
      rwa [← hsame.byFee] at this
    · show (unlink _ _ _).byFee_.length + 1 = _
      rw [length_unlink_single (hsame.byFee ▸ hp), hsame.byFee]
  | @kept m n q₁ q' hm hseq hn hpays hdid hresult hsame hqueue hknown =>
    have hq₁ := hsame.consistent hq
    have hp₁ : p ∈ q₁.byFee_ := hsame.byFee ▸ hp
    rcases hqueue with rfl | ⟨c, hc, hlt, rfl⟩
    · exact ⟨fun p' h => (remaining_after hq₁.ranking.nodup hp₁ h).1,
        Loop.turns_next hp₁ hq₁.ranking.nodup hsame.byFee.symm hcandidate _ _⟩
    · have hlinked : (p.1, c.sequence) ∈ q₁.byFee_ := by
        obtain ⟨m', hm', rfl⟩ := List.mem_map.mp hc
        rw [hsame.byFee]
        exact (hq.linked hm').1
      have hp₂ := mem_unlink_single (p := (p.1, c.sequence)) hq₁ hp₁ fun e => hlt.ne (congrArg Prod.snd e)
      refine ⟨fun p' h => (remaining_after (hq₁.unlink _ _).ranking.nodup hp₂ h).1, Loop.turns_lt ?_⟩
      show (unlink _ _ _).byFee_.length + 1 = _
      rw [length_unlink_single (p := (p.1, c.sequence)) hlinked, hsame.byFee]

end Turn

/-! ## The loop -/

/-- The loop, with a record of the transactions that are tried. -/
def acceptLoopLogged (env : Transactors A R V C) : ℕ → Loop A R V → List (Attempt A R V) →
    Except String (List (Attempt A R V) × Loop A R V)
  | fuel, s, log =>
    match s.candidate, fuel with
    | none, _ => .ok (log, s)
    | some _, 0 => .error "turns"
    | some p, fuel + 1 => do
      let r ← acceptStepLogged env s p
      acceptLoopLogged env fuel r.2 (log ++ r.1)

theorem acceptLoopLogged_snd (env : Transactors A R V C) (fuel : ℕ) (s : Loop A R V) (log : List (Attempt A R V)) :
    (acceptLoopLogged env fuel s log).map Prod.snd = acceptLoop env fuel s := by
  induction fuel generalizing s log with
  | zero =>
    unfold acceptLoopLogged acceptLoop
    cases s.candidate <;> rfl
  | succ fuel ih =>
    unfold acceptLoopLogged acceptLoop
    cases s.candidate with
    | none => rfl
    | some p =>
      dsimp only
      rw [← acceptStepLogged_snd]
      cases acceptStepLogged env s p with
      | error e => rfl
      | ok r => exact ih r.2 (log ++ r.1)

/-- **What every turn keeps holds when the loop ends.** It ends, unless there is a division by an expected number of
transactions of zero. -/
theorem acceptLoopLogged_rule (env : Transactors A R V C) (log : List (Attempt A R V))
    {I : List (Attempt A R V) → Loop A R V → Prop}
    (hturn : ∀ log s p entries s', I log s → Consistent s.queue → p ∈ s.queue.byFee_ → s.candidate = some p →
      Turn env s p entries s' → I (log ++ entries) s') {fuel : ℕ} (hq : Consistent s.queue)
    (hpointing : ∀ p, s.candidate = some p → p ∈ s.queue.byFee_) (hfuel : s.turns < fuel) (hI : I log s) :
    (∃ log' s', acceptLoopLogged env fuel s log = .ok (log', s') ∧ s'.candidate = none ∧ Consistent s'.queue ∧ I log' s') ∨
      (acceptLoopLogged env fuel s log = .error "division by zero" ∧ s.queue.feeMetrics_.txnsExpected_ = 0) := by
  induction fuel generalizing s log with
  | zero => omega
  | succ fuel ih =>
    unfold acceptLoopLogged
    cases hcandidate : s.candidate with
    | none => exact .inl ⟨log, s, rfl, hcandidate, hq, hI⟩
    | some p =>
      have hp := hpointing p hcandidate
      dsimp only
      rcases acceptStepLogged_turn env hq hp with ⟨entries, s₁, hrun, h⟩ | ⟨hrun, hzero⟩
      · obtain ⟨hpointing₁, hturns⟩ := h.next hq hp hcandidate
        rw [hrun, ok_bind, ← h.limits.1]
        exact ih _ (h.consistent hq) hpointing₁ (show s₁.turns < fuel by omega) (hturn log s p entries s₁ hI hq hp hcandidate h)
      · rw [hrun]
        exact .inr ⟨rfl, hzero⟩

end TxQ

end ScfChain.App
