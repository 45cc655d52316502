import Mathlib
import ScfChain.Data.Succeeds
import ScfChain.App.TxQ.Accept

/-!
# The two containers agree

* `contents`, `items`: what is queued, without the fields that change;
* `Consistent`: `byFee_` ranks exactly the transactions stored under `byAccount_`;
* `Same`: nothing that is queued has changed;
* what `unlink`, `erase` and `add` do to the two containers, and that they stay consistent.
-/

namespace ScfChain.App

open Data

variable {A R V C : Type}

/-! ## Lists of transactions -/

/-- `emplace`, without the fields that change. -/
def insertCore (c : Core A) : List (Core A) → List (Core A)
  | [] => [c]
  | x :: xs =>
    if x.sequence < c.sequence then x :: insertCore c xs
    else if c.sequence < x.sequence then c :: x :: xs
    else x :: xs

theorem map_emplace (m : MaybeTx A R) (l : List (MaybeTx A R)) :
    (emplace m l).map (·.toCore) = insertCore m.toCore (l.map (·.toCore)) := by
  induction l with
  | nil => rfl
  | cons x xs ih =>
    simp only [emplace, insertCore, List.map_cons]
    split_ifs
    · rw [List.map_cons, ih]
    · rfl
    · rfl

variable {c : Core A} {l : List (Core A)}

theorem perm_insertCore (h : ∀ x ∈ l, x.sequence ≠ c.sequence) : (insertCore c l).Perm (c :: l) := by
  induction l with
  | nil => exact .rfl
  | cons x xs ih =>
    have hx := h x (by simp)
    unfold insertCore
    split_ifs
    · exact ((ih fun y hy => h y (by simp [hy])).cons x).trans (.swap c x xs)
    · exact .rfl
    · omega

theorem pairwise_insertCore (h : ∀ x ∈ l, x.sequence ≠ c.sequence)
    (hl : l.Pairwise (·.sequence < ·.sequence)) : (insertCore c l).Pairwise (·.sequence < ·.sequence) := by
  induction l with
  | nil => exact List.pairwise_singleton _ _
  | cons x xs ih =>
    obtain ⟨hx, hxs⟩ := List.pairwise_cons.mp hl
    have hrest : ∀ y ∈ xs, y.sequence ≠ c.sequence := fun y hy => h y (by simp [hy])
    unfold insertCore
    split_ifs with hlt hgt
    · refine List.pairwise_cons.mpr ⟨?_, ih hrest hxs⟩
      intro y hy
      rcases List.mem_cons.mp ((perm_insertCore hrest).mem_iff.mp hy) with rfl | hy
      · exact hlt
      · exact hx y hy
    · refine List.pairwise_cons.mpr ⟨?_, hl⟩
      intro y hy
      rcases List.mem_cons.mp hy with rfl | hy
      · exact hgt
      · have := hx y hy
        omega
    · have := h x (by simp)
      omega

theorem find_eq_some_iff (hl : l.Pairwise (·.sequence < ·.sequence)) {s : ℕ} :
    l.find? (·.sequence = s) = some c ↔ c ∈ l ∧ c.sequence = s := by
  constructor
  · intro h
    exact ⟨List.mem_of_find?_eq_some h, by simpa using List.find?_some h⟩
  · rintro ⟨hc, rfl⟩
    induction l with
    | nil => simp at hc
    | cons x xs ih =>
      obtain ⟨hx, hxs⟩ := List.pairwise_cons.mp hl
      rcases List.mem_cons.mp hc with rfl | hc
      · simp
      · have hne : x.sequence ≠ c.sequence := (hx c hc).ne
        rw [List.find?_cons_of_neg (by simpa using hne)]
        exact ih hxs hc

namespace TxQ

/-! ## What is queued -/

/-- The transactions queued for an account, by sequence. -/
def queued (q : TxQ A R) (a : A) : List (MaybeTx A R) := ((q.byAccount_ a).map (·.transactions)).getD []

/-- The same, without the fields that change. -/
def contents (q : TxQ A R) (a : A) : List (Core A) := (q.queued a).map (·.toCore)

/-- The transaction queued for an account under a sequence. -/
def items (q : TxQ A R) (p : A × ℕ) : Option (Core A) := (q.contents p.1).find? (·.sequence = p.2)

theorem queued_of {q : TxQ A R} {a : A} {acc : TxQAccount A R} (h : q.byAccount_ a = some acc) :
    q.queued a = acc.transactions := by
  simp [queued, h]

theorem deref_eq (q : TxQ A R) (p : A × ℕ) : q.deref p = (q.queued p.1).find? (·.sequence = p.2) := by
  unfold deref queued
  cases q.byAccount_ p.1 with
  | none => rfl
  | some acc => rfl

theorem items_eq (q : TxQ A R) (p : A × ℕ) : q.items p = (q.deref p).map (·.toCore) := by
  unfold items contents
  rw [deref_eq, List.find?_map]
  rfl

theorem feeLevel_eq (q : TxQ A R) : q.feeLevel = levelOf (fun c : Core A => c.feeLevel) q.items := by
  funext p
  unfold feeLevel levelOf
  rw [items_eq, Option.map_map]
  rfl

theorem fresh_of_items {q : TxQ A R} {a : A} {s : ℕ} (h : q.items (a, s) = none) : ∀ c ∈ q.contents a, c.sequence ≠ s := by
  intro c hc
  simpa using List.find?_eq_none.mp h c hc

/-- `byFee_` holds exactly the transactions stored under `byAccount_`, each once, by non-increasing fee level; each is stored
under its account, and by sequence. -/
structure Consistent (q : TxQ A R) : Prop where
  ranking : Ranking (fun c : Core A => c.feeLevel) q.items q.byFee_
  ordered : ∀ a, (q.contents a).Pairwise (·.sequence < ·.sequence)
  owned : ∀ a, ∀ c ∈ q.contents a, c.txn.account = a

theorem consistent_new (setup : Setup) : Consistent (new setup : TxQ A R) := by
  refine ⟨Ranking.empty, ?_, ?_⟩
  · intro a
    exact List.Pairwise.nil
  · intro a c hc
    cases hc

/-- Nothing that is queued has changed. -/
structure Same (q q' : TxQ A R) : Prop where
  contents : q'.contents = q.contents
  byFee : q'.byFee_ = q.byFee_
  feeMetrics : q'.feeMetrics_ = q.feeMetrics_
  maxSize : q'.maxSize_ = q.maxSize_

namespace Same

variable {q q' q'' : TxQ A R}

theorem refl (q : TxQ A R) : Same q q := ⟨rfl, rfl, rfl, rfl⟩

theorem trans (h : Same q q') (h' : Same q' q'') : Same q q'' :=
  ⟨h'.contents.trans h.contents, h'.byFee.trans h.byFee, h'.feeMetrics.trans h.feeMetrics, h'.maxSize.trans h.maxSize⟩

theorem items (h : Same q q') : q'.items = q.items := by
  unfold TxQ.items
  rw [h.contents]

theorem consistent (h : Same q q') (hq : Consistent q) : Consistent q' := by
  refine ⟨?_, ?_, ?_⟩
  · rw [h.items, h.byFee]
    exact hq.ranking
  · rw [h.contents]
    exact hq.ordered
  · rw [h.contents]
    exact hq.owned

end Same

section

variable [DecidableEq A]

theorem queued_modifyAccount (q : TxQ A R) (a : A) (f : TxQAccount A R → TxQAccount A R) :
    (q.modifyAccount a f).queued =
      Function.update q.queued a (((q.byAccount_ a).map fun acc => (f acc).transactions).getD []) := by
  funext b
  unfold queued modifyAccount
  by_cases hb : b = a
  · subst hb
    simp only [Function.update_self, Option.map_map]
    rfl
  · simp [hb]

theorem queued_modifyAccount_of (q : TxQ A R) (a : A) {f : TxQAccount A R → TxQAccount A R}
    (hf : ∀ acc, (f acc).transactions = acc.transactions) : (q.modifyAccount a f).queued = q.queued := by
  rw [queued_modifyAccount]
  simp only [hf]
  exact Function.update_eq_self a q.queued

theorem queued_modifyTx (q : TxQ A R) (p : A × ℕ) (f : Cache A R → Cache A R) :
    (q.modifyTx p f).queued =
      Function.update q.queued p.1 ((q.queued p.1).map fun m => if m.sequence = p.2 then m.modify f else m) := by
  unfold modifyTx
  rw [queued_modifyAccount]
  congr 1
  unfold queued
  cases q.byAccount_ p.1 with
  | none => rfl
  | some acc => rfl

variable {q q' : TxQ A R} {a : A} {env : Transactors A R V C} {m : MaybeTx A R}

theorem queued_setTransactions {acc : TxQAccount A R} (l : List (MaybeTx A R))
    (h : q.byAccount_ a = some acc) : (q.setTransactions a l).queued = Function.update q.queued a l := by
  unfold setTransactions
  rw [queued_modifyAccount, h]
  rfl

theorem queued_unlink (q : TxQ A R) (a : A) (ss : List ℕ) :
    (q.unlink a ss).queued = Function.update q.queued a ((q.queued a).filter (·.sequence ∉ ss)) := by
  show (q.modifyAccount a _).queued = _
  rw [queued_modifyAccount]
  congr 1
  unfold queued
  cases q.byAccount_ a with
  | none => rfl
  | some acc => rfl

theorem contents_update {l : List (MaybeTx A R)} (h : q'.queued = Function.update q.queued a l)
    (hl : l.map (·.toCore) = q.contents a) : q'.contents = q.contents := by
  funext b
  unfold contents at *
  rw [h]
  by_cases hb : b = a
  · subst hb
    rw [Function.update_self, hl]
  · rw [Function.update_of_ne hb]

theorem same_modifyTx (q : TxQ A R) (p : A × ℕ) (f : Cache A R → Cache A R) : Same q (q.modifyTx p f) := by
  refine ⟨contents_update (q.queued_modifyTx p f) ?_, rfl, rfl, rfl⟩
  unfold contents
  rw [List.map_map]
  refine List.map_congr_left fun m _ => ?_
  show (if m.sequence = p.2 then m.modify f else m).toCore = m.toCore
  split_ifs <;> rfl

theorem same_setTransactions {acc : TxQAccount A R} {l : List (MaybeTx A R)} (hacc : q.byAccount_ a = some acc)
    (hl : l.map (·.toCore) = acc.transactions.map (·.toCore)) :
    Same q (q.setTransactions a l) := by
  refine ⟨contents_update (queued_setTransactions l hacc) ?_, rfl, rfl, rfl⟩
  unfold contents
  rw [hl, queued_of hacc]

/-! ## Transactions that leave -/

theorem contents_unlink (q : TxQ A R) (a : A) (ss : List ℕ) :
    (q.unlink a ss).contents = Function.update q.contents a ((q.contents a).filter (·.sequence ∉ ss)) := by
  funext b
  unfold contents
  rw [queued_unlink]
  by_cases hb : b = a
  · subst hb
    rw [Function.update_self, Function.update_self, List.filter_map]
    rfl
  · rw [Function.update_of_ne hb, Function.update_of_ne hb]

theorem items_unlink (q : TxQ A R) (a : A) (ss : List ℕ) :
    (q.unlink a ss).items = fun p => if p ∈ ss.map (a, ·) then none else q.items p := by
  funext ⟨b, s⟩
  unfold items
  rw [contents_unlink]
  by_cases hb : b = a
  · subst hb
    simp only [Function.update_self, List.find?_filter]
    by_cases hs : s ∈ ss
    · rw [if_pos (by simp [hs])]
      refine List.find?_eq_none.mpr fun c _ hc => ?_
      simp only [decide_not, Bool.not_eq_eq_eq_not, Bool.not_true, decide_eq_false_iff_not, decide_eq_true_eq] at hc
      exact hc.1 (hc.2 ▸ hs)
    · rw [if_neg (by simp [hs])]
      congr 1
      funext c
      by_cases hc : c.sequence = s
      · simp [hc, hs]
      · simp [hc]
  · rw [Function.update_of_ne hb, if_neg]
    simp [Ne.symm hb]

theorem Consistent.unlink (h : Consistent q) (a : A) (ss : List ℕ) : Consistent (q.unlink a ss) := by
  refine ⟨?_, ?_, ?_⟩
  · rw [items_unlink]
    exact h.ranking.diff _
  · intro b
    rw [contents_unlink]
    by_cases hb : b = a
    · subst hb
      rw [Function.update_self]
      exact (h.ordered b).filter _
    · rw [Function.update_of_ne hb]
      exact h.ordered b
  · intro b c hc
    rw [contents_unlink] at hc
    by_cases hb : b = a
    · subst hb
      rw [Function.update_self] at hc
      exact h.owned b c (List.mem_of_mem_filter hc)
    · rw [Function.update_of_ne hb] at hc
      exact h.owned b c hc

theorem length_unlink_single {p : A × ℕ} (h : p ∈ q.byFee_) :
    (q.unlink p.1 [p.2]).byFee_.length + 1 = q.byFee_.length := by
  show (q.byFee_.diff [p]).length + 1 = _
  rw [List.diff_cons, List.diff_nil, List.length_erase_of_mem h]
  have := List.length_pos_of_mem h
  omega

/-! ## A transaction that is put into the queue -/

theorem queued_add (h : q.add env m = .ok q') :
    q'.queued = Function.update q.queued m.txn.account (emplace m (q.queued m.txn.account)) := by
  unfold add at h
  obtain ⟨_, _, h⟩ := bind_ok.mp h
  obtain rfl := Except.ok.inj h
  funext b
  unfold queued
  by_cases hb : b = m.txn.account
  · subst hb
    simp only [Function.update_self]
    cases q.byAccount_ m.txn.account with
    | none => rfl
    | some acc => rfl
  · simp [hb]

theorem contents_add (h : q.add env m = .ok q') :
    q'.contents = Function.update q.contents m.txn.account (insertCore m.toCore (q.contents m.txn.account)) := by
  funext b
  unfold contents
  rw [queued_add h]
  by_cases hb : b = m.txn.account
  · subst hb
    rw [Function.update_self, Function.update_self, map_emplace]
  · rw [Function.update_of_ne hb, Function.update_of_ne hb]

theorem byFee_add (h : q.add env m = .ok q') :
    q'.byFee_ = insertRanked q'.feeLevel (m.txn.account, m.sequence) q.byFee_ ∧ q'.feeMetrics_ = q.feeMetrics_ ∧
      q'.maxSize_ = q.maxSize_ := by
  unfold add at h
  obtain ⟨_, _, h⟩ := bind_ok.mp h
  obtain rfl := Except.ok.inj h
  exact ⟨rfl, rfl, rfl⟩

section

variable (hq : Consistent q) (h : q.add env m = .ok q') (hfresh : q.items (m.txn.account, m.sequence) = none)
include hq h hfresh

theorem Consistent.ordered_add
    (a : A) :
    (q'.contents a).Pairwise (·.sequence < ·.sequence) := by
  rw [contents_add h]
  by_cases ha : a = m.txn.account
  · subst ha
    rw [Function.update_self]
    exact pairwise_insertCore (fresh_of_items hfresh) (hq.ordered _)
  · rw [Function.update_of_ne ha]
    exact hq.ordered a

theorem Consistent.items_add
    :
    q'.items = Function.update q.items (m.txn.account, m.sequence) (some m.toCore) := by
  funext ⟨a, s⟩
  have hordered := hq.ordered_add h hfresh a
  refine Option.ext fun c => ?_
  unfold TxQ.items
  rw [find_eq_some_iff hordered, contents_add h]
  by_cases ha : a = m.txn.account
  · subst ha
    rw [Function.update_self, (perm_insertCore (fresh_of_items hfresh)).mem_iff, List.mem_cons]
    by_cases hs : s = m.sequence
    · subst hs
      rw [Function.update_self, Option.some_inj]
      constructor
      · rintro ⟨rfl | hc, hseq⟩
        · rfl
        · exact absurd hseq (fresh_of_items hfresh c hc)
      · rintro rfl
        exact ⟨.inl rfl, rfl⟩
    · rw [Function.update_of_ne (by simpa using hs), find_eq_some_iff (hq.ordered _)]
      constructor
      · rintro ⟨rfl | hc, hseq⟩
        · exact absurd hseq.symm hs
        · exact ⟨hc, hseq⟩
      · rintro ⟨hc, hseq⟩
        exact ⟨.inr hc, hseq⟩
  · rw [Function.update_of_ne ha, Function.update_of_ne (by simp [ha]), find_eq_some_iff (hq.ordered a)]

theorem Consistent.add
    : Consistent q' := by
  refine ⟨?_, hq.ordered_add h hfresh, ?_⟩
  · rw [(byFee_add h).1, feeLevel_eq, hq.items_add h hfresh]
    exact hq.ranking.put hfresh m.toCore
  · intro a c hc
    rw [contents_add h] at hc
    by_cases ha : a = m.txn.account
    · subst ha
      rw [Function.update_self, (perm_insertCore (fresh_of_items hfresh)).mem_iff, List.mem_cons] at hc
      rcases hc with rfl | hc
      · rfl
      · exact hq.owned _ c hc
    · rw [Function.update_of_ne ha] at hc
      exact hq.owned a c hc

end

theorem length_add (h : q.add env m = .ok q') : q'.byFee_.length = q.byFee_.length + 1 := by
  rw [(byFee_add h).1, (insertRanked_perm _ _ _).length_eq]
  rfl

end

end TxQ

end ScfChain.App
