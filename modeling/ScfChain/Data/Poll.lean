import Mathlib

/-!
# Polls

A poll counts votes. It is kept in the order of the rank of what is voted for, and is read once from the lowest rank to the
highest, with a threshold that every choice raises.

* `mem_pollOf` : a poll holds what was voted for, with the number of its votes;
* `ordered_pollOf` : by rank;
* `foldl_offer` : the reader ends with the highest of what has the most votes, if those reach the threshold.
-/

namespace ScfChain.Data

variable {α : Type} [DecidableEq α] {rank : α → ℕ}

/-- One more vote for `a`. -/
def vote (rank : α → ℕ) (a : α) : List (α × ℕ) → List (α × ℕ)
  | [] => [(a, 1)]
  | (b, n) :: poll =>
    if rank a < rank b then (a, 1) :: (b, n) :: poll
    else if a = b then (b, n + 1) :: poll
    else (b, n) :: vote rank a poll

def pollOf (rank : α → ℕ) (votes : List α) : List (α × ℕ) := votes.foldl (fun poll a => vote rank a poll) []

/-- By rank. -/
def Ordered (rank : α → ℕ) (poll : List (α × ℕ)) : Prop := poll.Pairwise fun e e' => rank e.1 < rank e'.1

variable {a : α} {poll : List (α × ℕ)}

theorem fst_mem_vote {e : α × ℕ} (h : e ∈ vote rank a poll) : e.1 = a ∨ ∃ n, (e.1, n) ∈ poll := by
  induction poll with
  | nil =>
    rw [vote, List.mem_singleton] at h
    exact .inl (by rw [h])
  | cons b poll ih =>
    unfold vote at h
    split_ifs at h with hlt heq
    · rcases List.mem_cons.mp h with rfl | h
      · exact .inl rfl
      · exact .inr ⟨e.2, h⟩
    · rcases List.mem_cons.mp h with rfl | h
      · exact .inl heq.symm
      · exact .inr ⟨e.2, List.mem_cons_of_mem _ h⟩
    · rcases List.mem_cons.mp h with rfl | h
      · exact .inr ⟨b.2, List.mem_cons_self⟩
      · obtain ha | ⟨n, hn⟩ := ih h
        · exact .inl ha
        · exact .inr ⟨n, List.mem_cons_of_mem _ hn⟩

theorem Ordered.vote (hrank : Function.Injective rank) (h : Ordered rank poll) (a : α) :
    Ordered rank (vote rank a poll) := by
  induction poll with
  | nil => exact List.pairwise_singleton _ _
  | cons b poll ih =>
    obtain ⟨hb, hpoll⟩ := List.pairwise_cons.mp h
    unfold Data.vote
    split_ifs with hlt heq
    · refine List.pairwise_cons.mpr ⟨fun e he => ?_, h⟩
      rcases List.mem_cons.mp he with rfl | he
      · exact hlt
      · exact hlt.trans (hb e he)
    · exact List.pairwise_cons.mpr ⟨hb, hpoll⟩
    · refine List.pairwise_cons.mpr ⟨fun e he => ?_, ih hpoll⟩
      obtain ha | ⟨n, hn⟩ := fst_mem_vote he
      · have hne : rank a ≠ rank b.1 := fun e => heq (hrank e)
        show rank b.1 < rank e.1
        rw [ha]
        omega
      · exact hb (e.1, n) hn

/-! ## What a poll holds -/

def votesFor (a : α) : List (α × ℕ) → ℕ
  | [] => 0
  | (b, n) :: poll => if a = b then n else votesFor a poll

theorem votesFor_eq_zero (h : ∀ e ∈ poll, e.1 ≠ a) : votesFor a poll = 0 := by
  induction poll with
  | nil => rfl
  | cons b poll ih =>
    have hb : b.1 ≠ a := h b List.mem_cons_self
    rw [votesFor, if_neg hb.symm]
    exact ih fun e he => h e (List.mem_cons_of_mem _ he)

theorem Ordered.votesFor_of_mem (h : Ordered rank poll) {n : ℕ} (hmem : (a, n) ∈ poll) : votesFor a poll = n := by
  induction poll with
  | nil => cases hmem
  | cons b poll ih =>
    obtain ⟨hb, hpoll⟩ := List.pairwise_cons.mp h
    rcases List.mem_cons.mp hmem with rfl | hmem
    · exact if_pos rfl
    · have hne : a ≠ b.1 := by
        rintro rfl
        exact lt_irrefl _ (hb (b.1, n) hmem)
      rw [votesFor, if_neg hne]
      exact ih hpoll hmem

theorem Ordered.votesFor_vote (h : Ordered rank poll) (a b : α) :
    votesFor b (Data.vote rank a poll) = votesFor b poll + if b = a then 1 else 0 := by
  induction poll with
  | nil => simp [Data.vote, votesFor]
  | cons c poll ih =>
    obtain ⟨hc, hpoll⟩ := List.pairwise_cons.mp h
    by_cases hlt : rank a < rank c.1
    · -- a new entry, since every entry has a higher rank
      have hnone : votesFor a (c :: poll) = 0 := by
        refine votesFor_eq_zero fun e he heq => ?_
        rcases List.mem_cons.mp he with rfl | he
        · exact lt_irrefl _ (heq ▸ hlt)
        · exact lt_asymm hlt (heq ▸ hc e he)
      rw [Data.vote, if_pos hlt]
      by_cases hba : b = a
      · rw [hba, hnone]
        simp [votesFor]
      · simp [votesFor, hba]
    · rw [Data.vote, if_neg hlt]
      by_cases heq : a = c.1
      · rw [if_pos heq]
        by_cases hba : b = a
        · simp [votesFor, hba, heq]
        · have hbc : b ≠ c.1 := fun e => hba (e.trans heq.symm)
          simp [votesFor, hbc, hba]
      · rw [if_neg heq, votesFor, votesFor]
        by_cases hbc : b = c.1
        · have hba : b ≠ a := fun e => heq (e.symm.trans hbc)
          rw [if_pos hbc, if_pos hbc, if_neg hba, add_zero]
        · rw [if_neg hbc, if_neg hbc]
          exact ih hpoll

theorem snd_pos_of_mem_vote (h : ∀ e ∈ poll, 0 < e.2) : ∀ e ∈ vote rank a poll, 0 < e.2 := by
  induction poll with
  | nil => simp [vote]
  | cons b poll ih =>
    have hpoll : ∀ e ∈ poll, 0 < e.2 := fun e he => h e (List.mem_cons_of_mem _ he)
    unfold vote
    split_ifs with hlt heq
    · exact List.forall_mem_cons.mpr ⟨Nat.one_pos, h⟩
    · exact List.forall_mem_cons.mpr ⟨Nat.succ_pos _, hpoll⟩
    · exact List.forall_mem_cons.mpr ⟨h b List.mem_cons_self, ih hpoll⟩

theorem pollOf_append (votes : List α) (a : α) : pollOf rank (votes ++ [a]) = vote rank a (pollOf rank votes) := by
  rw [pollOf, List.foldl_append]
  rfl

theorem ordered_pollOf (hrank : Function.Injective rank) (votes : List α) : Ordered rank (pollOf rank votes) := by
  induction votes using List.reverseRecOn with
  | nil => exact List.Pairwise.nil
  | append_singleton votes a ih =>
    rw [pollOf_append]
    exact ih.vote hrank a

theorem votesFor_pollOf (hrank : Function.Injective rank) (votes : List α) (a : α) :
    votesFor a (pollOf rank votes) = votes.count a := by
  induction votes using List.reverseRecOn with
  | nil => rfl
  | append_singleton votes b ih =>
    rw [pollOf_append, (ordered_pollOf hrank votes).votesFor_vote, ih, List.count_append, List.count_singleton]
    by_cases hab : a = b
    · simp [hab]
    · simp [hab, Ne.symm hab]

theorem snd_pos_pollOf (votes : List α) : ∀ e ∈ pollOf rank votes, 0 < e.2 := by
  induction votes using List.reverseRecOn with
  | nil => simp [pollOf]
  | append_singleton votes a ih =>
    rw [pollOf_append]
    exact snd_pos_of_mem_vote ih

theorem mem_of_votesFor_pos (h : 0 < votesFor a poll) : (a, votesFor a poll) ∈ poll := by
  induction poll with
  | nil => cases h
  | cons b poll ih =>
    unfold votesFor at h ⊢
    split_ifs at h ⊢ with heq
    · rw [heq]
      exact List.mem_cons_self
    · exact List.mem_cons_of_mem _ (ih h)

theorem mem_pollOf (hrank : Function.Injective rank) (votes : List α) (a : α) (n : ℕ) :
    (a, n) ∈ pollOf rank votes ↔ n = votes.count a ∧ 0 < n := by
  constructor
  · intro hmem
    have hcount := (ordered_pollOf hrank votes).votesFor_of_mem hmem
    rw [votesFor_pollOf hrank] at hcount
    exact ⟨hcount.symm, snd_pos_pollOf votes _ hmem⟩
  · rintro ⟨rfl, hpos⟩
    rw [← votesFor_pollOf hrank] at hpos ⊢
    exact mem_of_votesFor_pos hpos

/-! ## Reading a poll -/

/-- What is chosen, with the votes it takes to be chosen instead, and whether the choice has been declared. -/
structure Choice (α : Type) where
  chosen : α
  threshold : ℕ
  declared : Bool
deriving DecidableEq

/-- An entry with enough votes is chosen, raises the threshold to its own votes, and is declared with `quorum` votes. -/
def Choice.offer (quorum : ℕ) (c : Choice α) (e : α × ℕ) : Choice α :=
  if c.threshold ≤ e.2 then ⟨e.1, e.2, c.declared || decide (quorum ≤ e.2)⟩ else c

/-- The choice `c'` is the one to make from `c` over `poll`. -/
structure Elects (rank : α → ℕ) (quorum : ℕ) (poll : List (α × ℕ)) (c c' : Choice α) : Prop where
  mem : (c'.chosen, c'.threshold) ∈ poll
  le : c.threshold ≤ c'.threshold
  most : ∀ e ∈ poll, e.2 ≤ c'.threshold
  last : ∀ e ∈ poll, e.2 = c'.threshold → rank e.1 ≤ rank c'.chosen
  declared : c'.declared = (c.declared || decide (quorum ≤ c'.threshold))

omit [DecidableEq α] in
theorem foldl_offer (quorum : ℕ) (h : Ordered rank poll) (c : Choice α) :
    ((∀ e ∈ poll, e.2 < c.threshold) ∧ poll.foldl (Choice.offer quorum) c = c) ∨
      Elects rank quorum poll c (poll.foldl (Choice.offer quorum) c) := by
  induction poll generalizing c with
  | nil => exact .inl ⟨by simp, rfl⟩
  | cons b poll ih =>
    obtain ⟨hb, hpoll⟩ := List.pairwise_cons.mp h
    rw [List.foldl_cons]
    by_cases hle : c.threshold ≤ b.2
    · have hoffer : c.offer quorum b = ⟨b.1, b.2, c.declared || decide (quorum ≤ b.2)⟩ := if_pos hle
      rw [hoffer]
      refine .inr ?_
      obtain ⟨hless, heq⟩ | helects := ih hpoll ⟨b.1, b.2, c.declared || decide (quorum ≤ b.2)⟩
      · rw [heq]
        refine ⟨List.mem_cons_self, hle, ?_, ?_, rfl⟩
        · exact List.forall_mem_cons.mpr ⟨le_rfl, fun e he => (hless e he).le⟩
        · exact List.forall_mem_cons.mpr ⟨fun _ => le_rfl, fun e he heq => absurd heq (hless e he).ne⟩
      · obtain ⟨hmem, hge, hmost, hlast, hdeclared⟩ := helects
        refine ⟨List.mem_cons_of_mem _ hmem, hle.trans hge, ?_, ?_, ?_⟩
        · exact List.forall_mem_cons.mpr ⟨hge, hmost⟩
        · exact List.forall_mem_cons.mpr ⟨fun _ => (hb _ hmem).le, hlast⟩
        · rw [hdeclared, Bool.or_assoc]
          congr 1
          refine Bool.or_eq_right_iff_imp.mpr fun hq => ?_
          exact decide_eq_true ((of_decide_eq_true hq).trans hge)
    · have hoffer : c.offer quorum b = c := if_neg hle
      rw [hoffer]
      obtain ⟨hless, heq⟩ | helects := ih hpoll c
      · exact .inl ⟨List.forall_mem_cons.mpr ⟨not_le.mp hle, hless⟩, heq⟩
      · obtain ⟨hmem, hge, hmost, hlast, hdeclared⟩ := helects
        refine .inr ⟨List.mem_cons_of_mem _ hmem, hge, ?_, ?_, hdeclared⟩
        · exact List.forall_mem_cons.mpr ⟨by omega, hmost⟩
        · exact List.forall_mem_cons.mpr ⟨fun heq => by omega, hlast⟩

end ScfChain.Data
