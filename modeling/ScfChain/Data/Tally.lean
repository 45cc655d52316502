import Mathlib

/-!
# Tallies: finitely supported counts

`tally P f` is the total count of a finitely supported `f : α →₀ ℕ` over the elements with `P`. It is additive
(`tally_add`, `tally_single`, `tally_list_sum`), depends only on `P` over the support (`tally_congr`), and is
the total count (`total`) or zero when `P` holds everywhere or nowhere on the support.
-/

namespace ScfChain.Data

open scoped Classical in
/-- The count of `f` over the elements with `P`. -/
noncomputable def tally {α : Type*} (P : α → Prop) (f : α →₀ ℕ) : ℕ := f.sum fun y c => if P y then c else 0

/-- The total count of `f`. -/
noncomputable def total {α : Type*} (f : α →₀ ℕ) : ℕ := f.sum fun _ c => c

variable {α β : Type*} {P Q : α → Prop} {f g : α →₀ ℕ}

@[simp] theorem tally_zero : tally P 0 = 0 := Finsupp.sum_zero_index

@[simp] theorem tally_add : tally P (f + g) = tally P f + tally P g := by
  unfold tally
  apply Finsupp.sum_add_index'
  · intro y
    simp
  · intro y a b
    split_ifs <;> simp

theorem tally_single (y : α) (c : ℕ) [Decidable (P y)] : tally P (Finsupp.single y c) = if P y then c else 0 := by
  unfold tally
  rw [Finsupp.sum_single_index (by simp)]
  congr

theorem tally_single_of (y : α) (c : ℕ) (h : P y) : tally P (Finsupp.single y c) = c := by
  classical rw [tally_single, if_pos h]

theorem tally_single_of_not (y : α) (c : ℕ) (h : ¬ P y) : tally P (Finsupp.single y c) = 0 := by
  classical rw [tally_single, if_neg h]

theorem tally_list_sum : ∀ fs : List (α →₀ ℕ), tally P fs.sum = (fs.map (tally P)).sum
  | [] => by simp
  | f :: fs => by rw [List.sum_cons, tally_add, tally_list_sum fs, List.map_cons, List.sum_cons]

theorem tally_congr (h : ∀ y ∈ f.support, P y ↔ Q y) : tally P f = tally Q f := by
  unfold tally Finsupp.sum
  refine Finset.sum_congr rfl fun y hy => ?_
  by_cases hP : P y
  · simp only [if_pos hP, if_pos ((h y hy).mp hP)]
  · simp only [if_neg hP, if_neg fun hQ => hP ((h y hy).mpr hQ)]

theorem tally_eq_zero (h : ∀ y ∈ f.support, ¬ P y) : tally P f = 0 := by
  unfold tally Finsupp.sum
  exact Finset.sum_eq_zero fun y hy => if_neg (h y hy)

theorem tally_eq_total (h : ∀ y ∈ f.support, P y) : tally P f = total f := by
  unfold tally total Finsupp.sum
  exact Finset.sum_congr rfl fun y hy => if_pos (h y hy)

theorem total_eq_tally (f : α →₀ ℕ) : total f = tally (fun _ => True) f :=
  (tally_eq_total fun _ _ => trivial).symm

@[simp] theorem total_zero : total (0 : α →₀ ℕ) = 0 := Finsupp.sum_zero_index

@[simp] theorem total_add : total (f + g) = total f + total g := by
  simp only [total_eq_tally, tally_add]

@[simp] theorem total_single (y : α) (c : ℕ) : total (Finsupp.single y c) = c := by
  rw [total_eq_tally, tally_single_of _ _ trivial]

theorem total_list_sum (fs : List (α →₀ ℕ)) : total fs.sum = (fs.map total).sum := by
  rw [total_eq_tally, tally_list_sum]
  congr 2
  funext f
  exact (total_eq_tally f).symm

theorem tally_le_total : tally P f ≤ total f := by
  unfold tally total Finsupp.sum
  refine Finset.sum_le_sum fun y _ => ?_
  by_cases hP : P y
  · simp only [if_pos hP, le_rfl]
  · simp only [if_neg hP, Nat.zero_le]

open scoped Classical in
theorem le_tally {y : α} (h : P y) : f y ≤ tally P f := by
  by_cases hy : y ∈ f.support
  · unfold tally Finsupp.sum
    have := Finset.single_le_sum (f := fun x => if P x then f x else 0) (fun _ _ => Nat.zero_le _) hy
    simpa only [if_pos h] using this
  · rw [Finsupp.notMem_support_iff.mp hy]
    exact Nat.zero_le _

theorem tally_eq_apply (y : α) : tally (fun x => x = y) f = f y := by
  by_cases hy : y ∈ f.support
  · unfold tally Finsupp.sum
    rw [Finset.sum_eq_single_of_mem y hy fun x _ hne => if_neg hne]
    exact if_pos rfl
  · rw [Finsupp.notMem_support_iff.mp hy]
    refine tally_eq_zero fun x hx hxy => hy ?_
    rwa [← hxy]

theorem tally_pos_iff : 0 < tally P f ↔ ∃ y ∈ f.support, P y := by
  constructor
  · intro h
    by_contra hne
    push Not at hne
    exact absurd (tally_eq_zero hne) h.ne'
  · rintro ⟨y, hy, hP⟩
    exact lt_of_lt_of_le (Nat.pos_of_ne_zero (Finsupp.mem_support_iff.mp hy)) (le_tally hP)

theorem total_eq_zero_iff : total f = 0 ↔ f = 0 := by
  constructor
  · intro h
    ext y
    have := le_tally (f := f) (P := fun _ => True) (y := y) trivial
    rw [← total_eq_tally, h] at this
    exact Nat.le_zero.mp this
  · rintro rfl
    exact total_zero

theorem tally_or (h : ∀ y ∈ f.support, P y → ¬ Q y) : tally (fun y => P y ∨ Q y) f = tally P f + tally Q f := by
  unfold tally Finsupp.sum
  rw [← Finset.sum_add_distrib]
  refine Finset.sum_congr rfl fun y hy => ?_
  by_cases hP : P y
  · simp only [if_pos hP, if_pos (Or.inl hP), if_neg (h y hy hP), Nat.add_zero]
  · by_cases hQ : Q y
    · simp only [if_neg hP, if_pos hQ, if_pos (Or.inr hQ), Nat.zero_add]
    · simp only [if_neg hP, if_neg hQ, if_neg (not_or.mpr ⟨hP, hQ⟩), Nat.add_zero]

theorem total_filter [DecidablePred P] : total (f.filter P) = tally P f := by
  unfold total tally
  rw [Finsupp.sum_filter_index, Finsupp.sum, Finsupp.support_filter, Finset.sum_filter]
  exact Finset.sum_congr rfl fun y _ => by congr

theorem tally_mapDomain (e : β → α) (f : β →₀ ℕ) : tally P (f.mapDomain e) = tally (fun y => P (e y)) f := by
  unfold tally
  apply Finsupp.sum_mapDomain_index
  · intro y
    simp
  · intro y a b
    split_ifs <;> simp

theorem total_mapDomain (e : β → α) (f : β →₀ ℕ) : total (f.mapDomain e) = total f := by
  rw [total_eq_tally, total_eq_tally, tally_mapDomain]

theorem tsub_single_add (f : α →₀ ℕ) (y : α) (c : ℕ) :
    f - Finsupp.single y c + Finsupp.single y (min c (f y)) = f := by
  ext x
  by_cases h : y = x
  · subst h
    simp only [Finsupp.add_apply, Finsupp.tsub_apply, Finsupp.single_eq_same]
    omega
  · simp only [Finsupp.add_apply, Finsupp.tsub_apply, Finsupp.single_eq_of_ne (Ne.symm h),
      Nat.sub_zero, Nat.add_zero]

end ScfChain.Data
