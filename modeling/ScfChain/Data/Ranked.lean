import Mathlib

/-!
# A ranking of the keys of a map

A partial map `items : κ → Option ν` together with a list of its keys, from the highest value to the lowest.

* `Ranking level items order`: the list holds exactly the keys of the map, each once, by non-increasing level;
* `Ranking.diff`, `Ranking.put`: elements removed from both, and one added to both;
* `after`, `remaining`, `onward`: a cursor in the list, and what is from it on.
-/

namespace ScfChain.Data

variable {κ ν : Type} [DecidableEq κ] {level : ν → ℕ} {items : κ → Option ν} {order : List κ}

/-- The level of a key; of no interest where the map has none. -/
def levelOf (level : ν → ℕ) (items : κ → Option ν) (k : κ) : ℕ := ((items k).map level).getD 0

/-- A key goes behind the keys that are ranked as high. -/
def insertRanked (rank : κ → ℕ) (k : κ) : List κ → List κ
  | [] => [k]
  | x :: xs => if rank k ≤ rank x then x :: insertRanked rank k xs else k :: x :: xs

omit [DecidableEq κ] in
theorem insertRanked_perm (rank : κ → ℕ) (k : κ) (l : List κ) : (insertRanked rank k l).Perm (k :: l) := by
  induction l with
  | nil => exact .rfl
  | cons x xs ih =>
    unfold insertRanked
    split_ifs
    · exact (ih.cons x).trans (.swap k x xs)
    · exact .rfl

omit [DecidableEq κ] in
theorem pairwise_insertRanked (rank : κ → ℕ) (k : κ) {l : List κ} (h : l.Pairwise fun x y => rank y ≤ rank x) :
    (insertRanked rank k l).Pairwise fun x y => rank y ≤ rank x := by
  induction l with
  | nil => exact List.pairwise_singleton _ _
  | cons x xs ih =>
    obtain ⟨hx, hxs⟩ := List.pairwise_cons.mp h
    unfold insertRanked
    split_ifs with hk
    · refine List.pairwise_cons.mpr ⟨?_, ih hxs⟩
      intro y hy
      rcases List.mem_cons.mp ((insertRanked_perm rank k xs).mem_iff.mp hy) with rfl | hy
      · exact hk
      · exact hx y hy
    · refine List.pairwise_cons.mpr ⟨?_, h⟩
      intro y hy
      rcases List.mem_cons.mp hy with rfl | hy
      · omega
      · have := hx y hy
        omega

/-- The list holds exactly the keys of the map, each once, by non-increasing level. -/
structure Ranking (level : ν → ℕ) (items : κ → Option ν) (order : List κ) : Prop where
  nodup : order.Nodup
  mem_iff : ∀ k, k ∈ order ↔ (items k).isSome
  sorted : order.Pairwise fun k k' => levelOf level items k' ≤ levelOf level items k

namespace Ranking

omit [DecidableEq κ] in
theorem empty : Ranking level (fun _ : κ => none) [] := ⟨List.nodup_nil, by simp, List.Pairwise.nil⟩

omit [DecidableEq κ] in
theorem filter (h : Ranking level items order) (p : κ → Bool) :
    Ranking level (fun k => if p k then items k else none) (order.filter p) := by
  refine ⟨h.nodup.filter p, ?_, ?_⟩
  · intro k
    rw [List.mem_filter, h.mem_iff]
    by_cases hk : p k = true <;> simp [hk]
  · refine (h.sorted.filter p).imp_of_mem ?_
    intro k k' hk hk' hle
    rw [List.mem_filter] at hk hk'
    simpa [levelOf, hk.2, hk'.2] using hle

omit [DecidableEq κ] in
theorem diff [BEq κ] [LawfulBEq κ] (h : Ranking level items order) (ks : List κ) [DecidablePred (· ∈ ks)] :
    Ranking level (fun k => if k ∈ ks then none else items k) (order.diff ks) := by
  rw [h.nodup.sdiff_eq_filter]
  convert h.filter (· ∉ ks) using 1
  · funext x
    by_cases hx : x ∈ ks <;> simp [hx]
  · congr!

theorem put (h : Ranking level items order) {k : κ} (hk : items k = none) (v : ν) :
    Ranking level (Function.update items k (some v))
      (insertRanked (levelOf level (Function.update items k (some v))) k order) := by
  have hfresh : k ∉ order := by
    rw [h.mem_iff, hk]
    simp
  have hperm := insertRanked_perm (levelOf level (Function.update items k (some v))) k order
  refine ⟨hperm.nodup_iff.mpr (List.nodup_cons.mpr ⟨hfresh, h.nodup⟩), ?_, ?_⟩
  · intro x
    rw [hperm.mem_iff, List.mem_cons, h.mem_iff]
    by_cases hx : x = k <;> simp [hx]
  · refine pairwise_insertRanked _ k (h.sorted.imp_of_mem ?_)
    intro x y hx hy hle
    have hxk : x ≠ k := fun e => hfresh (e ▸ hx)
    have hyk : y ≠ k := fun e => hfresh (e ▸ hy)
    simpa [levelOf, hxk, hyk] using hle

end Ranking

/-! ## A cursor -/

/-- The key behind the cursor. -/
def after (order : List κ) (k : κ) : Option κ := (order.dropWhile (· ≠ k)).tail.head?

/-- The number of keys from the cursor on. -/
def remaining (order : List κ) (k : κ) : ℕ := (order.dropWhile (· ≠ k)).length

theorem remaining_le (order : List κ) (k : κ) : remaining order k ≤ order.length :=
  (List.dropWhile_sublist _).length_le

theorem remaining_pos {order : List κ} {k : κ} (hk : k ∈ order) : 0 < remaining order k := by
  refine Nat.pos_of_ne_zero fun h => ?_
  have := List.dropWhile_eq_nil_iff.mp (List.length_eq_zero_iff.mp h) k hk
  simp at this

theorem dropWhile_ne_append {before rest : List κ} {k : κ} (h : k ∉ before) :
    (before ++ k :: rest).dropWhile (· ≠ k) = k :: rest := by
  have hbefore : ∀ x ∈ before, decide (x ≠ k) = true := fun x hx => by simpa using ne_of_mem_of_not_mem hx h
  rw [List.dropWhile_append_of_pos hbefore, List.dropWhile_cons_of_neg (by simp)]

theorem remaining_after {order : List κ} {k k' : κ} (hnodup : order.Nodup) (hk : k ∈ order)
    (h : after order k = some k') : k' ∈ order ∧ remaining order k' < remaining order k := by
  obtain ⟨before, rest, rfl⟩ := List.append_of_mem hk
  have hbefore : k ∉ before := fun hmem => (List.nodup_append.mp hnodup).2.2 k hmem k (by simp) rfl
  unfold after at h
  rw [dropWhile_ne_append hbefore] at h
  cases rest with
  | nil => simp at h
  | cons x xs =>
    obtain rfl : x = k' := by simpa using h
    have hsplit : before ++ k :: x :: xs = (before ++ [k]) ++ x :: xs := by simp
    have hx : x ∉ before ++ [k] := by
      rw [hsplit] at hnodup
      exact fun hmem => (List.nodup_append.mp hnodup).2.2 x hmem x (by simp) rfl
    refine ⟨by simp, ?_⟩
    unfold remaining
    rw [dropWhile_ne_append hbefore, hsplit, dropWhile_ne_append hx]
    simp

/-- The keys from the cursor on. -/
def onward (order : List κ) (k : κ) : List κ := order.dropWhile (· ≠ k)

section

variable {k k' k'' x : κ}

theorem exists_onward (hnodup : order.Nodup) (hk : k ∈ order) :
    ∃ before rest, order = before ++ k :: rest ∧ onward order k = k :: rest ∧ after order k = rest.head? := by
  obtain ⟨before, rest, rfl⟩ := List.append_of_mem hk
  have hbefore : k ∉ before := fun hmem => (List.nodup_append.mp hnodup).2.2 k hmem k (by simp) rfl
  refine ⟨before, rest, rfl, dropWhile_ne_append hbefore, ?_⟩
  unfold after
  rw [dropWhile_ne_append hbefore]
  rfl

theorem onward_sublist (order : List κ) (k : κ) : (onward order k).Sublist order := List.dropWhile_sublist _

theorem onward_self (hnodup : order.Nodup) (hk : k ∈ order) : k ∈ onward order k := by
  obtain ⟨before, rest, -, honward, -⟩ := exists_onward hnodup hk
  simp [honward]

theorem onward_of_suffix {before rest : List κ} (hnodup : (before ++ rest).Nodup) (hk : k ∈ rest) :
    onward (before ++ rest) k = onward rest k := by
  have hbefore : ∀ x ∈ before, x ≠ k := fun x hx e => (List.nodup_append.mp hnodup).2.2 x hx k hk e
  unfold onward
  rw [List.dropWhile_append_of_pos]
  simpa using hbefore

section

variable (hnodup : order.Nodup) (hk : k ∈ order)
include hnodup hk

/-- What is from the cursor on, but not at it, is from the next key on. -/
theorem onward_after (h : k' ∈ onward order k) (hne : k' ≠ k) :
    ∃ next, after order k = some next ∧ k' ∈ onward order next := by
  obtain ⟨before, rest, rfl, honward, hafter⟩ := exists_onward hnodup hk
  rw [honward] at h
  have hrest := (List.mem_cons.mp h).resolve_left hne
  cases rest with
  | nil => cases hrest
  | cons y ys =>
    refine ⟨y, hafter, ?_⟩
    rw [List.append_cons] at hnodup ⊢
    rw [onward_of_suffix hnodup (by simp)]
    simpa [onward] using hrest

theorem onward_trans (h : k' ∈ onward order k) (h' : k'' ∈ onward order k') :
    k'' ∈ onward order k := by
  obtain ⟨before, rest, rfl, honward, -⟩ := exists_onward hnodup hk
  rw [honward] at h ⊢
  rw [onward_of_suffix hnodup h] at h'
  exact (onward_sublist _ _).mem h'

theorem onward_total (hk' : k' ∈ order) :
    k' ∈ onward order k ∨ k ∈ onward order k' := by
  obtain ⟨before, rest, rfl, honward, -⟩ := exists_onward hnodup hk
  rcases List.mem_append.mp hk' with hmem | hmem
  · obtain ⟨first, second, rfl⟩ := List.append_of_mem hmem
    right
    have hsplit : (first ++ k' :: second) ++ k :: rest = first ++ (k' :: second ++ k :: rest) := by simp
    rw [hsplit] at hnodup ⊢
    rw [onward_of_suffix hnodup (by simp)]
    simp [onward]
  · left
    rw [honward]
    exact hmem

/-- Another key leaves. -/
theorem onward_filter (hx : x ≠ k) (h : k' ∈ onward order k) (hne : k' ≠ x) :
    k' ∈ onward (order.filter (· ≠ x)) k := by
  obtain ⟨before, rest, rfl, honward, -⟩ := exists_onward hnodup hk
  rw [honward] at h
  have hrest : k' ∈ k :: rest.filter (· ≠ x) := by
    rcases List.mem_cons.mp h with rfl | h
    · simp
    · exact List.mem_cons_of_mem _ (List.mem_filter.mpr ⟨h, by simpa using hne⟩)
  have hnodup' := hnodup.filter (· ≠ x)
  rw [List.filter_append, List.filter_cons_of_pos (by simpa using hx.symm)] at hnodup' ⊢
  rw [onward_of_suffix hnodup' (by simp)]
  simpa [onward] using hrest

end

theorem Ranking.level_le (h : Ranking level items order) (hk : k ∈ order) (h' : k' ∈ onward order k) :
    levelOf level items k' ≤ levelOf level items k := by
  obtain ⟨before, rest, rfl, honward, -⟩ := exists_onward h.nodup hk
  rw [honward] at h'
  rcases List.mem_cons.mp h' with rfl | h'
  · exact le_rfl
  · exact (List.pairwise_cons.mp (List.pairwise_append.mp h.sorted).2.1).1 k' h'

end

end ScfChain.Data
