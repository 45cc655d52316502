import Mathlib

/-!
# Contents in ascending order

A content is a partial map from keys to values. `Lists l c` says that the list `l` has the entries of `c` in ascending
order of their keys.

* `above key c` is what `c` has above `key`; `upperBound` leaves of a list what is above a key.
* `Least c k v`: the entry with the least key. The rest of a list after it lists `above k c` (`Lists.tail`).
* `IsSucc S r`: `r` is the least key of `S`, if it has one.
-/

namespace ScfChain.Data

variable {K V : Type} [LinearOrder K] {c : K → Option V} {l : List (K × V)} {k key : K} {v : V}

/-- The entries of `c`, in ascending order. -/
structure Lists (l : List (K × V)) (c : K → Option V) : Prop where
  ascending : l.Pairwise fun a b => a.1 < b.1
  mem : ∀ k v, (k, v) ∈ l ↔ c k = some v

/-- What is above a key. -/
def above (key : K) (c : K → Option V) : K → Option V := fun k => if key < k then c k else none

/-- The entry with the least key. -/
structure Least (c : K → Option V) (k : K) (v : V) : Prop where
  entry : c k = some v
  le : ∀ k', c k' ≠ none → k ≤ k'

/-- The entries from the first one with a key above `key` on. -/
def upperBound (key : K) (l : List (K × V)) : List (K × V) := l.dropWhile fun e => e.1 ≤ key

theorem above_eq_some_iff : above key c k = some v ↔ key < k ∧ c k = some v := by
  unfold above
  split_ifs with h
  · simp [h]
  · simp [h]

theorem above_ne_none_iff : above key c k ≠ none ↔ key < k ∧ c k ≠ none := by
  unfold above
  split_ifs with h
  · simp [h]
  · simp [h]

theorem above_of_lt (h : key < k) : above key c k = c k := if_pos h

theorem above_of_le (h : k ≤ key) : above key c k = none := if_neg (not_lt.mpr h)

theorem above_eq_self (h : ∀ k, c k ≠ none → key < k) : above key c = c := by
  funext k
  by_cases hk : key < k
  · exact above_of_lt hk
  · rw [above_of_le (not_lt.mp hk)]
    by_contra hne
    exact hk (h k (Ne.symm hne))

theorem Least.eq {k' : K} {v' : V} (h : Least c k v) (h' : Least c k' v') : k = k' ∧ v = v' := by
  have hk : k = k' := by
    apply le_antisymm
    · exact h.le k' (by rw [h'.entry]; exact Option.some_ne_none v')
    · exact h'.le k (by rw [h.entry]; exact Option.some_ne_none v)
  subst hk
  exact ⟨rfl, Option.some.inj (h.entry.symm.trans h'.entry)⟩

theorem Lists.nil_iff (h : Lists l c) : l = [] ↔ ∀ k, c k = none := by
  constructor
  · rintro rfl k
    cases hk : c k with
    | none => rfl
    | some v => exact absurd ((h.mem k v).mpr hk) List.not_mem_nil
  · intro hnone
    refine List.eq_nil_iff_forall_not_mem.mpr fun e he => ?_
    have hsome := (h.mem e.1 e.2).mp he
    rw [hnone] at hsome
    cases hsome

theorem Lists.least (h : Lists ((k, v) :: l) c) : Least c k v := by
  refine ⟨(h.mem k v).mp List.mem_cons_self, fun k' hk' => ?_⟩
  obtain ⟨v', hv'⟩ := Option.ne_none_iff_exists'.mp hk'
  rcases List.mem_cons.mp ((h.mem k' v').mpr hv') with heq | hmem
  · exact (congrArg Prod.fst heq).ge
  · exact (List.rel_of_pairwise_cons h.ascending hmem).le

theorem Lists.tail (h : Lists ((k, v) :: l) c) : Lists l (above k c) := by
  refine ⟨h.ascending.of_cons, fun k' v' => ?_⟩
  rw [above_eq_some_iff, ← h.mem]
  constructor
  · intro hmem
    exact ⟨List.rel_of_pairwise_cons h.ascending hmem, List.mem_cons_of_mem _ hmem⟩
  · rintro ⟨hlt, hmem⟩
    rcases List.mem_cons.mp hmem with heq | hmem
    · exact absurd (congrArg Prod.fst heq) hlt.ne'
    · exact hmem

theorem Lists.upperBound (h : Lists l c) : Lists (upperBound key l) (above key c) := by
  induction l generalizing c with
  | nil =>
    refine ⟨List.Pairwise.nil, fun k v => ?_⟩
    rw [above_eq_some_iff, ← h.mem]
    simp [Data.upperBound]
  | cons e l ih =>
    obtain ⟨k, v⟩ := e
    unfold Data.upperBound
    by_cases hk : k ≤ key
    · rw [List.dropWhile_cons_of_pos (by simpa using hk)]
      have hrest := ih h.tail
      have hsame : above key (above k c) = above key c := by
        funext k'
        by_cases hk' : key < k'
        · rw [above_of_lt hk', above_of_lt hk', above_of_lt (hk.trans_lt hk')]
        · rw [above_of_le (not_lt.mp hk'), above_of_le (not_lt.mp hk')]
      rwa [hsame] at hrest
    · rw [List.dropWhile_cons_of_neg (by simpa using hk), above_eq_self]
      · exact h
      · exact fun k' hk' => (not_le.mp hk).trans_le (h.least.le k' hk')

theorem Lists.finite (h : Lists l c) : {k | c k ≠ none}.Finite := by
  refine (l.map Prod.fst).toFinset.finite_toSet.subset fun k hk => ?_
  obtain ⟨v, hv⟩ := Option.ne_none_iff_exists'.mp hk
  exact List.mem_toFinset.mpr (List.mem_map.mpr ⟨(k, v), (h.mem k v).mpr hv, rfl⟩)

/-- Finitely many entries can be listed. -/
theorem exists_lists (h : {k | c k ≠ none}.Finite) : ∃ l, Lists l c := by
  refine ⟨h.toFinset.sort.filterMap fun k => (c k).map fun v => (k, v), ?_, fun k v => ?_⟩
  · refine h.toFinset.sortedLT_sort.pairwise.filterMap _ fun a b hab x hx y hy => ?_
    obtain ⟨v, -, rfl⟩ := Option.map_eq_some_iff.mp hx
    obtain ⟨w, -, rfl⟩ := Option.map_eq_some_iff.mp hy
    exact hab
  · rw [List.mem_filterMap]
    constructor
    · rintro ⟨k', -, hk'⟩
      obtain ⟨w, hw, heq⟩ := Option.map_eq_some_iff.mp hk'
      cases heq
      exact hw
    · intro hv
      refine ⟨k, ?_, by rw [hv]; rfl⟩
      rw [Finset.mem_sort, Set.Finite.mem_toFinset]
      exact fun hnone => Option.some_ne_none v (hv.symm.trans hnone)

/-- The least element of a set, if it has one. -/
def IsSucc (S : Set K) : Option K → Prop
  | some k => IsLeast S k
  | none => S = ∅

/-- The lower of two keys. -/
def lowerOf (a b : Option K) : Option K :=
  match b with
  | none => a
  | some k => if a.all (k < ·) then some k else a

theorem IsSucc.union {A B : Set K} {a b : Option K} (ha : IsSucc A a) (hb : IsSucc B b) : IsSucc (A ∪ B) (lowerOf a b) := by
  cases b with
  | none =>
    rw [show B = ∅ from hb, Set.union_empty]
    exact ha
  | some k =>
    cases a with
    | none =>
      rw [show A = ∅ from ha, Set.empty_union]
      exact hb
    | some k' =>
      have hmin := IsLeast.union ha hb
      unfold lowerOf
      simp only [Option.all_some, decide_eq_true_eq]
      split_ifs with hlt
      · rwa [min_eq_right hlt.le] at hmin
      · rwa [min_eq_left (not_lt.mp hlt)] at hmin

theorem IsSucc.below {S : Set K} {r : Option K} (h : IsSucc S r) (last : Option K) :
    IsSucc {k ∈ S | ∀ l ∈ last, k < l} (r.filter fun k => last.all (k < ·)) := by
  cases r with
  | none =>
    rw [show S = ∅ from h]
    exact Set.eq_empty_of_forall_notMem fun k hk => hk.1
  | some k =>
    have hiff : last.all (k < ·) = true ↔ ∀ l ∈ last, k < l := by
      cases last with
      | none => simp
      | some l => simp
    rw [Option.filter_some]
    split_ifs with hlast
    · exact ⟨⟨h.1, hiff.mp hlast⟩, fun k' hk' => h.2 hk'.1⟩
    · refine Set.eq_empty_of_forall_notMem fun k' hk' => hlast (hiff.mpr fun l hl => ?_)
      exact (h.2 hk'.1).trans_lt (hk'.2 l hl)

/-- The first entry of a list with a property has the least key of such entries. -/
theorem Lists.isSucc_find (h : Lists l c) (p : V → Bool) :
    IsSucc {k | ∃ v, c k = some v ∧ p v = true} ((l.find? fun e => p e.2).map Prod.fst) := by
  induction l generalizing c with
  | nil =>
    refine Set.eq_empty_of_forall_notMem ?_
    rintro k ⟨v, hv, -⟩
    exact List.not_mem_nil ((h.mem k v).mpr hv)
  | cons e l ih =>
    obtain ⟨k, v⟩ := e
    by_cases hp : p v = true
    · rw [List.find?_cons_of_pos (p := fun e : K × V => p e.2) hp]
      refine ⟨⟨v, h.least.entry, hp⟩, ?_⟩
      rintro k' ⟨v', hv', -⟩
      exact h.least.le k' (by rw [hv']; exact Option.some_ne_none v')
    · rw [List.find?_cons_of_neg (p := fun e : K × V => p e.2) hp]
      have hrest := ih h.tail
      have hsame : {k' | ∃ v', above k c k' = some v' ∧ p v' = true} = {k' | ∃ v', c k' = some v' ∧ p v' = true} := by
        ext k'
        constructor
        · rintro ⟨v', hv', hpv'⟩
          exact ⟨v', (above_eq_some_iff.mp hv').2, hpv'⟩
        · rintro ⟨v', hv', hpv'⟩
          refine ⟨v', above_eq_some_iff.mpr ⟨?_, hv'⟩, hpv'⟩
          refine lt_of_le_of_ne (h.least.le k' (by rw [hv']; exact Option.some_ne_none v')) ?_
          rintro rfl
          cases h.least.entry.symm.trans hv'
          exact hp hpv'
      rwa [hsame] at hrest

/-- The keys of `c` above `key` and below `last`. -/
def between (c : K → Option V) (key : K) (last : Option K) : Set K := {k | c k ≠ none ∧ key < k ∧ ∀ l ∈ last, k < l}

end ScfChain.Data
