import Mathlib

/-!
# Finite maps

Maps with finitely many keys are association lists without repeated keys. `totalOf f m` adds `f` over the entries, and a map to
`ℕ` counts: an absent key counts `0`.

* `totalOf_insert`, `totalOf_erase` : how a total changes with one entry.
* `Counts` : what `increment` and `decrement` keep, namely that no key is stored with `0`.
* `mapVals`, `filterVals` : a change of every value, and the entries that satisfy a test.
-/

namespace ScfChain.Data

variable {K V : Type} [DecidableEq K]

abbrev Assoc (K V : Type) := AList fun _ : K => V

/-- The sum of `f` over the entries. -/
def totalOf (f : K → V → ℕ) (m : Assoc K V) : ℕ := (m.entries.map fun e => f e.1 e.2).sum

theorem totalOf_erase (f : K → V → ℕ) (m : Assoc K V) (k : K) : totalOf f m = (m.lookup k).elim 0 (f k) + totalOf f (m.erase k) := by
  cases hlookup : m.lookup k with
  | none =>
    have hmem : k ∉ m.entries.keys := AList.lookup_eq_none.mp hlookup
    simp [totalOf, AList.erase, List.kerase_of_notMem_keys hmem]
  | some v =>
    have hmem : k ∈ m.entries.keys := AList.lookup_isSome.mp (by rw [hlookup]; rfl)
    obtain ⟨v', before, after, hbefore, hentries, herase⟩ := List.exists_of_kerase hmem
    have hv : v' = v := by
      have hv' : v' ∈ m.lookup k := List.mem_dlookup m.nodupKeys (by rw [hentries]; simp)
      rw [hlookup] at hv'
      exact (Option.some.inj hv').symm
    simp only [totalOf, AList.erase, herase, Option.elim]
    rw [hentries, hv]
    simp only [List.map_append, List.map_cons, List.sum_append, List.sum_cons]
    omega

theorem totalOf_insert (f : K → V → ℕ) (m : Assoc K V) (k : K) (v : V) : totalOf f (m.insert k v) = f k v + totalOf f (m.erase k) := by
  simp [totalOf, AList.entries_insert, AList.erase]

omit [DecidableEq K] in
theorem totalOf_empty (f : K → V → ℕ) : totalOf f (∅ : Assoc K V) = 0 := rfl

/-! ## Counts -/

/-- How often `k` is counted. -/
def countOf (m : Assoc K ℕ) (k : K) : ℕ := (m.lookup k).getD 0

def increment (m : Assoc K ℕ) (k : K) : Assoc K ℕ := m.insert k (countOf m k + 1)

def decrement (m : Assoc K ℕ) (k : K) : Assoc K ℕ := if countOf m k ≤ 1 then m.erase k else m.insert k (countOf m k - 1)

/-- No key is stored with `0`. -/
def Counts (m : Assoc K ℕ) : Prop := ∀ k, k ∈ m ↔ 0 < countOf m k

theorem countOf_insert (m : Assoc K ℕ) (k k' : K) (n : ℕ) : countOf (m.insert k n) k' = if k' = k then n else countOf m k' := by
  unfold countOf
  split_ifs with h
  · rw [h, AList.lookup_insert]
    rfl
  · rw [AList.lookup_insert_ne h]

theorem countOf_erase (m : Assoc K ℕ) (k k' : K) : countOf (m.erase k) k' = if k' = k then 0 else countOf m k' := by
  unfold countOf
  split_ifs with h
  · rw [h, AList.lookup_erase]
    rfl
  · rw [AList.lookup_erase_ne h]

theorem countOf_increment (m : Assoc K ℕ) (k k' : K) :
    countOf (increment m k) k' = countOf m k' + if k' = k then 1 else 0 := by
  rw [increment, countOf_insert]
  split_ifs with h
  · rw [h]
  · rfl

theorem countOf_decrement (m : Assoc K ℕ) (k k' : K) :
    countOf (decrement m k) k' = countOf m k' - if k' = k then 1 else 0 := by
  unfold decrement
  split_ifs with hone h
  · rw [countOf_erase, if_pos h, h]
    omega
  · rw [countOf_erase, if_neg h, Nat.sub_zero]
  · rename_i h
    rw [countOf_insert, if_pos h, h]
  · rename_i h
    rw [countOf_insert, if_neg h, Nat.sub_zero]

theorem counts_empty : Counts (∅ : Assoc K ℕ) := fun k => by simp [countOf]

variable {m : Assoc K ℕ}

theorem Counts.insert (h : Counts m) (k : K) {n : ℕ} (hn : 0 < n) : Counts (m.insert k n) := by
  intro k'
  rw [AList.mem_insert, countOf_insert, h k']
  split_ifs with heq
  · simp [heq, hn]
  · simp [heq]

theorem Counts.erase (h : Counts m) (k : K) : Counts (m.erase k) := by
  intro k'
  rw [AList.mem_erase, countOf_erase, h k']
  split_ifs with heq
  · simp [heq]
  · simp [heq]

theorem Counts.increment (h : Counts m) (k : K) : Counts (increment m k) := h.insert k (Nat.succ_pos _)

theorem Counts.decrement (h : Counts m) (k : K) : Counts (decrement m k) := by
  unfold Data.decrement
  split_ifs with hone
  · exact h.erase k
  · exact h.insert k (by omega)

theorem countOf_foldl_decrement (ks : List K) (m : Assoc K ℕ) (k : K) :
    countOf (ks.foldl Data.decrement m) k = countOf m k - ks.count k := by
  induction ks generalizing m with
  | nil => rfl
  | cons k' ks ih =>
    rw [List.foldl_cons, ih, countOf_decrement, List.count_cons]
    by_cases h : k = k'
    · simp [h, Nat.sub_sub, Nat.add_comm]
    · simp [h, Ne.symm h]

theorem Counts.foldl_decrement (h : Counts m) (ks : List K) : Counts (ks.foldl Data.decrement m) := by
  induction ks generalizing m with
  | nil => exact h
  | cons k ks ih => exact ih (h.decrement k)

/-! ## Every entry at once -/

def mapVals {V' : Type} (f : V → V') (m : Assoc K V) : Assoc K V' where
  entries := m.entries.map fun e => ⟨e.1, f e.2⟩
  nodupKeys := by
    have hkeys : (m.entries.map fun e => (⟨e.1, f e.2⟩ : Sigma fun _ : K => V')).keys = m.entries.keys := by
      simp [List.keys, Function.comp_def]
    rw [List.NodupKeys, hkeys]
    exact m.nodupKeys

def filterVals (p : K → V → Bool) (m : Assoc K V) : Assoc K V where
  entries := m.entries.filter fun e => p e.1 e.2
  nodupKeys := m.nodupKeys.sublist List.filter_sublist

@[simp] theorem lookup_mapVals {V' : Type} (f : V → V') (m : Assoc K V) (k : K) : (mapVals f m).lookup k = (m.lookup k).map f := by
  have hmap := List.dlookup_map₂ (l := m.entries) (f := fun _ => f) k
  exact hmap

theorem lookup_filterVals (p : K → V → Bool) (m : Assoc K V) (k : K) {v : V} :
    (filterVals p m).lookup k = some v ↔ m.lookup k = some v ∧ p k v = true := by
  rw [← Option.mem_def, ← Option.mem_def, AList.mem_lookup_iff, AList.mem_lookup_iff]
  exact List.mem_filter

theorem mem_iff_lookup (m : Assoc K V) (k : K) : k ∈ m ↔ ∃ v, m.lookup k = some v := by
  rw [← AList.lookup_isSome, Option.isSome_iff_exists]

end ScfChain.Data
