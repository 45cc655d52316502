import ScfChain.Consensus.History
import ScfChain.Data.Tally

/-!
# The preferred ledger, ledger by ledger

What `getPreferred` is for, over the ancestry tree of the supported ledgers and without any compression: from the
genesis ledger on, move to the best supported child as long as its margin over the runner-up exceeds the support
that is not yet committed to a ledger at the sequence number in question.

* `move net largest x s`: the child at `s` the walk moves to from the ledger `x` before it, if any;
* `preferred net largest`: where the walk ends, with its sequence number; none without support.
-/

namespace ScfChain.Consensus.Ancestry

open Data

variable {L ID : Type} [LinearOrder ID] [HistoryLedger L ID] (net : L →₀ ℕ)

/-- The tip support of the ledgers with a sequence number below `max s largest`. -/
noncomputable def uncommitted (largest s : ℕ) : ℕ := tally (fun m => seq m < max s largest) net

/-- The support of the ledger with ID `y` at sequence `s` and of its descendants. -/
noncomputable def branchAt (s : ℕ) (y : ID) : ℕ := tally (fun m => s ≤ seq m ∧ ancestor m s = y) net

/-- The supported children at sequence `s` of the ledger with ID `x`. -/
noncomputable def childrenAt (x : ID) (s : ℕ) : Finset ID :=
  (net.support.filter fun m => s ≤ seq m ∧ ancestor m (s - 1) = x).image fun m => ancestor m s

/-- By branch support, then by ID. -/
noncomputable def rank (s : ℕ) (y : ID) : ℕ ×ₗ ID := toLex (branchAt net s y, y)

/-- The element of greatest rank. -/
noncomputable def best (s : ℕ) (cs : Finset ID) : Option ID := cs.toList.argmax (rank net s)

/-- The margin of `y` over the best of the others. -/
noncomputable def margin (s : ℕ) (cs : Finset ID) (y : ID) : ℕ :=
  match best net s (cs.erase y) with
  | some second => branchAt net s y - branchAt net s second + if second < y then 1 else 0
  | none => branchAt net s y

/-- The child at `s` to move to from the ledger `x`. -/
noncomputable def move (largest : ℕ) (x : ID) (s : ℕ) : Option ID :=
  (best net s (childrenAt net x s)).filter fun y =>
    uncommitted net largest s < margin net s (childrenAt net x s) y

/-- At most `fuel` moves, the first one to a child at `s`. -/
noncomputable def walk (largest : ℕ) : ℕ → ID → ℕ → ℕ × ID
  | 0, x, s => (s - 1, x)
  | fuel + 1, x, s =>
    match move net largest x s with
    | some y => walk largest fuel y (s + 1)
    | none => (s - 1, x)

open scoped Classical in
/-- The sequence number and ID of the preferred ledger. -/
noncomputable def preferred (largest : ℕ) : Option (ℕ × ID) :=
  if net = 0 then none
  else some (walk net largest (net.support.sup seq) (idOf (makeGenesis : L)) 1)

/-! ## The best child -/

variable {net}

theorem rank_injective (s : ℕ) : Function.Injective (rank net s) := fun _ _ h =>
  (Prod.ext_iff.mp (toLex.injective h)).2

variable {s largest : ℕ} {y x : ID}

theorem best_eq_some_iff {cs : Finset ID} :
    best net s cs = some y ↔ y ∈ cs ∧ ∀ z ∈ cs, rank net s z ≤ rank net s y := by
  unfold best
  rw [List.argmax_eq_some_iff]
  simp only [Finset.mem_toList]
  constructor
  · rintro ⟨h, hmax, -⟩
    exact ⟨h, hmax⟩
  · rintro ⟨h, hmax⟩
    refine ⟨h, hmax, fun z hz hle => ?_⟩
    rw [rank_injective s (le_antisymm hle (hmax z hz))]

theorem best_empty (s : ℕ) : best net s (∅ : Finset ID) = none := by
  unfold best
  rw [Finset.toList_empty, List.argmax_nil]

theorem best_mem {cs : Finset ID} (h : best net s cs = some y) : y ∈ cs :=
  (best_eq_some_iff.mp h).1

theorem margin_singleton (s : ℕ) (y : ID) : margin net s {y} y = branchAt net s y := by
  unfold margin
  rw [Finset.erase_singleton, best_empty]

/-! ## The walk -/

theorem mem_childrenAt :
    y ∈ childrenAt net x s ↔ ∃ m, net m ≠ 0 ∧ s ≤ seq m ∧ ancestor m (s - 1) = x ∧ ancestor m s = y := by
  unfold childrenAt
  simp only [Finset.mem_image, Finset.mem_filter, Finsupp.mem_support_iff, and_assoc]

theorem move_of_lt (hb : best net s (childrenAt net x s) = some y)
    (h : uncommitted net largest s < margin net s (childrenAt net x s) y) :
    move net largest x s = some y := by
  unfold move
  rw [hb, Option.filter_some, if_pos (by simpa using h)]

theorem move_of_le (hb : best net s (childrenAt net x s) = some y)
    (h : margin net s (childrenAt net x s) y ≤ uncommitted net largest s) : move net largest x s = none := by
  unfold move
  rw [hb, Option.filter_some, if_neg (by simpa using h)]

theorem move_of_empty (h : childrenAt net x s = ∅) : move net largest x s = none := by
  unfold move
  rw [h, best_empty, Option.filter_none]

theorem le_of_move (h : move net largest x s = some y) : s ≤ net.support.sup seq := by
  unfold move at h
  obtain ⟨hb, -⟩ := Option.filter_eq_some_iff.mp h
  obtain ⟨m, hm, hs, -, -⟩ := mem_childrenAt.mp (best_mem hb)
  exact hs.trans (Finset.le_sup (Finsupp.mem_support_iff.mpr hm))

/-- The walk from `x`, with the first move to a child at `s`, ends at `r`. -/
inductive Ends (net : L →₀ ℕ) (largest : ℕ) : ID → ℕ → ℕ × ID → Prop
  | stop {x : ID} {s : ℕ} : move net largest x s = none → Ends net largest x s (s - 1, x)
  | step {x y : ID} {s : ℕ} {r : ℕ × ID} : move net largest x s = some y → Ends net largest y (s + 1) r →
      Ends net largest x s r

theorem Ends.walk_eq {r : ℕ × ID} (h : Ends net largest x s r) :
    ∀ fuel, net.support.sup seq < fuel + s → walk net largest fuel x s = r := by
  induction h with
  | @stop x s hm =>
    intro fuel _
    cases fuel with
    | zero => rfl
    | succ fuel => rw [walk, hm]
  | @step x y s r hm _ ih =>
    intro fuel hf
    have hle := le_of_move hm
    cases fuel with
    | zero => omega
    | succ fuel =>
      rw [walk, hm]
      exact ih fuel (by omega)

theorem preferred_eq {r : ℕ × ID} (hne : net ≠ 0)
    (h : Ends net largest (idOf (makeGenesis : L)) 1 r) : preferred net largest = some r := by
  unfold preferred
  rw [if_neg hne, h.walk_eq _ (by omega)]

theorem preferred_eq_none_iff (net : L →₀ ℕ) (largest : ℕ) : preferred net largest = none ↔ net = 0 := by
  unfold preferred
  by_cases h : net = 0
  · simp [h]
  · simp [h]

end ScfChain.Consensus.Ancestry
