import Mathlib

/-!
# Radix trees

A `Radix ι α` holds items `α` at its leaves; a node at depth `d` has one child for every digit, and the items below
the child `i` have the digit `i` at `d`.

* `Canon digit d t`: the tree is sorted by digits from depth `d` on, and every node in it has at least two items below.
* `Canon.unique`: such a tree is determined by its items.
* `Sorted`: the same for the children of a node that may have fewer items below, such as a root, with what replacing
  one child does (`Sorted.update`, `Sorted.mem_update`).
-/

namespace ScfChain.Data

theorem eq_of_div_mod {b : ℕ} : ∀ {n x y : ℕ}, x < b ^ n → y < b ^ n → (∀ i < n, x / b ^ i % b = y / b ^ i % b) → x = y
  | 0, x, y, hx, hy, _ => by
    rw [pow_zero] at hx hy
    omega
  | n + 1, x, y, hx, hy, h => by
    have hlt : ∀ {z}, z < b ^ (n + 1) → z / b < b ^ n := fun hz =>
      Nat.div_lt_of_lt_mul (by rwa [pow_succ, Nat.mul_comm] at hz)
    have hdiv : x / b = y / b := eq_of_div_mod (hlt hx) (hlt hy) fun i hi => by
      have hi' := h (i + 1) (by omega)
      rwa [pow_succ, Nat.mul_comm, ← Nat.div_div_eq_div_mul, ← Nat.div_div_eq_div_mul] at hi'
    have hmod : x % b = y % b := by simpa using h 0 (by omega)
    rw [← Nat.div_add_mod x b, ← Nat.div_add_mod y b, hdiv, hmod]

inductive Radix (ι α : Type) : Type
  | empty
  | leaf (a : α)
  | node (c : ι → Radix ι α)

namespace Radix

variable {ι α : Type}

def isEmpty : Radix ι α → Bool
  | empty => true
  | _ => false

/-- The item `a` is at a leaf of the tree. -/
inductive Mem (a : α) : Radix ι α → Prop
  | leaf : Mem a (leaf a)
  | node {c : ι → Radix ι α} (i : ι) : Mem a (c i) → Mem a (node c)

variable {a : α} {c : ι → Radix ι α} {d : ℕ} {t : Radix ι α}

theorem not_mem_empty : ¬ Mem a (empty : Radix ι α) := fun h => by cases h

theorem mem_leaf_iff {b : α} : Mem a (leaf b : Radix ι α) ↔ a = b :=
  ⟨fun h => by cases h; rfl, fun h => h ▸ .leaf⟩

theorem mem_node_iff : Mem a (node c) ↔ ∃ i, Mem a (c i) :=
  ⟨fun h => by cases h with | node i h => exact ⟨i, h⟩, fun ⟨i, h⟩ => .node i h⟩

variable (digit : ℕ → α → ι)

/-- Sorted by digits, with at least two items below every node. -/
inductive Canon : ℕ → Radix ι α → Prop
  | empty (d : ℕ) : Canon d empty
  | leaf (d : ℕ) (a : α) : Canon d (leaf a)
  | node {d : ℕ} {c : ι → Radix ι α} : (∀ i, Canon (d + 1) (c i)) → (∀ i a, Mem a (c i) → digit d a = i) →
      (∃ a b, Mem a (node c) ∧ Mem b (node c) ∧ a ≠ b) → Canon d (node c)

/-- The children of a node at depth `d`. -/
structure Sorted (d : ℕ) (c : ι → Radix ι α) : Prop where
  canon : ∀ i, Canon digit (d + 1) (c i)
  digit_eq : ∀ i a, Mem a (c i) → digit d a = i

variable {digit}

theorem Canon.sorted (h : Canon digit d (.node c)) : Sorted digit d c := by
  cases h with
  | node hc hd _ => exact ⟨hc, hd⟩

theorem Canon.two (h : Canon digit d (.node c)) : ∃ a b, Mem a (.node c) ∧ Mem b (.node c) ∧ a ≠ b := by
  cases h with
  | node _ _ h => exact h

theorem Sorted.canon_node (h : Sorted digit d c)
    (h2 : ∃ a b, Mem a (.node c) ∧ Mem b (.node c) ∧ a ≠ b) : Canon digit d (.node c) :=
  .node h.canon h.digit_eq h2

theorem Sorted.mem_iff (h : Sorted digit d c) {i : ι} : Mem a (c i) ↔ Mem a (.node c) ∧ digit d a = i := by
  constructor
  · intro ha
    exact ⟨.node i ha, h.digit_eq i a ha⟩
  · rintro ⟨ha, rfl⟩
    obtain ⟨j, hj⟩ := mem_node_iff.mp ha
    rwa [h.digit_eq j a hj]

/-! ## Uniqueness -/

theorem eq_empty_of_not_mem (h : Canon digit d t) (hn : ∀ a, ¬ Mem a t) : t = empty := by
  cases h with
  | empty => rfl
  | leaf _ a => exact absurd .leaf (hn a)
  | node _ _ h2 =>
    obtain ⟨a, -, ha, -⟩ := h2
    exact absurd ha (hn a)

theorem Canon.eq_leaf (h : Canon digit d t) {x : α} (hx : ∀ a, Mem a t ↔ a = x) : t = .leaf x := by
  cases h with
  | empty => exact absurd ((hx x).mpr rfl) not_mem_empty
  | leaf _ a => rw [(hx a).mp .leaf]
  | node _ _ h2 =>
    obtain ⟨a, b, ha, hb, hab⟩ := h2
    exact absurd (((hx a).mp ha).trans ((hx b).mp hb).symm) hab

/-- **A canonical tree is determined by its items.** -/
theorem Canon.unique {t' : Radix ι α} (h : Canon digit d t) (h' : Canon digit d t')
    (hm : ∀ a, Mem a t ↔ Mem a t') : t = t' := by
  induction h generalizing t' with
  | empty d => exact (eq_empty_of_not_mem h' fun a ha => not_mem_empty ((hm a).mpr ha)).symm
  | leaf d x => exact (h'.eq_leaf fun a => (hm a).symm.trans mem_leaf_iff).symm
  | @node d c hc hdig h2 ih =>
    obtain ⟨a, b, ha, hb, hab⟩ := h2
    -- two items force a node on the other side as well
    cases h' with
    | empty => exact absurd ((hm a).mp ha) not_mem_empty
    | leaf _ y =>
      exact absurd ((mem_leaf_iff.mp ((hm a).mp ha)).trans (mem_leaf_iff.mp ((hm b).mp hb)).symm) hab
    | @node _ c' hc' hdig' _ =>
      congr 1
      funext i
      refine ih i (hc' i) fun x => ?_
      rw [(Sorted.mk hc hdig).mem_iff, (Sorted.mk hc' hdig').mem_iff, hm x]

theorem Sorted.unique {c' : ι → Radix ι α} (h : Sorted digit d c) (h' : Sorted digit d c')
    (hm : ∀ a, Mem a (.node c) ↔ Mem a (.node c')) : c = c' := by
  funext i
  refine (h.canon i).unique (h'.canon i) fun x => ?_
  rw [h.mem_iff, h'.mem_iff, hm x]

theorem Canon.eq_of_digits (h : Canon digit d t) {b : α} (ha : Mem a t) (hb : Mem b t)
    (hd : ∀ e, digit e a = digit e b) : a = b := by
  induction h with
  | empty => exact absurd ha not_mem_empty
  | leaf _ x => exact (mem_leaf_iff.mp ha).trans (mem_leaf_iff.mp hb).symm
  | @node d c hc hdig _ ih =>
    have hs : Sorted digit d c := ⟨hc, hdig⟩
    exact ih (digit d a) (hs.mem_iff.mpr ⟨ha, rfl⟩) (hs.mem_iff.mpr ⟨hb, (hd d).symm⟩)

/-! ## Replacing a child -/

theorem sorted_empty (d : ℕ) : Sorted digit d fun _ => (empty : Radix ι α) :=
  ⟨fun _ => .empty _, fun _ _ h => absurd h not_mem_empty⟩

section Update

variable [DecidableEq ι]

variable {i : ι} {t : Radix ι α}

theorem Sorted.update {d : ℕ} {c : ι → Radix ι α} (h : Sorted digit d c) (ht : Canon digit (d + 1) t)
    (hd : ∀ a, Mem a t → digit d a = i) :
    Sorted digit d (Function.update c i t) := by
  constructor
  · intro j
    by_cases hj : j = i
    · rw [hj, Function.update_self]
      exact ht
    · rw [Function.update_of_ne hj]
      exact h.canon j
  · intro j a ha
    by_cases hj : j = i
    · rw [hj, Function.update_self] at ha
      rw [hj]
      exact hd a ha
    · rw [Function.update_of_ne hj] at ha
      exact h.digit_eq j a ha

theorem Sorted.mem_update {d : ℕ} {c : ι → Radix ι α} (h : Sorted digit d c) {a : α} :
    Mem a (.node (Function.update c i t)) ↔ Mem a t ∨ Mem a (.node c) ∧ digit d a ≠ i := by
  rw [mem_node_iff]
  constructor
  · rintro ⟨j, hj⟩
    by_cases hji : j = i
    · rw [hji, Function.update_self] at hj
      exact Or.inl hj
    · rw [Function.update_of_ne hji] at hj
      exact Or.inr ⟨.node j hj, by rwa [h.digit_eq j a hj]⟩
  · rintro (ha | ⟨ha, hne⟩)
    · exact ⟨i, by rwa [Function.update_self]⟩
    · exact ⟨digit d a, by rw [Function.update_of_ne hne]; exact h.mem_iff.mpr ⟨ha, rfl⟩⟩

theorem mem_update_empty {a : α} : Mem a (.node (Function.update (fun _ => empty) i t)) ↔ Mem a t := by
  have hsorted : Sorted (fun _ _ => i) 0 fun _ => (empty : Radix ι α) := sorted_empty 0
  rw [hsorted.mem_update]
  simp

end Update

end Radix

end ScfChain.Data
