import Mathlib

/-!
# Loops over a work list

`drain visit stuck fuel stack s` pops a node from the stack, visits it and pushes the nodes that the visit returns, until
the stack is empty or a visit fails. If a visit acts on the state by a list of actions (`here`) and then pushes some
children (`next`), the loop performs the actions of the whole tree, depth first and the last child first (`drain_eq`).
-/

namespace ScfChain.Data

variable {N S E A : Type}

/-- The loop. `visit` returns the nodes it pushed in the order in which it pushed them; `stuck` is the error without fuel. -/
def drain (visit : N → S → Except E (S × List N)) (stuck : E) : ℕ → List N → S → Except E S
  | _, [], s => .ok s
  | 0, _ :: _, _ => .error stuck
  | fuel + 1, n :: stack, s =>
    match visit n s with
    | .error e => .error e
    | .ok (s, pushed) => drain visit stuck fuel (pushed.reverse ++ stack) s

/-- A node whose visit is a list of actions, with the actions of the tree below it. -/
structure Traverses (visit : N → S → Except E (S × List N)) (act : S → A → Except E S) (good : N → Prop) (here : N → List A)
    (next : N → List N) (trace : N → List A) (size : N → ℕ) (n : N) : Prop where
  visit_eq : ∀ s, visit n s = ((here n).foldlM act s).map fun s' => (s', next n)
  good_next : ∀ c ∈ next n, good c
  trace_eq : trace n = here n ++ (next n).reverse.flatMap trace
  size_next : ((next n).map size).sum < size n

section
variable {visit : N → S → Except E (S × List N)} {act : S → A → Except E S} {good : N → Prop} {here : N → List A}
  {next : N → List N} {trace : N → List A} {size : N → ℕ} {stuck : E}

/-- **The loop performs the actions of the trees on the stack.** -/
theorem drain_eq (h : ∀ n, good n → Traverses visit act good here next trace size n) {fuel : ℕ} {stack : List N} {s : S}
    (hgood : ∀ n ∈ stack, good n) (hfuel : (stack.map size).sum ≤ fuel) :
    drain visit stuck fuel stack s = (stack.flatMap trace).foldlM act s := by
  induction fuel generalizing stack s with
  | zero =>
    cases stack with
    | nil => rfl
    | cons n stack =>
      have hpos := (h n (hgood n List.mem_cons_self)).size_next
      rw [List.map_cons, List.sum_cons] at hfuel
      omega
  | succ fuel ih =>
    cases stack with
    | nil => rfl
    | cons n stack =>
      have hn := h n (hgood n List.mem_cons_self)
      have hpos := hn.size_next
      rw [List.map_cons, List.sum_cons] at hfuel
      rw [drain, hn.visit_eq s, List.flatMap_cons, hn.trace_eq, List.append_assoc, List.foldlM_append]
      cases hact : (here n).foldlM act s with
      | error e => rfl
      | ok s' =>
        have hgood' : ∀ c ∈ (next n).reverse ++ stack, good c := by
          intro c hc
          rcases List.mem_append.mp hc with hc | hc
          · exact hn.good_next c (List.mem_reverse.mp hc)
          · exact hgood c (List.mem_cons_of_mem n hc)
        have hsum : (((next n).reverse ++ stack).map size).sum ≤ fuel := by
          rw [List.map_append, List.sum_append, List.map_reverse, List.sum_reverse]
          omega
        have hloop := ih (s := s') hgood' hsum
        rw [List.flatMap_append] at hloop
        exact hloop

theorem drain_singleton (h : ∀ n, good n → Traverses visit act good here next trace size n) {n : N} (hn : good n) (s : S) :
    drain visit stuck (size n) [n] s = (trace n).foldlM act s := by
  have hgood : ∀ c ∈ [n], good c := by
    intro c hc
    rwa [List.mem_singleton.mp hc]
  rw [drain_eq h hgood (by simp), List.flatMap_singleton]

/-- A node below which nothing is to be visited. -/
theorem Traverses.once {n : N} (hvisit : ∀ s, visit n s = ((trace n).foldlM act s).map fun s' => (s', []))
    (hhere : here n = trace n) (hnext : next n = []) (hsize : 0 < size n) :
    Traverses visit act good here next trace size n := by
  refine ⟨fun s => ?_, ?_, ?_, ?_⟩
  · rw [hvisit, hhere, hnext]
  · rw [hnext]
    exact fun c hc => absurd hc List.not_mem_nil
  · rw [hhere, hnext]
    exact (List.append_nil _).symm
  · rw [hnext]
    exact hsize

theorem foldlM_singleton (act : S → A → Except E S) (s : S) (a : A) : [a].foldlM act s = act s a := by
  rw [List.foldlM_cons]
  exact bind_pure _

end

theorem foldlM_push {I : Type} {step : S × List N → I → Except E (S × List N)} {act : S → A → Except E S} {here : I → List A}
    {next : I → List N} (l : List I) (hstep : ∀ i ∈ l, ∀ s pushed,
      step (s, pushed) i = ((here i).foldlM act s).map fun s' => (s', pushed ++ next i)) (s : S) (pushed : List N) :
    l.foldlM step (s, pushed) = ((l.flatMap here).foldlM act s).map fun s' => (s', pushed ++ l.flatMap next) := by
  induction l generalizing s pushed with
  | nil =>
    rw [List.flatMap_nil, List.flatMap_nil, List.append_nil]
    rfl
  | cons i l ih =>
    rw [List.foldlM_cons, hstep i List.mem_cons_self, List.flatMap_cons, List.flatMap_cons, List.foldlM_append]
    cases hact : (here i).foldlM act s with
    | error e => rfl
    | ok s' =>
      have htail := ih (fun j hj => hstep j (List.mem_cons_of_mem i hj)) s' (pushed ++ next i)
      rw [List.append_assoc] at htail
      exact htail

theorem perm_flatMap_push {I : Type} (here : I → List A) (next : I → List N) (trace : N → List A) (l : List I) :
    (l.flatMap here ++ (l.flatMap next).reverse.flatMap trace).Perm (l.flatMap fun i => here i ++ (next i).flatMap trace) := by
  have hreverse : ((l.flatMap next).reverse.flatMap trace).Perm ((l.flatMap next).flatMap trace) :=
    (List.reverse_perm _).flatMap_right trace
  refine (hreverse.append_left _).trans ?_
  clear hreverse
  induction l with
  | nil => exact .refl _
  | cons i l ih =>
    simp only [List.flatMap_cons, List.flatMap_append, List.append_assoc]
    refine .append_left _ (.trans ?_ (ih.append_left _))
    exact (List.perm_append_comm_assoc _ _ _)

end ScfChain.Data
