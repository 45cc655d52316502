import Mathlib

/-!
# Runs of a transition relation

`Steps step s es s'`: the steps of the events `es`, one after the other, lead from `s` to `s'`.

* `Steps.invariant`: what every step keeps, a run keeps.
-/

namespace ScfChain.Data

variable {ε σ : Type} {step : ε → σ → σ → Prop} {s s' : σ} {es : List ε}

inductive Steps (step : ε → σ → σ → Prop) (s : σ) : List ε → σ → Prop
  | nil : Steps step s [] s
  | snoc {es : List ε} {e : ε} {s₁ s₂ : σ} : Steps step s es s₁ → step e s₁ s₂ → Steps step s (es ++ [e]) s₂

theorem Steps.single {e : ε} (h : step e s s') : Steps step s [e] s' := .snoc .nil h

theorem Steps.append {es' : List ε} {s'' : σ} (h : Steps step s es s') (h' : Steps step s' es' s'') :
    Steps step s (es ++ es') s'' := by
  induction h' with
  | nil =>
    rw [List.append_nil]
    exact h
  | snoc _ hs ih =>
    rw [← List.append_assoc]
    exact .snoc ih hs

theorem Steps.invariant {inv : σ → Prop} (h : Steps step s es s') (h₀ : inv s)
    (hstep : ∀ e ∈ es, ∀ s s', inv s → step e s s' → inv s') : inv s' := by
  induction h with
  | nil => exact h₀
  | snoc hrun hs ih =>
    exact hstep _ (List.mem_append_right _ (List.mem_singleton_self _)) _ _
      (ih fun e he => hstep e (List.mem_append_left _ he)) hs

end ScfChain.Data
