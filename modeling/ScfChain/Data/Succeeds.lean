import Mathlib

/-!
# Programs that may fail

`Spec T x P`: what `x` returns satisfies `P`, and it does return if `T` holds. `Spec.bind` is the rule of composition.
-/

namespace ScfChain.Data

variable {σ ε α β : Type} {m : StateT σ (Except ε) α} {k : α → StateT σ (Except ε) β} {s : σ} {a : α}

theorem ok_bind (a : α) (f : α → Except ε β) : (Except.ok a >>= f) = f a := rfl

theorem bind_ok {x : Except ε α} {f : α → Except ε β} {b : β} : (x >>= f) = .ok b ↔ ∃ a, x = .ok a ∧ f a = .ok b := by
  cases x with
  | error e => simp [Bind.bind, Except.bind]
  | ok a => simp [Bind.bind, Except.bind]

theorem bind_run {r : β × σ} : (m >>= k) s = .ok r ↔ ∃ a s', m s = .ok (a, s') ∧ k a s' = .ok r := by
  change (m s >>= fun p => k p.1 p.2) = _ ↔ _
  cases m s with
  | error e => exact ⟨nofun, fun ⟨_, _, h, _⟩ => nomatch h⟩
  | ok p => exact ⟨fun h => ⟨p.1, p.2, rfl, h⟩, fun ⟨_, _, h, h'⟩ => by cases h; exact h'⟩

theorem lift_run {x : Except ε α} {s' : σ} : (liftM x : StateT σ (Except ε) α) s = .ok (a, s') ↔ x = .ok a ∧ s = s' := by
  constructor
  · intro hrun
    cases x with
    | error e => cases hrun
    | ok b =>
      cases hrun
      exact ⟨rfl, rfl⟩
  · rintro ⟨rfl, rfl⟩
    rfl

theorem toOption_eq_some {x : Except ε α} : x.toOption = some a ↔ x = .ok a := by
  cases x with
  | error e => simp [Except.toOption]
  | ok b => simp [Except.toOption]

section Spec

variable {T : Prop} {x : Except ε α} {f : α → Except ε β} {A : α → Prop} {B : β → Prop}

/-- What `x` returns satisfies `A`, and it returns if `T` holds. -/
structure Spec (T : Prop) (x : Except ε α) (A : α → Prop) : Prop where
  post : ∀ a, x = .ok a → A a
  total : T → ∃ a, x = .ok a

theorem Spec.ok (h : A a) : Spec T (.ok a : Except ε α) A := ⟨fun _ he => Except.ok.inj he ▸ h, fun _ => ⟨a, rfl⟩⟩

theorem Spec.error {e : ε} (h : ¬ T) : Spec T (.error e : Except ε α) A := by
  refine ⟨fun a he => ?_, fun ht => absurd ht h⟩
  cases he

theorem Spec.bind (hx : Spec T x A) (hf : ∀ a, A a → Spec T (f a) B) : Spec T (x >>= f) B := by
  refine ⟨fun b hb => ?_, fun ht => ?_⟩
  · obtain ⟨a, ha, hb⟩ := bind_ok.mp hb
    exact (hf a (hx.post a ha)).post b hb
  · obtain ⟨a, ha⟩ := hx.total ht
    rw [ha, ok_bind]
    exact (hf a (hx.post a ha)).total ht

theorem Spec.mono {A' : α → Prop} (hx : Spec T x A) (h : ∀ a, A a → A' a) : Spec T x A' :=
  ⟨fun a ha => h a (hx.post a ha), hx.total⟩

theorem Spec.foldlM {γ : Type} {f : α → γ → Except ε α} (l : List γ) (h : A a)
    (hf : ∀ a, ∀ c ∈ l, A a → Spec T (f a c) A) : Spec T (l.foldlM f a) A := by
  induction l generalizing a with
  | nil => exact .ok h
  | cons c l ih =>
    rw [List.foldlM_cons]
    exact (hf a c (by simp) h).bind fun a' h' => ih h' fun a d hd => hf a d (by simp [hd])

end Spec

end ScfChain.Data
