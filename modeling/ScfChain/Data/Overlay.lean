import ScfChain.Data.Succeeds

/-!
# Overlays

A finite map of items over a content: where there is an item the overlay shows what the item shows, elsewhere what is
below.

* `overlay_insert`, `overlay_erase`: what changing one item does.
* `AllFit`: every item goes with what is below it; kept by inserting an item that does and by erasing.
* `applyAll_spec`: acting out the items one after the other on what is below gives it the content of the overlay, and
  no action fails if none fails by itself.
-/

set_option linter.unusedSectionVars false

namespace ScfChain.Data

open Std

variable {K V E : Type} [Ord K] [TransOrd K] [LawfulEqOrd K] [DecidableEq K]

theorem getElem?_insert_eq {m : ExtTreeMap K E compare} {key k : K} {e : E} :
    (m.insert key e)[k]? = if k = key then some e else m[k]? := by
  rw [ExtTreeMap.getElem?_insert]
  simp only [LawfulEqOrd.compare_eq_iff_eq, eq_comm (a := key)]

theorem getElem?_erase_eq {m : ExtTreeMap K E compare} {key k : K} :
    (m.erase key)[k]? = if k = key then none else m[k]? := by
  rw [ExtTreeMap.getElem?_erase]
  simp only [LawfulEqOrd.compare_eq_iff_eq, eq_comm (a := key)]

/-- What the items show over `below`. -/
def overlay (shown : E → Option V) (items : ExtTreeMap K E compare) (below : K → Option V) : K → Option V :=
  fun k => (items[k]?).elim (below k) shown

/-- Every item goes with what is below it. -/
def AllFit (fits : Option V → E → Prop) (items : ExtTreeMap K E compare) (below : K → Option V) : Prop :=
  ∀ k e, items[k]? = some e → fits (below k) e

section

variable {shown : E → Option V} {fits : Option V → E → Prop} {items : ExtTreeMap K E compare} {below : K → Option V}

theorem overlay_of_some {k : K} {e : E} (h : items[k]? = some e) : overlay shown items below k = shown e := by
  rw [overlay, h]
  rfl

theorem overlay_of_none {k : K} (h : items[k]? = none) : overlay shown items below k = below k := by
  rw [overlay, h]
  rfl

theorem overlay_empty : overlay shown ∅ below = below := by
  funext k
  exact overlay_of_none ExtTreeMap.getElem?_empty

theorem overlay_insert (key : K) (e : E) :
    overlay shown (items.insert key e) below = Function.update (overlay shown items below) key (shown e) := by
  funext k
  rw [overlay, getElem?_insert_eq, Function.update_apply]
  split <;> rfl

theorem overlay_erase (key : K) :
    overlay shown (items.erase key) below = Function.update (overlay shown items below) key (below key) := by
  funext k
  rw [overlay, getElem?_erase_eq, Function.update_apply]
  split
  · next h => rw [h]; rfl
  · rfl

theorem allFit_empty : AllFit fits ∅ below := by
  intro k e h
  rw [ExtTreeMap.getElem?_empty] at h
  cases h

theorem AllFit.insert (h : AllFit fits items below) {key : K} {e : E} (he : fits (below key) e) :
    AllFit fits (items.insert key e) below := by
  intro k e' hk
  rw [getElem?_insert_eq] at hk
  split at hk
  · next heq =>
    cases hk
    rwa [heq]
  · exact h k e' hk

theorem AllFit.erase (h : AllFit fits items below) (key : K) : AllFit fits (items.erase key) below := by
  intro k e' hk
  rw [getElem?_erase_eq] at hk
  split at hk
  · cases hk
  · exact h k e' hk

end

/-! ## Acting out the items -/

section

variable {σ : Type} {shown : E → Option V} {fits : Option V → E → Prop} {content : σ → K → Option V} {P : σ → Prop}
  {act : σ → K × E → Except String σ} {T : Prop}

theorem foldlM_act (hact : ∀ s k e, P s → fits (content s k) e →
      Spec T (act s (k, e)) fun s' => P s' ∧ content s' = Function.update (content s) k (shown e)) :
    ∀ {l : List (K × E)} {s : σ}, l.Pairwise (fun a b => a.1 ≠ b.1) → P s → (∀ a ∈ l, fits (content s a.1) a.2) →
      Spec T (l.foldlM act s) fun s' =>
        P s' ∧ (∀ a ∈ l, content s' a.1 = shown a.2) ∧ ∀ k, (∀ a ∈ l, a.1 ≠ k) → content s' k = content s k
  | [], s, _, hP, _ => .ok ⟨hP, nofun, fun _ _ => rfl⟩
  | (k, e) :: l, s, hpw, hP, hfit => by
    rw [List.foldlM_cons]
    obtain ⟨hk, hl⟩ := List.pairwise_cons.mp hpw
    refine (hact s k e hP (hfit _ List.mem_cons_self)).bind fun s₁ h₁ => ?_
    obtain ⟨hP₁, hc₁⟩ := h₁
    have hother : ∀ j, k ≠ j → content s₁ j = content s j := fun j hj => by
      rw [hc₁, Function.update_of_ne (Ne.symm hj)]
    refine (foldlM_act hact hl hP₁ fun a ha => ?_).mono fun s' h' => ?_
    · rw [hother a.1 (hk a ha)]
      exact hfit a (List.mem_cons_of_mem _ ha)
    obtain ⟨hP', hin, hout⟩ := h'
    refine ⟨hP', fun a ha => ?_, fun j hj => ?_⟩
    · rcases List.mem_cons.mp ha with rfl | ha
      · rw [hout k fun b hb => Ne.symm (hk b hb), hc₁, Function.update_self]
      · exact hin a ha
    · rw [hout j fun b hb => hj b (List.mem_cons_of_mem _ hb), hother j (hj _ List.mem_cons_self)]

variable {items : ExtTreeMap K E compare}

theorem pairwise_toList : items.toList.Pairwise fun a b => a.1 ≠ b.1 :=
  ExtTreeMap.distinct_keys_toList.imp fun h he => h (LawfulEqOrd.compare_eq_iff_eq.mpr he)

/-- **Acting out all items** gives the content of the overlay. -/
theorem applyAll_spec (hact : ∀ s k e, P s → fits (content s k) e →
      Spec T (act s (k, e)) fun s' => P s' ∧ content s' = Function.update (content s) k (shown e)) {s : σ} (hP : P s)
    (hfit : AllFit fits items (content s)) :
    Spec T (items.toList.foldlM act s) fun s' => P s' ∧ content s' = overlay shown items (content s) := by
  refine (foldlM_act hact pairwise_toList hP fun a ha => ?_).mono fun s' h' => ?_
  · exact hfit a.1 a.2 (ExtTreeMap.mem_toList_iff_getElem?_eq_some.mp ha)
  obtain ⟨hP', hin, hout⟩ := h'
  refine ⟨hP', funext fun k => ?_⟩
  cases hk : items[k]? with
  | some e =>
    rw [overlay_of_some hk]
    exact hin (k, e) (ExtTreeMap.mem_toList_iff_getElem?_eq_some.mpr hk)
  | none =>
    rw [overlay_of_none hk]
    refine hout k fun a ha hak => ?_
    rw [← hak, ExtTreeMap.mem_toList_iff_getElem?_eq_some.mp ha] at hk
    cases hk

end

end ScfChain.Data
