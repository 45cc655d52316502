import ScfChain.Ledger.View
import ScfChain.Data.Overlay

/-!
# Layered views

A view shows a content: a partial map from keys to entries. Abstractly a stack of views is a list of contents
(`Level`), the one on top first: an operation changes the content on top, a new table copies it, and `apply` puts it in
the place of the one below.

* `View.levels` is what the views of a stack show.
* `Inv` ties each item of a table to the content of its base; every operation keeps it (`step_spec`) and so does `apply`
  (`applyTop_spec`).
* `run_levels`: over any run with any nesting, the tables show what the list of contents says.
-/

set_option linter.unusedSectionVars false

namespace ScfChain.Ledger

open Std Data

variable {K V : Type} [Ord K] [TransOrd K] [LawfulEqOrd K] [DecidableEq K]

theorem map_eq_ok {α β : Type} {x : Except String α} {f : α → β} {b : β} :
    x.map f = .ok b ↔ ∃ a, x = .ok a ∧ f a = b := by
  cases x with
  | error what => exact iff_of_false nofun nofun
  | ok a => exact ⟨fun h => ⟨a, rfl, Except.ok.inj h⟩, fun ⟨_, ha, hb⟩ => by cases ha; exact congrArg Except.ok hb⟩

/-! ## What a view shows -/

/-- What an item of an `ApplyStateTable` shows. -/
def Entry.shown (e : Entry V) : Option V :=
  match e.action with
  | .erase => none
  | _ => some e.sle

def RawEntry.shown (e : RawEntry V) : Option V :=
  match e.action with
  | .erase => none
  | _ => some e.sle

/-- A content with the drops destroyed in it. -/
structure Level (K V : Type) where
  content : K → Option V
  destroyed : ℤ

namespace View

/-- The content of a view. -/
def content : View K V → K → Option V
  | ledger state _ => state
  | raw base t => overlay RawEntry.shown t.items base.content
  | apply base t => overlay Entry.shown t.items base.content

/-- The drops destroyed in a view. -/
def destroyed : View K V → ℤ
  | ledger _ drops => -drops
  | raw _ t => t.dropsDestroyed
  | apply _ t => t.dropsDestroyed

/-- What the views below the one on top show. -/
def lower : View K V → List (Level K V)
  | ledger .. => []
  | raw base _ => ⟨base.content, base.destroyed⟩ :: base.lower
  | apply base _ => ⟨base.content, base.destroyed⟩ :: base.lower

/-- What the views of a stack show, the one on top first. -/
def levels (v : View K V) : List (Level K V) := ⟨v.content, v.destroyed⟩ :: v.lower

/-- **Reads give the content**, as far as the type check lets them. -/
theorem read_eq (v : View K V) (k : Keylet K V) : v.read k = (v.content k.key).filter k.check := by
  induction v with
  | ledger state drops => rfl
  | raw base t ih =>
    rw [read, RawStateTable.read, content, overlay]
    rcases t.items[k.key]? with _ | ⟨_ | _ | _, id, sle⟩ <;> first | exact ih | rfl
  | apply base t ih =>
    rw [read, ApplyStateTable.read, content, overlay]
    rcases t.items[k.key]? with _ | ⟨_ | _ | _ | _, id, sle⟩ <;> first | exact ih | rfl

/-! ## The invariant -/

/-- How an item of an `ApplyStateTable` goes with the content of the base. `strict` is for runs in which entries that
are not there are neither replaced nor erased. -/
def Fits (strict : Bool) (below : Option V) (e : Entry V) : Prop :=
  match e.action with
  | .cache => below = some e.sle
  | .insert => below = none
  | .modify | .erase => strict = true → below ≠ none

def RawFits (strict : Bool) (below : Option V) (e : RawEntry V) : Prop :=
  match e.action with
  | .insert => below = none
  | .replace | .erase => strict = true → below ≠ none

/-- Every item of every table of the stack fits. -/
def Inv (strict : Bool) : View K V → Prop
  | ledger .. => True
  | raw base t => base.Inv strict ∧ AllFit (RawFits strict) t.items base.content
  | apply base t => base.Inv strict ∧ AllFit (Fits strict) t.items base.content

/-- `v'` is `v` with `x` at `key`. -/
structure Acted (strict : Bool) (v v' : View K V) (key : K) (x : Option V) : Prop where
  inv : v'.Inv strict
  content : v'.content = Function.update v.content key x
  destroyed : v'.destroyed = v.destroyed
  lower : v'.lower = v.lower

section

variable {strict : Bool} {base : View K V}

theorem Inv.set {t : ApplyStateTable K V} (h : (apply base t).Inv strict) {key : K} {e : Entry V}
    (he : Fits strict (base.content key) e) :
    Acted strict (apply base t) (apply base (t.set key e)) key e.shown :=
  ⟨⟨h.1, h.2.insert he⟩, overlay_insert key e, rfl, rfl⟩

theorem Inv.drop {t : ApplyStateTable K V} (h : (apply base t).Inv strict) (key : K) :
    Acted strict (apply base t) (apply base (t.drop key)) key (base.content key) :=
  ⟨⟨h.1, h.2.erase key⟩, overlay_erase key, rfl, rfl⟩

theorem Inv.rawSet {t : RawStateTable K V} (h : (raw base t).Inv strict) {key : K} {e : RawEntry V}
    (he : RawFits strict (base.content key) e) :
    Acted strict (raw base t) (raw base (t.set key e)) key e.shown :=
  ⟨⟨h.1, h.2.insert he⟩, overlay_insert key e, rfl, rfl⟩

theorem Inv.rawDrop {t : RawStateTable K V} (h : (raw base t).Inv strict) (key : K) :
    Acted strict (raw base t) (raw base (t.drop key)) key (base.content key) :=
  ⟨⟨h.1, h.2.erase key⟩, overlay_erase key, rfl, rfl⟩

end

/-! ## The raw operations -/

variable {strict : Bool} {v v' : View K V} {p : Ptr K V}

theorem rawErase_spec (h : v.Inv strict) (hp : strict = true → v.content p.key ≠ none) :
    Spec (strict = true) (v.rawErase p) fun v' => Acted strict v v' p.key none := by
  cases v with
  | ledger state drops =>
    rw [rawErase]
    split
    · next hnone => exact .error fun hs => hp hs (Option.isNone_iff_eq_none.mp hnone)
    · exact .ok ⟨trivial, rfl, rfl, rfl⟩
  | raw base t =>
    rw [rawErase, RawStateTable.erase]
    rw [content] at hp
    rcases hi : t.items[p.key]? with _ | ⟨_ | _ | _, id, sle⟩
    · rw [overlay_of_none hi] at hp
      exact .ok (h.rawSet hp)
    · exact .error fun hs => hp hs (overlay_of_some hi)
    · have hdrop := h.rawDrop p.key
      rw [h.2 _ _ hi] at hdrop
      exact .ok hdrop
    · have hfit := h.2 _ _ hi
      exact .ok (h.rawSet hfit)
  | apply base t =>
    rw [rawErase, ApplyStateTable.rawErase]
    rw [content] at hp
    rcases hi : t.items[p.key]? with _ | ⟨_ | _ | _ | _, id, sle⟩
    · rw [overlay_of_none hi] at hp
      exact .ok (h.set hp)
    · have hcache : base.content p.key = some sle := h.2 _ _ hi
      exact .ok (h.set fun _ => by rw [hcache]; nofun)
    · exact .error fun hs => hp hs (overlay_of_some hi)
    · have hdrop := h.drop p.key
      rw [h.2 _ _ hi] at hdrop
      exact .ok hdrop
    · have hfit := h.2 _ _ hi
      exact .ok (h.set hfit)

theorem rawInsert_spec (h : v.Inv strict) (hp : v.content p.key = none) :
    Spec (strict = true) (v.rawInsert p) fun v' => Acted strict v v' p.key (some p.sle) := by
  cases v with
  | ledger state drops =>
    rw [rawInsert, if_neg (by simpa [content] using hp)]
    exact .ok ⟨trivial, rfl, rfl, rfl⟩
  | raw base t =>
    rw [rawInsert, RawStateTable.insert]
    rw [content] at hp
    rcases hi : t.items[p.key]? with _ | ⟨_ | _ | _, id, sle⟩
    · rw [overlay_of_none hi] at hp
      exact .ok (h.rawSet hp)
    · have hfit := h.2 _ _ hi
      exact .ok (h.rawSet hfit)
    all_goals cases (overlay_of_some hi).symm.trans hp
  | apply base t =>
    rw [rawInsert, ApplyStateTable.insert]
    rw [content] at hp
    rcases hi : t.items[p.key]? with _ | ⟨_ | _ | _ | _, id, sle⟩
    · rw [overlay_of_none hi] at hp
      exact .ok (h.set hp)
    · cases (overlay_of_some hi).symm.trans hp
    · have hfit := h.2 _ _ hi
      exact .ok (h.set hfit)
    all_goals cases (overlay_of_some hi).symm.trans hp

theorem rawReplace_spec (h : v.Inv strict) (hp : strict = true → v.content p.key ≠ none) :
    Spec (strict = true) (v.rawReplace p) fun v' => Acted strict v v' p.key (some p.sle) := by
  cases v with
  | ledger state drops =>
    rw [rawReplace]
    split
    · next hnone => exact .error fun hs => hp hs (Option.isNone_iff_eq_none.mp hnone)
    · exact .ok ⟨trivial, rfl, rfl, rfl⟩
  | raw base t =>
    rw [rawReplace, RawStateTable.replace]
    rw [content] at hp
    rcases hi : t.items[p.key]? with _ | ⟨_ | _ | _, id, sle⟩
    · rw [overlay_of_none hi] at hp
      exact .ok (h.rawSet hp)
    · exact .error fun hs => hp hs (overlay_of_some hi)
    all_goals
      have hfit := h.2 _ _ hi
      exact .ok (h.rawSet hfit)
  | apply base t =>
    rw [rawReplace, ApplyStateTable.replace]
    rw [content] at hp
    rcases hi : t.items[p.key]? with _ | ⟨_ | _ | _ | _, id, sle⟩
    · rw [overlay_of_none hi] at hp
      exact .ok (h.set hp)
    · have hcache : base.content p.key = some sle := h.2 _ _ hi
      exact .ok (h.set fun _ => by rw [hcache]; nofun)
    · exact .error fun hs => hp hs (overlay_of_some hi)
    all_goals
      have hfit := h.2 _ _ hi
      exact .ok (h.set hfit)

/-! ## The operations of `ApplyView` -/

section

variable {base : View K V} {t t' : ApplyStateTable K V}

theorem peek_spec (h : (apply base t).Inv strict) (k : Keylet K V) (id : ℕ) :
    ((t.peek base.read k id).1.map Ptr.sle = (apply base t).read k) ∧
      Acted strict (apply base t) (apply base (t.peek base.read k id).2) k.key ((apply base t).content k.key) := by
  have hsame : Acted strict (apply base t) (apply base t) k.key ((apply base t).content k.key) :=
    ⟨h, (Function.update_eq_self _ _).symm, rfl, rfl⟩
  rw [ApplyStateTable.peek, read, ApplyStateTable.read]
  rcases hi : t.items[k.key]? with _ | ⟨_ | _ | _ | _, i, sle⟩
  · cases hb : base.read k with
    | none => exact ⟨rfl, hsame⟩
    | some sle =>
      refine ⟨rfl, ?_⟩
      rw [read_eq, Option.filter_eq_some_iff] at hb
      have hshown : (apply base t).content k.key = some sle := (overlay_of_none hi).trans hb.1
      rw [hshown]
      exact h.set hb.1
  · simp only
    split <;> exact ⟨rfl, hsame⟩
  · exact ⟨rfl, hsame⟩
  · simp only
    split <;> exact ⟨rfl, hsame⟩
  · simp only
    split <;> exact ⟨rfl, hsame⟩

theorem update_spec (h : (apply base t).Inv strict) (hr : t.update p = .ok t') :
    Acted strict (apply base t) (apply base t') p.key (some p.sle) := by
  rw [ApplyStateTable.update] at hr
  rcases hi : t.items[p.key]? with _ | ⟨a, i, sle⟩ <;> rw [hi] at hr
  · cases hr
  · simp only at hr
    split at hr
    · cases hr
    · have hfit := h.2 _ _ hi
      cases a <;> cases hr
      · have hcache : base.content p.key = some sle := hfit
        exact h.set fun _ => by rw [hcache]; nofun
      · exact h.set hfit
      · exact h.set hfit

theorem erase_spec (h : (apply base t).Inv strict) (hr : t.erase p = .ok t') :
    Acted strict (apply base t) (apply base t') p.key none := by
  rw [ApplyStateTable.erase] at hr
  rcases hi : t.items[p.key]? with _ | ⟨a, i, sle⟩ <;> rw [hi] at hr
  · cases hr
  · simp only at hr
    split at hr
    · cases hr
    · have hfit := h.2 _ _ hi
      cases a <;> cases hr
      · have hcache : base.content p.key = some sle := hfit
        exact h.set fun _ => by rw [hcache]; nofun
      · have hdrop := h.drop p.key
        rwa [show base.content p.key = none from hfit] at hdrop
      · exact h.set hfit

end

/-- What an operation does to a content. -/
def Op.act (content : K → Option V) : Op K V → K → Option V
  | .peek _ _ | .read _ | .rawDestroySFC _ => content
  | .insert p | .update p | .rawInsert p | .rawReplace p => Function.update content p.key (some p.sle)
  | .erase p | .rawErase p => Function.update content p.key none

/-- The drops an operation destroys. -/
def Op.fee : Op K V → ℤ
  | .rawDestroySFC fee => fee
  | _ => 0

/-- What an operation asks of the content: to insert only what is not there and, if `strict`, to replace and erase only
what is there. -/
def Op.Legal (strict : Bool) (content : K → Option V) : Op K V → Prop
  | .insert p | .rawInsert p => content p.key = none
  | .rawReplace p | .rawErase p => strict = true → content p.key ≠ none
  | _ => True

/-- **One operation.** -/
theorem step_spec {op : Op K V} (h : v.Inv strict) (hl : op.Legal strict v.content) (hs : v.step op = .ok v') :
    v'.Inv strict ∧ v'.content = op.act v.content ∧ v'.destroyed = v.destroyed + op.fee ∧ v'.lower = v.lower := by
  have hacted : ∀ {key x}, Acted strict v v' key x → op.act v.content = Function.update v.content key x → op.fee = 0 →
      v'.Inv strict ∧ v'.content = op.act v.content ∧ v'.destroyed = v.destroyed + op.fee ∧ v'.lower = v.lower :=
    fun ha hact hfee => ⟨ha.inv, by rw [ha.content, hact], by rw [ha.destroyed, hfee, add_zero], ha.lower⟩
  cases op with
  | peek k id =>
    cases v with
    | apply base t =>
      cases hs
      exact hacted (peek_spec h k id).2 (Function.update_eq_self _ _).symm rfl
    | ledger => cases hs
    | raw => cases hs
  | read k =>
    cases hs
    exact ⟨h, rfl, (add_zero _).symm, rfl⟩
  | insert p =>
    cases v with
    | apply base t => exact hacted ((rawInsert_spec h hl).post _ hs) rfl rfl
    | ledger => cases hs
    | raw => cases hs
  | update p =>
    cases v with
    | apply base t =>
      obtain ⟨t', ht, rfl⟩ := map_eq_ok.mp hs
      exact hacted (update_spec h ht) rfl rfl
    | ledger => cases hs
    | raw => cases hs
  | erase p =>
    cases v with
    | apply base t =>
      obtain ⟨t', ht, rfl⟩ := map_eq_ok.mp hs
      exact hacted (erase_spec h ht) rfl rfl
    | ledger => cases hs
    | raw => cases hs
  | rawInsert p => exact hacted ((rawInsert_spec h hl).post _ hs) rfl rfl
  | rawReplace p => exact hacted ((rawReplace_spec h hl).post _ hs) rfl rfl
  | rawErase p => exact hacted ((rawErase_spec h hl).post _ hs) rfl rfl
  | rawDestroySFC fee =>
    cases hs
    cases v with
    | ledger state drops => exact ⟨trivial, rfl, by simp [destroyed, rawDestroySFC, Op.fee]; ring, rfl⟩
    | raw base t => exact ⟨h, rfl, rfl, rfl⟩
    | apply base t => exact ⟨h, rfl, rfl, rfl⟩

/-! ## `apply` -/

section

variable {k : K} {d : ℤ} {ls : List (Level K V)}

/-- A view with the invariant, the drops `d` destroyed, over the levels `ls`. -/
structure Over (strict : Bool) (d : ℤ) (ls : List (Level K V)) (v : View K V) : Prop where
  inv : v.Inv strict
  destroyed : v.destroyed = d
  lower : v.lower = ls

theorem Over.acted (h : Over strict d ls v) {x : Option V} (ha : Acted strict v v' k x) :
    Over strict d ls v' ∧ v'.content = Function.update v.content k x :=
  ⟨⟨ha.inv, ha.destroyed.trans h.destroyed, ha.lower.trans h.lower⟩, ha.content⟩

theorem applyItem_spec {e : Entry V} (h : Over strict d ls v) (hf : Fits strict (v.content k) e) :
    Spec (strict = true) (v.applyItem (k, e)) fun v' =>
      Over strict d ls v' ∧ v'.content = Function.update v.content k e.shown := by
  obtain ⟨a, id, sle⟩ := e
  cases a with
  | cache =>
    have hcache : v.content k = some sle := hf
    exact .ok ⟨h, by rw [Entry.shown, ← hcache, Function.update_eq_self]⟩
  | erase => exact (rawErase_spec (p := ⟨k, id, sle⟩) h.inv hf).mono fun _ => h.acted
  | insert => exact (rawInsert_spec (p := ⟨k, id, sle⟩) h.inv hf).mono fun _ => h.acted
  | modify => exact (rawReplace_spec (p := ⟨k, id, sle⟩) h.inv hf).mono fun _ => h.acted

theorem applyRawItem_spec {e : RawEntry V} (h : Over strict d ls v) (hf : RawFits strict (v.content k) e) :
    Spec (strict = true) (v.applyRawItem (k, e)) fun v' =>
      Over strict d ls v' ∧ v'.content = Function.update v.content k e.shown := by
  obtain ⟨a, id, sle⟩ := e
  cases a with
  | erase => exact (rawErase_spec (p := ⟨k, id, sle⟩) h.inv hf).mono fun _ => h.acted
  | insert => exact (rawInsert_spec (p := ⟨k, id, sle⟩) h.inv hf).mono fun _ => h.acted
  | replace => exact (rawReplace_spec (p := ⟨k, id, sle⟩) h.inv hf).mono fun _ => h.acted

theorem over_rawDestroySFC {base : View K V} (h : base.Inv strict) (fee : ℤ) :
    Over strict (base.destroyed + fee) base.lower (base.rawDestroySFC fee) ∧
      (base.rawDestroySFC fee).content = base.content := by
  have hlegal : (Op.rawDestroySFC fee).Legal strict base.content := trivial
  obtain ⟨hinv, hc, hd, hl⟩ := step_spec h hlegal rfl
  exact ⟨⟨hinv, hd, hl⟩, hc⟩

end

/-- **`apply` gives the base the content of the view**, and the drops destroyed in it. -/
theorem applyTop_spec {base : View K V} (h : v.Inv strict) (hb : v.base? = some base) :
    Spec (strict = true) v.applyTop fun v' =>
      Over strict (base.destroyed + v.destroyed) base.lower v' ∧ v'.content = v.content := by
  cases v with
  | ledger => cases hb
  | raw base t =>
    cases hb
    obtain ⟨hover, hc⟩ := over_rawDestroySFC h.1 t.dropsDestroyed
    refine (applyAll_spec (fun _ _ _ => applyRawItem_spec) hover (by rw [hc]; exact h.2)).mono fun v' h' => ?_
    exact ⟨h'.1, h'.2.trans (congrArg (overlay _ t.items) hc)⟩
  | apply base t =>
    cases hb
    obtain ⟨hover, hc⟩ := over_rawDestroySFC h.1 t.dropsDestroyed
    refine (applyAll_spec (fun _ _ _ => applyItem_spec) hover (by rw [hc]; exact h.2)).mono fun v' h' => ?_
    exact ⟨h'.1, h'.2.trans (congrArg (overlay _ t.items) hc)⟩

/-! ## Runs -/

/-- The stacks of views reached from a ledger, with the contents they stand for: `sandbox` and `openView` put an empty
table on top, `op` is an operation on top that does not end in a `LogicError`, `applied` applies the table on top and
drops it, `discard` drops it. -/
inductive Run (strict : Bool) (state : K → Option V) (drops : ℤ) : View K V → List (Level K V) → Prop
  | ledger : Run strict state drops (ledger state drops) [⟨state, -drops⟩]
  | sandbox {v : View K V} {l : Level K V} {ls : List (Level K V)} : Run strict state drops v (l :: ls) →
      Run strict state drops (apply v .new) (⟨l.content, 0⟩ :: l :: ls)
  | openView {v : View K V} {l : Level K V} {ls : List (Level K V)} : Run strict state drops v (l :: ls) →
      Run strict state drops (raw v .new) (⟨l.content, 0⟩ :: l :: ls)
  | op {v v' : View K V} {l : Level K V} {ls : List (Level K V)} (op : Op K V) : Run strict state drops v (l :: ls) →
      op.Legal strict l.content → v.step op = .ok v' →
      Run strict state drops v' (⟨op.act l.content, l.destroyed + op.fee⟩ :: ls)
  | applied {v v' : View K V} {l l' : Level K V} {ls : List (Level K V)} : Run strict state drops v (l :: l' :: ls) →
      v.applyTop = .ok v' → Run strict state drops v' (⟨l.content, l'.destroyed + l.destroyed⟩ :: ls)
  | discard {v v' : View K V} {l : Level K V} {ls : List (Level K V)} : Run strict state drops v (l :: ls) →
      v.base? = some v' → Run strict state drops v' ls

theorem levels_base {base : View K V} (h : v.base? = some base) : v.levels = ⟨v.content, v.destroyed⟩ :: base.levels := by
  cases v with
  | ledger => cases h
  | raw => cases h; rfl
  | apply => cases h; rfl

theorem Inv.base {base : View K V} (h : v.Inv strict) (hb : v.base? = some base) : base.Inv strict := by
  cases v with
  | ledger => cases hb
  | raw => cases hb; exact h.1
  | apply => cases hb; exact h.1

theorem Run.spec {state : K → Option V} {drops : ℤ} {ls : List (Level K V)} (h : Run strict state drops v ls) :
    v.Inv strict ∧ v.levels = ls := by
  induction h with
  | ledger => exact ⟨trivial, rfl⟩
  | sandbox _ ih =>
    obtain ⟨hinv, hlev⟩ := ih
    obtain ⟨rfl, rfl⟩ := List.cons_eq_cons.mp hlev
    refine ⟨⟨hinv, allFit_empty⟩, ?_⟩
    rw [levels_base rfl]
    exact congrArg (fun c => Level.mk c 0 :: _) overlay_empty
  | openView _ ih =>
    obtain ⟨hinv, hlev⟩ := ih
    obtain ⟨rfl, rfl⟩ := List.cons_eq_cons.mp hlev
    refine ⟨⟨hinv, allFit_empty⟩, ?_⟩
    rw [levels_base rfl]
    exact congrArg (fun c => Level.mk c 0 :: _) overlay_empty
  | op op _ hl hs ih =>
    obtain ⟨hinv, hlev⟩ := ih
    obtain ⟨rfl, rfl⟩ := List.cons_eq_cons.mp hlev
    obtain ⟨hinv', hc, hd, hlow⟩ := step_spec hinv hl hs
    exact ⟨hinv', by rw [levels, hc, hd, hlow]⟩
  | @applied v v' l l' ls _ hs ih =>
    obtain ⟨base, hb⟩ : ∃ base, v.base? = some base := by
      cases v with
      | ledger => cases hs
      | raw base => exact ⟨base, rfl⟩
      | apply base => exact ⟨base, rfl⟩
    obtain ⟨hover, hc⟩ := (applyTop_spec ih.1 hb).post _ hs
    have hlev := ih.2
    rw [levels_base hb, levels] at hlev
    obtain ⟨rfl, rfl, rfl⟩ : _ ∧ _ ∧ _ := by simpa using hlev
    exact ⟨hover.inv, by rw [levels, hc, hover.destroyed, hover.lower]⟩
  | discard _ hb ih =>
    have hlev := ih.2
    rw [levels_base hb] at hlev
    exact ⟨ih.1.base hb, (List.cons_eq_cons.mp hlev).2⟩

/-- **Layered views are a stack of contents.** Every view of the stack shows the content the operations gave it, by `read`
and by `peek`, and `apply` never fails if only entries that are there were replaced and erased. -/
theorem run_levels {state : K → Option V} {drops : ℤ} {ls : List (Level K V)} (h : Run strict state drops v ls) :
    v.levels = ls ∧
      (∀ l ls', ls = l :: ls' → ∀ k : Keylet K V, v.read k = (l.content k.key).filter k.check ∧
        ∀ base t id, v = apply base t → (t.peek base.read k id).1.map Ptr.sle = (l.content k.key).filter k.check) ∧
      (strict = true → ∀ base, v.base? = some base → ∃ v', v.applyTop = .ok v') := by
  obtain ⟨hinv, rfl⟩ := h.spec
  refine ⟨rfl, fun l ls' hl k => ?_, fun hs base hb => ?_⟩
  · obtain ⟨rfl, rfl⟩ := List.cons_eq_cons.mp hl
    refine ⟨v.read_eq k, fun base t id hv => ?_⟩
    subst hv
    rw [(peek_spec hinv k id).1, read_eq]
  · exact (applyTop_spec hinv hb).total hs

/-- A sandbox in a sandbox: entry 1 is changed in the outer one, entry 2 made in the inner one, and both are applied. -/
theorem run_levels_nested :
    ∃ v v' : View ℕ ℕ, v.applyTop = .ok v' ∧
      v.levels = [⟨Function.update (Function.update (Function.update (fun _ => none) 1 (some 10)) 1 (some 11)) 2
        (some 20), 5⟩, ⟨Function.update (fun _ => none) 1 (some 10), -100⟩] ∧ v'.read (unchecked 2) = some 20 := by
  have h₁ : Run true (Function.update (fun _ => none) 1 (some 10) : ℕ → Option ℕ) 100 _ _ := Run.ledger.sandbox
  have h₂ := h₁.op (.peek (unchecked 1) 7) trivial rfl
  have h₃ := h₂.op (.update ⟨1, 7, 11⟩) trivial rfl
  have h₄ := h₃.sandbox.op (.insert ⟨2, 8, 20⟩) rfl rfl
  have h₅ := (h₄.op (.rawDestroySFC 5) trivial rfl).applied rfl
  obtain ⟨v', hv'⟩ := (run_levels h₅).2.2 rfl _ rfl
  refine ⟨_, v', hv', (run_levels h₅).1, ?_⟩
  exact ((run_levels (h₅.applied hv')).2.1 _ _ rfl (unchecked 2)).1

end View

end ScfChain.Ledger
