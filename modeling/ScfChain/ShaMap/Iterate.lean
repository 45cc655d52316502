import ScfChain.ShaMap.Abstract

/-!
# Iteration

The iterator of a `SHAMap` holds an item and the stack of the nodes above it. `peekFirstItem` and `upper_bound` build the
stack, `peekNextItem` finds the branch to go on with from the key of the item and the depths on the stack.

* `after key stack` : the items that are still to come; `Trail key stack` : the nodes of the stack are those above `key`.
* `firstBelow_eq`, `nextUp_eq`, `boundUp_eq` : one step takes the first of them and leaves the others.
* `Visits it l` : iteration from `it` visits the items of `l` and ends.
-/

namespace ScfChain.ShaMap

open Data AbstractNode

/-! ## The source -/

/-- The first branch that is there, from `start` on. -/
def firstBranch (br : Fin 16 → Bool) (start : ℕ) : Option (Fin 16) := ((List.finRange 16).drop start).find? br

/-- `SHAMap::walkTowardsKey` from a node on, with the nodes before it on the stack. -/
def AbstractNode.walkTowardsKey (key : Hash) : AbstractNode → ℕ → NodeStack → Option NodeStack
  | null, _, _ => none
  | leaf item type s h, d, stack => some ((leaf item type s h, d) :: stack)
  | inner v2 s h br hs cs, d, stack =>
    let stack := (inner v2 s h br hs cs, d) :: stack
    if v2.any fun p => !p.hasCommonPrefix key then some stack
    else if br (selectBranch d key) then
      walkTowardsKey key (cs (selectBranch d key)) (childDepth v2 d (cs (selectBranch d key))) stack
    else some stack

/-- `SHAMap::firstBelow`: the first item at or below a node, with the nodes on the way on the stack. -/
def firstBelow : AbstractNode → ℕ → NodeStack → Option (Option Item × NodeStack)
  | .null, _, _ => none
  | .leaf item type s h, _, stack => some (some item, (.leaf item type s h, 64) :: stack)
  | .inner v2 s h br hs cs, d, stack =>
    let stack := (.inner v2 s h br hs cs, d) :: stack
    match firstBranch br 0 with
    | some i => firstBelow (cs i) (childDepth v2 d (cs i)) stack
    | none => some (none, stack)

/-- `const_iterator`: an item with the stack above it, or the end. -/
abbrev Iterator := Option (Item × NodeStack)

def peekFirstItem (root : AbstractNode) : Option Iterator :=
  match firstBelow root 0 [] with
  | some (some item, stack) => some (some (item, stack))
  | some (none, _) => some none
  | none => none

/-- The first item below a node that has one. -/
def itemBelow (node : AbstractNode) (d : ℕ) (stack : NodeStack) : Option Iterator :=
  match firstBelow node d stack with
  | some (some item, stack) => some (some (item, stack))
  | _ => none

/-- The loop of `SHAMap::peekNextItem`. -/
def nextUp (key : Hash) : NodeStack → Option Iterator
  | [] => some none
  | (.inner v2 s h br hs cs, d) :: stack =>
    match firstBranch br ((selectBranch d key).val + 1) with
    | some i => itemBelow (cs i) (childDepth v2 d (cs i)) ((.inner v2 s h br hs cs, d) :: stack)
    | none => nextUp key stack
  | (_, _) :: _ => none

def peekNextItem (key : Hash) (stack : NodeStack) : Option Iterator := nextUp key stack.tail

/-- The branch from which `upper_bound` looks for an item. -/
def boundBranch (v2 : Option Prefix) (d : ℕ) (key : Hash) : ℕ :=
  match v2 with
  | none => (selectBranch d key).val + 1
  | some p => if p.hasCommonPrefix key then (selectBranch d key).val + 1 else if key < p.common then 0 else 16

/-- The loop of `SHAMap::upper_bound`. -/
def boundUp (key : Hash) : NodeStack → Option Iterator
  | [] => some none
  | (.inner v2 s h br hs cs, d) :: stack =>
    match firstBranch br (boundBranch v2 d key) with
    | some i => itemBelow (cs i) (childDepth v2 d (cs i)) ((.inner v2 s h br hs cs, d) :: stack)
    | none => boundUp key stack
  | (.leaf item type s h, d) :: stack =>
    if key < item.key then some (some (item, (.leaf item type s h, d) :: stack)) else boundUp key stack
  | (.null, _) :: _ => none

def upperBound (root : AbstractNode) (key : Hash) : Option Iterator := (root.walkTowardsKey key 0 []).bind (boundUp key)

/-- Iteration from an iterator to the end, with the items on the way: `operator++` is `peekNextItem` with the key of the
item. -/
inductive Visits : Iterator → List Item → Prop
  | done : Visits none []
  | step {item : Item} {stack : NodeStack} {next : Iterator} {l : List Item} : peekNextItem item.key stack = some next →
      Visits next l → Visits (some (item, stack)) (item :: l)

/-! ## What is still to come -/

/-- The items of the children from `start` on. -/
def itemsFrom (cs : Fin 16 → AbstractNode) (start : ℕ) : List Item :=
  ((List.finRange 16).drop start).flatMap fun i => (cs i).items

/-- The items after those of the branches of `key`. -/
def after (key : Hash) : NodeStack → List Item
  | [] => []
  | (.inner _ _ _ _ _ cs, d) :: stack => itemsFrom cs ((selectBranch d key).val + 1) ++ after key stack
  | (_, _) :: stack => after key stack

/-- Inner nodes above `key`: what is below one of them is below the branches of `key` of the ones after it. -/
inductive Trail (key : Hash) : NodeStack → Prop
  | nil : Trail key []
  | cons {v2 : Option Prefix} {s : UInt32} {h : Hash} {br : Fin 16 → Bool} {hs : Fin 16 → Hash}
      {cs : Fin 16 → AbstractNode} {d : ℕ} {stack : NodeStack} : Ordered d (.inner v2 s h br hs cs) →
      (∀ x ∈ (AbstractNode.inner v2 s h br hs cs).items, ∀ p ∈ stack, selectBranch p.2 x.key = selectBranch p.2 key) →
      Trail key stack → Trail key ((.inner v2 s h br hs cs, d) :: stack)

section
variable {v2 : Option Prefix} {d start : ℕ} {s : UInt32} {h : Hash} {br : Fin 16 → Bool} {hs : Fin 16 → Hash}
  {cs : Fin 16 → AbstractNode} {n : AbstractNode} {stack : NodeStack} {key key' : Hash} {i : Fin 16}

theorem Trail.congr (ht : Trail key stack) (heq : ∀ p ∈ stack, selectBranch p.2 key = selectBranch p.2 key') :
    Trail key' stack := by
  induction ht with
  | nil => exact .nil
  | cons ho hbelow _ ih =>
    refine .cons ho ?_ (ih fun p hp => heq p (List.mem_cons_of_mem _ hp))
    intro x hx p hp
    exact (hbelow x hx p hp).trans (heq p (List.mem_cons_of_mem _ hp))

theorem after_congr (ht : Trail key stack) (heq : ∀ p ∈ stack, selectBranch p.2 key = selectBranch p.2 key') :
    after key stack = after key' stack := by
  induction ht with
  | nil => rfl
  | cons _ _ _ ih =>
    rw [after, after, ih fun p hp => heq p (List.mem_cons_of_mem _ hp), heq _ List.mem_cons_self]

theorem itemsFrom_zero : itemsFrom cs 0 = (AbstractNode.inner v2 s h br hs cs).items := rfl

theorem itemsFrom_of_none (hp : Placed v2 d br cs) (hi : firstBranch br start = none) : itemsFrom cs start = [] := by
  rw [firstBranch, List.find?_eq_none] at hi
  rw [itemsFrom, List.flatMap_eq_nil_iff]
  intro i hmem
  exact hp.items_eq_nil (by simpa using hi i hmem)

theorem itemsFrom_of_some (hp : Placed v2 d br cs) (hi : firstBranch br start = some i) :
    br i = true ∧ start ≤ i.val ∧ itemsFrom cs start = (cs i).items ++ itemsFrom cs (i.val + 1) := by
  obtain ⟨hbr, pre, post, hsplit, hpre⟩ := List.find?_eq_some_iff_append.mp hi
  -- the position of `i` in the list of branches is `i`
  have hpos : (List.finRange 16)[start + pre.length]? = some i := by
    rw [← List.getElem?_drop, hsplit]
    simp
  have hval : start + pre.length = i.val := by
    obtain ⟨hlt, hget⟩ := List.getElem?_eq_some_iff.mp hpos
    rw [← hget, List.getElem_finRange]
    rfl
  have hpost : (List.finRange 16).drop (i.val + 1) = post := by
    rw [← hval, Nat.add_assoc, ← List.drop_drop, hsplit]
    simp
  have hempty : (pre.flatMap fun i => (cs i).items) = [] := by
    rw [List.flatMap_eq_nil_iff]
    intro j hj
    exact hp.items_eq_nil (by simpa using hpre j hj)
  refine ⟨hbr, by omega, ?_⟩
  rw [itemsFrom, hsplit, List.flatMap_append, hempty, List.nil_append, List.flatMap_cons, itemsFrom, hpost]

/-- The items of `l` are below the branches of `key` of the nodes on the stack. -/
def Follows (key : Hash) (stack : NodeStack) (l : List Item) : Prop :=
  ∀ x ∈ l, ∀ p ∈ stack, selectBranch p.2 x.key = selectBranch p.2 key

theorem Trail.child (ht : Trail key stack) (ho : Ordered d (.inner v2 s h br hs cs))
    (hbelow : Follows key stack (AbstractNode.inner v2 s h br hs cs).items) {x : Item} (hx : x ∈ (cs i).items) :
    Trail x.key ((.inner v2 s h br hs cs, d) :: stack) ∧
      Follows x.key ((.inner v2 s h br hs cs, d) :: stack) (cs i).items ∧
      after x.key ((.inner v2 s h br hs cs, d) :: stack) = itemsFrom cs (i.val + 1) ++ after key stack := by
  have hxn : x ∈ (AbstractNode.inner v2 s h br hs cs).items := mem_items_inner.mpr ⟨i, hx⟩
  have hxk : ∀ p ∈ stack, selectBranch p.2 key = selectBranch p.2 x.key := fun p hp => (hbelow x hxn p hp).symm
  refine ⟨.cons ho (fun y hy p hp => (hbelow y hy p hp).trans (hxk p hp)) (ht.congr hxk), fun y hy p hp => ?_, ?_⟩
  · obtain rfl | hp := List.mem_cons.mp hp
    · exact (ho.placed.select i y hy).trans (ho.placed.select i x hx).symm
    · exact (hbelow y (mem_items_inner.mpr ⟨i, hy⟩) p hp).trans (hxk p hp)
  · rw [after, ho.placed.select i x hx, after_congr ht hxk]

/-- An iterator at `x` after which the items of `l` are to come. -/
def At (it : Iterator) (x : Item) (l : List Item) : Prop :=
  ∃ leaf stack, it = some (x, leaf :: stack) ∧ Trail x.key stack ∧ after x.key stack = l

/-- `firstBelow` leads to the first item of a node. -/
def LeadsToFirst (n : AbstractNode) (d : ℕ) : Prop :=
  ∀ {key stack x ys}, n.items = x :: ys → Follows key stack n.items → Trail key stack →
    ∃ it, itemBelow n d stack = some it ∧ At it x (ys ++ after key stack)

theorem itemBelow_of_child (ht : Trail key stack) (ho : Ordered d (.inner v2 s h br hs cs))
    (hbelow : Follows key stack (AbstractNode.inner v2 s h br hs cs).items) (hi : firstBranch br start = some i)
    (hchild : LeadsToFirst (cs i) (childDepth v2 d (cs i))) :
    ∃ it x l, itemBelow (cs i) (childDepth v2 d (cs i)) ((.inner v2 s h br hs cs, d) :: stack) = some it ∧
      itemsFrom cs start = x :: l ∧ At it x (l ++ after key stack) := by
  obtain ⟨hbr, -, hsplit⟩ := itemsFrom_of_some ho.placed hi
  obtain ⟨x, zs, hz⟩ := List.exists_cons_of_ne_nil (ho.placed.items_ne_nil hbr)
  have hx : x ∈ (cs i).items := by
    rw [hz]
    exact List.mem_cons_self
  obtain ⟨htrail, hsame, hafter⟩ := ht.child ho hbelow hx
  obtain ⟨it, hit, hat⟩ := hchild hz hsame htrail
  rw [hafter, ← List.append_assoc] at hat
  refine ⟨it, x, zs ++ itemsFrom cs (i.val + 1), hit, ?_, hat⟩
  rw [hsplit, hz, List.cons_append]

theorem firstBelow_eq (ho : Ordered d n) : LeadsToFirst n d := by
  induction ho with
  | null =>
    intro key stack x ys hitems
    cases hitems
  | leaf d item type s h =>
    intro key stack x ys hitems hbelow ht
    obtain ⟨rfl, rfl⟩ := List.cons.inj hitems
    have hkey : ∀ p ∈ stack, selectBranch p.2 key = selectBranch p.2 item.key :=
      fun p hp => (hbelow item List.mem_cons_self p hp).symm
    exact ⟨_, rfl, _, stack, rfl, ht.congr hkey, (after_congr ht hkey).symm⟩
  | @inner v2 d s h br hs cs hp hc ih =>
    intro key stack x ys hitems hbelow ht
    cases hfirst : firstBranch br 0 with
    | none =>
      have hnone := itemsFrom_of_none hp hfirst
      rw [itemsFrom_zero, hitems] at hnone
      cases hnone
    | some i =>
      obtain ⟨it, z, l, hit, hl, hat⟩ := itemBelow_of_child ht (.inner hp hc) hbelow hfirst (ih i)
      rw [itemsFrom_zero, hitems] at hl
      obtain ⟨rfl, rfl⟩ := List.cons.inj hl
      refine ⟨it, ?_, hat⟩
      rw [← hit, itemBelow, itemBelow, firstBelow]
      simp only [hfirst]

theorem nextUp_eq (ht : Trail key stack) :
    ∃ it, nextUp key stack = some it ∧
      ((after key stack = [] ∧ it = none) ∨ ∃ x l, after key stack = x :: l ∧ At it x l) := by
  induction ht with
  | nil => exact ⟨none, rfl, .inl ⟨rfl, rfl⟩⟩
  | @cons v2 s h br hs cs d stack ho hbelow ht ih =>
    rw [nextUp, after]
    cases hfirst : firstBranch br ((selectBranch d key).val + 1) with
    | none =>
      rw [itemsFrom_of_none ho.placed hfirst, List.nil_append]
      exact ih
    | some i =>
      obtain ⟨it, x, l, hit, hitems, hat⟩ := itemBelow_of_child ht ho hbelow hfirst (firstBelow_eq (ho.child _))
      refine ⟨it, hit, .inr ⟨x, l ++ after key stack, ?_, hat⟩⟩
      rw [hitems, List.cons_append]

theorem At.visits {it : Iterator} {x : Item} {l : List Item} (hat : At it x l) : Visits it (x :: l) := by
  induction l generalizing it x with
  | nil =>
    obtain ⟨leaf, stack, rfl, ht, hafter⟩ := hat
    obtain ⟨next, hnext, ⟨-, rfl⟩ | ⟨y, l, hl, -⟩⟩ := nextUp_eq ht
    · exact .step hnext .done
    · rw [hafter] at hl
      cases hl
  | cons y l ih =>
    obtain ⟨leaf, stack, rfl, ht, hafter⟩ := hat
    obtain ⟨next, hnext, ⟨hnil, -⟩ | ⟨z, l', hl, hat⟩⟩ := nextUp_eq ht
    · rw [hafter] at hnil
      cases hnil
    · rw [hafter] at hl
      obtain ⟨rfl, rfl⟩ := List.cons.inj hl
      exact .step hnext (ih hat)

/-! ## `upper_bound` -/

theorem Placed.filter_items (hp : Placed v2 d br cs) (hagree : ∀ i, ∀ x ∈ (cs i).items, Agree d key x.key) :
    (AbstractNode.inner v2 s h br hs cs).items.filter (key < ·.key) =
      (cs (selectBranch d key)).items.filter (key < ·.key) ++ itemsFrom cs ((selectBranch d key).val + 1) := by
  have hlt : (selectBranch d key).val < (List.finRange 16).length := by simp
  have hsplit : List.finRange 16 =
      (List.finRange 16).take (selectBranch d key).val ++
        selectBranch d key :: (List.finRange 16).drop ((selectBranch d key).val + 1) := by
    conv_lhs => rw [← List.take_append_drop (selectBranch d key).val (List.finRange 16), List.drop_eq_getElem_cons hlt]
    simp
  have hbefore : ((List.finRange 16).take (selectBranch d key).val).flatMap
      (fun i => (cs i).items.filter (key < ·.key)) = [] := by
    rw [List.flatMap_eq_nil_iff]
    intro j hj
    rw [List.filter_eq_nil_iff]
    intro x hx
    have hjlt : j < selectBranch d key := by
      obtain ⟨k, hk, rfl⟩ := List.mem_take_iff_getElem.mp hj
      rw [List.getElem_finRange]
      rw [Fin.lt_def]
      exact lt_of_lt_of_le hk (min_le_left _ _)
    have hless : x.key < key := by
      apply lt_of_agree hp.depth_lt (hagree j x hx).symm
      rwa [hp.select j x hx]
    exact decide_eq_true_iff.not.mpr (BitVec.lt_asymm hless)
  have hafter : ((List.finRange 16).drop ((selectBranch d key).val + 1)).flatMap
      (fun i => (cs i).items.filter (key < ·.key)) = itemsFrom cs ((selectBranch d key).val + 1) := by
    refine List.flatMap_congr fun j hj => List.filter_eq_self.mpr fun x hx => ?_
    have hjlt : selectBranch d key < j := by
      obtain ⟨k, hk, rfl⟩ := List.mem_drop_iff_getElem.mp hj
      rw [List.getElem_finRange, Fin.lt_def]
      change _ < _ + k
      omega
    have hless : key < x.key := by
      apply lt_of_agree hp.depth_lt (hagree j x hx)
      rwa [hp.select j x hx]
    simpa using hless
  rw [items, List.filter_flatMap]
  conv_lhs => rw [hsplit, List.flatMap_append, List.flatMap_cons, hbefore, hafter, List.nil_append]

theorem Placed.filter_items_of_not_agree {p : Prefix} (hp : Placed (some p) d br cs) (hne : ¬Agree d p.common key) :
    (AbstractNode.inner (some p) s h br hs cs).items.filter (key < ·.key) =
      if key < p.common then (AbstractNode.inner (some p) s h br hs cs).items else [] := by
  obtain ⟨e, he, hagree, hdiff⟩ := exists_first_difference hne
  have hd := hp.depth_lt
  have hitem (x : Item) (hx : x ∈ (AbstractNode.inner (some p) s h br hs cs).items) : Agree d p.common x.key := by
    obtain ⟨i, hi⟩ := mem_items_inner.mp hx
    exact (hp.own p rfl).2 i x hi
  rcases lt_or_gt_of_ne hdiff with hlt | hgt
  · have hcommon : p.common < key := lt_of_agree (by omega) hagree hlt
    rw [if_neg (BitVec.lt_asymm hcommon), List.filter_eq_nil_iff]
    intro x hx
    have hx' := hitem x hx
    have hless : x.key < key := by
      apply lt_of_agree (show e < 64 by omega) ((hx'.mono he.le).symm.trans hagree)
      rwa [← hx' e he]
    exact decide_eq_true_iff.not.mpr (BitVec.lt_asymm hless)
  · have hcommon : key < p.common := lt_of_agree (by omega) hagree.symm hgt
    rw [if_pos hcommon, List.filter_eq_self]
    intro x hx
    have hx' := hitem x hx
    have hless : key < x.key := by
      apply lt_of_agree (show e < 64 by omega) (hagree.symm.trans (hx'.mono he.le))
      rwa [← hx' e he]
    simpa using hless

/-- The iterator at the first item of `l`, or what `rest` gives if there is none. -/
def Bound (res : Option Iterator) (l : List Item) (rest : Option Iterator) (more : List Item) : Prop :=
  (l = [] ∧ res = rest) ∨ ∃ it x l', l = x :: l' ∧ res = some it ∧ At it x (l' ++ more)

theorem boundUp_inner (ht : Trail key stack) (ho : Ordered d (.inner v2 s h br hs cs))
    (hbelow : Follows key stack (AbstractNode.inner v2 s h br hs cs).items) :
    Bound (boundUp key ((.inner v2 s h br hs cs, d) :: stack)) (itemsFrom cs (boundBranch v2 d key)) (boundUp key stack)
      (after key stack) := by
  rw [boundUp]
  cases hfirst : firstBranch br (boundBranch v2 d key) with
  | none => exact .inl ⟨itemsFrom_of_none ho.placed hfirst, rfl⟩
  | some i =>
    obtain ⟨it, x, l, hit, hitems, hat⟩ := itemBelow_of_child ht ho hbelow hfirst (firstBelow_eq (ho.child _))
    exact .inr ⟨it, x, l, hitems, hit, hat⟩

theorem Placed.leaves_iff (hp : Placed v2 d br cs) :
    (v2.any fun p => !p.hasCommonPrefix key) = true ↔ ∃ p, v2 = some p ∧ ¬Agree d p.common key := by
  cases v2 with
  | none => simp
  | some p =>
    have hd := hp.depth_lt
    have hown := (hp.own p rfl).1
    have hiff : p.hasCommonPrefix key = true ↔ _ := Prefix.hasCommonPrefix_iff (by omega)
    rw [hown] at hiff
    simp [← hiff]

theorem itemsFrom_end : itemsFrom cs 16 = [] := by
  have hdrop : (List.finRange 16).drop 16 = [] := by decide
  rw [itemsFrom, hdrop]
  rfl

theorem bound_walk (ho : Ordered d n) (hn : n.isNull = false) (ht : Trail key stack)
    (hbelow : Follows key stack n.items)
    (hagree : ∀ s h br hs cs, n = .inner none s h br hs cs → ∀ x ∈ n.items, Agree d key x.key) :
    Bound ((n.walkTowardsKey key d stack).bind (boundUp key)) (n.items.filter (key < ·.key)) (boundUp key stack)
      (after key stack) := by
  induction ho generalizing stack with
  | null => cases hn
  | leaf d item type s h =>
    have hkey : ∀ p ∈ stack, selectBranch p.2 key = selectBranch p.2 item.key :=
      fun p hp => (hbelow item List.mem_cons_self p hp).symm
    simp only [AbstractNode.walkTowardsKey, Option.bind_some, boundUp, items, List.filter_singleton]
    by_cases hlt : key < item.key
    · simp only [hlt, decide_true, if_true, cond_true]
      exact .inr ⟨_, item, [], rfl, rfl, _, stack, rfl, ht.congr hkey, (after_congr ht hkey).symm⟩
    · simp only [hlt, decide_false, if_false, cond_false]
      exact .inl ⟨rfl, rfl⟩
  | @inner v2 d s h br hs cs hp hc ih =>
    have ho : Ordered d (.inner v2 s h br hs cs) := .inner hp hc
    have hup := boundUp_inner ht ho hbelow
    simp only [AbstractNode.walkTowardsKey]
    by_cases hleave : (v2.any fun p => !p.hasCommonPrefix key) = true
    · -- the key leaves the prefix of the node
      obtain ⟨p, rfl, hne⟩ := hp.leaves_iff.mp hleave
      have hfalse : p.hasCommonPrefix key = false := by simpa using hleave
      rw [if_pos hleave, Option.bind_some, hp.filter_items_of_not_agree hne]
      simp only [boundBranch, hfalse, Bool.false_eq_true, if_false] at hup
      by_cases hlt : key < p.common
      · rw [if_pos hlt] at hup ⊢
        exact hup
      · rw [if_neg hlt] at hup ⊢
        rwa [itemsFrom_end] at hup
    · have hall : ∀ i, ∀ x ∈ (cs i).items, Agree d key x.key := by
        intro i x hx
        cases v2 with
        | none => exact hagree s h br hs cs rfl x (mem_items_inner.mpr ⟨i, hx⟩)
        | some p =>
          have hcommon : Agree d p.common key := not_not.mp fun hne => hleave (hp.leaves_iff.mpr ⟨p, rfl, hne⟩)
          exact hcommon.symm.trans ((hp.own p rfl).2 i x hx)
      have hbranch : boundBranch v2 d key = (selectBranch d key).val + 1 := by
        cases v2 with
        | none => rfl
        | some p =>
          have htrue : p.hasCommonPrefix key = true := by simpa using hleave
          rw [boundBranch, if_pos htrue]
      rw [if_neg hleave, hp.filter_items hall]
      rw [hbranch] at hup
      by_cases hbr : br (selectBranch d key) = true
      · rw [if_pos hbr]
        have hnn : (cs (selectBranch d key)).isNull = false := by
          have hlink := hp.branch (selectBranch d key)
          rw [hbr] at hlink
          simpa using hlink.symm
        have hchild : Follows key ((.inner v2 s h br hs cs, d) :: stack) (cs (selectBranch d key)).items := by
          intro x hx q hq
          obtain rfl | hq := List.mem_cons.mp hq
          · exact hp.select _ x hx
          · exact hbelow x (mem_items_inner.mpr ⟨_, hx⟩) q hq
        have hv1 : ∀ s' h' br' hs' cs', cs (selectBranch d key) = .inner none s' h' br' hs' cs' →
            ∀ x ∈ (cs (selectBranch d key)).items, Agree (childDepth v2 d (cs (selectBranch d key))) key x.key := by
          intro s' h' br' hs' cs' heq x hx
          cases v2 with
          | none => exact (hall _ x hx).succ (hp.select _ x hx).symm
          | some p =>
            have hchild := hc (selectBranch d key)
            rw [heq] at hchild
            exact absurd hchild.placed.depth_lt (lt_irrefl 64)
        have hbound := ih (selectBranch d key) hnn (.cons ho hbelow ht) hchild hv1
        rw [after] at hbound
        obtain ⟨hnil, hres⟩ | ⟨it, x, l, hl, hres, hat⟩ := hbound
        · rw [hnil, List.nil_append, hres]
          exact hup
        · rw [hl, hres]
          exact .inr ⟨it, x, l ++ itemsFrom cs ((selectBranch d key).val + 1), rfl, rfl, by rwa [List.append_assoc]⟩
      · rw [if_neg hbr, Option.bind_some, hp.items_eq_nil (by simpa using hbr)]
        exact hup

end

/-! ## Iteration over a map -/

/-- Iteration over a tree visits the items of the table in ascending order of their keys, from the beginning and from the
first above any key. -/
def Iterates (root : AbstractNode) (f : Table) : Prop :=
  ∃ l : List Item, (∀ x, x ∈ l ↔ f x.key = some x.data) ∧ l.Pairwise (fun x y => x.key < y.key) ∧
    (∃ it, peekFirstItem root = some it ∧ Visits it l) ∧
    ∀ key, ∃ it, upperBound root key = some it ∧ Visits it (l.filter (key < ·.key))

section

variable {root : AbstractNode} (ho : Ordered 0 root) (hn : root.isNull = false)
include ho hn

theorem Ordered.peekFirstItem :
    ∃ it, ShaMap.peekFirstItem root = some it ∧ Visits it root.items := by
  cases hitems : root.items with
  | nil =>
    refine ⟨none, ?_, .done⟩
    cases ho with
    | null => cases hn
    | leaf => cases hitems
    | @inner v2 _ s h br hs cs hp hc =>
      cases hfirst : firstBranch br 0 with
      | none =>
        rw [ShaMap.peekFirstItem, firstBelow]
        simp only [hfirst]
      | some i =>
        obtain ⟨hbr, -, hsplit⟩ := itemsFrom_of_some hp hfirst
        rw [itemsFrom_zero, hitems] at hsplit
        exact absurd (List.append_eq_nil_iff.mp hsplit.symm).1 (hp.items_ne_nil hbr)
  | cons x l =>
    have htrail : Trail 0 [] := .nil
    obtain ⟨it, hit, hat⟩ := firstBelow_eq ho hitems (fun _ _ p hp => absurd hp (List.not_mem_nil)) htrail
    rw [after, List.append_nil] at hat
    refine ⟨it, ?_, hat.visits⟩
    unfold itemBelow at hit
    unfold ShaMap.peekFirstItem
    split at hit
    · next heq =>
      rw [heq]
      exact hit
    · cases hit

theorem Ordered.upperBound (key : Hash) :
    ∃ it, ShaMap.upperBound root key = some it ∧ Visits it (root.items.filter (key < ·.key)) := by
  have htrail : Trail key [] := .nil
  have hbound := bound_walk ho hn htrail (fun _ _ p hp => absurd hp (List.not_mem_nil))
    (fun _ _ _ _ _ _ _ _ e he => absurd he (Nat.not_lt_zero e))
  rw [after] at hbound
  obtain ⟨hnil, hres⟩ | ⟨it, x, l, hl, hres, hat⟩ := hbound
  · exact ⟨none, hres, hnil ▸ .done⟩
  · rw [List.append_nil] at hat
    exact ⟨it, hres, hl ▸ hat.visits⟩

theorem Ordered.iterates {f : Table}
    (hmem : ∀ x, x ∈ root.items ↔ f x.key = some x.data) : Iterates root f :=
  ⟨root.items, hmem, ho.items_pairwise, ho.peekFirstItem hn, ho.upperBound hn⟩

end

end ScfChain.ShaMap
