import ScfChain.ShaMap.Collision
import ScfChain.ShaMap.Delta

/-!
# What a comparison finds

The comparison is taken apart by keys. What it puts into the table for a key depends on the items that the two trees have
for it (`find`): nothing if they are the same, the two of them if they differ. This needs the comparison to follow the key
(`tracked`): branches with equal hashes have to hold the same item for it, and two inner nodes that are compared have to
have it on the same branch. In version 1 they always have, since they are at the same depth. In version 2 they need not,
and then the key is reported as missing from either map.
-/

namespace ScfChain.ShaMap

open Data AbstractNode

/-! ## Items by key -/

/-- The item with a key in a tree. -/
def AbstractNode.find (n : AbstractNode) (key : Hash) : Option Item := n.items.find? (·.key = key)

/-- `a` is the item with the key in a list, if there is one. -/
def Lookup (l : List Item) (key : Hash) (a : Option Item) : Prop := ∀ x, a = some x ↔ x ∈ l ∧ x.key = key

variable {key : Hash} {l : List Item} {a b : Option Item} {x : Item}

theorem Lookup.none_iff (h : Lookup l key a) : a = none ↔ ∀ x ∈ l, x.key ≠ key := by
  rw [Option.eq_none_iff_forall_ne_some]
  constructor
  · exact fun hnone x hx hkey => hnone x ((h x).mpr ⟨hx, hkey⟩)
  · exact fun hall x hx => hall x ((h x).mp hx).1 ((h x).mp hx).2

theorem Lookup.unique (ha : Lookup l key a) (hb : Lookup l key b) : a = b := by
  apply Option.ext
  intro x
  rw [ha x, hb x]

theorem Lookup.tail (h : Lookup (x :: l) key a) (hx : x.key ≠ key) : Lookup l key a := by
  intro y
  rw [h y, List.mem_cons]
  constructor
  · rintro ⟨rfl | hy, hkey⟩
    · exact absurd hkey hx
    · exact ⟨hy, hkey⟩
  · exact fun hy => ⟨.inr hy.1, hy.2⟩

theorem Lookup.head (h : Lookup (x :: l) key a) (hx : x.key = key) : a = some x := (h x).mpr ⟨List.mem_cons_self, hx⟩

theorem Lookup.reverse (h : Lookup l key a) : Lookup l.reverse key a := by
  intro y
  rw [h y, List.mem_reverse]

theorem find_leaf {type : TNType} {q : UInt32} {t : Hash} :
    (AbstractNode.leaf x type q t).find key = (some x).filter (·.key = key) := by
  rw [AbstractNode.find, items, List.find?_singleton, Option.filter_some]

section
variable {d : ℕ} {n : AbstractNode} {v2 : Option Prefix} {s : UInt32} {h : Hash} {br : Fin 16 → Bool} {hs : Fin 16 → Hash}
  {cs : Fin 16 → AbstractNode} {i : Fin 16}

theorem Ordered.nodup (ho : Ordered d n) : (n.items.map Item.key).Nodup := by
  rw [List.Nodup, List.pairwise_map]
  refine ho.items_pairwise.imp ?_
  intro x y hlt heq
  rw [heq] at hlt
  exact BitVec.lt_irrefl y.key hlt

theorem Ordered.lookup (ho : Ordered d n) (key : Hash) : Lookup n.items key (n.find key) := by
  intro x
  constructor
  · intro hx
    exact ⟨List.mem_of_find?_eq_some hx, by simpa using List.find?_some hx⟩
  · rintro ⟨hx, hkey⟩
    cases hfind : n.find key with
    | none =>
      have hno := List.find?_eq_none.mp hfind x hx
      exact absurd hkey (by simpa using hno)
    | some y =>
      have hy : y.key = key := by simpa using List.find?_some hfind
      rw [List.inj_on_of_nodup_map ho.nodup (List.mem_of_find?_eq_some hfind) hx (hy.trans hkey.symm)]

theorem Ordered.find_inner (ho : Ordered d (.inner v2 s h br hs cs)) (key : Hash) :
    (AbstractNode.inner v2 s h br hs cs).find key = (cs (selectBranch d key)).find key := by
  refine (ho.lookup key).unique fun x => ?_
  rw [(ho.child _).lookup key x]
  constructor
  · exact fun hx => ⟨mem_items_inner.mpr ⟨_, hx.1⟩, hx.2⟩
  · rintro ⟨hx, rfl⟩
    exact ⟨ho.placed.mem_child hx, rfl⟩

theorem Ordered.find_child (ho : Ordered d (.inner v2 s h br hs cs)) (hi : i ≠ selectBranch d key) : (cs i).find key = none := by
  rw [((ho.child i).lookup key).none_iff]
  rintro x hx rfl
  exact hi (ho.placed.select i x hx).symm

end

/-! ## A branch against an item -/

/-- The entries of a table with a key. -/
abbrev entries (key : Hash) (l : List (Hash × DeltaRef)) : List (Hash × DeltaRef) := l.filter (·.1 = key)

theorem entries_append (l l' : List (Hash × DeltaRef)) : entries key (l ++ l') = entries key l ++ entries key l' :=
  List.filter_append ..

theorem entries_cons_self {r : DeltaRef} (l : List (Hash × DeltaRef)) (hx : x.key = key) :
    entries key ((x.key, r) :: l) = (key, r) :: entries key l := by
  rw [entries, List.filter_cons_of_pos (by simpa using hx), hx]

theorem entries_cons_of_ne {r : DeltaRef} (l : List (Hash × DeltaRef)) (hx : x.key ≠ key) :
    entries key ((x.key, r) :: l) = entries key l := by
  rw [entries, List.filter_cons_of_neg (by simpa using hx)]

section
variable {other : Option Item} {isFirst emptyBranch : Bool} {o : Item}

theorem entries_walkEvents_cons (hx : x.key ≠ key) : ∃ e, (e = emptyBranch ∨ e = true) ∧
    entries key (walkEvents other isFirst emptyBranch (x :: l)) = entries key (walkEvents other isFirst e l) := by
  rw [walkEvents]
  split_ifs
  · exact ⟨emptyBranch, .inl rfl, entries_cons_of_ne _ hx⟩
  · exact ⟨true, .inr rfl, entries_cons_of_ne _ hx⟩
  · exact ⟨true, .inr rfl, rfl⟩

theorem entries_walkEvents_of_not_mem (hl : ∀ x ∈ l, x.key ≠ key) : entries key (walkEvents other isFirst emptyBranch l) = [] := by
  induction l generalizing emptyBranch with
  | nil => rfl
  | cons x l ih =>
    obtain ⟨e, -, he⟩ := entries_walkEvents_cons (hl x List.mem_cons_self)
    rw [he]
    exact ih fun y hy => hl y (List.mem_cons_of_mem x hy)

theorem entries_walkEvents (hnodup : (l.map Item.key).Nodup) (hother : emptyBranch = true ∨ ∀ o ∈ other, o.key ≠ key)
    (ha : Lookup l key a) : entries key (walkEvents other isFirst emptyBranch l) =
      if a = none then [] else [(key, deltaRef isFirst a none)] := by
  induction l generalizing emptyBranch with
  | nil =>
    rw [if_pos (ha.none_iff.mpr fun x hx => absurd hx List.not_mem_nil)]
    rfl
  | cons x l ih =>
    rw [List.map_cons, List.nodup_cons] at hnodup
    by_cases hx : x.key = key
    · have hmiss : emptyBranch = true ∨ other.map Item.key ≠ some x.key := by
        refine hother.imp id fun hno hkey => ?_
        obtain ⟨o, ho, hokey⟩ := Option.map_eq_some_iff.mp hkey
        exact hno o ho (hokey.trans hx)
      have htail : ∀ y ∈ l, y.key ≠ key := by
        intro y hy hykey
        exact hnodup.1 (List.mem_map.mpr ⟨y, hy, hykey.trans hx.symm⟩)
      rw [ha.head hx, walkEvents, if_pos hmiss, entries_cons_self _ hx, entries_walkEvents_of_not_mem htail]
      rfl
    · obtain ⟨e, hflag, he⟩ := entries_walkEvents_cons hx
      rw [he]
      refine ih hnodup.2 ?_ (ha.tail hx)
      rcases hflag with rfl | rfl
      · exact hother
      · exact .inl rfl

theorem entries_walkEvents_match (hnodup : (l.map Item.key).Nodup) (ho : o.key = key) (ha : Lookup l key a) :
    entries key (walkEvents (some o) isFirst false l) =
      if a = none ∨ a = some o then [] else [(key, deltaRef isFirst a (some o))] := by
  induction l with
  | nil =>
    rw [if_pos (.inl (ha.none_iff.mpr fun x hx => absurd hx List.not_mem_nil))]
    rfl
  | cons x l ih =>
    rw [List.map_cons, List.nodup_cons] at hnodup
    by_cases hx : x.key = key
    · have hhit : ¬(false = true ∨ (some o).map Item.key ≠ some x.key) := by simp [hx, ho]
      have htail : ∀ y ∈ l, y.key ≠ key := by
        intro y hy hykey
        exact hnodup.1 (List.mem_map.mpr ⟨y, hy, hykey.trans hx.symm⟩)
      rw [ha.head hx, walkEvents, if_neg hhit]
      by_cases hdata : o.data = x.data
      · have hsame : x = o := Item.ext (hx.trans ho.symm) hdata.symm
        rw [if_neg (by simp [hdata]), entries_walkEvents_of_not_mem htail, if_pos (.inr (by rw [hsame]))]
      · have hdiff : ¬(some x = none ∨ some x = some o) := by
          rintro (hnone | hsame)
          · cases hnone
          · exact hdata (by rw [Option.some.inj hsame])
        rw [if_pos (by simpa using hdata), entries_cons_self _ hx, entries_walkEvents_of_not_mem htail, if_neg hdiff]
    · have hmiss : false = true ∨ (some o).map Item.key ≠ some x.key := by
        right
        rw [Option.map_some, ho]
        exact fun heq => hx (Option.some.inj heq).symm
      rw [walkEvents, if_pos hmiss, entries_cons_of_ne _ hx, ih hnodup.2 (ha.tail hx)]

/-- **A branch against an item or nothing.** -/
theorem entries_branchEvents (hnodup : (l.map Item.key).Nodup) (ha : Lookup l key a) :
    entries key (branchEvents other isFirst l) =
      if a = other.filter (·.key = key) then [] else [(key, deltaRef isFirst a (other.filter (·.key = key)))] := by
  rw [branchEvents, entries_append]
  cases other with
  | none =>
    rw [Option.isNone_none, entries_walkEvents hnodup (.inl rfl) ha]
    exact List.append_nil _
  | some o =>
    by_cases ho : o.key = key
    · have hflag : walkFlag (some o) (some o).isNone l = decide (a ≠ none) := by
        rw [walkFlag, Option.isNone_some, Bool.false_or, Bool.eq_iff_iff, List.any_eq_true, decide_eq_true_iff, Ne, ha.none_iff]
        simp only [not_forall, not_not, exists_prop]
        refine exists_congr fun x => and_congr_right fun _ => ?_
        rw [decide_eq_true_iff, Option.map_some, Option.some.injEq, ho, eq_comm]
      rw [Option.isNone_some] at hflag ⊢
      rw [entries_walkEvents_match hnodup ho ha, hflag, Option.filter_some_pos (by simpa using ho)]
      cases a with
      | none =>
        simp only [true_or, if_true, List.nil_append, reduceCtorEq, if_false, ne_eq, not_true, decide_false]
        exact entries_cons_self [] ho
      | some x => simp [unmatchedEvents]
    · have hfilter : (some o).filter (·.key = key) = none := Option.filter_some_neg (by simpa using ho)
      have hno : ∀ o' ∈ some o, o'.key ≠ key := by
        rintro o' ho'
        rwa [← Option.some.inj ho']
      have hlast : entries key (unmatchedEvents (some o) isFirst (walkFlag (some o) (some o).isNone l)) = [] := by
        cases walkFlag (some o) (some o).isNone l with
        | true => rfl
        | false => exact entries_cons_of_ne [] ho
      rw [entries_walkEvents hnodup (.inr hno) ha, hlast, hfilter, List.append_nil]

end

/-! ## Two trees -/

/-- Whether the comparison follows a key. If two inner nodes have it on different branches, it is looked for on both of
them: an item that is in both trees is then passed over only if both times the hashes are equal. -/
def tracked (key : Hash) : AbstractNode → ℕ → AbstractNode → ℕ → Bool
  | .inner v2 s h br hs cs, d, .inner v2' s' h' br' hs' cs', d' =>
    let a := (AbstractNode.inner v2 s h br hs cs).find key
    let b := (AbstractNode.inner v2' s' h' br' hs' cs').find key
    let i := selectBranch d key
    let j := selectBranch d' key
    let here := tracked key (cs i) (childDepth v2 d (cs i)) (cs' i) (childDepth v2' d' (cs' i))
    let there := tracked key (cs j) (childDepth v2 d (cs j)) (cs' j) (childDepth v2' d' (cs' j))
    if h = h' then decide (a = b)
    else if i = j then here
    else if a ≠ none ∧ b ≠ none then decide (a = b) && !here && !there
    else here && there
  | n, _, n', _ => decide (n.hash = n'.hash → n.find key = n'.find key)

/-- The entry for a key whose items in the two trees are `a` and `b`. -/
def diffEntries (key : Hash) (a b : Option Item) : List (Hash × DeltaRef) := if a = b then [] else [(key, (a, b))]

/-- The entries for a key are not what they should be: there is none, or each says that one of the trees lacks it. -/
def Wrong (a b : Option Item) (l : List (Hash × DeltaRef)) : Prop :=
  a ≠ b ∧ l = [] ∨ a ≠ none ∧ b ≠ none ∧ l ≠ [] ∧ ∀ e ∈ l, e.2 = (a, none) ∨ e.2 = (none, b)

/-- What is put into the table for a key, if it is followed or not. -/
structure Reported (key : Hash) (a b : Option Item) (followed : Bool) (l : List (Hash × DeltaRef)) : Prop where
  of_true : followed = true → l.Perm (diffEntries key a b)
  of_false : followed = false → Wrong a b l

theorem Reported.intro {l : List (Hash × DeltaRef)} (h : l.Perm (diffEntries key a b)) : Reported key a b true l :=
  ⟨fun _ => h, fun hfalse => by cases hfalse⟩

theorem Wrong.perm {l l' : List (Hash × DeltaRef)} (h : Wrong a b l) (hperm : l.Perm l') : Wrong a b l' := by
  obtain ⟨hne, rfl⟩ | ⟨ha, hb, hne, hall⟩ := h
  · exact .inl ⟨hne, List.nil_perm.mp hperm⟩
  · refine .inr ⟨ha, hb, ?_, fun e he => hall e (hperm.mem_iff.mpr he)⟩
    rintro rfl
    exact hne (List.perm_nil.mp hperm)

theorem Reported.perm {followed : Bool} {l l' : List (Hash × DeltaRef)} (h : Reported key a b followed l) (hperm : l'.Perm l) :
    Reported key a b followed l' :=
  ⟨fun ht => hperm.trans (h.of_true ht), fun hf => (h.of_false hf).perm hperm.symm⟩

theorem diffEntries_self : diffEntries key a a = [] := if_pos rfl

theorem Reported.eq_nil {followed : Bool} {l : List (Hash × DeltaRef)} (hr : Reported key none none followed l) :
    followed = true ∧ l = [] := by
  cases followed with
  | true => exact ⟨rfl, List.perm_nil.mp (diffEntries_self ▸ hr.of_true rfl)⟩
  | false =>
    obtain ⟨hne, -⟩ | ⟨hne, -⟩ := hr.of_false rfl
    · exact absurd rfl hne
    · exact absurd rfl hne

theorem Reported.of_lacking {followed : Bool} {l : List (Hash × DeltaRef)} (hr : Reported key a b followed l) (hne : a ≠ b)
    (hlacking : a = none ∨ b = none) : l = if followed then [(key, (a, b))] else [] := by
  cases followed with
  | true =>
    have hperm := hr.of_true rfl
    rw [diffEntries, if_neg hne] at hperm
    exact List.perm_singleton.mp hperm
  | false =>
    obtain ⟨-, hnil⟩ | ⟨ha, hb, -⟩ := hr.of_false rfl
    · exact hnil
    · exact absurd hlacking (not_or.mpr ⟨ha, hb⟩)

theorem entries_leavesEvents (x y : Item) (key : Hash) : entries key (leavesEvents x y) =
    diffEntries key ((some x).filter (·.key = key)) ((some y).filter (·.key = key)) := by
  rw [leavesEvents, diffEntries]
  by_cases hx : x.key = key
  · rw [Option.filter_some_pos (by simpa using hx)]
    by_cases hy : y.key = key
    · rw [Option.filter_some_pos (by simpa using hy), if_pos (hx.trans hy.symm)]
      by_cases hdata : x.data = y.data
      · rw [if_neg (not_not.mpr hdata), if_pos (by rw [Item.ext (hx.trans hy.symm) hdata])]
        rfl
      · rw [if_pos hdata, entries_cons_self _ hx, if_neg fun heq => hdata (by rw [Option.some.inj heq])]
        rfl
    · rw [Option.filter_some_neg (by simpa using hy), if_neg fun heq : x.key = y.key => hy (heq.symm.trans hx), entries_cons_self _ hx,
        entries_cons_of_ne _ hy]
      rfl
  · rw [Option.filter_some_neg (by simpa using hx)]
    by_cases hy : y.key = key
    · rw [Option.filter_some_pos (by simpa using hy), if_neg fun heq => hx (heq.trans hy), entries_cons_of_ne _ hx,
        entries_cons_self _ hy]
      rfl
    · rw [Option.filter_some_neg (by simpa using hy), if_pos rfl]
      split_ifs
      · exact entries_cons_of_ne _ hx
      · rfl
      · rw [entries_cons_of_ne _ hx, entries_cons_of_ne _ hy]
        rfl

theorem perm_flatMap_two {β : Type} {F : Fin 16 → List β} {i j : Fin 16} (hij : i ≠ j) (hF : ∀ k, k ≠ i → k ≠ j → F k = []) :
    ((List.finRange 16).flatMap F).Perm (F i ++ F j) := by
  have hi := List.perm_cons_erase (List.mem_finRange i)
  have hj : j ∈ (List.finRange 16).erase i := (List.mem_erase_of_ne hij.symm).mpr (List.mem_finRange j)
  have hsplit := (hi.trans ((List.perm_cons_erase hj).cons i)).flatMap_right F
  refine hsplit.trans ?_
  rw [List.flatMap_cons, List.flatMap_cons]
  have hrest : (((List.finRange 16).erase i).erase j).flatMap F = [] := by
    rw [List.flatMap_eq_nil_iff]
    intro k hk
    have hnodup := (List.nodup_finRange 16).erase i
    have hkj := (hnodup.mem_erase_iff.mp hk)
    exact hF k ((List.nodup_finRange 16).mem_erase_iff.mp hkj.2).1 hkj.1
  rw [hrest, List.append_nil]

theorem perm_flatMap_one {β : Type} {F : Fin 16 → List β} {i : Fin 16} (hF : ∀ k, k ≠ i → F k = []) :
    ((List.finRange 16).flatMap F).Perm (F i) := by
  have hne : i ≠ i + 1 := by omega
  have htwo := perm_flatMap_two hne fun k hk _ => hF k hk
  rwa [hF (i + 1) hne.symm, List.append_nil] at htwo

section
variable {sha : List UInt8 → Hash} {ty : TNType} {d d' : ℕ} {n n' : AbstractNode} {v2 v2' : Option Prefix} {s s' : UInt32}
  {h h' : Hash} {br br' : Fin 16 → Bool} {hs hs' : Fin 16 → Hash} {cs cs' : Fin 16 → AbstractNode}

theorem Ordered.entries_branchEvents (ho : Ordered d n) (other : Option Item) (isFirst : Bool) :
    entries key (branchEvents other isFirst n.items.reverse) =
      if isFirst then diffEntries key (n.find key) (other.filter (·.key = key))
      else diffEntries key (other.filter (·.key = key)) (n.find key) := by
  have hnodup : (n.items.reverse.map Item.key).Nodup := by
    rw [List.map_reverse]
    exact List.nodup_reverse.mpr ho.nodup
  rw [ShaMap.entries_branchEvents hnodup (ho.lookup key).reverse]
  cases isFirst with
  | true => rfl
  | false =>
    show _ = diffEntries key _ _
    exact if_congr eq_comm rfl rfl

/-- What the comparison of two inner nodes puts into the table for a branch. -/
def eventsAt (br br' : Fin 16 → Bool) (hs hs' : Fin 16 → Hash) (cs cs' : Fin 16 → AbstractNode) (i : Fin 16) :
    List (Hash × DeltaRef) :=
  oneSided br br' hs hs' cs cs' i ++ if descends br br' hs hs' i then compareEvents (cs i) (cs' i) else []

theorem tracked_of_hash_eq (heq : n.hash = n'.hash) : tracked key n d n' d' = decide (n.find key = n'.find key) := by
  cases n with
  | null => simp [tracked, heq]
  | leaf => simp [tracked, heq]
  | inner v2 s h br hs cs =>
    cases n' with
    | null => simp [tracked, heq]
    | leaf => simp [tracked, heq]
    | inner v2' s' h' br' hs' cs' => exact if_pos heq

theorem tracked_of_not_inner (hne : n.hash ≠ n'.hash)
    (hno : (∀ v2 s h br hs cs, n ≠ .inner v2 s h br hs cs) ∨ ∀ v2 s h br hs cs, n' ≠ .inner v2 s h br hs cs) :
    tracked key n d n' d' = true := by
  cases n with
  | null => simp [tracked, hne]
  | leaf => simp [tracked, hne]
  | inner v2 s h br hs cs =>
    cases n' with
    | null => simp [tracked, hne]
    | leaf => simp [tracked, hne]
    | inner v2' s' h' br' hs' cs' =>
      rcases hno with hno | hno
      · exact absurd rfl (hno v2 s h br hs cs)
      · exact absurd rfl (hno v2' s' h' br' hs' cs')

theorem find_of_not_branch (hn : Whole sha ty d (.inner v2 s h br hs cs)) {i : Fin 16} (hi : br i = false) :
    (cs i).find key = none := by
  rw [AbstractNode.find, hn.items_of_not_branch hi]
  rfl

theorem ne_inner_of_isNull (hn : n.isNull = true) : ∀ v2 s h br hs cs, n ≠ .inner v2 s h br hs cs := by
  rintro v2 s h br hs cs rfl
  cases hn

theorem reported_branch (hn : Whole sha ty d (.inner v2 s h br hs cs)) (hn' : Whole sha ty d' (.inner v2' s' h' br' hs' cs'))
    (i : Fin 16) {e e' : ℕ} (hboth : br i = true → br' i = true → hs i ≠ hs' i → Reported key ((cs i).find key) ((cs' i).find key)
      (tracked key (cs i) e (cs' i) e') (entries key (compareEvents (cs i) (cs' i)))) :
    Reported key ((cs i).find key) ((cs' i).find key) (tracked key (cs i) e (cs' i) e')
      (entries key (eventsAt br br' hs hs' cs cs' i)) := by
  have hchild : hs i = hs' i ↔ (cs i).hash = (cs' i).hash := by rw [← hn.hashed.hashes_eq, ← hn'.hashed.hashes_eq]
  rw [eventsAt, oneSided, descends]
  by_cases hhash : hs i = hs' i
  · -- nothing is put into the table
    rw [tracked_of_hash_eq (hchild.mp hhash)]
    simp only [hhash, if_true, ne_eq, not_true, decide_false, Bool.false_and, Bool.false_eq_true, if_false, List.append_nil]
    refine ⟨fun hfind => ?_, fun hfind => .inl ⟨of_decide_eq_false hfind, rfl⟩⟩
    rw [of_decide_eq_true hfind, diffEntries_self]
    exact .refl _
  · have hne := hchild.not.mp hhash
    simp only [hhash, if_false, ne_eq, not_false_iff, decide_true, Bool.true_and]
    cases hi' : br' i with
    | false =>
      have hnull : (cs' i).isNull = true := by simpa [hi'] using hn'.hashed.branch_eq i
      rw [tracked_of_not_inner hne (.inr (ne_inner_of_isNull hnull)), find_of_not_branch hn' hi']
      simp only [if_true, Bool.false_and, Bool.false_eq_true, if_false, List.append_nil,
        (hn.ordered.child i).entries_branchEvents]
      exact .intro (.refl _)
    | true =>
      cases hi : br i with
      | false =>
        have hnull : (cs i).isNull = true := by simpa [hi] using hn.hashed.branch_eq i
        rw [tracked_of_not_inner hne (.inl (ne_inner_of_isNull hnull)), find_of_not_branch hn hi]
        simp only [Bool.true_eq_false, if_false, if_true, Bool.and_false, Bool.false_eq_true, List.append_nil,
          (hn'.ordered.child i).entries_branchEvents]
        exact .intro (.refl _)
      | true =>
        simp only [Bool.true_eq_false, if_false, Bool.and_true, if_true, List.nil_append]
        exact hboth hi hi' hhash

theorem perm_compareEvents_inner : (compareEvents (.inner v2 s h br hs cs) (.inner v2' s' h' br' hs' cs')).Perm
    ((List.finRange 16).flatMap (eventsAt br br' hs hs' cs cs')) := by
  have hperm := perm_flatMap_push (oneSided br br' hs hs' cs cs')
    (fun i => if descends br br' hs hs' i then [(cs i, cs' i)] else []) (fun q => compareEvents q.1 q.2) (List.finRange 16)
  rw [flatMap_ite_eq, ← List.map_reverse, List.flatMap_map] at hperm
  rw [compareEvents]
  refine hperm.trans (.of_eq (congrArg (List.flatMap · (List.finRange 16)) (funext fun i => ?_)))
  rw [eventsAt]
  cases descends br br' hs hs' i with
  | false => rfl
  | true => exact congrArg _ (List.append_nil _)

theorem reported_of_ne {here there : Bool} {l l' : List (Hash × DeltaRef)} (hleft : Reported key a none here l)
    (hright : Reported key none b there l') :
    Reported key a b (if a ≠ none ∧ b ≠ none then decide (a = b) && !here && !there else here && there) (l ++ l') := by
  by_cases ha : a = none
  · subst ha
    obtain ⟨rfl, rfl⟩ := hleft.eq_nil
    simpa using hright
  · by_cases hb : b = none
    · subst hb
      obtain ⟨rfl, rfl⟩ := hright.eq_nil
      simpa using hleft
    · rw [if_pos ⟨ha, hb⟩, hleft.of_lacking ha (.inr rfl), hright.of_lacking (Ne.symm hb) (.inl rfl)]
      cases here with
      | true =>
        rw [Bool.not_true, Bool.and_false, Bool.false_and]
        refine ⟨fun ht => absurd ht Bool.false_ne_true, fun _ => .inr ⟨ha, hb, by simp, ?_⟩⟩
        cases there with
        | true => simp
        | false => simp
      | false =>
        cases there with
        | true =>
          rw [Bool.not_true, Bool.and_false]
          exact ⟨fun ht => absurd ht Bool.false_ne_true, fun _ => .inr ⟨ha, hb, by simp, by simp⟩⟩
        | false =>
          rw [Bool.not_false, Bool.and_true, Bool.and_true]
          refine ⟨fun heq => ?_, fun hne => .inl ⟨of_decide_eq_false hne, rfl⟩⟩
          rw [of_decide_eq_true heq, diffEntries_self]
          exact .refl _

theorem reported_inner (hn : Whole sha ty d (.inner v2 s h br hs cs)) (hn' : Whole sha ty d' (.inner v2' s' h' br' hs' cs'))
    (hne : h ≠ h') (hbranch : ∀ i, Reported key ((cs i).find key) ((cs' i).find key)
      (tracked key (cs i) (childDepth v2 d (cs i)) (cs' i) (childDepth v2' d' (cs' i)))
      (entries key (eventsAt br br' hs hs' cs cs' i))) :
    Reported key ((AbstractNode.inner v2 s h br hs cs).find key) ((AbstractNode.inner v2' s' h' br' hs' cs').find key)
      (tracked key (.inner v2 s h br hs cs) d (.inner v2' s' h' br' hs' cs') d')
      (entries key (compareEvents (.inner v2 s h br hs cs) (.inner v2' s' h' br' hs' cs'))) := by
  have hsum : (entries key (compareEvents (.inner v2 s h br hs cs) (.inner v2' s' h' br' hs' cs'))).Perm _ :=
    perm_compareEvents_inner.filter _
  rw [List.filter_flatMap] at hsum
  have hempty : ∀ i, i ≠ selectBranch d key → i ≠ selectBranch d' key →
      entries key (eventsAt br br' hs hs' cs cs' i) = [] := by
    intro i hi hi'
    have hr := hbranch i
    rw [hn.ordered.find_child hi, hn'.ordered.find_child hi'] at hr
    exact hr.eq_nil.2
  rw [tracked]
  simp only [if_neg hne, hn.ordered.find_inner, hn'.ordered.find_inner]
  by_cases hsame : selectBranch d key = selectBranch d' key
  · have hone := hsum.trans (perm_flatMap_one (i := selectBranch d key) fun i hi => hempty i hi (hsame ▸ hi))
    rw [if_pos hsame, ← hsame]
    exact (hbranch _).perm hone
  · have htwo := hsum.trans (perm_flatMap_two hsame hempty)
    have hleft := hbranch (selectBranch d key)
    have hright := hbranch (selectBranch d' key)
    rw [hn'.ordered.find_child hsame] at hleft
    rw [hn.ordered.find_child (Ne.symm hsame)] at hright
    rw [if_neg hsame]
    exact (reported_of_ne hleft hright).perm htwo

/-- **What a comparison puts into the table for a key.** -/
theorem Whole.reported (hn : Whole sha ty d n) (hn' : Whole sha ty d' n') (hne : n.hash ≠ n'.hash) (key : Hash) :
    Reported key (n.find key) (n'.find key) (tracked key n d n' d') (entries key (compareEvents n n')) := by
  induction n generalizing n' d d' with
  | null => exact hn.not_null.elim
  | leaf x type q t =>
    rw [tracked_of_not_inner hne (.inl (by simp)), find_leaf]
    refine .intro (.of_eq ?_)
    cases n' with
    | null => exact hn'.not_null.elim
    | leaf y type' q' t' => rw [find_leaf, compareEvents, entries_leavesEvents]
    | inner v2' q' t' br' hs' cs' => exact hn'.ordered.entries_branchEvents (some x) false
  | inner v2 q t br hs cs ih =>
    cases n' with
    | null => exact hn'.not_null.elim
    | leaf y type' q' t' =>
      rw [tracked_of_not_inner hne (.inr (by simp)), find_leaf]
      exact .intro (.of_eq (hn.ordered.entries_branchEvents (some y) true))
    | inner v2' q' t' br' hs' cs' =>
      refine reported_inner hn hn' hne fun i => reported_branch hn hn' i fun hi hi' hhash => ?_
      refine ih i (hn.child hi) (hn'.child hi') ?_
      rwa [← hn.hashed.hashes_eq, ← hn'.hashed.hashes_eq]

end

end ScfChain.ShaMap
