import ScfChain.Data.Ascending
import ScfChain.Data.Succeeds
import ScfChain.Ledger.Stack

/-!
# Views in the order of their keys

`succ` finds the next key of a view, and `sles` is an iterator over its entries. Both look into the table of the view and
ask the base of the view.

* The ledger below all tables keeps its entries in a `SHAMap`; `stateMap` are these entries in the order of their keys.
* The loop of `succ` over the base has as fuel the number of items of the table: it goes on only past an erased one.
* `Sles` is an implementation of `iter_base` with its `slesBegin` and `slesUpperBound`. A null pointer that is followed is
  an error.
* The `sles` of an `ApplyViewBase` are those of its base; what is in its own table is not among them.
-/

set_option linter.unusedSectionVars false

namespace ScfChain.Ledger

open Data

variable {K V : Type} [LinearOrder K]

/-! ## `succ` -/

section Succ

variable {E : Type} (erased : E → Bool) (items : Std.ExtTreeMap K E compare)

/-- The loop of `succ`: the next key of the base that the table does not erase. -/
def succBase (base : K → Except String (Option K)) : ℕ → K → Except String (Option K)
  | 0, _ => .error "out of fuel"
  | fuel + 1, key => do
    match ← base key with
    | none => return none
    | some next => if items[next]?.any erased then succBase base fuel next else return some next

/-- `succ` of a table. -/
def succ (base : K → Except String (Option K)) (key : K) (last : Option K) : Except String (Option K) := do
  let next ← succBase erased items base (items.size + 1) key
  let own := ((upperBound key items.toList).find? fun item => !erased item.2).map Prod.fst
  return (lowerOf next own).filter fun next => last.all (next < ·)

end Succ

def RawStateTable.succ (t : RawStateTable K V) (base : K → Except String (Option K)) (key : K) (last : Option K) :
    Except String (Option K) :=
  Ledger.succ (fun e => e.action = .erase) t.items base key last

def ApplyStateTable.succ (t : ApplyStateTable K V) (base : K → Except String (Option K)) (key : K) (last : Option K) :
    Except String (Option K) :=
  Ledger.succ (fun e => e.action = .erase) t.items base key last

/-- `succ` of a view. -/
def View.succ (stateMap : List (K × V)) (last : Option K) : View K V → K → Except String (Option K)
  | ledger _ _, key => .ok (((upperBound key stateMap).head?.map Prod.fst).filter fun next => last.all (next < ·))
  | raw base t, key => t.succ (base.succ stateMap last) key last
  | apply base t, key => t.succ (base.succ stateMap last) key last

/-! ## `sles` -/

structure Sles (K V : Type) : Type 1 where
  State : Type
  /-- The iterator is equal to `slesEnd`. -/
  atEnd : State → Bool
  dereference : State → Option (K × V)
  increment : State → Except String State
  slesBegin : Except String State
  slesUpperBound : K → Except String State

/-- The `sles` of a ledger: a walk through the `SHAMap`. -/
def ledgerSles (stateMap : List (K × V)) : Sles K V where
  State := List (K × V)
  atEnd := List.isEmpty
  dereference := List.head?
  increment l := .ok l.tail
  slesBegin := .ok stateMap
  slesUpperBound key := .ok (upperBound key stateMap)

namespace RawStateTable

variable (base : Sles K V)

/-- `iter0_` and `iter1_` of `sles_iter_impl`. -/
abbrev Iter := base.State × List (K × RawEntry V)

def sle0 (iter0 : base.State) : Option (K × V) := if base.atEnd iter0 then none else base.dereference iter0

def sle1 (iter1 : List (K × RawEntry V)) : Option (K × V) := iter1.head?.map fun item => (item.1, item.2.sle)

/-- `skip`: past the entries of the base that the table erases. -/
def skip : List (K × RawEntry V) → base.State → Except String (Iter base)
  | [], iter0 => .ok (iter0, [])
  | item :: iter1, iter0 =>
    if item.2.action ≠ .erase then .ok (iter0, item :: iter1)
    else
      match sle0 base iter0 with
      | none => .error "null pointer"
      | some sle =>
        if sle.1 ≠ item.1 then .ok (iter0, item :: iter1)
        else do
          let iter0 ← base.increment iter0
          if base.atEnd iter0 then return (iter0, iter1) else skip iter1 iter0

def increment (s : Iter base) : Except String (Iter base) :=
  match sle1 s.2, sle0 base s.1 with
  | some _, none => .ok (s.1, s.2.tail)
  | none, some _ => do return (← base.increment s.1, s.2)
  | none, none => .error "null pointer"
  | some sle1, some sle0 =>
    if sle1.1 = sle0.1 then do skip base s.2.tail (← base.increment s.1)
    else if sle1.1 < sle0.1 then skip base s.2.tail s.1
    else do skip base s.2 (← base.increment s.1)

def dereference (s : Iter base) : Option (K × V) :=
  match sle1 s.2, sle0 base s.1 with
  | none, sle0 => sle0
  | some sle1, none => some sle1
  | some sle1, some sle0 => if sle1.1 ≤ sle0.1 then some sle1 else some sle0

/-- The `sles` of a base with the table. -/
def sles (t : RawStateTable K V) : Sles K V where
  State := Iter base
  atEnd s := s.2.isEmpty && base.atEnd s.1
  dereference := dereference base
  increment := increment base
  slesBegin := do skip base t.items.toList (← base.slesBegin)
  slesUpperBound key := do skip base (upperBound key t.items.toList) (← base.slesUpperBound key)

end RawStateTable

/-- The `sles` of a view. -/
def View.sles (stateMap : List (K × V)) : View K V → Sles K V
  | ledger _ _ => ledgerSles stateMap
  | raw base t => t.sles (base.sles stateMap)
  | apply base _ => base.sles stateMap

/-- The entries that a loop from the iterator to the end visits, at most `fuel` steps. -/
def Sles.visit (S : Sles K V) : ℕ → S.State → Except String (List (K × V))
  | 0, _ => .error "out of fuel"
  | fuel + 1, s =>
    if S.atEnd s then .ok []
    else
      match S.dereference s with
      | none => .error "null pointer"
      | some e => do return e :: (← S.visit fuel (← S.increment s))

/-- The content of the ledger below all tables. -/
def View.root : View K V → K → Option V
  | ledger state _ => state
  | raw base _ => base.root
  | apply base _ => base.root

/-! ## `succ` finds the next key -/

section Succ

variable {E : Type} {erased : E → Bool} {items : Std.ExtTreeMap K E compare} {c : K → Option V} {last : Option K}

theorem lists_toList : Lists items.toList fun k => items[k]? := by
  refine ⟨?_, fun k e => Std.ExtTreeMap.mem_toList_iff_getElem?_eq_some⟩
  exact Std.ExtTreeMap.ordered_keys_toList.imp fun h => compare_lt_iff_lt.mp h

/-- The items above an item are fewer. -/
theorem length_filter_above_lt {key next : K} (hlt : key < next) (hnext : next ∈ items.toList.map Prod.fst) :
    (items.toList.filter (next < ·.1)).length < (items.toList.filter (key < ·.1)).length := by
  obtain ⟨item, hitem, rfl⟩ := List.mem_map.mp hnext
  have hsub : items.toList.filter (item.1 < ·.1) = (items.toList.filter (key < ·.1)).filter (item.1 < ·.1) := by
    rw [List.filter_filter]
    refine List.filter_congr fun x _ => ?_
    by_cases hx : item.1 < x.1
    · simp [hx, hlt.trans hx]
    · simp [hx]
  rw [hsub, List.length_filter_lt_length_iff_exists]
  exact ⟨item, List.mem_filter.mpr ⟨hitem, by simpa using hlt⟩, by simp⟩

theorem succBase_spec {base : K → Except String (Option K)}
    (hbase : ∀ key, ∃ r, base key = .ok r ∧ IsSucc (between c key last) r) (fuel : ℕ) (key : K)
    (hfuel : (items.toList.filter (key < ·.1)).length < fuel) :
    ∃ r, succBase erased items base fuel key = .ok r ∧
      IsSucc {k ∈ between c key last | items[k]?.any erased = false} r := by
  induction fuel generalizing key with
  | zero => omega
  | succ fuel ih =>
    obtain ⟨r, hr, hsucc⟩ := hbase key
    unfold succBase
    rw [hr]
    cases r with
    | none =>
      refine ⟨none, rfl, ?_⟩
      rw [show between c key last = ∅ from hsucc]
      exact Set.eq_empty_of_forall_notMem fun k hk => hk.1
    | some next =>
      by_cases herased : items[next]?.any erased = true
      · -- the key is erased, and the search goes on above it
        obtain ⟨e, he⟩ : ∃ e, items[next]? = some e := by
          cases hi : items[next]? with
          | none =>
            rw [hi] at herased
            cases herased
          | some e => exact ⟨e, rfl⟩
        have hmem : next ∈ items.toList.map Prod.fst :=
          List.mem_map.mpr ⟨(next, e), Std.ExtTreeMap.mem_toList_iff_getElem?_eq_some.mpr he, rfl⟩
        have hless := length_filter_above_lt hsucc.1.2.1 hmem
        obtain ⟨r, hr, hrest⟩ := ih next (by omega)
        refine ⟨r, ?_, ?_⟩
        · simp only [ok_bind, herased, if_true]
          exact hr
        · have hsame : {k ∈ between c next last | items[k]?.any erased = false} =
              {k ∈ between c key last | items[k]?.any erased = false} := by
            ext k
            constructor
            · rintro ⟨⟨hk, hlt, hlast⟩, hne⟩
              exact ⟨⟨hk, hsucc.1.2.1.trans hlt, hlast⟩, hne⟩
            · rintro ⟨hk, hne⟩
              refine ⟨⟨hk.1, (hsucc.2 hk).lt_of_ne ?_, hk.2.2⟩, hne⟩
              rintro rfl
              rw [hne] at herased
              cases herased
          rwa [hsame] at hrest
      · refine ⟨some next, ?_, ⟨hsucc.1, by simpa using herased⟩, fun k hk => hsucc.2 hk.1⟩
        simp only [ok_bind, herased]
        rfl

/-- `succ` of a table finds the next key of the overlay. -/
theorem succ_spec {shown : E → Option V} (hshown : ∀ e, shown e = none ↔ erased e = true)
    {base : K → Except String (Option K)} (hbase : ∀ key, ∃ r, base key = .ok r ∧ IsSucc (between c key last) r) (key : K) :
    ∃ r, succ erased items base key last = .ok r ∧ IsSucc (between (overlay shown items c) key last) r := by
  have hfuel : (items.toList.filter (key < ·.1)).length < items.size + 1 := by
    have := List.length_filter_le (fun item : K × E => decide (key < item.1)) items.toList
    rw [Std.ExtTreeMap.length_toList] at this
    omega
  obtain ⟨next, hnext, hA⟩ : ∃ next, succBase erased items base (items.size + 1) key = .ok next ∧ _ :=
    succBase_spec hbase _ key hfuel
  have habove : Lists (upperBound key items.toList) (above key fun k => items[k]?) := lists_toList.upperBound
  have hB := habove.isSucc_find fun e => !erased e
  unfold succ
  rw [hnext]
  refine ⟨_, rfl, ?_⟩
  convert (hA.union hB).below last using 1
  ext k
  constructor
  · rintro ⟨hk, hlt, hlast⟩
    refine ⟨?_, hlast⟩
    cases hi : items[k]? with
    | none =>
      rw [overlay_of_none hi] at hk
      exact Or.inl ⟨⟨hk, hlt, hlast⟩, by rw [hi]; rfl⟩
    | some e =>
      rw [overlay_of_some hi, ne_eq, hshown] at hk
      exact Or.inr ⟨e, above_eq_some_iff.mpr ⟨hlt, hi⟩, by simpa using hk⟩
  · rintro ⟨⟨⟨hk, hlt, -⟩, hne⟩ | ⟨e, he, hne⟩, hlast⟩
    · refine ⟨?_, hlt, hlast⟩
      cases hi : items[k]? with
      | none => rwa [overlay_of_none hi]
      | some e =>
        rw [overlay_of_some hi, ne_eq, hshown]
        rw [hi] at hne
        simpa using hne
    · obtain ⟨hlt, hi⟩ := above_eq_some_iff.mp he
      refine ⟨?_, hlt, hlast⟩
      rw [overlay_of_some hi, ne_eq, hshown]
      simpa using hne

theorem RawEntry.shown_eq_none_iff (e : RawEntry V) : e.shown = none ↔ decide (e.action = .erase) = true := by
  unfold RawEntry.shown
  cases e.action <;> simp

theorem Entry.shown_eq_none_iff (e : Entry V) : e.shown = none ↔ decide (e.action = .erase) = true := by
  unfold Entry.shown
  cases e.action <;> simp

theorem View.succ_spec {stateMap : List (K × V)} {v : View K V} (hmap : Lists stateMap v.root) (last : Option K) (key : K) :
    ∃ r, v.succ stateMap last key = .ok r ∧ IsSucc (between v.content key last) r := by
  induction v generalizing key with
  | ledger state drops =>
    have habove : Lists (upperBound key stateMap) (above key _) := hmap.upperBound
    have hhead := habove.isSucc_find fun _ => true
    refine ⟨_, rfl, ?_⟩
    convert hhead.below last using 1
    · ext k
      constructor
      · rintro ⟨hk, hlt, hlast⟩
        obtain ⟨v, hv⟩ := Option.ne_none_iff_exists'.mp hk
        exact ⟨⟨v, above_eq_some_iff.mpr ⟨hlt, hv⟩, rfl⟩, hlast⟩
      · rintro ⟨⟨v, hv, -⟩, hlast⟩
        obtain ⟨hlt, hv⟩ := above_eq_some_iff.mp hv
        exact ⟨ne_of_eq_of_ne hv (Option.some_ne_none v), hlt, hlast⟩
    · cases upperBound key stateMap <;> rfl
  | raw base t ih => exact Ledger.succ_spec RawEntry.shown_eq_none_iff (ih hmap) key
  | apply base t ih => exact Ledger.succ_spec Entry.shown_eq_none_iff (ih hmap) key

end Succ

/-! ## `sles` visits the entries -/

section Sles

variable {S : Sles K V} {c : K → Option V} {Ahead : S.State → (K → Option V) → Prop}

/-- `Ahead s c` says what an iterator has still to visit: if it is not at the end, it stands on the least entry of `c`, and
after `increment` it has the others ahead. -/
structure Sles.Sim (S : Sles K V) (Ahead : S.State → (K → Option V) → Prop) : Prop where
  atEnd {s c} : Ahead s c → (S.atEnd s = true ↔ ∀ k, c k = none)
  step {s c} : Ahead s c → S.atEnd s = false →
    ∃ k v s', Least c k v ∧ S.dereference s = some (k, v) ∧ S.increment s = .ok s' ∧ Ahead s' (above k c)

/-- The iterators of `S` have the content `c` ahead. -/
def Sles.Shows (S : Sles K V) (c : K → Option V) : Prop :=
  ∃ Ahead, S.Sim Ahead ∧ (∃ s, S.slesBegin = .ok s ∧ Ahead s c) ∧
    ∀ key, ∃ s, S.slesUpperBound key = .ok s ∧ Ahead s (above key c)

theorem Sles.Sim.visit (h : S.Sim Ahead) {l : List (K × V)} {fuel : ℕ} {s : S.State} (hs : Ahead s c) (hl : Lists l c)
    (hfuel : l.length < fuel) : S.visit fuel s = .ok l := by
  induction l generalizing c fuel s with
  | nil =>
    obtain ⟨fuel, rfl⟩ := Nat.exists_eq_succ_of_ne_zero hfuel.ne_bot
    unfold Sles.visit
    rw [if_pos ((h.atEnd hs).mpr (hl.nil_iff.mp rfl))]
  | cons e l ih =>
    obtain ⟨fuel, rfl⟩ := Nat.exists_eq_succ_of_ne_zero hfuel.ne_bot
    obtain ⟨k, v⟩ := e
    have hend : S.atEnd s = false := by
      rw [Bool.eq_false_iff]
      intro hend
      cases hl.nil_iff.mpr ((h.atEnd hs).mp hend)
    obtain ⟨k', v', s', hleast, hderef, hinc, hs'⟩ := h.step hs hend
    obtain ⟨rfl, rfl⟩ := hleast.eq hl.least
    have hrest := ih hs' hl.tail (Nat.lt_of_succ_lt_succ hfuel)
    unfold Sles.visit
    simp only [hend, hderef, hinc, ok_bind, hrest]
    rfl

theorem ledgerSles_shows {stateMap : List (K × V)} (h : Lists stateMap c) : (ledgerSles stateMap).Shows c := by
  refine ⟨fun l c => Lists l c, ⟨fun {l c} hl => ?_, fun {l c} hl hend => ?_⟩, ⟨_, rfl, h⟩, fun key => ⟨_, rfl, h.upperBound⟩⟩
  · exact List.isEmpty_iff.trans hl.nil_iff
  · cases l with
    | nil => cases hend
    | cons e l => exact ⟨e.1, e.2, l, hl.least, rfl, rfl, hl.tail⟩

end Sles

namespace RawStateTable

variable {base : Sles K V} {Ahead : base.State → (K → Option V) → Prop} {m : K → Option (RawEntry V)} {c : K → Option V}

/-- The items `m` over the content `c`. -/
def layered (m : K → Option (RawEntry V)) (c : K → Option V) : K → Option V := fun k => (m k).elim (c k) RawEntry.shown

theorem above_layered (key : K) : above key (layered m c) = layered (above key m) (above key c) := by
  funext k
  unfold layered
  by_cases h : key < k
  · rw [above_of_lt h, above_of_lt h, above_of_lt h]
  · rw [above_of_le (not_lt.mp h), above_of_le (not_lt.mp h), above_of_le (not_lt.mp h)]
    rfl

variable {k : K} {s : Iter base} {e : RawEntry V}

theorem le_of_layered (hm : ∀ k', m k' ≠ none → k ≤ k') (hc : ∀ k', c k' ≠ none → k ≤ k') (k' : K)
    (hk' : layered m c k' ≠ none) : k ≤ k' := by
  cases hi : m k' with
  | none =>
    unfold layered at hk'
    rw [hi] at hk'
    exact hc k' hk'
  | some e => exact hm k' (by rw [hi]; exact Option.some_ne_none e)

/-- What the two iterators have ahead; the table erases only what the base has. -/
structure Merged (Ahead : base.State → (K → Option V) → Prop) (s : Iter base) (m : K → Option (RawEntry V))
    (c : K → Option V) : Prop where
  base : Ahead s.1 c
  items : Lists s.2 m
  fits : ∀ k e, m k = some e → e.action = .erase → c k ≠ none

/-- An erased item is not next: the base has an entry before it. -/
def Clean (s : Iter base) : Prop :=
  ∀ item iter1, s.2 = item :: iter1 → item.2.action = .erase → ∃ sle, sle0 base s.1 = some sle ∧ sle.1 < item.1

theorem Merged.next (h : Merged Ahead s m c) (s' : Iter base) (hbase : Ahead s'.1 (above k c))
    (hitems : Lists s'.2 (above k m)) : Merged Ahead s' (above k m) (above k c) := by
  refine ⟨hbase, hitems, fun k' e he herase => ?_⟩
  obtain ⟨hlt, he⟩ := above_eq_some_iff.mp he
  exact above_ne_none_iff.mpr ⟨hlt, h.fits k' e he herase⟩

/-- At the end of the base no erased item is left. -/
theorem Merged.clean_of_atEnd (h : Merged Ahead s m c) (hend : ∀ k, c k = none) : Clean s := by
  intro item iter1 hs herase
  have hitem : m item.1 = some item.2 := (h.items.mem _ _).mp (by rw [hs]; exact List.mem_cons_self)
  exact absurd (hend item.1) (h.fits _ _ hitem herase)

theorem shown_of_erase (h : e.action = .erase) : e.shown = none := by
  rw [RawEntry.shown_eq_none_iff, h]
  rfl

theorem shown_of_ne_erase (h : e.action ≠ .erase) : e.shown = some e.sle := by
  obtain ⟨action, id, sle⟩ := e
  cases action with
  | erase => exact absurd rfl h
  | insert => rfl
  | replace => rfl

theorem sle0_eq {iter0 : base.State} {sle : K × V} (hend : base.atEnd iter0 = false)
    (h : base.dereference iter0 = some sle) : sle0 base iter0 = some sle := by
  unfold sle0
  rw [hend]
  exact h

/-- `skip` leaves the same content ahead, and an erased item is not next. -/
theorem skip_spec (hsim : base.Sim Ahead) (iter1 : List (K × RawEntry V)) (iter0 : base.State)
    (h : Merged Ahead (iter0, iter1) m c) :
    ∃ s m' c', skip base iter1 iter0 = .ok s ∧ Merged Ahead s m' c' ∧ Clean s ∧ layered m' c' = layered m c := by
  induction iter1 generalizing iter0 m c with
  | nil => exact ⟨_, m, c, rfl, h, fun _ _ hs => absurd hs (List.cons_ne_nil _ _).symm, rfl⟩
  | cons item iter1 ih =>
    unfold skip
    by_cases herase : item.2.action = .erase
    · have hitem : m item.1 = some item.2 := h.items.least.entry
      have hbase : c item.1 ≠ none := h.fits _ _ hitem herase
      have hend : base.atEnd iter0 = false := by
        rw [Bool.eq_false_iff]
        exact fun hend => hbase ((hsim.atEnd h.base).mp hend item.1)
      obtain ⟨k, v, iter0', hleast, hderef, hinc, hbase'⟩ := hsim.step h.base hend
      simp only [herase, sle0_eq hend hderef, ne_eq, not_true, if_false]
      by_cases hk : k = item.1
      · -- the entry of the base is erased by the item: both are passed
        have hnext := h.next (iter0', iter1) hbase' (by rw [hk]; exact h.items.tail)
        have hsame : layered (above k m) (above k c) = layered m c := by
          rw [← above_layered]
          refine above_eq_self fun k' hk' => (le_of_layered ?_ hleast.le k' hk').lt_of_ne ?_
          · rw [hk]
            exact h.items.least.le
          · rintro rfl
            refine hk' ?_
            unfold layered
            rw [hk, hitem]
            exact shown_of_erase herase
        simp only [hk, not_true, if_false, hinc, ok_bind]
        by_cases hend' : base.atEnd iter0' = true
        · refine ⟨(iter0', iter1), _, _, by rw [if_pos hend']; rfl, hnext, ?_, hsame⟩
          exact hnext.clean_of_atEnd ((hsim.atEnd hbase').mp hend')
        · obtain ⟨s, m', c', hskip, hmerged, hclean, heq⟩ := ih iter0' hnext
          exact ⟨s, m', c', by rw [if_neg hend']; exact hskip, hmerged, hclean, heq.trans hsame⟩
      · simp only [hk, not_false_eq_true, if_true]
        refine ⟨_, m, c, rfl, h, ?_, rfl⟩
        rintro _ _ ⟨⟩ -
        exact ⟨_, sle0_eq hend hderef, (hleast.le _ hbase).lt_of_ne hk⟩
    · simp only [ne_eq, herase, not_false_eq_true, if_true]
      refine ⟨_, m, c, rfl, h, ?_, rfl⟩
      rintro _ _ ⟨⟩ herase'
      exact absurd herase' herase

theorem layered_of_some (h : m k = some e) : layered m c k = e.shown := by
  unfold layered
  rw [h]
  rfl

theorem layered_of_none (h : m k = none) : layered m c k = c k := by
  unfold layered
  rw [h]
  rfl

/-- The iterator stands on the least entry, and `increment` leaves the others ahead. -/
structure Stands (Ahead : base.State → (K → Option V) → Prop) (s : Iter base) (c : K → Option V) (k : K) (v : V) : Prop where
  least : Least c k v
  dereference : dereference base s = some (k, v)
  increment : ∃ s' m' c', increment base s = .ok s' ∧ Merged Ahead s' m' c' ∧ Clean s' ∧ above k c = layered m' c'

section Positions

variable {iter0 iter0' : base.State} {item : K × RawEntry V} {iter1 : List (K × RawEntry V)} {k : K} {v : V}

theorem stands_no_items (h : Merged Ahead (iter0, []) m c) (hend : base.atEnd iter0 = false) (hleast : Least c k v)
    (hderef : base.dereference iter0 = some (k, v)) (hinc : base.increment iter0 = .ok iter0')
    (hbase : Ahead iter0' (above k c)) : Stands Ahead (iter0, []) (layered m c) k v := by
  have hnone : ∀ k, m k = none := h.items.nil_iff.mp rfl
  have hsle := sle0_eq hend hderef
  refine ⟨⟨(layered_of_none (hnone k)).trans hleast.entry, fun k' hk' => hleast.le k' ?_⟩, ?_, (iter0', []), above k m, above k c, ?_,
    h.next _ hbase (h.items.upperBound), fun _ _ hs => absurd hs (List.cons_ne_nil _ _).symm, above_layered k⟩
  · rwa [layered_of_none (hnone k')] at hk'
  · exact hsle
  · unfold RawStateTable.increment
    simp only [sle1, List.head?_nil, Option.map_none, hsle, hinc, ok_bind]
    rfl

theorem stands_item (hsim : base.Sim Ahead) (h : Merged Ahead (iter0, item :: iter1) m c) (hclean : Clean (iter0, item :: iter1))
    (hbefore : ∀ k, c k ≠ none → item.1 ≤ k) :
    Stands Ahead (iter0, item :: iter1) (layered m c) item.1 item.2.sle := by
  have hitem : m item.1 = some item.2 := h.items.least.entry
  have hshown : item.2.action ≠ .erase := by
    intro herase
    obtain ⟨sle, hsle, hlt⟩ := hclean item iter1 rfl herase
    by_cases hend : base.atEnd iter0 = true
    · exact h.fits _ _ hitem herase ((hsim.atEnd h.base).mp hend _)
    · obtain ⟨k, v, -, hleast, hderef, -⟩ := hsim.step h.base (Bool.eq_false_iff.mpr hend)
      cases (sle0_eq (Bool.eq_false_iff.mpr hend) hderef).symm.trans hsle
      exact hlt.not_ge (hbefore k (by rw [hleast.entry]; exact Option.some_ne_none v))
  have hleast : Least (layered m c) item.1 item.2.sle :=
    ⟨(layered_of_some hitem).trans (shown_of_ne_erase hshown), le_of_layered h.items.least.le hbefore⟩
  by_cases hend : base.atEnd iter0 = true
  · -- the base is at its end
    have hnone := (hsim.atEnd h.base).mp hend
    have hsle : sle0 base iter0 = none := if_pos hend
    have hnext := h.next (k := item.1) (iter0, iter1)
      (by rw [above_eq_self fun k hk => absurd (hnone k) hk]; exact h.base) h.items.tail
    refine ⟨hleast, ?_, (iter0, iter1), _, _, ?_, hnext, hnext.clean_of_atEnd fun k => ?_, above_layered _⟩
    · unfold RawStateTable.dereference
      simp only [sle1, List.head?_cons, Option.map_some, hsle]
    · unfold RawStateTable.increment
      simp only [sle1, List.head?_cons, Option.map_some, hsle, List.tail_cons]
    · unfold above
      rw [hnone, ite_self]
  · obtain ⟨k, v, iter0', hbleast, hderef, hinc, hbase⟩ := hsim.step h.base (Bool.eq_false_iff.mpr hend)
    have hsle := sle0_eq (Bool.eq_false_iff.mpr hend) hderef
    have hle : item.1 ≤ k := hbefore k (by rw [hbleast.entry]; exact Option.some_ne_none v)
    have hd : dereference base (iter0, item :: iter1) = some (item.1, item.2.sle) := by
      unfold RawStateTable.dereference
      simp only [sle1, List.head?_cons, Option.map_some, hsle]
      rw [if_pos hle]
    rcases hle.eq_or_lt with heq | hlt
    · -- the entry of the base is replaced by the item
      rw [← heq] at hbase
      obtain ⟨s', m', c', hskip, hmerged, hclean', hsame⟩ := skip_spec hsim iter1 iter0'
        (h.next (iter0', iter1) hbase h.items.tail)
      refine ⟨hleast, hd, s', m', c', ?_, hmerged, hclean', (above_layered _).trans hsame.symm⟩
      unfold RawStateTable.increment
      simp only [sle1, List.head?_cons, Option.map_some, hsle, hinc, ok_bind, List.tail_cons]
      rw [if_pos heq]
      exact hskip
    · have hself : above item.1 c = c := above_eq_self fun k' hk' => hlt.trans_le (hbleast.le k' hk')
      obtain ⟨s', m', c', hskip, hmerged, hclean', hsame⟩ := skip_spec hsim iter1 iter0
        (h.next (k := item.1) (iter0, iter1) (by rw [hself]; exact h.base) h.items.tail)
      refine ⟨hleast, hd, s', m', c', ?_, hmerged, hclean', (above_layered _).trans hsame.symm⟩
      unfold RawStateTable.increment
      simp only [sle1, List.head?_cons, Option.map_some, hsle, List.tail_cons]
      rw [if_neg hlt.ne, if_pos hlt]
      exact hskip

theorem stands_base (hsim : base.Sim Ahead) (h : Merged Ahead (iter0, item :: iter1) m c) (hend : base.atEnd iter0 = false)
    (hleast : Least c k v) (hderef : base.dereference iter0 = some (k, v)) (hinc : base.increment iter0 = .ok iter0')
    (hbase : Ahead iter0' (above k c)) (hlt : k < item.1) : Stands Ahead (iter0, item :: iter1) (layered m c) k v := by
  have hafter : ∀ k', m k' ≠ none → k < k' := fun k' hk' => hlt.trans_le (h.items.least.le k' hk')
  have hnone : m k = none := by
    by_contra hk
    exact lt_irrefl k (hafter k hk)
  have hsle := sle0_eq hend hderef
  obtain ⟨s', m', c', hskip, hmerged, hclean, heq⟩ := skip_spec hsim (item :: iter1) iter0'
    (h.next (iter0', item :: iter1) hbase (by rw [above_eq_self hafter]; exact h.items))
  refine ⟨⟨(layered_of_none hnone).trans hleast.entry, le_of_layered (fun k' hk' => (hafter k' hk').le) hleast.le⟩, ?_, s', m', c', ?_,
    hmerged, hclean, (above_layered k).trans heq.symm⟩
  · unfold RawStateTable.dereference
    simp only [sle1, List.head?_cons, Option.map_some, hsle]
    rw [if_neg hlt.not_ge]
  · unfold RawStateTable.increment
    simp only [sle1, List.head?_cons, Option.map_some, hsle, hinc, ok_bind]
    rw [if_neg hlt.ne', if_neg hlt.not_gt]
    exact hskip

end Positions

theorem stands_or_atEnd (hsim : base.Sim Ahead) (h : Merged Ahead s m c) (hclean : Clean s) :
    (s.2 = [] ∧ base.atEnd s.1 = true ∧ ∀ k, layered m c k = none) ∨
      ((s.2 ≠ [] ∨ base.atEnd s.1 = false) ∧ ∃ k v, Stands Ahead s (layered m c) k v) := by
  obtain ⟨iter0, iter1⟩ := s
  by_cases hend : base.atEnd iter0 = true
  · have hnone := (hsim.atEnd h.base).mp hend
    cases iter1 with
    | nil => exact Or.inl ⟨rfl, hend, fun k => (layered_of_none (h.items.nil_iff.mp rfl k)).trans (hnone k)⟩
    | cons item iter1 =>
      exact Or.inr ⟨Or.inl (List.cons_ne_nil _ _), _, _, stands_item hsim h hclean fun k hk => absurd (hnone k) hk⟩
  · rw [Bool.not_eq_true] at hend
    refine Or.inr ⟨Or.inr hend, ?_⟩
    obtain ⟨k, v, iter0', hleast, hderef, hinc, hbase⟩ := hsim.step h.base hend
    cases iter1 with
    | nil => exact ⟨k, v, stands_no_items h hend hleast hderef hinc hbase⟩
    | cons item iter1 =>
      rcases lt_or_ge k item.1 with hlt | hge
      · exact ⟨k, v, stands_base hsim h hend hleast hderef hinc hbase hlt⟩
      · exact ⟨_, _, stands_item hsim h hclean fun k' hk' => hge.trans (hleast.le k' hk')⟩

/-- **The iterator over a base and a table** has the entries of the overlay ahead. -/
theorem sim (hsim : base.Sim Ahead) (t : RawStateTable K V) :
    (t.sles base).Sim fun s c => ∃ m c', Merged Ahead s m c' ∧ Clean s ∧ c = layered m c' := by
  constructor
  · rintro s _ ⟨m, c, h, hclean, rfl⟩
    show (s.2.isEmpty && base.atEnd s.1) = true ↔ _
    rcases stands_or_atEnd hsim h hclean with ⟨hnil, hend, hnone⟩ | ⟨hne, k, v, hstands⟩
    · simp [hnil, hend, hnone]
    · refine iff_of_false ?_ fun hnone => ?_
      · rcases hne with hne | hend
        · simp [hne]
        · simp [hend]
      · cases (hnone k).symm.trans hstands.least.entry
  · rintro s _ ⟨m, c, h, hclean, rfl⟩ hend
    rcases stands_or_atEnd hsim h hclean with ⟨hnil, hend', -⟩ | ⟨-, k, v, hleast, hderef, s', m', c', hinc, hmerged, hclean', heq⟩
    · change (s.2.isEmpty && base.atEnd s.1) = false at hend
      rw [hnil, hend'] at hend
      cases hend
    · exact ⟨k, v, s', hleast, hderef, hinc, m', c', hmerged, hclean', heq⟩

theorem shows (h : base.Shows c) (t : RawStateTable K V) (hfits : AllFit (View.RawFits true) t.items c) :
    (t.sles base).Shows (overlay RawEntry.shown t.items c) := by
  obtain ⟨Ahead, hsim, ⟨begin, hbegin, hahead⟩, hupper⟩ := h
  have herased : ∀ k e, t.items[k]? = some e → e.action = .erase → c k ≠ none := fun k e he herase => by
    have hfit := hfits k e he
    unfold View.RawFits at hfit
    rw [herase] at hfit
    exact hfit rfl
  have hstart : Merged Ahead (begin, t.items.toList) (fun k => t.items[k]?) c := ⟨hahead, lists_toList, herased⟩
  refine ⟨_, sim hsim t, ?_, fun key => ?_⟩
  · obtain ⟨s, m', c', hskip, hmerged, hclean, heq⟩ := skip_spec hsim _ _ hstart
    refine ⟨s, ?_, m', c', hmerged, hclean, heq.symm⟩
    show (base.slesBegin >>= fun iter0 => skip base t.items.toList iter0) = _
    rw [hbegin]
    exact hskip
  · obtain ⟨s₀, hs₀, hahead₀⟩ := hupper key
    obtain ⟨s, m', c', hskip, hmerged, hclean, heq⟩ := skip_spec hsim _ _
      (hstart.next (s₀, upperBound key t.items.toList) hahead₀ lists_toList.upperBound)
    refine ⟨s, ?_, m', c', hmerged, hclean, ?_⟩
    · show (base.slesUpperBound key >>= fun iter0 => skip base (upperBound key t.items.toList) iter0) = _
      rw [hs₀]
      exact hskip
    · rw [heq, ← above_layered]
      rfl

end RawStateTable

/-! ## Views -/

namespace View

/-- There is no `ApplyStateTable` among the tables of the view. -/
def OpenViews : View K V → Prop
  | ledger _ _ => True
  | raw base _ => base.OpenViews
  | apply _ _ => False

theorem sles_shows {stateMap : List (K × V)} {v : View K V} (hmap : Lists stateMap v.root) (hinv : v.Inv true)
    (hopen : v.OpenViews) : (v.sles stateMap).Shows v.content := by
  induction v with
  | ledger state drops => exact ledgerSles_shows hmap
  | raw base t ih => exact t.shows (ih hmap hinv.1 hopen) hinv.2
  | apply base t ih => cases hopen

theorem finite_overlay {E : Type} {shown : E → Option V} {items : Std.ExtTreeMap K E compare} {c : K → Option V}
    (h : {k | c k ≠ none}.Finite) : {k | overlay shown items c k ≠ none}.Finite := by
  have hlists : Lists items.toList fun k => items[k]? := lists_toList
  refine (hlists.finite.union h).subset fun k hk => ?_
  cases hi : items[k]? with
  | none => exact Or.inr fun hc => hk ((overlay_of_none hi).trans hc)
  | some e => exact Or.inl (by rw [Set.mem_ofPred_eq, hi]; exact Option.some_ne_none e)

theorem finite_content {stateMap : List (K × V)} {v : View K V} (hmap : Lists stateMap v.root) :
    {k | v.content k ≠ none}.Finite := by
  induction v with
  | ledger state drops => exact hmap.finite
  | raw base t ih => exact finite_overlay (ih hmap)
  | apply base t ih => exact finite_overlay (ih hmap)

/-- **A view in the order of its keys.** After any run, `succ` of either table finds the least key of the content of the
view above `key` and below `last`. Where no `ApplyStateTable` is below a `RawStateTable`, its `sles` visit the content of
the view, or what is above a key, in ascending order, and no null pointer is followed. -/
theorem ordered_traversal {state : K → Option V} {drops : ℤ} {v : View K V} {ls : List (Level K V)} {stateMap : List (K × V)}
    (hrun : Run true state drops v ls) (hmap : Lists stateMap v.root) :
    (∀ key last, ∃ r, v.succ stateMap last key = .ok r ∧ IsSucc (between v.content key last) r) ∧
      (v.OpenViews →
        (∃ s l, (v.sles stateMap).slesBegin = .ok s ∧ (v.sles stateMap).visit (l.length + 1) s = .ok l ∧
          Lists l v.content) ∧
        ∀ key, ∃ s l, (v.sles stateMap).slesUpperBound key = .ok s ∧ (v.sles stateMap).visit (l.length + 1) s = .ok l ∧
          Lists l (above key v.content)) := by
  refine ⟨fun key last => v.succ_spec hmap last key, fun hopen => ?_⟩
  obtain ⟨Ahead, hsim, ⟨s, hs, hahead⟩, hupper⟩ := sles_shows hmap hrun.spec.1 hopen
  obtain ⟨l, hl⟩ := exists_lists (finite_content hmap)
  refine ⟨⟨s, l, hs, hsim.visit hahead hl (Nat.lt_succ_self _), hl⟩, fun key => ?_⟩
  obtain ⟨s', hs', hahead'⟩ := hupper key
  exact ⟨s', upperBound key l, hs', hsim.visit hahead' hl.upperBound (Nat.lt_succ_self _), hl.upperBound⟩

/-- An `OpenView` on a `Sandbox` in which entry 5 was made: it is not among the `sles`, and once the `OpenView` has erased
it, `slesBegin` follows a null pointer. -/
theorem sles_over_sandbox :
    ∃ (v v' : View ℕ ℕ) (ls ls' : List (Level ℕ ℕ)), Run true (fun _ => none) 0 v ls ∧ Run true (fun _ => none) 0 v' ls' ∧
      Lists [] v.root ∧ v.content 5 = some 50 ∧ (v.sles []).slesBegin.bind ((v.sles []).visit 1) = .ok [] ∧
      v'.root = v.root ∧ (v'.sles []).slesBegin = .error "null pointer" := by
  have h₁ : Run true (fun _ => none : ℕ → Option ℕ) 0 _ _ := Run.ledger.sandbox.op (.insert ⟨5, 1, 50⟩) rfl rfl
  have h₂ := h₁.openView
  have h₃ := h₂.op (.rawErase ⟨5, 2, 50⟩) (fun _ => by simp [Op.act]) rfl
  exact ⟨_, _, _, _, h₂, h₃, ⟨List.Pairwise.nil, by simp [root]⟩, rfl, rfl, rfl, rfl⟩

/-- A ledger with the entry 2, and an `OpenView` on it in which it was erased and 4 made. -/
theorem ordered_traversal_erased :
    ∃ v : View ℕ ℕ, v.content 2 = none ∧ v.content 4 = some 40 ∧
      (∃ r, v.succ [(2, 20)] (some 9) 1 = .ok r ∧ IsSucc (between v.content 1 (some 9)) r) ∧
      ∃ s l, (v.sles [(2, 20)]).slesBegin = .ok s ∧ (v.sles [(2, 20)]).visit (l.length + 1) s = .ok l ∧ Lists l v.content := by
  have hmap : Lists [(2, 20)] (Function.update (fun _ => none) 2 (some 20) : ℕ → Option ℕ) := by
    refine ⟨List.pairwise_singleton _ _, fun k v => ?_⟩
    rcases eq_or_ne k 2 with rfl | hk
    · simp [eq_comm]
    · simp [hk]
  have h₁ : Run true (Function.update (fun _ => none) 2 (some 20) : ℕ → Option ℕ) 0 _ _ :=
    Run.ledger.openView.op (.rawErase ⟨2, 1, 20⟩) (fun _ => by simp) rfl
  have h₂ := h₁.op (.rawInsert ⟨4, 2, 40⟩) rfl rfl
  obtain ⟨hsucc, hsles⟩ := ordered_traversal h₂ hmap
  exact ⟨_, rfl, rfl, hsucc 1 (some 9), (hsles trivial).1⟩

end View

end ScfChain.Ledger
