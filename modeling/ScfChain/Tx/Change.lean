import ScfChain.App.AmendmentTable
import ScfChain.Data.Steps
import ScfChain.Tx.Transactor

/-!
# Amendments in the ledger

The pseudo-transactions that `doVoting` asks for change the ledger's entry of amendments: `sfAmendments` are the enabled
ones, `sfMajorities` those that have a majority, with the time it was recorded.

* `applyAmendment` : a pseudo-transaction.
* `Legal` : the actions that `doVoting` can ask for, `Effect` : what all actions of a vote do together.
* `Sound` : no amendment is listed twice.
* `amendment_activation` : what must have happened before an amendment is enabled.
-/

namespace ScfChain.Tx.Change

open App Data

variable {A : Type} [DecidableEq A]

/-! ## `Change::applyAmendment` -/

/-- The ledger's entry of amendments. -/
structure AmendmentsObject (A : Type) where
  sfAmendments : List A
  sfMajorities : Option (List (A × BitVec 32))

structure World (A : Type) where
  object : Option (AmendmentsObject A)
  table : AmendmentTable A
  amendmentBlocked : Bool

namespace World

/-- `getEnabledAmendments`. -/
def enabled (s : World A) : List A := (s.object.map AmendmentsObject.sfAmendments).getD []

def majorities (s : World A) : List (A × BitVec 32) := (s.object.bind AmendmentsObject.sfMajorities).getD []

/-- `getMajorityAmendments`: a later entry replaces an earlier one. -/
def getMajorityAmendments (s : World A) (amendment : A) : Option (BitVec 32) := s.majorities.reverse.lookup amendment

/-- The entry is written back. -/
def put (s : World A) (amendments : List A) (newMajorities : List (A × BitVec 32)) : World A :=
  { s with object := some ⟨amendments, if newMajorities.isEmpty then none else some newMajorities⟩ }

omit [DecidableEq A] in
@[simp] theorem enabled_put (s : World A) (amendments : List A) (majorities : List (A × BitVec 32)) :
    (s.put amendments majorities).enabled = amendments := rfl

omit [DecidableEq A] in
@[simp] theorem majorities_put (s : World A) (amendments : List A) (majorities : List (A × BitVec 32)) :
    (s.put amendments majorities).majorities = majorities := by
  cases majorities <;> rfl

/-- The majorities of the other amendments. -/
def others (s : World A) (amendment : A) : List (A × BitVec 32) := s.majorities.filter (·.1 ≠ amendment)

end World

/-- `Change::applyAmendment`, in a ledger whose parent closed at `parentCloseTime`. A result other than `tesSUCCESS` leaves
the ledger as it is. -/
def applyAmendment (s : World A) (parentCloseTime : BitVec 32) (amendment : A) (flags : BitVec 32) : TER × World A :=
  let gotMajority := flags &&& tfGotMajority ≠ 0
  let lostMajority := flags &&& tfLostMajority ≠ 0
  let found := amendment ∈ s.majorities.map Prod.fst
  if amendment ∈ s.enabled then (.tefALREADY, s)
  else if gotMajority ∧ lostMajority then (.temINVALID_FLAG, s)
  else if found ∧ gotMajority then (.tefALREADY, s)
  else if ¬ found ∧ lostMajority then (.tefALREADY, s)
  else if gotMajority then (.tesSUCCESS, s.put s.enabled (s.others amendment ++ [(amendment, parentCloseTime)]))
  else if lostMajority then (.tesSUCCESS, s.put s.enabled (s.others amendment))
  else
    (.tesSUCCESS, { s.put (s.enabled ++ [amendment]) (s.others amendment) with
      table := s.table.enable amendment
      amendmentBlocked := s.amendmentBlocked || !(s.table.enable amendment).isSupported amendment })

/-- The actions that `doVoting` can ask for. -/
def Legal (s : World A) (amendment : A) (flags : BitVec 32) : Prop :=
  amendment ∉ s.enabled ∧
    (flags = tfGotMajority ∧ amendment ∉ s.majorities.map Prod.fst ∨
      flags = tfLostMajority ∧ amendment ∈ s.majorities.map Prod.fst ∨
      flags = 0 ∧ amendment ∈ s.majorities.map Prod.fst)

/-- No amendment is listed twice, and the times of the majorities can be told from the default time. -/
structure Sound (s : World A) : Prop where
  enabled : s.enabled.Nodup
  majorities : (s.majorities.map Prod.fst).Nodup
  disjoint : ∀ a ∈ s.enabled, a ∉ s.majorities.map Prod.fst
  times : ∀ m ∈ s.majorities, m.2 ≠ 0

/-- The table knows the same amendments, or more, and has the same parameters. -/
structure SameTable (s s' : World A) : Prop where
  time : s'.table.majorityTime_ = s.table.majorityTime_
  fraction : s'.table.majorityFraction_ = s.table.majorityFraction_
  known : ∀ a, a ∈ s.table.amendmentMap_ → a ∈ s'.table.amendmentMap_

omit [DecidableEq A] in
theorem SameTable.refl (s : World A) : SameTable s s := ⟨rfl, rfl, fun _ h => h⟩

omit [DecidableEq A] in
theorem SameTable.trans {s s' s'' : World A} (h : SameTable s s') (h' : SameTable s' s'') : SameTable s s'' :=
  ⟨h'.time.trans h.time, h'.fraction.trans h.fraction, fun a ha => h'.known a (h.known a ha)⟩

theorem mem_enable (t : AmendmentTable A) (amendment a : A) (h : a ∈ t.amendmentMap_) :
    a ∈ (t.enable amendment).amendmentMap_ := by
  unfold AmendmentTable.enable
  dsimp only
  split_ifs <;> exact (AList.mem_insert _).mpr (.inr h)

theorem enable_time (t : AmendmentTable A) (amendment : A) :
    (t.enable amendment).majorityTime_ = t.majorityTime_ := by
  unfold AmendmentTable.enable
  dsimp only
  split_ifs <;> rfl

theorem enable_fraction (t : AmendmentTable A) (amendment : A) :
    (t.enable amendment).majorityFraction_ = t.majorityFraction_ := by
  unfold AmendmentTable.enable
  dsimp only
  split_ifs <;> rfl

/-- What a list of actions does: actions for other amendments do not matter, and the one for the amendment says what
becomes of it. -/
structure Effect (s : World A) (applied : List ((A × BitVec 32) × BitVec 32)) (s' : World A) : Prop where
  sound : Sound s'
  table : SameTable s s'
  others : ∀ a, a ∉ applied.map (·.1.1) → (a ∈ s'.enabled ↔ a ∈ s.enabled) ∧ ∀ t, (a, t) ∈ s'.majorities ↔ (a, t) ∈ s.majorities
  own : ∀ a flags t, ((a, flags), t) ∈ applied →
    (a ∈ s'.enabled ↔ flags = 0) ∧ ∀ u, (a, u) ∈ s'.majorities ↔ flags = tfGotMajority ∧ u = t

/-! ## The actions of a vote -/

variable {s s' : World A} {a : A} {flags t : BitVec 32}

theorem mem_others {b : A} {u : BitVec 32} : (b, u) ∈ s.others a ↔ b ≠ a ∧ (b, u) ∈ s.majorities := by
  simp [World.others, and_comm]

theorem nodup_others (h : Sound s) (a : A) : ((s.others a).map Prod.fst).Nodup :=
  h.majorities.sublist (List.filter_sublist.map _)

theorem notMem_others (s : World A) (a : A) : a ∉ (s.others a).map Prod.fst := by
  simp [World.others]

theorem applyAmendment_of_legal (h : Legal s a flags) (t : BitVec 32) :
    (applyAmendment s t a flags).1 = .tesSUCCESS ∧
      (applyAmendment s t a flags).2.enabled = s.enabled ++ (if flags = 0 then [a] else []) ∧
      (applyAmendment s t a flags).2.majorities = s.others a ++ (if flags = tfGotMajority then [(a, t)] else []) ∧
      SameTable s (applyAmendment s t a flags).2 := by
  obtain ⟨henabled, ⟨rfl, hfound⟩ | ⟨rfl, hfound⟩ | ⟨rfl, hfound⟩⟩ := h
  · have hresult : applyAmendment s t a tfGotMajority = (.tesSUCCESS, s.put s.enabled (s.others a ++ [(a, t)])) := by
      unfold applyAmendment
      simp [henabled, hfound, tfGotMajority, tfLostMajority]
    rw [hresult]
    exact ⟨rfl, by simp [tfGotMajority], by simp, rfl, rfl, fun _ h => h⟩
  · have hresult : applyAmendment s t a tfLostMajority = (.tesSUCCESS, s.put s.enabled (s.others a)) := by
      unfold applyAmendment
      simp [henabled, hfound, tfGotMajority, tfLostMajority]
    rw [hresult]
    exact ⟨rfl, by simp [tfLostMajority], by simp [tfLostMajority, tfGotMajority], rfl, rfl, fun _ h => h⟩
  · have hresult : applyAmendment s t a 0 = (.tesSUCCESS, { s.put (s.enabled ++ [a]) (s.others a) with
        table := s.table.enable a
        amendmentBlocked := s.amendmentBlocked || !(s.table.enable a).isSupported a }) := by
      unfold applyAmendment
      simp [henabled]
    rw [hresult]
    refine ⟨rfl, rfl, ?_, enable_time _ _, enable_fraction _ _, fun b => mem_enable s.table a b⟩
    rw [if_neg (by decide), List.append_nil]
    exact World.majorities_put s (s.enabled ++ [a]) (s.others a)

theorem effect_of_legal (hs : Sound s) (h : Legal s a flags) (ht : t ≠ 0) :
    Effect s [((a, flags), t)] (applyAmendment s t a flags).2 := by
  obtain ⟨-, henabled, hmajorities, htable⟩ := applyAmendment_of_legal h t
  generalize (applyAmendment s t a flags).2 = r at henabled hmajorities htable
  have hnot := notMem_others s a
  have hmem : ∀ b, b ∈ r.enabled ↔ b ∈ s.enabled ∨ flags = 0 ∧ b = a := by
    intro b
    rw [henabled]
    by_cases hf : flags = 0 <;> simp [hf]
  have hmem' : ∀ b u, (b, u) ∈ r.majorities ↔ b ≠ a ∧ (b, u) ∈ s.majorities ∨ flags = tfGotMajority ∧ b = a ∧ u = t := by
    intro b u
    rw [hmajorities, List.mem_append, mem_others]
    by_cases hf : flags = tfGotMajority <;> simp [hf]
  have hkeys : ∀ b, b ∈ r.majorities.map Prod.fst →
      b ≠ a ∧ b ∈ s.majorities.map Prod.fst ∨ flags = tfGotMajority ∧ b = a := by
    intro b hb
    obtain ⟨⟨b, u⟩, hbu, rfl⟩ := List.mem_map.mp hb
    rcases (hmem' b u).mp hbu with ⟨hne, hold⟩ | ⟨hf, hba, -⟩
    · exact .inl ⟨hne, List.mem_map_of_mem hold⟩
    · exact .inr ⟨hf, hba⟩
  refine ⟨⟨?_, ?_, ?_, ?_⟩, htable, ?_, ?_⟩
  · rw [henabled]
    refine hs.enabled.append ?_ ?_
    · split_ifs <;> simp
    · split_ifs
      · simpa using h.1
      · exact List.disjoint_nil_right _
  · rw [hmajorities, List.map_append]
    refine (nodup_others hs a).append ?_ ?_
    · split_ifs <;> simp
    · split_ifs
      · simpa using hnot
      · exact List.disjoint_nil_right _
  · intro b hb hb'
    rcases (hmem b).mp hb with hb | ⟨hf, rfl⟩
    · rcases hkeys b hb' with ⟨-, hold⟩ | ⟨-, rfl⟩
      · exact hs.disjoint b hb hold
      · exact h.1 hb
    · rcases hkeys b hb' with ⟨hne, -⟩ | ⟨hf', -⟩
      · exact hne rfl
      · rw [hf] at hf'
        exact absurd hf' (by decide)
  · rintro ⟨b, u⟩ hbu
    rcases (hmem' b u).mp hbu with ⟨-, hold⟩ | ⟨-, -, rfl⟩
    · exact hs.times _ hold
    · exact ht
  · intro b hb
    have hne : b ≠ a := by simpa using hb
    exact ⟨by simp [hmem, hne], fun u => by simp [hmem', hne]⟩
  · intro b flags' t' hb
    obtain ⟨⟨rfl, rfl⟩, rfl⟩ : (b = a ∧ flags' = flags) ∧ t' = t := by simpa using hb
    exact ⟨by simp [hmem, h.1], fun u => by simp [hmem']⟩

/-- The actions of a vote are applied, each with the time at which the parent of its ledger closed. -/
def applyAll (s : World A) (applied : List ((A × BitVec 32) × BitVec 32)) : World A :=
  applied.foldl (fun s p => (applyAmendment s p.2 p.1.1 p.1.2).2) s

omit [DecidableEq A] in
theorem Effect.legal {applied : List ((A × BitVec 32) × BitVec 32)} (h : Effect s applied s')
    (ha : a ∉ applied.map (·.1.1)) (hlegal : Legal s a flags) : Legal s' a flags := by
  obtain ⟨henabled, hmajorities⟩ := h.others a ha
  have hkeys : a ∈ s'.majorities.map Prod.fst ↔ a ∈ s.majorities.map Prod.fst := by
    simp only [List.mem_map, Prod.exists, exists_and_right, exists_eq_right, hmajorities]
  rw [Legal, henabled, hkeys]
  exact hlegal

theorem effect_applyAll {applied : List ((A × BitVec 32) × BitVec 32)} (hs : Sound s)
    (hlegal : ∀ p ∈ applied, Legal s p.1.1 p.1.2) (ht : ∀ p ∈ applied, p.2 ≠ 0) (hnodup : (applied.map (·.1.1)).Nodup) :
    Effect s applied (applyAll s applied) := by
  induction applied generalizing s with
  | nil => exact ⟨hs, .refl s, fun a _ => ⟨Iff.rfl, fun _ => Iff.rfl⟩, by simp⟩
  | cons p applied ih =>
    obtain ⟨hp, hnodup⟩ := List.nodup_cons.mp hnodup
    have hfirst := effect_of_legal hs (hlegal p (by simp)) (ht p (by simp))
    have hrest := ih hfirst.sound
      (fun q hq => hfirst.legal (fun h => hp (List.mem_map.mpr ⟨q, hq, by simpa using h⟩)) (hlegal q (by simp [hq])))
      (fun q hq => ht q (by simp [hq])) hnodup
    refine ⟨hrest.sound, hfirst.table.trans hrest.table, fun a ha => ?_, fun a flags t hmem => ?_⟩
    · rw [List.map_cons, List.mem_cons, not_or] at ha
      obtain ⟨henabled, hmajorities⟩ := hrest.others a ha.2
      obtain ⟨henabled', hmajorities'⟩ := hfirst.others a (by simpa using ha.1)
      exact ⟨henabled.trans henabled', fun u => (hmajorities u).trans (hmajorities' u)⟩
    · rcases List.mem_cons.mp hmem with rfl | hmem
      · obtain ⟨henabled, hmajorities⟩ := hrest.others a hp
        obtain ⟨henabled', hmajorities'⟩ := hfirst.own a flags t (by simp)
        exact ⟨henabled.trans henabled', fun u => (hmajorities u).trans (hmajorities' u)⟩
      · exact hrest.own a flags t hmem

/-! ## Votes -/

theorem Sound.getMajorityAmendments_eq_some_iff (h : Sound s) : s.getMajorityAmendments a = some t ↔ (a, t) ∈ s.majorities := by
  have hnodup : (s.majorities.reverse.map Prod.fst).Nodup := by
    rw [List.map_reverse]
    exact List.nodup_reverse.mpr h.majorities
  have hreverse : (a, t) ∈ s.majorities ↔ (a, t) ∈ s.majorities.reverse := List.mem_reverse.symm
  rw [World.getMajorityAmendments, hreverse]
  generalize s.majorities.reverse = l at hnodup
  rw [List.lookup_eq_some_iff]
  constructor
  · rintro ⟨before, after, rfl, -⟩
    simp
  · intro hmem
    obtain ⟨before, after, rfl⟩ := List.append_of_mem hmem
    refine ⟨before, after, rfl, fun p hp => ?_⟩
    rw [List.map_append, List.map_cons] at hnodup
    have hne := (List.nodup_append.mp hnodup).2.2 p.1 (List.mem_map_of_mem hp) a (by simp)
    simpa using hne.symm

theorem Sound.majorityTime_eq_zero_iff (h : Sound s) : (s.getMajorityAmendments a).getD 0 = 0 ↔ a ∉ s.majorities.map Prod.fst := by
  cases hget : s.getMajorityAmendments a with
  | none =>
    have hnone : ∀ t, (a, t) ∉ s.majorities := by
      intro t hmem
      rw [h.getMajorityAmendments_eq_some_iff.mpr hmem] at hget
      cases hget
    simpa using hnone
  | some t =>
    have hmem := h.getMajorityAmendments_eq_some_iff.mp hget
    have hkey : a ∈ s.majorities.map Prod.fst := List.mem_map_of_mem hmem
    exact iff_of_false (h.times _ hmem) (not_not.mpr hkey)

/-- A vote at a flag ledger: the close time and the validations that `doVoting` is given, and the pseudo-transactions
that are applied before the next vote. -/
structure Vote (A : Type) where
  closeTime : BitVec 32
  valSet : List (STValidation A)
  applied : List ((A × BitVec 32) × BitVec 32)

/-- The actions of a vote in a state. -/
def actions (s : World A) (v : Vote A) : List (A × BitVec 32) × AmendmentTable A :=
  s.table.doVoting v.closeTime s.enabled s.getMajorityAmendments v.valSet

/-- All actions are applied, in any order, in ledgers whose parents closed after the time zero. -/
def step (v : Vote A) (s s' : World A) : Prop :=
  (v.applied.map Prod.fst).Perm (actions s v).1 ∧ (∀ p ∈ v.applied, p.2 ≠ 0) ∧
    s' = applyAll { s with table := (actions s v).2 } v.applied

/-- The validators' majority at a vote. -/
def HasMajority (majorityFraction_ : ℕ) (v : Vote A) (a : A) : Prop :=
  (AmendmentSet.of majorityFraction_ v.valSet).hasValMajority a = true

variable {v : Vote A}

theorem Sound.action_cases (h : Sound s) (hmem : (a, flags) ∈ (actions s v).1) :
    a ∈ s.table.amendmentMap_ ∧ a ∉ s.enabled ∧
      (flags = tfGotMajority ∧ HasMajority s.table.majorityFraction_ v a ∧ a ∉ s.majorities.map Prod.fst ∨
        flags = tfLostMajority ∧ ¬ HasMajority s.table.majorityFraction_ v a ∧ a ∈ s.majorities.map Prod.fst ∨
        flags = 0 ∧ HasMajority s.table.majorityFraction_ v a ∧
          ∃ t, (a, t) ∈ s.majorities ∧ (t.toNat : ℤ) + s.table.majorityTime_ ≤ v.closeTime.toNat) := by
  obtain ⟨state, hlookup, haction⟩ := AmendmentTable.mem_doVoting.mp hmem
  refine ⟨AList.lookup_isSome.mp (by rw [hlookup]; rfl), ?_⟩
  obtain ⟨henabled, ⟨rfl, hvote, htime⟩ | ⟨rfl, hvote, htime⟩ | ⟨rfl, hvote, htime, hheld⟩⟩ :=
    AmendmentTable.action_cases haction
  · exact ⟨henabled, .inl ⟨rfl, hvote, h.majorityTime_eq_zero_iff.mp htime⟩⟩
  · refine ⟨henabled, .inr (.inl ⟨rfl, by simp [HasMajority, hvote], ?_⟩)⟩
    exact not_not.mp (h.majorityTime_eq_zero_iff.not.mp htime)
  · refine ⟨henabled, .inr (.inr ⟨rfl, hvote, ?_⟩)⟩
    cases hget : s.getMajorityAmendments a with
    | none => simp [hget] at htime
    | some t =>
      rw [hget] at hheld
      exact ⟨t, h.getMajorityAmendments_eq_some_iff.mp hget, hheld⟩

/-- The amendments with a recorded majority are known to the table. -/
def Known (s : World A) : Prop := ∀ a ∈ s.majorities.map Prod.fst, a ∈ s.table.amendmentMap_

theorem effect_of_step (hs : Sound s) (h : step v s s') : Effect s v.applied s' := by
  obtain ⟨hperm, htimes, rfl⟩ := h
  have hlegal : ∀ p ∈ v.applied, Legal { s with table := (actions s v).2 } p.1.1 p.1.2 := by
    intro p hp
    have hmem : (p.1.1, p.1.2) ∈ (actions s v).1 := hperm.mem_iff.mp (List.mem_map_of_mem hp)
    obtain ⟨-, henabled, ⟨hflags, -, hnot⟩ | ⟨hflags, -, hfound⟩ | ⟨hflags, -, t, ht, -⟩⟩ := hs.action_cases hmem
    · exact ⟨henabled, .inl ⟨hflags, hnot⟩⟩
    · exact ⟨henabled, .inr (.inl ⟨hflags, hfound⟩)⟩
    · exact ⟨henabled, .inr (.inr ⟨hflags, List.mem_map.mpr ⟨_, ht, rfl⟩⟩)⟩
  have hnodup : (v.applied.map (·.1.1)).Nodup := by
    have := (hperm.map Prod.fst).nodup_iff.mpr AmendmentTable.nodup_doVoting
    rwa [List.map_map] at this
  have hs' : Sound { s with table := (actions s v).2 } := ⟨hs.enabled, hs.majorities, hs.disjoint, hs.times⟩
  obtain ⟨hsound, htable, hothers, hown⟩ := effect_applyAll hs' hlegal htimes hnodup
  exact ⟨hsound, ⟨htable.time, htable.fraction, htable.known⟩, hothers, hown⟩

theorem mem_applied_iff (h : step v s s') : (∃ t, ((a, flags), t) ∈ v.applied) ↔ (a, flags) ∈ (actions s v).1 := by
  rw [← h.1.mem_iff]
  simp

theorem majority_of_step (hs : Sound s) (hknown : Known s) (h : step v s s') (hmem : (a, t) ∈ s'.majorities) :
    HasMajority s.table.majorityFraction_ v a ∧
      ((a, t) ∈ s.majorities ∨ a ∉ s.majorities.map Prod.fst ∧ ((a, tfGotMajority), t) ∈ v.applied) := by
  have heffect := effect_of_step hs h
  by_cases ha : a ∈ v.applied.map (·.1.1)
  · obtain ⟨⟨⟨_, flags⟩, u⟩, hp, rfl⟩ := List.mem_map.mp ha
    obtain ⟨rfl, rfl⟩ := ((heffect.own _ flags u hp).2 t).mp hmem
    have hcases := hs.action_cases ((mem_applied_iff h).mp ⟨t, hp⟩)
    obtain ⟨-, -, ⟨-, hmajority, hnot⟩ | ⟨hflags, -⟩ | ⟨hflags, -⟩⟩ := hcases
    · exact ⟨hmajority, .inr ⟨hnot, hp⟩⟩
    · exact absurd hflags (by decide)
    · exact absurd hflags (by decide)
  · have hold := ((heffect.others a ha).2 t).mp hmem
    have hkey : a ∈ s.majorities.map Prod.fst := List.mem_map_of_mem hold
    refine ⟨?_, .inl hold⟩
    by_contra hmajority
    -- without a majority the amendment would have been acted upon
    obtain ⟨state, hstate⟩ := (mem_iff_lookup _ _).mp (hknown a hkey)
    have hlost : (a, tfLostMajority) ∈ (actions s v).1 := by
      refine AmendmentTable.mem_doVoting.mpr ⟨state, hstate, AmendmentTable.action_of_lost ?_ ?_ ?_⟩
      · exact fun henabled => hs.disjoint a henabled hkey
      · simpa [HasMajority] using hmajority
      · exact hs.majorityTime_eq_zero_iff.not.mpr (not_not.mpr hkey)
    obtain ⟨u, hu⟩ := (mem_applied_iff h).mpr hlost
    exact ha (List.mem_map_of_mem hu)

theorem enabled_of_step (hs : Sound s) (h : step v s s') (ha : a ∈ s'.enabled) (hnot : a ∉ s.enabled) :
    HasMajority s.table.majorityFraction_ v a ∧
      ∃ t, (a, t) ∈ s.majorities ∧ (t.toNat : ℤ) + s.table.majorityTime_ ≤ v.closeTime.toNat := by
  have heffect := effect_of_step hs h
  by_cases hacted : a ∈ v.applied.map (·.1.1)
  · obtain ⟨⟨⟨_, flags⟩, u⟩, hp, rfl⟩ := List.mem_map.mp hacted
    obtain rfl := (heffect.own _ flags u hp).1.mp ha
    have hcases := hs.action_cases ((mem_applied_iff h).mp ⟨u, hp⟩)
    obtain ⟨-, -, ⟨hflags, -⟩ | ⟨hflags, -⟩ | ⟨-, hheld⟩⟩ := hcases
    · exact absurd hflags (by decide)
    · exact absurd hflags (by decide)
    · exact hheld
  · exact absurd ((heffect.others a hacted).1.mp ha) hnot

theorem enabled_step (hs : Sound s) (h : step v s s') (ha : a ∈ s.enabled) : a ∈ s'.enabled := by
  have hnot : a ∉ v.applied.map (·.1.1) := by
    intro hacted
    obtain ⟨⟨⟨_, flags⟩, u⟩, hp, rfl⟩ := List.mem_map.mp hacted
    exact (hs.action_cases ((mem_applied_iff h).mp ⟨u, hp⟩)).2.1 ha
  exact ((effect_of_step hs h).others a hnot).1.mpr ha

theorem known_step (hs : Sound s) (hknown : Known s) (h : step v s s') : Known s' := by
  intro a ha
  obtain ⟨⟨_, t⟩, hmem, rfl⟩ := List.mem_map.mp ha
  refine (effect_of_step hs h).table.known _ ?_
  rcases (majority_of_step hs hknown h hmem).2 with hold | ⟨-, hgot⟩
  · exact hknown _ (List.mem_map_of_mem hold)
  · exact (hs.action_cases ((mem_applied_iff h).mp ⟨t, hgot⟩)).1

/-! ## Runs of votes -/

/-- The amendments of the genesis ledger. -/
def Genesis (s : World A) : Prop := s.enabled.Nodup ∧ s.majorities = []

/-- The vote `r` of the run recorded the majority of `a` at the time `t`, and the validators' majority lasted since. -/
def Recorded (s₀ : World A) (votes : List (Vote A)) (s : World A) (a : A) (t : BitVec 32) : Prop :=
  ∃ before r after s₁ s₂, votes = before ++ r :: after ∧ Steps step s₀ before s₁ ∧ step r s₁ s₂ ∧ Steps step s₂ after s ∧
    a ∉ s₁.majorities.map Prod.fst ∧ ((a, tfGotMajority), t) ∈ r.applied ∧ (a, t) ∈ s₂.majorities ∧
    ∀ v ∈ r :: after, HasMajority s₀.table.majorityFraction_ v a

structure Reached (s₀ : World A) (votes : List (Vote A)) (s : World A) : Prop where
  sound : Sound s
  known : Known s
  table : SameTable s₀ s
  recorded : ∀ a t, (a, t) ∈ s.majorities → Recorded s₀ votes s a t

theorem reached_of_run {s₀ : World A} {votes : List (Vote A)} (h₀ : Genesis s₀) (h : Steps step s₀ votes s) :
    Reached s₀ votes s := by
  induction h with
  | nil =>
    obtain ⟨hnodup, hnil⟩ := h₀
    exact ⟨⟨hnodup, by simp [hnil], by simp [hnil], by simp [hnil]⟩, by simp [Known, hnil], .refl s₀, by simp [hnil]⟩
  | @snoc votes v s s' hrun hstep ih =>
    have heffect := effect_of_step ih.sound hstep
    refine ⟨heffect.sound, known_step ih.sound ih.known hstep, ih.table.trans heffect.table, fun a t hmem => ?_⟩
    obtain ⟨hmajority, hold | ⟨hnot, hgot⟩⟩ := majority_of_step ih.sound ih.known hstep hmem
    · rw [ih.table.fraction] at hmajority
      obtain ⟨before, r, after, s₁, s₂, rfl, hbefore, hr, hafter, hnot, hgot, hmem', hlasts⟩ := ih.recorded a t hold
      refine ⟨before, r, after ++ [v], s₁, s₂, by simp, hbefore, hr, .snoc hafter hstep, hnot, hgot, hmem', ?_⟩
      intro v' hv'
      rw [← List.cons_append] at hv'
      rcases List.mem_append.mp hv' with hv' | hv'
      · exact hlasts v' hv'
      · rw [List.mem_singleton.mp hv']
        exact hmajority
    · rw [ih.table.fraction] at hmajority
      exact ⟨votes, v, [], s, s', rfl, hrun, hstep, .nil, hnot, hgot, hmem, by simpa using hmajority⟩

theorem enabled_run {votes : List (Vote A)} (hs : Sound s) (h : Steps step s votes s') (ha : a ∈ s.enabled) :
    Sound s' ∧ a ∈ s'.enabled := by
  induction h with
  | nil => exact ⟨hs, ha⟩
  | snoc _ hstep ih => exact ⟨(effect_of_step ih.1 hstep).sound, enabled_step ih.1 hstep ih.2⟩

/-- **Amendments are enabled after a lasting majority.** In every state of a run of votes from a genesis ledger no
amendment is listed twice. An amendment becomes enabled at a vote only if an earlier vote recorded its majority, at a
time that lies back far enough, and it has had the validators' majority in every vote since; it stays enabled. -/
theorem amendment_activation {s₀ : World A} {votes : List (Vote A)} (h₀ : Genesis s₀) (h : Steps step s₀ votes s) :
    (s.enabled.Nodup ∧ (s.majorities.map Prod.fst).Nodup ∧ ∀ a ∈ s.enabled, a ∉ s.majorities.map Prod.fst) ∧
      (∀ v s', step v s s' → ∀ a ∈ s'.enabled, a ∉ s.enabled →
        HasMajority s₀.table.majorityFraction_ v a ∧
          ∃ t, Recorded s₀ votes s a t ∧ (t.toNat : ℤ) + s₀.table.majorityTime_ ≤ v.closeTime.toNat) ∧
      ∀ later s', Steps step s later s' → ∀ a ∈ s.enabled, a ∈ s'.enabled := by
  obtain ⟨hsound, hknown, htable, hrecorded⟩ := reached_of_run h₀ h
  refine ⟨⟨hsound.enabled, hsound.majorities, hsound.disjoint⟩, ?_, fun later s' hlater a ha => (enabled_run hsound hlater ha).2⟩
  intro v s' hstep a ha hnot
  obtain ⟨hmajority, t, ht, htime⟩ := enabled_of_step hsound hstep ha hnot
  rw [htable.fraction] at hmajority
  rw [htable.time] at htime
  exact ⟨hmajority, t, hrecorded a t ht, htime⟩

/-- One amendment, two votes: the first records the majority at the time 6, the second enables the amendment. -/
theorem amendment_activation_held :
    ∃ s₀ s s' : World ℕ, ∃ v₁ v₂, Genesis s₀ ∧ Steps step s₀ [v₁] s ∧ step v₂ s s' ∧ 7 ∈ s'.enabled ∧
      ∃ t, Recorded s₀ [v₁] s 7 t ∧ (t.toNat : ℤ) + 10 ≤ 20 := by
  obtain ⟨s₀, hs₀⟩ : ∃ s₀ : World ℕ, s₀ = ⟨none, ⟨AList.singleton 7 { supported := true }, 10, 204, none, false⟩, false⟩ :=
    ⟨_, rfl⟩
  obtain ⟨v₁, hv₁⟩ : ∃ v : Vote ℕ, v = ⟨5, [⟨true, some [7]⟩], [((7, tfGotMajority), 6)]⟩ := ⟨_, rfl⟩
  obtain ⟨v₂, hv₂⟩ : ∃ v : Vote ℕ, v = ⟨20, [⟨true, some [7]⟩], [((7, 0), 21)]⟩ := ⟨_, rfl⟩
  have hgenesis : Genesis s₀ := by
    subst hs₀
    exact ⟨List.nodup_nil, rfl⟩
  have hfirst : step v₁ s₀ (applyAll { s₀ with table := (actions s₀ v₁).2 } v₁.applied) := by
    subst hs₀ hv₁
    exact ⟨.of_eq (by decide), by decide, rfl⟩
  have hsecond : step v₂ (applyAll { s₀ with table := (actions s₀ v₁).2 } v₁.applied)
      (applyAll { applyAll { s₀ with table := (actions s₀ v₁).2 } v₁.applied with
        table := (actions (applyAll { s₀ with table := (actions s₀ v₁).2 } v₁.applied) v₂).2 } v₂.applied) := by
    subst hs₀ hv₁ hv₂
    exact ⟨.of_eq (by decide), by decide, rfl⟩
  refine ⟨s₀, _, _, v₁, v₂, hgenesis, .single hfirst, hsecond, ?_, ?_⟩
  · subst hs₀ hv₁ hv₂
    decide
  · have hrun := (amendment_activation hgenesis (.single hfirst)).2.1 v₂ _ hsecond 7
    subst hs₀ hv₁ hv₂
    exact (hrun (by decide) (by decide)).2

end ScfChain.Tx.Change
