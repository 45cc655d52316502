import Mathlib

/-!
# Close times

Times are 32 bits wide, in seconds; zero stands for no time. `getNextLedgerTimeResolution` is the resolution after a ledger's.
`roundCloseTime` rounds to a resolution, `effCloseTime` also keeps
the time above the parent's, and `acceptedCloseTime` is what `doAccept` gives a new ledger.

* `toNat_roundCloseTime` : rounding in `ℕ`, where the sum does not overflow;
* `lt_acceptedCloseTime` : the time of a new ledger is above its parent's, whatever was agreed.
-/

namespace ScfChain.Consensus

/-- `NetClock::time_point`, and `NetClock::duration`. -/
abbrev NetTime := BitVec 32

def ledgerPossibleTimeResolutions : List NetTime := [10, 20, 30, 60, 90, 120]

def getNextLedgerTimeResolution (previousResolution : NetTime) (previousAgree : Bool) (ledgerSeq : BitVec 32) : NetTime :=
  match ledgerPossibleTimeResolutions.idxOf? previousResolution with
  | none => previousResolution
  | some i =>
    -- without agreement a coarser resolution is tried at once, with agreement a finer one at every eighth ledger
    if previousAgree then
      if ledgerSeq % 8 = 0 ∧ i ≠ 0 then ledgerPossibleTimeResolutions.getD (i - 1) previousResolution else previousResolution
    else ledgerPossibleTimeResolutions.getD (i + 1) previousResolution

def roundCloseTime (closeTime closeResolution : NetTime) : NetTime :=
  if closeTime = 0 then closeTime
  else (closeTime + closeResolution / 2) - (closeTime + closeResolution / 2) % closeResolution

def effCloseTime (closeTime resolution priorCloseTime : NetTime) : NetTime :=
  if closeTime = 0 then closeTime
  else if roundCloseTime closeTime resolution < priorCloseTime + 1 then priorCloseTime + 1
  else roundCloseTime closeTime resolution

/-- The close time that `doAccept` gives the ledger after one closed at `priorCloseTime`, and whether it was agreed on. -/
def acceptedCloseTime (agreed closeResolution priorCloseTime : NetTime) : NetTime × Bool :=
  -- the servers agreed to disagree
  if agreed = 0 then (priorCloseTime + 1, false)
  else (effCloseTime agreed closeResolution priorCloseTime, true)

/-- The close times of the ledgers accepted one after the other, each with what was agreed on and its resolution. -/
def closeTimes (priorCloseTime : NetTime) : List (NetTime × NetTime) → List NetTime
  | [] => []
  | round :: rounds =>
    let closeTime := (acceptedCloseTime round.1 round.2 priorCloseTime).1
    closeTime :: closeTimes closeTime rounds

/-! ## Close times advance -/

theorem toNat_add_one {t : NetTime} (h : t.toNat < 2 ^ 32 - 1) : (t + 1).toNat = t.toNat + 1 := by
  rw [BitVec.toNat_add, Nat.mod_eq_of_lt]
  · rfl
  · show t.toNat + 1 < 2 ^ 32
    omega

theorem lt_acceptedCloseTime (agreed closeResolution : NetTime) {prior : NetTime} (h : prior.toNat < 2 ^ 32 - 1) :
    prior.toNat < (acceptedCloseTime agreed closeResolution prior).1.toNat := by
  have hnext := toNat_add_one h
  unfold acceptedCloseTime effCloseTime
  split_ifs with hzero hearly
  · show prior.toNat < (prior + 1).toNat
    omega
  · show prior.toNat < (prior + 1).toNat
    omega
  · show prior.toNat < (roundCloseTime agreed closeResolution).toNat
    rw [BitVec.lt_def] at hearly
    omega

theorem pairwise_closeTimes (prior : NetTime) (rounds : List (NetTime × NetTime))
    (h : ∀ t ∈ (prior :: closeTimes prior rounds).dropLast, t.toNat < 2 ^ 32 - 1) :
    (prior :: closeTimes prior rounds).Pairwise fun t t' => t.toNat < t'.toNat := by
  induction rounds generalizing prior with
  | nil => exact List.pairwise_singleton _ _
  | cons round rounds ih =>
    have hstep := lt_acceptedCloseTime round.1 round.2 (h prior (by simp [closeTimes]))
    have hrest := ih (acceptedCloseTime round.1 round.2 prior).1 fun t ht => h t (by
      unfold closeTimes
      rw [List.dropLast_cons_of_ne_nil (by simp)]
      exact List.mem_cons_of_mem _ ht)
    refine List.pairwise_cons.mpr ⟨fun t ht => ?_, hrest⟩
    rcases List.mem_cons.mp ht with rfl | ht
    · exact hstep
    · exact hstep.trans ((List.pairwise_cons.mp hrest).1 t ht)

/-! ## Rounding -/

theorem toNat_roundCloseTime {t r : NetTime} (hr : r ≠ 0) (h : t.toNat + r.toNat / 2 < 2 ^ 32) :
    (roundCloseTime t r).toNat = (t.toNat + r.toNat / 2) / r.toNat * r.toNat := by
  have hpos : 0 < r.toNat := Nat.pos_of_ne_zero fun e => hr (BitVec.eq_of_toNat_eq e)
  unfold roundCloseTime
  split_ifs with hzero
  · subst hzero
    have : r.toNat / 2 < r.toNat := by omega
    simp [Nat.div_eq_of_lt this]
  · have hsum : (t + r / 2).toNat = t.toNat + r.toNat / 2 := by
      rw [BitVec.toNat_add, BitVec.toNat_udiv, Nat.mod_eq_of_lt]
      · rfl
      · exact h
    have hmod : ((t + r / 2) % r).toNat = (t.toNat + r.toNat / 2) % r.toNat := by rw [BitVec.toNat_umod, hsum]
    have hle : (t + r / 2) % r ≤ t + r / 2 := by
      rw [BitVec.le_def, hmod, hsum]
      exact Nat.mod_le _ _
    rw [BitVec.toNat_sub_of_le hle, hmod, hsum]
    have := Nat.div_add_mod (t.toNat + r.toNat / 2) r.toNat
    rw [mul_comm] at this
    omega

theorem roundCloseTime_of_multiple {t r : NetTime} {k : ℕ} (hr : r ≠ 0) (ht : t.toNat = k * r.toNat)
    (h : t.toNat + r.toNat / 2 < 2 ^ 32) : roundCloseTime t r = t := by
  have hpos : 0 < r.toNat := Nat.pos_of_ne_zero fun e => hr (BitVec.eq_of_toNat_eq e)
  refine BitVec.eq_of_toNat_eq ?_
  rw [toNat_roundCloseTime hr h, ht, mul_comm k, Nat.mul_add_div hpos, Nat.div_eq_of_lt (by omega), add_zero, mul_comm]

theorem exists_toNat_roundCloseTime (t r : NetTime) : ∃ k, (roundCloseTime t r).toNat = k * r.toNat := by
  unfold roundCloseTime
  split_ifs with hzero
  · exact ⟨0, by rw [hzero, zero_mul]; rfl⟩
  · generalize t + r / 2 = y
    have hle : y % r ≤ y := by
      rw [BitVec.le_def, BitVec.toNat_umod]
      exact Nat.mod_le _ _
    refine ⟨y.toNat / r.toNat, ?_⟩
    rw [BitVec.toNat_sub_of_le hle, BitVec.toNat_umod]
    have := Nat.div_add_mod y.toNat r.toNat
    rw [mul_comm] at this
    omega

theorem roundCloseTime_idem {t r : NetTime} (h : (roundCloseTime t r).toNat + r.toNat / 2 < 2 ^ 32) :
    roundCloseTime (roundCloseTime t r) r = roundCloseTime t r := by
  obtain ⟨k, hk⟩ := exists_toNat_roundCloseTime t r
  by_cases hr : r = 0
  · have hzero : roundCloseTime t r = 0 := BitVec.eq_of_toNat_eq (by rw [hk, hr]; exact mul_zero k)
    rw [hzero]
    rfl
  · exact roundCloseTime_of_multiple hr hk h

theorem nearest_multiple {t r : ℕ} (hr : 0 < r) (k : ℕ) :
    |(t : ℤ) - ((t + r / 2) / r * r : ℕ)| ≤ |(t : ℤ) - (k * r : ℕ)| ∧
      (|(t : ℤ) - (k * r : ℕ)| = |(t : ℤ) - ((t + r / 2) / r * r : ℕ)| → k * r ≤ (t + r / 2) / r * r) := by
  have hdiv := Nat.div_add_mod (t + r / 2) r
  have hmod := Nat.mod_lt (t + r / 2) hr
  rw [mul_comm] at hdiv
  generalize hm : (t + r / 2) / r = m at *
  simp only [Int.abs_eq_natAbs]
  rcases lt_trichotomy k m with hk | rfl | hk
  · have hmul : (k + 1) * r ≤ m * r := Nat.mul_le_mul_right r hk
    rw [add_mul, one_mul] at hmul
    omega
  · omega
  · have hmul : (m + 1) * r ≤ k * r := Nat.mul_le_mul_right r hk
    rw [add_mul, one_mul] at hmul
    omega

/-- Whatever time was agreed on, a new ledger closes after its parent, and so the ledgers of a chain close one after the other.
Without overflow, rounding gives the nearest multiple of the resolution, the larger of two, and is idempotent. -/
theorem close_times_advance :
    (∀ agreed closeResolution prior : NetTime, prior.toNat < 2 ^ 32 - 1 →
      prior.toNat < (acceptedCloseTime agreed closeResolution prior).1.toNat) ∧
    (∀ (prior : NetTime) (rounds : List (NetTime × NetTime)),
      (∀ t ∈ (prior :: closeTimes prior rounds).dropLast, t.toNat < 2 ^ 32 - 1) →
        (prior :: closeTimes prior rounds).Pairwise fun t t' => t.toNat < t'.toNat) ∧
    ∀ t r : NetTime, r ≠ 0 → t.toNat + r.toNat / 2 < 2 ^ 32 →
      (∃ k, (roundCloseTime t r).toNat = k * r.toNat) ∧
      (∀ k : ℕ, |(t.toNat : ℤ) - (roundCloseTime t r).toNat| ≤ |(t.toNat : ℤ) - (k * r.toNat : ℕ)| ∧
        (|(t.toNat : ℤ) - (k * r.toNat : ℕ)| = |(t.toNat : ℤ) - (roundCloseTime t r).toNat| →
          k * r.toNat ≤ (roundCloseTime t r).toNat)) ∧
      ((roundCloseTime t r).toNat + r.toNat / 2 < 2 ^ 32 →
        roundCloseTime (roundCloseTime t r) r = roundCloseTime t r) := by
  refine ⟨fun agreed r prior => lt_acceptedCloseTime agreed r, pairwise_closeTimes, fun t r hr h => ?_⟩
  have hpos : 0 < r.toNat := Nat.pos_of_ne_zero fun e => hr (BitVec.eq_of_toNat_eq e)
  have hround := toNat_roundCloseTime hr h
  refine ⟨⟨_, hround⟩, fun k => ?_, roundCloseTime_of_multiple hr hround⟩
  rw [hround]
  exact nearest_multiple hpos k

/-- The theorem, at a parent closed at 100, an agreed time of 7 that lies before it, and a resolution of 30. -/
theorem close_times_advance_late :
    (100 : NetTime).toNat < (acceptedCloseTime 7 30 100).1.toNat ∧ roundCloseTime (roundCloseTime 45 30) 30 = roundCloseTime 45 30 :=
  ⟨close_times_advance.1 7 30 100 (by decide),
    (close_times_advance.2.2 45 30 (by decide) (by decide)).2.2 (by decide)⟩

end ScfChain.Consensus
