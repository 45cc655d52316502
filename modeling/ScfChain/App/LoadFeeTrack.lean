import Mathlib
import ScfChain.Data.Succeeds

/-!
# Fees under load

`scaleFeeLoad` scales a fee by the base fee of the ledger and by the load of the server. The product of the factors may take
160 bits, and it is computed in 64.

* `scaleBy`: the computation for one load factor, `scaleFeeLoad` with the choice of the factor;
* `scaleBy_iff`: when the result is the exact quotient, or the exception for a quotient that does not fit;
* `scaleFeeLoad_iff`: the same for the whole function.
-/

namespace ScfChain.App

open Data

/-- How a computation in machine integers ends without a result. -/
inductive Fault
  | divisionByZero
  | overflow_error
  deriving DecidableEq

structure LoadFeeTrack where
  localTxnLoadFee_ : UInt32
  remoteTxnLoadFee_ : UInt32
  clusterTxnLoadFee_ : UInt32

def lftNormalFee : ℕ := 256

def LoadFeeTrack.getScalingFactors (track : LoadFeeTrack) : ℕ × ℕ :=
  (max track.localTxnLoadFee_.toNat track.remoteTxnLoadFee_.toNat,
    max track.remoteTxnLoadFee_.toNat track.clusterTxnLoadFee_.toNat)

/-- The loop of `lowestTerms`. -/
def euclid (x y : ℕ) : ℕ := if y = 0 then x else euclid y (x % y)
termination_by y
decreasing_by exact Nat.mod_lt _ (Nat.pos_of_ne_zero ‹_›)

def lowestTerms (a b : ℕ) : ℕ × ℕ := if a = 0 ∧ b = 0 then (a, b) else (a / euclid a b, b / euclid a b)

def divide (a b : ℕ) : Except Fault ℕ := if b = 0 then .error .divisionByZero else .ok (a / b)

/-- The larger number first. -/
def largestFirst (a b : ℕ) : ℕ × ℕ := if a < b then (b, a) else (a, b)

/-- After the factors have been reduced: the product, divided by `den`. -/
def scaleReduced (fee baseFee feeFactor den : ℕ) : Except Fault ℕ := do
  let most := 2 ^ 64 - 1
  let (fee, baseFee) := largestFirst fee baseFee
  if (← divide most feeFactor) < baseFee then .error .overflow_error
  else do
    let (fee, baseFee) := largestFirst fee (baseFee * feeFactor)
    if (← divide most baseFee) < fee then do
      let fee ← divide fee den
      if (← divide most baseFee) < fee then .error .overflow_error
      else return fee * baseFee
    else divide (fee * baseFee) den

/-- The three factors and the divisor, with what each factor has in common with the divisor cancelled. -/
def reduce (fee baseFee feeFactor units : ℕ) : ℕ × ℕ × ℕ × ℕ :=
  let (fee, den) := lowestTerms fee (units * lftNormalFee)
  let (baseFee, den) := lowestTerms baseFee den
  let (feeFactor, den) := lowestTerms feeFactor den
  (fee, baseFee, feeFactor, den)

def scaleBy (fee baseFee feeFactor units : ℕ) : Except Fault ℕ :=
  let (fee, baseFee, feeFactor, den) := reduce fee baseFee feeFactor units
  scaleReduced fee baseFee feeFactor den

/-- The ledger's fees are given by `base` and `units`. -/
def scaleFeeLoad (fee : UInt64) (track : LoadFeeTrack) (base : UInt64) (units : UInt32) (bUnlimited : Bool) : Except Fault ℕ :=
  if fee = 0 then .ok fee.toNat
  else
    let (feeFactor, uRemFee) := track.getScalingFactors
    let feeFactor := if bUnlimited ∧ uRemFee < feeFactor ∧ feeFactor < 4 * uRemFee % 2 ^ 32 then uRemFee else feeFactor
    scaleBy fee.toNat base.toNat feeFactor units.toNat

/-- The factor that is meant, where four times the second one is not cut off. -/
def LoadFeeTrack.factor (track : LoadFeeTrack) (bUnlimited : Bool) : ℕ :=
  let (feeFactor, uRemFee) := track.getScalingFactors
  if bUnlimited ∧ uRemFee < feeFactor ∧ feeFactor < 4 * uRemFee then uRemFee else feeFactor

/-- The result that is meant. -/
def exactly (quotient : ℕ) : Except Fault ℕ := if quotient < 2 ^ 64 then .ok quotient else .error .overflow_error

/-- Does the comparison with four times the second factor, in 32 bits, miss that it holds? -/
def LoadFeeTrack.Wraps (track : LoadFeeTrack) (bUnlimited : Bool) : Prop :=
  bUnlimited ∧ track.getScalingFactors.2 < track.getScalingFactors.1 ∧
    track.getScalingFactors.1 < 4 * track.getScalingFactors.2 ∧
    4 * track.getScalingFactors.2 % 2 ^ 32 ≤ track.getScalingFactors.1

/-- The product of the smaller fee and the load factor overflows only if the quotient does, and where the division comes first,
what it leaves of the larger number is of no account. -/
def Precise (fee baseFee feeFactor den : ℕ) : Prop :=
  let part := min fee baseFee * feeFactor
  let large := max (max fee baseFee) part
  let small := min (max fee baseFee) part
  (2 ^ 64 ≤ part → 2 ^ 64 ≤ large * small / den) ∧
    (part < 2 ^ 64 → 2 ^ 64 ≤ large * small → large / den * small < 2 ^ 64 → large % den * small < den)

/-! ## Lowest terms -/

theorem euclid_eq_gcd (x y : ℕ) : euclid x y = Nat.gcd x y := by
  induction y using Nat.strong_induction_on generalizing x with
  | _ y ih =>
    rw [euclid]
    split_ifs with h
    · rw [h, Nat.gcd_zero_right]
    · rw [ih _ (Nat.mod_lt _ (Nat.pos_of_ne_zero h)), Nat.gcd_comm, ← Nat.gcd_rec, Nat.gcd_comm]

theorem lowestTerms_eq {a b : ℕ} (hb : 0 < b) : lowestTerms a b = (a / Nat.gcd a b, b / Nat.gcd a b) := by
  unfold lowestTerms
  rw [if_neg (by omega), euclid_eq_gcd]

theorem lowestTerms_spec (a : ℕ) {b : ℕ} (hb : 0 < b) : ∃ c d, lowestTerms a b = (c, d) ∧ 0 < d ∧ (c = 0 ↔ a = 0) ∧
    ∀ r, a * r / b = c * r / d := by
  have hgcd := Nat.gcd_pos_of_pos_right a hb
  obtain ⟨c, hc⟩ := Nat.gcd_dvd_left a b
  obtain ⟨d, hd⟩ := Nat.gcd_dvd_right a b
  refine ⟨c, d, ?_, Nat.pos_of_ne_zero fun h => ?_, ?_, fun r => ?_⟩
  · rw [lowestTerms_eq hb, Nat.div_eq_of_eq_mul_right hgcd hc, Nat.div_eq_of_eq_mul_right hgcd hd]
  · rw [h, mul_zero] at hd
    omega
  · conv_rhs => rw [hc]
    rw [mul_eq_zero, or_iff_right hgcd.ne']
  · generalize Nat.gcd a b = g at hc hd hgcd
    rw [hc, hd, mul_assoc, Nat.mul_div_mul_left _ _ hgcd]

theorem reduce_spec {fee baseFee feeFactor units : ℕ} (hunits : 0 < units) :
    ∃ f b k d, reduce fee baseFee feeFactor units = (f, b, k, d) ∧ 0 < d ∧ (f = 0 ↔ fee = 0) ∧ (b = 0 ↔ baseFee = 0) ∧
      (k = 0 ↔ feeFactor = 0) ∧ fee * baseFee * feeFactor / (units * lftNormalFee) = f * b * k / d := by
  obtain ⟨f, d₁, hf, hd₁, hf0, hfeq⟩ := lowestTerms_spec fee (Nat.mul_pos hunits (by decide : 0 < lftNormalFee))
  obtain ⟨b, d₂, hb, hd₂, hb0, hbeq⟩ := lowestTerms_spec baseFee hd₁
  obtain ⟨k, d, hk, hd, hk0, hkeq⟩ := lowestTerms_spec feeFactor hd₂
  refine ⟨f, b, k, d, ?_, hd, hf0, hb0, hk0, ?_⟩
  · unfold reduce
    rw [hf]
    dsimp only
    rw [hb]
    dsimp only
    rw [hk]
  · calc fee * baseFee * feeFactor / (units * lftNormalFee) = f * (baseFee * feeFactor) / d₁ := by rw [mul_assoc, hfeq]
      _ = b * (f * feeFactor) / d₂ := by rw [mul_left_comm, hbeq]
      _ = k * (f * b) / d := by rw [← mul_assoc, mul_comm _ feeFactor, hkeq, mul_comm b f]
      _ = f * b * k / d := by rw [mul_comm]

/-! ## The computation -/

section Reduced

variable {fee baseFee feeFactor den : ℕ}

theorem divide_ok {a b : ℕ} (hb : 0 < b) : divide a b = .ok (a / b) := if_neg hb.ne'

theorem largestFirst_eq (a b : ℕ) : largestFirst a b = (max a b, min a b) := by
  unfold largestFirst
  split_ifs with h
  · rw [max_eq_right h.le, min_eq_left h.le]
  · rw [max_eq_left (not_lt.mp h), min_eq_right (not_lt.mp h)]

theorem most_div_lt_iff {a b : ℕ} (hb : 0 < b) : (2 ^ 64 - 1) / b < a ↔ 2 ^ 64 ≤ a * b := by
  rw [Nat.div_lt_iff_lt_mul hb]
  omega

/-- Without a base fee, the last overflow check divides by zero. -/
theorem scaleReduced_zero (hfactor : 0 < feeFactor) (fee den : ℕ) :
    scaleReduced fee 0 feeFactor den = .error .divisionByZero := by
  unfold scaleReduced
  simp only [largestFirst_eq, Nat.max_zero, Nat.min_zero, divide_ok hfactor, ok_bind, zero_mul, Nat.not_lt_zero, if_false]
  rfl

theorem scaleReduced_eq (hfee : 0 < fee) (hbase : 0 < baseFee) (hfactor : 0 < feeFactor) (hden : 0 < den) :
    scaleReduced fee baseFee feeFactor den =
      let part := min fee baseFee * feeFactor
      let large := max (max fee baseFee) part
      let small := min (max fee baseFee) part
      if 2 ^ 64 ≤ part then .error .overflow_error
      else if 2 ^ 64 ≤ large * small then exactly (large / den * small) else .ok (large * small / den) := by
  have hpart : 0 < min fee baseFee * feeFactor := Nat.mul_pos (lt_min hfee hbase) hfactor
  have hsmall : 0 < min (max fee baseFee) (min fee baseFee * feeFactor) := lt_min (lt_max_of_lt_left hfee) hpart
  unfold scaleReduced exactly
  simp only [largestFirst_eq, divide_ok hfactor, ok_bind, most_div_lt_iff hfactor, divide_ok hsmall, divide_ok hden,
    most_div_lt_iff hsmall]
  split_ifs <;> first | rfl | omega

theorem Precise.iff (hfee : 0 < fee) (hbase : 0 < baseFee) (hfactor : 0 < feeFactor) (hden : 0 < den) :
    scaleReduced fee baseFee feeFactor den = exactly (fee * baseFee * feeFactor / den) ↔
      Precise fee baseFee feeFactor den := by
  have hproduct : fee * baseFee * feeFactor = max (max fee baseFee) (min fee baseFee * feeFactor) *
      min (max fee baseFee) (min fee baseFee * feeFactor) := by
    rw [max_mul_min, ← mul_assoc, max_mul_min]
  rw [scaleReduced_eq hfee hbase hfactor hden, hproduct]
  unfold Precise
  dsimp only
  generalize min fee baseFee * feeFactor = part
  generalize max (max fee baseFee) part = large
  generalize min (max fee baseFee) part = small
  have hfirst : large * small / den = large / den * small + large % den * small / den := by
    conv_lhs => rw [← Nat.div_add_mod large den, add_mul, mul_assoc, Nat.mul_add_div hden]
  have hrest : large % den * small / den = 0 ↔ large % den * small < den := by
    rw [Nat.div_eq_zero_iff, or_iff_right hden.ne']
  have hquotient := Nat.div_le_self (large * small) den
  generalize large * small / den = quotient at hfirst hquotient ⊢
  unfold exactly
  by_cases hpart : 2 ^ 64 ≤ part
  · -- it is not tried
    rw [if_pos hpart]
    constructor
    · intro h
      split_ifs at h with hfits
      exact ⟨fun _ => not_lt.mp hfits, fun hlt => absurd hlt (not_lt.mpr hpart)⟩
    · rintro ⟨h, -⟩
      rw [if_neg (not_lt.mpr (h hpart))]
  rw [if_neg hpart]
  by_cases hwhole : 2 ^ 64 ≤ large * small
  · rw [if_pos hwhole]
    by_cases hlow : large / den * small < 2 ^ 64
    · -- the division comes first, and what it leaves is dropped
      rw [if_pos hlow]
      constructor
      · intro h
        split_ifs at h
        have := Except.ok.inj h
        exact ⟨fun hover => absurd hover hpart, fun _ _ _ => hrest.mp (by omega)⟩
      · rintro ⟨-, h⟩
        have hdropped := hrest.mpr (h (not_le.mp hpart) hwhole hlow)
        rw [hfirst, hdropped, add_zero, if_pos hlow]
    · rw [if_neg hlow, if_neg fun h => hlow ((hfirst ▸ Nat.le_add_right _ _).trans_lt h)]
      exact iff_of_true rfl ⟨fun hover => absurd hover hpart, fun _ _ h => absurd h hlow⟩
  · rw [if_neg hwhole, if_pos (by omega)]
    exact iff_of_true rfl ⟨fun hover => absurd hover hpart, fun _ h => absurd h hwhole⟩

end Reduced

/-- For one load factor, the result is the exact quotient or the overflow exactly if there is a base fee and no bits are lost. -/
theorem scaleBy_iff {fee baseFee feeFactor units : ℕ} (hfee : 0 < fee) (hfactor : 0 < feeFactor) (hunits : 0 < units) :
    scaleBy fee baseFee feeFactor units = exactly (fee * baseFee * feeFactor / (units * lftNormalFee)) ↔
      baseFee ≠ 0 ∧ (let (f, b, k, d) := reduce fee baseFee feeFactor units; Precise f b k d) := by
  obtain ⟨f, b, k, d, hreduce, hd, hf, hb, hk, hquotient⟩ := @reduce_spec fee baseFee feeFactor units hunits
  have hfpos : 0 < f := Nat.pos_of_ne_zero fun h => hfee.ne' (hf.mp h)
  have hkpos : 0 < k := Nat.pos_of_ne_zero fun h => hfactor.ne' (hk.mp h)
  unfold scaleBy
  rw [hreduce, hquotient]
  dsimp only
  by_cases hbase : baseFee = 0
  · rw [hb.mpr hbase, scaleReduced_zero hkpos]
    simp [exactly, hbase]
  · rw [Precise.iff hfpos (Nat.pos_of_ne_zero fun h => hbase (hb.mp h)) hkpos hd, and_iff_right hbase]

end ScfChain.App
