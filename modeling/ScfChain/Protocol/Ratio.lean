import ScfChain.Protocol.IOUAmount

/-!
# Ratios of issued amounts

`mulRatio` multiplies an amount by a fraction of two 32-bit numbers. The quotient is scaled to eighteen digits, the most a
mantissa can hold, and it is remembered whether anything is lost by that; the amount is then normalised to sixteen digits,
and rounded away from zero if something had been lost before.

* `mulRatio` : the function of the source.
* `scaled_spec` : the quotient in eighteen digits.
* `mulRatio_iff` : when the result is rounded in the direction that is asked for.
-/

namespace ScfChain.Protocol

open Data

namespace IOUAmount

/-! ## The function -/

/-- The powers of ten below `10 ^ 30`. -/
def powerTable : List ℕ := (List.range 30).map (10 ^ ·)

/-- `std::lower_bound`: the first power that is not below `v`. -/
def lowerBound (v : ℕ) : ℕ := powerTable.findIdx (v ≤ ·)

def log10Floor (v : ℕ) : ℤ := if powerTable[lowerBound v]? = some v then lowerBound v else lowerBound v - 1

def log10Ceil (v : ℕ) : ℤ := lowerBound v

def fl64 : ℤ := log10Floor (2 ^ 63 - 1)

/-- The quotient `low + rem / den`, in units of `10 ^ exponent`. -/
structure Scaled where
  low : ℕ
  rem : ℕ
  exponent : ℤ

/-- `if (rem)`: digits are added. -/
def Scaled.grow (s : Scaled) (den : ℕ) : Scaled :=
  if s.rem = 0 then s
  else
    let roomToGrow := fl64 - log10Ceil s.low
    let grown : Scaled :=
      if 0 < roomToGrow then ⟨s.low * 10 ^ roomToGrow.toNat, s.rem * 10 ^ roomToGrow.toNat, s.exponent - roomToGrow⟩ else s
    let addRem := grown.rem / den
    ⟨grown.low + addRem, grown.rem - addRem * den, grown.exponent⟩

/-- Digits are dropped until the mantissa fits; `hasRem` says whether the quotient has more than are left. -/
def Scaled.shrink (s : Scaled) : ℕ × ℤ × Bool :=
  let mustShrink := log10Ceil s.low - fl64
  if 0 < mustShrink then
    let low := s.low / 10 ^ mustShrink.toNat
    (low, s.exponent + mustShrink, s.rem ≠ 0 ∨ s.low - low * 10 ^ mustShrink.toNat ≠ 0)
  else (s.low, s.exponent, s.rem ≠ 0)

/-- `low`, `exponent` and `hasRem` before the amount is made. -/
def scaled (amt : IOUAmount) (num den : BitVec 32) : ℕ × ℤ × Bool :=
  let mul := amt.mantissa_.natAbs * num.toNat
  let low := mul / den.toNat
  ((Scaled.mk low (mul - low * den.toNat) amt.exponent_).grow den.toNat).shrink

def mulRatio (amt : IOUAmount) (num den : BitVec 32) (roundUp : Bool) : Except String IOUAmount :=
  if den = 0 then .error "division by zero"
  else do
    let neg : Bool := amt.mantissa_ < 0
    let (low, exponent, hasRem) := scaled amt num den
    let result ← normalize ⟨if neg then -low else low, exponent⟩
    if hasRem then
      if roundUp ∧ ¬ neg then
        if result.mantissa_ = 0 then normalize ⟨minMantissa, minExponent⟩
        else normalize ⟨result.mantissa_ + 1, result.exponent_⟩
      else if ¬ roundUp ∧ neg then
        if result.mantissa_ = 0 then normalize ⟨-minMantissa, minExponent⟩
        else normalize ⟨result.mantissa_ - 1, result.exponent_⟩
      else return result
    else return result

/-! ## Eighteen digits -/

theorem fl64_eq : fl64 = 18 := by decide

theorem lowerBound_spec {v : ℕ} (hv : v ≤ 10 ^ 29) : v ≤ 10 ^ lowerBound v ∧ ∀ i < lowerBound v, 10 ^ i < v := by
  have hlen : powerTable.length = 30 := rfl
  have hget : ∀ i (hi : i < powerTable.length), powerTable[i] = 10 ^ i := by
    intro i hi
    simp [powerTable]
  have hmem : ∃ p ∈ powerTable, decide (v ≤ p) = true := ⟨10 ^ 29, by decide, by simpa using hv⟩
  have hlt : lowerBound v < powerTable.length := List.findIdx_lt_length_of_exists hmem
  constructor
  · have hfound := List.findIdx_getElem (p := fun x => decide (v ≤ x)) (w := hlt)
    change decide (v ≤ powerTable[lowerBound v]) = true at hfound
    rw [hget _ hlt] at hfound
    simpa using hfound
  · intro i hi
    have hbefore : decide (v ≤ powerTable[i]) = false := List.not_of_lt_findIdx hi
    rw [hget i (hi.trans hlt)] at hbefore
    simpa using hbefore

/-- The number a scaled quotient stands for. -/
def Scaled.val (s : Scaled) (den : ℕ) : ℚ := (s.low + s.rem / den) * 10 ^ s.exponent

variable {s : Scaled} {den low : ℕ} {e : ℤ} {hasRem : Bool} {x : ℚ}

theorem Scaled.between (hrem : s.rem < den) : Between s.low s.exponent (s.val den) := by
  have hden : (0 : ℚ) < den := by exact_mod_cast Nat.zero_lt_of_lt hrem
  have hlt : (s.rem : ℚ) / den < 1 := by
    rw [div_lt_one hden]
    exact_mod_cast hrem
  have hnonneg : (0 : ℚ) ≤ (s.rem : ℚ) / den := by positivity
  have hunit := ten_zpow_pos s.exponent
  unfold Scaled.val
  exact ⟨mul_le_mul_of_nonneg_right (by linarith) hunit.le, mul_lt_mul_of_pos_right (by linarith) hunit⟩

theorem Scaled.grow_spec (hlow : s.low < 10 ^ 26) (hrem : s.rem < den) (htwo : s.rem ≠ 0 → 2 ≤ s.low) :
    (s.grow den).val den = s.val den ∧ (s.grow den).rem < den ∧ (s.grow den).low < 10 ^ 27 ∧
      ((s.grow den).rem ≠ 0 → 10 ^ 17 ≤ (s.grow den).low) := by
  have hden : 0 < den := Nat.zero_lt_of_lt hrem
  have hden' : (den : ℚ) ≠ 0 := by exact_mod_cast hden.ne'
  unfold Scaled.grow
  by_cases hzero : s.rem = 0
  · rw [if_pos hzero]
    exact ⟨rfl, hrem, by omega, fun h => absurd hzero h⟩
  rw [if_neg hzero]
  obtain ⟨hle, hgt⟩ := lowerBound_spec (v := s.low) (by omega)
  unfold log10Ceil
  rw [fl64_eq]
  by_cases hroom : (0 : ℤ) < 18 - lowerBound s.low
  · -- the quotient has less than eighteen digits
    obtain ⟨r, hr⟩ : ∃ r : ℕ, r + lowerBound s.low = 18 := ⟨18 - lowerBound s.low, by omega⟩
    have hr' : (18 - (lowerBound s.low : ℤ)) = r := by omega
    simp only [hr', Int.toNat_natCast, if_pos (show (0 : ℤ) < r by omega)]
    have hL : 1 ≤ lowerBound s.low := by
      by_contra h0
      rw [show lowerBound s.low = 0 by omega] at hle
      have := htwo hzero
      omega
    have hpred := hgt (lowerBound s.low - 1) (by omega)
    have hseventeen : 10 ^ (lowerBound s.low - 1) * 10 ^ r = 10 ^ 17 := by
      rw [← pow_add]
      congr 1
      omega
    have heighteen : 10 ^ lowerBound s.low * 10 ^ r = 10 ^ 18 := by
      rw [← pow_add]
      congr 1
      omega
    have hpow : 0 < 10 ^ r := Nat.pow_pos (by norm_num)
    have hmod := Nat.div_add_mod' (s.rem * 10 ^ r) den
    have hmodlt := Nat.mod_lt (s.rem * 10 ^ r) hden
    have hquot : s.rem * 10 ^ r / den < 10 ^ r := by
      rw [Nat.div_lt_iff_lt_mul hden, Nat.mul_comm]
      exact Nat.mul_lt_mul_of_pos_left hrem hpow
    have hr18 : 10 ^ r ≤ 10 ^ 18 := Nat.pow_le_pow_right (by norm_num) (by omega)
    have hprod : s.low * 10 ^ r ≤ 10 ^ 18 := heighteen ▸ Nat.mul_le_mul_right _ hle
    have hprod' : 10 ^ 17 ≤ s.low * 10 ^ r := hseventeen ▸ Nat.mul_le_mul_right _ hpred.le
    refine ⟨?_, by omega, by omega, fun _ => hprod'.trans (Nat.le_add_right _ _)⟩
    have hmod' : ((s.rem * 10 ^ r / den : ℕ) : ℚ) * den + (s.rem * 10 ^ r - s.rem * 10 ^ r / den * den : ℕ) = s.rem * 10 ^ r := by
      rw [show s.rem * 10 ^ r - s.rem * 10 ^ r / den * den = s.rem * 10 ^ r % den by omega]
      exact_mod_cast hmod
    unfold Scaled.val
    dsimp only
    rw [← ten_zpow_sub s.exponent r, ← mul_assoc]
    congr 1
    field_simp
    push_cast
    linarith
  · have hbig : 10 ^ 17 < s.low := hgt 17 (by omega)
    simp only [if_neg hroom, Nat.div_eq_of_lt hrem, Nat.add_zero, Nat.zero_mul, Nat.sub_zero]
    exact ⟨trivial, hrem, by omega, fun _ => hbig.le⟩

theorem add_lost_ne_iff {r t : ℕ} {a d : ℚ} (hd : 0 < d) : a + ((r : ℚ) + t / d) * 10 ^ e ≠ a ↔ r ≠ 0 ∨ t ≠ 0 := by
  have hnonneg : (0 : ℚ) ≤ t / d := by positivity
  rw [Ne, add_eq_left, mul_eq_zero_iff_right (ten_zpow_pos e).ne', add_eq_zero_iff_of_nonneg (Nat.cast_nonneg r) hnonneg,
    div_eq_zero_iff, or_iff_left hd.ne', Nat.cast_eq_zero, Nat.cast_eq_zero, not_and_or]

/-- The digits of `x` up to the eighteenth, and whether there are more. -/
structure Truncates (x : ℚ) (low : ℕ) (e : ℤ) (hasRem : Bool) : Prop where
  le : low ≤ 10 ^ 18
  between : Between low e x
  rem_iff : hasRem = true ↔ x ≠ low * 10 ^ e
  ge : hasRem = true → 10 ^ 17 ≤ low

theorem Truncates.eq (h : Truncates x low e hasRem) (hrem : hasRem = false) : x = low * 10 ^ e := by
  by_contra hne
  simp [h.rem_iff.mpr hne] at hrem

theorem Scaled.shrink_spec (hlow : s.low < 10 ^ 27) (hrem : s.rem < den) (hrem' : s.rem ≠ 0 → 10 ^ 17 ≤ s.low)
    (h : s.shrink = (low, e, hasRem)) : Truncates (s.val den) low e hasRem := by
  have hden : (0 : ℚ) < den := by exact_mod_cast Nat.zero_lt_of_lt hrem
  have hbetween := s.between hrem
  obtain ⟨hle, hgt⟩ := lowerBound_spec (v := s.low) (by omega)
  unfold Scaled.shrink log10Ceil at h
  rw [fl64_eq] at h
  by_cases hshrink : (0 : ℤ) < lowerBound s.low - 18
  · obtain ⟨k, hk⟩ : ∃ k : ℕ, lowerBound s.low = 18 + k := ⟨lowerBound s.low - 18, by omega⟩
    have hk' : (lowerBound s.low : ℤ) - 18 = k := by omega
    rw [if_pos hshrink, hk', Int.toNat_natCast] at h
    obtain ⟨rfl, h'⟩ := Prod.mk.inj h
    obtain ⟨rfl, rfl⟩ := Prod.mk.inj h'
    have hpow : 0 < 10 ^ k := Nat.pow_pos (by norm_num)
    have hlo : 10 ^ 17 ≤ s.low / 10 ^ k := by
      rw [Nat.le_div_iff_mul_le hpow, ← pow_add]
      exact (hgt (17 + k) (by omega)).le
    have hhi : s.low / 10 ^ k ≤ 10 ^ 18 := by
      refine Nat.div_le_of_le_mul ?_
      rw [← pow_add, Nat.add_comm k, ← hk]
      exact hle
    refine ⟨hhi, hbetween.div k, ?_, fun _ => hlo⟩
    have hmod := Nat.div_add_mod' s.low (10 ^ k)
    have hval : s.val den = (s.low / 10 ^ k : ℕ) * 10 ^ (s.exponent + k) +
        ((s.low - s.low / 10 ^ k * 10 ^ k : ℕ) + s.rem / den) * 10 ^ s.exponent := by
      have hcast : ((s.low / 10 ^ k : ℕ) : ℚ) * 10 ^ k + (s.low - s.low / 10 ^ k * 10 ^ k : ℕ) = s.low := by
        rw [show s.low - s.low / 10 ^ k * 10 ^ k = s.low % 10 ^ k by omega]
        exact_mod_cast hmod
      rw [Scaled.val, ten_zpow_add, ← hcast]
      ring
    rw [decide_eq_true_iff, hval, add_lost_ne_iff hden, or_comm]
  · rw [if_neg hshrink] at h
    obtain ⟨rfl, h'⟩ := Prod.mk.inj h
    obtain ⟨rfl, rfl⟩ := Prod.mk.inj h'
    refine ⟨hle.trans (Nat.pow_le_pow_right (by norm_num) (by omega)), hbetween, ?_, fun h => hrem' (by simpa using h)⟩
    have hval : s.val den = (s.low : ℚ) * 10 ^ s.exponent + ((0 : ℕ) + s.rem / den) * 10 ^ s.exponent := by
      rw [Scaled.val, Nat.cast_zero, zero_add, add_mul]
    rw [decide_eq_true_iff, hval, add_lost_ne_iff hden, or_iff_right (not_not.mpr rfl)]

/-- **The quotient in eighteen digits.** -/
theorem scaled_spec {a : IOUAmount} (ha : a.Normalized) {num den : BitVec 32} (hden : den ≠ 0)
    (h : scaled a num den = (low, e, hasRem)) (hx : x = (a.mantissa_.natAbs * num.toNat : ℕ) / den.toNat * 10 ^ a.exponent_) :
    Truncates x low e hasRem := by
  have hD : 0 < den.toNat := Nat.pos_of_ne_zero (fun h0 => hden (by rw [← BitVec.toNat_inj]; simpa using h0))
  have hDlt := den.isLt
  have hnlt := num.isLt
  have hmant : a.mantissa_.natAbs = 0 ∨ 10 ^ 15 ≤ a.mantissa_.natAbs ∧ a.mantissa_.natAbs < 10 ^ 16 := by
    rcases ha with rfl | hnormal
    · exact .inl rfl
    · have hlt : a.mantissa_.natAbs < 10 * 10 ^ 15 := hnormal.lt
      exact .inr ⟨hnormal.le, by omega⟩
  unfold scaled at h
  dsimp only at h
  generalize hM : a.mantissa_.natAbs * num.toNat = M at h hx
  have hmod := Nat.div_add_mod' M den.toNat
  have hmodlt := Nat.mod_lt M hD
  have hsub : M - M / den.toNat * den.toNat = M % den.toNat := by omega
  rw [hsub] at h
  have hlow : M / den.toNat < 10 ^ 26 := by
    refine (Nat.div_le_self _ _).trans_lt ?_
    rw [← hM]
    rcases hmant with h0 | ⟨-, hlt⟩
    · simp [h0]
    · nlinarith
  have htwo : M % den.toNat ≠ 0 → 2 ≤ M / den.toNat := by
    intro hne
    rw [Nat.le_div_iff_mul_le hD]
    have hpos : 0 < num.toNat := by
      by_contra h0
      rw [← hM, show num.toNat = 0 by omega] at hne
      simp at hne
    rcases hmant with h0 | ⟨hlo, -⟩
    · rw [← hM, h0] at hne
      simp at hne
    · rw [← hM]
      nlinarith
  obtain ⟨hval, hrem, hlow', hrem'⟩ := Scaled.grow_spec (s := ⟨M / den.toNat, M % den.toNat, a.exponent_⟩) hlow hmodlt htwo
  have hx' : x = (Scaled.mk (M / den.toNat) (M % den.toNat) a.exponent_).val den.toNat := by
    have hD' : (den.toNat : ℚ) ≠ 0 := by exact_mod_cast hD.ne'
    have hcast : ((M / den.toNat : ℕ) : ℚ) * den.toNat + (M % den.toNat : ℕ) = M := by exact_mod_cast hmod
    rw [hx, Scaled.val]
    congr 1
    field_simp
    linarith
  rw [hx', ← hval]
  exact Scaled.shrink_spec hlow' hrem hrem' h

theorem Truncates.hasRem_iff (h : Truncates x low e hasRem) :
    hasRem = true ↔ ∀ (n : ℕ) (k : ℤ), n ≤ 10 ^ 18 → x ≠ n * 10 ^ k := by
  constructor
  · intro htrue n k hn heq
    have hlo : (10 : ℚ) ^ 17 ≤ low := by exact_mod_cast h.ge htrue
    have hn' : (n : ℚ) ≤ 10 ^ 18 := by exact_mod_cast hn
    have hgt : (low : ℚ) * 10 ^ e < x := lt_of_le_of_ne h.between.1 (Ne.symm (h.rem_iff.mp htrue))
    rcases le_or_gt e k with hle | hlt
    · -- a multiple of the unit
      obtain ⟨j, rfl⟩ : ∃ j : ℕ, k = e + j := ⟨(k - e).toNat, by omega⟩
      have hunits := h.between.le_of_units heq.ge
      rw [← heq] at hunits
      linarith
    · have hpow : (10 : ℚ) ^ (k + (1 : ℕ)) ≤ 10 ^ e := ten_zpow_le (by push_cast; omega)
      rw [ten_zpow_add, pow_one] at hpow
      have hunit := ten_zpow_pos k
      nlinarith
  · intro hall
    exact h.rem_iff.mpr (hall low e h.le)

/-! ## Signs -/

/-- An amount of a sign, a coefficient and an exponent. -/
def ofSign (neg : Bool) (p : ℕ × ℤ) : IOUAmount := ⟨if neg then -(p.1 : ℤ) else p.1, p.2⟩

theorem normalize_ofSign (neg : Bool) (m : ℕ) (e : ℤ) :
    (normalize (ofSign neg (m, e))).toOption = (STAmount.format.normalize m e).map (ofSign neg) := by
  have habs : (ofSign neg (m, e)).mantissa_.natAbs = m := by
    unfold ofSign
    cases neg <;> simp
  rw [normalize_eq, habs, show (ofSign neg (m, e)).exponent_ = e from rfl]
  rcases Nat.eq_zero_or_pos m with rfl | hpos
  · rw [Format.normalize, if_pos rfl]
    cases neg <;> simp [ofSign]
  · have hsign : (ofSign neg (m, e)).mantissa_ < 0 ↔ neg = true := by
      unfold ofSign
      cases neg <;> simp [hpos]
    simp only [hsign]
    rfl

theorem val_ofSign (neg : Bool) (p : ℕ × ℤ) : (ofSign neg p).val = (if neg then -1 else 1) * ((p.1 : ℚ) * 10 ^ p.2) := by
  unfold ofSign val
  cases neg <;> simp

/-- How `mulRatio` ends: the digits that were lost before are added away from zero. -/
def RoundedFrom (neg away : Bool) (p : ℕ × ℤ) (hasRem : Bool) (r : IOUAmount) : Prop :=
  if hasRem = true ∧ away = true then
    if p.1 = 0 then r = ofSign neg (minMantissa, minExponent)
    else ∃ p', STAmount.format.normalize (p.1 + 1) p.2 = some p' ∧ r = ofSign neg p'
  else r = ofSign neg p

theorem mulRatio_ok_iff {a : IOUAmount} {num den : BitVec 32} {roundUp : Bool} (hden : den ≠ 0) {neg : Bool}
    (hneg : neg = decide (a.mantissa_ < 0)) (h : scaled a num den = (low, e, hasRem)) {r : IOUAmount} :
    mulRatio a num den roundUp = .ok r ↔
      ∃ p, STAmount.format.normalize low e = some p ∧ RoundedFrom neg (roundUp != neg) p hasRem r := by
  have hfirst := normalize_ofSign neg low e
  unfold mulRatio
  rw [if_neg hden]
  dsimp only
  rw [h, ← hneg]
  dsimp only
  change (normalize (ofSign neg (low, e)) >>= _) = _ ↔ _
  cases hn : STAmount.format.normalize low e with
  | none =>
    rw [hn] at hfirst
    cases hresult : normalize (ofSign neg (low, e)) with
    | error text =>
      refine iff_of_false (fun hr => ?_) (fun hp => by simp at hp)
      cases hr
    | ok b => simp [hresult, Except.toOption] at hfirst
  | some p =>
    rw [hn, Option.map_some, toOption_eq_some] at hfirst
    rw [hfirst, ok_bind]
    simp only [Option.some.injEq, exists_eq_left']
    -- one unit more, away from zero
    have hnext := normalize_ofSign neg (p.1 + 1) p.2
    have hmore : normalize (ofSign neg (p.1 + 1, p.2)) = .ok r ↔
        ∃ p', STAmount.format.normalize (p.1 + 1) p.2 = some p' ∧ r = ofSign neg p' := by
      rw [← toOption_eq_some, hnext, Option.map_eq_some_iff]
      exact exists_congr fun p' => and_congr_right fun _ => eq_comm
    have hleast : normalize (ofSign neg (minMantissa, minExponent)) = .ok r ↔ r = ofSign neg (minMantissa, minExponent) := by
      have heq : normalize (ofSign neg (minMantissa, minExponent)) = .ok (ofSign neg (minMantissa, minExponent)) := by
        cases neg <;> rfl
      rw [heq]
      exact ⟨fun h => (Except.ok.inj h).symm, fun h => congrArg Except.ok h.symm⟩
    have hsame : (pure (ofSign neg p) : Except String IOUAmount) = .ok r ↔ r = ofSign neg p :=
      ⟨fun h => (Except.ok.inj h).symm, fun h => congrArg Except.ok h.symm⟩
    have hzero : (ofSign neg p).mantissa_ = 0 ↔ p.1 = 0 := by
      unfold ofSign
      cases neg <;> simp
    unfold RoundedFrom
    rw [← hmore, ← hleast, ← hsame]
    cases hasRem with
    | false => rfl
    | true =>
      simp only [hzero]
      cases roundUp with
      | false =>
        cases neg with
        | false => rfl
        | true =>
          rw [show (ofSign true (p.1 + 1, p.2)) = ⟨(ofSign true p).mantissa_ - 1, (ofSign true p).exponent_⟩ by
            simp only [ofSign, if_true, mk.injEq, and_true]; push_cast; ring]
          by_cases hp : p.1 = 0
          · simp [hp, ofSign]
          · simp [hp]
      | true =>
        cases neg with
        | true => rfl
        | false =>
          rw [show (ofSign false (p.1 + 1, p.2)) = ⟨(ofSign false p).mantissa_ + 1, (ofSign false p).exponent_⟩ from rfl]
          by_cases hp : p.1 = 0
          · simp [hp, ofSign]
          · simp [hp]

/-! ## The direction and the error -/

/-- At most one unit of the sixteenth digit from `x`, or next to zero if `x` is too small for the format. -/
def Near (x v : ℚ) : Prop :=
  (∃ m e, STAmount.format.Normal m e ∧ Between m e |x| ∧ |v - x| ≤ 10 ^ e) ∨
    |x| < 10 ^ (-81 : ℤ) ∧ (v = 0 ∨ |v| = 10 ^ (-81 : ℤ)) ∧ |v - x| ≤ 10 ^ (-81 : ℤ)

section Magnitude

variable {low : ℕ} {e : ℤ} {hasRem neg away : Bool} {x : ℚ} {p : ℕ × ℤ} {r : IOUAmount}

theorem Truncates.cases (h : Truncates x low e hasRem) (hp : STAmount.format.normalize low e = some p) :
    p.1 = 0 ∧ x < 10 ^ (-81 : ℤ) ∨ STAmount.format.Normal p.1 p.2 ∧ Between p.1 p.2 x := by
  cases hhas : hasRem with
  | false =>
    rw [h.eq hhas]
    rcases Format.normalize_cases hp with ⟨hzero, -, hsmall⟩ | hnormal
    · exact .inl ⟨hzero, hsmall.trans_eq (Format.lo_mul_emin _)⟩
    · exact .inr hnormal
  | true =>
    have hlo := h.ge hhas
    rcases Format.normalize_cases hp with ⟨hzero, -, hsmall⟩ | ⟨hnormal, hbetween⟩
    · rw [Format.lo_mul_emin] at hsmall
      exact .inl ⟨hzero, h.between.2.trans_le (succ_mul_zpow_le (by omega) hsmall)⟩
    · right
      have hlt : p.1 < 10 * 10 ^ 15 := hnormal.lt
      rcases le_or_gt e p.2 with hle | hgt
      · obtain ⟨j, hj⟩ : ∃ j : ℕ, p.2 = e + j := ⟨(p.2 - e).toNat, by omega⟩
        have hdiv := h.between.div j
        rw [hj] at hbetween ⊢
        rw [hbetween.unique ((between_self low e).div j)] at hnormal ⊢
        exact ⟨hj ▸ hnormal, hdiv⟩
      · -- there is no digit to add
        exfalso
        have hcoeff : (low : ℚ) * 10 ^ e < 10 * 10 ^ 15 * 10 ^ p.2 := by
          refine hbetween.2.trans_le (mul_le_mul_of_nonneg_right ?_ (ten_zpow_pos _).le)
          exact_mod_cast (by omega : p.1 + 1 ≤ 10 * 10 ^ 15)
        have hpow := ten_zpow_le hgt.le
        have hlo' : (10 : ℚ) ^ 17 ≤ low := by exact_mod_cast hlo
        have := ten_zpow_pos p.2
        nlinarith

theorem Truncates.magnitude (h : Truncates x low e hasRem) (hp : STAmount.format.normalize low e = some p) (hr : RoundedFrom neg away p hasRem r) :
    ∃ v : ℚ, 0 ≤ v ∧ r.val = (if neg then -1 else 1) * v ∧ (away = false → v ≤ x) ∧ (away = true → hasRem = true → x ≤ v) ∧
      (hasRem = false → v = p.1 * 10 ^ p.2) ∧
      ((∃ m e, STAmount.format.Normal m e ∧ Between m e x ∧ |v - x| ≤ 10 ^ e) ∨
        x < 10 ^ (-81 : ℤ) ∧ (v = 0 ∨ v = 10 ^ (-81 : ℤ)) ∧ |v - x| ≤ 10 ^ (-81 : ℤ)) := by
  have hnonneg : 0 ≤ x := (mul_nonneg (Nat.cast_nonneg low) (ten_zpow_pos e).le).trans h.between.1
  have htruncated := h.cases hp
  unfold RoundedFrom at hr
  split_ifs at hr with haway hzero
  · -- next to zero
    subst hr
    rw [val_ofSign]
    have hsmall : x < 10 ^ (-81 : ℤ) := by
      rcases htruncated with ⟨-, hsmall⟩ | ⟨hnormal, -⟩
      · exact hsmall
      · have hle : 10 ^ 15 ≤ p.1 := hnormal.le
        omega
    have hleast : ((minMantissa : ℕ) : ℚ) * 10 ^ minExponent = 10 ^ (-81 : ℤ) := Format.lo_mul_emin STAmount.format
    refine ⟨_, by positivity, rfl, fun h => ?_, fun _ _ => ?_, fun h => ?_, .inr ⟨hsmall, .inr hleast, ?_⟩⟩
    · simp [h] at haway
    · exact hsmall.le.trans_eq hleast.symm
    · simp [h] at haway
    · dsimp only
      rw [hleast, abs_of_nonneg (by linarith)]
      linarith
  · -- one unit more
    obtain ⟨p', hp', rfl⟩ := hr
    rcases htruncated with ⟨hzero', -⟩ | ⟨hnormal, hbetween⟩
    · exact absurd hzero' hzero
    · have hnext := Format.normalize_succ hnormal hp'
      have hunit := ten_zpow_pos p.2
      rw [val_ofSign, hnext]
      refine ⟨_, by positivity, rfl, fun h => ?_, fun _ _ => hbetween.2.le, fun h => ?_, .inl ⟨p.1, p.2, hnormal, hbetween, ?_⟩⟩
      · simp [h] at haway
      · simp [h] at haway
      · rw [abs_of_nonneg (by linarith [hbetween.2])]
        linarith [hbetween.1]
  · -- truncated
    subst hr
    rw [val_ofSign]
    refine ⟨_, by positivity, rfl, fun _ => ?_, fun h₁ h₂ => absurd ⟨h₂, h₁⟩ haway, fun _ => rfl, ?_⟩
    · rcases htruncated with ⟨hzero, -⟩ | ⟨-, hbetween⟩
      · rw [hzero, Nat.cast_zero, zero_mul]
        exact hnonneg
      · exact hbetween.1
    · rcases htruncated with ⟨hzero, hsmall⟩ | ⟨hnormal, hbetween⟩
      · right
        rw [hzero, Nat.cast_zero, zero_mul, zero_sub, abs_neg, abs_of_nonneg hnonneg]
        exact ⟨hsmall, .inl rfl, hsmall.le⟩
      · left
        refine ⟨p.1, p.2, hnormal, hbetween, ?_⟩
        rw [abs_of_nonpos (by linarith [hbetween.1])]
        linarith [hbetween.2]

end Magnitude

/-- When the ratio is rounded in the direction that is asked for: towards zero, or the exact value is an amount itself, or it
has more than eighteen digits, or it is too large. -/
def RatioRounds (a : IOUAmount) (num den : BitVec 32) (roundUp : Bool) : Prop :=
  let x := |a.val * num.toNat / den.toNat|
  roundUp = decide (a.mantissa_ < 0) ∨ STAmount.format.Rep x ∨ (∀ (n : ℕ) (k : ℤ), n ≤ 10 ^ 18 → x ≠ n * 10 ^ k) ∨ 10 ^ 96 ≤ x

theorem ratio_eq (a : IOUAmount) (num den : BitVec 32) :
    ∃ x : ℚ, x = (a.mantissa_.natAbs * num.toNat : ℕ) / den.toNat * 10 ^ a.exponent_ ∧ 0 ≤ x ∧
      a.val * num.toNat / den.toNat = (if decide (a.mantissa_ < 0) then -1 else 1) * x ∧
      |a.val * num.toNat / den.toNat| = x := by
  have hnonneg : (0 : ℚ) ≤ (a.mantissa_.natAbs * num.toNat : ℕ) / den.toNat * 10 ^ a.exponent_ := by positivity
  have heq : a.val * num.toNat / den.toNat = (if decide (a.mantissa_ < 0) then -1 else 1) *
      ((a.mantissa_.natAbs * num.toNat : ℕ) / den.toNat * 10 ^ a.exponent_ : ℚ) := by
    rw [val, Nat.cast_mul, Nat.cast_natAbs]
    by_cases hneg : a.mantissa_ < 0
    · simp only [hneg, decide_true, if_true, abs_of_neg hneg]
      push_cast
      ring
    · simp only [hneg, decide_false, Bool.false_eq_true, if_false, abs_of_nonneg (not_lt.mp hneg)]
      ring
  refine ⟨_, rfl, hnonneg, heq, ?_⟩
  rw [heq, abs_mul, abs_of_nonneg hnonneg]
  split_ifs <;> simp

section Direction

variable {roundUp neg : Bool} {x v : ℚ}

theorem direction_iff (h : roundUp ≠ neg) :
    (if roundUp then (if neg then -1 else 1) * x ≤ (if neg then -1 else 1) * v
      else (if neg then -1 else 1) * v ≤ (if neg then -1 else 1) * x) ↔ x ≤ v := by
  cases roundUp <;> cases neg <;> simp at h ⊢

theorem direction_iff_of_eq (h : roundUp = neg) :
    (if roundUp then (if neg then -1 else 1) * x ≤ (if neg then -1 else 1) * v
      else (if neg then -1 else 1) * v ≤ (if neg then -1 else 1) * x) ↔ v ≤ x := by
  cases roundUp <;> cases neg <;> simp at h ⊢

end Direction

theorem lt_of_normalize {p : ℕ × ℤ} (hx : x = low * 10 ^ e) (hp : STAmount.format.normalize low e = some p) :
    x < 10 ^ 96 := by
  rw [hx]
  rcases Format.normalize_cases hp with ⟨-, -, hsmall⟩ | ⟨hnormal, -, hlt⟩
  · rw [Format.lo_mul_emin] at hsmall
    refine hsmall.trans ?_
    norm_num [STAmount.format]
  · have hcoeff : (p.1 : ℚ) + 1 ≤ 10 ^ 16 := by
      have hlt : p.1 < 10 * 10 ^ 15 := hnormal.lt
      exact_mod_cast (by omega : p.1 + 1 ≤ 10 ^ 16)
    have hpow : (10 : ℚ) ^ p.2 ≤ 10 ^ (80 : ℤ) := ten_zpow_le hnormal.max
    have hunit := ten_zpow_pos p.2
    refine hlt.trans_le ((mul_le_mul hcoeff hpow hunit.le (by positivity)).trans_eq ?_)
    norm_num

/-- **`mulRatio` rounds in the requested direction**, to within one unit of the sixteenth digit, unless the exact value has
seventeen or eighteen digits and is rounded away from zero. -/
theorem mulRatio_iff {a : IOUAmount} (ha : a.Normalized) {num den : BitVec 32} (hden : den ≠ 0) (roundUp : Bool) :
    (∀ r, mulRatio a num den roundUp = .ok r →
        (if roundUp then a.val * num.toNat / den.toNat ≤ r.val else r.val ≤ a.val * num.toNat / den.toNat) ∧
          Near (a.val * num.toNat / den.toNat) r.val) ↔
      RatioRounds a num den roundUp := by
  obtain ⟨x, hx, hnonneg, hexact, habs⟩ := ratio_eq a num den
  obtain ⟨low, e, hasRem, hscaled⟩ : ∃ low e hasRem, scaled a num den = (low, e, hasRem) := ⟨_, _, _, rfl⟩
  have htruncates := scaled_spec ha hden hscaled hx
  have hdigits := htruncates.hasRem_iff
  obtain ⟨neg, hneg⟩ : ∃ neg, neg = decide (a.mantissa_ < 0) := ⟨_, rfl⟩
  unfold RatioRounds Near
  dsimp only
  rw [habs, hexact, ← hneg]
  constructor
  · intro hall
    by_cases haway : roundUp = neg
    · exact .inl haway
    rw [or_iff_right haway]
    by_contra hnot
    rw [not_or, not_or, ← hdigits, not_le] at hnot
    obtain ⟨hrep, hfalse, hsmall⟩ := hnot
    -- the eighteen digits are exact
    have heq := htruncates.eq (by simpa using hfalse)
    obtain ⟨p, hp⟩ : ∃ p, STAmount.format.normalize low e = some p := by
      refine Format.normalize_isSome ?_
      rw [← heq]
      refine hsmall.trans_eq ?_
      norm_num [STAmount.format, Format.lo]
    have hfloor := Format.isFloor_normalize hp
    rw [← heq] at hfloor
    have hr : mulRatio a num den roundUp = .ok (ofSign neg p) :=
      (mulRatio_ok_iff hden hneg hscaled).mpr ⟨p, hp, by simp [RoundedFrom, hfalse]⟩
    obtain ⟨hdirection, -⟩ := hall _ hr
    rw [val_ofSign] at hdirection
    have hle : x ≤ p.1 * 10 ^ p.2 := direction_iff haway |>.mp hdirection
    exact hrep (le_antisymm hle hfloor.1.2 ▸ hfloor.1.1)
  · intro hcond r hr
    obtain ⟨p, hp, hrounded⟩ := (mulRatio_ok_iff hden hneg hscaled).mp hr
    obtain ⟨v, hv, hval, htoward, haway, hsame, hnear⟩ := htruncates.magnitude hp hrounded
    have hsign : |(if neg then -1 else 1 : ℚ)| = 1 := by cases neg <;> simp
    rw [hval]
    refine ⟨?_, ?_⟩
    · by_cases hdir : roundUp = neg
      · exact (direction_iff_of_eq hdir).mpr (htoward (by simp [hdir]))
      · refine (direction_iff hdir).mpr ?_
        cases hhas : hasRem with
        | true => exact haway (by simpa using hdir) hhas
        | false =>
          have heq := htruncates.eq hhas
          have hfloor := Format.isFloor_normalize hp
          rw [← heq] at hfloor
          rw [hsame hhas]
          rcases hcond with hcond | hrep | hmany | hlarge
          · exact absurd hcond hdir
          · exact hfloor.2 ⟨hrep, le_rfl⟩
          · simp [hdigits.mpr hmany] at hhas
          · exact absurd hlarge (not_le.mpr (lt_of_normalize heq hp))
    · rw [← mul_sub, abs_mul, hsign, one_mul, abs_mul, hsign, one_mul, abs_of_nonneg hv]
      refine hnear.imp_right ?_
      rintro ⟨hsmall, hzero, herror⟩
      refine ⟨hsmall, hzero.imp_left ?_, herror⟩
      intro hv0
      rw [hv0, mul_zero]

/-- Two thirds towards zero, and two halves away from it. -/
theorem mulRatio_iff_two :
    let two : IOUAmount := ⟨2000000000000000, -15⟩
    two.Normalized ∧ RatioRounds two 1 3 false ∧ RatioRounds two 1 2 true ∧
      mulRatio two 1 3 false = .ok ⟨6666666666666666, -16⟩ ∧ mulRatio two 1 2 true = .ok ⟨1000000000000000, -15⟩ ∧
      val ⟨6666666666666666, -16⟩ ≤ two.val * 1 / 3 ∧ two.val * 1 / 2 ≤ val ⟨1000000000000000, -15⟩ := by
  intro two
  have htwo : two.Normalized := .inr (by decide)
  have hthirds : RatioRounds two 1 3 false := .inl (by decide)
  have hhalves : RatioRounds two 1 2 true := by
    refine .inr (.inl (.inr ⟨10 ^ 15, -15, by decide, ?_⟩))
    norm_num [two, val, show BitVec.toNat (1 : BitVec 32) = 1 from rfl, show BitVec.toNat (2 : BitVec 32) = 2 from rfl]
  have hr : mulRatio two 1 3 false = .ok ⟨6666666666666666, -16⟩ := by decide +kernel
  have hr' : mulRatio two 1 2 true = .ok ⟨1000000000000000, -15⟩ := by decide +kernel
  have hdown := ((mulRatio_iff htwo (by decide) false).mpr hthirds _ hr).1
  have hup := ((mulRatio_iff htwo (by decide) true).mpr hhalves _ hr').1
  exact ⟨htwo, hthirds, hhalves, hr, hr', by simpa using hdown, by simpa using hup⟩

/-- A quarter of `1000000000000001` has seventeen digits: it is truncated where it should be rounded up, and a negative one
where it should be rounded down. -/
theorem mulRatio_quarter_short :
    let a : IOUAmount := ⟨1000000000000001, 0⟩
    let b : IOUAmount := ⟨-1000000000000001, 0⟩
    a.Normalized ∧ b.Normalized ∧
      (∃ r, mulRatio a 1 4 true = .ok r ∧ r.val < a.val * 1 / 4) ∧ ∃ r, mulRatio b 1 4 false = .ok r ∧ b.val * 1 / 4 < r.val := by
  intro a b
  refine ⟨.inr (by decide), .inr (by decide),
    ⟨⟨2500000000000002, -1⟩, by decide +kernel, ?_⟩, ⟨⟨-2500000000000002, -1⟩, by decide +kernel, ?_⟩⟩
  · norm_num [a, val]
  · norm_num [b, val]

end IOUAmount

end ScfChain.Protocol
