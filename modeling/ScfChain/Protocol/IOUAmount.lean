import ScfChain.Protocol.AmountValue

/-!
# Issued amounts: sums and comparisons

`STAmount` and `IOUAmount` both add issued amounts: the exponents are brought to the larger one, sums of at most ten units
are zero, others are normalised. Both reduce to one aligned sum and one normalisation.

* `STAmount.operatorAdd`, `STAmount.operatorLt`, `STAmount.operatorNeg` : the operators of `STAmount`.
* `IOUAmount.normalize`, `IOUAmount.operatorAddAssign`, `IOUAmount.operatorLt` : those of `IOUAmount`.
* `issued_arithmetic` : order, agreement, symmetry and error.
-/

namespace ScfChain.Protocol

open Data

structure IOUAmount where
  mantissa_ : ℤ
  exponent_ : ℤ
  deriving DecidableEq

namespace IOUAmount

def minMantissa : ℕ := 1000000000000000
def maxMantissa : ℕ := 9999999999999999
def minExponent : ℤ := -96
def maxExponent : ℤ := 80

/-- `operator= (beast::Zero)`. -/
def zero : IOUAmount := ⟨0, -100⟩

/-- `IOUAmount::normalize`. The constructor from a mantissa and an exponent calls it. -/
def normalize (a : IOUAmount) : Except String IOUAmount :=
  if a.mantissa_ = 0 then .ok zero
  else
    let raised := raise minMantissa (a.exponent_ - minExponent).toNat a.mantissa_.natAbs a.exponent_
    match lower maxMantissa (maxExponent - raised.2).toNat raised.1 raised.2 with
    | none => .error "IOUAmount::normalize"
    | some (mantissa, exponent) =>
      if exponent < minExponent ∨ mantissa < minMantissa then .ok zero
      else if maxExponent < exponent then .error "value overflow"
      else .ok ⟨if a.mantissa_ < 0 then -mantissa else mantissa, exponent⟩

/-- `IOUAmount::operator+=`. -/
def operatorAddAssign (a other : IOUAmount) : Except String IOUAmount :=
  if other.mantissa_ = 0 then .ok a
  else if a.mantissa_ = 0 then .ok other
  else
    -- while (exponent_ < e), then while (e < exponent_)
    let mantissa := dropDigits (other.exponent_ - a.exponent_).toNat a.mantissa_
    let m := dropDigits (a.exponent_ - other.exponent_).toNat other.mantissa_
    let sum := mantissa + m
    if -10 ≤ sum ∧ sum ≤ 10 then .ok zero else normalize ⟨sum, max a.exponent_ other.exponent_⟩

/-- `IOUAmount::operator<`. -/
def operatorLt (a other : IOUAmount) : Bool :=
  let lneg : Bool := a.mantissa_ < 0
  let rneg : Bool := other.mantissa_ < 0
  if lneg ≠ rneg then lneg
  else if a.mantissa_ = 0 then 0 < other.mantissa_
  else if other.mantissa_ = 0 then false
  else if a.exponent_ > other.exponent_ then lneg
  else if a.exponent_ < other.exponent_ then !lneg
  else a.mantissa_ < other.mantissa_

/-- The number an amount stands for. -/
def val (a : IOUAmount) : ℚ := a.mantissa_ * 10 ^ a.exponent_

/-- What `normalize` leaves. -/
def Normalized (a : IOUAmount) : Prop := a = zero ∨ STAmount.format.Normal a.mantissa_.natAbs a.exponent_

end IOUAmount

namespace STAmount

def areComparable (v1 v2 : STAmount) : Bool := v1.mIsNative = v2.mIsNative ∧ v1.mIssue.currency = v2.mIssue.currency

def getSNValue (amount : STAmount) : Except String ℤ :=
  if ¬ amount.mIsNative then .error "amount is not native!"
  else .ok (if amount.mIsNegative then -amount.mValue.toInt else amount.mValue.toInt)

/-- `STAmount (SField const& name, std::int64_t mantissa)`, with `set`. -/
def ofDrops (v : ℤ) : STAmount :=
  if v < 0 then ⟨⟨0, 0⟩, BitVec.ofInt 64 (-v), 0, true, true⟩ else ⟨⟨0, 0⟩, BitVec.ofInt 64 v, 0, true, false⟩

def iou (a : STAmount) : Except String IOUAmount :=
  if a.mIsNative then .error "Cannot return native STAmount as IOUAmount"
  else IOUAmount.normalize ⟨if a.mIsNegative then -a.mValue.toInt else a.mValue.toInt, a.mOffset⟩

/-- `operator+` of two issued amounts that are not zero. -/
def addIssued (v1 v2 : STAmount) : Except String STAmount :=
  let vv1 := if v1.mIsNegative then -v1.mValue.toInt else v1.mValue.toInt
  let vv2 := if v2.mIsNegative then -v2.mValue.toInt else v2.mValue.toInt
  -- while (ov1 < ov2), then while (ov2 < ov1)
  let ov1 := max v1.mOffset v2.mOffset
  let fv := dropDigits (v2.mOffset - v1.mOffset).toNat vv1 + dropDigits (v1.mOffset - v2.mOffset).toNat vv2
  if -10 ≤ fv ∧ fv ≤ 10 then canonicalize ⟨v1.mIssue, 0, 0, false, false⟩
  else if 0 ≤ fv then canonicalize ⟨v1.mIssue, BitVec.ofInt 64 fv, ov1, false, false⟩
  else canonicalize ⟨v1.mIssue, BitVec.ofInt 64 (-fv), ov1, false, true⟩

def operatorAdd (v1 v2 : STAmount) : Except String STAmount :=
  if ¬ areComparable v1 v2 then .error "Can't add amounts that are't comparable!"
  else if v2.mValue = 0 then .ok v1
  else if v1.mValue = 0 then canonicalize ⟨v1.mIssue, v2.mValue, v2.mOffset, false, v2.mIsNegative⟩
  else if v1.mIsNative then do
    let n1 ← getSNValue v1
    let n2 ← getSNValue v2
    return ofDrops (n1 + n2)
  else addIssued v1 v2

def operatorLt (lhs rhs : STAmount) : Except String Bool :=
  if ¬ areComparable lhs rhs then .error "Can't compare amounts that are't comparable!"
  else if lhs.mIsNegative ≠ rhs.mIsNegative then .ok lhs.mIsNegative
  else if lhs.mValue = 0 then .ok (if rhs.mIsNegative then false else rhs.mValue ≠ 0)
  else if rhs.mValue = 0 then .ok false
  else if lhs.mOffset > rhs.mOffset then .ok lhs.mIsNegative
  else if lhs.mOffset < rhs.mOffset then .ok !lhs.mIsNegative
  else if lhs.mValue > rhs.mValue then .ok lhs.mIsNegative
  else if lhs.mValue < rhs.mValue then .ok !lhs.mIsNegative
  else .ok false

/-- The unary `operator-`. -/
def operatorNeg (value : STAmount) : STAmount :=
  if value.mValue = 0 then value else { value with mIsNegative := !value.mIsNegative }

end STAmount

/-! ## One sum for both types -/

/-- What is made of a sum, in units of `10 ^ e`: at most ten units are zero. -/
def settle (sum e : ℤ) : Option (ℕ × ℤ) :=
  if sum.natAbs ≤ 10 then some (0, -100) else STAmount.format.normalize sum.natAbs e

theorem settle_cases {sum e : ℤ} {p : ℕ × ℤ} (h : settle sum e = some p) :
    p = (0, -100) ∨ STAmount.format.Normal p.1 p.2 := by
  unfold settle at h
  split_ifs at h
  · exact .inl (Option.some.inj h).symm
  · rcases Format.normalize_cases h with ⟨hm, he, -⟩ | ⟨hnormal, -⟩
    · exact .inl (Prod.ext hm he)
    · exact .inr hnormal

theorem settle_error {sum e : ℤ} {p : ℕ × ℤ} {x : ℚ} (h : settle sum e = some p) (hsum : sum.natAbs < 2 * 10 ^ 16)
    (hx : |(sum : ℚ) * 10 ^ e - x| < 10 ^ e) :
    |(if sum < 0 then -1 else 1) * (p.1 * 10 ^ p.2) - x| ≤ 11 * 10 ^ e ∨ p.1 = 0 ∧ |x| < 10 ^ (-81 : ℤ) := by
  have hunit := ten_zpow_pos e
  have habs : (sum : ℚ) * 10 ^ e = (if sum < 0 then -1 else 1) * (sum.natAbs * 10 ^ e) := by
    have : (sum : ℚ) = (if sum < 0 then -1 else 1) * (sum.natAbs : ℚ) := by
      split_ifs with hneg
      · rw [Nat.cast_natAbs, abs_of_neg hneg]
        push_cast
        ring
      · rw [Nat.cast_natAbs, abs_of_nonneg (not_lt.mp hneg), one_mul]
    rw [this, mul_assoc]
  rw [habs] at hx
  have hsign : |(if sum < 0 then -1 else 1 : ℚ)| = 1 := by split_ifs <;> norm_num
  generalize (if sum < 0 then -1 else 1 : ℚ) = sign at hx hsign ⊢
  -- the distance to the number that is normalised
  have htri : ∀ y : ℚ, |sign * y - x| ≤ |y - sum.natAbs * 10 ^ e| + 10 ^ e := by
    intro y
    calc |sign * y - x| ≤ |sign * y - sign * (sum.natAbs * 10 ^ e)| + |sign * (sum.natAbs * 10 ^ e) - x| := abs_sub_le _ _ _
      _ ≤ |y - sum.natAbs * 10 ^ e| + 10 ^ e := by rw [← mul_sub, abs_mul, hsign, one_mul]; linarith
  unfold settle at h
  split_ifs at h with hten
  · obtain rfl := Option.some.inj h
    have hle : (sum.natAbs : ℚ) ≤ 10 := by exact_mod_cast hten
    refine .inl ((htri _).trans ?_)
    rw [Nat.cast_zero, zero_mul, zero_sub, abs_neg, abs_of_nonneg (by positivity)]
    nlinarith
  · rcases Format.normalize_cases h with ⟨hm, -, hsmall⟩ | ⟨hnormal, hle, hlt⟩
    · right
      refine ⟨hm, ?_⟩
      have hsmall' : (sum.natAbs : ℚ) * 10 ^ e < 10 ^ (-81 : ℤ) := hsmall.trans_eq (Format.lo_mul_emin _)
      have hstep := succ_mul_zpow_le (by omega) hsmall'
      have hx' : |x| ≤ |sign * (sum.natAbs * 10 ^ e) - x| + |sign * (sum.natAbs * 10 ^ e)| := by
        have := abs_sub_abs_le_abs_sub x (sign * (sum.natAbs * 10 ^ e))
        rw [abs_sub_comm] at this
        linarith
      rw [abs_mul, hsign, one_mul, abs_of_nonneg (by positivity : (0 : ℚ) ≤ sum.natAbs * 10 ^ e)] at hx'
      linarith
    · left
      -- at most one digit is dropped
      have hexp : p.2 ≤ e + (1 : ℕ) := by
        by_contra hgt
        have hpow : (10 : ℚ) ^ (e + (2 : ℕ)) ≤ 10 ^ p.2 := ten_zpow_le (by push_cast at hgt ⊢; omega)
        rw [ten_zpow_add] at hpow
        have hlo : ((10 ^ 15 : ℕ) : ℚ) ≤ p.1 := by exact_mod_cast hnormal.le
        have hhi : (sum.natAbs : ℚ) < 2 * 10 ^ 16 := by exact_mod_cast hsum
        push_cast at hlo
        nlinarith
      have hpow := ten_zpow_le hexp
      rw [ten_zpow_add] at hpow
      refine (htri _).trans ?_
      rw [abs_of_nonpos (by linarith)]
      linarith

namespace IOUAmount

theorem normalize_eq (a : IOUAmount) :
    a.normalize.toOption = (STAmount.format.normalize a.mantissa_.natAbs a.exponent_).map
      fun p => ⟨if a.mantissa_ < 0 then -p.1 else p.1, p.2⟩ := by
  unfold normalize Format.normalize
  by_cases hzero : a.mantissa_ = 0
  · simp [hzero, zero, STAmount.format, Except.toOption]
  · rw [if_neg hzero, if_neg (by omega), show STAmount.format.lo = minMantissa from rfl,
      show STAmount.format.emin = minExponent from rfl, show STAmount.format.emax = maxExponent from rfl,
      show 10 * minMantissa - 1 = maxMantissa from rfl]
    dsimp only
    generalize lower _ _ _ _ = lowered
    cases lowered with
    | none => rfl
    | some p =>
      obtain ⟨m, e⟩ := p
      dsimp only
      split_ifs <;> rfl

variable {a b : IOUAmount}

theorem normalize_of_normalized (h : a.Normalized) : a.normalize = .ok a := by
  obtain rfl | hnormal := h
  · rfl
  · rw [← toOption_eq_some, normalize_eq, Format.normalize_of_normal hnormal]
    obtain ⟨m, e⟩ := a
    simp only [Option.map_some, Option.some.injEq, mk.injEq, and_true]
    split_ifs <;> omega

theorem operatorAddAssign_eq (ha : a.mantissa_ ≠ 0) (hb : b.mantissa_ ≠ 0) {sum e : ℤ}
    (hsum : sum = alignedSum a.mantissa_ a.exponent_ b.mantissa_ b.exponent_) (he : e = max a.exponent_ b.exponent_) :
    (a.operatorAddAssign b).toOption = (settle sum e).map fun p => ⟨if sum < 0 then -p.1 else p.1, p.2⟩ := by
  unfold operatorAddAssign settle
  rw [if_neg hb, if_neg ha]
  dsimp only
  rw [← alignedSum, ← hsum, ← he]
  by_cases hten : -10 ≤ sum ∧ sum ≤ 10
  · rw [if_pos hten, if_pos (by omega)]
    simp [zero, Except.toOption]
  · rw [if_neg hten, if_neg (by omega), normalize_eq]

theorem val_neg_iff (a : IOUAmount) : a.val < 0 ↔ a.mantissa_ < 0 := by
  have hpos := ten_zpow_pos a.exponent_
  rw [← not_le, ← not_le, not_iff_not, val, mul_nonneg_iff_of_pos_right hpos, Int.cast_nonneg_iff]

theorem val_eq_zero_iff (a : IOUAmount) : a.val = 0 ↔ a.mantissa_ = 0 := by
  unfold val
  rw [mul_eq_zero_iff_right (ten_zpow_pos _).ne', Int.cast_eq_zero]

theorem Normalized.normal (h : a.Normalized) (ha : a.mantissa_ ≠ 0) :
    STAmount.format.Normal a.mantissa_.natAbs a.exponent_ := by
  obtain rfl | hnormal := h
  · exact absurd rfl ha
  · exact hnormal

theorem lt_of_exponent_lt (ha : a.Normalized) (hb : b.Normalized) (ha0 : a.mantissa_ ≠ 0) (hb0 : b.mantissa_ ≠ 0)
    (hexp : a.exponent_ < b.exponent_) :
    (0 ≤ a.mantissa_ → 0 ≤ b.mantissa_ → a.val < b.val) ∧ (a.mantissa_ < 0 → b.mantissa_ < 0 → b.val < a.val) := by
  have hlt := (ha.normal ha0).lt_of_exp_lt (hb.normal hb0) hexp
  rw [Nat.cast_natAbs, Nat.cast_natAbs] at hlt
  unfold val
  constructor
  · intro hpos hpos'
    rwa [abs_of_nonneg hpos, abs_of_nonneg hpos'] at hlt
  · intro hneg hneg'
    rw [abs_of_neg hneg, abs_of_neg hneg'] at hlt
    push_cast at hlt
    linarith

/-- **The order of normalised amounts is the order of their values.** -/
theorem operatorLt_eq (ha : a.Normalized) (hb : b.Normalized) : a.operatorLt b = decide (a.val < b.val) := by
  have hneg := val_neg_iff a
  have hneg' := val_neg_iff b
  have hzero := val_eq_zero_iff a
  have hzero' := val_eq_zero_iff b
  unfold operatorLt
  dsimp only
  rw [Bool.eq_iff_iff, decide_eq_true_iff]
  split_ifs with hsign ha0 hb0 hgt hlt
  · -- the signs differ
    by_cases hl : a.mantissa_ < 0
    · have hr : ¬ b.mantissa_ < 0 := by simpa [hl] using hsign
      have h₁ := hneg.mpr hl
      have h₂ := mt hneg'.mp hr
      simp only [hl, decide_true, true_iff]
      linarith
    · have hr : b.mantissa_ < 0 := by simpa [hl] using hsign
      have h₁ := mt hneg.mp hl
      have h₂ := hneg'.mpr hr
      simp only [hl, decide_false, Bool.false_eq_true, false_iff, not_lt]
      linarith
  · rw [hzero.mpr ha0, decide_eq_true_iff, val, mul_pos_iff_of_pos_right (ten_zpow_pos _), Int.cast_pos]
  · have hl : ¬ a.mantissa_ < 0 := by simpa [hb0] using hsign
    have h₁ := mt hneg.mp hl
    rw [hzero'.mpr hb0]
    simpa using h₁
  · have hsame : a.mantissa_ < 0 ↔ b.mantissa_ < 0 := by simpa using hsign
    obtain ⟨hpos, hneg⟩ := lt_of_exponent_lt hb ha hb0 ha0 hgt
    by_cases hl : a.mantissa_ < 0
    · simpa [hl] using hneg (hsame.mp hl) hl
    · simpa [hl] using (hpos (not_lt.mp (mt hsame.mpr hl)) (not_lt.mp hl)).le
  · have hsame : a.mantissa_ < 0 ↔ b.mantissa_ < 0 := by simpa using hsign
    obtain ⟨hpos, hneg⟩ := lt_of_exponent_lt ha hb ha0 hb0 hlt
    by_cases hl : a.mantissa_ < 0
    · simpa [hl] using (hneg hl (hsame.mp hl)).le
    · simpa [hl] using hpos (not_lt.mp hl) (not_lt.mp (mt hsame.mpr hl))
  · have hexp : a.exponent_ = b.exponent_ := by omega
    rw [decide_eq_true_iff, val, val, hexp, mul_lt_mul_iff_of_pos_right (ten_zpow_pos _), Int.cast_lt]

end IOUAmount

namespace STAmount

/-- The mantissa with its sign. -/
def signed (a : STAmount) : ℤ := if a.mIsNegative then -a.mValue.toNat else a.mValue.toNat

theorem val_eq_signed (a : STAmount) : a.val = a.signed * 10 ^ a.mOffset := by
  unfold val signed
  split_ifs <;> push_cast <;> ring

theorem natAbs_signed (a : STAmount) : a.signed.natAbs = a.mValue.toNat := by
  unfold signed
  split_ifs <;> omega

variable {a b : STAmount} {issue : Issue} {negative : Bool} {p : ℕ × ℤ}

theorem Issued.lt (ha : a.Issued) : a.mValue.toNat < 10 ^ 16 := by
  rcases ha.value with ⟨hzero, -⟩ | hnormal
  · rw [hzero]
    decide
  · exact hnormal.lt

theorem Issued.toInt (ha : a.Issued) : (if a.mIsNegative then -a.mValue.toInt else a.mValue.toInt) = a.signed := by
  have hlt := ha.lt
  rw [BitVec.toInt_eq_toNat_of_lt (by omega)]
  rfl

theorem Issued.iou (ha : a.Issued) : a.iou = .ok ⟨a.signed, a.mOffset⟩ ∧ IOUAmount.Normalized ⟨a.signed, a.mOffset⟩ := by
  have hnormalized : IOUAmount.Normalized ⟨a.signed, a.mOffset⟩ := by
    rcases ha.value with ⟨hzero, hoff, -⟩ | hnormal
    · left
      simp [signed, hzero, hoff, IOUAmount.zero]
    · right
      simpa [natAbs_signed] using hnormal
  refine ⟨?_, hnormalized⟩
  unfold STAmount.iou
  rw [if_neg (by simp [ha.native]), ha.toInt, IOUAmount.normalize_of_normalized hnormalized]

theorem ofNormal_issued (hcur : issue.currency ≠ 0)
    (hp : p = (0, -100) ∨ format.Normal p.1 p.2) : (ofNormal issue negative p).Issued := by
  refine ⟨hcur, rfl, ?_⟩
  rcases hp with rfl | hnormal
  · left
    simp [ofNormal]
  · right
    have hlt : p.1 < 10 * 10 ^ 15 := hnormal.lt
    have htoNat : (BitVec.ofNat 64 p.1).toNat = p.1 := by
      rw [BitVec.toNat_ofNat]
      omega
    simpa [ofNormal, htoNat] using hnormal

theorem signed_ofNormal (hp : p.1 < 2 ^ 64) :
    (ofNormal issue negative p).signed = if negative then -(p.1 : ℤ) else p.1 := by
  have htoNat : (BitVec.ofNat 64 p.1).toNat = p.1 := by
    rw [BitVec.toNat_ofNat]
    omega
  unfold signed ofNormal
  rw [htoNat]
  by_cases hzero : p.1 = 0
  · simp [hzero]
  · simp [hzero]

/-- **Two issued amounts that are not zero are added by `settle`.** -/
theorem addIssued_eq (ha : a.Issued) (hb : b.Issued) {sum e : ℤ}
    (hsum : sum = alignedSum a.signed a.mOffset b.signed b.mOffset) (he : e = max a.mOffset b.mOffset) :
    a.addIssued b = (settle sum e).elim (.error "value overflow") fun p => .ok (ofNormal a.mIssue (sum < 0) p) := by
  have hlt : sum.natAbs < 2 ^ 63 := by
    have hle := natAbs_alignedSum_le a.signed a.mOffset b.signed b.mOffset
    have hlt := ha.lt
    have hlt' := hb.lt
    rw [← hsum, natAbs_signed, natAbs_signed] at hle
    omega
  unfold addIssued
  rw [ha.toInt, hb.toInt]
  dsimp only
  rw [← alignedSum, ← hsum, ← he]
  unfold settle
  by_cases hten : -10 ≤ sum ∧ sum ≤ 10
  · have hten' : sum.natAbs ≤ 10 := by omega
    rw [if_pos hten, if_pos hten', canonicalize_zero ha.currency]
    simp [ofNormal]
  · have hten' : ¬ sum.natAbs ≤ 10 := by omega
    rw [if_neg hten, if_neg hten']
    by_cases hneg : 0 ≤ sum
    · have hvalue : (BitVec.ofInt 64 sum).toNat = sum.natAbs := by
        rw [BitVec.toNat_ofInt]
        omega
      rw [if_pos hneg, canonicalize_issued ha.currency, hvalue, decide_eq_false (not_lt.mpr hneg)]
    · have hvalue : (BitVec.ofInt 64 (-sum)).toNat = sum.natAbs := by
        rw [BitVec.toNat_ofInt]
        omega
      rw [if_neg hneg, canonicalize_issued ha.currency, hvalue, decide_eq_true (not_le.mp hneg)]

theorem Issued.eq_zero (ha : a.Issued) (hzero : a.mValue = 0) : a = ofNormal a.mIssue false (0, -100) := by
  rcases ha.value with ⟨-, hoff, hneg⟩ | hnormal
  · exact STAmount.ext rfl hzero hoff ha.native hneg
  · have hlo : 10 ^ 15 ≤ a.mValue.toNat := hnormal.le
    rw [hzero] at hlo
    exact absurd hlo (by decide)

theorem Issued.normal (ha : a.Issued) (hzero : a.mValue ≠ 0) : format.Normal a.mValue.toNat a.mOffset := by
  rcases ha.value with ⟨hval, -⟩ | hnormal
  · exact absurd hval hzero
  · exact hnormal

theorem areComparable_of_issued (ha : a.Issued) (hb : b.Issued) (hab : a.mIssue = b.mIssue) :
    areComparable a b = true := by
  simp [areComparable, ha.native, hb.native, hab]

theorem operatorAdd_cases (ha : a.Issued) (hb : b.Issued) (hab : a.mIssue = b.mIssue) :
    (b.mValue = 0 → a.operatorAdd b = .ok a) ∧ (a.mValue = 0 → a.operatorAdd b = .ok b) ∧
      (a.mValue ≠ 0 → b.mValue ≠ 0 → a.operatorAdd b = a.addIssued b) := by
  unfold operatorAdd
  rw [if_neg (by simp [areComparable_of_issued ha hb hab])]
  refine ⟨fun hzero => by rw [if_pos hzero], ?_, ?_⟩
  · intro hzero
    by_cases hb0 : b.mValue = 0
    · rw [if_pos hb0, ha.eq_zero hzero, hb.eq_zero hb0, hab]
    · rw [if_neg hb0, if_pos hzero, canonicalize_issued ha.currency, Format.normalize_of_normal (hb.normal hb0), hab]
      refine congrArg Except.ok (STAmount.ext rfl ?_ rfl hb.native.symm ?_)
      · simp [ofNormal]
      · simp [ofNormal, toNat_eq_zero_iff, show b.mValue ≠ 0#64 from hb0]
  · intro ha0 hb0
    rw [if_neg hb0, if_neg ha0, if_neg (by simp [ha.native])]

theorem signed_eq_zero_iff (a : STAmount) : a.signed = 0 ↔ a.mValue = 0 := by
  rw [← toNat_eq_zero_iff]
  unfold signed
  split_ifs <;> omega

theorem Issued.signed_neg (ha : a.Issued) : decide (a.signed < 0) = a.mIsNegative := by
  have hpos : a.mIsNegative = true → 0 < a.mValue.toNat := by
    intro hneg
    rcases ha.value with ⟨-, -, hfalse⟩ | hnormal
    · simp [hfalse] at hneg
    · exact lt_of_lt_of_le format.lo_pos hnormal.le
  unfold signed
  cases hneg : a.mIsNegative with
  | false => simp
  | true => simpa using hpos hneg

theorem operatorLt_eq_iou (ha : a.Issued) (hb : b.Issued) (hab : a.mIssue = b.mIssue) :
    a.operatorLt b = .ok (IOUAmount.operatorLt ⟨a.signed, a.mOffset⟩ ⟨b.signed, b.mOffset⟩) := by
  have hzero := signed_eq_zero_iff a
  have hzero' := signed_eq_zero_iff b
  unfold operatorLt IOUAmount.operatorLt
  dsimp only
  rw [if_neg (by simp [areComparable_of_issued ha hb hab]), ha.signed_neg, hb.signed_neg]
  by_cases hsign : a.mIsNegative ≠ b.mIsNegative
  · rw [if_pos hsign, if_pos hsign]
  rw [if_neg hsign, if_neg hsign]
  rw [not_not] at hsign
  by_cases ha0 : a.mValue = 0
  · rw [if_pos ha0, if_pos (hzero.mpr ha0)]
    refine congrArg Except.ok ?_
    rw [Bool.eq_iff_iff, decide_eq_true_iff]
    have hne := toNat_eq_zero_iff (v := b.mValue)
    unfold signed
    split_ifs
    · simp
    · rw [decide_eq_true_iff, Ne, ← hne]
      omega
  rw [if_neg ha0, if_neg (mt hzero.mp ha0)]
  by_cases hb0 : b.mValue = 0
  · rw [if_pos hb0, if_pos (hzero'.mpr hb0)]
  rw [if_neg hb0, if_neg (mt hzero'.mp hb0)]
  by_cases hgt : a.mOffset > b.mOffset
  · rw [if_pos hgt, if_pos hgt]
  rw [if_neg hgt, if_neg hgt]
  by_cases hlt : a.mOffset < b.mOffset
  · rw [if_pos hlt, if_pos hlt]
  rw [if_neg hlt, if_neg hlt]
  -- equal exponents: the mantissas of negative amounts compare the other way
  have hlt : ∀ v w : BitVec 64, v < w ↔ v.toNat < w.toNat := fun _ _ => BitVec.lt_def
  simp only [gt_iff_lt, hlt]
  unfold signed
  rw [← hsign]
  cases a.mIsNegative with
  | false =>
    simp only [Bool.false_eq_true, if_false, Nat.cast_lt]
    split_ifs with h₁ h₂
    · simp [h₁.le]
    · simp [h₂]
    · simp [not_lt.mp h₂]
  | true =>
    simp only [if_true, neg_lt_neg_iff, Nat.cast_lt]
    split_ifs with h₁ h₂
    · simp [h₁]
    · simp [h₂.le]
    · simp [not_lt.mp h₁]

theorem operatorNeg_issued (ha : a.Issued) : (operatorNeg a).Issued := by
  unfold operatorNeg
  split_ifs with hzero
  · exact ha
  · exact ⟨ha.currency, ha.native, .inr (ha.normal hzero)⟩

theorem signed_operatorNeg (a : STAmount) : (operatorNeg a).signed = -a.signed := by
  unfold operatorNeg
  by_cases hzero : a.mValue = 0
  · rw [if_pos hzero]
    simp [signed, hzero]
  · rw [if_neg hzero]
    cases hneg : a.mIsNegative <;> simp [signed, hneg]

theorem operatorNeg_ofNormal (hp : p.1 < 2 ^ 64) :
    operatorNeg (ofNormal issue negative p) = ofNormal issue (!negative) p := by
  unfold operatorNeg ofNormal
  by_cases hzero : p.1 = 0
  · simp [hzero]
  · have hne : BitVec.ofNat 64 p.1 ≠ 0 := by
      rw [Ne, ← toNat_eq_zero_iff, BitVec.toNat_ofNat]
      omega
    rw [if_neg hne]
    simp [hzero]

/-- What is asked of the sum `c` of `a` and `b`: it is the sum of the `IOUAmount`s, up to eleven units, or too small. -/
structure SumOf (a b c : STAmount) : Prop where
  iou : ∃ x y z, a.iou = .ok x ∧ b.iou = .ok y ∧ c.iou = .ok z ∧ x.operatorAddAssign y = .ok z
  error : |c.val - (a.val + b.val)| ≤ 11 * 10 ^ max a.mOffset b.mOffset ∨ c.val = 0 ∧ |a.val + b.val| < 10 ^ (-81 : ℤ)

theorem sumOf_zero (ha : a.Issued) (hb : b.Issued) (hzero : b.mValue = 0) : SumOf a b a ∧ SumOf b a a := by
  have hval : b.val = 0 := by simp [val, hzero]
  have hsigned := (signed_eq_zero_iff b).mpr hzero
  refine ⟨⟨⟨_, _, _, ha.iou.1, hb.iou.1, ha.iou.1, ?_⟩, .inl ?_⟩, ⟨⟨_, _, _, hb.iou.1, ha.iou.1, ha.iou.1, ?_⟩, .inl ?_⟩⟩
  · rw [IOUAmount.operatorAddAssign, if_pos hsigned]
  · rw [hval, add_zero, sub_self, abs_zero]
    positivity
  · rw [IOUAmount.operatorAddAssign]
    by_cases ha0 : a.signed = 0
    · have hoff : a.mOffset = -100 := congrArg mOffset (ha.eq_zero ((signed_eq_zero_iff a).mp ha0))
      have hoff' : b.mOffset = -100 := congrArg mOffset (hb.eq_zero hzero)
      rw [if_pos ha0, ha0, hsigned, hoff, hoff']
    · rw [if_neg ha0, if_pos hsigned]
  · rw [hval, zero_add, sub_self, abs_zero]
    positivity

theorem sumOf_addIssued {c : STAmount} (ha : a.Issued) (hb : b.Issued) (ha0 : a.mValue ≠ 0) (hb0 : b.mValue ≠ 0)
    (h : a.addIssued b = .ok c) : SumOf a b c := by
  obtain ⟨sum, hsum⟩ : ∃ sum, sum = alignedSum a.signed a.mOffset b.signed b.mOffset := ⟨_, rfl⟩
  rw [addIssued_eq ha hb hsum rfl] at h
  cases hsettle : settle sum (max a.mOffset b.mOffset) with
  | none => simp [hsettle] at h
  | some p =>
    rw [hsettle, Option.elim_some] at h
    obtain rfl := Except.ok.inj h
    have hp : p.1 < 2 ^ 64 := by
      rcases settle_cases hsettle with rfl | hnormal
      · norm_num
      · have hlt : p.1 < 10 * 10 ^ 15 := hnormal.lt
        omega
    have hsigned : (ofNormal a.mIssue (sum < 0) p).signed = if decide (sum < 0) then -(p.1 : ℤ) else p.1 := signed_ofNormal hp
    refine ⟨⟨_, _, _, ha.iou.1, hb.iou.1, (ofNormal_issued ha.currency (settle_cases hsettle)).iou.1, ?_⟩, ?_⟩
    · rw [← toOption_eq_some, IOUAmount.operatorAddAssign_eq (mt (signed_eq_zero_iff a).mp ha0) (mt (signed_eq_zero_iff b).mp hb0)
        hsum rfl, hsettle, hsigned]
      simp [ofNormal]
    · have hbound : sum.natAbs < 2 * 10 ^ 16 := by
        have hle := natAbs_alignedSum_le a.signed a.mOffset b.signed b.mOffset
        rw [← hsum, natAbs_signed, natAbs_signed] at hle
        have := ha.lt
        have := hb.lt
        omega
      have herror := abs_alignedSum_sub_lt a.signed a.mOffset b.signed b.mOffset
      rw [← hsum] at herror
      have hval : (ofNormal a.mIssue (sum < 0) p).val = (if sum < 0 then -1 else 1) * (p.1 * 10 ^ p.2) := by
        rw [val_eq_signed, hsigned, show (ofNormal a.mIssue (sum < 0) p).mOffset = p.2 from rfl]
        simp only [decide_eq_true_eq]
        split_ifs <;> push_cast <;> ring
      rw [val_eq_signed a, val_eq_signed b, hval]
      refine (settle_error hsettle hbound herror).imp_right ?_
      rintro ⟨hzero, hlt⟩
      exact ⟨by simp [hzero], hlt⟩

theorem operatorAdd_comm (ha : a.Issued) (hb : b.Issued) (hab : a.mIssue = b.mIssue) :
    a.operatorAdd b = b.operatorAdd a := by
  obtain ⟨hright, hleft, hadd⟩ := operatorAdd_cases ha hb hab
  obtain ⟨hright', hleft', hadd'⟩ := operatorAdd_cases hb ha hab.symm
  by_cases ha0 : a.mValue = 0
  · rw [hleft ha0, hright' ha0]
  by_cases hb0 : b.mValue = 0
  · rw [hright hb0, hleft' hb0]
  rw [hadd ha0 hb0, hadd' hb0 ha0, addIssued_eq ha hb rfl rfl, addIssued_eq hb ha (alignedSum_comm _ _ _ _) (max_comm _ _), hab]

theorem operatorAdd_operatorNeg (ha : a.Issued) (hb : b.Issued) (hab : a.mIssue = b.mIssue) :
    (operatorNeg a).operatorAdd (operatorNeg b) = (a.operatorAdd b).map operatorNeg := by
  have hvalue : ∀ v : STAmount, (operatorNeg v).mValue = v.mValue ∧ (operatorNeg v).mIssue = v.mIssue ∧
      (operatorNeg v).mOffset = v.mOffset := by
    intro v
    unfold operatorNeg
    split_ifs <;> exact ⟨rfl, rfl, rfl⟩
  obtain ⟨hva, hia, hoa⟩ := hvalue a
  obtain ⟨hvb, hib, hob⟩ := hvalue b
  have hna := operatorNeg_issued ha
  have hnb := operatorNeg_issued hb
  obtain ⟨hright, hleft, hadd⟩ := operatorAdd_cases ha hb hab
  obtain ⟨hright', hleft', hadd'⟩ := operatorAdd_cases hna hnb (by rw [hia, hib, hab])
  by_cases hb0 : b.mValue = 0
  · rw [hright hb0, hright' (hvb.trans hb0)]
    rfl
  by_cases ha0 : a.mValue = 0
  · rw [hleft ha0, hleft' (hva.trans ha0)]
    rfl
  obtain ⟨sum, hsum⟩ : ∃ sum, sum = alignedSum a.signed a.mOffset b.signed b.mOffset := ⟨_, rfl⟩
  have hneg : -sum = alignedSum (operatorNeg a).signed (operatorNeg a).mOffset (operatorNeg b).signed (operatorNeg b).mOffset := by
    rw [signed_operatorNeg, signed_operatorNeg, hoa, hob, alignedSum_neg, hsum]
  have hsettle : settle (-sum) (max a.mOffset b.mOffset) = settle sum (max a.mOffset b.mOffset) := by
    unfold settle
    rw [Int.natAbs_neg]
  rw [hadd ha0 hb0, hadd' (by rwa [hva]) (by rwa [hvb]), addIssued_eq ha hb hsum rfl,
    addIssued_eq hna hnb hneg (by rw [hoa, hob]), hsettle, hia]
  cases hp : settle sum (max a.mOffset b.mOffset) with
  | none => rfl
  | some p =>
    refine congrArg Except.ok ?_
    rcases settle_cases hp with rfl | hnormal
    · simp [ofNormal, operatorNeg]
    · have hlt : p.1 < 10 * 10 ^ 15 := hnormal.lt
      have hsign : decide (-sum < 0) = !decide (sum < 0) := by
        -- the sum is not zero, since zero is settled to zero
        have hne : sum ≠ 0 := by
          rintro rfl
          obtain rfl := Option.some.inj hp
          exact absurd hnormal.le (by decide)
        rw [← decide_not, decide_eq_decide]
        omega
      rw [hsign, operatorNeg_ofNormal (by omega)]

/-- **Issued-amount arithmetic.** -/
theorem issued_arithmetic {a b : STAmount} (ha : a.Issued) (hb : b.Issued) (hab : a.mIssue = b.mIssue) :
    a.operatorLt b = .ok (decide (a.val < b.val)) ∧ a.operatorAdd b = b.operatorAdd a ∧
      (operatorNeg a).operatorAdd (operatorNeg b) = (a.operatorAdd b).map operatorNeg ∧
      ∀ c, a.operatorAdd b = .ok c → SumOf a b c := by
  refine ⟨?_, operatorAdd_comm ha hb hab, operatorAdd_operatorNeg ha hb hab, ?_⟩
  · rw [operatorLt_eq_iou ha hb hab, IOUAmount.operatorLt_eq ha.iou.2 hb.iou.2, val_eq_signed, val_eq_signed]
    rfl
  · intro c hc
    obtain ⟨hright, hleft, hadd⟩ := operatorAdd_cases ha hb hab
    by_cases hb0 : b.mValue = 0
    · rw [hright hb0] at hc
      obtain rfl := Except.ok.inj hc
      exact (sumOf_zero ha hb hb0).1
    by_cases ha0 : a.mValue = 0
    · rw [hleft ha0] at hc
      obtain rfl := Except.ok.inj hc
      exact (sumOf_zero hb ha ha0).2
    rw [hadd ha0 hb0] at hc
    exact sumOf_addIssued ha hb ha0 hb0 hc

/-- One less two thirds. -/
theorem issued_arithmetic_thirds :
    let a : STAmount := ⟨⟨1, 1⟩, 1000000000000000#64, -15, false, false⟩
    let b : STAmount := ⟨⟨1, 1⟩, 6666666666666667#64, -16, false, true⟩
    let c : STAmount := ⟨⟨1, 1⟩, 3333333333333340#64, -16, false, false⟩
    a.Issued ∧ b.Issued ∧ a.operatorAdd b = .ok c ∧ b.operatorAdd a = .ok c ∧ SumOf a b c := by
  intro a b c
  have ha : a.Issued := by decide
  have hb : b.Issued := by decide
  have hc : a.operatorAdd b = .ok c := by decide +kernel
  obtain ⟨-, hcomm, -, hsum⟩ := issued_arithmetic ha hb rfl
  exact ⟨ha, hb, hc, hcomm ▸ hc, hsum c hc⟩

end STAmount

end ScfChain.Protocol
