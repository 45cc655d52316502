import ScfChain.Protocol.Rounding

/-!
# Offer rates

`getRate` divides what an offer asks by what it gives and packs the exponent and the mantissa of the quotient into one word,
so that offers sort by their rate. `divide` adds five units to the quotient before the amount is made of it: what it rounds
is the exact ratio and these five units.

* `divide`, `getRate` : the functions of the source.
* `getRate_cases` : a rate that is not zero is the word of a normalised quotient.
* `rate_order` : rates preserve the order of prices as far as the five units do.
-/

namespace ScfChain.Protocol.STAmount

open Data

def muldiv (multiplier multiplicand divisor : BitVec 64) : Except String (BitVec 64) :=
  let ret := multiplier.toNat * multiplicand.toNat / divisor.toNat
  if 2 ^ 64 - 1 < ret then
    .error ("overflow: (" ++ toString multiplier.toNat ++ " * " ++ toString multiplicand.toNat ++ ") / " ++ toString divisor.toNat)
  else .ok (BitVec.ofNat 64 ret)

def divide (num den : STAmount) (issue : Issue) : Except String STAmount :=
  if den.mValue = 0 then .error "division by zero"
  else if num.mValue = 0 then canonicalize ⟨issue, 0, 0, false, false⟩
  else do
    let quotient ← muldiv num.inRange.1 tenTo17 den.inRange.1
    canonicalize ⟨issue, quotient + 5, num.inRange.2 - den.inRange.2 - 17, false, num.mIsNegative ≠ den.mIsNegative⟩

def noIssue : Issue := ⟨1, 1⟩

/-- `getRate`; its zero stands for offers that are worthless, too good, or too bad. -/
def getRate (offerOut offerIn : STAmount) : BitVec 64 :=
  if offerOut.mValue = 0 then 0
  else
    match divide offerIn offerOut noIssue with
    | .error _ => 0
    | .ok r => if r.mValue = 0 then 0 else (BitVec.ofInt 64 (r.mOffset + 100) <<< 56) ||| r.mValue

/-! ## Words -/

theorem toNat_rate_word {m : ℕ} {e : ℤ} (h : format.Normal m e) :
    ((BitVec.ofInt 64 (e + 100) <<< 56) ||| BitVec.ofNat 64 m).toNat = (e + 100).toNat * 2 ^ 56 + m := by
  have hm : m < 10 * 10 ^ 15 := h.lt
  have hmin : -96 ≤ e := h.min
  have hmax : e ≤ 80 := h.max
  obtain ⟨k, hk⟩ : ∃ k : ℕ, e + 100 = k := ⟨(e + 100).toNat, by omega⟩
  have hor := Nat.two_pow_add_eq_or_of_lt (show m < 2 ^ 56 by omega) k
  have hshift : (BitVec.ofInt 64 (k : ℤ) <<< 56).toNat = 2 ^ 56 * k := by
    rw [BitVec.ofInt_natCast, BitVec.toNat_shiftLeft, BitVec.toNat_ofNat, Nat.shiftLeft_eq]
    omega
  rw [hk, BitVec.toNat_or, hshift, BitVec.toNat_ofNat, Nat.mod_eq_of_lt (by omega), ← hor, Int.toNat_natCast, Nat.mul_comm]

theorem rate_word_le {m m' : ℕ} {e e' : ℤ} (h : format.Normal m e) (h' : format.Normal m' e')
    (hle : (m : ℚ) * 10 ^ e ≤ m' * 10 ^ e') : (e + 100).toNat * 2 ^ 56 + m ≤ (e' + 100).toNat * 2 ^ 56 + m' := by
  have hm : m < 10 * 10 ^ 15 := h.lt
  have hmin : -96 ≤ e := h.min
  have hmin' : -96 ≤ e' := h'.min
  rcases lt_trichotomy e e' with hlt | rfl | hgt
  · omega
  · have hle' : (m : ℚ) ≤ m' := le_of_mul_le_mul_right hle (ten_zpow_pos e)
    have : m ≤ m' := by exact_mod_cast hle'
    omega
  · exact absurd (h'.lt_of_exp_lt h hgt) (not_lt.mpr hle)

/-! ## Rates -/

/-- The quotient `divide` starts from, and its unit. -/
def rateQuotient (offerOut offerIn : STAmount) : ℕ := offerIn.inRange.1.toNat * 10 ^ 17 / offerOut.inRange.1.toNat

def rateOffset (offerOut offerIn : STAmount) : ℤ := offerIn.inRange.2 - offerOut.inRange.2 - 17

theorem getRate_cases {offerOut offerIn : STAmount} (hout : offerOut.NonNegative) (hin : offerIn.NonNegative)
    (hwrap : rateQuotient offerOut offerIn + 5 < 2 ^ 64) (h : getRate offerOut offerIn ≠ 0) :
    offerOut.mValue ≠ 0 ∧ offerIn.mValue ≠ 0 ∧
    ∃ m e, format.Normal m e ∧ (getRate offerOut offerIn).toNat = (e + 100).toNat * 2 ^ 56 + m ∧
      format.IsFloor ((rateQuotient offerOut offerIn + 5 : ℕ) * 10 ^ rateOffset offerOut offerIn) (m * 10 ^ e) := by
  have hquot : muldiv offerIn.inRange.1 tenTo17 offerOut.inRange.1 = .ok (BitVec.ofNat 64 (rateQuotient offerOut offerIn)) := by
    unfold muldiv
    rw [toNat_tenTo17, ← rateQuotient, if_neg (by omega)]
  have hfive : (BitVec.ofNat 64 (rateQuotient offerOut offerIn) + 5).toNat = rateQuotient offerOut offerIn + 5 := by
    rw [BitVec.toNat_add, BitVec.toNat_ofNat, show (5 : BitVec 64).toNat = 5 from rfl]
    omega
  have hcur : noIssue.currency ≠ 0 := by decide
  unfold getRate at h ⊢
  by_cases hout0 : offerOut.mValue = 0
  · simp [hout0] at h
  rw [if_neg hout0] at h ⊢
  by_cases hin0 : offerIn.mValue = 0
  · have hzero : divide offerIn offerOut noIssue = .ok ⟨noIssue, 0, -100, false, false⟩ := by
      rw [divide, if_neg hout0, if_pos hin0, canonicalize_zero hcur]
    simp [hzero] at h
  have hdivide : divide offerIn offerOut noIssue =
      (format.normalize (rateQuotient offerOut offerIn + 5) (rateOffset offerOut offerIn)).elim (.error "value overflow")
        fun p => .ok (ofNormal noIssue false p) := by
    rw [divide, if_neg hout0, if_neg hin0, hquot, ok_bind, hin.sign, hout.sign, canonicalize_issued hcur, hfive]
    rfl
  rw [hdivide] at h ⊢
  cases hn : format.normalize (rateQuotient offerOut offerIn + 5) (rateOffset offerOut offerIn) with
  | none => simp [hn] at h
  | some p =>
    rw [hn] at h
    have hne : p.1 ≠ 0 := by
      intro hzero
      simp [ofNormal, hzero] at h
    have hnormal : format.Normal p.1 p.2 := by
      rcases Format.normalize_cases hn with ⟨hzero, -⟩ | ⟨hnormal, -⟩
      · exact absurd hzero hne
      · exact hnormal
    have hword : BitVec.ofNat 64 p.1 ≠ 0 := by
      rw [Ne, ← toNat_eq_zero_iff, BitVec.toNat_ofNat, Nat.mod_eq_of_lt (normalize_lt hn)]
      exact hne
    refine ⟨hout0, hin0, p.1, p.2, hnormal, ?_, Format.isFloor_normalize hn⟩
    simp only [Option.elim_some, ofNormal, if_neg hword]
    exact toNat_rate_word hnormal

theorem add_five_le {q q' : ℕ} {o o' : ℤ} {x x' : ℚ} (hx : Between q o x) (hx' : Between q' o' x') (hle : x ≤ x')
    (h : o ≤ o' ∨ x + 5 * 10 ^ o ≤ x' + 5 * 10 ^ o') : ((q + 5 : ℕ) : ℚ) * 10 ^ o ≤ (q' + 5 : ℕ) * 10 ^ o' := by
  rcases le_or_gt o o' with ho | ho
  · obtain ⟨k, rfl⟩ : ∃ k : ℕ, o' = o + k := ⟨(o' - o).toNat, by omega⟩
    have hlt : (q : ℚ) * 10 ^ o < (q' + 1) * 10 ^ k * 10 ^ o := by
      rw [mul_assoc, ← ten_zpow_add]
      exact (hx.1.trans hle).trans_lt hx'.2
    have hlt' : q < (q' + 1) * 10 ^ k := by exact_mod_cast lt_of_mul_lt_mul_right hlt (ten_zpow_pos o).le
    have hpow : 1 ≤ 10 ^ k := Nat.one_le_pow k 10 (by norm_num)
    have hnat : q + 5 ≤ (q' + 5) * 10 ^ k := by nlinarith
    rw [ten_zpow_add, ← mul_assoc]
    exact mul_le_mul_of_nonneg_right (by exact_mod_cast hnat) (ten_zpow_pos o).le
  · obtain ⟨k, rfl⟩ : ∃ k : ℕ, o = o' + k := ⟨(o - o').toNat, by omega⟩
    have hfive : x + 5 * 10 ^ (o' + (k : ℤ)) ≤ x' + 5 * 10 ^ o' := h.resolve_left (by omega)
    have hlt : ((q : ℚ) + 5) * 10 ^ k * 10 ^ o' < (q' + 6) * 10 ^ o' := by
      rw [mul_assoc, ← ten_zpow_add]
      have := hx.1
      have := hx'.2
      linarith
    have hlt' : (q + 5) * 10 ^ k < q' + 6 := by exact_mod_cast lt_of_mul_lt_mul_right hlt (ten_zpow_pos o').le
    rw [ten_zpow_add, ← mul_assoc]
    exact mul_le_mul_of_nonneg_right (by exact_mod_cast Nat.lt_succ_iff.mp hlt') (ten_zpow_pos o').le

/-- **Offer rates preserve the order of prices** that are apart by the five units, or computed in units that are ordered
as well. -/
theorem rate_order {in1 out1 in2 out2 : STAmount} (hin1 : in1.NonNegative) (hout1 : out1.NonNegative) (hin2 : in2.NonNegative)
    (hout2 : out2.NonNegative) (hwrap1 : rateQuotient out1 in1 + 5 < 2 ^ 64) (hwrap2 : rateQuotient out2 in2 + 5 < 2 ^ 64)
    (hrate1 : getRate out1 in1 ≠ 0) (hrate2 : getRate out2 in2 ≠ 0) (hle : in1.val / out1.val ≤ in2.val / out2.val)
    (hunits : rateOffset out1 in1 ≤ rateOffset out2 in2 ∨
      in1.val / out1.val + 5 * 10 ^ rateOffset out1 in1 ≤ in2.val / out2.val + 5 * 10 ^ rateOffset out2 in2) :
    getRate out1 in1 ≤ getRate out2 in2 := by
  obtain ⟨hout1', hin1', m1, e1, hnormal1, hword1, hfloor1⟩ := getRate_cases hout1 hin1 hwrap1 hrate1
  obtain ⟨hout2', hin2', m2, e2, hnormal2, hword2, hfloor2⟩ := getRate_cases hout2 hin2 hwrap2 hrate2
  have hfive := add_five_le (quotient_div hin1 hout1 hin1' hout1').between (quotient_div hin2 hout2 hin2' hout2').between hle hunits
  rw [BitVec.le_def, hword1, hword2]
  exact rate_word_le hnormal1 hnormal2 (hfloor1.mono hfloor2 hfive)

/-- Two for three is a better price than three for four. -/
theorem rate_order_thirds :
    let two : STAmount := ⟨⟨1, 1⟩, 2000000000000000#64, -15, false, false⟩
    let three : STAmount := ⟨⟨1, 1⟩, 3000000000000000#64, -15, false, false⟩
    let four : STAmount := ⟨⟨0, 0⟩, 4#64, 0, true, false⟩
    two.NonNegative ∧ three.NonNegative ∧ four.NonNegative ∧ two.val / three.val ≤ three.val / four.val ∧
      getRate three two ≤ getRate four three := by
  intro two three four
  have htwo : two.NonNegative := by decide
  have hthree : three.NonNegative := by decide
  have hfour : four.NonNegative := by decide
  have hle : two.val / three.val ≤ three.val / four.val := by norm_num [val, two, three, four]
  exact ⟨htwo, hthree, hfour, hle, rate_order htwo hthree hthree hfour (by decide +kernel) (by decide +kernel)
    (by decide +kernel) (by decide +kernel) hle (.inl (by decide +kernel))⟩

/-- Two for three and eight for twelve are one price, but not one rate. -/
theorem rate_order_equal_prices :
    let two : STAmount := ⟨⟨1, 1⟩, 2000000000000000#64, -15, false, false⟩
    let three : STAmount := ⟨⟨1, 1⟩, 3000000000000000#64, -15, false, false⟩
    let eight : STAmount := ⟨⟨1, 1⟩, 8000000000000000#64, -15, false, false⟩
    let twelve : STAmount := ⟨⟨1, 1⟩, 1200000000000000#64, -14, false, false⟩
    two.NonNegative ∧ three.NonNegative ∧ eight.NonNegative ∧ twelve.NonNegative ∧ getRate three two ≠ 0 ∧ getRate twelve eight ≠ 0 ∧
      two.val / three.val = eight.val / twelve.val ∧ getRate twelve eight < getRate three two := by
  intro two three eight twelve
  refine ⟨by decide, by decide, by decide, by decide,
    by decide +kernel, by decide +kernel, by norm_num [val, two, three, eight, twelve], by decide +kernel⟩

end ScfChain.Protocol.STAmount
