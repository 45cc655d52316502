import ScfChain.Protocol.IOUAmount

/-!
# Rounded products and quotients

`mulRound` and `divRound` bring the mantissas of native amounts into range, multiply and divide in 128 bits, and make an
amount of the quotient. With `roundUp` a bias is added before the division, and `canonicalizeRound` drops digits.

Both are one quotient `N / D` in units of `10 ^ offset`, of which `roundedAmount` makes the result.

* `mulRound`, `divRound` : the functions of the source.
* `mulRound_eq`, `divRound_eq` : the quotients.
* `Floors`, `round_down_iff` : when truncation gives the greatest amount that is not above the exact one.
-/

namespace ScfChain.Protocol

open Data

namespace STAmount

/-! ## The functions -/

def tenTo14 : BitVec 64 := 100000000000000#64
def tenTo14m1 : BitVec 64 := tenTo14 - 1
def tenTo17 : BitVec 64 := tenTo14 * 1000

/-- The product of two words and a third one are below `2 ^ 128`. -/
def muldiv_round (multiplier multiplicand divisor rounding : BitVec 64) : Except String (BitVec 64) :=
  let ret := (multiplier.toNat * multiplicand.toNat + rounding.toNat) / divisor.toNat
  if 2 ^ 64 - 1 < ret then
    .error ("overflow: ((" ++ toString multiplier.toNat ++ " * " ++ toString multiplicand.toNat ++ ") + " ++
      toString rounding.toNat ++ ") / " ++ toString divisor.toNat)
  else .ok (BitVec.ofNat 64 ret)

/-- The loop that brings the mantissa of a native amount into range. It ends after fifteen times if the amount is not zero. -/
def inRange (v : STAmount) : BitVec 64 × ℤ := if v.mIsNative then raise 15 v.mValue v.mOffset else (v.mValue, v.mOffset)

/-- `while (value > (10 * STAmount::cMaxValue))`. Three times are enough for 64 bits. -/
def shorten : ℕ → BitVec 64 → ℤ → BitVec 64 × ℤ
  | 0, value, offset => (value, offset)
  | n + 1, value, offset => if 10 * cMaxValue < value then shorten n (value / 10) (offset + 1) else (value, offset)

def canonicalizeRound (native : Bool) (value : BitVec 64) (offset : ℤ) : BitVec 64 × ℤ :=
  if native then
    if offset < 0 then
      -- while (offset < -1)
      let loops := (-1 - offset).toNat
      ((shrink loops value + if 2 ≤ loops then 9 else 10) / 10, 0)
    else (value, offset)
  else if cMaxValue < value then
    let shortened := shorten 3 value offset
    ((shortened.1 + 9) / 10, shortened.2 + 1)
  else (value, offset)

/-- `stAmountCalcSwitchover` and `stAmountCalcSwitchover2`. -/
structure Switchover where
  first : Bool
  second : Bool
  deriving DecidableEq

/-- How `mulRound` and `divRound` end. -/
def roundedAmount (switchover : Switchover) (issue : Issue) (amount : BitVec 64) (offset : ℤ) (resultNegative roundUp : Bool) :
    Except String STAmount := do
  let rounded := if resultNegative ≠ roundUp then canonicalizeRound (isSFC issue.currency) amount offset else (amount, offset)
  let result ← canonicalize ⟨issue, rounded.1, rounded.2, false, resultNegative⟩
  if roundUp ∧ ¬ resultNegative ∧ result.mValue = 0 ∧ switchover.first then
    -- return the smallest value above zero
    if isSFC issue.currency ∧ switchover.second then canonicalize ⟨issue, 1, 0, false, resultNegative⟩
    else canonicalize ⟨issue, cMinValue, cMinOffset, false, resultNegative⟩
  else return result

/-- The product of two native amounts, in drops. -/
def mulNative (v1 v2 : STAmount) : Except String STAmount := do
  let n1 ← getSNValue v1
  let n2 ← getSNValue v2
  let minV := BitVec.ofInt 64 (if n1 < n2 then n1 else n2)
  let maxV := BitVec.ofInt 64 (if n1 < n2 then n2 else n1)
  if 3000000000#64 < minV then .error "Native value overflow"
  else if 2095475792#64 < (maxV >>> 32) * minV then .error "Native value overflow"
  else return ⟨⟨0, 0⟩, minV * maxV, 0, true, false⟩

def mulRound (switchover : Switchover) (v1 v2 : STAmount) (issue : Issue) (roundUp : Bool) : Except String STAmount :=
  if v1.mValue = 0 ∨ v2.mValue = 0 then canonicalize ⟨issue, 0, 0, false, false⟩
  else if v1.mIsNative ∧ v2.mIsNative ∧ isSFC issue.currency then mulNative v1 v2
  else do
    let resultNegative : Bool := v1.mIsNegative ≠ v2.mIsNegative
    let amount ← muldiv_round v1.inRange.1 v2.inRange.1 tenTo14 (if resultNegative ≠ roundUp then tenTo14m1 else 0)
    roundedAmount switchover issue amount (v1.inRange.2 + v2.inRange.2 + 14) resultNegative roundUp

def divRound (switchover : Switchover) (num den : STAmount) (issue : Issue) (roundUp : Bool) : Except String STAmount :=
  if den.mValue = 0 then .error "division by zero"
  else if num.mValue = 0 then canonicalize ⟨issue, 0, 0, false, false⟩
  else do
    let resultNegative : Bool := num.mIsNegative ≠ den.mIsNegative
    let amount ← muldiv_round num.inRange.1 tenTo17 den.inRange.1 (if resultNegative ≠ roundUp then den.inRange.1 - 1 else 0)
    roundedAmount switchover issue amount (num.inRange.2 - den.inRange.2 - 17) resultNegative roundUp

/-! ## The exact quotient -/

/-- A native or an issued amount that is not negative. -/
@[mk_iff] structure NonNegative (v : STAmount) : Prop where
  kind : v.Issued ∨ v.Native
  sign : v.mIsNegative = false

instance (v : STAmount) : Decidable v.NonNegative := decidable_of_iff' _ (nonNegative_iff v)

variable {v : STAmount} {issue : Issue} {D : ℕ} {offset : ℤ}

theorem NonNegative.val_eq (hv : v.NonNegative) : v.val = v.mValue.toNat * 10 ^ v.mOffset := by
  rw [val, if_neg (by simp [hv.sign]), one_mul]

theorem NonNegative.inRange (hv : v.NonNegative) (hzero : v.mValue ≠ 0) :
    10 ^ 15 ≤ v.inRange.1.toNat ∧ v.val = v.inRange.1.toNat * 10 ^ v.inRange.2 := by
  rw [hv.val_eq]
  unfold STAmount.inRange
  rcases hv.kind with hissued | hnative
  · rw [if_neg (by simp [hissued.native])]
    exact ⟨(hissued.normal hzero).le, rfl⟩
  · rw [if_pos hnative.native]
    have hraise := raise_eq 15 v.mValue v.mOffset
    obtain ⟨k, hk, heq, hlo, -⟩ := raise_spec (10 ^ 15) 15 v.mValue.toNat v.mOffset
    obtain ⟨hvalue, hoffset⟩ := Prod.mk.inj (hraise.trans heq)
    rw [hvalue, hoffset]
    constructor
    · rcases hlo with hlo | rfl
      · exact hlo
      · have hpos : v.mValue.toNat ≠ 0 := mt toNat_eq_zero_iff.mp hzero
        omega
    · exact (raised_value _ k _).symm

theorem toNat_tenTo14 : tenTo14.toNat = 10 ^ 14 := by decide

theorem toNat_tenTo17 : tenTo17.toNat = 10 ^ 17 := by decide

theorem muldiv_round_eq (a b d r : BitVec 64) {q : ℕ} (hq : q = (a.toNat * b.toNat + r.toNat) / d.toNat) :
    (muldiv_round a b d r).toOption = if q < 2 ^ 64 then some (BitVec.ofNat 64 q) else none := by
  unfold muldiv_round
  rw [← hq]
  dsimp only
  split_ifs
  · omega
  · rfl
  · rfl
  · omega

/-- The quotient `N / D`, in units of `10 ^ offset`. -/
structure Quotient (x : ℚ) (N D : ℕ) (offset : ℤ) : Prop where
  pos : 0 < D
  two : 2 * D ≤ N
  eq : x = N / D * 10 ^ offset

theorem quotient_mul {v1 v2 : STAmount} (h1 : v1.NonNegative) (h2 : v2.NonNegative) (hz1 : v1.mValue ≠ 0) (hz2 : v2.mValue ≠ 0) :
    Quotient (v1.val * v2.val) (v1.inRange.1.toNat * v2.inRange.1.toNat) (10 ^ 14) (v1.inRange.2 + v2.inRange.2 + 14) := by
  obtain ⟨hlo1, hval1⟩ := h1.inRange hz1
  obtain ⟨hlo2, hval2⟩ := h2.inRange hz2
  refine ⟨by norm_num, by nlinarith, ?_⟩
  rw [hval1, hval2, zpow_add₀ (by norm_num), zpow_add₀ (by norm_num)]
  push_cast
  ring

theorem quotient_div {num den : STAmount} (h1 : num.NonNegative) (h2 : den.NonNegative) (hz1 : num.mValue ≠ 0) (hz2 : den.mValue ≠ 0) :
    Quotient (num.val / den.val) (num.inRange.1.toNat * 10 ^ 17) den.inRange.1.toNat (num.inRange.2 - den.inRange.2 - 17) := by
  obtain ⟨hlo1, hval1⟩ := h1.inRange hz1
  obtain ⟨hlo2, hval2⟩ := h2.inRange hz2
  have hlt := den.inRange.1.isLt
  refine ⟨by omega, by omega, ?_⟩
  rw [hval1, hval2, zpow_sub₀ (by norm_num), zpow_sub₀ (by norm_num)]
  push_cast
  field_simp

section Quotient

variable {x : ℚ} {N D : ℕ} {offset : ℤ}

theorem Quotient.between_iff (h : Quotient x N D offset) (k : ℕ) :
    Between (N / D * 10 ^ k) (offset - k) x ↔ N % D * 10 ^ k < D := by
  have hD : (0 : ℚ) < D := by exact_mod_cast h.pos
  have hunit := ten_zpow_pos (offset - k)
  have hdiv : ((N / D : ℕ) : ℚ) * D + (N % D : ℕ) = N := by exact_mod_cast Nat.div_add_mod' N D
  have hx : x * D = (N : ℚ) * 10 ^ k * 10 ^ (offset - k) := by
    rw [h.eq, mul_assoc (N : ℚ), ten_zpow_sub]
    field_simp
  have hpow : (0 : ℚ) < 10 ^ k := by positivity
  constructor
  · rintro ⟨-, hlt⟩
    have hlt' : (N : ℚ) * 10 ^ k * 10 ^ (offset - k) < (((N / D : ℕ) : ℚ) * 10 ^ k + 1) * D * 10 ^ (offset - k) := by
      rw [← hx]
      push_cast at hlt
      nlinarith
    have hlt'' := lt_of_mul_lt_mul_right hlt' hunit.le
    rw [← hdiv] at hlt''
    have : ((N % D : ℕ) : ℚ) * 10 ^ k < D := by nlinarith
    exact_mod_cast this
  · intro hmod
    have hmod' : ((N % D : ℕ) : ℚ) * 10 ^ k < D := by exact_mod_cast hmod
    constructor
    · refine le_of_mul_le_mul_right ?_ hD
      rw [hx, ← hdiv]
      push_cast
      have hrest : (0 : ℚ) ≤ (N % D : ℕ) * 10 ^ k * 10 ^ (offset - k) := by positivity
      nlinarith
    · refine lt_of_mul_lt_mul_right ?_ hD.le
      rw [hx, ← hdiv]
      push_cast
      nlinarith [mul_lt_mul_of_pos_right hmod' hunit]

theorem Quotient.between (h : Quotient x N D offset) : Between (N / D) offset x := by
  simpa using (h.between_iff 0).mpr (by simpa using Nat.mod_lt N h.pos)

theorem isGreatest_drops_iff {w : ℕ} : IsGreatest {y | y ∈ Set.range (Nat.cast : ℕ → ℚ) ∧ y ≤ x} (w : ℚ) ↔ Between w 0 x := by
  rw [Between, zpow_zero, mul_one, mul_one]
  constructor
  · rintro ⟨⟨-, hle⟩, hmax⟩
    refine ⟨hle, ?_⟩
    by_contra hlt
    have hnext : ((w + 1 : ℕ) : ℚ) ≤ w := hmax ⟨⟨w + 1, rfl⟩, by push_cast; exact not_lt.mp hlt⟩
    exact absurd (by exact_mod_cast hnext : w + 1 ≤ w) (by omega)
  · rintro ⟨hle, hlt⟩
    refine ⟨⟨⟨w, rfl⟩, hle⟩, ?_⟩
    rintro - ⟨⟨j, rfl⟩, hj⟩
    have : (j : ℚ) < (w + 1 : ℕ) := by
      push_cast
      exact hj.trans_lt hlt
    exact_mod_cast Nat.lt_succ_iff.mp (by exact_mod_cast this)

end Quotient

/-- The numbers an amount of an issue can stand for: whole drops, or those of the format. -/
def representable (issue : Issue) : Set ℚ := if isSFC issue.currency then Set.range (Nat.cast : ℕ → ℚ) else {x | format.Rep x}

/-- When truncating the quotient is exact. Drops are multiplied by ten in 64 bits, and lost digits are not found again. -/
def Floors (native : Bool) (N D : ℕ) (offset : ℤ) : Prop :=
  N / D < 2 ^ 64 →
    if native then
      0 < offset → N / D * 10 ^ offset.toNat ≤ 10 ^ 17 ∧ N % D * 10 ^ offset.toNat < D ∨
        10 ^ 17 < N / D * 10 ^ offset.toNat % 2 ^ 64
    else
      ∀ k : ℕ, format.Normal (N / D * 10 ^ k) (offset - k) → N % D * 10 ^ k < D

theorem canonicalize_drops (hsfc : isSFC issue.currency = true) {value : BitVec 64} {off : ℤ} {w : ℕ}
    (hw : w = value.toNat / 10 ^ (-off).toNat * 10 ^ off.toNat % 2 ^ 64) :
    canonicalize ⟨issue, value, off, false, false⟩ = if 10 ^ 17 < w then .error "Native currency amount out of range"
      else .ok ⟨issue, BitVec.ofNat 64 w, 0, true, false⟩ := by
  unfold canonicalize
  rw [if_pos hsfc]
  by_cases hzero : value = 0
  · subst hzero
    have hw0 : w = 0 := by simpa using hw
    rw [hw0, if_neg (by norm_num)]
    rfl
  · exact canonicalizeNative_eq hzero hw

/-- **Truncation**: the amount made of the truncated quotient. -/
theorem canonicalize_floor_iff {x : ℚ} {N : ℕ} {amount : BitVec 64} (h : Quotient x N D offset)
    (hamount : amount.toNat = N / D) :
    (∀ r, canonicalize ⟨issue, amount, offset, false, false⟩ = .ok r → IsGreatest {y | y ∈ representable issue ∧ y ≤ x} r.val) ↔
      Floors (isSFC issue.currency) N D offset := by
  have hpos : 0 < N / D := Nat.div_pos (by have := h.two; omega) h.pos
  rw [Floors, ← hamount, imp_iff_right amount.isLt, hamount]
  unfold representable
  cases hsfc : isSFC issue.currency with
  | false =>
    have hcur : issue.currency ≠ 0 := by simpa [isSFC] using hsfc
    simp only [Bool.false_eq_true, if_false]
    rw [canonicalize_issued hcur, hamount]
    cases hn : format.normalize (N / D) offset with
    | none =>
      refine ⟨fun _ k hk => ?_, fun _ r hr => by simp at hr⟩
      simp [Format.normalize_of_shift hk] at hn
    | some p =>
      have hval : (ofNormal issue false p).val = p.1 * 10 ^ p.2 := val_ofNormal (normalize_lt hn)
      have hfloor := Format.isFloor_normalize_iff hpos h.between hn
      simp only [h.between_iff] at hfloor
      rw [← hfloor]
      refine ⟨fun hall => ?_, fun hp r hr => ?_⟩
      · have := hall _ rfl
        rwa [hval] at this
      · obtain rfl := Except.ok.inj hr
        rw [hval]
        exact hp
  | true =>
    simp only [if_true]
    obtain ⟨w, hw⟩ : ∃ w, w = amount.toNat / 10 ^ (-offset).toNat * 10 ^ offset.toNat % 2 ^ 64 := ⟨_, rfl⟩
    have hwlt : w < 2 ^ 64 := hw ▸ Nat.mod_lt _ (by norm_num)
    have hval : val ⟨issue, BitVec.ofNat 64 w, 0, true, false⟩ = w := val_drops hwlt
    have hall : (∀ r, canonicalize ⟨issue, amount, offset, false, false⟩ = .ok r →
        IsGreatest {y | y ∈ Set.range (Nat.cast : ℕ → ℚ) ∧ y ≤ x} r.val) ↔ (w ≤ 10 ^ 17 → Between w 0 x) := by
      rw [← isGreatest_drops_iff, canonicalize_drops hsfc hw, ← hval]
      refine ⟨fun hall hle => ?_, fun hle r hr => ?_⟩
      · exact hall _ (if_neg (not_lt.mpr hle))
      · split_ifs at hr with hbig
        obtain rfl := Except.ok.inj hr
        exact hle (not_lt.mp hbig)
    rw [hall]
    rw [hamount] at hw
    by_cases hoff : 0 < offset
    · have hshrink : (-offset).toNat = 0 := by omega
      rw [hshrink, pow_zero, Nat.div_one] at hw
      have hiff := h.between_iff offset.toNat
      rw [show offset - (offset.toNat : ℤ) = 0 by omega] at hiff
      rw [← hw]
      refine ⟨fun hle _ => ?_, fun hfloors hle => ?_⟩
      · by_cases hbig : 10 ^ 17 < w
        · exact .inr hbig
        · left
          have hbetween := hle (not_lt.mp hbig)
          have hunits : ((N / D : ℕ) : ℚ) * 10 ^ (0 + (offset.toNat : ℤ)) ≤ w * 10 ^ (0 : ℤ) := by
            refine hbetween.le_of_units ?_
            rw [show 0 + (offset.toNat : ℤ) = offset by omega]
            exact h.between.1
          rw [zero_add, zpow_natCast, zpow_zero, mul_one] at hunits
          have hunits' : N / D * 10 ^ offset.toNat ≤ w := by exact_mod_cast hunits
          rw [Nat.mod_eq_of_lt (by omega)] at hw
          rw [hw] at hbetween
          exact ⟨by omega, hiff.mp hbetween⟩
      · rcases hfloors hoff with ⟨hsmall, hmod⟩ | hbig
        · rw [Nat.mod_eq_of_lt (by omega)] at hw
          rw [hw]
          exact hiff.mpr hmod
        · omega
    · -- digits are dropped
      have hgrow : offset.toNat = 0 := by omega
      have hdiv := h.between.div (-offset).toNat
      rw [show offset + ((-offset).toNat : ℤ) = 0 by omega] at hdiv
      have hlt : N / D / 10 ^ (-offset).toNat < 2 ^ 64 := (Nat.div_le_self _ _).trans_lt (hamount ▸ amount.isLt)
      rw [hgrow, pow_zero, Nat.mul_one, Nat.mod_eq_of_lt hlt] at hw
      rw [hw]
      exact ⟨fun _ hpos => absurd hpos hoff, fun _ _ => hdiv⟩

theorem roundedAmount_down (switchover : Switchover) (issue : Issue) (amount : BitVec 64) (offset : ℤ) :
    roundedAmount switchover issue amount offset false false = canonicalize ⟨issue, amount, offset, false, false⟩ := by
  unfold roundedAmount
  simp

/-- What is made of a quotient, if it fits into 64 bits. -/
theorem bind_quotient_iff {A : ℕ} {quotient : Except String (BitVec 64)} {f : BitVec 64 → Except String STAmount}
    {P : Prop} {R : STAmount → Prop}
    (hq : quotient.toOption = if A < 2 ^ 64 then some (BitVec.ofNat 64 A) else none)
    (h : ∀ amount : BitVec 64, amount.toNat = A → ((∀ r, f amount = .ok r → R r) ↔ P)) :
    (∀ r, (quotient >>= f) = .ok r → R r) ↔ (A < 2 ^ 64 → P) := by
  by_cases hlt : A < 2 ^ 64
  · rw [if_pos hlt, toOption_eq_some] at hq
    rw [hq, imp_iff_right hlt]
    exact h _ (by rw [BitVec.toNat_ofNat, Nat.mod_eq_of_lt hlt])
  · rw [if_neg hlt] at hq
    cases quotient with
    | error e =>
      refine ⟨fun _ h => absurd h hlt, fun _ r hr => ?_⟩
      cases hr
    | ok a => simp [Except.toOption] at hq

theorem bind_roundedAmount_floor_iff {switchover : Switchover} {x : ℚ} {N : ℕ} {quotient : Except String (BitVec 64)}
    (h : Quotient x N D offset)
    (hq : quotient.toOption = if N / D < 2 ^ 64 then some (BitVec.ofNat 64 (N / D)) else none) :
    (∀ r, (quotient >>= fun amount => roundedAmount switchover issue amount offset false false) = .ok r →
        IsGreatest {y | y ∈ representable issue ∧ y ≤ x} r.val) ↔
      Floors (isSFC issue.currency) N D offset := by
  simp only [roundedAmount_down]
  rw [bind_quotient_iff hq fun _ => canonicalize_floor_iff h]
  exact ⟨fun hall hlt => hall hlt hlt, fun hall hlt _ => hall hlt⟩

theorem val_of_canonicalize_zero {r : STAmount} (h : canonicalize ⟨issue, 0, 0, false, false⟩ = .ok r) : r.val = 0 := by
  have heq : canonicalize ⟨issue, 0, 0, false, false⟩ =
      if isSFC issue.currency then .ok ⟨issue, 0, 0, true, false⟩ else .ok ⟨issue, 0, -100, false, false⟩ := rfl
  rw [heq] at h
  split_ifs at h
  · obtain rfl := Except.ok.inj h
    simp [val]
  · obtain rfl := Except.ok.inj h
    simp [val]

theorem canonicalize_zero_floor {r : STAmount} (h : canonicalize ⟨issue, 0, 0, false, false⟩ = .ok r) :
    IsGreatest {y | y ∈ representable issue ∧ y ≤ 0} r.val := by
  rw [val_of_canonicalize_zero h]
  refine ⟨⟨?_, le_rfl⟩, fun y hy => hy.2⟩
  unfold representable
  split_ifs
  · exact ⟨0, Nat.cast_zero⟩
  · exact .inl rfl

theorem floors_zero {native : Bool} (hD : 0 < D) : Floors native 0 D offset := by
  intro _
  rw [Nat.zero_div, Nat.zero_mod]
  cases native with
  | false =>
    intro k _
    simpa using hD
  | true =>
    intro _
    left
    simpa using hD

theorem inRange_zero (hzero : v.mValue = 0) : v.inRange.1.toNat = 0 := by
  unfold inRange
  split_ifs
  · have hraise := raise_eq 15 v.mValue v.mOffset
    obtain ⟨k, -, heq, -⟩ := raise_spec (10 ^ 15) 15 v.mValue.toNat v.mOffset
    obtain ⟨hvalue, -⟩ := Prod.mk.inj (hraise.trans heq)
    rw [hvalue, toNat_eq_zero_iff.mpr hzero, Nat.zero_mul]
  · exact toNat_eq_zero_iff.mpr hzero

theorem zero_factor {v1 v2 : STAmount} (h1 : v1.NonNegative) (h2 : v2.NonNegative) (hzero : v1.mValue = 0 ∨ v2.mValue = 0) :
    v1.inRange.1.toNat * v2.inRange.1.toNat = 0 ∧ v1.val * v2.val = 0 := by
  rcases hzero with hzero | hzero
  · simp [inRange_zero hzero, h1.val_eq, hzero]
  · simp [inRange_zero hzero, h2.val_eq, hzero]

/-- When the product, and the quotient, of two amounts are exact up to truncation. -/
def MulFloors (v1 v2 : STAmount) (issue : Issue) : Prop :=
  Floors (isSFC issue.currency) (v1.inRange.1.toNat * v2.inRange.1.toNat) (10 ^ 14) (v1.inRange.2 + v2.inRange.2 + 14)

def DivFloors (num den : STAmount) (issue : Issue) : Prop :=
  Floors (isSFC issue.currency) (num.inRange.1.toNat * 10 ^ 17) den.inRange.1.toNat (num.inRange.2 - den.inRange.2 - 17)

theorem mulRound_down_iff (switchover : Switchover) {v1 v2 : STAmount} (h1 : v1.NonNegative) (h2 : v2.NonNegative)
    (hnative : ¬ (v1.mIsNative ∧ v2.mIsNative)) (issue : Issue) :
    (∀ r, mulRound switchover v1 v2 issue false = .ok r → IsGreatest {y | y ∈ representable issue ∧ y ≤ v1.val * v2.val} r.val) ↔
      MulFloors v1 v2 issue := by
  unfold mulRound MulFloors
  by_cases hzero : v1.mValue = 0 ∨ v2.mValue = 0
  · obtain ⟨hrange, hval⟩ := zero_factor h1 h2 hzero
    rw [if_pos hzero, hrange, hval]
    exact iff_of_true (fun r => canonicalize_zero_floor) (floors_zero (by norm_num))
  · rw [if_neg hzero, if_neg (by tauto)]
    rw [not_or] at hzero
    simp only [h1.sign, h2.sign, ne_eq, not_true_eq_false, decide_false, if_false]
    exact bind_roundedAmount_floor_iff (quotient_mul h1 h2 hzero.1 hzero.2)
      (muldiv_round_eq _ _ _ _ (by rw [toNat_tenTo14, toNat_eq_zero_iff.mpr rfl, Nat.add_zero]))

theorem divRound_down_iff (switchover : Switchover) {num den : STAmount} (h1 : num.NonNegative) (h2 : den.NonNegative)
    (hden : den.mValue ≠ 0) (issue : Issue) :
    (∀ r, divRound switchover num den issue false = .ok r → IsGreatest {y | y ∈ representable issue ∧ y ≤ num.val / den.val} r.val) ↔
      DivFloors num den issue := by
  unfold divRound DivFloors
  rw [if_neg hden]
  by_cases hzero : num.mValue = 0
  · have hpos : 0 < den.inRange.1.toNat := lt_of_lt_of_le (by norm_num) (h2.inRange hden).1
    rw [if_pos hzero, inRange_zero hzero, Nat.zero_mul, h1.val_eq, hzero]
    simp only [show (0 : BitVec 64).toNat = 0 from rfl, Nat.cast_zero, zero_mul, zero_div]
    exact iff_of_true (fun r => canonicalize_zero_floor) (floors_zero hpos)
  · rw [if_neg hzero]
    simp only [h1.sign, h2.sign, ne_eq, not_true_eq_false, decide_false, if_false]
    exact bind_roundedAmount_floor_iff (quotient_div h1 h2 hzero hden) 
      (muldiv_round_eq _ _ _ _ (by rw [toNat_tenTo17, toNat_eq_zero_iff.mpr rfl, Nat.add_zero]))

/-- **Rounding down is exact flooring** if and only if no digit that has been lost is needed and no drops are counted
modulo `2 ^ 64`. -/
theorem round_down_iff (switchover : Switchover) {v1 v2 : STAmount} (h1 : v1.NonNegative) (h2 : v2.NonNegative) (issue : Issue) :
    (¬ (v1.mIsNative ∧ v2.mIsNative) →
      ((∀ r, mulRound switchover v1 v2 issue false = .ok r →
          IsGreatest {y | y ∈ representable issue ∧ y ≤ v1.val * v2.val} r.val) ↔ MulFloors v1 v2 issue)) ∧
    (v2.mValue ≠ 0 →
      ((∀ r, divRound switchover v1 v2 issue false = .ok r →
          IsGreatest {y | y ∈ representable issue ∧ y ≤ v1.val / v2.val} r.val) ↔ DivFloors v1 v2 issue)) :=
  ⟨fun hnative => mulRound_down_iff switchover h1 h2 hnative issue, fun hden => divRound_down_iff switchover h1 h2 hden issue⟩

/-- One third. -/
theorem round_down_iff_third :
    let one : STAmount := ⟨⟨1, 1⟩, 1000000000000000#64, -15, false, false⟩
    let three : STAmount := ⟨⟨1, 1⟩, 3000000000000000#64, -15, false, false⟩
    one.NonNegative ∧ three.NonNegative ∧ DivFloors one three ⟨1, 1⟩ ∧
      ∃ r, divRound ⟨true, true⟩ one three ⟨1, 1⟩ false = .ok r ∧
        IsGreatest {y | y ∈ representable ⟨1, 1⟩ ∧ y ≤ one.val / three.val} r.val := by
  intro one three
  have hone : one.NonNegative := by decide
  have hthree : three.NonNegative := by decide
  have hfloors : DivFloors one three ⟨1, 1⟩ := by
    intro _ k hk
    have hq : one.inRange.1.toNat * 10 ^ 17 / three.inRange.1.toNat = 33333333333333333 := by decide +kernel
    have hlt := hk.lt
    rw [hq, show format.lo = 10 ^ 15 from rfl] at hlt
    have := Nat.one_le_pow k 10 (by norm_num)
    omega
  have hr : divRound ⟨true, true⟩ one three ⟨1, 1⟩ false = .ok ⟨⟨1, 1⟩, 3333333333333333#64, -16, false, false⟩ := by decide +kernel
  exact ⟨hone, hthree, hfloors, _, hr, (((round_down_iff ⟨true, true⟩ hone hthree ⟨1, 1⟩).2 (by decide)).mpr hfloors) _ hr⟩

/-- The product of `10 ^ 55` and `10 ^ 55` is no drops, and `10 ^ 33` in parts of `9 * 10 ^ 16` drops lacks one. -/
theorem round_down_short :
    let factor : STAmount := ⟨⟨1, 1⟩, 1000000000000000#64, 40, false, false⟩
    let num : STAmount := ⟨⟨1, 1⟩, 1000000000000000#64, 18, false, false⟩
    let den : STAmount := ⟨⟨0, 0⟩, 90000000000000000#64, 0, true, false⟩
    factor.NonNegative ∧ num.NonNegative ∧ den.NonNegative ∧
      (∃ r, mulRound ⟨true, true⟩ factor factor ⟨0, 0⟩ false = .ok r ∧ r.val = 0 ∧
        ¬ IsGreatest {y | y ∈ representable ⟨0, 0⟩ ∧ y ≤ factor.val * factor.val} r.val) ∧
      ∃ r, divRound ⟨true, true⟩ num den ⟨0, 0⟩ false = .ok r ∧ r.val = 11111111111111110 ∧
        ¬ IsGreatest {y | y ∈ representable ⟨0, 0⟩ ∧ y ≤ num.val / den.val} r.val := by
  intro factor num den
  have hdrops : representable ⟨0, 0⟩ = Set.range (Nat.cast : ℕ → ℚ) := if_pos (by decide)
  refine ⟨by decide, by decide, by decide, ⟨⟨⟨0, 0⟩, 0, 0, true, false⟩, by decide +kernel, by norm_num [val], ?_⟩,
    ⟨⟨⟨0, 0⟩, 11111111111111110#64, 0, true, false⟩, by decide +kernel, by norm_num [val], ?_⟩⟩
  · rw [hdrops]
    rintro ⟨-, hmax⟩
    have hone := hmax ⟨⟨1, rfl⟩, by norm_num [val, factor]⟩
    norm_num [val] at hone
  · rw [hdrops]
    rintro ⟨-, hmax⟩
    have hnext := hmax ⟨⟨11111111111111111, rfl⟩, by norm_num [val, num, den]⟩
    norm_num [val] at hnext

end STAmount

end ScfChain.Protocol
