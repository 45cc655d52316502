import ScfChain.Protocol.Rounding

/-!
# Rounding up

The quotient itself is rounded up. `canonicalizeRound` then drops digits one at a time and adds nine, or ten, before the last
of them only: what the digits before it held is lost if the last one is zero.

* `Lost` : digits that are dropped unseen.
* `Undercharges` : when the amount that is made of a quotient is below it.
* `round_up_iff` : rounding up never undercharges, apart from these.
-/

namespace ScfChain.Protocol.STAmount

open Data

/-! ## Dropping digits -/

/-- Of the last `digits + 1` digits the first is zero, and the others are not all zero. -/
def Lost (amount digits : ℕ) : Prop := 0 < amount % 10 ^ (digits + 1) ∧ amount % 10 ^ (digits + 1) < 10 ^ digits

theorem lost_iff (amount digits : ℕ) : (amount / 10 ^ digits + 9) / 10 * 10 ^ (digits + 1) < amount ↔ Lost amount digits := by
  have hpow : 0 < 10 ^ digits := Nat.pow_pos (by norm_num)
  have hsucc : 10 ^ (digits + 1) = 10 * 10 ^ digits := pow_succ' 10 digits
  have hmod := Nat.div_add_mod amount (10 ^ (digits + 1))
  have hlt := Nat.mod_lt amount (y := 10 ^ (digits + 1)) (by positivity)
  unfold Lost
  generalize amount % 10 ^ (digits + 1) = r at *
  generalize amount / 10 ^ (digits + 1) = b at *
  have hquot : amount / 10 ^ digits = 10 * b + r / 10 ^ digits := by
    rw [← hmod, hsucc, mul_assoc, mul_comm 10 (_ * b), mul_assoc, Nat.mul_add_div hpow, mul_comm b]
  rw [hquot]
  by_cases hr : r < 10 ^ digits
  · rw [Nat.div_eq_of_lt hr, show (10 * b + 0 + 9) / 10 = b by omega, mul_comm b]
    omega
  · have hq : 1 ≤ r / 10 ^ digits := (Nat.one_le_div_iff hpow).mpr (not_lt.mp hr)
    have hq' : r / 10 ^ digits < 10 := (Nat.div_lt_iff_lt_mul hpow).mpr (by omega)
    rw [show (10 * b + r / 10 ^ digits + 9) / 10 = b + 1 by omega, Nat.add_mul, mul_comm b]
    omega

/-- How often `canonicalizeRound` divides an issued amount by ten before it looks at a digit. -/
def surplus (amount : ℕ) : ℕ :=
  if amount ≤ 99999999999999990 then 0 else if amount ≤ 999999999999999909 then 1
  else if amount ≤ 9999999999999999099 then 2 else 3

theorem shorten_eq (value : BitVec 64) (offset : ℤ) :
    (shorten 3 value offset).1.toNat = value.toNat / 10 ^ surplus value.toNat ∧
      (shorten 3 value offset).2 = offset + surplus value.toNat := by
  have hlt : ∀ v : BitVec 64, 10 * cMaxValue < v ↔ 99999999999999990 < v.toNat := fun _ => BitVec.lt_def
  have hbound := value.isLt
  unfold surplus shorten
  by_cases h₁ : value.toNat ≤ 99999999999999990
  · rw [if_pos h₁, if_neg (by rw [hlt]; omega)]
    simp
  rw [if_neg h₁, if_pos (by rw [hlt]; omega)]
  unfold shorten
  by_cases h₂ : value.toNat ≤ 999999999999999909
  · rw [if_pos h₂, if_neg (by rw [hlt, toNat_div_ten]; omega)]
    simp
  rw [if_neg h₂, if_pos (by rw [hlt, toNat_div_ten]; omega)]
  unfold shorten
  by_cases h₃ : value.toNat ≤ 9999999999999999099
  · rw [if_pos h₃, if_neg (by rw [hlt, toNat_div_ten, toNat_div_ten]; omega)]
    simp only [toNat_div_ten]
    omega
  rw [if_neg h₃, if_pos (by rw [hlt, toNat_div_ten, toNat_div_ten]; omega)]
  unfold shorten
  simp only [toNat_div_ten]
  omega

theorem canonicalizeRound_issued {value : BitVec 64} (hvalue : 10 ^ 16 ≤ value.toNat) (offset : ℤ) {k : ℕ}
    (hk : k = surplus value.toNat) :
    (canonicalizeRound false value offset).1.toNat = (value.toNat / 10 ^ k + 9) / 10 ∧
      (canonicalizeRound false value offset).2 = offset + k + 1 ∧
      10 ^ 15 ≤ (value.toNat / 10 ^ k + 9) / 10 ∧ (value.toNat / 10 ^ k + 9) / 10 < 10 ^ 16 := by
  obtain ⟨hshort, hoffset⟩ := shorten_eq value offset
  have hbound := value.isLt
  have hrange : 9999999999999999 ≤ value.toNat / 10 ^ k ∧ value.toNat / 10 ^ k ≤ 99999999999999990 := by
    rw [hk, surplus]
    split_ifs <;> omega
  unfold canonicalizeRound
  rw [if_neg (by simp), if_pos (cMaxValue_lt_iff.mpr (by omega))]
  dsimp only
  rw [← hk] at hshort hoffset
  refine ⟨?_, by rw [hoffset], by omega, by omega⟩
  have hadd : ((shorten 3 value offset).1 + 9).toNat = value.toNat / 10 ^ k + 9 := by
    rw [BitVec.toNat_add, hshort, show (9 : BitVec 64).toNat = 9 from rfl]
    omega
  rw [toNat_div_ten, hadd]

/-! ## The amount that is made of a quotient -/

/-- When the amount that is made of a quotient, itself rounded up, is below the exact one. -/
def Undercharges (switchover : Switchover) (native : Bool) (amount : ℕ) (offset : ℤ) : Prop :=
  if native then
    if 0 ≤ offset then
      -- the drops are counted modulo 2 ^ 64
      2 ^ 64 ≤ amount * 10 ^ offset.toNat ∧ amount * 10 ^ offset.toNat % 2 ^ 64 ≤ 10 ^ 17
    else
      offset = -1 ∧ 2 ^ 64 ≤ amount + 10 ∨
        offset ≤ -3 ∧ Lost amount (-1 - offset).toNat ∧
          (10 ^ (-1 - offset).toNat ≤ amount ∨ ¬ (switchover.first ∧ switchover.second))
  else if 10 ^ 16 ≤ amount then
    offset + surplus amount + 1 ≤ 80 ∧
      if offset + surplus amount + 1 < -96 then switchover.first = false else Lost amount (surplus amount)
  else 0 < amount ∧ (amount : ℚ) * 10 ^ offset < 10 ^ (-81 : ℤ) ∧ switchover.first = false

/-- What is asked of a rounded amount. -/
def Covers (x : ℚ) (result : Except String STAmount) : Prop := ∀ r, result = .ok r → x ≤ r.val

variable {x : ℚ}

theorem covers_ok {r : STAmount} : Covers x (.ok r) ↔ x ≤ r.val := by
  constructor
  · intro h
    exact h r rfl
  · intro h r' hr'
    obtain rfl := Except.ok.inj hr'
    exact h

theorem covers_error {e : String} : Covers x (.error e) := by
  intro r hr
  cases hr

section Final

variable {switchover : Switchover} {issue : Issue} {amount : BitVec 64} {offset : ℤ}

variable {value : BitVec 64} {off : ℤ}

theorem roundedAmount_up {native : Bool} (hsfc : isSFC issue.currency = native)
    (hround : canonicalizeRound native amount offset = (value, off)) :
    roundedAmount switchover issue amount offset false true =
      canonicalize ⟨issue, value, off, false, false⟩ >>= fun result =>
        if result.mValue = 0 ∧ switchover.first then
          if native ∧ switchover.second then canonicalize ⟨issue, 1, 0, false, false⟩
          else canonicalize ⟨issue, cMinValue, cMinOffset, false, false⟩
        else .ok result := by
  unfold roundedAmount
  simp [hsfc, hround]
  rfl

theorem roundedAmount_up_native (hsfc : isSFC issue.currency = true) (hoff : 0 ≤ off)
    (hround : canonicalizeRound true amount offset = (value, off)) {w : ℕ} (hw : w = value.toNat * 10 ^ off.toNat % 2 ^ 64) (x : ℚ) :
    Covers x (roundedAmount switchover issue amount offset false true) ↔
      (w ≤ 10 ^ 17 → x ≤ if w = 0 ∧ switchover.first ∧ switchover.second then 1 else (w : ℚ)) := by
  have hwlt : w < 2 ^ 64 := hw ▸ Nat.mod_lt _ (by norm_num)
  have hw' : w = value.toNat / 10 ^ (-off).toNat * 10 ^ off.toNat % 2 ^ 64 := by
    rw [show (-off).toNat = 0 by omega, pow_zero, Nat.div_one, hw]
  have hzero : BitVec.ofNat 64 w = 0 ↔ w = 0 := by
    rw [← toNat_eq_zero_iff, BitVec.toNat_ofNat, Nat.mod_eq_of_lt hwlt]
  rw [roundedAmount_up hsfc hround, canonicalize_drops hsfc hw']
  by_cases hbig : 10 ^ 17 < w
  · rw [if_pos hbig]
    exact iff_of_true covers_error (fun hle => absurd hle (by omega))
  · have hone : canonicalize ⟨issue, 1, 0, false, false⟩ = .ok ⟨issue, BitVec.ofNat 64 1, 0, true, false⟩ := by
      rw [canonicalize_drops hsfc (w := 1) (by decide)]
      rfl
    have hleast : canonicalize ⟨issue, cMinValue, cMinOffset, false, false⟩ = .ok ⟨issue, BitVec.ofNat 64 0, 0, true, false⟩ := by
      rw [canonicalize_drops hsfc (w := 0) (by decide +kernel)]
      rfl
    rw [if_neg hbig, ok_bind, imp_iff_right (not_lt.mp hbig), hone, hleast]
    dsimp only
    by_cases hfirst : w = 0 ∧ switchover.first = true
    · rw [if_pos ⟨hzero.mpr hfirst.1, hfirst.2⟩]
      by_cases hsecond : switchover.second = true
      · rw [if_pos ⟨rfl, hsecond⟩, if_pos ⟨hfirst.1, hfirst.2, hsecond⟩, covers_ok, val_drops (by norm_num), Nat.cast_one]
      · rw [if_neg (fun h => hsecond h.2), if_neg (fun h => hsecond h.2.2), covers_ok, val_drops (by norm_num), hfirst.1]
    · rw [if_neg (fun h => hfirst ⟨hzero.mp h.1, h.2⟩), if_neg (fun h => hfirst ⟨h.1, h.2.1⟩), covers_ok, val_drops hwlt]

theorem roundedAmount_up_issued (hsfc : isSFC issue.currency = false)
    (hround : canonicalizeRound false amount offset = (value, off)) (x : ℚ) :
    Covers x (roundedAmount switchover issue amount offset false true) ↔
      ∀ p, format.normalize value.toNat off = some p →
        x ≤ if p.1 = 0 ∧ switchover.first then 10 ^ (-81 : ℤ) else (p.1 : ℚ) * 10 ^ p.2 := by
  have hcur : issue.currency ≠ 0 := by simpa [isSFC] using hsfc
  rw [roundedAmount_up hsfc hround, canonicalize_issued hcur]
  cases hn : format.normalize value.toNat off with
  | none => exact iff_of_true covers_error (fun p hp => by simp at hp)
  | some p =>
    have hlt := normalize_lt hn
    have hzero : BitVec.ofNat 64 p.1 = 0 ↔ p.1 = 0 := by
      rw [← toNat_eq_zero_iff, BitVec.toNat_ofNat, Nat.mod_eq_of_lt hlt]
    have hleast : canonicalize ⟨issue, cMinValue, cMinOffset, false, false⟩ = .ok (ofNormal issue false (10 ^ 15, -96)) := by
      rw [canonicalize_issued hcur]
      rfl
    simp only [Option.elim_some, ok_bind, Option.some.injEq, forall_eq', Bool.false_eq_true, false_and, if_false, hleast]
    by_cases hfirst : p.1 = 0 ∧ switchover.first = true
    · rw [if_pos ⟨hzero.mpr hfirst.1, hfirst.2⟩, if_pos hfirst, covers_ok, val_ofNormal (by norm_num)]
      norm_num
    · rw [if_neg (fun h => hfirst ⟨hzero.mp h.1, h.2⟩), if_neg hfirst, covers_ok, val_ofNormal hlt]

end Final

/-! ## When the exact value is covered -/

section Covers

variable {switchover : Switchover} {issue : Issue} {amount : BitVec 64} {offset : ℤ} {x : ℚ} {A : ℕ}

theorem Quotient.above {N D : ℕ} (h : Quotient x N D offset) (hA : A = (N + (D - 1)) / D) : 2 ≤ A ∧ Above A offset x := by
  have hpos := h.pos
  have hD : (0 : ℚ) < D := by exact_mod_cast hpos
  have hunit := ten_zpow_pos offset
  have hmod := Nat.div_add_mod (N + (D - 1)) D
  have hlt := Nat.mod_lt (N + (D - 1)) hpos
  rw [← hA] at hmod
  have hle : N ≤ D * A := by omega
  have hgt : D * A < N + D := by omega
  refine ⟨?_, ?_, ?_⟩
  · rw [hA, Nat.le_div_iff_mul_le hpos]
    have := h.two
    omega
  · rw [h.eq]
    refine mul_lt_mul_of_pos_right ?_ hunit
    rw [lt_div_iff₀ hD]
    have : (D : ℚ) * A < N + D := by exact_mod_cast hgt
    linarith
  · rw [h.eq]
    refine mul_le_mul_of_nonneg_right ?_ hunit.le
    rw [div_le_iff₀ hD, mul_comm]
    exact_mod_cast hle

theorem covers_native_iff_of_nonneg (hsfc : isSFC issue.currency = true) (hamount : amount.toNat = A) (hA : 2 ≤ A)
    (hx : Above A offset x) (hoff : 0 ≤ offset) :
    Covers x (roundedAmount switchover issue amount offset false true) ↔ ¬ Undercharges switchover true A offset := by
  have hround : canonicalizeRound true amount offset = (amount, offset) := by
    unfold canonicalizeRound
    rw [if_pos rfl, if_neg (not_lt.mpr hoff)]
  rw [roundedAmount_up_native hsfc hoff hround rfl, hamount, Undercharges, if_pos rfl, if_pos hoff]
  obtain ⟨n, rfl⟩ : ∃ n : ℕ, offset = n := ⟨offset.toNat, by omega⟩
  rw [Int.toNat_natCast]
  obtain ⟨hgt, hle⟩ := hx
  rw [zpow_natCast] at hgt hle
  by_cases hover : 2 ^ 64 ≤ A * 10 ^ n
  · -- the exact value is above all drops there are
    have hover' : (2 : ℚ) ^ 64 ≤ A * 10 ^ n := by exact_mod_cast hover
    have hA' : (2 : ℚ) ≤ A := by exact_mod_cast hA
    have hpow : (0 : ℚ) < 10 ^ n := by positivity
    have hxbig : (10 : ℚ) ^ 17 < x := by nlinarith
    generalize A * 10 ^ n % 2 ^ 64 = w
    have hfail : w ≤ 10 ^ 17 → ¬ x ≤ if w = 0 ∧ switchover.first ∧ switchover.second then 1 else (w : ℚ) := by
      intro hw hxw
      have hw' : (w : ℚ) ≤ 10 ^ 17 := by exact_mod_cast hw
      split_ifs at hxw <;> linarith
    constructor
    · intro hall h
      exact hfail h.2 (hall h.2)
    · intro hnot hw
      exact absurd ⟨hover, hw⟩ hnot
  · rw [Nat.mod_eq_of_lt (not_le.mp hover)]
    have hne : A * 10 ^ n ≠ 0 := by positivity
    rw [if_neg (fun h => hne h.1)]
    push_cast
    exact iff_of_true (fun _ => hle) (fun h => hover h.1)

theorem covers_native_iff_of_neg (hsfc : isSFC issue.currency = true) (hamount : amount.toNat = A) (hA : 2 ≤ A)
    (hx : Above A offset x) (hoff : offset < 0) :
    Covers x (roundedAmount switchover issue amount offset false true) ↔ ¬ Undercharges switchover true A offset := by
  obtain ⟨j, rfl⟩ : ∃ j : ℕ, offset = -1 - j := ⟨(-1 - offset).toNat, by omega⟩
  have hj : (-1 - (-1 - (j : ℤ))).toNat = j := by omega
  have hlt := amount.isLt
  have hpow : 0 < 10 ^ j := Nat.pow_pos (by norm_num)
  obtain ⟨q, hq⟩ : ∃ q : ℕ, q = A / 10 ^ j := ⟨_, rfl⟩
  have hquot : q ≤ A := hq ▸ Nat.div_le_self _ _
  have hle : ∀ w : ℕ, x ≤ w ↔ A ≤ w * 10 ^ (j + 1) := by
    intro w
    have hiff := hx.le_iff w (j + 1)
    rwa [show -1 - (j : ℤ) + ((j + 1 : ℕ) : ℤ) = 0 by push_cast; ring, zpow_zero, mul_one] at hiff
  obtain ⟨c, hc⟩ : ∃ c : ℕ, c = if 2 ≤ j then 9 else 10 := ⟨_, rfl⟩
  obtain ⟨w, hw⟩ : ∃ w : ℕ, w = (q + c) % 2 ^ 64 / 10 := ⟨_, rfl⟩
  have hround : canonicalizeRound true amount (-1 - j) = (BitVec.ofNat 64 w, 0) := by
    unfold canonicalizeRound
    rw [if_pos rfl, if_pos hoff]
    dsimp only
    rw [hj]
    refine Prod.ext (BitVec.eq_of_toNat_eq ?_) rfl
    have hcword : (if 2 ≤ j then 9 else 10 : BitVec 64).toNat = c := by
      rw [hc]
      split_ifs <;> rfl
    rw [toNat_div_ten, BitVec.toNat_add, toNat_shrink, hamount, hcword, BitVec.toNat_ofNat, ← hq, ← hw]
    omega
  have hwlt : w < 2 ^ 64 := by omega
  have hwdrops : w = (BitVec.ofNat 64 w).toNat * 10 ^ (0 : ℤ).toNat % 2 ^ 64 := by
    simp [BitVec.toNat_ofNat]
    omega
  have hneg : ¬ 0 ≤ -1 - (j : ℤ) := by omega
  rw [roundedAmount_up_native hsfc le_rfl hround hwdrops, Undercharges, if_pos rfl, if_neg hneg, hj]
  by_cases hj2 : 2 ≤ j
  · -- nine is added, to what is left of the digits
    rw [if_pos hj2] at hc
    have hhundred : q ≤ A / 10 ^ 2 := hq ▸ Nat.div_le_div_left (Nat.pow_le_pow_right (by norm_num) hj2) (by norm_num)
    have hw' : w = (q + 9) / 10 := by omega
    have hlost := lost_iff A j
    rw [← hq, ← hw'] at hlost
    have hzero : w = 0 ↔ A < 10 ^ j := by
      rw [← Nat.div_eq_zero_iff_lt hpow, ← hq]
      omega
    rw [imp_iff_right (by omega)]
    by_cases hleast : w = 0 ∧ switchover.first ∧ switchover.second
    · rw [if_pos hleast, ← Nat.cast_one, hle]
      have hsmall := hzero.mp hleast.1
      have hten : 10 ^ (j + 1) = 10 * 10 ^ j := pow_succ' 10 j
      refine iff_of_true (by omega) ?_
      rintro (h | ⟨-, -, h | h⟩)
      · omega
      · omega
      · exact h hleast.2
    · rw [if_neg hleast, hle, ← not_lt, hlost, not_iff_not]
      constructor
      · intro h
        refine .inr ⟨by omega, h, ?_⟩
        by_contra hboth
        rw [not_or, not_not, not_le] at hboth
        exact hleast ⟨hzero.mpr hboth.1, hboth.2⟩
      · rintro (h | h)
        · omega
        · exact h.2.1
  · -- ten is added, which is too much rather than too little
    rw [if_neg hj2] at hc
    have hj' : j = 0 ∨ j = 1 := by omega
    rcases hj' with rfl | rfl
    · rw [pow_zero, Nat.div_one] at hq
      by_cases hwrap : 2 ^ 64 ≤ A + 10
      · have hw0 : w = 0 := by omega
        refine iff_of_false (fun h => ?_) (not_not.mpr (.inl ⟨by norm_num, hwrap⟩))
        have hx' := h (by omega)
        rw [hw0] at hx'
        split_ifs at hx'
        · rw [← Nat.cast_one, hle] at hx'
          omega
        · rw [hle] at hx'
          omega
      · have hw' : w = A / 10 + 1 := by omega
        rw [if_neg (by omega), hle]
        refine iff_of_true (by omega) ?_
        rintro (h | h)
        · exact hwrap h.2
        · omega
    · have hw' : w = A / 100 + 1 := by omega
      rw [if_neg (by omega), hle]
      refine iff_of_true (by omega) ?_
      rintro (h | h)
      · omega
      · omega

theorem pos_of_above (hx : Above A offset x) (hA : 2 ≤ A) : 0 < x := by
  have hA' : (2 : ℚ) ≤ A := by exact_mod_cast hA
  have := ten_zpow_pos offset
  have := hx.1
  nlinarith

/-- What is too small becomes zero, and then the smallest amount if the switchover is on. -/
theorem zero_covers_iff {e : ℤ} (hx : 0 < x) (hle : x ≤ 10 ^ (-81 : ℤ)) :
    (∀ p : ℕ × ℤ, some (0, e) = some p → x ≤ if p.1 = 0 ∧ switchover.first then 10 ^ (-81 : ℤ) else (p.1 : ℚ) * 10 ^ p.2) ↔
      ¬ switchover.first = false := by
  cases switchover.first with
  | false => simpa using hx
  | true => simpa using hle

theorem covers_issued_iff_of_large (hsfc : isSFC issue.currency = false) (hamount : amount.toNat = A) (hA : 10 ^ 16 ≤ A)
    (hx : Above A offset x) :
    Covers x (roundedAmount switchover issue amount offset false true) ↔ ¬ Undercharges switchover false A offset := by
  obtain ⟨k, hk⟩ : ∃ k, k = surplus A := ⟨_, rfl⟩
  have hk' : k = surplus amount.toNat := by rw [hamount, hk]
  obtain ⟨hvalue, hoffset, hlo, hhi⟩ := canonicalizeRound_issued (by rwa [hamount]) offset hk'
  rw [hamount] at hvalue hlo hhi
  obtain ⟨R, hR⟩ : ∃ R, R = (A / 10 ^ k + 9) / 10 := ⟨_, rfl⟩
  rw [← hR] at hvalue hlo hhi
  have hlost := lost_iff A k
  rw [← hR] at hlost
  have hle : x ≤ R * 10 ^ (offset + k + 1) ↔ ¬ Lost A k := by
    rw [← hlost, not_lt, ← hx.le_iff R (k + 1)]
    push_cast
    rw [add_assoc]
  have hnormalize : format.normalize R (offset + k + 1) =
      if offset + k + 1 < -96 then some (0, -100) else if 80 < offset + k + 1 then none else some (R, offset + k + 1) :=
    Format.normalize_of_coefficient hlo (show R < 10 * 10 ^ 15 by omega) _
  have hunder : Undercharges switchover false A offset ↔ offset + k + 1 ≤ 80 ∧
      if offset + k + 1 < -96 then switchover.first = false else Lost A k := by
    rw [Undercharges, if_neg Bool.false_ne_true, if_pos hA, ← hk]
  have hround : canonicalizeRound false amount offset =
      ((canonicalizeRound false amount offset).1, (canonicalizeRound false amount offset).2) := rfl
  rw [roundedAmount_up_issued hsfc hround, hvalue, hoffset, hnormalize, hunder]
  have hxpos : 0 < x := pos_of_above hx (by omega)
  by_cases hsmall : offset + k + 1 < -96
  · rw [if_pos hsmall, if_pos hsmall]
    have hleast : x ≤ 10 ^ (-81 : ℤ) := by
      obtain ⟨t, ht⟩ : ∃ t : ℕ, offset + t = -81 := ⟨(-81 - offset).toNat, by omega⟩
      have hiff := hx.le_iff 1 t
      rw [ht, Nat.cast_one, one_mul, one_mul] at hiff
      refine hiff.mpr ?_
      have hdiv : A / 10 ^ k < 10 ^ 17 := by omega
      have hpow : 10 ^ (17 + k) ≤ 10 ^ t := Nat.pow_le_pow_right (by norm_num) (by omega)
      rw [Nat.div_lt_iff_lt_mul (Nat.pow_pos (by norm_num)), ← pow_add] at hdiv
      omega
    rw [zero_covers_iff hxpos hleast, and_iff_right (by omega)]
  · rw [if_neg hsmall, if_neg hsmall]
    by_cases hbig : 80 < offset + k + 1
    · rw [if_pos hbig]
      exact iff_of_true (fun p hp => by simp at hp) (fun h => absurd h.1 (by omega))
    · rw [if_neg hbig]
      have hne : R ≠ 0 := by omega
      simp only [Option.some.injEq, forall_eq', hne, false_and, if_false, hle]
      rw [not_iff_not]
      exact ⟨fun h => ⟨by omega, h⟩, fun h => h.2⟩

theorem covers_issued_iff_of_small (hsfc : isSFC issue.currency = false) (hamount : amount.toNat = A) (hA : 2 ≤ A)
    (hA' : A < 10 ^ 16) (hx : Above A offset x) :
    Covers x (roundedAmount switchover issue amount offset false true) ↔ ¬ Undercharges switchover false A offset := by
  have hround : canonicalizeRound false amount offset = (amount, offset) := by
    unfold canonicalizeRound
    rw [if_neg (by simp), if_neg (mt cMaxValue_lt_iff.mp (by omega))]
  have hxpos : 0 < x := pos_of_above hx hA
  rw [roundedAmount_up_issued hsfc hround, hamount, Undercharges, if_neg Bool.false_ne_true, if_neg (not_le.mpr hA')]
  obtain ⟨k, -, -, heq⟩ := Format.normalize_of_lt format (show 0 < A by omega) (show A < 10 * 10 ^ 15 by omega) offset
  by_cases hsmall : offset - k < format.emin ∨ A * 10 ^ k < format.lo
  · rw [if_pos hsmall] at heq
    have hlt : (A : ℚ) * 10 ^ offset < 10 ^ (-81 : ℤ) := by
      rcases Format.normalize_cases heq with ⟨-, -, hlt⟩ | ⟨hnormal, -⟩
      · exact hlt.trans_eq format.lo_mul_emin
      · exact absurd hnormal.le (by decide)
    rw [heq, zero_covers_iff hxpos (hx.2.trans hlt.le), and_iff_right (by omega), and_iff_right hlt]
  · rw [if_neg hsmall] at heq
    rw [not_or, not_lt, not_lt] at hsmall
    have hvalue := raised_value A k offset
    have hge : ¬ (A : ℚ) * 10 ^ offset < 10 ^ (-81 : ℤ) := by
      have hlo : (format.lo : ℚ) ≤ (A * 10 ^ k : ℕ) := by exact_mod_cast hsmall.2
      have hle := mul_le_mul hlo (ten_zpow_le hsmall.1) (ten_zpow_pos _).le (Nat.cast_nonneg _)
      rw [hvalue, Format.lo_mul_emin] at hle
      exact not_lt.mpr hle
    refine iff_of_true (fun p hp => ?_) (fun h => hge h.2.1)
    rw [heq] at hp
    split_ifs at hp
    obtain rfl := Option.some.inj hp
    have hne : A * 10 ^ k ≠ 0 := by positivity
    rw [if_neg (fun h => hne h.1), hvalue]
    exact hx.2

theorem covers_iff {N D : ℕ} (h : Quotient x N D offset) (hA : A = (N + (D - 1)) / D) (hamount : amount.toNat = A) :
    Covers x (roundedAmount switchover issue amount offset false true) ↔
      ¬ Undercharges switchover (isSFC issue.currency) A offset := by
  obtain ⟨htwo, habove⟩ := h.above hA
  cases hsfc : isSFC issue.currency with
  | false =>
    rcases le_or_gt (10 ^ 16) A with hlarge | hsmall
    · exact covers_issued_iff_of_large hsfc hamount hlarge habove
    · exact covers_issued_iff_of_small hsfc hamount htwo hsmall habove
  | true =>
    rcases le_or_gt 0 offset with hoff | hoff
    · exact covers_native_iff_of_nonneg hsfc hamount htwo habove hoff
    · exact covers_native_iff_of_neg hsfc hamount htwo habove hoff

end Covers

/-! ## Products and quotients -/

theorem bind_roundedAmount_covers_iff {switchover : Switchover} {issue : Issue} {N D A : ℕ} {offset : ℤ}
    {quotient : Except String (BitVec 64)} (h : Quotient x N D offset) (hA : A = (N + (D - 1)) / D)
    (hq : quotient.toOption = if A < 2 ^ 64 then some (BitVec.ofNat 64 A) else none) :
    Covers x (quotient >>= fun amount => roundedAmount switchover issue amount offset false true) ↔
      (A < 2 ^ 64 → ¬ Undercharges switchover (isSFC issue.currency) A offset) :=
  bind_quotient_iff hq fun _ => covers_iff h hA

theorem mulNative_eq {v1 v2 r : STAmount} (h1 : v1.Native) (h2 : v2.Native) (hs1 : v1.mIsNegative = false)
    (hs2 : v2.mIsNegative = false) (h : mulNative v1 v2 = .ok r) : r.val = v1.val * v2.val := by
  have hval : v1.val = v1.mValue.toNat ∧ v2.val = v2.mValue.toNat := by
    simp [val, hs1, hs2, h1.offset, h2.offset]
  -- whichever is the smaller one
  obtain ⟨minV, maxV, hprod, hmin, hmax, rfl⟩ : ∃ minV maxV : BitVec 64,
      minV.toNat * maxV.toNat = v1.mValue.toNat * v2.mValue.toNat ∧ ¬ 3000000000#64 < minV ∧
        ¬ 2095475792#64 < (maxV >>> 32) * minV ∧ r = ⟨⟨0, 0⟩, minV * maxV, 0, true, false⟩ := by
    have hn1 : getSNValue v1 = .ok v1.mValue.toInt := by simp [getSNValue, h1.native, hs1]
    have hn2 : getSNValue v2 = .ok v2.mValue.toInt := by simp [getSNValue, h2.native, hs2]
    rw [mulNative, hn1, hn2, ok_bind, ok_bind] at h
    dsimp only at h
    by_cases hlt : v1.mValue.toInt < v2.mValue.toInt
    · rw [if_pos hlt, if_pos hlt, BitVec.ofInt_toInt, BitVec.ofInt_toInt] at h
      split_ifs at h with hmin hmax
      exact ⟨_, _, rfl, hmin, hmax, (Except.ok.inj h).symm⟩
    · rw [if_neg hlt, if_neg hlt, BitVec.ofInt_toInt, BitVec.ofInt_toInt] at h
      split_ifs at h with hmin hmax
      exact ⟨_, _, Nat.mul_comm _ _, hmin, hmax, (Except.ok.inj h).symm⟩
  have hmin' : minV.toNat ≤ 3000000000 := by
    rw [BitVec.lt_def] at hmin
    exact not_lt.mp hmin
  have hhigh : (maxV >>> 32).toNat = maxV.toNat / 2 ^ 32 := by
    rw [BitVec.toNat_ushiftRight, Nat.shiftRight_eq_div_pow]
  have hmaxlt := maxV.isLt
  have hdiv : maxV.toNat / 2 ^ 32 < 2 ^ 32 := by omega
  have hmax' : maxV.toNat / 2 ^ 32 * minV.toNat ≤ 2095475792 := by
    rw [BitVec.lt_def, BitVec.toNat_mul, hhigh, Nat.mod_eq_of_lt (by nlinarith)] at hmax
    exact not_lt.mp hmax
  have hbound : minV.toNat * maxV.toNat < 2 ^ 64 := by
    have hsplit := Nat.div_add_mod maxV.toNat (2 ^ 32)
    have hlow := Nat.mod_lt maxV.toNat (y := 2 ^ 32) (by norm_num)
    generalize maxV.toNat / 2 ^ 32 = high at *
    generalize maxV.toNat % 2 ^ 32 = low at *
    rw [← hsplit]
    rcases Nat.eq_zero_or_pos high with rfl | hpos
    · nlinarith
    · have hsmall : minV.toNat ≤ 2095475792 := by nlinarith
      nlinarith
  have hprod' : (minV * maxV).toNat = v1.mValue.toNat * v2.mValue.toNat := by
    rw [BitVec.toNat_mul, Nat.mod_eq_of_lt hbound, hprod]
  rw [hval.1, hval.2]
  simp [val, hprod']

theorem NonNegative.native {v : STAmount} (hv : v.NonNegative) (h : v.mIsNative = true) : v.Native := by
  rcases hv.kind with hissued | hnative
  · simp [hissued.native] at h
  · exact hnative

theorem covers_zero {issue : Issue} : Covers 0 (canonicalize ⟨issue, 0, 0, false, false⟩) := by
  intro r hr
  rw [val_of_canonicalize_zero hr]

theorem not_undercharges_zero {switchover : Switchover} {native : Bool} {offset : ℤ} : ¬ Undercharges switchover native 0 offset := by
  unfold Undercharges Lost
  rw [if_neg (by norm_num : ¬ 10 ^ 16 ≤ 0)]
  intro h
  split_ifs at h <;> simp at h

/-- When the rounded product, and the rounded quotient, are large enough. -/
def MulCovers (switchover : Switchover) (v1 v2 : STAmount) (issue : Issue) : Prop :=
  let amount := (v1.inRange.1.toNat * v2.inRange.1.toNat + (10 ^ 14 - 1)) / 10 ^ 14
  v1.mIsNative ∧ v2.mIsNative ∧ isSFC issue.currency ∨
    (amount < 2 ^ 64 → ¬ Undercharges switchover (isSFC issue.currency) amount (v1.inRange.2 + v2.inRange.2 + 14))

def DivCovers (switchover : Switchover) (num den : STAmount) (issue : Issue) : Prop :=
  let amount := (num.inRange.1.toNat * 10 ^ 17 + (den.inRange.1.toNat - 1)) / den.inRange.1.toNat
  amount < 2 ^ 64 → ¬ Undercharges switchover (isSFC issue.currency) amount (num.inRange.2 - den.inRange.2 - 17)

theorem mulRound_up_iff (switchover : Switchover) {v1 v2 : STAmount} (h1 : v1.NonNegative) (h2 : v2.NonNegative) (issue : Issue) :
    Covers (v1.val * v2.val) (mulRound switchover v1 v2 issue true) ↔ MulCovers switchover v1 v2 issue := by
  unfold mulRound MulCovers
  dsimp only
  by_cases hzero : v1.mValue = 0 ∨ v2.mValue = 0
  · obtain ⟨hrange, hval⟩ := zero_factor h1 h2 hzero
    rw [if_pos hzero, hrange, hval]
    exact iff_of_true covers_zero (.inr fun _ => not_undercharges_zero)
  rw [if_neg hzero]
  rw [not_or] at hzero
  by_cases hnative : v1.mIsNative ∧ v2.mIsNative ∧ isSFC issue.currency
  · rw [if_pos hnative]
    refine iff_of_true (fun r hr => ?_) (.inl hnative)
    rw [mulNative_eq (h1.native hnative.1) (h2.native hnative.2.1) h1.sign h2.sign hr]
  · rw [if_neg hnative, or_iff_right hnative]
    simp only [h1.sign, h2.sign, ne_eq, not_true_eq_false, decide_false, Bool.false_eq_true, not_false_eq_true, if_true]
    exact bind_roundedAmount_covers_iff (quotient_mul h1 h2 hzero.1 hzero.2) rfl (muldiv_round_eq _ _ _ _ (by rw [toNat_tenTo14]; rfl))

theorem divRound_up_iff (switchover : Switchover) {num den : STAmount} (h1 : num.NonNegative) (h2 : den.NonNegative)
    (hden : den.mValue ≠ 0) (issue : Issue) :
    Covers (num.val / den.val) (divRound switchover num den issue true) ↔ DivCovers switchover num den issue := by
  unfold divRound DivCovers
  dsimp only
  rw [if_neg hden]
  have hpos : 10 ^ 15 ≤ den.inRange.1.toNat := (h2.inRange hden).1
  by_cases hzero : num.mValue = 0
  · rw [if_pos hzero, inRange_zero hzero, Nat.zero_mul, Nat.zero_add, Nat.div_eq_of_lt (by omega), h1.val_eq, hzero]
    simp only [show (0 : BitVec 64).toNat = 0 from rfl, Nat.cast_zero, zero_mul, zero_div]
    exact iff_of_true covers_zero (fun _ => not_undercharges_zero)
  · have hpred : (den.inRange.1 - 1).toNat = den.inRange.1.toNat - 1 := by
      have hlt := den.inRange.1.isLt
      rw [BitVec.toNat_sub, show (1 : BitVec 64).toNat = 1 from rfl]
      omega
    rw [if_neg hzero]
    simp only [h1.sign, h2.sign, ne_eq, not_true_eq_false, decide_false, Bool.false_eq_true, not_false_eq_true, if_true]
    exact bind_roundedAmount_covers_iff (quotient_div h1 h2 hzero hden) rfl
      (muldiv_round_eq _ _ _ _ (by rw [toNat_tenTo17, hpred]))

/-- **Rounding up never undercharges**, unless digits are lost or drops are counted modulo `2 ^ 64`. -/
theorem round_up_iff (switchover : Switchover) {v1 v2 : STAmount} (h1 : v1.NonNegative) (h2 : v2.NonNegative) (issue : Issue) :
    (Covers (v1.val * v2.val) (mulRound switchover v1 v2 issue true) ↔ MulCovers switchover v1 v2 issue) ∧
      (v2.mValue ≠ 0 →
        (Covers (v1.val / v2.val) (divRound switchover v1 v2 issue true) ↔ DivCovers switchover v1 v2 issue)) :=
  ⟨mulRound_up_iff switchover h1 h2 issue, fun hden => divRound_up_iff switchover h1 h2 hden issue⟩

/-- One third, rounded up. -/
theorem round_up_iff_third :
    let one : STAmount := ⟨⟨1, 1⟩, 1000000000000000#64, -15, false, false⟩
    let three : STAmount := ⟨⟨1, 1⟩, 3000000000000000#64, -15, false, false⟩
    let r : STAmount := ⟨⟨1, 1⟩, 3333333333333334#64, -16, false, false⟩
    one.NonNegative ∧ three.NonNegative ∧ DivCovers ⟨true, true⟩ one three ⟨1, 1⟩ ∧
      divRound ⟨true, true⟩ one three ⟨1, 1⟩ true = .ok r ∧ one.val / three.val ≤ r.val := by
  intro one three r
  have hone : one.NonNegative := by decide
  have hthree : three.NonNegative := by decide
  have hcovers : DivCovers ⟨true, true⟩ one three ⟨1, 1⟩ := by
    have hamount : (one.inRange.1.toNat * 10 ^ 17 + (three.inRange.1.toNat - 1)) / three.inRange.1.toNat = 33333333333333334 := by
      decide +kernel
    have hoffset : one.inRange.2 - three.inRange.2 - 17 = -17 := by decide
    unfold DivCovers
    rw [hamount, hoffset, show isSFC (1 : BitVec 160) = false by decide]
    intro _
    unfold Undercharges Lost
    rw [if_neg Bool.false_ne_true, if_pos (by norm_num), show surplus 33333333333333334 = 0 by decide]
    norm_num
  have hr : divRound ⟨true, true⟩ one three ⟨1, 1⟩ true = .ok r := by decide +kernel
  exact ⟨hone, hthree, hcovers, hr, (((round_up_iff ⟨true, true⟩ hone hthree ⟨1, 1⟩).2 (by decide)).mpr hcovers) r hr⟩

/-- Nine thirteenths are rounded down, and a million times `1.000000000000001` is a million drops. -/
theorem round_up_short :
    let nine : STAmount := ⟨⟨1, 1⟩, 9000000000000000#64, -15, false, false⟩
    let thirteen : STAmount := ⟨⟨1, 1⟩, 1300000000000000#64, -14, false, false⟩
    let million : STAmount := ⟨⟨1, 1⟩, 1000000000000000#64, -9, false, false⟩
    let rate : STAmount := ⟨⟨1, 1⟩, 1000000000000001#64, -15, false, false⟩
    nine.NonNegative ∧ thirteen.NonNegative ∧ million.NonNegative ∧ rate.NonNegative ∧
      (∃ r, divRound ⟨true, true⟩ nine thirteen ⟨1, 1⟩ true = .ok r ∧ r.val < nine.val / thirteen.val) ∧
      ∃ r, mulRound ⟨true, true⟩ million rate ⟨0, 0⟩ true = .ok r ∧ r.val < million.val * rate.val := by
  intro nine thirteen million rate
  refine ⟨by decide, by decide, by decide, by decide,
    ⟨⟨⟨1, 1⟩, 6923076923076923#64, -16, false, false⟩, by decide +kernel, by norm_num [val, nine, thirteen]⟩,
    ⟨⟨⟨0, 0⟩, 1000000#64, 0, true, false⟩, by decide +kernel, by norm_num [val, million, rate]⟩⟩

end ScfChain.Protocol.STAmount
