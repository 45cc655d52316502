import Mathlib

/-!
# Decimal floating point

Numbers `m * 10 ^ e` whose coefficient `m` is between `lo` and `10 * lo`. They are normalised by two loops, one that raises
the coefficient and one that lowers it and drops digits; what is too small becomes zero.

* `Format`, `Format.Rep` : a range of coefficients and exponents, and the numbers it has.
* `raise`, `lower`, `Format.normalize` : the loops, and what is made of their result.
* `Format.normalize_cases` : the result is the argument rounded down to the format.
* `Format.isFloor_normalize` : it is the greatest number of the format that is not above the argument.
-/

namespace ScfChain.Data

/-! ## Powers of ten -/

theorem ten_zpow_pos (e : ℤ) : (0 : ℚ) < 10 ^ e := zpow_pos (by norm_num) e

theorem ten_zpow_add (e : ℤ) (k : ℕ) : (10 : ℚ) ^ (e + k) = 10 ^ k * 10 ^ e := by
  rw [zpow_add₀ (by norm_num), zpow_natCast, mul_comm]

theorem ten_zpow_sub (e : ℤ) (k : ℕ) : (10 : ℚ) ^ k * 10 ^ (e - k) = 10 ^ e := by
  rw [← ten_zpow_add, sub_add_cancel]

/-- Digits that are added do not change a number. -/
theorem raised_value (m k : ℕ) (e : ℤ) : ((m * 10 ^ k : ℕ) : ℚ) * 10 ^ (e - k) = m * 10 ^ e := by
  push_cast
  rw [mul_assoc, ten_zpow_sub]

variable {e : ℤ} {m : ℕ} {x : ℚ}

theorem ten_zpow_le {e' : ℤ} (h : e ≤ e') : (10 : ℚ) ^ e ≤ 10 ^ e' := zpow_le_zpow_right₀ (by norm_num) h

/-- `x` is at least `m` and less than `m + 1` in units of `10 ^ e`. -/
def Between (m : ℕ) (e : ℤ) (x : ℚ) : Prop := (m : ℚ) * 10 ^ e ≤ x ∧ x < ((m : ℚ) + 1) * 10 ^ e

theorem between_self (m : ℕ) (e : ℤ) : Between m e (m * 10 ^ e) :=
  ⟨le_rfl, mul_lt_mul_of_pos_right (lt_add_one _) (ten_zpow_pos e)⟩

theorem Between.div (h : Between m e x) (k : ℕ) : Between (m / 10 ^ k) (e + k) x := by
  have hpow : 0 < 10 ^ k := Nat.pow_pos (by norm_num)
  have hle : ((m / 10 ^ k * 10 ^ k : ℕ) : ℚ) ≤ m := by exact_mod_cast Nat.div_mul_le_self m (10 ^ k)
  have hlt : (m : ℚ) + 1 ≤ ((m / 10 ^ k + 1) * 10 ^ k : ℕ) := by
    have hsucc := Nat.lt_mul_div_succ m hpow
    rw [Nat.mul_comm] at hsucc
    exact_mod_cast hsucc
  rw [Between, ten_zpow_add, ← mul_assoc, ← mul_assoc]
  push_cast at hle hlt
  exact ⟨(mul_le_mul_of_nonneg_right hle (ten_zpow_pos e).le).trans h.1,
    h.2.trans_le (mul_le_mul_of_nonneg_right hlt (ten_zpow_pos e).le)⟩

theorem Between.unique {m' : ℕ} (h : Between m e x) (h' : Between m' e x) : m = m' := by
  have hle : ∀ {j j' : ℕ}, Between j e x → Between j' e x → j ≤ j' := by
    intro j j' hj hj'
    have hlt := lt_of_mul_lt_mul_right (hj.1.trans_lt hj'.2) (ten_zpow_pos e).le
    exact Nat.lt_succ_iff.mp (by exact_mod_cast hlt)
  exact le_antisymm (hle h h') (hle h' h)

theorem Between.le_of_units {j k : ℕ} (h : Between m e x) (hj : (j : ℚ) * 10 ^ (e + k) ≤ x) :
    (j : ℚ) * 10 ^ (e + k) ≤ m * 10 ^ e := by
  have hlt : (j : ℚ) * 10 ^ k * 10 ^ e < ((m : ℚ) + 1) * 10 ^ e := by
    rw [mul_assoc, ← ten_zpow_add]
    exact hj.trans_lt h.2
  have hlt' : ((j * 10 ^ k : ℕ) : ℚ) < (m + 1 : ℕ) := by
    push_cast
    exact lt_of_mul_lt_mul_right hlt (ten_zpow_pos e).le
  have hle : ((j * 10 ^ k : ℕ) : ℚ) ≤ m := by exact_mod_cast Nat.lt_succ_iff.mp (by exact_mod_cast hlt')
  rw [ten_zpow_add, ← mul_assoc]
  push_cast at hle
  exact mul_le_mul_of_nonneg_right hle (ten_zpow_pos e).le

/-- `x` is above `m - 1` and at most `m` in units of `10 ^ e`. -/
def Above (m : ℕ) (e : ℤ) (x : ℚ) : Prop := ((m : ℚ) - 1) * 10 ^ e < x ∧ x ≤ m * 10 ^ e

theorem Above.le_iff (h : Above m e x) (j k : ℕ) : x ≤ j * 10 ^ (e + k) ↔ m ≤ j * 10 ^ k := by
  rw [ten_zpow_add, ← mul_assoc]
  constructor
  · intro hle
    have hlt := lt_of_mul_lt_mul_right (h.1.trans_le hle) (ten_zpow_pos e).le
    have hlt' : (m : ℚ) < (j * 10 ^ k + 1 : ℕ) := by
      push_cast
      linarith
    exact Nat.lt_succ_iff.mp (by exact_mod_cast hlt')
  · intro hle
    have hle' : (m : ℚ) ≤ j * 10 ^ k := by exact_mod_cast hle
    exact h.2.trans (mul_le_mul_of_nonneg_right hle' (ten_zpow_pos e).le)

/-! ## The loops -/

/-- The coefficient is multiplied by ten as long as it is below `lo`, `n` times at most. -/
def raise (lo : ℕ) : ℕ → ℕ → ℤ → ℕ × ℤ
  | 0, m, e => (m, e)
  | n + 1, m, e => if m < lo then raise lo n (m * 10) (e - 1) else (m, e)

/-- The coefficient is divided by ten as long as it is above `hi`; it is an error if `n` times are not enough. -/
def lower (hi : ℕ) : ℕ → ℕ → ℤ → Option (ℕ × ℤ)
  | 0, m, e => if hi < m then none else some (m, e)
  | n + 1, m, e => if hi < m then lower hi n (m / 10) (e + 1) else some (m, e)

theorem raise_spec (lo n m : ℕ) (e : ℤ) :
    ∃ k ≤ n, raise lo n m e = (m * 10 ^ k, e - k) ∧ (lo ≤ m * 10 ^ k ∨ k = n) ∧ (k = 0 ∨ m * 10 ^ k < 10 * lo) := by
  induction n generalizing m e with
  | zero => exact ⟨0, le_rfl, by simp [raise], .inr rfl, .inl rfl⟩
  | succ n ih =>
    by_cases hm : m < lo
    · obtain ⟨k, hk, heq, hlo, hhi⟩ := ih (m * 10) (e - 1)
      have hpow : m * 10 * 10 ^ k = m * 10 ^ (k + 1) := by ring
      refine ⟨k + 1, Nat.succ_le_succ hk, ?_, ?_, .inr ?_⟩
      · rw [raise, if_pos hm, heq, hpow]
        push_cast
        rw [sub_sub, add_comm 1]
      · rw [← hpow]
        exact hlo.imp_right fun h => by omega
      · rw [← hpow]
        rcases hhi with rfl | hhi
        · omega
        · exact hhi
    · exact ⟨0, Nat.zero_le _, by simp [raise, hm], .inl (by omega), .inl rfl⟩

theorem lower_spec {hi n m' : ℕ} {e' : ℤ} (h : lower hi n m e = some (m', e')) :
    ∃ k ≤ n, m' = m / 10 ^ k ∧ e' = e + k ∧ m' ≤ hi ∧ (k = 0 ∨ (hi + 1) / 10 ≤ m') := by
  induction n generalizing m e with
  | zero =>
    unfold lower at h
    split_ifs at h with hm
    obtain ⟨rfl, rfl⟩ := Prod.mk.inj (Option.some.inj h)
    exact ⟨0, le_rfl, by simp, by simp, by omega, .inl rfl⟩
  | succ n ih =>
    unfold lower at h
    split_ifs at h with hm
    · obtain ⟨k, hk, rfl, rfl, hhi, hlo⟩ := ih h
      refine ⟨k + 1, Nat.succ_le_succ hk, ?_, ?_, hhi, .inr ?_⟩
      · rw [Nat.div_div_eq_div_mul, pow_succ, Nat.mul_comm]
      · push_cast
        ring
      · rcases hlo with rfl | hlo
        · rw [pow_zero, Nat.div_one]
          omega
        · exact hlo
    · obtain ⟨rfl, rfl⟩ := Prod.mk.inj (Option.some.inj h)
      exact ⟨0, Nat.zero_le _, by simp, by simp, by omega, .inl rfl⟩

theorem succ_mul_zpow_le {f : ℤ} (hm : 0 < m) (h : (m : ℚ) * 10 ^ e < 10 ^ f) : ((m : ℚ) + 1) * 10 ^ e ≤ 10 ^ f := by
  have hone : (1 : ℚ) ≤ m := by exact_mod_cast hm
  have hef : e < f := by
    by_contra hle
    have hpow := ten_zpow_le (not_lt.mp hle)
    nlinarith [ten_zpow_pos e]
  obtain ⟨k, rfl⟩ : ∃ k : ℕ, f = e + k := ⟨(f - e).toNat, by omega⟩
  rw [ten_zpow_add] at h ⊢
  have hlt : (m : ℚ) < (10 ^ k : ℕ) := by
    push_cast
    exact lt_of_mul_lt_mul_right h (ten_zpow_pos e).le
  have hle : (m : ℚ) + 1 ≤ (10 ^ k : ℕ) := by exact_mod_cast Nat.succ_le_of_lt (by exact_mod_cast hlt)
  push_cast at hle
  exact mul_le_mul_of_nonneg_right hle (ten_zpow_pos e).le

theorem lower_eq_none {hi n : ℕ} (h : lower hi n m e = none) : (hi + 1) * 10 ^ n ≤ m := by
  induction n generalizing m e with
  | zero =>
    unfold lower at h
    split_ifs at h
    omega
  | succ n ih =>
    unfold lower at h
    split_ifs at h
    have hle := ih h
    rw [Nat.le_div_iff_mul_le (by norm_num)] at hle
    rw [pow_succ]
    linarith

/-! ## Formats -/

/-- Coefficients of `digits + 1` digits, exponents from `emin` to `emax`, and zero with an exponent of its own. -/
structure Format where
  digits : ℕ
  emin : ℤ
  emax : ℤ
  ezero : ℤ

namespace Format

/-- The least coefficient. -/
def lo (F : Format) : ℕ := 10 ^ F.digits

variable {F : Format} {m m' : ℕ} {e e' : ℤ} {x y : ℚ}

theorem lo_pos (F : Format) : 0 < F.lo := Nat.pow_pos (by norm_num)

theorem lo_mul_emin (F : Format) : (F.lo : ℚ) * 10 ^ F.emin = 10 ^ (F.emin + F.digits) := by
  rw [ten_zpow_add, lo]
  push_cast
  rfl

/-- A coefficient and an exponent of the format. -/
@[mk_iff] structure Normal (F : Format) (m : ℕ) (e : ℤ) : Prop where
  le : F.lo ≤ m
  lt : m < 10 * F.lo
  min : F.emin ≤ e
  max : e ≤ F.emax

instance (F : Format) (m : ℕ) (e : ℤ) : Decidable (F.Normal m e) := decidable_of_iff' _ (normal_iff ..)

/-- The non-negative numbers of the format. -/
def Rep (F : Format) (x : ℚ) : Prop := x = 0 ∨ ∃ m e, F.Normal m e ∧ x = (m : ℚ) * 10 ^ e

/-- The two loops, and zero for what is too small. There is no result for what is too large. -/
def normalize (F : Format) (m : ℕ) (e : ℤ) : Option (ℕ × ℤ) :=
  if m = 0 then some (0, F.ezero)
  else
    let raised := raise F.lo (e - F.emin).toNat m e
    match lower (10 * F.lo - 1) (F.emax - raised.2).toNat raised.1 raised.2 with
    | none => none
    | some (m, e) =>
      if e < F.emin ∨ m < F.lo then some (0, F.ezero) else if F.emax < e then none else some (m, e)

/-- **Rounding down.** The result is zero and the argument too small, or it is a number of the format, and the argument is
less than one unit of its last digit above it. -/
theorem normalize_cases (h : F.normalize m e = some (m', e')) :
    m' = 0 ∧ e' = F.ezero ∧ (m : ℚ) * 10 ^ e < F.lo * 10 ^ F.emin ∨ F.Normal m' e' ∧ Between m' e' (m * 10 ^ e) := by
  have hpos := F.lo_pos
  have hlo : (0 : ℚ) < F.lo := by exact_mod_cast hpos
  unfold normalize at h
  by_cases hm : m = 0
  · rw [if_pos hm] at h
    obtain ⟨rfl, rfl⟩ := Prod.mk.inj (Option.some.inj h)
    refine .inl ⟨rfl, rfl, ?_⟩
    rw [hm, Nat.cast_zero, zero_mul]
    exact mul_pos hlo (ten_zpow_pos _)
  · rw [if_neg hm] at h
    obtain ⟨k, -, hraise, hraised, hraised'⟩ := raise_spec F.lo (e - F.emin).toNat m e
    rw [hraise] at h
    dsimp only at h
    cases hl : lower (10 * F.lo - 1) (F.emax - (e - k)).toNat (m * 10 ^ k) (e - k) with
    | none => simp [hl] at h
    | some p =>
      obtain ⟨m₂, e₂⟩ := p
      obtain ⟨j, -, hm₂, he₂, hle, hj⟩ := lower_spec hl
      have hbetween : Between m₂ e₂ (m * 10 ^ e) := by
        rw [hm₂, he₂, ← raised_value m k e]
        exact (between_self _ _).div j
      rw [hl] at h
      dsimp only at h
      split_ifs at h with hsmall
      · obtain ⟨rfl, rfl⟩ := Prod.mk.inj (Option.some.inj h)
        refine .inl ⟨rfl, rfl, hbetween.2.trans_le ?_⟩
        by_cases hexp : e₂ < F.emin
        · -- one digit less is a tenth of the least number
          have hpow : (10 : ℚ) ^ F.emin = 10 * 10 ^ (F.emin - 1) := by
            rw [← zpow_one_add₀ (by norm_num)]
            congr 1
            ring
          have hcoeff : (m₂ : ℚ) + 1 ≤ F.lo * 10 := by
            have : m₂ + 1 ≤ F.lo * 10 := by omega
            exact_mod_cast this
          rw [hpow, ← mul_assoc]
          exact mul_le_mul hcoeff (ten_zpow_le (by omega)) (ten_zpow_pos _).le (by positivity)
        · -- the coefficient has not been lowered, so raising it has come to its end
          have hzero : j = 0 := by omega
          subst hzero
          have hm₂' : m₂ = m * 10 ^ k := by simpa using hm₂
          have he : e₂ = F.emin := by
            simp only [Nat.cast_zero, add_zero] at he₂
            omega
          have hcoeff : (m₂ : ℚ) + 1 ≤ F.lo := by
            have : m₂ + 1 ≤ F.lo := by omega
            exact_mod_cast this
          rw [he]
          exact mul_le_mul_of_nonneg_right hcoeff (ten_zpow_pos _).le
      · obtain ⟨rfl, rfl⟩ := Prod.mk.inj (Option.some.inj h)
        exact .inr ⟨⟨by omega, by omega, by omega, by omega⟩, hbetween⟩

theorem normalize_isSome (h : (m : ℚ) * 10 ^ e < 10 * F.lo * 10 ^ F.emax) : ∃ p, F.normalize m e = some p := by
  have hpos := F.lo_pos
  cases hn : F.normalize m e with
  | some p => exact ⟨p, rfl⟩
  | none =>
    exfalso
    refine absurd h (not_lt.mpr ?_)
    unfold normalize at hn
    split_ifs at hn with hm
    obtain ⟨k, -, hraise, -, -⟩ := raise_spec F.lo (e - F.emin).toNat m e
    rw [hraise] at hn
    dsimp only at hn
    rw [← raised_value m k e]
    cases hl : lower (10 * F.lo - 1) (F.emax - (e - k)).toNat (m * 10 ^ k) (e - k) with
    | none =>
      have hle := lower_eq_none hl
      rw [Nat.sub_add_cancel (by omega)] at hle
      generalize m * 10 ^ k = m₁ at *
      generalize e - (k : ℤ) = e₁ at *
      have hle' : (10 : ℚ) * F.lo * 10 ^ (F.emax - e₁).toNat ≤ m₁ := by exact_mod_cast hle
      have hexp : F.emax ≤ e₁ + ((F.emax - e₁).toNat : ℤ) := by omega
      calc (10 : ℚ) * F.lo * 10 ^ F.emax ≤ 10 * F.lo * 10 ^ (e₁ + ((F.emax - e₁).toNat : ℤ)) :=
            mul_le_mul_of_nonneg_left (ten_zpow_le hexp) (by positivity)
        _ = 10 * F.lo * 10 ^ (F.emax - e₁).toNat * 10 ^ e₁ := by rw [ten_zpow_add, mul_assoc _ (10 ^ _)]
        _ ≤ m₁ * 10 ^ e₁ := mul_le_mul_of_nonneg_right hle' (ten_zpow_pos _).le
    | some p =>
      obtain ⟨m₂, e₂⟩ := p
      obtain ⟨j, -, hm₂, he₂, -, -⟩ := lower_spec hl
      rw [hl] at hn
      dsimp only at hn
      split_ifs at hn with hsmall hbig
      have hbetween := (between_self (m * 10 ^ k) (e - k)).div j
      rw [← hm₂, ← he₂] at hbetween
      have hlo : (F.lo : ℚ) ≤ m₂ := by exact_mod_cast (by omega : F.lo ≤ m₂)
      have hpow : (10 : ℚ) ^ (F.emax + (1 : ℕ)) ≤ 10 ^ e₂ := ten_zpow_le (by push_cast; omega)
      rw [ten_zpow_add, pow_one] at hpow
      refine le_trans ?_ hbetween.1
      have hunit := ten_zpow_pos F.emax
      nlinarith

theorem normalize_lt (h : F.normalize m e = some (m', e')) : m' < 10 * F.lo := by
  have hpos := F.lo_pos
  rcases normalize_cases h with ⟨rfl, -, -⟩ | ⟨hnormal, -⟩
  · omega
  · exact hnormal.lt

theorem Normal.lt_of_exp_lt (h : F.Normal m e) (h' : F.Normal m' e') (he : e < e') : (m : ℚ) * 10 ^ e < m' * 10 ^ e' := by
  have hpow : (10 : ℚ) ^ (e + (1 : ℕ)) = 10 ^ 1 * 10 ^ e := ten_zpow_add e 1
  have hlt : (m : ℚ) < F.lo * 10 := by
    have := h.lt
    exact_mod_cast (by omega : m < F.lo * 10)
  have hlo : (F.lo : ℚ) ≤ m' := by exact_mod_cast h'.le
  calc (m : ℚ) * 10 ^ e < F.lo * 10 * 10 ^ e := mul_lt_mul_of_pos_right hlt (ten_zpow_pos e)
    _ = F.lo * 10 ^ (e + (1 : ℕ)) := by rw [hpow, pow_one, mul_assoc]
    _ ≤ m' * 10 ^ e' := mul_le_mul hlo (ten_zpow_le (by omega)) (ten_zpow_pos _).le (Nat.cast_nonneg m')

theorem shift_unique {j k : ℕ} (hj : F.lo ≤ m * 10 ^ j ∧ m * 10 ^ j < 10 * F.lo)
    (hk : F.lo ≤ m * 10 ^ k ∧ m * 10 ^ k < 10 * F.lo) : j = k := by
  have hle : ∀ {i l : ℕ}, F.lo ≤ m * 10 ^ i → m * 10 ^ l < 10 * F.lo → l ≤ i := by
    intro i l hi hl
    by_contra hlt
    have hpow : 10 ^ (i + 1) ≤ 10 ^ l := Nat.pow_le_pow_right (by norm_num) (by omega)
    rw [pow_succ] at hpow
    nlinarith
  exact le_antisymm (hle hk.1 hj.2) (hle hj.1 hk.2)

theorem normalize_of_lt (F : Format) (hm : 0 < m) (hlt : m < 10 * F.lo) (e : ℤ) :
    ∃ k : ℕ, m * 10 ^ k < 10 * F.lo ∧ (F.lo ≤ m * 10 ^ k ∨ e - k ≤ F.emin) ∧ F.normalize m e =
      if e - k < F.emin ∨ m * 10 ^ k < F.lo then some (0, F.ezero)
      else if F.emax < e - k then none else some (m * 10 ^ k, e - k) := by
  obtain ⟨k, -, hraise, hlo, hhi⟩ := raise_spec F.lo (e - F.emin).toNat m e
  have hhi' : m * 10 ^ k < 10 * F.lo := by
    rcases hhi with rfl | hhi
    · simpa using hlt
    · exact hhi
  refine ⟨k, hhi', hlo.imp_right (by omega), ?_⟩
  have hlower : ∀ n, lower (10 * F.lo - 1) n (m * 10 ^ k) (e - k) = some (m * 10 ^ k, e - k) := by
    intro n
    cases n with
    | zero => rw [lower, if_neg (by omega)]
    | succ n => rw [lower, if_neg (by omega)]
  unfold normalize
  rw [if_neg (by omega), hraise]
  simp only [hlower]

theorem normalize_of_shift {k : ℕ} (h : F.Normal (m * 10 ^ k) (e - k)) : F.normalize m e = some (m * 10 ^ k, e - k) := by
  have hpos := F.lo_pos
  obtain ⟨hlo, hhi, hmin, hmax⟩ := h
  have hm : 0 < m := Nat.pos_of_ne_zero (by rintro rfl; omega)
  have hle : m ≤ m * 10 ^ k := Nat.le_mul_of_pos_right m (Nat.pow_pos (by norm_num))
  obtain ⟨j, hj, hj', heq⟩ := normalize_of_lt F hm (hle.trans_lt hhi) e
  have hjk : j = k := by
    rcases hj' with hj' | hj'
    · exact shift_unique ⟨hj', hj⟩ ⟨hlo, hhi⟩
    · have hpow : m * 10 ^ k ≤ m * 10 ^ j := Nat.mul_le_mul_left m (Nat.pow_le_pow_right (by norm_num) (by omega))
      exact shift_unique ⟨hlo.trans hpow, hj⟩ ⟨hlo, hhi⟩
  rw [heq, hjk, if_neg (by omega), if_neg (by omega)]

theorem normalize_of_coefficient (hlo : F.lo ≤ m) (hhi : m < 10 * F.lo) (e : ℤ) :
    F.normalize m e = if e < F.emin then some (0, F.ezero) else if F.emax < e then none else some (m, e) := by
  have hpos := F.lo_pos
  obtain ⟨k, hk, -, heq⟩ := normalize_of_lt F (lt_of_lt_of_le hpos hlo) hhi e
  have hle : m ≤ m * 10 ^ k := Nat.le_mul_of_pos_right m (Nat.pow_pos (by norm_num))
  obtain rfl : k = 0 := shift_unique ⟨hlo.trans hle, hk⟩ (by rw [pow_zero, mul_one]; exact ⟨hlo, hhi⟩)
  have hnot : ¬ m < F.lo := not_lt.mpr hlo
  simpa [hnot] using heq

theorem normalize_of_normal (h : F.Normal m e) : F.normalize m e = some (m, e) := by
  have hshift := normalize_of_shift (F := F) (m := m) (e := e) (k := 0)
  simp only [pow_zero, mul_one, Nat.cast_zero, sub_zero] at hshift
  exact hshift h

/-- The greatest number of the format that is not above `x`. -/
def IsFloor (F : Format) (x y : ℚ) : Prop := IsGreatest {z | F.Rep z ∧ z ≤ x} y

theorem Normal.isFloor (h : F.Normal m e) (hx : Between m e x) : F.IsFloor x (m * 10 ^ e) := by
  refine ⟨⟨.inr ⟨m, e, h, rfl⟩, hx.1⟩, ?_⟩
  rintro z ⟨rfl | ⟨j, d, hj, rfl⟩, hz⟩
  · exact mul_nonneg (Nat.cast_nonneg m) (ten_zpow_pos e).le
  · rcases le_or_gt e d with hd | hd
    · obtain ⟨k, rfl⟩ : ∃ k : ℕ, d = e + k := ⟨(d - e).toNat, by omega⟩
      exact hx.le_of_units hz
    · exact (hj.lt_of_exp_lt h hd).le

theorem least_le (h : F.Rep x) (hx : x ≠ 0) : (F.lo : ℚ) * 10 ^ F.emin ≤ x := by
  obtain rfl | ⟨m, e, hm, rfl⟩ := h
  · exact absurd rfl hx
  · have hlo : (F.lo : ℚ) ≤ m := by exact_mod_cast hm.le
    exact mul_le_mul hlo (ten_zpow_le hm.min) (ten_zpow_pos _).le (Nat.cast_nonneg m)

theorem isFloor_zero (hx : 0 ≤ x) (hx' : x < F.lo * 10 ^ F.emin) : F.IsFloor x 0 := by
  refine ⟨⟨.inl rfl, hx⟩, ?_⟩
  rintro z ⟨hz, hzx⟩
  by_contra hpos
  exact absurd (least_le hz (ne_of_not_le hpos)) (not_le.mpr (hzx.trans_lt hx'))

theorem isFloor_normalize (h : F.normalize m e = some (m', e')) : F.IsFloor (m * 10 ^ e) (m' * 10 ^ e') := by
  rcases normalize_cases h with ⟨rfl, -, hsmall⟩ | ⟨hnormal, hbetween⟩
  · rw [Nat.cast_zero, zero_mul]
    exact isFloor_zero (mul_nonneg (Nat.cast_nonneg m) (ten_zpow_pos e).le) hsmall
  · exact hnormal.isFloor hbetween

theorem IsFloor.unique {y' : ℚ} (h : F.IsFloor x y) (h' : F.IsFloor x y') : y = y' := IsGreatest.unique h h'

/-- **Normalising a number that has already lost digits.** It is rounded down unless digits are added that have been lost. -/
theorem isFloor_normalize_iff (hm : 0 < m) (hx : Between m e x) (h : F.normalize m e = some (m', e')) :
    F.IsFloor x (m' * 10 ^ e') ↔ ∀ k : ℕ, F.Normal (m * 10 ^ k) (e - k) → Between (m * 10 ^ k) (e - k) x := by
  rcases normalize_cases h with ⟨rfl, -, hsmall⟩ | ⟨hnormal, hbetween⟩
  · -- too small, with the digits that have been lost
    rw [lo_mul_emin] at hsmall
    have hlt := hx.2.trans_le (succ_mul_zpow_le hm hsmall)
    have hpos : (0 : ℚ) ≤ x := (mul_nonneg (Nat.cast_nonneg m) (ten_zpow_pos e).le).trans hx.1
    rw [Nat.cast_zero, zero_mul]
    refine ⟨?_, fun _ => isFloor_zero hpos (hlt.trans_eq F.lo_mul_emin.symm)⟩
    intro _ k hk
    have hrep : F.Rep ((m * 10 ^ k : ℕ) * 10 ^ (e - k)) := .inr ⟨_, _, hk, rfl⟩
    rw [raised_value] at hrep
    have hle := least_le hrep (mul_pos (by exact_mod_cast hm) (ten_zpow_pos e)).ne'
    rw [lo_mul_emin] at hle
    linarith
  · rcases le_or_gt e e' with hle | hgt
    · -- digits are dropped
      obtain ⟨j, rfl⟩ : ∃ j : ℕ, e' = e + j := ⟨(e' - e).toNat, by omega⟩
      obtain rfl := hbetween.unique ((between_self m e).div j)
      refine ⟨?_, fun _ => hnormal.isFloor (hx.div j)⟩
      intro _ k hk
      have hzero : k = 0 := by
        have hlo : F.lo ≤ m := hnormal.le.trans (Nat.div_le_self m (10 ^ j))
        have hlt := hk.lt
        by_contra hne
        have hpow : 10 ^ 1 ≤ 10 ^ k := Nat.pow_le_pow_right (by norm_num) (by omega)
        nlinarith
      subst hzero
      simpa using hx
    · -- digits are added
      obtain ⟨j, rfl⟩ : ∃ j : ℕ, e' = e - j := ⟨(e - e').toNat, by omega⟩
      have hself : Between (m * 10 ^ j) (e - j) (m * 10 ^ e) := by
        rw [← raised_value m j e]
        exact between_self _ _
      obtain rfl := hbetween.unique hself
      refine ⟨?_, fun hall => hnormal.isFloor (hall j hnormal)⟩
      intro hfloor k hk
      obtain rfl : k = j := shift_unique ⟨hk.le, hk.lt⟩ ⟨hnormal.le, hnormal.lt⟩
      refine ⟨hfloor.1.2, ?_⟩
      -- one unit more would be a number of the format as well
      by_contra hle
      have hnext : F.Normal (m * 10 ^ k + 1) (e - k) := by
        have hlt := hk.lt
        have hle := hk.le
        have hpow : 10 ^ k = 10 * 10 ^ (k - 1) := by
          rw [← pow_succ']
          congr 1
          omega
        have hten : m * 10 ^ k = 10 * (m * 10 ^ (k - 1)) := by
          rw [hpow]
          ring
        refine ⟨by omega, by omega, hk.min, hk.max⟩
      have hmax := hfloor.2 ⟨.inr ⟨_, _, hnext, rfl⟩, by push_cast at hle ⊢; exact not_lt.mp hle⟩
      have := ten_zpow_pos (e - k)
      push_cast at hmax
      nlinarith

theorem normalize_succ (h : F.Normal m e) (hp : F.normalize (m + 1) e = some (m', e')) :
    (m' : ℚ) * 10 ^ e' = (m + 1) * 10 ^ e := by
  have hfloor := isFloor_normalize hp
  have hpos := F.lo_pos
  by_cases hlt : m + 1 < 10 * F.lo
  · have hnext : F.Normal (m + 1) e := ⟨by have := h.le; omega, hlt, h.min, h.max⟩
    rw [normalize_of_normal hnext] at hp
    obtain ⟨rfl, rfl⟩ := Prod.mk.inj (Option.some.inj hp)
    push_cast
    rfl
  · have hm : m + 1 = F.lo * 10 := by
      have := h.lt
      omega
    have hvalue : ((m + 1 : ℕ) : ℚ) * 10 ^ e = F.lo * 10 ^ (e + (1 : ℕ)) := by
      rw [hm, ten_zpow_add, pow_one]
      push_cast
      ring
    rw [hvalue] at hfloor
    have hgoal : ((m : ℚ) + 1) * 10 ^ e = F.lo * 10 ^ (e + (1 : ℕ)) := by
      rw [← hvalue]
      push_cast
      rfl
    rw [hgoal]
    rcases lt_or_eq_of_le h.max with hmax | hmax
    · have hnext : F.Normal F.lo (e + (1 : ℕ)) :=
        ⟨le_rfl, by omega, by have := h.min; push_cast; omega, by push_cast; omega⟩
      exact hfloor.unique (hnext.isFloor (between_self _ _))
    · -- there is no number of the format that large
      exfalso
      have hlo : (0 : ℚ) < F.lo := by exact_mod_cast hpos
      rcases normalize_cases hp with ⟨-, -, hsmall⟩ | ⟨hnormal, -, hbelow⟩
      · rw [hvalue] at hsmall
        have hpow : (10 : ℚ) ^ F.emin ≤ 10 ^ (e + (1 : ℕ)) := ten_zpow_le (by have := h.min; push_cast; omega)
        nlinarith
      · rw [hvalue, hmax, ten_zpow_add, pow_one] at hbelow
        have hcoeff : (m' : ℚ) + 1 ≤ F.lo * 10 := by
          have := hnormal.lt
          exact_mod_cast (by omega : m' + 1 ≤ F.lo * 10)
        have hpow := ten_zpow_le hnormal.max
        have hunit := ten_zpow_pos e'
        nlinarith [mul_le_mul hcoeff hpow hunit.le (by positivity)]

theorem IsFloor.mono (hx : F.IsFloor x y) {x' y' : ℚ} (hx' : F.IsFloor x' y') (h : x ≤ x') : y ≤ y' :=
  hx'.2 ⟨hx.1.1, hx.1.2.trans h⟩

end Format

/-! ## Signed numbers of two exponents -/

/-- `n` digits are dropped, towards zero. -/
def dropDigits : ℕ → ℤ → ℤ
  | 0, v => v
  | n + 1, v => dropDigits n (v.tdiv 10)

theorem dropDigits_neg (n : ℕ) (v : ℤ) : dropDigits n (-v) = -dropDigits n v := by
  induction n generalizing v with
  | zero => rfl
  | succ n ih => rw [dropDigits, Int.neg_tdiv, ih, dropDigits]

theorem dropDigits_natCast (n m : ℕ) : dropDigits n (m : ℤ) = (m / 10 ^ n : ℕ) := by
  induction n generalizing m with
  | zero => simp [dropDigits]
  | succ n ih =>
    have htdiv : (m : ℤ).tdiv 10 = (m / 10 : ℕ) := (Int.ofNat_tdiv m 10).symm
    rw [dropDigits, htdiv, ih, Nat.div_div_eq_div_mul, pow_succ']

theorem natAbs_dropDigits_le (n : ℕ) (v : ℤ) : (dropDigits n v).natAbs ≤ v.natAbs := by
  obtain ⟨m, rfl | rfl⟩ := v.eq_nat_or_neg
  · rw [dropDigits_natCast]
    exact Nat.div_le_self _ _
  · rw [dropDigits_neg, dropDigits_natCast, Int.natAbs_neg, Int.natAbs_neg]
    exact Nat.div_le_self _ _

theorem abs_dropDigits_sub_lt (n : ℕ) (v e : ℤ) :
    |(dropDigits n v : ℚ) * 10 ^ (e + n) - v * 10 ^ e| < 10 ^ (e + n) := by
  have hnat : ∀ m : ℕ, |((m / 10 ^ n : ℕ) : ℚ) * 10 ^ (e + n) - m * 10 ^ e| < 10 ^ (e + n) := by
    intro m
    obtain ⟨hle, hlt⟩ := (between_self m e).div n
    rw [abs_sub_lt_iff]
    constructor <;> linarith [ten_zpow_pos (e + n)]
  obtain ⟨m, rfl | rfl⟩ := v.eq_nat_or_neg
  · rw [dropDigits_natCast]
    exact_mod_cast hnat m
  · rw [dropDigits_neg, dropDigits_natCast, ← abs_neg, Int.cast_neg, Int.cast_neg, Int.cast_natCast, Int.cast_natCast]
    convert hnat m using 2
    ring

/-- The sum in units of the larger exponent. -/
def alignedSum (x e y d : ℤ) : ℤ := dropDigits (d - e).toNat x + dropDigits (e - d).toNat y

theorem alignedSum_comm (x e y d : ℤ) : alignedSum x e y d = alignedSum y d x e := add_comm _ _

theorem alignedSum_neg (x e y d : ℤ) : alignedSum (-x) e (-y) d = -alignedSum x e y d := by
  rw [alignedSum, dropDigits_neg, dropDigits_neg, alignedSum, neg_add]

theorem natAbs_alignedSum_le (x e y d : ℤ) : (alignedSum x e y d).natAbs ≤ x.natAbs + y.natAbs :=
  (Int.natAbs_add_le _ _).trans (Nat.add_le_add (natAbs_dropDigits_le _ x) (natAbs_dropDigits_le _ y))

theorem abs_alignedSum_sub_lt (x e y d : ℤ) :
    |(alignedSum x e y d : ℚ) * 10 ^ max e d - (x * 10 ^ e + y * 10 ^ d)| < 10 ^ max e d := by
  have hle : ∀ x e y d : ℤ, e ≤ d →
      |(alignedSum x e y d : ℚ) * 10 ^ max e d - (x * 10 ^ e + y * 10 ^ d)| < 10 ^ max e d := by
    intro x e y d hed
    obtain ⟨n, rfl⟩ : ∃ n : ℕ, d = e + n := ⟨(d - e).toNat, by omega⟩
    have hn : (e + n - e).toNat = n := by omega
    have hz : (e - (e + n)).toNat = 0 := by omega
    rw [alignedSum, hn, hz, dropDigits, max_eq_right hed]
    convert abs_dropDigits_sub_lt n x e using 2
    push_cast
    ring
  rcases le_total e d with hed | hde
  · exact hle x e y d hed
  · rw [alignedSum_comm, max_comm, add_comm]
    exact hle y d x e hde

end ScfChain.Data
