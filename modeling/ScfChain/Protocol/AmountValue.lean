import ScfChain.Data.Decimal
import ScfChain.Protocol.Amount

/-!
# The values of amounts

An amount stands for `± mValue * 10 ^ mOffset`. `canonicalize` is read in `ℕ`: on issued amounts it is the normalisation of
`STAmount.format`, on native ones digits are dropped, or added in 64 bits.

* `STAmount.val` : the number an amount stands for.
* `STAmount.Issued`, `STAmount.Native` : the amounts the arithmetic is about.
* `canonicalizeIssued_eq`, `canonicalizeNative_eq` : what `canonicalize` makes of an amount.
-/

namespace ScfChain.Protocol.STAmount

open Data

/-- The issued amounts that are not zero. -/
def format : Format where
  digits := 15
  emin := -96
  emax := 80
  ezero := -100

/-- The number an amount stands for. -/
def val (a : STAmount) : ℚ := (if a.mIsNegative then -1 else 1) * (a.mValue.toNat * 10 ^ a.mOffset)

/-- A canonical issued amount. -/
@[mk_iff issued_def] structure Issued (a : STAmount) : Prop where
  currency : a.mIssue.currency ≠ 0
  native : a.mIsNative = false
  value : a.mValue = 0 ∧ a.mOffset = -100 ∧ a.mIsNegative = false ∨ format.Normal a.mValue.toNat a.mOffset

/-- A native amount: drops, of any 64 bits. -/
@[mk_iff native_def] structure Native (a : STAmount) : Prop where
  currency : a.mIssue.currency = 0
  native : a.mIsNative = true
  offset : a.mOffset = 0
  zero : a.mValue = 0 → a.mIsNegative = false

instance (a : STAmount) : Decidable a.Issued := decidable_of_iff' _ (issued_def a)

instance (a : STAmount) : Decidable a.Native := decidable_of_iff' _ (native_def a)

/-- The issued amount of a sign, a coefficient and an exponent. -/
def ofNormal (issue : Issue) (negative : Bool) (p : ℕ × ℤ) : STAmount :=
  ⟨issue, BitVec.ofNat 64 p.1, p.2, false, negative && p.1 ≠ 0⟩

theorem val_ofNormal {issue : Issue} {p : ℕ × ℤ} (hp : p.1 < 2 ^ 64) : (ofNormal issue false p).val = p.1 * 10 ^ p.2 := by
  simp only [val, ofNormal, Bool.false_and, Bool.false_eq_true, if_false, one_mul, BitVec.toNat_ofNat, Nat.mod_eq_of_lt hp]

theorem val_drops {issue : Issue} {native : Bool} {w : ℕ} (hw : w < 2 ^ 64) :
    val ⟨issue, BitVec.ofNat 64 w, 0, native, false⟩ = w := by
  simp only [val, Bool.false_eq_true, if_false, one_mul, BitVec.toNat_ofNat, Nat.mod_eq_of_lt hw, zpow_zero, mul_one]

/-! ## The loops in `ℕ` -/

theorem toNat_eq_zero_iff {v : BitVec 64} : v.toNat = 0 ↔ v = 0 := by
  rw [← BitVec.toNat_inj]
  rfl

theorem lt_cMinValue_iff {v : BitVec 64} : v < cMinValue ↔ v.toNat < 10 ^ 15 := BitVec.lt_def

theorem cMaxValue_lt_iff {v : BitVec 64} : cMaxValue < v ↔ 10 ^ 16 - 1 < v.toNat := BitVec.lt_def

theorem toNat_div_ten (v : BitVec 64) : (v / 10).toNat = v.toNat / 10 := BitVec.toNat_udiv

theorem raise_eq (n : ℕ) (v : BitVec 64) (e : ℤ) :
    ((raise n v e).1.toNat, (raise n v e).2) = Data.raise (10 ^ 15) n v.toNat e := by
  induction n generalizing v e with
  | zero => rfl
  | succ n ih =>
    rw [raise, Data.raise]
    by_cases hv : v < cMinValue
    · have hlt := lt_cMinValue_iff.mp hv
      have hmul : (v * 10).toNat = v.toNat * 10 := by
        rw [BitVec.toNat_mul, show (10 : BitVec 64).toNat = 10 from rfl]
        omega
      rw [if_pos hv, if_pos hlt, ih, hmul]
    · rw [if_neg hv, if_neg (mt lt_cMinValue_iff.mpr hv)]

theorem lower_eq (n : ℕ) (v : BitVec 64) (e : ℤ) :
    lower n v e = (Data.lower (10 ^ 16 - 1) n v.toNat e).elim (.error "value overflow")
      fun p => .ok (BitVec.ofNat 64 p.1, p.2) := by
  induction n generalizing v e with
  | zero =>
    rw [lower, Data.lower]
    by_cases hv : cMaxValue < v
    · rw [if_pos hv, if_pos (cMaxValue_lt_iff.mp hv)]
      rfl
    · rw [if_neg hv, if_neg (mt cMaxValue_lt_iff.mpr hv)]
      simp
  | succ n ih =>
    rw [lower, Data.lower]
    by_cases hv : cMaxValue < v
    · rw [if_pos hv, if_pos (cMaxValue_lt_iff.mp hv), ih, toNat_div_ten]
    · rw [if_neg hv, if_neg (mt cMaxValue_lt_iff.mpr hv)]
      simp

theorem toNat_shrink (n : ℕ) (v : BitVec 64) : (shrink n v).toNat = v.toNat / 10 ^ n := by
  induction n generalizing v with
  | zero => simp [shrink]
  | succ n ih => rw [shrink, ih, toNat_div_ten, Nat.div_div_eq_div_mul, pow_succ, Nat.mul_comm]

theorem toNat_grow (n : ℕ) (v : BitVec 64) : (grow n v).toNat = v.toNat * 10 ^ n % 2 ^ 64 := by
  induction n generalizing v with
  | zero => rw [grow, pow_zero, Nat.mul_one, Nat.mod_eq_of_lt v.isLt]
  | succ n ih =>
    rw [grow, ih, BitVec.toNat_mul, show (10 : BitVec 64).toNat = 10 from rfl, Nat.mod_mul_mod, pow_succ']
    congr 1
    ring

/-! ## `canonicalize` -/

theorem canonicalizeIssued_eq (a : STAmount) :
    a.canonicalizeIssued = (format.normalize a.mValue.toNat a.mOffset).elim (.error "value overflow")
      fun p => .ok (ofNormal a.mIssue a.mIsNegative p) := by
  unfold canonicalizeIssued Format.normalize ofNormal
  by_cases hzero : a.mValue = 0
  · rw [if_pos hzero, if_pos (toNat_eq_zero_iff.mpr hzero)]
    simp only [Option.elim_some]
    rw [hzero]
    simp [format, pure, Except.pure]
  · rw [if_neg hzero, if_neg (mt toNat_eq_zero_iff.mp hzero)]
    have hraise := raise_eq (a.mOffset - cMinOffset).toNat a.mValue a.mOffset
    rw [show format.lo = 10 ^ 15 from rfl, show format.emin = cMinOffset from rfl, ← hraise]
    dsimp only
    rw [lower_eq, show 10 * 10 ^ 15 - 1 = 10 ^ 16 - 1 from rfl, show format.emax = cMaxOffset from rfl]
    generalize hl : Data.lower _ _ _ _ = lowered
    cases lowered with
    | none => rfl
    | some p =>
      obtain ⟨m, e⟩ := p
      obtain ⟨-, -, -, -, hle, -⟩ := lower_spec hl
      have hm : (BitVec.ofNat 64 m).toNat = m := by
        rw [BitVec.toNat_ofNat]
        omega
      have hiff : e < cMinOffset ∨ BitVec.ofNat 64 m < cMinValue ↔ e < cMinOffset ∨ m < 10 ^ 15 := by
        rw [lt_cMinValue_iff, hm]
      rw [Option.elim_some, ok_bind]
      dsimp only
      by_cases hsmall : e < cMinOffset ∨ m < 10 ^ 15
      · rw [if_pos hsmall, if_pos (hiff.mpr hsmall)]
        simp [format, pure, Except.pure]
      · rw [if_neg hsmall, if_neg (mt hiff.mp hsmall)]
        by_cases hbig : cMaxOffset < e
        · rw [if_pos hbig, if_pos hbig]
          rfl
        · rw [if_neg hbig, if_neg hbig]
          have hpos : m ≠ 0 := by omega
          simp [hpos, pure, Except.pure]

theorem canonicalize_issued {issue : Issue} {value : BitVec 64} {offset : ℤ} {native negative : Bool} (hcur : issue.currency ≠ 0) :
    canonicalize ⟨issue, value, offset, native, negative⟩ =
      (format.normalize value.toNat offset).elim (.error "value overflow") fun p => .ok (ofNormal issue negative p) := by
  unfold canonicalize
  rw [if_neg (by simpa [isSFC] using hcur), canonicalizeIssued_eq]

theorem normalize_lt {m : ℕ} {e : ℤ} {p : ℕ × ℤ} (h : format.normalize m e = some p) : p.1 < 2 ^ 64 := by
  have hlt : p.1 < 10 * 10 ^ 15 := Format.normalize_lt h
  omega

theorem canonicalizeNative_eq {a : STAmount} (ha : a.mValue ≠ 0) {w : ℕ}
    (hw : w = a.mValue.toNat / 10 ^ (-a.mOffset).toNat * 10 ^ a.mOffset.toNat % 2 ^ 64) :
    a.canonicalizeNative = if 10 ^ 17 < w then .error "Native currency amount out of range"
      else .ok ⟨a.mIssue, BitVec.ofNat 64 w, 0, true, a.mIsNegative⟩ := by
  have hvalue : (grow a.mOffset.toNat (shrink (-a.mOffset).toNat a.mValue)).toNat = w := by
    rw [toNat_grow, toNat_shrink, hw]
  have hlt : cMaxNativeN < grow a.mOffset.toNat (shrink (-a.mOffset).toNat a.mValue) ↔ 10 ^ 17 < w := by
    rw [BitVec.lt_def, hvalue]
    rfl
  have hofNat : grow a.mOffset.toNat (shrink (-a.mOffset).toNat a.mValue) = BitVec.ofNat 64 w := by
    rw [← hvalue, BitVec.ofNat_toNat, BitVec.setWidth_eq]
  unfold canonicalizeNative
  rw [if_neg ha]
  dsimp only
  rw [hofNat] at hlt ⊢
  by_cases hbig : 10 ^ 17 < w
  · rw [if_pos hbig, if_pos (hlt.mpr hbig)]
  · rw [if_neg hbig, if_neg (mt hlt.mp hbig)]

end ScfChain.Protocol.STAmount
