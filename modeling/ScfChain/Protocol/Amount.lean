import ScfChain.Protocol.Serializer

/-!
# The wire form of amounts

`STAmount::add` writes an amount, the constructor from a `SerialIter` reads one (`STAmount.read`). Sign, native flag,
exponent and mantissa share the first 64 bits: `words` lemmas say what the operations on them are in `ℕ`.

* `STAmount.Wire` : the amounts that are written, native ones below `2 ^ 62` and canonical issued ones.
* `exact_read` : what is read is exactly what is written of these amounts.
-/

namespace ScfChain.Protocol

open Data

structure Issue where
  currency : BitVec 160
  account : BitVec 160
  deriving DecidableEq

/-- `isSFC` of a currency, and of an account. -/
def isSFC (id : BitVec 160) : Bool := id = 0

@[ext]
structure STAmount where
  mIssue : Issue
  mValue : BitVec 64
  mOffset : ℤ
  mIsNative : Bool
  mIsNegative : Bool
  deriving DecidableEq

def cMinOffset : ℤ := -96
def cMaxOffset : ℤ := 80
def cMinValue : BitVec 64 := 1000000000000000#64
def cMaxValue : BitVec 64 := 9999999999999999#64
def cMaxNativeN : BitVec 64 := 100000000000000000#64
def cNotNative : BitVec 64 := 0x8000000000000000#64
def cPosNative : BitVec 64 := 0x4000000000000000#64

namespace STAmount

/-! ## `canonicalize` -/

/-- `while (mOffset < 0)` of native amounts, `n` times. -/
def shrink : ℕ → BitVec 64 → BitVec 64
  | 0, mValue => mValue
  | n + 1, mValue => shrink n (mValue / 10)

/-- `while (mOffset > 0)` of native amounts, `n` times. -/
def grow : ℕ → BitVec 64 → BitVec 64
  | 0, mValue => mValue
  | n + 1, mValue => grow n (mValue * 10)

/-- `while ((mValue < cMinValue) && (mOffset > cMinOffset))`; the offset is `n` above `cMinOffset`. -/
def raise : ℕ → BitVec 64 → ℤ → BitVec 64 × ℤ
  | 0, mValue, mOffset => (mValue, mOffset)
  | n + 1, mValue, mOffset => if mValue < cMinValue then raise n (mValue * 10) (mOffset - 1) else (mValue, mOffset)

/-- `while (mValue > cMaxValue)`; the offset is `n` below `cMaxOffset`. -/
def lower : ℕ → BitVec 64 → ℤ → Except String (BitVec 64 × ℤ)
  | 0, mValue, mOffset => if cMaxValue < mValue then .error "value overflow" else .ok (mValue, mOffset)
  | n + 1, mValue, mOffset => if cMaxValue < mValue then lower n (mValue / 10) (mOffset + 1) else .ok (mValue, mOffset)

def canonicalizeNative (a : STAmount) : Except String STAmount :=
  if a.mValue = 0 then .ok { a with mIsNative := true, mOffset := 0, mIsNegative := false }
  else
    let mValue := grow a.mOffset.toNat (shrink (-a.mOffset).toNat a.mValue)
    if cMaxNativeN < mValue then .error "Native currency amount out of range"
    else .ok { a with mIsNative := true, mOffset := 0, mValue := mValue }

def canonicalizeIssued (a : STAmount) : Except String STAmount := do
  if a.mValue = 0 then return { a with mIsNative := false, mOffset := -100, mIsNegative := false }
  else
    let raised := raise (a.mOffset - cMinOffset).toNat a.mValue a.mOffset
    let (mValue, mOffset) ← lower (cMaxOffset - raised.2).toNat raised.1 raised.2
    if mOffset < cMinOffset ∨ mValue < cMinValue then
      return { a with mIsNative := false, mValue := 0, mIsNegative := false, mOffset := -100 }
    else if cMaxOffset < mOffset then .error "value overflow"
    else return { a with mIsNative := false, mValue := mValue, mOffset := mOffset }

def canonicalize (a : STAmount) : Except String STAmount :=
  if isSFC a.mIssue.currency then a.canonicalizeNative else a.canonicalizeIssued

/-! ## Reading and writing -/

/-- An issued amount, from the first ten bits and the others. -/
def readIssued (issue : Issue) (offset : ℕ) (value : BitVec 64) : Except String STAmount :=
  if value ≠ 0 then
    let isNegative : Bool := offset &&& 256 = 0
    let offset : ℤ := (offset &&& 255 : ℕ) - 97
    if value < cMinValue ∨ cMaxValue < value ∨ offset < cMinOffset ∨ cMaxOffset < offset then
      .error "invalid currency value"
    else canonicalize ⟨issue, value, offset, false, isNegative⟩
  else if offset ≠ 512 then .error "invalid currency value"
  else canonicalize ⟨issue, 0, 0, false, false⟩

/-- `STAmount::STAmount (SerialIter&)`. -/
def read : Parser STAmount := do
  let value ← get64
  if value &&& cNotNative = 0 then
    if value &&& cPosNative ≠ 0 then return ⟨⟨0, 0⟩, value &&& ~~~ cPosNative, 0, true, false⟩
    else if value = 0 then throw "negative zero is not canonical"
    else return ⟨⟨0, 0⟩, value, 0, true, true⟩
  else
    let currency ← get160
    if isSFC currency then throw "invalid native currency"
    else
      let account ← get160
      if isSFC account then throw "invalid native account"
      else readIssued ⟨currency, account⟩ (value >>> 54).toNat (value &&& ~~~ (1023#64 <<< 54))

/-- The first 64 bits. -/
def word (a : STAmount) : BitVec 64 :=
  if a.mIsNative then
    if ¬ a.mIsNegative then a.mValue ||| cPosNative else a.mValue
  else if a.mValue = 0 then cNotNative
  else if a.mIsNegative then a.mValue ||| (BitVec.ofInt 64 (a.mOffset + 512 + 97) <<< 54)
  else a.mValue ||| (BitVec.ofInt 64 (a.mOffset + 512 + 256 + 97) <<< 54)

/-- `STAmount::add`. -/
def add (a : STAmount) : List UInt8 :=
  if a.mIsNative then add64 a.word else add64 a.word ++ add160 a.mIssue.currency ++ add160 a.mIssue.account

/-- The amounts that are written: native ones below `2 ^ 62` and canonical issued ones. -/
def Wire (a : STAmount) : Prop :=
  if a.mIsNative then
    a.mIssue = ⟨0, 0⟩ ∧ a.mOffset = 0 ∧ a.mValue.toNat < 2 ^ 62 ∧ (a.mValue = 0 → a.mIsNegative = false)
  else
    a.mIssue.currency ≠ 0 ∧ a.mIssue.account ≠ 0 ∧
      (a.mValue = 0 ∧ a.mOffset = -100 ∧ a.mIsNegative = false ∨
        10 ^ 15 ≤ a.mValue.toNat ∧ a.mValue.toNat < 10 ^ 16 ∧ -96 ≤ a.mOffset ∧ a.mOffset ≤ 80)

end STAmount

/-! ## Words -/

variable {w v : BitVec 64}

theorem and_twoPow_eq_zero_iff {i : ℕ} (h : w.toNat < 2 ^ (i + 1)) (hi : i < 64) :
    w &&& BitVec.twoPow 64 i = 0 ↔ w.toNat < 2 ^ i := by
  rw [← BitVec.toNat_inj, BitVec.toNat_and, BitVec.toNat_twoPow,
    Nat.mod_eq_of_lt (Nat.pow_lt_pow_right (by decide) hi), Nat.and_two_pow]
  constructor
  · intro hzero
    by_contra hle
    rw [Nat.testBit_of_two_pow_le_and_two_pow_add_one_gt (Nat.le_of_not_lt hle) h] at hzero
    simp at hzero
  · intro hlt
    rw [Nat.testBit_lt_two_pow hlt]
    simp

theorem and_notNative_eq_zero_iff (w : BitVec 64) : w &&& cNotNative = 0 ↔ w.toNat < 2 ^ 63 := by
  rw [show cNotNative = BitVec.twoPow 64 63 by decide]
  exact and_twoPow_eq_zero_iff w.isLt (by decide)

theorem and_posNative_eq_zero_iff (h : w.toNat < 2 ^ 63) : w &&& cPosNative = 0 ↔ w.toNat < 2 ^ 62 := by
  rw [show cPosNative = BitVec.twoPow 64 62 by decide]
  exact and_twoPow_eq_zero_iff h (by decide)

theorem toNat_or_posNative (h : v.toNat < 2 ^ 62) : (v ||| cPosNative).toNat = 2 ^ 62 + v.toNat := by
  have hor := Nat.two_pow_add_eq_or_of_lt h 1
  rw [BitVec.toNat_or, Nat.or_comm, show cPosNative.toNat = 2 ^ 62 * 1 from rfl, ← hor, Nat.mul_one]

theorem or_and_not_posNative (h : v.toNat < 2 ^ 62) : (v ||| cPosNative) &&& ~~~ cPosNative = v := by
  apply BitVec.eq_of_getLsbD_eq
  intro i hi
  have hbit : v.getLsbD 62 = false := Nat.testBit_lt_two_pow h
  rw [show cPosNative = BitVec.twoPow 64 62 by decide]
  simp only [BitVec.getLsbD_and, BitVec.getLsbD_or, BitVec.getLsbD_not, BitVec.getLsbD_twoPow, hi, decide_true, Bool.true_and]
  by_cases h62 : 62 = i
  · rw [← h62, hbit]
    simp
  · simp [h62]

theorem eq_or_posNative (h : 2 ^ 62 ≤ w.toNat) (h' : w.toNat < 2 ^ 63) :
    ∃ v : BitVec 64, v.toNat < 2 ^ 62 ∧ w = v ||| cPosNative := by
  have hv : (BitVec.ofNat 64 (w.toNat - 2 ^ 62)).toNat = w.toNat - 2 ^ 62 := by
    rw [BitVec.toNat_ofNat]
    omega
  refine ⟨BitVec.ofNat 64 (w.toNat - 2 ^ 62), by omega, ?_⟩
  apply BitVec.eq_of_toNat_eq
  rw [toNat_or_posNative (by omega), hv]
  omega

theorem toNat_or_shift {k : ℕ} (hv : v.toNat < 2 ^ 54) (hk : k < 1024) :
    (v ||| (BitVec.ofNat 64 k <<< 54)).toNat = k * 2 ^ 54 + v.toNat := by
  have hor := Nat.two_pow_add_eq_or_of_lt hv k
  have hshift : (BitVec.ofNat 64 k <<< 54).toNat = 2 ^ 54 * k := by
    rw [BitVec.toNat_shiftLeft, BitVec.toNat_ofNat, Nat.shiftLeft_eq]
    omega
  rw [BitVec.toNat_or, Nat.or_comm, hshift, ← hor, Nat.mul_comm]

theorem toNat_low (w : BitVec 64) : (w &&& ~~~ (1023#64 <<< 54)).toNat = w.toNat % 2 ^ 54 := by
  rw [BitVec.toNat_and, show (~~~ (1023#64 <<< 54)).toNat = 2 ^ 54 - 1 by decide, Nat.and_two_pow_sub_one_eq_mod]

theorem toNat_high (w : BitVec 64) : (w >>> 54).toNat = w.toNat / 2 ^ 54 := by
  rw [BitVec.toNat_ushiftRight, Nat.shiftRight_eq_div_pow]

theorem flags_of_high : ∀ k < 512, ((512 + k) &&& 256 = 0 ↔ k < 256) ∧ (512 + k) &&& 255 = k % 256 := by decide +kernel

namespace STAmount

/-! ## Exactness -/

variable {a : STAmount} {w : BitVec 64}

theorem canonicalize_of_range (hcur : a.mIssue.currency ≠ 0) (hmin : ¬ a.mValue < cMinValue)
    (hmax : ¬ cMaxValue < a.mValue) (hoff : -96 ≤ a.mOffset) (hoff' : a.mOffset ≤ 80) :
    a.canonicalize = .ok { a with mIsNative := false } := by
  have hraise : ∀ n, raise n a.mValue a.mOffset = (a.mValue, a.mOffset) := by
    intro n
    cases n with
    | zero => rfl
    | succ n => exact if_neg hmin
  have hlower : ∀ n, lower n a.mValue a.mOffset = .ok (a.mValue, a.mOffset) := by
    intro n
    cases n with
    | zero => exact if_neg hmax
    | succ n => exact if_neg hmax
  have hzero : a.mValue ≠ 0 := by
    intro h
    rw [h] at hmin
    exact hmin (by decide)
  unfold canonicalize canonicalizeIssued
  rw [if_neg (by simpa [isSFC] using hcur), if_neg hzero]
  simp only [hraise, hlower]
  change (if _ then _ else _) = _
  rw [if_neg (by rw [cMinOffset]; exact fun h => h.elim (by omega) hmin), if_neg (by rw [cMaxOffset]; omega)]
  rfl

theorem canonicalize_zero {issue : Issue} (hcur : issue.currency ≠ 0) :
    canonicalize ⟨issue, 0, 0, false, false⟩ = .ok ⟨issue, 0, -100, false, false⟩ := by
  unfold canonicalize canonicalizeIssued
  rw [if_neg (by simpa [isSFC] using hcur), if_pos rfl]
  rfl

theorem value_in_range_iff (v : BitVec 64) :
    ¬ (v < cMinValue) ∧ ¬ (cMaxValue < v) ↔ 10 ^ 15 ≤ v.toNat ∧ v.toNat < 10 ^ 16 := by
  rw [BitVec.lt_def, BitVec.lt_def, show cMinValue.toNat = 10 ^ 15 from rfl, show cMaxValue.toNat = 10 ^ 16 - 1 from rfl]
  omega

theorem toNat_word_issued (hnat : a.mIsNative = false) (hzero : a.mValue ≠ 0) {k : ℕ}
    (hk : (k : ℤ) = a.mOffset + 97 + if a.mIsNegative then 0 else 256) (hk' : k < 512) (hv : a.mValue.toNat < 2 ^ 54) :
    a.word.toNat = (512 + k) * 2 ^ 54 + a.mValue.toNat := by
  have hshift : a.word = a.mValue ||| (BitVec.ofNat 64 (512 + k) <<< 54) := by
    rw [word, if_neg (by simp [hnat]), if_neg hzero, ← BitVec.ofInt_natCast]
    split_ifs at hk ⊢
    · rw [show a.mOffset + 512 + 97 = ((512 + k : ℕ) : ℤ) by push_cast; omega]
    · rw [show a.mOffset + 512 + 256 + 97 = ((512 + k : ℕ) : ℤ) by push_cast; omega]
  rw [hshift, toNat_or_shift hv (by omega)]

theorem fields_of_word (hnat : a.mIsNative = false) (hwire : a.Wire) {k v : ℕ} (hv : v < 2 ^ 54)
    (hword : a.word.toNat = (512 + k) * 2 ^ 54 + v) :
    v = a.mValue.toNat ∧ (a.mValue = 0 ∧ a.mOffset = -100 ∧ a.mIsNegative = false ∧ k = 0 ∨
      a.mValue ≠ 0 ∧ (10 ^ 15 ≤ a.mValue.toNat ∧ a.mValue.toNat < 10 ^ 16) ∧ (-96 ≤ a.mOffset ∧ a.mOffset ≤ 80) ∧
        (k : ℤ) = a.mOffset + 97 + if a.mIsNegative then 0 else 256) := by
  rw [Wire, if_neg (by simp [hnat])] at hwire
  obtain ⟨-, -, ⟨hval, hoff, hneg⟩ | ⟨hmin, hmax, hoff, hoff'⟩⟩ := hwire
  · rw [word, if_neg (by simp [hnat]), if_pos hval, show cNotNative.toNat = 512 * 2 ^ 54 from rfl] at hword
    rw [hval]
    exact ⟨by simp; omega, Or.inl ⟨rfl, hoff, hneg, by omega⟩⟩
  · have hzero : a.mValue ≠ 0 := by
      intro h
      rw [h] at hmin
      simp at hmin
    obtain ⟨k', hk'⟩ : ∃ k' : ℕ, (k' : ℤ) = a.mOffset + 97 + if a.mIsNegative then 0 else 256 :=
      ⟨(a.mOffset + 97 + if a.mIsNegative then 0 else 256).toNat, by split <;> omega⟩
    have hlt : k' < 512 := by split at hk' <;> omega
    rw [toNat_word_issued hnat hzero hk' hlt (by omega)] at hword
    have hkk : k' = k := by omega
    exact ⟨by omega, Or.inr ⟨hzero, ⟨hmin, hmax⟩, ⟨hoff, hoff'⟩, hkk ▸ hk'⟩⟩

/-- **Issued amounts**: the word that is read is the word that is written. -/
theorem readIssued_iff {issue : Issue} (hcur : issue.currency ≠ 0) (hacc : issue.account ≠ 0) (hw : 2 ^ 63 ≤ w.toNat) :
    readIssued issue (w >>> 54).toNat (w &&& ~~~ (1023#64 <<< 54)) = .ok a ↔
      a.mIsNative = false ∧ a.Wire ∧ a.mIssue = issue ∧ a.word = w := by
  have hlt := w.isLt
  obtain ⟨k, hk, hhigh⟩ : ∃ k < 512, (w >>> 54).toNat = 512 + k := ⟨(w >>> 54).toNat - 512, by rw [toNat_high]; omega⟩
  obtain ⟨hsign, hexp⟩ := flags_of_high k hk
  have hlow := toNat_low w
  have hword : w.toNat = (512 + k) * 2 ^ 54 + (w &&& ~~~ (1023#64 <<< 54)).toNat := by
    rw [toNat_high] at hhigh
    omega
  generalize w &&& ~~~ (1023#64 <<< 54) = value at *
  have hv54 : value.toNat < 2 ^ 54 := by omega
  rw [hhigh]
  unfold readIssued
  simp only [hexp]
  constructor
  · intro h
    by_cases hzero : value = 0
    · -- zero: the other bits are clear
      rw [if_neg (not_not.mpr hzero)] at h
      split_ifs at h with hk0
      rw [canonicalize_zero hcur] at h
      obtain rfl := Except.ok.inj h
      refine ⟨rfl, ⟨hcur, hacc, Or.inl ⟨rfl, rfl, rfl⟩⟩, rfl, ?_⟩
      obtain rfl : k = 0 := by omega
      apply BitVec.eq_of_toNat_eq
      rw [hword, hzero]
      rfl
    · rw [if_pos hzero] at h
      split_ifs at h with hrange
      rw [not_or, not_or, not_or, Int.not_lt, Int.not_lt, ← and_assoc, value_in_range_iff, cMinOffset, cMaxOffset] at hrange
      obtain ⟨hval, hoff, hoff'⟩ := hrange
      rw [canonicalize_of_range hcur ((value_in_range_iff value).mpr hval).1 ((value_in_range_iff value).mpr hval).2 hoff hoff'] at h
      obtain rfl := Except.ok.inj h
      refine ⟨rfl, ⟨hcur, hacc, Or.inr ⟨hval.1, hval.2, hoff, hoff'⟩⟩, rfl, ?_⟩
      apply BitVec.eq_of_toNat_eq
      rw [hword]
      refine toNat_word_issued rfl hzero ?_ hk hv54
      simp only [decide_eq_true_eq, hsign]
      split <;> omega
  · rintro ⟨hnat, hwire, rfl, rfl⟩
    obtain ⟨hv, ⟨hzero, hoff, hneg, rfl⟩ | ⟨hzero, hval, hoff, hkoff⟩⟩ := fields_of_word hnat hwire hv54 hword
    · obtain rfl : value = 0 := by
        apply BitVec.eq_of_toNat_eq
        rw [hv, hzero]
      rw [if_neg (by simp), if_neg (by simp), canonicalize_zero hcur]
      exact congrArg Except.ok (STAmount.ext rfl hzero.symm hoff.symm hnat.symm hneg.symm)
    · obtain rfl : value = a.mValue := BitVec.eq_of_toNat_eq hv
      have hoffset : ((k % 256 : ℕ) : ℤ) - 97 = a.mOffset := by split at hkoff <;> omega
      have hnegative : decide ((512 + k) &&& 256 = 0) = a.mIsNegative := by
        rw [Bool.eq_iff_iff, decide_eq_true_eq, hsign]
        split at hkoff <;> simp [*] <;> omega
      have ha : ⟨a.mIssue, a.mValue, a.mOffset, false, a.mIsNegative⟩ = a := STAmount.ext rfl rfl rfl hnat.symm rfl
      obtain ⟨hmin, hmax⟩ := (value_in_range_iff _).mpr hval
      rw [if_pos hzero, hoffset, hnegative, if_neg, ha, canonicalize_of_range hcur hmin hmax hoff.1 hoff.2]
      · exact congrArg Except.ok ha
      · rw [not_or, not_or, not_or, Int.not_lt, Int.not_lt, ← and_assoc, value_in_range_iff]
        exact ⟨hval, hoff.1, hoff.2⟩

/-- **Native amounts**: the word that is read is the word that is written. -/
theorem native_iff (hw : w.toNat < 2 ^ 63) {bytes rest : List UInt8} :
    ((if w &&& cPosNative ≠ 0 then return ⟨⟨0, 0⟩, w &&& ~~~ cPosNative, 0, true, false⟩
      else if w = 0 then throw "negative zero is not canonical"
      else return ⟨⟨0, 0⟩, w, 0, true, true⟩ : Parser STAmount) bytes = .ok (a, rest)) ↔
      a.mIsNative = true ∧ a.Wire ∧ a.word = w ∧ bytes = rest := by
  constructor
  · intro h
    split_ifs at h with hpos hzero
    · obtain ⟨v, hv, rfl⟩ := eq_or_posNative (Nat.le_of_not_lt fun hlt => hpos ((and_posNative_eq_zero_iff hw).mpr hlt)) hw
      rw [or_and_not_posNative hv] at h
      obtain ⟨rfl, rfl⟩ := Prod.mk.inj (Except.ok.inj h)
      exact ⟨rfl, ⟨rfl, rfl, hv, fun _ => rfl⟩, rfl, rfl⟩
    · cases h
    · obtain ⟨rfl, rfl⟩ := Prod.mk.inj (Except.ok.inj h)
      exact ⟨rfl, ⟨rfl, rfl, (and_posNative_eq_zero_iff hw).mp (not_not.mp hpos), fun h0 => absurd h0 hzero⟩, rfl, rfl⟩
  · rintro ⟨hnat, hwire, rfl, rfl⟩
    rw [Wire, if_pos hnat] at hwire
    obtain ⟨hissue, hoff, hlt, hneg⟩ := hwire
    rw [word, if_pos hnat] at hw ⊢
    by_cases hsign : a.mIsNegative = true
    · rw [if_neg (not_not.mpr hsign)] at hw ⊢
      have hzero : a.mValue ≠ 0 := fun h0 => by simp [hneg h0] at hsign
      rw [if_neg (not_not.mpr ((and_posNative_eq_zero_iff hw).mpr hlt)), if_neg hzero]
      exact congrArg (fun x => Except.ok (x, bytes)) (STAmount.ext hissue.symm rfl hoff.symm hnat.symm hsign.symm)
    · rw [if_pos hsign] at hw ⊢
      rw [if_pos, or_and_not_posNative hlt]
      · exact congrArg (fun x => Except.ok (x, bytes))
          (STAmount.ext hissue.symm rfl hoff.symm hnat.symm (Bool.eq_false_iff.mpr hsign).symm)
      · rw [Ne, and_posNative_eq_zero_iff hw, toNat_or_posNative hlt]
        omega

theorem word_lt_of_native (hnat : a.mIsNative = true) (hwire : a.Wire) : a.word.toNat < 2 ^ 63 := by
  rw [Wire, if_pos hnat] at hwire
  rw [word, if_pos hnat]
  split
  · rw [toNat_or_posNative hwire.2.2.1]
    omega
  · omega

theorem le_word_of_issued (hnat : a.mIsNative = false) (hwire : a.Wire) : 2 ^ 63 ≤ a.word.toNat := by
  rw [Wire, if_neg (by simp [hnat])] at hwire
  obtain ⟨-, -, ⟨hval, -⟩ | ⟨hmin, hmax, hoff, hoff'⟩⟩ := hwire
  · rw [word, if_neg (by simp [hnat]), if_pos hval]
    decide
  · have hzero : a.mValue ≠ 0 := by
      intro h
      rw [h] at hmin
      simp at hmin
    have hk : ((a.mOffset + 97 + if a.mIsNegative then 0 else 256).toNat : ℤ) =
        a.mOffset + 97 + if a.mIsNegative then 0 else 256 := by split <;> omega
    rw [toNat_word_issued hnat hzero hk (by split <;> omega) (by omega)]
    omega

theorem issued_iff (hw : 2 ^ 63 ≤ w.toNat) {bytes rest : List UInt8} : (do
      let currency ← get160
      if isSFC currency then throw "invalid native currency"
      else
        let account ← get160
        if isSFC account then throw "invalid native account"
        else readIssued ⟨currency, account⟩ (w >>> 54).toNat (w &&& ~~~ (1023#64 <<< 54)) : Parser STAmount) bytes =
        .ok (a, rest) ↔
      a.mIsNative = false ∧ a.Wire ∧ a.word = w ∧ bytes = add160 a.mIssue.currency ++ add160 a.mIssue.account ++ rest := by
  rw [bind_run]
  constructor
  · rintro ⟨currency, bytes₁, hcur, h⟩
    have hbytes := get160_run.mp hcur
    split_ifs at h with hzero
    · cases h
    obtain ⟨account, bytes₂, hacc, h⟩ := bind_run.mp h
    have hbytes₁ := get160_run.mp hacc
    split_ifs at h with hzero'
    · cases h
    obtain ⟨hread, hrest⟩ := lift_run.mp h
    have hcurrency : (Issue.mk currency account).currency ≠ 0 := by simpa [isSFC] using hzero
    have haccount : (Issue.mk currency account).account ≠ 0 := by simpa [isSFC] using hzero'
    obtain ⟨hnat, hwire, hissue, hword⟩ := (readIssued_iff hcurrency haccount hw).mp hread
    rw [hissue]
    exact ⟨hnat, hwire, hword, by rw [hbytes, hbytes₁, hrest, List.append_assoc]⟩
  · intro h
    obtain ⟨hnat, hwire, hword, hbytes⟩ := h
    have hissued : a.mIssue.currency ≠ 0 ∧ a.mIssue.account ≠ 0 := by
      rw [Wire, if_neg (by simp [hnat])] at hwire
      exact ⟨hwire.1, hwire.2.1⟩
    refine ⟨a.mIssue.currency, add160 a.mIssue.account ++ rest, get160_run.mpr (by rw [hbytes, List.append_assoc]), ?_⟩
    rw [if_neg (by simpa [isSFC] using hissued.1)]
    refine bind_run.mpr ⟨a.mIssue.account, rest, get160_run.mpr rfl, ?_⟩
    rw [if_neg (by simpa [isSFC] using hissued.2)]
    exact lift_run.mpr ⟨(readIssued_iff hissued.1 hissued.2 hw).mpr ⟨hnat, hwire, rfl, hword⟩, rfl⟩

/-- **What is read is exactly what is written.** -/
theorem exact_read : Exact read add Wire := by
  intro bytes a rest
  rw [read, bind_run]
  constructor
  · rintro ⟨w, bytes₁, hw, h⟩
    have hbytes := get64_run.mp hw
    by_cases hnative : w &&& cNotNative = 0
    · rw [if_pos hnative] at h
      obtain ⟨hnat, hwire, hword, hrest⟩ := (native_iff ((and_notNative_eq_zero_iff w).mp hnative)).mp h
      exact ⟨hwire, by rw [hbytes, add, if_pos hnat, hword, hrest]⟩
    · rw [if_neg hnative] at h
      have hw63 := Nat.le_of_not_lt fun hlt => hnative ((and_notNative_eq_zero_iff w).mpr hlt)
      obtain ⟨hnat, hwire, hword, hrest⟩ := (issued_iff hw63).mp h
      exact ⟨hwire, by rw [hbytes, add, if_neg (by simp [hnat]), hword, hrest]; simp only [List.append_assoc]⟩
  · intro h
    obtain ⟨hwire, hbytes⟩ := h
    cases hnat : a.mIsNative with
    | true =>
      have hlt := word_lt_of_native hnat hwire
      refine ⟨a.word, rest, by rw [hbytes, add, if_pos hnat]; exact get64_run.mpr rfl, ?_⟩
      rw [if_pos ((and_notNative_eq_zero_iff _).mpr hlt)]
      exact (native_iff hlt).mpr ⟨hnat, hwire, rfl, rfl⟩
    | false =>
      have hle := le_word_of_issued hnat hwire
      refine ⟨a.word, add160 a.mIssue.currency ++ add160 a.mIssue.account ++ rest, ?_, ?_⟩
      · rw [hbytes, add, if_neg (by simp [hnat]), List.append_assoc, List.append_assoc, List.append_assoc]
        exact get64_run.mpr rfl
      · rw [if_neg fun h => absurd ((and_notNative_eq_zero_iff _).mp h) (Nat.not_lt.mpr hle)]
        exact (issued_iff hle).mpr ⟨hnat, hwire, rfl, rfl⟩

/-- **The wire form of amounts is a bijection**: native amounts below `2 ^ 62` and canonical issued amounts are read back, and
what is accepted is what is written of the amount that is read, so that no amount has two accepted encodings. -/
theorem wire_bijection :
    (∀ a rest, Wire a → read (add a ++ rest) = .ok (a, rest)) ∧
      (∀ bytes a rest, read bytes = .ok (a, rest) → bytes = add a ++ rest) ∧
      ∀ bytes bytes' a, read bytes = .ok (a, []) → read bytes' = .ok (a, []) → bytes = bytes' := by
  have hwrites : ∀ bytes a rest, read bytes = .ok (a, rest) → bytes = add a ++ rest :=
    fun bytes a rest h => ((exact_read bytes a rest).mp h).2
  refine ⟨fun a rest ha => exact_read.read ha rest, hwrites, fun bytes bytes' a h h' => ?_⟩
  rw [hwrites bytes a [] h, hwrites bytes' a [] h']

theorem wire_bijection_least : read (add ⟨⟨1, 2⟩, cMinValue, -96, false, true⟩) = .ok (⟨⟨1, 2⟩, cMinValue, -96, false, true⟩, []) := by
  have h := wire_bijection.1 ⟨⟨1, 2⟩, cMinValue, -96, false, true⟩ []
  rw [List.append_nil] at h
  apply h
  rw [Wire, if_neg (by decide)]
  exact ⟨by decide, by decide, .inr (by decide)⟩

end STAmount

end ScfChain.Protocol
