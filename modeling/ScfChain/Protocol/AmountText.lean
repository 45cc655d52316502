import ScfChain.Protocol.AmountValue
import ScfChain.Protocol.NumberText

/-!
# The text of amounts

`amountFromString` matches the text, reads mantissa and exponent (`Match.scan`) and leaves the range to `canonicalize`.

* `Match.value` : the number a text stands for.
* `amountFromString_iff` : exactly which texts are read as the number they stand for, or refused.
-/

namespace ScfChain.Protocol

open Data STAmount

/-! ## Reading -/

/-- `beast::lexicalCastThrow` of text that has digits only. -/
def lexicalCastThrow (max : ℕ) (s : List Char) : Except String ℕ :=
  (parsePositiveIntegral max s).elim (.error "std::bad_cast") .ok

/-- A number as an `int` holds it: additions wrap. -/
def wrapInt (x : ℤ) : ℤ := x.bmod (2 ^ 32)

namespace Match

def fractionDigits (m : Match) : List Char := m.fraction.getD []

/-- The exponent, from that of the fraction on. -/
def scanExponent (m : Match) (exponent : ℤ) : Except String ℤ :=
  match m.exponent with
  | none => .ok exponent
  | some (_, sign, digits) => do
    let n ← lexicalCastThrow (2 ^ 31 - 1) digits
    return wrapInt (if sign = some '-' then exponent - n else exponent + n)

/-- Mantissa and exponent. -/
def scan (m : Match) (issue : Issue) (amount : List Char) : Except String (ℕ × ℤ) :=
  if 32 < m.whole.length + m.fractionDigits.length then .error ("Number '" ++ String.ofList amount ++ "' is overlong")
  else if isSFC issue.currency ∧ m.fraction.isSome then .error "SFC must be specified in integral drops."
  else do
    let mantissa ← lexicalCastThrow (2 ^ 64 - 1) (m.whole ++ m.fractionDigits)
    let exponent ← m.scanExponent (-m.fractionDigits.length)
    return (mantissa, exponent)

end Match

def amountFromString (issue : Issue) (amount : List Char) : Except String STAmount :=
  match reNumber amount with
  | none => .error ("Number '" ++ String.ofList amount ++ "' is not valid")
  | some m => do
    let scanned ← m.scan issue amount
    canonicalize ⟨issue, BitVec.ofNat 64 scanned.1, scanned.2, false, m.sign = some '-'⟩

/-! ## What a text stands for -/

namespace Match

/-- The digits before and after the period as one number. -/
def mantissa (m : Match) : ℕ := Nat.ofDigitChars 10 (m.whole ++ m.fractionDigits) 0

/-- The exponent that is written, with its sign. -/
def power (m : Match) : ℤ :=
  m.exponent.elim 0 fun x => if x.2.1 = some '-' then -Nat.ofDigitChars 10 x.2.2 0 else Nat.ofDigitChars 10 x.2.2 0

/-- The unit of the last digit is this power of ten. -/
def scale (m : Match) : ℤ := m.power - m.fractionDigits.length

/-- The number. -/
def value (m : Match) : ℚ := (if m.sign = some '-' then -1 else 1) * (m.mantissa * 10 ^ m.scale)

end Match

/-- The digits after the sixteenth significant one are dropped; what is below the least issued amount is zero. -/
def Truncated (x y : ℚ) : Prop :=
  |x| < 10 ^ 15 * 10 ^ (-96 : ℤ) ∧ y = 0 ∨
    ∃ n e, format.Normal n e ∧ Between n e |x| ∧ y = if x < 0 then -(n * 10 ^ e : ℚ) else n * 10 ^ e

/-- The text is refused, or it is read as the number it stands for: exactly if the currency is native, and up to sixteen
digits otherwise. -/
structure ReadsExactly (issue : Issue) (amount : List Char) : Prop where
  value : ∀ a, amountFromString issue amount = .ok a → ∃ m : Match, m.Valid ∧ amount = m.text ∧ a.mIssue = issue ∧
    if issue.currency = 0 then a.val = m.value else Truncated m.value a.val
  /-- Fractions of a drop and more than the largest native amount are refused. -/
  refuses : ∀ m : Match, m.Valid → amount = m.text → issue.currency = 0 →
    (∀ drops : ℤ, m.value ≠ drops) ∨ 10 ^ 17 < |m.value| → ∃ what, amountFromString issue amount = .error what

/-- A mantissa and an exponent of native currency for which `canonicalize` loses something: a digit that is dropped, or the
part of a product above 64 bits, if what remains is in range. -/
def Lossy (n : ℕ) (e : ℤ) : Prop :=
  e < 0 ∧ n % 10 ^ (-e).toNat ≠ 0 ∧ n / 10 ^ (-e).toNat ≤ 10 ^ 17 ∨
    0 < e ∧ 2 ^ 64 ≤ n * 10 ^ e.toNat ∧ n * 10 ^ e.toNat % 2 ^ 64 ≤ 10 ^ 17

/-! ## `scan` -/

theorem lexicalCastThrow_eq_ok {max n : ℕ} {s : List Char} (hs : Digits s) (h : lexicalCastThrow max s = .ok n) :
    n = Nat.ofDigitChars 10 s 0 ∧ n ≤ max := by
  rw [lexicalCastThrow, parsePositiveIntegral_eq hs] at h
  split_ifs at h with hle
  · obtain rfl := Except.ok.inj h
    exact ⟨rfl, hle⟩
  · cases h

theorem lexicalCastThrow_of_le {max : ℕ} {s : List Char} (hs : Digits s) (h : Nat.ofDigitChars 10 s 0 ≤ max) :
    lexicalCastThrow max s = .ok (Nat.ofDigitChars 10 s 0) := by
  rw [lexicalCastThrow, parsePositiveIntegral_eq hs, if_pos h]
  rfl

theorem wrapInt_of_le {x : ℤ} (hmin : -2 ^ 31 ≤ x) (hmax : x < 2 ^ 31) : wrapInt x = x := by
  apply Int.bmod_eq_of_le <;> omega

theorem wrapInt_of_lt {x : ℤ} (hmin : -2 ^ 32 ≤ x) (hmax : x < -2 ^ 31) : wrapInt x = x + 2 ^ 32 := by
  rw [wrapInt, ← Int.add_bmod_right]
  apply Int.bmod_eq_of_le <;> omega

theorem Match.Valid.digits {m : Match} (h : m.Valid) : Digits (m.whole ++ m.fractionDigits) := by
  have hwhole : Digits m.whole := by
    rcases h.whole with hw | hw
    · rw [hw]
      exact ⟨by simp, by simp⟩
    · exact hw.1
  refine ⟨by simp [hwhole.1], fun c hc => ?_⟩
  rcases List.mem_append.mp hc with hc | hc
  · exact hwhole.2 c hc
  · unfold fractionDigits at hc
    cases hf : m.fraction with
    | none => simp [hf] at hc
    | some f =>
      rw [hf, Option.getD_some] at hc
      exact (h.fraction f hf).2 c hc

/-- **What `scan` finds.** The exponent is the scale, except that one that is too small comes out large. -/
theorem Match.scan_eq_ok {m : Match} (hm : m.Valid) {issue : Issue} {amount : List Char} {n : ℕ} {e : ℤ}
    (h : m.scan issue amount = .ok (n, e)) :
    n = m.mantissa ∧ n < 2 ^ 64 ∧ (isSFC issue.currency → m.fraction = none) ∧
      (e = m.scale ∨ m.fraction ≠ none ∧ 2 ^ 30 ≤ e) := by
  unfold scan at h
  split_ifs at h with hlong hfrac
  obtain ⟨n', hn, h⟩ := bind_ok.mp h
  obtain ⟨e', he, h⟩ := bind_ok.mp h
  obtain ⟨rfl, rfl⟩ := Prod.mk.inj (Except.ok.inj h)
  obtain ⟨hn', hle⟩ := lexicalCastThrow_eq_ok hm.digits hn
  refine ⟨hn', by omega, fun hsfc => ?_, ?_⟩
  · by_contra hne
    exact hfrac ⟨hsfc, Option.isSome_iff_ne_none.mpr hne⟩
  · unfold scanExponent at he
    unfold scale power
    cases hx : m.exponent with
    | none =>
      rw [hx] at he
      rw [Option.elim_none, ← Except.ok.inj he, zero_sub]
      exact .inl rfl
    | some x =>
      obtain ⟨c, sign, digits⟩ := x
      rw [hx] at he
      obtain ⟨k, hk, he⟩ := bind_ok.mp he
      obtain ⟨hk', hkmax⟩ := lexicalCastThrow_eq_ok (hm.exponent _ hx).2.2 hk
      have he' := Except.ok.inj he
      rw [Option.elim_some]
      dsimp only
      rw [← hk', ← he']
      have hlen : m.fraction = none → m.fractionDigits.length = 0 := fun hf => by rw [fractionDigits, hf]; rfl
      generalize m.fractionDigits.length = l at *
      by_cases hsign : sign = some '-'
      · rw [if_pos hsign, if_pos hsign]
        by_cases hsmall : -(l : ℤ) - k < -2 ^ 31
        · refine .inr ⟨fun hf => ?_, ?_⟩
          · have := hlen hf
            omega
          · rw [wrapInt_of_lt (by omega) hsmall]
            omega
        · rw [wrapInt_of_le (by omega) (by omega)]
          left
          ring
      · rw [if_neg hsign, if_neg hsign, wrapInt_of_le (by omega) (by omega)]
        left
        ring

/-! ## Issued currency -/

theorem val_ofNormal_signed {issue : Issue} {negative : Bool} {p : ℕ × ℤ} (hp : p.1 < 2 ^ 64) :
    (ofNormal issue negative p).val = (if negative then -1 else 1) * (p.1 * 10 ^ p.2) := by
  simp only [val, ofNormal, BitVec.toNat_ofNat, Nat.mod_eq_of_lt hp]
  by_cases hzero : p.1 = 0
  · simp [hzero]
  · simp [hzero]

theorem truncated_of_normalize (issue : Issue) (negative : Bool) {n : ℕ} {e : ℤ} {p : ℕ × ℤ}
    (h : format.normalize n e = some p) :
    Truncated ((if negative then -1 else 1) * (n * 10 ^ e)) (ofNormal issue negative p).val := by
  have hnonneg : (0 : ℚ) ≤ n * 10 ^ e := mul_nonneg (Nat.cast_nonneg n) (ten_zpow_pos e).le
  have habs : |(if negative = true then (-1 : ℚ) else 1) * (n * 10 ^ e)| = n * 10 ^ e := by
    cases negative <;> simp [abs_of_nonneg hnonneg]
  rw [val_ofNormal_signed (normalize_lt h), Truncated, habs]
  rcases Format.normalize_cases h with ⟨hzero, -, hsmall⟩ | ⟨hnormal, hbetween⟩
  · left
    refine ⟨by exact_mod_cast hsmall, ?_⟩
    rw [hzero, Nat.cast_zero, zero_mul, mul_zero]
  · right
    refine ⟨p.1, p.2, hnormal, hbetween, ?_⟩
    have hone : (0 : ℚ) < p.1 := by exact_mod_cast lt_of_lt_of_le format.lo_pos hnormal.le
    have hpos : (0 : ℚ) < n * 10 ^ e := (mul_pos hone (ten_zpow_pos _)).trans_le hbetween.1
    cases negative with
    | false => rw [if_neg Bool.false_ne_true, one_mul, one_mul, if_neg (not_lt.mpr hnonneg)]
    | true => rw [if_pos rfl, neg_one_mul, neg_one_mul, if_pos (neg_lt_zero.mpr hpos)]

theorem normalize_of_large {n : ℕ} {e : ℤ} {p : ℕ × ℤ} (he : 2 ^ 30 ≤ e) (h : format.normalize n e = some p) : n = 0 := by
  by_contra hn
  have hone : (1 : ℚ) ≤ n := by exact_mod_cast Nat.one_le_iff_ne_zero.mpr hn
  have hlarge : (10 : ℚ) ^ (97 : ℤ) ≤ n * 10 ^ e := by
    have := ten_zpow_le (show (97 : ℤ) ≤ e by omega)
    have := ten_zpow_pos e
    nlinarith
  rcases Format.normalize_cases h with ⟨-, -, hsmall⟩ | ⟨hnormal, hbetween⟩
  · have hle : (format.lo : ℚ) * 10 ^ format.emin ≤ 10 ^ (97 : ℤ) := by
      rw [Format.lo_mul_emin]
      exact ten_zpow_le (by decide)
    linarith
  · have hlt : (p.1 : ℚ) + 1 ≤ 10 ^ 16 := by exact_mod_cast Nat.succ_le_of_lt hnormal.lt
    have hexp := ten_zpow_le hnormal.max
    have hupper : ((p.1 : ℚ) + 1) * 10 ^ p.2 ≤ 10 ^ 16 * 10 ^ format.emax :=
      mul_le_mul hlt hexp (ten_zpow_pos _).le (by positivity)
    have hmax : (10 : ℚ) ^ 16 * 10 ^ format.emax < 10 ^ (97 : ℤ) := by
      rw [show format.emax = 80 from rfl]
      norm_num
    linarith [hbetween.2]

/-! ## Native currency -/

theorem drops_eq_iff {n w : ℕ} {e : ℤ} (hn : n < 2 ^ 64)
    (hw : w = n / 10 ^ (-e).toNat * 10 ^ e.toNat % 2 ^ 64) (hle : w ≤ 10 ^ 17) :
    (w : ℚ) = n * 10 ^ e ↔ ¬ Lossy n e := by
  unfold Lossy
  rcases lt_trichotomy e 0 with he | rfl | he
  · obtain ⟨k, hk⟩ : ∃ k : ℕ, e = -k := ⟨(-e).toNat, by omega⟩
    have hk' : (-e).toNat = k := by omega
    have hzero : e.toNat = 0 := by omega
    have hdiv : n / 10 ^ k ≤ n := Nat.div_le_self n (10 ^ k)
    rw [hk', hzero, pow_zero, mul_one, Nat.mod_eq_of_lt (by omega)] at hw
    have hpow : (10 : ℚ) ^ k ≠ 0 := by positivity
    rw [hk, zpow_neg, zpow_natCast, eq_mul_inv_iff_mul_eq₀ hpow, neg_neg, Int.toNat_natCast]
    have hdm := Nat.div_add_mod n (10 ^ k)
    rw [← hw, Nat.mul_comm] at hdm
    constructor
    · rintro heq (⟨-, hne, -⟩ | ⟨hpos, -⟩)
      · have heq' : w * 10 ^ k = n := by exact_mod_cast heq
        exact hne (by omega)
      · omega
    · intro hnot
      have hmod : n % 10 ^ k = 0 := by
        by_contra hne
        exact hnot (.inl ⟨by omega, hne, by rw [← hw]; exact hle⟩)
      have heq : w * 10 ^ k = n := by omega
      exact_mod_cast heq
  · rw [neg_zero, Int.toNat_zero, pow_zero, Nat.div_one, mul_one, Nat.mod_eq_of_lt hn] at hw
    rw [hw]
    simp
  · obtain ⟨k, rfl⟩ : ∃ k : ℕ, e = k := ⟨e.toNat, by omega⟩
    rw [show (-(k : ℤ)).toNat = 0 by omega, pow_zero, Nat.div_one, Int.toNat_natCast] at hw
    rw [zpow_natCast, Int.toNat_natCast]
    constructor
    · rintro heq (⟨hneg, -⟩ | ⟨-, hwrap, -⟩)
      · omega
      · have heq' : w = n * 10 ^ k := by exact_mod_cast heq
        have := Nat.mod_lt (n * 10 ^ k) (show 0 < 2 ^ 64 by norm_num)
        omega
    · intro hnot
      have hlt : n * 10 ^ k < 2 ^ 64 := by
        by_contra hge
        exact hnot (.inr ⟨he, not_lt.mp hge, by rw [← hw]; exact hle⟩)
      rw [Nat.mod_eq_of_lt hlt] at hw
      exact_mod_cast hw

/-- **Native amounts**: zero, or what is left of the digits, if it is in range. -/
theorem canonicalize_native (native negative : Bool) {issue : Issue} {n : ℕ} {e : ℤ} (hcur : issue.currency = 0)
    (hn : n < 2 ^ 64) {w : ℕ} (hw : w = n / 10 ^ (-e).toNat * 10 ^ e.toNat % 2 ^ 64) :
    canonicalize ⟨issue, BitVec.ofNat 64 n, e, native, negative⟩ =
      if 10 ^ 17 < w then .error "Native currency amount out of range"
      else .ok ⟨issue, BitVec.ofNat 64 w, 0, true, negative && n ≠ 0⟩ := by
  have hofNat : (BitVec.ofNat 64 n).toNat = n := by rw [BitVec.toNat_ofNat, Nat.mod_eq_of_lt hn]
  unfold canonicalize
  rw [if_pos (by simpa [isSFC] using hcur)]
  by_cases hzero : n = 0
  · have hw0 : w = 0 := by rw [hw, hzero]; simp
    simp [canonicalizeNative, hw0, hzero]
  · have hne : BitVec.ofNat 64 n ≠ 0 := fun h => hzero (by rw [← hofNat, h]; rfl)
    rw [canonicalizeNative_eq (w := w) hne (by rw [hofNat]; exact hw)]
    simp [hzero]

theorem val_native {issue : Issue} {negative : Bool} {n w : ℕ} (hw : w < 2 ^ 64) (hzero : n = 0 → w = 0) :
    val ⟨issue, BitVec.ofNat 64 w, 0, true, negative && n ≠ 0⟩ = (if negative then -1 else 1) * (w : ℚ) := by
  simp only [val, BitVec.toNat_ofNat, Nat.mod_eq_of_lt hw, zpow_zero, mul_one]
  by_cases hn : n = 0
  · simp [hzero hn]
  · simp [hn]

/-! ## Which texts are read exactly -/

variable {issue : Issue} {amount : List Char} {a : STAmount} {m : Match} {n : ℕ} {e : ℤ}

theorem amountFromString_of_scan (hm : m.Valid) (htext : amount = m.text) (hscan : m.scan issue amount = .ok (n, e)) :
    amountFromString issue amount = canonicalize ⟨issue, BitVec.ofNat 64 n, e, false, m.sign = some '-'⟩ := by
  rw [amountFromString, reNumber_eq_some_iff.mpr ⟨hm, htext⟩]
  dsimp only
  rw [hscan]
  rfl

theorem amountFromString_eq_ok (h : amountFromString issue amount = .ok a) :
    ∃ (m : Match) (n : ℕ) (e : ℤ), m.Valid ∧ amount = m.text ∧ m.scan issue amount = .ok (n, e) ∧
      canonicalize ⟨issue, BitVec.ofNat 64 n, e, false, m.sign = some '-'⟩ = .ok a := by
  cases hre : reNumber amount with
  | none =>
    rw [amountFromString, hre] at h
    cases h
  | some m =>
    rw [amountFromString, hre] at h
    obtain ⟨⟨n, e⟩, hscan, hcanon⟩ := bind_ok.mp h
    obtain ⟨hm, htext⟩ := reNumber_eq_some_iff.mp hre
    exact ⟨m, n, e, hm, htext, hscan, hcanon⟩

theorem Match.Valid.eq_of_text {m' : Match} (hm : m.Valid) (hm' : m'.Valid) (h : m.text = m'.text) : m = m' := by
  have hre := reNumber_eq_some_iff.mpr ⟨hm, rfl⟩
  rw [h, reNumber_eq_some_iff.mpr ⟨hm', rfl⟩] at hre
  exact (Option.some.inj hre).symm

theorem issued_truncated (hcur : issue.currency ≠ 0) (hm : m.Valid) (hscan : m.scan issue amount = .ok (n, e))
    (h : canonicalize ⟨issue, BitVec.ofNat 64 n, e, false, m.sign = some '-'⟩ = .ok a) :
    a.mIssue = issue ∧ Truncated m.value a.val := by
  obtain ⟨rfl, hn, -, he⟩ := m.scan_eq_ok hm hscan
  rw [canonicalize_issued hcur, BitVec.toNat_ofNat, Nat.mod_eq_of_lt hn] at h
  cases hp : format.normalize m.mantissa e with
  | none =>
    rw [hp] at h
    cases h
  | some p =>
    rw [hp, Option.elim_some] at h
    obtain rfl := Except.ok.inj h
    refine ⟨rfl, ?_⟩
    have htrunc := truncated_of_normalize issue (m.sign = some '-') hp
    have hvalue : m.value = (if decide (m.sign = some '-') = true then -1 else 1) * (m.mantissa * 10 ^ e) := by
      rcases he with he | ⟨-, he⟩
      · rw [Match.value, he]
        simp
      · rw [Match.value, normalize_of_large he hp]
        simp
    rw [hvalue]
    exact htrunc

theorem native_exact_iff (hcur : issue.currency = 0) (hm : m.Valid) (hscan : m.scan issue amount = .ok (n, e))
    (h : canonicalize ⟨issue, BitVec.ofNat 64 n, e, false, m.sign = some '-'⟩ = .ok a) :
    a.mIssue = issue ∧ (∃ drops : ℤ, a.val = drops ∧ |drops| ≤ 10 ^ 17) ∧ (a.val = m.value ↔ ¬ Lossy n e) := by
  obtain ⟨hmant, hn, hfrac, he⟩ := m.scan_eq_ok hm hscan
  have hscale : e = m.scale := he.resolve_right fun h => h.1 (hfrac (by simp [isSFC, hcur]))
  obtain ⟨w, hw⟩ : ∃ w, w = n / 10 ^ (-e).toNat * 10 ^ e.toNat % 2 ^ 64 := ⟨_, rfl⟩
  rw [canonicalize_native _ _ hcur hn hw] at h
  split_ifs at h with hover
  have hle := not_lt.mp hover
  obtain rfl := Except.ok.inj h
  have hzero : n = 0 → w = 0 := fun h0 => by rw [hw, h0]; simp
  rw [val_native (by omega) hzero, ← drops_eq_iff hn hw hle, Match.value, ← hmant, ← hscale]
  have hle' : (w : ℤ) ≤ 10 ^ 17 := by exact_mod_cast hle
  by_cases hsign : m.sign = some '-'
  · refine ⟨rfl, ⟨-w, by simp [hsign], by simpa using hle'⟩, ?_⟩
    simp [hsign]
  · refine ⟨rfl, ⟨w, by simp [hsign], by simpa using hle'⟩, ?_⟩
    simp [hsign]

/-- **Reading amounts.** A text is refused or read as the number it stands for, except that native amounts may lose digits
that a negative exponent drops, or wrap around in 64 bits. -/
theorem amountFromString_iff (issue : Issue) (amount : List Char) :
    ReadsExactly issue amount ↔
      ¬ (issue.currency = 0 ∧ ∃ m n e, reNumber amount = some m ∧ m.scan issue amount = .ok (n, e) ∧ Lossy n e) := by
  constructor
  · rintro ⟨hvalue, -⟩ ⟨hcur, m, n, e, hre, hscan, hlossy⟩
    obtain ⟨hm, htext⟩ := reNumber_eq_some_iff.mp hre
    obtain ⟨-, hn, -⟩ := m.scan_eq_ok hm hscan
    obtain ⟨w, hw⟩ : ∃ w, w = n / 10 ^ (-e).toNat * 10 ^ e.toNat % 2 ^ 64 := ⟨_, rfl⟩
    have hread := amountFromString_of_scan hm htext hscan
    -- what remains is in range, so it is not refused
    have hle : w ≤ 10 ^ 17 := by
      rcases hlossy with ⟨he, -, hle⟩ | ⟨he, -, hle⟩
      · rw [show e.toNat = 0 by omega, pow_zero, mul_one] at hw
        exact hw.trans_le ((Nat.mod_le _ _).trans hle)
      · rw [show (-e).toNat = 0 by omega, pow_zero, Nat.div_one] at hw
        exact hw.trans_le hle
    have hcanon := canonicalize_native false (m.sign = some '-') hcur hn hw
    rw [if_neg (not_lt.mpr hle)] at hcanon
    obtain ⟨m', hm', htext', -, hval⟩ := hvalue _ (hread.trans hcanon)
    rw [if_pos hcur, ← hm.eq_of_text hm' (htext.symm.trans htext')] at hval
    exact (native_exact_iff hcur hm hscan hcanon).2.2.mp hval hlossy
  · intro hnot
    have hexact : ∀ a, amountFromString issue amount = .ok a → ∃ m : Match, m.Valid ∧ amount = m.text ∧ a.mIssue = issue ∧
        if issue.currency = 0 then a.val = m.value else Truncated m.value a.val := by
      intro a ha
      obtain ⟨m, n, e, hm, htext, hscan, hcanon⟩ := amountFromString_eq_ok ha
      by_cases hcur : issue.currency = 0
      · obtain ⟨hissue, -, hiff⟩ := native_exact_iff hcur hm hscan hcanon
        refine ⟨m, hm, htext, hissue, ?_⟩
        rw [if_pos hcur, hiff]
        exact fun hlossy => hnot ⟨hcur, m, n, e, reNumber_eq_some_iff.mpr ⟨hm, htext⟩, hscan, hlossy⟩
      · obtain ⟨hissue, htrunc⟩ := issued_truncated hcur hm hscan hcanon
        refine ⟨m, hm, htext, hissue, ?_⟩
        rw [if_neg hcur]
        exact htrunc
    refine ⟨hexact, fun m hm htext hcur hbad => ?_⟩
    cases hr : amountFromString issue amount with
    | error what => exact ⟨what, rfl⟩
    | ok a =>
      exfalso
      obtain ⟨m', n, e, hm', htext', hscan, hcanon⟩ := amountFromString_eq_ok hr
      obtain ⟨-, ⟨drops, hdrops, hle⟩, -⟩ := native_exact_iff hcur hm' hscan hcanon
      obtain ⟨m₁, hm₁, htext₁, -, hval⟩ := hexact a hr
      rw [if_pos hcur, ← hm.eq_of_text hm₁ (htext.symm.trans htext₁)] at hval
      rcases hbad with hfraction | hlarge
      · exact hfraction drops (hval.symm.trans hdrops)
      · rw [← hval, hdrops] at hlarge
        exact absurd hlarge (not_lt.mpr (by exact_mod_cast hle))

/-- One and a half drops are read as one drop, and more drops than there are as none. -/
theorem amountFromString_loses :
    amountFromString ⟨0, 0⟩ "15e-1".toList = .ok ⟨⟨0, 0⟩, 1, 0, true, false⟩ ∧
      amountFromString ⟨0, 0⟩ "1e64".toList = .ok ⟨⟨0, 0⟩, 0, 0, true, false⟩ ∧
      reNumber "15e-1".toList = some ⟨none, ['1', '5'], none, some ('e', some '-', ['1'])⟩ ∧
      Match.value ⟨none, ['1', '5'], none, some ('e', some '-', ['1'])⟩ = 3 / 2 := by
  refine ⟨by decide +kernel, by decide +kernel, by decide +kernel, ?_⟩
  have hmant : Match.mantissa ⟨none, ['1', '5'], none, some ('e', some '-', ['1'])⟩ = 15 := by decide
  have hscale : Match.scale ⟨none, ['1', '5'], none, some ('e', some '-', ['1'])⟩ = -1 := by decide
  rw [Match.value, hmant, hscale, if_neg (by simp)]
  norm_num

end ScfChain.Protocol
