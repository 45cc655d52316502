import ScfChain.Protocol.AmountText

/-!
# Amounts written and read back

`STAmount::getText` pads the digits of an amount with zeros on both sides, puts the decimal point among them and crops the
zeros that are left over (`plainText`); amounts whose exponent is large are written with it (`scientific`).

* `plainText_spec` : the digits before and after the point are those of the amount without some zeros at its end.
* `text_round_trip` : `amountFromString` reads back every amount, so that different amounts of an issue have different texts.
-/

namespace ScfChain.Protocol

open Data STAmount

/-! ## `getText` -/

/-- `std::to_string` of an `int`. -/
def intText (i : ℤ) : List Char :=
  if i < 0 then '-' :: Nat.toDigits 10 i.natAbs else Nat.toDigits 10 i.natAbs

/-- The digits with a decimal point after the first `offset` of the padded ones. -/
def plainText (raw_value : List Char) (offset : ℕ) : List Char :=
  let val := List.replicate 27 '0' ++ raw_value ++ List.replicate 23 '0'
  let pre := val.take offset
  let post := val.drop offset
  -- crop leading zeros
  let pre := (if 27 < pre.length then pre.drop 27 else pre).dropWhile (· = '0')
  -- crop trailing zeros
  let post := (if 23 < post.length then post.take (post.length - 23) else post).rdropWhile (· = '0')
  (if pre = [] then ['0'] else pre) ++ if post = [] then [] else '.' :: post

namespace STAmount

/-- The exponent is written. -/
def scientific (a : STAmount) : Prop := a.mOffset ≠ 0 ∧ (a.mOffset < -25 ∨ -5 < a.mOffset)

instance (a : STAmount) : Decidable a.scientific := inferInstanceAs (Decidable (_ ∧ _))

def getText (a : STAmount) : List Char :=
  if a.mValue = 0 then ['0']
  else
    let raw_value := Nat.toDigits 10 a.mValue.toNat
    let ret := if a.mIsNegative then ['-'] else []
    if a.mIsNative ∨ a.scientific then
      ret ++ raw_value ++ if a.scientific then 'e' :: intText a.mOffset else []
    else ret ++ plainText raw_value (a.mOffset + 43).toNat

/-- The amounts with a text: native ones that exist, and canonical issued ones. -/
def Printable (a : STAmount) : Prop := a.Native ∧ a.mValue.toNat ≤ 10 ^ 17 ∨ a.Issued

end STAmount

/-! ## Digits -/

theorem digits_toDigits (n : ℕ) : Digits (Nat.toDigits 10 n) :=
  ⟨Nat.toDigits_ne_nil, fun _ hc => Nat.isDigit_of_mem_toDigits (by norm_num) (by norm_num) hc⟩

theorem head_toDigits {n : ℕ} (hn : 0 < n) : (Nat.toDigits 10 n).head? ≠ some '0' := by
  induction n using Nat.strong_induction_on with
  | _ n ih =>
    rw [Nat.toDigits_eq_if (by norm_num)]
    split_ifs with hlt
    · rw [List.head?_cons, ne_eq, Option.some.injEq, Nat.digitChar_eq_zero]
      omega
    · rw [List.head?_append_of_ne_nil _ Nat.toDigits_ne_nil]
      exact ih (n / 10) (by omega) (by omega)

theorem length_toDigits_sixteen {n : ℕ} (h : format.lo ≤ n) (h' : n < 10 * format.lo) : (Nat.toDigits 10 n).length = 16 := by
  have hle : (Nat.toDigits 10 n).length ≤ 16 := (Nat.length_toDigits_le_iff (by norm_num) (by norm_num)).mpr h'
  have hgt : ¬ (Nat.toDigits 10 n).length ≤ 15 := by
    rw [Nat.length_toDigits_le_iff (by norm_num) (by norm_num)]
    exact not_lt.mpr h
  omega

theorem ofDigitChars_zeros_append (k : ℕ) (s : List Char) :
    Nat.ofDigitChars 10 (List.replicate k '0' ++ s) 0 = Nat.ofDigitChars 10 s 0 := by
  rw [Nat.ofDigitChars_append, Nat.ofDigitChars_replicate_zero, Nat.mul_zero]

theorem dropWhile_zeros (s : List Char) : ∃ k, s = List.replicate k '0' ++ s.dropWhile (· = '0') := by
  refine ⟨(s.takeWhile (· = '0')).length, ?_⟩
  rw [← List.eq_replicate_of_mem fun c hc => by simpa using List.mem_takeWhile_imp hc, List.takeWhile_append_dropWhile]

theorem rdropWhile_zeros (s : List Char) : ∃ k, s = s.rdropWhile (· = '0') ++ List.replicate k '0' := by
  refine ⟨(s.rtakeWhile (· = '0')).length, ?_⟩
  rw [← List.eq_replicate_of_mem fun c hc => by simpa using List.mem_rtakeWhile_imp hc, List.rdropWhile_append_rtakeWhile]

/-! ## The plain text -/

theorem plainText_eq {raw l r : List Char} (hlr : l ++ r = List.replicate 27 '0' ++ raw) :
    plainText raw l.length = (if l.dropWhile (· = '0') = [] then ['0'] else l.dropWhile (· = '0')) ++
      if r.rdropWhile (· = '0') = [] then [] else '.' :: r.rdropWhile (· = '0') := by
  have hpre : (if 27 < l.length then l.drop 27 else l).dropWhile (· = '0') = l.dropWhile (· = '0') := by
    split_ifs with h
    · have htake := congrArg (List.take 27) hlr
      rw [List.take_append_of_le_length h.le, List.take_left' List.length_replicate] at htake
      conv_rhs => rw [← List.take_append_drop 27 l, htake, List.dropWhile_append_of_pos (by simp)]
    · rfl
  have hpost : (if 23 < (r ++ List.replicate 23 '0').length then
      (r ++ List.replicate 23 '0').take ((r ++ List.replicate 23 '0').length - 23)
      else r ++ List.replicate 23 '0').rdropWhile (· = '0') = r.rdropWhile (· = '0') := by
    rw [List.length_append, List.length_replicate]
    split_ifs with h
    · rw [Nat.add_sub_cancel, List.take_left' rfl]
    · rw [List.eq_nil_of_length_eq_zero (by omega : r.length = 0)]
      rfl
  unfold plainText
  dsimp only
  rw [← hlr, List.append_assoc, List.take_left' rfl, List.drop_left' rfl, hpre, hpost]

/-- **What is written** before and after the point: the digits of the amount, without `k` zeros at the end. -/
theorem plainText_spec {raw : List Char} (hdigits : Digits raw) (hraw : raw.length = 16) {offset : ℕ} (hmin : 18 ≤ offset)
    (hmax : offset ≤ 43) :
    ∃ (m : Match) (k : ℕ), m.Valid ∧ m.sign = none ∧ m.exponent = none ∧ plainText raw offset = m.text ∧
      m.whole.length + m.fractionDigits.length ≤ 32 ∧ m.mantissa * 10 ^ k = Nat.ofDigitChars 10 raw 0 ∧
      m.fractionDigits.length + k = 43 - offset := by
  have hlen : (List.replicate 27 '0' ++ raw).length = 43 := by simp [hraw]
  have hall : ∀ c ∈ List.replicate 27 '0' ++ raw, c.isDigit = true := by
    intro c hc
    rcases List.mem_append.mp hc with hc | hc
    · rw [List.eq_of_mem_replicate hc]
      rfl
    · exact hdigits.2 c hc
  obtain ⟨l, hl⟩ : ∃ l, l = (List.replicate 27 '0' ++ raw).take offset := ⟨_, rfl⟩
  obtain ⟨r, hr⟩ : ∃ r, r = (List.replicate 27 '0' ++ raw).drop offset := ⟨_, rfl⟩
  have hlr : l ++ r = List.replicate 27 '0' ++ raw := by rw [hl, hr, List.take_append_drop]
  have hllen : l.length = offset := by rw [hl, List.length_take, hlen, min_eq_left hmax]
  have hrlen : r.length = 43 - offset := by rw [hr, List.length_drop, hlen]
  obtain ⟨j, hj⟩ := dropWhile_zeros l
  obtain ⟨k, hk⟩ := rdropWhile_zeros r
  have hprelen : (l.dropWhile (· = '0')).length ≤ offset - 27 := by
    rw [hl, List.take_append, List.length_replicate, List.take_replicate,
      List.dropWhile_append_of_pos (by simp)]
    refine (List.length_dropWhile_le _ _).trans ?_
    rw [List.length_take]
    omega
  rw [← hllen, plainText_eq hlr]
  have hhead : ∀ c ∈ (l.dropWhile (· = '0')).head?, c ≠ '0' := by
    have hnot := List.head?_dropWhile_not (· = '0') l
    intro c hc
    rw [hc] at hnot
    simpa using hnot
  have hldigits : ∀ c ∈ l.dropWhile (· = '0'), c.isDigit = true := fun c hc =>
    hall c (hlr ▸ List.mem_append_left r ((List.dropWhile_suffix _).subset hc))
  have hrdigits : ∀ c ∈ r.rdropWhile (· = '0'), c.isDigit = true := fun c hc =>
    hall c (hlr ▸ List.mem_append_right l ((List.rdropWhile_prefix _ _).subset hc))
  -- the digits that are cropped are zeros before and after the number
  have hvalue : Nat.ofDigitChars 10 (l.dropWhile (· = '0') ++ r.rdropWhile (· = '0')) 0 * 10 ^ k =
      Nat.ofDigitChars 10 raw 0 := by
    rw [← ofDigitChars_zeros_append 27 raw, ← hlr]
    conv_rhs =>
      rw [hj, hk, List.append_assoc, ofDigitChars_zeros_append, ← List.append_assoc, Nat.ofDigitChars_append,
        Nat.ofDigitChars_replicate_zero]
    rw [Nat.mul_comm]
  have hrlen' := congrArg List.length hk
  rw [List.length_append, List.length_replicate] at hrlen'
  generalize l.dropWhile (· = '0') = pre at *
  generalize r.rdropWhile (· = '0') = post at *
  obtain ⟨whole, hwhole⟩ : ∃ whole, whole = if pre = [] then ['0'] else pre := ⟨_, rfl⟩
  obtain ⟨fraction, hfraction⟩ : ∃ f, f = if post = [] then none else some post := ⟨_, rfl⟩
  have hpost : fraction.getD [] = post := by
    rw [hfraction]
    split_ifs with h
    · exact h.symm
    · rfl
  have hwholeLen : whole.length ≤ 1 + (offset - 27) := by
    rw [hwhole]
    split_ifs with h
    · simp
    · omega
  refine ⟨⟨none, whole, fraction, none⟩, k, ⟨by simp, ?_, ?_, by simp⟩, rfl, rfl, ?_, ?_, ?_, ?_⟩
  · dsimp only
    rw [hwhole]
    split_ifs with h
    · exact .inl rfl
    · exact .inr ⟨⟨h, hldigits⟩, fun hzero => hhead '0' hzero rfl⟩
  · intro f hf
    dsimp only at hf
    rw [hfraction] at hf
    split_ifs at hf with h
    · simp at hf
    · obtain rfl := Option.some.inj hf
      exact ⟨h, hrdigits⟩
  · rw [Match.text, ← hwhole, hfraction]
    dsimp only
    rw [Option.toList_none, List.nil_append, exponentText, List.append_nil]
    split_ifs
    · rfl
    · rfl
  · rw [Match.fractionDigits]
    dsimp only
    rw [hpost]
    omega
  · rw [Match.mantissa, Match.fractionDigits]
    dsimp only
    rw [hpost, ← hvalue, hwhole]
    split_ifs with h
    · rw [h, List.nil_append, show ['0'] = List.replicate 1 '0' from rfl, ofDigitChars_zeros_append]
    · rfl
  · rw [Match.fractionDigits]
    dsimp only
    rw [hpost]
    omega

/-! ## The round trip -/

/-- The sign goes before the rest. -/
def Match.withSign (m : Match) (negative : Bool) : Match := { m with sign := if negative then some '-' else none }

theorem Match.withSign_valid {m : Match} (h : m.Valid) (negative : Bool) : (m.withSign negative).Valid := by
  refine ⟨fun c hc => ?_, h.whole, h.fraction, h.exponent⟩
  cases negative with
  | false => simp [withSign] at hc
  | true =>
    obtain rfl : '-' = c := by simpa [withSign] using hc
    exact .inr rfl

theorem Match.withSign_text {m : Match} (h : m.sign = none) (negative : Bool) :
    (if negative then ['-'] else []) ++ m.text = (m.withSign negative).text := by
  cases negative with
  | false => simp [withSign, text, h]
  | true => simp [withSign, text, h]

theorem Match.scan_of_fits {m : Match} (hm : m.Valid) {issue : Issue} (amount : List Char)
    (hlen : m.whole.length + m.fractionDigits.length ≤ 32) (hfrac : issue.currency = 0 → m.fraction = none)
    (hmant : m.mantissa < 2 ^ 64) (hexp : ∀ x ∈ m.exponent, Nat.ofDigitChars 10 x.2.2 0 < 2 ^ 30) :
    m.scan issue amount = .ok (m.mantissa, m.scale) := by
  have hexponent : m.scanExponent (-m.fractionDigits.length) = .ok m.scale := by
    unfold scanExponent scale power
    cases hx : m.exponent with
    | none =>
      rw [Option.elim_none, zero_sub]
    | some x =>
      obtain ⟨c, sign, digits⟩ := x
      have hlt := hexp _ hx
      dsimp only at hlt ⊢
      rw [lexicalCastThrow_of_le (hm.exponent _ hx).2.2 (by dsimp only; omega), ok_bind, Option.elim_some]
      dsimp only
      generalize Nat.ofDigitChars 10 digits 0 = n at *
      by_cases hsign : sign = some '-'
      · rw [if_pos hsign, if_pos hsign, wrapInt_of_le (by omega) (by omega)]
        exact congrArg Except.ok (by ring)
      · rw [if_neg hsign, if_neg hsign, wrapInt_of_le (by omega) (by omega)]
        exact congrArg Except.ok (by ring)
  have hnot : ¬ (isSFC issue.currency = true ∧ m.fraction.isSome = true) := by
    rintro ⟨hsfc, hsome⟩
    rw [hfrac (by simpa [isSFC] using hsfc)] at hsome
    cases hsome
  rw [scan, if_neg (by omega), if_neg hnot, lexicalCastThrow_of_le hm.digits (by unfold mantissa at hmant; omega), ok_bind, hexponent,
    ok_bind]
  rfl

/-- The digits as they are, and the exponent if it is written. -/
theorem digits_match {a : STAmount} (hpos : 0 < a.mValue.toNat) (h : a.scientific ∨ a.mOffset = 0) :
    ∃ m : Match, m.Valid ∧ m.sign = none ∧ m.whole = Nat.toDigits 10 a.mValue.toNat ∧ m.fraction = none ∧
      m.text = Nat.toDigits 10 a.mValue.toNat ++ (if a.scientific then 'e' :: intText a.mOffset else []) ∧
      m.scale = a.mOffset ∧ ∀ x ∈ m.exponent, Nat.ofDigitChars 10 x.2.2 0 = a.mOffset.natAbs := by
  by_cases hsci : a.scientific
  · refine ⟨⟨none, Nat.toDigits 10 a.mValue.toNat, none,
      some ('e', if a.mOffset < 0 then some '-' else none, Nat.toDigits 10 a.mOffset.natAbs)⟩,
      ⟨by simp, .inr ⟨digits_toDigits _, head_toDigits hpos⟩, by simp, ?_⟩, rfl, rfl, rfl, ?_, ?_, ?_⟩
    · rintro _ ⟨⟩
      refine ⟨.inl rfl, fun c hc => ?_, digits_toDigits _⟩
      dsimp only at hc
      split_ifs at hc
      · obtain rfl := Option.some.inj hc
        exact .inr rfl
      · simp at hc
    · rw [if_pos hsci, Match.text]
      unfold exponentText intText
      dsimp only
      split_ifs
      · rfl
      · rfl
    · rw [Match.scale, Match.power, Match.fractionDigits, Option.elim_some, Nat.ofDigitChars_ten_toDigits]
      by_cases hneg : a.mOffset < 0
      · rw [if_pos (if_pos hneg), Option.getD_none, List.length_nil]
        omega
      · rw [if_neg (by simp [hneg]), Option.getD_none, List.length_nil]
        omega
    · rintro _ ⟨⟩
      exact Nat.ofDigitChars_ten_toDigits
  · refine ⟨⟨none, Nat.toDigits 10 a.mValue.toNat, none, none⟩,
      ⟨by simp, .inr ⟨digits_toDigits _, head_toDigits hpos⟩, by simp, by simp⟩, rfl, rfl, rfl, ?_, ?_, by simp⟩
    · rw [if_neg hsci]
      rfl
    · rw [h.resolve_left hsci]
      rfl

namespace STAmount

/-- The text after the sign. -/
theorem getText_unsigned {a : STAmount} (ha : a.Printable) (hzero : a.mValue ≠ 0) :
    ∃ (m : Match) (k : ℕ), m.Valid ∧ m.sign = none ∧ a.getText = (if a.mIsNegative then ['-'] else []) ++ m.text ∧
      m.whole.length + m.fractionDigits.length ≤ 32 ∧ (a.mIssue.currency = 0 → m.fraction = none) ∧
      (∀ x ∈ m.exponent, Nat.ofDigitChars 10 x.2.2 0 < 2 ^ 30) ∧ m.mantissa * 10 ^ k = a.mValue.toNat ∧
      m.scale - k = a.mOffset ∧ (a.mIsNative = true → k = 0) := by
  have hoffset : a.mIsNative = true ∧ a.mOffset = 0 ∨ a.Issued ∧ format.Normal a.mValue.toNat a.mOffset :=
    ha.imp (fun h => ⟨h.1.native, h.1.offset⟩) fun h => ⟨h, h.value.resolve_left fun h' => hzero h'.1⟩
  unfold getText
  rw [if_neg hzero]
  dsimp only
  by_cases hplain : a.mIsNative = true ∨ a.scientific
  · obtain ⟨m, hvalid, hsign, hwhole, hfraction, htext, hscale, hexp⟩ := digits_match
      (Nat.pos_of_ne_zero (mt toNat_eq_zero_iff.mp hzero))
      (hoffset.elim (fun h => .inr h.2) fun h => .inl (hplain.resolve_left (by simp [h.1.native])))
    have hdigits : m.fractionDigits = [] := by rw [Match.fractionDigits, hfraction]; rfl
    refine ⟨m, 0, hvalid, hsign, ?_, ?_, fun _ => hfraction, fun x hx => ?_, ?_, ?_, fun _ => rfl⟩
    · rw [if_pos hplain, htext, List.append_assoc]
    · rw [hwhole, hdigits]
      exact (Nat.length_toDigits_le_iff (by norm_num) (by norm_num)).mpr (by have := a.mValue.isLt; omega)
    · rw [hexp x hx]
      rcases hoffset with ⟨-, h⟩ | ⟨-, h⟩
      · rw [h]
        norm_num
      · have hmin : -96 ≤ a.mOffset := h.min
        have hmax : a.mOffset ≤ 80 := h.max
        omega
    · rw [Match.mantissa, hwhole, hdigits, List.append_nil, Nat.ofDigitChars_ten_toDigits, pow_zero, Nat.mul_one]
    · rw [Nat.cast_zero, sub_zero, hscale]
  · -- a decimal point among the digits
    rw [if_neg hplain]
    push Not at hplain
    obtain ⟨hissued, hnormal⟩ := hoffset.resolve_left fun h => hplain.1 h.1
    have hrange : 18 ≤ (a.mOffset + 43).toNat ∧ (a.mOffset + 43).toNat ≤ 43 ∧ ((a.mOffset + 43).toNat : ℤ) = a.mOffset + 43 := by
      have hsci := hplain.2
      unfold scientific at hsci
      omega
    obtain ⟨m, k, hvalid, hsign, hexp, htext, hlen, hmant, hk⟩ := plainText_spec (digits_toDigits a.mValue.toNat)
      (length_toDigits_sixteen hnormal.le hnormal.lt) hrange.1 hrange.2.1
    refine ⟨m, k, hvalid, hsign, by rw [htext], hlen, fun h => absurd h hissued.currency, by simp [hexp], ?_, ?_,
      fun h => absurd h hplain.1⟩
    · rw [hmant, Nat.ofDigitChars_ten_toDigits]
    · rw [Match.scale, Match.power, hexp, Option.elim_none, zero_sub]
      omega

/-- **The match of a text.** Its mantissa is that of the amount without some zeros at the end, with the exponent that
belongs to it. -/
theorem getText_match {a : STAmount} (ha : a.Printable) (hzero : a.mValue ≠ 0) :
    ∃ (m : Match) (k : ℕ), m.Valid ∧ a.getText = m.text ∧ (m.sign = some '-' ↔ a.mIsNegative = true) ∧
      m.scan a.mIssue a.getText = .ok (m.mantissa, m.scale) ∧ m.mantissa * 10 ^ k = a.mValue.toNat ∧ m.scale - k = a.mOffset ∧
      (a.mIsNative = true → k = 0) := by
  obtain ⟨m, k, hvalid, hsign, htext, hlen, hfraction, hexp, hmant, hscale, hk⟩ := getText_unsigned ha hzero
  have hle : m.mantissa ≤ a.mValue.toNat := by
    rw [← hmant]
    exact Nat.le_mul_of_pos_right _ (Nat.pow_pos (by norm_num))
  refine ⟨m.withSign a.mIsNegative, k, Match.withSign_valid hvalid _, ?_, ?_, ?_, hmant, hscale, hk⟩
  · rw [htext, Match.withSign_text hsign]
  · cases a.mIsNegative <;> simp [Match.withSign]
  · exact Match.scan_of_fits (Match.withSign_valid hvalid _) _ hlen hfraction (hle.trans_lt a.mValue.isLt) hexp

/-- **What is written is read back.** -/
theorem amountFromString_getText {a : STAmount} (ha : a.Printable) : amountFromString a.mIssue a.getText = .ok a := by
  by_cases hzero : a.mValue = 0
  · have hvalid : (Match.mk none ['0'] none none).Valid := ⟨by simp, .inl rfl, by simp, by simp⟩
    have hscan : (Match.mk none ['0'] none none).scan a.mIssue ['0'] = .ok (0, 0) :=
      Match.scan_of_fits hvalid ['0'] (by decide) (fun _ => rfl) (by decide) (by simp)
    have hread : amountFromString a.mIssue ['0'] = _ := amountFromString_of_scan hvalid rfl hscan
    rw [getText, if_pos hzero, hread]
    rcases ha with ⟨hnative, -⟩ | hissued
    · rw [canonicalize_native _ _ (w := 0) hnative.currency (by norm_num) rfl, if_neg (by norm_num)]
      refine congrArg Except.ok (STAmount.ext rfl hzero.symm hnative.offset.symm hnative.native.symm ?_)
      simp [hnative.zero hzero]
    · rw [canonicalize_issued hissued.currency]
      obtain ⟨-, hoffset, hneg⟩ := hissued.value.resolve_right fun h => by
        have := format.lo_pos
        have := h.le
        rw [hzero] at this
        simp at this
        omega
      refine congrArg Except.ok (STAmount.ext rfl hzero.symm hoffset.symm hissued.native.symm ?_)
      rw [hneg]
      simp [ofNormal]
  · obtain ⟨m, k, hvalid, htext, hsign, hscan, hmant, hscale, hk⟩ := getText_match ha hzero
    have hpos : a.mValue.toNat ≠ 0 := mt toNat_eq_zero_iff.mp hzero
    have hofNat : BitVec.ofNat 64 a.mValue.toNat = a.mValue := by rw [BitVec.ofNat_toNat, BitVec.setWidth_eq]
    have hlt : m.mantissa < 2 ^ 64 := ((m.scan_eq_ok hvalid hscan).2).1
    have hneg : decide (m.sign = some '-') = a.mIsNegative := by
      rw [Bool.eq_iff_iff, decide_eq_true_iff]
      exact hsign
    rw [amountFromString_of_scan hvalid htext hscan, hneg]
    rcases ha with ⟨hnative, hle⟩ | hissued
    · obtain rfl := hk hnative.native
      rw [pow_zero, Nat.mul_one] at hmant
      rw [Nat.cast_zero, sub_zero, hnative.offset] at hscale
      rw [hmant, hscale, canonicalize_native _ _ (w := a.mValue.toNat) hnative.currency a.mValue.isLt
        (by simpa using (Nat.mod_eq_of_lt a.mValue.isLt).symm), if_neg (not_lt.mpr hle), hofNat]
      refine congrArg Except.ok (STAmount.ext rfl rfl hnative.offset.symm hnative.native.symm ?_)
      simp [hpos]
    · have hnormal : format.Normal (m.mantissa * 10 ^ k) (m.scale - k) := by
        rw [hmant, hscale]
        exact hissued.value.resolve_left fun h => hzero h.1
      rw [canonicalize_issued hissued.currency, BitVec.toNat_ofNat, Nat.mod_eq_of_lt hlt, Format.normalize_of_shift hnormal,
        Option.elim_some, hmant, hscale]
      refine congrArg Except.ok (STAmount.ext rfl hofNat rfl hissued.native.symm ?_)
      simp [ofNormal, hpos]

/-- **The text of an amount** stands for it alone. -/
theorem text_round_trip :
    (∀ a : STAmount, a.Printable → amountFromString a.mIssue a.getText = .ok a) ∧
      ∀ a b : STAmount, a.Printable → b.Printable → a.mIssue = b.mIssue → a.getText = b.getText → a = b := by
  refine ⟨fun a => amountFromString_getText, fun a b ha hb hissue htext => ?_⟩
  have hread := amountFromString_getText ha
  rw [hissue, htext, amountFromString_getText hb] at hread
  exact (Except.ok.inj hread).symm

/-- A third, with the decimal point among the digits, and an amount in scientific notation. -/
theorem text_round_trip_third :
    getText ⟨⟨1, 1⟩, 3333333333333333, -16, false, true⟩ = "-0.3333333333333333".toList ∧
      amountFromString ⟨1, 1⟩ "-0.3333333333333333".toList = .ok ⟨⟨1, 1⟩, 3333333333333333, -16, false, true⟩ ∧
      getText ⟨⟨1, 1⟩, 1000000000000000, 80, false, false⟩ = "1000000000000000e80".toList ∧
      amountFromString ⟨1, 1⟩ "1000000000000000e80".toList = .ok ⟨⟨1, 1⟩, 1000000000000000, 80, false, false⟩ := by
  have hthird : getText ⟨⟨1, 1⟩, 3333333333333333, -16, false, true⟩ = "-0.3333333333333333".toList := by decide +kernel
  have hlarge : getText ⟨⟨1, 1⟩, 1000000000000000, 80, false, false⟩ = "1000000000000000e80".toList := by decide +kernel
  have hissued : Issued ⟨⟨1, 1⟩, 3333333333333333, -16, false, true⟩ := by decide
  have hissued' : Issued ⟨⟨1, 1⟩, 1000000000000000, 80, false, false⟩ := by decide
  refine ⟨hthird, ?_, hlarge, ?_⟩
  · rw [← hthird]
    exact text_round_trip.1 _ (.inr hissued)
  · rw [← hlarge]
    exact text_round_trip.1 _ (.inr hissued')

end STAmount

end ScfChain.Protocol
