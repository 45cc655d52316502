import Mathlib

/-!
# Numbers in text

The regular expression `reNumber` of `amountFromString` and `beast::lexicalCast`, which reads the digits it finds.

* `Match` : the groups of a match; `Match.text` is the text that has them.
* `reNumber_eq_some_iff` : a text has at most one match, and the matches are the valid ones of this text.
* `parsePositiveIntegral_eq` : `lexicalCast` reads the number, or refuses one that does not fit.
-/

namespace ScfChain.Protocol

/-! ## `beast::lexicalCast` -/

/-- The loop of `parse_integral` with the accumulator of `parse_positive_integral`. -/
def parseIntegral (max : ℕ) : List Char → ℕ → Option ℕ
  | [], num => some num
  | c :: s, num =>
    if c.isDigit then
      let digit := c.toNat - '0'.toNat
      if max / 10 < num ∨ num = max / 10 ∧ max % 10 < digit then none
      else parseIntegral max s (num * 10 + digit)
    else none

def parsePositiveIntegral (max : ℕ) (s : List Char) : Option ℕ :=
  if s = [] then none else parseIntegral max s 0

/-- A number is written in decimal digits. -/
def Digits (s : List Char) : Prop := s ≠ [] ∧ ∀ c ∈ s, c.isDigit = true

variable {c : Char} {s d r : List Char} {x : Option (Char × Option Char × List Char)}

theorem digit_lt_ten (h : c.isDigit = true) : c.toNat - '0'.toNat < 10 := by
  simp only [Char.isDigit, Bool.and_eq_true, decide_eq_true_eq, ge_iff_le, UInt32.le_iff_toNat_le] at h
  obtain ⟨-, hle⟩ := h
  change c.toNat ≤ 57 at hle
  change c.toNat - 48 < 10
  omega

theorem le_ofDigitChars (s : List Char) (n : ℕ) : n ≤ Nat.ofDigitChars 10 s n := by
  rw [Nat.ofDigitChars_eq_ofDigitChars_zero]
  exact le_add_right (Nat.le_mul_of_pos_left n (Nat.pow_pos (by norm_num)))

theorem parseIntegral_eq {max : ℕ} (hs : ∀ c ∈ s, c.isDigit = true) (n : ℕ) (hn : n ≤ max) :
    parseIntegral max s n = if Nat.ofDigitChars 10 s n ≤ max then some (Nat.ofDigitChars 10 s n) else none := by
  induction s generalizing n with
  | nil => rw [parseIntegral, Nat.ofDigitChars_nil, if_pos hn]
  | cons c s ih =>
    have hc := hs c List.mem_cons_self
    have hdigit := digit_lt_ten hc
    rw [parseIntegral, if_pos hc, Nat.ofDigitChars_cons, Nat.mul_comm 10 n]
    dsimp only
    generalize c.toNat - '0'.toNat = d at *
    have hiff : (max / 10 < n ∨ n = max / 10 ∧ max % 10 < d) ↔ max < n * 10 + d := by omega
    by_cases hover : max < n * 10 + d
    · have hle := le_ofDigitChars s (n * 10 + d)
      rw [if_pos (hiff.mpr hover), if_neg (by omega)]
    · rw [if_neg (mt hiff.mp hover)]
      exact ih (fun x hx => hs x (List.mem_cons_of_mem c hx)) _ (not_lt.mp hover)

theorem parsePositiveIntegral_eq {max : ℕ} (hs : Digits s) :
    parsePositiveIntegral max s = if Nat.ofDigitChars 10 s 0 ≤ max then some (Nat.ofDigitChars 10 s 0) else none := by
  rw [parsePositiveIntegral, if_neg hs.1, parseIntegral_eq hs.2 0 (Nat.zero_le max)]

/-! ## `reNumber` -/

/-- The groups of a match: the sign (1), the integer portion (2), the fraction without the period (4), and the letter, the
sign (6) and the digits (7) of the exponent. -/
@[ext]
structure Match where
  sign : Option Char
  whole : List Char
  fraction : Option (List Char)
  exponent : Option (Char × Option Char × List Char)
  deriving DecidableEq

/-- `[-+]?` -/
def matchSign : List Char → Option Char × List Char
  | '+' :: s => (some '+', s)
  | '-' :: s => (some '-', s)
  | s => (none, s)

/-- `[0-9]+` -/
def matchDigits (s : List Char) : Option (List Char × List Char) :=
  if s.takeWhile Char.isDigit = [] then none else some (s.takeWhile Char.isDigit, s.dropWhile Char.isDigit)

/-- `(0|[1-9][0-9]*)` -/
def matchWhole : List Char → Option (List Char × List Char)
  | '0' :: s => some (['0'], s)
  | s => matchDigits s

/-- `(\.([0-9]+))?`. Nothing else in the expression matches a period. -/
def matchFraction : List Char → Option (Option (List Char) × List Char)
  | '.' :: s => (matchDigits s).map fun p => (some p.1, p.2)
  | s => some (none, s)

/-- `([eE]([+-]?)([0-9]+))?`, with the letter `c`. -/
def matchExponentOf (c : Char) (s : List Char) : Option (Option (Char × Option Char × List Char) × List Char) :=
  (matchDigits (matchSign s).2).map fun p => (some (c, (matchSign s).1, p.1), p.2)

def matchExponent : List Char → Option (Option (Char × Option Char × List Char) × List Char)
  | 'e' :: s => matchExponentOf 'e' s
  | 'E' :: s => matchExponentOf 'E' s
  | s => some (none, s)

/-- `boost::regex_match` with `reNumber`. -/
def reNumber (s : List Char) : Option Match := do
  let (whole, s') ← matchWhole (matchSign s).2
  let (fraction, s') ← matchFraction s'
  let (exponent, s') ← matchExponent s'
  if s' = [] then some ⟨(matchSign s).1, whole, fraction, exponent⟩ else none

/-- The text of a fraction, and of an exponent. -/
def fractionText : Option (List Char) → List Char
  | none => []
  | some f => '.' :: f

def exponentText : Option (Char × Option Char × List Char) → List Char
  | none => []
  | some (c, sign, digits) => c :: (sign.toList ++ digits)

/-- The text with the groups of the match. -/
def Match.text (m : Match) : List Char :=
  m.sign.toList ++ (m.whole ++ (fractionText m.fraction ++ exponentText m.exponent))

def IsSign (c : Char) : Prop := c = '+' ∨ c = '-'

/-- What the groups of a match can be. -/
structure Match.Valid (m : Match) : Prop where
  sign : ∀ c ∈ m.sign, IsSign c
  whole : m.whole = ['0'] ∨ Digits m.whole ∧ m.whole.head? ≠ some '0'
  fraction : ∀ f ∈ m.fraction, Digits f
  exponent : ∀ x ∈ m.exponent, (x.1 = 'e' ∨ x.1 = 'E') ∧ (∀ c ∈ x.2.1, IsSign c) ∧ Digits x.2.2

/-! ## A text has one match -/

theorem matchSign_spec (s : List Char) :
    s = (matchSign s).1.toList ++ (matchSign s).2 ∧ ∀ c ∈ (matchSign s).1, IsSign c := by
  unfold matchSign
  split
  · exact ⟨rfl, by rintro c ⟨⟩; exact .inl rfl⟩
  · exact ⟨rfl, by rintro c ⟨⟩; exact .inr rfl⟩
  · exact ⟨rfl, by simp⟩

theorem matchSign_append {sign : Option Char} (hsign : ∀ c ∈ sign, IsSign c)
    (hs : ∀ c ∈ s.head?, ¬ IsSign c) : matchSign (sign.toList ++ s) = (sign, s) := by
  cases sign with
  | none =>
    rw [Option.toList_none, List.nil_append]
    unfold matchSign
    split
    · exact absurd (Or.inl rfl) (hs '+' rfl)
    · exact absurd (Or.inr rfl) (hs '-' rfl)
    · rfl
  | some c =>
    rcases hsign c rfl with rfl | rfl
    · rfl
    · rfl

theorem matchDigits_eq_some (h : matchDigits s = some (d, r)) : Digits d ∧ s = d ++ r := by
  unfold matchDigits at h
  split_ifs at h with hd
  obtain ⟨rfl, rfl⟩ := Prod.mk.inj (Option.some.inj h)
  exact ⟨⟨hd, fun c hc => List.mem_takeWhile_imp hc⟩, (List.takeWhile_append_dropWhile).symm⟩

theorem matchDigits_append (hd : Digits d) (hr : ∀ c ∈ r.head?, c.isDigit = false) :
    matchDigits (d ++ r) = some (d, r) := by
  have htake : r.takeWhile Char.isDigit = [] := by
    cases r with
    | nil => rfl
    | cons c r => rw [List.takeWhile_cons, hr c rfl, if_neg Bool.false_ne_true]
  have hdrop : r.dropWhile Char.isDigit = r := by
    cases r with
    | nil => rfl
    | cons c r => rw [List.dropWhile_cons, hr c rfl, if_neg Bool.false_ne_true]
  have htake' : (d ++ r).takeWhile Char.isDigit = d := by
    rw [List.takeWhile_append_of_pos hd.2, htake, List.append_nil]
  have hdrop' : (d ++ r).dropWhile Char.isDigit = r := by rw [List.dropWhile_append_of_pos hd.2, hdrop]
  rw [matchDigits, htake', hdrop', if_neg hd.1]

theorem matchWhole_eq_some (h : matchWhole s = some (d, r)) :
    (d = ['0'] ∨ Digits d ∧ d.head? ≠ some '0') ∧ s = d ++ r := by
  unfold matchWhole at h
  split at h
  · obtain ⟨rfl, rfl⟩ := Prod.mk.inj (Option.some.inj h)
    exact ⟨.inl rfl, rfl⟩
  · next hzero =>
    obtain ⟨hd, rfl⟩ := matchDigits_eq_some h
    refine ⟨.inr ⟨hd, fun hhead => ?_⟩, rfl⟩
    obtain ⟨t, rfl⟩ := List.head?_eq_some_iff.mp hhead
    exact hzero (t ++ r) rfl

theorem matchWhole_append (hd : d = ['0'] ∨ Digits d ∧ d.head? ≠ some '0')
    (hr : ∀ c ∈ r.head?, c.isDigit = false) : matchWhole (d ++ r) = some (d, r) := by
  rcases hd with rfl | ⟨hd, hhead⟩
  · rfl
  · obtain ⟨c, t, rfl⟩ := List.exists_cons_of_ne_nil hd.1
    rw [← matchDigits_append hd hr]
    unfold matchWhole
    split
    · next h =>
      rw [List.cons_append, List.cons.injEq] at h
      exact absurd (congrArg some h.1) hhead
    · rfl

theorem matchFraction_eq_some {f : Option (List Char)} (h : matchFraction s = some (f, r)) :
    (∀ d ∈ f, Digits d) ∧ s = fractionText f ++ r := by
  unfold matchFraction at h
  split at h
  · obtain ⟨p, hp, heq⟩ := Option.map_eq_some_iff.mp h
    obtain ⟨rfl, rfl⟩ := Prod.mk.inj heq
    obtain ⟨hd, rfl⟩ := matchDigits_eq_some hp
    exact ⟨by rintro d ⟨⟩; exact hd, rfl⟩
  · obtain ⟨rfl, rfl⟩ := Prod.mk.inj (Option.some.inj h)
    exact ⟨by simp, rfl⟩

theorem matchFraction_append {f : Option (List Char)} (hf : ∀ d ∈ f, Digits d)
    (hr : ∀ c ∈ r.head?, c.isDigit = false ∧ c ≠ '.') : matchFraction (fractionText f ++ r) = some (f, r) := by
  cases f with
  | none =>
    change matchFraction r = _
    unfold matchFraction
    split
    · exact absurd rfl (hr '.' rfl).2
    · rfl
  | some d =>
    change (matchDigits (d ++ r)).map _ = _
    rw [matchDigits_append (hf d rfl) fun c hc => (hr c hc).1]
    rfl

theorem matchExponentOf_eq_some (h : matchExponentOf c s = some (x, r)) :
    ∃ sign d, x = some (c, sign, d) ∧ (∀ c ∈ sign, IsSign c) ∧ Digits d ∧ c :: s = exponentText x ++ r := by
  obtain ⟨p, hp, heq⟩ := Option.map_eq_some_iff.mp h
  obtain ⟨rfl, rfl⟩ := Prod.mk.inj heq
  obtain ⟨hd, hs⟩ := matchDigits_eq_some hp
  obtain ⟨htext, hsign⟩ := matchSign_spec s
  refine ⟨_, _, rfl, hsign, hd, ?_⟩
  rw [exponentText, List.cons_append, List.append_assoc, ← hs, ← htext]

theorem matchExponent_eq_some (h : matchExponent s = some (x, r)) :
    (∀ y ∈ x, (y.1 = 'e' ∨ y.1 = 'E') ∧ (∀ c ∈ y.2.1, IsSign c) ∧ Digits y.2.2) ∧ s = exponentText x ++ r := by
  unfold matchExponent at h
  split at h
  · obtain ⟨sign, d, rfl, hsign, hd, hs⟩ := matchExponentOf_eq_some h
    exact ⟨by rintro y ⟨⟩; exact ⟨.inl rfl, hsign, hd⟩, hs⟩
  · obtain ⟨sign, d, rfl, hsign, hd, hs⟩ := matchExponentOf_eq_some h
    exact ⟨by rintro y ⟨⟩; exact ⟨.inr rfl, hsign, hd⟩, hs⟩
  · obtain ⟨rfl, rfl⟩ := Prod.mk.inj (Option.some.inj h)
    exact ⟨by simp, rfl⟩

theorem Digits.head (hd : Digits d) : ∀ c ∈ (d ++ r).head?, c.isDigit = true := by
  obtain ⟨c, t, rfl⟩ := List.exists_cons_of_ne_nil hd.1
  rintro _ ⟨⟩
  exact hd.2 c List.mem_cons_self

theorem not_isSign_of_isDigit (h : c.isDigit = true) : ¬ IsSign c := by
  rintro (rfl | rfl)
  · exact absurd h (by decide)
  · exact absurd h (by decide)

theorem matchExponent_text (hx : ∀ y ∈ x, (y.1 = 'e' ∨ y.1 = 'E') ∧ (∀ c ∈ y.2.1, IsSign c) ∧ Digits y.2.2) :
    matchExponent (exponentText x) = some (x, []) := by
  cases x with
  | none => rfl
  | some y =>
    obtain ⟨c, sign, d⟩ := y
    obtain ⟨hc, hsign, hd⟩ := hx _ rfl
    have hhead : ∀ c ∈ d.head?, ¬ IsSign c := fun c hc => not_isSign_of_isDigit (hd.2 c (List.mem_of_mem_head? hc))
    have hdigits := matchDigits_append (r := []) hd (by simp)
    rw [List.append_nil] at hdigits
    have hof : matchExponentOf c (sign.toList ++ d) = some (some (c, sign, d), []) := by
      rw [matchExponentOf, matchSign_append hsign hhead, hdigits]
      rfl
    rcases hc with rfl | rfl
    · exact hof
    · exact hof

/-- **A text has one match at most**, and it has it if it is the text of a valid one. -/
theorem reNumber_eq_some_iff {m : Match} : reNumber s = some m ↔ m.Valid ∧ s = m.text := by
  constructor
  · intro h
    unfold reNumber at h
    obtain ⟨⟨whole, s₁⟩, hwhole, h⟩ := Option.bind_eq_some_iff.mp h
    obtain ⟨⟨fraction, s₂⟩, hfraction, h⟩ := Option.bind_eq_some_iff.mp h
    obtain ⟨⟨exponent, s₃⟩, hexponent, h⟩ := Option.bind_eq_some_iff.mp h
    dsimp only at h hfraction hexponent
    split_ifs at h with hend
    obtain rfl := Option.some.inj h
    obtain ⟨htext, hsign⟩ := matchSign_spec s
    obtain ⟨hw, hs₁⟩ := matchWhole_eq_some hwhole
    obtain ⟨hf, hs₂⟩ := matchFraction_eq_some hfraction
    obtain ⟨hx, hs₃⟩ := matchExponent_eq_some hexponent
    refine ⟨⟨hsign, hw, hf, hx⟩, ?_⟩
    rw [hend, List.append_nil] at hs₃
    conv_lhs => rw [htext, hs₁, hs₂, hs₃]
    rfl
  · rintro ⟨⟨hsign, hwhole, hfraction, hexponent⟩, rfl⟩
    -- what follows a part cannot be read as more of it
    have hexp : ∀ c ∈ (exponentText m.exponent).head?, c.isDigit = false ∧ c ≠ '.' := by
      cases hx : m.exponent with
      | none => simp [exponentText]
      | some y =>
        rintro c ⟨⟩
        rcases (hexponent y hx).1 with h | h
        · rw [h]
          decide
        · rw [h]
          decide
    have hfrac : ∀ c ∈ (fractionText m.fraction ++ exponentText m.exponent).head?, c.isDigit = false := by
      cases m.fraction with
      | none => exact fun c hc => (hexp c hc).1
      | some f =>
        rintro c ⟨⟩
        rfl
    have hdigits : Digits m.whole := by
      rcases hwhole with h | h
      · rw [h]
        exact ⟨by simp, by simp⟩
      · exact h.1
    unfold reNumber Match.text
    rw [matchSign_append hsign fun c hc => not_isSign_of_isDigit (hdigits.head c hc)]
    dsimp only
    rw [matchWhole_append hwhole hfrac, Option.bind_eq_bind, Option.bind_some]
    dsimp only
    rw [matchFraction_append hfraction hexp, Option.bind_eq_bind, Option.bind_some]
    dsimp only
    rw [matchExponent_text hexponent, Option.bind_eq_bind, Option.bind_some]
    exact if_pos rfl

end ScfChain.Protocol
