import Mathlib

/-!
# Numerals in a base, and their conversion in place

Digits stand most significant first.

* `value b l` : the number of a numeral; `leading l` : the number of zeroes at its front. The two determine a numeral
  (`eq_of_leading_of_value`).
* `mulAdd b m c buf` : the buffer of base `b` times `m` plus `c`, from the last digit to the first, with the carry that is
  left (`mulAdd_spec`).
* `convert b m size l` : the numeral `l` of base `m` in a buffer of `size` digits of base `b`; no carry is left if the
  numeral fits (`convert_spec`).
* `recode b m size l` : the same with the zeroes at the front kept and none of the buffer's.
-/

namespace ScfChain.Data

variable {b m c size : ℕ} {l l' : List ℕ}

/-! ## Numerals -/

def value (b : ℕ) (l : List ℕ) : ℕ := Nat.ofDigits b l.reverse

def trim (l : List ℕ) : List ℕ := l.dropWhile (· == 0)

def leading (l : List ℕ) : ℕ := (l.takeWhile (· == 0)).length

/-- Every digit is one of the base `b`. -/
def Below (b : ℕ) (l : List ℕ) : Prop := ∀ d ∈ l, d < b

@[simp]
theorem value_nil (b : ℕ) : value b [] = 0 := by simp [value]

theorem value_append (b : ℕ) (l l' : List ℕ) : value b (l ++ l') = value b l * b ^ l'.length + value b l' := by
  rw [value, List.reverse_append, Nat.ofDigits_append, List.length_reverse]
  simp only [value]
  ring

theorem value_cons (b d : ℕ) (l : List ℕ) : value b (d :: l) = d * b ^ l.length + value b l := by
  have h := value_append b [d] l
  simpa [value] using h

theorem value_concat (b d : ℕ) (l : List ℕ) : value b (l ++ [d]) = value b l * b + d := by
  rw [value_append]
  simp [value]

theorem value_replicate_zero (b n : ℕ) : value b (List.replicate n 0) = 0 := by
  induction n with
  | zero => simp
  | succ n ih => rw [List.replicate_succ, value_cons, ih, zero_mul]

theorem value_lt (hb : 1 < b) (h : Below b l) : value b l < b ^ l.length := by
  have hlt := Nat.ofDigits_lt_base_pow_length hb (fun d hd => h d (List.mem_reverse.mp hd))
  rwa [List.length_reverse] at hlt

theorem replicate_leading_append_trim (l : List ℕ) : List.replicate (leading l) 0 ++ trim l = l := by
  have hzero : l.takeWhile (· == 0) = List.replicate (leading l) 0 := by
    apply List.eq_replicate_of_mem
    intro d hd
    simpa using List.mem_takeWhile_imp hd
  rw [← hzero]
  exact List.takeWhile_append_dropWhile

theorem value_trim (b : ℕ) (l : List ℕ) : value b (trim l) = value b l := by
  conv_rhs => rw [← replicate_leading_append_trim l, value_append, value_replicate_zero, zero_mul, zero_add]

theorem Below.trim (h : Below b l) : Below b (trim l) := fun d hd => h d ((List.dropWhile_suffix _).subset hd)

theorem reverse_trim (hb : 1 < b) (h : Below b l) : (trim l).reverse = Nat.digits b (value b l) := by
  rw [← value_trim]
  refine (Nat.digits_ofDigits b hb _ (fun d hd => h.trim d (List.mem_reverse.mp hd)) ?_).symm
  intro hne
  rw [List.getLast_reverse]
  exact beq_eq_false_iff_ne.mp (List.head_dropWhile_not (· == 0) (List.reverse_ne_nil_iff.mp hne))

theorem eq_of_leading_of_value (hb : 1 < b) (h : Below b l) (h' : Below b l') (hlead : leading l = leading l')
    (hvalue : value b l = value b l') : l = l' := by
  have htrim : trim l = trim l' := by
    apply List.reverse_injective
    rw [reverse_trim hb h, reverse_trim hb h', hvalue]
  rw [← replicate_leading_append_trim l, ← replicate_leading_append_trim l', hlead, htrim]

theorem leading_replicate_append_trim (n : ℕ) (l : List ℕ) : leading (List.replicate n 0 ++ trim l) = n := by
  have hnone : (trim l).takeWhile (· == 0) = [] := by
    induction l with
    | nil => rfl
    | cons d l ih =>
      by_cases hd : d = 0
      · simpa [trim, hd] using ih
      · simp [trim, hd]
  unfold leading
  rw [List.takeWhile_append_of_pos]
  · rw [hnone]
    simp
  · intro d hd
    simp [List.eq_of_mem_replicate hd]

/-! ## Multiplication in place -/

/-- One digit of the buffer: the carry is from the digits after it. -/
def mulAddDigit (b m digit : ℕ) (s : ℕ × List ℕ) : ℕ × List ℕ := ((s.1 + m * digit) / b, (s.1 + m * digit) % b :: s.2)

/-- `buf * m + c`: the carry that is left, and the buffer. -/
def mulAdd (b m c : ℕ) (buf : List ℕ) : ℕ × List ℕ := buf.foldr (mulAddDigit b m) (c, [])

theorem mulAdd_length (b m c : ℕ) (buf : List ℕ) : (mulAdd b m c buf).2.length = buf.length := by
  induction buf with
  | nil => rfl
  | cons d buf ih => simpa [mulAdd, mulAddDigit] using ih

theorem mulAdd_below (hb : 0 < b) (m c : ℕ) (buf : List ℕ) : Below b (mulAdd b m c buf).2 := by
  induction buf with
  | nil => simp [mulAdd, Below]
  | cons d buf ih =>
    intro e he
    obtain rfl | he := List.mem_cons.mp he
    · exact Nat.mod_lt _ hb
    · exact ih e he

theorem mulAdd_spec (b m c : ℕ) (buf : List ℕ) :
    (mulAdd b m c buf).1 * b ^ buf.length + value b (mulAdd b m c buf).2 = value b buf * m + c := by
  induction buf with
  | nil => simp [mulAdd]
  | cons d buf ih =>
    change (mulAddDigit b m d (mulAdd b m c buf)).1 * _ + value b (mulAddDigit b m d (mulAdd b m c buf)).2 = _
    unfold mulAddDigit
    rw [value_cons, value_cons, mulAdd_length, List.length_cons, pow_succ]
    have hdiv := Nat.div_add_mod ((mulAdd b m c buf).1 + m * d) b
    calc ((mulAdd b m c buf).1 + m * d) / b * (b ^ buf.length * b) +
          (((mulAdd b m c buf).1 + m * d) % b * b ^ buf.length + value b (mulAdd b m c buf).2)
        = (b * (((mulAdd b m c buf).1 + m * d) / b) + ((mulAdd b m c buf).1 + m * d) % b) * b ^ buf.length +
          value b (mulAdd b m c buf).2 := by ring
      _ = m * d * b ^ buf.length + ((mulAdd b m c buf).1 * b ^ buf.length + value b (mulAdd b m c buf).2) := by
          rw [hdiv]
          ring
      _ = (d * b ^ buf.length + value b buf) * m + c := by
          rw [ih]
          ring

theorem mulAdd_carry {buf : List ℕ} (h : value b buf * m + c < b ^ buf.length) : (mulAdd b m c buf).1 = 0 := by
  have hspec := mulAdd_spec b m c buf
  by_contra hne
  have hle : b ^ buf.length ≤ (mulAdd b m c buf).1 * b ^ buf.length := Nat.le_mul_of_pos_left _ (Nat.pos_of_ne_zero hne)
  omega

/-! ## Conversion -/

/-- The numeral `l` of base `m`, digit by digit, in a buffer of `size` digits of base `b`. -/
def convert (b m size : ℕ) (l : List ℕ) : List ℕ :=
  l.foldl (fun buf d => (mulAdd b m d buf).2) (List.replicate size 0)

theorem convert_concat (b m size : ℕ) (l : List ℕ) (d : ℕ) :
    convert b m size (l ++ [d]) = (mulAdd b m d (convert b m size l)).2 := by
  simp [convert]

theorem convert_length (b m size : ℕ) (l : List ℕ) : (convert b m size l).length = size := by
  induction l using List.reverseRecOn with
  | nil => simp [convert]
  | append_singleton l d ih => rw [convert_concat, mulAdd_length, ih]

theorem convert_below (hb : 0 < b) (m size : ℕ) (l : List ℕ) : Below b (convert b m size l) := by
  induction l using List.reverseRecOn with
  | nil =>
    intro d hd
    rw [List.eq_of_mem_replicate hd]
    exact hb
  | append_singleton l d ih =>
    rw [convert_concat]
    exact mulAdd_below hb m d _

theorem convert_value (hm : 0 < m) (h : value m l < b ^ size) : value b (convert b m size l) = value m l := by
  induction l using List.reverseRecOn with
  | nil => simp [convert, value_replicate_zero]
  | append_singleton l d ih =>
    rw [value_concat] at h ⊢
    have hle : value m l ≤ value m l * m := Nat.le_mul_of_pos_right _ hm
    have hvalue := ih (by omega)
    have hcarry : (mulAdd b m d (convert b m size l)).1 = 0 := by
      apply mulAdd_carry
      rw [convert_length, hvalue]
      exact h
    have hspec := mulAdd_spec b m d (convert b m size l)
    rw [convert_concat]
    rw [hcarry, hvalue, zero_mul, zero_add] at hspec
    exact hspec

theorem convert_carry (hm : 0 < m) {pre post : List ℕ} {d : ℕ} (h : value m (pre ++ d :: post) < b ^ size) :
    (mulAdd b m d (convert b m size pre)).1 = 0 := by
  have hpre : value m (pre ++ [d]) ≤ value m (pre ++ d :: post) := by
    rw [List.append_cons pre d post, value_append m (pre ++ [d]) post]
    have hpow : 0 < m ^ post.length := Nat.pow_pos hm
    exact (Nat.le_mul_of_pos_right _ hpow).trans (Nat.le_add_right _ _)
  rw [value_concat] at hpre
  have hle : value m pre ≤ value m pre * m := Nat.le_mul_of_pos_right _ hm
  apply mulAdd_carry
  rw [convert_length, convert_value hm (by omega)]
  omega

/-- The conversion with the zeroes at the front kept and those of the buffer dropped. -/
def recode (b m size : ℕ) (l : List ℕ) : List ℕ :=
  List.replicate (leading l) 0 ++ trim (convert b m size (trim l))

theorem recode_below (hb : 0 < b) (m size : ℕ) (l : List ℕ) : Below b (recode b m size l) := by
  intro d hd
  obtain hd | hd := List.mem_append.mp hd
  · rw [List.eq_of_mem_replicate hd]
    exact hb
  · exact (convert_below hb m size _).trim d hd

theorem leading_recode (b m size : ℕ) (l : List ℕ) : leading (recode b m size l) = leading l :=
  leading_replicate_append_trim _ _

theorem value_recode (hm : 0 < m) (h : value m l < b ^ size) : value b (recode b m size l) = value m l := by
  rw [recode, value_append, value_replicate_zero, zero_mul, zero_add, value_trim, convert_value hm, value_trim]
  rwa [value_trim]

theorem recode_recode {size' : ℕ} (hb : 1 < b) (hm : 1 < m) (hl : Below m l) (h : value m l < b ^ size)
    (h' : value m l < m ^ size') : recode m b size' (recode b m size l) = l := by
  have hvalue := value_recode (Nat.zero_lt_of_lt hm) h
  apply eq_of_leading_of_value hm (recode_below (Nat.zero_lt_of_lt hm) _ _ _) hl
  · rw [leading_recode, leading_recode]
  · rw [value_recode (Nat.zero_lt_of_lt hb), hvalue]
    rwa [hvalue]

end ScfChain.Data
