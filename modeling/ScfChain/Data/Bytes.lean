import Mathlib

/-!
# Numbers as bytes

`ofBytes` reads a list of bytes, most significant first; `toBytes w n` writes `n` in `w` bytes. On lists of length `w` and
numbers below `256 ^ w` they are inverse.

* `drop_flatMap_record` : where the records of one length stand in a list of bytes.
* `Signed l` : `l` is a shortest list for a positive number whose first bit is not set; `signedBytes n` is the one for `n`
  (`Signed.eq_signedBytes`).
-/

namespace ScfChain.Data

/-- The number with the given bytes, most significant first. -/
def ofBytes (bytes : List UInt8) : ℕ := bytes.foldl (fun n b => n * 256 + b.toNat) 0

/-- The last `w` bytes of a number, most significant first. -/
def toBytes : ℕ → ℕ → List UInt8
  | 0, _ => []
  | w + 1, n => toBytes w (n / 256) ++ [UInt8.ofNat n]

@[simp]
theorem ofBytes_nil : ofBytes [] = 0 := rfl

@[simp]
theorem ofBytes_concat (l : List UInt8) (b : UInt8) : ofBytes (l ++ [b]) = ofBytes l * 256 + b.toNat := by
  simp [ofBytes]

@[simp]
theorem length_toBytes (w n : ℕ) : (toBytes w n).length = w := by
  induction w generalizing n with
  | zero => rfl
  | succ w ih => simp [toBytes, ih]

theorem ofBytes_append (l l' : List UInt8) : ofBytes (l ++ l') = ofBytes l * 256 ^ l'.length + ofBytes l' := by
  induction l' using List.reverseRecOn with
  | nil => simp
  | append_singleton l' b ih =>
    rw [← List.append_assoc, ofBytes_concat, ih, ofBytes_concat, List.length_append, List.length_singleton, pow_succ]
    ring

theorem ofBytes_cons (b : UInt8) (l : List UInt8) : ofBytes (b :: l) = b.toNat * 256 ^ l.length + ofBytes l := by
  have h := ofBytes_append [b] l
  simpa [ofBytes] using h

theorem ofBytes_lt (l : List UInt8) : ofBytes l < 256 ^ l.length := by
  induction l using List.reverseRecOn with
  | nil => simp
  | append_singleton l b ih =>
    have hb := b.toNat_lt
    rw [ofBytes_concat, List.length_append, List.length_singleton, pow_succ]
    omega

theorem ofBytes_toBytes {w n : ℕ} (h : n < 256 ^ w) : ofBytes (toBytes w n) = n := by
  induction w generalizing n with
  | zero =>
    rw [pow_zero] at h
    simp [toBytes]
    omega
  | succ w ih =>
    rw [toBytes, ofBytes_concat, ih (Nat.div_lt_of_lt_mul (by rwa [pow_succ'] at h)), UInt8.toNat_ofNat']
    omega

theorem toBytes_ofBytes (l : List UInt8) : toBytes l.length (ofBytes l) = l := by
  induction l using List.reverseRecOn with
  | nil => rfl
  | append_singleton l b ih =>
    have hb := b.toNat_lt
    have hdiv : (ofBytes l * 256 + b.toNat) / 256 = ofBytes l := by omega
    have hmod : UInt8.ofNat (ofBytes l * 256 + b.toNat) = b := by
      apply UInt8.toNat_inj.mp
      rw [UInt8.toNat_ofNat']
      omega
    rw [List.length_append, List.length_singleton, toBytes, ofBytes_concat, hdiv, ih, hmod]

theorem toBytes_eq_map (w n : ℕ) : toBytes w n = (List.range w).map fun i => UInt8.ofNat (n / 256 ^ (w - 1 - i)) := by
  induction w generalizing n with
  | zero => rfl
  | succ w ih =>
    rw [toBytes, ih, List.range_succ, List.map_append, List.map_singleton]
    congr 1
    · refine List.map_congr_left fun i hi => ?_
      have hexp : w + 1 - 1 - i = w - 1 - i + 1 := by
        have := List.mem_range.mp hi
        omega
      rw [hexp, pow_succ', Nat.div_div_eq_div_mul]
    · simp

/-! ## Records of one length -/

section
variable {α β : Type} {f : α → List β} {n : ℕ} (h : ∀ a, (f a).length = n)
include h

theorem length_flatMap_const (l : List α) : (l.flatMap f).length = l.length * n := by
  induction l with
  | nil => simp
  | cons a l ih =>
    rw [List.flatMap_cons, List.length_append, h, ih, List.length_cons]
    ring

theorem drop_flatMap_const (l : List α) (i : ℕ) : (l.flatMap f).drop (i * n) = (l.drop i).flatMap f := by
  induction l generalizing i with
  | nil => simp
  | cons a l ih =>
    cases i with
    | zero => simp
    | succ i =>
      rw [List.flatMap_cons, List.drop_succ_cons, ← ih, Nat.succ_mul, Nat.add_comm, ← List.drop_drop,
        List.drop_left' (h a)]

theorem drop_flatMap_record {l : List α} {i : ℕ} {a : α} (hi : l[i]? = some a) :
    (l.flatMap f).drop (i * n) = f a ++ (l.drop (i + 1)).flatMap f := by
  obtain ⟨hlt, rfl⟩ := List.getElem?_eq_some_iff.mp hi
  rw [drop_flatMap_const h, List.drop_eq_getElem_cons hlt, List.flatMap_cons]

end

/-! ## Positive numbers with a sign bit -/

/-- The first bit is not set, and the list is a shortest one of this kind; it is not the number 0. -/
def Signed : List UInt8 → Prop
  | [] => False
  | [b] => 0 < b.toNat ∧ b.toNat < 128
  | b :: c :: _ => b.toNat < 128 ∧ (b.toNat = 0 → 128 ≤ c.toNat)

/-- A positive number in as few bytes as leave the first bit clear. -/
def signedBytes (n : ℕ) : List UInt8 := toBytes (Nat.log 256 (2 * n) + 1) n

theorem signed_iff {l : List UInt8} {k : ℕ} (hl : l.length = k + 1) :
    Signed l ↔ 0 < ofBytes l ∧ 256 ^ k ≤ 2 * ofBytes l ∧ 2 * ofBytes l < 256 ^ (k + 1) := by
  match l with
  | [b] =>
    obtain rfl : k = 0 := by simpa using hl.symm
    simp only [Signed, ofBytes_cons, ofBytes_nil, List.length_nil]
    omega
  | b :: c :: t =>
    obtain rfl : k = t.length + 1 := by simpa using hl.symm
    have ht := ofBytes_lt t
    have hc := c.toNat_lt
    simp only [Signed, ofBytes_cons, List.length_cons]
    rw [pow_succ 256 (t.length + 1), pow_succ 256 t.length]
    generalize 256 ^ t.length = p at *
    rw [← Nat.mul_assoc b.toNat]
    constructor
    · intro ⟨hb, hbc⟩
      have hupper : b.toNat * p ≤ 127 * p := Nat.mul_le_mul_right p (by omega)
      have hcp : c.toNat * p ≤ 255 * p := Nat.mul_le_mul_right p (by omega)
      rcases Nat.eq_zero_or_pos b.toNat with h0 | h0
      · have hlower : 128 * p ≤ c.toNat * p := Nat.mul_le_mul_right p (hbc h0)
        omega
      · have hlower : 1 * p ≤ b.toNat * p := Nat.mul_le_mul_right p h0
        omega
    · intro ⟨_, hlower, hupper⟩
      refine ⟨?_, fun h0 => ?_⟩
      · by_contra hb
        have : 128 * p ≤ b.toNat * p := Nat.mul_le_mul_right p (by omega)
        omega
      · by_contra hc'
        have : c.toNat * p ≤ 127 * p := Nat.mul_le_mul_right p (by omega)
        rw [h0, Nat.zero_mul, Nat.zero_mul] at hlower
        omega

theorem Signed.pos {l : List UInt8} (h : Signed l) : 0 < l.length := by
  match l with
  | _ :: _ => exact Nat.succ_pos _

theorem Signed.length_eq {l : List UInt8} (h : Signed l) : l.length = Nat.log 256 (2 * ofBytes l) + 1 := by
  obtain ⟨k, hk⟩ := Nat.exists_eq_succ_of_ne_zero h.pos.ne'
  obtain ⟨-, hlower, hupper⟩ := (signed_iff hk).mp h
  rw [hk, Nat.log_eq_of_pow_le_of_lt_pow hlower hupper]

theorem Signed.eq_signedBytes {l : List UInt8} (h : Signed l) : l = signedBytes (ofBytes l) := by
  rw [signedBytes, ← h.length_eq, toBytes_ofBytes]

theorem ofBytes_signedBytes (n : ℕ) : ofBytes (signedBytes n) = n := by
  apply ofBytes_toBytes
  have h := Nat.lt_pow_succ_log_self (b := 256) (by decide) (2 * n)
  omega

theorem signed_signedBytes {n : ℕ} (h : 0 < n) : Signed (signedBytes n) := by
  rw [signed_iff (l := signedBytes n) (length_toBytes _ _), ofBytes_signedBytes]
  exact ⟨h, Nat.pow_log_le_self 256 (by omega), Nat.lt_pow_succ_log_self (by decide) _⟩

end ScfChain.Data
