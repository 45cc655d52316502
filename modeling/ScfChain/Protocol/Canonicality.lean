import ScfChain.Data.Bytes

/-!
# Canonical ECDSA signatures

`ecdsaCanonicality` classifies the bytes of a secp256k1 signature, `<30> <len> [<02> <lenR> <R>] [<02> <lenS> <S>]`.
Numbers are read as hexadecimal texts into 264 bits, as the source does it.

* `Encodes sig r s` is what the format says: `sig` has the integers `r` and `s`, in two's complement of any length.
* `accepted_iff`: what is accepted are the encodings with the shortest numbers, of `r` and `s` from 1 to the order of the
  group.
-/

namespace ScfChain.Protocol

open Data

inductive ECDSACanonicality
  | canonical
  | fullyCanonical
  deriving DecidableEq

/-- `Slice::operator[]`, of an index that is in range. -/
def at_ (slice : List UInt8) (i : ℕ) : UInt8 := slice[i]?.getD 0

/-- Parse a length-prefixed number: the number and what is left of the buffer. -/
def sigPart (buf : List UInt8) : Option (List UInt8 × List UInt8) :=
  if buf.length < 3 ∨ at_ buf 0 ≠ 0x02 then none
  else
    let len := (at_ buf 1).toNat
    let buf := buf.drop 2
    if buf.length < len ∨ len < 1 ∨ 33 < len then none
    else if at_ buf 0 &&& 0x80 ≠ 0 then none
    else if at_ buf 0 = 0 ∧ (len = 1 ∨ at_ buf 1 &&& 0x80 = 0) then none
    else some (buf.take len, buf.drop len)

/-- The digit of a number below 16. -/
def hexDigit (n : ℕ) : Char := "0123456789ABCDEF".toList.getD n '0'

/-- `sliceToHex`. -/
def sliceToHex (slice : List UInt8) : List Char :=
  (if at_ slice 0 &&& 0x80 ≠ 0 then "0x00".toList else "0x".toList) ++
    slice.flatMap fun b : UInt8 => [hexDigit ((b &&& 0xf0) >>> 4).toNat, hexDigit ((b &&& 0x0f) >>> 0).toNat]

/-- The value of a digit. -/
def hexValue (c : Char) : ℕ := if c.toNat < 58 then c.toNat - 48 else c.toNat - 55

/-- A number of 264 bits from a text that starts with `0x`. -/
def uint264 (s : List Char) : ℕ := (s.drop 2).foldl (fun n c => n * 16 + hexValue c) 0 % 2 ^ 264

/-- The order of the group. -/
def G : ℕ := 0xFFFFFFFFFFFFFFFFFFFFFFFFFFFFFFFEBAAEDCE6AF48A03BBFD25E8CD0364141

/-- `ecdsaCanonicality`. -/
def ecdsaCanonicality (sig : List UInt8) : Option ECDSACanonicality :=
  if sig.length < 8 ∨ 72 < sig.length then none
  else if at_ sig 0 ≠ 0x30 ∨ (at_ sig 1).toNat ≠ sig.length - 2 then none
  else
    match sigPart (sig.drop 2) with
    | none => none
    | some (r, p) =>
      match sigPart p with
      | none => none
      | some (s, p) =>
        if p ≠ [] then none
        else
          let R := uint264 (sliceToHex r)
          if G ≤ R then none
          else
            let S := uint264 (sliceToHex s)
            if G ≤ S then none
            else if G - S < S then some .canonical
            else some .fullyCanonical

/-! ## Hexadecimal texts -/

theorem hexValue_hexDigit : ∀ n < 16, hexValue (hexDigit n) = n := by decide

theorem halves_byte (b : UInt8) : ((b &&& 0xf0) >>> 4).toNat < 16 ∧ ((b &&& 0x0f) >>> 0).toNat < 16 ∧
    ((b &&& 0xf0) >>> 4).toNat * 16 + ((b &&& 0x0f) >>> 0).toNat = b.toNat := by
  revert b
  decide +kernel

/-- The digits of bytes, read as one number. -/
theorem foldl_hexDigits {value : Char → ℕ} (hvalue : ∀ n < 16, value (hexDigit n) = n) (l : List UInt8) (n : ℕ) :
    (l.flatMap fun b : UInt8 => [hexDigit ((b &&& 0xf0) >>> 4).toNat, hexDigit ((b &&& 0x0f) >>> 0).toNat]).foldl
      (fun n c => n * 16 + value c) n = l.foldl (fun n b => n * 256 + b.toNat) n := by
  induction l generalizing n with
  | nil => rfl
  | cons b l ih =>
    obtain ⟨hhigh, hlow, hb⟩ := halves_byte b
    rw [List.flatMap_cons, List.foldl_append, ih, List.foldl_cons]
    simp only [List.foldl_cons, List.foldl_nil, hvalue _ hhigh, hvalue _ hlow]
    congr 1
    omega

theorem and_sign_eq_zero_iff (b : UInt8) : b &&& 0x80 = 0 ↔ b.toNat < 128 := by
  have h : ∀ k < 256, UInt8.ofNat k &&& 0x80 = 0 ↔ k < 128 := by decide +kernel
  have hb := h b.toNat b.toNat_lt
  rwa [UInt8.ofNat_toNat] at hb

theorem uint264_sliceToHex {slice : List UInt8} (h : slice.length ≤ 33) (hneg : at_ slice 0 &&& 0x80 = 0) :
    uint264 (sliceToHex slice) = ofBytes slice := by
  have hlt : ofBytes slice < 2 ^ 264 := by
    calc ofBytes slice < 256 ^ slice.length := ofBytes_lt slice
      _ ≤ 256 ^ 33 := Nat.pow_le_pow_right (by decide) h
      _ = 2 ^ 264 := by rw [show 256 = 2 ^ 8 by norm_num, ← pow_mul]
  unfold uint264 sliceToHex
  rw [if_neg (not_not.mpr hneg), List.drop_left' (show "0x".toList.length = 2 from rfl),
    foldl_hexDigits hexValue_hexDigit]
  exact Nat.mod_eq_of_lt hlt

/-! ## Parts -/

/-- A number of the format: its tag, its length and its bytes. -/
def part (number : List UInt8) : List UInt8 := 0x02 :: UInt8.ofNat number.length :: number

@[simp]
theorem length_part (number : List UInt8) : (part number).length = number.length + 2 := rfl

theorem signed_take_iff {b : UInt8} {buf : List UInt8} {len : ℕ} (h1 : 1 ≤ len) (hlen : len ≤ buf.length + 1) :
    Signed ((b :: buf).take len) ↔
      at_ (b :: buf) 0 &&& 0x80 = 0 ∧ ¬ (at_ (b :: buf) 0 = 0 ∧ (len = 1 ∨ at_ (b :: buf) 1 &&& 0x80 = 0)) := by
  have hzero : b = 0 ↔ b.toNat = 0 := UInt8.toNat_inj.symm
  simp only [and_sign_eq_zero_iff]
  rcases len with _ | _ | len
  · omega
  · simp only [List.take_succ_cons, List.take_zero, Signed, at_, List.getElem?_cons_zero, Option.getD_some, hzero, Nat.zero_add, true_or,
      and_true]
    omega
  · cases buf with
    | nil => simp at hlen
    | cons c buf =>
      simp only [List.take_succ_cons, Signed, at_, List.getElem?_cons_zero, List.getElem?_cons_succ, Option.getD_some, hzero]
      omega

/-- **`sigPart`** accepts a shortest positive number of 33 bytes at most, and nothing else. -/
theorem sigPart_eq_some_iff {buf number rest : List UInt8} :
    sigPart buf = some (number, rest) ↔ buf = part number ++ rest ∧ Signed number ∧ number.length ≤ 33 := by
  constructor
  · intro h
    match buf with
    | [] | [_] | [_, _] => simp [sigPart] at h
    | tag :: l :: b :: buf =>
      simp only [sigPart, List.drop_succ_cons, List.drop_zero] at h
      split_ifs at h with htag hlen hneg hpad
      simp only [at_, List.getElem?_cons_zero, List.getElem?_cons_succ, Option.getD_some, List.length_cons, not_or, not_not,
        Nat.not_lt] at htag hlen h
      obtain ⟨rfl, rfl⟩ : (b :: buf).take l.toNat = number ∧ (b :: buf).drop l.toNat = rest := by simpa using h
      have htake : ((b :: buf).take l.toNat).length = l.toNat := by simpa using hlen.1
      refine ⟨?_, (signed_take_iff hlen.2.1 hlen.1).mpr ⟨not_not.mp hneg, hpad⟩, htake.trans_le hlen.2.2⟩
      rw [part, htake, UInt8.ofNat_toNat, htag.2, List.cons_append, List.cons_append, List.take_append_drop]
  · rintro ⟨rfl, hsigned, hlen⟩
    match number with
    | b :: number =>
      have hsigned' : Signed ((b :: (number ++ rest)).take (number.length + 1)) := by simpa using hsigned
      rw [signed_take_iff (Nat.succ_pos _) (by simp)] at hsigned'
      have hl : (UInt8.ofNat (number.length + 1)).toNat = number.length + 1 := by
        rw [UInt8.toNat_ofNat']
        simp only [List.length_cons] at hlen
        omega
      simp only [sigPart, part, List.cons_append, List.drop_succ_cons, List.drop_zero, List.length_cons]
      simp only [show ∀ x y (l : List UInt8), at_ (x :: y :: l) 1 = y from fun _ _ _ => rfl,
        show ∀ x (l : List UInt8), at_ (x :: l) 0 = x from fun _ _ => rfl, hl]
      rw [if_neg (by simp), if_neg (by simp at hlen ⊢; omega)]
      have hneg : ¬ (b &&& 0x80 ≠ 0) := not_not.mpr hsigned'.1
      have hpad : ¬ (b = 0 ∧ (number.length + 1 = 1 ∨ at_ (b :: (number ++ rest)) 1 &&& 0x80 = 0)) := hsigned'.2
      rw [if_neg hneg, if_neg hpad]
      simp

/-! ## Signatures -/

/-- The bytes of a signature with the given numbers. -/
def signature (rb sb : List UInt8) : List UInt8 :=
  0x30 :: UInt8.ofNat (part rb ++ part sb).length :: (part rb ++ part sb)

/-- The integer with the given bytes, in two's complement. -/
def ofTwosComplement (bytes : List UInt8) : ℤ :=
  if 128 ≤ (at_ bytes 0).toNat then ofBytes bytes - 256 ^ bytes.length else ofBytes bytes

/-- The bytes are an encoding of the pair of integers, not necessarily the shortest one. Lengths are single bytes. -/
def Encodes (sig : List UInt8) (r s : ℤ) : Prop :=
  ∃ rb sb : List UInt8, rb ≠ [] ∧ sb ≠ [] ∧ (part rb ++ part sb).length < 128 ∧ sig = signature rb sb ∧
    ofTwosComplement rb = r ∧ ofTwosComplement sb = s

theorem part_append_inj {rb rb' rest rest' : List UInt8} (hlt : rb.length < 256) (hlt' : rb'.length < 256)
    (h : part rb ++ rest = part rb' ++ rest') : rb = rb' ∧ rest = rest' := by
  unfold part at h
  simp only [List.cons_append, List.cons.injEq, true_and] at h
  have hlen : rb.length = rb'.length := by
    have := congrArg UInt8.toNat h.1
    rw [UInt8.toNat_ofNat', UInt8.toNat_ofNat'] at this
    omega
  exact List.append_inj h.2 hlen

theorem signature_inj {rb sb rb' sb' : List UInt8} (hlt : (part rb ++ part sb).length < 128)
    (hlt' : (part rb' ++ part sb').length < 128) (h : signature rb sb = signature rb' sb') : rb = rb' ∧ sb = sb' := by
  simp only [List.length_append, length_part] at hlt hlt'
  obtain ⟨hr, hs⟩ := part_append_inj (by omega) (by omega) (List.cons.inj (List.cons.inj h).2).2
  have hs' : part sb ++ [] = part sb' ++ [] := by simpa using hs
  exact ⟨hr, (part_append_inj (by omega) (by omega) hs').1⟩

variable {sig l : List UInt8} {c : ECDSACanonicality}

theorem Encodes.unique {r s r' s' : ℤ} (h : Encodes sig r s) (h' : Encodes sig r' s') : r = r' ∧ s = s' := by
  obtain ⟨rb, sb, -, -, hlt, rfl, rfl, rfl⟩ := h
  obtain ⟨rb', sb', -, -, hlt', heq, rfl, rfl⟩ := h'
  obtain ⟨rfl, rfl⟩ := signature_inj hlt hlt' heq
  exact ⟨rfl, rfl⟩

theorem head_lt_of_signed (h : Signed l) : (at_ l 0).toNat < 128 := by
  match l with
  | [b] => exact h.2
  | b :: c :: l => exact h.1

theorem ofTwosComplement_of_signed (h : Signed l) : ofTwosComplement l = ofBytes l := by
  have hhead := head_lt_of_signed h
  exact if_neg (by omega)

theorem uint264_of_signed (h : Signed l) (hlen : l.length ≤ 33) : uint264 (sliceToHex l) = ofBytes l :=
  uint264_sliceToHex hlen ((and_sign_eq_zero_iff _).mpr (head_lt_of_signed h))

theorem ofBytes_pos_of_signed (h : Signed l) : 0 < ofBytes l := by
  obtain ⟨k, hk⟩ := Nat.exists_eq_succ_of_ne_zero h.pos.ne'
  exact ((signed_iff hk).mp h).1

theorem length_signedBytes_le {n : ℕ} (h : n < G) : (signedBytes n).length ≤ 33 := by
  have hG : 2 * G < 256 ^ 33 := by decide +kernel
  have hlog : Nat.log 256 (2 * n) < 33 := Nat.log_lt_of_lt_pow' (by decide) (by omega)
  rw [signedBytes, length_toBytes]
  omega

/-- The last checks, on the two numbers. -/
def classify (R S : ℕ) : Option ECDSACanonicality :=
  if G ≤ R then none else if G ≤ S then none else if G - S < S then some .canonical else some .fullyCanonical

theorem ecdsaCanonicality_eq_some_iff :
    ecdsaCanonicality sig = some c ↔ ∃ rb sb : List UInt8, Signed rb ∧ rb.length ≤ 33 ∧ Signed sb ∧ sb.length ≤ 33 ∧
      sig = signature rb sb ∧ classify (ofBytes rb) (ofBytes sb) = some c := by
  unfold ecdsaCanonicality
  constructor
  · intro h
    split_ifs at h with hsize hhead
    rcases hr : sigPart (sig.drop 2) with _ | ⟨rb, p⟩ <;> simp only [hr] at h
    · cases h
    rcases hs : sigPart p with _ | ⟨sb, p'⟩ <;> simp only [hs] at h
    · cases h
    by_cases hp : p' = []
    swap
    · rw [if_pos hp] at h
      cases h
    rw [if_neg (not_not.mpr hp)] at h
    obtain ⟨hdrop, hrb, hrlen⟩ := sigPart_eq_some_iff.mp hr
    obtain ⟨rfl, hsb, hslen⟩ := sigPart_eq_some_iff.mp hs
    rw [uint264_of_signed hrb hrlen, uint264_of_signed hsb hslen] at h
    refine ⟨rb, sb, hrb, hrlen, hsb, hslen, ?_, h⟩
    rw [hp, List.append_nil] at hdrop
    match sig with
    | b₀ :: b₁ :: sig =>
      obtain ⟨h₀, h₁⟩ : b₀ = 0x30 ∧ b₁.toNat = sig.length := by simpa [at_] using hhead
      obtain rfl : sig = part rb ++ part sb := by simpa using hdrop
      rw [signature, h₀, ← h₁, UInt8.ofNat_toNat]
    | [] | [_] => simp at hsize
  · rintro ⟨rb, sb, hrb, hrlen, hsb, hslen, rfl, hc⟩
    have hr0 := hrb.pos
    have hs0 := hsb.pos
    have hlen : (signature rb sb).length = rb.length + sb.length + 6 := by
      simp [signature]
      omega
    have hl : (at_ (signature rb sb) 1).toNat = rb.length + sb.length + 4 := by
      change (UInt8.ofNat (part rb ++ part sb).length).toNat = _
      rw [UInt8.toNat_ofNat', List.length_append, length_part, length_part]
      omega
    have hr : sigPart ((signature rb sb).drop 2) = some (rb, part sb) := sigPart_eq_some_iff.mpr ⟨rfl, hrb, hrlen⟩
    have hs : sigPart (part sb) = some (sb, []) := sigPart_eq_some_iff.mpr ⟨by simp, hsb, hslen⟩
    rw [if_neg (by omega), if_neg]
    · simp only [hr, hs, uint264_of_signed hrb hrlen, uint264_of_signed hsb hslen]
      exact hc
    · rw [hlen]
      exact fun h => h.elim (fun h => h rfl) fun h => h (by omega)

/-- **What is accepted**: the shortest encodings of pairs from 1 to the order of the group, and nothing else. -/
theorem accepted_iff : ecdsaCanonicality sig = some c ↔ ∃ r s, (0 < r ∧ r < G) ∧ (0 < s ∧ s < G) ∧
      sig = signature (signedBytes r) (signedBytes s) ∧ c = if G - s < s then .canonical else .fullyCanonical := by
  rw [ecdsaCanonicality_eq_some_iff]
  constructor
  · rintro ⟨rb, sb, hrb, hrlen, hsb, hslen, rfl, hc⟩
    unfold classify at hc
    split_ifs at hc with hr hs hlow <;>
    exact ⟨ofBytes rb, ofBytes sb, ⟨ofBytes_pos_of_signed hrb, Nat.lt_of_not_le hr⟩,
      ⟨ofBytes_pos_of_signed hsb, Nat.lt_of_not_le hs⟩, by rw [← hrb.eq_signedBytes, ← hsb.eq_signedBytes],
      by simpa [hlow] using hc.symm⟩
  · rintro ⟨r, s, ⟨hr0, hr⟩, ⟨hs0, hs⟩, rfl, rfl⟩
    refine ⟨_, _, signed_signedBytes hr0, length_signedBytes_le hr, signed_signedBytes hs0, length_signedBytes_le hs, rfl, ?_⟩
    rw [ofBytes_signedBytes, ofBytes_signedBytes, classify, if_neg (by omega), if_neg (by omega)]
    split <;> rfl

theorem encodes_signature {r s : ℕ} (hr : 0 < r ∧ r < G) (hs : 0 < s ∧ s < G) :
    Encodes (signature (signedBytes r) (signedBytes s)) r s := by
  have hrb := signed_signedBytes hr.1
  have hsb := signed_signedBytes hs.1
  have hrlen := length_signedBytes_le hr.2
  have hslen := length_signedBytes_le hs.2
  refine ⟨_, _, List.ne_nil_of_length_pos hrb.pos, List.ne_nil_of_length_pos hsb.pos, ?_, rfl, ?_, ?_⟩
  · simp
    omega
  · rw [ofTwosComplement_of_signed hrb, ofBytes_signedBytes]
  · rw [ofTwosComplement_of_signed hsb, ofBytes_signedBytes]

theorem accepted_encoding_iff {r s : ℕ} (hr : 0 < r ∧ r < G) (hs : 0 < s ∧ s < G) :
    Encodes sig r s ∧ ecdsaCanonicality sig = some c ↔ sig = signature (signedBytes r) (signedBytes s) ∧
      c = if G - s < s then .canonical else .fullyCanonical := by
  constructor
  · rintro ⟨henc, hacc⟩
    obtain ⟨r', s', hr', hs', rfl, rfl⟩ := accepted_iff.mp hacc
    obtain ⟨hreq, hseq⟩ := henc.unique (encodes_signature hr' hs')
    obtain rfl : r = r' := by exact_mod_cast hreq
    obtain rfl : s = s' := by exact_mod_cast hseq
    exact ⟨rfl, rfl⟩
  · rintro ⟨rfl, rfl⟩
    exact ⟨encodes_signature hr hs, accepted_iff.mpr ⟨r, s, hr, hs, rfl, rfl⟩⟩

/-- **ECDSA signature encodings are not malleable.** -/
theorem ecdsaCanonicality_unique {r s : ℕ} (hr : 0 < r ∧ r < G) (hs : 0 < s ∧ s < G) :
    (∃! sig, Encodes sig r s ∧ (ecdsaCanonicality sig).isSome) ∧
      (∀ sig, (ecdsaCanonicality sig).isSome → ∃ r' s' : ℕ, (0 < r' ∧ r' < G) ∧ (0 < s' ∧ s' < G) ∧ Encodes sig r' s') ∧
      (∀ sig sig', Encodes sig r s → (ecdsaCanonicality sig).isSome →
        Encodes sig' r (G - s : ℤ) → (ecdsaCanonicality sig').isSome →
        (ecdsaCanonicality sig = some .fullyCanonical ↔ ¬ ecdsaCanonicality sig' = some .fullyCanonical)) ∧
      ∃! sig, (Encodes sig r s ∨ Encodes sig r (G - s : ℤ)) ∧ ecdsaCanonicality sig = some .fullyCanonical := by
  have hneg : (G - s : ℤ) = ((G - s : ℕ) : ℤ) := by omega
  have hs' : 0 < G - s ∧ G - s < G := by omega
  have hodd : G % 2 = 1 := by decide +kernel
  rw [hneg]
  refine ⟨⟨signature (signedBytes r) (signedBytes s), ⟨encodes_signature hr hs, ?_⟩, ?_⟩, ?_, ?_, ?_⟩
  · rw [((accepted_encoding_iff hr hs).mpr ⟨rfl, rfl⟩).2]
    rfl
  · intro sig ⟨henc, hacc⟩
    obtain ⟨c, hc⟩ := Option.isSome_iff_exists.mp hacc
    exact ((accepted_encoding_iff hr hs).mp ⟨henc, hc⟩).1
  · intro sig hacc
    obtain ⟨c, hc⟩ := Option.isSome_iff_exists.mp hacc
    obtain ⟨r', s', hr', hs', rfl, -⟩ := accepted_iff.mp hc
    exact ⟨r', s', hr', hs', encodes_signature hr' hs'⟩
  · intro sig sig' henc hacc henc' hacc'
    obtain ⟨c, hc⟩ := Option.isSome_iff_exists.mp hacc
    obtain ⟨c', hc'⟩ := Option.isSome_iff_exists.mp hacc'
    rw [hc, hc', ((accepted_encoding_iff hr hs).mp ⟨henc, hc⟩).2, ((accepted_encoding_iff hr hs').mp ⟨henc', hc'⟩).2]
    by_cases hlow : G - s < s
    · rw [if_pos hlow, if_neg (by omega)]
      decide
    · rw [if_neg hlow, if_pos (by omega)]
      decide
  · -- the low one of `s` and `G - s` is the one that is accepted
    by_cases hlow : G - s < s
    · refine ⟨signature (signedBytes r) (signedBytes (G - s)), ⟨Or.inr (encodes_signature hr hs'), ?_⟩, ?_⟩
      · rw [((accepted_encoding_iff hr hs').mpr ⟨rfl, rfl⟩).2, if_neg (by omega)]
      · rintro sig ⟨henc | henc, hacc⟩
        · have hc := ((accepted_encoding_iff hr hs).mp ⟨henc, hacc⟩).2
          rw [if_pos hlow] at hc
          cases hc
        · exact ((accepted_encoding_iff hr hs').mp ⟨henc, hacc⟩).1
    · refine ⟨signature (signedBytes r) (signedBytes s), ⟨Or.inl (encodes_signature hr hs), ?_⟩, ?_⟩
      · rw [((accepted_encoding_iff hr hs).mpr ⟨rfl, rfl⟩).2, if_neg hlow]
      · rintro sig ⟨henc | henc, hacc⟩
        · exact ((accepted_encoding_iff hr hs).mp ⟨henc, hacc⟩).1
        · have hc := ((accepted_encoding_iff hr hs').mp ⟨henc, hacc⟩).2
          rw [if_pos (by omega)] at hc
          cases hc

/-- The pair of 1 and 1 has one accepted encoding, of eight bytes. -/
theorem ecdsaCanonicality_one :
    ecdsaCanonicality [0x30, 6, 0x02, 1, 1, 0x02, 1, 1] = some .fullyCanonical ∧
      ∃! sig, Encodes sig 1 1 ∧ (ecdsaCanonicality sig).isSome := by
  have hone : 0 < 1 ∧ 1 < G := by decide +kernel
  have h := (ecdsaCanonicality_unique hone hone).1
  exact ⟨by decide +kernel, by exact_mod_cast h⟩

end ScfChain.Protocol
