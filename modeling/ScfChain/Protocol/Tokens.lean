import ScfChain.Data.Positional
import ScfChain.Data.Succeeds

/-!
# Base58 tokens

`encodeToken` lays out the type, the token and a checksum and writes the number in base 58; `decodeBase58Token` reads it
back. Each is a conversion of numerals between the bases 256 and 58 in a buffer of a size fixed before (`recode`), and both
keep the number and the count of leading zeroes; the two sizes are enough for every length (`pow_le_encode`,
`pow_le_decode`).
-/

namespace ScfChain.Protocol

open Data

inductive TokenType where
  | none
  | nodePublic
  | nodePrivate
  | accountID
  | accountPublic
  | accountSecret
  | familyGenerator
  | familySeed
deriving DecidableEq, Repr

def TokenType.toByte : TokenType → UInt8
  | none => 1
  | nodePublic => 28
  | nodePrivate => 32
  | accountID => 0
  | accountPublic => 35
  | accountSecret => 34
  | familyGenerator => 41
  | familySeed => 33

/-! ## Alphabets -/

/-- The characters of the digits of base 58. -/
structure Alphabet where
  chars : List Char
  length_chars : chars.length = 58
  nodup_chars : chars.Nodup

def supplyFinanceChainAlphabet : Alphabet where
  chars := "rpshnaf39wBUDNEGHJKLM4PQRST7VWXYZ2bcdeCg65jkm8oFqi1tuvAxyz".toList
  length_chars := by decide +kernel
  nodup_chars := by decide +kernel

/-- The character of a digit; a string ends with a zero. -/
def Alphabet.char (alphabet : Alphabet) (digit : ℕ) : Char := alphabet.chars.getD digit '\x00'

/-- The entries of the inverse table from the digit `i` on; the entry −1 is `none`. -/
def fillInverse (map : Char → Option ℕ) (i : ℕ) : List Char → Char → Option ℕ
  | [] => map
  | c :: digits => fillInverse (Function.update map c (some i)) (i + 1) digits

def Alphabet.inverse (alphabet : Alphabet) : Char → Option ℕ := fillInverse (fun _ => .none) 0 alphabet.chars

/-! ## Conversion -/

/-- The loop of `encodeBase58`. -/
def encodeLoop (b58 : List ℕ) (message : List UInt8) : List ℕ :=
  message.foldl (fun b58 byte => (mulAdd 58 256 byte.toNat b58).2) b58

def encodeBase58 (message : List UInt8) (temp_size : ℕ) (alphabet : Alphabet) : List Char :=
  let zeroes := (message.takeWhile (· == 0)).length
  let b58 := encodeLoop (List.replicate temp_size 0) (message.dropWhile (· == 0))
  List.replicate zeroes (alphabet.char 0) ++ (b58.dropWhile (· == 0)).map alphabet.char

/-- The loop of `decodeBase58`: a character that is not in the alphabet ends it without a result. -/
def decodeLoop (inv : Char → Option ℕ) (b256 : List ℕ) (s : List Char) : Option (List ℕ) :=
  s.foldlM (fun b256 c => (inv c).map fun carry => (mulAdd 256 58 carry b256).2) b256

def decodeBase58 (s : List Char) (inv : Char → Option ℕ) : List UInt8 :=
  let zeroes := (s.takeWhile (inv · == some 0)).length
  let rest := s.dropWhile (inv · == some 0)
  match decodeLoop inv (List.replicate (rest.length * 733 / 1000 + 1) 0) rest with
  | .none => []
  | some b256 => List.replicate zeroes 0 ++ (b256.dropWhile (· == 0)).map UInt8.ofNat

/-! ## Tokens -/

section
variable (sha256 : List UInt8 → Vector UInt8 32)

/-- The first four bytes of the digest of the digest. -/
def checksum (message : List UInt8) : List UInt8 := (sha256 (sha256 message).toList).toList.take 4

/-- The type, the token and the checksum of both. -/
def layOut (type : TokenType) (token : List UInt8) : List UInt8 :=
  type.toByte :: token ++ checksum sha256 (type.toByte :: token)

def encodeToken (type : TokenType) (token : List UInt8) (alphabet : Alphabet) : List Char :=
  let expanded := 1 + token.length + 4
  let bufsize := expanded * 3
  encodeBase58 (layOut sha256 type token) (bufsize - expanded) alphabet

def decodeBase58Token (s : List Char) (type : TokenType) (inv : Char → Option ℕ) : List UInt8 :=
  let ret := decodeBase58 s inv
  if ret.length < 6 then []
  else if ret.head? ≠ some type.toByte then []
  else if checksum sha256 (ret.take (ret.length - 4)) ≠ ret.drop (ret.length - 4) then []
  else (ret.drop 1).take (ret.length - 1 - 4)

end

/-! ## The digits of characters -/

variable {c : Char} {d size : ℕ} {s : List Char} {digits : List ℕ}

theorem fillInverse_eq_some {map : Char → Option ℕ} {i : ℕ} {digits : List Char} (h : digits.Nodup) :
    fillInverse map i digits c = some d ↔
      (∃ k, digits[k]? = some c ∧ d = i + k) ∨ (c ∉ digits ∧ map c = some d) := by
  induction digits generalizing map i with
  | nil => simp [fillInverse]
  | cons e digits ih =>
    obtain ⟨he, hnodup⟩ := List.nodup_cons.mp h
    rw [fillInverse, ih hnodup]
    by_cases hc : c = e
    · subst hc
      have hnot (k : ℕ) : digits[k]? ≠ some c := fun hk => he (List.mem_of_getElem? hk)
      constructor
      · rintro (⟨k, hk, -⟩ | ⟨-, hd⟩)
        · exact absurd hk (hnot k)
        · rw [Function.update_self] at hd
          exact .inl ⟨0, rfl, (Option.some.inj hd).symm⟩
      · rintro (⟨k, hk, rfl⟩ | ⟨hmem, -⟩)
        · cases k with
          | zero => exact .inr ⟨he, by rw [Function.update_self, add_zero]⟩
          | succ k => exact absurd hk (hnot k)
        · exact absurd (List.mem_cons_self) hmem
    · rw [Function.update_of_ne hc]
      constructor
      · rintro (⟨k, hk, rfl⟩ | ⟨hmem, hd⟩)
        · exact .inl ⟨k + 1, hk, by omega⟩
        · exact .inr ⟨by simp [hc, hmem], hd⟩
      · rintro (⟨k, hk, rfl⟩ | ⟨hmem, hd⟩)
        · cases k with
          | zero => exact absurd (Option.some.inj hk).symm hc
          | succ k => exact .inl ⟨k, hk, by omega⟩
        · exact .inr ⟨fun h => hmem (List.mem_cons_of_mem _ h), hd⟩

variable {alphabet : Alphabet}

theorem Alphabet.inverse_eq_some : alphabet.inverse c = some d ↔ alphabet.chars[d]? = some c := by
  rw [Alphabet.inverse, fillInverse_eq_some alphabet.nodup_chars]
  simp

theorem Alphabet.inverse_char (h : d < 58) : alphabet.inverse (alphabet.char d) = some d := by
  have hlt : d < alphabet.chars.length := alphabet.length_chars ▸ h
  rw [Alphabet.inverse_eq_some, Alphabet.char, List.getD_eq_getElem _ _ hlt, List.getElem?_eq_getElem hlt]

theorem Alphabet.char_of_inverse (h : alphabet.inverse c = some d) : d < 58 ∧ c = alphabet.char d := by
  rw [Alphabet.inverse_eq_some] at h
  refine ⟨?_, ?_⟩
  · rw [← alphabet.length_chars]
    exact (List.getElem?_eq_some_iff.mp h).1
  · rw [Alphabet.char, List.getD_eq_getElem?_getD, h]
    rfl

theorem mapM_inverse : s.mapM alphabet.inverse = some digits ↔ Below 58 digits ∧ s = digits.map alphabet.char := by
  induction s generalizing digits with
  | nil =>
    rw [List.mapM_nil]
    constructor
    · intro h
      cases h
      exact ⟨by simp [Below], rfl⟩
    · rintro ⟨-, h⟩
      rw [List.map_eq_nil_iff.mp h.symm]
      rfl
  | cons c s ih =>
    rw [List.mapM_cons]
    constructor
    · intro h
      obtain ⟨d, hd, h⟩ := Option.bind_eq_some_iff.mp h
      obtain ⟨ds, hds, h⟩ := Option.bind_eq_some_iff.mp h
      cases h
      obtain ⟨hlt, rfl⟩ := Alphabet.char_of_inverse hd
      obtain ⟨hbelow, rfl⟩ := ih.mp hds
      refine ⟨?_, rfl⟩
      intro e he
      obtain rfl | he := List.mem_cons.mp he
      · exact hlt
      · exact hbelow e he
    · rintro ⟨hbelow, h⟩
      cases digits with
      | nil => cases h
      | cons d digits =>
        obtain ⟨rfl, rfl⟩ := List.cons.inj h
        have hds := ih.mpr ⟨fun e he => hbelow e (List.mem_cons_of_mem _ he), rfl⟩
        rw [Alphabet.inverse_char (hbelow d List.mem_cons_self)]
        simp only [Option.bind_eq_bind, Option.bind_some, hds]
        rfl

/-! ## Both conversions keep the number -/

theorem pow_le_encode (n : ℕ) : 256 ^ n ≤ 58 ^ (n * 2) := by
  rw [mul_comm, pow_mul]
  exact Nat.pow_le_pow_left (by norm_num) n

theorem pow_le_decode (n : ℕ) : 58 ^ n ≤ 256 ^ (n * 733 / 1000 + 1) := by
  have hbase : 58 ^ 1000 ≤ 256 ^ 733 := by decide +kernel
  apply le_of_pow_le_pow_left₀ (n := 1000) (by norm_num) (Nat.zero_le _)
  calc (58 ^ n) ^ 1000 = (58 ^ 1000) ^ n := by rw [← pow_mul, ← pow_mul, mul_comm]
    _ ≤ (256 ^ 733) ^ n := Nat.pow_le_pow_left hbase n
    _ = 256 ^ (n * 733) := by rw [← pow_mul, mul_comm]
    _ ≤ 256 ^ ((n * 733 / 1000 + 1) * 1000) := Nat.pow_le_pow_right (by norm_num) (by omega)
    _ = (256 ^ (n * 733 / 1000 + 1)) ^ 1000 := by rw [pow_mul]

theorem toNat_beq_zero : ((· == 0) ∘ UInt8.toNat : UInt8 → Bool) = (· == 0) := by
  funext byte
  rw [Function.comp_apply, Bool.eq_iff_iff, beq_iff_eq, beq_iff_eq, ← UInt8.toNat_inj]
  rfl

variable (message : List UInt8)

theorem below_toNat : Below 256 (message.map UInt8.toNat) := by
  intro d hd
  obtain ⟨byte, -, rfl⟩ := List.mem_map.mp hd
  exact byte.toNat_lt

theorem trim_toNat :
    trim (message.map UInt8.toNat) = (message.dropWhile (· == 0)).map UInt8.toNat := by
  rw [trim, List.dropWhile_map, toNat_beq_zero]

theorem encodeLoop_eq (size : ℕ) (message : List UInt8) :
    encodeLoop (List.replicate size 0) message = convert 58 256 size (message.map UInt8.toNat) := by
  rw [encodeLoop, convert, List.foldl_map]

theorem encodeBase58_eq (temp_size : ℕ) :
    encodeBase58 message temp_size alphabet =
      (recode 58 256 temp_size (message.map UInt8.toNat)).map alphabet.char := by
  have hlead : leading (message.map UInt8.toNat) = (message.takeWhile (· == 0)).length := by
    rw [leading, List.takeWhile_map, toNat_beq_zero, List.length_map]
  unfold encodeBase58 recode
  rw [hlead, trim_toNat, encodeLoop_eq, List.map_append, List.map_replicate]
  rfl

theorem decodeLoop_eq (inv : Char → Option ℕ) (b256 : List ℕ) (s : List Char) :
    decodeLoop inv b256 s = (s.mapM inv).map fun digits => digits.foldl (fun buf d => (mulAdd 256 58 d buf).2) b256 := by
  induction s generalizing b256 with
  | nil => rfl
  | cons c s ih =>
    unfold decodeLoop at ih ⊢
    rw [List.foldlM_cons, List.mapM_cons]
    cases hc : inv c with
    | none => rfl
    | some d =>
      simp only [Option.map_some, Option.bind_eq_bind, Option.bind_some, ih]
      cases s.mapM inv with
      | none => rfl
      | some digits => rfl

theorem inverse_beq_zero (alphabet : Alphabet) (h : Below 58 digits) :
    (digits.map alphabet.char).takeWhile (alphabet.inverse · == some 0) =
        (digits.takeWhile (· == 0)).map alphabet.char ∧
      (digits.map alphabet.char).dropWhile (alphabet.inverse · == some 0) = (trim digits).map alphabet.char := by
  induction digits with
  | nil => exact ⟨rfl, rfl⟩
  | cons d digits ih =>
    obtain ⟨htake, hdrop⟩ := ih fun e he => h e (List.mem_cons_of_mem _ he)
    have hd : alphabet.inverse (alphabet.char d) = some d := Alphabet.inverse_char (h d List.mem_cons_self)
    by_cases hzero : d = 0
    · subst hzero
      simp [trim, hd, htake]
      exact hdrop
    · simp [trim, hd, hzero]

theorem decodeBase58_map (h : Below 58 digits) : decodeBase58 (digits.map alphabet.char) alphabet.inverse =
      (recode 256 58 ((trim digits).length * 733 / 1000 + 1) digits).map UInt8.ofNat := by
  obtain ⟨htake, hdrop⟩ := inverse_beq_zero alphabet h
  have hdigits : ((trim digits).map alphabet.char).mapM alphabet.inverse = some (trim digits) :=
    mapM_inverse.mpr ⟨h.trim, rfl⟩
  simp only [decodeBase58]
  rw [htake, hdrop, List.length_map, decodeLoop_eq, hdigits, List.length_map]
  change List.replicate (leading digits) 0 ++ (trim (convert 256 58 _ (trim digits))).map UInt8.ofNat = _
  rw [recode, List.map_append, List.map_replicate]
  rfl

theorem digits_of_decodeBase58 (h : decodeBase58 s alphabet.inverse ≠ []) :
    ∃ digits, Below 58 digits ∧ s = digits.map alphabet.char := by
  have hrest : ∃ digits, (s.dropWhile (alphabet.inverse · == some 0)).mapM alphabet.inverse = some digits := by
    by_contra hnone
    have hnone' : (s.dropWhile (alphabet.inverse · == some 0)).mapM alphabet.inverse = none :=
      Option.eq_none_iff_forall_ne_some.mpr fun digits hd => hnone ⟨digits, hd⟩
    apply h
    simp only [decodeBase58, decodeLoop_eq, hnone']
    rfl
  obtain ⟨digits, hdigits⟩ := hrest
  obtain ⟨hbelow, hrest⟩ := mapM_inverse.mp hdigits
  have hzeroes : s.takeWhile (alphabet.inverse · == some 0) =
      (List.replicate (s.takeWhile (alphabet.inverse · == some 0)).length 0).map alphabet.char := by
    rw [List.map_replicate]
    apply List.eq_replicate_of_mem
    intro c hc
    have hzero := List.mem_takeWhile_imp hc
    exact (Alphabet.char_of_inverse (beq_iff_eq.mp hzero)).2
  refine ⟨List.replicate (s.takeWhile (alphabet.inverse · == some 0)).length 0 ++ digits, ?_, ?_⟩
  · intro d hd
    obtain hd | hd := List.mem_append.mp hd
    · rw [List.eq_of_mem_replicate hd]
      norm_num
    · exact hbelow d hd
  · rw [List.map_append, ← hzeroes, ← hrest, List.takeWhile_append_dropWhile]

/-! ## Round trips -/

theorem value_lt_decode (h : Below 58 digits) : value 58 digits < 256 ^ ((trim digits).length * 733 / 1000 + 1) := by
  rw [← value_trim]
  exact (value_lt (by norm_num) h.trim).trans_le (pow_le_decode _)

theorem value_lt_encode (h : message.length * 2 ≤ size) :
    value 256 (message.map UInt8.toNat) < 58 ^ size := by
  have hlt := value_lt (by norm_num) (below_toNat message)
  rw [List.length_map] at hlt
  exact hlt.trans_le ((pow_le_encode _).trans (Nat.pow_le_pow_right (by norm_num) h))

theorem map_ofNat_toNat : (message.map UInt8.toNat).map UInt8.ofNat = message := by
  rw [List.map_map]
  exact (List.map_congr_left fun byte _ => UInt8.ofNat_toNat).trans (List.map_id message)

theorem map_toNat_ofNat (h : Below 256 digits) : (digits.map UInt8.ofNat).map UInt8.toNat = digits := by
  rw [List.map_map]
  refine (List.map_congr_left fun d hd => ?_).trans (List.map_id digits)
  exact UInt8.toNat_ofNat_of_lt' (h d hd)

theorem decode_encodeBase58 (h : message.length * 2 ≤ size) :
    decodeBase58 (encodeBase58 message size alphabet) alphabet.inverse = message := by
  have hlt := value_lt_encode message h
  have hbelow : Below 58 (recode 58 256 size (message.map UInt8.toNat)) := recode_below (by norm_num) _ _ _
  have hback := value_lt_decode hbelow
  rw [value_recode (by norm_num) hlt] at hback
  rw [encodeBase58_eq, decodeBase58_map hbelow,
    recode_recode (by norm_num) (by norm_num) (below_toNat message) hlt hback, map_ofNat_toNat]

theorem encode_decodeBase58 (h : decodeBase58 s alphabet.inverse ≠ [])
    (hsize : (decodeBase58 s alphabet.inverse).length * 2 ≤ size) :
    encodeBase58 (decodeBase58 s alphabet.inverse) size alphabet = s := by
  obtain ⟨digits, hdigits, rfl⟩ := digits_of_decodeBase58 h
  have hlt := value_lt_decode hdigits
  have hback := value_lt_encode _ hsize
  rw [decodeBase58_map hdigits, map_toNat_ofNat (recode_below (by norm_num) _ _ _),
    value_recode (by norm_num) hlt] at hback
  rw [encodeBase58_eq, decodeBase58_map hdigits, map_toNat_ofNat (recode_below (by norm_num) _ _ _),
    recode_recode (by norm_num) (by norm_num) hdigits hlt hback]

section
variable {sha256 : List UInt8 → Vector UInt8 32}

theorem length_checksum (message : List UInt8) : (checksum sha256 message).length = 4 := by
  simp [checksum]

theorem length_layOut (type : TokenType) (token : List UInt8) :
    (layOut sha256 type token).length = 1 + token.length + 4 := by
  simp [layOut, length_checksum]
  omega

theorem encodeToken_eq (type : TokenType) (token : List UInt8) :
    encodeToken sha256 type token alphabet =
      encodeBase58 (layOut sha256 type token) ((layOut sha256 type token).length * 2) alphabet := by
  have hsize : (1 + token.length + 4) * 3 - (1 + token.length + 4) = (1 + token.length + 4) * 2 := by omega
  rw [length_layOut, ← hsize]
  rfl

theorem decodeBase58Token_eq_iff {s : List Char} {type : TokenType} {token : List UInt8} (h : token ≠ []) :
    decodeBase58Token sha256 s type alphabet.inverse = token ↔
      decodeBase58 s alphabet.inverse = layOut sha256 type token := by
  simp only [decodeBase58Token]
  generalize decodeBase58 s alphabet.inverse = ret
  constructor
  · intro hret
    split_ifs at hret with hlen htype hsum
    · exact absurd hret.symm h
    · exact absurd hret.symm h
    · exact absurd hret.symm h
    · obtain ⟨tail, rfl⟩ : ∃ tail, ret = type.toByte :: tail := List.head?_eq_some_iff.mp (not_not.mp htype)
      have hlen' : (type.toByte :: tail).length - 4 = tail.length - 4 + 1 := by
        rw [List.length_cons] at hlen ⊢
        omega
      have htoken : tail.take (tail.length - 4) = token := hret
      have hsum' := not_not.mp hsum
      rw [hlen', List.take_succ_cons, List.drop_succ_cons, htoken] at hsum'
      rw [layOut, hsum', ← htoken, List.cons_append, List.take_append_drop]
  · rintro rfl
    have hpos : 0 < token.length := List.length_pos_of_ne_nil h
    have hcut : (layOut sha256 type token).length - 4 = (type.toByte :: token).length := by
      rw [length_layOut, List.length_cons]
      omega
    have htake : (layOut sha256 type token).take ((layOut sha256 type token).length - 4) = type.toByte :: token := by
      rw [hcut, layOut, List.take_left]
    have hdrop : (layOut sha256 type token).drop ((layOut sha256 type token).length - 4) =
        checksum sha256 (type.toByte :: token) := by
      rw [hcut, layOut, List.drop_left]
    have hlen : ¬(layOut sha256 type token).length < 6 := by
      rw [length_layOut]
      omega
    have hhead : (layOut sha256 type token).head? = some type.toByte := rfl
    rw [if_neg hlen, if_neg (not_not.mpr hhead), htake, hdrop, if_neg (not_not.mpr rfl)]
    have hrest : (layOut sha256 type token).drop 1 = token ++ checksum sha256 (type.toByte :: token) := rfl
    have hsize : (layOut sha256 type token).length - 1 - 4 = token.length := by
      rw [length_layOut]
      omega
    rw [hrest, hsize, List.take_left]

theorem TokenType.toByte_injective : Function.Injective TokenType.toByte := by
  intro type type' h
  cases type <;> cases type' <;> first | rfl | exact absurd h (by decide)

/-! ## No carry -/

theorem encodeLoop_carry (message : List UInt8) {pre post : List UInt8} {byte : UInt8}
    (h : message.dropWhile (· == 0) = pre ++ byte :: post) :
    (mulAdd 58 256 byte.toNat (encodeLoop (List.replicate (message.length * 2) 0) pre)).1 = 0 := by
  have hlt := value_lt_encode message le_rfl
  rw [← value_trim, trim_toNat, h, List.map_append, List.map_cons] at hlt
  rw [encodeLoop_eq]
  exact convert_carry (by norm_num) hlt

theorem decodeLoop_carry {rest pre post : List Char} {c : Char} {b256 : List ℕ} {carry : ℕ} (h : rest = pre ++ c :: post)
    (hpre : decodeLoop alphabet.inverse (List.replicate (rest.length * 733 / 1000 + 1) 0) pre = some b256)
    (hc : alphabet.inverse c = some carry) : (mulAdd 256 58 carry b256).1 = 0 := by
  rw [decodeLoop_eq] at hpre
  obtain ⟨digits, hdigits, rfl⟩ := Option.map_eq_some_iff.mp hpre
  obtain ⟨hbelow, rfl⟩ := mapM_inverse.mp hdigits
  have hlt : value 58 (digits ++ [carry]) < 58 ^ (digits ++ [carry]).length := by
    apply value_lt (by norm_num)
    intro d hd
    obtain hd | hd := List.mem_append.mp hd
    · exact hbelow d hd
    · rw [List.mem_singleton.mp hd]
      exact (Alphabet.char_of_inverse hc).1
  have hlen : (digits ++ [carry]).length ≤ rest.length := by
    rw [h]
    simp
  have hfits := hlt.trans_le ((Nat.pow_le_pow_right (by norm_num) hlen).trans (pow_le_decode _))
  exact convert_carry (by norm_num) hfits

/-- Tokens and their spellings: a token is read back from its spelling; a string that is accepted for a type is the spelling
of what is returned, and is accepted for no other type; and no digit leaves a carry past the end of the buffer, neither of a
token nor of a string. -/
theorem token_spelling (sha256 : List UInt8 → Vector UInt8 32) (alphabet : Alphabet) :
    (∀ type token, token ≠ [] →
      decodeBase58Token sha256 (encodeToken sha256 type token alphabet) type alphabet.inverse = token) ∧
    (∀ s type, decodeBase58Token sha256 s type alphabet.inverse ≠ [] →
      s = encodeToken sha256 type (decodeBase58Token sha256 s type alphabet.inverse) alphabet ∧
      ∀ type', decodeBase58Token sha256 s type' alphabet.inverse ≠ [] → type' = type) ∧
    (∀ type token pre byte post, (layOut sha256 type token).dropWhile (· == 0) = pre ++ byte :: post →
      (mulAdd 58 256 byte.toNat
        (encodeLoop (List.replicate ((1 + token.length + 4) * 3 - (1 + token.length + 4)) 0) pre)).1 = 0) ∧
    ∀ (s pre : List Char) c post b256 carry, s.dropWhile (alphabet.inverse · == some 0) = pre ++ c :: post →
      decodeLoop alphabet.inverse
        (List.replicate ((s.dropWhile (alphabet.inverse · == some 0)).length * 733 / 1000 + 1) 0) pre = some b256 →
      alphabet.inverse c = some carry → (mulAdd 256 58 carry b256).1 = 0 := by
  refine ⟨?_, ?_, ?_, ?_⟩
  · intro type token htoken
    rw [decodeBase58Token_eq_iff htoken, encodeToken_eq, decode_encodeBase58 _ le_rfl]
  · intro s type haccept
    have hret := (decodeBase58Token_eq_iff haccept).mp rfl
    constructor
    · have hne : decodeBase58 s alphabet.inverse ≠ [] := by
        rw [hret]
        exact List.cons_ne_nil _ _
      rw [encodeToken_eq, ← hret, encode_decodeBase58 hne le_rfl]
    · intro type' haccept'
      have hret' := (decodeBase58Token_eq_iff haccept').mp rfl
      apply TokenType.toByte_injective
      exact (List.cons.inj (hret'.symm.trans hret)).1
  · intro type token pre byte post hbody
    have hsize : (1 + token.length + 4) * 3 - (1 + token.length + 4) = (layOut sha256 type token).length * 2 := by
      rw [length_layOut]
      omega
    rw [hsize]
    exact encodeLoop_carry _ hbody
  · intro s pre c post b256 carry hrest hpre hc
    exact decodeLoop_carry hrest hpre hc

/-- A token of one byte, with any checksum. -/
theorem token_spelling_account :
    decodeBase58Token (fun _ => Vector.replicate 32 0)
      (encodeToken (fun _ => Vector.replicate 32 0) .accountID [7] supplyFinanceChainAlphabet) .accountID
      supplyFinanceChainAlphabet.inverse = [7] :=
  (token_spelling _ _).1 .accountID [7] (by decide)

end

end ScfChain.Protocol
