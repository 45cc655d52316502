import ScfChain.Data.Parser
import ScfChain.Protocol.AmountJson
import ScfChain.Protocol.Canonicality

/-!
# The text of currencies

`to_string` and `to_currency` of a currency, with `base_uint::SetHex`. A text is a list of characters, each of which is a byte.

* `toCurrency_toText_iff` : which currencies are read back from their text.
-/

namespace ScfChain.Protocol

open Data

def noCurrency : BitVec 160 := 1

/-! ## Writing -/

def allowedCharacters : List Char :=
  "abcdefghijklmnopqrstuvwxyzABCDEFGHIJKLMNOPQRSTUVWXYZ0123456789<>()\x7b\x7d[]|?!@#$%^&*".toList

def sIsoBits : BitVec 160 := 0xFFFFFFFFFFFFFFFFFFFFFFFF000000FFFFFFFFFF

def charOf (b : UInt8) : Char := .ofNat b.toNat

/-- The three characters at offset 12. -/
def iso (currency : BitVec 160) : List Char := (((addBits currency).drop 12).take 3).map charOf

def strHex (bytes : List UInt8) : List Char :=
  bytes.flatMap fun b : UInt8 => [hexDigit ((b &&& 0xf0) >>> 4).toNat, hexDigit ((b &&& 0x0f) >>> 0).toNat]

/-- `to_string` -/
def toText (currency : BitVec 160) : List Char :=
  if currency = 0 then systemCurrencyCode
  else if currency = noCurrency then ['1']
  else if currency &&& sIsoBits = 0 ∧ iso currency ≠ systemCurrencyCode ∧ (iso currency).all (· ∈ allowedCharacters) then
    iso currency
  else strHex (addBits currency)

/-! ## Reading -/

def charUnHex (c : Char) : Option ℕ :=
  if '0' ≤ c ∧ c ≤ '9' then some (c.toNat - 48)
  else if 'A' ≤ c ∧ c ≤ 'F' then some (c.toNat - 55)
  else if 'a' ≤ c ∧ c ≤ 'f' then some (c.toNat - 87)
  else none

def isspace (c : Char) : Bool := c = ' ' ∨ (9 ≤ c.toNat ∧ c.toNat ≤ 13)

/-- `SetHex`, not strict. The text ends at its first zero; of too many digits the last ones count. -/
def setHex (str : List Char) : Option (BitVec 160) :=
  let psz := (str.takeWhile (·.toNat ≠ 0)).dropWhile isspace
  let pBegin := if psz.head? = some '0' ∧ (psz.drop 1).head?.map Char.toLower = some 'x' then psz.drop 2 else psz
  let digits := pBegin.takeWhile fun c => (charUnHex c).isSome
  if digits = pBegin then some (.ofNat 160 (digits.foldl (fun n c => n * 16 + (charUnHex c).getD 0) 0)) else none

/-- `to_currency` of a reference, with `up` for `toupper`. -/
def readCurrency (up : Char → Char) (code : List Char) : Option (BitVec 160) :=
  if code = [] ∨ code = systemCurrencyCode then some 0
  else if code.length = 3 then
    let codeBlob := code.map fun c => UInt8.ofNat (up c).toNat
    some (.ofNat 160 (ofBytes (List.replicate 12 0 ++ codeBlob ++ List.replicate 2 0 ++ List.replicate 3 0)))
  else if 40 = code.length then setHex code
  else none

def toCurrency (code : List Char) : BitVec 160 := (readCurrency Char.toUpper code).getD noCurrency

/-! ## Hexadecimal texts -/

theorem hexDigit_spec : ∀ n < 16, (hexDigit n).toNat ≠ 0 ∧ isspace (hexDigit n) = false ∧ (hexDigit n).toLower ≠ 'x' ∧
    charUnHex (hexDigit n) = some n ∧ (hexDigit n).isLower = false := by decide

theorem mem_strHex {bytes : List UInt8} {c : Char} (h : c ∈ strHex bytes) : ∃ n < 16, c = hexDigit n := by
  obtain ⟨b, -, hc⟩ := List.mem_flatMap.mp h
  obtain ⟨hhigh, hlow, -⟩ := halves_byte b
  obtain rfl | rfl : c = _ ∨ c = _ := by simpa using hc
  · exact ⟨_, hhigh, rfl⟩
  · exact ⟨_, hlow, rfl⟩

theorem length_strHex (currency : BitVec 160) : (strHex (addBits currency)).length = 40 := by
  have hlen : (addBits currency).length = 20 := length_toBytes _ _
  rw [strHex, List.length_flatMap]
  simp [hlen]

theorem setHex_strHex (currency : BitVec 160) : setHex (strHex (addBits currency)) = some currency := by
  have hspec : ∀ c ∈ strHex (addBits currency), c.toNat ≠ 0 ∧ isspace c = false ∧ c.toLower ≠ 'x' ∧ (charUnHex c).isSome := by
    intro c hc
    obtain ⟨n, hn, rfl⟩ := mem_strHex hc
    obtain ⟨hzero, hspace, hx, hvalue, -⟩ := hexDigit_spec n hn
    exact ⟨hzero, hspace, hx, by rw [hvalue]; rfl⟩
  have hpsz : ((strHex (addBits currency)).takeWhile (·.toNat ≠ 0)).dropWhile isspace = strHex (addBits currency) := by
    rw [List.takeWhile_eq_self_iff.mpr fun c hc => by simpa using (hspec c hc).1, List.dropWhile_eq_self_iff]
    intro hpos
    rw [(hspec _ (List.getElem_mem hpos)).2.1]
    exact Bool.false_ne_true
  have hx : (strHex (addBits currency)).tail.head?.map Char.toLower ≠ some 'x' := by
    intro h
    obtain ⟨c, hc, hlower⟩ := Option.map_eq_some_iff.mp h
    exact (hspec c (List.mem_of_mem_tail (List.mem_of_mem_head? hc))).2.2.1 hlower
  unfold setHex
  simp only [hpsz, List.drop_one, hx, and_false, if_false]
  rw [List.takeWhile_eq_self_iff.mpr fun c hc => (hspec c hc).2.2.2, if_pos rfl, strHex,
    foldl_hexDigits fun n hn => by rw [(hexDigit_spec n hn).2.2.2.1]; rfl]
  have hback : ofBytes (addBits currency) = currency.toNat := ofBytes_toBytes (by simpa using currency.isLt)
  change some (BitVec.ofNat 160 (ofBytes (addBits currency))) = some currency
  rw [hback, BitVec.ofNat_toNat, BitVec.setWidth_eq]

/-! ## Three characters -/

/-- A currency that is zero but for the three bytes. -/
theorem toNat_of_iso {currency : BitVec 160} (h : currency &&& sIsoBits = 0) :
    currency.toNat = currency.toNat / 2 ^ 40 % 2 ^ 24 * 2 ^ 40 := by
  have hmask : ∀ i < 160, i < 40 ∨ 64 ≤ i → sIsoBits.getLsbD i = true := by decide +kernel
  refine Nat.eq_of_testBit_eq fun i => ?_
  rw [Nat.testBit_mul_two_pow, Nat.testBit_mod_two_pow, Nat.testBit_div_two_pow]
  by_cases hi : i < 40 ∨ 64 ≤ i
  · have hfalse : currency.getLsbD i = false := by
      by_cases h160 : i < 160
      · have hbit := congrArg (BitVec.getLsbD · i) h
        simpa [hmask i h160 hi] using hbit
      · exact BitVec.getLsbD_of_ge _ _ (by omega)
    rw [BitVec.getLsbD] at hfalse
    rw [hfalse]
    obtain hi | hi := hi
    · simp [hi]
    · simp [show ¬ i - 40 < 24 by omega]
  · simp [show 40 ≤ i by omega, show i - 40 < 24 by omega, show i - 40 + 40 = i by omega]

theorem isoBytes_eq (currency : BitVec 160) :
    ((addBits currency).drop 12).take 3 = toBytes 3 (currency.toNat / 2 ^ 40) := by
  rw [addBits, toBytes_eq_map, toBytes_eq_map]
  simp [List.range_succ, Nat.div_div_eq_div_mul]

section

variable {up : Char → Char}

/-- Three characters are read as three bytes. -/
theorem readCurrency_iso (hup : ∀ b : UInt8, UInt8.ofNat (up (charOf b)).toNat = b ↔ up (charOf b) = charOf b)
    {currency : BitVec 160} (hmask : currency &&& sIsoBits = 0) (hne : iso currency ≠ systemCurrencyCode) :
    readCurrency up (iso currency) = some currency ↔ ∀ c ∈ iso currency, up c = c := by
  obtain ⟨bytes, hbytes⟩ : ∃ bytes, bytes = ((addBits currency).drop 12).take 3 := ⟨_, rfl⟩
  have htext : iso currency = bytes.map charOf := by rw [hbytes]; rfl
  rw [isoBytes_eq] at hbytes
  have hlen : bytes.length = 3 := by rw [hbytes, length_toBytes]
  have hval : ofBytes bytes * 2 ^ 40 = currency.toNat := by
    have hnat := toNat_of_iso hmask
    rw [hbytes, ofBytes_toBytes (by omega)]
    omega
  obtain ⟨blob, hblob⟩ : ∃ blob, blob = bytes.map fun b => UInt8.ofNat (up (charOf b)).toNat := ⟨_, rfl⟩
  have hblob3 : blob.length = 3 := by rw [hblob, List.length_map, hlen]
  have hread : readCurrency up (iso currency) = some (.ofNat 160 (ofBytes blob * 2 ^ 40)) := by
    rw [readCurrency, if_neg (not_or.mpr ⟨by rw [htext, ← List.length_eq_zero_iff]; simp [hlen], hne⟩),
      if_pos (by rw [htext, List.length_map, hlen])]
    simp only [htext, List.map_map, Function.comp_def, ← hblob, ofBytes_append, List.length_replicate]
    rw [show ofBytes (List.replicate 12 0) = 0 from rfl, show ofBytes (List.replicate 2 0) = 0 from rfl,
      show ofBytes (List.replicate 3 0) = 0 from rfl]
    rw [zero_mul, zero_add, add_zero, add_zero, mul_assoc]
    rfl
  have hlt := ofBytes_lt blob
  rw [hblob3] at hlt
  have hsame : ofBytes blob = ofBytes bytes ↔ blob = bytes := by
    refine ⟨fun h => ?_, fun h => by rw [h]⟩
    rw [← toBytes_ofBytes blob, ← toBytes_ofBytes bytes, hblob3, hlen, h]
  rw [hread, Option.some_inj, ← BitVec.toNat_inj, BitVec.toNat_ofNat, Nat.mod_eq_of_lt (by omega), ← hval,
    Nat.mul_left_inj (by norm_num), hsame, htext, List.forall_mem_map, hblob]
  conv_lhs => rhs; rw [← List.map_id bytes]
  rw [List.map_eq_map_iff]
  exact forall₂_congr fun b _ => hup b

theorem readCurrency_toText (hup : ∀ b : UInt8, UInt8.ofNat (up (charOf b)).toNat = b ↔ up (charOf b) = charOf b)
    (hfix : ∀ c, c.isLower = false → up c = c) (currency : BitVec 160) :
    (readCurrency up (toText currency)).getD noCurrency = currency ↔ ∀ c ∈ toText currency, up c = c := by
  unfold toText
  split_ifs with hzero hone hiso
  · refine iff_of_true hzero.symm fun c hc => hfix c ?_
    obtain rfl | rfl | rfl : c = 'S' ∨ c = 'F' ∨ c = 'C' := by simpa [systemCurrencyCode] using hc
    all_goals rfl
  · exact iff_of_true hone.symm fun c hc => hfix c (by rw [List.mem_singleton.mp hc]; rfl)
  · rw [← readCurrency_iso hup hiso.1 hiso.2.1]
    cases hread : readCurrency up (iso currency) with
    | none => exact iff_of_false (Ne.symm hone) (by simp)
    | some read => simp
  · have hread : readCurrency up (strHex (addBits currency)) = some currency := by
      have hlen := length_strHex currency
      rw [readCurrency, if_neg (by rintro (h | h) <;> rw [h] at hlen <;> cases hlen), if_neg (by omega),
        if_pos hlen.symm, setHex_strHex]
    rw [hread]
    refine iff_of_true rfl fun c hc => hfix c ?_
    obtain ⟨n, hn, rfl⟩ := mem_strHex hc
    exact (hexDigit_spec n hn).2.2.2.2

end

theorem toUpper_eq_self_iff (c : Char) : c.toUpper = c ↔ c.isLower = false := by
  unfold Char.toUpper Char.isLower
  split
  next h =>
    refine iff_of_false (fun heq => ?_) (by simp_all)
    have hval := congrArg Char.val heq
    simp at hval
  next h => exact iff_of_true rfl (by simp_all)

/-- **Which currencies are read back from their text.** The text of two currencies is never the same, and only the native
currency has the native code. -/
theorem toCurrency_toText_iff (currency : BitVec 160) :
    (toCurrency (toText currency) = currency ↔ ∀ c ∈ toText currency, c.isLower = false) ∧
      (∀ other, toText other = toText currency → other = currency) ∧
      (toText currency = systemCurrencyCode → currency = 0) ∧ toCurrency systemCurrencyCode = 0 := by
  have hinverse : ∀ c : BitVec 160, (readCurrency id (toText c)).getD noCurrency = c := fun c =>
    (readCurrency_toText (fun b => iff_of_true (by revert b; decide +kernel) rfl) (fun _ _ => rfl) c).mpr fun _ _ => rfl
  refine ⟨?_, fun other h => ?_, fun h => ?_, rfl⟩
  · refine (readCurrency_toText (by decide +kernel) (fun c => (toUpper_eq_self_iff c).mpr) currency).trans ?_
    exact forall₂_congr fun c _ => toUpper_eq_self_iff c
  · rw [← hinverse other, h, hinverse]
  · rw [← hinverse currency, h]
    rfl

/-- The code `abc` is read as `ABC`. -/
theorem toText_lowered : toText (0x616263 <<< 40) = ['a', 'b', 'c'] ∧ toCurrency ['a', 'b', 'c'] = 0x414243 <<< 40 := by
  decide +kernel

end ScfChain.Protocol
