import ScfChain.Data.Parser

/-!
# `Serializer` and `SerialIter`

What is written is a list of bytes; a `SerialIter` is a parser, whose state are the bytes that are left.
-/

namespace ScfChain.Protocol

open Data

def get64 : Parser (BitVec 64) := getBits 64 "invalid SerialIter get64"
def get160 : Parser (BitVec 160) := getBits 160 "invalid SerialIter getBitString"

def add64 (i : BitVec 64) : List UInt8 := addBits i
def add160 (i : BitVec 160) : List UInt8 := addBits i

theorem exact_get64 : Exact get64 add64 fun _ => True := exact_getBits (by decide) _
theorem exact_get160 : Exact get160 add160 fun _ => True := exact_getBits (by decide) _

theorem get64_run {bytes rest : List UInt8} {i : BitVec 64} : get64 bytes = .ok (i, rest) ↔ bytes = add64 i ++ rest :=
  (exact_get64 bytes i rest).trans (iff_of_eq (true_and _))

theorem get160_run {bytes rest : List UInt8} {i : BitVec 160} : get160 bytes = .ok (i, rest) ↔ bytes = add160 i ++ rest :=
  (exact_get160 bytes i rest).trans (iff_of_eq (true_and _))

/-! ## Field identifiers and lengths -/

def get8 : Parser UInt8 := fun bytes =>
  match bytes with
  | [] => .error "invalid SerialIter get8"
  | b :: rest => .ok (b, rest)

/-- A type or a name that was not in the first byte. -/
def uncommon (what : String) (id : ℕ) : Parser ℕ := do
  if id ≠ 0 then return id
  let id := (← get8).toNat
  if id = 0 ∨ id < 16 then throw ("gFID: uncommon " ++ what ++ " out of range " ++ toString id) else return id

/-- The type and the name of a field. -/
def getFieldID : Parser (ℕ × ℕ) := do
  let byte := (← get8).toNat
  let type ← uncommon "type" (byte >>> 4)
  let name ← uncommon "name" (byte &&& 15)
  return (type, name)

def addFieldID (type name : ℕ) : Except String (List UInt8) :=
  if ¬ (0 < type ∧ type < 256 ∧ 0 < name ∧ name < 256) then .error "assert"
  else if type < 16 then
    if name < 16 then .ok [.ofNat (type <<< 4 ||| name)] else .ok [.ofNat (type <<< 4), .ofNat name]
  else if name < 16 then .ok [.ofNat name, .ofNat type]
  else .ok [0, .ofNat type, .ofNat name]

def addEncoded (length : ℤ) : Except String (List UInt8) :=
  if length ≤ 192 then .ok [.ofInt length]
  else if length ≤ 12480 then .ok [193 + .ofInt ((length - 193) >>> (8 : ℕ)), .ofInt (length - 193)]
  else if length ≤ 918744 then
    .ok [241 + .ofInt ((length - 12481) >>> (16 : ℕ)), .ofInt ((length - 12481) >>> (8 : ℕ)), .ofInt (length - 12481)]
  else .error "lenlen"

/-- `decodeLengthLength` and the three functions `decodeVLLength`, whose own checks never fail here. -/
def getVLDataLength : Parser ℤ := do
  let b1 := (← get8).toNat
  if b1 ≤ 192 then return b1
  else if b1 ≤ 240 then return 193 + (b1 - 193) * 256 + (← get8).toNat
  else if b1 ≤ 254 then
    let b2 := (← get8).toNat
    return 12481 + (b1 - 241) * 65536 + b2 * 256 + (← get8).toNat
  else throw "b1>254"

theorem get8_run {bytes rest : List UInt8} {byte : UInt8} : get8 bytes = .ok (byte, rest) ↔ bytes = byte :: rest := by
  cases bytes with
  | nil => simp [get8]
  | cons first tail => simp [get8]

theorem uncommon_run {what : String} {bytes rest : List UInt8} {id n : ℕ} : uncommon what id bytes = .ok (n, rest) ↔
      (id ≠ 0 ∧ id = n ∧ bytes = rest) ∨ (id = 0 ∧ 16 ≤ n ∧ ∃ byte : UInt8, byte.toNat = n ∧ bytes = byte :: rest) := by
  unfold uncommon
  by_cases hid : id = 0
  · rw [if_neg (by simpa using hid)]
    refine bind_run.trans ⟨fun h => ?_, fun h => ?_⟩
    · obtain ⟨byte, bytes', hget, h⟩ := h
      obtain rfl := get8_run.mp hget
      split_ifs at h with hlow
      · cases h
      · cases h
        exact .inr ⟨hid, by omega, byte, rfl, rfl⟩
    · obtain ⟨hne, -⟩ | ⟨-, hle, byte, rfl, rfl⟩ := h
      · exact absurd hid hne
      · exact ⟨byte, rest, rfl, by rw [if_neg (by omega)]; rfl⟩
  · rw [if_pos hid]
    refine ⟨fun h => ?_, fun h => ?_⟩
    · cases h
      exact .inl ⟨hid, rfl, rfl⟩
    · obtain ⟨-, rfl, rfl⟩ | ⟨hzero, -⟩ := h
      · rfl
      · exact absurd hzero hid

theorem ofNat_halves (byte : UInt8) : UInt8.ofNat (byte.toNat >>> 4 <<< 4 ||| byte.toNat &&& 15) = byte := by
  revert byte
  decide +kernel

/-- A field identifier that was read is written as it was read. -/
theorem getFieldID_written {bytes rest : List UInt8} {type name : ℕ} (h : getFieldID bytes = .ok ((type, name), rest)) :
    ∃ written, addFieldID type name = .ok written ∧ bytes = written ++ rest := by
  obtain ⟨first, bytes₁, hget, hrun⟩ := bind_run.mp h
  obtain rfl := get8_run.mp hget
  obtain ⟨type', bytes₂, htype, hrun'⟩ := bind_run.mp hrun
  obtain ⟨name', bytes₃, hname, hpure⟩ := bind_run.mp hrun'
  cases hpure
  have hfirst := ofNat_halves first
  have hlt := first.toNat_lt
  have hhigh : first.toNat >>> 4 = first.toNat / 16 := Nat.shiftRight_eq_div_pow _ _
  have hlow : first.toNat &&& 15 = first.toNat % 16 := Nat.and_two_pow_sub_one_eq_mod _ 4
  unfold addFieldID
  obtain ⟨htype0, rfl, rfl⟩ | ⟨htype0, htype16, second, rfl, rfl⟩ := uncommon_run.mp htype <;>
    obtain ⟨hname0, rfl, rfl⟩ | ⟨hname0, hname16, third, rfl, rfl⟩ := uncommon_run.mp hname
  · rw [if_neg (by omega), if_pos (by omega), if_pos (by omega), hfirst]
    exact ⟨_, rfl, rfl⟩
  · have := third.toNat_lt
    rw [hname0, Nat.or_zero] at hfirst
    rw [if_neg (by omega), if_pos (by omega), if_neg (by omega), hfirst, UInt8.ofNat_toNat]
    exact ⟨_, rfl, rfl⟩
  · have := second.toNat_lt
    rw [htype0, Nat.zero_shiftLeft, Nat.zero_or] at hfirst
    rw [if_neg (by omega), if_neg (by omega), if_pos (by omega), hfirst, UInt8.ofNat_toNat]
    exact ⟨_, rfl, rfl⟩
  · have := second.toNat_lt
    have := third.toNat_lt
    rw [htype0, hname0] at hfirst
    rw [if_neg (by omega), if_neg (by omega), if_neg (by omega), UInt8.ofNat_toNat, UInt8.ofNat_toNat]
    exact ⟨_, rfl, by rw [← hfirst]; rfl⟩

theorem add_ofInt_eq {a b : UInt8} {x : ℤ} (h : (a.toNat + x) % 256 = b.toNat) : a + .ofInt x = b := by
  rw [← UInt8.toNat_inj, UInt8.toNat_add, UInt8.ofInt, UInt8.toNat_ofNat']
  omega

theorem ofInt_eq {b : UInt8} {x : ℤ} (h : x % 256 = b.toNat) : .ofInt x = b := by
  rw [← add_ofInt_eq (a := 0) (b := b) (x := x) (by simpa using h), UInt8.zero_add]

/-- A length that was read is written as it was read, unless it is above what `addEncoded` writes. -/
theorem getVLDataLength_written {bytes rest : List UInt8} {length : ℤ} (h : getVLDataLength bytes = .ok (length, rest)) :
    (∃ written, addEncoded length = .ok written ∧ bytes = written ++ rest) ↔ length ≤ 918744 := by
  obtain ⟨b1, bytes₁, hget, hrun⟩ := bind_run.mp h
  obtain rfl := get8_run.mp hget
  have hb1 := b1.toNat_lt
  unfold addEncoded
  by_cases hone : b1.toNat ≤ 192
  · rw [if_pos hone] at hrun
    cases hrun
    rw [if_pos (by omega), ofInt_eq (b := b1) (by omega)]
    exact iff_of_true ⟨_, rfl, rfl⟩ (by omega)
  rw [if_neg hone] at hrun
  by_cases htwo : b1.toNat ≤ 240
  · rw [if_pos htwo] at hrun
    obtain ⟨b2, bytes₂, hget₂, hpure⟩ := bind_run.mp hrun
    obtain rfl := get8_run.mp hget₂
    have hb2 := b2.toNat_lt
    cases hpure
    rw [if_neg (by omega), if_pos (by omega), Int.shiftRight_eq_div_pow, add_ofInt_eq (b := b1) (by simp; omega),
      ofInt_eq (b := b2) (by omega)]
    exact iff_of_true ⟨_, rfl, rfl⟩ (by omega)
  rw [if_neg htwo] at hrun
  by_cases hthree : b1.toNat ≤ 254
  · rw [if_pos hthree] at hrun
    obtain ⟨b2, bytes₂, hget₂, hrun'⟩ := bind_run.mp hrun
    obtain rfl := get8_run.mp hget₂
    obtain ⟨b3, bytes₃, hget₃, hpure⟩ := bind_run.mp hrun'
    obtain rfl := get8_run.mp hget₃
    have hb2 := b2.toNat_lt
    have hb3 := b3.toNat_lt
    cases hpure
    rw [if_neg (by omega), if_neg (by omega)]
    split_ifs with hfits
    · rw [Int.shiftRight_eq_div_pow, Int.shiftRight_eq_div_pow, add_ofInt_eq (b := b1) (by simp; omega),
        ofInt_eq (b := b2) (by simp; omega), ofInt_eq (b := b3) (by omega)]
      exact iff_of_true ⟨_, rfl, rfl⟩ hfits
    · exact iff_of_false (by rintro ⟨_, hwritten, -⟩; cases hwritten) hfits
  · rw [if_neg hthree] at hrun
    cases hrun

/-- **What is accepted can be written back**, except for lengths that `getVLDataLength` reads and `addEncoded` does not
write. -/
theorem accepted_written_iff (bytes : List UInt8) : (∀ type name rest, getFieldID bytes = .ok ((type, name), rest) →
      ∃ written, addFieldID type name = .ok written ∧ bytes = written ++ rest) ∧
    ∀ length rest, getVLDataLength bytes = .ok (length, rest) →
      ((∃ written, addEncoded length = .ok written ∧ bytes = written ++ rest) ↔ length ≤ 918744) :=
  ⟨fun _ _ _ => getFieldID_written, fun _ _ => getVLDataLength_written⟩

/-- The largest length that is read. -/
theorem addEncoded_refuses :
    getVLDataLength [254, 255, 255] = .ok (929984, []) ∧ addEncoded 929984 = .error "lenlen" := by decide

end ScfChain.Protocol
