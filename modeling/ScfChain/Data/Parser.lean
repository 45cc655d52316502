import ScfChain.Data.Bytes
import ScfChain.Data.Succeeds

/-!
# Parsers

A parser reads a value off the front of a list of bytes and leaves the rest. `Exact p w P`: what `p` accepts is exactly what
`w` writes of the values in `P`, so that a value has one encoding and an encoding one value.
-/

namespace ScfChain.Data

abbrev Parser (α : Type) := StateT (List UInt8) (Except String) α

variable {α β : Type} {p : Parser α} {w : α → List UInt8} {P : α → Prop}

/-- What `p` accepts is exactly what `w` writes of the values in `P`. -/
def Exact (p : Parser α) (w : α → List UInt8) (P : α → Prop) : Prop :=
  ∀ bytes a rest, p bytes = .ok (a, rest) ↔ P a ∧ bytes = w a ++ rest

theorem Exact.read (h : Exact p w P) {a : α} (ha : P a) (rest : List UInt8) : p (w a ++ rest) = .ok (a, rest) :=
  (h _ _ _).mpr ⟨ha, rfl⟩

/-! ## Words -/

/-- A word of `bits` bits, most significant byte first. -/
def getBits (bits : ℕ) (err : String) : Parser (BitVec bits) := fun bytes =>
  if bytes.length < bits / 8 then .error err
  else .ok (BitVec.ofNat bits (ofBytes (bytes.take (bits / 8))), bytes.drop (bits / 8))

/-- The bytes of a word, most significant first. -/
def addBits {bits : ℕ} (word : BitVec bits) : List UInt8 := toBytes (bits / 8) word.toNat

theorem exact_getBits {bits : ℕ} (h8 : bits = 8 * (bits / 8)) (err : String) :
    Exact (getBits bits err) addBits fun _ => True := by
  have hpow : 2 ^ bits = 256 ^ (bits / 8) := by
    conv_lhs => rw [h8, pow_mul]
    norm_num
  intro bytes word rest
  unfold getBits addBits
  constructor
  · intro h
    split_ifs at h with hlen
    obtain ⟨hword, hrest⟩ := Prod.mk.inj (Except.ok.inj h)
    refine ⟨trivial, ?_⟩
    have hlen' : (bytes.take (bits / 8)).length = bits / 8 := by simp; omega
    have hlt := ofBytes_lt (bytes.take (bits / 8))
    rw [hlen', ← hpow] at hlt
    have hback := toBytes_ofBytes (bytes.take (bits / 8))
    rw [hlen'] at hback
    rw [← hword, BitVec.toNat_ofNat, Nat.mod_eq_of_lt hlt, hback, ← hrest, List.take_append_drop]
  · rintro ⟨-, rfl⟩
    rw [if_neg (by simp), List.take_left' (length_toBytes _ _), List.drop_left' (length_toBytes _ _), ofBytes_toBytes]
    · rw [BitVec.ofNat_toNat, BitVec.setWidth_eq]
    · rw [← hpow]
      exact word.isLt

end ScfChain.Data
