import ScfChain.ShaMap.Encoding

/-!
# Common prefixes of keys

Version-2 inner nodes keep the nibbles that all keys below them begin with (`Prefix`): `depth_` of them, in the bytes of
`common_`. The functions of the source go through the bytes of keys and look at half a byte at the end; what they compute is
said here in nibbles (`Agree`).
-/

namespace ScfChain.ShaMap

open Data

/-! ## Bytes and nibbles -/

/-- The byte `i` of a key. -/
def byteAt (key : Hash) (i : ℕ) : UInt8 := UInt8.ofNat (key.toNat / 256 ^ (31 - i))

/-- The byte with its second nibble cleared. -/
def highAt (key : Hash) (i : ℕ) : UInt8 := byteAt key i &&& 0xF0

theorem toNat_byteAt (key : Hash) (i : ℕ) (hi : i < 32) :
    (byteAt key i).toNat = 16 * (selectBranch (2 * i) key).val + (selectBranch (2 * i + 1) key).val := by
  have hpow : 256 ^ (31 - i) = 16 ^ (63 - (2 * i + 1)) := by
    rw [show 63 - (2 * i + 1) = 2 * (31 - i) by omega, pow_mul]
    norm_num
  have hpow' : 16 ^ (63 - 2 * i) = 16 ^ (63 - (2 * i + 1)) * 16 := by
    rw [← pow_succ]
    congr 1
    omega
  simp only [byteAt, selectBranch, UInt8.toNat_ofNat', hpow, hpow', ← Nat.div_div_eq_div_mul]
  omega

variable {key key' : Hash} {i d e n depth : ℕ}

theorem byteAt_eq_iff (hi : i < 32) : byteAt key i = byteAt key' i ↔
      selectBranch (2 * i) key = selectBranch (2 * i) key' ∧ selectBranch (2 * i + 1) key = selectBranch (2 * i + 1) key' := by
  rw [← UInt8.toNat_inj, toNat_byteAt key i hi, toNat_byteAt key' i hi, Fin.ext_iff, Fin.ext_iff]
  omega

theorem toNat_highAt (key : Hash) (i : ℕ) (hi : i < 32) : (highAt key i).toNat = 16 * (selectBranch (2 * i) key).val := by
  have hmask : ∀ b : BitVec 8, (b &&& 0xF0).toNat = b.toNat / 16 * 16 := by decide +kernel
  have hbyte := toNat_byteAt key i hi
  have hhigh : (highAt key i).toNat = (byteAt key i).toNat / 16 * 16 := hmask (byteAt key i).toBitVec
  omega

theorem highAt_eq_iff (hi : i < 32) :
    highAt key i = highAt key' i ↔ selectBranch (2 * i) key = selectBranch (2 * i) key' := by
  rw [← UInt8.toNat_inj, toNat_highAt key i hi, toNat_highAt key' i hi, Fin.ext_iff]
  omega

theorem Agree.symm (h : Agree d key key') : Agree d key' key := fun e he => (h e he).symm

theorem Agree.trans {key'' : Hash} (h : Agree d key key') (h' : Agree d key' key'') : Agree d key key'' :=
  fun e he => (h e he).trans (h' e he)

theorem Agree.mono (h : Agree d key key') (hle : e ≤ d) : Agree e key key' :=
  fun f hf => h f (hf.trans_le hle)

theorem agree_succ_succ (hn : n < 32) :
    Agree (2 * (n + 1)) key key' ↔ Agree (2 * n) key key' ∧ byteAt key n = byteAt key' n := by
  rw [byteAt_eq_iff hn]
  constructor
  · intro h
    exact ⟨h.mono (by omega), h (2 * n) (by omega), h (2 * n + 1) (by omega)⟩
  · rintro ⟨h, heven, hodd⟩
    exact (h.succ heven).succ hodd

theorem agree_bytes (hn : n ≤ 32) : Agree (2 * n) key key' ↔ ∀ i < n, byteAt key i = byteAt key' i := by
  induction n with
  | zero => exact iff_of_true (fun e he => absurd he (by omega)) (fun i hi => absurd hi (by omega))
  | succ n ih =>
    rw [agree_succ_succ (by omega), ih (by omega)]
    constructor
    · rintro ⟨h, hlast⟩ i hi
      rcases Nat.lt_succ_iff_lt_or_eq.mp hi with hi | rfl
      · exact h i hi
      · exact hlast
    · intro h
      exact ⟨fun i hi => h i (by omega), h n (by omega)⟩

theorem agree_bytes_high (hn : n < 32) :
    Agree (2 * n + 1) key key' ↔ (∀ i < n, byteAt key i = byteAt key' i) ∧ highAt key n = highAt key' n := by
  rw [← agree_bytes hn.le, highAt_eq_iff hn]
  constructor
  · intro h
    exact ⟨h.mono (by omega), h (2 * n) (by omega)⟩
  · rintro ⟨h, hlast⟩
    exact h.succ hlast

/-! ## `SHAMapInnerNodeV2` -/

/-- `depth_` and `common_`. -/
@[ext]
structure Prefix where
  depth : ℕ
  common : Hash
deriving DecidableEq

namespace Prefix

def hasCommonPrefix (p : Prefix) (key : Hash) : Bool :=
  (List.range (p.depth / 2)).all (fun i => byteAt p.common i == byteAt key i) &&
    (p.depth % 2 == 0 || highAt p.common (p.depth / 2) == highAt key (p.depth / 2))

variable {p : Prefix}

theorem hasCommonPrefix_iff {key : Hash} (h : p.depth ≤ 64) :
    p.hasCommonPrefix key = true ↔ Agree p.depth p.common key := by
  unfold hasCommonPrefix
  simp only [Bool.and_eq_true, List.all_eq_true, List.mem_range, Bool.or_eq_true, beq_iff_eq]
  obtain heven | hodd := Nat.mod_two_eq_zero_or_one p.depth
  · have hdepth : p.depth = 2 * (p.depth / 2) := by omega
    have hbytes : Agree p.depth p.common key ↔ _ := hdepth ▸ agree_bytes (by omega)
    rw [hbytes]
    simp [heven]
  · have hdepth : p.depth = 2 * (p.depth / 2) + 1 := by omega
    have hbytes : Agree p.depth p.common key ↔ _ := hdepth ▸ agree_bytes_high (by omega)
    rw [hbytes]
    simp [hodd]

/-- The loop of `get_common_prefix` with `rounds` bytes to go. -/
def commonLoop (p : Prefix) (key : Hash) : ℕ → ℕ
  | 0 =>
    let i := p.depth / 2
    if p.depth % 2 = 1 ∧ highAt p.common i = highAt key i then 2 * i + 1 else 2 * i
  | rounds + 1 =>
    let i := p.depth / 2 - (rounds + 1)
    if byteAt p.common i ≠ byteAt key i then if highAt p.common i = highAt key i then 2 * i + 1 else 2 * i
    else commonLoop p key rounds

def getCommonPrefix (p : Prefix) (key : Hash) : ℕ := p.commonLoop key (p.depth / 2)

/-- The number of nibbles that `p` and `key` begin with alike, up to `p.depth`. -/
structure IsCommon (p : Prefix) (key : Hash) (r : ℕ) : Prop where
  le : r ≤ p.depth
  agree : Agree r p.common key
  ne : r < p.depth → selectBranch r p.common ≠ selectBranch r key

theorem isCommon_commonLoop {key : Hash} (hp : p.depth ≤ 64) {rounds : ℕ} (hr : rounds ≤ p.depth / 2)
    (h : Agree (2 * (p.depth / 2 - rounds)) p.common key) : IsCommon p key (p.commonLoop key rounds) := by
  induction rounds with
  | zero =>
    simp only [commonLoop]
    rw [Nat.sub_zero] at h
    by_cases hodd : p.depth % 2 = 1
    · by_cases hhigh : highAt p.common (p.depth / 2) = highAt key (p.depth / 2)
      · rw [if_pos ⟨hodd, hhigh⟩]
        exact ⟨by omega, h.succ ((highAt_eq_iff (by omega)).mp hhigh), by omega⟩
      · rw [if_neg fun hand => hhigh hand.2]
        exact ⟨by omega, h, fun _ => (highAt_eq_iff (by omega)).not.mp hhigh⟩
    · rw [if_neg fun hand => hodd hand.1]
      exact ⟨by omega, h, by omega⟩
  | succ rounds ih =>
    simp only [commonLoop]
    by_cases hbyte : byteAt p.common (p.depth / 2 - (rounds + 1)) = byteAt key (p.depth / 2 - (rounds + 1))
    · rw [if_neg (not_not.mpr hbyte)]
      apply ih (by omega)
      rw [show p.depth / 2 - rounds = p.depth / 2 - (rounds + 1) + 1 by omega, agree_succ_succ (by omega)]
      exact ⟨h, hbyte⟩
    · rw [if_pos hbyte]
      rw [byteAt_eq_iff (by omega)] at hbyte
      by_cases hhigh : highAt p.common (p.depth / 2 - (rounds + 1)) = highAt key (p.depth / 2 - (rounds + 1))
      · rw [if_pos hhigh]
        rw [highAt_eq_iff (by omega)] at hhigh
        exact ⟨by omega, h.succ hhigh, fun _ heq => hbyte ⟨hhigh, heq⟩⟩
      · rw [if_neg hhigh]
        rw [highAt_eq_iff (by omega)] at hhigh
        exact ⟨by omega, h, fun _ => hhigh⟩

theorem isCommon_getCommonPrefix (hp : p.depth ≤ 64) (key : Hash) : IsCommon p key (p.getCommonPrefix key) := by
  apply isCommon_commonLoop hp le_rfl
  rw [Nat.sub_self]
  intro e he
  omega

end Prefix

/-! ## Prefixes of keys -/

/-- `prefix`: the first nibbles of a key, with zeroes after them. -/
def prefixOf (depth : ℕ) (key : Hash) : Hash :=
  ShaMap.ofBytes ((List.range 32).map fun i =>
    if i < depth / 2 then byteAt key i else if i = depth / 2 ∧ depth % 2 = 1 then highAt key i else 0)

theorem bytes256_eq_map (key : Hash) : bytes256 key = (List.range 32).map (byteAt key) := rfl

theorem bytes256_ofBytes {bytes : List UInt8} (h : bytes.length = 32) : bytes256 (ShaMap.ofBytes bytes) = bytes := by
  have hlt := ofBytes_lt bytes
  rw [h] at hlt
  have hback := toBytes_ofBytes bytes
  rw [h] at hback
  rw [bytes256_eq_toBytes]
  change toBytes 32 (BitVec.ofNat 256 (Data.ofBytes bytes)).toNat = bytes
  rw [BitVec.toNat_ofNat, Nat.mod_eq_of_lt (hlt.trans_eq (by norm_num)), hback]

theorem byteAt_ofBytes {f : ℕ → UInt8} (hi : i < 32) : byteAt (ShaMap.ofBytes ((List.range 32).map f)) i = f i := by
  have hbytes : bytes256 (ShaMap.ofBytes ((List.range 32).map f)) = (List.range 32).map f := bytes256_ofBytes (by simp)
  rw [bytes256_eq_map, List.map_inj_left] at hbytes
  exact hbytes i (List.mem_range.mpr hi)

theorem nibbles_prefixOf (depth : ℕ) (key : Hash) (hi : i < 32) :
    selectBranch (2 * i) (prefixOf depth key) = (if 2 * i < depth then selectBranch (2 * i) key else 0) ∧
    selectBranch (2 * i + 1) (prefixOf depth key) = if 2 * i + 1 < depth then selectBranch (2 * i + 1) key else 0 := by
  have hbyte : byteAt (prefixOf depth key) i = _ := byteAt_ofBytes hi
  have hnibbles := toNat_byteAt (prefixOf depth key) i hi
  rw [hbyte] at hnibbles
  by_cases hwhole : i < depth / 2
  · rw [if_pos hwhole] at hbyte
    rw [if_pos (by omega), if_pos (by omega)]
    exact (byteAt_eq_iff hi).mp hbyte
  · rw [if_neg hwhole] at hnibbles
    rw [if_neg (show ¬2 * i + 1 < depth by omega), Fin.ext_iff, Fin.ext_iff]
    by_cases hhalf : i = depth / 2 ∧ depth % 2 = 1
    · rw [if_pos hhalf, toNat_highAt key i hi] at hnibbles
      rw [if_pos (show 2 * i < depth by omega)]
      constructor
      · omega
      · change _ = 0
        omega
    · rw [if_neg hhalf, UInt8.toNat_zero] at hnibbles
      rw [if_neg (show ¬2 * i < depth by omega)]
      constructor
      · change _ = 0
        omega
      · change _ = 0
        omega

theorem selectBranch_prefixOf (key : Hash) (he : e < 64) :
    selectBranch e (prefixOf depth key) = if e < depth then selectBranch e key else 0 := by
  obtain ⟨heven, hodd⟩ := nibbles_prefixOf depth key (show e / 2 < 32 by omega)
  obtain hpar | hpar := Nat.mod_two_eq_zero_or_one e
  · rwa [show 2 * (e / 2) = e by omega] at heven
  · rwa [show 2 * (e / 2) + 1 = e by omega] at hodd

theorem agree_prefixOf (key : Hash) (h : depth ≤ 64) : Agree depth (prefixOf depth key) key := by
  intro e he
  rw [selectBranch_prefixOf key (by omega), if_pos he]

theorem prefixOf_eq (h : Agree depth key key') : prefixOf depth key = prefixOf depth key' := by
  apply eq_of_agree
  intro e he
  rw [selectBranch_prefixOf key he, selectBranch_prefixOf key' he]
  split_ifs with hlt
  · exact h e hlt
  · rfl

theorem prefixOf_prefixOf (key : Hash) (h : depth ≤ 64) :
    prefixOf depth (prefixOf depth key) = prefixOf depth key := prefixOf_eq (agree_prefixOf key h)

/-! ## `setChildren` -/

/-- The first byte at which two keys differ, with `rounds` bytes to go. -/
def firstDifference (key key' : Hash) : ℕ → ℕ
  | 0 => 32
  | rounds + 1 =>
    if byteAt key (32 - (rounds + 1)) = byteAt key' (32 - (rounds + 1)) then firstDifference key key' rounds
    else 32 - (rounds + 1)

/-- `depth_` and `common_` after `setChildren` for leaves with the given keys: the bytes before the first difference, and
half of that one if it begins alike. -/
def childrenPrefix (key key' : Hash) : Prefix :=
  let i := firstDifference key key' 32
  let depth := if highAt key i = highAt key' i then 2 * i + 1 else 2 * i
  ⟨depth, prefixOf depth key⟩

theorem firstDifference_spec (hne : key ≠ key') {rounds : ℕ} (hr : rounds ≤ 32) (h : Agree (2 * (32 - rounds)) key key') :
    firstDifference key key' rounds < 32 ∧ Agree (2 * firstDifference key key' rounds) key key' ∧
      byteAt key (firstDifference key key' rounds) ≠ byteAt key' (firstDifference key key' rounds) := by
  induction rounds with
  | zero => exact absurd (eq_of_agree h) hne
  | succ rounds ih =>
    rw [firstDifference]
    by_cases hbyte : byteAt key (32 - (rounds + 1)) = byteAt key' (32 - (rounds + 1))
    · rw [if_pos hbyte]
      apply ih (by omega)
      rw [show 32 - rounds = 32 - (rounds + 1) + 1 by omega, agree_succ_succ (by omega)]
      exact ⟨h, hbyte⟩
    · rw [if_neg hbyte]
      exact ⟨by omega, h, hbyte⟩

theorem childrenPrefix_spec (hne : key ≠ key') :
    (childrenPrefix key key').depth < 64 ∧ Agree (childrenPrefix key key').depth key key' ∧
      selectBranch (childrenPrefix key key').depth key ≠ selectBranch (childrenPrefix key key').depth key' ∧
      (childrenPrefix key key').common = prefixOf (childrenPrefix key key').depth key := by
  have hstart : Agree (2 * (32 - 32)) key key' := fun e he => absurd he (by omega)
  obtain ⟨hlt, hagree, hbyte⟩ := firstDifference_spec hne le_rfl hstart
  rw [Ne, byteAt_eq_iff hlt] at hbyte
  unfold childrenPrefix
  by_cases hhigh : highAt key (firstDifference key key' 32) = highAt key' (firstDifference key key' 32)
  · simp only [if_pos hhigh]
    rw [highAt_eq_iff hlt] at hhigh
    exact ⟨by omega, hagree.succ hhigh, fun heq => hbyte ⟨hhigh, heq⟩, trivial⟩
  · simp only [if_neg hhigh]
    rw [highAt_eq_iff hlt] at hhigh
    exact ⟨by omega, hagree, hhigh, trivial⟩

/-! ## The order of keys -/

theorem lt_of_agree (he : e < 64) (h : Agree e key key')
    (hlt : selectBranch e key < selectBranch e key') : key < key' := by
  have hquot : key.toNat / 16 ^ (64 - e) = key'.toNat / 16 ^ (64 - e) := by
    have hbound (k : Hash) : k.toNat / 16 ^ (64 - e) < 16 ^ e := by
      apply Nat.div_lt_of_lt_mul
      rw [← pow_add, show 64 - e + e = 64 by omega]
      exact k.isLt.trans_eq (by norm_num)
    apply eq_of_div_mod (hbound key) (hbound key')
    intro i hi
    have hdigit := congrArg Fin.val (h (e - 1 - i) (by omega))
    simp only [selectBranch] at hdigit
    rwa [Nat.div_div_eq_div_mul, Nat.div_div_eq_div_mul, ← pow_add,
      show 64 - e + i = 63 - (e - 1 - i) by omega]
  have hsplit (k : Hash) : k.toNat / 16 ^ (63 - e) / 16 = k.toNat / 16 ^ (64 - e) := by
    rw [Nat.div_div_eq_div_mul, ← pow_succ, show 63 - e + 1 = 64 - e by omega]
  have hdigits : key.toNat / 16 ^ (63 - e) % 16 < key'.toNat / 16 ^ (63 - e) % 16 := hlt
  have hkey := hsplit key
  have hkey' := hsplit key'
  have hless : key.toNat / 16 ^ (63 - e) < key'.toNat / 16 ^ (63 - e) := by omega
  rw [BitVec.lt_def]
  by_contra hle
  exact absurd (Nat.div_le_div_right (not_lt.mp hle)) (not_le.mpr hless)

theorem exists_first_difference (h : ¬Agree d key key') :
    ∃ e < d, Agree e key key' ∧ selectBranch e key ≠ selectBranch e key' := by
  induction d with
  | zero => exact absurd (fun e he => absurd he (by omega)) h
  | succ d ih =>
    by_cases hd : Agree d key key'
    · exact ⟨d, by omega, hd, fun heq => h (hd.succ heq)⟩
    · obtain ⟨e, he, hagree, hne⟩ := ih hd
      exact ⟨e, by omega, hagree, hne⟩

end ScfChain.ShaMap
