import ScfChain.Data.Bytes
import ScfChain.ShaMap.Wire

/-!
# Nodes to bytes and back

`addRaw` writes a node in the form for the database (`snfPREFIX`) or for a peer (`snfWIRE`), and `make` reads it back. A
node is taken here by its content: the branches and, in version 2, the common prefix of an inner node, or the type and the
item of a leaf. The form `snfPREFIX` is what is hashed, in every case by another function.
-/

namespace ScfChain.ShaMap

open Data

/-- A node without its sequence number and its hash. -/
inductive Content
  | inner (v2 : Option Common) (branches : Branches)
  | leaf (type : TNType) (item : Item)

/-! ## `addRaw` -/

def Branches.getBranchCount (b : Branches) : ℕ := ((List.finRange 16).filter b.isBranch).length

/-- The 16 hashes. -/
def Branches.addHashes (b : Branches) : List UInt8 := (List.finRange 16).flatMap fun i => bytes256 (b.hashes i)

/-- The hash of a branch and its position. -/
def Branches.addRecord (b : Branches) (i : Fin 16) : List UInt8 := bytes256 (b.hashes i) ++ [UInt8.ofNat i]

/-- The form `snfWIRE` of `SHAMapInnerNode::addRaw`. -/
def Branches.addWire (b : Branches) : List UInt8 :=
  if b.getBranchCount < 12 then ((List.finRange 16).filter b.isBranch).flatMap b.addRecord ++ [3]
  else b.addHashes ++ [2]

/-- `SHAMapInnerNode::addRaw` and `SHAMapInnerNodeV2::addRaw`, for a node with the given hash. -/
def addRawInner (v2 : Option Common) (b : Branches) (hash : Hash) : SHANodeFormat → List UInt8
  | .snfHASH => bytes256 hash
  | .snfPREFIX =>
    match v2 with
    | none => HashPrefix.innerNode.bytes ++ b.addHashes
    | some c =>
      HashPrefix.innerNodeV2.bytes ++ b.addHashes ++ [UInt8.ofNat (c.depth % 256).toNat] ++ c.bytes.take c.used
  | .snfWIRE =>
    match v2 with
    | none => b.addWire
    -- data.back() += 3
    | some _ => b.addWire.modifyLast (· + 3)

/-- `SHAMapTreeNode::addRaw`. -/
def addRawLeaf (type : TNType) (item : Item) (hash : Hash) : SHANodeFormat → List UInt8
  | .snfHASH => bytes256 hash
  | .snfPREFIX =>
    match type with
    | .accountState => HashPrefix.leafNode.bytes ++ item.data ++ bytes256 item.key
    | .transactionNM => HashPrefix.transactionID.bytes ++ item.data
    | .transactionMD => HashPrefix.txNode.bytes ++ item.data ++ bytes256 item.key
  | .snfWIRE =>
    match type with
    | .accountState => item.data ++ bytes256 item.key ++ [1]
    | .transactionNM => item.data ++ [0]
    | .transactionMD => item.data ++ bytes256 item.key ++ [4]

namespace Content

/-- `updateHash`. -/
def updateHash (sha512Half : List UInt8 → Hash) : Content → Hash
  | inner v2 b => if ∃ i, b.isBranch i = true then sha512Half (branchesPreimage v2 b) else 0
  | leaf type item => sha512Half (item.preimage type)

def addRaw (hash : Hash) (format : SHANodeFormat) : Content → List UInt8
  | inner v2 b => addRawInner v2 b hash format
  | leaf type item => addRawLeaf type item hash format

/-- The node with this content. -/
def node (seq : UInt32) (hash : Hash) : Content → Made
  | inner v2 b => .inner ⟨b, v2, seq, hash⟩
  | leaf type item => .leaf item type seq hash

end Content

/-! ## Valid nodes -/

/-- The nibble `j` of a list of bytes. -/
def nibble (bytes : List UInt8) (j : ℕ) : ℕ :=
  let byte := (bytes.getD (j / 2) 0).toNat
  if j % 2 = 0 then byte / 16 else byte % 16

/-- The common prefix is 32 bytes, at depth 64 at most, and zero from its depth on. -/
structure Common.Valid (c : Common) : Prop where
  length_bytes : c.bytes.length = 32
  depth_nonneg : 0 ≤ c.depth
  depth_le : c.depth ≤ 64
  masked : ∀ j : ℕ, c.depth ≤ j → nibble c.bytes j = 0

/-- Inner nodes have a child, and the bitmap agrees with the hashes. Leaves have a key, which for a transaction without
metadata is its ID. -/
def Content.Valid (sha512Half : List UInt8 → Hash) : Content → Prop
  | inner v2 b => b.Consistent ∧ (∃ i, b.isBranch i = true) ∧ ∀ c ∈ v2, c.Valid
  | leaf type item =>
    item.key ≠ 0 ∧ (type = .transactionNM → item.key = sha512Half (HashPrefix.transactionID.bytes ++ item.data))

/-- The ID of a version-2 inner node. -/
def Content.HasID (id : SHAMapNodeID) : Content → Prop
  | inner v2 _ => ∀ c ∈ v2, id.depth = c.depth ∧ bytes256 id.nodeID = c.bytes
  | leaf _ _ => True

/-! ## Reading what was written -/

theorem bytes256_eq_toBytes (h : Hash) : bytes256 h = toBytes 32 h.toNat := by
  rw [toBytes_eq_map]
  rfl

theorem ofBytes_bytes256 (h : Hash) : ShaMap.ofBytes (bytes256 h) = h := by
  have hlt : h.toNat < 256 ^ 32 := h.isLt.trans_eq (by norm_num)
  have hvalue : Data.ofBytes (bytes256 h) = h.toNat := by rw [bytes256_eq_toBytes, ofBytes_toBytes hlt]
  change BitVec.ofNat 256 (Data.ofBytes (bytes256 h)) = h
  rw [hvalue, BitVec.ofNat_toNat, BitVec.setWidth_eq]

variable {s : List UInt8} {b : Branches}

theorem get256_of_drop {rest : List UInt8} {offset : ℕ} {h : Hash} (hs : s.drop offset = bytes256 h ++ rest) :
    get256 s offset = some h := by
  have hlen := congrArg List.length hs
  rw [List.length_drop, List.length_append, length_bytes256] at hlen
  rw [get256, if_pos (by omega), hs, List.take_left' (length_bytes256 h), ofBytes_bytes256]

theorem get8_of_drop {rest : List UInt8} {offset : ℕ} {byte : UInt8} (hs : s.drop offset = byte :: rest) :
    get8 s offset = some byte.toNat := by
  rw [get8, ← List.head?_drop, hs]
  rfl

theorem Branches.eq_of_consistent {b' : Branches} (hhashes : ∀ i, b.hashes i = b'.hashes i)
    (hbranch : ∀ i, b.isBranch i = true ↔ b'.isBranch i = true) : b = b' := by
  obtain ⟨hashes, isBranch⟩ := b
  obtain ⟨hashes', isBranch'⟩ := b'
  obtain rfl : hashes = hashes' := funext hhashes
  obtain rfl : isBranch = isBranch' := funext fun i => Bool.eq_iff_iff.mpr (hbranch i)
  rfl

theorem Branches.Consistent.isBranch_iff (h : b.Consistent) (i : Fin 16) : b.isBranch i = true ↔ b.hashes i ≠ 0 := by
  rw [← Bool.not_eq_false, Ne, not_iff_not]
  exact h i

theorem readFull_eq (h : b.Consistent) (hs : ∀ i : Fin 16, get256 s (i.val * 32) = some (b.hashes i)) :
    readFull s = b := by
  have hfold (l : List (Fin 16)) (start : Branches) (i : Fin 16) :
      (l.foldl (fun b i => b.read i s (i.val * 32)) start).hashes i = (if i ∈ l then b.hashes i else start.hashes i) ∧
      ((l.foldl (fun b i => b.read i s (i.val * 32)) start).isBranch i = true ↔
        start.isBranch i = true ∨ i ∈ l ∧ b.hashes i ≠ 0) := by
    induction l generalizing start with
    | nil => simp
    | cons j l ih =>
      obtain ⟨hhash, hbranch⟩ := ih (start.read j s (j.val * 32))
      rw [List.foldl_cons, hhash, hbranch, Branches.read_hashes, Branches.read_isBranch, hs j, Option.getD_some]
      by_cases hij : i = j
      · subst hij
        refine ⟨by simp, ?_⟩
        simp only [List.mem_cons_self, true_and]
        tauto
      · simp [hij]
  apply Branches.eq_of_consistent
  · intro i
    rw [readFull, (hfold _ _ i).1, if_pos (List.mem_finRange i)]
  · intro i
    rw [readFull, (hfold _ _ i).2, h.isBranch_iff]
    simp [Branches.new]

theorem lastHash_map (l : List (Fin 16)) (hashes : Fin 16 → Hash) (start : Hash) (p : Fin 16) :
    lastHash start (l.map fun i => (i.val, hashes i)) p = if p ∈ l then hashes p else start := by
  unfold lastHash
  induction l generalizing start with
  | nil => simp
  | cons i l ih =>
    rw [List.map_cons, List.foldl_cons, ih]
    by_cases hip : p = i
    · subst hip
      simp
    · simp [hip, Fin.val_inj, Ne.symm hip]

theorem length_addRecord (b : Branches) (i : Fin 16) : (b.addRecord i).length = 33 := by
  simp [Branches.addRecord]

theorem records_addRecord (b : Branches) (l : List (Fin 16)) :
    records (l.flatMap b.addRecord) = l.map fun i => (i.val, b.hashes i) := by
  have hlen : (l.flatMap b.addRecord).length / 33 = l.length := by
    rw [length_flatMap_const (length_addRecord b), Nat.mul_div_cancel _ (by norm_num)]
  unfold records
  rw [hlen]
  apply List.ext_getElem
  · simp
  · intro i hi hi'
    have hlt : i < l.length := by simpa using hi
    have hdrop := drop_flatMap_record (length_addRecord b) (List.getElem?_eq_getElem hlt)
    rw [Branches.addRecord, List.append_assoc] at hdrop
    have hpos : (l.flatMap b.addRecord).drop (32 + i * 33) =
        UInt8.ofNat l[i] :: (l.drop (i + 1)).flatMap b.addRecord := by
      rw [Nat.add_comm, ← List.drop_drop, hdrop, List.drop_left' (length_bytes256 _)]
      rfl
    have hbyte : (UInt8.ofNat l[i]).toNat = l[i].val := UInt8.toNat_ofNat_of_lt' (l[i].isLt.trans (by norm_num))
    simp only [List.getElem_map, List.getElem_range, record]
    rw [get256_of_drop hdrop, get8_of_drop hpos, hbyte]
    rfl

theorem readCompressed_eq (h : b.Consistent) :
    readCompressed (((List.finRange 16).filter b.isBranch).flatMap b.addRecord) = .ok b := by
  have hrecords := records_addRecord b ((List.finRange 16).filter b.isBranch)
  generalize ((List.finRange 16).filter b.isBranch).flatMap b.addRecord = s at hrecords ⊢
  have hmem {r : ℕ × Hash} : r ∈ records s ↔ ∃ i, b.isBranch i = true ∧ (i.val, b.hashes i) = r := by
    rw [hrecords]
    simp
  have hlt (i : ℕ) (hi : i ∈ List.range (s.length / 33)) : (record s i).1 < 16 := by
    obtain ⟨j, -, hj⟩ := hmem.mp (List.mem_map_of_mem hi)
    rw [← hj]
    exact j.isLt
  obtain ⟨b', hb', hread⟩ := foldlM_readRecord_ok (fun i hi => List.mem_range.mp hi) hlt Branches.new
  have heq : b' = b := by
    apply Branches.eq_of_consistent
    · intro p
      have hlast : lastHash (Branches.new.hashes p) (records s) p = _ := hrecords ▸ lastHash_map _ _ _ p
      rw [(hread p).1]
      refine hlast.trans ?_
      by_cases hp : b.isBranch p = true
      · rw [if_pos (by simpa using hp)]
      · rw [if_neg (by simpa using hp), (h p).mp (by simpa using hp)]
        rfl
    · intro p
      rw [(hread p).2]
      constructor
      · rintro (hnew | ⟨i, hi, hpos, -⟩)
        · cases hnew
        · obtain ⟨j, hj, hrec⟩ := hmem.mp (List.mem_map_of_mem hi)
          rw [← hrec] at hpos
          obtain rfl : j = p := Fin.ext hpos
          exact hj
      · intro hp
        have hrec := hmem.mpr ⟨p, hp, rfl⟩
        obtain ⟨i, hi, heq⟩ := List.mem_map.mp hrec
        refine .inr ⟨i, hi, by rw [heq], ?_⟩
        rw [heq]
        exact (h.isBranch_iff p).mp hp
  rw [← heq]
  exact hb'

/-! ## What `make` does with it -/

section
variable {sha512Half : List UInt8 → Hash} {seq : UInt32} {hashValid : Option Hash}

variable {c : Common} {v2 : Option Common} {b : Branches} {type : TNType} {item : Item} {id : SHAMapNodeID}
  {x : Content}

theorem Common.Valid.used_eq (h : c.Valid) : c.used = (c.depth.toNat + 1) / 2 := by
  have hnonneg := h.depth_nonneg
  rw [Common.used, Int.tdiv_eq_ediv_of_nonneg (by omega)]
  omega

theorem finishInner_eq (hne : ∃ i, b.isBranch i = true) (hv2 : ∀ c ∈ v2, c.Valid)
    (hhash : ∀ hash ∈ hashValid, hash = sha512Half (branchesPreimage v2 b)) :
    finishInner sha512Half seq hashValid v2 b = .inner ⟨b, v2, seq, sha512Half (branchesPreimage v2 b)⟩ := by
  unfold finishInner
  cases hashValid with
  | some hash => rw [hhash hash rfl]
  | none =>
    have hused : ¬∃ c ∈ v2, 32 < c.used := by
      rintro ⟨c, hc, hlt⟩
      have hle := (hv2 c hc).depth_le
      rw [(hv2 c hc).used_eq] at hlt
      omega
    simp only [if_pos hne, if_neg hused]

theorem finishLeaf_eq (hhash : ∀ hash ∈ hashValid, hash = sha512Half (item.preimage type)) :
    finishLeaf sha512Half seq hashValid type item = .leaf item type seq (sha512Half (item.preimage type)) := by
  unfold finishLeaf
  cases hashValid with
  | some hash => rw [Option.getD_some, hhash hash rfl]
  | none => rfl

theorem keyedLeaf_eq (short : String) (invalid : Option String) (hkey : item.key ≠ 0)
    (hhash : ∀ hash ∈ hashValid, hash = sha512Half (item.preimage type)) :
    keyedLeaf sha512Half seq hashValid type (item.data ++ bytes256 item.key) short invalid =
      .leaf item type seq (sha512Half (item.preimage type)) := by
  have hlen : (item.data ++ bytes256 item.key).length - 32 = item.data.length := by simp
  have hget : get256 (item.data ++ bytes256 item.key) item.data.length = some item.key := by
    apply get256_of_drop
    rw [List.drop_left, List.append_nil]
  have hdata : (item.data ++ bytes256 item.key).take item.data.length = item.data := List.take_left
  have hlong : ¬(item.data ++ bytes256 item.key).length < 32 := by simp
  unfold keyedLeaf
  rw [if_neg hlong, hlen, hget, hdata]
  cases invalid with
  | none => exact finishLeaf_eq hhash
  | some what =>
    simp only [Option.getD_some, if_neg hkey]
    exact finishLeaf_eq hhash

theorem length_addHashes (b : Branches) : b.addHashes.length = 512 := by
  rw [Branches.addHashes, length_flatMap_const fun i => length_bytes256 (b.hashes i), List.length_finRange]

theorem get256_addHashes (b : Branches) (rest : List UInt8) (i : Fin 16) :
    get256 (b.addHashes ++ rest) (i.val * 32) = some (b.hashes i) := by
  have hi : (List.finRange 16)[i.val]? = some i := by simp
  have hdrop := drop_flatMap_record (fun i => length_bytes256 (b.hashes i)) hi
  apply get256_of_drop
  rw [List.drop_append_of_le_length, Branches.addHashes, hdrop, List.append_assoc]
  rw [length_addHashes]
  omega

theorem addWire_cases (h : b.Consistent) : (∃ s, b.addWire = s ++ [2] ∧ s.length = 512 ∧ readFull s = b) ∨
      ∃ s, b.addWire = s ++ [3] ∧ readCompressed s = .ok b := by
  unfold Branches.addWire
  split_ifs
  · exact .inr ⟨_, rfl, readCompressed_eq h⟩
  · refine .inl ⟨_, rfl, length_addHashes b, readFull_eq h fun i => ?_⟩
    have hget := get256_addHashes b [] i
    rwa [List.append_nil] at hget

theorem make_wire_inner (hash : Hash) (h : b.Consistent) (hne : ∃ i, b.isBranch i = true) (hv2 : ∀ c ∈ v2, c.Valid)
    (hhash : ∀ hash ∈ hashValid, hash = sha512Half (branchesPreimage v2 b))
    (hid : ∀ c ∈ v2, id.depth = c.depth ∧ bytes256 id.nodeID = c.bytes) :
    make sha512Half seq hashValid (addRawInner v2 b hash .snfWIRE) .snfWIRE id =
      .inner ⟨b, v2, seq, sha512Half (branchesPreimage v2 b)⟩ := by
  have hfinish : finishInner sha512Half seq hashValid v2 b = _ := finishInner_eq hne hv2 hhash
  cases v2 with
  | none =>
    obtain ⟨s, hs, hlen, hread⟩ | ⟨s, hs, hread⟩ := addWire_cases h
    · simp only [addRawInner, hs, make, List.getLast?_concat, List.dropLast_concat]
      simp [hlen, hread, hfinish]
    · simp only [addRawInner, hs, make, List.getLast?_concat, List.dropLast_concat]
      simp [hread, hfinish]
  | some c =>
    have hc : (⟨id.depth, bytes256 id.nodeID⟩ : Common) = c := by
      rw [(hid c rfl).1, (hid c rfl).2]
    obtain ⟨s, hs, hlen, hread⟩ | ⟨s, hs, hread⟩ := addWire_cases h
    · simp only [addRawInner, hs, List.modifyLast_concat, make, List.getLast?_concat, List.dropLast_concat]
      simp [hlen, hread, hc, hfinish]
    · simp only [addRawInner, hs, List.modifyLast_concat, make, List.getLast?_concat, List.dropLast_concat]
      simp [hread, hc, hfinish]

theorem Common.Valid.take_append_replicate (h : c.Valid) :
    c.bytes.take c.used ++ List.replicate (32 - c.used) 0 = c.bytes := by
  have hzero : c.bytes.drop c.used = List.replicate (32 - c.used) 0 := by
    have hlen : (c.bytes.drop c.used).length = 32 - c.used := by rw [List.length_drop, h.length_bytes]
    rw [← hlen]
    apply List.eq_replicate_of_mem
    intro byte hbyte
    obtain ⟨k, hk⟩ := List.mem_iff_getElem?.mp hbyte
    rw [List.getElem?_drop] at hk
    have hget : c.bytes.getD (c.used + k) 0 = byte := by rw [List.getD_eq_getElem?_getD, hk, Option.getD_some]
    have hnonneg := h.depth_nonneg
    have hused := h.used_eq
    have hhigh := h.masked (2 * (c.used + k)) (by omega)
    have hlow := h.masked (2 * (c.used + k) + 1) (by omega)
    rw [nibble, show 2 * (c.used + k) / 2 = c.used + k by omega, hget, if_pos (by omega)] at hhigh
    rw [nibble, show (2 * (c.used + k) + 1) / 2 = c.used + k by omega, hget, if_neg (by omega)] at hlow
    apply UInt8.toNat_inj.mp
    rw [UInt8.toNat_zero]
    omega
  rw [← hzero, List.take_append_drop]

theorem prefixInner_v2 (h : b.Consistent) (hc : c.Valid) :
    prefixInner sha512Half seq hashValid (b.addHashes ++ [UInt8.ofNat (c.depth % 256).toNat] ++ c.bytes.take c.used) true =
      finishInner sha512Half seq hashValid (some c) b := by
  have hused := hc.used_eq
  have hnonneg := hc.depth_nonneg
  have hle := hc.depth_le
  have hdepth : (UInt8.ofNat (c.depth % 256).toNat).toNat = c.depth.toNat := by
    rw [UInt8.toNat_ofNat']
    omega
  have htake : (c.bytes.take c.used).length = c.used := by
    rw [List.length_take, hc.length_bytes]
    omega
  have hread : readFull (b.addHashes ++ [UInt8.ofNat (c.depth % 256).toNat] ++ c.bytes.take c.used) = b := by
    refine readFull_eq h fun i => ?_
    rw [List.append_assoc]
    exact get256_addHashes b _ i
  have hget : get8 (b.addHashes ++ [UInt8.ofNat (c.depth % 256).toNat] ++ c.bytes.take c.used) 512 = some c.depth.toNat := by
    have hat : (b.addHashes ++ [UInt8.ofNat (c.depth % 256).toNat] ++ c.bytes.take c.used).drop 512 =
        UInt8.ofNat (c.depth % 256).toNat :: c.bytes.take c.used := by
      rw [List.append_assoc, List.drop_left' (length_addHashes b)]
      rfl
    rw [get8_of_drop hat, hdepth]
  have hdrop : (b.addHashes ++ [UInt8.ofNat (c.depth % 256).toNat] ++ c.bytes.take c.used).drop 513 = c.bytes.take c.used := by
    apply List.drop_left'
    rw [List.length_append, length_addHashes]
    rfl
  have hlen : (b.addHashes ++ [UInt8.ofNat (c.depth % 256).toNat] ++ c.bytes.take c.used).length = 513 + c.used := by
    rw [List.length_append, List.length_append, length_addHashes, htake]
    rfl
  have hcommon : (⟨(c.depth.toNat : ℤ), (c.bytes.take c.used).take c.used ++ List.replicate (32 - c.used) 0⟩ : Common) = c := by
    rw [List.take_take, min_self, hc.take_append_replicate, Int.toNat_of_nonneg hnonneg]
  have hlong : ¬(513 + c.used < 512 ∨ (true = false ∧ 513 + c.used ≠ 512) ∨ (true = true ∧ 513 + c.used = 512)) := by
    simp
    omega
  have hwrite : ¬32 < c.used := by omega
  unfold prefixInner
  rw [hlen, if_neg hlong, if_pos rfl]
  simp only [hget, Option.getD_some, ← hused, hdrop, hread, hcommon, hwrite, if_false, ne_eq, not_true_eq_false]

/-- What `make` does with the bytes after a prefix. -/
def makeAfter (sha512Half : List UInt8 → Hash) (seq : UInt32) (hashValid : Option Hash) (s : List UInt8) :
    HashPrefix → Made
  | .transactionID =>
    finishLeaf sha512Half seq hashValid .transactionNM ⟨sha512Half (HashPrefix.transactionID.bytes ++ s), s⟩
  | .leafNode => keyedLeaf sha512Half seq hashValid .accountState s "short PLN node" (some "invalid PLN node")
  | .innerNode => prefixInner sha512Half seq hashValid s false
  | .innerNodeV2 => prefixInner sha512Half seq hashValid s true
  | .txNode => keyedLeaf sha512Half seq hashValid .transactionMD s "short TXN node" none

theorem make_prefix (p : HashPrefix) (s : List UInt8) (id : SHAMapNodeID) :
    make sha512Half seq hashValid (p.bytes ++ s) .snfPREFIX id = makeAfter sha512Half seq hashValid s p := by
  cases p with
  | transactionID => rfl
  | txNode => rfl
  | leafNode => rfl
  | innerNode => rfl
  | innerNodeV2 => rfl

theorem make_prefix_inner (hash : Hash) (h : b.Consistent) (hne : ∃ i, b.isBranch i = true) (hv2 : ∀ c ∈ v2, c.Valid)
    (hhash : ∀ hash ∈ hashValid, hash = sha512Half (branchesPreimage v2 b)) :
    make sha512Half seq hashValid (addRawInner v2 b hash .snfPREFIX) .snfPREFIX id =
      .inner ⟨b, v2, seq, sha512Half (branchesPreimage v2 b)⟩ := by
  have hfinish : finishInner sha512Half seq hashValid v2 b = _ := finishInner_eq hne hv2 hhash
  cases v2 with
  | none =>
    have hlen := length_addHashes b
    have hread : readFull b.addHashes = b := by
      refine readFull_eq h fun i => ?_
      have hget := get256_addHashes b [] i
      rwa [List.append_nil] at hget
    simp only [addRawInner]
    rw [ make_prefix .innerNode, makeAfter]
    simp [prefixInner, hlen, hread, hfinish]
  | some c =>
    simp only [addRawInner]
    rw [List.append_assoc, List.append_assoc, make_prefix .innerNodeV2, ← List.append_assoc]
    exact (prefixInner_v2 h (hv2 c rfl)).trans hfinish

theorem make_prefix_leaf (hash : Hash) (h : (Content.leaf type item).Valid sha512Half)
    (hhash : ∀ hash ∈ hashValid, hash = sha512Half (item.preimage type)) :
    make sha512Half seq hashValid (addRawLeaf type item hash .snfPREFIX) .snfPREFIX id =
      .leaf item type seq (sha512Half (item.preimage type)) := by
  obtain ⟨hkey, hid⟩ := h
  cases type with
  | accountState =>
    simp only [addRawLeaf]
    rw [List.append_assoc, make_prefix .leafNode, makeAfter]
    exact keyedLeaf_eq _ _ hkey hhash
  | transactionNM =>
    simp only [addRawLeaf]
    rw [ make_prefix .transactionID, makeAfter]
    have hitem : (⟨sha512Half (HashPrefix.transactionID.bytes ++ item.data), item.data⟩ : Item) = item := by
      rw [← hid rfl]
    rw [hitem]
    exact finishLeaf_eq hhash
  | transactionMD =>
    simp only [addRawLeaf]
    rw [List.append_assoc, make_prefix .txNode, makeAfter]
    exact keyedLeaf_eq _ _ hkey hhash

theorem make_wire_leaf (hash : Hash) (h : (Content.leaf type item).Valid sha512Half)
    (hhash : ∀ hash ∈ hashValid, hash = sha512Half (item.preimage type)) :
    make sha512Half seq hashValid (addRawLeaf type item hash .snfWIRE) .snfWIRE id =
      .leaf item type seq (sha512Half (item.preimage type)) := by
  obtain ⟨hkey, hid⟩ := h
  cases type with
  | accountState =>
    simp only [addRawLeaf, make, List.getLast?_concat, List.dropLast_concat]
    exact keyedLeaf_eq _ _ hkey hhash
  | transactionNM =>
    simp only [addRawLeaf, make, List.getLast?_concat, List.dropLast_concat]
    have hitem : (⟨sha512Half (HashPrefix.transactionID.bytes ++ item.data), item.data⟩ : Item) = item := by
      rw [← hid rfl]
    change finishLeaf sha512Half seq hashValid .transactionNM _ = _
    rw [hitem]
    exact finishLeaf_eq hhash
  | transactionMD =>
    simp only [addRawLeaf, make, List.getLast?_concat, List.dropLast_concat]
    exact keyedLeaf_eq _ _ hkey hhash

theorem branchesPreimage_eq (v2 : Option Common) (b : Branches) (hash : Hash) :
    branchesPreimage v2 b = addRawInner v2 b hash .snfPREFIX := by
  cases v2 with
  | none => rfl
  | some c =>
    simp only [branchesPreimage, addRawInner, Branches.addHashes]
    rw [List.append_assoc _ [_], List.singleton_append]

theorem preimage_eq (type : TNType) (item : Item) (hash : Hash) :
    item.preimage type = addRawLeaf type item hash .snfPREFIX := by
  cases type with
  | accountState => rfl
  | transactionNM => rfl
  | transactionMD => rfl

theorem Content.Valid.updateHash_eq (h : x.Valid sha512Half) (hash : Hash) :
    x.updateHash sha512Half = sha512Half (x.addRaw hash .snfPREFIX) := by
  cases x with
  | inner v2 b =>
    obtain ⟨-, hne, -⟩ := h
    rw [updateHash, if_pos hne, branchesPreimage_eq v2 b hash]
    rfl
  | leaf type item =>
    rw [updateHash, preimage_eq type item hash]
    rfl

theorem Content.Valid.make_addRaw (h : x.Valid sha512Half) {format : SHANodeFormat} (hformat : format ≠ .snfHASH)
    (hhash : ∀ hash ∈ hashValid, hash = x.updateHash sha512Half) (hid : format = .snfWIRE → x.HasID id) (hash : Hash) :
    make sha512Half seq hashValid (x.addRaw hash format) format id = x.node seq (x.updateHash sha512Half) := by
  cases x with
  | inner v2 b =>
    obtain ⟨hb, hne, hv2⟩ := h
    rw [updateHash, if_pos hne] at hhash ⊢
    cases format with
    | snfHASH => exact absurd rfl hformat
    | snfPREFIX => exact make_prefix_inner hash hb hne hv2 hhash
    | snfWIRE => exact make_wire_inner hash hb hne hv2 hhash (hid rfl)
  | leaf type item =>
    cases format with
    | snfHASH => exact absurd rfl hformat
    | snfPREFIX => exact make_prefix_leaf hash h hhash
    | snfWIRE => exact make_wire_leaf hash h hhash

theorem Content.node_injective (seq : UInt32) {hash hash' : Hash} {y : Content} (h : x.node seq hash = y.node seq hash') :
    x = y := by
  cases x with
  | inner v2 b =>
    cases y with
    | inner v2' b' =>
      obtain ⟨rfl, rfl, -⟩ := InnerNode.mk.inj (Made.inner.inj h)
      rfl
    | leaf type item => cases h
  | leaf type item =>
    cases y with
    | inner v2 b => cases h
    | leaf type' item' =>
      obtain ⟨rfl, rfl, -⟩ := Made.leaf.inj h
      rfl

/-- Nodes and their bytes: a node in either form is read back with its content and its hash; the hash is that of the form for
the database; and that form determines the content. -/
theorem node_encoding (sha512Half : List UInt8 → Hash) :
    (∀ x : Content, x.Valid sha512Half → ∀ format, format ≠ .snfHASH → ∀ seq hashValid id hash,
      (∀ hash ∈ hashValid, hash = x.updateHash sha512Half) → (format = .snfWIRE → x.HasID id) →
      make sha512Half seq hashValid (x.addRaw hash format) format id = x.node seq (x.updateHash sha512Half)) ∧
    (∀ x : Content, x.Valid sha512Half → ∀ hash, x.updateHash sha512Half = sha512Half (x.addRaw hash .snfPREFIX)) ∧
    ∀ x y : Content, x.Valid sha512Half → y.Valid sha512Half → ∀ hash hash',
      x.addRaw hash .snfPREFIX = y.addRaw hash' .snfPREFIX → x = y := by
  refine ⟨?_, ?_, ?_⟩
  · intro x hx format hformat seq hashValid id hash hhash hid
    exact hx.make_addRaw hformat hhash hid hash
  · intro x hx hash
    exact hx.updateHash_eq hash
  · intro x y hx hy hash hash' heq
    have hformat : SHANodeFormat.snfPREFIX ≠ .snfHASH := by
      intro h
      cases h
    have hwire : SHANodeFormat.snfPREFIX = .snfWIRE → False := by
      intro h
      cases h
    have hmake (z : Content) (hz : z.Valid sha512Half) (hash : Hash) :
        make sha512Half 0 none (z.addRaw hash .snfPREFIX) .snfPREFIX ⟨0, 0⟩ = z.node 0 (z.updateHash sha512Half) :=
      hz.make_addRaw hformat (by simp) (fun h => (hwire h).elim) hash
    apply Content.node_injective 0
    rw [← hmake x hx hash, ← hmake y hy hash', heq]

/-- A leaf of the account state. -/
theorem node_encoding_leaf :
    make (fun _ => 1) 7 none ((Content.leaf .accountState ⟨5, [1, 2]⟩).addRaw 0 .snfWIRE) .snfWIRE ⟨0, 0⟩ =
      .leaf ⟨5, [1, 2]⟩ .accountState 7 1 :=
  (node_encoding fun _ => 1).1 (.leaf .accountState ⟨5, [1, 2]⟩) ⟨by decide, by simp⟩ .snfWIRE (by simp) 7 none ⟨0, 0⟩ 0
    (by simp) (fun _ => trivial)

end

end ScfChain.ShaMap
