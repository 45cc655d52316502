import ScfChain.ShaMap.Hash

/-!
# Nodes from bytes

`SHAMapAbstractNode::make`: what a server makes of the bytes of a node that come from a peer (`snfWIRE`) or from its
database (`snfPREFIX`).

* `Made` is what `make` does: it returns no node or a node, throws, or reads or writes beyond the 32 bytes of `common_`
  (`undefined`).
* `make_inner_iff`: exactly for which bytes and node IDs the bitmap of an inner node agrees with its hashes and a
  version-2 node is at depth 64 at most.
-/

namespace ScfChain.ShaMap

/-! ## `Serializer` -/

/-- The number with the given bytes, most significant first. -/
def ofBytes (bytes : List UInt8) : Hash := BitVec.ofNat 256 (bytes.foldl (fun n b => n * 256 + b.toNat) 0)

/-- `Serializer::get256`. -/
def get256 (s : List UInt8) (offset : ℕ) : Option Hash :=
  if offset + 32 ≤ s.length then some (ofBytes ((s.drop offset).take 32)) else none

/-- `Serializer::get8`. -/
def get8 (s : List UInt8) (offset : ℕ) : Option ℕ := s[offset]?.map UInt8.toNat

/-! ## Inner nodes -/

/-- The hashes of the children and the bitmap `mIsBranch`. -/
structure Branches where
  hashes : Fin 16 → Hash := fun _ => 0
  isBranch : Fin 16 → Bool := fun _ => false

/-- The 16 branches as a new node has them. -/
def Branches.new : Branches := {}

/-- Read the hash of one branch; a hash that is not zero sets its bit. -/
def Branches.read (b : Branches) (pos : Fin 16) (s : List UInt8) (offset : ℕ) : Branches :=
  let h := (get256 s offset).getD (b.hashes pos)
  { hashes := Function.update b.hashes pos h
    isBranch := if h ≠ 0 then Function.update b.isBranch pos true else b.isBranch }

/-- The 16 hashes of a full inner node. -/
def readFull (s : List UInt8) : Branches :=
  (List.finRange 16).foldl (fun b i => b.read i s (i.val * 32)) .new

/-- One record of a compressed inner node: 32 bytes of a hash and one for its position. -/
def readRecord (s : List UInt8) (b : Branches) (i : ℕ) : Except String Branches :=
  match get8 s (32 + i * 33) with
  | none => .error "short CI node"
  | some pos => if h : pos < 16 then .ok (b.read ⟨pos, h⟩ s (i * 33)) else .error "invalid CI node"

/-- The records of a compressed inner node. -/
def readCompressed (s : List UInt8) : Except String Branches :=
  (List.range (s.length / 33)).foldlM (readRecord s) .new

/-- What a version-2 inner node has besides: `depth_` and the bytes of `common_`. -/
structure Common where
  depth : ℤ
  bytes : List UInt8

/-- `SHAMapInnerNode`, or `SHAMapInnerNodeV2` if `v2` is there, without children. -/
structure InnerNode extends Branches where
  v2 : Option Common
  seq : UInt32
  hash : Hash

def InnerNode.isEmptyBranch (n : InnerNode) (i : Fin 16) : Bool := !n.isBranch i

/-- `(depth + 1) / 2`, how many bytes of `common_` count. -/
def Common.used (c : Common) : ℕ := ((c.depth + 1).tdiv 2).toNat

/-- What `updateHash` hashes: for version 2 the form `snfPREFIX` of `addRaw`. -/
def branchesPreimage (v2 : Option Common) (b : Branches) : List UInt8 :=
  match v2 with
  | none => innerPreimage b.hashes
  | some c =>
    HashPrefix.innerNodeV2.bytes ++ ((List.finRange 16).flatMap fun i => bytes256 (b.hashes i)) ++
      UInt8.ofNat (c.depth % 256).toNat :: c.bytes.take c.used

/-- The result of `make`. -/
inductive Made
  | null
  | throws (what : String)
  | undefined
  | leaf (item : Item) (type : TNType) (seq : UInt32) (hash : Hash)
  | inner (n : InnerNode)

inductive SHANodeFormat
  | snfPREFIX
  | snfWIRE
  | snfHASH

/-- `SHAMapNodeID`. A depth that came from a peer can be anything a byte holds, or `-1`. -/
structure SHAMapNodeID where
  nodeID : Hash
  depth : ℤ

section

variable (sha512Half : List UInt8 → Hash) (seq : UInt32) (hashValid : Option Hash)

/-- The end of `make` for an inner node: take the hash over or update it. Version 2 hashes `common_`, whatever the depth
is. -/
def finishInner (v2 : Option Common) (b : Branches) : Made :=
  match hashValid with
  | some hash => .inner ⟨b, v2, seq, hash⟩
  | none =>
    if ∃ i, b.isBranch i = true then
      if ∃ c ∈ v2, 32 < c.used then .undefined else .inner ⟨b, v2, seq, sha512Half (branchesPreimage v2 b)⟩
    else .inner ⟨b, v2, seq, 0⟩

/-- The end of `make` for a leaf. -/
def finishLeaf (type : TNType) (item : Item) : Made :=
  .leaf item type seq (hashValid.getD (sha512Half (item.preimage type)))

/-- A leaf with its key in the last 32 bytes. -/
def keyedLeaf (type : TNType) (s : List UInt8) (short : String) (invalid : Option String) : Made :=
  if s.length < 32 then .throws short
  else
    let u := (get256 s (s.length - 32)).getD 0
    match invalid with
    | some what =>
      if u = 0 then .throws what else finishLeaf sha512Half seq hashValid type ⟨u, s.take (s.length - 32)⟩
    | none => finishLeaf sha512Half seq hashValid type ⟨u, s.take (s.length - 32)⟩

/-- An inner node in the form `snfPREFIX`. -/
def prefixInner (s : List UInt8) (isV2 : Bool) : Made :=
  if s.length < 512 ∨ (isV2 = false ∧ s.length ≠ 512) ∨ (isV2 = true ∧ s.length = 512) then .throws "invalid PIN node"
  else if isV2 then
    let depth := (get8 s 512).getD 64
    let n := (depth + 1) / 2
    if s.length ≠ 512 + 1 + n then .throws "invalid PIN node"
    -- the bytes after the 32nd are written beyond common_
    else if 32 < n then .undefined
    else
      finishInner sha512Half seq hashValid
        (some ⟨depth, (s.drop 513).take n ++ List.replicate (32 - n) 0⟩) (readFull s)
  else finishInner sha512Half seq hashValid none (readFull s)

/-- `SHAMapAbstractNode::make`. `hashValid` has the hash if it is known. -/
def make (rawNode : List UInt8) (format : SHANodeFormat) (id : SHAMapNodeID) : Made :=
  match format with
  | .snfWIRE =>
    match rawNode.getLast? with
    | none => .null
    | some type =>
      let s := rawNode.dropLast
      match type.toNat with
      | 0 =>
        finishLeaf sha512Half seq hashValid .transactionNM ⟨sha512Half (HashPrefix.transactionID.bytes ++ s), s⟩
      | 1 => keyedLeaf sha512Half seq hashValid .accountState s "short AS node" (some "invalid AS node")
      | 2 =>
        if s.length ≠ 512 then .throws "invalid FI node" else finishInner sha512Half seq hashValid none (readFull s)
      | 3 =>
        match readCompressed s with
        | .error what => .throws what
        | .ok b => finishInner sha512Half seq hashValid none b
      | 4 => keyedLeaf sha512Half seq hashValid .transactionMD s "short TM node" (some "invalid TM node")
      | 5 =>
        if s.length ≠ 512 then .throws "invalid FI node"
        else finishInner sha512Half seq hashValid (some ⟨id.depth, bytes256 id.nodeID⟩) (readFull s)
      | 6 =>
        match readCompressed s with
        | .error what => .throws what
        | .ok b => finishInner sha512Half seq hashValid (some ⟨id.depth, bytes256 id.nodeID⟩) b
      | _ => .null
  | .snfPREFIX =>
    if rawNode.length < 4 then .throws "invalid P node"
    else
      let s := rawNode.drop 4
      if rawNode.take 4 = HashPrefix.transactionID.bytes then
        finishLeaf sha512Half seq hashValid .transactionNM ⟨sha512Half rawNode, s⟩
      else if rawNode.take 4 = HashPrefix.leafNode.bytes then
        keyedLeaf sha512Half seq hashValid .accountState s "short PLN node" (some "invalid PLN node")
      else if rawNode.take 4 = HashPrefix.innerNode.bytes then prefixInner sha512Half seq hashValid s false
      else if rawNode.take 4 = HashPrefix.innerNodeV2.bytes then prefixInner sha512Half seq hashValid s true
      else if rawNode.take 4 = HashPrefix.txNode.bytes then
        keyedLeaf sha512Half seq hashValid .transactionMD s "short TXN node" none
      else .throws "invalid node prefix"
  | .snfHASH => .throws "Unknown format"

end

/-! ## The invariant of inner nodes -/

/-- The bitmap says which hashes are not zero. -/
def Branches.Consistent (b : Branches) : Prop := ∀ i, b.isBranch i = false ↔ b.hashes i = 0

/-- No memory error, and an inner node is as `invariants` asserts. -/
def Made.Safe : Made → Prop
  | .undefined => False
  | .inner n => (∀ i, n.isEmptyBranch i = true ↔ n.hashes i = 0) ∧ ∀ c ∈ n.v2, c.depth ≤ 64
  | _ => True

/-- The records of a compressed inner node, position and hash. -/
def record (s : List UInt8) (i : ℕ) : ℕ × Hash := ((get8 s (32 + i * 33)).getD 0, (get256 s (i * 33)).getD 0)

def records (s : List UInt8) : List (ℕ × Hash) := (List.range (s.length / 33)).map (record s)

/-- The hash of the last record for a position. -/
def lastHash (h : Hash) (l : List (ℕ × Hash)) (p : ℕ) : Hash := l.foldl (fun h r => if r.1 = p then r.2 else h) h

/-- If a position has a hash that is not zero, its last one is not. -/
def LastDecides (s : List UInt8) : Prop :=
  ∀ p : Fin 16, (∃ r ∈ records s, r.1 = p.val ∧ r.2 ≠ 0) → lastHash 0 (records s) p ≠ 0

/-- The bytes and node IDs for which `make` keeps the invariant of inner nodes. -/
def WellFormed (rawNode : List UInt8) (id : SHAMapNodeID) : SHANodeFormat → Prop
  | .snfWIRE =>
    ∀ type ∈ rawNode.getLast?,
      ((type.toNat = 3 ∨ type.toNat = 6) → (∀ r ∈ records rawNode.dropLast, r.1 < 16) →
        LastDecides rawNode.dropLast) ∧
      (type.toNat = 5 → rawNode.dropLast.length = 512 → id.depth ≤ 64) ∧
      (type.toNat = 6 → (∀ r ∈ records rawNode.dropLast, r.1 < 16) → id.depth ≤ 64)
  | .snfPREFIX =>
    rawNode.take 4 = HashPrefix.innerNodeV2.bytes → ∀ depth, get8 (rawNode.drop 4) 512 = some depth →
      (rawNode.drop 4).length = 512 + 1 + (depth + 1) / 2 → depth ≤ 64
  | .snfHASH => True

/-! ## Reading branches -/

theorem Branches.consistent_new : Branches.new.Consistent := fun _ => iff_of_true rfl rfl

section

variable (b : Branches) (pos : Fin 16) (s : List UInt8) (offset : ℕ) (i : Fin 16)

theorem Branches.read_hashes :
    (b.read pos s offset).hashes i = if i = pos then (get256 s offset).getD (b.hashes pos) else b.hashes i :=
  Function.update_apply b.hashes pos _ i

theorem Branches.read_isBranch :
    (b.read pos s offset).isBranch i = true ↔
      b.isBranch i = true ∨ i = pos ∧ (get256 s offset).getD (b.hashes pos) ≠ 0 := by
  unfold read
  generalize (get256 s offset).getD (b.hashes pos) = h
  by_cases hz : h = 0
  · rw [hz]
    simp
  · simp only [if_pos hz, Function.update_apply]
    by_cases hi : i = pos
    · simp only [hi, if_true, true_and]
      exact iff_of_true trivial (Or.inr hz)
    · simp only [hi, if_false, false_and, or_false]

end

theorem Branches.Consistent.read {b : Branches} (h : b.Consistent) {pos : Fin 16} (hpos : b.isBranch pos = false)
    (s : List UInt8) (offset : ℕ) : (b.read pos s offset).Consistent := by
  intro i
  rw [← Bool.not_eq_true, Branches.read_isBranch, Branches.read_hashes]
  by_cases hi : i = pos
  · rw [if_pos hi, hi, hpos]
    simp
  · rw [if_neg hi, ← h i]
    simp [hi]

/-- **A full inner node** is consistent: every position is read once. -/
theorem readFull_consistent (s : List UInt8) : (readFull s).Consistent := by
  have hfold : ∀ (l : List (Fin 16)) (b : Branches), l.Nodup → b.Consistent → (∀ i ∈ l, b.isBranch i = false) →
      (l.foldl (fun b i => b.read i s (i.val * 32)) b).Consistent := by
    intro l
    induction l with
    | nil => exact fun b _ hb _ => hb
    | cons i l ih =>
      intro b hnd hb hfree
      rw [List.nodup_cons] at hnd
      refine ih _ hnd.2 (hb.read (hfree i List.mem_cons_self) s _) fun j hj => ?_
      have hji : j ≠ i := fun h => hnd.1 (h ▸ hj)
      rw [← Bool.not_eq_true, Branches.read_isBranch, hfree j (List.mem_cons_of_mem i hj)]
      simp [hji]
  exact hfold _ _ (List.nodup_finRange 16) Branches.consistent_new fun _ _ => rfl

theorem foldlM_readRecord_error {s : List UInt8} {l : List ℕ} (hl : ∃ i ∈ l, 16 ≤ (record s i).1) (b : Branches) :
    ∃ what, l.foldlM (readRecord s) b = .error what := by
  induction l generalizing b with
  | nil => simp at hl
  | cons i l ih =>
    rw [List.foldlM_cons]
    cases hr : readRecord s b i with
    | error what => exact ⟨what, rfl⟩
    | ok b' =>
      refine ih ?_ b'
      obtain ⟨j, hj, hpos⟩ := hl
      rcases List.mem_cons.mp hj with rfl | hj
      · rw [readRecord] at hr
        rw [record] at hpos
        split at hr
        · cases hr
        · next pos hget =>
          rw [hget, Option.getD_some] at hpos
          rw [dif_neg (by omega)] at hr
          cases hr
      · exact ⟨j, hj, hpos⟩

/-- **The records of a compressed node**: the last hash of a position stays, but any hash that is not zero sets its
bit. -/
theorem foldlM_readRecord_ok {s : List UInt8} {l : List ℕ} (hlen : ∀ i ∈ l, i < s.length / 33)
    (hl : ∀ i ∈ l, (record s i).1 < 16) (b : Branches) :
    ∃ b', l.foldlM (readRecord s) b = .ok b' ∧
      ∀ p : Fin 16, b'.hashes p = lastHash (b.hashes p) (l.map (record s)) p ∧
        (b'.isBranch p = true ↔ b.isBranch p = true ∨ ∃ i ∈ l, (record s i).1 = p ∧ (record s i).2 ≠ 0) := by
  induction l generalizing b with
  | nil => exact ⟨b, rfl, fun p => ⟨rfl, by simp⟩⟩
  | cons i l ih =>
    have hi := hlen i List.mem_cons_self
    obtain ⟨pos, hpos⟩ : ∃ pos, get8 s (32 + i * 33) = some pos := by
      rw [get8, List.getElem?_eq_getElem (by omega)]
      exact ⟨_, rfl⟩
    obtain ⟨hash, hhash⟩ : ∃ hash, get256 s (i * 33) = some hash := by
      rw [get256, if_pos (by omega)]
      exact ⟨_, rfl⟩
    have hrec : record s i = (pos, hash) := by rw [record, hpos, hhash]; rfl
    have hlt : pos < 16 := by simpa [hrec] using hl i List.mem_cons_self
    obtain ⟨b', hb', hp⟩ := ih (fun j hj => hlen j (List.mem_cons_of_mem i hj))
      (fun j hj => hl j (List.mem_cons_of_mem i hj)) (b.read ⟨pos, hlt⟩ s (i * 33))
    refine ⟨b', ?_, fun p => ?_⟩
    · rw [List.foldlM_cons, readRecord, hpos]
      simp only [dif_pos hlt]
      exact hb'
    · obtain ⟨h1, h2⟩ := hp p
      have hpp : p = ⟨pos, hlt⟩ ↔ pos = p.val := by rw [Fin.ext_iff, eq_comm]
      rw [h1, h2, Branches.read_hashes, Branches.read_isBranch, hhash, Option.getD_some, List.map_cons, lastHash,
        lastHash, List.foldl_cons, hrec]
      constructor
      · by_cases hpe : pos = p.val
        · rw [if_pos hpe, if_pos (hpp.mpr hpe)]
        · rw [if_neg hpe, if_neg (fun h => hpe (hpp.mp h))]
      · rw [hpp, or_assoc, List.exists_mem_cons_iff, hrec]

theorem lastHash_ne_zero {l : List (ℕ × Hash)} {p : ℕ} : ∀ {h : Hash}, lastHash h l p ≠ 0 →
    h ≠ 0 ∨ ∃ r ∈ l, r.1 = p ∧ r.2 ≠ 0 := by
  induction l with
  | nil => exact fun hne => Or.inl hne
  | cons r l ih =>
    intro h hne
    rw [lastHash, List.foldl_cons] at hne
    rcases ih hne with hstart | ⟨q, hq, hqp⟩
    · by_cases hr : r.1 = p
      · rw [if_pos hr] at hstart
        exact Or.inr ⟨r, List.mem_cons_self, hr, hstart⟩
      · rw [if_neg hr] at hstart
        exact Or.inl hstart
    · exact Or.inr ⟨q, List.mem_cons_of_mem r hq, hqp⟩

/-- **A compressed inner node** throws, or it is consistent exactly if the last record of each position decides. -/
theorem readCompressed_cases (s : List UInt8) :
    ((∃ r ∈ records s, 16 ≤ r.1) ∧ ∃ what, readCompressed s = .error what) ∨
      (∀ r ∈ records s, r.1 < 16) ∧ ∃ b, readCompressed s = .ok b ∧ (b.Consistent ↔ LastDecides s) := by
  by_cases hall : ∀ r ∈ records s, r.1 < 16
  · refine Or.inr ⟨hall, ?_⟩
    obtain ⟨b, hb, hp⟩ := foldlM_readRecord_ok (s := s) (l := List.range (s.length / 33))
      (fun i hi => List.mem_range.mp hi) (fun i hi => hall _ (List.mem_map_of_mem hi)) .new
    refine ⟨b, hb, forall_congr' fun p => ?_⟩
    obtain ⟨hhash, hbr⟩ := hp p
    have hset : b.isBranch p = true ↔ ∃ r ∈ records s, r.1 = p.val ∧ r.2 ≠ 0 := by
      rw [hbr, or_iff_right (by exact nofun)]
      constructor
      · exact fun ⟨i, hi, h⟩ => ⟨record s i, List.mem_map_of_mem hi, h⟩
      · rintro ⟨r, hr, h⟩
        obtain ⟨i, hi, rfl⟩ := List.mem_map.mp hr
        exact ⟨i, hi, h⟩
    rw [← hset, hhash, ← Bool.not_eq_true]
    have hlast : lastHash (Branches.new.hashes p) (List.map (record s) (List.range (s.length / 33))) p.val ≠ 0 →
        b.isBranch p = true := fun hne => by
      rcases lastHash_ne_zero hne with h | h
      · exact absurd rfl h
      · exact hset.mpr h
    exact ⟨fun h hb hz => h.mpr hz hb, fun h => ⟨fun hb => by_contra fun hne => hb (hlast hne), fun hz hb => h hb hz⟩⟩
  · push Not at hall
    refine Or.inl ⟨hall, foldlM_readRecord_error ?_ .new⟩
    obtain ⟨r, hr, hpos⟩ := hall
    obtain ⟨i, hi, rfl⟩ := List.mem_map.mp hr
    exact ⟨i, hi, hpos⟩

/-! ## Main result -/

section

variable {sha : List UInt8 → Hash} {seq : UInt32}

variable {type : TNType} {s : List UInt8} {v2 : Option Common} {b : Branches} {n : InnerNode}

theorem safe_finishLeaf {item : Item} : (finishLeaf sha seq none type item).Safe := trivial

theorem safe_keyedLeaf {short : String} {invalid : Option String} :
    (keyedLeaf sha seq none type s short invalid).Safe := by
  unfold keyedLeaf
  split
  · trivial
  · cases invalid with
    | none => exact safe_finishLeaf
    | some what =>
      simp only
      split
      · trivial
      · exact safe_finishLeaf

theorem safe_finishInner_iff : (finishInner sha seq none v2 b).Safe ↔ b.Consistent ∧ ∀ c ∈ v2, c.depth ≤ 64 := by
  have hinner : ∀ hash, (Made.inner ⟨b, v2, seq, hash⟩).Safe ↔ b.Consistent ∧ ∀ c ∈ v2, c.depth ≤ 64 := fun hash => by
    simp only [Made.Safe, InnerNode.isEmptyBranch, Branches.Consistent, Bool.not_eq_true']
  unfold finishInner
  simp only
  split
  · split
    · next hover =>
      obtain ⟨c, hc, hused⟩ := hover
      refine iff_of_false (fun h => h) fun h => ?_
      have hdepth := h.2 c hc
      have hle : (c.depth + 1).tdiv 2 ≤ (65 : ℤ).tdiv 2 := Int.tdiv_le_tdiv (by norm_num) (by omega)
      have h65 : (65 : ℤ).tdiv 2 = 32 := rfl
      rw [Common.used] at hused
      omega
    · exact hinner _
  · exact hinner _

theorem safe_compressed_iff : (match readCompressed s with
      | .error what => Made.throws what
      | .ok b => finishInner sha seq none v2 b).Safe ↔
      ((∀ r ∈ records s, r.1 < 16) → LastDecides s ∧ ∀ c ∈ v2, c.depth ≤ 64) := by
  rcases readCompressed_cases s with ⟨⟨r, hr, hpos⟩, what, hw⟩ | ⟨hall, b, hb, hcons⟩
  · rw [hw]
    exact iff_of_true trivial fun h => absurd (h r hr) (by omega)
  · rw [hb]
    exact safe_finishInner_iff.trans ((and_congr_left' hcons).trans ⟨fun h _ => h, fun h => h hall⟩)

theorem safe_prefixInner_iff {isV2 : Bool} : (prefixInner sha seq none s isV2).Safe ↔
      (isV2 = true → ∀ depth, get8 s 512 = some depth → s.length = 512 + 1 + (depth + 1) / 2 → depth ≤ 64) := by
  unfold prefixInner
  split
  · next hbad =>
    refine iff_of_true trivial fun hv depth _ hlen => ?_
    rcases hbad with h | ⟨h, -⟩ | ⟨-, h⟩
    · omega
    · rw [hv] at h
      cases h
    · omega
  · next hok =>
    cases isV2 with
    | false => exact iff_of_true (safe_finishInner_iff.mpr ⟨readFull_consistent s, nofun⟩) nofun
    | true =>
      push Not at hok
      obtain ⟨depth, hdepth⟩ : ∃ depth, get8 s 512 = some depth := by
        have := hok.2.2 rfl
        rw [get8, List.getElem?_eq_getElem (by omega)]
        exact ⟨_, rfl⟩
      simp only [hdepth, Option.getD_some, if_true, forall_const, Option.some.injEq, forall_eq']
      split
      · next hlen => exact iff_of_true trivial fun h => absurd h hlen
      · next hlen =>
        split
        · next hover => exact iff_of_false (fun h => h) fun h => by have := h (not_not.mp hlen); omega
        · next hin =>
          refine iff_of_true (safe_finishInner_iff.mpr ⟨readFull_consistent s, ?_⟩) fun _ => by omega
          rintro c ⟨⟩
          show (depth : ℤ) ≤ 64
          omega

/-- **When the nodes `make` returns are safe.** -/
theorem safe_make_iff (rawNode : List UInt8) (format : SHANodeFormat) (id : SHAMapNodeID) :
    (make sha seq none rawNode format id).Safe ↔ WellFormed rawNode id format := by
  cases format with
  | snfHASH => exact Iff.rfl
  | snfPREFIX =>
    simp only [make, WellFormed]
    split
    · next hlen =>
      refine iff_of_true trivial fun h => ?_
      have := congrArg List.length h
      simp [HashPrefix.bytes] at this
      omega
    · split
      · next h => exact iff_of_true safe_finishLeaf fun h' => by rw [h] at h'; cases h'
      · split
        · next h => exact iff_of_true safe_keyedLeaf fun h' => by rw [h] at h'; cases h'
        · split
          · next h =>
            exact iff_of_true (safe_prefixInner_iff.mpr (by simp)) fun h' => by rw [h] at h'; cases h'
          · split
            · next h => exact safe_prefixInner_iff.trans ⟨fun hs _ => hs rfl, fun hs _ => hs h⟩
            · next hn =>
              split
              · exact iff_of_true safe_keyedLeaf fun h' => absurd h' hn
              · exact iff_of_true trivial fun h' => absurd h' hn
  | snfWIRE =>
    simp only [make, WellFormed]
    cases hlast : rawNode.getLast? with
    | none => exact iff_of_true trivial (by simp)
    | some type =>
      simp only [Option.mem_some_iff, forall_eq']
      generalize type.toNat = t
      rcases t with _ | _ | _ | _ | _ | _ | _ | t
      · exact iff_of_true safe_finishLeaf (by simp)
      · exact iff_of_true safe_keyedLeaf (by simp)
      · refine iff_of_true ?_ (by simp)
        simp only
        split
        · trivial
        · exact safe_finishInner_iff.mpr ⟨readFull_consistent _, by simp⟩
      · exact safe_compressed_iff.trans ⟨fun h => ⟨fun _ hall => (h hall).1, by simp, by simp⟩,
          fun h hall => ⟨h.1 (Or.inl rfl) hall, by simp⟩⟩
      · exact iff_of_true safe_keyedLeaf (by simp)
      · simp only
        split
        · next hlen => exact iff_of_true trivial ⟨by simp, fun _ h => absurd h hlen, by simp⟩
        · next hlen =>
          refine safe_finishInner_iff.trans ⟨fun h => ⟨by simp, fun _ _ => h.2 _ rfl, by simp⟩, fun h => ?_⟩
          refine ⟨readFull_consistent _, ?_⟩
          rintro c ⟨⟩
          exact h.2.1 trivial (not_not.mp hlen)
      · refine safe_compressed_iff.trans ⟨fun h => ⟨fun _ hall => (h hall).1, by simp, fun _ hall => (h hall).2 _ rfl⟩,
          fun h hall => ⟨h.1 (Or.inr rfl) hall, ?_⟩⟩
        rintro c ⟨⟩
        exact h.2.2 rfl hall
      · exact iff_of_true trivial ⟨by omega, by omega, by omega⟩

/-! ## Nodes with the same hash -/

theorem finishInner_hash (h : finishInner sha seq none v2 b = .inner n) :
    n.hash = if ∃ i, n.isBranch i = true then sha (branchesPreimage n.v2 n.toBranches) else 0 := by
  unfold finishInner at h
  simp only at h
  split at h
  · next hex =>
    split at h
    · cases h
    · cases h
      exact (if_pos hex).symm
  · next hno =>
    cases h
    exact (if_neg hno).symm

theorem keyedLeaf_ne_inner {short : String} {invalid : Option String} :
    keyedLeaf sha seq none type s short invalid ≠ .inner n := by
  unfold keyedLeaf
  split
  · nofun
  · cases invalid with
    | none => nofun
    | some what =>
      simp only
      split
      · nofun
      · nofun

theorem prefixInner_hash {isV2 : Bool} (h : prefixInner sha seq none s isV2 = .inner n) :
    n.hash = if ∃ i, n.isBranch i = true then sha (branchesPreimage n.v2 n.toBranches) else 0 := by
  unfold prefixInner at h
  simp only at h
  split at h
  · cases h
  · split at h
    · split at h
      · cases h
      · split at h
        · cases h
        · exact finishInner_hash h
    · exact finishInner_hash h

theorem make_hash {rawNode : List UInt8} {format : SHANodeFormat} {id : SHAMapNodeID}
    (h : make sha seq none rawNode format id = .inner n) :
    n.hash = if ∃ i, n.isBranch i = true then sha (branchesPreimage n.v2 n.toBranches) else 0 := by
  cases format with
  | snfHASH => cases h
  | snfPREFIX =>
    simp only [make] at h
    split at h
    · cases h
    · split at h
      · cases h
      · split at h
        · exact absurd h keyedLeaf_ne_inner
        · split at h
          · exact prefixInner_hash h
          · split at h
            · exact prefixInner_hash h
            · split at h
              · exact absurd h keyedLeaf_ne_inner
              · cases h
  | snfWIRE =>
    simp only [make] at h
    split at h
    · cases h
    · split at h
      · cases h
      · exact absurd h keyedLeaf_ne_inner
      · split at h
        · cases h
        · exact finishInner_hash h
      · split at h
        · cases h
        · exact finishInner_hash h
      · exact absurd h keyedLeaf_ne_inner
      · split at h
        · cases h
        · exact finishInner_hash h
      · split at h
        · cases h
        · exact finishInner_hash h
      · cases h

theorem branchesPreimage_inj {v v' : Option Common} {b' : Branches}
    (h : branchesPreimage v b = branchesPreimage v' b') : b.hashes = b'.hashes := by
  have hflat : ∀ {l l' : List UInt8},
      ((List.finRange 16).flatMap fun i => bytes256 (b.hashes i)) ++ l =
        ((List.finRange 16).flatMap fun i => bytes256 (b'.hashes i)) ++ l' → b.hashes = b'.hashes := fun heq => by
    funext i
    exact flatMap_bytes256_injective (List.append_inj heq (by simp [List.length_flatMap])).1 i (List.mem_finRange i)
  cases v <;> cases v'
  · exact innerPreimage_injective h
  · simp [branchesPreimage, innerPreimage, HashPrefix.bytes] at h
  · simp [branchesPreimage, innerPreimage, HashPrefix.bytes] at h
  · simp only [branchesPreimage, List.append_assoc] at h
    exact hflat (List.append_cancel_left h)

end

/-- **The inner nodes made from bytes** keep the invariant exactly for well-formed bytes, and such nodes with the same
hash have the same branches. -/
theorem make_inner_iff (sha : List UInt8 → Hash) :
    (∀ seq rawNode format id, (make sha seq none rawNode format id).Safe ↔ WellFormed rawNode id format) ∧
      ∀ seq rawNode format id seq' rawNode' format' id' n n', WellFormed rawNode id format →
        WellFormed rawNode' id' format' → make sha seq none rawNode format id = .inner n →
        make sha seq' none rawNode' format' id' = .inner n' → n.hash = n'.hash →
        (sha (branchesPreimage n.v2 n.toBranches) = sha (branchesPreimage n'.v2 n'.toBranches) →
          branchesPreimage n.v2 n.toBranches = branchesPreimage n'.v2 n'.toBranches) →
        sha (branchesPreimage n.v2 n.toBranches) ≠ 0 → sha (branchesPreimage n'.v2 n'.toBranches) ≠ 0 →
        ∀ i, n.isEmptyBranch i = n'.isEmptyBranch i := by
  refine ⟨fun seq => safe_make_iff, ?_⟩
  intro seq rawNode format id seq' rawNode' format' id' n n' hwf hwf' hn hn' heq hinj hne hne' i
  have hsafe : (Made.inner n).Safe := hn ▸ (safe_make_iff rawNode format id).mpr hwf
  have hsafe' : (Made.inner n').Safe := hn' ▸ (safe_make_iff rawNode' format' id').mpr hwf'
  rw [make_hash hn, make_hash hn'] at heq
  have hfalse : ∀ {m : InnerNode}, (¬ ∃ i, m.isBranch i = true) → m.isEmptyBranch i = true := fun {m} hm => by
    rw [InnerNode.isEmptyBranch, Bool.not_eq_true', ← Bool.not_eq_true]
    exact fun h => hm ⟨i, h⟩
  by_cases hb : ∃ i, n.isBranch i = true
  · by_cases hb' : ∃ i, n'.isBranch i = true
    · rw [if_pos hb, if_pos hb'] at heq
      rw [Bool.eq_iff_iff, hsafe.1 i, hsafe'.1 i, branchesPreimage_inj (hinj heq)]
    · rw [if_pos hb, if_neg hb'] at heq
      exact absurd heq hne
  · by_cases hb' : ∃ i, n'.isBranch i = true
    · rw [if_neg hb, if_pos hb'] at heq
      exact absurd heq.symm hne'
    · rw [hfalse hb, hfalse hb']

/-- A compressed node with two branches. -/
theorem make_inner_iff_two :
    WellFormed (List.replicate 32 7 ++ 5 :: List.replicate 32 9 ++ [1, 3]) ⟨0, 0⟩ .snfWIRE ∧
      (make (fun _ => 0xf1dfb2755814d51d201af037f50515edacc7ce882c90bac818e90b30c9d08a14) 0 none
        (List.replicate 32 7 ++ 5 :: List.replicate 32 9 ++ [1, 3]) .snfWIRE ⟨0, 0⟩).Safe := by
  have hwf : WellFormed (List.replicate 32 7 ++ 5 :: List.replicate 32 9 ++ [1, 3]) ⟨0, 0⟩ .snfWIRE := by
    rintro type ⟨⟩
    refine ⟨fun _ _ => ?_, by decide, by decide⟩
    unfold LastDecides
    decide +kernel
  exact ⟨hwf, ((make_inner_iff _).1 0 _ _ _).mpr hwf⟩

/-- The position 5 twice, with a zero hash the second time: the bit stays and the hash goes. -/
theorem make_keeps_stale_bit :
    ∃ n, make (fun _ => 0x0ad3c182b362bea4529180e0c2b7d6246ac774ab130cf82673e3d8ff615f9c8f) 0 none
        (List.replicate 32 7 ++ 5 :: List.replicate 32 0 ++ [5, 3]) .snfWIRE ⟨0, 0⟩ = .inner n ∧
      n.isEmptyBranch 5 = false ∧ n.hashes 5 = 0 := by
  refine ⟨_, rfl, ?_, ?_⟩ <;> decide +kernel

end ScfChain.ShaMap
