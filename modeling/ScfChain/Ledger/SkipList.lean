import ScfChain.Data.Succeeds

/-!
# Skip lists

A ledger keeps hashes of its ancestors in two kinds of entries: the last 256 of them, and for each group of 65536
sequence numbers those of every 256th ledger. `updateSkipList` brings them up to date when a ledger is built on its
parent, `hashOfSeq` looks a hash up.

* `recentAt`, `archiveAt` : what the entries of the ledger `n` of a chain hold.
* `Holds.next` : one more ledger.
* `hashOfSeq_chain` : which ancestors can be looked up.
-/

namespace ScfChain.SkipList

variable {H : Type}

/-- An entry of the type `ltLEDGER_HASHES`. -/
structure SLE (H : Type) where
  sfHashes : List H
  sfLastLedgerSequence : BitVec 32

/-- What the skip lists see of a ledger: `skip` is at `keylet::skip()`, and `archive` has the entries at
`keylet::skip(seq)`, by the number that the key is made of. -/
structure Ledger (H : Type) where
  seq : BitVec 32
  hash : H
  parentHash : H
  skip : Option (SLE H)
  archive : BitVec 32 → Option (SLE H)

/-- The number in the key of `keylet::skip(seq)`. -/
def group (seq : BitVec 32) : BitVec 32 := seq >>> 16

/-- The hashes of an entry with one more. -/
def hashesOf (sle : Option (SLE H)) : List H := (sle.map SLE.sfHashes).getD []

/-- The record of every 256th ledger. -/
def updateArchive (l : Ledger H) (prevIndex : BitVec 32) : Except String (Ledger H) :=
  if prevIndex &&& 0xff = 0 then
    let hashes := hashesOf (l.archive (group prevIndex))
    if hashes.length ≤ 256 then
      .ok { l with
        archive := Function.update l.archive (group prevIndex) (some ⟨hashes ++ [l.parentHash], prevIndex⟩) }
    else .error "assert: hashes.size () <= 256"
  else .ok l

/-- The record of the past 256 ledgers. -/
def updateRecent (l : Ledger H) (prevIndex : BitVec 32) : Except String (Ledger H) :=
  let hashes := hashesOf l.skip
  if hashes.length ≤ 256 then
    let hashes := if hashes.length = 256 then hashes.tail else hashes
    .ok { l with skip := some ⟨hashes ++ [l.parentHash], prevIndex⟩ }
  else .error "assert: hashes.size () <= 256"

/-- `Ledger::updateSkipList`. -/
def updateSkipList (l : Ledger H) : Except String (Ledger H) :=
  if l.seq = 0 then .ok l
  else
    match updateArchive l (l.seq - 1) with
    | .error e => .error e
    | .ok l => updateRecent l (l.seq - 1)

/-- The lookup in the archive. -/
def hashInArchive (l : Ledger H) (seq : BitVec 32) : Except String (Option H) :=
  match l.archive (group seq) with
  | none => .ok none
  | some sle =>
    let lastSeq := sle.sfLastLedgerSequence
    if ¬ seq ≤ lastSeq then .error "assert: lastSeq >= seq"
    else if ¬ lastSeq &&& 0xff = 0 then .error "assert: (lastSeq & 0xff) == 0"
    else
      let diff := ((lastSeq - seq) >>> 8).toNat
      if diff < sle.sfHashes.length then .ok sle.sfHashes[sle.sfHashes.length - diff - 1]?
      else .ok none

/-- What is done when the list of recent ancestors has no answer. -/
def hashNotRecent (l : Ledger H) (seq : BitVec 32) : Except String (Option H) :=
  if ¬ seq &&& 0xff = 0 then .ok none else hashInArchive l seq

/-- `hashOfSeq`. The difference is an `int`, and is compared with the size of the list as an unsigned 64-bit number. -/
def hashOfSeq (l : Ledger H) (seq : BitVec 32) : Except String (Option H) :=
  if l.seq < seq then .ok none
  else if seq = l.seq then .ok (some l.hash)
  else if seq = l.seq - 1 then .ok (some l.parentHash)
  else
    let diff := l.seq - seq
    if diff.toInt ≤ 256 then
      match l.skip with
      | none => hashNotRecent l seq
      | some sle =>
        if ¬ sle.sfLastLedgerSequence = l.seq - 1 then .error "assert: sfLastLedgerSequence == ledger.seq() - 1"
        else if (diff.signExtend 64).toNat ≤ sle.sfHashes.length then
          .ok sle.sfHashes[sle.sfHashes.length - (diff.signExtend 64).toNat]?
        else hashNotRecent l seq
    else hashNotRecent l seq

/-! ## Chains -/

/-- The genesis ledger. -/
def genesis (hash parentHash : H) : Ledger H :=
  { seq := 1, hash, parentHash, skip := none, archive := fun _ => none }

/-- A new ledger that follows `l`. -/
def follow (l : Ledger H) : Ledger H := { l with seq := l.seq + 1, parentHash := l.hash }

/-- The ledgers of a chain, whose hashes are `h 1`, `h 2` and so on. A ledger is built on its parent, its skip
lists are updated, and then its hash is computed. -/
def chain (h : ℕ → H) : ℕ → Except String (Ledger H)
  | 0 => .error "no ledger"
  | 1 => .ok (genesis (h 1) (h 0))
  | n + 2 =>
    match chain h (n + 1) with
    | .error e => .error e
    | .ok l => (updateSkipList (follow l)).map fun l => { l with hash := h (n + 2) }

/-- The list of recent ancestors of the ledger `n`. -/
def recentAt (h : ℕ → H) (n : ℕ) : Option (SLE H) :=
  if n = 1 then none
  else some ⟨(List.range' (n - min (n - 1) 256) (min (n - 1) 256)).map h, BitVec.ofNat 32 (n - 1)⟩

/-- The archive of the ledger `n`: the group `g` has the multiples of 256 from `first` to `last`, in units of 256. -/
def archiveAt (h : ℕ → H) (n g : ℕ) : Option (SLE H) :=
  let first := max 1 (256 * g)
  let last := min (256 * g + 255) ((n - 1) / 256)
  if first ≤ last then
    some ⟨(List.range' first (last + 1 - first)).map fun j => h (256 * j), BitVec.ofNat 32 (256 * last)⟩
  else none

structure Holds (h : ℕ → H) (n : ℕ) (l : Ledger H) : Prop where
  seq : l.seq = BitVec.ofNat 32 n
  hash : l.hash = h n
  parentHash : l.parentHash = h (n - 1)
  skip : l.skip = recentAt h n
  archive : ∀ g, l.archive g = archiveAt h n g.toNat

variable {h : ℕ → H} {n : ℕ} {l : Ledger H}

theorem holds_genesis (h : ℕ → H) : Holds h 1 (genesis (h 1) (h 0)) := by
  refine ⟨rfl, rfl, rfl, rfl, fun g => ?_⟩
  simp [genesis, archiveAt]

/-! ## One more ledger -/

theorem range'_snoc {a k n : ℕ} (hn : a + k = n) : List.range' a (k + 1) = List.range' a k ++ [n] := by
  rw [List.range'_concat, Nat.one_mul, hn]

theorem length_recentAt (h : ℕ → H) (n : ℕ) : (hashesOf (recentAt h n)).length = min (n - 1) 256 := by
  unfold recentAt hashesOf
  split_ifs with h1
  · simp [h1]
  · simp

theorem recentAt_succ (hn : 1 ≤ n) :
    recentAt h (n + 1) = some ⟨(if (hashesOf (recentAt h n)).length = 256 then (hashesOf (recentAt h n)).tail
      else hashesOf (recentAt h n)) ++ [h n], BitVec.ofNat 32 n⟩ := by
  rw [length_recentAt]
  unfold recentAt hashesOf
  rw [if_neg (by omega), Nat.add_sub_cancel]
  by_cases h1 : n = 1
  · subst h1
    rfl
  · rw [if_neg h1]
    simp only [Option.map_some, Option.getD_some]
    congr 2
    by_cases hfull : 257 ≤ n
    · -- the window moves on
      rw [show min (n - 1) 256 = 256 by omega, show min n 256 = 255 + 1 by omega, if_pos rfl, ← List.map_tail,
        List.tail_range', range'_snoc (show n + 1 - (255 + 1) + 255 = n by omega), List.map_append,
        show n - 256 + 1 = n + 1 - (255 + 1) by omega]
      rfl
    · -- the window grows
      rw [show min (n - 1) 256 = n - 1 by omega, show min n 256 = n - 1 + 1 by omega, if_neg (by omega),
        range'_snoc (show n + 1 - (n - 1 + 1) + (n - 1) = n by omega), List.map_append,
        show n - (n - 1) = n + 1 - (n - 1 + 1) by omega]
      rfl

theorem length_archiveAt (h : ℕ → H) (n g : ℕ) : (hashesOf (archiveAt h n g)).length ≤ 256 := by
  unfold archiveAt hashesOf
  dsimp only
  split_ifs
  · simp
    omega
  · simp

theorem archiveAt_succ_of_ne {g : ℕ} (hn : ¬ n % 256 = 0 ∨ g ≠ n / 65536) (hn' : 1 ≤ n) :
    archiveAt h (n + 1) g = archiveAt h n g := by
  unfold archiveAt
  dsimp only
  rw [Nat.add_sub_cancel]
  by_cases hmod : n % 256 = 0
  · -- the new ledger is in another group, before it or behind it
    have hg := hn.resolve_left (not_not.mpr hmod)
    have hdiv : (n - 1) / 256 = n / 256 - 1 := by omega
    rcases Nat.lt_or_gt_of_ne hg with hlt | hgt
    · rw [show min (256 * g + 255) (n / 256) = min (256 * g + 255) ((n - 1) / 256) by omega]
    · rw [if_neg (by omega), if_neg (by omega)]
  · rw [show (n - 1) / 256 = n / 256 by omega]

theorem archiveAt_succ_self (hn : n % 256 = 0) (hn' : 1 ≤ n) :
    archiveAt h (n + 1) (n / 65536) =
      some ⟨hashesOf (archiveAt h n (n / 65536)) ++ [h n], BitVec.ofNat 32 n⟩ := by
  have hlast : min (256 * (n / 65536) + 255) (n / 256) = n / 256 := by omega
  have hlast' : min (256 * (n / 65536) + 255) ((n - 1) / 256) = n / 256 - 1 := by omega
  have hfirst : max 1 (256 * (n / 65536)) ≤ n / 256 := by omega
  have hself : 256 * (n / 256) = n := by omega
  unfold archiveAt
  dsimp only
  rw [Nat.add_sub_cancel, hlast, hlast', if_pos hfirst, hself]
  congr 2
  have hsnoc : n / 256 + 1 - max 1 (256 * (n / 65536)) = n / 256 - max 1 (256 * (n / 65536)) + 1 := by omega
  rw [hsnoc, range'_snoc (show _ = n / 256 by omega), List.map_append, List.map_singleton, hself]
  congr 1
  unfold hashesOf
  split_ifs with hle
  · rw [show n / 256 - 1 + 1 - max 1 (256 * (n / 65536)) = n / 256 - max 1 (256 * (n / 65536)) by omega]
    rfl
  · rw [show n / 256 - max 1 (256 * (n / 65536)) = 0 by omega]
    rfl

theorem and_ff_eq_zero_iff (x : BitVec 32) : x &&& 0xff = 0 ↔ x.toNat % 256 = 0 := by
  rw [← BitVec.toNat_inj, BitVec.toNat_and, show (0xff : BitVec 32).toNat = 2 ^ 8 - 1 from rfl,
    Nat.and_two_pow_sub_one_eq_mod]
  rfl

theorem toNat_group (x : BitVec 32) : (group x).toNat = x.toNat / 65536 := by
  rw [group, BitVec.toNat_ushiftRight, Nat.shiftRight_eq_div_pow]

theorem toNat_seq (hn : n < 2 ^ 32) : (BitVec.ofNat 32 n).toNat = n := by
  rw [BitVec.toNat_ofNat, Nat.mod_eq_of_lt hn]

theorem seq_pred (hn : 1 ≤ n) (hn' : n < 2 ^ 32) : BitVec.ofNat 32 n - 1 = BitVec.ofNat 32 (n - 1) := by
  apply BitVec.eq_of_toNat_eq
  rw [BitVec.toNat_sub, toNat_seq hn', toNat_seq (by omega), show (1 : BitVec 32).toNat = 1 from rfl]
  omega

theorem updateArchive_eq (harchive : ∀ g, l.archive g = archiveAt h n g.toNat) (hparent : l.parentHash = h n)
    (hn : 1 ≤ n) (hn' : n < 2 ^ 32) :
    ∃ archive, updateArchive l (BitVec.ofNat 32 n) = .ok { l with archive } ∧
      ∀ g, archive g = archiveAt h (n + 1) g.toNat := by
  have hgroup : (group (BitVec.ofNat 32 n)).toNat = n / 65536 := by rw [toNat_group, toNat_seq hn']
  have hlen : (hashesOf (l.archive (group (BitVec.ofNat 32 n)))).length ≤ 256 := by
    rw [harchive]
    exact length_archiveAt h n _
  unfold updateArchive
  by_cases hmod : n % 256 = 0
  · rw [if_pos ((and_ff_eq_zero_iff _).mpr (by rw [toNat_seq hn']; exact hmod))]
    simp only [hlen, if_true]
    refine ⟨_, rfl, fun g => ?_⟩
    by_cases hg : g = group (BitVec.ofNat 32 n)
    · rw [hg, Function.update_self, hgroup, archiveAt_succ_self hmod hn, harchive, hgroup, hparent]
    · have hne : g.toNat ≠ n / 65536 := fun heq => hg (BitVec.eq_of_toNat_eq (heq.trans hgroup.symm))
      rw [Function.update_of_ne hg, archiveAt_succ_of_ne (.inr hne) hn, harchive]
  · rw [if_neg fun hzero => hmod (by rw [and_ff_eq_zero_iff, toNat_seq hn'] at hzero; exact hzero)]
    refine ⟨l.archive, rfl, fun g => ?_⟩
    rw [archiveAt_succ_of_ne (.inl hmod) hn, harchive]

theorem updateRecent_eq (hskip : l.skip = recentAt h n) (hparent : l.parentHash = h n) (hn : 1 ≤ n) :
    updateRecent l (BitVec.ofNat 32 n) = .ok { l with skip := recentAt h (n + 1) } := by
  have hlen : (hashesOf (recentAt h n)).length ≤ 256 := by
    rw [length_recentAt]
    omega
  unfold updateRecent
  simp only [hskip, hlen, if_true, hparent]
  rw [recentAt_succ hn]

/-- **One more ledger**: the update does not fail, and the new ledger has the entries of the next one of the chain. -/
theorem Holds.next (hl : Holds h n l) (hn : 1 ≤ n) (hn' : n + 1 < 2 ^ 32) :
    ∃ l', updateSkipList (follow l) = .ok l' ∧ Holds h (n + 1) { l' with hash := h (n + 1) } := by
  have hseq : l.seq + 1 = BitVec.ofNat 32 (n + 1) := by
    apply BitVec.eq_of_toNat_eq
    rw [hl.seq, BitVec.toNat_add, toNat_seq (by omega), toNat_seq hn', show (1 : BitVec 32).toNat = 1 from rfl]
    omega
  have hzero : ¬ (follow l).seq = 0 := by
    intro hzero
    have := congrArg BitVec.toNat (hseq.symm.trans hzero)
    rw [toNat_seq hn'] at this
    simp at this
  have hprev : (follow l).seq - 1 = BitVec.ofNat 32 n := by
    rw [show (follow l).seq = BitVec.ofNat 32 (n + 1) from hseq]
    exact seq_pred (by omega) hn'
  obtain ⟨archive, hupdate, harchive⟩ :=
    updateArchive_eq (l := follow l) hl.archive hl.hash hn (by omega)
  have hrecent := updateRecent_eq (l := { follow l with archive }) hl.skip hl.hash hn
  refine ⟨{ follow l with archive, skip := recentAt h (n + 1) }, ?_, hseq, rfl, hl.hash, rfl, harchive⟩
  unfold updateSkipList
  rw [if_neg hzero, hprev, hupdate]
  dsimp only
  rw [hprev]
  exact hrecent

/-- **Every ledger of a chain** up to the last sequence number has the entries that belong to it. -/
theorem holds_chain (h : ℕ → H) (hn : 1 ≤ n) (hn' : n < 2 ^ 32) : ∃ l, chain h n = .ok l ∧ Holds h n l := by
  induction n, hn using Nat.le_induction with
  | base => exact ⟨_, rfl, holds_genesis h⟩
  | succ n hn ih =>
    obtain ⟨l, hl, hholds⟩ := ih (by omega)
    obtain ⟨l', hl', hholds'⟩ := hholds.next hn hn'
    refine ⟨_, ?_, hholds'⟩
    obtain ⟨m, rfl⟩ : ∃ m, n = m + 1 := ⟨n - 1, by omega⟩
    simp only [chain, hl, hl']
    rfl

/-! ## Looking up -/

theorem Holds.hashInArchive_eq (hl : Holds h n l) (hn : n < 2 ^ 32) {s : ℕ} (hs : 1 ≤ s) (hs' : s < n) (hmod : s % 256 = 0) :
    hashInArchive l (BitVec.ofNat 32 s) = .ok (some (h s)) := by
  have hgroup : (group (BitVec.ofNat 32 s)).toNat = s / 65536 := by rw [toNat_group, toNat_seq (by omega)]
  obtain ⟨first, hfirst⟩ : ∃ first, first = max 1 (256 * (s / 65536)) := ⟨_, rfl⟩
  obtain ⟨last, hlast⟩ : ∃ last, last = min (256 * (s / 65536) + 255) ((n - 1) / 256) := ⟨_, rfl⟩
  have hle : first ≤ s / 256 ∧ s / 256 ≤ last ∧ 256 * last < 2 ^ 32 := by omega
  have hentry : archiveAt h n (s / 65536) =
      some ⟨(List.range' first (last + 1 - first)).map fun j => h (256 * j), BitVec.ofNat 32 (256 * last)⟩ := by
    unfold archiveAt
    dsimp only
    rw [← hfirst, ← hlast, if_pos (hle.1.trans hle.2.1)]
  have htoNat : (BitVec.ofNat 32 (256 * last)).toNat = 256 * last := toNat_seq hle.2.2
  have hdiff : ((BitVec.ofNat 32 (256 * last) - BitVec.ofNat 32 s) >>> 8).toNat = last - s / 256 := by
    rw [BitVec.toNat_ushiftRight, Nat.shiftRight_eq_div_pow, BitVec.toNat_sub, htoNat, toNat_seq (by omega)]
    omega
  unfold hashInArchive
  rw [hl.archive, hgroup, hentry]
  dsimp only
  rw [if_neg, if_neg, hdiff, List.length_map, List.length_range', if_pos (by omega), List.getElem?_map,
    List.getElem?_range' (by omega)]
  · have hself : 256 * (first + 1 * (last + 1 - first - (last - s / 256) - 1)) = s := by omega
    rw [Option.map_some, hself]
  · rw [not_not, and_ff_eq_zero_iff, htoNat]
    omega
  · rw [not_not, BitVec.le_def, htoNat, toNat_seq (by omega)]
    omega

theorem Holds.hashNotRecent_eq (hl : Holds h n l) (hn : n < 2 ^ 32) {s : ℕ} (hs : 1 ≤ s) (hs' : s < n) :
    hashNotRecent l (BitVec.ofNat 32 s) = .ok (if s % 256 = 0 then some (h s) else none) := by
  have hmod : BitVec.ofNat 32 s &&& 0xff = 0 ↔ s % 256 = 0 := by
    rw [and_ff_eq_zero_iff, toNat_seq (by omega)]
  unfold hashNotRecent
  by_cases h0 : s % 256 = 0
  · rw [if_neg (not_not.mpr (hmod.mpr h0)), if_pos h0, hl.hashInArchive_eq hn hs hs' h0]
  · rw [if_pos (hmod.not.mpr h0), if_neg h0]

theorem toInt_le_iff (x : BitVec 32) : x.toInt ≤ 256 ↔ x.toNat ≤ 256 ∨ 2 ^ 31 ≤ x.toNat := by
  have hlt := x.isLt
  rw [BitVec.toInt_eq_toNat_cond]
  split_ifs <;> omega

theorem toNat_signExtend (x : BitVec 32) :
    (x.signExtend 64).toNat = x.toNat + if 2 ^ 31 ≤ x.toNat then 2 ^ 64 - 2 ^ 32 else 0 := by
  have hlt := x.isLt
  rw [BitVec.toNat_signExtend, BitVec.toNat_setWidth, BitVec.msb_eq_decide, Nat.mod_eq_of_lt (by omega)]
  simp

theorem recentAt_eq (hn : 2 ≤ n) :
    recentAt h n = some ⟨(List.range' (n - min (n - 1) 256) (min (n - 1) 256)).map h, BitVec.ofNat 32 (n - 1)⟩ :=
  if_neg (by omega)

/-- **Looking up the hash of an ancestor.** -/
theorem Holds.hashOfSeq_eq (hl : Holds h n l) (hn : 1 ≤ n) (hn' : n < 2 ^ 32) {s : ℕ} (hs : 1 ≤ s) (hs' : s < 2 ^ 32) :
    hashOfSeq l (BitVec.ofNat 32 s) = .ok (if s ≤ n ∧ (n - s ≤ 256 ∨ 256 ∣ s) then some (h s) else none) := by
  have hdvd : 256 ∣ s ↔ s % 256 = 0 := Nat.dvd_iff_mod_eq_zero
  have htoNat := toNat_seq hn'
  have htoNat' := toNat_seq hs'
  unfold hashOfSeq
  rw [hl.seq, hl.hash, hl.parentHash, seq_pred hn hn']
  by_cases hfuture : n < s
  · rw [if_pos (by rw [BitVec.lt_def, htoNat, htoNat']; exact hfuture), if_neg (by omega)]
  rw [if_neg (by rw [BitVec.lt_def, htoNat, htoNat']; exact hfuture)]
  by_cases hself : s = n
  · rw [if_pos (by rw [hself]), if_pos ⟨hself.le, .inl (by omega)⟩, hself]
  have hne : ¬ BitVec.ofNat 32 s = BitVec.ofNat 32 n := fun heq => hself (by rw [← htoNat, ← htoNat', heq])
  rw [if_neg hne]
  by_cases hparent : s = n - 1
  · rw [if_pos (by rw [hparent]), if_pos ⟨by omega, .inl (by omega)⟩, hparent]
  have hne' : ¬ BitVec.ofNat 32 s = BitVec.ofNat 32 (n - 1) := by
    intro heq
    have := congrArg BitVec.toNat heq
    rw [htoNat', toNat_seq (by omega)] at this
    exact hparent this
  rw [if_neg hne']
  have hdiff : (BitVec.ofNat 32 n - BitVec.ofNat 32 s).toNat = n - s := by
    rw [BitVec.toNat_sub, htoNat, htoNat']
    omega
  have hnotRecent := hl.hashNotRecent_eq hn' hs (by omega : s < n)
  have hif : 256 < n - s → (if s ≤ n ∧ (n - s ≤ 256 ∨ 256 ∣ s) then some (h s) else none) =
      if s % 256 = 0 then some (h s) else none := by
    intro hfar
    exact if_congr (by omega) rfl rfl
  generalize BitVec.ofNat 32 n - BitVec.ofNat 32 s = diff at hdiff
  dsimp only
  rw [hl.skip, recentAt_eq (by omega)]
  dsimp only
  rw [if_neg (not_not.mpr rfl)]
  by_cases hnear : n - s ≤ 256
  · -- the window reaches back to the ancestor
    have hsize : (diff.signExtend 64).toNat = n - s := by
      rw [toNat_signExtend, if_neg (by omega), Nat.add_zero, hdiff]
    rw [if_pos ((toInt_le_iff diff).mpr (.inl (by omega))), hsize, List.length_map,
      List.length_range', if_pos (by omega), if_pos ⟨by omega, .inl hnear⟩, List.getElem?_map,
      List.getElem?_range' (by omega), Option.map_some]
    congr 3
    omega
  · rw [hif (by omega), ← hnotRecent]
    by_cases hint : 2 ^ 31 ≤ n - s
    · -- the difference is negative as an `int` and huge as a size
      have hsize : 256 < (diff.signExtend 64).toNat := by
        rw [toNat_signExtend, if_pos (by omega)]
        omega
      rw [if_pos ((toInt_le_iff diff).mpr (.inr (by omega))), List.length_map, List.length_range', if_neg (by omega)]
    · rw [if_neg ((toInt_le_iff diff).not.mpr (by omega))]

/-- **Skip lists.** In a chain whose ledgers have had their skip lists updated once, from the genesis ledger on, the
ledger `n` has a list of the last 256 ancestors in order, and `hashOfSeq` finds the hash of the ledger `s` if it is not
in the future and is at most 256 back or a multiple of 256; otherwise it finds nothing. No assertion fails. -/
theorem hashOfSeq_chain (h : ℕ → H) (hn : 1 ≤ n) (hn' : n < 2 ^ 32) :
    ∃ l, chain h n = .ok l ∧ l.seq = BitVec.ofNat 32 n ∧ l.hash = h n ∧
      hashesOf l.skip = (List.range' (n - min (n - 1) 256) (min (n - 1) 256)).map h ∧
      (hashesOf l.skip).length ≤ 256 ∧
      ∀ s : BitVec 32, 1 ≤ s.toNat →
        hashOfSeq l s = .ok (if s.toNat ≤ n ∧ (n - s.toNat ≤ 256 ∨ 256 ∣ s.toNat) then some (h s.toNat) else none) := by
  obtain ⟨l, hl, hholds⟩ := holds_chain h hn hn'
  have hskip : hashesOf l.skip = (List.range' (n - min (n - 1) 256) (min (n - 1) 256)).map h := by
    rw [hholds.skip]
    unfold recentAt hashesOf
    split_ifs with h1
    · rw [h1]
      rfl
    · rfl
  refine ⟨l, hl, hholds.seq, hholds.hash, hskip, ?_, fun s hs => ?_⟩
  · rw [hskip, List.length_map, List.length_range']
    omega
  · have hs' : s = BitVec.ofNat 32 s.toNat := BitVec.eq_of_toNat_eq (toNat_seq s.isLt).symm
    have hlookup := hholds.hashOfSeq_eq hn hn' hs s.isLt
    rwa [← hs'] at hlookup

/-- The ledger 3 finds the ledger 1 and not the ledger 4. -/
theorem hashOfSeq_chain_three :
    ∃ l, chain (id : ℕ → ℕ) 3 = .ok l ∧ hashOfSeq l 1 = .ok (some 1) ∧ hashOfSeq l 4 = .ok none := by
  obtain ⟨l, hl, -, -, -, -, hlookup⟩ := hashOfSeq_chain (id : ℕ → ℕ) (n := 3) (by decide) (by decide)
  exact ⟨l, hl, hlookup 1 (by decide), hlookup 4 (by decide)⟩

end ScfChain.SkipList
