import ScfChain.Data.Steps

/-!
# The canonical transaction set

`CanonicalTXSet` is an ordered map from keys to transactions. A key is the salted account, the sequence number and the
transaction id, and keys are compared in this order; iterating over the set gives the order in which the transactions
of a consensus set are tried.

* `Key.lt` is the source's comparison, `Key.lt_iff` says that it is the lexicographic order;
* `CanonicalTXSet` carries the proof that its entries are in order, `insert`, `erase` and `prune` keep it;
* `Listed`: the transactions of an account stand together, by sequence number and then by id;
* `canonicalTXSet_run`: when `prune` takes out what it is asked for.
-/

namespace ScfChain.App.Build

/-- What the set reads of a transaction. The id is a hash of the transaction, so it names the transaction. -/
class STTx (T : Type) where
  account : T → BitVec 160
  seq : T → BitVec 32
  txid : T → BitVec 256
  txid_injective : Function.Injective txid

/-! ## Keys -/

structure Key where
  account : BitVec 256
  seq : BitVec 32
  txid : BitVec 256
deriving DecidableEq, Repr

namespace Key

/-- `operator<` of the keys. -/
def lt (a b : Key) : Bool :=
  if a.account < b.account then true
  else if b.account < a.account then false
  else if a.seq < b.seq then true
  else if b.seq < a.seq then false
  else decide (a.txid < b.txid)

def rank (a : Key) : ℕ ×ₗ ℕ ×ₗ ℕ := toLex (a.account.toNat, toLex (a.seq.toNat, a.txid.toNat))

theorem lt_iff (a b : Key) : a.lt b ↔ a.rank < b.rank := by
  simp only [lt, rank, Prod.Lex.toLex_lt_toLex, BitVec.lt_def]
  split_ifs <;> simp <;> omega

theorem rank_injective : Function.Injective rank := by
  rintro ⟨a, s, t⟩ ⟨a', s', t'⟩ h
  simp only [rank, EmbeddingLike.apply_eq_iff_eq, Prod.mk.injEq] at h
  obtain ⟨ha, hs, ht⟩ := h
  rw [BitVec.eq_of_toNat_eq ha, BitVec.eq_of_toNat_eq hs, BitVec.eq_of_toNat_eq ht]

theorem lt_irrefl (a : Key) : ¬ a.lt a := by
  rw [lt_iff]
  exact Std.Irrefl.irrefl _

theorem lt_trans {a b c : Key} (hab : a.lt b) (hbc : b.lt c) : a.lt c := by
  rw [lt_iff] at *
  exact hab.trans hbc

theorem eq_of_not_lt {a b : Key} (hab : ¬ a.lt b) (hba : ¬ b.lt a) : a = b := by
  rw [lt_iff, not_lt] at hab hba
  exact rank_injective (le_antisymm hba hab)

theorem account_le_of_lt {a b : Key} (h : a.lt b) : a.account ≤ b.account := by
  rw [lt_iff] at h
  simp only [rank, Prod.Lex.toLex_lt_toLex] at h
  rw [BitVec.le_def]
  omega

theorem lt_of_account_eq {a b : Key} (h : a.lt b) (hacc : a.account = b.account) :
    a.seq < b.seq ∨ a.seq = b.seq ∧ a.txid < b.txid := by
  rw [lt_iff] at h
  simp only [rank, Prod.Lex.toLex_lt_toLex, hacc] at h
  simp only [BitVec.lt_def, ← BitVec.toNat_inj]
  omega

end Key

variable {T : Type} [STTx T]

/-- The account in the high bytes of a 256-bit number, salted. -/
def accountKey (salt : BitVec 256) (account : BitVec 160) : BitVec 256 := (account ++ 0#96) ^^^ salt

theorem accountKey_injective (salt : BitVec 256) : Function.Injective (accountKey salt) := by
  intro a b h
  have happend : a ++ 0#96 = b ++ 0#96 := BitVec.xor_left_inj salt |>.mp h
  have := congrArg BitVec.toNat happend
  simp only [BitVec.toNat_append, BitVec.toNat_ofNat, Nat.zero_mod, Nat.or_zero, Nat.shiftLeft_eq] at this
  exact BitVec.eq_of_toNat_eq (by omega)

def keyOf (salt : BitVec 256) (t : T) : Key :=
  { account := accountKey salt (STTx.account t), seq := STTx.seq t, txid := STTx.txid t }

theorem keyOf_injective (salt : BitVec 256) : Function.Injective (keyOf salt : T → Key) := by
  intro t u h
  exact STTx.txid_injective (congrArg Key.txid h)

/-- `t` comes before `u` in canonical order. -/
def Before (salt : BitVec 256) (t u : T) : Prop := (keyOf salt t).lt (keyOf salt u)

theorem Before.ne {salt : BitVec 256} {t u : T} (h : Before salt t u) : t ≠ u := by
  rintro rfl
  exact Key.lt_irrefl _ h

/-! ## The set -/

/-- `map_`: the transactions in the order of their keys. -/
structure CanonicalTXSet (T : Type) [STTx T] where
  salt : BitVec 256
  txns : List T
  sorted : txns.Pairwise (Before salt)

/-- `std::map::insert`: an entry with this key stays as it is. -/
def insertKey (salt : BitVec 256) (t : T) : List T → List T
  | [] => [t]
  | u :: us =>
    if (keyOf salt t).lt (keyOf salt u) then t :: u :: us
    else if (keyOf salt u).lt (keyOf salt t) then u :: insertKey salt t us
    else u :: us

theorem mem_insertKey {salt : BitVec 256} {t u : T} {l : List T} : u ∈ insertKey salt t l ↔ u = t ∨ u ∈ l := by
  induction l with
  | nil => simp [insertKey]
  | cons x xs ih =>
    unfold insertKey
    split_ifs with h h'
    · simp
    · rw [List.mem_cons, ih, List.mem_cons, or_left_comm]
    · have hx : t = x := keyOf_injective salt (Key.eq_of_not_lt h h')
      simp [hx]

theorem pairwise_insertKey {salt : BitVec 256} {t : T} {l : List T} (h : l.Pairwise (Before salt)) :
    (insertKey salt t l).Pairwise (Before salt) := by
  induction l with
  | nil => exact List.pairwise_singleton _ _
  | cons x xs ih =>
    obtain ⟨hx, hxs⟩ := List.pairwise_cons.mp h
    unfold insertKey
    split_ifs with htx hxt
    · refine List.pairwise_cons.mpr ⟨?_, h⟩
      intro y hy
      rcases List.mem_cons.mp hy with rfl | hy
      · exact htx
      · exact Key.lt_trans htx (hx y hy)
    · refine List.pairwise_cons.mpr ⟨?_, ih hxs⟩
      intro y hy
      rcases mem_insertKey.mp hy with rfl | hy
      · exact hxt
      · exact hx y hy
    · exact h

namespace CanonicalTXSet

instance : Membership T (CanonicalTXSet T) := ⟨fun s t => t ∈ s.txns⟩

def empty (salt : BitVec 256) : CanonicalTXSet T := { salt, txns := [], sorted := .nil }

def insert (s : CanonicalTXSet T) (t : T) : CanonicalTXSet T :=
  { s with txns := insertKey s.salt t s.txns, sorted := pairwise_insertKey s.sorted }

theorem nodup (s : CanonicalTXSet T) : s.txns.Nodup := s.sorted.imp Before.ne

variable [DecidableEq T]

/-- The entry an iterator stands at is taken out; the others keep their places. -/
def erase (s : CanonicalTXSet T) (t : T) : CanonicalTXSet T :=
  { s with txns := s.txns.erase t, sorted := s.sorted.sublist List.erase_sublist }

@[simp]
theorem mem_erase {s : CanonicalTXSet T} {t u : T} : u ∈ s.erase t ↔ u ≠ t ∧ u ∈ s := s.nodup.mem_erase_iff

end CanonicalTXSet

/-! ## Pruning -/

/-- `map_.lower_bound`: the place of the first entry that is not below the key. -/
def lowerBound (salt : BitVec 256) (k : Key) (txns : List T) : ℕ := txns.findIdx fun t => !(keyOf salt t).lt k

namespace CanonicalTXSet

/-- `map_.lower_bound` of the key without an id. -/
def place (s : CanonicalTXSet T) (account : BitVec 160) (seq : BitVec 32) : ℕ :=
  lowerBound s.salt ⟨accountKey s.salt account, seq, 0⟩ s.txns

/-- `CanonicalTXSet::prune`. The sequence number of the upper key is a 32-bit sum. A range whose end is before its
begin is no range, and the source goes on to read from it. -/
def prune (s : CanonicalTXSet T) (account : BitVec 160) (seq : BitVec 32) : Except String (List T × CanonicalTXSet T) :=
  let low := s.place account seq
  let high := s.place account (seq + 1)
  if h : low ≤ high then
    .ok ((s.txns.drop low).take (high - low),
      { s with
        txns := s.txns.take low ++ s.txns.drop high
        sorted := s.sorted.sublist (by
          conv_rhs => rw [← List.take_append_drop low s.txns]
          exact List.Sublist.append_left (List.drop_sublist_drop_left _ h) _) })
  else .error "invalid range"

end CanonicalTXSet

section

variable {salt : BitVec 256} {txns : List T}

theorem split_lowerBound (h : txns.Pairwise (Before salt)) (k : Key) :
    txns.take (lowerBound salt k txns) = txns.filter (fun t => (keyOf salt t).lt k) ∧
      txns.drop (lowerBound salt k txns) = txns.filter fun t => !(keyOf salt t).lt k := by
  induction txns with
  | nil => exact ⟨rfl, rfl⟩
  | cons x xs ih =>
    obtain ⟨hx, hxs⟩ := List.pairwise_cons.mp h
    unfold lowerBound at ih ⊢
    by_cases hlt : (keyOf salt x).lt k = true
    · simp [List.findIdx_cons, hlt, ih hxs]
    · have hnone : ∀ y ∈ xs, (keyOf salt y).lt k = false := fun y hy =>
        Bool.eq_false_iff.mpr fun hyk => hlt (Key.lt_trans (hx y hy) hyk)
      have hall : xs.filter (fun t => !(keyOf salt t).lt k) = xs := List.filter_eq_self.mpr (by simpa using hnone)
      simpa [List.findIdx_cons, hlt, hall] using hnone

theorem lowerBound_eq (h : txns.Pairwise (Before salt)) (k : Key) :
    lowerBound salt k txns = (txns.filter fun t => (keyOf salt t).lt k).length := by
  rw [← (split_lowerBound h k).1, List.length_take]
  exact (Nat.min_eq_left List.findIdx_le_length).symm

theorem lt_low_iff {t : T} {account : BitVec 160} {seq : BitVec 32} :
    (keyOf salt t).lt ⟨accountKey salt account, seq, 0⟩ ↔
      accountKey salt (STTx.account t) < accountKey salt account ∨ STTx.account t = account ∧ STTx.seq t < seq := by
  rw [← (accountKey_injective salt).eq_iff, Key.lt_iff]
  simp only [Key.rank, keyOf, Prod.Lex.toLex_lt_toLex, BitVec.lt_def, ← BitVec.toNat_inj,
    show BitVec.toNat (0 : BitVec 256) = 0 from rfl]
  omega

end

namespace CanonicalTXSet

variable {s : CanonicalTXSet T} {account : BitVec 160} {seq : BitVec 32}

theorem prune_of_le (h : s.place account seq ≤ s.place account (seq + 1)) :
    ∃ s', s.prune account seq =
        .ok ((s.txns.drop (s.place account seq)).take (s.place account (seq + 1) - s.place account seq), s') ∧
      s'.salt = s.salt ∧ s'.txns = s.txns.take (s.place account seq) ++ s.txns.drop (s.place account (seq + 1)) :=
  ⟨_, dif_pos h, rfl, rfl⟩

theorem le_of_prune {r : List T × CanonicalTXSet T} (h : s.prune account seq = .ok r) :
    s.place account seq ≤ s.place account (seq + 1) ∧
      r.1 = (s.txns.drop (s.place account seq)).take (s.place account (seq + 1) - s.place account seq) := by
  by_cases hle : s.place account seq ≤ s.place account (seq + 1)
  · obtain ⟨s', hprune, -⟩ := prune_of_le hle
    rw [hprune] at h
    cases h
    exact ⟨hle, rfl⟩
  · rw [prune, dif_neg hle] at h
    cases h

theorem place_eq_countP (s : CanonicalTXSet T) (account : BitVec 160) (seq : BitVec 32) :
    s.place account seq = s.txns.countP fun t => (keyOf s.salt t).lt ⟨accountKey s.salt account, seq, 0⟩ := by
  rw [place, lowerBound_eq s.sorted, List.countP_eq_length_filter]

/-- The transactions of an account with a sequence number. -/
def IsFor (account : BitVec 160) (seq : BitVec 32) (t : T) : Prop := STTx.account t = account ∧ STTx.seq t = seq

instance (account : BitVec 160) (seq : BitVec 32) (t : T) : Decidable (IsFor account seq t) :=
  inferInstanceAs (Decidable (_ ∧ _))

/-- `prune` takes the transactions it is asked for out of the set, in their order, and leaves the others. -/
def Prunes (s : CanonicalTXSet T) (account : BitVec 160) (seq : BitVec 32) : Prop :=
  ∃ s', s.prune account seq = .ok (s.txns.filter (IsFor account seq ·), s') ∧ s'.salt = s.salt ∧
    s'.txns = s.txns.filter (¬ IsFor account seq ·)

omit [STTx T] in
theorem of_countP_le {p q : T → Bool} (hqp : ∀ t, q t = true → p t = true) {l : List T} (h : l.countP p ≤ l.countP q)
    (t : T) (ht : t ∈ l) (hp : p t = true) : q t = true := by
  rw [List.countP_eq_length_filter, List.countP_eq_length_filter] at h
  have hmem : t ∈ l.filter q := by
    rw [(List.monotone_filter_right l hqp).eq_of_length_le h]
    exact List.mem_filter.mpr ⟨ht, hp⟩
  exact (List.mem_filter.mp hmem).2

theorem filter_between {p q : T → Bool} (hpq : ∀ t, p t = true → q t = true) {l : List T} {low high : ℕ}
    (hlow : l.take low = l.filter p) (hlow' : l.drop low = l.filter (!p ·)) (hhigh : l.take high = l.filter q)
    (hhigh' : l.drop high = l.filter (!q ·)) (hlen : low ≤ l.length) :
    (l.drop low).take (high - low) = l.filter (fun t => !p t && q t) ∧
      l.take low ++ l.drop high = l.filter (fun t => p t || !q t) := by
  have hsplit : ∀ r : T → Bool, l.filter r = (l.filter p).filter r ++ (l.filter (!p ·)).filter r := by
    intro r
    conv_lhs => rw [← List.take_append_drop low l, List.filter_append, hlow, hlow']
  constructor
  · have hdrop : (l.take high).drop low = (l.drop low).take (high - low) := List.drop_take
    have hfirst : (l.filter p).filter q = l.filter p := by
      refine List.filter_eq_self.mpr fun t ht => ?_
      exact hpq t (List.mem_filter.mp ht).2
    have hlength : (l.filter p).length = low := by
      rw [← hlow, List.length_take, Nat.min_eq_left hlen]
    rw [← hdrop, hhigh, hsplit q, hfirst, ← hlength, List.drop_left, List.filter_filter]
    refine List.filter_congr fun t _ => ?_
    rw [Bool.and_comm]
  · rw [hlow, hhigh', hsplit fun t => p t || !q t, List.filter_filter, List.filter_filter]
    congr 1
    · refine List.filter_congr fun t _ => ?_
      cases p t <;> simp
    · refine List.filter_congr fun t _ => ?_
      by_cases hp : p t = true
      · rw [hp, hpq t hp]
        rfl
      · rw [Bool.not_eq_true] at hp
        rw [hp]
        simp

theorem prunes_of_ne (s : CanonicalTXSet T) (account : BitVec 160) (hseq : seq ≠ BitVec.allOnes 32) :
    s.Prunes account seq := by
  have hsucc : (seq + 1).toNat = seq.toNat + 1 := by
    have hlt := seq.isLt
    have hne : seq.toNat ≠ 2 ^ 32 - 1 := fun h => hseq (BitVec.eq_of_toNat_eq (by simpa using h))
    rw [BitVec.toNat_add]
    simp
    omega
  have hlow : ∀ t : T, (keyOf s.salt t).lt ⟨accountKey s.salt account, seq, 0⟩ = true →
      (keyOf s.salt t).lt ⟨accountKey s.salt account, seq + 1, 0⟩ = true := by
    intro t ht
    rw [lt_low_iff] at ht ⊢
    refine ht.imp_right fun ⟨hacc, hlt⟩ => ⟨hacc, ?_⟩
    rw [BitVec.lt_def] at hlt ⊢
    omega
  have hfor : ∀ t : T, IsFor account seq t ↔
      ¬ (keyOf s.salt t).lt ⟨accountKey s.salt account, seq, 0⟩ = true ∧
        (keyOf s.salt t).lt ⟨accountKey s.salt account, seq + 1, 0⟩ = true := by
    intro t
    rw [lt_low_iff, lt_low_iff, IsFor, ← (accountKey_injective s.salt).eq_iff]
    simp only [BitVec.lt_def, ← BitVec.toNat_inj, hsucc]
    constructor
    · intro h
      omega
    · intro h
      omega
  have hsorted := s.sorted
  have hle : s.place account seq ≤ s.place account (seq + 1) := by
    rw [place_eq_countP, place_eq_countP]
    exact List.countP_mono_left fun t _ => hlow t
  obtain ⟨htaken, hleft⟩ := filter_between hlow (split_lowerBound hsorted _).1 (split_lowerBound hsorted _).2
    (split_lowerBound hsorted _).1 (split_lowerBound hsorted _).2 List.findIdx_le_length
  obtain ⟨s', hprune, hsalt, htxns⟩ := prune_of_le hle
  refine ⟨s', ?_, hsalt, ?_⟩
  · rw [hprune]
    congr 2
    refine htaken.trans ?_
    refine List.filter_congr fun t _ => ?_
    rw [Bool.eq_iff_iff, decide_eq_true_eq, hfor]
    simp
  · refine htxns.trans (hleft.trans ?_)
    refine List.filter_congr fun t _ => ?_
    rw [Bool.eq_iff_iff, decide_eq_true_eq, hfor]
    simp only [Bool.or_eq_true, Bool.not_eq_true', Bool.not_eq_true, not_and_or, Bool.not_eq_false]

theorem prunes_allOnes_iff (s : CanonicalTXSet T) (account : BitVec 160) :
    s.Prunes account (BitVec.allOnes 32) ↔ ∀ t ∈ s, STTx.account t ≠ account := by
  have hhigh : ∀ t : T, (keyOf s.salt t).lt ⟨accountKey s.salt account, BitVec.allOnes 32 + 1, 0⟩ ↔
      accountKey s.salt (STTx.account t) < accountKey s.salt account := by
    intro t
    rw [lt_low_iff, show BitVec.allOnes 32 + 1 = (0 : BitVec 32) by decide]
    simp
  constructor
  · rintro ⟨s', hprune, -⟩ t ht hacc
    obtain ⟨hle, htaken⟩ := le_of_prune hprune
    have hlow : ∀ u : T, (keyOf s.salt u).lt ⟨accountKey s.salt account, BitVec.allOnes 32 + 1, 0⟩ = true →
        (keyOf s.salt u).lt ⟨accountKey s.salt account, BitVec.allOnes 32, 0⟩ = true :=
      fun u hu => lt_low_iff.mpr (.inl ((hhigh u).mp hu))
    have hge : s.place account (BitVec.allOnes 32 + 1) ≤ s.place account (BitVec.allOnes 32) := by
      rw [place_eq_countP, place_eq_countP]
      exact List.countP_mono_left fun u _ => hlow u
    -- the range is empty, so the account has no transaction with the last sequence number
    have hnone : s.txns.filter (IsFor account (BitVec.allOnes 32) ·) = [] := by
      refine htaken.trans ?_
      rw [Nat.sub_eq_zero_of_le hge, List.take_zero]
    have hseq : STTx.seq t ≠ BitVec.allOnes 32 := by
      intro hseq
      have := List.filter_eq_nil_iff.mp hnone t ht
      exact this (decide_eq_true ⟨hacc, hseq⟩)
    -- and a transaction with another one is between the two keys
    rw [place_eq_countP, place_eq_countP] at hle
    have hbelow := of_countP_le hlow hle t ht (lt_low_iff.mpr (.inr ⟨hacc, ?_⟩))
    · rw [hhigh, hacc] at hbelow
      exact absurd hbelow (BitVec.lt_irrefl _)
    · have hlt := (STTx.seq t).isLt
      have hne : (STTx.seq t).toNat ≠ 2 ^ 32 - 1 := fun h => hseq (BitVec.eq_of_toNat_eq (by simpa using h))
      rw [BitVec.lt_def, BitVec.toNat_allOnes]
      omega
  · intro hnone
    have hplace : s.place account (BitVec.allOnes 32) = s.place account (BitVec.allOnes 32 + 1) := by
      rw [place_eq_countP, place_eq_countP]
      refine List.countP_congr fun t ht => ?_
      rw [hhigh, lt_low_iff, or_iff_left]
      exact fun h => hnone t ht h.1
    have hfilter : ∀ t ∈ s.txns, ¬ IsFor account (BitVec.allOnes 32) t := fun t ht h => hnone t ht h.1
    obtain ⟨s', hprune, hsalt, htxns⟩ := prune_of_le hplace.le
    refine ⟨s', ?_, hsalt, ?_⟩
    · rw [hprune, hplace, Nat.sub_self, List.take_zero, List.filter_eq_nil_iff.mpr]
      simpa using hfilter
    · rw [htxns, hplace, List.take_append_drop, List.filter_eq_self.mpr]
      simpa using hfilter

/-! ## Runs -/

/-- What iterating gives: the transactions of an account stand together, by sequence number and then by id. -/
structure Listed (txns : List T) : Prop where
  together : ∀ before t between u after, txns = before ++ t :: between ++ u :: after →
    STTx.account t = STTx.account u → ∀ v ∈ between, STTx.account v = STTx.account t
  ascending : txns.Pairwise fun t u => STTx.account t = STTx.account u →
    STTx.seq t < STTx.seq u ∨ STTx.seq t = STTx.seq u ∧ STTx.txid t < STTx.txid u

theorem listed (s : CanonicalTXSet T) : Listed s.txns := by
  constructor
  · intro before t between u after htxns hacc v hv
    have hsorted := s.sorted
    rw [htxns, List.append_assoc, List.cons_append] at hsorted
    obtain ⟨ht, hrest⟩ := List.pairwise_cons.mp (List.pairwise_append.mp hsorted).2.1
    have htv := Key.account_le_of_lt (ht v (List.mem_append_left _ hv))
    have hvu := Key.account_le_of_lt ((List.pairwise_append.mp hrest).2.2 v hv u (by simp))
    refine accountKey_injective s.salt (BitVec.eq_of_toNat_eq ?_)
    simp only [keyOf, hacc, BitVec.le_def] at htv hvu ⊢
    omega
  · refine s.sorted.imp fun h hacc => ?_
    exact Key.lt_of_account_eq h (by simp [keyOf, hacc])

inductive Op (T : Type) where
  | insert (t : T)
  | erase (t : T)
  | prune (account : BitVec 160) (seq : BitVec 32)

/-- An operation on a set; there is no state after a `prune` of an invalid range. -/
def step [DecidableEq T] : Op T → CanonicalTXSet T → CanonicalTXSet T → Prop
  | .insert t, s, s' => s' = s.insert t
  | .erase t, s, s' => s' = s.erase t
  | .prune account seq, s, s' => ∃ r, s.prune account seq = .ok (r, s')

theorem salt_of_run [DecidableEq T] {salt : BitVec 256} {ops : List (Op T)} {s : CanonicalTXSet T}
    (h : Data.Steps step (empty salt) ops s) : s.salt = salt := by
  induction h with
  | nil => rfl
  | @snoc ops op s s' _ hstep ih =>
    rw [← ih]
    cases op with
    | insert t =>
      obtain rfl := hstep
      rfl
    | erase t =>
      obtain rfl := hstep
      rfl
    | prune account seq =>
      obtain ⟨r, hprune⟩ := hstep
      obtain ⟨s'', hprune', hsalt, -⟩ := prune_of_le (le_of_prune hprune).1
      rw [hprune] at hprune'
      cases hprune'
      exact hsalt

/-- **The canonical set in a run.** Iterating lists the transactions of an account together and in order, so what is
taken out for a sequence number is in the order of the ids. `prune` takes out and returns exactly what it is asked for
if and only if the sequence number is not the last one or the account has no transaction in the set. -/
theorem canonicalTXSet_run [DecidableEq T] {salt : BitVec 256} {ops : List (Op T)} {s : CanonicalTXSet T}
    (h : Data.Steps step (empty salt) ops s) :
    s.salt = salt ∧ Listed s.txns ∧
      (∀ account seq, (s.txns.filter (IsFor account seq ·)).Pairwise fun t u => STTx.txid t < STTx.txid u) ∧
      ∀ account seq, s.Prunes account seq ↔ seq ≠ BitVec.allOnes 32 ∨ ∀ t ∈ s, STTx.account t ≠ account := by
  refine ⟨salt_of_run h, s.listed, ?_, ?_⟩
  · intro account seq
    refine (s.listed.ascending.filter _).imp_of_mem fun ht hu h => ?_
    simp only [List.mem_filter, decide_eq_true_eq] at ht hu
    have hlt := h (ht.2.1.trans hu.2.1.symm)
    rw [ht.2.2, hu.2.2] at hlt
    exact (hlt.resolve_left (BitVec.lt_irrefl seq)).2
  · intro account seq
    by_cases hseq : seq = BitVec.allOnes 32
    · rw [hseq, prunes_allOnes_iff]
      simp
    · exact iff_of_true (s.prunes_of_ne account hseq) (.inl hseq)

/-- Transactions whose ids spell out the account and the sequence number. -/
structure Spelled where
  id : BitVec 256
  deriving DecidableEq

instance : STTx Spelled where
  account t := t.id.setWidth 160
  seq t := (t.id >>> 160).setWidth 32
  txid := Spelled.id
  txid_injective := fun ⟨_⟩ ⟨_⟩ h => congrArg Spelled.mk h

theorem canonicalTXSet_run_inserted : ((empty 5).insert (⟨7⟩ : Spelled)).Prunes 7 0 := by
  have hrun : Data.Steps step (empty 5) [.insert (⟨7⟩ : Spelled)] ((empty 5).insert ⟨7⟩) := .single rfl
  exact ((canonicalTXSet_run hrun).2.2.2 7 0).mpr (.inl (by decide))

/-- **The last sequence number**: the transaction stays in the set, and if the account has an earlier one as well, the
range is invalid. -/
theorem prune_last_sequence :
    ∃ t u : Spelled, STTx.account t = 0 ∧ STTx.seq t = BitVec.allOnes 32 ∧ STTx.account u = 0 ∧ STTx.seq u = 1 ∧
      (((empty 0).insert t).prune 0 (BitVec.allOnes 32)).toOption.map (fun r => (r.1, r.2.txns)) = some ([], [t]) ∧
      ((((empty 0).insert t).insert u).prune 0 (BitVec.allOnes 32)).toOption.isNone :=
  ⟨⟨BitVec.allOnes 32 ++ 0#160 |>.setWidth 256⟩, ⟨1#32 ++ 0#160 |>.setWidth 256⟩, by decide +kernel⟩

end CanonicalTXSet

end ScfChain.App.Build
