import ScfChain.Consensus.Trie.Shape

/-!
# `checkInvariants`

`Tracks m f`: the map `m` holds the 32-bit counts `f s` that are not zero, as `seqSupport` does. On a well-formed
tree the walk of `checkInvariants` never fails and adds to the map it carries the tip supports of the tree by
sequence number (`check_eq`).
-/

namespace ScfChain.Consensus

open Data
open Std (ExtTreeMap)

/-- The map holds the counts `f`, without the zero ones. -/
def Tracks (m : ExtTreeMap ℕ UInt32) (f : ℕ → ℕ) : Prop :=
  ∀ s, m[s]? = if f s = 0 then none else some (UInt32.ofNat (f s))

theorem tracks_empty : Tracks ∅ fun _ => 0 := fun s => by simp

variable {m : ExtTreeMap ℕ UInt32} {f : ℕ → ℕ}

theorem Tracks.getD (h : Tracks m f) (s : ℕ) : m[s]?.getD 0 = UInt32.ofNat (f s) := by
  rw [h s]
  split
  · next h0 => rw [h0]; rfl
  · rfl

theorem Tracks.unique {m' : ExtTreeMap ℕ UInt32} (h : Tracks m f) (h' : Tracks m' f) : m = m' :=
  ExtTreeMap.ext_getElem? fun s => by rw [h s, h' s]

theorem Tracks.add (h : Tracks m f) {k : UInt32} (hk : k ≠ 0) (x : ℕ) :
    Tracks (m.alter x fun old => some (old.getD 0 + k)) fun s => f s + if x = s then k.toNat else 0 := by
  have hkpos : k.toNat ≠ 0 := fun h0 => hk (UInt32.toNat_inj.mp h0)
  intro s
  simp only [ExtTreeMap.getElem?_alter, Nat.compare_eq_eq]
  by_cases hx : x = s
  · subst hx
    simp only [if_true, h.getD]
    rw [if_neg (by omega), UInt32.ofNat_add, UInt32.ofNat_toNat]
  · simp only [hx, if_false, Nat.add_zero]
    exact h s

theorem Tracks.sub {g : ℕ → ℕ} (h : Tracks m f) {k : UInt32} {x : ℕ} (hk : ∀ s, f s = g s + if x = s then k.toNat else 0)
    (hlt : f x < 2 ^ 32) :
    Tracks (m.alter x fun old => old.bind fun n => if n - k = 0 then none else some (n - k)) g := by
  intro s
  simp only [ExtTreeMap.getElem?_alter, Nat.compare_eq_eq]
  by_cases hx : x = s
  · subst hx
    have hfx := hk x
    rw [if_pos rfl] at hfx
    have hsub : UInt32.ofNat (f x) - k = UInt32.ofNat (g x) := by
      rw [hfx, UInt32.ofNat_add, UInt32.ofNat_toNat, UInt32.add_sub_cancel]
    have hzero : UInt32.ofNat (g x) = 0 ↔ g x = 0 := by
      rw [← UInt32.toNat_inj, UInt32.toNat_ofNat_of_lt' (by omega : g x < 2 ^ 32), UInt32.toNat_zero]
    simp only [if_true, h x]
    by_cases hf : f x = 0
    · simp only [hf, if_true, Option.bind_none]
      rw [if_pos (by omega)]
    · simp only [hf, if_false, Option.bind_some, hsub, hzero]
  · simp only [hx, if_false]
    rw [h s, hk s, if_neg hx, Nat.add_zero]

variable {L ID : Type} [LinearOrder ID] [HistoryLedger L ID]

/-- `y` is the ID of a ledger with sequence number `s`. -/
def AtSeq (L : Type) {ID : Type} [LinearOrder ID] [HistoryLedger L ID] (s : ℕ) (y : ID) : Prop :=
  ∃ m : L, s ≤ seq m ∧ ancestor m s = y

theorem Span.atSeq_tip (sp : Span L) {s : ℕ} : AtSeq L s sp.tip.id ↔ sp.end_ - 1 = s := by
  constructor
  · rintro ⟨m, hs, he⟩
    exact (Share.of_ancestor_eq hs sp.tip_le_seq he).1.symm
  · rintro rfl
    exact ⟨sp.ledger, sp.tip_le_seq, rfl⟩

theorem atSeq_idOf {l : L} {s : ℕ} : AtSeq L s (idOf l) ↔ seq l = s := by
  constructor
  · rintro ⟨m, hs, he⟩
    exact (Share.of_ancestor_eq hs le_rfl (he.trans (HistoryLedger.ancestor_seq l).symm)).1.symm
  · rintro rfl
    exact ⟨l, le_rfl, HistoryLedger.ancestor_seq l⟩

namespace Node

theorem sum_toUInt64 : ∀ ks : List UInt32,
    (ks.map UInt32.toUInt64).sum = UInt64.ofNat (ks.map UInt32.toNat).sum
  | [] => rfl
  | k :: ks => by
    rw [List.map_cons, List.sum_cons, sum_toUInt64 ks, List.map_cons, List.sum_cons, UInt64.ofNat_add,
      UInt64.ofNat_uInt32ToNat]

variable {n : Node L}

theorem Local.sum_eq (h : n.Local) : n.tipSupport.toUInt64 + (n.children.map fun c => c.branchSupport.toUInt64).sum =
      n.branchSupport.toUInt64 := by
  have hsum := sum_toUInt64 (n.children.map fun c => c.branchSupport)
  rw [List.map_map, List.map_map] at hsum
  have hbr := congrArg UInt64.ofNat h.branch_eq
  rw [UInt64.ofNat_add, UInt64.ofNat_uInt32ToNat, UInt64.ofNat_uInt32ToNat] at hbr
  exact (congrArg (n.tipSupport.toUInt64 + ·) hsum).trans hbr.symm

theorem check_unfold (isRoot : Bool) (m : ExtTreeMap ℕ UInt32) (hn : n.Local)
    (hcomp : isRoot = false → n.tipSupport = 0 → 2 ≤ n.children.length) :
    n.check isRoot m = checkAll
      (if n.tipSupport == 0 then m
       else m.alter (n.span.end_ - 1) fun old => some (old.getD 0 + n.tipSupport)) n.children := by
  have h1 : (!isRoot && n.tipSupport == 0 && decide (n.children.length < 2)) = false := by
    cases isRoot with
    | true => rfl
    | false =>
      by_cases h0 : n.tipSupport = 0
      · have hlen := hcomp rfl h0
        rw [decide_eq_false (by omega), Bool.and_false]
      · simp [h0]
  have h2 : n.children.any (fun child => child.parent != some n.addr) = false := by
    rw [List.any_eq_false]
    intro c hc
    simp [hn.parent_eq c hc]
  have h3 := hn.sum_eq
  cases n
  simp only at h1 h2 h3 ⊢
  rw [check, h1, h2, h3]
  simp

theorem checkAll_eq : ∀ {cs : List (Node L)} {m : ExtTreeMap ℕ UInt32} {f : ℕ → ℕ}, Tracks m f →
    (∀ c ∈ cs, ∀ m f, Tracks m f → ∃ m', c.check false m = some m' ∧
      Tracks m' fun s => f s + tally (AtSeq L s) c.support) →
    ∃ m', checkAll m cs = some m' ∧ Tracks m' fun s => f s + (cs.map fun c => tally (AtSeq L s) c.support).sum
  | [], m, f, hm, _ => ⟨m, by rw [checkAll], hm⟩
  | c :: cs, m, f, hm, h => by
    obtain ⟨m₁, h₁, ht₁⟩ := checkAll_eq hm fun d hd => h d (List.mem_cons_of_mem _ hd)
    obtain ⟨m₂, h₂, ht₂⟩ := h c List.mem_cons_self m₁ _ ht₁
    refine ⟨m₂, by rw [checkAll, h₁, Option.bind_some, h₂], ?_⟩
    have hfun : (fun s => f s + (cs.map fun c => tally (AtSeq L s) c.support).sum +
        tally (AtSeq L s) c.support) =
        fun s => f s + ((c :: cs).map fun c => tally (AtSeq L s) c.support).sum := by
      funext s
      rw [List.map_cons, List.sum_cons]
      omega
    rwa [hfun] at ht₂

/-- **The walk of `checkInvariants` over a well-formed tree** succeeds and adds its tip supports. -/
theorem check_eq (hn : n.WF) : ∀ (isRoot : Bool), (isRoot = false → n.tipSupport = 0 → 2 ≤ n.children.length) →
    ∀ (m : ExtTreeMap ℕ UInt32) (f : ℕ → ℕ), Tracks m f → ∃ m', n.check isRoot m = some m' ∧
      Tracks m' fun s => f s + tally (AtSeq L s) n.support := by
  induction hn with
  | @intro n hloc _ ih =>
    intro isRoot hcomp m f hm
    have htip : Tracks
        (if n.tipSupport == 0 then m
          else m.alter (n.span.end_ - 1) fun old => some (old.getD 0 + n.tipSupport))
        fun s => f s + if n.span.end_ - 1 = s then n.tipSupport.toNat else 0 := by
      by_cases h0 : n.tipSupport = 0
      · simpa [h0] using hm
      · rw [if_neg (by simpa using h0)]
        exact hm.add h0 _
    obtain ⟨m', hm', ht'⟩ := checkAll_eq htip fun c hc m f h => ih c hc false
      (fun _ => hloc.compressed c hc) m f h
    refine ⟨m', by rw [check_unfold isRoot m hloc hcomp]; exact hm', ?_⟩
    have hfun : (fun s => (f s + if n.span.end_ - 1 = s then n.tipSupport.toNat else 0) +
        (n.children.map fun c => tally (AtSeq L s) c.support).sum) =
        fun s => f s + tally (AtSeq L s) n.support := by
      funext s
      have : Decidable (AtSeq L s n.span.tip.id) := decidable_of_iff _ n.span.atSeq_tip.symm
      rw [tally_support, tally_single]
      simp only [n.span.atSeq_tip]
      omega
    rwa [hfun] at ht'

end Node

end ScfChain.Consensus
