import ScfChain.ShaMap.Delete

/-!
# The root hash

`treeHash` is the hash of a tree by recursion on its shape; `getHash` returns it for every map that has not been hashed
(`getHash_eq`). `contents` lists what is hashed on the way. If `sha512Half` has no collision on the contents of two trees
and is not zero there, trees with the same hash have the same items (`mem_iff_of_treeHash_eq`).
-/

namespace ScfChain.ShaMap

open Data Node

/-! ## Bytes -/

@[simp]
theorem length_bytes256 (h : Hash) : (bytes256 h).length = 32 := by simp [bytes256]

theorem bytes256_injective : Function.Injective bytes256 := by
  intro h h' heq
  have hpow : 2 ^ 256 = 256 ^ 32 := by norm_num
  refine BitVec.eq_of_toNat_eq (eq_of_div_mod (b := 256) (n := 32) (hpow ▸ h.isLt) (hpow ▸ h'.isLt) fun i hi => ?_)
  have hbyte := congrArg UInt8.toNat (List.map_inj_left.mp heq (31 - i) (List.mem_range.mpr (by omega)))
  rw [UInt8.toNat_ofNat', UInt8.toNat_ofNat', show 31 - (31 - i) = i by omega] at hbyte
  exact hbyte

theorem flatMap_bytes256_injective {f g : Fin 16 → Hash} : ∀ {l : List (Fin 16)},
    (l.flatMap fun i => bytes256 (f i)) = (l.flatMap fun i => bytes256 (g i)) → ∀ i ∈ l, f i = g i
  | [], _, i, hi => by cases hi
  | j :: l, h, i, hi => by
    rw [List.flatMap_cons, List.flatMap_cons] at h
    obtain ⟨hj, hl⟩ := List.append_inj h (by simp)
    rcases List.mem_cons.mp hi with rfl | hi
    · exact bytes256_injective hj
    · exact flatMap_bytes256_injective hl i hi

theorem innerPreimage_injective : Function.Injective innerPreimage := by
  intro f g h
  funext i
  exact flatMap_bytes256_injective (List.append_cancel_left h) i (List.mem_finRange i)

theorem preimage_ne_innerPreimage {ty : TNType} {item : Item} {f : Fin 16 → Hash} :
    item.preimage ty ≠ innerPreimage f := by
  cases ty <;> simp [Item.preimage, innerPreimage, HashPrefix.bytes]

theorem preimage_inj {ty ty' : TNType} {item item' : Item} (h : item.preimage ty = item'.preimage ty') :
    ty = ty' ∧ item.data = item'.data ∧ (ty ≠ .transactionNM → item = item') := by
  have hsplit : item.data ++ bytes256 item.key = item'.data ++ bytes256 item'.key → item = item' := fun h => by
    obtain ⟨hdata, hkey⟩ := List.append_inj' h (by simp)
    exact Item.ext (bytes256_injective hkey) hdata
  cases ty <;> cases ty' <;>
    simp only [Item.preimage, HashPrefix.bytes, List.cons_append, List.nil_append, List.cons.injEq] at h
  · exact ⟨rfl, by simpa using h, fun h => absurd rfl h⟩
  · simp at h
  · simp at h
  · simp at h
  · have heq := hsplit (by simpa using h)
    exact ⟨rfl, by rw [heq], fun _ => heq⟩
  · simp at h
  · simp at h
  · simp at h
  · have heq := hsplit (by simpa using h)
    exact ⟨rfl, by rw [heq], fun _ => heq⟩

/-! ## The hash of a tree -/

section

variable (sha : List UInt8 → Hash) (ty : TNType)

/-- The hash of a tree. -/
def treeHash : Radix (Fin 16) Item → Hash
  | .empty => 0
  | .leaf item => sha (item.preimage ty)
  | .node c => if ∃ i, (c i).isEmpty = false then sha (innerPreimage fun i => treeHash (c i)) else 0

/-- What is hashed for a tree. -/
def contents : Radix (Fin 16) Item → List (List UInt8)
  | .empty => []
  | .leaf item => [item.preimage ty]
  | .node c => innerPreimage (fun i => treeHash sha ty (c i)) :: (List.finRange 16).flatMap fun i => contents (c i)

end

variable {sha : List UInt8 → Hash} {s : UInt32} {ty : TNType}

theorem isEmpty_shape (n : Node) : n.shape.isEmpty = n.isNull := by cases n <;> rfl

theorem Sound.seq_eq {n : Node} (h : Sound sha s ty n) (hn : n.isNull = false) : n.seq = s := by
  cases h with
  | null => cases hn
  | leaf => rfl
  | inner => rfl

/-- **`walkSubTree` computes the hash of the tree.** -/
theorem hash_flushNode {n : Node} (h : Sound sha s ty n) (hs : s ≠ 0) :
    (flushNode sha n).hash = treeHash sha ty n.shape ∧ (flushNode sha n).isNull = n.isNull := by
  induction h with
  | null => exact ⟨rfl, rfl⟩
  | leaf item => exact ⟨rfl, rfl⟩
  | @inner br hashes cs hbr hhs hcs ih =>
    refine ⟨?_, rfl⟩
    rw [flushNode, Node.hash, shape, treeHash, innerHash]
    have hex : (∃ i, br i = true) ↔ ∃ i, (cs i).shape.isEmpty = false := by simp [hbr, isEmpty_shape]
    have hfun : (fun i => if (if br i = true ∧ (cs i).seq ≠ 0 then flushNode sha (cs i) else cs i).isNull then hashes i
        else (if br i = true ∧ (cs i).seq ≠ 0 then flushNode sha (cs i) else cs i).hash) =
        fun i => treeHash sha ty (cs i).shape := by
      funext i
      obtain ⟨hhash, hnull⟩ := ih i
      cases hn : (cs i).isNull with
      | true =>
        have hb : ¬ (br i = true ∧ (cs i).seq ≠ 0) := by simp [hbr, hn]
        rw [if_neg hb, hn, if_pos rfl, hhs, shape_eq_empty_iff.mpr hn]
        rfl
      | false =>
        have hb : br i = true ∧ (cs i).seq ≠ 0 := ⟨by simp [hbr, hn], by rwa [(hcs i).seq_eq hn]⟩
        rw [if_pos hb, hnull, hn, hhash]
        rfl
    simp only [hfun, hex]

theorem SHAMap.getHash_eq {m : SHAMap} (h : m.Ok sha ty) : (m.getHash sha).1 = treeHash sha ty m.root.shape := by
  obtain ⟨c, hc, -⟩ := h.top.sorted
  have hflush := (hash_flushNode h.top.sound h.seq_ne).1
  have hsound := h.top.sound
  rw [getHash, unshare]
  generalize m.root = r at *
  cases hsound with
  | null => cases hc
  | leaf => cases hc
  | @inner br hashes cs hbr hhs hcs =>
    have hzero : (Node.inner m.seq 0 br hashes cs).hash = 0 := rfl
    rw [if_pos hzero]
    simp only [if_neg h.seq_ne]
    by_cases hex : ∃ i, br i = true
    · rw [if_pos hex]
      exact hflush
    · have hempty : ¬ ∃ i, (cs i).shape.isEmpty = false := by simpa [hbr, isEmpty_shape] using hex
      rw [if_neg hex, shape, treeHash, if_neg hempty]
      rfl

/-! ## Trees with the same hash -/

section

variable {ty' : TNType}

theorem not_mem_of_treeHash_eq_zero {t : Radix (Fin 16) Item} (hne : ∀ b ∈ contents sha ty t, sha b ≠ 0)
    (h : treeHash sha ty t = 0) : ∀ x, ¬ Radix.Mem x t := by
  cases t with
  | empty => exact fun x => Radix.not_mem_empty
  | leaf item => exact absurd h (hne _ List.mem_cons_self)
  | node c =>
    rw [treeHash] at h
    split at h
    · exact absurd h (hne _ List.mem_cons_self)
    · next hno =>
      intro x hx
      obtain ⟨i, hi⟩ := Radix.mem_node_iff.mp hx
      refine hno ⟨i, ?_⟩
      cases hc : c i with
      | empty => exact absurd (hc ▸ hi) Radix.not_mem_empty
      | leaf => rfl
      | node => rfl

/-- The keys of transactions without metadata are the hashes of their leaves. -/
def KeysHashed (sha : List UInt8 → Hash) (ty : TNType) (t : Radix (Fin 16) Item) : Prop :=
  ty = .transactionNM → ∀ x, Radix.Mem x t → x.key = sha (x.preimage ty)

variable {c : Fin 16 → Radix (Fin 16) Item}

theorem KeysHashed.child (h : KeysHashed sha ty (.node c)) (i : Fin 16) :
    KeysHashed sha ty (c i) := fun hty x hx => h hty x (.node i hx)

theorem mem_contents_child {i : Fin 16} {b : List UInt8}
    (h : b ∈ contents sha ty (c i)) : b ∈ contents sha ty (.node c) :=
  List.mem_cons_of_mem _ (List.mem_flatMap.mpr ⟨i, List.mem_finRange i, h⟩)

theorem treeHash_node (h : treeHash sha ty (.node c) ≠ 0) :
    treeHash sha ty (.node c) = sha (innerPreimage fun i => treeHash sha ty (c i)) := by
  rw [treeHash] at h ⊢
  split
  · rfl
  · next hno =>
    rw [if_neg hno] at h
    exact absurd rfl h

/-- **Trees with the same hash have the same items**, unless `sha512Half` has a collision or a zero among what is
hashed for them. -/
theorem mem_iff_of_treeHash_eq {t t' : Radix (Fin 16) Item}
    (hinj : ∀ a ∈ contents sha ty t, ∀ b ∈ contents sha ty' t', sha a = sha b → a = b)
    (hne : ∀ b ∈ contents sha ty t, sha b ≠ 0) (hne' : ∀ b ∈ contents sha ty' t', sha b ≠ 0)
    (hk : KeysHashed sha ty t) (hk' : KeysHashed sha ty' t') (h : treeHash sha ty t = treeHash sha ty' t') (x : Item) :
    Radix.Mem x t ↔ Radix.Mem x t' := by
  induction t generalizing t' with
  | empty =>
    exact iff_of_false (not_mem_of_treeHash_eq_zero hne rfl x) (not_mem_of_treeHash_eq_zero hne' h.symm x)
  | leaf item =>
    have hmem : item.preimage ty ∈ contents sha ty (.leaf item) := List.mem_cons_self
    cases t' with
    | empty => exact absurd h (hne _ hmem)
    | leaf item' =>
      have heq := hinj _ hmem _ List.mem_cons_self h
      obtain ⟨rfl, hdata, hitem⟩ := preimage_inj heq
      have : item = item' := by
        by_cases hty : ty = .transactionNM
        · have hkey := hk hty item .leaf
          rw [heq, ← hk' hty item' .leaf] at hkey
          exact Item.ext hkey hdata
        · exact hitem hty
      rw [this]
    | node c' =>
      have hnode := treeHash_node fun hzero => hne _ hmem (h.trans hzero)
      exact absurd (hinj _ hmem _ List.mem_cons_self (h.trans hnode)) preimage_ne_innerPreimage
  | node c ih =>
    by_cases hzero : treeHash sha ty (.node c) = 0
    · exact iff_of_false (not_mem_of_treeHash_eq_zero hne hzero x)
        (not_mem_of_treeHash_eq_zero hne' (h.symm.trans hzero) x)
    · have hmem : innerPreimage (fun i => treeHash sha ty (c i)) ∈ contents sha ty (.node c) := List.mem_cons_self
      cases t' with
      | empty => exact absurd h hzero
      | leaf item' =>
        have heq := hinj _ hmem _ List.mem_cons_self ((treeHash_node hzero).symm.trans h)
        exact absurd heq.symm preimage_ne_innerPreimage
      | node c' =>
        have hsha := (treeHash_node hzero).symm.trans (h.trans (treeHash_node (h ▸ hzero)))
        have hchild := congrFun (innerPreimage_injective (hinj _ hmem _ List.mem_cons_self hsha))
        rw [Radix.mem_node_iff, Radix.mem_node_iff]
        refine exists_congr fun i => ih i (fun a ha b hb => ?_) (fun b hb => ?_) (fun b hb => ?_) (hk.child i)
          (hk'.child i) (hchild i)
        · exact hinj a (mem_contents_child ha) b (mem_contents_child hb)
        · exact hne b (mem_contents_child hb)
        · exact hne' b (mem_contents_child hb)

end

end ScfChain.ShaMap
