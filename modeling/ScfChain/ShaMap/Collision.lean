import ScfChain.ShaMap.Complete

/-!
# Trees with the same hash

What is hashed for a tree of either version (`preimages`), and that two trees with the same hash have the same items
(`Hashed.mem_items_iff`) as long as `sha512Half` has no collision and no zero among it (`NoCollision`). The key of a
transaction without metadata is not hashed; it has to be the hash of the transaction (`Keyed`).
-/

namespace ScfChain.ShaMap

open Data AbstractNode

/-! ## What is hashed -/

/-- What `updateHash` of a node hashes. An inner node without branches has the hash zero. -/
def AbstractNode.preimage : AbstractNode → Option (List UInt8)
  | null => none
  | leaf item type _ _ => some (item.preimage type)
  | inner v2 _ _ br hs _ => if ∃ i, br i = true then some (branchesPreimage (v2.map Prefix.toCommon) ⟨hs, br⟩) else none

/-- What is hashed for a tree. -/
def AbstractNode.preimages : AbstractNode → List (List UInt8)
  | null => []
  | leaf item type _ _ => [item.preimage type]
  | inner v2 s h br hs cs =>
    (inner v2 s h br hs cs).preimage.toList ++ (List.finRange 16).flatMap fun i => (cs i).preimages

/-- `sha512Half` has no collision and no zero among what is hashed for two trees. -/
structure NoCollision (sha : List UInt8 → Hash) (n n' : AbstractNode) : Prop where
  inj : ∀ a ∈ n.preimages, ∀ b ∈ n'.preimages, sha a = sha b → a = b
  ne_zero : ∀ a ∈ n.preimages, sha a ≠ 0
  ne_zero' : ∀ b ∈ n'.preimages, sha b ≠ 0

/-- The keys of transactions without metadata are their hashes. -/
def Keyed (sha : List UInt8 → Hash) (ty : TNType) (n : AbstractNode) : Prop :=
  ty = .transactionNM → ∀ x ∈ n.items, x.key = sha (x.preimage ty)

variable {sha : List UInt8 → Hash} {ty ty' : TNType} {n n' : AbstractNode} {v2 v2' : Option Prefix} {s s' : UInt32} {h h' : Hash}
  {br br' : Fin 16 → Bool} {hs hs' : Fin 16 → Hash} {cs cs' : Fin 16 → AbstractNode}

theorem mem_preimages_of_preimage {b : List UInt8} (hb : b ∈ n.preimage) : b ∈ n.preimages := by
  cases n with
  | null => cases hb
  | leaf item type s h =>
    obtain rfl := Option.some.inj hb
    exact List.mem_cons_self
  | inner v2 s h br hs cs => exact List.mem_append_left _ (Option.mem_toList.mpr hb)

theorem mem_preimages_child {i : Fin 16} {b : List UInt8} (hb : b ∈ (cs i).preimages) :
    b ∈ (AbstractNode.inner v2 s h br hs cs).preimages :=
  List.mem_append_right _ (List.mem_flatMap.mpr ⟨i, List.mem_finRange i, hb⟩)

theorem NoCollision.symm (hfree : NoCollision sha n n') : NoCollision sha n' n :=
  ⟨fun a ha b hb heq => (hfree.inj b hb a ha heq.symm).symm, hfree.ne_zero', hfree.ne_zero⟩

theorem NoCollision.mono (hfree : NoCollision sha n n') {k k' : AbstractNode} (hle : ∀ a ∈ k.preimages, a ∈ n.preimages)
    (hle' : ∀ a ∈ k'.preimages, a ∈ n'.preimages) : NoCollision sha k k' where
  inj a ha b hb := hfree.inj a (hle a ha) b (hle' b hb)
  ne_zero a ha := hfree.ne_zero a (hle a ha)
  ne_zero' b hb := hfree.ne_zero' b (hle' b hb)

theorem NoCollision.child (hfree : NoCollision sha (.inner v2 s h br hs cs) (.inner v2' s' h' br' hs' cs')) (i j : Fin 16) :
    NoCollision sha (cs i) (cs' j) :=
  hfree.mono (fun _ ha => mem_preimages_child ha) fun _ hb => mem_preimages_child hb

theorem Keyed.child (hk : Keyed sha ty (.inner v2 s h br hs cs)) (i : Fin 16) : Keyed sha ty (cs i) :=
  fun hty x hx => hk hty x (mem_items_inner.mpr ⟨i, hx⟩)

/-! ## Hashes and preimages -/

theorem Hashed.hash_eq (hn : Hashed sha ty n) : n.hash = (n.preimage.map sha).getD 0 := by
  cases hn with
  | null => rfl
  | leaf item s => rfl
  | @inner v2 s br hs cs hbr hhash hc =>
    rw [AbstractNode.hash, AbstractNode.preimage, AbstractNode.innerHash, Content.updateHash]
    by_cases hex : ∃ i, br i = true
    · rw [if_pos hex, if_pos hex]
      rfl
    · rw [if_neg hex, if_neg hex]
      rfl

theorem Hashed.preimage_eq (hn : Hashed sha ty n) (hn' : Hashed sha ty' n') (hfree : NoCollision sha n n')
    (heq : n.hash = n'.hash) : n.preimage = n'.preimage := by
  rw [hn.hash_eq, hn'.hash_eq] at heq
  cases hp : n.preimage with
  | none =>
    cases hp' : n'.preimage with
    | none => rfl
    | some b =>
      rw [hp, hp'] at heq
      exact absurd heq.symm (hfree.ne_zero' b (mem_preimages_of_preimage hp'))
  | some a =>
    have ha := mem_preimages_of_preimage hp
    cases hp' : n'.preimage with
    | none =>
      rw [hp, hp'] at heq
      exact absurd heq (hfree.ne_zero a ha)
    | some b =>
      rw [hp, hp'] at heq
      rw [hfree.inj a ha b (mem_preimages_of_preimage hp') heq]

theorem Hashed.isNull_of_not_exists (hn : Hashed sha ty (.inner v2 s h br hs cs)) (hex : ¬∃ i, br i = true) (i : Fin 16) :
    (cs i).isNull = true := by
  have hno := hn.branch_eq i
  rw [show br i = false by simpa using not_exists.mp hex i] at hno
  simpa using hno.symm

theorem Hashed.items_of_preimage_none (hn : Hashed sha ty n) (hp : n.preimage = none) : n.items = [] := by
  cases n with
  | null => rfl
  | leaf => cases hp
  | inner v2 s h br hs cs =>
    rw [AbstractNode.preimage] at hp
    split_ifs at hp with hex
    rw [items, List.flatMap_eq_nil_iff]
    exact fun i _ => items_of_isNull (hn.isNull_of_not_exists hex i)

theorem branchesPreimage_hashes {c c' : Option Common} {b b' : Branches} (heq : branchesPreimage c b = branchesPreimage c' b') :
    b.hashes = b'.hashes := by
  cases c with
  | none =>
    cases c' with
    | none => exact innerPreimage_injective heq
    | some c' => simp [branchesPreimage, innerPreimage, HashPrefix.bytes] at heq
  | some c =>
    cases c' with
    | none => simp [branchesPreimage, innerPreimage, HashPrefix.bytes] at heq
    | some c' =>
      rw [branchesPreimage, branchesPreimage, List.append_assoc, List.append_assoc] at heq
      have hlen (b : Branches) : ((List.finRange 16).flatMap fun i => bytes256 (b.hashes i)).length = 512 := by
        simp [length_bytes256]
      have hbytes := (List.append_inj (List.append_cancel_left heq) ((hlen b).trans (hlen b').symm)).1
      funext i
      exact flatMap_bytes256_injective hbytes i (List.mem_finRange i)

theorem preimage_ne_branchesPreimage {item : Item} {c : Option Common} {b : Branches} :
    item.preimage ty ≠ branchesPreimage c b := by
  cases c with
  | none => exact preimage_ne_innerPreimage
  | some c =>
    cases ty with
    | transactionNM => simp [Item.preimage, branchesPreimage, HashPrefix.bytes]
    | transactionMD => simp [Item.preimage, branchesPreimage, HashPrefix.bytes]
    | accountState => simp [Item.preimage, branchesPreimage, HashPrefix.bytes]

theorem Hashed.hashes_eq_of_hash_eq (hn : Hashed sha ty (.inner v2 s h br hs cs)) (hn' : Hashed sha ty' (.inner v2' s' h' br' hs' cs'))
    (hfree : NoCollision sha (.inner v2 s h br hs cs) (.inner v2' s' h' br' hs' cs')) (heq : h = h') : hs = hs' := by
  have hpre := hn.preimage_eq hn' hfree heq
  rw [AbstractNode.preimage, AbstractNode.preimage] at hpre
  split_ifs at hpre with hex hex' hex'
  · exact branchesPreimage_hashes (Option.some.inj hpre)
  · -- neither of them has a child
    funext i
    rw [hn.hashes_eq, hn'.hashes_eq, hash_of_isNull (hn.isNull_of_not_exists hex i), hash_of_isNull (hn'.isNull_of_not_exists hex' i)]

theorem Hashed.mem_items_of_hash_eq (hn : Hashed sha ty n) (hn' : Hashed sha ty' n') (hfree : NoCollision sha n n')
    (hk : Keyed sha ty n) (hk' : Keyed sha ty' n') (heq : n.hash = n'.hash) {x : Item} (hx : x ∈ n.items) :
    ty = ty' ∧ x ∈ n'.items := by
  have hpre := hn.preimage_eq hn' hfree heq
  induction hn generalizing n' with
  | null => cases hx
  | leaf item s =>
    obtain rfl := List.mem_singleton.mp hx
    cases hn' with
    | null => cases hpre
    | leaf item' s' =>
      have hbytes : x.preimage ty = item'.preimage ty' := Option.some.inj hpre
      obtain ⟨rfl, hdata, hitem⟩ := preimage_inj hbytes
      have hsame : x = item' := by
        by_cases hty : ty = .transactionNM
        · have hkey := hk hty x List.mem_cons_self
          rw [hbytes, ← hk' hty item' List.mem_cons_self] at hkey
          exact Item.ext hkey hdata
        · exact hitem hty
      exact ⟨rfl, hsame ▸ List.mem_cons_self⟩
    | @inner v2' s' br' hs' cs' =>
      change some (x.preimage ty) = _ at hpre
      rw [AbstractNode.preimage] at hpre
      split_ifs at hpre
      exact absurd (Option.some.inj hpre) preimage_ne_branchesPreimage
  | @inner v2 s br hs cs hbr hhash hc ih =>
    have hinner : Hashed sha ty (.inner v2 s (AbstractNode.innerHash sha v2 br hs) br hs cs) := .inner hbr hhash hc
    cases hn' with
    | null =>
      rw [hinner.items_of_preimage_none hpre] at hx
      cases hx
    | leaf item' s' =>
      change _ = some (item'.preimage ty') at hpre
      rw [AbstractNode.preimage] at hpre
      split_ifs at hpre
      exact absurd (Option.some.inj hpre).symm preimage_ne_branchesPreimage
    | @inner v2' s' br' hs' cs' hbr' hhash' hc' =>
      have hhashes := hinner.hashes_eq_of_hash_eq (.inner hbr' hhash' hc') hfree heq
      obtain ⟨i, hi⟩ := mem_items_inner.mp hx
      have hchild : (cs i).hash = (cs' i).hash := by rw [← hhash, ← hhash', hhashes]
      have hfree' := hfree.child i i
      obtain ⟨hty, hmem⟩ := ih i (hc' i) hfree' (hk.child i) (hk'.child i) hchild hi ((hc i).preimage_eq (hc' i) hfree' hchild)
      exact ⟨hty, mem_items_inner.mpr ⟨i, hmem⟩⟩

/-- **Trees with the same hash have the same items.** -/
theorem Hashed.mem_items_iff (hn : Hashed sha ty n) (hn' : Hashed sha ty' n') (hfree : NoCollision sha n n')
    (hk : Keyed sha ty n) (hk' : Keyed sha ty' n') (heq : n.hash = n'.hash) (x : Item) : x ∈ n.items ↔ x ∈ n'.items :=
  ⟨fun hx => (hn.mem_items_of_hash_eq hn' hfree hk hk' heq hx).2,
    fun hx => (hn'.mem_items_of_hash_eq hn hfree.symm hk' hk heq.symm hx).2⟩

end ScfChain.ShaMap
