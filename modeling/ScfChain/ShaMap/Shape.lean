import ScfChain.ShaMap.Basic
import ScfChain.Data.Radix

/-!
# The shape of a `SHAMap`

`Node.shape` forgets sequence numbers and hashes: a radix tree of items with the nibbles of their keys as digits.
`Sound s ty n` is the rest of the invariant: the nodes belong to the map, the bitmap says which children there are, the
leaves have the type `ty` and their hash, and no inner node has one yet.

The walks of the source go down with a stack and come back up along it. `walkEnd` is the node a walk ends at, `graft`
the tree with that node replaced; `walk_eq` relates them to the stack.
-/

namespace ScfChain.ShaMap

open Data

/-- The nibbles of the key of an item. -/
def digit (depth : ℕ) (item : Item) : Fin 16 := selectBranch depth item.key

/-- The digits before `d` agree with those of `key`. -/
def Agree (d : ℕ) (key key' : Hash) : Prop := ∀ e < d, selectBranch e key = selectBranch e key'

variable {d : ℕ} {key : Hash} {n child : Node} {i : Fin 16} {x : Item}

theorem Agree.succ {key' : Hash} (h : Agree d key key')
    (hd : selectBranch d key = selectBranch d key') : Agree (d + 1) key key' := by
  intro e he
  rcases Nat.lt_succ_iff_lt_or_eq.mp he with he | rfl
  · exact h e he
  · exact hd

theorem eq_of_agree {key' : Hash} (h : Agree 64 key key') : key = key' := by
  have hpow : 2 ^ 256 = 16 ^ 64 := by norm_num
  refine BitVec.eq_of_toNat_eq (eq_of_div_mod (b := 16) (n := 64) (hpow ▸ key.isLt) (hpow ▸ key'.isLt) fun i hi => ?_)
  have hdig := congrArg Fin.val (h (63 - i) (by omega))
  simp only [selectBranch] at hdig
  rwa [show 63 - (63 - i) = i by omega] at hdig

namespace Node

/-- The tree without sequence numbers and hashes. -/
def shape : Node → Radix (Fin 16) Item
  | null => .empty
  | leaf item _ _ _ => .leaf item
  | inner _ _ _ _ cs => .node fun i => (cs i).shape

theorem shape_eq_empty_iff {n : Node} : n.shape = .empty ↔ n.isNull = true := by
  cases n <;> simp [shape, isNull]

end Node

open Node

/-- The nodes of a map that has not been hashed. -/
inductive Sound (sha512Half : List UInt8 → Hash) (s : UInt32) (ty : TNType) : Node → Prop
  | null : Sound sha512Half s ty .null
  | leaf (item : Item) : Sound sha512Half s ty (newLeaf sha512Half item ty s)
  | inner {br : Fin 16 → Bool} {hs : Fin 16 → Hash} {cs : Fin 16 → Node} :
      (∀ i, br i = !(cs i).isNull) → (∀ i, hs i = 0) → (∀ i, Sound sha512Half s ty (cs i)) →
      Sound sha512Half s ty (.inner s 0 br hs cs)

variable {sha : List UInt8 → Hash} {s : UInt32} {ty : TNType}

theorem Sound.unshareNode_eq (h : Sound sha s ty n) (hn : n.isNull = false) : unshareNode s n = n := by
  cases h with
  | null => cases hn
  | leaf item => simp [unshareNode, newLeaf, Node.seq]
  | inner => simp [unshareNode, Node.seq]

theorem sound_newInner : Sound sha s ty (.newInner s) := .inner (fun _ => rfl) (fun _ => rfl) fun _ => .null

theorem Sound.setChild (h : Sound sha s ty n) (hc : Sound sha s ty child) (m : Fin 16) :
    Sound sha s ty (n.setChild m child) := by
  cases h with
  | null => exact .null
  | leaf item => exact .leaf item
  | @inner br hs cs hbr hhs hcs =>
    refine .inner (fun i => ?_) (fun i => ?_) fun i => ?_
    · by_cases hi : i = m
      · rw [hi, Function.update_self, Function.update_self]
      · rw [Function.update_of_ne hi, Function.update_of_ne hi]
        exact hbr i
    · by_cases hi : i = m
      · rw [hi, Function.update_self]
      · rw [Function.update_of_ne hi]
        exact hhs i
    · by_cases hi : i = m
      · rw [hi, Function.update_self]
        exact hc
      · rw [Function.update_of_ne hi]
        exact hcs i

theorem shape_setChild {c : Fin 16 → Radix (Fin 16) Item} (hn : n.shape = .node c) (m : Fin 16)
    (child : Node) : (n.setChild m child).shape = .node (Function.update c m child.shape) := by
  cases n with
  | null => cases hn
  | leaf => cases hn
  | inner =>
    rw [← Radix.node.inj hn]
    show Radix.node _ = _
    congr 1
    funext i
    by_cases hi : i = m
    · rw [hi, Function.update_self, Function.update_self]
    · rw [Function.update_of_ne hi, Function.update_of_ne hi]

/-! ## Walks -/

/-- The node `walkTowardsKey` ends at, with its depth. -/
def walkEnd (key : Hash) : Node → ℕ → Node × ℕ
  | .inner s h br hs cs, d =>
    if br (selectBranch d key) then walkEnd key (cs (selectBranch d key)) (d + 1) else (.inner s h br hs cs, d)
  | n, d => (n, d)

/-- The tree with the node the walk ends at replaced. -/
def graft (key : Hash) (x : Node) : Node → ℕ → Node
  | .inner s h br hs cs, d =>
    if br (selectBranch d key) then
      (Node.inner s h br hs cs).setChild (selectBranch d key) (graft key x (cs (selectBranch d key)) (d + 1))
    else x
  | _, _ => x

theorem Sound.pointChild_eq {br : Fin 16 → Bool} {hs : Fin 16 → Hash} {cs : Fin 16 → Node}
    (h : Sound sha s ty (.inner s 0 br hs cs)) (hb : br i = true)
    (hne : child.isNull = false) :
    (Node.inner s 0 br hs cs).pointChild i child = (Node.inner s 0 br hs cs).setChild i child := by
  cases h with
  | inner _ hhs _ =>
    have hbr : Function.update br i (!child.isNull) = br := by rw [hne, Bool.not_false, ← hb, Function.update_eq_self]
    have hzero : Function.update hs i 0 = hs := by rw [← hhs i, Function.update_eq_self]
    rw [Node.pointChild, Node.setChild, hbr, hzero]

theorem setChild_isNull : (n.setChild i child).isNull = n.isNull := by
  cases n <;> rfl

theorem graft_isNull {x : Node} (hx : x.isNull = false) : ∀ (n : Node) (d : ℕ), (graft key x n d).isNull = false
  | .null, _ => hx
  | .leaf .., _ => hx
  | .inner s h br hs cs, d => by
    rw [graft]
    split
    · exact setChild_isNull
    · exact hx

theorem walk_eq (h : Sound sha s ty n) (key : Hash) : ∀ (d : ℕ) (st : Stack), n.isNull = false →
    ∃ rest, walkTowardsKey key n d st = some (walkEnd key n d :: rest) ∧
      (∀ x, dirtyUp s key rest x = dirtyUp s key st (graft key x n d)) ∧
      ∀ x, x.isNull = false → inPlace key rest x = inPlace key st (graft key x n d) := by
  induction h with
  | null => exact fun d st hn => by cases hn
  | leaf item => exact fun d st _ => ⟨st, rfl, fun x => rfl, fun x _ => rfl⟩
  | @inner br hs cs hbr hhs hcs ih =>
    intro d st _
    have hsound := Sound.inner hbr hhs hcs
    simp only [walkTowardsKey, walkEnd, graft]
    split
    · next hb =>
      have hne : (cs (selectBranch d key)).isNull = false := by
        rw [hbr] at hb
        simpa using hb
      obtain ⟨rest, hw, hd, hp⟩ := ih (selectBranch d key) (d + 1) ((.inner s 0 br hs cs, d) :: st) hne
      refine ⟨rest, hw, fun x => ?_, fun x hx => ?_⟩
      · rw [hd x, dirtyUp, hsound.unshareNode_eq rfl]
      · rw [hp x hx, inPlace, hsound.pointChild_eq hb (graft_isNull hx _ _)]
    · exact ⟨st, rfl, fun x => rfl, fun x _ => rfl⟩

theorem walkEnd_leaf_mem : ∀ {n : Node} {d : ℕ} {item : Item} {type : TNType} {q : UInt32} {h : Hash}
    {e : ℕ}, walkEnd key n d = (.leaf item type q h, e) → Radix.Mem item n.shape
  | .null, d, item, type, q, h, e, he => by simp [walkEnd] at he
  | .leaf item' _ _ _, d, item, type, q, h, e, he => by
    simp only [walkEnd, Prod.mk.injEq, Node.leaf.injEq] at he
    rw [he.1.1]
    exact .leaf
  | .inner _ _ br _ cs, d, item, type, q, h, e, he => by
    rw [walkEnd] at he
    split at he
    · exact .node (selectBranch d key) (walkEnd_leaf_mem he)
    · cases he

theorem Sound.branch_of_mem {br : Fin 16 → Bool} {hs : Fin 16 → Hash} {cs : Fin 16 → Node}
    (h : Sound sha s ty (.inner s 0 br hs cs)) (hx : Radix.Mem x (cs i).shape) :
    br i = true := by
  cases h with
  | inner hbr _ _ =>
    rw [hbr]
    cases hn : (cs i).isNull with
    | false => rfl
    | true =>
      rw [shape_eq_empty_iff.mpr hn] at hx
      exact absurd hx Radix.not_mem_empty

/-- **A walk finds the item with its key.** -/
theorem walkEnd_of_mem (h : Sound sha s ty n) : ∀ {d : ℕ}, Radix.Canon digit d n.shape →
    Radix.Mem x n.shape → ∃ e, walkEnd x.key n d = (newLeaf sha x ty s, e) := by
  induction h with
  | null => exact fun _ hx => absurd hx Radix.not_mem_empty
  | leaf item =>
    intro d _ hx
    rw [Radix.mem_leaf_iff.mp hx]
    exact ⟨d, rfl⟩
  | @inner br hs cs hbr hhs hcs ih =>
    intro d hcan hx
    have hxi : Radix.Mem x (cs (selectBranch d x.key)).shape := hcan.sorted.mem_iff.mpr ⟨hx, rfl⟩
    rw [walkEnd, if_pos ((Sound.inner hbr hhs hcs).branch_of_mem hxi)]
    exact ih _ (hcan.sorted.canon _) hxi

theorem Sound.walkEnd (h : Sound sha s ty n) (key : Hash) : ∀ d : ℕ, n.isNull = false →
    Sound sha s ty (walkEnd key n d).1 ∧ (walkEnd key n d).1.isNull = false := by
  induction h with
  | null => exact fun d hn => by cases hn
  | leaf item => exact fun d _ => ⟨.leaf item, rfl⟩
  | @inner br hs cs hbr hhs hcs ih =>
    intro d _
    rw [ShaMap.walkEnd]
    split
    · next hb =>
      refine ih _ _ ?_
      rw [hbr] at hb
      simpa using hb
    · exact ⟨.inner hbr hhs hcs, rfl⟩

/-! ## The root -/

/-- An inner node at depth `d` that may have fewer than two items below, such as the root. -/
structure Top (sha : List UInt8 → Hash) (s : UInt32) (ty : TNType) (d : ℕ) (n : Node) : Prop where
  sound : Sound sha s ty n
  sorted : ∃ c, n.shape = .node c ∧ Radix.Sorted digit d c

theorem Top.inner (h : Top sha s ty d n) : ∃ br hs cs, n = .inner s 0 br hs cs ∧ Sound sha s ty (.inner s 0 br hs cs) ∧
    (∀ i, Sound sha s ty (cs i)) ∧ Radix.Sorted digit d fun i => (cs i).shape := by
  obtain ⟨hsound, c, hc, hsort⟩ := h
  cases hsound with
  | null => cases hc
  | leaf => cases hc
  | @inner br hs cs hbr hhs hcs =>
    obtain rfl := Radix.node.inj hc
    exact ⟨br, hs, cs, rfl, .inner hbr hhs hcs, hcs, hsort⟩

theorem Top.root_ne (h : Top sha s ty d n) : n.isNull = false := by
  obtain ⟨br, hs, cs, rfl, -⟩ := h.inner
  rfl

theorem Top.walkEnd_of_mem (h : Top sha s ty d n) (hx : Radix.Mem x n.shape) :
    ∃ e, walkEnd x.key n d = (newLeaf sha x ty s, e) := by
  obtain ⟨br, hs, cs, rfl, hsound, hcs, hsort⟩ := h.inner
  have hxi : Radix.Mem x (cs (selectBranch d x.key)).shape := hsort.mem_iff.mpr ⟨hx, rfl⟩
  rw [walkEnd, if_pos (hsound.branch_of_mem hxi)]
  exact ShaMap.walkEnd_of_mem (hcs _) (hsort.canon _) hxi

/-- The invariant of a map between operations. -/
structure SHAMap.Ok (sha : List UInt8 → Hash) (ty : TNType) (m : SHAMap) : Prop where
  seq_ne : m.seq ≠ 0
  top : Top sha m.seq ty 0 m.root

namespace SHAMap

variable {m : SHAMap} {key : Hash}

theorem Ok.walk_of_mem (h : Ok sha ty m) {x : Item} (hx : Radix.Mem x m.root.shape) :
    ∃ e rest, walkTowardsKey x.key m.root 0 [] = some ((newLeaf sha x ty m.seq, e) :: rest) ∧
      (∀ n, dirtyUp m.seq x.key rest n = graft x.key n m.root 0) ∧
      ∀ n, n.isNull = false → inPlace x.key rest n = graft x.key n m.root 0 := by
  obtain ⟨rest, hw, hd, hp⟩ := walk_eq h.top.sound x.key 0 [] h.top.root_ne
  obtain ⟨e, he⟩ := h.top.walkEnd_of_mem hx
  exact ⟨e, rest, by rw [hw, he], hd, hp⟩

theorem Ok.walk_of_not_mem (h : Ok sha ty m) (hno : ∀ x, Radix.Mem x m.root.shape → x.key ≠ key) :
    ∃ n e rest, walkTowardsKey key m.root 0 [] = some ((n, e) :: rest) ∧
      ∀ item type q t, n = .leaf item type q t → item.key ≠ key := by
  obtain ⟨rest, hw, -⟩ := walk_eq h.top.sound key 0 [] h.top.root_ne
  refine ⟨(walkEnd key m.root 0).1, (walkEnd key m.root 0).2, rest, hw, fun item type q t he => hno item ?_⟩
  exact walkEnd_leaf_mem (e := (walkEnd key m.root 0).2) (Prod.ext he rfl)

theorem peekItem_of_mem (h : Ok sha ty m) {x : Item} (hx : Radix.Mem x m.root.shape) :
    m.peekItem x.key = some (some x) := by
  obtain ⟨e, rest, hw, -⟩ := h.walk_of_mem hx
  rw [peekItem, hw]
  exact if_pos rfl

theorem peekItem_of_not_mem (h : Ok sha ty m) (hno : ∀ x, Radix.Mem x m.root.shape → x.key ≠ key) :
    m.peekItem key = some none := by
  obtain ⟨n, e, rest, hw, hn⟩ := h.walk_of_not_mem hno
  rw [peekItem, hw]
  cases n with
  | null => rfl
  | leaf item type q t => exact if_neg (hn item type q t rfl)
  | inner => rfl

end SHAMap

end ScfChain.ShaMap
