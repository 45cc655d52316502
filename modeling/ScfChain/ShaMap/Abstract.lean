import ScfChain.ShaMap.Prefix
import ScfChain.ShaMap.Run

/-!
# Nodes of both versions

`AbstractNode` is a node of a map of version 1 or 2, as the functions see it that read maps of both: in version 2 an inner
node has a `Prefix`, and its depth is that of the prefix; in version 1 it is one more than the depth of its parent. The
nodes of the version-1 map (`Node`) are among them (`Node.abs`).

`Ordered d n` is what reading a map relies on: below an inner node at depth `d` all keys begin with the same `d` nibbles,
the next nibble is the branch, and no branch that is there is empty. Both versions have it (`ordered_abs`).
-/

namespace ScfChain.ShaMap

open Data

/-- `SHAMapInnerNode`, `SHAMapInnerNodeV2` or `SHAMapTreeNode`, or a null pointer to one. -/
inductive AbstractNode
  | null
  | leaf (item : Item) (type : TNType) (seq : UInt32) (hash : Hash)
  | inner (v2 : Option Prefix) (seq : UInt32) (hash : Hash) (isBranch : Fin 16 → Bool) (hashes : Fin 16 → Hash)
      (children : Fin 16 → AbstractNode)

/-- The nodes of a walk with the depths of their IDs, the last one first. -/
abbrev NodeStack := List (AbstractNode × ℕ)

namespace AbstractNode

def isNull : AbstractNode → Bool
  | null => true
  | _ => false

def hash : AbstractNode → Hash
  | null => 0
  | leaf _ _ _ h => h
  | inner _ _ h _ _ _ => h

def seq : AbstractNode → UInt32
  | null => 0
  | leaf _ _ s _ => s
  | inner _ s _ _ _ _ => s

/-- The items below a node, from the first branch to the last. -/
def items : AbstractNode → List Item
  | null => []
  | leaf item _ _ _ => [item]
  | inner _ _ _ _ _ cs => (List.finRange 16).flatMap fun i => (cs i).items

/-- The depth of the ID of a version-2 node: that of its prefix, or of a leaf. -/
def depth : AbstractNode → ℕ
  | inner (some p) _ _ _ _ _ => p.depth
  | _ => 64

/-- The depth of the ID of a child of a node at depth `d`. -/
def childDepth (v2 : Option Prefix) (d : ℕ) (child : AbstractNode) : ℕ :=
  match v2 with
  | none => d + 1
  | some _ => child.depth

end AbstractNode

open AbstractNode

/-- The node of a version-1 map. -/
def Node.abs : Node → AbstractNode
  | .null => .null
  | .leaf item type s h => .leaf item type s h
  | .inner s h br hs cs => .inner none s h br hs fun i => (cs i).abs

/-! ## Order -/

/-- The children of an inner node at depth `d`. -/
structure Placed (v2 : Option Prefix) (d : ℕ) (br : Fin 16 → Bool) (cs : Fin 16 → AbstractNode) : Prop where
  depth_lt : d < 64
  own : ∀ p ∈ v2, p.depth = d ∧ ∀ i, ∀ x ∈ (cs i).items, Agree d p.common x.key
  branch : ∀ i, br i = !(cs i).isNull
  select : ∀ i, ∀ x ∈ (cs i).items, selectBranch d x.key = i
  agree : ∀ i j, ∀ x ∈ (cs i).items, ∀ y ∈ (cs j).items, Agree d x.key y.key
  items_ne : ∀ i, (cs i).isNull = false → (cs i).items ≠ []

/-- A tree whose root is at depth `d`, in the order of keys. -/
inductive Ordered : ℕ → AbstractNode → Prop
  | null (d : ℕ) : Ordered d .null
  | leaf (d : ℕ) (item : Item) (type : TNType) (s : UInt32) (h : Hash) : Ordered d (.leaf item type s h)
  | inner {v2 : Option Prefix} {d : ℕ} {s : UInt32} {h : Hash} {br : Fin 16 → Bool} {hs : Fin 16 → Hash}
      {cs : Fin 16 → AbstractNode} : Placed v2 d br cs → (∀ i, Ordered (childDepth v2 d (cs i)) (cs i)) →
      Ordered d (.inner v2 s h br hs cs)

section
variable {v2 : Option Prefix} {d : ℕ} {s : UInt32} {h : Hash} {br : Fin 16 → Bool} {hs : Fin 16 → Hash}
  {cs : Fin 16 → AbstractNode} {n : AbstractNode}

theorem mem_items_inner {x : Item} : x ∈ (inner v2 s h br hs cs).items ↔ ∃ i, x ∈ (cs i).items := by
  simp [items]

theorem Ordered.placed (ho : Ordered d (.inner v2 s h br hs cs)) : Placed v2 d br cs := by
  cases ho with
  | inner hp _ => exact hp

theorem Ordered.child (ho : Ordered d (.inner v2 s h br hs cs)) (i : Fin 16) : Ordered (childDepth v2 d (cs i)) (cs i) := by
  cases ho with
  | inner _ hc => exact hc i

theorem items_of_isNull (hn : n.isNull = true) : n.items = [] := by
  cases n with
  | null => rfl
  | leaf => cases hn
  | inner => cases hn

theorem Placed.items_eq_nil (hp : Placed v2 d br cs) {i : Fin 16} (hi : br i = false) : (cs i).items = [] := by
  apply items_of_isNull
  have hbr := hp.branch i
  rw [hi] at hbr
  simpa using hbr.symm

theorem Placed.items_ne_nil (hp : Placed v2 d br cs) {i : Fin 16} (hi : br i = true) : (cs i).items ≠ [] := by
  apply hp.items_ne
  have hbr := hp.branch i
  rw [hi] at hbr
  simpa using hbr.symm

theorem Ordered.items_pairwise (ho : Ordered d n) : n.items.Pairwise fun x y => x.key < y.key := by
  induction ho with
  | null => exact .nil
  | leaf => exact List.pairwise_singleton _ _
  | @inner v2 d s h br hs cs hp hc ih =>
    rw [items, List.pairwise_flatMap]
    refine ⟨fun i _ => ih i, (List.pairwise_lt_finRange 16).imp ?_⟩
    intro i j hij x hx y hy
    apply lt_of_agree hp.depth_lt (hp.agree i j x hx y hy)
    rw [hp.select i x hx, hp.select j y hy]
    exact hij

theorem Placed.mem_child (hp : Placed v2 d br cs) {x : Item} (hx : x ∈ (inner v2 s h br hs cs).items) :
    x ∈ (cs (selectBranch d x.key)).items := by
  obtain ⟨i, hi⟩ := mem_items_inner.mp hx
  rwa [hp.select i x hi]

end

/-! ## Version 1 -/

theorem isNull_abs (n : Node) : n.abs.isNull = n.isNull := by
  cases n with
  | null => rfl
  | leaf => rfl
  | inner => rfl

theorem mem_items_abs {n : Node} {x : Item} : x ∈ n.abs.items ↔ Radix.Mem x n.shape := by
  induction n with
  | null => simp [Node.abs, items, Node.shape, Radix.not_mem_empty]
  | leaf item => simp [Node.abs, items, Node.shape, Radix.mem_leaf_iff]
  | inner s h br hs cs ih =>
    rw [Node.abs, mem_items_inner, Node.shape, Radix.mem_node_iff]
    exact exists_congr fun i => ih i

/-- The bitmaps of a tree say which children there are. -/
inductive Linked : Node → Prop
  | null : Linked .null
  | leaf (item : Item) (type : TNType) (s : UInt32) (h : Hash) : Linked (.leaf item type s h)
  | inner {s : UInt32} {h : Hash} {br : Fin 16 → Bool} {hs : Fin 16 → Hash} {cs : Fin 16 → Node} :
      (∀ i, br i = !(cs i).isNull) → (∀ i, Linked (cs i)) → Linked (.inner s h br hs cs)

variable {sha : List UInt8 → Hash} {s : UInt32} {ty : TNType}

theorem Sound.linked {n : Node} (h : Sound sha s ty n) : Linked n := by
  induction h with
  | null => exact .null
  | leaf item => exact .leaf item ty s _
  | inner hbr _ _ ih => exact .inner hbr ih

theorem exists_mem_of_canon {d : ℕ} {t : Radix (Fin 16) Item} (h : Radix.Canon digit d t) (hne : t.isEmpty = false) :
    ∃ x, Radix.Mem x t := by
  cases h with
  | empty => cases hne
  | leaf _ x => exact ⟨x, .leaf⟩
  | node _ _ htwo =>
    obtain ⟨x, -, hx, -⟩ := htwo
    exact ⟨x, hx⟩

theorem depth_lt_of_canon {d : ℕ} {c : Fin 16 → Radix (Fin 16) Item} (h : Radix.Canon digit d (.node c))
    (hagree : ∀ x y, Radix.Mem x (.node c) → Radix.Mem y (.node c) → Agree d x.key y.key) : d < 64 := by
  obtain ⟨x, y, hx, hy, hne⟩ := h.two
  by_contra hd
  have hkey : x.key = y.key := eq_of_agree ((hagree x y hx hy).mono (not_lt.mp hd))
  apply hne
  apply h.eq_of_digits hx hy
  intro e
  rw [digit, digit, hkey]

theorem placed_abs {d : ℕ} {br : Fin 16 → Bool} {cs : Fin 16 → Node} (hbr : ∀ i, br i = !(cs i).isNull)
    (hsort : Radix.Sorted digit d fun i => (cs i).shape) (hd : d < 64)
    (hagree : ∀ i j x y, Radix.Mem x (cs i).shape → Radix.Mem y (cs j).shape → Agree d x.key y.key) :
    Placed none d br fun i => (cs i).abs where
  depth_lt := hd
  own := by simp
  branch := by
    intro i
    rw [hbr, isNull_abs]
  select := by
    intro i x hx
    exact hsort.digit_eq i x (mem_items_abs.mp hx)
  agree := by
    intro i j x hx y hy
    exact hagree i j x y (mem_items_abs.mp hx) (mem_items_abs.mp hy)
  items_ne := by
    intro i hi
    rw [isNull_abs] at hi
    obtain ⟨x, hx⟩ := exists_mem_of_canon (hsort.canon i) (by rw [isEmpty_shape, hi])
    exact List.ne_nil_of_mem (mem_items_abs.mpr hx)

theorem agree_child {d : ℕ} {c : Fin 16 → Radix (Fin 16) Item} (hsort : Radix.Sorted digit d c) {i : Fin 16}
    (hagree : ∀ i j x y, Radix.Mem x (c i) → Radix.Mem y (c j) → Agree d x.key y.key) (x y : Item)
    (hx : Radix.Mem x (c i)) (hy : Radix.Mem y (c i)) : Agree (d + 1) x.key y.key := by
  apply (hagree i i x y hx hy).succ
  exact (hsort.digit_eq i x hx).trans (hsort.digit_eq i y hy).symm

theorem ordered_abs {n : Node} (hl : Linked n) : ∀ {d : ℕ}, Radix.Canon digit d n.shape →
    (∀ x y, Radix.Mem x n.shape → Radix.Mem y n.shape → Agree d x.key y.key) → Ordered d n.abs := by
  induction hl with
  | null => exact fun _ _ => .null _
  | leaf item type s h => exact fun _ _ => .leaf _ item type s h
  | @inner s h br hs cs hbr hcs ih =>
    intro d hcanon hagree
    have hall : ∀ i j x y, Radix.Mem x (cs i).shape → Radix.Mem y (cs j).shape → Agree d x.key y.key :=
      fun i j x y hx hy => hagree x y (.node i hx) (.node j hy)
    refine .inner (placed_abs hbr hcanon.sorted (depth_lt_of_canon hcanon hagree) hall) fun i => ?_
    exact ih i (hcanon.sorted.canon i) (agree_child hcanon.sorted hall)

theorem ordered_abs_root {n : Node} (hl : Linked n) (hsort : ∃ c, n.shape = .node c ∧ Radix.Sorted digit 0 c) :
    Ordered 0 n.abs := by
  obtain ⟨c, hc, hsort⟩ := hsort
  cases hl with
  | null => exact .null 0
  | leaf item type s h => exact .leaf 0 item type s h
  | @inner s h br hs cs hbr hcs =>
    obtain rfl := Radix.node.inj hc
    have hall : ∀ i j x y, Radix.Mem x (cs i).shape → Radix.Mem y (cs j).shape → Agree 0 x.key y.key :=
      fun _ _ _ _ _ _ e he => absurd he (Nat.not_lt_zero e)
    refine .inner (placed_abs hbr hsort (by norm_num) hall) fun i => ?_
    exact ordered_abs (hcs i) (hsort.canon i) (agree_child hsort hall)

theorem SHAMap.Ok.ordered {m : SHAMap} (h : m.Ok sha ty) : Ordered 0 m.root.abs :=
  ordered_abs_root h.top.sound.linked h.top.sorted

end ScfChain.ShaMap
