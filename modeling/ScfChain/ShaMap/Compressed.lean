import ScfChain.ShaMap.Version2

/-!
# The trees of version-2 maps

`Compressed d n` : `n` is a tree below depth `d` as the operations of a version-2 map leave it. The depth of an inner node
is that at which the keys below it differ first, its prefix is what they have in common, and it has two children at least.

* `Compressed.walk` : the walk towards a key, and `dirtyUp` along it (`graft`).
* `graft_grown`, `deleteUp_below`, `graft_swapped` : what adding, deleting and updating an item make of a tree.
-/

namespace ScfChain.ShaMap

open Data AbstractNode

/-- The children of an inner node fit its prefix, and no hash is set. -/
structure Fits (p : Prefix) (br : Fin 16 → Bool) (hs : Fin 16 → Hash) (cs : Fin 16 → AbstractNode) : Prop where
  depth_lt : p.depth < 64
  masked : prefixOf p.depth p.common = p.common
  branch : ∀ i, br i = !(cs i).isNull
  hashes : ∀ i, hs i = 0
  agree : ∀ i, ∀ x ∈ (cs i).items, Agree p.depth p.common x.key
  select : ∀ i, ∀ x ∈ (cs i).items, selectBranch p.depth x.key = i

inductive Compressed (sha512Half : List UInt8 → Hash) (s : UInt32) (ty : TNType) : ℕ → AbstractNode → Prop
  | null (d : ℕ) : Compressed sha512Half s ty d .null
  | leaf (d : ℕ) (item : Item) : Compressed sha512Half s ty d (AbstractNode.newLeaf sha512Half item ty s)
  | inner {d : ℕ} {p : Prefix} {br : Fin 16 → Bool} {hs : Fin 16 → Hash} {cs : Fin 16 → AbstractNode} : Fits p br hs cs →
      d ≤ p.depth → (∃ i j, i ≠ j ∧ br i = true ∧ br j = true) → (∀ i, Compressed sha512Half s ty (p.depth + 1) (cs i)) →
      Compressed sha512Half s ty d (.inner (some p) s 0 br hs cs)

/-- An inner node that may have fewer than two children, such as the root. -/
structure Body (sha512Half : List UInt8 → Hash) (s : UInt32) (ty : TNType) (p : Prefix) (br : Fin 16 → Bool)
    (hs : Fin 16 → Hash) (cs : Fin 16 → AbstractNode) : Prop extends Fits p br hs cs where
  child : ∀ i, Compressed sha512Half s ty (p.depth + 1) (cs i)

variable {sha : List UInt8 → Hash} {s : UInt32} {ty : TNType} {d e : ℕ} {n c : AbstractNode} {p : Prefix}
  {br : Fin 16 → Bool} {hs : Fin 16 → Hash} {cs : Fin 16 → AbstractNode} {h : Hash} {i : Fin 16} {x item : Item}
  {key : Hash}

theorem Compressed.mono (hn : Compressed sha s ty d n) (hle : e ≤ d) : Compressed sha s ty e n := by
  cases hn with
  | null => exact .null e
  | leaf _ item => exact .leaf e item
  | inner hfits hd htwo hc => exact .inner hfits (hle.trans hd) htwo hc

theorem Compressed.exists_mem (hn : Compressed sha s ty d n) (hne : n.isNull = false) : ∃ x, x ∈ n.items := by
  induction hn with
  | null => cases hne
  | leaf _ item => exact ⟨item, List.mem_singleton_self item⟩
  | inner hfits _ htwo _ ih =>
    obtain ⟨i, -, -, hi, -⟩ := htwo
    have hchild := hfits.branch i
    rw [hi] at hchild
    obtain ⟨x, hx⟩ := ih i (by simpa using hchild.symm)
    exact ⟨x, mem_items_inner.mpr ⟨i, hx⟩⟩

theorem Fits.isNull_of_branch (hf : Fits p br hs cs) (hi : br i = true) : (cs i).isNull = false := by
  have hbr := hf.branch i
  rw [hi] at hbr
  simpa using hbr.symm

theorem Fits.branch_of_mem (hf : Fits p br hs cs) (hx : x ∈ (cs i).items) : br i = true := by
  rw [hf.branch i]
  cases hn : (cs i).isNull with
  | false => rfl
  | true =>
    rw [items_of_isNull hn] at hx
    cases hx

theorem Fits.mem_child (hf : Fits p br hs cs) (hx : x ∈ (AbstractNode.inner (some p) s h br hs cs).items) :
    x ∈ (cs (selectBranch p.depth x.key)).items := by
  obtain ⟨i, hi⟩ := mem_items_inner.mp hx
  rwa [hf.select i x hi]

theorem Fits.ne_of_ne_select (hf : Fits p br hs cs) (j : Fin 16) (hj : j ≠ selectBranch p.depth x.key) :
    ∀ y ∈ (cs j).items, y ≠ x := by
  rintro y hy rfl
  exact hj (hf.select j y hy).symm

theorem Fits.hasCommonPrefix_iff (hf : Fits p br hs cs) : p.hasCommonPrefix key = true ↔ Agree p.depth p.common key :=
  Prefix.hasCommonPrefix_iff hf.depth_lt.le

theorem Fits.hasCommonPrefix_of_mem (hf : Fits p br hs cs) (hx : x ∈ (AbstractNode.inner (some p) s h br hs cs).items) :
    p.hasCommonPrefix x.key = true := by
  obtain ⟨i, hi⟩ := mem_items_inner.mp hx
  exact hf.hasCommonPrefix_iff.mpr (hf.agree i x hi)

/-! ## Order -/

theorem Body.placed (hb : Body sha s ty p br hs cs) : Placed (some p) p.depth br cs where
  depth_lt := hb.depth_lt
  own := by
    rintro q hq
    obtain rfl := Option.some.inj hq
    exact ⟨rfl, hb.agree⟩
  branch := hb.branch
  select := hb.select
  agree := fun i j x hx y hy => (hb.agree i x hx).symm.trans (hb.agree j y hy)
  items_ne := by
    intro i hi
    obtain ⟨x, hx⟩ := (hb.child i).exists_mem hi
    exact List.ne_nil_of_mem hx

theorem Compressed.ordered (hn : Compressed sha s ty d n) : Ordered n.depth n := by
  induction hn with
  | null => exact .null _
  | leaf _ item => exact .leaf _ item ty s _
  | inner hfits _ _ hc ih => exact .inner (Body.mk hfits hc).placed ih

theorem Body.ordered (hb : Body sha s ty p br hs cs) : Ordered p.depth (.inner (some p) s h br hs cs) :=
  .inner hb.placed fun i => (hb.child i).ordered

/-! ## Children -/

theorem mem_setChild : x ∈ ((AbstractNode.inner (some p) s h br hs cs).setChild i c).items ↔
    x ∈ c.items ∨ ∃ j, j ≠ i ∧ x ∈ (cs j).items := by
  rw [setChild, mem_items_inner]
  constructor
  · rintro ⟨j, hj⟩
    by_cases hji : j = i
    · subst hji
      rw [Function.update_self] at hj
      exact .inl hj
    · rw [Function.update_of_ne hji] at hj
      exact .inr ⟨j, hji, hj⟩
  · rintro (hx | ⟨j, hji, hj⟩)
    · exact ⟨i, by rwa [Function.update_self]⟩
    · exact ⟨j, by rwa [Function.update_of_ne hji]⟩

theorem Body.setChild (hb : Body sha s ty p br hs cs) (hc : Compressed sha s ty (p.depth + 1) c)
    (hitems : ∀ x ∈ c.items, Agree p.depth p.common x.key ∧ selectBranch p.depth x.key = i) :
    Body sha s ty p (Function.update br i (!c.isNull)) (Function.update hs i 0) (Function.update cs i c) := by
  refine ⟨⟨hb.depth_lt, hb.masked, fun j => ?_, fun j => ?_, fun j => ?_, fun j => ?_⟩, fun j => ?_⟩
  all_goals by_cases hj : j = i
  all_goals first | (subst hj; simp only [Function.update_self]) | simp only [Function.update_of_ne hj]
  · exact hb.branch j
  · exact hb.hashes j
  · exact fun x hx => (hitems x hx).1
  · exact hb.agree j
  · exact fun x hx => (hitems x hx).2
  · exact hb.select j
  · exact hc
  · exact hb.child j

/-- The inner node with `c` on the branch `i`, and the items it has then. -/
structure Rehung (sha512Half : List UInt8 → Hash) (s : UInt32) (ty : TNType) (p : Prefix) (br : Fin 16 → Bool)
    (hs : Fin 16 → Hash) (cs : Fin 16 → AbstractNode) (i : Fin 16) (c : AbstractNode) (items : Item → Prop) : Prop where
  body : Body sha512Half s ty p (Function.update br i (!c.isNull)) (Function.update hs i 0) (Function.update cs i c)
  mem : ∀ y, y ∈ ((AbstractNode.inner (some p) s 0 br hs cs).setChild i c).items ↔ items y

theorem Body.replace {gain keep : Item → Prop} (hb : Body sha s ty p br hs cs) (hc : Compressed sha s ty (p.depth + 1) c)
    (hgain : ∀ y, gain y → Agree p.depth p.common y.key ∧ selectBranch p.depth y.key = i)
    (hkeep : ∀ j, j ≠ i → ∀ y ∈ (cs j).items, keep y) (hmem : ∀ y, y ∈ c.items ↔ gain y ∨ y ∈ (cs i).items ∧ keep y) :
    Rehung sha s ty p br hs cs i c fun y => gain y ∨ y ∈ (AbstractNode.inner (some p) s 0 br hs cs).items ∧ keep y := by
  constructor
  · apply hb.setChild hc
    intro y hy
    rcases (hmem y).mp hy with hy | ⟨hy, -⟩
    · exact hgain y hy
    · exact ⟨hb.agree i y hy, hb.select i y hy⟩
  · intro y
    rw [mem_setChild, hmem, or_assoc, mem_items_inner]
    refine or_congr_right ⟨?_, ?_⟩
    · rintro (⟨hy, hk⟩ | ⟨j, hj, hy⟩)
      · exact ⟨⟨i, hy⟩, hk⟩
      · exact ⟨⟨j, hy⟩, hkeep j hj y hy⟩
    · rintro ⟨⟨j, hy⟩, hk⟩
      by_cases hj : j = i
      · exact .inl ⟨hj ▸ hy, hk⟩
      · exact .inr ⟨j, hj, hy⟩

theorem two_update {b : Bool} (htwo : ∃ i j, i ≠ j ∧ br i = true ∧ br j = true) (hb : b = true) :
    ∃ j k, j ≠ k ∧ Function.update br i b j = true ∧ Function.update br i b k = true := by
  have hkeep (j : Fin 16) (hj : br j = true) : Function.update br i b j = true := by
    by_cases hji : j = i
    · rw [hji, Function.update_self, hb]
    · rw [Function.update_of_ne hji, hj]
  obtain ⟨j, k, hjk, hj, hk⟩ := htwo
  exact ⟨j, k, hjk, hkeep j hj, hkeep k hk⟩

/-! ## Walks -/

/-- The node `walkTowardsKey` ends at. -/
def AbstractNode.walkEnd (key : Hash) : AbstractNode → AbstractNode
  | inner (some p) s h br hs cs =>
    if p.hasCommonPrefix key && br (selectBranch p.depth key) then walkEnd key (cs (selectBranch p.depth key))
    else inner (some p) s h br hs cs
  | n => n

/-- The tree with the node the walk ends at replaced. -/
def AbstractNode.graft (key : Hash) : AbstractNode → AbstractNode → AbstractNode
  | inner (some p) s h br hs cs, x =>
    if p.hasCommonPrefix key && br (selectBranch p.depth key) then
      (inner (some p) s h br hs cs).setChild (selectBranch p.depth key) ((cs (selectBranch p.depth key)).graft key x)
    else x
  | _, x => x

/-- The nodes of a stack belong to the map, and their IDs have their depths. -/
def Owned (s : UInt32) (stack : NodeStack) : Prop := ∀ q ∈ stack, q.1.seq = s ∧ q.2 = q.1.depth

theorem unshareNode_eq (hs : n.seq = s) : n.unshareNode s = n := if_neg (not_not.mpr hs)

theorem isNull_setChild : (n.setChild i c).isNull = n.isNull := by
  cases n with
  | null => rfl
  | leaf => rfl
  | inner => rfl

theorem isNull_graft {x : AbstractNode} (hx : x.isNull = false) (n : AbstractNode) : (n.graft key x).isNull = false := by
  cases n with
  | null => exact hx
  | leaf => exact hx
  | inner v2 s h br hs cs =>
    cases v2 with
    | none => exact hx
    | some p =>
      rw [AbstractNode.graft]
      split_ifs
      · exact isNull_setChild
      · exact hx

theorem Fits.pointChild_eq (hf : Fits p br hs cs) (hi : br i = true) (hne : c.isNull = false) :
    (AbstractNode.inner (some p) s 0 br hs cs).pointChild i c = (AbstractNode.inner (some p) s 0 br hs cs).setChild i c := by
  have hbr : Function.update br i (!c.isNull) = br := by rw [hne, Bool.not_false, ← hi, Function.update_eq_self]
  have hzero : Function.update hs i 0 = hs := by rw [← hf.hashes i, Function.update_eq_self]
  rw [pointChild, setChild, hbr, hzero]

/-- The walk from a node on: where it ends, and what `dirtyUp` and `inPlace` do along it. -/
def Walks (s : UInt32) (n : AbstractNode) : Prop :=
  ∀ (key : Hash) (stack : NodeStack), ∃ rest,
    n.walkTowardsKey key n.depth stack = some ((n.walkEnd key, (n.walkEnd key).depth) :: rest) ∧
    (∀ x, x.dirtyUp s key rest = (n.graft key x).dirtyUp s key stack) ∧
    (∀ x, x.isNull = false → x.inPlace key rest = (n.graft key x).inPlace key stack) ∧
    (Owned s stack → Owned s rest) ∧ (n.walkEnd key = n ∧ rest = stack ∨ rest ≠ [])

theorem Fits.walks (hf : Fits p br hs cs) (hc : ∀ i, br i = true → Walks s (cs i)) :
    Walks s (.inner (some p) s 0 br hs cs) := by
  intro key stack
  rw [AbstractNode.walkTowardsKey, AbstractNode.walkEnd]
  simp only [AbstractNode.graft, Option.any_some, depth]
  by_cases hstart : p.hasCommonPrefix key = true
  · by_cases hi : br (selectBranch p.depth key) = true
    · obtain ⟨rest, hwalk, hdirty, hplace, howned, hne⟩ :=
        hc _ hi key ((.inner (some p) s 0 br hs cs, p.depth) :: stack)
      simp only [hstart, hi, Bool.and_self, if_true, Bool.not_true, Bool.false_eq_true, if_false]
      have hown : (AbstractNode.inner (some p) s 0 br hs cs).unshareNode s = _ := unshareNode_eq rfl
      refine ⟨rest, hwalk, fun x => ?_, fun x hx => ?_, fun hstack => howned ?_, .inr ?_⟩
      · rw [hdirty x, AbstractNode.dirtyUp, hown]
      · rw [hplace x hx, AbstractNode.inPlace, hf.pointChild_eq hi (isNull_graft hx _)]
      · exact List.forall_mem_cons.mpr ⟨⟨rfl, rfl⟩, hstack⟩
      · rcases hne with ⟨-, rfl⟩ | hne
        · exact List.cons_ne_nil _ _
        · exact hne
    · simp only [hstart, hi, Bool.and_false, Bool.false_eq_true, if_false, Bool.not_true]
      exact ⟨stack, rfl, fun x => rfl, fun x _ => rfl, id, .inl ⟨trivial, rfl⟩⟩
  · simp only [hstart, Bool.false_and, Bool.false_eq_true, if_false, Bool.not_false, if_true]
    exact ⟨stack, rfl, fun x => rfl, fun x _ => rfl, id, .inl ⟨trivial, rfl⟩⟩

theorem Compressed.walk (hn : Compressed sha s ty d n) (hne : n.isNull = false) : Walks s n := by
  induction hn with
  | null => cases hne
  | leaf _ item => exact fun key stack => ⟨stack, rfl, fun x => rfl, fun x _ => rfl, id, .inl ⟨rfl, rfl⟩⟩
  | inner hfits _ _ _ ih => exact hfits.walks fun i hi => ih i (hfits.isNull_of_branch hi)

theorem Body.walk (hb : Body sha s ty p br hs cs) : Walks s (.inner (some p) s 0 br hs cs) :=
  hb.toFits.walks fun i hi => (hb.child i).walk (hb.isNull_of_branch hi)

theorem Compressed.walkEnd_cases (hn : Compressed sha s ty d n) (hne : n.isNull = false) (key : Hash) :
    (∃ item, n.walkEnd key = AbstractNode.newLeaf sha item ty s) ∨
      ∃ p br hs cs, n.walkEnd key = .inner (some p) s 0 br hs cs := by
  induction hn with
  | null => cases hne
  | leaf _ item => exact .inl ⟨item, rfl⟩
  | inner hfits _ _ _ ih =>
    rw [AbstractNode.walkEnd]
    split_ifs with hgo
    · exact ih _ (hfits.isNull_of_branch (Bool.and_eq_true_iff.mp hgo).2)
    · exact .inr ⟨_, _, _, _, rfl⟩

theorem Body.walkEnd_cases (hb : Body sha s ty p br hs cs) (key : Hash) :
    (∃ item, (AbstractNode.inner (some p) s 0 br hs cs).walkEnd key = AbstractNode.newLeaf sha item ty s) ∨
      ∃ p' br' hs' cs', (AbstractNode.inner (some p) s 0 br hs cs).walkEnd key = .inner (some p') s 0 br' hs' cs' := by
  rw [AbstractNode.walkEnd]
  split_ifs with hgo
  · exact (hb.child _).walkEnd_cases (hb.isNull_of_branch (Bool.and_eq_true_iff.mp hgo).2) key
  · exact .inr ⟨_, _, _, _, rfl⟩

/-- **A walk finds the item with its key.** -/
theorem Compressed.walkEnd_of_mem (hn : Compressed sha s ty d n) (hx : x ∈ n.items) :
    n.walkEnd x.key = AbstractNode.newLeaf sha x ty s := by
  induction hn with
  | null => cases hx
  | leaf _ item =>
    obtain rfl := List.mem_singleton.mp hx
    rfl
  | inner hfits _ _ _ ih =>
    have hchild := hfits.mem_child hx
    rw [AbstractNode.walkEnd, hfits.hasCommonPrefix_of_mem hx, hfits.branch_of_mem hchild, Bool.and_self, if_pos rfl]
    exact ih _ hchild

theorem Body.walkEnd_of_mem (hb : Body sha s ty p br hs cs) (hx : x ∈ (AbstractNode.inner (some p) s h br hs cs).items) :
    (AbstractNode.inner (some p) s h br hs cs).walkEnd x.key = AbstractNode.newLeaf sha x ty s := by
  have hchild := hb.mem_child hx
  rw [AbstractNode.walkEnd, hb.hasCommonPrefix_of_mem hx, hb.branch_of_mem hchild, Bool.and_self, if_pos rfl]
  exact (hb.child _).walkEnd_of_mem hchild

variable {q : UInt32} {v2 : Option Prefix}

theorem AbstractNode.walkEnd_leaf_mem {type : TNType} (hend : n.walkEnd key = .leaf item type q h) : item ∈ n.items := by
  induction n with
  | null => cases hend
  | leaf item' =>
    cases hend
    exact List.mem_singleton_self item
  | inner v2 s h br hs cs ih =>
    cases v2 with
    | none => cases hend
    | some p =>
      rw [AbstractNode.walkEnd] at hend
      split_ifs at hend
      exact mem_items_inner.mpr ⟨_, ih _ hend⟩

/-! ## Adding an item -/

/-- What `addGiveItem` puts in place of the node at which the walk ends. -/
def AbstractNode.addAt (sha512Half : List UInt8 → Hash) (s : UInt32) (ty : TNType) (item : Item) :
    AbstractNode → AbstractNode
  | leaf other type q h =>
    (newInner s 64).setChildren (leaf other type q h) (AbstractNode.newLeaf sha512Half item ty s) other.key item.key
  | inner (some p) q h br hs cs =>
    if p.hasCommonPrefix item.key then
      (inner (some p) q h br hs cs).setChild (selectBranch p.depth item.key) (AbstractNode.newLeaf sha512Half item ty s)
    else forkInner s (inner (some p) q h br hs cs) p item.key (AbstractNode.newLeaf sha512Half item ty s)
  | n => n

/-- `n'` is `n` with the item. -/
structure WithItem (sha512Half : List UInt8 → Hash) (s : UInt32) (ty : TNType) (d : ℕ) (item : Item) (n n' : AbstractNode) :
    Prop where
  compressed : Compressed sha512Half s ty d n'
  ne : n'.isNull = false
  mem : ∀ x, x ∈ n'.items ↔ x = item ∨ x ∈ n.items

/-- The inner node with two children. -/
def pairNode (s : UInt32) (p : Prefix) (i j : Fin 16) (a b : AbstractNode) : AbstractNode :=
  .inner (some p) s 0 (Function.update (Function.update (fun _ => false) i true) j true) (fun _ => 0)
    (Function.update (Function.update (fun _ => .null) i a) j b)

/-- A child that fits on a branch. -/
structure Hangs (sha512Half : List UInt8 → Hash) (s : UInt32) (ty : TNType) (p : Prefix) (i : Fin 16) (c : AbstractNode) :
    Prop where
  compressed : Compressed sha512Half s ty (p.depth + 1) c
  agree : ∀ x ∈ c.items, Agree p.depth p.common x.key
  select : ∀ x ∈ c.items, selectBranch p.depth x.key = i

theorem hangs_newLeaf (hagree : Agree p.depth p.common item.key) :
    Hangs sha s ty p (selectBranch p.depth item.key) (AbstractNode.newLeaf sha item ty s) where
  compressed := .leaf _ item
  agree := by
    intro x hx
    obtain rfl := List.mem_singleton.mp hx
    exact hagree
  select := by
    intro x hx
    rw [List.mem_singleton.mp hx]

theorem Body.withItem_child (hb : Body sha s ty p br hs cs) (hagree : Agree p.depth p.common item.key)
    (hc : WithItem sha s ty (p.depth + 1) item (cs (selectBranch p.depth item.key)) c) :
    Rehung sha s ty p br hs cs (selectBranch p.depth item.key) c fun y =>
      y = item ∨ y ∈ (AbstractNode.inner (some p) s 0 br hs cs).items := by
  have hmem (y : Item) : y ∈ c.items ↔ y = item ∨ y ∈ (cs (selectBranch p.depth item.key)).items ∧ True := by
    rw [hc.mem, and_true]
  have hgain : ∀ y, y = item → Agree p.depth p.common y.key ∧ selectBranch p.depth y.key = selectBranch p.depth item.key := by
    rintro y rfl
    exact ⟨hagree, rfl⟩
  obtain ⟨hbody, hitems⟩ := hb.replace hc.compressed hgain (fun _ _ _ _ => trivial) hmem
  exact ⟨hbody, fun x => by rw [hitems, and_true]⟩

theorem withItem_newLeaf (hnull : n.isNull = true) : WithItem sha s ty d item n (AbstractNode.newLeaf sha item ty s) := by
  refine ⟨.leaf d item, rfl, fun x => ?_⟩
  rw [items_of_isNull hnull]
  exact List.mem_singleton.trans (or_iff_left List.not_mem_nil).symm

/-- **A fork.** -/
theorem Hangs.withItem {a : AbstractNode} (ha : Hangs sha s ty p i a) (hne : a.isNull = false) (hp : p.depth < 64)
    (hmask : prefixOf p.depth p.common = p.common) (hd : d ≤ p.depth) (hi : i ≠ selectBranch p.depth item.key)
    (hagree : Agree p.depth p.common item.key) :
    WithItem sha s ty d item a (pairNode s p i (selectBranch p.depth item.key) a (AbstractNode.newLeaf sha item ty s)) := by
  have hempty : Body sha s ty p (fun _ => false) (fun _ => 0) fun _ => .null :=
    ⟨⟨hp, hmask, fun _ => rfl, fun _ => rfl, fun _ x hx => absurd hx List.not_mem_nil,
      fun _ x hx => absurd hx List.not_mem_nil⟩, fun _ => .null _⟩
  obtain ⟨hone, hmem⟩ := hempty.replace ha.compressed (fun y hy => ⟨ha.agree y hy, ha.select y hy⟩)
    (fun _ _ y hy => absurd hy List.not_mem_nil) fun y => (or_iff_left fun h : _ ∧ False => h.2).symm
  obtain ⟨htwo, hmem'⟩ := hone.withItem_child hagree (withItem_newLeaf (by rw [Function.update_of_ne hi.symm]; rfl))
  simp only [hne, show (AbstractNode.newLeaf sha item ty s).isNull = false from rfl, Bool.not_false,
    Function.update_eq_self] at htwo
  refine ⟨.inner htwo.toFits hd ⟨i, _, hi, ?_, Function.update_self ..⟩ htwo.child, rfl, fun x => ?_⟩
  · rw [Function.update_of_ne hi, Function.update_self]
  · exact (hmem' x).trans (or_congr_right ((hmem x).trans (by simp)))

theorem forkInner_eq {a b : AbstractNode} (ha : a.isNull = false) (hb : b.isNull = false) :
    forkInner s a p key b = pairNode s ⟨p.getCommonPrefix key, prefixOf (p.getCommonPrefix key) key⟩
      (selectBranch (p.getCommonPrefix key) p.common) (selectBranch (p.getCommonPrefix key) key) a b := by
  simp only [forkInner, newInner, AbstractNode.setChild, setCommon, pairNode, ha, hb, Bool.not_false, Function.update_eq_self]

theorem withItem_leaf {other : Item} (hne : other.key ≠ item.key) (hagree : Agree d other.key item.key) :
    WithItem sha s ty d item (AbstractNode.newLeaf sha other ty s)
      ((AbstractNode.newLeaf sha other ty s).addAt sha s ty item) := by
  obtain ⟨hlt, hcommon, hdiff, hstart⟩ := childrenPrefix_spec hne
  set q := childrenPrefix other.key item.key
  have hd : d ≤ q.depth := by
    by_contra hlt'
    exact hdiff (hagree _ (not_le.mp hlt'))
  have hother : Agree q.depth q.common other.key := by
    rw [hstart]
    exact agree_prefixOf other.key hlt.le
  have hmask : prefixOf q.depth q.common = q.common := by rw [hstart, prefixOf_prefixOf other.key hlt.le]
  exact (hangs_newLeaf hother).withItem rfl hlt hmask hd hdiff (hother.trans hcommon)

theorem Compressed.hangs {q : Prefix} (hn : Compressed sha s ty d (.inner (some p) s 0 br hs cs)) (hf : Fits p br hs cs)
    (hlt : q.depth < p.depth) (hcommon : Agree q.depth q.common p.common) :
    Hangs sha s ty q (selectBranch q.depth p.common) (.inner (some p) s 0 br hs cs) := by
  constructor
  · cases hn with
    | inner hfits _ htwo hc => exact .inner hfits hlt htwo hc
  · intro x hx
    obtain ⟨i, hi⟩ := mem_items_inner.mp hx
    exact hcommon.trans ((hf.agree i x hi).mono hlt.le)
  · intro x hx
    obtain ⟨i, hi⟩ := mem_items_inner.mp hx
    exact (hf.agree i x hi q.depth hlt).symm

theorem Compressed.withItem_fork (hn : Compressed sha s ty d (.inner (some p) s 0 br hs cs)) (hf : Fits p br hs cs)
    (hstart : ¬Agree p.depth p.common item.key) (hagree : Agree d p.common item.key) :
    WithItem sha s ty d item (.inner (some p) s 0 br hs cs)
      (forkInner s (.inner (some p) s 0 br hs cs) p item.key (AbstractNode.newLeaf sha item ty s)) := by
  obtain ⟨hle, hcommon, hdiff⟩ := Prefix.isCommon_getCommonPrefix hf.depth_lt.le item.key
  have hlt : p.getCommonPrefix item.key < p.depth := by
    refine lt_of_le_of_ne hle ?_
    intro heq
    rw [heq] at hcommon
    exact hstart hcommon
  have hd : d ≤ p.getCommonPrefix item.key := by
    by_contra hlt'
    exact hdiff hlt (hagree _ (not_le.mp hlt'))
  rw [forkInner_eq rfl rfl]
  generalize p.getCommonPrefix item.key = r at hle hcommon hdiff hlt hd ⊢
  have hr : r ≤ 64 := hle.trans hf.depth_lt.le
  have hitem : Agree r (prefixOf r item.key) item.key := agree_prefixOf item.key hr
  have hold : Hangs sha s ty ⟨r, prefixOf r item.key⟩ (selectBranch r p.common) (.inner (some p) s 0 br hs cs) :=
    hn.hangs hf hlt (hitem.trans hcommon.symm)
  exact hold.withItem rfl (hlt.trans hf.depth_lt) (prefixOf_prefixOf item.key hr) hd (hdiff hlt) hitem

theorem Body.graft_addAt (hb : Body sha s ty p br hs cs) (hagree : Agree p.depth p.common item.key)
    (hc : ∀ i, br i = true → selectBranch p.depth item.key = i →
      WithItem sha s ty (p.depth + 1) item (cs i) ((cs i).graft item.key (((cs i).walkEnd item.key).addAt sha s ty item))) :
    ∃ c, (AbstractNode.inner (some p) s h br hs cs).graft item.key
          (((AbstractNode.inner (some p) s h br hs cs).walkEnd item.key).addAt sha s ty item) =
        (AbstractNode.inner (some p) s h br hs cs).setChild (selectBranch p.depth item.key) c ∧
      WithItem sha s ty (p.depth + 1) item (cs (selectBranch p.depth item.key)) c := by
  have hstart := hb.hasCommonPrefix_iff.mpr hagree
  rw [AbstractNode.graft, AbstractNode.walkEnd]
  by_cases hi : br (selectBranch p.depth item.key) = true
  · rw [hstart, hi, Bool.and_self, if_pos rfl, if_pos rfl]
    exact ⟨_, rfl, hc _ hi rfl⟩
  · have hno : ¬(p.hasCommonPrefix item.key && br (selectBranch p.depth item.key)) = true := by
      rw [Bool.and_eq_true]
      exact fun hand => hi hand.2
    rw [if_neg hno, if_neg hno, addAt, if_pos hstart]
    refine ⟨_, rfl, withItem_newLeaf ?_⟩
    rw [hb.branch] at hi
    simpa using hi

/-- **Adding an item to a tree.** -/
theorem Compressed.withItem (hn : Compressed sha s ty d n) (hne : n.isNull = false)
    (hagree : ∀ x ∈ n.items, Agree d item.key x.key) (hnew : ∀ x ∈ n.items, x.key ≠ item.key) :
    WithItem sha s ty d item n (n.graft item.key ((n.walkEnd item.key).addAt sha s ty item)) := by
  induction hn with
  | null => cases hne
  | leaf _ other => exact withItem_leaf (hnew other List.mem_cons_self) (hagree other List.mem_cons_self).symm
  | @inner d p br hs cs hfits hd htwo hc ih =>
    have hbody : Body sha s ty p br hs cs := ⟨hfits, hc⟩
    by_cases hstart : Agree p.depth p.common item.key
    · obtain ⟨c, hgraft, hchild⟩ := hbody.graft_addAt (h := 0) hstart fun i hi hsel => by
        refine ih i (hfits.isNull_of_branch hi) ?_ ?_
        · intro x hx
          exact (hstart.symm.trans (hfits.agree i x hx)).succ (hsel.trans (hfits.select i x hx).symm)
        · exact fun x hx => hnew x (mem_items_inner.mpr ⟨i, hx⟩)
      obtain ⟨hbody', hmem⟩ := hbody.withItem_child hstart hchild
      rw [hgraft]
      exact ⟨.inner hbody'.toFits hd (two_update htwo (by rw [hchild.ne, Bool.not_false])) hbody'.child, rfl, hmem⟩
    · have hfork : Compressed sha s ty d (.inner (some p) s 0 br hs cs) := .inner hfits hd htwo hc
      obtain ⟨x, hx⟩ := hfork.exists_mem rfl
      obtain ⟨i, hi⟩ := mem_items_inner.mp hx
      have hcommon : Agree d p.common item.key := ((hfits.agree i x hi).mono hd).trans (hagree x hx).symm
      have hno : ¬(p.hasCommonPrefix item.key && br (selectBranch p.depth item.key)) = true := by
        rw [Bool.and_eq_true]
        exact fun hand => hstart (hfits.hasCommonPrefix_iff.mp hand.1)
      rw [AbstractNode.graft, AbstractNode.walkEnd, if_neg hno, if_neg hno, addAt,
        if_neg (hfits.hasCommonPrefix_iff.not.mpr hstart)]
      exact hfork.withItem_fork hfits hstart hcommon

/-! ## Deleting an item -/

/-- The node that takes the place of an inner node after a branch was unhooked: the only child, if one is left. -/
def AbstractNode.collapse : AbstractNode → Option AbstractNode
  | inner v2 s h br hs cs =>
    if (inner v2 s h br hs cs).getBranchCount ≠ 1 then some (inner v2 s h br hs cs)
    else (firstBranch br 0).bind fun i => if (cs i).isNull then none else some (cs i)
  | _ => none

theorem deleteUp_inner {m : SHAMapV2} {prev : AbstractNode} {stack : NodeStack} (hq : q = m.seq) (hd : d ≠ 0) :
    m.deleteUp key ((.inner v2 q h br hs cs, d) :: stack) prev =
      (((AbstractNode.inner v2 q h br hs cs).setChild (selectBranch d key) prev).collapse).bind (m.deleteUp key stack) := by
  have hown : (AbstractNode.inner v2 q h br hs cs).unshareNode m.seq = _ := unshareNode_eq hq
  rw [SHAMapV2.deleteUp, hown, AbstractNode.setChild, collapse]
  by_cases hcount : (AbstractNode.inner v2 q 0 (Function.update br (selectBranch d key) (!prev.isNull))
      (Function.update hs (selectBranch d key) 0) (Function.update cs (selectBranch d key) prev)).getBranchCount = 1
  · simp only [hd, hcount, ne_eq, not_true, or_self, if_false, Option.bind_assoc]
    refine Option.bind_congr fun i _ => ?_
    split_ifs
    · rfl
    · rfl
  · simp only [hcount, ne_eq, not_false_iff, or_true, if_true, Option.bind_some]

theorem getBranchCount_eq_one (hcount : (AbstractNode.inner v2 q h br hs cs).getBranchCount = 1) :
    ∃ i, firstBranch br 0 = some i ∧ ∀ j, br j = true ↔ j = i := by
  obtain ⟨i, hi⟩ := List.length_eq_one_iff.mp hcount
  have hmem (j : Fin 16) : br j = true ↔ j = i := by
    have := congrArg (j ∈ ·) hi
    simpa using this
  refine ⟨i, ?_, hmem⟩
  rw [firstBranch, List.drop_zero, ← List.head?_filter, hi]
  rfl

theorem two_of_getBranchCount_ne_one (hcount : (AbstractNode.inner v2 q h br hs cs).getBranchCount ≠ 1)
    (hi : br i = true) :
    ∃ i j, i ≠ j ∧ br i = true ∧ br j = true := by
  by_contra hone
  refine hcount (List.length_eq_one_iff.mpr ⟨i, ?_⟩)
  have hall : ∀ j ∈ (List.finRange 16).filter fun j => br j, j = i := by
    intro j hj
    by_contra hji
    exact hone ⟨j, i, hji, (List.mem_filter.mp hj).2, hi⟩
  have hnodup := (List.nodup_finRange 16).filter fun j => br j
  have himem : i ∈ (List.finRange 16).filter fun j => br j := List.mem_filter.mpr ⟨List.mem_finRange i, hi⟩
  exact List.perm_singleton.mp ((List.perm_ext_iff_of_nodup hnodup (List.nodup_singleton i)).mpr fun j =>
    ⟨fun hj => List.mem_singleton.mpr (hall j hj), fun hj => List.mem_singleton.mp hj ▸ himem⟩)

theorem Body.collapse (hb : Body sha s ty p br hs cs) (hd : d ≤ p.depth) (hi : br i = true) :
    ∃ n', (AbstractNode.inner (some p) s 0 br hs cs).collapse = some n' ∧ Compressed sha s ty d n' ∧
      ∀ x, x ∈ n'.items ↔ x ∈ (AbstractNode.inner (some p) s 0 br hs cs).items := by
  by_cases hcount : (AbstractNode.inner (some p) s 0 br hs cs).getBranchCount = 1
  · obtain ⟨j, hfirst, honly⟩ := getBranchCount_eq_one hcount
    refine ⟨cs j, ?_, (hb.child j).mono (by omega), fun x => ?_⟩
    · rw [AbstractNode.collapse, if_neg (not_not.mpr hcount), hfirst, Option.bind_some,
        hb.isNull_of_branch ((honly j).mpr rfl)]
      rfl
    · rw [mem_items_inner]
      constructor
      · exact fun hx => ⟨j, hx⟩
      · rintro ⟨k, hk⟩
        rwa [← (honly k).mp (hb.branch_of_mem hk)]
  · refine ⟨_, by rw [AbstractNode.collapse, if_pos hcount], ?_, fun x => Iff.rfl⟩
    exact .inner hb.toFits hd (two_of_getBranchCount_ne_one hcount hi) hb.child

theorem Body.unhook (hb : Body sha s ty p br hs cs) (hc : Compressed sha s ty (p.depth + 1) c)
    (hmem : ∀ y, y ∈ c.items ↔ y ∈ (cs (selectBranch p.depth x.key)).items ∧ y ≠ x) :
    Rehung sha s ty p br hs cs (selectBranch p.depth x.key) c fun y =>
      y ∈ (AbstractNode.inner (some p) s 0 br hs cs).items ∧ y ≠ x := by
  have hmem' (y : Item) : y ∈ c.items ↔ False ∨ y ∈ (cs (selectBranch p.depth x.key)).items ∧ y ≠ x := by
    rw [hmem, false_or]
  obtain ⟨hbody, hitems⟩ := hb.replace hc (fun _ hf => hf.elim) hb.ne_of_ne_select hmem'
  exact ⟨hbody, fun y => by rw [hitems, false_or]⟩

/-- The walk to an item, and the loop of `delItem` along it. -/
def Deletes (m : SHAMapV2) (x : Item) (n n' : AbstractNode) : Prop :=
  ∀ stack, ∃ type q h e rest, n.walkTowardsKey x.key n.depth stack = some ((.leaf x type q h, e) :: rest) ∧
    m.deleteUp x.key rest .null = m.deleteUp x.key stack n'

theorem Fits.walk_of_mem (hf : Fits p br hs cs) (hx : x ∈ (AbstractNode.inner (some p) s h br hs cs).items) (stack : NodeStack) :
    (AbstractNode.inner (some p) s h br hs cs).walkTowardsKey x.key p.depth stack =
      (cs (selectBranch p.depth x.key)).walkTowardsKey x.key (cs (selectBranch p.depth x.key)).depth
        ((.inner (some p) s h br hs cs, p.depth) :: stack) := by
  rw [AbstractNode.walkTowardsKey, Option.any_some, hf.hasCommonPrefix_of_mem hx]
  simp only [Bool.not_true, Bool.false_eq_true, if_false, hf.branch_of_mem (hf.mem_child hx), if_true, childDepth]

/-- **Deleting an item from a tree.** -/
theorem Compressed.deletes {m : SHAMapV2} (hn : Compressed sha m.seq ty d n) (hd : d ≠ 0) (hx : x ∈ n.items) :
    ∃ n', Deletes m x n n' ∧ Compressed sha m.seq ty d n' ∧ ∀ y, y ∈ n'.items ↔ y ∈ n.items ∧ y ≠ x := by
  induction hn with
  | null => cases hx
  | leaf d item =>
    obtain rfl := List.mem_singleton.mp hx
    refine ⟨.null, fun stack => ⟨_, _, _, _, _, rfl, rfl⟩, .null d, fun y => ?_⟩
    exact iff_of_false List.not_mem_nil fun hy => hy.2 (List.mem_singleton.mp hy.1)
  | @inner d p br hs cs hfits hle htwo hc ih =>
    have hbody : Body sha m.seq ty p br hs cs := ⟨hfits, hc⟩
    obtain ⟨c, hdel, hcomp, hmem⟩ := ih _ (Nat.succ_ne_zero _) (hfits.mem_child hx)
    obtain ⟨hbody', hmem'⟩ := hbody.unhook hcomp hmem
    -- another branch stays
    obtain ⟨j, hj⟩ : ∃ j, Function.update br (selectBranch p.depth x.key) (!c.isNull) j = true := by
      obtain ⟨i, j, hij, hi, hj⟩ := htwo
      by_cases hne : i = selectBranch p.depth x.key
      · exact ⟨j, by rwa [Function.update_of_ne (hne ▸ hij.symm)]⟩
      · exact ⟨i, by rwa [Function.update_of_ne hne]⟩
    obtain ⟨n', hcollapse, hcomp', hitems⟩ := hbody'.collapse hle hj
    refine ⟨n', fun stack => ?_, hcomp', fun y => (hitems y).trans (hmem' y)⟩
    obtain ⟨type, q, h, e, rest, hwalk, hup⟩ := hdel ((.inner (some p) m.seq 0 br hs cs, p.depth) :: stack)
    refine ⟨type, q, h, e, rest, ?_, ?_⟩
    · rw [← hwalk]
      exact hfits.walk_of_mem hx stack
    · rw [hup, deleteUp_inner rfl (by omega), AbstractNode.setChild, hcollapse, Option.bind_some]

/-! ## Updating an item -/

/-- `n'` is `n` with `item` in the place of `x`. -/
structure Replaced (sha512Half : List UInt8 → Hash) (s : UInt32) (ty : TNType) (d : ℕ) (x item : Item)
    (n n' : AbstractNode) : Prop where
  compressed : Compressed sha512Half s ty d n'
  ne : n'.isNull = false
  mem : ∀ y, y ∈ n'.items ↔ y = item ∨ y ∈ n.items ∧ y ≠ x

theorem Body.swap_child (hb : Body sha s ty p br hs cs) (hkey : item.key = x.key)
    (hx : x ∈ (AbstractNode.inner (some p) s h br hs cs).items)
    (hc : Replaced sha s ty (p.depth + 1) x item (cs (selectBranch p.depth x.key)) c) :
    Rehung sha s ty p br hs cs (selectBranch p.depth x.key) c fun y =>
      y = item ∨ y ∈ (AbstractNode.inner (some p) s 0 br hs cs).items ∧ y ≠ x := by
  have hgain : ∀ y, y = item → Agree p.depth p.common y.key ∧ selectBranch p.depth y.key = selectBranch p.depth x.key := by
    rintro y rfl
    rw [hkey]
    exact ⟨hb.agree _ x (hb.mem_child hx), rfl⟩
  exact hb.replace hc.compressed hgain hb.ne_of_ne_select hc.mem

theorem Fits.graft_of_mem (hf : Fits p br hs cs) (hx : x ∈ (AbstractNode.inner (some p) s h br hs cs).items) (a : AbstractNode) :
    (AbstractNode.inner (some p) s h br hs cs).graft x.key a =
      (AbstractNode.inner (some p) s h br hs cs).setChild (selectBranch p.depth x.key)
        ((cs (selectBranch p.depth x.key)).graft x.key a) := by
  rw [AbstractNode.graft, hf.hasCommonPrefix_of_mem hx, hf.branch_of_mem (hf.mem_child hx), Bool.and_self, if_pos rfl]

/-- **Updating an item of a tree.** -/
theorem Compressed.swapped (hn : Compressed sha s ty d n) (hkey : item.key = x.key) (hx : x ∈ n.items) :
    Replaced sha s ty d x item n (n.graft x.key (AbstractNode.newLeaf sha item ty s)) := by
  induction hn with
  | null => cases hx
  | leaf d other =>
    obtain rfl := List.mem_singleton.mp hx
    refine ⟨.leaf d item, rfl, fun y => ?_⟩
    have hnone : ¬(y ∈ (AbstractNode.newLeaf sha x ty s).items ∧ y ≠ x) := fun hy => hy.2 (List.mem_singleton.mp hy.1)
    rw [or_iff_left hnone]
    exact List.mem_singleton
  | @inner d p br hs cs hfits hle htwo hc ih =>
    have hbody : Body sha s ty p br hs cs := ⟨hfits, hc⟩
    have hchild := ih _ (hfits.mem_child hx)
    obtain ⟨hbody', hmem⟩ := hbody.swap_child hkey hx hchild
    rw [hfits.graft_of_mem hx]
    exact ⟨.inner hbody'.toFits hle (two_update htwo (by rw [hchild.ne, Bool.not_false])) hbody'.child, rfl, hmem⟩

end ScfChain.ShaMap
