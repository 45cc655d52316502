import ScfChain.ShaMap.Shape

/-!
# Adding an item

`addGiveItem` replaces the node its walk ends at: an inner node gets a leaf on an empty branch, and a leaf becomes a
chain of inner nodes down to the depth at which the two keys part (`forkNode`). In both cases the new subtree is
canonical and has one item more (`Grown`), and so has the whole tree (`graft_grown`, `addGiveItem_eq`).
-/

namespace ScfChain.ShaMap

open Data Node

variable {sha : List UInt8 → Hash} {s : UInt32} {ty : TNType}

/-- A subtree at depth `d`: sound and canonical. -/
structure Good (sha : List UInt8 → Hash) (s : UInt32) (ty : TNType) (d : ℕ) (n : Node) : Prop where
  sound : Sound sha s ty n
  canon : Radix.Canon digit d n.shape

/-- `n'` is `n` with `item` added. -/
structure Grown (sha : List UInt8 → Hash) (s : UInt32) (ty : TNType) (d : ℕ) (item : Item) (n n' : Node) :
    Prop extends Good sha s ty d n' where
  mem_iff : ∀ x, Radix.Mem x n'.shape ↔ x = item ∨ Radix.Mem x n.shape

theorem good_newLeaf (d : ℕ) (item : Item) : Good sha s ty d (newLeaf sha item ty s) := ⟨.leaf item, .leaf d item⟩

variable {item : Item} {br : Fin 16 → Bool} {hs : Fin 16 → Hash} {cs : Fin 16 → Node} {d : ℕ} {n : Node}

theorem Top.good (h : Top sha s ty d n) (h2 : ∃ a b, Radix.Mem a n.shape ∧ Radix.Mem b n.shape ∧ a ≠ b) :
    Good sha s ty d n := by
  obtain ⟨hsound, c, hc, hsort⟩ := h
  rw [hc] at h2
  exact ⟨hsound, hc ▸ hsort.canon_node h2⟩

theorem mem_newLeaf {x : Item} : Radix.Mem x (newLeaf sha item ty s).shape ↔ x = item := Radix.mem_leaf_iff

theorem grown_newLeaf (item : Item) (hn : n.isNull = true) : Grown sha s ty d item n (newLeaf sha item ty s) := by
  refine ⟨good_newLeaf d item, fun x => ?_⟩
  rw [mem_newLeaf, shape_eq_empty_iff.mpr hn, or_iff_left Radix.not_mem_empty]

theorem Grown.setChild {child : Node} (h : Grown sha s ty (d + 1) item (cs (digit d item)) child)
    (htop : Top sha s ty d (.inner s 0 br hs cs)) :
    Top sha s ty d ((Node.inner s 0 br hs cs).setChild (digit d item) child) ∧
      ∀ x, Radix.Mem x ((Node.inner s 0 br hs cs).setChild (digit d item) child).shape ↔
        x = item ∨ Radix.Mem x (Node.inner s 0 br hs cs).shape := by
  obtain ⟨hsound, c, hc, hsort⟩ := htop
  obtain rfl := Radix.node.inj hc
  refine ⟨⟨hsound.setChild h.sound _, _, shape_setChild rfl _ _, hsort.update h.canon fun x hx => ?_⟩, fun x => ?_⟩
  · rcases (h.mem_iff x).mp hx with rfl | hx
    · rfl
    · exact hsort.digit_eq _ x hx
  · rw [shape_setChild (n := .inner s 0 br hs cs) rfl, hsort.mem_update, h.mem_iff, hsort.mem_iff (a := x), shape]
    by_cases hd : digit d x = digit d item
    · simp [hd]
    · have hx : x ≠ item := fun hx => hd (by rw [hx])
      simp [hd, hx]

theorem shape_newInner : (newInner s).shape = .node fun _ => .empty := rfl

theorem Good.hang {child : Node} {i : Fin 16} (h : Good sha s ty (d + 1) child)
    (hi : ∀ x, Radix.Mem x child.shape → digit d x = i) :
    Top sha s ty d ((newInner s).setChild i child) ∧
      ∀ x, Radix.Mem x ((newInner s).setChild i child).shape ↔ Radix.Mem x child.shape := by
  have hshape := shape_setChild (shape_newInner (s := s)) i child
  refine ⟨⟨sound_newInner.setChild h.sound _, _, hshape, (Radix.sorted_empty d).update h.canon hi⟩, fun x => ?_⟩
  rw [hshape]
  exact Radix.mem_update_empty

/-! ## Two leaves on one branch -/

/-- The inner nodes `splitLeaf` makes, with the two leaves hooked to the last of them. -/
def forkNode (sha : List UInt8 → Hash) (s : UInt32) (ty : TNType) (item other : Item) : ℕ → ℕ → Node
  | 0, depth =>
    ((newInner s).setChild (digit depth item) (newLeaf sha item ty s)).setChild (digit depth other)
      (newLeaf sha other ty s)
  | fuel + 1, depth =>
    if digit depth item = digit depth other then
      (newInner s).setChild (digit depth item) (forkNode sha s ty item other fuel (depth + 1))
    else
      ((newInner s).setChild (digit depth item) (newLeaf sha item ty s)).setChild (digit depth other)
        (newLeaf sha other ty s)

theorem splitLeaf_eq {other : Item} {q : Node × ℕ × Stack} : ∀ {fuel depth : ℕ} {st : Stack},
    SHAMap.splitLeaf s item.key other.key fuel (newInner s) depth st = q →
    dirtyUp s item.key q.2.2 ((q.1.setChild (selectBranch q.2.1 item.key) (newLeaf sha item ty s)).setChild
      (selectBranch q.2.1 other.key) (newLeaf sha other ty s)) =
      dirtyUp s item.key st (forkNode sha s ty item other fuel depth)
  | 0, depth, st, h => by rw [← h]; rfl
  | fuel + 1, depth, st, h => by
    rw [SHAMap.splitLeaf] at h
    split at h
    · next hb =>
      have hb' : digit depth item = digit depth other := hb
      have hnew : Sound sha s ty (newInner s) := sound_newInner
      rw [splitLeaf_eq h, dirtyUp, hnew.unshareNode_eq rfl, forkNode, if_pos hb']
      rfl
    · next hb =>
      have hb' : digit depth item ≠ digit depth other := hb
      rw [← h, forkNode, if_neg hb']
      rfl

/-- **The fork** is canonical and holds the two items. -/
theorem forkNode_good {other : Item} : ∀ (fuel depth : ℕ),
    (∃ e, depth ≤ e ∧ e < depth + fuel ∧ digit e item ≠ digit e other) →
    Good sha s ty depth (forkNode sha s ty item other fuel depth) ∧
      ∀ x, Radix.Mem x (forkNode sha s ty item other fuel depth).shape ↔ x = item ∨ x = other
  | 0, depth, ⟨e, h1, h2, _⟩ => by omega
  | fuel + 1, depth, ⟨e, h1, h2, hne⟩ => by
    have hitem : item ≠ other := fun h => hne (by rw [h])
    rw [forkNode]
    split
    · next heq =>
      -- both keys go on
      have hlt : depth + 1 ≤ e := by
        rcases h1.lt_or_eq with h | rfl
        · exact h
        · exact absurd heq hne
      obtain ⟨hgood, hmem⟩ := forkNode_good fuel (depth + 1) ⟨e, hlt, by omega, hne⟩
      obtain ⟨htop, hmem'⟩ := hgood.hang (i := digit depth item) fun x hx => by
        rcases (hmem x).mp hx with rfl | rfl
        · rfl
        · exact heq.symm
      have hall := fun x => (hmem' x).trans (hmem x)
      exact ⟨htop.good ⟨item, other, (hall item).mpr (.inl rfl), (hall other).mpr (.inr rfl), hitem⟩, hall⟩
    · next hneq =>
      have hleaf : Good sha s ty (depth + 1) (newLeaf sha item ty s) := good_newLeaf _ item
      obtain ⟨htop, hmem⟩ := hleaf.hang (i := digit depth item) fun x hx => by rw [mem_newLeaf.mp hx]
      obtain ⟨htop', hmem'⟩ := Grown.setChild (grown_newLeaf other (by
        rw [Function.update_of_ne (Ne.symm hneq)]
        rfl)) htop
      have hall := fun x => (hmem' x).trans (or_comm.trans (or_congr_left ((hmem x).trans mem_newLeaf)))
      exact ⟨htop'.good ⟨item, other, (hall item).mpr (.inl rfl), (hall other).mpr (.inr rfl), hitem⟩, hall⟩

/-! ## The walk back up -/

/-- What `addGiveItem` puts at the end of its walk. -/
def grownEnd (sha : List UInt8 → Hash) (s : UInt32) (ty : TNType) (item : Item) : Node × ℕ → Node
  | (.leaf other _ _ _, d) => forkNode sha s ty item other (64 - d) d
  | (n, d) => n.setChild (digit d item) (newLeaf sha item ty s)

theorem graft_inner {h : Hash} :
    graft item.key (grownEnd sha s ty item (walkEnd item.key (.inner s h br hs cs) d)) (.inner s h br hs cs) d =
      (Node.inner s h br hs cs).setChild (digit d item)
        (if br (digit d item) then
          graft item.key (grownEnd sha s ty item (walkEnd item.key (cs (digit d item)) (d + 1))) (cs (digit d item))
            (d + 1)
        else newLeaf sha item ty s) := by
  have hdig : selectBranch d item.key = digit d item := rfl
  rw [walkEnd, graft, hdig]
  by_cases hb : br (digit d item)
  · rw [if_pos hb, if_pos hb, if_pos hb]
  · rw [if_neg hb, if_neg hb, if_neg hb]
    rfl

/-- The item is new below `n`: no item there has its key, and all of them follow its path. -/
def NewBelow (d : ℕ) (item : Item) (n : Node) : Prop :=
  ∀ x, Radix.Mem x n.shape → x.key ≠ item.key ∧ Agree d x.key item.key

theorem NewBelow.child {h : Hash} (hnew : NewBelow d item (.inner s h br hs cs))
    (hsort : Radix.Sorted digit d fun i => (cs i).shape) :
    NewBelow (d + 1) item (cs (digit d item)) := fun x hx =>
  ⟨(hnew x (.node _ hx)).1, (hnew x (.node _ hx)).2.succ (hsort.digit_eq _ x hx)⟩

theorem grown_child (hsound : Sound sha s ty (.inner s 0 br hs cs)) (hsort : Radix.Sorted digit d fun i => (cs i).shape)
    (hnew : NewBelow d item (.inner s 0 br hs cs))
    (ih : (cs (digit d item)).isNull = false → Radix.Canon digit (d + 1) (cs (digit d item)).shape →
      NewBelow (d + 1) item (cs (digit d item)) → Grown sha s ty (d + 1) item (cs (digit d item))
        (graft item.key (grownEnd sha s ty item (walkEnd item.key (cs (digit d item)) (d + 1))) (cs (digit d item))
          (d + 1))) :
    Grown sha s ty (d + 1) item (cs (digit d item))
      (if br (digit d item) then
        graft item.key (grownEnd sha s ty item (walkEnd item.key (cs (digit d item)) (d + 1))) (cs (digit d item))
          (d + 1)
      else newLeaf sha item ty s) := by
  cases hsound with
  | inner hbr _ _ =>
    cases hn : (cs (digit d item)).isNull with
    | false =>
      rw [if_pos (by rw [hbr, hn]; rfl)]
      exact ih hn (hsort.canon _) (hnew.child hsort)
    | true =>
      rw [if_neg (by rw [hbr, hn]; exact Bool.false_ne_true)]
      exact grown_newLeaf item hn

/-- **A new item below a node that is not the root.** -/
theorem graft_grown (h : Sound sha s ty n) : ∀ {d : ℕ}, n.isNull = false →
    Radix.Canon digit d n.shape → NewBelow d item n →
    Grown sha s ty d item n (graft item.key (grownEnd sha s ty item (walkEnd item.key n d)) n d) := by
  induction h with
  | null => exact fun hn => by cases hn
  | leaf other =>
    intro d _ _ hnew
    obtain ⟨hkey, hagree⟩ := hnew other .leaf
    -- the keys differ at a nibble from here on
    have hsplit : ∃ e, d ≤ e ∧ e < d + (64 - d) ∧ digit e item ≠ digit e other := by
      by_contra hno
      refine hkey (eq_of_agree fun e he => ?_)
      by_cases hed : e < d
      · exact hagree e hed
      · by_contra hne
        exact hno ⟨e, by omega, by omega, fun h => hne h.symm⟩
    obtain ⟨hgood, hm⟩ := forkNode_good _ d hsplit
    exact ⟨hgood, fun x => (hm x).trans (or_congr_right Radix.mem_leaf_iff.symm)⟩
  | @inner br hs cs hbr hhs hcs ih =>
    intro d _ hcan hnew
    have hsound := Sound.inner hbr hhs hcs
    rw [graft_inner]
    obtain ⟨htop, hmem⟩ := Grown.setChild (grown_child hsound hcan.sorted hnew fun hb => ih _ hb)
      ⟨hsound, _, rfl, hcan.sorted⟩
    obtain ⟨a, b, ha, hb, hab⟩ := hcan.two
    exact ⟨htop.good ⟨a, b, (hmem a).mpr (.inr ha), (hmem b).mpr (.inr hb), hab⟩, hmem⟩

/-- **A new item below the root.** -/
theorem graft_top (h : Top sha s ty 0 n) (hnew : ∀ x, Radix.Mem x n.shape → x.key ≠ item.key) :
    Top sha s ty 0 (graft item.key (grownEnd sha s ty item (walkEnd item.key n 0)) n 0) ∧
      ∀ x, Radix.Mem x (graft item.key (grownEnd sha s ty item (walkEnd item.key n 0)) n 0).shape ↔
        x = item ∨ Radix.Mem x n.shape := by
  obtain ⟨br, hs, cs, rfl, hsound, hcs, hsort⟩ := h.inner
  rw [graft_inner]
  exact Grown.setChild (grown_child hsound hsort (fun x hx => ⟨hnew x hx, fun e he => by omega⟩)
    fun hb hcan hbelow => graft_grown (hcs _) hb hcan hbelow) h

/-! ## `addGiveItem` -/

namespace SHAMap

variable {m : SHAMap} {isTransaction hasMeta : Bool} {item : Item}

theorem addGiveItem_of_mem (h : Ok sha ty m) {x : Item} (hx : Radix.Mem x m.root.shape) (hk : x.key = item.key) :
    m.addGiveItem sha item isTransaction hasMeta = some (false, m) := by
  obtain ⟨e, rest, hw, -⟩ := h.walk_of_mem hx
  rw [hk] at hw
  rw [addGiveItem, hw]
  exact if_pos hk

/-- **`addGiveItem` adds an item with a new key.** -/
theorem addGiveItem_of_not_mem (h : Ok sha (leafType isTransaction hasMeta) m)
    (hno : ∀ x, Radix.Mem x m.root.shape → x.key ≠ item.key) :
    ∃ m', m.addGiveItem sha item isTransaction hasMeta = some (true, m') ∧
      Ok sha (leafType isTransaction hasMeta) m' ∧
        ∀ x, Radix.Mem x m'.root.shape ↔ x = item ∨ Radix.Mem x m.root.shape := by
  obtain ⟨rest, hw, hd, -⟩ := walk_eq h.top.sound item.key 0 [] h.top.root_ne
  obtain ⟨htop, hmem⟩ := graft_top h.top hno
  refine ⟨{ m with root := graft item.key (grownEnd sha m.seq (leafType isTransaction hasMeta) item
    (walkEnd item.key m.root 0)) m.root 0 }, ?_, ⟨h.seq_ne, htop⟩, hmem⟩
  obtain ⟨hend, hne⟩ := h.top.sound.walkEnd item.key 0 h.top.root_ne
  have hup : ∀ x, graft item.key x m.root 0 = dirtyUp m.seq item.key rest x := fun x => (hd x).symm
  rw [addGiveItem, hw, hup]
  generalize hq : walkEnd item.key m.root 0 = q at *
  obtain ⟨n, d⟩ := q
  cases hend with
  | null => cases hne
  | leaf other =>
    have hkey := hno other (walkEnd_leaf_mem hq)
    have hleaf : Sound sha m.seq (leafType isTransaction hasMeta) (newLeaf sha other _ m.seq) := .leaf other
    have hun := hleaf.unshareNode_eq hne
    simp only [newLeaf] at hun
    simp only [newLeaf, Option.bind_eq_bind, Option.bind_some, if_neg hkey, hun]
    exact congrArg (fun r => some (true, SHAMap.mk r m.seq)) (splitLeaf_eq rfl)
  | inner hbr hhs hcs =>
    simp only [Option.bind_eq_bind, Option.bind_some, (Sound.inner hbr hhs hcs).unshareNode_eq hne]
    rfl

end SHAMap

end ScfChain.ShaMap
