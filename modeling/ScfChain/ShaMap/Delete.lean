import ScfChain.ShaMap.Insert

/-!
# Deleting and replacing an item

On the way back up, `deleteUp` drops a node below which nothing is left and pulls a lone item up in its place. `trim`
is that step; it keeps the items and makes the node canonical again (`trim_good`). `delItem` then removes one item and
`updateGiveItem` replaces one (`delItem_of_mem`, `updateGiveItem_of_mem`).
-/

namespace ScfChain.ShaMap

open Data Node

variable {sha : List UInt8 → Hash} {s : UInt32} {ty : TNType}

variable {br : Fin 16 → Bool} {hs : Fin 16 → Hash} {cs : Fin 16 → Node} {d : ℕ} {x item : Item} {n : Node}

theorem Sound.exists_mem {i : Fin 16} (h : Sound sha s ty (.inner s 0 br hs cs)) (hcan : Radix.Canon digit d (cs i).shape)
    (hb : br i = true) :
    ∃ x, Radix.Mem x (cs i).shape := by
  cases h with
  | inner hbr _ _ =>
    by_contra hno
    have hempty := Radix.eq_empty_of_not_mem hcan fun x hx => hno ⟨x, hx⟩
    rw [hbr, shape_eq_empty_iff.mp hempty] at hb
    cases hb

theorem Sound.mem_of_single {i : Fin 16} (h : Sound sha s ty (.inner s 0 br hs cs))
    (hi : (List.finRange 16).filter (fun j => br j) = [i]) :
    Radix.Mem x (Node.inner s 0 br hs cs).shape ↔ Radix.Mem x (cs i).shape := by
  rw [shape, Radix.mem_node_iff]
  constructor
  · rintro ⟨j, hj⟩
    have hmem : j ∈ (List.finRange 16).filter fun j => br j := by
      simpa using h.branch_of_mem hj
    rw [hi, List.mem_singleton] at hmem
    rwa [← hmem]
  · exact fun hx => ⟨i, hx⟩

theorem onlyBelow_of_two (h : Sound sha s ty n) {a b : Item} (ha : Radix.Mem a n.shape) (hb : Radix.Mem b n.shape)
    (hab : a ≠ b) : n.onlyBelow = some none := by
  induction h with
  | null => exact absurd ha Radix.not_mem_empty
  | leaf item => exact absurd ((Radix.mem_leaf_iff.mp ha).trans (Radix.mem_leaf_iff.mp hb).symm) hab
  | @inner br hs cs hbr hhs hcs ih =>
    have hsound := Sound.inner hbr hhs hcs
    rw [onlyBelow]
    split
    · rfl
    · next i hi => exact ih i ((hsound.mem_of_single hi).mp ha) ((hsound.mem_of_single hi).mp hb)
    · next i j l hi =>
      have hmem : i ∈ (List.finRange 16).filter fun j => br j := by rw [hi]; exact List.mem_cons_self
      have hbi : br i = true := by simpa using hmem
      rw [hbr] at hbi
      rw [if_neg (by simpa using hbi)]

/-! ## One node on the way up -/

/-- What `deleteUp` makes of a node below the root. -/
def trim (sha : List UInt8 → Hash) (ty : TNType) (node : Node) : Option Node :=
  match node.getBranchCount with
  | 0 => some .null
  | 1 => node.onlyBelow.map fun item => item.elim node fun item => newLeaf sha item ty node.seq
  | _ => some node

theorem deleteUp_cons {m : SHAMap} {key : Hash} {node prev : Node} {st : Stack} :
    m.deleteUp sha key ty ((node, d) :: st) prev =
      (if d = 0 then some ((unshareNode m.seq node).setChild (selectBranch d key) prev)
        else trim sha ty ((unshareNode m.seq node).setChild (selectBranch d key) prev)).bind
          (m.deleteUp sha key ty st) := by
  rw [SHAMap.deleteUp]
  generalize (unshareNode m.seq node).setChild (selectBranch d key) prev = n
  by_cases hd : d = 0
  · rw [if_pos hd, if_pos hd]
    rfl
  · rw [if_neg hd, if_neg hd, trim]
    rcases n.getBranchCount with _ | _ | k
    · rfl
    · rcases n.onlyBelow with _ | _ | item <;> rfl
    · rfl

/-- **`trim`** keeps the items and makes the node canonical. -/
theorem trim_good (h : Top sha s ty d n) :
    ∃ n', trim sha ty n = some n' ∧ Good sha s ty d n' ∧ ∀ x, Radix.Mem x n'.shape ↔ Radix.Mem x n.shape := by
  obtain ⟨br, hs, cs, rfl, hsound, hcs, hsort⟩ := h.inner
  have hbranch : ∀ {i}, i ∈ (List.finRange 16).filter (fun j => br j) → ∃ x, Radix.Mem x (cs i).shape :=
    fun {i} hi => hsound.exists_mem (hsort.canon i) (by simpa using hi)
  rw [trim, getBranchCount]
  rcases hl : (List.finRange 16).filter fun j => br j with _ | ⟨i, _ | ⟨j, l⟩⟩
  · -- nothing is left
    refine ⟨.null, rfl, ⟨.null, .empty d⟩, fun x => ?_⟩
    rw [shape, shape, Radix.mem_node_iff, iff_false_left Radix.not_mem_empty]
    rintro ⟨i, hi⟩
    have hmem : i ∈ (List.finRange 16).filter fun j => br j := by simpa using hsound.branch_of_mem hi
    rw [hl] at hmem
    cases hmem
  · -- one branch
    have hone : onlyBelow (.inner s 0 br hs cs) = onlyBelow (cs i) := by rw [onlyBelow, hl]
    have hmem := fun x => hsound.mem_of_single hl (x := x)
    obtain ⟨x, hx⟩ := hbranch (hl ▸ List.mem_cons_self)
    simp only [List.length_cons, List.length_nil, Nat.zero_add, hone]
    have hci := hcs i
    have hcan := hsort.canon i
    generalize cs i = child at *
    cases hci with
    | null => exact absurd hx Radix.not_mem_empty
    | leaf item => exact ⟨newLeaf sha item ty s, rfl, good_newLeaf d item, fun x => (hmem x).symm⟩
    | inner hbr' hhs' hcs' =>
      obtain ⟨a, b, ha, hb, hab⟩ := hcan.two
      rw [onlyBelow_of_two (.inner hbr' hhs' hcs') ha hb hab]
      exact ⟨_, rfl, h.good ⟨a, b, (hmem a).mpr ha, (hmem b).mpr hb, hab⟩, fun x => Iff.rfl⟩
  · -- two branches
    refine ⟨_, rfl, h.good ?_, fun x => Iff.rfl⟩
    have hnd := (List.nodup_finRange 16).filter fun j => br j
    rw [hl] at hnd
    have hij : i ≠ j := fun h => (List.nodup_cons.mp hnd).1 (h ▸ List.mem_cons_self)
    obtain ⟨a, ha⟩ := hbranch (hl ▸ List.mem_cons_self)
    obtain ⟨b, hb⟩ := hbranch (i := j) (hl ▸ List.mem_cons_of_mem _ List.mem_cons_self)
    refine ⟨a, b, .node i ha, .node j hb, ?_⟩
    rintro rfl
    exact hij ((hsort.digit_eq i a ha).symm.trans (hsort.digit_eq j a hb))

/-! ## The walk back up -/

/-- `n'` is `n` without `x`. -/
def Without (x : Item) (n n' : Node) : Prop := ∀ y, Radix.Mem y n'.shape ↔ Radix.Mem y n.shape ∧ y ≠ x

theorem Top.setChild_without {child : Node} (h : Top sha s ty d (.inner s 0 br hs cs))
    (hchild : Good sha s ty (d + 1) child) (hw : Without x (cs (digit d x)) child) :
    Top sha s ty d ((Node.inner s 0 br hs cs).setChild (digit d x) child) ∧
      Without x (.inner s 0 br hs cs) ((Node.inner s 0 br hs cs).setChild (digit d x) child) := by
  obtain ⟨hsound, c, hc, hsort⟩ := h
  obtain rfl := Radix.node.inj hc
  refine ⟨⟨hsound.setChild hchild.sound _, _, shape_setChild rfl _ _, hsort.update hchild.canon fun y hy => ?_⟩,
    fun y => ?_⟩
  · exact hsort.digit_eq _ y ((hw y).mp hy).1
  · rw [shape_setChild (n := .inner s 0 br hs cs) rfl, hsort.mem_update, hw, hsort.mem_iff (a := y), shape]
    by_cases hd : digit d y = digit d x
    · simp [hd]
    · have hyx : y ≠ x := fun h => hd (by rw [h])
      simp [hd, hyx]

theorem deleteUp_below {m : SHAMap} (h : Sound sha m.seq ty n) : ∀ {d : ℕ} (st : Stack), d ≠ 0 →
    Radix.Canon digit d n.shape → Radix.Mem x n.shape →
    ∃ e rest n', walkTowardsKey x.key n d st = some ((newLeaf sha x ty m.seq, e) :: rest) ∧
      m.deleteUp sha x.key ty rest .null = m.deleteUp sha x.key ty st n' ∧ Good sha m.seq ty d n' ∧ Without x n n' := by
  induction h with
  | null => exact fun _ _ _ hx => absurd hx Radix.not_mem_empty
  | leaf item =>
    intro d st _ _ hx
    obtain rfl := Radix.mem_leaf_iff.mp hx
    refine ⟨d, st, .null, rfl, rfl, ⟨.null, .empty d⟩, fun y => ?_⟩
    rw [mem_newLeaf, shape, iff_false_left Radix.not_mem_empty]
    exact fun h => h.2 h.1
  | @inner br hs cs hbr hhs hcs ih =>
    intro d st hd hcan hx
    have hsound := Sound.inner hbr hhs hcs
    have hxi : Radix.Mem x (cs (digit d x)).shape := hcan.sorted.mem_iff.mpr ⟨hx, rfl⟩
    obtain ⟨e, rest, child, hwalk, hup, hgood, hw⟩ := ih (digit d x) ((.inner m.seq 0 br hs cs, d) :: st)
      (Nat.succ_ne_zero d) (hcan.sorted.canon _) hxi
    obtain ⟨htop, hwout⟩ := Top.setChild_without ⟨hsound, _, rfl, hcan.sorted⟩ hgood hw
    obtain ⟨n', htrim, hgood', hmem⟩ := trim_good htop
    refine ⟨e, rest, n', ?_, ?_, hgood', fun y => (hmem y).trans (hwout y)⟩
    · rw [walkTowardsKey]
      exact (if_pos (hsound.branch_of_mem hxi)).trans hwalk
    · rw [hup, deleteUp_cons, if_neg hd, hsound.unshareNode_eq rfl]
      show (trim sha ty ((Node.inner m.seq 0 br hs cs).setChild (digit d x) child)).bind _ = _
      rw [htrim]
      rfl

/-! ## Another item with the same key -/

/-- `n'` is `n` with `item` for `x`. -/
def Swapped (x item : Item) (n n' : Node) : Prop := ∀ y, Radix.Mem y n'.shape ↔ y = item ∨ Radix.Mem y n.shape ∧ y ≠ x

theorem Top.setChild_swapped {child : Node} (h : Top sha s ty d (.inner s 0 br hs cs)) (hkey : item.key = x.key)
    (hchild : Good sha s ty (d + 1) child) (hw : Swapped x item (cs (digit d x)) child) :
    Top sha s ty d ((Node.inner s 0 br hs cs).setChild (digit d x) child) ∧
      Swapped x item (.inner s 0 br hs cs) ((Node.inner s 0 br hs cs).setChild (digit d x) child) := by
  obtain ⟨hsound, c, hc, hsort⟩ := h
  obtain rfl := Radix.node.inj hc
  have hdig : digit d item = digit d x := by rw [digit, digit, hkey]
  refine ⟨⟨hsound.setChild hchild.sound _, _, shape_setChild rfl _ _, hsort.update hchild.canon fun y hy => ?_⟩,
    fun y => ?_⟩
  · rcases (hw y).mp hy with rfl | ⟨hy, -⟩
    · exact hdig
    · exact hsort.digit_eq _ y hy
  · rw [shape_setChild (n := .inner s 0 br hs cs) rfl, hsort.mem_update, hw, hsort.mem_iff (a := y), shape]
    by_cases hd : digit d y = digit d x
    · simp [hd]
    · have hyx : y ≠ x := fun h => hd (by rw [h])
      simp [hd, hyx]

theorem Swapped.two {n' : Node} (h : Swapped x item n n') (hkey : item.key = x.key) (hcan : Radix.Canon digit d n.shape)
    (hx : Radix.Mem x n.shape) (h2 : ∃ a b, Radix.Mem a n.shape ∧ Radix.Mem b n.shape ∧ a ≠ b) :
    ∃ a b, Radix.Mem a n'.shape ∧ Radix.Mem b n'.shape ∧ a ≠ b := by
  obtain ⟨z, hz, hzx⟩ : ∃ z, Radix.Mem z n.shape ∧ z ≠ x := by
    obtain ⟨a, b, ha, hb, hab⟩ := h2
    by_cases hax : a = x
    · exact ⟨b, hb, fun hbx => hab (hax.trans hbx.symm)⟩
    · exact ⟨a, ha, hax⟩
  refine ⟨item, z, (h item).mpr (Or.inl rfl), (h z).mpr (Or.inr ⟨hz, hzx⟩), ?_⟩
  rintro rfl
  exact hzx (hcan.eq_of_digits hz hx fun e => by rw [digit, digit, hkey])

/-- **The item at the end of a walk replaced**, below the root. -/
theorem graft_swapped (h : Sound sha s ty n) (hkey : item.key = x.key) : ∀ {d : ℕ},
    Radix.Canon digit d n.shape → Radix.Mem x n.shape →
    Good sha s ty d (graft x.key (newLeaf sha item ty s) n d) ∧
      Swapped x item n (graft x.key (newLeaf sha item ty s) n d) := by
  induction h with
  | null => exact fun _ hx => absurd hx Radix.not_mem_empty
  | leaf old =>
    intro d _ hx
    obtain rfl := Radix.mem_leaf_iff.mp hx
    refine ⟨good_newLeaf d item, fun y => ?_⟩
    rw [mem_newLeaf]
    exact ⟨fun hy => Or.inl (mem_newLeaf.mp hy), fun hy => mem_newLeaf.mpr (hy.elim id fun hy => absurd hy.1 hy.2)⟩
  | @inner br hs cs hbr hhs hcs ih =>
    intro d hcan hx
    have hsound := Sound.inner hbr hhs hcs
    have hxi : Radix.Mem x (cs (digit d x)).shape := hcan.sorted.mem_iff.mpr ⟨hx, rfl⟩
    obtain ⟨hgood, hsw⟩ := ih (digit d x) (hcan.sorted.canon _) hxi
    obtain ⟨htop, hsw'⟩ := Top.setChild_swapped ⟨hsound, _, rfl, hcan.sorted⟩ hkey hgood hsw
    have hgraft : graft x.key (newLeaf sha item ty s) (.inner s 0 br hs cs) d = _ :=
      if_pos (hsound.branch_of_mem hxi)
    rw [hgraft]
    exact ⟨htop.good (hsw'.two hkey hcan hx hcan.two), hsw'⟩

theorem Top.graft_swapped (h : Top sha s ty d n) (hkey : item.key = x.key) (hx : Radix.Mem x n.shape) :
    Top sha s ty d (graft x.key (newLeaf sha item ty s) n d) ∧
      Swapped x item n (graft x.key (newLeaf sha item ty s) n d) := by
  obtain ⟨br, hs, cs, rfl, hsound, hcs, hsort⟩ := h.inner
  have hxi : Radix.Mem x (cs (digit d x)).shape := hsort.mem_iff.mpr ⟨hx, rfl⟩
  obtain ⟨hgood, hsw⟩ := ShaMap.graft_swapped (hcs (digit d x)) hkey (hsort.canon _) hxi
  have hgraft : graft x.key (newLeaf sha item ty s) (.inner s 0 br hs cs) d = _ :=
    if_pos (hsound.branch_of_mem hxi)
  rw [hgraft]
  exact Top.setChild_swapped ⟨hsound, _, rfl, hsort⟩ hkey hgood hsw

namespace SHAMap

variable {m : SHAMap} {isTransaction hasMeta : Bool}

/-- **`delItem` removes the item with the key.** -/
theorem delItem_of_mem (h : Ok sha ty m) {x : Item} (hx : Radix.Mem x m.root.shape) :
    ∃ m', m.delItem sha x.key = some (true, m') ∧ Ok sha ty m' ∧ Without x m.root m'.root := by
  obtain ⟨br, hs, cs, hr, hsound, hcs, hsort⟩ := h.top.inner
  rw [hr] at hx ⊢
  have hxi : Radix.Mem x (cs (digit 0 x)).shape := hsort.mem_iff.mpr ⟨hx, rfl⟩
  obtain ⟨e, rest, child, hwalk, hup, hgood, hw⟩ := deleteUp_below (m := m) (hcs (digit 0 x))
    [(.inner m.seq 0 br hs cs, 0)] Nat.one_ne_zero (hsort.canon _) hxi
  obtain ⟨htop, hwout⟩ := Top.setChild_without ⟨hsound, _, rfl, hsort⟩ hgood hw
  refine ⟨{ m with root := (Node.inner m.seq 0 br hs cs).setChild (digit 0 x) child }, ?_, ⟨h.seq_ne, htop⟩, hwout⟩
  have hroot : walkTowardsKey x.key m.root 0 [] = some ((newLeaf sha x ty m.seq, e) :: rest) := by
    rw [hr, walkTowardsKey]
    exact (if_pos (hsound.branch_of_mem hxi)).trans hwalk
  rw [delItem, hroot]
  simp only [newLeaf, Option.bind_eq_bind, Option.bind_some, ne_eq, not_true, if_false]
  rw [hup, deleteUp_cons, if_pos rfl, hsound.unshareNode_eq rfl]
  rfl

theorem delItem_of_not_mem (h : Ok sha ty m) {key : Hash} (hno : ∀ x, Radix.Mem x m.root.shape → x.key ≠ key) :
    m.delItem sha key = some (false, m) := by
  obtain ⟨n, e, rest, hw, hn⟩ := h.walk_of_not_mem hno
  rw [delItem, hw]
  cases n with
  | null => rfl
  | leaf item type q t => exact if_pos (hn item type q t rfl)
  | inner => rfl

/-! ## `updateGiveItem` -/

theorem updateGiveItem_of_not_mem (h : Ok sha ty m) {item : Item}
    (hno : ∀ x, Radix.Mem x m.root.shape → x.key ≠ item.key) :
    m.updateGiveItem sha item isTransaction hasMeta = some (false, m) := by
  obtain ⟨n, e, rest, hw, hn⟩ := h.walk_of_not_mem hno
  rw [updateGiveItem, hw]
  cases n with
  | null => rfl
  | leaf item type q t => exact if_pos (hn item type q t rfl)
  | inner => rfl

/-- **`updateGiveItem` replaces the item with the key.** -/
theorem updateGiveItem_of_mem (h : Ok sha (leafType isTransaction hasMeta) m) {x item : Item}
    (hx : Radix.Mem x m.root.shape) (hkey : item.key = x.key) :
    ∃ m', m.updateGiveItem sha item isTransaction hasMeta = some (true, m') ∧
      Ok sha (leafType isTransaction hasMeta) m' ∧ Swapped x item m.root m'.root := by
  obtain ⟨e, rest, hw, hd, hp⟩ := h.walk_of_mem hx
  obtain ⟨htop, hsw⟩ := h.top.graft_swapped hkey hx
  refine ⟨{ m with root := graft x.key (newLeaf sha item (leafType isTransaction hasMeta) m.seq) m.root 0 }, ?_,
    ⟨h.seq_ne, htop⟩, hsw⟩
  rw [updateGiveItem, hkey, hw]
  simp only [newLeaf, Option.bind_eq_bind, Option.bind_some, ne_eq, not_true, if_false, if_true]
  split
  · exact congrArg (fun r => some (true, SHAMap.mk r m.seq)) (hp _ rfl)
  · exact congrArg (fun r => some (true, SHAMap.mk r m.seq)) (hd _)

end SHAMap

end ScfChain.ShaMap
