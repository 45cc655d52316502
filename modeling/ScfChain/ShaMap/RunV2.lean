import ScfChain.ShaMap.Compressed

/-!
# Runs of a version-2 map

The operations of a version-2 map do on its tree what `Compressed` says, so that the map behaves as the same table of items
as one of version 1 (`Holds.run`), and its tree is in the order of keys (`Ok.ordered`).
-/

namespace ScfChain.ShaMap

open Data AbstractNode SHAMap

namespace SHAMapV2

variable {sha : List UInt8 → Hash} {ty : TNType} {m : SHAMapV2} {f : Table} {isTransaction hasMeta : Bool} {item x : Item}
  {key : Hash}

/-- The invariant of a map between operations. -/
structure Ok (sha : List UInt8 → Hash) (ty : TNType) (m : SHAMapV2) : Prop where
  seq_ne : m.seq ≠ 0
  root : ∃ br hs cs, m.root = .inner (some ⟨0, 0⟩) m.seq 0 br hs cs ∧ Body sha m.seq ty ⟨0, 0⟩ br hs cs

theorem ok_new : Ok sha ty new := by
  refine ⟨by decide, _, _, _, rfl, ⟨⟨by decide, by decide +kernel, fun _ => rfl, fun _ => rfl, ?_, ?_⟩, fun _ => .null _⟩⟩
  · exact fun _ x hx => absurd hx List.not_mem_nil
  · exact fun _ x hx => absurd hx List.not_mem_nil

section

variable (h : Ok sha ty m)
include h

theorem Ok.walks : Walks m.seq m.root := by
  obtain ⟨br, hs, cs, hroot, hbody⟩ := h.root
  rw [hroot]
  exact hbody.walk

theorem Ok.depth_root : m.root.depth = 0 := by
  obtain ⟨br, hs, cs, hroot, -⟩ := h.root
  rw [hroot]
  rfl

theorem Ok.ordered : Ordered 0 m.root := by
  obtain ⟨br, hs, cs, hroot, hbody⟩ := h.root
  rw [hroot]
  exact hbody.ordered

theorem Ok.walk_of_mem (hx : x ∈ m.root.items) :
    ∃ rest, m.root.walkTowardsKey x.key 0 [] = some ((AbstractNode.newLeaf sha x ty m.seq, 64) :: rest) ∧
      (∀ n, n.dirtyUp m.seq x.key rest = m.root.graft x.key n) ∧
      ∀ n, n.isNull = false → n.inPlace x.key rest = m.root.graft x.key n := by
  obtain ⟨rest, hwalk, hdirty, hplace, -⟩ := h.walks x.key []
  obtain ⟨br, hs, cs, hroot, hbody⟩ := h.root
  have hend : m.root.walkEnd x.key = AbstractNode.newLeaf sha x ty m.seq := by
    rw [hroot] at hx ⊢
    exact hbody.walkEnd_of_mem hx
  rw [hend, h.depth_root] at hwalk
  exact ⟨rest, hwalk, hdirty, hplace⟩

theorem Ok.walk_of_not_mem (hno : ∀ x ∈ m.root.items, x.key ≠ key) :
    ∃ rest, m.root.walkTowardsKey key 0 [] = some ((m.root.walkEnd key, (m.root.walkEnd key).depth) :: rest) ∧
      ∀ item type q t, m.root.walkEnd key = .leaf item type q t → item.key ≠ key := by
  obtain ⟨rest, hwalk, -⟩ := h.walks key []
  rw [h.depth_root] at hwalk
  exact ⟨rest, hwalk, fun item type q t hend => hno item (AbstractNode.walkEnd_leaf_mem hend)⟩

theorem Ok.walkEnd_cases (key : Hash) :
    (∃ item, m.root.walkEnd key = AbstractNode.newLeaf sha item ty m.seq) ∨
      ∃ p br hs cs, m.root.walkEnd key = .inner (some p) m.seq 0 br hs cs := by
  obtain ⟨br, hs, cs, hroot, hbody⟩ := h.root
  rw [hroot]
  exact hbody.walkEnd_cases key

theorem Ok.hasCommonPrefix {p : Prefix} {q : UInt32} {t : Hash} {br : Fin 16 → Bool} {hs : Fin 16 → Hash}
    {cs : Fin 16 → AbstractNode} (hroot : m.root = .inner (some p) q t br hs cs) :
    p.hasCommonPrefix key = true := by
  obtain ⟨br', hs', cs', hroot', -⟩ := h.root
  rw [hroot'] at hroot
  cases hroot
  rfl

/-! ## `addGiveItem` -/

theorem addGiveItem_of_mem (hx : x ∈ m.root.items) (hkey : x.key = item.key) :
    m.addGiveItem sha item isTransaction hasMeta = some (false, m) := by
  obtain ⟨rest, hwalk, -⟩ := h.walk_of_mem hx
  rw [hkey] at hwalk
  rw [addGiveItem, hwalk]
  exact if_pos hkey

end

theorem unshareTop_eq {stack : NodeStack} (h : Owned m.seq stack) : m.unshareTop stack = stack := by
  cases stack with
  | nil => rfl
  | cons q stack => rw [unshareTop, unshareNode_eq (h q List.mem_cons_self).1]

theorem dirtyUp_setChild {n parent : AbstractNode} {d : ℕ} {stack : NodeStack} (hseq : parent.seq = m.seq)
    (hdepth : d = parent.depth) :
    n.dirtyUp m.seq key ((parent.setChild (selectBranch parent.depth key) n, d) :: stack) =
      n.dirtyUp m.seq key ((parent, d) :: stack) := by
  have hseq' : (parent.setChild (selectBranch parent.depth key) n).seq = m.seq := by
    rw [← hseq]
    cases parent with
    | null => rfl
    | leaf => rfl
    | inner => rfl
  rw [AbstractNode.dirtyUp, AbstractNode.dirtyUp, unshareNode_eq hseq, unshareNode_eq hseq', hdepth]
  cases parent with
  | null => rfl
  | leaf => rfl
  | inner => simp only [AbstractNode.setChild, Function.update_idem]

theorem Ok.addGiveItem_eq (h : Ok sha (leafType isTransaction hasMeta) m) (hno : ∀ x ∈ m.root.items, x.key ≠ item.key) :
    m.addGiveItem sha item isTransaction hasMeta = some (true, { m with
      root := m.root.graft item.key ((m.root.walkEnd item.key).addAt sha m.seq (leafType isTransaction hasMeta) item) }) := by
  obtain ⟨rest, hwalk, hdirty, -, howned, hrest⟩ := h.walks item.key []
  have hown : Owned m.seq rest := howned (by simp [Owned])
  have hgraft (n : AbstractNode) : m.root.graft item.key n = n.dirtyUp m.seq item.key rest := (hdirty n).symm
  rw [h.depth_root] at hwalk
  rw [hgraft]
  rcases h.walkEnd_cases item.key with ⟨other, hend⟩ | ⟨p, br, hs, cs, hend⟩
  · have hne : other.key ≠ item.key := hno other (AbstractNode.walkEnd_leaf_mem hend)
    have hleaf : (AbstractNode.leaf other (leafType isTransaction hasMeta) m.seq
        (sha (other.preimage (leafType isTransaction hasMeta)))).unshareNode m.seq = _ := unshareNode_eq rfl
    rw [hend] at hwalk ⊢
    rw [addGiveItem, hwalk]
    refine (if_neg hne).trans ?_
    rw [unshareTop_eq hown, hleaf]
    rfl
  · have hinner : (AbstractNode.inner (some p) m.seq 0 br hs cs).unshareNode m.seq = _ := unshareNode_eq rfl
    by_cases hprefix : p.hasCommonPrefix item.key = true
    · rw [hend] at hwalk ⊢
      rw [addGiveItem, hwalk, addAt, if_pos hprefix]
      refine (if_pos hprefix).trans ?_
      rw [hinner]
      rfl
    · have hne : rest ≠ [] := by
        rcases hrest with ⟨hsame, -⟩ | hne
        · exact absurd (h.hasCommonPrefix (hsame.symm.trans hend)) hprefix
        · exact hne
      cases rest with
      | nil => exact absurd rfl hne
      | cons q rest =>
        obtain ⟨hseq, hdepth⟩ := hown q List.mem_cons_self
        rw [hend] at hwalk ⊢
        rw [addGiveItem, hwalk, addAt, if_neg hprefix]
        refine (if_neg hprefix).trans ?_
        rw [hinner, unshareNode_eq hseq]
        exact congrArg (fun n => some (true, { m with root := n })) (dirtyUp_setChild hseq hdepth)

theorem Ok.addGiveItem_of_not_mem (h : Ok sha (leafType isTransaction hasMeta) m)
    (hno : ∀ x ∈ m.root.items, x.key ≠ item.key) :
    ∃ m', m.addGiveItem sha item isTransaction hasMeta = some (true, m') ∧ Ok sha (leafType isTransaction hasMeta) m' ∧
      ∀ x, x ∈ m'.root.items ↔ x = item ∨ x ∈ m.root.items := by
  refine ⟨_, h.addGiveItem_eq hno, ?_⟩
  obtain ⟨br, hs, cs, hroot, hbody⟩ := h.root
  have hall : Agree 0 0 item.key := fun e he => absurd he (Nat.not_lt_zero e)
  obtain ⟨c, hgraft, hchild⟩ := hbody.graft_addAt (h := 0) hall fun i hi hsel => by
    refine (hbody.child i).withItem (hbody.isNull_of_branch hi) ?_ ?_
    · intro x hx
      exact (hall.symm.trans (hbody.agree i x hx)).succ (hsel.trans (hbody.select i x hx).symm)
    · intro x hx
      rw [hroot] at hno
      exact hno x (mem_items_inner.mpr ⟨i, hx⟩)
  obtain ⟨hbody', hmem⟩ := hbody.withItem_child hall hchild
  simp only [hroot, hgraft]
  exact ⟨⟨h.seq_ne, _, _, _, rfl, hbody'⟩, hmem⟩

/-! ## `delItem` -/

theorem Ok.delItem_of_not_mem (h : Ok sha ty m) (hno : ∀ x ∈ m.root.items, x.key ≠ key) :
    m.delItem key = some (false, m) := by
  obtain ⟨rest, hwalk, hend⟩ := h.walk_of_not_mem hno
  rw [delItem, hwalk]
  cases hn : m.root.walkEnd key with
  | null => rfl
  | leaf item type q t => exact if_pos (hend item type q t hn)
  | inner => rfl

theorem Ok.delItem_of_mem (h : Ok sha ty m) (hx : x ∈ m.root.items) :
    ∃ m', m.delItem x.key = some (true, m') ∧ Ok sha ty m' ∧ ∀ y, y ∈ m'.root.items ↔ y ∈ m.root.items ∧ y ≠ x := by
  obtain ⟨br, hs, cs, hroot, hbody⟩ := h.root
  rw [hroot] at hx
  obtain ⟨c, hdel, hcomp, hmem⟩ := (hbody.child _).deletes (Nat.succ_ne_zero 0) (hbody.mem_child hx)
  obtain ⟨hbody', hmem'⟩ := hbody.unhook hcomp hmem
  obtain ⟨type, q, t, e, rest, hwalk, hup⟩ := hdel [(.inner (some ⟨0, 0⟩) m.seq 0 br hs cs, 0)]
  have hwalk' : m.root.walkTowardsKey x.key 0 [] = some ((.leaf x type q t, e) :: rest) := by
    rw [hroot, ← hwalk]
    exact hbody.walk_of_mem hx []
  have hown : (AbstractNode.inner (some ⟨0, 0⟩) m.seq 0 br hs cs).unshareNode m.seq = _ := unshareNode_eq rfl
  rw [deleteUp, hown, if_pos (.inl rfl), deleteUp] at hup
  refine ⟨⟨(AbstractNode.inner (some ⟨0, 0⟩) m.seq 0 br hs cs).setChild (selectBranch 0 x.key) c, m.seq⟩, ?_,
    ⟨h.seq_ne, _, _, _, rfl, hbody'⟩, ?_⟩
  · rw [delItem, hwalk']
    refine (if_neg (not_not.mpr rfl)).trans ?_
    rw [hup]
    rfl
  · rw [hroot]
    exact hmem'

/-! ## `updateGiveItem` -/

theorem Ok.updateGiveItem_of_not_mem (h : Ok sha ty m) (hno : ∀ x ∈ m.root.items, x.key ≠ item.key) :
    m.updateGiveItem sha item isTransaction hasMeta = some (false, m) := by
  obtain ⟨rest, hwalk, hend⟩ := h.walk_of_not_mem hno
  rw [updateGiveItem, hwalk]
  cases hn : m.root.walkEnd item.key with
  | null => rfl
  | leaf other type q t => exact if_pos (hend other type q t hn)
  | inner => rfl

theorem Ok.updateGiveItem_of_mem (h : Ok sha (leafType isTransaction hasMeta) m) (hx : x ∈ m.root.items)
    (hkey : item.key = x.key) :
    ∃ m', m.updateGiveItem sha item isTransaction hasMeta = some (true, m') ∧ Ok sha (leafType isTransaction hasMeta) m' ∧
      ∀ y, y ∈ m'.root.items ↔ y = item ∨ y ∈ m.root.items ∧ y ≠ x := by
  obtain ⟨rest, hwalk, hdirty, hplace⟩ := h.walk_of_mem hx
  obtain ⟨br, hs, cs, hroot, hbody⟩ := h.root
  rw [hroot] at hx
  have hchild := (hbody.child _).swapped hkey (hbody.mem_child hx)
  obtain ⟨hbody', hmem⟩ := hbody.swap_child hkey hx hchild
  have hgraft := hbody.graft_of_mem hx (AbstractNode.newLeaf sha item (leafType isTransaction hasMeta) m.seq)
  refine ⟨⟨m.root.graft x.key (AbstractNode.newLeaf sha item (leafType isTransaction hasMeta) m.seq), m.seq⟩, ?_, ?_⟩
  · rw [← hkey] at hwalk
    rw [updateGiveItem, hwalk]
    refine (if_neg (not_not.mpr hkey.symm)).trans ?_
    split_ifs with hhash hseq
    · rw [hkey, hplace _ rfl]
    · exact absurd rfl hseq
    · rw [hkey, hdirty]
  · simp only [hroot, hgraft]
    exact ⟨⟨h.seq_ne, _, _, _, rfl, hbody'⟩, hmem⟩

/-! ## Runs -/

/-- The map holds the items of the table. -/
structure Holds (sha : List UInt8 → Hash) (ty : TNType) (m : SHAMapV2) (f : Table) : Prop where
  ok : m.Ok sha ty
  mem_iff : ∀ x : Item, x ∈ m.root.items ↔ f x.key = some x.data

theorem holds_new (sha : List UInt8 → Hash) : Holds sha ty new Table.empty := by
  refine ⟨ok_new, fun x => iff_of_false ?_ (by simp [Table.empty])⟩
  rw [new, newInner, mem_items_inner]
  rintro ⟨_, hx⟩
  cases hx

/-- **One operation.** -/
theorem Holds.step (h : Holds sha (leafType isTransaction hasMeta) m f) (op : Op) :
    ∃ m', m.step sha isTransaction hasMeta op = some ((f.step op).1, m') ∧
      Holds sha (leafType isTransaction hasMeta) m' (f.step op).2 := by
  cases op with
  | add item =>
    obtain ⟨x, hx, hkey, hf⟩ | ⟨hno, f', hf, hlists⟩ := Lists.step_add h.mem_iff item <;> rw [hf]
    · exact ⟨m, addGiveItem_of_mem h.ok hx hkey, h⟩
    · obtain ⟨m', hadd, hok, hmem⟩ := h.ok.addGiveItem_of_not_mem hno
      exact ⟨m', hadd, hok, hlists hmem⟩
  | del key =>
    obtain ⟨hno, hf⟩ | ⟨x, f', hx, rfl, hf, hlists⟩ := Lists.step_del h.mem_iff key <;> rw [hf]
    · exact ⟨m, h.ok.delItem_of_not_mem hno, h⟩
    · obtain ⟨m', hdel, hok, hmem⟩ := h.ok.delItem_of_mem hx
      exact ⟨m', hdel, hok, hlists hmem⟩
  | update item =>
    obtain ⟨hno, hf⟩ | ⟨x, f', hx, hkey, hf, hlists⟩ := Lists.step_update h.mem_iff item <;> rw [hf]
    · exact ⟨m, h.ok.updateGiveItem_of_not_mem hno, h⟩
    · obtain ⟨m', hup, hok, hmem⟩ := h.ok.updateGiveItem_of_mem hx hkey
      exact ⟨m', hup, hok, hlists hmem⟩

theorem Holds.run (h : Holds sha (leafType isTransaction hasMeta) m f) (ops : List Op) :
    ∃ m', m.run sha isTransaction hasMeta ops = some ((f.run ops).1, m') ∧
      Holds sha (leafType isTransaction hasMeta) m' (f.run ops).2 := by
  induction ops generalizing m f with
  | nil => exact ⟨m, rfl, h⟩
  | cons op ops ih =>
    obtain ⟨m₁, hstep, h₁⟩ := h.step op
    obtain ⟨m₂, hrun, h₂⟩ := ih h₁
    refine ⟨m₂, ?_, h₂⟩
    rw [SHAMapV2.run, hstep]
    simp only [Option.bind_eq_bind, Option.bind_some, hrun]
    rfl

end SHAMapV2

end ScfChain.ShaMap
