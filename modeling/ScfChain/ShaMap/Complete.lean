import ScfChain.ShaMap.RunV2

/-!
# Complete maps

`Complete sha ty root f` : the tree at `root` is in the order of keys, its hashes are up to date and it holds the items of
the table `f`. What is read from a map of either version depends on this alone. `walkSubTree` leaves such a tree behind
after any run of a map (`SHAMap.Holds.complete`, `SHAMapV2.Holds.complete`).
-/

namespace ScfChain.ShaMap

open Data AbstractNode

/-! ## Trees up to hashes -/

/-- Trees that differ in sequence numbers and hashes alone. -/
inductive Alike : AbstractNode → AbstractNode → Prop
  | null : Alike .null .null
  | leaf (item : Item) (type : TNType) (s s' : UInt32) (h h' : Hash) : Alike (.leaf item type s h) (.leaf item type s' h')
  | inner {v2 : Option Prefix} {s s' : UInt32} {h h' : Hash} {br : Fin 16 → Bool} {hs hs' : Fin 16 → Hash}
      {cs cs' : Fin 16 → AbstractNode} : (∀ i, Alike (cs i) (cs' i)) →
      Alike (.inner v2 s h br hs cs) (.inner v2 s' h' br hs' cs')

theorem Alike.refl (n : AbstractNode) : Alike n n := by
  induction n with
  | null => exact .null
  | leaf item type s h => exact .leaf item type s s h h
  | inner v2 s h br hs cs ih => exact .inner ih

section
variable {n n' : AbstractNode} {d : ℕ}

theorem Alike.items_eq (h : Alike n n') : n'.items = n.items := by
  induction h with
  | null => rfl
  | leaf => rfl
  | inner _ ih =>
    rw [items, items]
    exact congrArg (List.flatMap · (List.finRange 16)) (funext ih)

theorem Alike.isNull_eq (h : Alike n n') : n'.isNull = n.isNull := by
  cases h with
  | null => rfl
  | leaf => rfl
  | inner => rfl

theorem Alike.depth_eq (h : Alike n n') : n'.depth = n.depth := by
  cases h with
  | null => rfl
  | leaf => rfl
  | @inner v2 =>
    cases v2 with
    | none => rfl
    | some p => rfl

theorem Alike.ordered (h : Alike n n') (ho : Ordered d n) : Ordered d n' := by
  induction h generalizing d with
  | null => exact .null d
  | leaf item type s s' h h' => exact .leaf d item type s' h'
  | @inner v2 s s' h h' br hs hs' cs cs' halike ih =>
    have hp := ho.placed
    have hdepth (i : Fin 16) : childDepth v2 d (cs' i) = childDepth v2 d (cs i) := by
      cases v2 with
      | none => rfl
      | some p => exact (halike i).depth_eq
    refine .inner ⟨hp.depth_lt, ?_, ?_, ?_, ?_, ?_⟩ fun i => hdepth i ▸ ih i (ho.child i)
    · intro p hp'
      refine ⟨(hp.own p hp').1, fun i => ?_⟩
      rw [(halike i).items_eq]
      exact (hp.own p hp').2 i
    · intro i
      rw [(halike i).isNull_eq, hp.branch]
    · intro i
      rw [(halike i).items_eq]
      exact hp.select i
    · intro i j
      rw [(halike i).items_eq, (halike j).items_eq]
      exact hp.agree i j
    · intro i
      rw [(halike i).items_eq, (halike i).isNull_eq]
      exact hp.items_ne i

end

/-! ## Hashes -/

variable {sha : List UInt8 → Hash} {s : UInt32} {ty : TNType} {n : AbstractNode} {f : Table}

theorem alike_flushNode (sha : List UInt8 → Hash) (n : AbstractNode) : Alike n (AbstractNode.flushNode sha n) := by
  induction n with
  | null => exact .null
  | leaf item type s h => exact .leaf item type s 0 h _
  | inner v2 s h br hs cs ih =>
    refine .inner fun i => ?_
    split_ifs
    · exact ih i
    · exact .refl _

/-- A tree without hashes of inner nodes, all of whose nodes belong to the map. -/
inductive Fresh (sha512Half : List UInt8 → Hash) (s : UInt32) (ty : TNType) : AbstractNode → Prop
  | null : Fresh sha512Half s ty .null
  | leaf (item : Item) : Fresh sha512Half s ty (AbstractNode.newLeaf sha512Half item ty s)
  | inner {v2 : Option Prefix} {br : Fin 16 → Bool} {hs : Fin 16 → Hash} {cs : Fin 16 → AbstractNode} :
      (∀ i, br i = !(cs i).isNull) → (∀ i, hs i = 0) → (∀ i, Fresh sha512Half s ty (cs i)) →
      Fresh sha512Half s ty (.inner v2 s 0 br hs cs)

/-- The hashes of a tree are up to date. -/
inductive Hashed (sha512Half : List UInt8 → Hash) (ty : TNType) : AbstractNode → Prop
  | null : Hashed sha512Half ty .null
  | leaf (item : Item) (s : UInt32) : Hashed sha512Half ty (AbstractNode.newLeaf sha512Half item ty s)
  | inner {v2 : Option Prefix} {s : UInt32} {br : Fin 16 → Bool} {hs : Fin 16 → Hash} {cs : Fin 16 → AbstractNode} :
      (∀ i, br i = !(cs i).isNull) → (∀ i, hs i = (cs i).hash) → (∀ i, Hashed sha512Half ty (cs i)) →
      Hashed sha512Half ty (.inner v2 s (AbstractNode.innerHash sha512Half v2 br hs) br hs cs)

section
variable {v2 : Option Prefix} {h : Hash} {br : Fin 16 → Bool} {hs : Fin 16 → Hash} {cs : Fin 16 → AbstractNode}

section

variable (hn : Hashed sha ty (.inner v2 s h br hs cs)) (i : Fin 16)
include hn

theorem Hashed.child : Hashed sha ty (cs i) := by
  cases hn with
  | inner _ _ hc => exact hc i

theorem Hashed.hashes_eq : hs i = (cs i).hash := by
  cases hn with
  | inner _ hhash _ => exact hhash i

theorem Hashed.branch_eq : br i = !(cs i).isNull := by
  cases hn with
  | inner hbr _ _ => exact hbr i

end

end

theorem Fresh.seq_eq (h : Fresh sha s ty n) (hn : n.isNull = false) : n.seq = s := by
  cases h with
  | null => cases hn
  | leaf => rfl
  | inner => rfl

theorem hash_of_isNull (hn : n.isNull = true) : n.hash = 0 := by
  cases n with
  | null => rfl
  | leaf => cases hn
  | inner => cases hn

/-- **`walkSubTree` sets the hashes.** -/
theorem Fresh.hashed_flushNode (h : Fresh sha s ty n) (hs : s ≠ 0) : Hashed sha ty (AbstractNode.flushNode sha n) := by
  induction h with
  | null => exact .null
  | leaf item => exact .leaf item 0
  | @inner v2 br hashes cs hbr hzero hcs ih =>
    have hchild (i : Fin 16) : (if br i = true ∧ (cs i).seq ≠ 0 then AbstractNode.flushNode sha (cs i) else cs i) =
        AbstractNode.flushNode sha (cs i) := by
      cases hn : (cs i).isNull with
      | false => exact if_pos ⟨by rw [hbr, hn, Bool.not_false], by rwa [(hcs i).seq_eq hn]⟩
      | true =>
        have hno : ¬(br i = true ∧ (cs i).seq ≠ 0) := by simp [hbr, hn]
        rw [if_neg hno]
        cases hc : cs i with
        | null => rfl
        | leaf => simp [hc, isNull] at hn
        | inner => simp [hc, isNull] at hn
    rw [AbstractNode.flushNode]
    simp only [hchild]
    refine .inner (fun i => ?_) (fun i => ?_) ih
    · rw [(alike_flushNode sha (cs i)).isNull_eq, hbr]
    · split_ifs with hnull
      · rw [hzero, hash_of_isNull hnull]
      · rfl

/-- A complete map that holds the items of a table. -/
structure Complete (sha : List UInt8 → Hash) (ty : TNType) (root : AbstractNode) (f : Table) : Prop where
  ne : root.isNull = false
  ordered : Ordered 0 root
  hashed : Hashed sha ty root
  mem_iff : ∀ x : Item, x ∈ root.items ↔ f x.key = some x.data

theorem Complete.of_flushNode (h : Fresh sha s ty n) (hs : s ≠ 0) (hne : n.isNull = false) (ho : Ordered 0 n)
    (hmem : ∀ x : Item, x ∈ n.items ↔ f x.key = some x.data) : Complete sha ty (AbstractNode.flushNode sha n) f where
  ne := by rw [(alike_flushNode sha n).isNull_eq, hne]
  ordered := (alike_flushNode sha n).ordered ho
  hashed := h.hashed_flushNode hs
  mem_iff := by
    rw [(alike_flushNode sha n).items_eq]
    exact hmem

theorem Fresh.flushNode_empty {v2 : Option Prefix} {br : Fin 16 → Bool} {hs : Fin 16 → Hash} {cs : Fin 16 → AbstractNode}
    (h : Fresh sha s ty (.inner v2 s 0 br hs cs)) (hno : ¬∃ i, br i = true) :
    AbstractNode.flushNode sha (.inner v2 s 0 br hs cs) = .inner v2 0 0 (fun _ => false) (fun _ => 0) fun _ => .null := by
  cases h with
  | inner hbr hzero hcs =>
    obtain rfl : br = fun _ => false := funext fun i => by simpa using not_exists.mp hno i
    obtain rfl : hs = fun _ => 0 := funext hzero
    obtain rfl : cs = fun _ => .null := by
      funext i
      have hnull := hbr i
      cases hc : cs i with
      | null => rfl
      | leaf => simp [hc, isNull] at hnull
      | inner => simp [hc, isNull] at hnull
    simp [AbstractNode.flushNode, AbstractNode.innerHash, Content.updateHash, isNull]

/-! ## Version 1 -/

theorem Sound.fresh {n : Node} (h : Sound sha s ty n) : Fresh sha s ty n.abs := by
  induction h with
  | null => exact .null
  | leaf item => exact .leaf item
  | inner hbr hzero _ ih => exact .inner (fun i => by rw [hbr, isNull_abs]) hzero ih

theorem seq_abs (n : Node) : n.abs.seq = n.seq := by
  cases n with
  | null => rfl
  | leaf => rfl
  | inner => rfl

theorem hash_abs (n : Node) : n.abs.hash = n.hash := by
  cases n with
  | null => rfl
  | leaf => rfl
  | inner => rfl

theorem abs_flushNode (sha : List UInt8 → Hash) (n : Node) :
    (ShaMap.flushNode sha n).abs = AbstractNode.flushNode sha n.abs := by
  induction n with
  | null => rfl
  | leaf item type s h => rfl
  | inner s h br hs cs ih =>
    have hchild (i : Fin 16) : (if br i = true ∧ (cs i).abs.seq ≠ 0 then AbstractNode.flushNode sha (cs i).abs
        else (cs i).abs) = (if br i = true ∧ (cs i).seq ≠ 0 then ShaMap.flushNode sha (cs i) else cs i).abs := by
      rw [seq_abs, ← ih, apply_ite Node.abs]
    rw [ShaMap.flushNode, Node.abs, Node.abs, AbstractNode.flushNode]
    simp only [hchild, isNull_abs, hash_abs]
    rfl

theorem SHAMap.Ok.root_getHash {m : SHAMap} (h : m.Ok sha ty) :
    (m.getHash sha).2.root.abs = AbstractNode.flushNode sha m.root.abs := by
  obtain ⟨c, hc, -⟩ := h.top.sorted
  have hsound := h.top.sound
  have hfresh := hsound.fresh
  rw [getHash, unshare]
  generalize m.root = r at *
  cases hsound with
  | null => cases hc
  | leaf => cases hc
  | @inner br hashes cs hbr hzero hcs =>
    have hunset : (Node.inner m.seq 0 br hashes cs).hash = 0 := rfl
    rw [if_pos hunset]
    simp only [if_neg h.seq_ne]
    by_cases hex : ∃ i, br i = true
    · rw [if_pos hex, abs_flushNode]
    · rw [if_neg hex]
      exact (hfresh.flushNode_empty hex).symm

theorem SHAMap.Holds.mem_items {m : SHAMap} (h : m.Holds sha ty f) (x : Item) :
    x ∈ m.root.abs.items ↔ f x.key = some x.data := mem_items_abs.trans (h.mem_iff x)

theorem SHAMap.Ok.root_abs_ne {m : SHAMap} (h : m.Ok sha ty) : m.root.abs.isNull = false := by
  rw [isNull_abs, h.top.root_ne]

/-- **The map of version 1 after a run.** -/
theorem SHAMap.Holds.complete {m : SHAMap} (h : m.Holds sha ty f) : Complete sha ty (m.getHash sha).2.root.abs f := by
  rw [h.ok.root_getHash]
  exact .of_flushNode h.ok.top.sound.fresh h.ok.seq_ne h.ok.root_abs_ne h.ok.ordered h.mem_items

/-! ## Version 2 -/

theorem Compressed.fresh {d : ℕ} (h : Compressed sha s ty d n) : Fresh sha s ty n := by
  induction h with
  | null => exact .null
  | leaf _ item => exact .leaf item
  | inner hfits _ _ _ ih => exact .inner hfits.branch hfits.hashes ih

theorem SHAMapV2.Ok.fresh {m : SHAMapV2} (h : m.Ok sha ty) : Fresh sha m.seq ty m.root := by
  obtain ⟨br, hs, cs, hroot, hbody⟩ := h.root
  rw [hroot]
  exact .inner hbody.branch hbody.hashes fun i => (hbody.child i).fresh

theorem SHAMapV2.Ok.root_ne {m : SHAMapV2} (h : m.Ok sha ty) : m.root.isNull = false := by
  obtain ⟨br, hs, cs, hroot, -⟩ := h.root
  rw [hroot]
  rfl

theorem SHAMapV2.Ok.root_getHash {m : SHAMapV2} (h : m.Ok sha ty) :
    (m.getHash sha).2.root = AbstractNode.flushNode sha m.root := by
  have hfresh := h.fresh
  obtain ⟨br, hs, cs, hroot, -⟩ := h.root
  rw [hroot] at hfresh
  have hunset : (AbstractNode.inner (some ⟨0, 0⟩) m.seq 0 br hs cs).hash = 0 := rfl
  rw [getHash, unshare, hroot, if_pos hunset]
  simp only [if_neg h.seq_ne]
  by_cases hex : ∃ i, br i = true
  · rw [if_pos hex]
  · rw [if_neg hex]
    exact (hfresh.flushNode_empty hex).symm

/-- **The map of version 2 after a run.** -/
theorem SHAMapV2.Holds.complete {m : SHAMapV2} (h : m.Holds sha ty f) : Complete sha ty (m.getHash sha).2.root f := by
  rw [h.ok.root_getHash]
  exact .of_flushNode h.ok.fresh h.ok.seq_ne h.ok.root_ne h.ok.ordered h.mem_iff

/-! ## Iteration -/

theorem Complete.iterates (h : Complete sha ty n f) : Iterates n f := h.ordered.iterates h.ne h.mem_iff

/-- **Iteration over maps of both versions**, before and after their hashes are computed. -/
theorem run_iterates (sha : List UInt8 → Hash) (isTransaction hasMeta : Bool) (ops : List SHAMap.Op) :
    (∃ m, SHAMap.new.run sha isTransaction hasMeta ops = some ((Table.empty.run ops).1, m) ∧
      Iterates m.root.abs (Table.empty.run ops).2 ∧ Iterates (m.getHash sha).2.root.abs (Table.empty.run ops).2) ∧
    ∃ m, SHAMapV2.new.run sha isTransaction hasMeta ops = some ((Table.empty.run ops).1, m) ∧
      Iterates m.root (Table.empty.run ops).2 ∧ Iterates (m.getHash sha).2.root (Table.empty.run ops).2 := by
  constructor
  · obtain ⟨m, hrun, h⟩ := (SHAMap.holds_new sha).run ops
    exact ⟨m, hrun, h.ok.ordered.iterates h.ok.root_abs_ne h.mem_items, h.complete.iterates⟩
  · obtain ⟨m, hrun, h⟩ := (SHAMapV2.holds_new sha).run ops
    exact ⟨m, hrun, h.ok.ordered.iterates h.ok.root_ne h.mem_iff, h.complete.iterates⟩

end ScfChain.ShaMap
