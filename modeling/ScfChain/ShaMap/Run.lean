import ScfChain.ShaMap.Hash

/-!
# Runs of a `SHAMap`

A map that is changed by `addGiveItem`, `delItem` and `updateGiveItem` alone behaves as a table of items (`Table`): no
operation throws, the results agree, and tree and root hash depend only on the table (`run_refines`). The root hash
determines the table as far as `sha512Half` is free of collisions, except that the key of a transaction without metadata
is not hashed (`getHash_ignores_key`).
-/

namespace ScfChain.ShaMap

open Data Node SHAMap

/-- A table from keys to the data of items. -/
abbrev Table := Hash → Option (List UInt8)

namespace Table

def empty : Table := fun _ => none

def step (f : Table) : Op → Bool × Table
  | .add item => if (f item.key).isSome then (false, f) else (true, Function.update f item.key (some item.data))
  | .del key => if (f key).isSome then (true, Function.update f key none) else (false, f)
  | .update item => if (f item.key).isSome then (true, Function.update f item.key (some item.data)) else (false, f)

def run (f : Table) : List Op → List Bool × Table
  | [] => ([], f)
  | op :: ops => ((f.step op).1 :: ((f.step op).2.run ops).1, ((f.step op).2.run ops).2)

end Table

namespace SHAMap

variable {sha : List UInt8 → Hash} {ty : TNType} {m m' : SHAMap} {f f' : Table} {isTransaction hasMeta : Bool}

/-- The map holds the items of the table. -/
structure Holds (sha : List UInt8 → Hash) (ty : TNType) (m : SHAMap) (f : Table) : Prop where
  ok : m.Ok sha ty
  mem_iff : ∀ x : Item, Radix.Mem x m.root.shape ↔ f x.key = some x.data

theorem holds_new (sha : List UInt8 → Hash) : Holds sha ty new Table.empty := by
  refine ⟨⟨by decide, sound_newInner, _, shape_newInner, Radix.sorted_empty 0⟩, fun x => ?_⟩
  rw [new, shape_newInner, Radix.mem_node_iff]
  exact iff_of_false (fun ⟨_, h⟩ => Radix.not_mem_empty h) nofun

/-- The table lists the items that satisfy `P`. -/
def Lists (f : Table) (P : Item → Prop) : Prop := ∀ x : Item, P x ↔ f x.key = some x.data

namespace Lists
variable {P : Item → Prop} {item x : Item}

theorem not_mem (h : Lists f P) {key : Hash} (hf : f key = none) : ∀ x, P x → x.key ≠ key := by
  rintro x hx rfl
  rw [(h x).mp hx] at hf
  cases hf

theorem update_eq_some_iff : Function.update f item.key (some item.data) x.key = some x.data ↔
    x = item ∨ f x.key = some x.data ∧ x.key ≠ item.key := by
  by_cases hk : x.key = item.key
  · rw [hk, Function.update_self, Option.some.injEq]
    constructor
    · exact fun hd => Or.inl (Item.ext hk hd.symm)
    · rintro (rfl | ⟨-, hne⟩)
      · rfl
      · exact absurd rfl hne
  · rw [Function.update_of_ne hk]
    constructor
    · exact fun hf => Or.inr ⟨hf, hk⟩
    · rintro (rfl | ⟨hf, -⟩)
      · exact absurd rfl hk
      · exact hf

theorem step_add (h : Lists f P) (item : Item) : (∃ x, P x ∧ x.key = item.key ∧ f.step (.add item) = (false, f)) ∨
    (∀ x, P x → x.key ≠ item.key) ∧ ∃ f', f.step (.add item) = (true, f') ∧
      ∀ {P'}, (∀ y, P' y ↔ y = item ∨ P y) → Lists f' P' := by
  cases hf : f item.key with
  | some data => exact .inl ⟨⟨_, data⟩, (h _).mpr hf, rfl, if_pos (by rw [hf]; rfl)⟩
  | none =>
    refine .inr ⟨h.not_mem hf, _, if_neg (by simp [hf]), fun hP' y => ?_⟩
    rw [hP', update_eq_some_iff, h]
    exact or_congr_right ⟨fun hy => ⟨hy, h.not_mem hf y ((h y).mpr hy)⟩, fun hy => hy.1⟩

theorem step_del (h : Lists f P) (key : Hash) : ((∀ x, P x → x.key ≠ key) ∧ f.step (.del key) = (false, f)) ∨
    ∃ x f', P x ∧ x.key = key ∧ f.step (.del key) = (true, f') ∧ ∀ {P'}, (∀ y, P' y ↔ P y ∧ y ≠ x) → Lists f' P' := by
  cases hf : f key with
  | none => exact .inl ⟨h.not_mem hf, if_neg (by simp [hf])⟩
  | some data =>
    refine .inr ⟨⟨key, data⟩, _, (h _).mpr hf, rfl, if_pos (by rw [hf]; rfl), fun hP' y => ?_⟩
    rw [hP', h]
    by_cases hk : y.key = key
    · rw [hk, Function.update_self, hf]
      exact iff_of_false (fun ⟨hd, hne⟩ => hne (Item.ext hk (Option.some.inj hd).symm)) nofun
    · rw [Function.update_of_ne hk]
      exact and_iff_left fun hy => hk (by rw [hy])

theorem step_update (h : Lists f P) (item : Item) :
    ((∀ x, P x → x.key ≠ item.key) ∧ f.step (.update item) = (false, f)) ∨
    ∃ x f', P x ∧ item.key = x.key ∧ f.step (.update item) = (true, f') ∧
      ∀ {P'}, (∀ y, P' y ↔ y = item ∨ P y ∧ y ≠ x) → Lists f' P' := by
  cases hf : f item.key with
  | none => exact .inl ⟨h.not_mem hf, if_neg (by simp [hf])⟩
  | some data =>
    refine .inr ⟨⟨_, data⟩, _, (h _).mpr hf, rfl, if_pos (by rw [hf]; rfl), fun hP' y => ?_⟩
    rw [hP', update_eq_some_iff, h]
    refine or_congr_right (and_congr_right fun hy => not_congr ⟨fun heq => by rw [heq], fun hk => ?_⟩)
    rw [hk, hf] at hy
    exact Item.ext hk (Option.some.inj hy).symm

end Lists

theorem Holds.peekItem_eq (h : Holds sha ty m f) (key : Hash) : m.peekItem key = some ((f key).map (Item.mk key)) := by
  cases hf : f key with
  | none => exact peekItem_of_not_mem h.ok (Lists.not_mem h.mem_iff hf)
  | some data => exact peekItem_of_mem h.ok ((h.mem_iff ⟨key, data⟩).mpr hf)

/-- **One operation.** -/
theorem Holds.step (h : Holds sha (leafType isTransaction hasMeta) m f) (op : Op) :
    ∃ m', m.step sha isTransaction hasMeta op = some ((f.step op).1, m') ∧
      Holds sha (leafType isTransaction hasMeta) m' (f.step op).2 ∧ ((f.step op).1 = false → m' = m) := by
  cases op with
  | add item =>
    obtain ⟨x, hx, hkey, hf⟩ | ⟨hno, f', hf, hlists⟩ := Lists.step_add h.mem_iff item <;> rw [hf]
    · exact ⟨m, addGiveItem_of_mem h.ok hx hkey, h, fun _ => rfl⟩
    · obtain ⟨m', hadd, hok, hmem⟩ := addGiveItem_of_not_mem h.ok hno
      exact ⟨m', hadd, ⟨hok, hlists hmem⟩, nofun⟩
  | del key =>
    obtain ⟨hno, hf⟩ | ⟨x, f', hx, rfl, hf, hlists⟩ := Lists.step_del h.mem_iff key <;> rw [hf]
    · exact ⟨m, delItem_of_not_mem h.ok hno, h, fun _ => rfl⟩
    · obtain ⟨m', hdel, hok, hmem⟩ := delItem_of_mem h.ok hx
      exact ⟨m', hdel, ⟨hok, hlists hmem⟩, nofun⟩
  | update item =>
    obtain ⟨hno, hf⟩ | ⟨x, f', hx, hkey, hf, hlists⟩ := Lists.step_update h.mem_iff item <;> rw [hf]
    · exact ⟨m, updateGiveItem_of_not_mem h.ok hno, h, fun _ => rfl⟩
    · obtain ⟨m', hup, hok, hmem⟩ := updateGiveItem_of_mem h.ok hx hkey
      exact ⟨m', hup, ⟨hok, hlists hmem⟩, nofun⟩

theorem Holds.run (h : Holds sha (leafType isTransaction hasMeta) m f) : ∀ ops : List Op,
    ∃ m', m.run sha isTransaction hasMeta ops = some ((f.run ops).1, m') ∧
      Holds sha (leafType isTransaction hasMeta) m' (f.run ops).2 := by
  intro ops
  induction ops generalizing m f with
  | nil => exact ⟨m, rfl, h⟩
  | cons op ops ih =>
    obtain ⟨m₁, hstep, h₁, -⟩ := h.step op
    obtain ⟨m₂, hrun, h₂⟩ := ih h₁
    refine ⟨m₂, ?_, h₂⟩
    rw [SHAMap.run, hstep]
    simp only [Option.bind_eq_bind, Option.bind_some, hrun]
    rfl

/-! ## Main result -/

theorem Holds.shape_eq (h : Holds sha ty m f) (h' : Holds sha ty m' f) : m'.root.shape = m.root.shape := by
  obtain ⟨c, hc, hsort⟩ := h.ok.top.sorted
  obtain ⟨c', hc', hsort'⟩ := h'.ok.top.sorted
  have hmem : ∀ x, Radix.Mem x (.node c') ↔ Radix.Mem x (.node c) := fun x => by
    rw [← hc, ← hc', h.mem_iff, h'.mem_iff]
  rw [hc, hc', hsort'.unique hsort hmem]

/-- `sha512Half` has no collision and no zero among what is hashed for the two trees. -/
structure CollisionFree (sha : List UInt8 → Hash) (ty ty' : TNType) (t t' : Radix (Fin 16) Item) : Prop where
  inj : ∀ a ∈ contents sha ty t, ∀ b ∈ contents sha ty' t', sha a = sha b → a = b
  ne_zero : ∀ b ∈ contents sha ty t, sha b ≠ 0
  ne_zero' : ∀ b ∈ contents sha ty' t', sha b ≠ 0

/-- **A `SHAMap` is a table of items, and its root hash stands for the table.** -/
theorem run_refines (sha : List UInt8 → Hash) (isTransaction hasMeta : Bool) (ops : List Op) :
    ∃ m, new.run sha isTransaction hasMeta ops = some ((Table.empty.run ops).1, m) ∧
      (∀ key, m.peekItem key = some (((Table.empty.run ops).2 key).map (Item.mk key)) ∧
        m.hasItem key = some ((Table.empty.run ops).2 key).isSome) ∧
      (∀ op m', m.step sha isTransaction hasMeta op = some (false, m') → m' = m) ∧
      (∀ ops' oks m', new.run sha isTransaction hasMeta ops' = some (oks, m') →
        (Table.empty.run ops').2 = (Table.empty.run ops).2 →
        m'.root.shape = m.root.shape ∧ (m'.getHash sha).1 = (m.getHash sha).1) ∧
      ∀ isTransaction' hasMeta' ops' oks m', new.run sha isTransaction' hasMeta' ops' = some (oks, m') →
        CollisionFree sha (leafType isTransaction hasMeta) (leafType isTransaction' hasMeta') m.root.shape
          m'.root.shape →
        KeysHashed sha (leafType isTransaction hasMeta) m.root.shape →
        KeysHashed sha (leafType isTransaction' hasMeta') m'.root.shape →
        (m'.getHash sha).1 = (m.getHash sha).1 → ∀ key, m'.peekItem key = m.peekItem key := by
  obtain ⟨m, hrun, h⟩ := (holds_new sha).run ops
  refine ⟨m, hrun, fun key => ⟨h.peekItem_eq key, ?_⟩, fun op m' hop => ?_, fun ops' oks m' hrun' htab => ?_, ?_⟩
  · rw [hasItem, h.peekItem_eq, Option.map_some, Option.isSome_map]
  · obtain ⟨m₁, hstep, -, hsame⟩ := h.step op
    rw [hstep, Option.some.injEq, Prod.mk.injEq] at hop
    rw [← hop.2, hsame hop.1]
  · obtain ⟨m₁, hrun₁, h₁⟩ := (holds_new sha).run ops'
    rw [hrun₁, Option.some.injEq, Prod.mk.injEq] at hrun'
    obtain rfl := hrun'.2
    have hshape := h.shape_eq (htab ▸ h₁)
    exact ⟨hshape, by rw [getHash_eq h₁.ok, getHash_eq h.ok, hshape]⟩
  · intro isTransaction' hasMeta' ops' oks m' hrun' hfree hkeys hkeys' hhash key
    obtain ⟨m₁, hrun₁, h₁⟩ := (holds_new sha).run ops'
    rw [hrun₁, Option.some.injEq, Prod.mk.injEq] at hrun'
    obtain rfl := hrun'.2
    rw [getHash_eq h₁.ok, getHash_eq h.ok] at hhash
    have hmem := mem_iff_of_treeHash_eq hfree.inj hfree.ne_zero hfree.ne_zero' hkeys hkeys' hhash.symm
    have htab : (Table.empty.run ops').2 key = (Table.empty.run ops).2 key := by
      refine Option.ext fun data => ?_
      have := hmem ⟨key, data⟩
      rw [h.mem_iff, h₁.mem_iff] at this
      exact this.symm
    rw [h₁.peekItem_eq, h.peekItem_eq, htab]

/-- `sha512Half` of the two leaves and of the root with the first of them. -/
def sampleHash (bytes : List UInt8) : Hash :=
  if bytes = (Item.mk (0x10 <<< 248) [1, 2, 3, 4, 5, 6, 7, 8, 9, 10, 11, 12]).preimage .accountState then
    0x92106f38622fb06175bb6e4351e498da4a1b77f33389485839e4357b90107c9a
  else if bytes = (Item.mk (0x12 <<< 248) [1, 2, 3, 4, 5, 6, 7, 8, 9, 10, 11, 12]).preimage .accountState then
    0x2843bbfc3b59638153b540c2aded7e130f57895c1e490283564094232fab8aa8
  else if bytes = innerPreimage fun i =>
      if i.val = 1 then 0x92106f38622fb06175bb6e4351e498da4a1b77f33389485839e4357b90107c9a else 0 then
    0x1e7a2998def029030b62ced7b3d2d1885e948369942fc4f060029ba5afd5c52e
  else 0

/-- An item next to which another came and went. -/
theorem run_refines_detour :
    let a : Item := ⟨0x10 <<< 248, [1, 2, 3, 4, 5, 6, 7, 8, 9, 10, 11, 12]⟩
    let b : Item := ⟨0x12 <<< 248, [1, 2, 3, 4, 5, 6, 7, 8, 9, 10, 11, 12]⟩
    ∃ m m', new.run sampleHash false false [.add b, .add a, .add a, .del b.key] = some ([true, true, false, true], m) ∧
      new.run sampleHash false false [.add a] = some ([true], m') ∧
      CollisionFree sampleHash .accountState .accountState m.root.shape m'.root.shape ∧
      m'.root.shape = m.root.shape ∧ (m'.getHash sampleHash).1 = (m.getHash sampleHash).1 ∧
      ∀ key, m'.peekItem key = m.peekItem key := by
  intro a b
  obtain ⟨m, hm, -, -, hsame, hconv⟩ := run_refines sampleHash false false [.add b, .add a, .add a, .del b.key]
  obtain ⟨m', hm', -⟩ := run_refines sampleHash false false [.add a]
  have htab : (Table.empty.run [.add a]).2 = (Table.empty.run [.add b, .add a, .add a, .del b.key]).2 := by
    have hne : a.key ≠ b.key := by decide
    have hadd : (Table.empty.run [.add b, .add a, .add a, .del b.key]).2 =
        Function.update (Function.update (Function.update Table.empty b.key (some b.data)) a.key (some a.data)) b.key
          none := by rfl
    rw [hadd, Function.update_comm hne, Function.update_idem]
    exact congrArg (Function.update · a.key (some a.data)) (Function.update_eq_self b.key Table.empty).symm
  obtain ⟨hshape, hhash⟩ := hsame _ _ m' hm' htab
  have hfree : CollisionFree sampleHash .accountState .accountState m.root.shape m'.root.shape := by
    obtain rfl : ((new.run sampleHash false false [.add a]).getD ([], new)).2 = m' := by rw [hm']; rfl
    rw [← hshape]
    constructor <;> decide +kernel
  exact ⟨m, m', hm, hm', hfree, hshape, hhash, hconv false false _ _ m' hm' hfree nofun nofun hhash⟩

theorem treeHash_update_leaf {c : Fin 16 → Radix (Fin 16) Item} {i : Fin 16} {item item' : Item}
    (h : item.preimage ty = item'.preimage ty) :
    treeHash sha ty (.node (Function.update c i (.leaf item))) =
      treeHash sha ty (.node (Function.update c i (.leaf item'))) := by
  have hempty : ∀ j, (Function.update c i (.leaf item) j).isEmpty = (Function.update c i (.leaf item') j).isEmpty := by
    intro j
    by_cases hj : j = i
    · rw [hj, Function.update_self, Function.update_self]
      rfl
    · rw [Function.update_of_ne hj, Function.update_of_ne hj]
  have hhash : ∀ j, treeHash sha ty (Function.update c i (.leaf item) j) =
      treeHash sha ty (Function.update c i (.leaf item') j) := by
    intro j
    by_cases hj : j = i
    · rw [hj, Function.update_self, Function.update_self]
      exact congrArg sha h
    · rw [Function.update_of_ne hj, Function.update_of_ne hj]
  simp only [treeHash, hempty, hhash]

/-- The key of a transaction without metadata is not hashed: for every hash function, two maps with one item each, of the
same data and of keys that begin alike, have the same hash. -/
theorem getHash_eq_of_data_eq (sha : List UInt8 → Hash) {key key' : Hash} {data : List UInt8}
    (h : selectBranch 0 key = selectBranch 0 key') :
    ∃ m m', new.run sha true false [.add ⟨key, data⟩] = some ([true], m) ∧
      new.run sha true false [.add ⟨key', data⟩] = some ([true], m') ∧ (m.getHash sha).1 = (m'.getHash sha).1 ∧
      (∀ k, m.peekItem k = some ((Function.update Table.empty key (some data) k).map (Item.mk k))) ∧
      ∀ k, m'.peekItem k = some ((Function.update Table.empty key' (some data) k).map (Item.mk k)) := by
  obtain ⟨m, hm, hold⟩ := (holds_new sha).run [.add ⟨key, data⟩]
  obtain ⟨m', hm', hold'⟩ := (holds_new sha).run [.add ⟨key', data⟩]
  refine ⟨m, m', hm, hm', ?_, hold.peekItem_eq, hold'.peekItem_eq⟩
  rw [getHash_eq hold.ok, getHash_eq hold'.ok]
  cases hm
  cases hm'
  have hshape := fun item : Item => shape_setChild (shape_newInner (s := 1)) (selectBranch 0 item.key)
    (newLeaf sha item .transactionNM 1)
  have hleaf : (Item.mk key data).preimage .transactionNM = (Item.mk key' data).preimage .transactionNM := rfl
  refine (congrArg (treeHash sha .transactionNM) (hshape ⟨key, data⟩)).trans ?_
  rw [h]
  exact (treeHash_update_leaf hleaf).trans (congrArg (treeHash sha .transactionNM) (hshape ⟨key', data⟩)).symm

/-- `sha512Half` of a transaction leaf and of a root with it on the first branch. -/
def sampleTxHash (bytes : List UInt8) : Hash :=
  if bytes = (Item.mk 0 [1, 2, 3, 4, 5, 6, 7, 8, 9, 10, 11, 12]).preimage .transactionNM then
    0x8d3e86df0bb54de1ca5edd19a7fe40f867c6e8f582c10f1a4070d9b1ee29860a
  else if bytes = innerPreimage fun i =>
      if i.val = 0 then 0x8d3e86df0bb54de1ca5edd19a7fe40f867c6e8f582c10f1a4070d9b1ee29860a else 0 then
    0x581976d4bbc3f4a9559874f8a1344105795b87ef46835506409743ed0fc2b226
  else 0

/-- Two maps with the same hash and different items. -/
theorem getHash_ignores_key :
    ∃ m m', new.run sampleTxHash true false [.add ⟨0, [1, 2, 3, 4, 5, 6, 7, 8, 9, 10, 11, 12]⟩] = some ([true], m) ∧
      new.run sampleTxHash true false [.add ⟨1, [1, 2, 3, 4, 5, 6, 7, 8, 9, 10, 11, 12]⟩] = some ([true], m') ∧
      (m.getHash sampleTxHash).1 = (m'.getHash sampleTxHash).1 ∧
      m.peekItem 0 = some (some ⟨0, [1, 2, 3, 4, 5, 6, 7, 8, 9, 10, 11, 12]⟩) ∧ m'.peekItem 0 = some none := by
  obtain ⟨m, m', hm, hm', hhash, hpeek, hpeek'⟩ := getHash_eq_of_data_eq sampleTxHash
    (show selectBranch 0 0 = selectBranch 0 1 by decide)
  exact ⟨m, m', hm, hm', hhash, hpeek 0, hpeek' 0⟩

end SHAMap

end ScfChain.ShaMap
