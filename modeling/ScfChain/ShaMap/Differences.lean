import ScfChain.ShaMap.Compare

/-!
# The table of differences

`compare` fills a table with what `compareEvents` lists, up to `maxCount` entries. The table is `Exact` if it has the keys
whose items differ, each once and with the right items.

* `compare_v1` : maps of version 1.
* `compare_v2_iff` : maps of version 2, for which it depends on the keys that both maps have.
-/

namespace ScfChain.ShaMap

open Data AbstractNode

/-- The keys whose items differ between two tables. -/
def differing (f f' : Table) : Set Hash := {key | f key ≠ f' key}

theorem mem_differing {f f' : Table} {key : Hash} : key ∈ differing f f' ↔ f key ≠ f' key := Iff.rfl

/-- The items of both tables for a key. -/
def itemPair (f f' : Table) (key : Hash) : DeltaRef := ((f key).map (Item.mk key), (f' key).map (Item.mk key))

/-- The table has each key whose items differ once, with the item of the first map and that of the second. -/
structure Exact (f f' : Table) (differences : Delta) : Prop where
  nodup : (differences.map Prod.fst).Nodup
  mem_iff : ∀ key r, (key, r) ∈ differences ↔ key ∈ differing f f' ∧ r = itemPair f f' key

/-! ## Filling the table -/

theorem foldlM_report (l : List (Hash × DeltaRef)) (p : Progress) (hmax : 1 ≤ p.maxCount) : l.foldlM report p =
    if (l.length : ℤ) < p.maxCount then .ok ⟨l.foldl Delta.insert p.differences, p.maxCount - l.length⟩
    else .error (.full ((l.take p.maxCount.toNat).foldl Delta.insert p.differences)) := by
  induction l generalizing p with
  | nil =>
    have hlt : (([] : List (Hash × DeltaRef)).length : ℤ) < p.maxCount := by
      rw [List.length_nil]
      omega
    rw [if_pos hlt, List.foldl_nil, List.length_nil, Nat.cast_zero, sub_zero]
    rfl
  | cons e l ih =>
    obtain ⟨m, hm⟩ : ∃ m : ℕ, p.maxCount = m + 1 := ⟨(p.maxCount - 1).toNat, by omega⟩
    have htake : (e :: l).take p.maxCount.toNat = e :: l.take m := by
      rw [hm, show ((m : ℤ) + 1).toNat = m + 1 by omega, List.take_succ_cons]
    have hlength : (((e :: l).length : ℕ) : ℤ) = l.length + 1 := by
      rw [List.length_cons]
      push_cast
      rfl
    rw [List.foldlM_cons, report, htake, hlength, List.foldl_cons, List.foldl_cons]
    by_cases hstop : p.maxCount - 1 ≤ 0
    · obtain rfl : m = 0 := by omega
      have hlt : ¬(l.length : ℤ) + 1 < p.maxCount := by omega
      rw [if_pos hstop, if_neg hlt, List.take_zero]
      rfl
    · have htail := ih ⟨p.differences.insert e, p.maxCount - 1⟩ (by show (1 : ℤ) ≤ p.maxCount - 1; omega)
      have hcount : (p.maxCount - 1).toNat = m := by omega
      simp only [hcount] at htail
      rw [if_neg hstop]
      refine htail.trans ?_
      by_cases hlt : (l.length : ℤ) < p.maxCount - 1
      · have hlt' : (l.length : ℤ) + 1 < p.maxCount := by omega
        rw [if_pos hlt, if_pos hlt', show p.maxCount - 1 - (l.length : ℤ) = p.maxCount - (l.length + 1) by omega]
      · have hlt' : ¬(l.length : ℤ) + 1 < p.maxCount := by omega
        rw [if_neg hlt, if_neg hlt']

theorem foldl_insert_eq {l : List (Hash × DeltaRef)} {differences : Delta}
    (hnodup : ((differences ++ l).map Prod.fst).Nodup) : l.foldl Delta.insert differences = differences ++ l := by
  induction l generalizing differences with
  | nil => rw [List.append_nil, List.foldl_nil]
  | cons e l ih =>
    have hnew : e.1 ∉ differences.map Prod.fst := by
      rw [List.map_append, List.map_cons] at hnodup
      intro hmem
      exact (List.disjoint_of_nodup_append hnodup) hmem List.mem_cons_self
    rw [List.foldl_cons, Delta.insert, if_neg hnew, ih (by rwa [List.append_assoc]), List.append_assoc]
    rfl

theorem mem_foldl_insert {l : List (Hash × DeltaRef)} {differences : Delta} {e : Hash × DeltaRef}
    (he : e ∈ l.foldl Delta.insert differences) : e ∈ differences ∨ e ∈ l := by
  induction l generalizing differences with
  | nil => exact .inl he
  | cons e' l ih =>
    rw [List.foldl_cons] at he
    rcases ih he with hin | hin
    · rw [Delta.insert] at hin
      split_ifs at hin
      · exact .inl hin
      · rcases List.mem_append.mp hin with hin | hin
        · exact .inl hin
        · exact .inr (List.mem_singleton.mp hin ▸ List.mem_cons_self)
    · exact .inr (List.mem_cons_of_mem e' hin)

theorem key_mem_foldl_insert {key : Hash} {l : List (Hash × DeltaRef)} {differences : Delta}
    (hkey : key ∈ (differences ++ l).map Prod.fst) : key ∈ (l.foldl Delta.insert differences).map Prod.fst := by
  induction l generalizing differences with
  | nil => rwa [List.append_nil] at hkey
  | cons e l ih =>
    rw [List.foldl_cons]
    apply ih
    rw [List.map_append, List.map_cons, List.mem_append, List.mem_cons] at hkey
    rw [List.map_append, List.mem_append, Delta.insert]
    split_ifs with hmem
    · rcases hkey with hkey | rfl | hkey
      · exact .inl hkey
      · exact .inl hmem
      · exact .inr hkey
    · rw [List.map_append, List.map_singleton, List.mem_append, List.mem_singleton]
      tauto

section
variable {sha : List UInt8 → Hash} {ty : TNType} {n n' : AbstractNode} {f f' : Table}

theorem Complete.whole (h : Complete sha ty n f) : Whole sha ty 0 n := ⟨h.ne, h.hashed, h.ordered⟩

theorem Complete.find_eq (h : Complete sha ty n f) (key : Hash) : n.find key = (f key).map (Item.mk key) := by
  refine (h.ordered.lookup key).unique fun x => ?_
  rw [Option.map_eq_some_iff, h.mem_iff]
  constructor
  · rintro ⟨data, hdata, rfl⟩
    exact ⟨hdata, rfl⟩
  · rintro ⟨hdata, rfl⟩
    exact ⟨x.data, hdata, rfl⟩

theorem item_eq_iff {key : Hash} : (f key).map (Item.mk key) = (f' key).map (Item.mk key) ↔ f key = f' key :=
  (Option.map_injective fun _ _ heq => (Item.mk.inj heq).2).eq_iff

theorem exact_of_entries {l : List (Hash × DeltaRef)}
    (hl : ∀ key, (entries key l).Perm (diffEntries key ((f key).map (Item.mk key)) ((f' key).map (Item.mk key)))) :
    Exact f f' l := by
  constructor
  · rw [List.nodup_iff_count_le_one]
    intro key
    have hcount : (l.map Prod.fst).count key = (entries key l).length := by
      rw [List.count, List.countP_map, List.countP_eq_length_filter]
      rfl
    rw [hcount, (hl key).length_eq, diffEntries]
    split_ifs
    · exact Nat.zero_le 1
    · exact le_rfl
  · intro key r
    have hmem : (key, r) ∈ l ↔ (key, r) ∈ entries key l := by simp [entries]
    rw [hmem, (hl key).mem_iff, diffEntries, mem_differing]
    split_ifs with heq
    · exact iff_of_false List.not_mem_nil fun h => h.1 (item_eq_iff.mp heq)
    · rw [List.mem_singleton, Prod.mk.injEq]
      exact ⟨fun h => ⟨fun hsame => heq (item_eq_iff.mpr hsame), h.2⟩, fun h => ⟨rfl, h.2⟩⟩

theorem Exact.ncard_eq {l : Delta} (h : Exact f f' l) : (differing f f').ncard = l.length := by
  have hset : differing f f' = ((l.map Prod.fst).toFinset : Set Hash) := by
    ext key
    rw [Finset.mem_coe, List.mem_toFinset, List.mem_map]
    constructor
    · exact fun hkey => ⟨_, (h.mem_iff key _).mpr ⟨hkey, rfl⟩, rfl⟩
    · rintro ⟨e, he, rfl⟩
      exact ((h.mem_iff e.1 e.2).mp he).1
  rw [hset, Set.ncard_coe_finset, List.toFinset_card_of_nodup h.nodup, List.length_map]

theorem Exact.not_wrong {l : List (Hash × DeltaRef)} {key : Hash} (h : Exact f f' (l.foldl Delta.insert []))
    (hwrong : Wrong ((f key).map (Item.mk key)) ((f' key).map (Item.mk key)) (entries key l)) : False := by
  have hentry {r : DeltaRef} (hr : (key, r) ∈ l.foldl Delta.insert []) : (key, r) ∈ entries key l := by
    have hl := (mem_foldl_insert hr).resolve_left List.not_mem_nil
    simpa [entries] using hl
  obtain ⟨hne, hnil⟩ | ⟨ha, hb, hne, hall⟩ := hwrong
  · have hr := hentry ((h.mem_iff key _).mpr ⟨item_eq_iff.not.mp hne, rfl⟩)
    rw [hnil] at hr
    cases hr
  · -- the first entry for the key is in the table
    obtain ⟨e, he⟩ := List.exists_mem_of_ne_nil _ hne
    obtain ⟨hl, hkey⟩ := List.mem_filter.mp he
    have hmem : key ∈ (l.foldl Delta.insert []).map Prod.fst := by
      apply key_mem_foldl_insert
      rw [← of_decide_eq_true hkey]
      exact List.mem_map_of_mem hl
    obtain ⟨⟨k, r⟩, hr, rfl⟩ := List.mem_map.mp hmem
    obtain rfl := ((h.mem_iff k r).mp hr).2
    rcases hall _ (hentry hr) with hnone | hnone
    · exact hb (Prod.mk.inj hnone).2
    · exact ha (Prod.mk.inj hnone).1

section

variable (h : Complete sha ty n f) (h' : Complete sha ty n' f')
include h h'

theorem Complete.compare_eq (hne : n.hash ≠ n'.hash) {maxCount : ℤ}
    (hmax : 1 ≤ maxCount) : compare n n' [] maxCount =
      if ((compareEvents n n').length : ℤ) < maxCount then some (true, (compareEvents n n').foldl Delta.insert [])
      else some (false, ((compareEvents n n').take maxCount.toNat).foldl Delta.insert []) := by
  rw [compare, if_neg hne, h.whole.drain_compareNodes h'.whole, foldlM_report _ _ hmax]
  split_ifs
  · rfl
  · rfl

theorem Complete.exact_compareEvents (hne : n.hash ≠ n'.hash)
    (htracked : ∀ key, tracked key n 0 n' 0 = true) : Exact f f' (compareEvents n n') := by
  apply exact_of_entries
  intro key
  have hr := (h.whole.reported h'.whole hne key).of_true (htracked key)
  rwa [h.find_eq, h'.find_eq] at hr

theorem Complete.eq_of_hash_eq (heq : n.hash = n'.hash)
    (htracked : ∀ key, tracked key n 0 n' 0 = true) : f = f' := by
  funext key
  have hfind := htracked key
  rw [tracked_of_hash_eq heq, decide_eq_true_iff, h.find_eq, h'.find_eq] at hfind
  exact item_eq_iff.mp hfind

end

theorem exact_nil : Exact f f [] := by
  refine ⟨List.nodup_nil, fun key r => ?_⟩
  rw [mem_differing]
  exact iff_of_false List.not_mem_nil fun h => h.1 rfl

/-- **The comparison is exact if and only if it follows every key.** -/
theorem Complete.compare_exact_iff (h : Complete sha ty n f) (h' : Complete sha ty n' f') {maxCount : ℤ}
    (hmax : ((differing f f').ncard : ℤ) < maxCount) :
    (∃ differences, compare n n' [] maxCount = some (true, differences) ∧ Exact f f' differences) ↔
      ∀ key, tracked key n 0 n' 0 = true := by
  constructor
  · rintro ⟨differences, hcompare, hexact⟩ key
    by_contra hnot
    have hfalse : tracked key n 0 n' 0 = false := by simpa using hnot
    by_cases heq : n.hash = n'.hash
    · rw [compare, if_pos heq] at hcompare
      obtain rfl : differences = [] := (Prod.mk.inj (Option.some.inj hcompare)).2.symm
      rw [tracked_of_hash_eq heq, decide_eq_false_iff_not, h.find_eq, h'.find_eq, item_eq_iff] at hfalse
      exact absurd ((hexact.mem_iff key _).mpr ⟨hfalse, rfl⟩) List.not_mem_nil
    · rw [h.compare_eq h' heq (by omega)] at hcompare
      split_ifs at hcompare
      · obtain rfl := (Prod.mk.inj (Option.some.inj hcompare)).2
        have hwrong := (h.whole.reported h'.whole heq key).of_false hfalse
        rw [h.find_eq, h'.find_eq] at hwrong
        exact hexact.not_wrong hwrong
      · cases hcompare
  · intro htracked
    by_cases heq : n.hash = n'.hash
    · obtain rfl := h.eq_of_hash_eq h' heq htracked
      exact ⟨[], by rw [compare, if_pos heq], exact_nil⟩
    · have hexact := h.exact_compareEvents h' heq htracked
      rw [hexact.ncard_eq] at hmax
      refine ⟨compareEvents n n', ?_, hexact⟩
      rw [h.compare_eq h' heq (by omega), if_pos hmax, foldl_insert_eq hexact.nodup]
      rfl

/-! ## Version 1 -/

theorem find_eq_of_hash_eq {d d' : ℕ} (hn : Hashed sha ty n) (hn' : Hashed sha ty n') (ho : Ordered d n) (ho' : Ordered d' n')
    (hfree : NoCollision sha n n') (hk : Keyed sha ty n) (hk' : Keyed sha ty n') (heq : n.hash = n'.hash) (key : Hash) :
    n.find key = n'.find key := by
  refine (ho.lookup key).unique fun x => ?_
  rw [ho'.lookup key x, hn.mem_items_iff hn' hfree hk hk' heq]

theorem tracked_abs {n n' : Node} {d : ℕ} (hn : Hashed sha ty n.abs) (hn' : Hashed sha ty n'.abs) (ho : Ordered d n.abs)
    (ho' : Ordered d n'.abs) (hfree : NoCollision sha n.abs n'.abs) (hk : Keyed sha ty n.abs) (hk' : Keyed sha ty n'.abs)
    (key : Hash) : tracked key n.abs d n'.abs d = true := by
  induction n generalizing n' d with
  | null =>
    by_cases heq : Node.null.abs.hash = n'.abs.hash
    · rw [tracked_of_hash_eq heq, decide_eq_true (find_eq_of_hash_eq hn hn' ho ho' hfree hk hk' heq key)]
    · exact tracked_of_not_inner heq (.inl (by simp [Node.abs]))
  | leaf x type q t =>
    by_cases heq : (Node.leaf x type q t).abs.hash = n'.abs.hash
    · rw [tracked_of_hash_eq heq, decide_eq_true (find_eq_of_hash_eq hn hn' ho ho' hfree hk hk' heq key)]
    · exact tracked_of_not_inner heq (.inl (by simp [Node.abs]))
  | inner q t br hs cs ih =>
    by_cases heq : (Node.inner q t br hs cs).abs.hash = n'.abs.hash
    · rw [tracked_of_hash_eq heq, decide_eq_true (find_eq_of_hash_eq hn hn' ho ho' hfree hk hk' heq key)]
    · cases n' with
      | null => exact tracked_of_not_inner heq (.inr (by simp [Node.abs]))
      | leaf => exact tracked_of_not_inner heq (.inr (by simp [Node.abs]))
      | inner q' t' br' hs' cs' =>
        have hne : ¬t = t' := heq
        rw [Node.abs, Node.abs, tracked]
        simp only [if_neg hne, if_true]
        exact ih _ (hn.child _) (hn'.child _) (ho.child _) (ho'.child _) (hfree.child _ _) (hk.child _) (hk'.child _)

/-- **The comparison of maps of version 1.** -/
theorem compare_v1 (sha : List UInt8 → Hash) (ty : TNType) (m m' : SHAMap) (f f' : Table)
    (h : Complete sha ty (m.getHash sha).2.root.abs f) (h' : Complete sha ty (m'.getHash sha).2.root.abs f')
    (hfree : NoCollision sha (m.getHash sha).2.root.abs (m'.getHash sha).2.root.abs)
    (hk : Keyed sha ty (m.getHash sha).2.root.abs) (hk' : Keyed sha ty (m'.getHash sha).2.root.abs) (maxCount : ℤ)
    (hmax : 1 ≤ maxCount) :
    (((differing f f').ncard : ℤ) < maxCount →
      ∃ differences, m.compare sha m' [] maxCount = some (true, differences) ∧ Exact f f' differences) ∧
    (maxCount ≤ (differing f f').ncard →
      ∃ differences, m.compare sha m' [] maxCount = some (false, differences) ∧ (differences.map Prod.fst).Nodup ∧
        (differences.length : ℤ) = maxCount ∧
        ∀ key r, (key, r) ∈ differences → key ∈ differing f f' ∧ r = itemPair f f' key) := by
  have htracked (key : Hash) := tracked_abs h.hashed h'.hashed h.ordered h'.ordered hfree hk hk' key
  refine ⟨fun hlt => (h.compare_exact_iff h' hlt).mpr htracked, fun hle => ?_⟩
  by_cases heq : (m.getHash sha).2.root.abs.hash = (m'.getHash sha).2.root.abs.hash
  · obtain rfl := h.eq_of_hash_eq h' heq htracked
    have hempty : differing f f = ∅ := by
      ext key
      simp [mem_differing]
    rw [hempty, Set.ncard_empty] at hle
    omega
  · have hexact := h.exact_compareEvents h' heq htracked
    rw [hexact.ncard_eq] at hle
    have hlength : ((compareEvents (m.getHash sha).2.root.abs (m'.getHash sha).2.root.abs).take maxCount.toNat).length =
        maxCount.toNat := by
      rw [List.length_take]
      omega
    have hsub := (List.take_sublist maxCount.toNat
      (compareEvents (m.getHash sha).2.root.abs (m'.getHash sha).2.root.abs)).map Prod.fst
    refine ⟨_, ?_, hexact.nodup.sublist hsub, ?_, fun key r hr => (hexact.mem_iff key r).mp (List.mem_of_mem_take hr)⟩
    · rw [SHAMap.compare, h.compare_eq h' heq hmax, if_neg (not_lt.mpr hle), foldl_insert_eq (hexact.nodup.sublist hsub)]
      rfl
    · rw [hlength]
      omega

end

/-- A hash function for examples. -/
def foldHash (bytes : List UInt8) : Hash := bytes.foldl (fun h b => h * 257 + BitVec.ofNat 256 (b.toNat + 1)) 0

/-- An item for examples, with the nibbles its key begins with. -/
def sampleItem (nibbles : List (Fin 16)) : Item :=
  ⟨BitVec.ofNat 256 ((nibbles.foldl (fun k i => 16 * k + i.val) 0) * 16 ^ (64 - nibbles.length)), List.replicate 12 1⟩

/-- The key an operation is about. -/
def SHAMap.Op.key : SHAMap.Op → Hash
  | add item => item.key
  | del key => key
  | update item => item.key

theorem Table.step_of_ne {f : Table} {op : SHAMap.Op} {key : Hash} (hkey : key ≠ op.key) : (f.step op).2 key = f key := by
  cases op with
  | add item =>
    rw [Table.step]
    split_ifs
    · rfl
    · exact Function.update_of_ne hkey _ _
  | del key' =>
    rw [Table.step]
    split_ifs
    · exact Function.update_of_ne hkey _ _
    · rfl
  | update item =>
    rw [Table.step]
    split_ifs
    · exact Function.update_of_ne hkey _ _
    · rfl

theorem Table.run_of_not_mem {ops : List SHAMap.Op} {key : Hash} (hkey : key ∉ ops.map SHAMap.Op.key) (f : Table) :
    (f.run ops).2 key = f key := by
  induction ops generalizing f with
  | nil => rfl
  | cons op ops ih =>
    rw [List.map_cons, List.mem_cons, not_or] at hkey
    rw [Table.run, ih hkey.2, Table.step_of_ne hkey.1]

theorem ncard_differing_run_le (ops ops' : List SHAMap.Op) :
    (differing (Table.empty.run ops).2 (Table.empty.run ops').2).ncard ≤ ops.length + ops'.length := by
  have hsub : differing (Table.empty.run ops).2 (Table.empty.run ops').2 ⊆
      (((ops ++ ops').map SHAMap.Op.key).toFinset : Set Hash) := by
    intro key hkey
    rw [Finset.mem_coe, List.mem_toFinset, List.map_append, List.mem_append]
    by_contra hnot
    rw [not_or] at hnot
    exact hkey ((Table.run_of_not_mem hnot.1 _).trans (Table.run_of_not_mem hnot.2 _).symm)
  refine (Set.ncard_le_ncard hsub (Finset.finite_toSet _)).trans ?_
  rw [Set.ncard_coe_finset]
  refine (List.toFinset_card_le _).trans ?_
  rw [List.length_map, List.length_append]

/-- The maps with one item each. -/
theorem compare_v1_leaves : ∃ m m', SHAMap.new.run foldHash false false [.add (sampleItem [1])] = some ([true], m) ∧
    SHAMap.new.run foldHash false false [.add (sampleItem [1, 2])] = some ([true], m') ∧
    ∃ differences, m.compare foldHash m' [] 3 = some (true, differences) ∧
      Exact (Table.empty.run [.add (sampleItem [1])]).2 (Table.empty.run [.add (sampleItem [1, 2])]).2 differences := by
  obtain ⟨m, hrun, hm⟩ := (SHAMap.holds_new foldHash).run [.add (sampleItem [1])]
  obtain ⟨m', hrun', hm'⟩ := (SHAMap.holds_new foldHash).run [.add (sampleItem [1, 2])]
  have hfree : NoCollision foldHash (m.getHash foldHash).2.root.abs (m'.getHash foldHash).2.root.abs := by
    obtain rfl : ((SHAMap.new.run foldHash false false [.add (sampleItem [1])]).getD ([], SHAMap.new)).2 = m := by
      rw [hrun]
      rfl
    obtain rfl : ((SHAMap.new.run foldHash false false [.add (sampleItem [1, 2])]).getD ([], SHAMap.new)).2 = m' := by
      rw [hrun']
      rfl
    constructor
    · decide +kernel
    · decide +kernel
    · decide +kernel
  have hstate : SHAMap.leafType false false ≠ .transactionNM := by decide
  have hfew := ncard_differing_run_le [.add (sampleItem [1])] [.add (sampleItem [1, 2])]
  obtain ⟨hexact, -⟩ := compare_v1 foldHash _ m m' _ _ hm.complete hm'.complete hfree (fun hty => absurd hty hstate)
    (fun hty => absurd hty hstate) 3 (by decide)
  refine ⟨m, m', hrun, hrun', hexact ?_⟩
  rw [List.length_singleton, List.length_singleton] at hfew
  omega

/-- The key of a transaction without metadata is not hashed: maps with different keys are taken for equal. -/
theorem compare_ignores_key :
    ∃ m m', SHAMap.new.run SHAMap.sampleTxHash true false [.add ⟨0, [1, 2, 3, 4, 5, 6, 7, 8, 9, 10, 11, 12]⟩] = some ([true], m) ∧
      SHAMap.new.run SHAMap.sampleTxHash true false [.add ⟨1, [1, 2, 3, 4, 5, 6, 7, 8, 9, 10, 11, 12]⟩] = some ([true], m') ∧
      NoCollision SHAMap.sampleTxHash (m.getHash SHAMap.sampleTxHash).2.root.abs (m'.getHash SHAMap.sampleTxHash).2.root.abs ∧
      m.compare SHAMap.sampleTxHash m' [] 10 = some (true, []) ∧
      m.peekItem 0 = some (some ⟨0, [1, 2, 3, 4, 5, 6, 7, 8, 9, 10, 11, 12]⟩) ∧ m'.peekItem 0 = some none := by
  refine ⟨_, _, rfl, rfl, ⟨?_, ?_, ?_⟩, ?_, ?_, ?_⟩
  all_goals decide +kernel

/-! ## Version 2 -/

/-- **The comparison of maps of version 2.** -/
theorem compare_v2_iff (sha : List UInt8 → Hash) (ty : TNType) (m m' : SHAMapV2) (f f' : Table)
    (h : Complete sha ty (m.getHash sha).2.root f) (h' : Complete sha ty (m'.getHash sha).2.root f') (maxCount : ℤ)
    (hmax : ((differing f f').ncard : ℤ) < maxCount) :
    (∃ differences, m.compare sha m' [] maxCount = some (true, differences) ∧ Exact f f' differences) ↔
      ∀ key, tracked key (m.getHash sha).2.root 0 (m'.getHash sha).2.root 0 = true :=
  h.compare_exact_iff h' hmax

/-- Two runs with an item in common, which is below an inner node of depth 1 after the one and of depth 2 after the other. -/
def forkOps : List SHAMap.Op := [.add (sampleItem [1, 1, 5]), .add (sampleItem [1, 2])]

def forkOps' : List SHAMap.Op := [.add (sampleItem [1, 1, 5]), .add (sampleItem [1, 1, 6])]

theorem compare_v2_iff_fork : ∃ m m', SHAMapV2.new.run foldHash false false forkOps = some ([true, true], m) ∧
    SHAMapV2.new.run foldHash false false forkOps' = some ([true, true], m') ∧
    ((∃ differences, m.compare foldHash m' [] 10 = some (true, differences) ∧
        Exact (Table.empty.run forkOps).2 (Table.empty.run forkOps').2 differences) ↔
      ∀ key, tracked key (m.getHash foldHash).2.root 0 (m'.getHash foldHash).2.root 0 = true) ∧
    tracked (sampleItem [1, 1, 5]).key (m.getHash foldHash).2.root 0 (m'.getHash foldHash).2.root 0 = false := by
  obtain ⟨m, hrun, hm⟩ := (SHAMapV2.holds_new foldHash).run forkOps
  obtain ⟨m', hrun', hm'⟩ := (SHAMapV2.holds_new foldHash).run forkOps'
  have hfew : (differing (Table.empty.run forkOps).2 (Table.empty.run forkOps').2).ncard ≤ 4 := ncard_differing_run_le forkOps forkOps'
  refine ⟨m, m', hrun, hrun', ?_, ?_⟩
  · exact compare_v2_iff foldHash _ m m' _ _ hm.complete hm'.complete 10 (by omega)
  · obtain rfl : ((SHAMapV2.new.run foldHash false false forkOps).getD ([], SHAMapV2.new)).2 = m := by
      rw [hrun]
      rfl
    obtain rfl : ((SHAMapV2.new.run foldHash false false forkOps').getD ([], SHAMapV2.new)).2 = m' := by
      rw [hrun']
      rfl
    decide +kernel

/-- The item that both maps have is reported as missing from the second. -/
theorem compare_v2_shared_item : ∃ m m', SHAMapV2.new.run foldHash false false forkOps = some ([true, true], m) ∧
    SHAMapV2.new.run foldHash false false forkOps' = some ([true, true], m') ∧
    NoCollision foldHash (m.getHash foldHash).2.root (m'.getHash foldHash).2.root ∧
    m.peekItem (sampleItem [1, 1, 5]).key = some (some (sampleItem [1, 1, 5])) ∧
    m'.peekItem (sampleItem [1, 1, 5]).key = some (some (sampleItem [1, 1, 5])) ∧
    m.compare foldHash m' [] 10 = some (true, [((sampleItem [1, 1, 5]).key, (some (sampleItem [1, 1, 5]), none)),
      ((sampleItem [1, 2]).key, (some (sampleItem [1, 2]), none)),
      ((sampleItem [1, 1, 6]).key, (none, some (sampleItem [1, 1, 6])))]) := by
  refine ⟨((SHAMapV2.new.run foldHash false false forkOps).getD ([], SHAMapV2.new)).2,
    ((SHAMapV2.new.run foldHash false false forkOps').getD ([], SHAMapV2.new)).2, rfl, rfl, ⟨?_, ?_, ?_⟩, ?_, ?_, ?_⟩
  all_goals decide +kernel

end ScfChain.ShaMap
