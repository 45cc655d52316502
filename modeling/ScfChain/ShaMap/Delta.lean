import ScfChain.Data.Worklist
import ScfChain.ShaMap.Complete

/-!
# The comparison of maps

`compare` walks two trees at once and puts the items that differ into a table; `walkBranch` walks a branch that an empty
branch or a single item of the other map stands against. Both go through the nodes with a stack of their own and stop as
soon as `maxCount` items were put into the table.

`compareEvents` lists what is put into the table, in order, for trees without missing nodes (`drain_compareNodes`).
-/

namespace ScfChain.ShaMap

open Data AbstractNode

/-- `DeltaRef`: the item of the first map and that of the second. -/
abbrev DeltaRef := Option Item × Option Item

/-- `Delta`, in the order of insertion. -/
abbrev Delta := List (Hash × DeltaRef)

/-- `std::map::insert`, which keeps what is there. -/
def Delta.insert (differences : Delta) (e : Hash × DeltaRef) : Delta :=
  if e.1 ∈ differences.map Prod.fst then differences else differences ++ [e]

/-- Why a comparison ends early: a missing node, or too many differences. `spent` is a loop without fuel. -/
inductive Stop
  | missing
  | full (differences : Delta)
  | spent

/-- The table, and how many items may still be put into it. -/
structure Progress where
  differences : Delta
  maxCount : ℤ

/-- Put an item into the table and count down. -/
def report (p : Progress) (e : Hash × DeltaRef) : Except Stop Progress :=
  let differences := p.differences.insert e
  if p.maxCount - 1 ≤ 0 then .error (.full differences) else .ok ⟨differences, p.maxCount - 1⟩

/-- The items of both maps in their places. -/
def deltaRef (isFirstMap : Bool) (item other : Option Item) : DeltaRef := if isFirstMap then (item, other) else (other, item)

def descendThrow (child : AbstractNode) : Except Stop AbstractNode := if child.isNull then .error .missing else .ok child

/-- The number of nodes of a tree. -/
def AbstractNode.size : AbstractNode → ℕ
  | null => 0
  | leaf .. => 1
  | inner _ _ _ _ _ cs => 1 + ((List.finRange 16).map fun i => (cs i).size).sum

/-! ## `walkBranch` -/

/-- A leaf. The flag is `emptyBranch`. -/
def walkLeaf (otherMapItem : Option Item) (isFirstMap : Bool) (s : Bool × Progress) (item : Item) :
    Except Stop (Bool × Progress) :=
  if s.1 = true ∨ otherMapItem.map Item.key ≠ some item.key then
    (report s.2 (item.key, deltaRef isFirstMap (some item) none)).map fun p => (s.1, p)
  else if otherMapItem.map Item.data ≠ some item.data then
    -- non-matching items with same tag
    (report s.2 (item.key, deltaRef isFirstMap (some item) otherMapItem)).map fun p => (true, p)
  -- exact match
  else .ok (true, s.2)

/-- One round of the loop, with the nodes that it pushes. -/
def walkNode (otherMapItem : Option Item) (isFirstMap : Bool) (node : AbstractNode) (s : Bool × Progress) :
    Except Stop ((Bool × Progress) × List AbstractNode) :=
  match node with
  | .null => .error .missing
  | .inner _ _ _ br _ cs =>
    (((List.finRange 16).filter fun i => br i).mapM fun i => descendThrow (cs i)).map fun pushed => (s, pushed)
  | .leaf item _ _ _ => (walkLeaf otherMapItem isFirstMap s item).map fun s => (s, [])

/-- After the loop: an item of the other map that was unmatched must be added. -/
def addUnmatched (otherMapItem : Option Item) (isFirstMap emptyBranch : Bool) (p : Progress) : Except Stop Progress :=
  match emptyBranch, otherMapItem with
  | false, some other => report p (other.key, deltaRef isFirstMap none (some other))
  | _, _ => .ok p

def walkBranch (node : AbstractNode) (otherMapItem : Option Item) (isFirstMap : Bool) (p : Progress) :
    Except Stop Progress := do
  let s ← drain (walkNode otherMapItem isFirstMap) .spent node.size [node] (otherMapItem.isNone, p)
  addUnmatched otherMapItem isFirstMap s.1 s.2

/-! ## `compare` -/

/-- A branch of two inner nodes. -/
def compareBranch (br br' : Fin 16 → Bool) (hs hs' : Fin 16 → Hash) (cs cs' : Fin 16 → AbstractNode)
    (s : Progress × List (AbstractNode × AbstractNode)) (i : Fin 16) :
    Except Stop (Progress × List (AbstractNode × AbstractNode)) :=
  if hs i = hs' i then .ok s
  else if br' i = false then do
    -- We have a branch, the other tree does not
    let node ← descendThrow (cs i)
    let p ← walkBranch node none true s.1
    .ok (p, s.2)
  else if br i = false then do
    -- The other tree has a branch, we do not
    let node ← descendThrow (cs' i)
    let p ← walkBranch node none false s.1
    .ok (p, s.2)
  else do
    -- The two trees have different non-empty branches
    let ours ← descendThrow (cs i)
    let other ← descendThrow (cs' i)
    .ok (s.1, s.2 ++ [(ours, other)])

/-- Two leaves. -/
def compareLeaves (ours other : Item) (p : Progress) : Except Stop Progress :=
  if ours.key = other.key then
    if ours.data ≠ other.data then report p (ours.key, (some ours, some other)) else .ok p
  else do
    let p ← report p (ours.key, (some ours, none))
    report p (other.key, (none, some other))

/-- One round of the loop, with the pairs that it pushes. -/
def compareNodes (pair : AbstractNode × AbstractNode) (p : Progress) :
    Except Stop (Progress × List (AbstractNode × AbstractNode)) :=
  match pair with
  | (.leaf ours _ _ _, .leaf other _ _ _) => (compareLeaves ours other p).map fun p => (p, [])
  | (.inner v2 s h br hs cs, .leaf other _ _ _) =>
    (walkBranch (.inner v2 s h br hs cs) (some other) true p).map fun p => (p, [])
  | (.leaf ours _ _ _, .inner v2 s h br hs cs) =>
    (walkBranch (.inner v2 s h br hs cs) (some ours) false p).map fun p => (p, [])
  | (.inner _ _ _ br hs cs, .inner _ _ _ br' hs' cs') =>
    (List.finRange 16).foldlM (compareBranch br br' hs hs' cs cs') (p, [])
  | _ => .error .missing

/-- `SHAMap::compare` of maps with the given roots. `none` is the exception. -/
def compare (root otherRoot : AbstractNode) (differences : Delta) (maxCount : ℤ) : Option (Bool × Delta) :=
  if root.hash = otherRoot.hash then some (true, differences)
  else
    match drain compareNodes .spent root.size [(root, otherRoot)] ⟨differences, maxCount⟩ with
    | .ok p => some (true, p.differences)
    | .error (.full differences) => some (false, differences)
    | .error _ => none

/-- The comparison calls `getHash` of both maps first. -/
def SHAMap.compare (sha512Half : List UInt8 → Hash) (m otherMap : SHAMap) (differences : Delta) (maxCount : ℤ) :
    Option (Bool × Delta) :=
  ShaMap.compare (m.getHash sha512Half).2.root.abs (otherMap.getHash sha512Half).2.root.abs differences maxCount

def SHAMapV2.compare (sha512Half : List UInt8 → Hash) (m otherMap : SHAMapV2) (differences : Delta) (maxCount : ℤ) :
    Option (Bool × Delta) :=
  ShaMap.compare (m.getHash sha512Half).2.root (otherMap.getHash sha512Half).2.root differences maxCount

/-! ## What is put into the table -/

/-- The items of a list as `walkBranch` puts them into the table. -/
def walkEvents (other : Option Item) (isFirst : Bool) : Bool → List Item → List (Hash × DeltaRef)
  | _, [] => []
  | emptyBranch, x :: l =>
    if emptyBranch = true ∨ other.map Item.key ≠ some x.key then
      (x.key, deltaRef isFirst (some x) none) :: walkEvents other isFirst emptyBranch l
    else if other.map Item.data ≠ some x.data then
      (x.key, deltaRef isFirst (some x) other) :: walkEvents other isFirst true l
    else walkEvents other isFirst true l

/-- `emptyBranch` after a list of items. -/
def walkFlag (other : Option Item) (emptyBranch : Bool) (l : List Item) : Bool :=
  emptyBranch || l.any fun x => other.map Item.key = some x.key

def unmatchedEvents (other : Option Item) (isFirst emptyBranch : Bool) : List (Hash × DeltaRef) :=
  match emptyBranch, other with
  | false, some o => [(o.key, deltaRef isFirst none (some o))]
  | _, _ => []

def branchEvents (other : Option Item) (isFirst : Bool) (l : List Item) : List (Hash × DeltaRef) :=
  walkEvents other isFirst other.isNone l ++ unmatchedEvents other isFirst (walkFlag other other.isNone l)

theorem addUnmatched_eq (other : Option Item) (isFirst emptyBranch : Bool) (p : Progress) :
    addUnmatched other isFirst emptyBranch p = (unmatchedEvents other isFirst emptyBranch).foldlM report p := by
  cases emptyBranch with
  | true => rfl
  | false =>
    cases other with
    | none => rfl
    | some o => exact (foldlM_singleton report p _).symm

theorem foldlM_walkLeaf (other : Option Item) (isFirst emptyBranch : Bool) (l : List Item) (p : Progress) :
    l.foldlM (walkLeaf other isFirst) (emptyBranch, p) =
      ((walkEvents other isFirst emptyBranch l).foldlM report p).map fun p => (walkFlag other emptyBranch l, p) := by
  induction l generalizing emptyBranch p with
  | nil =>
    rw [walkFlag, List.any_nil, Bool.or_false]
    rfl
  | cons x l ih =>
    rw [List.foldlM_cons, walkLeaf, walkEvents]
    have hflag : walkFlag other emptyBranch (x :: l) =
        walkFlag other (emptyBranch || decide (other.map Item.key = some x.key)) l := by
      rw [walkFlag, walkFlag, List.any_cons, Bool.or_assoc]
    rw [hflag]
    by_cases hmiss : emptyBranch = true ∨ other.map Item.key ≠ some x.key
    · have hsame : (emptyBranch || decide (other.map Item.key = some x.key)) = emptyBranch := by
        rcases hmiss with rfl | hne
        · rfl
        · rw [decide_eq_false hne, Bool.or_false]
      rw [if_pos hmiss, if_pos hmiss, hsame, List.foldlM_cons]
      cases hreport : report p (x.key, deltaRef isFirst (some x) none) with
      | error e => rfl
      | ok p' => exact ih emptyBranch p'
    · obtain ⟨-, hkey⟩ := not_or.mp hmiss
      rw [if_neg hmiss, if_neg hmiss, not_not.mp hkey, decide_eq_true rfl, Bool.or_true]
      by_cases hdata : other.map Item.data ≠ some x.data
      · rw [if_pos hdata, if_pos hdata, List.foldlM_cons]
        cases hreport : report p (x.key, deltaRef isFirst (some x) other) with
        | error e => rfl
        | ok p' => exact ih true p'
      · rw [if_neg hdata, if_neg hdata]
        exact ih true p

/-! ## Trees without missing nodes -/

/-- A tree in the order of keys with its hashes up to date. -/
structure Whole (sha : List UInt8 → Hash) (ty : TNType) (d : ℕ) (n : AbstractNode) : Prop where
  ne : n.isNull = false
  hashed : Hashed sha ty n
  ordered : Ordered d n

section
variable {sha : List UInt8 → Hash} {ty : TNType} {d : ℕ} {v2 : Option Prefix} {s : UInt32} {h : Hash} {br : Fin 16 → Bool}
  {hs : Fin 16 → Hash} {cs : Fin 16 → AbstractNode} {n : AbstractNode} {i : Fin 16}

section

variable (hn : Whole sha ty d (.inner v2 s h br hs cs))
include hn

theorem Whole.isNull_child (hi : br i = true) : (cs i).isNull = false := by
  have hbr := hn.hashed.branch_eq i
  rw [hi] at hbr
  simpa using hbr.symm

theorem Whole.child (hi : br i = true) :
    Whole sha ty (childDepth v2 d (cs i)) (cs i) :=
  ⟨hn.isNull_child hi, hn.hashed.child i, hn.ordered.child i⟩

theorem Whole.items_of_not_branch (hi : br i = false) : (cs i).items = [] :=
  hn.ordered.placed.items_eq_nil hi

theorem Whole.hashes_of_not_branch (hi : br i = false) : hs i = 0 := by
  have hbr := hn.hashed.branch_eq i
  rw [hi] at hbr
  rw [hn.hashed.hashes_eq, hash_of_isNull (by simpa using hbr.symm)]

end

theorem descendThrow_eq (hn : n.isNull = false) : descendThrow n = .ok n := by
  rw [descendThrow, hn]
  rfl

theorem mapM_descendThrow {l : List (Fin 16)} (hl : ∀ i ∈ l, (cs i).isNull = false) :
    l.mapM (fun i => descendThrow (cs i)) = .ok (l.map cs) := by
  induction l with
  | nil => rfl
  | cons i l ih =>
    rw [List.mapM_cons, descendThrow_eq (hl i List.mem_cons_self), ih fun j hj => hl j (List.mem_cons_of_mem i hj)]
    rfl

theorem flatMap_filter_eq {α β : Type} {p : α → Bool} {g : α → List β} (l : List α) (hg : ∀ x ∈ l, p x = false → g x = []) :
    (l.filter p).flatMap g = l.flatMap g := by
  induction l with
  | nil => rfl
  | cons x l ih =>
    rw [List.flatMap_cons, ← ih fun y hy => hg y (List.mem_cons_of_mem x hy)]
    cases hp : p x with
    | false => rw [List.filter_cons_of_neg (by simp [hp]), hg x List.mem_cons_self hp, List.nil_append]
    | true => rw [List.filter_cons_of_pos hp, List.flatMap_cons]

theorem size_children_lt (q : Fin 16 → Bool) :
    (((List.finRange 16).filter q).map fun i => (cs i).size).sum < (AbstractNode.inner v2 s h br hs cs).size := by
  have hsub : (((List.finRange 16).filter q).map fun i => (cs i).size).Sublist ((List.finRange 16).map fun i => (cs i).size) :=
    List.filter_sublist.map _
  have hle := hsub.sum_le_sum fun _ _ => Nat.zero_le _
  rw [AbstractNode.size]
  omega

end

/-! ## `walkBranch` on such trees -/

/-- The item of a leaf. -/
def walkHere : AbstractNode → List Item
  | .leaf item _ _ _ => [item]
  | _ => []

/-- The children of an inner node. -/
def walkNext : AbstractNode → List AbstractNode
  | .inner _ _ _ br _ cs => ((List.finRange 16).filter fun i => br i).map cs
  | _ => []

variable {sha : List UInt8 → Hash} {ty : TNType} {d : ℕ} {n : AbstractNode}

theorem Whole.not_null (hn : Whole sha ty d .null) : False := by cases hn.ne

theorem traverses_walkNode (other : Option Item) (isFirst : Bool) (n : AbstractNode) (hgood : ∃ d, Whole sha ty d n) :
    Traverses (walkNode other isFirst) (walkLeaf other isFirst) (fun n => ∃ d, Whole sha ty d n) walkHere walkNext
      (fun n => n.items.reverse) AbstractNode.size n := by
  obtain ⟨d, hn⟩ := hgood
  cases n with
  | null => exact hn.not_null.elim
  | leaf item type q t =>
    refine ⟨fun s => ?_, fun c hc => absurd hc List.not_mem_nil, rfl, Nat.zero_lt_one⟩
    rw [walkNode, walkHere, foldlM_singleton]
    rfl
  | inner v2 q t br hs cs =>
    refine ⟨fun s => ?_, fun c hc => ?_, ?_, ?_⟩
    · rw [walkNode, mapM_descendThrow fun i hi => hn.isNull_child (List.mem_filter.mp hi).2]
      rfl
    · obtain ⟨i, hi, rfl⟩ := List.mem_map.mp hc
      exact ⟨_, hn.child (List.mem_filter.mp hi).2⟩
    · change _ = (((List.finRange 16).filter fun i => br i).map cs).reverse.flatMap fun n => n.items.reverse
      rw [items, List.reverse_flatMap, ← List.map_reverse, List.flatMap_map, ← List.filter_reverse]
      refine (flatMap_filter_eq _ fun i _ hi => ?_).symm
      exact congrArg List.reverse (hn.items_of_not_branch hi)
    · rw [walkNext, List.map_map]
      exact size_children_lt _

/-- **What `walkBranch` puts into the table.** -/
theorem Whole.walkBranch_eq (hn : Whole sha ty d n) (other : Option Item) (isFirst : Bool) (p : Progress) :
    walkBranch n other isFirst p = (branchEvents other isFirst n.items.reverse).foldlM report p := by
  have hdrain : drain (walkNode other isFirst) .spent n.size [n] (other.isNone, p) =
      n.items.reverse.foldlM (walkLeaf other isFirst) (other.isNone, p) :=
    drain_singleton (traverses_walkNode other isFirst) ⟨d, hn⟩ _
  rw [walkBranch, hdrain, foldlM_walkLeaf, branchEvents, List.foldlM_append]
  cases (walkEvents other isFirst other.isNone n.items.reverse).foldlM report p with
  | error e => rfl
  | ok p' => exact addUnmatched_eq other isFirst _ p'

/-! ## `compare` on such trees -/

def leavesEvents (x y : Item) : List (Hash × DeltaRef) :=
  if x.key = y.key then if x.data ≠ y.data then [(x.key, (some x, some y))] else []
  else [(x.key, (some x, none)), (y.key, (none, some y))]

/-- A branch that one of two inner nodes lacks. -/
def oneSided (br br' : Fin 16 → Bool) (hs hs' : Fin 16 → Hash) (cs cs' : Fin 16 → AbstractNode) (i : Fin 16) :
    List (Hash × DeltaRef) :=
  if hs i = hs' i then []
  else if br' i = false then branchEvents none true (cs i).items.reverse
  else if br i = false then branchEvents none false (cs' i).items.reverse
  else []

/-- A branch on which the comparison goes on. -/
def descends (br br' : Fin 16 → Bool) (hs hs' : Fin 16 → Hash) (i : Fin 16) : Bool := hs i ≠ hs' i && br' i && br i

/-- What the comparison of two trees puts into the table. -/
def compareEvents : AbstractNode → AbstractNode → List (Hash × DeltaRef)
  | .leaf x _ _ _, .leaf y _ _ _ => leavesEvents x y
  | .inner v2 s h br hs cs, .leaf y _ _ _ =>
    branchEvents (some y) true (AbstractNode.inner v2 s h br hs cs).items.reverse
  | .leaf x _ _ _, .inner v2 s h br hs cs =>
    branchEvents (some x) false (AbstractNode.inner v2 s h br hs cs).items.reverse
  | .inner _ _ _ br hs cs, .inner _ _ _ br' hs' cs' =>
    (List.finRange 16).flatMap (oneSided br br' hs hs' cs cs') ++
      ((List.finRange 16).filter (descends br br' hs hs')).reverse.flatMap fun i => compareEvents (cs i) (cs' i)
  | _, _ => []

/-- What is put into the table before the comparison goes on. -/
def compareHere (pair : AbstractNode × AbstractNode) : List (Hash × DeltaRef) :=
  match pair with
  | (.inner _ _ _ br hs cs, .inner _ _ _ br' hs' cs') => (List.finRange 16).flatMap (oneSided br br' hs hs' cs cs')
  | (n, n') => compareEvents n n'

def compareNext (pair : AbstractNode × AbstractNode) : List (AbstractNode × AbstractNode) :=
  match pair with
  | (.inner _ _ _ br hs cs, .inner _ _ _ br' hs' cs') =>
    ((List.finRange 16).filter (descends br br' hs hs')).map fun i => (cs i, cs' i)
  | _ => []

theorem compareLeaves_eq (x y : Item) (p : Progress) : compareLeaves x y p = (leavesEvents x y).foldlM report p := by
  rw [compareLeaves, leavesEvents]
  split_ifs
  · exact (foldlM_singleton report p _).symm
  · rfl
  · rw [List.foldlM_cons]
    exact bind_congr fun p' => (foldlM_singleton report p' _).symm

section
variable {ty' : TNType} {d' : ℕ} {v2 v2' : Option Prefix} {s s' : UInt32} {h h' : Hash} {br br' : Fin 16 → Bool}
  {hs hs' : Fin 16 → Hash} {cs cs' : Fin 16 → AbstractNode}

theorem Whole.branch_of_ne (hn : Whole sha ty d (.inner v2 s h br hs cs)) (hn' : Whole sha ty' d' (.inner v2' s' h' br' hs' cs'))
    {i : Fin 16} (hne : hs i ≠ hs' i) (hi : br' i = false) : br i = true := by
  cases hbr : br i with
  | true => rfl
  | false => exact absurd ((hn.hashes_of_not_branch hbr).trans (hn'.hashes_of_not_branch hi).symm) hne

theorem compareBranch_eq (hn : Whole sha ty d (.inner v2 s h br hs cs)) (hn' : Whole sha ty' d' (.inner v2' s' h' br' hs' cs'))
    (i : Fin 16) (p : Progress) (pushed : List (AbstractNode × AbstractNode)) :
    compareBranch br br' hs hs' cs cs' (p, pushed) i = ((oneSided br br' hs hs' cs cs' i).foldlM report p).map
      fun p => (p, pushed ++ if descends br br' hs hs' i then [(cs i, cs' i)] else []) := by
  rw [compareBranch, oneSided, descends]
  by_cases hhash : hs i = hs' i
  · simp only [hhash, if_true, ne_eq, not_true, decide_false, Bool.false_and, Bool.false_eq_true, if_false, List.append_nil]
    rfl
  · simp only [hhash, if_false, ne_eq, not_false_iff, decide_true, Bool.true_and]
    cases hi' : br' i with
    | false =>
      have hi : br i = true := hn.branch_of_ne hn' hhash hi'
      simp only [if_true, Bool.false_and, Bool.false_eq_true, if_false, List.append_nil]
      rw [descendThrow_eq (hn.isNull_child hi), ← (hn.child hi).walkBranch_eq none true p]
      change (walkBranch (cs i) none true p >>= fun q => .ok (q, pushed)) = _
      exact bind_pure_comp _ _
    | true =>
      cases hi : br i with
      | false =>
        have hwhole := hn'.child hi'
        simp only [Bool.true_eq_false, if_false, if_true, Bool.and_false, Bool.false_eq_true, List.append_nil]
        rw [descendThrow_eq hwhole.ne, ← hwhole.walkBranch_eq none false p]
        change (walkBranch (cs' i) none false p >>= fun q => .ok (q, pushed)) = _
        exact bind_pure_comp _ _
      | true =>
        simp only [Bool.true_eq_false, if_false, Bool.and_true, if_true]
        rw [descendThrow_eq (hn.isNull_child hi), descendThrow_eq (hn'.isNull_child hi')]
        rfl

theorem flatMap_ite_eq {α β : Type} (q : α → Bool) (g : α → β) (l : List α) :
    l.flatMap (fun x => if q x then [g x] else []) = (l.filter q).map g := by
  induction l with
  | nil => rfl
  | cons x l ih =>
    rw [List.flatMap_cons, ih]
    cases hq : q x with
    | false => rw [List.filter_cons_of_neg (by simp [hq])]; rfl
    | true => rw [List.filter_cons_of_pos hq]; rfl

/-- Both nodes of a pair are without missing nodes below them. -/
def WholePair (sha : List UInt8 → Hash) (ty ty' : TNType) (q : AbstractNode × AbstractNode) : Prop :=
  ∃ d d', Whole sha ty d q.1 ∧ Whole sha ty' d' q.2

theorem traverses_compareNodes (q : AbstractNode × AbstractNode) (hgood : WholePair sha ty ty' q) :
    Traverses compareNodes report (WholePair sha ty ty') compareHere compareNext (fun q => compareEvents q.1 q.2)
      (fun q => q.1.size) q := by
  obtain ⟨n, n'⟩ := q
  obtain ⟨d, d', hn, hn'⟩ := hgood
  -- two trees are compared at once unless both are inner nodes
  cases n with
  | null => exact hn.not_null.elim
  | leaf x type q t =>
    cases n' with
    | null => exact hn'.not_null.elim
    | leaf y type' q' t' =>
      refine .once (fun p => ?_) rfl rfl Nat.zero_lt_one
      rw [compareNodes, compareLeaves_eq]
      rfl
    | inner v2' q' t' br' hs' cs' =>
      refine .once (fun p => ?_) rfl rfl Nat.zero_lt_one
      rw [compareNodes, hn'.walkBranch_eq]
      rfl
  | inner v2 q t br hs cs =>
    cases n' with
    | null => exact hn'.not_null.elim
    | leaf y type' q' t' =>
      refine .once (fun p => ?_) rfl rfl (by rw [AbstractNode.size]; omega)
      rw [compareNodes, hn.walkBranch_eq]
      rfl
    | inner v2' q' t' br' hs' cs' =>
      refine ⟨fun p => ?_, fun c hc => ?_, ?_, ?_⟩
      · rw [compareNodes, foldlM_push _ (fun i _ p pushed => compareBranch_eq hn hn' i p pushed), List.nil_append,
          flatMap_ite_eq]
        rfl
      · obtain ⟨i, hi, rfl⟩ := List.mem_map.mp hc
        have hdescends := (List.mem_filter.mp hi).2
        rw [descends, Bool.and_eq_true, Bool.and_eq_true] at hdescends
        exact ⟨_, _, hn.child hdescends.2, hn'.child hdescends.1.2⟩
      · rw [compareEvents, compareHere, compareNext, ← List.map_reverse, List.flatMap_map]
      · rw [compareNext, List.map_map]
        exact size_children_lt _

/-- **What the comparison puts into the table.** -/
theorem Whole.drain_compareNodes (hn : Whole sha ty d n) {n' : AbstractNode} (hn' : Whole sha ty' d' n') (p : Progress) :
    drain compareNodes .spent n.size [(n, n')] p = (compareEvents n n').foldlM report p :=
  drain_singleton traverses_compareNodes (n := (n, n')) ⟨d, d', hn, hn'⟩ p

end

end ScfChain.ShaMap
