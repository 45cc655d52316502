import ScfChain.Ledger.Directory.Basic

/-!
# Walks through owner directories

`forEachItemAfter` visits the entries of a directory that follow a key, up to a limit. The visitor is any function with a
state; what it is given is an entry with its key.

* `visitUpTo`: what is visited, if the entries are in one list;
* `WellLinked`: the pages of a directory, as they are linked;
* `forEachItemAfter_visits`: a call, and calls that go on where the last one ended.
-/

set_option linter.unusedSectionVars false

namespace ScfChain.Ledger

variable {K A σ : Type} [DecidableEq K]

/-- `keylet::child`. -/
def child (key : K) : Keylet K (SLE K A) := ⟨key, fun sle => sle.node?.isNone⟩

section

variable (read : Keylet K (SLE K A) → Option (SLE K A)) (dirHash : K → ℕ → K) (f : K → Option (SLE K A) → σ → Bool × σ)

/-- The loop over the entries of a page: whether the limit was reached, whether `after` was found, and what is left of the
limit. -/
def visitPage (after : K) : List K → Bool → ℕ → σ → Bool × Bool × ℕ × σ
  | [], found, limit, s => (false, found, limit, s)
  | key :: keys, found, limit, s =>
    if found = false then visitPage after keys (key = after) limit s
    else
      let r := f key (read (child key)) s
      if r.1 then
        if limit ≤ 1 then (true, found, limit - 1, r.2) else visitPage after keys found (limit - 1) r.2
      else visitPage after keys found limit r.2

/-- The page of a directory. -/
def dirPage (root : K) (n : ℕ) : Option (DirNode K) := (read (page dirHash root n)).bind SLE.node?

/-- The loop over the pages, for a number of them. -/
def visitPages (root after : K) : ℕ → ℕ → Bool → ℕ → σ → Option (Bool × σ)
  | 0, _, _, _, _ => none
  | fuel + 1, n, found, limit, s =>
    match dirPage read dirHash root n with
    | none => some (found, s)
    | some ownerDir =>
      let r := visitPage read f after ownerDir.indexes found limit s
      if r.1 ∨ ownerDir.indexNext = 0 then some (r.2.1, r.2.2.2)
      else visitPages root after fuel ownerDir.indexNext r.2.1 r.2.2.1 r.2.2.2

/-- The page to start with: that of the hint, if it has the key. -/
def startPage (root after : K) (hint : ℕ) : ℕ :=
  match dirPage read dirHash root hint with
  | none => 0
  | some hintDir => if after ∈ hintDir.indexes then hint else 0

/-- `forEachItemAfter`, from the start if `after` is zero. -/
def forEachItemAfter (zero root after : K) (hint limit fuel : ℕ) (s : σ) : Option (Bool × σ) :=
  if after ≠ zero then visitPages read dirHash f root after fuel (startPage read dirHash root after hint) false limit s
  else visitPages read dirHash f root after fuel 0 true limit s

/-! ## One list of entries -/

/-- The entries are visited up to the `limit`-th that is accepted. -/
def visitUpTo : List K → ℕ → σ → σ
  | [], _, s => s
  | key :: keys, limit, s =>
    let r := f key (read (child key)) s
    if r.1 then if limit ≤ 1 then r.2 else visitUpTo keys (limit - 1) r.2
    else visitUpTo keys limit r.2

/-- The entries that follow a key. -/
def following (after : K) (entries : List K) : List K := (entries.dropWhile (· ≠ after)).tail

/-- What a walk returns: whether the key was found, and the state of the visitor. -/
def outcome (r : Bool × Bool × ℕ × σ) : Bool × σ := (r.2.1, r.2.2.2)

variable {after : K}

theorem visitPage_append (keys rest : List K) (found : Bool) (limit : ℕ) (s : σ) :
    visitPage read f after (keys ++ rest) found limit s =
      let r := visitPage read f after keys found limit s
      if r.1 then r else visitPage read f after rest r.2.1 r.2.2.1 r.2.2.2 := by
  induction keys generalizing found limit s with
  | nil => rfl
  | cons key keys ih =>
    cases found with
    | false => exact ih _ limit s
    | true =>
      by_cases hr : (f key (read (child key)) s).1 = true
      · by_cases hlimit : limit ≤ 1
        · simp [visitPage, hr, hlimit]
        · simpa [visitPage, hr, hlimit] using ih true (limit - 1) (f key (read (child key)) s).2
      · simpa [visitPage, hr] using ih true limit (f key (read (child key)) s).2

theorem visitPage_found (keys : List K) (limit : ℕ) (s : σ) :
    outcome (visitPage read f after keys true limit s) = (true, visitUpTo read f keys limit s) := by
  induction keys generalizing limit s with
  | nil => rfl
  | cons key keys ih =>
    rw [visitPage, visitUpTo, if_neg (by simp)]
    dsimp only
    split_ifs
    · rfl
    · exact ih _ _
    · exact ih _ _

theorem visitPage_absent {keys : List K} (h : after ∉ keys) (limit : ℕ) (s : σ) :
    visitPage read f after keys false limit s = (false, false, limit, s) := by
  induction keys with
  | nil => rfl
  | cons key keys ih =>
    obtain ⟨hne, hkeys⟩ := not_or.mp (List.mem_cons.not.mp h)
    rw [visitPage, if_pos rfl, decide_eq_false (Ne.symm hne)]
    exact ih hkeys

theorem visitPage_present {keys : List K} (h : after ∈ keys) (limit : ℕ) (s : σ) :
    visitPage read f after keys false limit s = visitPage read f after (following after keys) true limit s := by
  induction keys with
  | nil => cases h
  | cons key keys ih =>
    rw [visitPage, if_pos rfl, following]
    by_cases hkey : key = after
    · rw [decide_eq_true hkey, List.dropWhile_cons_of_neg (by simpa using hkey), List.tail_cons]
    · rw [decide_eq_false hkey, List.dropWhile_cons_of_pos (by simpa using hkey)]
      exact ih ((List.mem_cons.mp h).resolve_left (Ne.symm hkey))

/-! ## Pages -/

/-- The pages from `n` on, as they are linked. -/
inductive Linked (dir : ℕ → Option (DirNode K)) : ℕ → List (ℕ × DirNode K) → Prop
  | missing {n : ℕ} (hn : dir n = none) : Linked dir n []
  | last {n : ℕ} {node : DirNode K} (hn : dir n = some node) (hnext : node.indexNext = 0) : Linked dir n [(n, node)]
  | next {n : ℕ} {node : DirNode K} {pages : List (ℕ × DirNode K)} (hn : dir n = some node) (hnext : node.indexNext ≠ 0)
      (hrest : Linked dir node.indexNext pages) : Linked dir n ((n, node) :: pages)

/-- The entries of pages. -/
def listed (pages : List (ℕ × DirNode K)) : List K := pages.flatMap fun p => p.2.indexes

/-- The pages of a directory are those that are linked, and no key is listed twice. -/
structure WellLinked (dir : ℕ → Option (DirNode K)) (pages : List (ℕ × DirNode K)) : Prop where
  linked : Linked dir 0 pages
  complete : ∀ n node, dir n = some node → (n, node) ∈ pages
  nodup : (listed pages).Nodup

theorem Linked.suffix {dir : ℕ → Option (DirNode K)} {n : ℕ} {pages : List (ℕ × DirNode K)} (h : Linked dir n pages)
    {m : ℕ} {node : DirNode K} (hmem : (m, node) ∈ pages) :
    ∃ before rest, pages = before ++ rest ∧ (m, node) ∈ rest ∧ Linked dir m rest := by
  induction h with
  | missing hn => cases hmem
  | last hn hnext =>
    cases List.mem_singleton.mp hmem
    exact ⟨[], _, rfl, hmem, .last hn hnext⟩
  | @next n node' pages hn hnext hrest ih =>
    rcases List.mem_cons.mp hmem with he | hmem'
    · cases he
      exact ⟨[], _, rfl, hmem, .next hn hnext hrest⟩
    · obtain ⟨before, rest, rfl, hin, hlinked⟩ := ih hmem'
      exact ⟨_ :: before, rest, rfl, hin, hlinked⟩

variable {root : K} {pages : List (ℕ × DirNode K)}

variable {fuel : ℕ} {before rest : List K} {zero : K}

/-- **The loop over the pages** is one over their entries. -/
theorem Linked.visitPages {n : ℕ} (h : Linked (dirPage read dirHash root) n pages) (hfuel : pages.length < fuel)
    (found : Bool) (limit : ℕ) (s : σ) : visitPages read dirHash f root after fuel n found limit s =
      some (outcome (visitPage read f after (listed pages) found limit s)) := by
  induction h generalizing fuel found limit s with
  | missing hn =>
    obtain ⟨fuel, rfl⟩ := Nat.exists_eq_succ_of_ne_zero (by omega : fuel ≠ 0)
    rw [Ledger.visitPages, hn]
    rfl
  | @last n node hn hnext =>
    obtain ⟨fuel, rfl⟩ := Nat.exists_eq_succ_of_ne_zero (by omega : fuel ≠ 0)
    rw [Ledger.visitPages, hn]
    dsimp only
    rw [if_pos (Or.inr hnext), listed, List.flatMap_singleton]
    rfl
  | @next n node pages hn hnext hrest ih =>
    obtain ⟨fuel, rfl⟩ := Nat.exists_eq_succ_of_ne_zero (by omega : fuel ≠ 0)
    rw [Ledger.visitPages, hn, listed, List.flatMap_cons, visitPage_append]
    dsimp only
    by_cases hend : (visitPage read f after node.indexes found limit s).1 = true
    · rw [if_pos (Or.inl hend), if_pos hend]
      rfl
    · rw [if_neg (not_or.mpr ⟨hend, hnext⟩), if_neg hend]
      exact ih (Nat.lt_of_succ_lt_succ hfuel) _ _ _

theorem following_append (h : after ∉ before) : following after (before ++ rest) = following after rest := by
  rw [following, List.dropWhile_append_of_pos fun key hkey => by
    simpa using fun he : key = after => h (he ▸ hkey), following]

theorem listed_append (before rest : List (ℕ × DirNode K)) : listed (before ++ rest) = listed before ++ listed rest :=
  List.flatMap_append ..

/-- The pages from the one to start with on have the entries that follow the key. -/
theorem WellLinked.start (h : WellLinked (dirPage read dirHash root) pages) (after : K) (hint : ℕ) :
    ∃ rest, Linked (dirPage read dirHash root) (startPage read dirHash root after hint) rest ∧
      rest.length ≤ pages.length ∧ (after ∈ listed rest ↔ after ∈ listed pages) ∧
      (after ∈ listed pages → following after (listed rest) = following after (listed pages)) := by
  have hroot : ∃ rest, Linked (dirPage read dirHash root) 0 rest ∧ rest.length ≤ pages.length ∧
      (after ∈ listed rest ↔ after ∈ listed pages) ∧
      (after ∈ listed pages → following after (listed rest) = following after (listed pages)) :=
    ⟨pages, h.linked, le_rfl, Iff.rfl, fun _ => rfl⟩
  unfold startPage
  split
  · exact hroot
  next hintDir hdir =>
    split_ifs with hafter
    · obtain ⟨before, rest, rfl, hmem, hlinked⟩ := h.linked.suffix (h.complete _ _ hdir)
      have hrest : after ∈ listed rest := List.mem_flatMap.mpr ⟨_, hmem, hafter⟩
      have hnodup := h.nodup
      rw [listed_append] at hnodup ⊢
      refine ⟨rest, hlinked, by simp, by simp [hrest], fun _ => ?_⟩
      exact (following_append fun hbefore => (List.nodup_append.mp hnodup).2.2 _ hbefore _ hrest rfl).symm
    · exact hroot

theorem WellLinked.visits_following (h : WellLinked (dirPage read dirHash root) pages) (hafter : after ≠ zero)
    (hmem : after ∈ listed pages) (hint limit : ℕ) (hfuel : pages.length < fuel) (s : σ) :
    forEachItemAfter read dirHash f zero root after hint limit fuel s =
      some (true, visitUpTo read f (following after (listed pages)) limit s) := by
  obtain ⟨rest, hlinked, hlength, hiff, hfollow⟩ := h.start read dirHash after hint
  rw [forEachItemAfter, if_pos hafter, hlinked.visitPages read dirHash f (by omega),
    visitPage_present read f (hiff.mpr hmem), visitPage_found, hfollow hmem]

/-! ## Calls that go on where the last one ended -/

/-- The visitor, which writes down what it visits. -/
def logged (key : K) (sle : Option (SLE K A)) (s : σ × List K) : Bool × σ × List K :=
  ((f key sle s.1).1, (f key sle s.1).2, s.2 ++ [key])

/-- Calls, each with a hint and with the key that was visited last, which is zero at first. -/
def sweep (zero root : K) (limit fuel : ℕ) : List ℕ → σ × List K → Option (σ × List K)
  | [], s => some s
  | hint :: hints, s => do
    let r ← forEachItemAfter read dirHash (logged f) zero root (s.2.getLast?.getD zero) hint limit fuel s
    sweep zero root limit fuel hints r.2

theorem visitUpTo_logged (keys : List K) (limit : ℕ) (s : σ × List K) :
    ∃ state visited rest, keys = visited ++ rest ∧ rest.length ≤ keys.length - 1 ∧
      visitUpTo read (logged f) keys limit s = (state, s.2 ++ visited) := by
  induction keys generalizing limit s with
  | nil => exact ⟨s.1, [], [], rfl, le_rfl, by rw [List.append_nil]; rfl⟩
  | cons key keys ih =>
    have hlater : ∀ limit, ∃ state visited rest, key :: keys = visited ++ rest ∧ rest.length ≤ (key :: keys).length - 1 ∧
        visitUpTo read (logged f) keys limit (logged f key (read (child key)) s).2 = (state, s.2 ++ visited) := by
      intro limit
      obtain ⟨state, visited, rest, rfl, hrest, hrun⟩ := ih limit (logged f key (read (child key)) s).2
      exact ⟨state, key :: visited, rest, rfl, by simp, by rw [hrun, logged, List.append_assoc]; rfl⟩
    rw [visitUpTo]
    split_ifs
    · exact ⟨_, [key], keys, rfl, le_rfl, rfl⟩
    · exact hlater _
    · exact hlater _

/-- A call where `before` was visited goes on with the rest. -/
theorem WellLinked.resumes (h : WellLinked (dirPage read dirHash root) pages) (hzero : zero ∉ listed pages)
    (hsplit : listed pages = before ++ rest) (hint limit : ℕ) (hfuel : pages.length < fuel)
    (s : σ) : forEachItemAfter read dirHash f zero root (before.getLast?.getD zero) hint limit fuel s =
      some (true, visitUpTo read f rest limit s) := by
  rcases List.eq_nil_or_concat' before with rfl | ⟨before, key, rfl⟩
  · rw [List.getLast?_nil, Option.getD_none, forEachItemAfter, if_neg (not_not.mpr rfl),
      h.linked.visitPages read dirHash f hfuel, visitPage_found, hsplit, List.nil_append]
  · have hkey : key ∈ listed pages := by simp [hsplit]
    have hne : key ≠ zero := fun he => hzero (he ▸ hkey)
    have hnodup := h.nodup
    rw [hsplit, List.append_assoc, List.nodup_append] at hnodup
    rw [List.getLast?_concat, Option.getD_some,
      h.visits_following read dirHash f hne hkey hint limit hfuel, hsplit, List.append_assoc,
      following_append fun hbefore => hnodup.2.2 key hbefore key (by simp) rfl, following]
    simp

theorem WellLinked.sweep (h : WellLinked (dirPage read dirHash root) pages) (hzero : zero ∉ listed pages) (limit : ℕ)
    (hfuel : pages.length < fuel) (hints : List ℕ) (hsplit : listed pages = before ++ rest)
    (hhints : rest.length ≤ hints.length) (s : σ) :
    ∃ state, sweep read dirHash f zero root limit fuel hints (s, before) = some (state, listed pages) := by
  induction hints generalizing before rest s with
  | nil =>
    rw [List.length_eq_zero_iff.mp (Nat.le_zero.mp hhints), List.append_nil] at hsplit
    exact ⟨s, by rw [hsplit]; rfl⟩
  | cons hint hints ih =>
    obtain ⟨state, visited, rest', rfl, hrest, hrun⟩ := visitUpTo_logged read f rest limit (s, before)
    obtain ⟨state', hsweep⟩ := ih (hsplit.trans (List.append_assoc ..).symm)
      (by rw [List.length_cons] at hhints; omega) state
    refine ⟨state', ?_⟩
    rw [Ledger.sweep, h.resumes read dirHash (logged f) hzero hsplit hint limit hfuel, hrun]
    exact hsweep

/-- For a key other than zero, any limit and any hint: the entries that follow it are visited, up to the limit, if it is in the
directory, and none if it is not. Calls with the key that was visited last visit every entry once. -/
theorem forEachItemAfter_visits (h : WellLinked (dirPage read dirHash root) pages) {zero : K} (limit : ℕ) {fuel : ℕ}
    (hfuel : pages.length < fuel) (s : σ) :
    (∀ after ≠ zero, ∀ hint,
      (after ∈ listed pages → forEachItemAfter read dirHash f zero root after hint limit fuel s =
        some (true, visitUpTo read f (following after (listed pages)) limit s)) ∧
      (after ∉ listed pages → forEachItemAfter read dirHash f zero root after hint limit fuel s = some (false, s))) ∧
    (zero ∉ listed pages → ∀ hints : List ℕ, (listed pages).length ≤ hints.length →
      ∃ state, sweep read dirHash f zero root limit fuel hints (s, []) = some (state, listed pages)) := by
  refine ⟨fun after hafter hint => ⟨fun hmem => ?_, fun hmem => ?_⟩, fun hzero hints hhints => ?_⟩
  · exact h.visits_following read dirHash f hafter hmem hint limit hfuel s
  · obtain ⟨rest, hlinked, hlength, hiff, -⟩ := h.start read dirHash after hint
    rw [forEachItemAfter, if_pos hafter, hlinked.visitPages read dirHash f (by omega),
      visitPage_absent read f (hiff.not.mpr hmem)]
    rfl
  · exact h.sweep read dirHash f hzero limit hfuel hints rfl hhints s

end

/-- A directory of one page, with the keys 1 and 2. -/
def onePage (k : Keylet ℕ (SLE ℕ Unit)) : Option (SLE ℕ Unit) :=
  if k.key = 100 then some (.dirNode ⟨100, [1, 2], 0, 0⟩) else none

/-- A key of zero is not in the directory, and all is visited. -/
theorem forEachItemAfter_zero : 0 ∉ listed [(0, (⟨100, [1, 2], 0, 0⟩ : DirNode ℕ))] ∧
    forEachItemAfter onePage (fun _ n => 200 + n) (fun key _ log => (true, log ++ [key])) 0 100 0 0 5 2 [] = some (true, [1, 2]) := by
  decide

/-- The theorem, with a hint that names no page. -/
theorem forEachItemAfter_visits_second :
    forEachItemAfter onePage (fun _ n => 200 + n) (fun key _ log => (true, log ++ [key])) 0 100 1 7 5 2 [] = some (true, [2]) := by
  have h : WellLinked (dirPage onePage (fun _ n => 200 + n) 100) [(0, ⟨100, [1, 2], 0, 0⟩)] := by
    refine ⟨.last rfl rfl, fun n node hn => ?_, by decide⟩
    by_cases h0 : n = 0
    · subst h0
      cases hn
      exact List.mem_singleton_self _
    · rw [dirPage, page, getDirNodeIndex, if_neg h0, onePage, if_neg (by dsimp only; omega)] at hn
      cases hn
  exact ((forEachItemAfter_visits onePage (fun _ n => 200 + n) (fun key _ log => (true, log ++ [key])) h 5 (by decide) []).1 1
    (by decide) 7).1 (by decide)

end ScfChain.Ledger
