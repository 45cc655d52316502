import ScfChain.Consensus.Validations.Basic

/-!
# Whose support is in the trie

`Tracked s`: every validator that supports a ledger in the trie (a key of `lastLedger`) and every validator whose
ledger is still being acquired has a current trusted validation. A trusted `add` keeps it, and so does
`checkAcquired` (`Acquired.tracked`).

Support is only taken out of the trie when the last acquired ledger of the validator is the ledger of the validation
that is dropped, and a new validation that is not trusted does not touch the trie at all. `Fine p s op` says that
`op` runs into neither: then `Tracked` is kept (`step_tracked`), and a flush leaves only validators with a trusted
validation that is still current (`flushed_support`). `stale_support_stays` is a run that does run into the first.
-/

namespace ScfChain.Consensus.Validations

variable {N L ID : Type} [DecidableEq N] [LinearOrder ID] [HistoryLedger L ID]

/-- The ledger of `key` is being acquired for the node `n`. -/
def Pending (s : Validations N L) (n : N) (key : ℕ × ID) : Prop :=
  ∃ nodes, s.acquiring.lookup key = some nodes ∧ n ∈ nodes

/-- The invariant. -/
structure Tracked (s : Validations N L) : Prop where
  last : ∀ n l, s.lastLedger.lookup n = some l → ∃ v, s.current.lookup n = some v ∧ v.trusted = true
  pending : ∀ n key, s.Pending n key →
    ∃ v, s.current.lookup n = some v ∧ v.trusted = true ∧ (v.seq, v.ledgerID) = key

/-- The last acquired ledger of the node, if any, is that of `v`. -/
def Matches (s : Validations N L) (n : N) (v : Validation ID) : Prop :=
  ∀ l ∈ s.lastLedger.lookup n, idOf l = v.ledgerID

instance (s : Validations N L) (n : N) (v : Validation ID) : Decidable (s.Matches n v) :=
  inferInstanceAs (Decidable (∀ l ∈ s.lastLedger.lookup n, _))

/-! ## Maps and their entries -/

variable {K V : Type} {s s' s₀ : Validations N L} {n : N} {val v : Validation ID} {now : UInt32}
  {added removed : List N}

theorem lookup_insert_eq [DecidableEq K] (m : AList fun _ : K => V) (k k' : K) (v : V) :
    (m.insert k v).lookup k' = if k' = k then some v else m.lookup k' := by
  split
  · next h =>
    rw [h]
    exact AList.lookup_insert m
  · next h => exact AList.lookup_insert_ne h

theorem lookup_erase_eq [DecidableEq K] (m : AList fun _ : K => V) (k k' : K) :
    (m.erase k).lookup k' = if k' = k then none else m.lookup k' := by
  split
  · next h =>
    rw [h]
    exact AList.lookup_erase k m
  · next h => exact AList.lookup_erase_ne h

theorem lookup_iff_mem [DecidableEq K] {m : AList fun _ : K => V} {k : K} {v : V} :
    m.lookup k = some v ↔ ⟨k, v⟩ ∈ m.entries := AList.mem_lookup_iff

theorem ne_of_not_mem_keys {es : List (Sigma fun _ : K => V)} {k : K} (hk : k ∉ es.keys) {e : Sigma fun _ : K => V}
    (he : e ∈ es) : e.1 ≠ k := fun h => hk (h ▸ List.mem_map_of_mem he)

/-! ## What the steps do -/

section Steps

variable (s : Validations N L) (n : N)

theorem dropAcquiring_current (key : ℕ × ID) : (s.dropAcquiring key n).current = s.current := by
  unfold dropAcquiring
  split <;> rfl

theorem dropAcquiring_lastLedger (key : ℕ × ID) : (s.dropAcquiring key n).lastLedger = s.lastLedger := by
  unfold dropAcquiring
  split <;> rfl

variable {m : N}

theorem dropAcquiring_pending {key k : ℕ × ID} (h : (s.dropAcquiring key n).Pending m k) :
    s.Pending m k ∧ ¬ (m = n ∧ k = key) := by
  obtain ⟨nodes', hl, hm⟩ := h
  unfold dropAcquiring at hl
  split at hl
  · next nodes hnodes =>
    simp only at hl
    split at hl
    · next hempty =>
      rw [lookup_erase_eq] at hl
      split at hl
      · cases hl
      · next hk => exact ⟨⟨nodes', hl, hm⟩, fun h => hk h.2⟩
    · rw [lookup_insert_eq] at hl
      split at hl
      · next hk =>
        obtain rfl := Option.some.inj hl
        have hmem := List.mem_filter.mp hm
        refine ⟨⟨nodes, by rw [hk, hnodes], hmem.1⟩, fun h => ?_⟩
        simpa [h.1] using hmem.2
      · next hk => exact ⟨⟨nodes', hl, hm⟩, fun h => hk h.2⟩
  · next hnone =>
    refine ⟨⟨nodes', hl, hm⟩, fun h => ?_⟩
    rw [h.2, hnone] at hl
    cases hl

variable (v : Validation ID)

theorem removeTrie_current : (s.removeTrie n v).current = s.current := by
  unfold removeTrie
  simp only
  split
  · split <;> exact dropAcquiring_current s n _
  · exact dropAcquiring_current s n _

theorem removeTrie_pending {key : ℕ × ID} (h : (s.removeTrie n v).Pending m key) :
    s.Pending m key ∧ ¬ (m = n ∧ key = (v.seq, v.ledgerID)) := by
  have hacq : (s.removeTrie n v).acquiring = (s.dropAcquiring (v.seq, v.ledgerID) n).acquiring := by
    unfold removeTrie
    simp only
    split
    · split <;> rfl
    · rfl
  unfold Pending at h
  rw [hacq] at h
  exact dropAcquiring_pending s n h

theorem removeTrie_lastLedger {l : L} (h : (s.removeTrie n v).lastLedger.lookup m = some l) :
    s.lastLedger.lookup m = some l ∧ ¬ (m = n ∧ s.Matches n v) := by
  unfold removeTrie at h
  simp only [dropAcquiring_lastLedger] at h
  split at h
  · next last hlast =>
    split at h
    · next hid =>
      rw [lookup_erase_eq] at h
      split at h
      · cases h
      · next hne => exact ⟨h, fun hm => hne hm.1⟩
    · next hid =>
      rw [dropAcquiring_lastLedger] at h
      exact ⟨h, fun hm => hid (hm.2 last hlast)⟩
  · next hnone =>
    rw [dropAcquiring_lastLedger] at h
    refine ⟨h, fun hm => ?_⟩
    rw [hm.1, hnone] at h
    cases h

theorem updateLedger_lastLedger (ledger : L) (m : N) :
    (s.updateLedger ledger n).lastLedger.lookup m = if m = n then some ledger else s.lastLedger.lookup m :=
  lookup_insert_eq _ _ _ _

end Steps

/-! ## `checkAcquired` -/

/-- Some of the pending ledgers were acquired from `s` to `s'`. -/
structure Acquired (s s' : Validations N L) : Prop where
  current : s'.current = s.current
  pending : ∀ n key, s'.Pending n key → s.Pending n key
  last : ∀ n l, s'.lastLedger.lookup n = some l →
    s.lastLedger.lookup n = some l ∨ ∃ key, s.Pending n key ∧ idOf l = key.2

theorem Acquired.tracked (h : Acquired s s') (hs : Tracked s) : Tracked s' where
  last n l hl := by
    rw [h.current]
    rcases h.last n l hl with hl | ⟨key, hp, -⟩
    · exact hs.last n l hl
    · obtain ⟨v, hv, ht, -⟩ := hs.pending n key hp
      exact ⟨v, hv, ht⟩
  pending n key hp := by
    rw [h.current]
    exact hs.pending n key (h.pending n key hp)

theorem foldl_updateLedger {ledger : L} {key : ℕ × ID} (hid : idOf ledger = key.2) :
    ∀ {nodes : List N} {s : Validations N L}, (∀ n ∈ nodes, s₀.Pending n key) → Acquired s₀ s →
      Acquired s₀ (nodes.foldl (fun s n => s.updateLedger ledger n) s)
  | [], s, _, h => h
  | n :: nodes, s, hn, h => by
    rw [List.foldl_cons]
    refine foldl_updateLedger hid (fun m hm => hn m (List.mem_cons_of_mem _ hm)) ?_
    refine ⟨h.current, h.pending, fun m l hl => ?_⟩
    rw [updateLedger_lastLedger] at hl
    split at hl
    · next hmn =>
      obtain rfl := Option.some.inj hl
      exact Or.inr ⟨key, by rw [hmn]; exact hn n List.mem_cons_self, hid⟩
    · exact h.last m l hl

variable (env : Env L) (p : ValidationParms)

theorem checkEntry_acquired {key : ℕ × ID} {nodes : List N} (hn : ∀ n ∈ nodes, s₀.Pending n key)
    (h : Acquired s₀ s) : Acquired s₀ (checkEntry env s key nodes) := by
  unfold checkEntry
  split
  · next ledger hl =>
    have hfold := foldl_updateLedger (env.acquire_id _ _ _ hl)
      (fun n hmem => hn n ((env.order_perm N s.tick nodes).mem_iff.mp hmem))
      (s := { s with tick := s.tick + 1 }) ⟨h.current, h.pending, h.last⟩
    refine ⟨hfold.current, fun m k hp => hfold.pending m k ?_, hfold.last⟩
    obtain ⟨ns, hns, hm⟩ := hp
    rw [lookup_erase_eq] at hns
    split at hns
    · cases hns
    · exact ⟨ns, hns, hm⟩
  · exact ⟨h.current, h.pending, h.last⟩

theorem foldl_checkEntry : ∀ {es : List (Sigma fun _ : ℕ × ID => List N)}
    {s : Validations N L}, (∀ e ∈ es, ∀ n ∈ e.2, s₀.Pending n e.1) → Acquired s₀ s →
      Acquired s₀ (es.foldl (fun s e => checkEntry env s e.1 e.2) s)
  | [], s, _, h => h
  | e :: es, s, he, h => by
    rw [List.foldl_cons]
    exact foldl_checkEntry (fun e' he' => he e' (List.mem_cons_of_mem _ he'))
      (checkEntry_acquired env (he e List.mem_cons_self) h)

theorem checkAcquired_acquired (s : Validations N L) : Acquired s (s.checkAcquired env) := by
  refine foldl_checkEntry env (fun e he n hn => ?_) ⟨rfl, fun _ _ h => h, fun _ _ h => Or.inl h⟩
  exact ⟨e.2, lookup_iff_mem.mpr ((env.order_perm _ s.tick _).mem_iff.mp he), hn⟩

/-! ## Trusted validations -/

theorem updateTrie_tracked (prior : Option (ℕ × ID)) (hs : Tracked (s.clearPrior n prior))
    (hval : s.current.lookup n = some val) (ht : val.trusted = true) :
    Tracked (s.updateTrie env n val prior) ∧ (s.updateTrie env n val prior).current = s.current := by
  have hcur : (s.clearPrior n prior).current = s.current := by
    cases prior with
    | none => rfl
    | some key => exact dropAcquiring_current s n key
  unfold updateTrie
  simp only
  generalize s.clearPrior n prior = s₁ at hs hcur ⊢
  have hacq := checkAcquired_acquired env s₁
  have hs₂ := hacq.tracked hs
  have hcur₂ : (s₁.checkAcquired env).current = s.current := hacq.current.trans hcur
  generalize s₁.checkAcquired env = s₂ at hs₂ hcur₂ ⊢
  have hval₂ : s₂.current.lookup n = some val := by rw [hcur₂, hval]
  -- the node may be added to the set of its own ledger
  have hinsert : ∀ (t : ℕ) (nodes : List N), (∀ m ∈ nodes, m = n ∨ s₂.Pending m (val.seq, val.ledgerID)) →
      Tracked { s₂ with tick := t, acquiring := s₂.acquiring.insert (val.seq, val.ledgerID) nodes } := by
    intro t nodes hnodes
    refine ⟨hs₂.last, fun m key hp => ?_⟩
    obtain ⟨ns, hns, hm⟩ := hp
    rw [lookup_insert_eq] at hns
    split at hns
    · next hk =>
      obtain rfl := Option.some.inj hns
      rcases hnodes m hm with rfl | hp
      · exact ⟨val, hval₂, ht, hk.symm⟩
      · exact hs₂.pending m key (by rw [hk]; exact hp)
    · exact hs₂.pending m key ⟨ns, hns, hm⟩
  split
  · next nodes hnodes =>
    refine ⟨hinsert s₂.tick _ fun m hm => ?_, hcur₂⟩
    rcases List.mem_insert_iff.mp hm with rfl | hm
    · exact Or.inl rfl
    · exact Or.inr ⟨nodes, hnodes, hm⟩
  · split
    · next ledger hl =>
      refine ⟨⟨fun m l hml => ?_, hs₂.pending⟩, hcur₂⟩
      rw [updateLedger_lastLedger] at hml
      split at hml
      · next hmn =>
        rw [hmn]
        exact ⟨val, hval₂, ht⟩
      · exact hs₂.last m l hml
    · refine ⟨hinsert _ _ fun m hm => ?_, hcur₂⟩
      exact Or.inl (List.mem_singleton.mp hm)

theorem updateTrie_none_last {m : N} (hmn : m ≠ n) {l : L}
    (h : (s.updateTrie env n val none).lastLedger.lookup m = some l) :
    s.lastLedger.lookup m = some l ∨ ∃ key, s.Pending m key ∧ idOf l = key.2 := by
  refine (checkAcquired_acquired env s).last m l ?_
  unfold updateTrie at h
  simp only at h
  split at h
  · exact h
  · split at h
    · rwa [updateLedger_lastLedger, if_neg hmn] at h
    · exact h

/-- A node whose validation is replaced keeps the others tracked, and is tracked itself where it is neither counted
nor pending, or the new validation is trusted and stands for the same pending ledger. -/
theorem tracked_insert (hs : Tracked s) (val : Validation ID)
    (hlast : ∀ l, s.lastLedger.lookup n = some l → val.trusted = true)
    (hpend : ∀ key, s.Pending n key → val.trusted = true ∧ (val.seq, val.ledgerID) = key) :
    Tracked { s with current := s.current.insert n val } := by
  constructor
  · intro m l hl
    simp only [lookup_insert_eq]
    split
    · next hmn =>
      rw [hmn] at hl
      exact ⟨val, rfl, hlast l hl⟩
    · exact hs.last m l hl
  · intro m key hp
    simp only [lookup_insert_eq]
    split
    · next hmn =>
      rw [hmn] at hp
      exact ⟨val, rfl, hpend key hp⟩
    · exact hs.pending m key hp

theorem Tracked.congr (hs : Tracked s) (hc : s'.current = s.current) (hl : s'.lastLedger = s.lastLedger)
    (ha : s'.acquiring = s.acquiring) : Tracked s' := by
  refine Acquired.tracked ⟨hc, fun n key hp => ?_, fun n l h => Or.inl (by rwa [hl] at h)⟩ hs
  rwa [Pending, ha] at hp

/-! ## Dropped validations -/

theorem removeTrie_gone (hp : ∀ key, s.Pending n key → key = (v.seq, v.ledgerID)) (hm : s.Matches n v) :
    (∀ m l, (s.removeTrie n v).lastLedger.lookup m = some l → s.lastLedger.lookup m = some l ∧ m ≠ n) ∧
      ∀ m key, (s.removeTrie n v).Pending m key → s.Pending m key ∧ m ≠ n := by
  constructor
  · intro m l hl
    obtain ⟨hl, hne⟩ := removeTrie_lastLedger s n v hl
    exact ⟨hl, fun hmn => hne ⟨hmn, hm⟩⟩
  · intro m key hpm
    obtain ⟨hpm, hne⟩ := removeTrie_pending s n v hpm
    exact ⟨hpm, fun hmn => hne ⟨hmn, hp key (hmn ▸ hpm)⟩⟩

theorem Tracked.pending_eq (hs : Tracked s)
    (hv : s.current.lookup n = some v) : ∀ key, s.Pending n key → key = (v.seq, v.ledgerID) := by
  intro key hp
  obtain ⟨v', hv', -, hk⟩ := hs.pending n key hp
  obtain rfl := Option.some.inj (hv.symm.trans hv')
  exact hk.symm

theorem Tracked.without (hs : Tracked s) (hc : ∀ m, m ≠ n → s'.current.lookup m = s.current.lookup m)
    (hl : ∀ m l, s'.lastLedger.lookup m = some l → s.lastLedger.lookup m = some l ∧ m ≠ n)
    (hp : ∀ m key, s'.Pending m key → s.Pending m key ∧ m ≠ n) : Tracked s' := by
  constructor
  · intro m l h
    obtain ⟨h, hmn⟩ := hl m l h
    rw [hc m hmn]
    exact hs.last m l h
  · intro m key h
    obtain ⟨h, hmn⟩ := hp m key h
    rw [hc m hmn]
    exact hs.pending m key h

theorem Tracked.without_pending (hs : Tracked s) (ht : val.trusted = true) (hc : s'.current = s.current.insert n val)
    (hl : s'.lastLedger = s.lastLedger) (hp : ∀ m key, s'.Pending m key → s.Pending m key ∧ m ≠ n) : Tracked s' := by
  constructor
  · intro m l h
    rw [hl] at h
    rw [hc, lookup_insert_eq]
    split
    · exact ⟨val, rfl, ht⟩
    · exact hs.last m l h
  · intro m key h
    obtain ⟨h, hmn⟩ := hp m key h
    rw [hc, lookup_insert_eq, if_neg hmn]
    exact hs.pending m key h

theorem removeTrie_matches {m : N} {w : Validation ID} (h : s.Matches m w) :
    (s.removeTrie n v).Matches m w := fun l hl => h l (removeTrie_lastLedger s n v hl).1

/-! ## Flushing -/

/-- Every stale validation is for the last acquired ledger of its node. -/
def StaleMatches (p : ValidationParms) (s : Validations N L) (now : UInt32) : Prop :=
  ∀ e ∈ s.current.entries, isCurrent p now e.2.signTime e.2.seenTime = false → s.Matches e.1 e.2

instance (p : ValidationParms) (s : Validations N L) (now : UInt32) : Decidable (StaleMatches p s now) :=
  inferInstanceAs (Decidable (∀ e ∈ s.current.entries, _))

/-- Every validation is current. -/
def AllCurrent (p : ValidationParms) (s : Validations N L) (now : UInt32) : Prop :=
  ∀ n v, s.current.lookup n = some v → isCurrent p now v.signTime v.seenTime = true

theorem foldl_flushEntry (now : UInt32) :
    ∀ {es : List (Sigma fun _ : N => Validation ID)} {s : Validations N L}, es.NodupKeys → Tracked s →
      (∀ e ∈ es, s.current.lookup e.1 = some e.2 ∧
        (isCurrent p now e.2.signTime e.2.seenTime = false → s.Matches e.1 e.2)) →
      (∀ n v, s.current.lookup n = some v → ⟨n, v⟩ ∈ es ∨ isCurrent p now v.signTime v.seenTime = true) →
      Tracked (es.foldl (fun s e => flushEntry p now s e.1 e.2) s) ∧
        AllCurrent p (es.foldl (fun s e => flushEntry p now s e.1 e.2) s) now
  | [], s, _, hs, _, hall => ⟨hs, fun n v hv => (hall n v hv).resolve_left List.not_mem_nil⟩
  | ⟨n, v⟩ :: es, s, hnd, hs, hes, hall => by
    obtain ⟨hv, hm⟩ := hes ⟨n, v⟩ List.mem_cons_self
    rw [List.nodupKeys_cons] at hnd
    rw [List.foldl_cons]
    unfold flushEntry
    split
    · next hcur =>
      refine foldl_flushEntry now hnd.2 hs (fun e he => hes e (List.mem_cons_of_mem _ he)) fun m w hw => ?_
      rcases hall m w hw with hmem | hcur'
      · rcases List.mem_cons.mp hmem with heq | hmem
        · obtain ⟨rfl, hvw⟩ := Sigma.mk.inj heq
          obtain rfl := eq_of_heq hvw
          exact Or.inr hcur
        · exact Or.inl hmem
      · exact Or.inr hcur'
    · next hcur =>
      have hcur : isCurrent p now v.signTime v.seenTime = false := Bool.eq_false_iff.mpr hcur
      have hlook : ∀ m, ((s.removeTrie n v).current.erase n).lookup m =
          if m = n then none else s.current.lookup m := fun m => by rw [lookup_erase_eq, removeTrie_current]
      refine foldl_flushEntry now hnd.2 ?_ (fun e he => ?_) fun m w hw => ?_
      · obtain ⟨hl, hp⟩ := removeTrie_gone (hs.pending_eq hv) (hm hcur)
        exact hs.without (fun m hmn => by rw [hlook, if_neg hmn]) hl hp
      · obtain ⟨hev, hem⟩ := hes e (List.mem_cons_of_mem _ he)
        rw [hlook, if_neg (ne_of_not_mem_keys hnd.1 he)]
        exact ⟨hev, fun hst => removeTrie_matches (hem hst)⟩
      · rw [hlook] at hw
        split at hw
        · cases hw
        · next hmn =>
          rcases hall m w hw with hmem | hcur'
          · rcases List.mem_cons.mp hmem with heq | hmem
            · exact absurd (Sigma.mk.inj heq).1 hmn
            · exact Or.inl hmem
          · exact Or.inr hcur'

theorem flushStale_tracked (hs : Tracked s) (hm : StaleMatches p s now) :
    Tracked (s.flushStale env p now) ∧ AllCurrent p (s.flushStale env p now) now := by
  have hperm := env.order_perm _ s.tick s.current.entries
  refine foldl_flushEntry p now ((List.perm_nodupKeys hperm).mpr s.current.nodupKeys)
    (hs.congr rfl rfl rfl) (fun e he => ?_) fun n v hv => ?_
  · have hmem := hperm.mem_iff.mp he
    exact ⟨lookup_iff_mem.mpr hmem, hm e hmem⟩
  · exact Or.inl (hperm.mem_iff.mpr (lookup_iff_mem.mp hv))

theorem prepareTrie_tracked (hs : Tracked s) (hm : StaleMatches p s now) :
    Tracked (s.prepareTrie env p now) ∧ AllCurrent p (s.prepareTrie env p now) now := by
  obtain ⟨ht, hc⟩ := flushStale_tracked env p hs hm
  have hacq := checkAcquired_acquired env (s.flushStale env p now)
  refine ⟨hacq.tracked ht, fun n v hv => hc n v ?_⟩
  rw [← hacq.current]
  exact hv

/-! ## `trustChanged` -/

/-- Every validator that loses trust has its support from the validation that does. -/
def RemovedMatches (s : Validations N L) (added removed : List N) : Prop :=
  ∀ e ∈ s.current.entries, e.1 ∉ added → e.1 ∈ removed → s.Matches e.1 e.2

instance (s : Validations N L) (added removed : List N) : Decidable (RemovedMatches s added removed) :=
  inferInstanceAs (Decidable (∀ e ∈ s.current.entries, _))

theorem trustEntry_tracked (hs : Tracked s) (hv : s.current.lookup n = some v)
    (hm : n ∉ added → n ∈ removed → s.Matches n v) :
    Tracked (trustEntry env added removed s n v) ∧
      ∀ m w, m ≠ n → s.current.lookup m = some w →
        (trustEntry env added removed s n v).current.lookup m = some w ∧
          (s.Matches m w → (trustEntry env added removed s n v).Matches m w) := by
  unfold trustEntry
  split
  · -- now trusted
    have hins : Tracked { s with current := s.current.insert n { v with trusted := true } } := by
      exact tracked_insert hs _ (fun _ _ => rfl) fun key hp => ⟨rfl, (hs.pending_eq hv key hp).symm⟩
    obtain ⟨ht, hc⟩ := updateTrie_tracked env none hins
      (by rw [lookup_insert_eq, if_pos rfl] : _ = some { v with trusted := true }) rfl
    refine ⟨ht, fun m w hmn hw => ?_⟩
    have hw' : (s.current.insert n { v with trusted := true }).lookup m = some w := by
      rw [lookup_insert_eq, if_neg hmn, hw]
    refine ⟨by rw [hc]; exact hw', fun hmatch l hl => ?_⟩
    rcases updateTrie_none_last env hmn hl with hl | ⟨key, hp, hid⟩
    · exact hmatch l hl
    · obtain ⟨w', hw'', -, hkey⟩ := hins.pending m key hp
      obtain rfl := Option.some.inj (hw'.symm.trans hw'')
      rw [hid, ← hkey]
  · split
    · -- no longer trusted
      next hna hr =>
      have hcur : ∀ m, m ≠ n →
          ((removeTrie { s with current := s.current.insert n { v with trusted := false } } n
            { v with trusted := false }).current).lookup m = s.current.lookup m := by
        intro m hmn
        rw [removeTrie_current]
        exact (lookup_insert_eq _ _ _ _).trans (if_neg hmn)
      refine ⟨?_, fun m w hmn hw => ⟨by rw [hcur m hmn, hw], fun hmatch => removeTrie_matches hmatch⟩⟩
      have hkey : ∀ key, s.Pending n key → key = (v.seq, v.ledgerID) := hs.pending_eq hv
      obtain ⟨hl, hp⟩ := removeTrie_gone (v := { v with trusted := false })
        (s := { s with current := s.current.insert n { v with trusted := false } }) hkey (hm hna hr)
      exact hs.without hcur hl hp
    · exact ⟨hs, fun m w _ hw => ⟨hw, id⟩⟩

theorem foldl_trustEntry :
    ∀ {es : List (Sigma fun _ : N => Validation ID)} {s : Validations N L}, es.NodupKeys → Tracked s →
      (∀ e ∈ es, s.current.lookup e.1 = some e.2 ∧ (e.1 ∉ added → e.1 ∈ removed → s.Matches e.1 e.2)) →
      Tracked (es.foldl (fun s e => trustEntry env added removed s e.1 e.2) s)
  | [], s, _, hs, _ => hs
  | ⟨n, v⟩ :: es, s, hnd, hs, hes => by
    obtain ⟨hv, hm⟩ := hes ⟨n, v⟩ List.mem_cons_self
    rw [List.nodupKeys_cons] at hnd
    rw [List.foldl_cons]
    obtain ⟨ht, hothers⟩ := trustEntry_tracked env hs hv hm
    refine foldl_trustEntry hnd.2 ht fun e he => ?_
    obtain ⟨hev, hem⟩ := hes e (List.mem_cons_of_mem _ he)
    obtain ⟨hcur, hmatch⟩ := hothers e.1 e.2 (ne_of_not_mem_keys hnd.1 he) hev
    exact ⟨hcur, fun hna hr => hmatch (hem hna hr)⟩

theorem trustChanged_tracked (hs : Tracked s)
    (hm : RemovedMatches s added removed) : Tracked (s.trustChanged env added removed) := by
  have hperm := env.order_perm _ s.tick s.current.entries
  have hfold := foldl_trustEntry env
    ((List.perm_nodupKeys hperm).mpr s.current.nodupKeys)
    (s := { s with tick := s.tick + 1 }) (hs.congr rfl rfl rfl) fun e he => by
      have hmem := hperm.mem_iff.mp he
      exact ⟨lookup_iff_mem.mpr hmem, hm e hmem⟩
  exact hfold.congr rfl rfl rfl

/-! ## `add` -/

/-- The validation gets past the checks of `add` and takes the place of an older one. -/
def Replaces (p : ValidationParms) (s : Validations N L) (now : UInt32) (steady : ℤ) (n : N) (val : Validation ID) :
    Prop :=
  isCurrent p now val.signTime val.seenTime = true ∧
    (((s.seqEnforcers.lookup n).getD {}).advance steady val.seq p).1 = true ∧
    ∃ old ∈ s.current.lookup n, old.signTime < val.signTime

instance (p : ValidationParms) (s : Validations N L) (now : UInt32) (steady : ℤ) (n : N) (val : Validation ID) :
    Decidable (Replaces p s now steady n val) :=
  inferInstanceAs (Decidable (_ ∧ _ ∧ ∃ old ∈ s.current.lookup n, _))

/-- The node is neither counted in the trie nor waiting for a ledger. -/
def Unsupported (s : Validations N L) (n : N) : Prop :=
  s.lastLedger.lookup n = none ∧ ∀ e ∈ s.acquiring.entries, n ∉ e.2

instance (s : Validations N L) (n : N) : Decidable (Unsupported s n) :=
  inferInstanceAs (Decidable (_ ∧ ∀ e ∈ s.acquiring.entries, _))

theorem Tracked.unsupported (hs : Tracked s) (hn : s.current.lookup n = none) : Unsupported s n := by
  have hne : ∀ v, s.current.lookup n ≠ some v := Option.eq_none_iff_forall_ne_some.mp hn
  refine ⟨Option.eq_none_iff_forall_ne_some.mpr fun l hl => ?_, fun e he hmem => ?_⟩
  · obtain ⟨v, hv, -⟩ := hs.last n l hl
    exact hne v hv
  · obtain ⟨v, hv, -⟩ := hs.pending n e.1 ⟨e.2, lookup_iff_mem.mpr he, hmem⟩
    exact hne v hv

theorem Tracked.insert_unsupported (hs : Tracked s) (h : Unsupported s n) (val : Validation ID) :
    Tracked { s with current := s.current.insert n val } := by
  refine tracked_insert hs val (fun l hl => ?_) fun key hp => ?_
  · rw [h.1] at hl
    cases hl
  · obtain ⟨nodes, hn, hmem⟩ := hp
    exact absurd hmem (h.2 ⟨key, nodes⟩ (lookup_iff_mem.mp hn))

theorem add_tracked {steady : ℤ} (hs : Tracked s)
    (hfine : val.trusted = false → Replaces p s now steady n val → Unsupported s n) :
    Tracked (s.add env p now steady n val).2 := by
  unfold add
  split
  · exact hs
  · next hcur =>
    have hcur : isCurrent p now val.signTime val.seenTime = true := by simpa using hcur
    simp only
    split
    · exact hs.congr rfl rfl rfl
    · next hok =>
      have hok : (((s.seqEnforcers.lookup n).getD {}).advance steady val.seq p).1 = true := by simpa using hok
      split
      · next old hold =>
        split
        · next hnew =>
          by_cases ht : val.trusted = true
          · rw [if_pos ht]
            refine (updateTrie_tracked env _ ?_ ((lookup_insert_eq _ _ _ _).trans (if_pos rfl)) ht).1
            -- the acquiring entry of the old validation was the only one of the node
            refine hs.without_pending ht (dropAcquiring_current _ _ _) (dropAcquiring_lastLedger _ _ _) ?_
            intro m key hp
            obtain ⟨hp, hne⟩ := dropAcquiring_pending _ n hp
            exact ⟨hp, fun hmn => hne ⟨hmn, hs.pending_eq hold key (hmn ▸ hp)⟩⟩
          · rw [if_neg ht]
            have hun := hfine (Bool.eq_false_iff.mpr ht) ⟨hcur, hok, old, hold, hnew⟩
            exact (hs.insert_unsupported hun val).congr rfl rfl rfl
        · exact hs.congr rfl rfl rfl
      · next hnone =>
        have hins := hs.insert_unsupported (hs.unsupported hnone) val
        by_cases ht : val.trusted = true
        · rw [if_pos ht]
          refine (updateTrie_tracked env none ?_ ((lookup_insert_eq _ _ _ _).trans (if_pos rfl)) ht).1
          exact hins.congr rfl rfl rfl
        · rw [if_neg ht]
          exact hins.congr rfl rfl rfl

/-! ## Runs -/

/-- The operation drops a validation only where the support goes with it, and no validation that is not trusted
takes the place of one that has support. -/
def Fine (p : ValidationParms) (s : Validations N L) : Op N L ID → Prop
  | .canValidateSeq _ _ => True
  | .add now steady n val => val.trusted = false → Replaces p s now steady n val → Unsupported s n
  | .expire _ => True
  | .trustChanged added removed => RemovedMatches s added removed
  | .getPreferred now _ => StaleMatches p s now
  | .getNodesAfter now ledger ledgerID => idOf ledger = ledgerID → StaleMatches p s now
  | .getCurrentNodeIDs now => StaleMatches p s now

instance (p : ValidationParms) (s : Validations N L) : (op : Op N L ID) → Decidable (Fine p s op)
  | .canValidateSeq _ _ => inferInstanceAs (Decidable True)
  | .add _ _ _ _ => inferInstanceAs (Decidable (_ → _ → _))
  | .expire _ => inferInstanceAs (Decidable True)
  | .trustChanged _ _ => inferInstanceAs (Decidable (RemovedMatches _ _ _))
  | .getPreferred _ _ => inferInstanceAs (Decidable (StaleMatches _ _ _))
  | .getNodesAfter _ _ _ => inferInstanceAs (Decidable (_ → _))
  | .getCurrentNodeIDs _ => inferInstanceAs (Decidable (StaleMatches _ _ _))

/-- The network time at which the operation flushes the stale validations, if it does. -/
def Op.flushedAt : Op N L ID → Option UInt32
  | .getPreferred now _ => some now
  | .getNodesAfter now ledger ledgerID => if idOf ledger = ledgerID then some now else none
  | .getCurrentNodeIDs now => some now
  | _ => none

theorem getPreferred_snd (s : Validations N L) (now : UInt32) (curr : L) :
    ∃ t, (s.getPreferred env p now curr).2 = { s.prepareTrie env p now with tick := t } := by
  unfold getPreferred
  simp only
  split
  · exact ⟨_, rfl⟩
  · split_ifs <;> exact ⟨_, rfl⟩

/-- **One operation.** -/
theorem step_tracked (hs : Tracked s) {op : Op N L ID} (hfine : Fine p s op) :
    Tracked (s.step env p op) ∧ ∀ now, op.flushedAt = some now → AllCurrent p (s.step env p op) now := by
  cases op with
  | canValidateSeq steady sq => exact ⟨hs.congr rfl rfl rfl, fun _ h => by cases h⟩
  | add now steady n val => exact ⟨add_tracked env p hs hfine, fun _ h => by cases h⟩
  | expire steady => exact ⟨hs.congr rfl rfl rfl, fun _ h => by cases h⟩
  | trustChanged added removed => exact ⟨trustChanged_tracked env hs hfine, fun _ h => by cases h⟩
  | getPreferred now curr =>
    obtain ⟨ht, hc⟩ := prepareTrie_tracked env p hs hfine
    obtain ⟨t, heq⟩ := getPreferred_snd env p s now curr
    rw [show s.step env p (.getPreferred now curr) = (s.getPreferred env p now curr).2 from rfl, heq]
    refine ⟨ht.congr rfl rfl rfl, fun now' h => ?_⟩
    obtain rfl := Option.some.inj h
    exact hc
  | getNodesAfter now ledger ledgerID =>
    rw [show s.step env p (.getNodesAfter now ledger ledgerID) = (s.getNodesAfter env p now ledger ledgerID).2
      from rfl]
    unfold getNodesAfter Op.flushedAt
    by_cases hid : idOf ledger = ledgerID
    · obtain ⟨ht, hc⟩ := prepareTrie_tracked env p hs (hfine hid)
      simp only [if_pos hid]
      refine ⟨ht, fun now' h => ?_⟩
      obtain rfl := Option.some.inj h
      exact hc
    · simp only [if_neg hid]
      exact ⟨hs, fun _ h => by cases h⟩
  | getCurrentNodeIDs now =>
    obtain ⟨ht, hc⟩ := flushStale_tracked env p hs hfine
    refine ⟨ht, fun now' h => ?_⟩
    obtain rfl := Option.some.inj h
    exact hc

/-- Every operation of the run is `Fine` in the state it is called in. -/
def AllFine (env : Env L) (p : ValidationParms) : Validations N L → List (Op N L ID) → Prop
  | _, [] => True
  | s, op :: ops => Fine p s op ∧ AllFine env p (s.step env p op) ops

instance instDecidableAllFine (env : Env L) (p : ValidationParms) :
    (s : Validations N L) → (ops : List (Op N L ID)) → Decidable (AllFine env p s ops)
  | _, [] => inferInstanceAs (Decidable True)
  | s, op :: ops =>
    have := instDecidableAllFine env p (s.step env p op) ops
    inferInstanceAs (Decidable (_ ∧ _))

theorem tracked_new : Tracked (new : Validations N L) where
  last n l h := by simp [new] at h
  pending n key := by
    rintro ⟨nodes, h, -⟩
    simp [new] at h

theorem foldl_tracked : ∀ {ops : List (Op N L ID)} {s : Validations N L},
    Tracked s → AllFine env p s ops → Tracked (ops.foldl (fun s op => s.step env p op) s)
  | [], _, hs, _ => hs
  | _ :: ops, _, hs, h => by
    rw [List.foldl_cons]
    exact foldl_tracked (step_tracked env p hs h.1).1 h.2

theorem allFine_append {op : Op N L ID} : ∀ {ops : List (Op N L ID)}
    {s : Validations N L}, AllFine env p s (ops ++ [op]) →
      AllFine env p s ops ∧ Fine p (ops.foldl (fun s op => s.step env p op) s) op
  | [], _, h => ⟨trivial, h.1⟩
  | _ :: ops, _, h => by
    obtain ⟨hops, hop⟩ := allFine_append h.2
    exact ⟨⟨h.1, hops⟩, hop⟩

/-- **After a flush, every validator with support in the trie has a current trusted validation**, in every run whose
operations are `Fine`. -/
theorem flushed_support (env : Env L) (p : ValidationParms) (ops : List (Op N L ID)) (op : Op N L ID)
    (hfine : AllFine env p new (ops ++ [op])) :
    let s := run env p (ops ++ [op])
    (∀ n ∈ s.lastLedger, ∃ v, s.current.lookup n = some v ∧ v.trusted = true) ∧
    ∀ now, op.flushedAt = some now → ∀ n ∈ s.lastLedger, ∃ v, s.current.lookup n = some v ∧ v.trusted = true ∧
      isCurrent p now v.signTime v.seenTime = true := by
  obtain ⟨hops, hop⟩ := allFine_append env p hfine
  obtain ⟨ht, hc⟩ := step_tracked env p (foldl_tracked env p tracked_new hops) hop
  have hrun : run env p (ops ++ [op]) = step env p (ops.foldl (fun s op => s.step env p op) new) op := by
    unfold run
    rw [List.foldl_append]
    rfl
  rw [hrun]
  refine ⟨fun n hn => ?_, fun now hnow n hn => ?_⟩
  · obtain ⟨l, hl⟩ := Option.isSome_iff_exists.mp (AList.lookup_isSome.mpr hn)
    exact ht.last n l hl
  · obtain ⟨l, hl⟩ := Option.isSome_iff_exists.mp (AList.lookup_isSome.mpr hn)
    obtain ⟨v, hv, htr⟩ := ht.last n l hl
    exact ⟨v, hv, htr, hc now hnow n v hv⟩

/-- An environment that has every ledger but `[1, 2]`. -/
def lackingEnv : Env (List ℕ) where
  acquire _ x := if x = [1, 2] then none else some x
  acquire_id _ x l h := by
    split at h
    · cases h
    · exact (Option.some.inj h).symm
  order _ _ l := l
  order_perm _ _ l := .refl l

/-- Of two validators of `[1]` the first one expires. -/
theorem flushed_support_two :
    AllFine lackingEnv {} (new : Validations ℕ (List ℕ))
      ([.add 1000 0 7 ⟨[1], 1, 1000, 1000, true⟩, .add 1100 0 8 ⟨[1], 1, 1100, 1100, true⟩] ++
        [.getPreferred 1200 []]) ∧
    let s := run lackingEnv {}
      ([.add 1000 0 7 ⟨[1], 1, 1000, 1000, true⟩, .add 1100 0 8 ⟨[1], 1, 1100, 1100, true⟩] ++
        [Op.getPreferred 1200 []])
    8 ∈ s.lastLedger ∧ ∃ v, s.current.lookup 8 = some v ∧ v.trusted = true ∧
      isCurrent {} 1200 v.signTime v.seenTime = true := by
  refine ⟨by decide +kernel, by decide +kernel, ?_⟩
  exact (flushed_support _ _ _ _ (by decide +kernel)).2 1200 rfl 8 (by decide +kernel)

/-- A validator moves on from `[1]` to `[1, 2]`, which cannot be acquired, and then stops: its validation is flushed
and its support for `[1]` stays in the trie. -/
theorem stale_support_stays :
    let s := run lackingEnv {} [.add 1000 0 7 ⟨[1], 1, 1000, 1000, true⟩,
      .add 1010 0 7 ⟨[1, 2], 2, 1010, 1010, true⟩, Op.getPreferred 2000 []]
    7 ∈ s.lastLedger ∧ (s.current.lookup 7).isNone = true ∧ s.trie.tipSupport [1] = 1 := by
  decide +kernel

-- the same with the validator taken off the list, and with a last validation that is not trusted
example :
    let s := run lackingEnv {} [.add 1000 0 7 ⟨[1], 1, 1000, 1000, true⟩,
      .add 1010 0 7 ⟨[1, 2], 2, 1010, 1010, true⟩, Op.trustChanged [] [7]]
    7 ∈ s.lastLedger ∧ ∀ v ∈ s.current.lookup 7, v.trusted = false := by
  decide +kernel

example :
    let s := run lackingEnv {} [.add 1000 0 7 ⟨[1], 1, 1000, 1000, true⟩,
      .add 1010 0 7 ⟨[1, 2], 2, 1010, 1010, false⟩, Op.getPreferred 1010 []]
    7 ∈ s.lastLedger ∧ ∀ v ∈ s.current.lookup 7, v.trusted = false := by
  decide +kernel

end ScfChain.Consensus.Validations
