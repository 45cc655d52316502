import ScfChain.App.ValidatorList

/-!
# Listings

The counts of `ValidatorList` are those of the stored lists (`Sound`), whatever is published, expires or is revoked.

* `countOf_updateListings` : the merge of two lists, sorted or not.
* `Sound.step` : every operation keeps the counts right.
* `Later` : the lists of a later state have later sequences.
* `updateTrusted_eq` : what is trusted, and what has changed.
* `validator_lists` : every run.
-/

namespace ScfChain.App.ValidatorList

open Data

variable {K N : Type} [LinearOrder K] [DecidableEq N]

/-- How often `k` is on the stored lists. -/
def occurrences (v : ValidatorList K) (k : K) : ℕ := totalOf (fun _ l => l.list.count k) v.publisherLists_

structure Sound (noKey : K) (v : ValidatorList K) : Prop where
  counts : Counts v.keyListings_
  listings : ∀ k, countOf v.keyListings_ k = v.occurrences k + if k = v.localPubKey_ ∧ k ≠ noKey then 1 else 0

variable {noKey : K} {v : ValidatorList K}

/-! ## The listings -/

theorem count_cons_eq (k k' : K) (l : List K) : (k' :: l).count k = l.count k + if k = k' then 1 else 0 := by
  rw [List.count_cons]
  by_cases h : k = k'
  · simp [h]
  · simp [h, Ne.symm h]

theorem countOf_updateListings {new old : List K} {m : Assoc K ℕ} (h : ∀ k, old.count k ≤ countOf m k) (k : K) :
    countOf (updateListings new old m) k + old.count k = countOf m k + new.count k := by
  fun_induction updateListings new old m with
  | case1 => simp
  | case2 n new m ih =>
    have hrest := ih fun k => Nat.zero_le _
    rw [hrest, countOf_increment, count_cons_eq]
    omega
  | case3 o old m ih =>
    have hold := h k
    have hrest := ih fun k => by
      have hk := h k
      rw [count_cons_eq] at hk
      rw [countOf_decrement]
      omega
    rw [countOf_decrement] at hrest
    rw [count_cons_eq] at hold ⊢
    omega
  | case4 n new o old m hlt ih =>
    have hrest := ih fun k => (h k).trans (by rw [countOf_increment]; omega)
    rw [hrest, countOf_increment, count_cons_eq k n]
    omega
  | case5 n new o old m hlt hgt ih =>
    have hold := h k
    have hrest := ih fun k => by
      have hk := h k
      rw [count_cons_eq] at hk
      rw [countOf_decrement]
      omega
    rw [countOf_decrement] at hrest
    rw [count_cons_eq k o] at hold ⊢
    omega
  | case6 n new o old m hlt hgt ih =>
    have heq : n = o := le_antisymm (not_lt.mp hgt) (not_lt.mp hlt)
    have hrest := ih fun k => by
      have hk := h k
      rw [count_cons_eq] at hk
      omega
    rw [heq, count_cons_eq, count_cons_eq]
    omega

theorem counts_updateListings {new old : List K} {m : Assoc K ℕ} (h : Counts m) : Counts (updateListings new old m) := by
  fun_induction updateListings new old m with
  | case1 => exact h
  | case2 n new m ih => exact ih (h.increment n)
  | case3 o old m ih => exact ih (h.decrement o)
  | case4 n new o old m hlt ih => exact ih (h.increment n)
  | case5 n new o old m hlt hgt ih => exact ih (h.decrement o)
  | case6 n new o old m hlt hgt ih => exact ih h

theorem occurrences_eq (v : ValidatorList K) (p k : K) :
    v.occurrences k = ((v.publisherLists_.lookup p).getD .unknown).list.count k +
      totalOf (fun _ l => l.list.count k) (v.publisherLists_.erase p) := by
  rw [occurrences, totalOf_erase _ _ p]
  cases v.publisherLists_.lookup p with
  | none => rfl
  | some l => rfl

theorem Sound.count_le (h : Sound noKey v) (p k : K) :
    ((v.publisherLists_.lookup p).getD .unknown).list.count k ≤ countOf v.keyListings_ k := by
  rw [h.listings, v.occurrences_eq p]
  omega

variable {v' : ValidatorList K} {p : K} {l : PublisherList K}

theorem Sound.insert (h : Sound noKey v)
    (hlists : v'.publisherLists_ = v.publisherLists_.insert p l) (hlocal : v'.localPubKey_ = v.localPubKey_)
    (hcounts : Counts v'.keyListings_)
    (hcountOf : ∀ k, countOf v'.keyListings_ k + ((v.publisherLists_.lookup p).getD .unknown).list.count k =
      countOf v.keyListings_ k + l.list.count k) : Sound noKey v' := by
  refine ⟨hcounts, fun k => ?_⟩
  have hk := hcountOf k
  rw [h.listings, v.occurrences_eq p] at hk
  rw [occurrences, hlists, totalOf_insert, hlocal]
  omega

theorem Sound.removePublisherList (h : Sound noKey v) (p : K) : Sound noKey (v.removePublisherList p) := by
  unfold ValidatorList.removePublisherList
  cases hl : v.publisherLists_.lookup p with
  | none => exact h
  | some l =>
    refine h.insert rfl rfl (h.counts.foldl_decrement l.list) fun k => ?_
    have hle := h.count_le p k
    rw [hl, Option.getD_some] at hle
    rw [countOf_foldl_decrement, hl, Option.getD_some, List.count_nil]
    omega

theorem Sound.publish (h : Sound noKey v) (p : K) (list : ListBlob K) : Sound noKey (v.publish p list) :=
  h.insert rfl rfl (counts_updateListings h.counts) (countOf_updateListings (h.count_le p))

theorem Sound.erase (h : Sound noKey v) (hl : v.publisherLists_.lookup p = some l)
    (hempty : l.list = []) : Sound noKey { v with publisherLists_ := v.publisherLists_.erase p } := by
  refine ⟨h.counts, fun k => ?_⟩
  rw [h.listings, v.occurrences_eq p, hl, Option.getD_some, hempty, List.count_nil, Nat.zero_add]
  rfl

theorem lookup_removePublisherList_self (hl : v.publisherLists_.lookup p = some l) :
    (v.removePublisherList p).publisherLists_.lookup p = some { l with list := [], available := false } := by
  unfold ValidatorList.removePublisherList
  rw [hl]
  exact AList.lookup_insert _

/-! ## What the operations do -/

/-- The changes that operations are made of. -/
inductive Move : ValidatorList K → ValidatorList K → Prop
  | manifests (v : ValidatorList K) (validators publishers : ManifestCache K) (trusted : Finset K) :
    Move v { v with validatorManifests_ := validators, publisherManifests_ := publishers, trustedKeys_ := trusted }
  | remove (v : ValidatorList K) (p : K) : Move v (v.removePublisherList p)
  | forget (v : ValidatorList K) (p : K) {l : PublisherList K} (hl : v.publisherLists_.lookup p = some l)
    (hempty : l.list = []) : Move v { v with publisherLists_ := v.publisherLists_.erase p }
  | publish (v : ValidatorList K) (p : K) (list : ListBlob K) {l : PublisherList K}
    (hl : v.publisherLists_.lookup p = some l) (hsequence : l.sequence < list.sequence) : Move v (v.publish p list)

abbrev Moves : ValidatorList K → ValidatorList K → Prop := Relation.ReflTransGen Move

theorem Sound.moves (h : Sound noKey v) (hmoves : Moves v v') : Sound noKey v' := by
  induction hmoves with
  | refl => exact h
  | tail _ hmove ih =>
    cases hmove with
    | manifests => exact ⟨ih.counts, ih.listings⟩
    | remove p => exact ih.removePublisherList p
    | forget p hl hempty => exact ih.erase hl hempty
    | publish p list => exact ih.publish p list

/-- The publishers of `v'` were publishers in `v`, with earlier sequences. -/
def Later (v v' : ValidatorList K) : Prop :=
  ∀ p l', v'.publisherLists_.lookup p = some l' → ∃ l, v.publisherLists_.lookup p = some l ∧ l.sequence ≤ l'.sequence

theorem later_of_move {v : ValidatorList K} (h : Move v v') : Later v v' := by
  intro p l' hl'
  cases h with
  | manifests => exact ⟨l', hl', le_rfl⟩
  | remove p' =>
    unfold ValidatorList.removePublisherList at hl'
    split at hl'
    · exact ⟨l', hl', le_rfl⟩
    · rename_i l hl
      by_cases hp : p = p'
      · subst hp
        rw [AList.lookup_insert] at hl'
        cases hl'
        exact ⟨l, hl, le_rfl⟩
      · rw [AList.lookup_insert_ne hp] at hl'
        exact ⟨l', hl', le_rfl⟩
  | forget p' =>
    by_cases hp : p = p'
    · subst hp
      rw [AList.lookup_erase] at hl'
      cases hl'
    · rw [AList.lookup_erase_ne hp] at hl'
      exact ⟨l', hl', le_rfl⟩
  | publish p' list hl hsequence =>
    rw [ValidatorList.publish] at hl'
    by_cases hp : p = p'
    · subst hp
      rw [AList.lookup_insert] at hl'
      cases hl'
      exact ⟨_, hl, by dsimp only; omega⟩
    · rw [AList.lookup_insert_ne hp] at hl'
      exact ⟨l', hl', le_rfl⟩

theorem later_of_moves {v : ValidatorList K} (h : Moves v v') : Later v v' := by
  induction h with
  | refl => exact fun p l hl => ⟨l, hl, le_rfl⟩
  | tail _ hmove ih =>
    intro p l' hl'
    obtain ⟨l, hl, hle⟩ := later_of_move hmove p l' hl'
    obtain ⟨l₀, hl₀, hle₀⟩ := ih p l hl
    exact ⟨l₀, hl₀, hle₀.trans hle⟩

theorem moves_foldl {α : Type} {f : ValidatorList K → α → ValidatorList K} (hf : ∀ v a, Moves v (f v a)) (as : List α)
    (v : ValidatorList K) : Moves v (as.foldl f v) := by
  induction as generalizing v with
  | nil => exact .refl
  | cons a as ih => exact (hf v a).trans (ih (f v a))

variable (verifyManifest : Manifest K → Bool) (calcNodeID : K → N) (now : ℕ)

/-- `verify` changes the manifests of the publishers and takes a list away if its publisher is revoked; what it accepts has
a later sequence. -/
theorem moves_verify (v : ValidatorList K) (published : PublishedList K) :
    Moves v (v.verify verifyManifest now published).2 ∧
      ∀ p list, (v.verify verifyManifest now published).1 = .ok (.inr (p, list)) →
        ∃ l, (v.verify verifyManifest now published).2.publisherLists_.lookup p = some l ∧ l.sequence < list.sequence := by
  have hmanifests : ∀ c, Moves v { v with publisherManifests_ := c } := fun c =>
    .single (.manifests v v.validatorManifests_ c v.trustedKeys_)
  unfold verify
  cases published.manifest with
  | none => exact ⟨.refl, by simp⟩
  | some m =>
    dsimp only
    by_cases hmem : m.masterKey ∈ v.publisherLists_
    · obtain ⟨l, hl⟩ := Option.isSome_iff_exists.mp (AList.lookup_isSome.mpr hmem)
      rw [if_neg (not_not.mpr hmem)]
      split_ifs with hrevoked huntrusted hsigned
      · -- the publisher is revoked: its list is emptied and then forgotten
        have hremoved := (hmanifests (v.publisherManifests_.applyManifest verifyManifest m).2).tail (.remove _ m.masterKey)
        exact ⟨hremoved.tail (.forget _ m.masterKey (lookup_removePublisherList_self hl) rfl), by simp⟩
      · exact ⟨hmanifests _, by simp⟩
      · cases published.blob with
        | none => exact ⟨hmanifests _, by simp⟩
        | some list =>
          dsimp only
          rw [hl, Option.getD_some]
          split_ifs with hnegative hstale hsame
          · exact ⟨hmanifests _, by simp⟩
          · exact ⟨hmanifests _, by simp⟩
          · exact ⟨hmanifests _, by simp⟩
          · refine ⟨hmanifests _, fun p list' heq => ?_⟩
            cases heq
            exact ⟨l, hl, by omega⟩
      · exact ⟨hmanifests _, by simp⟩
    · rw [if_pos hmem]
      exact ⟨.refl, by simp⟩

theorem moves_applyListed (v : ValidatorList K) (m : Manifest K) :
    Moves v (v.applyListed verifyManifest m) := by
  unfold applyListed
  split_ifs
  · exact .single (.manifests v _ v.publisherManifests_ v.trustedKeys_)
  · exact .refl

theorem moves_applyList (v : ValidatorList K) (published : PublishedList K) :
    Moves v (v.applyList verifyManifest now published).2 := by
  obtain ⟨hmoves, haccepted⟩ := moves_verify verifyManifest now v published
  unfold applyList
  split_ifs with hversion
  · exact .refl
  · generalize v.verify verifyManifest now published = verified at hmoves haccepted
    obtain ⟨result, v'⟩ := verified
    cases result with
    | error e => exact hmoves
    | ok result =>
      cases result with
      | inl disposition => exact hmoves
      | inr accepted =>
        obtain ⟨l, hl, hsequence⟩ := haccepted accepted.1 accepted.2 rfl
        exact (hmoves.tail (.publish v' accepted.1 accepted.2 hl hsequence)).trans
          (moves_foldl (moves_applyListed verifyManifest) _ _)

theorem moves_removeExpired (v : ValidatorList K) (entry : (_ : K) × PublisherList K) :
    Moves v (v.removeExpired now entry) := by
  unfold removeExpired
  split_ifs
  · exact .single (.remove v entry.1)
  · exact .refl

theorem moves_updateTrusted (v : ValidatorList K) : Moves v (v.updateTrusted calcNodeID now).2 :=
  (moves_foldl (moves_removeExpired now) _ v).tail
    (.manifests _ _ _ _)

/-! ## What is trusted -/

theorem foldl_trust (revoked : K → Bool) (entries : List ((_ : K) × ℕ)) (trusted : Finset K)
    (added : Finset N) :
    entries.foldl (trust calcNodeID revoked) (trusted, added) =
      (trusted ∪ (entries.keys.filter (¬ revoked ·)).toFinset,
        added ∪ ((entries.keys.filter (¬ revoked ·)).toFinset \ trusted).image calcNodeID) := by
  induction entries generalizing trusted added with
  | nil => simp
  | cons entry entries ih =>
    obtain ⟨k, n⟩ := entry
    rw [List.foldl_cons, trust]
    cases hrevoked : revoked k with
    | true =>
      rw [if_neg (by simp), ih]
      simp [hrevoked]
    | false =>
      by_cases hk : k ∈ trusted
      · rw [if_neg (by simp [hk]), ih]
        simp [hrevoked, Finset.insert_sdiff_of_mem _ hk, Finset.insert_eq_of_mem, hk]
      · have hset : ∀ s : Finset K, insert k s \ trusted = insert k (s \ insert k trusted) := by
          intro s
          ext k'
          by_cases h : k' = k <;> simp [h, hk]
        rw [if_pos ⟨by simp, hk⟩, ih]
        simp [hrevoked, hset]

theorem removeExpired_keeps (entries : List ((_ : K) × PublisherList K)) (v : ValidatorList K) :
    (entries.foldl (removeExpired now) v).trustedKeys_ = v.trustedKeys_ := by
  induction entries generalizing v with
  | nil => rfl
  | cons entry entries ih =>
    rw [List.foldl_cons, ih, removeExpired]
    split_ifs
    · unfold ValidatorList.removePublisherList
      split <;> rfl
    · rfl

/-- **After `updateTrusted`** the trusted keys are the listed ones that are not revoked, and what is returned are the
differences. -/
theorem updateTrusted_eq (v : ValidatorList K) :
    (∀ k, k ∈ (v.updateTrusted calcNodeID now).2.trustedKeys_ ↔
      k ∈ (v.updateTrusted calcNodeID now).2.keyListings_ ∧
        (v.updateTrusted calcNodeID now).2.validatorManifests_.revoked k = false) ∧
      (v.updateTrusted calcNodeID now).1.added =
        ((v.updateTrusted calcNodeID now).2.trustedKeys_ \ v.trustedKeys_).image calcNodeID ∧
      (v.updateTrusted calcNodeID now).1.removed =
        (v.trustedKeys_ \ (v.updateTrusted calcNodeID now).2.trustedKeys_).image calcNodeID := by
  have hkeeps := removeExpired_keeps now v.publisherLists_.entries v
  unfold updateTrusted
  dsimp only
  generalize v.publisherLists_.entries.foldl (removeExpired now) v = v₁ at hkeeps
  rw [foldl_trust, ← hkeeps]
  dsimp only
  have hlisted : ∀ k, k ∈ (v₁.keyListings_.entries.keys.filter (¬ v₁.validatorManifests_.revoked ·)).toFinset ↔
      k ∈ v₁.keyListings_ ∧ v₁.validatorManifests_.revoked k = false := by
    intro k
    rw [AList.mem_keys, AList.keys]
    simp
  have hremoved : ∀ k, k ∈ v₁.trustedKeys_.filter (fun k => k ∉ v₁.keyListings_ ∨ v₁.validatorManifests_.revoked k) ↔
      k ∈ v₁.trustedKeys_ ∧ ¬ (k ∈ v₁.keyListings_ ∧ v₁.validatorManifests_.revoked k = false) := by
    intro k
    simp [imp_iff_not_or]
  refine ⟨fun k => ?_, ?_, ?_⟩
  · rw [Finset.mem_union, Finset.mem_sdiff, hremoved, hlisted]
    tauto
  · rw [Finset.empty_union]
    refine congrArg (Finset.image calcNodeID) ?_
    ext k
    rw [Finset.mem_sdiff, Finset.mem_sdiff, Finset.mem_sdiff, Finset.mem_union, Finset.mem_sdiff, hremoved, hlisted]
    tauto
  · refine congrArg (Finset.image calcNodeID) ?_
    ext k
    rw [Finset.mem_sdiff, Finset.mem_union, Finset.mem_sdiff, hremoved, hlisted]
    tauto

/-! ## Loading -/

theorem foldlM_invariant {α σ : Type} {f : σ → α → Option σ} {inv : σ → Prop} (hf : ∀ s a s', inv s → f s a = some s' → inv s')
    {as : List α} {s s' : σ} (h : inv s) (hfold : as.foldlM f s = some s') : inv s' := by
  induction as generalizing s with
  | nil =>
    cases hfold
    exact h
  | cons a as ih =>
    rw [List.foldlM_cons] at hfold
    obtain ⟨s₁, hs₁, hfold⟩ := Option.bind_eq_some_iff.mp hfold
    exact ih (hf s a s₁ h hs₁) hfold

theorem loadPublisher_keeps {key : Option K} (h : Sound noKey v ∧ v.keyListings_ = ∅ ∧ v.localPubKey_ = noKey)
    (hload : v.loadPublisher key = some v') :
    Sound noKey v' ∧ v'.keyListings_ = ∅ ∧ v'.localPubKey_ = noKey := by
  unfold loadPublisher at hload
  cases key with
  | none => cases hload
  | some id =>
    dsimp only at hload
    split_ifs at hload with hrevoked hmem <;> cases hload
    · exact h
    · exact h
    · refine ⟨h.1.insert rfl rfl h.1.counts fun k => ?_, h.2⟩
      rw [AList.lookup_eq_none.mpr hmem]
      rfl

theorem Sound.loadKey {localSigningKey : K} {key : Option K} (h : Sound noKey v)
    (hload : v.loadKey noKey localSigningKey key = some v') : Sound noKey v' := by
  unfold ValidatorList.loadKey at hload
  cases key with
  | none => cases hload
  | some id =>
    dsimp only at hload
    split_ifs at hload with hlocal hmem <;> cases hload
    · exact h
    · exact h
    · refine h.insert rfl rfl (h.counts.insert id Nat.one_pos) fun k => ?_
      have hzero : countOf v.keyListings_ id = 0 := Nat.eq_zero_of_not_pos fun hpos => hmem ((h.counts id).mpr hpos)
      have hlist : ((v.publisherLists_.lookup noKey).getD { (.unknown : PublisherList K) with expiration := 2 ^ 32 - 1 }).list =
          ((v.publisherLists_.lookup noKey).getD .unknown).list := by
        cases v.publisherLists_.lookup noKey <;> rfl
      rw [countOf_insert, hlist, List.count_append, count_cons_eq, List.count_nil]
      split_ifs with hk
      · rw [hk, hzero]
        omega
      · omega

theorem sound_load {localSigningKey : K} {validatorManifests publisherManifests : ManifestCache K}
    {configKeys publisherKeys : List (Option K)}
    (h : load noKey localSigningKey validatorManifests publisherManifests configKeys publisherKeys = some v) :
    Sound noKey v := by
  obtain ⟨v₁, hpublishers, hkeys⟩ := Option.bind_eq_some_iff.mp h
  have hempty : Sound noKey (⟨validatorManifests, publisherManifests, ∅, ∅, ∅, noKey⟩ : ValidatorList K) :=
    ⟨counts_empty, fun k => by simp [occurrences, totalOf_empty, countOf]⟩
  obtain ⟨hsound, hlistings, hlocal⟩ :=
    foldlM_invariant (fun _ _ _ => loadPublisher_keeps) ⟨hempty, rfl, rfl⟩ hpublishers
  refine foldlM_invariant (fun _ _ _ => Sound.loadKey) ?_ hkeys
  have hzero : ∀ k, v₁.occurrences k = 0 := by
    intro k
    have hk := hsound.listings k
    rw [hlistings] at hk
    simp [countOf] at hk
    omega
  by_cases hkey : validatorManifests.getMasterKey localSigningKey = noKey
  · refine ⟨?_, fun k => ?_⟩
    · rw [if_neg (not_not.mpr hkey)]
      exact hsound.counts
    · show countOf (if _ then _ else _) k = v₁.occurrences k + _
      rw [if_neg (not_not.mpr hkey), hlistings, hzero, hkey, if_neg (fun h => h.2 h.1)]
      rfl
  · refine ⟨?_, fun k => ?_⟩
    · rw [if_pos hkey]
      exact hsound.counts.insert _ Nat.one_pos
    · show countOf (if _ then _ else _) k = v₁.occurrences k + _
      rw [if_pos hkey, countOf_insert, hlistings, hzero]
      by_cases hk : k = validatorManifests.getMasterKey localSigningKey
      · rw [if_pos hk, if_pos ⟨hk, hk ▸ hkey⟩]
      · rw [if_neg hk, if_neg fun h => hk h.1]
        rfl

/-! ## Runs -/

inductive Event (K : Type)
  | applyList (now : ℕ) (published : PublishedList K)
  | removePublisherList (publisherKey : K)
  | validatorManifest (m : Manifest K)
  | publisherManifest (m : Manifest K)
  | updateTrusted (now : ℕ)

/-- One operation. -/
def apply (verifyManifest : Manifest K → Bool) (calcNodeID : K → N) (v : ValidatorList K) : Event K → ValidatorList K
  | .applyList now published => (v.applyList verifyManifest now published).2
  | .removePublisherList publisherKey => v.removePublisherList publisherKey
  | .validatorManifest m => { v with validatorManifests_ := (v.validatorManifests_.applyManifest verifyManifest m).2 }
  | .publisherManifest m => { v with publisherManifests_ := (v.publisherManifests_.applyManifest verifyManifest m).2 }
  | .updateTrusted now => (v.updateTrusted calcNodeID now).2

def step (verifyManifest : Manifest K → Bool) (calcNodeID : K → N) (e : Event K) (v v' : ValidatorList K) : Prop :=
  v' = v.apply verifyManifest calcNodeID e

theorem moves_apply (v : ValidatorList K) (e : Event K) :
    Moves v (v.apply verifyManifest calcNodeID e) := by
  cases e with
  | applyList now published => exact moves_applyList verifyManifest now v published
  | removePublisherList publisherKey => exact .single (.remove v publisherKey)
  | validatorManifest m => exact .single (.manifests v _ v.publisherManifests_ v.trustedKeys_)
  | publisherManifest m => exact .single (.manifests v v.validatorManifests_ _ v.trustedKeys_)
  | updateTrusted now => exact moves_updateTrusted calcNodeID now v

theorem moves_of_steps {verifyManifest : Manifest K → Bool} {calcNodeID : K → N} {v : ValidatorList K}
    {es : List (Event K)} (h : Steps (step verifyManifest calcNodeID) v es v') : Moves v v' := by
  induction h with
  | nil => exact .refl
  | @snoc es e v₁ v₂ _ hstep ih =>
    rw [hstep]
    exact ih.trans (moves_apply verifyManifest calcNodeID v₁ e)

/-- **Bookkeeping.** After any run from a configuration that was loaded, every key is counted once for each time it is on a
stored list, and once more if it is the local validator's; from there on the sequence of a publisher that stays does not
decrease; and `updateTrusted` trusts the listed keys that are not revoked and returns the differences. -/
theorem validator_lists (verifyManifest : Manifest K → Bool) (calcNodeID : K → N) {localSigningKey : K}
    {validatorManifests publisherManifests : ManifestCache K} {configKeys publisherKeys : List (Option K)}
    {v₀ v : ValidatorList K} {es : List (Event K)}
    (hload : load noKey localSigningKey validatorManifests publisherManifests configKeys publisherKeys = some v₀)
    (h : Steps (step verifyManifest calcNodeID) v₀ es v) :
    (∀ k, countOf v.keyListings_ k = v.occurrences k + if k = v.localPubKey_ ∧ k ≠ noKey then 1 else 0) ∧
      (∀ es' v', Steps (step verifyManifest calcNodeID) v es' v' → ∀ p l l', v.publisherLists_.lookup p = some l →
        v'.publisherLists_.lookup p = some l' → l.sequence ≤ l'.sequence) ∧
      ∀ now changes v', v.updateTrusted calcNodeID now = (changes, v') →
        (∀ k, k ∈ v'.trustedKeys_ ↔ 0 < countOf v'.keyListings_ k ∧ v'.validatorManifests_.revoked k = false) ∧
          changes.added = (v'.trustedKeys_ \ v.trustedKeys_).image calcNodeID ∧
          changes.removed = (v.trustedKeys_ \ v'.trustedKeys_).image calcNodeID := by
  have hsound := (sound_load hload).moves (moves_of_steps h)
  refine ⟨hsound.listings, fun es' v' h' p l l' hl hl' => ?_, fun now changes v' heq => ?_⟩
  · obtain ⟨l₀, hl₀, hle⟩ := later_of_moves (moves_of_steps h') p l' hl'
    rw [hl] at hl₀
    cases hl₀
    exact hle
  · have htrusted := updateTrusted_eq calcNodeID now v
    have hsound' := hsound.moves (moves_updateTrusted calcNodeID now v)
    rw [heq] at htrusted hsound'
    refine ⟨fun k => ?_, htrusted.2⟩
    rw [htrusted.1, hsound'.counts k]

/-- A validator that lists two others and follows one publisher, which publishes a list. -/
theorem validator_lists_published :
    ∃ v₀ v : ValidatorList ℕ, load 0 5 .empty .empty [some 1, some 2] [some 10] = some v₀ ∧
      Steps (step (fun _ => true) id) v₀
        [.applyList 3 ⟨some ⟨[], 10, 11, 1⟩, some ⟨1, 4, [some ⟨some 2, none⟩, some ⟨some 5, none⟩]⟩, fun key => key = 11, 1⟩] v ∧
      ∀ k, countOf v.keyListings_ k = v.occurrences k + if k = v.localPubKey_ ∧ k ≠ 0 then 1 else 0 := by
  have hload : ∃ v₀ : ValidatorList ℕ, load 0 5 .empty .empty [some 1, some 2] [some 10] = some v₀ := ⟨_, rfl⟩
  obtain ⟨v₀, hload⟩ := hload
  refine ⟨v₀, _, hload, .single rfl, ?_⟩
  exact (validator_lists (fun _ => true) (id : ℕ → ℕ) hload (.single rfl)).1

end ScfChain.App.ValidatorList
