import ScfChain.App.Manifest

/-!
# Manifests in any order

Manifests reach a server in the order in which its peers pass them on, and more than once. What the cache holds in the
end depends only on which ones have arrived.

* `Latest` : the validly signed manifest of a master with the highest sequence.
* `Holds` : the cache holds the latest manifest of every master among those that have arrived, `Holds.applyManifest` the
  step.
* `manifest_gossip` : every order, with any repetition.
-/

namespace ScfChain.App.ManifestCache

variable {K : Type} [DecidableEq K] {verify : Manifest K → Bool} {c : ManifestCache K} {m : Manifest K}

/-- The manifests arrive one after the other. -/
def applyAll (verify : Manifest K → Bool) (c : ManifestCache K) (mans : List (Manifest K)) : ManifestCache K :=
  mans.foldl (fun c m => (c.applyManifest verify m).2) c

/-- `m` has a valid signature and is newer than what is stored for its master. -/
def Newer (verify : Manifest K → Bool) (c : ManifestCache K) (m : Manifest K) : Prop :=
  verify m = true ∧ ∀ old, c.map_ m.masterKey = some old → old.sequence < m.sequence

theorem map_applyManifest (verify : Manifest K → Bool) (c : ManifestCache K) (m : Manifest K) :
    c.Newer verify m ∧ (c.applyManifest verify m).2.map_ = Function.update c.map_ m.masterKey (some m) ∨
      ¬ c.Newer verify m ∧ (c.applyManifest verify m).2 = c := by
  unfold applyManifest Newer
  cases hold : c.map_ m.masterKey with
  | none =>
    by_cases hverify : verify m = true
    · exact .inl ⟨⟨hverify, by simp⟩, by simp [hverify]⟩
    · exact .inr ⟨fun h => hverify h.1, by simp [hverify]⟩
  | some old =>
    by_cases hle : m.sequence ≤ old.sequence
    · refine .inr ⟨fun h => ?_, by simp [hle]⟩
      exact absurd (h.2 old rfl) (BitVec.not_lt.mpr hle)
    · by_cases hverify : verify m = true
      · refine .inl ⟨⟨hverify, ?_⟩, by simp [hle, hverify]⟩
        rintro _ ⟨⟩
        exact BitVec.not_le.mp hle
      · exact .inr ⟨fun h => hverify h.1, by simp [hle, hverify]⟩

/-! ## The latest manifests -/

/-- The validly signed manifest of a master with the highest sequence. -/
structure Latest (verify : Manifest K → Bool) (mans : List (Manifest K)) (k : K) (m : Manifest K) : Prop where
  mem : m ∈ mans
  valid : verify m = true
  master : m.masterKey = k
  highest : ∀ m' ∈ mans, verify m' = true → m'.masterKey = k → m'.sequence ≤ m.sequence

/-- The cache holds the latest manifest of every master among those that have arrived. -/
structure Holds (verify : Manifest K → Bool) (seen : List (Manifest K)) (c : ManifestCache K) : Prop where
  latest : ∀ k m, c.map_ k = some m → Latest verify seen k m
  present : ∀ m ∈ seen, verify m = true → ∃ m', c.map_ m.masterKey = some m'

variable {seen mans : List (Manifest K)} {k : K}

theorem Holds.applyManifest (h : Holds verify seen c) (m : Manifest K) :
    Holds verify (seen ++ [m]) (c.applyManifest verify m).2 := by
  rcases map_applyManifest verify c m with ⟨⟨hverify, hnewer⟩, hmap⟩ | ⟨hnot, hc⟩
  · constructor
    · intro k m' hm'
      rw [hmap] at hm'
      by_cases hk : k = m.masterKey
      · subst hk
        rw [Function.update_self] at hm'
        cases hm'
        refine ⟨by simp, hverify, rfl, fun m' hmem hverify' hmaster => ?_⟩
        rcases List.mem_append.mp hmem with hmem | hmem
        · -- an earlier manifest of this master is at most as new as the stored one
          obtain ⟨old, hold⟩ := h.present m' hmem hverify'
          rw [hmaster] at hold
          have hle := (h.latest _ old hold).highest m' hmem hverify' hmaster
          have hlt := hnewer old hold
          rw [BitVec.le_def] at hle ⊢
          rw [BitVec.lt_def] at hlt
          omega
        · rw [List.mem_singleton.mp hmem]
          exact BitVec.le_refl _
      · rw [Function.update_of_ne hk] at hm'
        obtain ⟨hmem, hvalid, hmaster, hhighest⟩ := h.latest k m' hm'
        refine ⟨List.mem_append_left _ hmem, hvalid, hmaster, fun m'' hmem' hverify' hmaster' => ?_⟩
        rcases List.mem_append.mp hmem' with hmem' | hmem'
        · exact hhighest m'' hmem' hverify' hmaster'
        · rw [List.mem_singleton.mp hmem'] at hmaster'
          exact absurd hmaster'.symm hk
    · intro m' hmem hverify'
      rw [hmap]
      by_cases hk : m'.masterKey = m.masterKey
      · exact ⟨m, by rw [hk, Function.update_self]⟩
      · rw [Function.update_of_ne hk]
        rcases List.mem_append.mp hmem with hmem | hmem
        · exact h.present m' hmem hverify'
        · rw [List.mem_singleton.mp hmem] at hk
          exact absurd rfl hk
  · rw [hc]
    -- a valid manifest that is not newer finds one that is at least as new
    have hold : verify m = true → ∃ old, c.map_ m.masterKey = some old ∧ m.sequence ≤ old.sequence := by
      intro hverify
      by_contra hnone
      refine hnot ⟨hverify, fun old hold => BitVec.not_le.mp fun hle => hnone ⟨old, hold, hle⟩⟩
    constructor
    · intro k m' hm'
      obtain ⟨hmem, hvalid, hmaster, hhighest⟩ := h.latest k m' hm'
      refine ⟨List.mem_append_left _ hmem, hvalid, hmaster, fun m'' hmem' hverify' hmaster' => ?_⟩
      rcases List.mem_append.mp hmem' with hmem' | hmem'
      · exact hhighest m'' hmem' hverify' hmaster'
      · rw [List.mem_singleton.mp hmem'] at hverify' hmaster' ⊢
        obtain ⟨old, hold, hle⟩ := hold hverify'
        rw [hmaster', hm'] at hold
        cases hold
        exact hle
    · intro m' hmem hverify'
      rcases List.mem_append.mp hmem with hmem | hmem
      · exact h.present m' hmem hverify'
      · rw [List.mem_singleton.mp hmem] at hverify' ⊢
        obtain ⟨old, hold, -⟩ := hold hverify'
        exact ⟨old, hold⟩

theorem Holds.applyAll (h : Holds verify seen c) (mans : List (Manifest K)) :
    Holds verify (seen ++ mans) (c.applyAll verify mans) := by
  induction mans generalizing seen c with
  | nil =>
    rw [List.append_nil]
    exact h
  | cons m mans ih =>
    have := ih (h.applyManifest m)
    rwa [List.append_assoc] at this

theorem holds_applyAll (verify : Manifest K → Bool) (mans : List (Manifest K)) :
    Holds verify mans (applyAll verify empty mans) := by
  have hempty : Holds verify [] (empty : ManifestCache K) := ⟨by simp [empty], by simp⟩
  exact hempty.applyAll mans

/-! ## Order -/

/-- Validly signed manifests of different masters name different signing keys. -/
def DistinctKeys (verify : Manifest K → Bool) (mans : List (Manifest K)) : Prop :=
  ∀ m ∈ mans, ∀ m' ∈ mans, verify m = true → verify m' = true → m.revoked = false → m'.revoked = false →
    m.signingKey = m'.signingKey → m.masterKey = m'.masterKey

/-- No master has two validly signed manifests with one sequence. -/
def DistinctSequences (verify : Manifest K → Bool) (mans : List (Manifest K)) : Prop :=
  ∀ m ∈ mans, ∀ m' ∈ mans, verify m = true → verify m' = true → m.masterKey = m'.masterKey →
    m.sequence = m'.sequence → m = m'

omit [DecidableEq K] in
theorem Latest.of_same {mans' : List (Manifest K)} (h : Latest verify mans k m)
    (hsame : ∀ m, m ∈ mans ↔ m ∈ mans') : Latest verify mans' k m :=
  ⟨(hsame m).mp h.mem, h.valid, h.master, fun m' hm' => h.highest m' ((hsame m').mpr hm')⟩

omit [DecidableEq K] in
theorem Holds.map_eq_some_iff (h : Holds verify mans c) (hseq : DistinctSequences verify mans) (k : K)
    (m : Manifest K) : c.map_ k = some m ↔ Latest verify mans k m := by
  constructor
  · exact h.latest k m
  · intro hm
    obtain ⟨m', hm'⟩ := h.present m hm.mem hm.valid
    rw [hm.master] at hm'
    have hlatest := h.latest k m' hm'
    have hsequence : m.sequence = m'.sequence := by
      apply BitVec.eq_of_toNat_eq
      exact le_antisymm (hlatest.highest m hm.mem hm.valid hm.master) (hm.highest m' hlatest.mem hlatest.valid hlatest.master)
    rw [hm', hseq m hm.mem m' hlatest.mem hm.valid hlatest.valid (hm.master.trans hlatest.master.symm) hsequence]

theorem Holds.inverse_applyManifest (h : Holds verify seen c) (hinverse : c.Inverse) (hkeys : DistinctKeys verify mans)
    (hseen : ∀ m ∈ seen, m ∈ mans) (hm : m ∈ mans) :
    (c.applyManifest verify m).2.Inverse := by
  rcases map_applyManifest verify c m with ⟨⟨hverify, -⟩, -⟩ | ⟨-, hc⟩
  · refine hinverse.applyManifest verify fun hrevoked k hk hnames => hk ?_
    obtain ⟨man, hman, hman', hkey⟩ := hnames
    obtain ⟨hmem, hvalid, hmaster, -⟩ := h.latest k man hman
    rw [← hmaster]
    exact hkeys man (hseen man hmem) m hm hvalid hverify hman' hrevoked hkey
  · rw [hc]
    exact hinverse

theorem inverse_applyAll (hkeys : DistinctKeys verify mans) : (applyAll verify empty mans).Inverse := by
  suffices ∀ later seen c, Holds verify seen c → c.Inverse → (∀ m ∈ seen, m ∈ mans) → (∀ m ∈ later, m ∈ mans) →
      (applyAll verify c later).Inverse by
    refine this mans [] empty ⟨by simp [empty], by simp⟩ ?_ (by simp) fun m hm => hm
    intro s m
    simp [empty, Names]
  intro later
  induction later with
  | nil => exact fun _ _ _ hinverse _ _ => hinverse
  | cons m later ih =>
    intro seen c h hinverse hseen hlater
    refine ih (seen ++ [m]) _ (h.applyManifest m)
      (h.inverse_applyManifest hinverse hkeys hseen (hlater m (by simp))) ?_ fun m' hm' => hlater m' (by simp [hm'])
    intro m' hm'
    rcases List.mem_append.mp hm' with hm' | hm'
    · exact hseen m' hm'
    · rw [List.mem_singleton.mp hm']
      exact hlater m (by simp)

theorem revoked_applyManifest (h : c.revoked k = true) (m : Manifest K) :
    (c.applyManifest verify m).2.revoked k = true := by
  rcases map_applyManifest verify c m with ⟨⟨-, hnewer⟩, hmap⟩ | ⟨-, hc⟩
  · by_cases hk : k = m.masterKey
    · subst hk
      unfold revoked at h
      cases hold : c.map_ m.masterKey with
      | none => simp [hold] at h
      | some old =>
        rw [hold] at h
        have hlt := hnewer old hold
        have := not_revoked_of_lt (BitVec.not_le.mpr hlt)
        simp [this] at h
    · rw [revoked, hmap, Function.update_of_ne hk]
      exact h
  · rw [hc]
    exact h

theorem revoked_applyAll (h : c.revoked k = true) (later : List (Manifest K)) :
    (c.applyAll verify later).revoked k = true := by
  induction later generalizing c with
  | nil => exact h
  | cons m later ih => exact ih (revoked_applyManifest h m)

/-- **The order of manifests does not matter.** Take manifests of which those of different masters name different
signing keys, and no master has two with one sequence, as far as they are validly signed. Every list of them, in any
order and with any repetition, leads to the same cache: it has the latest manifest of every master, and a signing key
leads to the master whose latest manifest names it. And a revoked master stays revoked whatever comes later. -/
theorem manifest_gossip (verify : Manifest K → Bool) {mans : List (Manifest K)} (hkeys : DistinctKeys verify mans)
    (hseq : DistinctSequences verify mans) :
    (∀ arrived, (∀ m, m ∈ arrived ↔ m ∈ mans) →
      (∀ k m, (applyAll verify empty arrived).map_ k = some m ↔ Latest verify mans k m) ∧
      (∀ s k, (applyAll verify empty arrived).signingToMasterKeys_ s = some k ↔
        ∃ m, Latest verify mans k m ∧ m.revoked = false ∧ m.signingKey = s) ∧
      applyAll verify empty arrived = applyAll verify empty mans) ∧
    ∀ (c : ManifestCache K) (later : List (Manifest K)) (k : K), c.revoked k = true →
      (c.applyAll verify later).revoked k = true := by
  refine ⟨?_, fun c later k h => revoked_applyAll h later⟩
  have hone : ∀ arrived, (∀ m, m ∈ arrived ↔ m ∈ mans) →
      (∀ k m, (applyAll verify empty arrived).map_ k = some m ↔ Latest verify mans k m) ∧
      ∀ s k, (applyAll verify empty arrived).signingToMasterKeys_ s = some k ↔
        ∃ m, Latest verify mans k m ∧ m.revoked = false ∧ m.signingKey = s := by
    intro arrived hsame
    have hkeys' : DistinctKeys verify arrived := fun m hm m' hm' => hkeys m ((hsame m).mp hm) m' ((hsame m').mp hm')
    have hseq' : DistinctSequences verify arrived := fun m hm m' hm' => hseq m ((hsame m).mp hm) m' ((hsame m').mp hm')
    have hmap : ∀ k m, (applyAll verify empty arrived).map_ k = some m ↔ Latest verify mans k m := by
      intro k m
      rw [(holds_applyAll verify arrived).map_eq_some_iff hseq']
      exact ⟨fun h => h.of_same hsame, fun h => h.of_same fun m => (hsame m).symm⟩
    refine ⟨hmap, fun s k => ?_⟩
    rw [inverse_applyAll hkeys' s k, Names]
    simp only [hmap]
  intro arrived hsame
  obtain ⟨hmap, hsigning⟩ := hone arrived hsame
  obtain ⟨hmap', hsigning'⟩ := hone mans fun m => Iff.rfl
  refine ⟨hmap, hsigning, ?_⟩
  have hfirst : (applyAll verify empty arrived).map_ = (applyAll verify empty mans).map_ := by
    funext k
    exact Option.ext fun m => (hmap k m).trans (hmap' k m).symm
  have hsecond : (applyAll verify empty arrived).signingToMasterKeys_ =
      (applyAll verify empty mans).signingToMasterKeys_ := by
    funext s
    exact Option.ext fun k => (hsigning s k).trans (hsigning' s k).symm
  cases h : applyAll verify empty arrived
  cases h' : applyAll verify empty mans
  simp_all

/-- Two manifests of one master and a forged copy of the second, in two orders. -/
theorem manifest_gossip_forged :
    applyAll (fun m => m.serialized = []) (empty : ManifestCache ℕ) [⟨[0], 1, 11, 2⟩, ⟨[], 1, 11, 2⟩, ⟨[], 1, 10, 1⟩] =
      applyAll (fun m => m.serialized = []) empty [⟨[], 1, 10, 1⟩, ⟨[], 1, 11, 2⟩, ⟨[0], 1, 11, 2⟩] := by
  refine ((manifest_gossip (fun m => m.serialized = []) ?_ ?_).1 _ ?_).2.2
  · simp [DistinctKeys]
  · simp [DistinctSequences]
  · intro m
    simp
    tauto

end ScfChain.App.ManifestCache
