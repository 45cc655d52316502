import ScfChain.Data.Steps

/-!
# The manifest cache

A manifest of a validator names the key that currently signs for its master key. `ManifestCache` keeps the manifest of every
master (`map_`) and the master of every signing key (`signingToMasterKeys_`), both updated by hand in `applyManifest`.

* `Inverse` : the second map is the inverse of the first.
* `Inverse.applyManifest` : it stays so as long as no two masters name one signing key.
* `reused_key` : and otherwise the revocation of one of them takes the key from the other.
-/

namespace ScfChain.App

open Data

variable {K : Type} [DecidableEq K]

/-- A manifest; `signingKey` of a revocation is not used. -/
structure Manifest (K : Type) where
  serialized : List UInt8
  masterKey : K
  signingKey : K
  sequence : BitVec 32

/-- The maximum possible sequence number means that the master key has been revoked. -/
def Manifest.revoked (m : Manifest K) : Bool := m.sequence = BitVec.allOnes 32

inductive ManifestDisposition
  | accepted
  | stale
  | invalid
  deriving DecidableEq

structure ManifestCache (K : Type) where
  map_ : K → Option (Manifest K)
  signingToMasterKeys_ : K → Option K

namespace ManifestCache

def empty : ManifestCache K := ⟨fun _ => none, fun _ => none⟩

def getSigningKey (c : ManifestCache K) (pk : K) : K :=
  match c.map_ pk with
  | some m => if ¬ m.revoked then m.signingKey else pk
  | none => pk

def getMasterKey (c : ManifestCache K) (pk : K) : K := (c.signingToMasterKeys_ pk).getD pk

def revoked (c : ManifestCache K) (pk : K) : Bool :=
  match c.map_ pk with
  | some m => m.revoked
  | none => false

/-- `signingToMasterKeys_[m.signingKey] = m.masterKey`, unless `m` is a revocation. -/
def setSigning (signingToMasterKeys_ : K → Option K) (m : Manifest K) : K → Option K :=
  if m.revoked then signingToMasterKeys_ else Function.update signingToMasterKeys_ m.signingKey (some m.masterKey)

/-- `ManifestCache::applyManifest`; `verify` is `Manifest::verify`. -/
def applyManifest (verify : Manifest K → Bool) (c : ManifestCache K) (m : Manifest K) : ManifestDisposition × ManifestCache K :=
  match c.map_ m.masterKey with
  | none =>
    if ¬ verify m then (.invalid, c)
    else (.accepted, ⟨Function.update c.map_ m.masterKey (some m), setSigning c.signingToMasterKeys_ m⟩)
  | some old =>
    if m.sequence ≤ old.sequence then (.stale, c)
    else if ¬ verify m then (.invalid, c)
    else
      (.accepted, ⟨Function.update c.map_ m.masterKey (some m),
        setSigning (Function.update c.signingToMasterKeys_ old.signingKey none) m⟩)

/-! ## The maps are inverse -/

/-- The manifest that is stored for `m` is not a revocation and names `s`. -/
def Names (c : ManifestCache K) (m s : K) : Prop := ∃ man, c.map_ m = some man ∧ man.revoked = false ∧ man.signingKey = s

def Inverse (c : ManifestCache K) : Prop := ∀ s m, c.signingToMasterKeys_ s = some m ↔ c.Names m s

/-- No other master has a stored manifest with the signing key of `man`. -/
def Unshared (c : ManifestCache K) (man : Manifest K) : Prop :=
  man.revoked = false → ∀ m, m ≠ man.masterKey → ¬ c.Names m man.signingKey

variable {c : ManifestCache K} {s m : K} {man : Manifest K} {f : K → Option K}

omit [DecidableEq K] in
theorem getMasterKey_eq_iff (h : m ≠ s) : c.getMasterKey s = m ↔ c.signingToMasterKeys_ s = some m := by
  unfold getMasterKey
  cases c.signingToMasterKeys_ s with
  | none => simp [h.symm]
  | some m' => simp

omit [DecidableEq K] in
theorem getSigningKey_of_names (h : c.Names m s) : c.getSigningKey m = s := by
  obtain ⟨man, hman, hrevoked, rfl⟩ := h
  simp [getSigningKey, hman, hrevoked]

theorem names_update : Names ⟨Function.update c.map_ man.masterKey (some man), f⟩ m s ↔
      if m = man.masterKey then man.revoked = false ∧ man.signingKey = s else c.Names m s := by
  unfold Names
  split_ifs with h
  · subst h
    simp
  · simp [h]

theorem setSigning_eq_some_iff : setSigning f man s = some m ↔
      if man.revoked = false ∧ s = man.signingKey then man.masterKey = m else f s = some m := by
  unfold setSigning
  cases man.revoked with
  | true => simp
  | false =>
    by_cases h : s = man.signingKey
    · simp [h]
    · simp [h]

omit [DecidableEq K] in
theorem not_revoked_of_lt {old m : Manifest K} (h : ¬ m.sequence ≤ old.sequence) : old.revoked = false := by
  by_contra hrevoked
  have heq : old.sequence = BitVec.allOnes 32 := by simpa [Manifest.revoked] using hrevoked
  rw [heq, BitVec.le_def, BitVec.toNat_allOnes] at h
  omega

theorem inverse_setSigning (hshared : c.Unshared man) (hother : ∀ s m, m ≠ man.masterKey → (f s = some m ↔ c.Names m s))
    (hnone : ∀ s, f s ≠ some man.masterKey) :
    Inverse ⟨Function.update c.map_ man.masterKey (some man), setSigning f man⟩ := by
  intro s m
  rw [setSigning_eq_some_iff, names_update]
  by_cases hs : man.revoked = false ∧ s = man.signingKey
  · rw [if_pos hs]
    split_ifs with hm
    · simp [hs, hm]
    · exact ⟨fun h => absurd h.symm hm, fun h => absurd (hs.2 ▸ h) (hshared hs.1 m hm)⟩
  · rw [if_neg hs]
    split_ifs with hm
    · exact ⟨fun h => absurd (hm ▸ h) (hnone s), fun h => absurd ⟨h.1, h.2.symm⟩ hs⟩
    · exact hother s m hm

theorem Inverse.applyManifest (h : c.Inverse) (verify : Manifest K → Bool)
    (hshared : c.Unshared man) : (c.applyManifest verify man).2.Inverse := by
  unfold ManifestCache.applyManifest
  split
  case h_1 hold =>
    split_ifs with hverify
    · refine inverse_setSigning hshared (fun s m _ => h s m) fun s hs => ?_
      obtain ⟨old, hold', -⟩ := (h s _).mp hs
      rw [hold] at hold'
      cases hold'
    · exact h
  case h_2 old hold =>
    split_ifs with hseq hverify
    · exact h
    · have hmaster : c.signingToMasterKeys_ old.signingKey = some man.masterKey :=
        (h _ _).mpr ⟨old, hold, not_revoked_of_lt hseq, rfl⟩
      refine inverse_setSigning hshared (fun s m hm => ?_) fun s hs => ?_
      · by_cases heq : s = old.signingKey
        · -- the key is the one of the master whose manifest is replaced
          rw [heq, Function.update_self, ← h, hmaster]
          simp [hm.symm]
        · rw [Function.update_of_ne heq, h]
      · by_cases heq : s = old.signingKey
        · simp [heq] at hs
        · rw [Function.update_of_ne heq] at hs
          obtain ⟨old', hold', -, hkey⟩ := (h s _).mp hs
          rw [hold] at hold'
          cases hold'
          exact heq hkey.symm
    · exact h

/-! ## Runs -/

/-- A manifest arrives. -/
def step (verify : Manifest K → Bool) (man : Manifest K) (c c' : ManifestCache K) : Prop := c' = (c.applyManifest verify man).2

/-- **As long as no manifest names a signing key that another master's stored manifest names**, the maps are inverse. -/
theorem manifest_maps_inverse (verify : Manifest K → Bool) {mans : List (Manifest K)} {c : ManifestCache K}
    (h : Steps (fun man c c' => c.Unshared man ∧ step verify man c c') empty mans c) :
    ∀ s m, m ≠ s → (c.getMasterKey s = m ↔ c.Names m s) ∧ (c.Names m s → c.getSigningKey m = s) := by
  have hinverse : c.Inverse := by
    refine h.invariant (fun s m => ?_) fun man _ c c' hc hstep => ?_
    · simp [empty, Names]
    · obtain ⟨hshared, rfl⟩ := hstep
      exact hc.applyManifest verify hshared
  intro s m hne
  rw [getMasterKey_eq_iff hne]
  exact ⟨hinverse s m, getSigningKey_of_names⟩

/-- Two masters with keys of their own. -/
theorem manifest_maps_inverse_two :
    ∃ c : ManifestCache ℕ, Steps (fun man c c' => c.Unshared man ∧ step (fun _ => true) man c c') empty
      [⟨[], 1, 10, 1⟩, ⟨[], 2, 20, 1⟩] c ∧ (c.getMasterKey 20 = 2 ↔ c.Names 2 20) := by
  have h₁ : (empty : ManifestCache ℕ).Unshared ⟨[], 1, 10, 1⟩ := by simp [Unshared, Names, empty]
  have h₂ : ((empty : ManifestCache ℕ).applyManifest (fun _ => true) ⟨[], 1, 10, 1⟩).2.Unshared ⟨[], 2, 20, 1⟩ := by
    rintro - m - ⟨man, hman, -, hkey⟩
    by_cases h : m = 1
    · subst h
      cases hman
      simp at hkey
    · simp [ManifestCache.applyManifest, empty, h] at hman
  have hrun : Steps (fun man c c' => c.Unshared man ∧ step (fun _ => true) man c c') empty [⟨[], 1, 10, 1⟩, ⟨[], 2, 20, 1⟩] _ :=
    .snoc (.single ⟨h₁, rfl⟩) ⟨h₂, rfl⟩
  exact ⟨_, hrun, (manifest_maps_inverse _ hrun 20 2 (by decide)).1⟩

/-- **A signing key of two masters**: when the first is revoked, the key that the second still names is no longer its. -/
theorem reused_key :
    ∃ c : ManifestCache ℕ, Steps (step fun _ => true) empty [⟨[], 1, 10, 1⟩, ⟨[], 2, 10, 1⟩, ⟨[], 1, 0, BitVec.allOnes 32⟩] c ∧
      c.Names 2 10 ∧ c.getMasterKey 10 = 10 := by
  refine ⟨_, .snoc (.snoc (.single rfl) rfl) rfl, ⟨⟨[], 2, 10, 1⟩, rfl, rfl, rfl⟩, rfl⟩

end ManifestCache

end ScfChain.App
