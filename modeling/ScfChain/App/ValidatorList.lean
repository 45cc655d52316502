import ScfChain.App.Manifest
import ScfChain.Data.Assoc

/-!
# Validator lists

`ValidatorList` keeps the lists of validator keys of the configured publishers, the keys of the configuration being the list
of the empty key, and counts for every key the lists it is on (`keyListings_`), the local validator key being listed once
more. The counts are kept by hand: by a merge of the old and the new list of a publisher, and key by key when a list expires or
its publisher is revoked. `updateTrusted` makes the listed keys that are not revoked the trusted ones.

An entry of the configuration is given by the key it stands for, if it stands for one.
-/

namespace ScfChain.App

open Data

variable {K N : Type} [LinearOrder K] [DecidableEq N]

structure PublisherList (K : Type) where
  available : Bool
  list : List K
  sequence : ℕ
  expiration : ℕ

/-- The list of a publisher before anything is known of it. -/
def PublisherList.unknown : PublisherList K := ⟨false, [], 0, 0⟩

/-- The lists, with the caches of manifests they use. -/
structure ValidatorList (K : Type) where
  validatorManifests_ : ManifestCache K
  publisherManifests_ : ManifestCache K
  publisherLists_ : Assoc K (PublisherList K)
  keyListings_ : Assoc K ℕ
  trustedKeys_ : Finset K
  localPubKey_ : K

inductive ListDisposition
  | accepted
  | same_sequence
  | unsupported_version
  | untrusted
  | stale
  | invalid
  deriving DecidableEq

/-- An entry of `"validators"` with a `"validation_public_key"`: the key, if it is one, and the manifest, if it is one. -/
structure ListEntry (K : Type) where
  validation_public_key : Option K
  manifest : Option (Manifest K)

/-- What a blob says: `"sequence"` and `"expiration"` are integers of JSON. Other entries of `"validators"` are `none`. -/
structure ListBlob (K : Type) where
  sequence : ℤ
  expiration : ℤ
  validators : List (Option (ListEntry K))

/-- The arguments of `applyList`: the manifest, if it is one; whose signature the blob has; and what it says, if it is JSON
of the expected form. -/
structure PublishedList (K : Type) where
  manifest : Option (Manifest K)
  blob : Option (ListBlob K)
  signedBy : K → Bool
  version : ℕ

namespace ValidatorList

/-! ## `load` -/

/-- One publisher key of the configuration: hexadecimal digits of a key, or not. -/
def loadPublisher (v : ValidatorList K) (key : Option K) : Option (ValidatorList K) :=
  match key with
  | none => none
  | some id =>
    if v.publisherManifests_.revoked id then some v
    else if id ∈ v.publisherLists_ then some v
    else some { v with publisherLists_ := v.publisherLists_.insert id .unknown }

/-- One validator key of the configuration. -/
def loadKey (noKey localSigningKey : K) (v : ValidatorList K) (key : Option K) : Option (ValidatorList K) :=
  match key with
  | none => none
  | some id =>
    -- Skip local key which was already added
    if id = v.localPubKey_ ∨ id = localSigningKey then some v
    else if id ∈ v.keyListings_ then some v
    else
      let configured := (v.publisherLists_.lookup noKey).getD { (.unknown : PublisherList K) with expiration := 2 ^ 32 - 1 }
      some { v with
        keyListings_ := v.keyListings_.insert id 1
        publisherLists_ := v.publisherLists_.insert noKey
          { configured with list := configured.list ++ [id], available := true } }

/-- `ValidatorList::load`, of lists that are empty; `noKey` is `PublicKey{}`. -/
def load (noKey localSigningKey : K) (validatorManifests publisherManifests : ManifestCache K)
    (configKeys publisherKeys : List (Option K)) : Option (ValidatorList K) := do
  let v ← publisherKeys.foldlM loadPublisher ⟨validatorManifests, publisherManifests, ∅, ∅, ∅, noKey⟩
  let localPubKey := validatorManifests.getMasterKey localSigningKey
  let v := { v with
    localPubKey_ := localPubKey
    -- Treat local validator key as though it was listed in the config
    keyListings_ := if localPubKey ≠ noKey then v.keyListings_.insert localPubKey 1 else v.keyListings_ }
  configKeys.foldlM (loadKey noKey localSigningKey) v

/-! ## `applyList` -/

/-- `removePublisherList`. -/
def removePublisherList (v : ValidatorList K) (publisherKey : K) : ValidatorList K :=
  match v.publisherLists_.lookup publisherKey with
  | none => v
  | some l => { v with
      keyListings_ := l.list.foldl decrement v.keyListings_
      publisherLists_ := v.publisherLists_.insert publisherKey { l with list := [], available := false } }

/-- The loop over the new and the old list of a publisher. -/
def updateListings : List K → List K → Assoc K ℕ → Assoc K ℕ
  | [], [], keyListings => keyListings
  | new :: iNew, [], keyListings => updateListings iNew [] (increment keyListings new)
  | [], old :: iOld, keyListings => updateListings [] iOld (decrement keyListings old)
  | new :: iNew, old :: iOld, keyListings =>
    if new < old then updateListings iNew (old :: iOld) (increment keyListings new)
    else if old < new then updateListings (new :: iNew) iOld (decrement keyListings old)
    else updateListings iNew iOld keyListings
  termination_by iNew iOld => iNew.length + iOld.length

/-- `ValidatorList::verify`: the publisher and its new list, if it is accepted. `asUInt` of a negative number throws. -/
def verify (verifyManifest : Manifest K → Bool) (now : ℕ) (v : ValidatorList K) (published : PublishedList K) :
    Except String (ListDisposition ⊕ K × ListBlob K) × ValidatorList K :=
  match published.manifest with
  | none => (.ok (.inl .untrusted), v)
  | some m =>
    if m.masterKey ∉ v.publisherLists_ then (.ok (.inl .untrusted), v)
    else
      let applied := v.publisherManifests_.applyManifest verifyManifest m
      let v := { v with publisherManifests_ := applied.2 }
      if m.revoked ∧ applied.1 = .accepted then
        let v := v.removePublisherList m.masterKey
        (.ok (.inl .untrusted), { v with publisherLists_ := v.publisherLists_.erase m.masterKey })
      else if m.revoked ∨ applied.1 = .invalid then (.ok (.inl .untrusted), v)
      else if ¬ published.signedBy (v.publisherManifests_.getSigningKey m.masterKey) then (.ok (.inl .invalid), v)
      else
        match published.blob with
        | none => (.ok (.inl .invalid), v)
        | some list =>
          if list.sequence < 0 ∨ list.expiration < 0 then
            (.error "Negative integer can not be converted to unsigned integer", v)
          else
            let sequence := ((v.publisherLists_.lookup m.masterKey).getD .unknown).sequence
            if list.sequence < sequence ∨ list.expiration ≤ now then (.ok (.inl .stale), v)
            else if list.sequence = sequence then (.ok (.inl .same_sequence), v)
            else (.ok (.inr (m.masterKey, list)), v)

/-- The keys of a list, sorted. -/
def ListBlob.keys (list : ListBlob K) : List K :=
  (list.validators.filterMap fun val => val.bind ListEntry.validation_public_key).insertionSort (· ≤ ·)

/-- A manifest of a list is applied if it is of a listed validator. -/
def applyListed (verifyManifest : Manifest K → Bool) (v : ValidatorList K) (m : Manifest K) : ValidatorList K :=
  if m.masterKey ∉ v.keyListings_ then v
  else { v with validatorManifests_ := (v.validatorManifests_.applyManifest verifyManifest m).2 }

/-- The list of an accepted blob takes the place of the publisher's. -/
def publish (v : ValidatorList K) (pubKey : K) (list : ListBlob K) : ValidatorList K :=
  { v with
    keyListings_ := updateListings (ListBlob.keys list)
      ((v.publisherLists_.lookup pubKey).getD .unknown).list v.keyListings_
    publisherLists_ := v.publisherLists_.insert pubKey
      ⟨true, ListBlob.keys list, list.sequence.toNat, list.expiration.toNat⟩ }

/-- `ValidatorList::applyList`. -/
def applyList (verifyManifest : Manifest K → Bool) (now : ℕ) (v : ValidatorList K) (published : PublishedList K) :
    Except String ListDisposition × ValidatorList K :=
  if published.version ≠ 1 then (.ok .unsupported_version, v)
  else
    match v.verify verifyManifest now published with
    | (.error e, v) => (.error e, v)
    | (.ok (.inl disposition), v) => (.ok disposition, v)
    | (.ok (.inr (pubKey, list)), v) =>
      (.ok .accepted, (list.validators.filterMap fun val => val.bind ListEntry.manifest).foldl (applyListed verifyManifest)
        (v.publish pubKey list))

/-! ## `updateTrusted` -/

/-- The node identities that were added and removed. -/
structure TrustChanges (N : Type) where
  added : Finset N
  removed : Finset N

/-- One published list: it is removed if it has expired. -/
def removeExpired (now : ℕ) (v : ValidatorList K) (entry : (_ : K) × PublisherList K) : ValidatorList K :=
  if entry.2.available ∧ entry.2.expiration ≤ now then v.removePublisherList entry.1 else v

/-- One listed key: it is trusted unless it has been revoked. -/
def trust (calcNodeID : K → N) (revoked : K → Bool) (changes : Finset K × Finset N) (entry : (_ : K) × ℕ) :
    Finset K × Finset N :=
  if ¬ revoked entry.1 ∧ entry.1 ∉ changes.1 then (insert entry.1 changes.1, insert (calcNodeID entry.1) changes.2) else changes

/-- `ValidatorList::updateTrusted`. -/
def updateTrusted (calcNodeID : K → N) (now : ℕ) (v : ValidatorList K) : TrustChanges N × ValidatorList K :=
  let v := v.publisherLists_.entries.foldl (removeExpired now) v
  let removed := v.trustedKeys_.filter fun k => k ∉ v.keyListings_ ∨ v.validatorManifests_.revoked k
  let trusted := v.keyListings_.entries.foldl (trust calcNodeID v.validatorManifests_.revoked) (v.trustedKeys_ \ removed, ∅)
  (⟨trusted.2, removed.image calcNodeID⟩, { v with trustedKeys_ := trusted.1 })

end ValidatorList

end ScfChain.App
