import ScfChain.Data.Assoc

/-!
# Disputed transactions

A transaction is disputed when a peer's set and ours do not agree on it. A dispute records our vote, the votes of the peers
whose sets we have, and how many of those are for and against.

* `Tallied d` : the counts of `d` are those of its votes;
* `updateVote_eq` : an update keeps everything but our vote, and says whether it turned it.
-/

namespace ScfChain.Consensus.Round

open ScfChain.Data

variable {N T : Type} [DecidableEq N]

/-- `ConsensusParms`, as far as a round reads it. Times are in milliseconds, but for the two that are compared with the network's
clock. -/
structure Parms where
  proposeFRESHNESS : BitVec 32 := 20
  proposeINTERVAL : BitVec 32 := 12
  minCONSENSUS_PCT : ℕ := 80
  ledgerIDLE_INTERVAL : ℤ := 15000
  ledgerMIN_CONSENSUS : ℤ := 1950
  ledgerMIN_CLOSE : ℤ := 2000
  avMIN_CONSENSUS_TIME : ℤ := 5000
  avINIT_CONSENSUS_PCT : ℕ := 50
  avMID_CONSENSUS_TIME : ℕ := 50
  avMID_CONSENSUS_PCT : ℕ := 65
  avLATE_CONSENSUS_TIME : ℕ := 85
  avLATE_CONSENSUS_PCT : ℕ := 70
  avSTUCK_CONSENSUS_TIME : ℕ := 200
  avSTUCK_CONSENSUS_PCT : ℕ := 95
  avCT_CONSENSUS_PCT : ℕ := 75
  useRoundedCloseTime : Bool := true

/-- An `int` that is compared with a `std::size_t` is converted to it. -/
def toSize (n : ℤ) : ℕ := (n % 2 ^ 64).toNat

/-- The percentage that is asked for once `percentTime` of the last round's time has passed. -/
def Parms.neededWeight (p : Parms) (percentTime : ℤ) : ℕ :=
  if toSize percentTime < p.avMID_CONSENSUS_TIME then p.avINIT_CONSENSUS_PCT
  else if toSize percentTime < p.avLATE_CONSENSUS_TIME then p.avMID_CONSENSUS_PCT
  else if toSize percentTime < p.avSTUCK_CONSENSUS_TIME then p.avLATE_CONSENSUS_PCT
  else p.avSTUCK_CONSENSUS_PCT

structure DisputedTx (N T : Type) where
  yays : ℤ
  nays : ℤ
  ourVote : Bool
  tx : T
  votes : Assoc N Bool

namespace DisputedTx

def setVote (d : DisputedTx N T) (peer : N) (votesYes : Bool) : DisputedTx N T :=
  match d.votes.lookup peer with
  | none =>
    if votesYes then { d with votes := d.votes.insert peer votesYes, yays := d.yays + 1 }
    else { d with votes := d.votes.insert peer votesYes, nays := d.nays + 1 }
  | some vote =>
    if votesYes && !vote then { d with votes := d.votes.insert peer true, nays := d.nays - 1, yays := d.yays + 1 }
    else if !votesYes && vote then { d with votes := d.votes.insert peer false, nays := d.nays + 1, yays := d.yays - 1 }
    else d

def unVote (d : DisputedTx N T) (peer : N) : DisputedTx N T :=
  match d.votes.lookup peer with
  | none => d
  | some true => { d with yays := d.yays - 1, votes := d.votes.erase peer }
  | some false => { d with nays := d.nays - 1, votes := d.votes.erase peer }

/-- What our peers' votes would have us vote. -/
def newPosition (d : DisputedTx N T) (percentTime : ℤ) (proposing : Bool) (p : Parms) : Bool :=
  if proposing then
    -- give ourselves full weight
    let weight := (d.yays * 100 + if d.ourVote then 100 else 0).tdiv (d.nays + d.yays + 1)
    decide (p.neededWeight percentTime < toSize weight)
  else decide (d.nays < d.yays)

/-- The dispute after an update, and whether our vote changed. -/
def updateVote (d : DisputedTx N T) (percentTime : ℤ) (proposing : Bool) (p : Parms) : DisputedTx N T × Bool :=
  if d.ourVote && d.nays == 0 then (d, false)
  else if !d.ourVote && d.yays == 0 then (d, false)
  else if d.newPosition percentTime proposing p = d.ourVote then (d, false)
  else ({ d with ourVote := d.newPosition percentTime proposing p }, true)

/-! ## Votes -/

variable (d : DisputedTx N T) (peer node : N) (votesYes : Bool)

@[simp] theorem setVote_tx : (d.setVote peer votesYes).tx = d.tx := by
  unfold setVote
  split
  · split_ifs <;> rfl
  · split_ifs <;> rfl

@[simp] theorem setVote_ourVote : (d.setVote peer votesYes).ourVote = d.ourVote := by
  unfold setVote
  split
  · split_ifs <;> rfl
  · split_ifs <;> rfl

@[simp] theorem unVote_tx : (d.unVote peer).tx = d.tx := by
  unfold unVote
  split <;> rfl

@[simp] theorem unVote_ourVote : (d.unVote peer).ourVote = d.ourVote := by
  unfold unVote
  split <;> rfl

theorem lookup_setVote : (d.setVote peer votesYes).votes.lookup node = if node = peer then some votesYes else d.votes.lookup node := by
  have hinsert : ∀ v, (d.votes.insert peer v).lookup node = if node = peer then some v else d.votes.lookup node := by
    intro v
    split_ifs with h
    · rw [h, AList.lookup_insert]
    · rw [AList.lookup_insert_ne h]
  have hsame : ∀ v, d.votes.lookup peer = some v → d.votes.lookup node = if node = peer then some v else d.votes.lookup node := by
    intro v hv
    split_ifs with h
    · rw [h, hv]
    · rfl
  unfold setVote
  split
  · cases votesYes
    · exact hinsert false
    · exact hinsert true
  · rename_i vote hvote
    cases vote <;> cases votesYes
    · exact hsame false hvote
    · exact hinsert true
    · exact hinsert false
    · exact hsame true hvote

theorem lookup_unVote : (d.unVote peer).votes.lookup node = if node = peer then none else d.votes.lookup node := by
  have herase : (d.votes.erase peer).lookup node = if node = peer then none else d.votes.lookup node := by
    split_ifs with h
    · rw [h, AList.lookup_erase]
    · rw [AList.lookup_erase_ne h]
  unfold unVote
  split
  · split_ifs with h
    · rw [h]
      assumption
    · rfl
  · exact herase
  · exact herase

/-! ## Counts -/

/-- The votes that are `v`. -/
def countVotes (votes : Assoc N Bool) (v : Bool) : ℕ := totalOf (fun _ vote => if vote = v then 1 else 0) votes

/-- The counts are those of the votes. -/
def Tallied (d : DisputedTx N T) : Prop := d.yays = countVotes d.votes true ∧ d.nays = countVotes d.votes false

theorem countVotes_erase (votes : Assoc N Bool) (peer : N) (v : Bool) :
    countVotes votes v = (if votes.lookup peer = some v then 1 else 0) + countVotes (votes.erase peer) v := by
  rw [countVotes, totalOf_erase _ votes peer]
  cases votes.lookup peer with
  | none => rfl
  | some vote => simp [countVotes]

theorem countVotes_insert (votes : Assoc N Bool) (peer : N) (vote v : Bool) :
    countVotes (votes.insert peer vote) v = (if vote = v then 1 else 0) + countVotes (votes.erase peer) v :=
  totalOf_insert _ votes peer vote

omit [DecidableEq N] in
theorem tallied_new (ourVote : Bool) (tx : T) : Tallied (⟨0, 0, ourVote, tx, ∅⟩ : DisputedTx N T) := ⟨rfl, rfl⟩

variable {d}

theorem Tallied.setVote (h : Tallied d) : Tallied (d.setVote peer votesYes) := by
  have hyays := h.1
  have hnays := h.2
  rw [countVotes_erase d.votes peer] at hyays hnays
  unfold DisputedTx.setVote
  split
  · rename_i hvote
    rw [hvote] at hyays hnays
    cases votesYes
    · constructor <;> simp_all [countVotes_insert, add_comm]
    · constructor <;> simp_all [countVotes_insert, add_comm]
  · rename_i vote hvote
    rw [hvote] at hyays hnays
    cases vote <;> cases votesYes
    · exact h
    · constructor <;> simp_all [countVotes_insert, add_comm]
    · constructor <;> simp_all [countVotes_insert, add_comm]
    · exact h

theorem Tallied.unVote (h : Tallied d) : Tallied (d.unVote peer) := by
  have hyays := h.1
  have hnays := h.2
  rw [countVotes_erase d.votes peer] at hyays hnays
  unfold DisputedTx.unVote
  split
  · exact h
  · rename_i hvote
    constructor <;> simp_all
  · rename_i hvote
    constructor <;> simp_all

/-! ## Our vote -/

variable (d)

omit [DecidableEq N] in
theorem updateVote_eq (percentTime : ℤ) (proposing : Bool) (p : Parms) :
    d.updateVote percentTime proposing p = (d, false) ∨ d.updateVote percentTime proposing p = ({ d with ourVote := !d.ourVote }, true) := by
  unfold updateVote
  split_ifs with hnays hyays hsame
  · exact .inl rfl
  · exact .inl rfl
  · exact .inl rfl
  · refine .inr ?_
    have hnot : d.newPosition percentTime proposing p = !d.ourVote := by
      cases hours : d.ourVote <;> simp_all
    rw [hnot]

end DisputedTx

end ScfChain.Consensus.Round
