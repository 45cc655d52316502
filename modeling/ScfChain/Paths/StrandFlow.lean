import Mathlib
import ScfChain.Data.Succeeds
import ScfChain.Tx.Transactor

/-!
# The flow of a payment through its strands

A strand is a chain of steps. `strandFlow` asks one strand for an amount, from its last step to its first and, from the step
that limits it, forward again. `flow` asks all active strands in each pass, takes what the best one gives, and goes on with what
remains.

* `Amounts`, `Env`: the arithmetic of `SFCAmount` and `IOUAmount`, and what is a parameter here: sandboxes and qualities;
* `Pass`, `visit`: one pass over the active strands, `passed`: those that passed its checks;
* `close_next_iff`: when the right strand is dropped after a pass.
-/

set_option linter.unusedSectionVars false

namespace ScfChain.Paths

open Data Tx TER

/-! ## Amounts and steps -/

/-- The operations of a type of amounts. An overflow is an exception. -/
structure Amounts (α : Type) where
  zero : α
  add : α → α → Except String α
  neg : α → α
  lt : α → α → Bool

/-- What a step returns, what it leaves of the two views, and the offers that it found unfunded. -/
structure Exec (V E K : Type) where
  in_ : E
  out : E
  sb : V
  afView : V
  ofrsToRm : List K
  inactive : Bool

/-- A step keeps what it last returned in its cache, and `fwd` may use it. An exception has a result and the offers found so
far. -/
structure Step (V E K : Type) where
  rev : V → V → E → Except (TER × List K) (Exec V E K)
  fwd : Option (E × E) → V → V → E → Except (TER × List K) (Exec V E K)

structure Strand (V E K Q : Type) where
  steps : List (Step V E K)
  isDirectSfcToSfc : Bool
  qualityUpperBound : V → Option Q

/-- The types of amounts at the two ends of a payment, `EitherAmount` for them, sandboxes, and qualities. -/
structure Env (V E K α β Q : Type) where
  ins : Amounts α
  outs : Amounts β
  ofIn : α → E
  getIn : E → α
  ofOut : β → E
  getOut : E → β
  isZero : E → Bool
  child : V → V
  apply : V → V → V
  removeOffers : V → List K → V
  quality : β → α → Q

variable {V E K α β Q : Type} [DecidableEq E] [DecidableEq K] [DecidableEq α] [DecidableEq β] [LinearOrder Q]
  (env : Env V E K α β Q)

/-! ## One strand -/

/-- `StrandResult`, of a strand that succeeds. -/
structure Flowed (V K α β : Type) where
  in_ : α
  out : β
  sandbox : V
  ofrsToRm : List K
  inactive : Bool

/-- The variables of `flow`, while the steps are executed. -/
structure Running (V E K : Type) where
  sb : V
  afView : V
  ofrsToRm : List K
  limitingStep : ℕ
  limitStepOut : Option E
  stepOut : E
  cache : ℕ → Option (E × E)
  inactive : ℕ → Bool

/-- The step `i` has returned. -/
def Running.record (st : Running V E K) (i : ℕ) (r : Exec V E K) : Running V E K :=
  { st with
    sb := r.sb
    afView := r.afView
    ofrsToRm := st.ofrsToRm ∪ r.ofrsToRm
    cache := Function.update st.cache i (some (r.in_, r.out))
    inactive := Function.update st.inactive i r.inactive }

/-- The step `i` is called, from the given views. -/
def Running.call (st : Running V E K) (i : ℕ) (r : Except (TER × List K) (Exec V E K)) :
    Except (TER × List K) (Exec V E K × Running V E K) :=
  match r with
  | .error (ter, ofrs) => .error (ter, st.ofrsToRm ∪ ofrs)
  | .ok r => .ok (r, st.record i r)

/-- The step `i` on the way back to the first one. -/
def revStep (baseView : V) (maxIn : Option α) (i : ℕ) (step : Step V E K) (st : Running V E K) :
    Except (TER × List K) (Running V E K) := do
  let (r, st) ← st.call i (step.rev st.sb st.afView st.stepOut)
  if env.isZero r.out then .error (tecPATH_DRY, st.ofrsToRm)
  else match (if i = 0 then maxIn.filter (env.ins.lt · (env.getIn r.in_)) else none) with
    | some most => do
      -- limiting: more than the maximum would be taken
      let (r, st) ← st.call i (step.fwd (st.cache i) (env.child baseView) st.afView (env.ofIn most))
      if env.isZero r.out then .error (tecPATH_DRY, st.ofrsToRm)
      else if env.getIn r.in_ ≠ most then .error (telFAILED_PROCESSING, st.ofrsToRm)
      else return { st with limitingStep := i, limitStepOut := some r.out, stepOut := r.in_ }
    | none =>
      if r.out ≠ st.stepOut then do
        -- limiting: less than the request is delivered
        let asked := r.out
        let (r, st) ← st.call i (step.rev (env.child baseView) (env.child baseView) asked)
        if env.isZero r.out then .error (tecPATH_DRY, st.ofrsToRm)
        else if r.out ≠ asked then .error (telFAILED_PROCESSING, st.ofrsToRm)
        else return { st with limitingStep := i, limitStepOut := some r.out, stepOut := r.in_ }
      else return { st with stepOut := r.in_ }

/-- The steps before the last `steps.length` ones have not been executed yet. -/
def revLoop (baseView : V) (maxIn : Option α) : List (Step V E K) → ℕ → Running V E K → Except (TER × List K) (Running V E K)
  | [], _, st => .ok st
  | step :: steps, i, st => do
    let st ← revLoop baseView maxIn steps (i + 1) st
    revStep env baseView maxIn i step st

/-- The steps behind the one that limits the strand, from `i` on. -/
def fwdLoop : List (Step V E K) → ℕ → E → Running V E K → Except (TER × List K) (Running V E K)
  | [], _, _, st => .ok st
  | step :: steps, i, stepIn, st => do
    let (r, st) ← st.call i (step.fwd (st.cache i) st.sb st.afView stepIn)
    if env.isZero r.out then .error (tecPATH_DRY, st.ofrsToRm)
    else if r.in_ ≠ stepIn then .error (telFAILED_PROCESSING, st.ofrsToRm)
    else fwdLoop steps (i + 1) r.out st

/-- `flow`, of a single strand. -/
def strandFlow (baseView : V) (strand : Strand V E K Q) (maxIn : Option α) (out : β) :
    Except (TER × List K) (Flowed V K α β) := do
  if strand.steps = [] then .error (temUNKNOWN, [])
  else if strand.isDirectSfcToSfc then .error (tecNO_LINE, [])
  else
    let s := strand.steps.length
    let st ← revLoop env baseView maxIn strand.steps 0
      ⟨env.child baseView, env.child baseView, [], s, none, env.ofOut out, fun _ => none, fun _ => false⟩
    let st ← match st.limitStepOut with
      | none => .ok st
      | some stepIn => fwdLoop env (strand.steps.drop (st.limitingStep + 1)) (st.limitingStep + 1) stepIn st
    match st.cache 0, st.cache (s - 1) with
    | some (strandIn, _), some (_, strandOut) =>
      return ⟨env.getIn strandIn, env.getOut strandOut, st.sb, st.ofrsToRm, (List.range s).any st.inactive⟩
    | _, _ => .error (temUNKNOWN, st.ofrsToRm)

/-! ## One pass -/

/-- The best strand so far. -/
structure BestStrand (V α β Q : Type) where
  in_ : α
  out : β
  sb : V
  strand : ℕ
  quality : Q
  /-- The result says that the strand is of no more use. -/
  inactive : Bool

/-- The variables of one pass. Strands are known by their place in the payment. -/
structure Pass (V K α β Q : Type) where
  next_ : List ℕ
  ofrsToRm : List K
  best : Option (BestStrand V α β Q)
  markInactiveOnUse : Option ℕ

/-- `ActiveStrands::removeIndex`. -/
def removeIndex (next_ : List ℕ) (i : ℕ) : List ℕ := if next_.length ≤ i then next_ else next_.eraseIdx i

section Pass

variable (limitQuality : Option Q) (result : ℕ → Option (Except (TER × List K) (Flowed V K α β)))

/-- Is the result better than the best one so far? -/
def betterThan (best : Option (BestStrand V α β Q)) (q : Q) (out : β) : Bool :=
  match best with
  | none => true
  | some best => best.quality < q ∨ (best.quality = q ∧ env.outs.lt best.out out)

/-- Does a result pass the checks of the pass? -/
def accepted (f : Flowed V K α β) : Bool :=
  f.out ≠ env.outs.zero ∧ ∀ limit ∈ limitQuality, ¬ env.quality f.out f.in_ < limit

/-- The strand `i` is asked. There is no result if its quality cannot meet the limit. -/
def visit (cur_ : List ℕ) (s : Pass V K α β Q) (i : ℕ) : Pass V K α β Q :=
  match result i with
  | none => s
  | some (.error (_, ofrs)) => { s with ofrsToRm := s.ofrsToRm ∪ ofrs }
  | some (.ok f) =>
    let s := { s with ofrsToRm := s.ofrsToRm ∪ f.ofrsToRm }
    if accepted env limitQuality f then
      let s := { s with next_ := s.next_ ++ [i] }
      let q := env.quality f.out f.in_
      if betterThan env s.best q f.out then
        { s with
          best := some ⟨f.in_, f.out, f.sandbox, i, q, f.inactive⟩
          -- `activeStrands.size () - 1`
          markInactiveOnUse := if f.inactive then some (cur_.length - 1) else none }
      else s
    else s

/-- The pass over the active strands. -/
def scan (cur_ : List ℕ) : Pass V K α β Q := cur_.foldl (visit env limitQuality result cur_) ⟨[], [], none, none⟩

/-- The strands of the next pass. -/
def Pass.close (s : Pass V K α β Q) : List ℕ :=
  match s.best, s.markInactiveOnUse with
  | some _, some i => removeIndex s.next_ i
  | _, _ => s.next_

/-- The strands that passed the checks. -/
def passed (cur_ : List ℕ) : List ℕ :=
  cur_.filter fun i => match result i with
    | some (.ok f) => accepted env limitQuality f
    | _ => false

/-! ## Which strand is dropped -/

/-- The strand `b` is the best one of a pass with the given active strands, and would have to be dropped if it is inactive. -/
structure Pass.Marked (cur_ : List ℕ) (s : Pass V K α β Q) (b : BestStrand V α β Q) : Prop where
  mem : b.strand ∈ s.next_
  mark : s.markInactiveOnUse = if b.inactive then some (cur_.length - 1) else none

theorem visit_spec (cur_ done : List ℕ) {s : Pass V K α β Q} (hnext : s.next_ = passed env limitQuality result done)
    (hbest : ∀ b, s.best = some b → s.Marked cur_ b) (i : ℕ) :
    (visit env limitQuality result cur_ s i).next_ = passed env limitQuality result (done ++ [i]) ∧
      ∀ b, (visit env limitQuality result cur_ s i).best = some b → (visit env limitQuality result cur_ s i).Marked cur_ b := by
  unfold passed at hnext ⊢
  rw [List.filter_append, ← hnext]
  unfold visit
  cases hresult : result i with
  | none => exact ⟨by simp [hresult], hbest⟩
  | some r =>
    cases r with
    | error e => exact ⟨by simp [hresult], fun b hb => ⟨(hbest b hb).mem, (hbest b hb).mark⟩⟩
    | ok f =>
      dsimp only
      by_cases haccepted : accepted env limitQuality f = true
      · rw [if_pos haccepted]
        by_cases hbetter : betterThan env s.best (env.quality f.out f.in_) f.out = true
        · rw [if_pos hbetter]
          refine ⟨by simp [hresult, haccepted], fun b hb => ?_⟩
          obtain rfl := Option.some.inj hb
          exact ⟨by simp, rfl⟩
        · rw [if_neg hbetter]
          exact ⟨by simp [hresult, haccepted], fun b hb => ⟨List.mem_append_left _ (hbest b hb).mem, (hbest b hb).mark⟩⟩
      · rw [if_neg haccepted]
        exact ⟨by simp [hresult, haccepted], fun b hb => ⟨(hbest b hb).mem, (hbest b hb).mark⟩⟩

theorem scan_spec (cur_ : List ℕ) :
    (scan env limitQuality result cur_).next_ = passed env limitQuality result cur_ ∧
      ∀ b, (scan env limitQuality result cur_).best = some b → (scan env limitQuality result cur_).Marked cur_ b := by
  suffices h : ∀ done, (done.foldl (visit env limitQuality result cur_) ⟨[], [], none, none⟩).next_ =
      passed env limitQuality result done ∧
      ∀ b, (done.foldl (visit env limitQuality result cur_) ⟨[], [], none, none⟩).best = some b →
        (done.foldl (visit env limitQuality result cur_) ⟨[], [], none, none⟩).Marked cur_ b from h cur_
  intro done
  induction done using List.reverseRecOn with
  | nil => exact ⟨rfl, by simp⟩
  | append_singleton done i ih =>
    rw [List.foldl_append, List.foldl_cons, List.foldl_nil]
    exact visit_spec env limitQuality result cur_ done ih.1 ih.2 i

theorem removeIndex_eq_erase_iff {l : List ℕ} (hl : l.Nodup) {a : ℕ} (ha : a ∈ l) {n : ℕ} :
    removeIndex l (n - 1) = l.erase a ↔ (n - 1 < l.length ∧ l[n - 1]? = some a) := by
  unfold removeIndex
  split_ifs with hn
  · -- nothing is removed
    refine iff_of_false (fun h => ?_) fun h => absurd h.1 (not_lt.mpr hn)
    have := congrArg List.length h
    rw [List.length_erase_of_mem ha] at this
    have := List.length_pos_of_mem ha
    omega
  · rw [not_le] at hn
    rw [and_iff_right hn, List.getElem?_eq_getElem hn, Option.some_inj]
    constructor
    · intro h
      by_contra hne
      have hmem : l[n - 1] ∈ l.erase a := (List.mem_erase_of_ne hne).mpr (List.getElem_mem hn)
      rw [← h, ← hl.erase_getElem _ hn] at hmem
      exact hl.not_mem_erase hmem
    · rintro rfl
      exact (hl.erase_getElem _ hn).symm

/-- After a pass in which a strand is the best one, the strands of the next pass are those that passed the checks, without the
best one if it is inactive: exactly if it is not inactive, or all active strands passed and it is the last one. -/
theorem close_next_iff {cur_ : List ℕ} (hcur : cur_.Nodup) {b : BestStrand V α β Q}
    (hbest : (scan env limitQuality result cur_).best = some b) :
    ((scan env limitQuality result cur_).close = if b.inactive then (passed env limitQuality result cur_).erase b.strand
        else passed env limitQuality result cur_) ↔
      (b.inactive = true → passed env limitQuality result cur_ = cur_ ∧ cur_.getLast? = some b.strand) := by
  obtain ⟨hnext, hmarked⟩ := scan_spec env limitQuality result cur_
  obtain ⟨hmem, hmark⟩ := hmarked b hbest
  have hsub : (passed env limitQuality result cur_).Sublist cur_ := List.filter_sublist
  unfold Pass.close
  rw [hbest, hmark, hnext]
  rw [hnext] at hmem
  by_cases hinactive : b.inactive = true
  · rw [if_pos hinactive, if_pos hinactive]
    dsimp only
    rw [removeIndex_eq_erase_iff (hcur.sublist hsub) hmem, List.getLast?_eq_getElem?]
    have hlen := hsub.length_le
    have hpos := List.length_pos_of_mem hmem
    constructor
    · rintro ⟨hlt, hget⟩ -
      have heq := hsub.eq_of_length_le (by omega)
      rw [heq] at hget
      exact ⟨heq, hget⟩
    · intro h
      obtain ⟨heq, hget⟩ := h hinactive
      rw [heq]
      exact ⟨by omega, hget⟩
  · rw [if_neg hinactive, if_neg hinactive]
    exact iff_of_true rfl fun h => absurd h hinactive

end Pass

/-- Whole numbers as amounts, with the quality of what is delivered. -/
def wholeNumbers : Env Unit ℤ Unit ℤ ℤ ℤ where
  ins := ⟨0, fun a b => .ok (a + b), fun a => -a, fun a b => a < b⟩
  outs := ⟨0, fun a b => .ok (a + b), fun a => -a, fun a b => a < b⟩
  ofIn := id
  getIn := id
  ofOut := id
  getOut := id
  isZero := fun a => a = 0
  child := id
  apply := fun _ view => view
  removeOffers := fun view _ => view
  quality := fun out _ => out

/-- The results of two strands, of which the first is the better one and is inactive. -/
def firstExhausted (i : ℕ) : Option (Except (TER × List Unit) (Flowed Unit Unit ℤ ℤ)) :=
  some (.ok ⟨1, 2 - i, (), [], i = 0⟩)

/-- The last strand is the only one that is active and exhausted: it is dropped. -/
theorem close_next_iff_last : (scan wholeNumbers none firstExhausted [0]).close = [] :=
  (close_next_iff wholeNumbers none firstExhausted (List.nodup_singleton 0)
    (rfl : (scan wholeNumbers none firstExhausted [0]).best = some ⟨1, 2, (), 0, 2, true⟩)).mpr fun _ => ⟨rfl, rfl⟩

/-- The first of two strands is the best one and is inactive, but it is the second one that is dropped. -/
theorem close_drops_other :
    (scan wholeNumbers none firstExhausted [0, 1]).best.map (fun b => (b.strand, b.inactive)) = some (0, true) ∧
      passed wholeNumbers none firstExhausted [0, 1] = [0, 1] ∧
      (scan wholeNumbers none firstExhausted [0, 1]).close = [0] := by
  decide +kernel

end ScfChain.Paths
