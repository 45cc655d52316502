import ScfChain.Core.JobQueue

/-!
# Scheduling

A task is not tied to a job, and a deferred job has no task. What holds at all times (`Sound`): the counters of a type count
its jobs, its jobs that run or have their task are at most its limit, and at its limit if any is deferred; and there are as
many tasks as jobs that have one.

* `Sound.exists_start`, `Sound.drained` : what the workers can do.
* `History` : the jobs of a type that were started, followed by those that wait, are those that were added, in order.
* `jobs_scheduled` : every run.
-/

namespace ScfChain.Core.JobQueue

open Data

variable {T : Type} [LinearOrder T] {getJobLimit : T → ℕ}

/-- The counters of a type: jobs are deferred only when those that run or have their task reach the limit. -/
structure Balanced (limit : ℕ) (data : JobTypeData) : Prop where
  deferred_nonneg : 0 ≤ data.deferred
  ready_nonneg : 0 ≤ data.ready
  le_limit : data.ready + data.running ≤ limit
  deferred : 0 < data.deferred → data.ready + data.running = limit

variable [Fintype T]

structure Sound (getJobLimit : T → ℕ) (q : JobQueue T) : Prop where
  sorted : q.m_jobSet.Pairwise fun a b => a.lt b
  index_le : ∀ job ∈ q.m_jobSet, job.mJobIndex ≤ q.m_lastJob
  waiting : ∀ t, (q.m_jobData t).waiting = (ofType t q.m_jobSet).length
  running : ∀ t, (q.m_jobData t).running = (ofType t q.doing).length
  balanced : ∀ t, Balanced (getJobLimit t) (q.m_jobData t)
  tasks : (q.tasks : ℤ) = ∑ t, (q.m_jobData t).ready

theorem sum_modify_ready (q : JobQueue T) (t : T) (f : JobTypeData → JobTypeData) :
    ∑ t', ((q.modify t f).m_jobData t').ready =
      ∑ t', (q.m_jobData t').ready + ((f (q.m_jobData t)).ready - (q.m_jobData t).ready) := by
  have hpoint : ∀ t', ((q.modify t f).m_jobData t').ready =
      (q.m_jobData t').ready + if t' = t then (f (q.m_jobData t)).ready - (q.m_jobData t).ready else 0 := by
    intro t'
    rw [modify_jobData]
    split_ifs with h
    · rw [h]
      ring
    · ring
  rw [Finset.sum_congr rfl fun t' _ => hpoint t', Finset.sum_add_distrib, Finset.sum_ite_eq' Finset.univ t]
  simp

theorem sound_empty : Sound getJobLimit (empty : JobQueue T) where
  sorted := List.Pairwise.nil
  index_le := by simp [empty]
  waiting _ := rfl
  running _ := rfl
  balanced t := ⟨le_rfl, le_rfl, by simp [empty, JobTypeData.ready], fun h => absurd h (lt_irrefl _)⟩
  tasks := by simp [empty, JobTypeData.ready]

omit [Fintype T] in
theorem length_ofType_singleton (t : T) (job : Job T) :
    ((ofType t [job]).length : ℤ) = if t = job.mType then 1 else 0 := by
  rw [ofType_cons]
  by_cases h : job.mType = t
  · simp [h, ofType]
  · simp [h, Ne.symm h, ofType]

variable {q q' : JobQueue T} {job : Job T} {e : Event T} {es : List (Event T)}

section

variable (hq : Sound getJobLimit q)
include hq

theorem Sound.modify {q₁ : JobQueue T} {t : T} {f : JobTypeData → JobTypeData}
    (hdata : q₁.m_jobData = q.m_jobData) (hsorted : q₁.m_jobSet.Pairwise fun a b => a.lt b)
    (hindex : ∀ job ∈ q₁.m_jobSet, job.mJobIndex ≤ q₁.m_lastJob)
    (hwaiting : ∀ t', ((ofType t' q₁.m_jobSet).length : ℤ) = (q.m_jobData t').waiting +
      if t' = t then (f (q.m_jobData t)).waiting - (q.m_jobData t).waiting else 0)
    (hrunning : ∀ t', ((ofType t' q₁.doing).length : ℤ) = (q.m_jobData t').running +
      if t' = t then (f (q.m_jobData t)).running - (q.m_jobData t).running else 0)
    (hbalanced : Balanced (getJobLimit t) (f (q.m_jobData t)))
    (htasks : (q₁.tasks : ℤ) = q.tasks + ((f (q.m_jobData t)).ready - (q.m_jobData t).ready)) :
    Sound getJobLimit (q₁.modify t f) where
  sorted := hsorted
  index_le := hindex
  waiting t' := by
    rw [modify_jobSet, hwaiting, modify_jobData, hdata]
    split_ifs with h
    · rw [h]
      ring
    · ring
  running t' := by
    rw [modify_doing, hrunning, modify_jobData, hdata]
    split_ifs with h
    · rw [h]
      ring
    · ring
  balanced t' := by
    rw [modify_jobData, hdata]
    split_ifs with h
    · rw [h]
      exact hbalanced
    · exact hq.balanced t'
  tasks := by rw [modify_tasks, htasks, hq.tasks, sum_modify_ready, hdata]

theorem Sound.add (t : T) : Sound getJobLimit (addRefCountedJob getJobLimit q t) := by
  have hnew : ∀ b ∈ q.m_jobSet, b.mJobIndex < (⟨t, q.m_lastJob + 1⟩ : Job T).mJobIndex := fun b hb =>
    Nat.lt_succ_of_le (hq.index_le b hb)
  have hindex : ∀ job ∈ insertJob ⟨t, q.m_lastJob + 1⟩ q.m_jobSet, job.mJobIndex ≤ q.m_lastJob + 1 := by
    intro job hjob
    obtain rfl | hjob := mem_insertJob hjob
    · exact le_rfl
    · exact (hq.index_le job hjob).trans (Nat.le_succ _)
  have hcount : ∀ t', ((ofType t' (insertJob ⟨t, q.m_lastJob + 1⟩ q.m_jobSet)).length : ℤ) =
      (q.m_jobData t').waiting + if t' = t then 1 else 0 := by
    intro t'
    rw [ofType_insertJob hq.sorted hnew, List.length_append, Nat.cast_add, length_ofType_singleton, hq.waiting]
  obtain ⟨hnonneg, hready, hle, hdeferred⟩ := hq.balanced t
  unfold JobTypeData.ready at hready hle hdeferred
  unfold addRefCountedJob queueJob
  dsimp only
  split_ifs with hbelow
  · -- nothing is deferred below the limit
    apply hq.modify
    · rfl
    · exact pairwise_insertJob hq.sorted
    · exact hindex
    · intro t'
      simpa [addTask] using hcount t'
    · intro t'
      simp [addTask, hq.running]
    · constructor <;> simp only [JobTypeData.ready] <;> omega
    · simp only [addTask, JobTypeData.ready]
      push_cast
      ring
  · apply hq.modify
    · rfl
    · exact pairwise_insertJob hq.sorted
    · exact hindex
    · intro t'
      simpa using hcount t'
    · intro t'
      simp [hq.running]
    · constructor <;> simp only [JobTypeData.ready] <;> omega
    · simp only [JobTypeData.ready]
      ring

theorem Sound.start {q₁ : JobQueue T} (htask : 0 < q.tasks)
    (h : getNextJob getJobLimit { q with tasks := q.tasks - 1 } = .ok (job, q₁)) :
    Sound getJobLimit { q₁ with doing := job :: q₁.doing } := by
  obtain ⟨hrunning, before, after, hset, hbefore, rfl⟩ := getNextJob_eq_ok h
  dsimp only at hset hrunning
  have hsub : (before ++ after).Sublist q.m_jobSet := by
    rw [hset]
    exact List.Sublist.append_left (List.sublist_cons_self _ _) _
  have hcount : ∀ t, ((ofType t (before ++ after)).length : ℤ) =
      (q.m_jobData t).waiting - if t = job.mType then 1 else 0 := by
    intro t
    rw [hq.waiting, hset, ofType_middle hbefore, List.length_append, Nat.cast_add, length_ofType_singleton]
    ring
  have hwaiting : 0 < (q.m_jobData job.mType).waiting := by
    have := hcount job.mType
    rw [if_pos rfl] at this
    omega
  obtain ⟨hnonneg, hready, hle, hdeferred⟩ := hq.balanced job.mType
  unfold JobTypeData.ready at hready hle hdeferred
  show Sound getJobLimit
    ({ q with m_jobSet := before ++ after, tasks := q.tasks - 1, doing := [job] ++ q.doing }.modify job.mType fun data =>
      { data with waiting := data.waiting - 1, running := data.running + 1 })
  refine hq.modify rfl (hq.sorted.sublist hsub) (fun b hb => hq.index_le b (hsub.subset hb)) (fun t => ?_) (fun t => ?_) ?_ ?_
  · rw [hcount]
    split_ifs <;> ring
  · rw [ofType_append, List.length_append, Nat.cast_add,
      length_ofType_singleton, hq.running]
    split_ifs <;> ring
  · constructor <;> simp only [JobTypeData.ready] <;> omega
  · simp only [JobTypeData.ready]
    omega

theorem Sound.finish (hjob : job ∈ q.doing)
    (h : finishJob getJobLimit { q with doing := q.doing.erase job } job.mType = .ok q') : Sound getJobLimit q' := by
  have hcount : ∀ t, ((ofType t (q.doing.erase job)).length : ℤ) =
      (q.m_jobData t).running - if t = job.mType then 1 else 0 := by
    intro t
    have hperm := ((List.perm_cons_erase hjob).filter (·.mType = t)).length_eq
    change (ofType t q.doing).length = (ofType t ([job] ++ q.doing.erase job)).length at hperm
    rw [hq.running, hperm, ofType_append, List.length_append, Nat.cast_add, length_ofType_singleton]
    ring
  obtain ⟨hnonneg, hready, hle, hdeferred⟩ := hq.balanced job.mType
  unfold JobTypeData.ready at hready hle hdeferred
  unfold finishJob at h
  dsimp only at h
  split_ifs at h with hpos hassert <;> cases h
  · apply hq.modify
    · rfl
    · exact hq.sorted
    · exact hq.index_le
    · intro t
      simp [addTask, hq.waiting]
    · intro t
      simp only [addTask]
      rw [hcount]
      split_ifs <;> ring
    · constructor <;> simp only [JobTypeData.ready] <;> omega
    · simp only [addTask, JobTypeData.ready]
      push_cast
      ring
  · apply hq.modify
    · rfl
    · exact hq.sorted
    · exact hq.index_le
    · intro t
      simp [hq.waiting]
    · intro t
      rw [hcount]
      split_ifs <;> ring
    · constructor <;> simp only [JobTypeData.ready] <;> omega
    · simp only [JobTypeData.ready]
      ring

theorem Sound.step (h : step getJobLimit e q q') : Sound getJobLimit q' := by
  cases e with
  | add job =>
    obtain ⟨-, rfl⟩ := h
    exact hq.add job.mType
  | start job =>
    obtain ⟨htask, q₁, hnext, rfl⟩ := h
    exact hq.start htask hnext
  | finish job => exact hq.finish h.1 h.2

/-! ## Progress -/

theorem Sound.running_le (t : T) : (q.m_jobData t).running ≤ getJobLimit t := by
  have hle := (hq.balanced t).le_limit
  have hready := (hq.balanced t).ready_nonneg
  omega

theorem Sound.waiting_pos (hjob : job ∈ q.m_jobSet) :
    0 < (q.m_jobData job.mType).waiting := by
  rw [hq.waiting, Int.natCast_pos]
  exact List.length_pos_of_mem (a := job) (by simpa [ofType] using hjob)

theorem Sound.exists_start (htask : 0 < q.tasks) :
    ∃ job q', JobQueue.step getJobLimit (.start job) q q' := by
  have hready : ∃ t, 0 < (q.m_jobData t).ready := by
    by_contra hnone
    push Not at hnone
    have hsum := Finset.sum_nonpos fun t (_ : t ∈ Finset.univ) => hnone t
    have htasks := hq.tasks
    omega
  obtain ⟨t, ht⟩ := hready
  have hbalanced := hq.balanced t
  obtain ⟨job, hjob⟩ : ∃ job, job ∈ ofType t q.m_jobSet := by
    apply List.exists_mem_of_length_pos
    have hwaiting := hq.waiting t
    have hnonneg := hbalanced.deferred_nonneg
    unfold JobTypeData.ready at ht
    omega
  have hmem : job ∈ q.m_jobSet ∧ job.mType = t := by simpa [ofType] using hjob
  have hbelow : (q.m_jobData job.mType).running < getJobLimit job.mType := by
    rw [hmem.2]
    have hle := hbalanced.le_limit
    omega
  obtain ⟨next, hnext⟩ := exists_findJob hq.running_le (fun _ => hq.waiting_pos) ⟨job, hmem.1, hbelow⟩
  have hgot : ∃ q₁, getNextJob getJobLimit { q with tasks := q.tasks - 1 } = .ok (next, q₁) := by
    unfold getNextJob
    rw [if_neg (List.ne_nil_of_mem hmem.1), hnext]
    exact ⟨_, rfl⟩
  obtain ⟨q₁, hgot⟩ := hgot
  exact ⟨next, _, htask, q₁, hgot, rfl⟩

theorem Sound.exists_finish (hjob : job ∈ q.doing) :
    ∃ q', JobQueue.step getJobLimit (.finish job) q q' := by
  have hbalanced := hq.balanced job.mType
  simp only [JobQueue.step, hjob, true_and]
  unfold finishJob
  dsimp only
  split_ifs with hpos hassert
  · have hfull := hbalanced.deferred hpos
    unfold JobTypeData.ready at hfull
    omega
  · exact ⟨_, rfl⟩
  · exact ⟨_, rfl⟩

/-- **No deferred job is stranded.** -/
theorem Sound.drained (hlimit : ∀ job ∈ q.m_jobSet, 1 ≤ getJobLimit job.mType)
    (htasks : q.tasks = 0) (hdoing : q.doing = []) : q.m_jobSet = [] := by
  have hready : ∀ t, (q.m_jobData t).ready = 0 := by
    have hsum := hq.tasks
    rw [htasks, Nat.cast_zero, eq_comm, Finset.sum_eq_zero_iff_of_nonneg fun t _ => (hq.balanced t).ready_nonneg] at hsum
    exact fun t => hsum t (Finset.mem_univ t)
  by_contra hne
  obtain ⟨job, hjob⟩ := List.exists_mem_of_ne_nil _ hne
  have hwaiting := hq.waiting_pos hjob
  have hrunning : (q.m_jobData job.mType).running = 0 := by
    rw [hq.running, hdoing]
    rfl
  -- all that waits is deferred, so the type is at its limit, with nothing running
  have hzero := hready job.mType
  have hfull := (hq.balanced job.mType).deferred (by unfold JobTypeData.ready at hzero; omega)
  have hpos := hlimit job hjob
  omega

end

/-- The work that is left: a job has to be started and to be finished. -/
def work (q : JobQueue T) : ℕ := 2 * q.m_jobSet.length + q.doing.length

omit [LinearOrder T] [Fintype T] in
theorem finishJob_eq_ok [LinearOrder T] {t : T} (h : finishJob getJobLimit q t = .ok q') :
    q'.m_jobSet = q.m_jobSet ∧ q'.m_lastJob = q.m_lastJob ∧ q'.doing = q.doing := by
  unfold finishJob at h
  split_ifs at h <;> cases h <;> exact ⟨rfl, rfl, rfl⟩

omit [Fintype T] in
theorem work_step (hadd : ∀ job, e ≠ .add job) (h : step getJobLimit e q q') : q'.work + 1 = q.work := by
  cases e with
  | add job => exact absurd rfl (hadd job)
  | start job =>
    obtain ⟨-, q₁, hnext, rfl⟩ := h
    obtain ⟨-, before, after, hset, -, rfl⟩ := getNextJob_eq_ok hnext
    dsimp only at hset
    simp only [work, modify_jobSet, modify_doing, hset, List.length_append, List.length_cons]
    omega
  | finish job =>
    obtain ⟨hjob, hfinish⟩ := h
    obtain ⟨hset, -, hdoing⟩ := finishJob_eq_ok hfinish
    have hlen := List.length_erase_add_one hjob
    simp only [work, hset, hdoing]
    omega

omit [Fintype T] in
theorem work_steps (hadd : ∀ job, Event.add job ∉ es)
    (h : Steps (step getJobLimit) q es q') : q'.work + es.length = q.work := by
  induction h with
  | nil => rfl
  | @snoc es e q₁ q₂ hrun hstep ih =>
    have hwork := work_step (fun job heq => hadd job (by simp [heq])) hstep
    have hbefore := ih fun job hjob => hadd job (List.mem_append_left _ hjob)
    rw [List.length_append, List.length_singleton]
    omega

/-! ## Runs -/

/-- The jobs that were added, in order. -/
def added (es : List (Event T)) : List (Job T) := es.filterMap fun | .add job => some job | _ => none

/-- The jobs that were handed out, in order. -/
def started (es : List (Event T)) : List (Job T) := es.filterMap fun | .start job => some job | _ => none

/-- The jobs of a type that were handed out, followed by those that wait, are those that were added. -/
structure History (es : List (Event T)) (q : JobQueue T) : Prop where
  order : ∀ t, ofType t (started es) ++ ofType t q.m_jobSet = ofType t (added es)
  numbers : (added es).map Job.mJobIndex = List.range' 1 q.m_lastJob

omit [Fintype T] in
theorem addRefCountedJob_eq (getJobLimit : T → ℕ) (q : JobQueue T) (t : T) :
    (addRefCountedJob getJobLimit q t).m_jobSet = insertJob ⟨t, q.m_lastJob + 1⟩ q.m_jobSet ∧
      (addRefCountedJob getJobLimit q t).m_lastJob = q.m_lastJob + 1 := by
  unfold addRefCountedJob queueJob
  split <;> exact ⟨rfl, rfl⟩

theorem History.step (hes : History es q) (hq : Sound getJobLimit q)
    (h : JobQueue.step getJobLimit e q q') : History (es ++ [e]) q' := by
  cases e with
  | add job =>
    obtain ⟨hindex, rfl⟩ := h
    obtain ⟨hset, hlast⟩ := addRefCountedJob_eq getJobLimit q job.mType
    have hnew : ∀ b ∈ q.m_jobSet, b.mJobIndex < job.mJobIndex := fun b hb => by
      rw [hindex]
      exact Nat.lt_succ_of_le (hq.index_le b hb)
    have hadded : added (es ++ [.add job]) = added es ++ [job] := by simp [added]
    have hstarted : started (es ++ [.add job]) = started es := by simp [started]
    constructor
    · intro t
      rw [hset, ← hindex, ofType_insertJob hq.sorted hnew, hadded, hstarted, ofType_append, ← List.append_assoc, hes.order]
    · rw [hadded, hlast, List.map_append, hes.numbers, List.range'_concat, List.map_singleton, hindex]
      simp [Nat.add_comm]
  | start job =>
    obtain ⟨-, q₁, hnext, rfl⟩ := h
    obtain ⟨-, before, after, hset, hbefore, rfl⟩ := getNextJob_eq_ok hnext
    dsimp only at hset
    have hadded : added (es ++ [.start job]) = added es := by simp [added]
    have hstarted : started (es ++ [.start job]) = started es ++ [job] := by simp [started]
    constructor
    · intro t
      rw [hadded, hstarted, ← hes.order, hset, ofType_middle hbefore, ofType_append, List.append_assoc]
      rfl
    · rw [hadded, hes.numbers]
      rfl
  | finish job =>
    obtain ⟨hset, hlast, -⟩ := finishJob_eq_ok h.2
    have hadded : added (es ++ [.finish job]) = added es := by simp [added]
    have hstarted : started (es ++ [.finish job]) = started es := by simp [started]
    constructor
    · intro t
      rw [hadded, hstarted, hset]
      exact hes.order t
    · rw [hadded, hlast]
      exact hes.numbers

theorem sound_of_steps (h : Steps (step getJobLimit) q es q') (hq : Sound getJobLimit q) : Sound getJobLimit q' :=
  h.invariant hq fun _ _ _ _ hs hstep => hs.step hstep

theorem history_of_steps (h : Steps (step getJobLimit) empty es q) : History es q := by
  induction h with
  | nil => exact ⟨fun t => rfl, rfl⟩
  | snoc hrun hstep ih => exact ih.step (sound_of_steps hrun sound_empty) hstep

omit [Fintype T] in
theorem History.nodup_added (hes : History es q) : (added es).Nodup := by
  apply List.Nodup.of_map Job.mJobIndex
  rw [hes.numbers]
  exact List.nodup_range' ..

omit [Fintype T] in
theorem History.perm (hes : History es q) : (started es ++ q.m_jobSet).Perm (added es) :=
  perm_of_ofType fun t => by rw [ofType_append, hes.order]

omit [LinearOrder T] [Fintype T] in
theorem mem_added : job ∈ added es ↔ Event.add job ∈ es := by
  unfold added
  rw [List.mem_filterMap]
  constructor
  · rintro ⟨e, he, hjob⟩
    cases e <;> simp at hjob
    exact hjob ▸ he
  · exact fun h => ⟨_, h, rfl⟩

/-- **Scheduling.** After any interleaving of adders and workers: no type is over its limit; with a task outstanding a worker
finds a job to start, and one that is done can finish; jobs of a type start in the order they were added, no job is handed
out twice and none is lost; with no task outstanding and no job running no job waits. From there on the workers can take only
as many steps as there is work, and when they can take no more every job that was added has been handed out, once. -/
theorem jobs_scheduled {q : JobQueue T} {es : List (Event T)}
    (hlimit : ∀ job, Event.add job ∈ es → 1 ≤ getJobLimit job.mType) (h : Steps (step getJobLimit) empty es q) :
    (∀ t, (ofType t q.doing).length ≤ getJobLimit t) ∧
      (0 < q.tasks → ∃ job q', step getJobLimit (.start job) q q') ∧
      (∀ job ∈ q.doing, ∃ q', step getJobLimit (.finish job) q q') ∧
      (∀ t, ofType t (started es) <+: ofType t (added es)) ∧
      (started es ++ q.m_jobSet).Perm (added es) ∧ (added es).Nodup ∧
      (q.tasks = 0 → q.doing = [] → q.m_jobSet = []) ∧
      ∀ es' q', (∀ job, Event.add job ∉ es') → Steps (step getJobLimit) q es' q' →
        es'.length ≤ q.work ∧
          ((∀ job q'', ¬ step getJobLimit (.start job) q' q'' ∧ ¬ step getJobLimit (.finish job) q' q'') →
            (started (es ++ es')).Perm (added es)) := by
  have hsound := sound_of_steps h sound_empty
  have hhistory := history_of_steps h
  have hmem : ∀ job ∈ q.m_jobSet, 1 ≤ getJobLimit job.mType := fun job hjob =>
    hlimit job (mem_added.mp (hhistory.perm.subset (List.mem_append_right _ hjob)))
  refine ⟨fun t => ?_, hsound.exists_start, fun job => hsound.exists_finish, fun t => ⟨_, hhistory.order t⟩, hhistory.perm,
    hhistory.nodup_added, hsound.drained hmem, fun es' q' hadd h' => ⟨?_, fun hstuck => ?_⟩⟩
  · have hle := hsound.running_le t
    rw [hsound.running] at hle
    exact_mod_cast hle
  · exact Nat.le.intro ((Nat.add_comm _ _).trans (work_steps hadd h'))
  · -- the workers are stuck only if there is nothing left
    have hsound' := sound_of_steps h' hsound
    have hhistory' := history_of_steps (h.append h')
    have hadded : added (es ++ es') = added es := by
      have hnone : added es' = [] := List.eq_nil_iff_forall_not_mem.mpr fun job hjob => hadd job (mem_added.mp hjob)
      rw [added, List.filterMap_append]
      exact (congrArg _ hnone).trans (List.append_nil _)
    have hperm := hhistory'.perm
    rw [hadded] at hperm
    have htasks : q'.tasks = 0 := by
      by_contra hne
      obtain ⟨job, q'', hstart⟩ := hsound'.exists_start (Nat.pos_of_ne_zero hne)
      exact (hstuck job q'').1 hstart
    have hdoing : q'.doing = [] := by
      refine List.eq_nil_iff_forall_not_mem.mpr fun job hjob => ?_
      obtain ⟨q'', hfinish⟩ := hsound'.exists_finish hjob
      exact (hstuck job q'').2 hfinish
    have hempty := hsound'.drained
      (fun job hjob => hlimit job (mem_added.mp (hperm.subset (List.mem_append_right _ hjob)))) htasks hdoing
    rwa [hempty, List.append_nil] at hperm

/-- Two fetch packs: one is made, the other is deferred. -/
theorem jobs_scheduled_packs :
    ∃ q, Steps (step JobType.getJobLimit) empty [.add ⟨.jtPACK, 1⟩, .add ⟨.jtPACK, 2⟩, .start ⟨.jtPACK, 1⟩] q ∧
      (ofType .jtPACK q.doing).length ≤ JobType.getJobLimit .jtPACK ∧
      (Job.mk .jtPACK 1 :: q.m_jobSet).Perm [⟨.jtPACK, 1⟩, ⟨.jtPACK, 2⟩] := by
  have hrun : ∃ q, Steps (step JobType.getJobLimit) empty [.add ⟨.jtPACK, 1⟩, .add ⟨.jtPACK, 2⟩, .start ⟨.jtPACK, 1⟩] q := by
    have hnext : ∃ q, getNextJob JobType.getJobLimit
        { addRefCountedJob JobType.getJobLimit (addRefCountedJob JobType.getJobLimit empty .jtPACK) .jtPACK with tasks := 0 } =
          .ok (⟨.jtPACK, 1⟩, q) := ⟨_, rfl⟩
    obtain ⟨q, hnext⟩ := hnext
    exact ⟨_, .snoc (.snoc (.snoc .nil ⟨rfl, rfl⟩) ⟨rfl, rfl⟩) ⟨by decide, q, hnext, rfl⟩⟩
  obtain ⟨q, hrun⟩ := hrun
  have h := jobs_scheduled (fun job hjob => ?_) hrun
  · exact ⟨q, hrun, h.1 .jtPACK, h.2.2.2.2.1⟩
  · simp only [List.mem_cons, Event.add.injEq, reduceCtorEq, List.not_mem_nil, or_false] at hjob
    obtain rfl | rfl := hjob <;> decide

end ScfChain.Core.JobQueue
