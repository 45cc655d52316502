import ScfChain.Data.Steps

/-!
# The job queue

`addRefCountedJob`, `getNextJob` and `finishJob` of `JobQueue` run under its mutex, so a run is an interleaving of them. The
workers are told of work by `addTask`: `tasks` counts the tasks no worker has taken yet. A job over the limit of its type is
deferred, without a task, and `finishJob` issues the task later. A task is not tied to a job.

* `ofType_insertJob` : a new job comes after the jobs of its type.
* `getNextJob_eq_ok` : a job that is handed out is the first of its type.
-/

namespace ScfChain.Core

open Data

/-- The types of jobs, without `jtINVALID`, in the order of their priority. -/
inductive JobType
  | jtPACK | jtPUBOLDLEDGER | jtVALIDATION_ut | jtTRANSACTION_l | jtLEDGER_REQ | jtPROPOSAL_ut | jtLEDGER_DATA | jtCLIENT
  | jtRPC | jtUPDATE_PF | jtTRANSACTION | jtBATCH | jtADVANCE | jtPUBLEDGER | jtTXN_DATA | jtWAL | jtVALIDATION_t | jtWRITE
  | jtACCEPT | jtPROPOSAL_t | jtSWEEP | jtNETOP_CLUSTER | jtNETOP_TIMER | jtADMIN
  -- not dispatched by the job pool
  | jtPEER | jtDISK | jtTXN_PROC | jtOB_SETUP | jtPATH_FIND | jtHO_READ | jtHO_WRITE | jtGENERIC | jtNS_SYNC_READ
  | jtNS_ASYNC_READ | jtNS_WRITE
  deriving DecidableEq

instance : Fintype JobType := ⟨((List.range 35).map JobType.ofNat).toFinset, fun type => by cases type <;> decide⟩

instance : LinearOrder JobType := LinearOrder.lift' JobType.ctorIdx (Function.LeftInverse.injective JobType.ofNat_ctorIdx)

/-- `JobQueue::getJobLimit`, of the table `JobTypes`. -/
def JobType.getJobLimit : JobType → ℕ
  | jtPACK | jtTXN_DATA | jtNETOP_CLUSTER | jtNETOP_TIMER => 1
  | jtPUBOLDLEDGER | jtLEDGER_REQ | jtLEDGER_DATA => 2
  | jtPEER | jtDISK | jtTXN_PROC | jtOB_SETUP | jtPATH_FIND | jtHO_READ | jtHO_WRITE | jtGENERIC | jtNS_SYNC_READ
  | jtNS_ASYNC_READ | jtNS_WRITE => 0
  | _ => 2147483647

-- the queue does not depend on the types there are, nor on their limits
variable {T : Type} [LinearOrder T]

/-- A job: its type and its number. -/
structure Job (T : Type) where
  mType : T
  mJobIndex : ℕ
  deriving DecidableEq

/-- `Job::operator<`: jobs of later types first, and jobs of one type by their number. -/
def Job.lt (a b : Job T) : Bool :=
  if a.mType < b.mType then false
  else if b.mType < a.mType then true
  else a.mJobIndex < b.mJobIndex

structure JobTypeData where
  waiting : ℤ
  running : ℤ
  deferred : ℤ
  deriving DecidableEq

/-- The jobs that wait and have their task. -/
def JobTypeData.ready (data : JobTypeData) : ℤ := data.waiting - data.deferred

/-- The queue, the tasks that are outstanding and the jobs that workers do. -/
structure JobQueue (T : Type) where
  m_lastJob : ℕ
  m_jobSet : List (Job T)
  m_jobData : T → JobTypeData
  tasks : ℕ
  doing : List (Job T)

namespace JobQueue

def empty : JobQueue T := ⟨0, [], fun _ => ⟨0, 0, 0⟩, 0, []⟩

/-- `std::set::insert`. -/
def insertJob (job : Job T) : List (Job T) → List (Job T)
  | [] => [job]
  | b :: jobs => if job.lt b then job :: b :: jobs else if b.lt job then b :: insertJob job jobs else b :: jobs

/-- `Workers::addTask`. -/
def addTask (q : JobQueue T) : JobQueue T := { q with tasks := q.tasks + 1 }

/-- A change of the data of one type. -/
def modify (q : JobQueue T) (type : T) (f : JobTypeData → JobTypeData) : JobQueue T :=
  { q with m_jobData := Function.update q.m_jobData type (f (q.m_jobData type)) }

variable (getJobLimit : T → ℕ)

def queueJob (q : JobQueue T) (type : T) : JobQueue T :=
  if (q.m_jobData type).waiting + (q.m_jobData type).running < getJobLimit type then
    q.addTask.modify type fun data => { data with waiting := data.waiting + 1 }
  else
    -- defer the task until we go below the limit
    q.modify type fun data => { data with deferred := data.deferred + 1, waiting := data.waiting + 1 }

def addRefCountedJob (q : JobQueue T) (type : T) : JobQueue T :=
  queueJob getJobLimit
    { q with m_lastJob := q.m_lastJob + 1, m_jobSet := insertJob ⟨type, q.m_lastJob + 1⟩ q.m_jobSet } type

/-- The loop of `getNextJob`, with its assertions. -/
def findJob (m_jobData : T → JobTypeData) : List (Job T) → Except String (Job T)
  | [] => .error "iter != m_jobSet.end ()"
  | job :: jobs =>
    if getJobLimit job.mType < (m_jobData job.mType).running then .error "data.running <= getJobLimit (data.type ())"
    else if (m_jobData job.mType).running < getJobLimit job.mType then
      if 0 < (m_jobData job.mType).waiting then .ok job else .error "data.waiting > 0"
    else findJob m_jobData jobs

def getNextJob (q : JobQueue T) : Except String (Job T × JobQueue T) :=
  if q.m_jobSet = [] then .error "! m_jobSet.empty ()"
  else do
    let job ← findJob getJobLimit q.m_jobData q.m_jobSet
    return (job, { q with m_jobSet := q.m_jobSet.erase job }.modify job.mType fun data =>
      { data with waiting := data.waiting - 1, running := data.running + 1 })

def finishJob (q : JobQueue T) (type : T) : Except String (JobQueue T) :=
  if 0 < (q.m_jobData type).deferred then
    if (q.m_jobData type).running + (q.m_jobData type).waiting < getJobLimit type then
      .error "data.running + data.waiting >= getJobLimit (type)"
    else .ok (q.addTask.modify type fun data => { data with deferred := data.deferred - 1, running := data.running - 1 })
  else .ok (q.modify type fun data => { data with running := data.running - 1 })

end JobQueue

/-- What happens under the mutex: a job is added, a worker starts a job or is done with it. -/
inductive Event (T : Type)
  | add (job : Job T)
  | start (job : Job T)
  | finish (job : Job T)
  deriving DecidableEq

namespace JobQueue

variable (getJobLimit : T → ℕ)

/-- One step of an interleaving. A worker starts only when a task is outstanding. -/
def step : Event T → JobQueue T → JobQueue T → Prop
  | .add job, q, q' => job.mJobIndex = q.m_lastJob + 1 ∧ q' = addRefCountedJob getJobLimit q job.mType
  | .start job, q, q' => 0 < q.tasks ∧ ∃ q₁, getNextJob getJobLimit { q with tasks := q.tasks - 1 } = .ok (job, q₁) ∧
      q' = { q₁ with doing := job :: q₁.doing }
  | .finish job, q, q' => job ∈ q.doing ∧ finishJob getJobLimit { q with doing := q.doing.erase job } job.mType = .ok q'

variable {getJobLimit}

variable (q : JobQueue T) (t : T)

@[simp] theorem modify_jobSet (f) : (q.modify t f).m_jobSet = q.m_jobSet := rfl
@[simp] theorem modify_tasks (f) : (q.modify t f).tasks = q.tasks := rfl
@[simp] theorem modify_doing (f) : (q.modify t f).doing = q.doing := rfl

theorem modify_jobData (t' : T) (f : JobTypeData → JobTypeData) :
    (q.modify t f).m_jobData t' = if t' = t then f (q.m_jobData t') else q.m_jobData t' := by
  unfold modify
  by_cases h : t' = t
  · subst h
    simp
  · simp [h]

/-! ## The set of jobs -/

/-- The jobs of one type. -/
def ofType (t : T) (jobs : List (Job T)) : List (Job T) := jobs.filter (·.mType = t)

@[simp]
theorem ofType_append (jobs jobs' : List (Job T)) : ofType t (jobs ++ jobs') = ofType t jobs ++ ofType t jobs' :=
  List.filter_append ..

theorem ofType_cons (job : Job T) (jobs : List (Job T)) :
    ofType t (job :: jobs) = if job.mType = t then job :: ofType t jobs else ofType t jobs := by
  simp [ofType, List.filter_cons]

variable {jobs : List (Job T)} {job : Job T}

theorem ofType_eq_nil {t : T} (h : ∀ job ∈ jobs, job.mType ≠ t) : ofType t jobs = [] := by
  simpa [ofType] using h

theorem perm_of_ofType {jobs' : List (Job T)} (h : ∀ t, ofType t jobs = ofType t jobs') : jobs.Perm jobs' := by
  refine List.perm_iff_count.mpr fun job => ?_
  have hcount : ∀ l : List (Job T), l.count job = (ofType job.mType l).count job := fun l => by
    simp [ofType, List.count_filter]
  rw [hcount jobs, hcount jobs', h]

theorem lt_iff {a b : Job T} : a.lt b = true ↔ b.mType < a.mType ∨ a.mType = b.mType ∧ a.mJobIndex < b.mJobIndex := by
  unfold Job.lt
  split_ifs with hlt hgt
  · simp [hlt.ne, hlt.le]
  · simp [hgt]
  · have heq : a.mType = b.mType := le_antisymm (not_lt.mp hgt) (not_lt.mp hlt)
    simp [heq]

theorem ofType_insertJob (hsorted : jobs.Pairwise fun a b => a.lt b) (hnew : ∀ b ∈ jobs, b.mJobIndex < job.mJobIndex)
    (t : T) :
    ofType t (insertJob job jobs) = ofType t jobs ++ ofType t [job] := by
  induction jobs with
  | nil => rfl
  | cons b jobs ih =>
    have hb := hnew b List.mem_cons_self
    rw [insertJob]
    split_ifs with hlt hgt
    · -- every job that follows is of an earlier type
      have htype : b.mType < job.mType := by
        obtain h | h := lt_iff.mp hlt
        · exact h
        · omega
      have hbefore : ∀ c ∈ b :: jobs, c.mType ≠ job.mType := by
        intro c hc
        obtain rfl | hc := List.mem_cons.mp hc
        · exact htype.ne
        · obtain h | h := lt_iff.mp (List.rel_of_pairwise_cons hsorted hc)
          · exact (h.trans htype).ne
          · exact h.1 ▸ htype.ne
      by_cases ht : job.mType = t
      · rw [ofType_cons, if_pos ht, ofType_eq_nil (ht ▸ hbefore), ofType_cons, if_pos ht]
        rfl
      · rw [ofType_cons, if_neg ht, ofType_cons t job [], if_neg ht]
        simp [ofType]
    · rw [ofType_cons, ofType_cons t b jobs, ih hsorted.of_cons fun c hc => hnew c (List.mem_cons_of_mem _ hc)]
      split <;> rfl
    · -- two jobs are of one type and then their numbers tell them apart
      refine absurd (lt_iff.mpr ?_) hgt
      obtain h | h | h := lt_trichotomy b.mType job.mType
      · exact absurd (lt_iff.mpr (.inl h)) hlt
      · exact .inr ⟨h, hb⟩
      · exact .inl h

theorem lt_trans {a b c : Job T} (hab : a.lt b) (hbc : b.lt c) : a.lt c := by
  rw [lt_iff] at hab hbc ⊢
  obtain h | ⟨h, hi⟩ := hab <;> obtain h' | ⟨h', hi'⟩ := hbc
  · exact .inl (h'.trans h)
  · exact .inl (h' ▸ h)
  · exact .inl (h ▸ h')
  · exact .inr ⟨h.trans h', hi.trans hi'⟩

theorem mem_insertJob {c : Job T} (hc : c ∈ insertJob job jobs) : c = job ∨ c ∈ jobs := by
  induction jobs with
  | nil => simpa [insertJob] using hc
  | cons b jobs ih =>
    rw [insertJob] at hc
    split_ifs at hc
    · simpa using hc
    · obtain rfl | hc := List.mem_cons.mp hc
      · simp
      · exact (ih hc).imp_right (List.mem_cons_of_mem _)
    · exact .inr hc

theorem pairwise_insertJob (hsorted : jobs.Pairwise fun a b => a.lt b) :
    (insertJob job jobs).Pairwise fun a b => a.lt b := by
  induction jobs with
  | nil => exact List.pairwise_singleton _ _
  | cons b jobs ih =>
    rw [insertJob]
    split_ifs with hlt hgt
    · refine List.pairwise_cons.mpr ⟨fun c hc => ?_, hsorted⟩
      obtain rfl | hc := List.mem_cons.mp hc
      · exact hlt
      · exact lt_trans hlt (List.rel_of_pairwise_cons hsorted hc)
    · refine List.pairwise_cons.mpr ⟨fun c hc => ?_, ih hsorted.of_cons⟩
      obtain rfl | hc := mem_insertJob hc
      · exact hgt
      · exact List.rel_of_pairwise_cons hsorted hc
    · exact hsorted

/-! ## Handing out a job -/

omit [LinearOrder T] in
theorem findJob_eq_ok {m_jobData : T → JobTypeData} (h : findJob getJobLimit m_jobData jobs = .ok job) :
    (m_jobData job.mType).running < getJobLimit job.mType ∧
      ∃ before after, jobs = before ++ job :: after ∧ ∀ b ∈ before, b.mType ≠ job.mType := by
  induction jobs with
  | nil => cases h
  | cons c jobs ih =>
    rw [findJob] at h
    split_ifs at h with hover hbelow hwaiting
    · cases h
      exact ⟨hbelow, [], jobs, rfl, by simp⟩
    · obtain ⟨hrunning, before, after, rfl, hbefore⟩ := ih h
      refine ⟨hrunning, c :: before, after, rfl, fun b hb => ?_⟩
      obtain rfl | hb := List.mem_cons.mp hb
      · intro heq
        rw [heq] at hbelow
        exact hbelow hrunning
      · exact hbefore b hb

omit [LinearOrder T] in
theorem exists_findJob {m_jobData : T → JobTypeData} (hle : ∀ t, (m_jobData t).running ≤ getJobLimit t)
    (hwaiting : ∀ job ∈ jobs, 0 < (m_jobData job.mType).waiting)
    (hjob : ∃ job ∈ jobs, (m_jobData job.mType).running < getJobLimit job.mType) :
    ∃ job, findJob getJobLimit m_jobData jobs = .ok job := by
  induction jobs with
  | nil => simp at hjob
  | cons c jobs ih =>
    rw [findJob, if_neg (not_lt.mpr (hle _))]
    by_cases hbelow : (m_jobData c.mType).running < getJobLimit c.mType
    · rw [if_pos hbelow, if_pos (hwaiting c List.mem_cons_self)]
      exact ⟨c, rfl⟩
    · rw [if_neg hbelow]
      refine ih (fun job hjob => hwaiting job (List.mem_cons_of_mem _ hjob)) ?_
      obtain ⟨job, hmem, hrunning⟩ := hjob
      obtain rfl | hmem := List.mem_cons.mp hmem
      · exact absurd hrunning hbelow
      · exact ⟨job, hmem, hrunning⟩

theorem getNextJob_eq_ok {q q' : JobQueue T} (h : getNextJob getJobLimit q = .ok (job, q')) :
    (q.m_jobData job.mType).running < getJobLimit job.mType ∧
      ∃ before after, q.m_jobSet = before ++ job :: after ∧ (∀ b ∈ before, b.mType ≠ job.mType) ∧
        q' = { q with m_jobSet := before ++ after }.modify job.mType fun data =>
          { data with waiting := data.waiting - 1, running := data.running + 1 } := by
  unfold getNextJob at h
  split_ifs at h with hempty
  cases hfind : findJob getJobLimit q.m_jobData q.m_jobSet with
  | error e =>
    rw [hfind] at h
    cases h
  | ok found =>
    rw [hfind] at h
    cases h
    obtain ⟨hrunning, before, after, heq, hbefore⟩ := findJob_eq_ok hfind
    have hmem : job ∉ before := fun hmem => hbefore job hmem rfl
    refine ⟨hrunning, before, after, heq, hbefore, ?_⟩
    rw [heq, List.erase_append_right _ hmem, List.erase_cons_head]

theorem ofType_middle {before after : List (Job T)} (hbefore : ∀ b ∈ before, b.mType ≠ job.mType) (t : T) :
    ofType t (before ++ job :: after) = ofType t [job] ++ ofType t (before ++ after) := by
  by_cases ht : job.mType = t
  · rw [ofType_append, ofType_append, ofType_eq_nil (ht ▸ hbefore), ofType_cons, ofType_cons, if_pos ht, if_pos ht]
    rfl
  · rw [ofType_append, ofType_append, ofType_cons, ofType_cons, if_neg ht, if_neg ht]
    rfl

end JobQueue

end ScfChain.Core
