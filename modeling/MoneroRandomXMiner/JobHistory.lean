import MoneroRandomXMiner.BoundedHistory
import MoneroRandomXMiner.MiningBlob

/-!
# The job manager and its history of job ids

`new_job` makes a job the current one, appends its id to the recent ids and
erases the oldest id when there are more than the limit. The limit may be set
at any time, to any value.
-/

namespace JobHistory

open BoundedHistory HexText MiningBlob

structure JobManager where
  currentJob : MiningJob
  recentJobIds : List Text
  maxJobHistory : Nat
  /-- Whether `m_job_callback` holds a function. -/
  jobCallback : Bool

/-- A job manager as constructed, with or without a job callback set since. -/
def JobManager.created (jobCallback : Bool) : JobManager := ⟨MiningJob.empty, [], 10, jobCallback⟩

/-- The jobs handed to the callback are the second component. -/
def JobManager.newJob (m : JobManager) (j : MiningJob) : JobManager × List MiningJob :=
  let pushed := m.recentJobIds ++ [j.jobId]
  let trimmed := if pushed.length > m.maxJobHistory then pushed.eraseIdx 0 else pushed
  ({ m with currentJob := j, recentJobIds := trimmed }, if m.jobCallback then [j] else [])

def JobManager.setJobHistorySize (m : JobManager) (s : Nat) : JobManager :=
  { m with maxJobHistory := s }

/-- The two calls, each made under the manager's mutex. -/
inductive Call
  | newJob (job : MiningJob)
  | setJobHistorySize (size : Nat)

def JobManager.perform (m : JobManager) : Call → JobManager
  | .newJob job => (m.newJob job).1
  | .setJobHistorySize size => m.setJobHistorySize size

def after (jobCallback : Bool) (calls : List Call) : JobManager :=
  calls.foldl JobManager.perform (JobManager.created jobCallback)

/-- The limit in force after calls made under a first limit. -/
def limitFrom (limit : Nat) : List Call → Nat
  | [] => limit
  | .newJob _ :: rest => limitFrom limit rest
  | .setJobHistorySize size :: rest => limitFrom size rest

/-- The ids of the jobs that arrive, each with the limit in force at its `new_job`. -/
def arrivalsFrom (limit : Nat) : List Call → List (Nat × Text)
  | [] => []
  | .newJob job :: rest => (limit, job.jobId) :: arrivalsFrom limit rest
  | .setJobHistorySize size :: rest => arrivalsFrom size rest

def limitAfter (calls : List Call) : Nat := limitFrom 10 calls

/-- All job ids in the order of their arrival. -/
def arrivedIds (calls : List Call) : List Text := (arrivalsFrom 10 calls).map Prod.snd

/-- The limits that were in force at the `new_job` calls, in their order. -/
def limitsAtJobs (calls : List Call) : List Nat := (arrivalsFrom 10 calls).map Prod.fst

/-- What is expected of the recent ids right after a `new_job`. -/
structure HistoryKept (jobCallback : Bool) (calls : List Call) : Prop where
  bounded : (after jobCallback calls).recentJobIds.length ≤
    (after jobCallback calls).maxJobHistory
  suffix : (after jobCallback calls).recentJobIds <:+ arrivedIds calls
  holdsLast : ∀ least ∈ (limitsAtJobs calls).min?,
    (arrivedIds calls).rtake (min (arrivedIds calls).length least) <:+
      (after jobCallback calls).recentJobIds

/-- Every `new_job` comes under a limit that at most so many earlier ones preceded,
or that left room since an earlier one. -/
def LimitsLeaveRoom (calls : List Call) : Prop :=
  ∀ before job, before ++ [.newJob job] <+: calls →
    Roomy (limitsAtJobs before) (limitAfter before)

@[simp] theorem limitFrom_concat_newJob (limit : Nat) (calls : List Call) (job : MiningJob) :
    limitFrom limit (calls ++ [.newJob job]) = limitFrom limit calls := by
  induction calls generalizing limit with
  | nil => rfl
  | cons c calls ih => cases c <;> exact ih _

@[simp] theorem limitFrom_concat_size (limit : Nat) (calls : List Call) (size : Nat) :
    limitFrom limit (calls ++ [.setJobHistorySize size]) = size := by
  induction calls generalizing limit with
  | nil => rfl
  | cons c calls ih => cases c <;> exact ih _

@[simp] theorem arrivalsFrom_concat_newJob (limit : Nat) (calls : List Call)
    (job : MiningJob) :
    arrivalsFrom limit (calls ++ [.newJob job]) =
      arrivalsFrom limit calls ++ [(limitFrom limit calls, job.jobId)] := by
  induction calls generalizing limit with
  | nil => rfl
  | cons c calls ih =>
    cases c with
    | newJob other => exact congrArg ((limit, other.jobId) :: ·) (ih limit)
    | setJobHistorySize size => exact ih size

@[simp] theorem arrivalsFrom_concat_size (limit : Nat) (calls : List Call) (size : Nat) :
    arrivalsFrom limit (calls ++ [.setJobHistorySize size]) = arrivalsFrom limit calls := by
  induction calls generalizing limit with
  | nil => rfl
  | cons c calls ih =>
    cases c with
    | newJob other => exact congrArg ((limit, other.jobId) :: ·) (ih limit)
    | setJobHistorySize other => exact ih other

@[simp] theorem after_concat (jobCallback : Bool) (calls : List Call) (c : Call) :
    after jobCallback (calls ++ [c]) = (after jobCallback calls).perform c := by
  simp [after]

theorem recentJobIds_newJob (m : JobManager) (j : MiningJob) :
    (m.newJob j).1.recentJobIds = insertTrim m.recentJobIds (m.maxJobHistory, j.jobId) := by
  simp [JobManager.newJob, insertTrim]

theorem maxJobHistory_after (jobCallback : Bool) (calls : List Call) :
    (after jobCallback calls).maxJobHistory = limitAfter calls := by
  induction calls using List.reverseRecOn with
  | nil => rfl
  | append_singleton calls c ih =>
    rw [after_concat]
    cases c with
    | newJob job =>
      rw [limitAfter, limitFrom_concat_newJob]
      exact ih
    | setJobHistorySize size =>
      rw [limitAfter, limitFrom_concat_size]
      rfl

/-- The recent ids are the trimmed history of the arrivals. -/
theorem recentJobIds_after (jobCallback : Bool) (calls : List Call) :
    (after jobCallback calls).recentJobIds = kept (arrivalsFrom 10 calls) := by
  induction calls using List.reverseRecOn with
  | nil => rfl
  | append_singleton calls c ih =>
    rw [after_concat]
    cases c with
    | newJob job =>
      rw [arrivalsFrom_concat_newJob, kept_concat, ← ih, JobManager.perform,
        recentJobIds_newJob, maxJobHistory_after, limitAfter]
    | setJobHistorySize size =>
      rw [arrivalsFrom_concat_size]
      exact ih

/-- The `new_job` calls of a sequence are the insertions into the history. -/
theorem forall_newJob_iff (P : List (Nat × Text) → Nat × Text → Prop) (calls : List Call) :
    (∀ before job, before ++ [.newJob job] <+: calls →
      P (arrivalsFrom 10 before) (limitAfter before, job.jobId)) ↔
      AtEach P (arrivalsFrom 10 calls) := by
  have each : (∀ before job, before ++ [.newJob job] <+: calls →
      P (arrivalsFrom 10 before) (limitAfter before, job.jobId)) ↔
      AtEach (fun before c => ∀ job, c = Call.newJob job →
        P (arrivalsFrom 10 before) (limitAfter before, job.jobId)) calls := by
    constructor
    · intro all before c inside job same
      exact all before job (same ▸ inside)
    · intro all before job inside
      exact all before _ inside job rfl
  rw [each]
  clear each
  induction calls using List.reverseRecOn with
  | nil => exact iff_of_true (atEach_nil _) (atEach_nil _)
  | append_singleton calls c ih =>
    refine (atEach_concat.trans (and_congr_left' ih)).trans ?_
    cases c with
    | newJob job =>
      rw [arrivalsFrom_concat_newJob, atEach_concat]
      simp [limitAfter]
    | setJobHistorySize size =>
      rw [arrivalsFrom_concat_size]
      simp

/-- The part of the expectation that no sequence of calls breaks. -/
theorem historyKept_iff_bounded (jobCallback : Bool) (calls : List Call) :
    HistoryKept jobCallback calls ↔
      (after jobCallback calls).recentJobIds.length ≤
        (after jobCallback calls).maxJobHistory := by
  constructor
  · exact HistoryKept.bounded
  · intro bounded
    have suffix : (after jobCallback calls).recentJobIds <:+ arrivedIds calls := by
      rw [recentJobIds_after]
      exact kept_suffix _
    refine ⟨bounded, suffix, ?_⟩
    intro least smallest
    have below : ∀ arrival ∈ arrivalsFrom 10 calls, least ≤ arrival.1 := by
      intro arrival mem
      exact (List.min?_eq_some_iff.mp smallest).2 arrival.1 (List.mem_map_of_mem mem)
    have long := le_length_kept below
    rw [← recentJobIds_after jobCallback calls] at long
    refine List.suffix_of_suffix_length_le (List.drop_suffix _ _) suffix ?_
    rw [List.rtake, List.length_drop]
    have hlen : (arrivedIds calls).length = (arrivalsFrom 10 calls).length := List.length_map _
    omega

/-- The history is as expected after every `new_job` exactly when every one
finds room under the limit in force at it. -/
theorem historyKept_iff_limitsLeaveRoom (jobCallback : Bool) (calls : List Call) :
    (∀ before job, before ++ [.newJob job] <+: calls →
      HistoryKept jobCallback (before ++ [.newJob job])) ↔ LimitsLeaveRoom calls := by
  simp only [historyKept_iff_bounded, recentJobIds_after, maxJobHistory_after, limitAfter,
    arrivalsFrom_concat_newJob, limitFrom_concat_newJob]
  exact (forall_newJob_iff (fun before i => (kept (before ++ [i])).length ≤ i.1) calls).trans
    ((bounded_iff _).trans
      (forall_newJob_iff (fun before i => Roomy (before.map Prod.fst) i.1) calls).symm)

/-- Two jobs, then the limit one: the third job leaves two ids in the list. -/
def lowered : List Call :=
  [.newJob MiningJob.empty, .newJob MiningJob.empty, .setJobHistorySize 1,
    .newJob MiningJob.empty]

theorem historyKept_fails_lowered :
    ¬∀ before job, before ++ [.newJob job] <+: lowered →
      HistoryKept true (before ++ [.newJob job]) := by
  intro all
  have bounded := (all (lowered.take 3) MiningJob.empty (List.prefix_refl _)).bounded
  exact absurd bounded (by decide)

end JobHistory
