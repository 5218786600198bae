import MoneroRandomXMiner.MinerThreads

/-!
# Workers follow the order of the delivered jobs

A job goes from the message through the client's copy to the miner's copy, and
from there to each worker's own copy. Counting the jobs that `on_new_job` has
stored gives every copy a place in the order of delivery. A worker's place only
moves forward, and an outdated copy is hashed for the rest of one batch at most.
-/

namespace JobOrder

open Histories HexText MiningBlob HandleMessage MinerMachine MinerThreads

variable {n : Nat} {calculateHash : Nat → List UInt8 → Hash} {lib : JsonLibrary}

/-- The job that an event stores in the miner's `m_current_job`. -/
def storedBy (s : MinerThreads.State n) : MinerThreads.Event n → List MiningJob
  | .storeJob => [s.clientJob]
  | _ => []

/-- Oldest first, as all lists over a history here. -/
def storedJobs : List (MinerThreads.State n × MinerThreads.Event n) → List MiningJob
  | [] => []
  | m :: h => storedJobs h ++ storedBy m.1 m.2

def jobsOf (cs : List Callback) : List MiningJob :=
  cs.filterMap fun
    | .job job => some job
    | .share _ _ => none

/-- The jobs of the message that an event starts to handle. -/
def deliveredBy (lib : JsonLibrary) (s : MinerThreads.State n) :
    MinerThreads.Event n → List MiningJob
  | .nextLine =>
    match s.receiver with
    | .handling _ _ (line :: _) => jobsOf (callbacks lib line)
    | _ => []
  | _ => []

def deliveredJobs (lib : JsonLibrary) :
    List (MinerThreads.State n × MinerThreads.Event n) → List MiningJob
  | [] => []
  | m :: h => deliveredJobs lib h ++ deliveredBy lib m.1 m.2

/-- The jobs of the message in hand that the miner has not stored yet. Under the
client's mutex the first of them is the client's copy. -/
def awaiting (s : MinerThreads.State n) : List MiningJob :=
  match s.receiver with
  | .handling .outside pending _ => jobsOf pending
  | .handling .client pending _ | .handling .both pending _ => s.clientJob :: jobsOf pending.tail
  | .handling .raising pending _ => jobsOf pending.tail
  | _ => []

/-- The copy of the current job under the miner's mutex. -/
def Takes (t : Fin n) (s : MinerThreads.State n) : MinerThreads.Event n → Prop
  | .work u _ => u = t ∧ (s.miner.workers u).pc = .takeJob
  | _ => False

instance (t : Fin n) (s : MinerThreads.State n) : ∀ e, Decidable (Takes t s e)
  | .work _ _ => inferInstanceAs (Decidable (_ ∧ _))
  | .enter _ | .test | .recv _ | .timeOut | .connectionEnds | .nextLine | .shareResult
  | .lockClient | .lockMiner | .storeJob | .raiseNewJob | .call | .lockReader | .answer
  | .stop => inferInstanceAs (Decidable False)

/-- What worker `t` can have copied: the copy it starts with, the current job at
the start, and the jobs stored since. -/
def deliveries (t : Fin n) (start : MinerThreads.State n)
    (h : List (MinerThreads.State n × MinerThreads.Event n)) : List MiningJob :=
  (start.miner.workers t).job :: start.miner.shared.currentJob :: storedJobs h

/-- The place of the worker's copy among the deliveries. -/
def copied (t : Fin n) : List (MinerThreads.State n × MinerThreads.Event n) → Nat
  | [] => 0
  | m :: h => if Takes t m.1 m.2 then (storedJobs h).length + 1 else copied t h

/-- The job of the hash call that worker `t` makes in an event. -/
def hashedBy (calculateHash : Nat → List UInt8 → Hash) (t : Fin n) (s : MinerThreads.State n) :
    MinerThreads.Event n → List MiningJob
  | .work u env =>
    match hashCall calculateHash s.miner (.work u env) with
    | some (v, call) => if v = t then [call.job] else []
    | none => []
  | _ => []

def hashedJobs (calculateHash : Nat → List UInt8 → Hash) (t : Fin n) :
    List (MinerThreads.State n × MinerThreads.Event n) → List MiningJob
  | [] => []
  | m :: h => hashedJobs calculateHash t h ++ hashedBy calculateHash t m.1 m.2

/-- The places of the hashed copies, one for each hash call. -/
def hashedPlaces (calculateHash : Nat → List UInt8 → Hash) (t : Fin n) :
    List (MinerThreads.State n × MinerThreads.Event n) → List Nat
  | [] => []
  | m :: h =>
    hashedPlaces calculateHash t h ++ (hashedBy calculateHash t m.1 m.2).map fun _ => copied t h

/-- The hash calls of worker `t` after a store, with copies no newer than the
job that the store replaced. -/
def outdatedHashes (calculateHash : Nat → List UInt8 → Hash) (t : Fin n)
    (h older : List (MinerThreads.State n × MinerThreads.Event n)) : Nat :=
  ((hashedPlaces calculateHash t h).drop (hashedPlaces calculateHash t older).length).countP
    (· ≤ (storedJobs older).length + 1)

/-- The jobs of the messages reach the miner in their order, each worker hashes
jobs in that order, and a replaced job is hashed for one batch at most. -/
structure InOrder (calculateHash : Nat → List UInt8 → Hash) (lib : JsonLibrary)
    (start : MinerThreads.State n) (h : List (MinerThreads.State n × MinerThreads.Event n))
    (s : MinerThreads.State n) : Prop where
  published : awaiting start ++ deliveredJobs lib h = storedJobs h ++ awaiting s
  forward : ∀ t, (hashedPlaces calculateHash t h).Pairwise (· ≤ ·)
  jobs : ∀ t, (hashedJobs calculateHash t h).map some =
    (hashedPlaces calculateHash t h).map fun i => (deliveries t start h)[i]?
  lag : ∀ t older m, Moment h older m .storeJob →
    outdatedHashes calculateHash t h older ≤ batchSize

/-- A job leaves the message in hand when it is stored, and new ones come in
with the next line. -/
theorem awaiting_step {s : MinerThreads.State n} {e : MinerThreads.Event n}
    (enabled : MinerThreads.Enabled s e) :
    awaiting s ++ deliveredBy lib s e =
      storedBy s e ++ awaiting (MinerThreads.next calculateHash lib s e) := by
  cases e with
  | enter t =>
    obtain ⟨_, l, hlock, _⟩ := enabled
    simp [storedBy, deliveredBy, awaiting, MinerThreads.next, hlock, acquire]
  | work t env =>
    cases hlock : lockOf (s.miner.workers t).pc <;>
      simp [storedBy, deliveredBy, awaiting, MinerThreads.next, hlock, release]
  | test =>
    have hr : s.receiver = .atTest := enabled
    cases hrun : s.clientRunning <;>
      simp [storedBy, deliveredBy, awaiting, MinerThreads.next, receive, hr, hrun]
  | recv lines =>
    have hr : s.receiver = .inRecv := enabled
    simp [storedBy, deliveredBy, awaiting, MinerThreads.next, receive, hr, jobsOf]
  | timeOut =>
    have hr : s.receiver = .inRecv := enabled
    simp [storedBy, deliveredBy, awaiting, MinerThreads.next, receive, hr]
  | connectionEnds =>
    have hr : s.receiver = .inRecv := enabled
    simp [storedBy, deliveredBy, awaiting, MinerThreads.next, receive, hr]
  | nextLine =>
    obtain ⟨lines, hr⟩ := enabled
    cases lines <;>
      simp [storedBy, deliveredBy, awaiting, MinerThreads.next, receive, hr, jobsOf]
  | shareResult =>
    obtain ⟨accepted, response, pending, lines, hr⟩ := enabled
    cases accepted <;>
      simp [storedBy, deliveredBy, awaiting, MinerThreads.next, receive, Receiver.head, hr, jobsOf]
  | lockClient =>
    obtain ⟨_, job, pending, lines, hr⟩ := enabled
    simp [storedBy, deliveredBy, awaiting, MinerThreads.next, receive, Receiver.head, hr, jobsOf,
      acquire]
  | lockMiner =>
    obtain ⟨_, pending, lines, hr⟩ := enabled
    simp [storedBy, deliveredBy, awaiting, MinerThreads.next, receive, hr, acquire]
  | storeJob =>
    obtain ⟨pending, lines, hr⟩ := enabled
    simp [storedBy, deliveredBy, awaiting, MinerThreads.next, receive, hr, release]
  | raiseNewJob =>
    obtain ⟨pending, lines, hr⟩ := enabled
    cases pending <;>
      simp [storedBy, deliveredBy, awaiting, MinerThreads.next, receive, hr, release, jobsOf]
  | call => simp [storedBy, deliveredBy, awaiting, MinerThreads.next]
  | lockReader => simp [storedBy, deliveredBy, awaiting, MinerThreads.next, acquire]
  | answer => simp [storedBy, deliveredBy, awaiting, MinerThreads.next, release]
  | stop => simp [storedBy, deliveredBy, awaiting, MinerThreads.next]

theorem published_run {start : MinerThreads.State n}
    {h : List (MinerThreads.State n × MinerThreads.Event n)} {s : MinerThreads.State n}
    (run : Run (MinerThreads.machine calculateHash lib n) (· = start) h s) :
    awaiting start ++ deliveredJobs lib h = storedJobs h ++ awaiting s := by
  apply run.invariant
    (P := fun h s => awaiting start ++ deliveredJobs lib h = storedJobs h ++ awaiting s)
  · rintro s rfl
    simp [deliveredJobs, storedJobs]
  · intro h s e before enabled
    change _ ++ (deliveredJobs lib h ++ deliveredBy lib s e) =
      (storedJobs h ++ storedBy s e) ++ awaiting (MinerThreads.next calculateHash lib s e)
    rw [← List.append_assoc, before, List.append_assoc, List.append_assoc, awaiting_step enabled]

theorem next_work_miner (s : MinerThreads.State n) (t : Fin n) (env : Env) :
    (MinerThreads.next calculateHash lib s (.work t env)).miner =
      MinerMachine.next calculateHash s.miner (.work t env) := by
  cases hlock : lockOf (s.miner.workers t).pc <;> simp [MinerThreads.next, hlock, release]

theorem next_worker_work (s : MinerThreads.State n) (t : Fin n) (env : Env) :
    (MinerThreads.next calculateHash lib s (.work t env)).miner.workers t =
      (workerNext calculateHash n t env s.miner.shared (s.miner.workers t)).2 := by
  rw [next_work_miner, MinerMachine.next_worker_same]

/-- A worker's locals change in its own steps only. -/
theorem next_worker_idle {s : MinerThreads.State n} {e : MinerThreads.Event n} {t : Fin n}
    (other : ∀ env, e ≠ .work t env) :
    (MinerThreads.next calculateHash lib s e).miner.workers t = s.miner.workers t := by
  cases e with
  | enter u =>
    cases hlock : lockOf (s.miner.workers u).pc <;> simp [MinerThreads.next, hlock, acquire]
  | work u env =>
    have hne : t ≠ u := by
      rintro rfl
      exact other env rfl
    rw [next_work_miner, MinerMachine.next_worker_other _ env hne]
  | shareResult =>
    simp only [MinerThreads.next]
    split <;> rfl
  | lockClient =>
    simp only [MinerThreads.next]
    split <;> rfl
  | stop =>
    simp only [MinerThreads.next]
    split <;> rfl
  | _ => rfl

/-- Only `on_new_job` changes the miner's copy of the job. -/
theorem next_currentJob {s : MinerThreads.State n} {e : MinerThreads.Event n}
    (other : e ≠ .storeJob) :
    (MinerThreads.next calculateHash lib s e).miner.shared.currentJob =
      s.miner.shared.currentJob := by
  cases e with
  | storeJob => exact absurd rfl other
  | enter u =>
    cases hlock : lockOf (s.miner.workers u).pc <;> simp [MinerThreads.next, hlock, acquire]
  | work u env => rw [next_work_miner, next_shared_work, workerNext_currentJob]
  | shareResult =>
    simp only [MinerThreads.next]
    split <;> rfl
  | lockClient =>
    simp only [MinerThreads.next]
    split <;> rfl
  | stop =>
    simp only [MinerThreads.next]
    split <;> rfl
  | _ => rfl

theorem workerNext_takes {t : Nat} {env : Env} {g : Shared} {w : Worker} (hpc : w.pc = .takeJob) :
    (workerNext calculateHash n t env g w).2.job = g.currentJob := by
  simp only [workerNext, hpc, chooseJob, beginBatch]
  split
  · rfl
  · split <;> rfl

theorem hashedBy_cases (calculateHash : Nat → List UInt8 → Hash) (t : Fin n)
    (s : MinerThreads.State n) (e : MinerThreads.Event n) :
    hashedBy calculateHash t s e = [] ∨
      hashedBy calculateHash t s e = [(s.miner.workers t).job] ∧
        (∃ env, e = .work t env) ∧ (s.miner.workers t).pc = .hashing ∧
        ∃ input, constructMiningBlob (s.miner.workers t).job.blob (s.miner.workers t).nonce =
          .ok input := by
  cases e with
  | work u env =>
    cases hcall : hashCall calculateHash s.miner (.work u env) with
    | none => simp only [hashedBy, hcall, true_or]
    | some made =>
      obtain ⟨v, call⟩ := made
      by_cases hv : v = t
      · subst hv
        obtain ⟨⟨env', heq⟩, hpc, built, hjob⟩ := hashCall_some hcall
        obtain ⟨rfl, rfl⟩ := MinerMachine.Event.work.inj heq
        refine Or.inr ⟨?_, ⟨env, rfl⟩, hpc, call.input, built⟩
        simp only [hashedBy, hcall, if_true]
        rw [hjob]
      · simp only [hashedBy, hcall, if_neg hv, true_or]
  | _ => exact Or.inl rfl

/-- The hash calls that a worker may still make with the copy it has. -/
def budget (w : Worker) : Nat :=
  match w.pc with
  | .initRx | .fetchVm => batchSize
  | .check | .hashing => max 1 (batchSize - w.i)
  | .submit => batchSize - (w.i + 1)
  | _ => 0

theorem budget_le (w : Worker) : budget w ≤ batchSize := by
  unfold budget
  have one : 1 ≤ batchSize := by decide
  split <;> omega

theorem budget_nextIteration (w : Worker) : budget (nextIteration w) = batchSize - (w.i + 1) := by
  by_cases hi : w.i + 1 < batchSize
  · simp only [nextIteration, if_pos hi, budget]
    omega
  · simp only [nextIteration, if_neg hi, budget]
    omega

theorem budget_hashOnce (calculateHash : Nat → List UInt8 → Hash) (w : Worker) :
    budget (hashOnce calculateHash w) ≤ batchSize - (w.i + 1) := by
  unfold hashOnce
  split
  · exact Nat.zero_le _
  · dsimp only
    split
    · exact le_refl _
    · rw [budget_nextIteration]

/-- The budget never grows before the next copy. -/
theorem budget_step {t : Nat} {env : Env} {g : Shared} {w : Worker} (htake : w.pc ≠ .takeJob) :
    budget (workerNext calculateHash n t env g w).2 ≤ budget w := by
  cases hpc : w.pc with
  | takeJob => exact absurd hpc htake
  | check =>
    cases hflag : g.newJob <;> simp [workerNext, hpc, hflag, budget]
  | hashing =>
    have hnext := budget_hashOnce calculateHash w
    simp only [workerNext, hpc, budget]
    exact hnext.trans (by omega)
  | submit =>
    have hbudget : budget w = batchSize - (w.i + 1) := by simp only [budget, hpc]
    rw [hbudget]
    simp only [workerNext, hpc]
    rw [budget_nextIteration]
  | fetchVm =>
    have hbudget : budget w = batchSize := by simp only [budget, hpc]
    rw [hbudget]
    exact budget_le _
  | initRx =>
    have hbudget : budget w = batchSize := by simp only [budget, hpc]
    rw [hbudget]
    exact budget_le _
  | firstVm => cases hv : g.rx.vms[t]? <;> simp [workerNext, hpc, hv, budget, enterMainLoop]
  | waitRunning => cases hrun : g.running <;> simp [workerNext, hpc, hrun, budget]
  | waitOver => cases hrun : g.running <;> simp [workerNext, hpc, hrun, budget]
  | loopHead => cases hrun : g.running <;> simp [workerNext, hpc, hrun, budget]
  | waitVms => by_cases ht : t < g.rx.vms.length <;> simp [workerNext, hpc, ht, budget]
  | flush => cases hseen : w.newJobArrived <;> simp [workerNext, hpc, hseen, budget]
  | absent => simp [workerNext, hpc, budget]
  | returned => simp [workerNext, hpc, budget]
  | clearSeen => simp [workerNext, hpc, budget]
  | clearStale => simp [workerNext, hpc, budget]

/-- A hash call uses up a part of the budget. -/
theorem budget_hash {t : Nat} {env : Env} {g : Shared} {w : Worker} (hpc : w.pc = .hashing) :
    budget (workerNext calculateHash n t env g w).2 + 1 ≤ budget w := by
  have hnext := budget_hashOnce calculateHash w
  have hbudget : budget w = max 1 (batchSize - w.i) := by simp only [budget, hpc]
  simp only [workerNext, hpc]
  omega

/-- What the history says about the copies and the hash calls of worker `t`. -/
structure InStep (calculateHash : Nat → List UInt8 → Hash) (t : Fin n)
    (start : MinerThreads.State n) (h : List (MinerThreads.State n × MinerThreads.Event n))
    (s : MinerThreads.State n) : Prop where
  current :
    (deliveries t start h)[(storedJobs h).length + 1]? = some s.miner.shared.currentJob
  copy : (deliveries t start h)[copied t h]? = some (s.miner.workers t).job
  recent : ∀ i ∈ hashedPlaces calculateHash t h, i ≤ copied t h
  bounded : copied t h ≤ (storedJobs h).length + 1
  forward : (hashedPlaces calculateHash t h).Pairwise (· ≤ ·)
  jobs : (hashedJobs calculateHash t h).map some =
    (hashedPlaces calculateHash t h).map fun i => (deliveries t start h)[i]?

theorem deliveries_cons (t : Fin n) (start : MinerThreads.State n)
    (m : MinerThreads.State n × MinerThreads.Event n)
    (h : List (MinerThreads.State n × MinerThreads.Event n)) :
    deliveries t start (m :: h) = deliveries t start h ++ storedBy m.1 m.2 := rfl

/-- Earlier deliveries keep their places. -/
theorem deliveries_kept {t : Fin n} {start : MinerThreads.State n}
    {m : MinerThreads.State n × MinerThreads.Event n}
    {h : List (MinerThreads.State n × MinerThreads.Event n)} {i : Nat}
    (old : i ≤ (storedJobs h).length + 1) :
    (deliveries t start (m :: h))[i]? = (deliveries t start h)[i]? := by
  rw [deliveries_cons]
  apply List.getElem?_append_left
  simp only [deliveries, List.length_cons]
  omega

theorem inStep_step {t : Fin n} {start s : MinerThreads.State n}
    {h : List (MinerThreads.State n × MinerThreads.Event n)} {e : MinerThreads.Event n}
    (before : InStep calculateHash t start h s) :
    InStep calculateHash t start ((s, e) :: h) (MinerThreads.next calculateHash lib s e) := by
  have stores : (storedJobs ((s, e) :: h)).length =
      (storedJobs h).length + (storedBy s e).length := List.length_append
  have hashes := hashedBy_cases calculateHash t s e
  have hplaces : hashedPlaces calculateHash t ((s, e) :: h) = hashedPlaces calculateHash t h ++
      (hashedBy calculateHash t s e).map fun _ => copied t h := rfl
  have newer : copied t h ≤ copied t ((s, e) :: h) := by
    simp only [copied]
    split
    · exact before.bounded
    · exact le_refl _
  have recent : ∀ i ∈ hashedPlaces calculateHash t ((s, e) :: h), i ≤ copied t h := by
    intro i hi
    rcases List.mem_append.mp hi with old | new
    · exact before.recent i old
    · obtain ⟨_, _, rfl⟩ := List.mem_map.mp new
      exact le_refl _
  constructor
  · by_cases hstore : e = .storeJob
    · subst hstore
      rw [stores]
      simp [deliveries, storedJobs, storedBy, MinerThreads.next, release, MinerMachine.next]
    · have none : storedBy s e = [] := by
        cases e with
        | storeJob => exact absurd rfl hstore
        | _ => rfl
      rw [stores, none, List.length_nil, Nat.add_zero, deliveries_kept (le_refl _),
        next_currentJob hstore]
      exact before.current
  · by_cases htake : Takes t s e
    · cases e with
      | work u env =>
        obtain ⟨rfl, hpc⟩ := htake
        have place : copied u ((s, .work u env) :: h) = (storedJobs h).length + 1 :=
          if_pos ⟨rfl, hpc⟩
        rw [place, deliveries_kept (le_refl _), next_worker_work, workerNext_takes hpc]
        exact before.current
      | _ => exact htake.elim
    · have place : copied t ((s, e) :: h) = copied t h := if_neg htake
      have job : ((MinerThreads.next calculateHash lib s e).miner.workers t).job =
          (s.miner.workers t).job := by
        by_cases own : ∃ env, e = .work t env
        · obtain ⟨env, rfl⟩ := own
          rw [next_worker_work, workerNext_job fun hpc => htake ⟨rfl, hpc⟩]
        · rw [next_worker_idle fun env heq => own ⟨env, heq⟩]
      rw [place, deliveries_kept before.bounded, job]
      exact before.copy
  · exact fun i hi => (recent i hi).trans newer
  · simp only [copied]
    split
    · omega
    · exact before.bounded.trans (by omega)
  · rw [hplaces, List.pairwise_append]
    refine ⟨before.forward, ?_, ?_⟩
    · rcases hashes with none | ⟨one, _⟩
      · simp [none]
      · simp [one]
    · intro i hi j hj
      obtain ⟨_, _, rfl⟩ := List.mem_map.mp hj
      exact before.recent i hi
  · have kept :
        (hashedPlaces calculateHash t h).map (fun i => (deliveries t start ((s, e) :: h))[i]?) =
          (hashedPlaces calculateHash t h).map fun i => (deliveries t start h)[i]? := by
      apply List.map_congr_left
      exact fun i hi => deliveries_kept ((before.recent i hi).trans before.bounded)
    rw [hplaces, List.map_append, kept, ← before.jobs]
    change (hashedJobs calculateHash t h ++ hashedBy calculateHash t s e).map some = _
    rw [List.map_append]
    rcases hashes with none | ⟨one, _⟩
    · simp [none]
    · simp [one, deliveries_kept before.bounded, before.copy]

theorem inStep_run {start : MinerThreads.State n}
    {h : List (MinerThreads.State n × MinerThreads.Event n)} {s : MinerThreads.State n}
    (run : Run (MinerThreads.machine calculateHash lib n) (· = start) h s) (t : Fin n) :
    InStep calculateHash t start h s := by
  apply run.invariant (P := fun h s => InStep calculateHash t start h s)
  · rintro s rfl
    exact ⟨rfl, rfl, fun _ hi => (nomatch hi), Nat.zero_le _, List.Pairwise.nil, rfl⟩
  · exact fun _ _ _ before _ => inStep_step before

theorem storedJobs_grow (newer older : List (MinerThreads.State n × MinerThreads.Event n)) :
    (storedJobs older).length ≤ (storedJobs (newer ++ older)).length := by
  apply le_append_of_le_cons (f := fun h => (storedJobs h).length)
  intro m h
  have grown : (storedJobs (m :: h)).length =
      (storedJobs h).length + (storedBy m.1 m.2).length := List.length_append
  rw [grown]
  exact Nat.le_add_right _ _

theorem hashedPlaces_grow (calculateHash : Nat → List UInt8 → Hash) (t : Fin n)
    (newer older : List (MinerThreads.State n × MinerThreads.Event n)) :
    (hashedPlaces calculateHash t older).length ≤
      (hashedPlaces calculateHash t (newer ++ older)).length := by
  apply le_append_of_le_cons (f := fun h => (hashedPlaces calculateHash t h).length)
  intro m h
  have grown : (hashedPlaces calculateHash t (m :: h)).length =
      (hashedPlaces calculateHash t h).length +
        ((hashedBy calculateHash t m.1 m.2).map fun _ => copied t h).length := List.length_append
  rw [grown]
  exact Nat.le_add_right _ _

/-- The budget that is left to a worker for outdated copies. -/
def outdatedBudget (t : Fin n) (h older : List (MinerThreads.State n × MinerThreads.Event n))
    (s : MinerThreads.State n) : Nat :=
  if copied t h ≤ (storedJobs older).length + 1 then budget (s.miner.workers t) else 0

theorem outdatedHashes_cons {t : Fin n} {s : MinerThreads.State n} {e : MinerThreads.Event n}
    {h older : List (MinerThreads.State n × MinerThreads.Event n)}
    (places : (hashedPlaces calculateHash t older).length ≤
      (hashedPlaces calculateHash t h).length) :
    outdatedHashes calculateHash t ((s, e) :: h) older = outdatedHashes calculateHash t h older +
      ((hashedBy calculateHash t s e).map fun _ => copied t h).countP
        (· ≤ (storedJobs older).length + 1) := by
  rw [outdatedHashes, hashedPlaces, List.drop_append_of_le_length places, List.countP_append]
  rfl

/-- Without a new copy a step pays for its hash call. -/
theorem budget_pays (calculateHash : Nat → List UInt8 → Hash) (lib : JsonLibrary) {t : Fin n}
    {s : MinerThreads.State n} {e : MinerThreads.Event n}
    (htake : ¬ Takes t s e) :
    budget ((MinerThreads.next calculateHash lib s e).miner.workers t) +
      (hashedBy calculateHash t s e).length ≤ budget (s.miner.workers t) := by
  rcases hashedBy_cases calculateHash t s e with none | ⟨one, ⟨env, rfl⟩, hpc, _⟩
  · rw [none, List.length_nil, Nat.add_zero]
    by_cases own : ∃ env, e = .work t env
    · obtain ⟨env, rfl⟩ := own
      rw [next_worker_work]
      exact budget_step fun hpc => htake ⟨rfl, hpc⟩
    · rw [next_worker_idle fun env heq => own ⟨env, heq⟩]
  · rw [one, next_worker_work]
    exact budget_hash hpc

theorem outdated_step {t : Fin n} {s : MinerThreads.State n} {e : MinerThreads.Event n}
    {h older : List (MinerThreads.State n × MinerThreads.Event n)}
    (places : (hashedPlaces calculateHash t older).length ≤
      (hashedPlaces calculateHash t h).length)
    (stores : (storedJobs older).length + 1 ≤ (storedJobs h).length) :
    outdatedHashes calculateHash t ((s, e) :: h) older +
        outdatedBudget t ((s, e) :: h) older (MinerThreads.next calculateHash lib s e) ≤
      outdatedHashes calculateHash t h older + outdatedBudget t h older s := by
  rw [outdatedHashes_cons places]
  by_cases htake : Takes t s e
  · have place : copied t ((s, e) :: h) = (storedJobs h).length + 1 := if_pos htake
    have quiet : hashedBy calculateHash t s e = [] := by
      rcases hashedBy_cases calculateHash t s e with none | ⟨_, ⟨env, rfl⟩, hpc, _⟩
      · exact none
      · have taking := htake.2
        rw [hpc] at taking
        cases taking
    have spent : outdatedBudget t ((s, e) :: h) older
        (MinerThreads.next calculateHash lib s e) = 0 := by
      rw [outdatedBudget, place]
      exact if_neg (by omega)
    rw [quiet, spent, List.map_nil, List.countP_nil]
    omega
  · have place : copied t ((s, e) :: h) = copied t h := if_neg htake
    have pays := budget_pays calculateHash lib htake
    simp only [outdatedBudget, place]
    by_cases old : copied t h ≤ (storedJobs older).length + 1
    · have atMost := List.countP_le_length
        (p := fun i => decide (i ≤ (storedJobs older).length + 1))
        (l := (hashedBy calculateHash t s e).map fun _ => copied t h)
      rw [List.length_map] at atMost
      rw [if_pos old, if_pos old]
      omega
    · have none : ((hashedBy calculateHash t s e).map fun _ => copied t h).countP
          (· ≤ (storedJobs older).length + 1) = 0 := by
        rw [List.countP_eq_zero]
        intro i hi
        obtain ⟨_, _, rfl⟩ := List.mem_map.mp hi
        simpa using old
      rw [none, if_neg old, if_neg old]

/-- After a store the outdated hash calls are paid out of one budget, and the
next copy ends it. -/
theorem outdated_run {start m s : MinerThreads.State n} (t : Fin n)
    (newer older : List (MinerThreads.State n × MinerThreads.Event n))
    (run : Run (MinerThreads.machine calculateHash lib n) (· = start)
      (newer ++ (m, .storeJob) :: older) s) :
    outdatedHashes calculateHash t (newer ++ (m, .storeJob) :: older) older +
      outdatedBudget t (newer ++ (m, .storeJob) :: older) older s ≤ batchSize := by
  induction newer generalizing s with
  | nil =>
    have none : outdatedHashes calculateHash t ((m, .storeJob) :: older) older = 0 := by
      simp [outdatedHashes, hashedPlaces, hashedBy]
    rw [List.nil_append, none, Nat.zero_add, outdatedBudget]
    split
    · exact budget_le _
    · exact Nat.zero_le _
  | cons entry newer ih =>
    cases run with
    | step run enabled =>
      refine (outdated_step ?_ ?_).trans (ih run)
      · have grown := hashedPlaces_grow calculateHash t
          (newer ++ [(m, MinerThreads.Event.storeJob)]) older
        rwa [List.append_assoc, List.singleton_append] at grown
      · have grown := storedJobs_grow newer ((m, MinerThreads.Event.storeJob) :: older)
        simpa [storedJobs, storedBy] using grown

/-- From any state, with RandomX ready and the workers in the main loop or not. -/
theorem inOrder_run {start s : MinerThreads.State n}
    {h : List (MinerThreads.State n × MinerThreads.Event n)}
    (run : Run (MinerThreads.machine calculateHash lib n) (· = start) h s) :
    InOrder calculateHash lib start h s where
  published := published_run run
  forward := fun t => (inStep_run run t).forward
  jobs := fun t => (inStep_run run t).jobs
  lag := by
    rintro t older m ⟨newer, rfl⟩
    exact (Nat.le_add_right _ _).trans (outdated_run t newer older run)

/-- A worker copies the first job and hashes it while the second one is stored. -/
def overtaken : List (MinerThreads.Event 2) :=
  [.work worker0 idle, .enter worker0, .work worker0 idle, .lockClient, .enter worker0,
    .work worker0 idle, .enter worker0, .work worker0 idle, .lockMiner, .storeJob,
    .work worker0 idle, .work worker0 idle]

theorem overtaken_enabled :
    AllEnabled (MinerThreads.machine zeroHash noJson 2) overtaken readyThreads := by
  refine ⟨⟨?_, ?_⟩, ⟨rfl, _, rfl, rfl⟩, ⟨?_, ?_⟩, ⟨rfl, _, _, _, rfl⟩, ⟨rfl, _, rfl, rfl⟩,
    ⟨?_, ?_⟩, ⟨rfl, _, rfl, rfl⟩, ⟨?_, ?_⟩, ⟨rfl, _, _, rfl⟩, ⟨_, _, rfl⟩, ⟨?_, ?_⟩, ⟨?_, ?_⟩,
    trivial⟩
  all_goals decide

theorem inOrder_run_overtaken :
    InOrder zeroHash noJson readyThreads
      (replay (MinerThreads.machine zeroHash noJson 2) overtaken ([], readyThreads)).1
      (replay (MinerThreads.machine zeroHash noJson 2) overtaken ([], readyThreads)).2 := by
  have started : Run (MinerThreads.machine zeroHash noJson 2) (· = readyThreads) []
      readyThreads := .init rfl
  exact inOrder_run (replay_run started overtaken overtaken_enabled)

end JobOrder
