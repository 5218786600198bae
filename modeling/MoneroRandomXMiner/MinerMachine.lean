import MoneroRandomXMiner.Histories
import MoneroRandomXMiner.ShareTarget
import MoneroRandomXMiner.RandomXInit
import Mathlib.Data.Fintype.Basic

/-!
# The miner as a machine of threads

Main thread, receive thread and `n` workers over the members they share. One
event is one mutex section, one atomic access or one hash call; everything
between two of them is private to its thread and is folded into the event
before it. A spawned thread that has not been scheduled is one that has not
been spawned, so `startMining` starts all workers in one event.
-/

namespace MinerMachine

open Histories HexText MiningBlob ShareTarget RandomXInit

def batchSize : Nat := 5000

/-- Where a worker stands in `mining_thread`, named after what it does next. -/
inductive Pc where
  | absent
  | waitRunning
  | waitVms
  | waitOver
  | firstVm
  | loopHead
  | takeJob
  | initRx
  | fetchVm
  | check
  | clearSeen
  | hashing
  | submit
  | flush
  | clearStale
  | returned
  deriving DecidableEq

/-- Between the choice of a job and the fetch of a handle for it. -/
def Pc.Refetching : Pc → Prop
  | .initRx | .fetchVm => True
  | _ => False

/-- Inside the batch loop, before its exits. -/
def Pc.InBatch : Pc → Prop
  | .check | .hashing | .submit => True
  | _ => False

/-- At a hash call or at the submission that may follow it. -/
def Pc.Hashes : Pc → Prop
  | .hashing | .submit => True
  | _ => False

/-- Not past the start-up wait, or returned. -/
def Pc.StartingUp : Pc → Prop
  | .absent | .waitRunning | .waitVms | .waitOver | .returned => True
  | _ => False

/-- In the `while` loop that follows the start-up wait. -/
def Pc.InMainLoop : Pc → Prop
  | .absent | .waitRunning | .waitVms | .waitOver | .firstVm | .returned => False
  | _ => True

/-- The locals of `mining_thread`. -/
structure Worker where
  pc : Pc
  vm : Nat
  nonce : UInt32
  localHashCount : UInt64
  lastSeed : Text
  job : MiningJob
  target : UInt64
  i : Nat
  newJobArrived : Bool
  hash : Hash

def Worker.fresh (pc : Pc) : Worker :=
  ⟨pc, 0, 0, 0, [], MiningJob.empty, 0, 0, false, Vector.replicate 32 0⟩

/-- `notifying` holds between the two halves of `on_new_job`. -/
structure Shared where
  receiving : Bool
  running : Bool
  newJob : Bool
  totalHashes : UInt64
  currentJob : MiningJob
  notifying : Bool
  rx : Rx

structure State (n : Nat) where
  shared : Shared
  workers : Fin n → Worker

/-- What a worker's step takes from outside: a random draw, and the outcomes of
the allocations if the step re-initialises RandomX. -/
structure Env where
  draw : UInt32
  alloc : AllocOutcome

inductive Event (n : Nat) where
  | initializeMiner (connected : Bool)
  | startMining
  | stopMining
  | joinThreads
  | storeJob (job : MiningJob)
  | raiseNewJob
  | work (t : Fin n) (env : Env)

def beginBatch (w : Worker) : Worker :=
  { w with target := targetToUint64 w.job.target, i := 0, newJobArrived := false, pc := .check }

/-- `++i` and the test of the batch loop. -/
def nextIteration (w : Worker) : Worker :=
  { w with i := w.i + 1, pc := if w.i + 1 < batchSize then .check else .flush }

/-- The copy of the current job and the two tests that follow it. -/
def chooseJob (job : MiningJob) (w : Worker) : Worker :=
  if job.blob = [] then { w with job := job, pc := .loopHead }
  else if job.seedHash ≠ w.lastSeed then { w with job := job, pc := .initRx }
  else beginBatch { w with job := job }

/-- The hash call and the branch on its result. A blob error ends the batch. -/
def hashOnce (calculateHash : Nat → List UInt8 → Hash) (w : Worker) : Worker :=
  match constructMiningBlob w.job.blob w.nonce with
  | .error _ => { w with pc := .flush }
  | .ok input =>
    let hash := calculateHash w.vm input
    let counted := { w with localHashCount := w.localHashCount + 1, hash := hash }
    if hashMeetsTarget hash w.target then { counted with pc := .submit }
    else nextIteration { counted with nonce := w.nonce + 1 }

/-- The seed of worker `t` spreads the first draws: `thread_id * 0x01000193u`. -/
def enterMainLoop (t v : Nat) (draw : UInt32) (w : Worker) : Worker :=
  { w with
    pc := .loopHead
    vm := v
    nonce := draw ^^^ (UInt32.ofNat t * 0x01000193)
    localHashCount := 0
    lastSeed := [] }

def workerNext (calculateHash : Nat → List UInt8 → Hash) (n t : Nat) (env : Env)
    (g : Shared) (w : Worker) : Shared × Worker :=
  match w.pc with
  | .absent => (g, w)
  | .waitRunning => (g, { w with pc := if g.running then .waitVms else .waitOver })
  | .waitVms => (g, { w with pc := if t < g.rx.vms.length then .waitOver else .waitRunning })
  | .waitOver => (g, { w with pc := if g.running then .firstVm else .returned })
  | .firstVm =>
    match g.rx.vms[t]? with
    | some v => (g, enterMainLoop t v env.draw w)
    | none => (g, w)
  | .loopHead => (g, { w with pc := if g.running then .takeJob else .returned })
  | .takeJob => (g, chooseJob g.currentJob w)
  | .initRx =>
    let r := initializeRandomx n env.alloc w.job.seedHash g.rx
    ({ g with rx := r.2 }, { w with pc := if r.1 then .fetchVm else .returned })
  | .fetchVm =>
    match g.rx.vms[t]? with
    | some v => (g, beginBatch { w with vm := v, lastSeed := w.job.seedHash })
    | none => (g, { w with pc := .returned })
  | .check => (g, { w with pc := if g.newJob then .clearSeen else .hashing })
  | .clearSeen => ({ g with newJob := false }, { w with newJobArrived := true, pc := .flush })
  | .hashing => (g, hashOnce calculateHash w)
  | .submit => (g, nextIteration { w with nonce := env.draw })
  | .flush =>
    ({ g with totalHashes := g.totalHashes + w.localHashCount },
      { w with localHashCount := 0, pc := if w.newJobArrived then .loopHead else .clearStale })
  | .clearStale => ({ g with newJob := false }, { w with pc := .loopHead })
  | .returned => (g, w)

/-- The unchecked read `m_rx_vms[thread_id]` has no meaning past the end. -/
def WorkerEnabled (t : Nat) (g : Shared) (w : Worker) : Prop :=
  w.pc ≠ .absent ∧ w.pc ≠ .returned ∧ (w.pc = .firstVm → t < g.rx.vms.length)

instance (t : Nat) (g : Shared) (w : Worker) : Decidable (WorkerEnabled t g w) :=
  inferInstanceAs (Decidable (_ ∧ _ ∧ (_ → _)))

variable {n : Nat}

def Enabled (s : State n) : Event n → Prop
  | .initializeMiner _ => s.shared.receiving = false
  | .startMining => ∀ t, (s.workers t).pc = .absent
  | .stopMining => True
  | .joinThreads => s.shared.running = false ∧
      ∀ t, (s.workers t).pc = .absent ∨ (s.workers t).pc = .returned
  | .storeJob _ => s.shared.receiving = true ∧ s.shared.notifying = false
  | .raiseNewJob => s.shared.notifying = true
  | .work t _ => WorkerEnabled t s.shared (s.workers t)

instance (s : State n) : ∀ e, Decidable (Enabled s e)
  | .initializeMiner _ => inferInstanceAs (Decidable (_ = _))
  | .startMining => inferInstanceAs (Decidable (∀ _, _))
  | .stopMining => inferInstanceAs (Decidable True)
  | .joinThreads => inferInstanceAs (Decidable (_ ∧ ∀ _, _))
  | .storeJob _ => inferInstanceAs (Decidable (_ ∧ _))
  | .raiseNewJob => inferInstanceAs (Decidable (_ = _))
  | .work _ _ => inferInstanceAs (Decidable (WorkerEnabled _ _ _))

def next (calculateHash : Nat → List UInt8 → Hash) (s : State n) : Event n → State n
  | .initializeMiner connected => { s with shared := { s.shared with receiving := connected } }
  | .startMining =>
    ⟨{ s.shared with running := true }, fun _ => Worker.fresh .waitRunning⟩
  | .stopMining => { s with shared := { s.shared with running := false } }
  | .joinThreads => { s with workers := fun _ => Worker.fresh .absent }
  | .storeJob job => { s with shared := { s.shared with currentJob := job, notifying := true } }
  | .raiseNewJob => { s with shared := { s.shared with newJob := true, notifying := false } }
  | .work t env =>
    let r := workerNext calculateHash n t env s.shared (s.workers t)
    ⟨r.1, Function.update s.workers t r.2⟩

def machine (calculateHash : Nat → List UInt8 → Hash) (n : Nat) :
    Machine (State n) (Event n) where
  Enabled := Enabled
  next := next calculateHash

instance (calculateHash : Nat → List UInt8 → Hash) (s : State n) (e : Event n) :
    Decidable ((machine calculateHash n).Enabled s e) :=
  inferInstanceAs (Decidable (Enabled s e))

/-- The object after its constructor. -/
def initialState (n : Nat) : State n :=
  ⟨⟨false, false, false, 0, MiningJob.empty, false, Rx.initial⟩, fun _ => Worker.fresh .absent⟩

/-- One call of `randomx_calculate_hash` with what it was made for. -/
structure HashCall where
  job : MiningJob
  nonce : UInt32
  vm : Nat
  input : List UInt8
  output : Hash

/-- The hash call that an event makes, if it makes one. -/
def hashCall (calculateHash : Nat → List UInt8 → Hash) (s : State n) :
    Event n → Option (Fin n × HashCall)
  | .work t _ =>
    let w := s.workers t
    if w.pc = .hashing then
      match constructMiningBlob w.job.blob w.nonce with
      | .error _ => none
      | .ok input => some (t, ⟨w.job, w.nonce, w.vm, input, calculateHash w.vm input⟩)
    else none
  | _ => none

/-- The share that an event hands to `submit_share`. -/
def submission (s : State n) : Event n → Option (Fin n × Share)
  | .work t _ =>
    let w := s.workers t
    if w.pc = .submit then some (t, shareOf w.job w.nonce w.hash) else none
  | _ => none

variable {calculateHash : Nat → List UInt8 → Hash}

theorem next_shared_work (s : State n) (t : Fin n) (env : Env) :
    (next calculateHash s (.work t env)).shared =
      (workerNext calculateHash n t env s.shared (s.workers t)).1 := rfl

theorem next_worker_same (s : State n) (t : Fin n) (env : Env) :
    (next calculateHash s (.work t env)).workers t =
      (workerNext calculateHash n t env s.shared (s.workers t)).2 :=
  Function.update_self _ _ _

theorem next_worker_other (s : State n) {t u : Fin n} (env : Env) (hne : u ≠ t) :
    (next calculateHash s (.work t env)).workers u = s.workers u :=
  Function.update_of_ne hne _ _

theorem hashCall_some {s : State n} {e : Event n} {t : Fin n} {call : HashCall}
    (h : hashCall calculateHash s e = some (t, call)) :
    (∃ env, e = .work t env) ∧ (s.workers t).pc = .hashing ∧
      constructMiningBlob (s.workers t).job.blob (s.workers t).nonce = .ok call.input ∧
      call = ⟨(s.workers t).job, (s.workers t).nonce, (s.workers t).vm, call.input,
        calculateHash (s.workers t).vm call.input⟩ := by
  cases e with
  | work u env =>
    simp only [hashCall] at h
    split at h
    · rename_i hpc
      split at h
      · cases h
      · rename_i input built
        obtain ⟨rfl, rfl⟩ := Prod.mk.inj (Option.some.inj h)
        exact ⟨⟨env, rfl⟩, hpc, built, rfl⟩
    · cases h
  | _ => cases h

theorem submission_some {s : State n} {e : Event n} {t : Fin n} {share : Share}
    (h : submission s e = some (t, share)) :
    (∃ env, e = .work t env) ∧ (s.workers t).pc = .submit ∧
      share = shareOf (s.workers t).job (s.workers t).nonce (s.workers t).hash := by
  cases e with
  | work u env =>
    simp only [submission] at h
    split at h
    · rename_i hpc
      obtain ⟨rfl, rfl⟩ := Prod.mk.inj (Option.some.inj h)
      exact ⟨⟨env, rfl⟩, hpc, rfl⟩
    · cases h
  | _ => cases h

/-- What the steps of `mining_thread` leave of the shared members. -/
theorem workerNext_sharedFrame (t : Nat) (env : Env) (g : Shared) (w : Worker) :
    (w.pc ≠ .initRx → (workerNext calculateHash n t env g w).1.rx = g.rx) ∧
      (w.pc ≠ .clearSeen → w.pc ≠ .clearStale →
        (workerNext calculateHash n t env g w).1.newJob = g.newJob) ∧
      (workerNext calculateHash n t env g w).1.currentJob = g.currentJob := by
  cases hpc : w.pc with
  | firstVm => cases hv : g.rx.vms[t]? <;> simp [workerNext, hpc, hv]
  | fetchVm => cases hv : g.rx.vms[t]? <;> simp [workerNext, hpc, hv]
  | _ => simp [workerNext, hpc]

/-- A worker's step changes RandomX only where it re-initialises it. -/
theorem workerNext_rx {t : Nat} {env : Env} {g : Shared} {w : Worker} (hne : w.pc ≠ .initRx) :
    (workerNext calculateHash n t env g w).1.rx = g.rx :=
  (workerNext_sharedFrame t env g w).1 hne

theorem workerNext_newJob {t : Nat} {env : Env} {g : Shared} {w : Worker}
    (hseen : w.pc ≠ .clearSeen) (hstale : w.pc ≠ .clearStale) :
    (workerNext calculateHash n t env g w).1.newJob = g.newJob :=
  (workerNext_sharedFrame t env g w).2.1 hseen hstale

theorem workerNext_currentJob (t : Nat) (env : Env) (g : Shared) (w : Worker) :
    (workerNext calculateHash n t env g w).1.currentJob = g.currentJob :=
  (workerNext_sharedFrame t env g w).2.2

theorem workerNext_initRx {t : Nat} {env : Env} {g : Shared} {w : Worker} (hpc : w.pc = .initRx) :
    workerNext calculateHash n t env g w =
      ({ g with rx := (initializeRandomx n env.alloc w.job.seedHash g.rx).2 },
        { w with pc := if (initializeRandomx n env.alloc w.job.seedHash g.rx).1 then .fetchVm
          else .returned }) := by
  rw [workerNext, hpc]

/-- What the steps of `mining_thread` leave of a worker's locals. -/
theorem workerNext_frame (t : Nat) (env : Env) (g : Shared) (w : Worker) :
    (w.pc ≠ .takeJob → (workerNext calculateHash n t env g w).2.job = w.job) ∧
      (w.pc ≠ .takeJob → w.pc ≠ .fetchVm →
        (workerNext calculateHash n t env g w).2.target = w.target) ∧
      (w.pc ≠ .firstVm → w.pc ≠ .fetchVm →
        (workerNext calculateHash n t env g w).2.vm = w.vm ∧
          (workerNext calculateHash n t env g w).2.lastSeed = w.lastSeed) := by
  cases hpc : w.pc with
  | firstVm => cases hv : g.rx.vms[t]? <;> simp [workerNext, hpc, hv, enterMainLoop]
  | fetchVm => cases hv : g.rx.vms[t]? <;> simp [workerNext, hpc, hv, beginBatch]
  | takeJob =>
    simp only [workerNext, hpc, chooseJob, beginBatch]
    split <;> try split
    all_goals simp
  | hashing =>
    simp only [workerNext, hpc, hashOnce, nextIteration]
    split <;> try split
    all_goals simp
  | _ => simp [workerNext, hpc, nextIteration]

theorem workerNext_job {t : Nat} {env : Env} {g : Shared} {w : Worker} (htake : w.pc ≠ .takeJob) :
    (workerNext calculateHash n t env g w).2.job = w.job :=
  (workerNext_frame t env g w).1 htake

theorem workerNext_target {t : Nat} {env : Env} {g : Shared} {w : Worker}
    (htake : w.pc ≠ .takeJob) (hfetch : w.pc ≠ .fetchVm) :
    (workerNext calculateHash n t env g w).2.target = w.target :=
  (workerNext_frame t env g w).2.1 htake hfetch

/-- The private handle and seed change only where a handle is fetched. -/
theorem workerNext_handle {t : Nat} {env : Env} {g : Shared} {w : Worker}
    (hfirst : w.pc ≠ .firstVm) (hfetch : w.pc ≠ .fetchVm) :
    (workerNext calculateHash n t env g w).2.vm = w.vm ∧
      (workerNext calculateHash n t env g w).2.lastSeed = w.lastSeed :=
  (workerNext_frame t env g w).2.2 hfirst hfetch

theorem workerNext_fetchVm {t : Nat} {env : Env} {g : Shared} {w : Worker} (hpc : w.pc = .fetchVm)
    {v : Nat} (hv : g.rx.vms[t]? = some v) :
    workerNext calculateHash n t env g w =
      (g, beginBatch { w with vm := v, lastSeed := w.job.seedHash }) := by
  rw [workerNext, hpc]
  simp only [hv]

/-- The control flow of `mining_thread`: where a worker can stand after a step. -/
def Pc.successors : Pc → List Pc
  | .absent => [.absent]
  | .waitRunning => [.waitVms, .waitOver]
  | .waitVms => [.waitOver, .waitRunning]
  | .waitOver => [.firstVm, .returned]
  | .firstVm => [.loopHead, .firstVm]
  | .loopHead => [.takeJob, .returned]
  | .takeJob => [.loopHead, .initRx, .check]
  | .initRx => [.fetchVm, .returned]
  | .fetchVm => [.check, .returned]
  | .check => [.clearSeen, .hashing]
  | .clearSeen => [.flush]
  | .hashing => [.flush, .submit, .check]
  | .submit => [.check, .flush]
  | .flush => [.loopHead, .clearStale]
  | .clearStale => [.loopHead]
  | .returned => [.returned]

theorem workerNext_pc (t : Nat) (env : Env) (g : Shared) (w : Worker) :
    (workerNext calculateHash n t env g w).2.pc ∈ w.pc.successors := by
  cases hpc : w.pc with
  | firstVm =>
    cases hv : g.rx.vms[t]? <;> simp [workerNext, hpc, hv, Pc.successors, enterMainLoop]
  | fetchVm => cases hv : g.rx.vms[t]? <;> simp [workerNext, hpc, hv, Pc.successors, beginBatch]
  | takeJob =>
    simp only [workerNext, hpc, chooseJob, beginBatch]
    split <;> try split
    all_goals simp [Pc.successors]
  | hashing =>
    simp only [workerNext, hpc, hashOnce, nextIteration]
    split <;> try split
    · simp [Pc.successors]
    · simp [Pc.successors]
    · split <;> simp [Pc.successors]
  | absent => simp [workerNext, hpc, Pc.successors]
  | returned => simp [workerNext, hpc, Pc.successors]
  | clearSeen => simp [workerNext, hpc, Pc.successors]
  | clearStale => simp [workerNext, hpc, Pc.successors]
  | _ =>
    simp only [workerNext, hpc, nextIteration]
    split <;> simp [Pc.successors]

/-- A worker hashes or submits only after a check or a hash call. -/
theorem workerNext_hashes {t : Nat} {env : Env} {g : Shared} {w : Worker}
    (hashes : (workerNext calculateHash n t env g w).2.pc.Hashes) :
    w.pc = .hashing ∨
      (w.pc = .check ∧ (workerNext calculateHash n t env g w).2.pc = .hashing) := by
  have flow : ∀ p : Pc, ∀ q ∈ p.successors, q.Hashes →
      p = .hashing ∨ (p = .check ∧ q = .hashing) := by
    intro p
    cases p <;> simp [Pc.successors, Pc.Hashes]
  exact flow w.pc _ (workerNext_pc t env g w) hashes

/-- A worker comes into the batch loop only from the choice of a job or a fetch. -/
theorem workerNext_inBatch {t : Nat} {env : Env} {g : Shared} {w : Worker}
    (htake : w.pc ≠ .takeJob) (hfetch : w.pc ≠ .fetchVm)
    (batch : (workerNext calculateHash n t env g w).2.pc.InBatch) : w.pc.InBatch := by
  have flow : ∀ p : Pc, ∀ q ∈ p.successors, q.InBatch →
      p = .takeJob ∨ p = .fetchVm ∨ p.InBatch := by
    intro p
    cases p <;> simp [Pc.successors, Pc.InBatch]
  have before := flow w.pc _ (workerNext_pc t env g w) batch
  exact (before.resolve_left htake).resolve_left hfetch

/-- What holds of the worker that steps, and of the others before the step,
holds of all workers after it. -/
theorem workers_work {P : Fin n → Worker → Prop} {s : State n} {t : Fin n} {env : Env}
    (own : P t (workerNext calculateHash n t env s.shared (s.workers t)).2)
    (others : ∀ u, u ≠ t → P u (s.workers u)) (u : Fin n) :
    P u ((next calculateHash s (.work t env)).workers u) := by
  by_cases hu : u = t
  · subst hu
    rw [next_worker_same]
    exact own
  · rw [next_worker_other s env hu]
    exact others u hu

def sampleJob (id seedHash : Text) : MiningJob :=
  ⟨id, List.replicate 152 48, lit "b88d0600", seedHash, 0⟩

/-- Two workers at the top of the main loop after a build for the first job's seed. -/
def readyState : State 2 where
  shared :=
    { receiving := true
      running := true
      newJob := false
      totalHashes := 0
      currentJob := sampleJob (lit "1") (lit "aa")
      notifying := false
      rx := (initializeRandomx 2 AllocOutcome.succeeds (lit "aa") Rx.initial).2 }
  workers := fun t => { Worker.fresh .loopHead with vm := t.val + 2 }

def worker0 : Fin 2 := 0

def worker1 : Fin 2 := 1

def idle : Env := ⟨0, AllocOutcome.succeeds⟩

def zeroHash : Nat → List UInt8 → Hash := fun _ _ => Vector.replicate 32 0

end MinerMachine
