import MoneroRandomXMiner.MinerMachine

/-!
# The start-up wait of the workers

A worker enters the main loop once its VM exists, and VMs are only created
inside the main loop. From the constructed object on, no VM is ever created
and no worker leaves the start-up wait except to return.
-/

namespace StartUp

open Histories HexText MiningBlob RandomXInit MinerMachine

variable {n : Nat} {calculateHash : Nat → List UInt8 → Hash}

def Constructed (s : State n) : Prop := s = initialState n

/-- `initialize` and `start_mining` were called, and a usable job was delivered. -/
structure StartedUp (s : State n) : Prop where
  receiving : s.shared.receiving = true
  running : s.shared.running = true
  spawned : ∀ t, (s.workers t).pc ≠ .absent
  notified : s.shared.notifying = false
  blob : 76 ≤ ((fullSlices s.shared.currentJob.blob).map hexByte).length
  seed : s.shared.currentJob.seedHash ≠ []

/-- A worker's step in which RandomX allocations succeed. -/
def WorkerStep : Event n → Prop
  | .work _ env => env.alloc = AllocOutcome.succeeds
  | _ => False

/-- Worker steps alone lead to a hash call on a job that was delivered. -/
def ReachesHash (calculateHash : Nat → List UInt8 → Hash) (h : List (State n × Event n))
    (s : State n) : Prop :=
  ∃ es e t call, (∀ f ∈ es ++ [e], WorkerStep f) ∧
    AllEnabled (machine calculateHash n) (es ++ [e]) s ∧
    hashCall calculateHash (replay (machine calculateHash n) es (h, s)).2 e = some (t, call) ∧
    ∃ m ∈ h, m.2 = .storeJob call.job

def NoDeadStartUp (calculateHash : Nat → List UInt8 → Hash) (n : Nat) : Prop :=
  ∀ h s, Run (machine calculateHash n) Constructed h s → StartedUp s →
    ReachesHash calculateHash h s

/-- No VM exists, and a worker can only be over the wait because it was stopped. -/
structure Stalled (s : State n) : Prop where
  noVms : s.shared.rx.vms = []
  waiting : ∀ t, (s.workers t).pc.StartingUp
  stopped : ∀ t, (s.workers t).pc = .waitOver → s.shared.running = false

theorem stalled_initial {s : State n} (constructed : Constructed s) : Stalled s := by
  subst constructed
  exact ⟨rfl, fun _ => trivial, fun _ hpc => nomatch hpc⟩

/-- One step of a waiting worker, with no VM to wait for. -/
theorem workerNext_stalled {t : Nat} {env : Env} {g : Shared} {w : Worker}
    (noVms : g.rx.vms = []) (waiting : w.pc.StartingUp)
    (stopped : w.pc = .waitOver → g.running = false) :
    (workerNext calculateHash n t env g w).1 = g ∧
      (workerNext calculateHash n t env g w).2.pc.StartingUp ∧
      ((workerNext calculateHash n t env g w).2.pc = .waitOver → g.running = false) := by
  cases hpc : w.pc with
  | absent =>
    rw [workerNext, hpc]
    exact ⟨rfl, waiting, stopped⟩
  | returned =>
    rw [workerNext, hpc]
    exact ⟨rfl, waiting, stopped⟩
  | waitRunning =>
    cases hrunning : g.running with
    | true => simp [workerNext, hpc, hrunning, Pc.StartingUp]
    | false => simp [workerNext, hpc, hrunning, Pc.StartingUp]
  | waitVms => simp [workerNext, hpc, noVms, Pc.StartingUp]
  | waitOver => simp [workerNext, hpc, stopped hpc, Pc.StartingUp]
  | _ =>
    rw [hpc] at waiting
    exact waiting.elim

theorem Stalled.step {s : State n} {e : Event n} (stalled : Stalled s) :
    Stalled (next calculateHash s e) := by
  cases e with
  | work t env =>
    obtain ⟨hshared, hwaiting, hstopped⟩ := workerNext_stalled (t := t.val) (n := n)
      stalled.noVms (stalled.waiting t) (stalled.stopped t)
    have hnext : (next calculateHash s (.work t env)).shared = s.shared := hshared
    refine ⟨hnext ▸ stalled.noVms, ?_, ?_⟩
    · exact workers_work (P := fun _ w => w.pc.StartingUp) hwaiting
        (fun u _ => stalled.waiting u)
    · rw [hnext]
      exact workers_work (P := fun _ w => w.pc = .waitOver → s.shared.running = false) hstopped
        (fun u _ => stalled.stopped u)
  | startMining => exact ⟨stalled.noVms, fun _ => trivial, fun _ hpc => nomatch hpc⟩
  | joinThreads => exact ⟨stalled.noVms, fun _ => trivial, fun _ hpc => nomatch hpc⟩
  | stopMining => exact ⟨stalled.noVms, stalled.waiting, fun _ _ => rfl⟩
  | _ => exact ⟨stalled.noVms, stalled.waiting, stalled.stopped⟩

theorem stalled_run {h : List (State n × Event n)} {s : State n}
    (run : Run (machine calculateHash n) Constructed h s) : Stalled s :=
  run.invariant (P := fun _ s => Stalled s) (fun _ => stalled_initial)
    (fun _ _ _ stalled _ => stalled.step)

theorem no_hashCall {s : State n} {e : Event n} (stalled : Stalled s) :
    hashCall calculateHash s e = none := by
  cases hcall : hashCall calculateHash s e with
  | none => rfl
  | some p =>
    obtain ⟨t, call⟩ := p
    obtain ⟨_, hpc, _⟩ := hashCall_some hcall
    have waiting := stalled.waiting t
    rw [hpc] at waiting
    exact waiting.elim

theorem not_reachesHash {h : List (State n × Event n)} {s : State n}
    (run : Run (machine calculateHash n) Constructed h s) : ¬ ReachesHash calculateHash h s := by
  rintro ⟨es, e, t, call, _, enabled, hcall, _⟩
  have later := replay_run run es (allEnabled_append enabled)
  rw [no_hashCall (stalled_run later)] at hcall
  cases hcall

/-- The pool delivers one job after the start. -/
def delivery (n : Nat) (job : MiningJob) : List (Event n) :=
  [.initializeMiner true, .startMining, .storeJob job, .raiseNewJob]

theorem startedUp_delivery {job : MiningJob}
    (blob : 76 ≤ ((fullSlices job.blob).map hexByte).length) (seed : job.seedHash ≠ []) :
    ∃ h s, Run (machine calculateHash n) Constructed h s ∧ StartedUp s := by
  have constructed : Run (machine calculateHash n) Constructed [] (initialState n) := .init rfl
  refine ⟨_, _, replay_run constructed (delivery n job) ?_, ?_⟩
  · exact ⟨rfl, fun _ => rfl, ⟨rfl, rfl⟩, rfl, trivial⟩
  · exact ⟨rfl, rfl, (fun _ hpc => nomatch hpc), rfl, blob, seed⟩

theorem startedUp_reachable (calculateHash : Nat → List UInt8 → Hash) (n : Nat) :
    ∃ h s, Run (machine calculateHash n) Constructed h s ∧ StartedUp s :=
  by
  have blob : 76 ≤ ((fullSlices (sampleJob (lit "1") (lit "aa")).blob).map hexByte).length := by
    decide +kernel
  have seed : (sampleJob (lit "1") (lit "aa")).seedHash ≠ [] := by decide
  exact startedUp_delivery blob seed

/-- For every number of threads the miner can be started up, and then no steps
of its workers ever lead to a hash call. -/
theorem startUp_dead (calculateHash : Nat → List UInt8 → Hash) (n : Nat) :
    (∃ h s, Run (machine calculateHash n) Constructed h s ∧ StartedUp s) ∧
      ∀ h s, Run (machine calculateHash n) Constructed h s → StartedUp s →
        ¬ ReachesHash calculateHash h s :=
  ⟨startedUp_reachable calculateHash n, fun _ _ run _ => not_reachesHash run⟩

theorem noDeadStartUp_fails : ¬ NoDeadStartUp zeroHash 1 := by
  intro noDead
  obtain ⟨h, s, run, startedUp⟩ := startedUp_reachable zeroHash 1
  exact not_reachesHash run (noDead h s run startedUp)

end StartUp
