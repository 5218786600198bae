import MoneroRandomXMiner.CoarseView
import Mathlib.Algebra.Order.BigOperators.Group.Finset

/-!
# The end of the miner

`stop_mining` clears `m_running` and joins the workers, then the client is
stopped and its receive thread joined. A worker tests the flag once in each
batch, so it returns after a bounded number of its own steps, however the
threads are scheduled, and no reachable state keeps the main thread from the end.
-/

namespace ShutDown

open Histories HexText MiningBlob HandleMessage MinerMachine MinerThreads CoarseView HashAccounting

variable {n : Nat} {calculateHash : Nat → List UInt8 → Hash} {lib : JsonLibrary}

/-- The steps that a worker can still make once `m_running` is false. One
iteration of the batch loop has three. -/
def stepsLeft (w : Worker) : Nat :=
  match w.pc with
  | .absent | .returned => 0
  | .waitOver | .loopHead => 1
  | .waitRunning | .firstVm | .clearStale => 2
  | .waitVms | .flush => 3
  | .clearSeen => 4
  | .submit => 3 * (batchSize - w.i) + 4
  | .hashing => 3 * (batchSize - w.i) + 5
  | .check => 3 * (batchSize - w.i) + 6
  | .fetchVm => 3 * batchSize + 7
  | .initRx => 3 * batchSize + 8
  | .takeJob => 3 * batchSize + 9

theorem stepsLeft_nextIteration (w : Worker) :
    stepsLeft (nextIteration w) ≤ 3 * (batchSize - w.i) + 3 := by
  by_cases hi : w.i + 1 < batchSize
  · simp only [nextIteration, if_pos hi, stepsLeft]
    omega
  · simp only [nextIteration, if_neg hi, stepsLeft]
    omega

theorem stepsLeft_beginBatch (w : Worker) : stepsLeft (beginBatch w) = 3 * batchSize + 6 := rfl

theorem stepsLeft_hashOnce (calculateHash : Nat → List UInt8 → Hash) (w : Worker) :
    stepsLeft (hashOnce calculateHash w) ≤ 3 * (batchSize - w.i) + 4 := by
  unfold hashOnce
  split
  · simp only [stepsLeft]
    omega
  · dsimp only
    split
    · simp only [stepsLeft]
      omega
    · exact (stepsLeft_nextIteration _).trans (by simp)

theorem stepsLeft_chooseJob (job : MiningJob) (w : Worker) :
    stepsLeft (chooseJob job w) ≤ 3 * batchSize + 8 := by
  unfold chooseJob
  split
  · simp only [stepsLeft]
    omega
  · split
    · simp only [stepsLeft]
      omega
    · rw [stepsLeft_beginBatch]
      omega

/-- Once the flag is cleared a worker's own steps bring it to its return. -/
theorem stepsLeft_next {t : Nat} {env : Env} {g : Shared} {w : Worker}
    (enabled : WorkerEnabled t g w) (stopped : g.running = false) :
    stepsLeft (workerNext calculateHash n t env g w).2 < stepsLeft w := by
  obtain ⟨present, active, read⟩ := enabled
  cases hpc : w.pc with
  | absent => exact absurd hpc present
  | returned => exact absurd hpc active
  | firstVm =>
    have inside := read hpc
    simp [workerNext, hpc, List.getElem?_eq_getElem inside, enterMainLoop, stepsLeft]
  | fetchVm =>
    have before : stepsLeft w = 3 * batchSize + 7 := by simp only [stepsLeft, hpc]
    rw [before]
    cases hv : g.rx.vms[t]? with
    | none => simp [workerNext, hpc, hv, stepsLeft]
    | some v =>
      simp only [workerNext, hpc, hv, stepsLeft_beginBatch]
      omega
  | takeJob =>
    have before : stepsLeft w = 3 * batchSize + 9 := by simp only [stepsLeft, hpc]
    have after := stepsLeft_chooseJob g.currentJob w
    simp only [workerNext, hpc]
    omega
  | hashing =>
    have before : stepsLeft w = 3 * (batchSize - w.i) + 5 := by simp only [stepsLeft, hpc]
    have after := stepsLeft_hashOnce calculateHash w
    simp only [workerNext, hpc]
    omega
  | submit =>
    have before : stepsLeft w = 3 * (batchSize - w.i) + 4 := by simp only [stepsLeft, hpc]
    have after := stepsLeft_nextIteration { w with pc := .submit, nonce := env.draw }
    simp only [workerNext, hpc]
    dsimp only at after
    omega
  | check => cases hflag : g.newJob <;> simp [workerNext, hpc, hflag, stepsLeft]
  | initRx =>
    have before : stepsLeft w = 3 * batchSize + 8 := by simp only [stepsLeft, hpc]
    rw [before]
    simp only [workerNext, hpc]
    split <;> simp [stepsLeft]
  | waitVms => by_cases ht : t < g.rx.vms.length <;> simp [workerNext, hpc, ht, stepsLeft]
  | flush => cases hseen : w.newJobArrived <;> simp [workerNext, hpc, hseen, stepsLeft]
  | _ => simp [workerNext, hpc, stopped, stepsLeft]

/-- How many workers `stop_mining` has joined. -/
def joinedWorkers (n : Nat) : Main → Nat
  | .mining => 0
  | .joining k => k
  | _ => n

/-- What holds between events from the start of the workers to the end. -/
structure Sound (s : MinerThreads.State n) : Prop where
  tracked : Tracked s
  grounded : Receiver.Grounded s.receiver
  spawned : ∀ t, (s.miner.workers t).pc ≠ .absent
  stopped : s.main ≠ .mining → s.miner.shared.running = false
  joined : ∀ t : Fin n, t.val < joinedWorkers n s.main → (s.miner.workers t).pc = .returned
  silenced : s.main = .joinReceiver ∨ s.main = .finished → s.clientRunning = false
  ended : s.main = .finished → s.receiver = .ended

/-- The workers are spawned, no mutex is held, and nobody has called `stop_mining`. -/
structure Spawned (s : MinerThreads.State n) : Prop where
  unlocked : Unlocked s
  grounded : Receiver.Grounded s.receiver
  spawned : ∀ t, (s.miner.workers t).pc ≠ .absent
  mining : s.main = .mining

theorem Spawned.sound {s : MinerThreads.State n} (spawned : Spawned s) : Sound s where
  tracked := by
    intro l u holds
    rw [spawned.unlocked l] at holds
    cases holds
  grounded := spawned.grounded
  spawned := spawned.spawned
  stopped := fun other => absurd spawned.mining other
  joined := by
    intro t below
    rw [spawned.mining] at below
    exact absurd below (Nat.not_lt_zero _)
  silenced := by
    rw [spawned.mining]
    rintro (h | h) <;> cases h
  ended := by
    rw [spawned.mining]
    exact fun h => nomatch h

/-- A worker's step, or a step of another thread. -/
theorem worker_cases (calculateHash : Nat → List UInt8 → Hash) (lib : JsonLibrary)
    (s : MinerThreads.State n) (e : MinerThreads.Event n) (t : Fin n) :
    (∃ env, e = .work t env) ∨
      (MinerThreads.next calculateHash lib s e).miner.workers t = s.miner.workers t := by
  by_cases own : ∃ env, e = .work t env
  · exact Or.inl own
  · exact Or.inr (JobOrder.next_worker_idle fun env heq => own ⟨env, heq⟩)

/-- Only the main thread moves the main thread and clears the two flags. -/
theorem next_main (calculateHash : Nat → List UInt8 → Hash) (lib : JsonLibrary)
    {s : MinerThreads.State n} {e : MinerThreads.Event n} (other : e ≠ .stop) :
    (MinerThreads.next calculateHash lib s e).main = s.main ∧
      (MinerThreads.next calculateHash lib s e).clientRunning = s.clientRunning ∧
      (MinerThreads.next calculateHash lib s e).miner.shared.running =
        s.miner.shared.running := by
  cases e with
  | stop => exact absurd rfl other
  | enter t =>
    cases hlock : lockOf (s.miner.workers t).pc <;> simp [MinerThreads.next, hlock, acquire]
  | work t env =>
    have flags := workerNext_flags (n := n) calculateHash t env s.miner.shared
      (s.miner.workers t)
    rw [JobOrder.next_work_miner, next_shared_work, flags.2.2]
    cases hlock : lockOf (s.miner.workers t).pc <;> simp [MinerThreads.next, hlock, release]
  | shareResult =>
    simp only [MinerThreads.next]
    split <;> exact ⟨rfl, rfl, rfl⟩
  | lockClient =>
    simp only [MinerThreads.next]
    split <;> exact ⟨rfl, rfl, rfl⟩
  | _ => exact ⟨rfl, rfl, rfl⟩

theorem next_stop (calculateHash : Nat → List UInt8 → Hash) (lib : JsonLibrary)
    (s : MinerThreads.State n) :
    (MinerThreads.next calculateHash lib s .stop).main = stopNext n s.main ∧
      (MinerThreads.next calculateHash lib s .stop).clientRunning =
        (s.clientRunning && s.main != .stopClient) ∧
      (MinerThreads.next calculateHash lib s .stop).miner.workers = s.miner.workers ∧
      (MinerThreads.next calculateHash lib s .stop).receiver = s.receiver ∧
      (MinerThreads.next calculateHash lib s .stop).miner.shared.running =
        (s.miner.shared.running && s.main != .mining) := by
  refine ⟨rfl, rfl, ?_, rfl, ?_⟩
  · rw [next_stop_miner]
    split <;> rfl
  · rw [next_stop_miner]
    split
    · rename_i mining
      simp [mining, MinerMachine.next]
    · rename_i mining
      simp [mining]

/-- A receive thread that has ended takes no more steps. -/
theorem receiver_ended {s : MinerThreads.State n} {e : MinerThreads.Event n}
    (enabled : MinerThreads.Enabled s e) (ended : s.receiver = .ended) :
    (MinerThreads.next calculateHash lib s e).receiver = .ended := by
  cases e with
  | enter t =>
    cases hlock : lockOf (s.miner.workers t).pc <;>
      simp [MinerThreads.next, hlock, acquire, ended]
  | work t env =>
    cases hlock : lockOf (s.miner.workers t).pc <;>
      simp [MinerThreads.next, hlock, release, ended]
  | call => exact ended
  | lockReader => exact ended
  | answer => exact ended
  | stop => exact ended
  | test =>
    have hr : s.receiver = .atTest := enabled
    rw [ended] at hr
    cases hr
  | recv lines =>
    have hr : s.receiver = .inRecv := enabled
    rw [ended] at hr
    cases hr
  | timeOut =>
    have hr : s.receiver = .inRecv := enabled
    rw [ended] at hr
    cases hr
  | connectionEnds => rfl
  | nextLine =>
    obtain ⟨_, hr⟩ := enabled
    rw [ended] at hr
    cases hr
  | shareResult =>
    obtain ⟨_, _, _, _, hr⟩ := enabled
    rw [ended] at hr
    cases hr
  | lockClient =>
    obtain ⟨_, _, _, _, hr⟩ := enabled
    rw [ended] at hr
    cases hr
  | lockMiner =>
    obtain ⟨_, _, _, hr⟩ := enabled
    rw [ended] at hr
    cases hr
  | storeJob =>
    obtain ⟨_, _, hr⟩ := enabled
    rw [ended] at hr
    cases hr
  | raiseNewJob =>
    obtain ⟨_, _, hr⟩ := enabled
    rw [ended] at hr
    cases hr

/-- Where a worker can be after a step. -/
theorem workerNext_spawned {t : Nat} {env : Env} {g : Shared} {w : Worker}
    (spawned : w.pc ≠ .absent) : (workerNext calculateHash n t env g w).2.pc ≠ .absent := by
  have flow : ∀ p : Pc, ∀ q ∈ p.successors, q = .absent → p = .absent := by
    intro p
    cases p <;> simp [Pc.successors]
  exact fun gone => spawned (flow w.pc _ (workerNext_pc t env g w) gone)

/-- The unchecked read is entered only while the flag is set. -/
theorem workerNext_pastRead {t : Nat} {env : Env} {g : Shared} {w : Worker}
    (past : w.pc ≠ .firstVm) (stopped : g.running = false) :
    (workerNext calculateHash n t env g w).2.pc ≠ .firstVm := by
  by_cases waited : w.pc = .waitOver
  · simp [workerNext, waited, stopped]
  · have flow : ∀ p : Pc, ∀ q ∈ p.successors, q = .firstVm → p = .waitOver ∨ p = .firstVm := by
      intro p
      cases p <;> simp [Pc.successors]
    intro entered
    exact (flow w.pc _ (workerNext_pc t env g w) entered).elim waited past

theorem joinedWorkers_stopNext {s : MinerThreads.State n} (sound : Sound s)
    (enabled : StopEnabled s) (t : Fin n) (below : t.val < joinedWorkers n (stopNext n s.main)) :
    (s.miner.workers t).pc = .returned := by
  cases hmain : s.main with
  | mining =>
    simp only [hmain, stopNext, joinedWorkers] at below
    exact absurd below (Nat.not_lt_zero _)
  | joining k =>
    by_cases before : t.val < k
    · exact sound.joined t (by simpa only [hmain, joinedWorkers] using before)
    · have now : t.val = k := by
        simp only [hmain, stopNext] at below
        split at below
        · simp only [joinedWorkers] at below
          omega
        · have := t.isLt
          omega
      simp only [StopEnabled, hmain] at enabled
      exact enabled t now
  | stopClient => exact sound.joined t (by simp only [hmain, joinedWorkers, t.isLt])
  | joinReceiver => exact sound.joined t (by simp only [hmain, joinedWorkers, t.isLt])
  | finished => exact sound.joined t (by simp only [hmain, joinedWorkers, t.isLt])

theorem Sound.stop {s : MinerThreads.State n} (sound : Sound s) (enabled : StopEnabled s) :
    Sound (MinerThreads.next calculateHash lib s .stop) := by
  obtain ⟨main, client, workers, receiver, running⟩ := next_stop calculateHash lib s
  constructor
  · exact tracked_step sound.tracked enabled
  · rw [receiver]
    exact sound.grounded
  · rw [workers]
    exact sound.spawned
  · intro _
    rw [running]
    by_cases mining : s.main = .mining
    · simp [mining]
    · simp [sound.stopped mining]
  · intro t below
    rw [workers]
    rw [main] at below
    exact joinedWorkers_stopNext sound enabled t below
  · rw [main, client]
    cases hmain : s.main with
    | mining => simp [stopNext]
    | joining k =>
      simp only [stopNext]
      split <;> simp
    | stopClient => simp
    | joinReceiver => simp [sound.silenced (Or.inl hmain)]
    | finished => simp [sound.silenced (Or.inr hmain)]
  · rw [main, receiver]
    cases hmain : s.main with
    | mining => simp [stopNext]
    | joining k =>
      simp only [stopNext]
      split <;> simp
    | stopClient => simp [stopNext]
    | joinReceiver =>
      simp only [StopEnabled, hmain] at enabled
      exact fun _ => enabled
    | finished => exact fun _ => sound.ended hmain

theorem Sound.step {s : MinerThreads.State n} {e : MinerThreads.Event n} (sound : Sound s)
    (enabled : MinerThreads.Enabled s e) : Sound (MinerThreads.next calculateHash lib s e) := by
  by_cases stop : e = .stop
  · subst stop
    exact sound.stop enabled
  · obtain ⟨main, client, running⟩ := next_main calculateHash lib (s := s) stop
    constructor
    · exact tracked_step sound.tracked enabled
    · exact (receiver_next calculateHash lib enabled sound.grounded).2
    · intro t
      rcases worker_cases calculateHash lib s e t with ⟨env, rfl⟩ | same
      · rw [JobOrder.next_worker_work]
        exact workerNext_spawned (sound.spawned t)
      · rw [same]
        exact sound.spawned t
    · rw [main, running]
      exact sound.stopped
    · rw [main]
      intro t below
      have returned := sound.joined t below
      rcases worker_cases calculateHash lib s e t with ⟨env, rfl⟩ | same
      · exact absurd returned enabled.1.2.1
      · rwa [same]
    · rw [main, client]
      exact sound.silenced
    · rw [main]
      exact fun finished => receiver_ended enabled (sound.ended finished)

theorem sound_run {h : List (MinerThreads.State n × MinerThreads.Event n)}
    {s : MinerThreads.State n}
    (run : Run (MinerThreads.machine calculateHash lib n) Spawned h s) : Sound s := by
  apply run.invariant (P := fun _ s => Sound s)
  · exact fun _ spawned => spawned.sound
  · exact fun _ _ _ sound enabled => sound.step enabled

/-- The steps of a worker with its entries into mutex sections. -/
def turnsLeft (s : MinerThreads.State n) (t : Fin n) : Nat :=
  2 * stepsLeft (s.miner.workers t) + (if s.inside t then 0 else 1)

/-- The turns of worker `t`. -/
def TurnOf (t : Fin n) : MinerThreads.Event n → Prop
  | .enter u | .work u _ => u = t
  | _ => False

instance (t : Fin n) : ∀ e, Decidable (TurnOf t e)
  | .enter _ | .work _ _ => inferInstanceAs (Decidable (_ = _))
  | .test | .recv _ | .timeOut | .connectionEnds | .nextLine | .shareResult | .lockClient
  | .lockMiner | .storeJob | .raiseNewJob | .call | .lockReader | .answer | .stop =>
    inferInstanceAs (Decidable False)

def turns (t : Fin n) (h : List (MinerThreads.State n × MinerThreads.Event n)) : Nat :=
  h.countP fun m => TurnOf t m.2

theorem next_enter (calculateHash : Nat → List UInt8 → Hash) (lib : JsonLibrary)
    {s : MinerThreads.State n} {t : Fin n}
    (enabled : MinerThreads.Enabled s (.enter t)) :
    (MinerThreads.next calculateHash lib s (.enter t)).inside = Function.update s.inside t true ∧
      (MinerThreads.next calculateHash lib s (.enter t)).miner = s.miner := by
  obtain ⟨_, l, hlock, _⟩ := enabled
  simp [MinerThreads.next, hlock, acquire]

theorem next_work_inside (s : MinerThreads.State n) (t : Fin n) (env : Env) :
    (MinerThreads.next calculateHash lib s (.work t env)).inside =
      Function.update s.inside t false := by
  cases hlock : lockOf (s.miner.workers t).pc <;> simp [MinerThreads.next, hlock, release]

/-- A turn of the worker uses up one of those it has left. -/
theorem turnsLeft_turn {s : MinerThreads.State n} {e : MinerThreads.Event n} {t : Fin n}
    (enabled : MinerThreads.Enabled s e) (stopped : s.miner.shared.running = false)
    (own : TurnOf t e) :
    turnsLeft (MinerThreads.next calculateHash lib s e) t < turnsLeft s t := by
  cases e with
  | enter u =>
    obtain rfl : u = t := own
    obtain ⟨inside, miner⟩ := next_enter calculateHash lib enabled
    simp [turnsLeft, inside, miner, enabled.1]
  | work u env =>
    obtain rfl : u = t := own
    have fewer := @stepsLeft_next n calculateHash _ env _ _ enabled.1 stopped
    simp only [turnsLeft, next_work_inside, JobOrder.next_worker_work, Function.update_self]
    split <;> simp <;> omega
  | _ => exact own.elim

/-- The turns of the others leave a worker where it is. -/
theorem turnsLeft_other {s : MinerThreads.State n} {e : MinerThreads.Event n} {t : Fin n}
    (enabled : MinerThreads.Enabled s e) (other : ¬ TurnOf t e) :
    turnsLeft (MinerThreads.next calculateHash lib s e) t = turnsLeft s t := by
  have worker : (MinerThreads.next calculateHash lib s e).miner.workers t = s.miner.workers t := by
    apply JobOrder.next_worker_idle
    rintro env rfl
    exact other rfl
  have inside : (MinerThreads.next calculateHash lib s e).inside t = s.inside t := by
    cases e with
    | enter u =>
      have hne : t ≠ u := fun h => other h.symm
      rw [(next_enter calculateHash lib enabled).1, Function.update_of_ne hne]
    | work u env =>
      have hne : t ≠ u := fun h => other h.symm
      rw [next_work_inside, Function.update_of_ne hne]
    | shareResult =>
      simp only [MinerThreads.next]
      split <;> rfl
    | lockClient =>
      simp only [MinerThreads.next]
      split <;> rfl
    | _ => rfl
  simp only [turnsLeft, worker, inside]

theorem turnsLeft_step {s : MinerThreads.State n} {e : MinerThreads.Event n} (t : Fin n)
    (enabled : MinerThreads.Enabled s e) (stopped : s.miner.shared.running = false) :
    turnsLeft (MinerThreads.next calculateHash lib s e) t ≤ turnsLeft s t := by
  by_cases own : TurnOf t e
  · exact (turnsLeft_turn enabled stopped own).le
  · exact (turnsLeft_other enabled own).le

/-- The flag stays cleared: nothing starts the miner again. -/
theorem stopped_next {s : MinerThreads.State n} (e : MinerThreads.Event n)
    (stopped : s.miner.shared.running = false) :
    (MinerThreads.next calculateHash lib s e).miner.shared.running = false := by
  by_cases stop : e = .stop
  · subst stop
    rw [(next_stop calculateHash lib s).2.2.2.2, stopped, Bool.false_and]
  · rw [(next_main calculateHash lib stop).2.2, stopped]

theorem spawned_readyThreads : Spawned readyThreads :=
  ⟨fun _ => rfl, trivial, by decide, rfl⟩

/-- The steps that the main thread still has to take. -/
def joinsLeft (n : Nat) : Main → Nat
  | .mining => n + 4
  | .joining k => (n - k) + 3
  | .stopClient => 2
  | .joinReceiver => 1
  | .finished => 0

def stepsDone : Publishing → Nat
  | .outside => 0
  | .client => 1
  | .both => 2
  | .raising => 3

def linesLeft (lib : JsonLibrary) : List Text → Nat
  | [] => 0
  | line :: lines => 4 * (callbacks lib line).length + 1 + linesLeft lib lines

/-- The steps that take the receive thread from where it is to its end, once the
client is stopped. A job callback has four. -/
def receiverLeft (lib : JsonLibrary) : Receiver → Nat
  | .ended => 0
  | .atTest => 1
  | .inRecv => 2
  | .handling stage pending lines =>
    2 + linesLeft lib lines + (4 * pending.length - stepsDone stage)

def workLeft (lib : JsonLibrary) (s : MinerThreads.State n) : Nat :=
  ∑ t, turnsLeft s t + joinsLeft n s.main + receiverLeft lib s.receiver +
    (if s.reader = .reading then 1 else 0)

/-- On the way to the end: the flag is cleared, and nobody will read past the VMs. -/
structure Halting (s : MinerThreads.State n) : Prop where
  sound : Sound s
  stopped : s.miner.shared.running = false
  pastRead : ∀ t, (s.miner.workers t).pc ≠ .firstVm

theorem Halting.step {s : MinerThreads.State n} {e : MinerThreads.Event n} (halting : Halting s)
    (enabled : MinerThreads.Enabled s e) : Halting (MinerThreads.next calculateHash lib s e) where
  sound := halting.sound.step enabled
  stopped := stopped_next e halting.stopped
  pastRead := by
    intro t
    rcases worker_cases calculateHash lib s e t with ⟨env, rfl⟩ | same
    · rw [JobOrder.next_worker_work]
      exact workerNext_pastRead (halting.pastRead t) halting.stopped
    · rw [same]
      exact halting.pastRead t

/-- What an event leaves of the other threads. -/
theorem turns_only (calculateHash : Nat → List UInt8 → Hash) (lib : JsonLibrary)
    {s : MinerThreads.State n} {e : MinerThreads.Event n} {t : Fin n}
    (own : TurnOf t e) :
    (MinerThreads.next calculateHash lib s e).main = s.main ∧
      (MinerThreads.next calculateHash lib s e).receiver = s.receiver ∧
      (MinerThreads.next calculateHash lib s e).reader = s.reader := by
  cases e with
  | enter u =>
    cases hlock : lockOf (s.miner.workers u).pc <;> simp [MinerThreads.next, hlock, acquire]
  | work u env =>
    cases hlock : lockOf (s.miner.workers u).pc <;> simp [MinerThreads.next, hlock, release]
  | _ => exact own.elim

/-- A turn of a worker lowers the work left. -/
theorem workLeft_turn {s : MinerThreads.State n} {e : MinerThreads.Event n} {t : Fin n}
    (enabled : MinerThreads.Enabled s e) (stopped : s.miner.shared.running = false)
    (own : TurnOf t e) :
    workLeft lib (MinerThreads.next calculateHash lib s e) < workLeft lib s := by
  obtain ⟨main, receiver, reader⟩ := turns_only calculateHash lib (s := s) own
  have fewer : ∑ u, turnsLeft (MinerThreads.next calculateHash lib s e) u <
      ∑ u, turnsLeft s u :=
    Finset.sum_lt_sum (fun u _ => turnsLeft_step u enabled stopped)
      ⟨t, Finset.mem_univ t, turnsLeft_turn enabled stopped own⟩
  simp only [workLeft, main, receiver, reader]
  omega

theorem turns_same (calculateHash : Nat → List UInt8 → Hash) (lib : JsonLibrary)
    {s : MinerThreads.State n} {e : MinerThreads.Event n}
    (enabled : MinerThreads.Enabled s e) (other : ∀ t, ¬ TurnOf t e) :
    ∑ u, turnsLeft (MinerThreads.next calculateHash lib s e) u = ∑ u, turnsLeft s u :=
  Finset.sum_congr rfl fun u _ => turnsLeft_other enabled (other u)

/-- The main thread's step, where nothing keeps it from it. -/
theorem workLeft_stop {s : MinerThreads.State n} (enabled : StopEnabled s) :
    workLeft lib (MinerThreads.next calculateHash lib s .stop) < workLeft lib s := by
  have same := turns_same calculateHash lib (e := .stop) enabled
    fun _ => id
  have reader : (MinerThreads.next calculateHash lib s .stop).reader = s.reader := rfl
  obtain ⟨main, -, -, receiver, -⟩ := next_stop calculateHash lib s
  have fewer : joinsLeft n (stopNext n s.main) < joinsLeft n s.main := by
    cases hmain : s.main with
    | joining k =>
      simp only [stopNext]
      split <;> simp only [joinsLeft] <;> omega
    | finished =>
      simp only [StopEnabled, hmain] at enabled
    | _ => simp [stopNext, joinsLeft]
  simp only [workLeft, same, main, receiver, reader]
  omega

/-- A step of the receive thread towards its end. -/
theorem workLeft_receiver {s : MinerThreads.State n} {e : MinerThreads.Event n}
    (enabled : MinerThreads.Enabled s e) (other : ∀ t, ¬ TurnOf t e)
    (main : (MinerThreads.next calculateHash lib s e).main = s.main)
    (reader : (MinerThreads.next calculateHash lib s e).reader = s.reader)
    (fewer : receiverLeft lib (MinerThreads.next calculateHash lib s e).receiver <
      receiverLeft lib s.receiver) :
    workLeft lib (MinerThreads.next calculateHash lib s e) < workLeft lib s := by
  have same := turns_same calculateHash lib enabled other
  simp only [workLeft, same, main, reader]
  omega

/-- A step that is enabled and lowers the work left. -/
def Proceeds (calculateHash : Nat → List UInt8 → Hash) (lib : JsonLibrary)
    (s : MinerThreads.State n) (e : MinerThreads.Event n) : Prop :=
  MinerThreads.Enabled s e ∧ workLeft lib (MinerThreads.next calculateHash lib s e) < workLeft lib s

theorem proceeds_storeJob {s : MinerThreads.State n} {pending : List Callback} {lines : List Text}
    (hr : s.receiver = .handling .both pending lines) (more : pending ≠ []) :
    Proceeds calculateHash lib s .storeJob := by
  have enabled : MinerThreads.Enabled s .storeJob := ⟨pending, lines, hr⟩
  refine ⟨enabled, workLeft_receiver enabled (fun _ => id) rfl rfl ?_⟩
  obtain ⟨call, rest, rfl⟩ := List.exists_cons_of_ne_nil more
  simp only [MinerThreads.next, release, receive, hr, receiverLeft, stepsDone, List.length_cons]
  omega

/-- A worker inside its mutex section, or with no mutex to take, can step. -/
theorem proceeds_work {s : MinerThreads.State n} (halting : Halting s) {t : Fin n}
    (active : (s.miner.workers t).pc ≠ .returned)
    (inside : lockOf (s.miner.workers t).pc ≠ none → s.inside t = true) :
    Proceeds calculateHash lib s (.work t idle) := by
  have enabled : MinerThreads.Enabled s (.work t idle) :=
    ⟨⟨halting.sound.spawned t, active, fun hpc => absurd hpc (halting.pastRead t)⟩, inside⟩
  exact ⟨enabled, workLeft_turn enabled halting.stopped rfl⟩

/-- While a worker has not returned, it or the thread that keeps it waiting can step. -/
theorem proceeds_worker {s : MinerThreads.State n} (halting : Halting s) {t : Fin n}
    (active : (s.miner.workers t).pc ≠ .returned) :
    ∃ e, Proceeds calculateHash lib s e := by
  cases hlock : lockOf (s.miner.workers t).pc with
  | none => exact ⟨_, proceeds_work halting active fun locked => absurd hlock locked⟩
  | some l =>
    by_cases inside : s.inside t = true
    · exact ⟨_, proceeds_work halting active fun _ => inside⟩
    · cases howner : s.owner l with
      | none =>
        have enabled : MinerThreads.Enabled s (.enter t) :=
          ⟨Bool.eq_false_of_not_eq_true inside, l, hlock, howner⟩
        exact ⟨.enter t, enabled, workLeft_turn enabled halting.stopped rfl⟩
      | some u =>
        have holds := halting.sound.tracked l u howner
        have unshared : l ≠ .clientJob := by
          rintro rfl
          revert hlock
          cases (s.miner.workers t).pc <;> simp [lockOf]
        cases u with
        | worker v =>
          obtain ⟨within, hpc⟩ := held_worker.mp holds
          refine ⟨.work v idle, proceeds_work halting ?_ fun _ => within⟩
          intro returned
          rw [returned] at hpc
          cases hpc
        | receiver =>
          simp only [held] at holds
          split at holds
          · exact absurd (List.mem_singleton.mp holds) unshared
          · exact absurd (List.mem_singleton.mp holds) unshared
          · rename_i pending lines hr
            have grounded := halting.sound.grounded
            simp only [hr, Receiver.Grounded] at grounded
            exact ⟨.storeJob, proceeds_storeJob hr grounded⟩
          · cases holds
        | reader =>
          simp only [held] at holds
          split at holds
          · exact absurd (List.mem_singleton.mp holds) unshared
          · cases holds
        | main => cases holds

/-- With the workers returned only a reader can keep the receive thread waiting. -/
theorem owner_of_returned {s : MinerThreads.State n} (halting : Halting s)
    (returned : ∀ t, (s.miner.workers t).pc = .returned) (outside : held s .receiver = []) :
    s.reader = .reading ∨ s.owner .clientJob = none := by
  cases howner : s.owner .clientJob with
  | none => exact Or.inr rfl
  | some u =>
    have holds := halting.sound.tracked .clientJob u howner
    cases u with
    | worker v =>
      have place := (held_worker.mp holds).2
      rw [returned v] at place
      cases place
    | receiver =>
      rw [outside] at holds
      cases holds
    | reader =>
      simp only [held] at holds
      split at holds
      · rename_i reading
        exact Or.inl reading
      · cases holds
    | main => cases holds

theorem proceeds_answer {s : MinerThreads.State n} (reading : s.reader = .reading) :
    Proceeds calculateHash lib s .answer := by
  have enabled : MinerThreads.Enabled s .answer := reading
  have same := turns_same calculateHash lib enabled fun _ => id
  have idle : (MinerThreads.next calculateHash lib s .answer).reader = .idle := rfl
  refine ⟨enabled, ?_⟩
  rw [workLeft, same, idle, workLeft, reading]
  exact Nat.lt_succ_self _

theorem minerJob_free {s : MinerThreads.State n} (halting : Halting s)
    (returned : ∀ t, (s.miner.workers t).pc = .returned) {pending : List Callback}
    {lines : List Text} (hr : s.receiver = .handling .client pending lines) :
    s.owner .minerJob = none := by
  cases howner : s.owner .minerJob with
  | none => rfl
  | some u =>
    have holds := halting.sound.tracked .minerJob u howner
    cases u with
    | worker v =>
      have place := (held_worker.mp holds).2
      rw [returned v] at place
      cases place
    | receiver =>
      simp only [held, hr, List.mem_singleton] at holds
      cases holds
    | reader =>
      simp only [held] at holds
      split at holds
      · cases List.mem_singleton.mp holds
      · cases holds
    | main => cases holds

/-- With the client stopped the receive thread handles what it has received and ends. -/
theorem proceeds_receiver {s : MinerThreads.State n} (halting : Halting s)
    (returned : ∀ t, (s.miner.workers t).pc = .returned) (silenced : s.clientRunning = false)
    (live : s.receiver ≠ .ended) : ∃ e, Proceeds calculateHash lib s e := by
  have grounded := halting.sound.grounded
  cases hr : s.receiver with
  | ended => exact absurd hr live
  | atTest =>
    have enabled : MinerThreads.Enabled s .test := hr
    refine ⟨.test, enabled, workLeft_receiver enabled (fun _ => id) rfl rfl ?_⟩
    simp [MinerThreads.next, receive, hr, silenced, receiverLeft]
  | inRecv =>
    have enabled : MinerThreads.Enabled s .connectionEnds := hr
    refine ⟨.connectionEnds, enabled, workLeft_receiver enabled (fun _ => id) rfl rfl ?_⟩
    simp [MinerThreads.next, receive, hr, receiverLeft]
  | handling stage pending lines =>
    rw [hr] at grounded
    cases stage with
    | outside =>
      cases pending with
      | nil =>
        have enabled : MinerThreads.Enabled s .nextLine := ⟨lines, hr⟩
        refine ⟨.nextLine, enabled, workLeft_receiver enabled (fun _ => id) rfl rfl ?_⟩
        cases lines with
        | nil =>
          simp only [MinerThreads.next, receive, hr, receiverLeft]
          omega
        | cons line lines =>
          simp only [MinerThreads.next, receive, hr, receiverLeft, linesLeft, stepsDone,
            List.length_nil]
          omega
      | cons call rest =>
        cases call with
        | share accepted response =>
          have enabled : MinerThreads.Enabled s .shareResult := ⟨_, _, _, _, hr⟩
          have fewer : receiverLeft lib (.handling .outside rest lines) <
              receiverLeft lib (.handling .outside (.share accepted response :: rest) lines) := by
            simp [receiverLeft, stepsDone]
          refine ⟨.shareResult, enabled, workLeft_receiver enabled (fun _ => id) ?_ ?_ ?_⟩
          · cases accepted <;> simp [MinerThreads.next, hr, Receiver.head]
          · cases accepted <;> simp [MinerThreads.next, hr, Receiver.head]
          · rw [hr]
            cases accepted <;> simpa [MinerThreads.next, receive, hr, Receiver.head] using fewer
        | job job =>
          rcases owner_of_returned halting returned (by simp [held, hr]) with reading | free
          · exact ⟨.answer, proceeds_answer reading⟩
          · have enabled : MinerThreads.Enabled s .lockClient := ⟨free, job, rest, lines, hr⟩
            refine ⟨.lockClient, enabled, workLeft_receiver enabled (fun _ => id) ?_ ?_ ?_⟩
            · simp [MinerThreads.next, hr, Receiver.head, acquire]
            · simp [MinerThreads.next, hr, Receiver.head, acquire]
            · simp [MinerThreads.next, receive, hr, Receiver.head, acquire, receiverLeft,
                stepsDone]
    | client =>
      obtain ⟨call, rest, rfl⟩ := List.exists_cons_of_ne_nil grounded
      have free := minerJob_free halting returned hr
      have enabled : MinerThreads.Enabled s .lockMiner := ⟨free, _, lines, hr⟩
      refine ⟨.lockMiner, enabled, workLeft_receiver enabled (fun _ => id) rfl rfl ?_⟩
      simp only [MinerThreads.next, receive, hr, acquire, receiverLeft, stepsDone,
        List.length_cons]
      omega
    | both => exact ⟨.storeJob, proceeds_storeJob hr grounded⟩
    | raising =>
      obtain ⟨call, rest, rfl⟩ := List.exists_cons_of_ne_nil grounded
      have enabled : MinerThreads.Enabled s .raiseNewJob := ⟨_, lines, hr⟩
      refine ⟨.raiseNewJob, enabled, workLeft_receiver enabled (fun _ => id) rfl rfl ?_⟩
      simp only [MinerThreads.next, receive, hr, release, receiverLeft, stepsDone,
        List.length_cons]
      omega

/-- Until the end some thread can take a step towards it. -/
theorem proceeds {s : MinerThreads.State n} (halting : Halting s)
    (unfinished : s.main ≠ .finished) : ∃ e, Proceeds calculateHash lib s e := by
  by_cases returned : ∀ t, (s.miner.workers t).pc = .returned
  · by_cases waiting : s.main = .joinReceiver ∧ s.receiver ≠ .ended
    · exact proceeds_receiver halting returned (halting.sound.silenced (Or.inl waiting.1))
        waiting.2
    · have enabled : StopEnabled s := by
        cases hmain : s.main with
        | mining => simp only [StopEnabled, hmain]
        | joining k =>
          simp only [StopEnabled, hmain]
          exact fun t _ => returned t
        | stopClient => simp only [StopEnabled, hmain]
        | joinReceiver =>
          simp only [StopEnabled, hmain]
          by_contra live
          exact waiting ⟨hmain, live⟩
        | finished => exact absurd hmain unfinished
      exact ⟨.stop, enabled, workLeft_stop enabled⟩
  · obtain ⟨t, active⟩ := not_forall.mp returned
    exact proceeds_worker halting active

/-- From every reachable state with no worker at the unchecked read the miner can be
shut down: all workers return, the receive thread ends, and the main thread goes on. -/
theorem shutdown_completes {h : List (MinerThreads.State n × MinerThreads.Event n)}
    {s : MinerThreads.State n} (run : Run (MinerThreads.machine calculateHash lib n) Spawned h s)
    (pastRead : ∀ t, (s.miner.workers t).pc ≠ .firstVm) :
    ∃ s', Leads (MinerThreads.machine calculateHash lib n) s s' ∧ s'.main = .finished ∧
      (∀ t, (s'.miner.workers t).pc = .returned) ∧ s'.receiver = .ended := by
  have sound := sound_run run
  have whole : ∀ r : MinerThreads.State n, Halting r →
      ∃ s', Leads (MinerThreads.machine calculateHash lib n) r s' ∧ s'.main = .finished ∧
        (∀ t, (s'.miner.workers t).pc = .returned) ∧ s'.receiver = .ended := by
    intro r halting
    obtain ⟨s', leads, halted, finished⟩ :=
      leads_of_measure (M := MinerThreads.machine calculateHash lib n) (I := Halting)
        (G := fun s => s.main = .finished) (workLeft lib)
        (fun s halting unfinished => by
          obtain ⟨e, enabled, fewer⟩ := proceeds halting unfinished
          exact ⟨e, enabled, halting.step enabled, fewer⟩) halting
    refine ⟨s', leads, finished, fun t => ?_, halted.sound.ended finished⟩
    exact halted.sound.joined t (by rw [finished]; exact t.isLt)
  by_cases mining : s.main = .mining
  · have enabled : StopEnabled s := by simp only [StopEnabled, mining]
    obtain ⟨-, -, workers, -, running⟩ := next_stop calculateHash lib s
    have halting : Halting (MinerThreads.next calculateHash lib s .stop) := by
      refine ⟨sound.step enabled, ?_, ?_⟩
      · rw [running, mining]
        simp
      · rw [workers]
        exact pastRead
    obtain ⟨s', leads, done⟩ := whole _ halting
    exact ⟨s', leads.head (M := MinerThreads.machine calculateHash lib n) (e := .stop) enabled,
      done⟩
  · exact whole s ⟨sound, sound.stopped mining, pastRead⟩

theorem shutdown_completes_contention :
    let p := replay (MinerThreads.machine zeroHash noJson 2) contention ([], readyThreads)
    ∃ s', Leads (MinerThreads.machine zeroHash noJson 2) p.2 s' ∧ s'.main = .finished ∧
      (∀ t, (s'.miner.workers t).pc = .returned) ∧ s'.receiver = .ended := by
  intro p
  have run : Run (MinerThreads.machine zeroHash noJson 2) Spawned p.1 p.2 :=
    replay_run (.init spawned_readyThreads) _ contention_enabled
  exact shutdown_completes run (by decide)

/-- Nothing has been counted. -/
def Uncounted (s : MinerThreads.State n) : Prop :=
  s.miner.shared.totalHashes = 0 ∧ ∀ t, (s.miner.workers t).localHashCount = 0

/-- `stop_mining` has returned. -/
def Main.Stopped : Main → Prop
  | .mining | .joining _ => False
  | _ => True

theorem Sound.returned {s : MinerThreads.State n} (sound : Sound s)
    (stopped : Main.Stopped s.main) (t : Fin n) : (s.miner.workers t).pc = .returned := by
  apply sound.joined t
  cases hmain : s.main with
  | mining =>
    rw [hmain] at stopped
    exact stopped.elim
  | joining k =>
    rw [hmain] at stopped
    exact stopped.elim
  | _ => exact t.isLt

/-- The calls of `randomx_calculate_hash` in a run. -/
def hashesMade (calculateHash : Nat → List UInt8 → Hash)
    (h : List (MinerThreads.State n × MinerThreads.Event n)) : Nat :=
  (h.filterMap fun m => hashCallOf calculateHash m.1 m.2).length

/-- Up to the wrap-around no hash is lost or counted twice, and when `stop_mining`
has returned all of them are in the total. -/
theorem hashes_totalled {h : List (MinerThreads.State n × MinerThreads.Event n)}
    {s : MinerThreads.State n}
    (run : Run (MinerThreads.machine calculateHash lib n)
      (fun s => Spawned s ∧ Coherent s ∧ Uncounted s) h s) :
    counted s.miner ≡ hashesMade calculateHash h [MOD 2 ^ 64] ∧
      (Main.Stopped s.main →
        s.miner.shared.totalHashes.toNat = hashesMade calculateHash h % 2 ^ 64) := by
  have refines := threads_refine calculateHash lib n
  have same : hashesMade calculateHash h = hashCalls calculateHash (coarse h) := by
    have observed := refines.observed (fun _ hs => hs.2.1)
      (fun s e _ _ => @hashCallOf_shown n calculateHash s e) run
    rw [hashesMade, observed, List.length_filterMap_eq_countP, hashCalls]
  have nothing : ∀ s : MinerThreads.State n, Uncounted s → Accounted calculateHash [] s.miner :=
    fun s uncounted => ⟨fun t _ => uncounted.2 t, by
      simp [counted, uncounted.1, uncounted.2, hashCalls, Nat.ModEq]⟩
  have abstract : Run (MinerMachine.machine calculateHash n) (Accounted calculateHash [])
      (coarse h) s.miner := refines.run (fun s hs => ⟨hs.2.1, nothing s hs.2.2⟩) run
  have accounted : Accounted calculateHash (coarse h) s.miner :=
    abstract.invariant (P := fun h s => Accounted calculateHash h s) (fun _ hs => hs)
      fun _ _ _ before enabled => accounted_step before enabled
  have sound : Sound s := run.invariant (P := fun _ s => Sound s)
    (fun _ hs => hs.1.sound) fun _ _ _ before enabled => before.step enabled
  rw [same]
  refine ⟨accounted.balance, fun stopped => accounted.total_of_stopped fun t => Or.inr ?_⟩
  exact sound.returned stopped t

/-- Worker 0 has made one hash call. A new job ends its batch, and both workers
are stopped and joined. -/
def hashAndStop : List (MinerThreads.Event 2) :=
  [.raiseNewJob, .enter worker0, .work worker0 idle, .work worker0 idle, .work worker0 idle,
    .work worker0 idle, .stop, .work worker0 idle, .work worker1 idle, .stop, .stop, .stop]

def hashAndStopRun : List (MinerThreads.State 2 × MinerThreads.Event 2) × MinerThreads.State 2 :=
  replay (MinerThreads.machine zeroHash noJson 2) hashAndStop
    (replay (MinerThreads.machine zeroHash noJson 2) JobOrder.overtaken ([], readyThreads))

theorem hashAndStop_enabled :
    AllEnabled (MinerThreads.machine zeroHash noJson 2) hashAndStop
      (replay (MinerThreads.machine zeroHash noJson 2) JobOrder.overtaken
        ([], readyThreads)).2 := by
  refine ⟨⟨_, _, rfl⟩, ⟨rfl, _, rfl, rfl⟩, ⟨?_, ?_⟩, ⟨?_, ?_⟩, ⟨?_, ?_⟩, ⟨?_, ?_⟩, trivial,
    ⟨?_, ?_⟩, ⟨?_, ?_⟩, fun t _ => ?_, fun t _ => ?_, fun t _ => ?_, trivial⟩
  all_goals first | decide | (revert t; decide)

theorem hashes_totalled_hashAndStop :
    counted hashAndStopRun.2.miner ≡ hashesMade zeroHash hashAndStopRun.1 [MOD 2 ^ 64] ∧
      (Main.Stopped hashAndStopRun.2.main →
        hashAndStopRun.2.miner.shared.totalHashes.toNat =
          hashesMade zeroHash hashAndStopRun.1 % 2 ^ 64) := by
  refine @hashes_totalled 2 zeroHash noJson _ _ (replay_run (replay_run (.init ?_) _
    JobOrder.overtaken_enabled) _ hashAndStop_enabled)
  exact ⟨spawned_readyThreads, coherent_readyThreads, rfl, fun _ => rfl⟩

end ShutDown
