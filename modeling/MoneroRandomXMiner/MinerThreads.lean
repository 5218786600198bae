import MoneroRandomXMiner.LockOrder
import MoneroRandomXMiner.HandleMessage
import MoneroRandomXMiner.MinerMachine

/-!
# The desktop miner's threads and their mutexes

The workers of the miner, the receive thread with the callbacks it runs, a
reader of the client's current job, and the main thread that stops them. Each
mutex section is entered and left in separate events, so a thread can be found
waiting for a mutex or holding it.
-/

namespace MinerThreads

open Histories HexText MiningBlob HandleMessage MinerMachine LockOrder

inductive Mutex where
  | clientJob
  | send
  | minerJob
  | rx
  deriving DecidableEq

inductive Thread (n : Nat) where
  | main
  | receiver
  | reader
  | worker (t : Fin n)
  deriving DecidableEq

/-- How far the receive thread is in publishing a job: before the client's
mutex, holding it, holding the miner's mutex as well, and after the latter. -/
inductive Publishing where
  | outside
  | client
  | both
  | raising
  deriving DecidableEq

/-- `pending` are the calls that the message in hand still leads to, `lines` the
received lines not yet handled. -/
inductive Receiver where
  | atTest
  | inRecv
  | handling (stage : Publishing) (pending : List Callback) (lines : List Text)
  | ended
  deriving DecidableEq

/-- A thread that calls `get_current_job` from time to time. -/
inductive Reader where
  | idle
  | calling
  | reading
  deriving DecidableEq

/-- `stop_mining`, with the worker it joins next, and the destruction of the client. -/
inductive Main where
  | mining
  | joining (k : Nat)
  | stopClient
  | joinReceiver
  | finished
  deriving DecidableEq

/-- `inside` holds of a worker in the mutex section of its next step. -/
structure State (n : Nat) where
  miner : MinerMachine.State n
  inside : Fin n → Bool
  clientJob : MiningJob
  clientRunning : Bool
  acceptedShares : UInt64
  rejectedShares : UInt64
  receiver : Receiver
  reader : Reader
  main : Main
  owner : Mutex → Option (Thread n)

inductive Event (n : Nat) where
  | enter (t : Fin n)
  | work (t : Fin n) (env : Env)
  | test
  | recv (lines : List Text)
  | timeOut
  | connectionEnds
  | nextLine
  | shareResult
  | lockClient
  | lockMiner
  | storeJob
  | raiseNewJob
  | call
  | lockReader
  | answer
  | stop

/-- The mutex under which `mining_thread` does what it does next. -/
def lockOf : Pc → Option Mutex
  | .waitVms | .firstVm | .initRx | .fetchVm => some .rx
  | .takeJob => some .minerJob
  | .submit => some .send
  | _ => none

variable {n : Nat}

/-- What the main thread needs for its next action: joins wait for the end of a thread. -/
def StopEnabled (s : State n) : Prop :=
  match s.main with
  | .mining | .stopClient => True
  | .joining k => ∀ t : Fin n, t.val = k → (s.miner.workers t).pc = .returned
  | .joinReceiver => s.receiver = .ended
  | .finished => False

def Enabled (s : State n) : Event n → Prop
  | .enter t => s.inside t = false ∧
      ∃ l, lockOf (s.miner.workers t).pc = some l ∧ s.owner l = none
  | .work t _ => WorkerEnabled t s.miner.shared (s.miner.workers t) ∧
      (lockOf (s.miner.workers t).pc ≠ none → s.inside t = true)
  | .test => s.receiver = .atTest
  | .recv _ | .timeOut | .connectionEnds => s.receiver = .inRecv
  | .nextLine => ∃ lines, s.receiver = .handling .outside [] lines
  | .shareResult => ∃ accepted response pending lines,
      s.receiver = .handling .outside (.share accepted response :: pending) lines
  | .lockClient => s.owner .clientJob = none ∧
      ∃ job pending lines, s.receiver = .handling .outside (.job job :: pending) lines
  | .lockMiner => s.owner .minerJob = none ∧
      ∃ pending lines, s.receiver = .handling .client pending lines
  | .storeJob => ∃ pending lines, s.receiver = .handling .both pending lines
  | .raiseNewJob => ∃ pending lines, s.receiver = .handling .raising pending lines
  | .call => s.reader = .idle
  | .lockReader => s.reader = .calling ∧ s.owner .clientJob = none
  | .answer => s.reader = .reading
  | .stop => StopEnabled s

/-- The receive thread's own steps outside the job callback. -/
def receive (lib : JsonLibrary) (clientRunning : Bool) (r : Receiver) : Event n → Receiver
  | .test => if clientRunning then .inRecv else .ended
  | .recv lines => .handling .outside [] lines
  | .timeOut => .atTest
  | .connectionEnds => .ended
  | .nextLine =>
    match r with
    | .handling _ _ (line :: lines) => .handling .outside (callbacks lib line) lines
    | _ => .atTest
  | .shareResult | .raiseNewJob =>
    match r with
    | .handling _ (_ :: pending) lines => .handling .outside pending lines
    | _ => r
  | .lockClient =>
    match r with
    | .handling _ pending lines => .handling .client pending lines
    | _ => r
  | .lockMiner =>
    match r with
    | .handling _ pending lines => .handling .both pending lines
    | _ => r
  | .storeJob =>
    match r with
    | .handling _ pending lines => .handling .raising pending lines
    | _ => r
  | _ => r

def acquire (l : Mutex) (t : Thread n) (s : State n) : State n :=
  { s with owner := Function.update s.owner l (some t) }

def release (l : Mutex) (s : State n) : State n :=
  { s with owner := Function.update s.owner l none }

/-- The first call that the message in hand still leads to. -/
def Receiver.head : Receiver → Option Callback
  | .handling _ pending _ => pending.head?
  | _ => none

def stopNext (n : Nat) : Main → Main
  | .mining => .joining 0
  | .joining k => if k < n then .joining (k + 1) else .stopClient
  | .stopClient => .joinReceiver
  | .joinReceiver | .finished => .finished

/-- The callbacks get the client's copy of the job by reference, so `storeJob`
stores that copy. -/
def next (calculateHash : Nat → List UInt8 → Hash) (lib : JsonLibrary) (s : State n)
    (e : Event n) : State n :=
  let received := { s with receiver := receive lib s.clientRunning s.receiver e }
  match e with
  | .enter t =>
    match lockOf (s.miner.workers t).pc with
    | some l => { acquire l (.worker t) s with inside := Function.update s.inside t true }
    | none => s
  | .work t env =>
    let worked := { s with
      miner := MinerMachine.next calculateHash s.miner (.work t env)
      inside := Function.update s.inside t false }
    match lockOf (s.miner.workers t).pc with
    | some l => release l worked
    | none => worked
  | .shareResult =>
    match s.receiver.head with
    | some (.share true _) => { received with acceptedShares := s.acceptedShares + 1 }
    | some (.share false _) => { received with rejectedShares := s.rejectedShares + 1 }
    | _ => received
  | .lockClient =>
    match s.receiver.head with
    | some (.job job) => { acquire .clientJob .receiver received with clientJob := job }
    | _ => received
  | .lockMiner => acquire .minerJob .receiver received
  | .storeJob =>
    release .minerJob { received with
      miner := MinerMachine.next calculateHash s.miner (.storeJob s.clientJob) }
  | .raiseNewJob =>
    release .clientJob { received with
      miner := MinerMachine.next calculateHash s.miner .raiseNewJob }
  | .call => { s with reader := .calling }
  | .lockReader => { acquire .clientJob .reader s with reader := .reading }
  | .answer => { release .clientJob s with reader := .idle }
  | .stop =>
    { s with
      main := stopNext n s.main
      clientRunning := s.clientRunning && s.main != .stopClient
      miner := if s.main = .mining then MinerMachine.next calculateHash s.miner .stopMining
        else s.miner }
  | _ => received

def machine (calculateHash : Nat → List UInt8 → Hash) (lib : JsonLibrary) (n : Nat) :
    Machine (State n) (Event n) where
  Enabled := Enabled
  next := next calculateHash lib

/-- What a thread is blocked on when the mutex is taken or the joined thread still runs. -/
def waits (s : State n) : Thread n → Option (Wait (Thread n) Mutex)
  | .main =>
    match s.main with
    | .joining k => if hk : k < n then some (.finish (.worker ⟨k, hk⟩)) else none
    | .joinReceiver => some (.finish .receiver)
    | _ => none
  | .receiver =>
    match s.receiver with
    | .handling .outside (.job _ :: _) _ => some (.lock .clientJob)
    | .handling .client _ _ => some (.lock .minerJob)
    | _ => none
  | .reader => if s.reader = .calling then some (.lock .clientJob) else none
  | .worker t => if s.inside t then none else (lockOf (s.miner.workers t).pc).map .lock

def snapshot (s : State n) : Snapshot (Thread n) Mutex where
  holds := fun t l => s.owner l = some t
  waits := waits s

/-- The mutexes that a thread can hold where it stands. -/
def held (s : State n) : Thread n → List Mutex
  | .main => []
  | .receiver =>
    match s.receiver with
    | .handling .client _ _ | .handling .raising _ _ => [.clientJob]
    | .handling .both _ _ => [.clientJob, .minerJob]
    | _ => []
  | .reader => if s.reader = .reading then [.clientJob] else []
  | .worker t => if s.inside t then (lockOf (s.miner.workers t).pc).toList else []

/-- Mutexes are held only where the code holds them. -/
def Tracked (s : State n) : Prop := ∀ l t, s.owner l = some t → l ∈ held s t

/-- The client's job mutex is the only one held while another one is awaited. -/
def rank : Mutex → Nat
  | .clientJob => 0
  | _ => 1

def Unlocked (s : State n) : Prop := ∀ l, s.owner l = none

variable {calculateHash : Nat → List UInt8 → Hash} {lib : JsonLibrary}

/-- A waiting worker, a waiting reader and the main thread hold no mutex, and
the receive thread waits for the miner's job mutex with the client's. -/
theorem held_below {s : State n} {t : Thread n} {l l' : Mutex}
    (waiting : waits s t = some (.lock l)) (holds : l' ∈ held s t) : rank l' < rank l := by
  cases t with
  | main =>
    simp only [waits] at waiting
    split at waiting
    · split at waiting <;> cases waiting
    · cases waiting
    · cases waiting
  | receiver =>
    simp only [waits] at waiting
    split at waiting
    · rename_i hr
      simp [held, hr] at holds
    · rename_i hr
      simp only [held, hr, List.mem_singleton] at holds
      obtain rfl : Mutex.minerJob = l := Wait.lock.inj (Option.some.inj waiting)
      subst holds
      decide
    · cases waiting
  | reader =>
    simp only [waits] at waiting
    split at waiting
    · rename_i hr
      simp [held, hr] at holds
    · cases waiting
  | worker t =>
    simp only [waits] at waiting
    split at waiting
    · cases waiting
    · rename_i hinside
      simp [held, hinside] at holds

theorem waits_finish {s : State n} {t u : Thread n} (waiting : waits s t = some (.finish u)) :
    t = .main ∧ u ≠ .main := by
  cases t with
  | main =>
    refine ⟨rfl, ?_⟩
    rintro rfl
    simp only [waits] at waiting
    split at waiting
    · split at waiting <;> cases waiting
    · cases waiting
    · cases waiting
  | receiver =>
    simp only [waits] at waiting
    split at waiting <;> cases waiting
  | reader =>
    simp only [waits] at waiting
    split at waiting <;> cases waiting
  | worker t =>
    simp only [waits] at waiting
    split at waiting
    · cases waiting
    · cases hl : lockOf (s.miner.workers t).pc <;> simp [hl] at waiting

theorem Tracked.ranked {s : State n} (tracked : Tracked s) : Ranked rank (snapshot s) where
  upward := fun t l l' waiting holds => held_below waiting (tracked l' t holds)
  joinerHolds := by
    intro t v l waiting holds
    obtain ⟨rfl, _⟩ := waits_finish waiting
    cases tracked l .main holds
  joinerEnds := by
    intro t v u waiting ends
    obtain ⟨rfl, _⟩ := waits_finish waiting
    exact (waits_finish ends).2 rfl

/-- A step that touches no mutex and no place where one is held. -/
theorem Tracked.frame {s s' : State n} (tracked : Tracked s)
    (owner : ∀ l t, s'.owner l = some t → s.owner l = some t)
    (places : ∀ t l, s.owner l = some t → s'.owner l = some t → l ∈ held s t → l ∈ held s' t) :
    Tracked s' := by
  intro l t holds
  exact places t l (owner l t holds) holds (tracked l t (owner l t holds))

theorem Tracked.acquire {s s' : State n} (tracked : Tracked s) {l : Mutex} {t : Thread n}
    (owner : s'.owner = Function.update s.owner l (some t)) (taken : l ∈ held s' t)
    (places : ∀ u k, k ∈ held s u → k ∈ held s' u) : Tracked s' := by
  intro k u holds
  rw [owner] at holds
  by_cases hk : k = l
  · subst hk
    rw [Function.update_self] at holds
    obtain rfl := Option.some.inj holds
    exact taken
  · rw [Function.update_of_ne hk] at holds
    exact places u k (tracked k u holds)

theorem Tracked.release {s s' : State n} (tracked : Tracked s) {l : Mutex}
    (owner : s'.owner = Function.update s.owner l none)
    (places : ∀ u k, k ≠ l → k ∈ held s u → k ∈ held s' u) : Tracked s' := by
  intro k u holds
  rw [owner] at holds
  by_cases hk : k = l
  · subst hk
    rw [Function.update_self] at holds
    cases holds
  · rw [Function.update_of_ne hk] at holds
    exact places u k hk (tracked k u holds)

theorem held_worker {s : State n} {t : Fin n} {l : Mutex} :
    l ∈ held s (.worker t) ↔ s.inside t = true ∧ lockOf (s.miner.workers t).pc = some l := by
  by_cases hin : s.inside t = true
  · simp [held, hin]
  · simp [held, hin]

theorem Tracked.work {s : State n} (tracked : Tracked s) (t : Fin n) (env : Env) :
    Tracked (next calculateHash lib s (.work t env)) := by
  have others : ∀ u l, (∀ v, u = .worker v → v ≠ t) → l ∈ held s u →
      l ∈ held (next calculateHash lib s (.work t env)) u := by
    intro u l hu holds
    cases u with
    | worker v =>
      obtain ⟨hin, hl⟩ := held_worker.mp holds
      have hv := hu v rfl
      cases hlock : lockOf (s.miner.workers t).pc <;>
        simpa [held_worker, next, hlock, MinerThreads.release, hv, next_worker_other] using
          ⟨hin, hl⟩
    | main => cases holds
    | _ =>
      cases hlock : lockOf (s.miner.workers t).pc <;>
        simpa [held, next, hlock, MinerThreads.release] using holds
  cases hlock : lockOf (s.miner.workers t).pc with
  | none =>
    intro l u holds
    have before : s.owner l = some u := by simpa only [next, hlock] using holds
    apply others u l _ (tracked l u before)
    rintro v rfl rfl
    have held := held_worker.mp (tracked l _ before)
    rw [hlock] at held
    cases held.2
  | some k =>
    refine tracked.release (l := k) (by simp only [next, hlock, MinerThreads.release]) ?_
    intro u l hne holds
    apply others u l _ holds
    rintro v rfl rfl
    rw [held_worker, hlock] at holds
    exact hne (Option.some.inj holds.2).symm

theorem Tracked.enter {s : State n} (tracked : Tracked s) {t : Fin n}
    (enabled : Enabled s (.enter t)) : Tracked (next calculateHash lib s (.enter t)) := by
  obtain ⟨outside, l, hlock, _⟩ := enabled
  have hnext : next calculateHash lib s (.enter t) =
      { MinerThreads.acquire l (.worker t) s with inside := Function.update s.inside t true } := by
    simp only [next, hlock]
  rw [hnext]
  refine tracked.acquire (l := l) (t := .worker t) rfl ?_ ?_
  · rw [held_worker]
    exact ⟨Function.update_self _ _ _, hlock⟩
  · intro u k holds
    cases u with
    | worker v =>
      rw [held_worker] at holds ⊢
      have hv : v ≠ t := by
        rintro rfl
        rw [outside] at holds
        cases holds.1
      exact ⟨(Function.update_of_ne hv _ _).trans holds.1, holds.2⟩
    | _ => exact holds

/-- The receive thread moves from one place without mutexes to another one. -/
theorem Tracked.receive {s s' : State n} (tracked : Tracked s) (free : held s .receiver = [])
    (owner : s'.owner = s.owner) (inside : s'.inside = s.inside)
    (workers : s'.miner.workers = s.miner.workers) (reader : s'.reader = s.reader) :
    Tracked s' := by
  refine tracked.frame (fun l t holds => owner ▸ holds) ?_
  intro u k _ _ holds
  cases u with
  | receiver =>
    rw [free] at holds
    cases holds
  | main => cases holds
  | reader => simpa only [held, reader] using holds
  | worker t => simpa only [held, inside, workers] using holds

theorem tracked_step {s : State n} {e : Event n} (tracked : Tracked s) (enabled : Enabled s e) :
    Tracked (next calculateHash lib s e) := by
  cases e with
  | enter t => exact tracked.enter enabled
  | work t env => exact tracked.work t env
  | test =>
    have hr : s.receiver = .atTest := enabled
    exact tracked.receive (by simp [held, hr]) rfl rfl rfl rfl
  | recv lines =>
    have hr : s.receiver = .inRecv := enabled
    exact tracked.receive (by simp [held, hr]) rfl rfl rfl rfl
  | timeOut =>
    have hr : s.receiver = .inRecv := enabled
    exact tracked.receive (by simp [held, hr]) rfl rfl rfl rfl
  | connectionEnds =>
    have hr : s.receiver = .inRecv := enabled
    exact tracked.receive (by simp [held, hr]) rfl rfl rfl rfl
  | nextLine =>
    obtain ⟨lines, hr⟩ := enabled
    exact tracked.receive (by simp [held, hr]) rfl rfl rfl rfl
  | shareResult =>
    obtain ⟨accepted, response, pending, lines, hr⟩ := enabled
    have free : held s .receiver = [] := by simp [held, hr]
    cases accepted <;> simp only [next, hr, Receiver.head, List.head?_cons] <;>
      exact tracked.receive free rfl rfl rfl rfl
  | lockClient =>
    obtain ⟨_, job, pending, lines, hr⟩ := enabled
    simp only [next, hr, Receiver.head, List.head?_cons]
    refine tracked.acquire (l := .clientJob) (t := .receiver) rfl ?_ ?_
    · simp [held, receive, MinerThreads.acquire]
    · intro u k holds
      cases u with
      | receiver => simp [held, hr] at holds
      | _ => exact holds
  | lockMiner =>
    obtain ⟨_, pending, lines, hr⟩ := enabled
    refine tracked.acquire (l := .minerJob) (t := .receiver) rfl ?_ ?_
    · simp [held, next, receive, hr, MinerThreads.acquire]
    · intro u k holds
      cases u with
      | receiver =>
        simp only [held, hr, List.mem_singleton] at holds
        simp [held, next, receive, hr, MinerThreads.acquire, holds]
      | _ => exact holds
  | storeJob =>
    obtain ⟨pending, lines, hr⟩ := enabled
    refine tracked.release (l := .minerJob) rfl ?_
    intro u k hne holds
    cases u with
    | receiver =>
      simp only [held, hr, List.mem_cons, List.not_mem_nil, or_false] at holds
      simp [held, next, receive, hr, MinerThreads.release, holds.resolve_right hne]
    | _ => exact holds
  | raiseNewJob =>
    obtain ⟨pending, lines, hr⟩ := enabled
    refine tracked.release (l := .clientJob) rfl ?_
    intro u k hne holds
    cases u with
    | receiver =>
      simp only [held, hr, List.mem_singleton] at holds
      exact absurd holds hne
    | _ => exact holds
  | call =>
    have hidle : s.reader = .idle := enabled
    refine tracked.frame (fun l t holds => holds) ?_
    intro u k _ _ holds
    cases u with
    | reader => simp [held, hidle] at holds
    | _ => exact holds
  | lockReader =>
    refine tracked.acquire (l := .clientJob) (t := .reader) rfl ?_ ?_
    · simp [held, next, MinerThreads.acquire]
    · intro u k holds
      cases u with
      | reader => simp [held, enabled.1] at holds
      | _ => exact holds
  | answer =>
    have hreading : s.reader = .reading := enabled
    refine tracked.release (l := .clientJob) rfl ?_
    intro u k hne holds
    cases u with
    | reader =>
      simp only [held, hreading, if_true, List.mem_singleton] at holds
      exact absurd holds hne
    | _ => exact holds
  | stop =>
    refine tracked.frame (fun l t holds => holds) ?_
    intro u k _ _ holds
    have workers : (next calculateHash lib s .stop).miner.workers = s.miner.workers := by
      simp only [next]
      split <;> rfl
    cases u with
    | worker t =>
      rw [held_worker, workers]
      exact held_worker.mp holds
    | _ => exact holds

/-- From any state without held mutexes no cycle of waiting threads is reached,
in particular from one with RandomX ready and the workers in the main loop. -/
theorem no_deadlock {h : List (State n × Event n)} {s : State n}
    (run : Run (machine calculateHash lib n) Unlocked h s) : ¬ Deadlocked (snapshot s) := by
  have tracked : Tracked s := by
    apply run.invariant (P := fun _ s => Tracked s)
    · intro t unlocked l u holds
      rw [unlocked l] at holds
      cases holds
    · exact fun _ _ _ before enabled => tracked_step before enabled
  exact tracked.ranked.not_deadlocked

/-- Two workers in the main loop, and a job about to be published. -/
def readyThreads : State 2 where
  miner := readyState
  inside := fun _ => false
  clientJob := sampleJob (lit "1") (lit "aa")
  clientRunning := true
  acceptedShares := 0
  rejectedShares := 0
  receiver := .handling .outside [.job (sampleJob (lit "2") (lit "bb"))] []
  reader := .idle
  main := .mining
  owner := fun _ => none

/-- No line is read from the pool in these runs. -/
def noJson : JsonLibrary := ⟨fun _ => none, fun _ => []⟩

/-- A worker copies its job while the receive thread wants to store the next one,
a reader wants the client's copy and the main thread joins the workers. -/
def contention : List (Event 2) :=
  [.work worker0 idle, .enter worker0, .lockClient, .call, .stop]

theorem contention_enabled :
    AllEnabled (machine zeroHash noJson 2) contention readyThreads := by
  have working : Enabled readyThreads (.work worker0 idle) := ⟨by decide, by decide⟩
  exact ⟨working, ⟨rfl, _, rfl, rfl⟩, ⟨rfl, _, _, _, rfl⟩, rfl, trivial, trivial⟩

theorem no_deadlock_contention :
    ¬ Deadlocked
      (snapshot (replay (machine zeroHash noJson 2) contention ([], readyThreads)).2) := by
  have started : Run (machine zeroHash noJson 2) Unlocked [] readyThreads := .init fun _ => rfl
  exact no_deadlock (replay_run started contention contention_enabled)

end MinerThreads
