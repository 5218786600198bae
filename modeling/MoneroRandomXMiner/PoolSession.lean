import MoneroRandomXMiner.ShutDown
import MoneroRandomXMiner.SentLines
import MoneroRandomXMiner.ReceiveLoop

/-!
# The miner in a session with its pool

The threads of the miner, the socket they send on and the pool at the other end
as one machine. A worker with a share builds a message, takes the send mutex,
sends, and goes on mining once `submit_share` has returned. The pool writes what
it likes and when it likes, and its bytes arrive in chunks of any size. The
machine refines the one of the threads and the one of the socket.
-/

namespace PoolSession

open Histories Simulations HexText MiningBlob HandleMessage MinerMachine MinerThreads SendMessage
  StreamLines
open ReceiveLoop (newline extractLines Recv)

/-- `returned` holds of a worker whose call of `submit_share` has returned,
`fromPool` is what the pool has written, `arrived` how much of it has been
received, `answered` the places of the lines that it has meant to answer. -/
structure State (n : Nat) where
  threads : MinerThreads.State n
  wire : Wire n
  returned : Fin n → Bool
  buffer : Text
  fromPool : Text
  arrived : Nat
  answered : List Nat

/-- The pool writes any bytes at any time. `answers` is the place of the line that it
means to answer with them, if there is one. -/
inductive Event (n : Nat) where
  | thread (e : MinerThreads.Event n)
  | submitShare (t : Fin n) (loaded : UInt32)
  | send (t : Fin n) (outcome : Int)
  | recv (chunk : Text)
  | write (answers : Option Nat) (bytes : Text)

variable {n : Nat}

abbrev State.worker (s : State n) (t : Fin n) : Worker := s.threads.miner.workers t

/-- The share that a worker at `submit_share` has found. -/
def State.share (s : State n) (t : Fin n) : Share :=
  shareOf (s.worker t).job (s.worker t).nonce (s.worker t).hash

/-- The event of the threads in an event of the session. -/
def threadEvent (s : State n) : Event n → Option (MinerThreads.Event n)
  | .thread e => some e
  | .recv chunk => some (.recv (extractLines (s.buffer ++ chunk) []).2)
  | _ => none

/-- The event of the socket. The send mutex is taken in `submit_share` only. -/
def wireEvent (s : State n) : Event n → Option (SendMessage.Event n)
  | .thread (.enter t) => if (s.worker t).pc = .submit then some (.acquire t) else none
  | .submitShare t loaded => some (.submitShare t loaded (s.share t))
  | .send t outcome => some (.send t outcome)
  | _ => none

/-- A worker takes the send mutex with its message, and goes on mining once
`submit_share` has returned. Lines come from the socket only. -/
def Ready (s : State n) : MinerThreads.Event n → Prop
  | .enter t => (s.worker t).pc = .submit → ∃ message, s.wire.phases t = .waiting message
  | .work t _ => (s.worker t).pc = .submit → s.returned t = true
  | .recv _ => False
  | _ => True

def Enabled (s : State n) : Event n → Prop
  | .thread e => MinerThreads.Enabled s.threads e ∧ Ready s e
  | .submitShare t _ => (s.worker t).pc = .submit ∧ s.returned t = false ∧ s.wire.phases t = .idle
  | .send t outcome => SendMessage.Enabled s.wire (.send t outcome)
  | .recv chunk => s.threads.receiver = .inRecv ∧ (Recv.data chunk).IsChunk ∧
      chunk <+: s.fromPool.drop s.arrived
  | .write _ _ => True

def Phase.isIdle : Phase → Bool
  | .idle => true
  | _ => false

def nextThreads (calculateHash : Nat → List UInt8 → Hash) (lib : JsonLibrary) (s : State n)
    (e : Event n) : MinerThreads.State n :=
  match threadEvent s e with
  | some e' => MinerThreads.next calculateHash lib s.threads e'
  | none => s.threads

def nextWire (c : Credentials) (s : State n) (e : Event n) : Wire n :=
  match wireEvent s e with
  | some e' => SendMessage.next c s.wire e'
  | none => s.wire

def next (calculateHash : Nat → List UInt8 → Hash) (lib : JsonLibrary) (c : Credentials)
    (s : State n) (e : Event n) : State n :=
  let both := { s with threads := nextThreads calculateHash lib s e, wire := nextWire c s e }
  match e with
  | .thread (.work t _) => { both with returned := Function.update s.returned t false }
  | .send t _ =>
    { both with returned := Function.update s.returned t (Phase.isIdle (both.wire.phases t)) }
  | .recv chunk =>
    { both with
      buffer := (extractLines (s.buffer ++ chunk) []).1
      arrived := s.arrived + chunk.length }
  | .write answers bytes =>
    { both with fromPool := s.fromPool ++ bytes, answered := answers.toList ++ s.answered }
  | _ => both

def machine (calculateHash : Nat → List UInt8 → Hash) (lib : JsonLibrary) (c : Credentials)
    (n : Nat) : Machine (State n) (Event n) where
  Enabled := Enabled
  next := next calculateHash lib c

variable {calculateHash : Nat → List UInt8 → Hash} {lib : JsonLibrary} {c : Credentials}

@[simp] theorem next_threads (s : State n) (e : Event n) :
    (next calculateHash lib c s e).threads = nextThreads calculateHash lib s e := by
  cases e with
  | thread e => cases e <;> rfl
  | _ => rfl

@[simp] theorem next_wire (s : State n) (e : Event n) :
    (next calculateHash lib c s e).wire = nextWire c s e := by
  cases e with
  | thread e => cases e <;> rfl
  | _ => rfl

/-- The text that a thread in `submit_share` wants to send. -/
def Phase.message : Phase → Option Text
  | .idle => none
  | .waiting message => some message
  | .sending message _ => some message

/-- How the threads and the socket fit together between events. -/
structure Joined (c : Credentials) (s : State n) : Prop where
  inside : ∀ t, s.threads.inside t = true → (s.worker t).pc = .submit →
    s.threads.owner .send = some (.worker t)
  owner : ∀ t, s.wire.lock = some t → s.threads.owner .send = some (.worker t)
  current : ∀ t, s.wire.lock = some t → (s.wire.phases t).IsSending
  message : ∀ t text, Phase.message (s.wire.phases t) = some text →
    (s.worker t).pc = .submit ∧ s.returned t = false ∧ ∃ id, text = submitText c id (s.share t)
  back : ∀ t, s.returned t = true → (s.worker t).pc = .submit

/-- `initialize` has logged in and started the receive thread. No share is in
hand, no mutex is held, and the pool has not written anything yet. -/
structure Start (c : Credentials) (s : State n) : Prop where
  unlocked : Unlocked s.threads
  coherent : CoarseView.Coherent s.threads
  login : AfterLogin c s.wire
  noShare : ∀ t, (s.worker t).pc ≠ .submit
  notReturned : ∀ t, s.returned t = false
  receiver : s.threads.receiver = .atTest
  counters : s.threads.acceptedShares = 0 ∧ s.threads.rejectedShares = 0
  stream : s.fromPool = [] ∧ s.buffer = [] ∧ s.arrived = 0
  answered : s.answered = []

theorem Start.joined {s : State n} (start : Start c s) : Joined c s where
  inside := fun t _ hpc => absurd hpc (start.noShare t)
  owner := by
    intro t hlock
    rw [start.login.free] at hlock
    cases hlock
  current := by
    intro t hlock
    rw [start.login.free] at hlock
    cases hlock
  message := by
    intro t text hmessage
    rw [start.login.idle t] at hmessage
    cases hmessage
  back := by
    intro t returned
    rw [start.notReturned t] at returned
    cases returned

theorem Phase.message_of_isSending {phase : Phase} (sending : phase.IsSending) :
    ∃ text, Phase.message phase = some text := by
  cases phase with
  | sending message k => exact ⟨message, rfl⟩
  | _ => exact sending.elim

/-- A worker that goes on mining has nothing on the socket. -/
theorem Joined.quiet {s : State n} (joined : Joined c s) {t : Fin n}
    (ready : (s.worker t).pc = .submit → s.returned t = true) :
    Phase.message (s.wire.phases t) = none := by
  cases hmessage : Phase.message (s.wire.phases t) with
  | none => rfl
  | some text =>
    obtain ⟨hpc, waits, _⟩ := joined.message t text hmessage
    rw [ready hpc] at waits
    cases waits

theorem Joined.unlocked {s : State n} (joined : Joined c s)
    (free : s.threads.owner .send = none) : s.wire.lock = none := by
  cases hlock : s.wire.lock with
  | none => rfl
  | some t =>
    have owner := joined.owner t hlock
    rw [free] at owner
    cases owner

/-- The send mutex and the workers' sections change in the workers' steps only. -/
theorem send_other (calculateHash : Nat → List UInt8 → Hash) (lib : JsonLibrary)
    {s : MinerThreads.State n} {e : MinerThreads.Event n}
    (other : ∀ t, ¬ ShutDown.TurnOf t e) :
    (MinerThreads.next calculateHash lib s e).owner .send = s.owner .send ∧
      (MinerThreads.next calculateHash lib s e).inside = s.inside ∧
      (MinerThreads.next calculateHash lib s e).miner.workers = s.miner.workers := by
  have workers : (MinerThreads.next calculateHash lib s e).miner.workers = s.miner.workers := by
    funext t
    apply JobOrder.next_worker_idle
    rintro env rfl
    exact other t rfl
  cases e with
  | enter t => exact absurd rfl (other t)
  | work t env => exact absurd rfl (other t)
  | shareResult =>
    refine ⟨?_, ?_, workers⟩ <;> simp only [MinerThreads.next] <;> split <;> rfl
  | lockClient =>
    refine ⟨?_, ?_, workers⟩ <;> simp only [MinerThreads.next] <;> split <;> rfl
  | _ => exact ⟨rfl, rfl, workers⟩

/-- What a step leaves alone keeps the parts together. -/
theorem Joined.frame {s s' : State n} (joined : Joined c s) (wire : s'.wire = s.wire)
    (returned : s'.returned = s.returned)
    (workers : s'.threads.miner.workers = s.threads.miner.workers)
    (inside : s'.threads.inside = s.threads.inside)
    (owner : s'.threads.owner .send = s.threads.owner .send) : Joined c s' := by
  have worker : ∀ t, s'.worker t = s.worker t := fun t => congrFun workers t
  have share : ∀ t, s'.share t = s.share t := fun t => by simp only [State.share, worker]
  constructor
  · rw [inside, owner]
    simpa only [worker] using joined.inside
  · rw [wire, owner]
    exact joined.owner
  · rw [wire]
    exact joined.current
  · rw [wire, returned]
    simpa only [worker, share] using joined.message
  · rw [returned]
    simpa only [worker] using joined.back

theorem lockOf_send {pc : Pc} : lockOf pc = some .send ↔ pc = .submit := by
  cases pc <;> simp [lockOf]

/-- What the entry into a mutex section changes. -/
theorem next_enter (calculateHash : Nat → List UInt8 → Hash) (lib : JsonLibrary)
    {s : MinerThreads.State n} {t : Fin n} {l : Mutex}
    (hlock : lockOf (s.miner.workers t).pc = some l) :
    (MinerThreads.next calculateHash lib s (.enter t)).miner.workers = s.miner.workers ∧
      (MinerThreads.next calculateHash lib s (.enter t)).inside =
        Function.update s.inside t true ∧
      (MinerThreads.next calculateHash lib s (.enter t)).owner =
        Function.update s.owner l (some (.worker t)) := by
  simp only [MinerThreads.next, hlock, acquire, and_self]

theorem share_of_worker {s s' : State n} {t : Fin n} (worker : s'.worker t = s.worker t) :
    s'.share t = s.share t := by
  simp only [State.share, worker]

theorem Joined.enterSubmit {s : State n} (joined : Joined c s) {t : Fin n}
    (hpc : (s.worker t).pc = .submit) (enabled : Enabled s (.thread (.enter t))) :
    Joined c (next calculateHash lib c s (.thread (.enter t))) := by
  obtain ⟨⟨outside, l, hlock, free⟩, ready⟩ := enabled
  obtain ⟨message, waiting⟩ := ready hpc
  obtain rfl : l = .send := Option.some.inj (hlock.symm.trans (lockOf_send.mpr hpc))
  obtain ⟨workers, hinside, howner⟩ := next_enter calculateHash lib hlock
  have worker : ∀ u, (next calculateHash lib c s (.thread (.enter t))).worker u = s.worker u :=
    fun u => congrFun workers u
  have owner : (next calculateHash lib c s (.thread (.enter t))).threads.owner .send =
      some (.worker t) := (congrFun howner .send).trans (Function.update_self _ _ _)
  have hwire : (next calculateHash lib c s (.thread (.enter t))).wire =
      { s.wire with
        lock := some t
        phases := Function.update s.wire.phases t (.sending message 0)
        order := s.wire.order ++ [message] } := by
    simp [nextWire, wireEvent, hpc, SendMessage.next, waiting]
  constructor
  · intro u inside hu
    rw [owner]
    by_cases hne : u = t
    · rw [hne]
    · rw [worker u] at hu
      have within := (congrFun hinside u).symm.trans inside
      rw [Function.update_of_ne hne] at within
      have before := joined.inside u within hu
      rw [free] at before
      cases before
  · intro u holds
    rw [hwire] at holds
    rw [owner, Option.some.inj holds]
  · intro u holds
    rw [hwire] at holds ⊢
    rw [← Option.some.inj holds]
    dsimp only
    rw [Function.update_self]
    trivial
  · intro u text hmessage
    rw [hwire] at hmessage
    have same : Phase.message (s.wire.phases u) = some text := by
      by_cases hne : u = t
      · rw [hne] at hmessage ⊢
        dsimp only at hmessage
        rw [Function.update_self] at hmessage
        rwa [waiting]
      · dsimp only at hmessage
        rwa [Function.update_of_ne hne] at hmessage
    rw [worker u, share_of_worker (worker u)]
    exact joined.message u text same
  · intro u returned
    rw [worker u]
    exact joined.back u returned

theorem Joined.enterOther {s : State n} (joined : Joined c s) {t : Fin n}
    (hpc : (s.worker t).pc ≠ .submit) (enabled : Enabled s (.thread (.enter t))) :
    Joined c (next calculateHash lib c s (.thread (.enter t))) := by
  obtain ⟨⟨outside, l, hlock, free⟩, ready⟩ := enabled
  obtain ⟨workers, hinside, howner⟩ := next_enter calculateHash lib hlock
  have worker : ∀ u, (next calculateHash lib c s (.thread (.enter t))).worker u = s.worker u :=
    fun u => congrFun workers u
  have other : Mutex.send ≠ l := by
    rintro rfl
    exact hpc (lockOf_send.mp hlock)
  have owner : (next calculateHash lib c s (.thread (.enter t))).threads.owner .send =
      s.threads.owner .send := (congrFun howner .send).trans (Function.update_of_ne other _ _)
  have hwire : (next calculateHash lib c s (.thread (.enter t))).wire = s.wire := by
    simp [nextWire, wireEvent, hpc]
  constructor
  · intro u inside hu
    rw [worker u] at hu
    have hne : u ≠ t := by
      rintro rfl
      exact hpc hu
    have within := (congrFun hinside u).symm.trans inside
    rw [Function.update_of_ne hne] at within
    rw [owner]
    exact joined.inside u within hu
  · rw [hwire, owner]
    exact joined.owner
  · rw [hwire]
    exact joined.current
  · intro u text hmessage
    rw [hwire] at hmessage
    rw [worker u, share_of_worker (worker u)]
    exact joined.message u text hmessage
  · intro u returned
    rw [worker u]
    exact joined.back u returned

/-- A worker goes on with nothing on the socket; at `submit_share` it gives the mutex back. -/
theorem Joined.work {s : State n} (joined : Joined c s) {t : Fin n} {env : Env}
    (enabled : Enabled s (.thread (.work t env))) :
    Joined c (next calculateHash lib c s (.thread (.work t env))) := by
  obtain ⟨⟨working, within⟩, ready⟩ := enabled
  have silent := joined.quiet ready
  have hwire : (next calculateHash lib c s (.thread (.work t env))).wire = s.wire := rfl
  have hothers : ∀ u, u ≠ t →
      (next calculateHash lib c s (.thread (.work t env))).worker u = s.worker u :=
    fun u hne => JobOrder.next_worker_idle fun env' heq =>
      hne (MinerThreads.Event.work.inj heq).1.symm
  have hinside : (next calculateHash lib c s (.thread (.work t env))).threads.inside =
      Function.update s.threads.inside t false :=
    @ShutDown.next_work_inside n calculateHash lib s.threads t env
  have unlocked : s.wire.lock ≠ some t := by
    intro holds
    obtain ⟨text, hmessage⟩ := Phase.message_of_isSending (joined.current t holds)
    rw [silent] at hmessage
    cases hmessage
  -- the mutex of another worker is not the one that is given back
  have howner : ∀ u, u ≠ t → s.threads.owner .send = some (.worker u) →
      (next calculateHash lib c s (.thread (.work t env))).threads.owner .send =
        some (.worker u) := by
    intro u hne before
    have other : lockOf (s.worker t).pc ≠ some .send := by
      intro hlock
      have mine := joined.inside t (within (by rw [hlock]; exact fun h => nomatch h))
        (lockOf_send.mp hlock)
      rw [before] at mine
      exact hne (MinerThreads.Thread.worker.inj (Option.some.inj mine))
    have kept : (MinerThreads.next calculateHash lib s.threads (.work t env)).owner .send =
        s.threads.owner .send := by
      cases hlock : lockOf (s.worker t).pc with
      | none => simp only [MinerThreads.next, hlock]
      | some l =>
        have hl : Mutex.send ≠ l := by
          rintro rfl
          exact other hlock
        simp only [MinerThreads.next, hlock, release, Function.update_of_ne hl]
    exact kept.trans before
  constructor
  · intro u inside hu
    rw [hinside] at inside
    by_cases hne : u = t
    · rw [hne, Function.update_self] at inside
      cases inside
    · rw [Function.update_of_ne hne] at inside
      rw [hothers u hne] at hu
      exact howner u hne (joined.inside u inside hu)
  · intro u holds
    have hne : u ≠ t := by
      rintro rfl
      exact unlocked holds
    exact howner u hne (joined.owner u holds)
  · exact joined.current
  · intro u text hmessage
    have hne : u ≠ t := by
      rintro rfl
      rw [hwire, silent] at hmessage
      cases hmessage
    rw [hothers u hne, share_of_worker (hothers u hne)]
    have returned : (next calculateHash lib c s (.thread (.work t env))).returned u =
        s.returned u := Function.update_of_ne hne _ _
    rw [returned]
    exact joined.message u text hmessage
  · intro u returned
    by_cases hne : u = t
    · rw [hne] at returned
      cases (Function.update_self t _ s.returned).symm.trans returned
    · rw [hothers u hne]
      exact joined.back u ((Function.update_of_ne hne _ _).symm.trans returned)

/-- `submit_share` builds its message before it takes the send mutex. -/
theorem Joined.submitShare {s : State n} (joined : Joined c s) {t : Fin n} {loaded : UInt32}
    (enabled : Enabled s (.submitShare t loaded)) :
    Joined c (next calculateHash lib c s (.submitShare t loaded)) := by
  obtain ⟨hpc, waits, idle⟩ := enabled
  have unlocked : ∀ u, s.wire.lock = some u → u ≠ t := by
    rintro u holds rfl
    have sending := joined.current u holds
    rw [idle] at sending
    exact sending
  have phases : (next calculateHash lib c s (.submitShare t loaded)).wire.phases =
      Function.update s.wire.phases t (.waiting (submitText c (loaded + 1) (s.share t))) := rfl
  refine ⟨joined.inside, joined.owner, ?_, ?_, joined.back⟩
  · intro u holds
    rw [phases, Function.update_of_ne (unlocked u holds)]
    exact joined.current u holds
  · intro u text hmessage
    rw [phases] at hmessage
    by_cases hne : u = t
    · subst hne
      rw [Function.update_self] at hmessage
      exact ⟨hpc, waits, loaded + 1, (Option.some.inj hmessage).symm⟩
    · rw [Function.update_of_ne hne] at hmessage
      exact joined.message u text hmessage

/-- One call of `send`: the message goes on, or the call of `submit_share` returns. -/
theorem next_send (calculateHash : Nat → List UInt8 → Hash) (lib : JsonLibrary)
    (c : Credentials) {s : State n} {t : Fin n} (outcome : Int) {message : Text} {k : Nat}
    (sending : s.wire.phases t = .sending message k) :
    (∃ k', k' < message.length ∧
      (next calculateHash lib c s (.send t outcome)).wire.phases =
        Function.update s.wire.phases t (.sending message k') ∧
      (next calculateHash lib c s (.send t outcome)).wire.lock = s.wire.lock ∧
      (next calculateHash lib c s (.send t outcome)).wire.finished = s.wire.finished ∧
      (next calculateHash lib c s (.send t outcome)).returned =
        Function.update s.returned t false) ∨
    (∃ accepted, (next calculateHash lib c s (.send t outcome)).wire.phases =
        Function.update s.wire.phases t .idle ∧
      (next calculateHash lib c s (.send t outcome)).wire.lock = none ∧
      (next calculateHash lib c s (.send t outcome)).wire.finished =
        ⟨message, accepted, true⟩ :: s.wire.finished ∧
      (next calculateHash lib c s (.send t outcome)).returned =
        Function.update s.returned t true) := by
  have wire : (next calculateHash lib c s (.send t outcome)).wire =
      afterSend s.wire t message k outcome := by
    simp only [next_wire, nextWire, wireEvent, SendMessage.next, sending]
  have returned : (next calculateHash lib c s (.send t outcome)).returned =
      Function.update s.returned t
        (Phase.isIdle ((next calculateHash lib c s (.send t outcome)).wire.phases t)) := rfl
  rw [returned, wire]
  by_cases failed : outcome ≤ 0
  · refine Or.inr ⟨k, ?_⟩
    simp [afterSend, failed, finish, Phase.isIdle]
  · by_cases more : k + outcome.toNat < message.length
    · refine Or.inl ⟨k + outcome.toNat, more, ?_⟩
      simp [afterSend, failed, more, Phase.isIdle]
    · refine Or.inr ⟨k + outcome.toNat, ?_⟩
      simp [afterSend, failed, more, finish, Phase.isIdle]

theorem Joined.send {s : State n} (joined : Joined c s) {t : Fin n} {outcome : Int}
    (enabled : Enabled s (.send t outcome)) :
    Joined c (next calculateHash lib c s (.send t outcome)) := by
  obtain ⟨message, k, sending, _, _⟩ := enabled
  have own := joined.message t message (by rw [sending]; rfl)
  rcases next_send calculateHash lib c outcome sending with
    ⟨k', -, phases, lock, -, returned⟩ | ⟨accepted, phases, lock, -, returned⟩
  · have waits : Function.update s.returned t false = s.returned := by
      rw [← own.2.1, Function.update_eq_self]
    rw [waits] at returned
    refine ⟨joined.inside, ?_, ?_, ?_, ?_⟩
    · rw [lock]
      exact joined.owner
    · intro u holds
      rw [phases]
      by_cases hne : u = t
      · rw [hne, Function.update_self]
        trivial
      · rw [Function.update_of_ne hne]
        exact joined.current u (lock ▸ holds)
    · intro u text hmessage
      rw [returned]
      apply joined.message u text
      rw [phases] at hmessage
      by_cases hne : u = t
      · subst hne
        rw [Function.update_self] at hmessage
        rwa [sending]
      · rwa [Function.update_of_ne hne] at hmessage
    · rw [returned]
      exact joined.back
  · refine ⟨joined.inside, ?_, ?_, ?_, ?_⟩
    · intro u holds
      rw [lock] at holds
      cases holds
    · intro u holds
      rw [lock] at holds
      cases holds
    · intro u text hmessage
      rw [phases] at hmessage
      by_cases hne : u = t
      · rw [hne, Function.update_self] at hmessage
        cases hmessage
      · rw [Function.update_of_ne hne] at hmessage
        rw [returned, Function.update_of_ne hne]
        exact joined.message u text hmessage
    · intro u back
      rw [returned] at back
      by_cases hne : u = t
      · rw [hne]
        exact own.1
      · rw [Function.update_of_ne hne] at back
        exact joined.back u back

/-- The steps of the other threads touch neither the send mutex nor the workers. -/
theorem Joined.thread {s : State n} (joined : Joined c s) {e : MinerThreads.Event n}
    (other : ∀ t, ¬ ShutDown.TurnOf t e) :
    Joined c (next calculateHash lib c s (.thread e)) := by
  obtain ⟨owner, inside, workers⟩ :=
    send_other calculateHash lib (s := s.threads) other
  have wire : (next calculateHash lib c s (.thread e)).wire = s.wire := by
    cases e with
    | enter t => exact absurd rfl (other t)
    | _ => rfl
  have returned : (next calculateHash lib c s (.thread e)).returned = s.returned := by
    cases e with
    | work t env => exact absurd rfl (other t)
    | _ => rfl
  have threads : (next calculateHash lib c s (.thread e)).threads =
      MinerThreads.next calculateHash lib s.threads e := next_threads s (.thread e)
  apply joined.frame wire returned <;> rw [threads]
  · exact workers
  · exact inside
  · exact owner

theorem Joined.step {s : State n} {e : Event n} (joined : Joined c s)
    (enabled : Enabled s e) : Joined c (next calculateHash lib c s e) := by
  cases e with
  | thread e =>
    cases e with
    | enter t =>
      by_cases hpc : (s.worker t).pc = .submit
      · exact joined.enterSubmit hpc enabled
      · exact joined.enterOther hpc enabled
    | work t env => exact joined.work enabled
    | _ => exact joined.thread fun _ => id
  | submitShare t loaded => exact joined.submitShare enabled
  | send t outcome => exact joined.send enabled
  | recv chunk => exact joined.frame rfl rfl rfl rfl rfl
  | write answers bytes => exact joined.frame rfl rfl rfl rfl rfl

/-- Whatever the socket and the pool do, the threads run as they do by themselves. -/
theorem refines_threads (calculateHash : Nat → List UInt8 → Hash) (lib : JsonLibrary)
    (c : Credentials) (n : Nat) :
    Refines (machine calculateHash lib c n) (MinerThreads.machine calculateHash lib n)
      State.threads threadEvent (fun _ => True) where
  keeps := fun _ _ _ _ => trivial
  enabled := by
    intro s e e' _ enabled shown
    cases e with
    | thread e =>
      obtain rfl := Option.some.inj shown
      exact enabled.1
    | recv chunk =>
      obtain rfl := Option.some.inj shown
      exact enabled.1
    | _ => cases shown
  next := by
    intro s e e' _ _ shown
    exact (next_threads s e).trans (by rw [nextThreads, shown]; rfl)
  hidden := by
    intro s e _ _ hidden
    exact (next_threads s e).trans (by rw [nextThreads, hidden])

/-- The socket sees submissions as the machine of `submit_share` has them. -/
theorem refines_wire (calculateHash : Nat → List UInt8 → Hash) (lib : JsonLibrary)
    (c : Credentials) (n : Nat) :
    Refines (machine calculateHash lib c n) (SendMessage.machine c n) State.wire wireEvent
      (Joined c) where
  keeps := fun _ _ joined enabled => joined.step enabled
  enabled := by
    intro s e e' joined enabled shown
    cases e with
    | thread e =>
      cases e with
      | enter t =>
        simp only [wireEvent] at shown
        split at shown
        · rename_i hpc
          obtain rfl := Option.some.inj shown
          obtain ⟨⟨_, l, hlock, free⟩, ready⟩ := enabled
          obtain rfl : l = .send := Option.some.inj (hlock.symm.trans (lockOf_send.mpr hpc))
          exact ⟨joined.unlocked free, ready hpc⟩
        · cases shown
      | _ => cases shown
    | submitShare t loaded =>
      obtain rfl := Option.some.inj shown
      exact enabled.2.2
    | send t outcome =>
      obtain rfl := Option.some.inj shown
      exact enabled
    | _ => cases shown
  next := by
    intro s e e' _ _ shown
    exact (next_wire s e).trans (by rw [nextWire, shown]; rfl)
  hidden := by
    intro s e _ _ hidden
    exact (next_wire s e).trans (by rw [nextWire, hidden])

/-- The parts of a session run as they do by themselves: the threads, the miner
without mutexes in them, and the socket. -/
structure Parts (calculateHash : Nat → List UInt8 → Hash) (lib : JsonLibrary) (c : Credentials)
    (h : List (State n × Event n)) (s : State n) : Prop where
  threads : Run (MinerThreads.machine calculateHash lib n)
    (fun g => Unlocked g ∧ CoarseView.Coherent g) (seen State.threads threadEvent h) s.threads
  miner : Run (MinerMachine.machine calculateHash n)
    (fun g => ∃ r : MinerThreads.State n, CoarseView.Coherent r ∧ r.miner = g)
    (seen (fun r : State n => r.threads.miner)
      (fun r e => (threadEvent r e).bind (CoarseView.minerEvent r.threads)) h) s.threads.miner
  wire : Run (SendMessage.machine c n) (AfterLogin c) (seen State.wire wireEvent h) s.wire

theorem session_refines {h : List (State n × Event n)} {s : State n}
    (run : Run (machine calculateHash lib c n) (Start c) h s) :
    Parts calculateHash lib c h s := by
  have threads := refines_threads calculateHash lib c n
  have coarse := threads.comp (CoarseView.threads_refine calculateHash lib n)
  refine ⟨threads.run ?_ run, coarse.run ?_ run, (refines_wire calculateHash lib c n).run ?_ run⟩
  · exact fun _ start => ⟨trivial, start.unlocked, start.coherent⟩
  · exact fun s start => ⟨⟨trivial, start.coherent⟩, s.threads, start.coherent, rfl⟩
  · exact fun _ start => ⟨start.joined, start.login⟩

/-- The pool's answer to a good share. -/
def goodReply : Text := lit "\x7b\"id\":2,\"result\":true\x7d"

/-- The pool's notification of a job. -/
def jobNotice (job : MiningJob) : Text :=
  lit "\x7b\"method\":\"job\",\"params\":\x7b\"job_id\":\"" ++ job.jobId ++
    lit "\",\"blob\":\"" ++ job.blob ++ lit "\",\"target\":\"" ++ job.target ++
    lit "\",\"seed_hash\":\"" ++ job.seedHash ++ lit "\"\x7d\x7d"

def jobMessage (job : MiningJob) : Json :=
  .obj [(lit "method", .str (lit "job")),
    (lit "params", .obj [(lit "job_id", .str job.jobId), (lit "blob", .str job.blob),
      (lit "target", .str job.target), (lit "seed_hash", .str job.seedHash)])]

def secondJob : MiningJob := sampleJob (lit "2") (lit "aa")

def thirdJob : MiningJob := sampleJob (lit "3") (lit "aa")

/-- A library that reads what the pool writes below. -/
def goodLibrary : JsonLibrary where
  parse := fun text =>
    if text = goodReply then
      some (.obj [(lit "id", .unsigned 2), (lit "result", .bool true)])
    else if text = jobNotice secondJob then some (jobMessage secondJob)
    else if text = jobNotice thirdJob then some (jobMessage thirdJob)
    else none
  dump := fun _ => []

/-- Two workers in the main loop with a job. The pool has written nothing yet. -/
def miningSession : State 2 where
  threads := { readyThreads with receiver := .atTest }
  wire := ⟨1, none, fun _ => .idle, loginText sampleCredentials, [loginText sampleCredentials], []⟩
  returned := fun _ => false
  buffer := []
  fromPool := []
  arrived := 0
  answered := []

theorem start_miningSession : Start sampleCredentials miningSession where
  unlocked := fun _ => rfl
  coherent := ⟨rfl, iff_of_false (by decide) id, trivial⟩
  login := ⟨rfl, fun _ => rfl, rfl, rfl, rfl⟩
  noShare := by decide
  notReturned := fun _ => rfl
  receiver := rfl
  counters := ⟨rfl, rfl⟩
  stream := ⟨rfl, rfl, rfl⟩
  answered := rfl

/-- Worker 0 finds a share with its first hash call and sends it in two pieces. -/
def oneShare : List (Event 2) :=
  [.thread (.work worker0 idle), .thread (.enter worker0), .thread (.work worker0 idle),
    .thread (.enter worker0), .thread (.work worker0 idle), .thread (.enter worker0),
    .thread (.work worker0 idle), .thread (.work worker0 idle), .thread (.work worker0 idle),
    .submitShare worker0 1, .thread (.enter worker0), .send worker0 5, .send worker0 156,
    .thread (.work worker0 idle)]

def oneShareRun : List (State 2 × Event 2) × State 2 :=
  replay (machine zeroHash goodLibrary sampleCredentials 2) oneShare
    ([], miningSession)

set_option maxRecDepth 4000 in
theorem oneShare_enabled :
    AllEnabled (machine zeroHash goodLibrary sampleCredentials 2) oneShare miningSession := by
  refine ⟨⟨⟨?_, ?_⟩, fun h => absurd h ?_⟩, ⟨⟨rfl, _, rfl, rfl⟩, fun h => absurd h ?_⟩,
    ⟨⟨?_, ?_⟩, fun h => absurd h ?_⟩, ⟨⟨rfl, _, rfl, rfl⟩, fun h => absurd h ?_⟩,
    ⟨⟨?_, ?_⟩, fun h => absurd h ?_⟩, ⟨⟨rfl, _, rfl, rfl⟩, fun h => absurd h ?_⟩,
    ⟨⟨?_, ?_⟩, fun h => absurd h ?_⟩, ⟨⟨?_, ?_⟩, fun h => absurd h ?_⟩,
    ⟨⟨?_, ?_⟩, fun h => absurd h ?_⟩, ⟨?_, ?_, rfl⟩,
    ⟨⟨rfl, _, rfl, rfl⟩, fun _ => ⟨_, rfl⟩⟩, ⟨_, _, rfl, ?_, ?_⟩, ⟨_, _, rfl, ?_, ?_⟩,
    ⟨⟨?_, ?_⟩, fun _ => ?_⟩, trivial⟩
  all_goals decide +kernel

theorem miningSession_oneShare :
    Run (machine zeroHash goodLibrary sampleCredentials 2) (· = miningSession)
      oneShareRun.1 oneShareRun.2 := by
  have started : Run (machine zeroHash goodLibrary sampleCredentials 2) (· = miningSession)
      [] miningSession := .init rfl
  exact replay_run started _ oneShare_enabled

theorem oneShare_run :
    Run (machine zeroHash goodLibrary sampleCredentials 2) (Start sampleCredentials)
      oneShareRun.1 oneShareRun.2 :=
  miningSession_oneShare.mono fun _ same => same ▸ start_miningSession

/-- The pool accepts the share and writes two jobs. The second one is cut by the end of
a write, and only some of it is received with the first one, which the miner stores. -/
def dialogue : List (Event 2) :=
  [.write (some 1) (goodReply ++ [newline]),
    .write none (jobNotice secondJob ++ [newline] ++ (jobNotice thirdJob).take 20),
    .thread .test, .recv (goodReply ++ [newline] ++ jobNotice secondJob ++ [newline, 123]),
    .thread .nextLine, .thread .shareResult, .thread .nextLine, .thread .lockClient,
    .thread .lockMiner, .thread .storeJob, .thread .raiseNewJob,
    .write none ((jobNotice thirdJob).drop 20 ++ [newline])]

def dialogueRun : List (State 2 × Event 2) × State 2 :=
  replay (machine zeroHash goodLibrary sampleCredentials 2) dialogue oneShareRun

set_option maxRecDepth 4000 in
theorem dialogue_enabled :
    AllEnabled (machine zeroHash goodLibrary sampleCredentials 2) dialogue oneShareRun.2 := by
  refine ⟨trivial, trivial, ⟨rfl, trivial⟩, ⟨rfl, ⟨?_, ?_⟩, ?_⟩,
    ⟨⟨[goodReply, jobNotice secondJob], ?_⟩, trivial⟩,
    ⟨⟨true, [], [], [jobNotice secondJob], ?_⟩, trivial⟩, ⟨⟨[jobNotice secondJob], ?_⟩, trivial⟩,
    ⟨⟨?_, secondJob, [], [], ?_⟩, trivial⟩, ⟨⟨?_, [.job secondJob], [], ?_⟩, trivial⟩,
    ⟨⟨[.job secondJob], [], ?_⟩, trivial⟩, ⟨⟨[.job secondJob], [], ?_⟩, trivial⟩, trivial, trivial⟩
  all_goals decide +kernel

theorem miningSession_dialogue :
    Run (machine zeroHash goodLibrary sampleCredentials 2) (· = miningSession)
      dialogueRun.1 dialogueRun.2 :=
  replay_run miningSession_oneShare _ dialogue_enabled

theorem dialogue_run :
    Run (machine zeroHash goodLibrary sampleCredentials 2) (Start sampleCredentials)
      dialogueRun.1 dialogueRun.2 :=
  miningSession_dialogue.mono fun _ same => same ▸ start_miningSession

theorem session_refines_dialogue :
    Parts zeroHash goodLibrary sampleCredentials dialogueRun.1 dialogueRun.2 :=
  session_refines dialogue_run

end PoolSession
