import MoneroRandomXMiner.ShareWork

/-!
# How a session ends

The main thread can always bring the session to its end. A worker that it joins
may still have to send its share, with the send mutex held by another worker
whose message is half out; `send` accepts every share found by then.
-/

namespace SessionEnd

open Histories Simulations HexText MiningBlob HandleMessage MinerMachine MinerThreads SendMessage
  StreamLines PoolSession ShareDelivery PoolDialogue
open ReceiveLoop (newline extractLines messages Recv)

variable {n : Nat} {calculateHash : Nat → List UInt8 → Hash} {lib : JsonLibrary} {c : Credentials}

/-- Where a worker at `submit_share` stands: before the send mutex it has sent
nothing, with it the message is on its way or the call has returned. -/
structure Engaged (s : PoolSession.State n) : Prop where
  outside : ∀ t, (s.worker t).pc = .submit → s.threads.inside t = false →
    s.returned t = false ∧ ¬ (s.wire.phases t).IsSending
  within : ∀ t, (s.worker t).pc = .submit → s.threads.inside t = true →
    s.returned t = true ∨
      ∃ message k, s.wire.phases t = .sending message k ∧ k < message.length

theorem Start.engaged {s : PoolSession.State n} (start : Start c s) : Engaged s where
  outside := fun t hpc _ => absurd hpc (start.noShare t)
  within := fun t hpc _ => absurd hpc (start.noShare t)

/-- What a step leaves alone keeps the workers at `submit_share` where they stand. -/
theorem Engaged.frame {s s' : PoolSession.State n} (engaged : Engaged s)
    (phases : s'.wire.phases = s.wire.phases) (returned : s'.returned = s.returned)
    (workers : s'.threads.miner.workers = s.threads.miner.workers)
    (inside : s'.threads.inside = s.threads.inside) : Engaged s' := by
  have worker : ∀ t, s'.worker t = s.worker t := fun t => congrFun workers t
  constructor
  · intro t
    rw [worker, inside, returned, phases]
    exact engaged.outside t
  · intro t
    rw [worker, inside, returned, phases]
    exact engaged.within t

/-- A step of one worker leaves the others where they stand. -/
theorem Engaged.own {s s' : PoolSession.State n} (engaged : Engaged s) (t : Fin n)
    (others : ∀ u, u ≠ t → s'.worker u = s.worker u ∧ s'.threads.inside u = s.threads.inside u ∧
      s'.returned u = s.returned u ∧ s'.wire.phases u = s.wire.phases u)
    (outside : (s'.worker t).pc = .submit → s'.threads.inside t = false →
      s'.returned t = false ∧ ¬ (s'.wire.phases t).IsSending)
    (within : (s'.worker t).pc = .submit → s'.threads.inside t = true →
      s'.returned t = true ∨
        ∃ message k, s'.wire.phases t = .sending message k ∧ k < message.length) :
    Engaged s' := by
  constructor
  · intro u
    by_cases hu : u = t
    · subst hu
      exact outside
    · obtain ⟨worker, inside, returned, phase⟩ := others u hu
      rw [worker, inside, returned, phase]
      exact engaged.outside u
  · intro u
    by_cases hu : u = t
    · subst hu
      exact within
    · obtain ⟨worker, inside, returned, phase⟩ := others u hu
      rw [worker, inside, returned, phase]
      exact engaged.within u

/-- What the turn of one worker leaves of the others. -/
theorem turn_others (calculateHash : Nat → List UInt8 → Hash) (lib : JsonLibrary)
    (c : Credentials) {s : PoolSession.State n} {t u : Fin n} {e : MinerThreads.Event n}
    (own : ShutDown.TurnOf t e) (hu : u ≠ t) :
    (PoolSession.next calculateHash lib c s (.thread e)).worker u = s.worker u ∧
      (PoolSession.next calculateHash lib c s (.thread e)).threads.inside u =
        s.threads.inside u ∧
      (PoolSession.next calculateHash lib c s (.thread e)).returned u = s.returned u ∧
      (PoolSession.next calculateHash lib c s (.thread e)).wire.phases u =
        s.wire.phases u := by
  cases e with
  | enter v =>
    obtain rfl : v = t := own
    refine ⟨worker_other calculateHash lib c fun env heq => ?_, ?_, rfl, ?_⟩
    · cases heq
    · rw [next_threads, nextThreads, threadEvent]
      cases hlock : lockOf (s.worker v).pc <;>
        simp [MinerThreads.next, hlock, acquire, Function.update_of_ne hu]
    · rw [next_wire, nextWire, wireEvent]
      by_cases hpc : (s.worker v).pc = .submit
      · cases hphase : s.wire.phases v <;>
          simp [hpc, SendMessage.next, hphase, Function.update_of_ne hu]
      · simp [hpc]
  | work v env =>
    obtain rfl : v = t := own
    refine ⟨worker_other calculateHash lib c fun env' heq => ?_, ?_, ?_, rfl⟩
    · exact hu (MinerThreads.Event.work.inj (PoolSession.Event.thread.inj heq)).1.symm
    · have inside := @ShutDown.next_work_inside n calculateHash lib s.threads v env
      exact (congrFun inside u).trans (Function.update_of_ne hu _ _)
    · exact Function.update_of_ne hu _ _
  | _ => exact own.elim

/-- The other threads take no turn for a worker. -/
theorem turn_none (calculateHash : Nat → List UInt8 → Hash) (lib : JsonLibrary)
    (c : Credentials) {s : PoolSession.State n} {e : MinerThreads.Event n}
    (other : ∀ t, ¬ ShutDown.TurnOf t e) :
    (PoolSession.next calculateHash lib c s (.thread e)).threads.miner.workers =
        s.threads.miner.workers ∧
      (PoolSession.next calculateHash lib c s (.thread e)).threads.inside = s.threads.inside ∧
      (PoolSession.next calculateHash lib c s (.thread e)).returned = s.returned ∧
      (PoolSession.next calculateHash lib c s (.thread e)).wire = s.wire := by
  obtain ⟨_, inside, workers⟩ := send_other calculateHash lib (s := s.threads) other
  have threads := @next_threads n calculateHash lib c s (.thread e)
  rw [threads]
  refine ⟨workers, inside, ?_, ?_⟩
  · cases e with
    | work t env => exact absurd rfl (other t)
    | _ => rfl
  · cases e with
    | enter t => exact absurd rfl (other t)
    | _ => rfl

theorem Engaged.enter {s : PoolSession.State n} (engaged : Engaged s) (joined : Joined c s)
    {t : Fin n} (enabled : PoolSession.Enabled s (.thread (.enter t))) :
    Engaged (PoolSession.next calculateHash lib c s (.thread (.enter t))) := by
  obtain ⟨⟨_, l, hlock, _⟩, ready⟩ := enabled
  obtain ⟨workers, inside, _⟩ := PoolSession.next_enter calculateHash lib hlock
  have worker : (PoolSession.next calculateHash lib c s (.thread (.enter t))).worker t =
      s.worker t := congrFun workers t
  have entered : (PoolSession.next calculateHash lib c s (.thread (.enter t))).threads.inside t =
      true := (congrFun inside t).trans (Function.update_self _ _ _)
  refine engaged.own t (fun u hu => turn_others calculateHash lib c rfl hu) ?_ ?_
  · intro _ left
    cases entered.symm.trans left
  · intro hpc _
    rw [worker] at hpc
    obtain ⟨message, waiting⟩ := ready hpc
    obtain ⟨_, _, id, htext⟩ := joined.message t message (by rw [waiting]; rfl)
    have nonempty : message ≠ [] := htext ▸ SentLines.submitText_ne_nil c id _
    refine Or.inr ⟨message, 0, ?_, List.length_pos_iff.mpr nonempty⟩
    simp [nextWire, wireEvent, hpc, SendMessage.next, waiting]

/-- A worker that goes on leaves the socket and the send mutex behind. -/
theorem Engaged.work {s : PoolSession.State n} (engaged : Engaged s) (joined : Joined c s)
    {t : Fin n} {env : Env} (enabled : PoolSession.Enabled s (.thread (.work t env))) :
    Engaged (PoolSession.next calculateHash lib c s (.thread (.work t env))) := by
  have silent := joined.quiet enabled.2
  have left : (PoolSession.next calculateHash lib c s (.thread (.work t env))).threads.inside t =
      false := by
    have inside := @ShutDown.next_work_inside n calculateHash lib s.threads t env
    exact (congrFun inside t).trans (Function.update_self _ _ _)
  refine engaged.own t (fun u hu => turn_others calculateHash lib c rfl hu) ?_ ?_
  · intro _ _
    refine ⟨Function.update_self _ _ _, fun sending => ?_⟩
    obtain ⟨text, hmessage⟩ := Phase.message_of_isSending sending
    cases silent.symm.trans hmessage
  · intro _ inside
    cases left.symm.trans inside

theorem Engaged.send {s : PoolSession.State n} (engaged : Engaged s) (joined : Joined c s)
    {t : Fin n} {outcome : Int} (enabled : PoolSession.Enabled s (.send t outcome)) :
    Engaged (PoolSession.next calculateHash lib c s (.send t outcome)) := by
  obtain ⟨message, k, sending, more, _⟩ := enabled
  have hpc := (joined.message t message (by rw [sending]; rfl)).1
  have inside : s.threads.inside t = true := by
    by_contra outside
    have quiet := (engaged.outside t hpc (Bool.eq_false_of_not_eq_true outside)).2
    rw [sending] at quiet
    exact quiet trivial
  rcases next_send calculateHash lib c outcome sending with
    ⟨k', fits, phases, -, -, returned⟩ | ⟨accepted, phases, -, -, returned⟩
  · refine engaged.own t ?_ ?_ ?_
    · intro u hu
      rw [phases, returned, Function.update_of_ne hu, Function.update_of_ne hu]
      exact ⟨rfl, rfl, rfl, rfl⟩
    · intro _ left
      cases inside.symm.trans left
    · intro _ _
      rw [phases, Function.update_self]
      exact Or.inr ⟨message, k', rfl, fits⟩
  · refine engaged.own t ?_ ?_ ?_
    · intro u hu
      rw [phases, returned, Function.update_of_ne hu, Function.update_of_ne hu]
      exact ⟨rfl, rfl, rfl, rfl⟩
    · intro _ left
      cases inside.symm.trans left
    · intro _ _
      rw [returned, Function.update_self]
      exact Or.inl rfl

theorem Engaged.step {s : PoolSession.State n} {e : PoolSession.Event n} (engaged : Engaged s)
    (joined : Joined c s) (enabled : PoolSession.Enabled s e) :
    Engaged (PoolSession.next calculateHash lib c s e) := by
  cases e with
  | thread e =>
    by_cases turn : ∃ t, ShutDown.TurnOf t e
    · cases e with
      | enter t => exact engaged.enter joined enabled
      | work t env => exact engaged.work joined enabled
      | _ =>
        obtain ⟨_, none⟩ := turn
        exact none.elim
    · obtain ⟨workers, inside, returned, wire⟩ := turn_none calculateHash lib c (s := s) (e := e)
        fun t own => turn ⟨t, own⟩
      exact engaged.frame (congrArg Wire.phases wire) returned workers inside
  | submitShare t loaded =>
    obtain ⟨hpc, waits, idle⟩ := enabled
    have phases : (PoolSession.next calculateHash lib c s (.submitShare t loaded)).wire.phases =
        Function.update s.wire.phases t
          (.waiting (submitText c (loaded + 1) (s.share t))) := rfl
    refine engaged.own t ?_ ?_ ?_
    · intro u hu
      rw [phases, Function.update_of_ne hu]
      exact ⟨rfl, rfl, rfl, rfl⟩
    · intro _ _
      rw [phases, Function.update_self]
      exact ⟨waits, id⟩
    · intro _ inside
      rcases engaged.within t hpc inside with back | ⟨message, k, sending, _⟩
      · exact Or.inl back
      · rw [idle] at sending
        cases sending
  | send t outcome => exact engaged.send joined enabled
  | recv chunk => exact engaged.frame rfl rfl rfl rfl
  | write answers bytes => exact engaged.frame rfl rfl rfl rfl

/-- The steps that the call of `submit_share` in hand still has, if its send takes
the whole message at once. -/
def sendLeft (s : PoolSession.State n) (t : Fin n) : Nat :=
  if (s.worker t).pc = .submit ∧ s.returned t = false then
    match s.wire.phases t with
    | .idle => 3
    | .waiting _ => 2
    | .sending _ _ => 1
  else 0

theorem sendLeft_le (s : PoolSession.State n) (t : Fin n) : sendLeft s t ≤ 3 := by
  unfold sendLeft
  split
  · split <;> omega
  · exact Nat.zero_le _

theorem sendLeft_same {s s' : PoolSession.State n} {t : Fin n} (worker : s'.worker t = s.worker t)
    (returned : s'.returned t = s.returned t)
    (phase : s'.wire.phases t = s.wire.phases t) : sendLeft s' t = sendLeft s t := by
  simp only [sendLeft, worker, returned, phase]

/-- A turn of a worker can lead it into a call of `submit_share`. -/
theorem sendLeft_thread (calculateHash : Nat → List UInt8 → Hash) (lib : JsonLibrary)
    (c : Credentials) (s : PoolSession.State n) (e : MinerThreads.Event n) :
    ∑ t, sendLeft (PoolSession.next calculateHash lib c s (.thread e)) t ≤
      ∑ t, sendLeft s t + 3 := by
  by_cases turn : ∃ t, ShutDown.TurnOf t e
  · obtain ⟨t, own⟩ := turn
    have sums := sum_changed (t := t)
      (f := sendLeft (PoolSession.next calculateHash lib c s (.thread e))) (g := sendLeft s)
      fun u hu => by
        obtain ⟨worker, -, returned, phase⟩ := turn_others calculateHash lib c (s := s) own hu
        exact sendLeft_same worker returned phase
    have most := sendLeft_le (PoolSession.next calculateHash lib c s (.thread e)) t
    omega
  · obtain ⟨workers, -, returned, wire⟩ := turn_none calculateHash lib c (s := s) (e := e)
      fun t own => turn ⟨t, own⟩
    refine (Finset.sum_congr rfl fun t _ => ?_).trans_le (Nat.le_add_right _ _)
    exact sendLeft_same (congrFun workers t) (congrFun returned t)
      (congrFun (congrArg Wire.phases wire) t)

/-- A step of the socket for one worker leaves the threads where they are. -/
theorem sendLeft_wire {s s' : PoolSession.State n} (t : Fin n) (threads : s'.threads = s.threads)
    (others : ∀ u, u ≠ t → s'.returned u = s.returned u ∧ s'.wire.phases u = s.wire.phases u)
    (fewer : sendLeft s' t < sendLeft s t) :
    ∑ u, sendLeft s' u < ∑ u, sendLeft s u := by
  have sums := sum_changed (t := t) (f := sendLeft s') (g := sendLeft s) fun u hu => by
    obtain ⟨returned, phase⟩ := others u hu
    exact sendLeft_same (by rw [State.worker, threads]) returned phase
  omega

/-- The steps to the end of the session. A turn of a worker outweighs the call of
`submit_share` that it may lead to. -/
def sessionLeft (lib : JsonLibrary) (s : PoolSession.State n) : Nat :=
  4 * ShutDown.workLeft lib s.threads + ∑ t, sendLeft s t

/-- `send` takes something. -/
def Succeeds (_ : PoolSession.State n) (e : PoolSession.Event n) : Prop :=
  ∀ t outcome, e = .send t outcome → 0 < outcome

/-- On the way to the end of the session. -/
structure Closing (c : Credentials) (s : PoolSession.State n) : Prop where
  joined : Joined c s
  engaged : Engaged s
  halting : ShutDown.Halting s.threads

/-- What each step of the threads keeps, each step of the session keeps. -/
theorem kept_threads {P : MinerThreads.State n → Prop} {s : PoolSession.State n}
    {e : PoolSession.Event n}
    (keeps : ∀ e', MinerThreads.Enabled s.threads e' →
      P (MinerThreads.next calculateHash lib s.threads e'))
    (kept : P s.threads) (enabled : PoolSession.Enabled s e) :
    P (PoolSession.next calculateHash lib c s e).threads := by
  have refines := refines_threads calculateHash lib c n
  rw [next_threads, nextThreads]
  cases shown : threadEvent s e with
  | none => exact kept
  | some e' => exact keeps e' (refines.enabled s e e' trivial enabled shown)

theorem Closing.step {s : PoolSession.State n} {e : PoolSession.Event n} (closing : Closing c s)
    (enabled : PoolSession.Enabled s e) :
    Closing c (PoolSession.next calculateHash lib c s e) where
  joined := closing.joined.step enabled
  engaged := closing.engaged.step closing.joined enabled
  halting := kept_threads (fun _ enabled' => closing.halting.step enabled') closing.halting enabled

/-- A step that is enabled and brings the session nearer to its end. -/
def Proceeds (calculateHash : Nat → List UInt8 → Hash) (lib : JsonLibrary) (c : Credentials)
    (s : PoolSession.State n) (e : PoolSession.Event n) : Prop :=
  (PoolSession.Enabled s e ∧ Succeeds s e) ∧
    sessionLeft lib (PoolSession.next calculateHash lib c s e) < sessionLeft lib s

/-- A worker that waits for its message builds it. -/
theorem proceeds_submitShare {s : PoolSession.State n} {t : Fin n} (loaded : UInt32)
    (hpc : (s.worker t).pc = .submit) (waits : s.returned t = false)
    (idle : s.wire.phases t = .idle) :
    Proceeds calculateHash lib c s (.submitShare t loaded) := by
  refine ⟨⟨⟨hpc, waits, idle⟩, fun _ _ heq => by cases heq⟩, ?_⟩
  obtain ⟨q, hq⟩ : ∃ q, q = PoolSession.next calculateHash lib c s (.submitShare t loaded) :=
    ⟨_, rfl⟩
  have phases : q.wire.phases = Function.update s.wire.phases t
      (.waiting (submitText c (loaded + 1) (s.share t))) := hq ▸ rfl
  have returned : q.returned = s.returned := hq ▸ rfl
  have threads : q.threads = s.threads := hq ▸ rfl
  have fewer := sendLeft_wire t threads
    (fun u hu => ⟨by rw [returned], by rw [phases, Function.update_of_ne hu]⟩)
    (by simp [sendLeft, State.worker, threads, returned, phases, hpc, waits, idle])
  rw [← hq, sessionLeft, threads, sessionLeft]
  omega

/-- The socket takes the rest of a message, and the call of `submit_share` returns. -/
theorem proceeds_send {s : PoolSession.State n} {t : Fin n} {message : Text} {k : Nat}
    (hpc : (s.worker t).pc = .submit) (waits : s.returned t = false)
    (sending : s.wire.phases t = .sending message k) (more : k < message.length) :
    Proceeds calculateHash lib c s (.send t (message.length - k)) := by
  refine ⟨⟨⟨message, k, sending, more, le_refl _⟩, fun u outcome heq => ?_⟩, ?_⟩
  · cases heq
    omega
  obtain ⟨q, hq⟩ : ∃ q, q = PoolSession.next calculateHash lib c s
      (.send t (message.length - k)) := ⟨_, rfl⟩
  have wire : q.wire = afterSend s.wire t message k (message.length - k) := by
    simp only [hq, next_wire, nextWire, wireEvent, SendMessage.next, sending]
  have rest : k + (Int.toNat (message.length - k)) = message.length := by omega
  have positive : ¬ ((message.length : Int) - k ≤ 0) := by omega
  have phases : q.wire.phases = Function.update s.wire.phases t .idle := by
    simp only [wire, afterSend, if_neg positive, rest, lt_irrefl, if_false, finish]
  have returned : q.returned = Function.update s.returned t true := by
    have updated : q.returned = Function.update s.returned t (Phase.isIdle (q.wire.phases t)) := by
      rw [hq]
      rfl
    rw [updated, phases, Function.update_self]
    rfl
  have threads : q.threads = s.threads := by
    rw [hq]
    rfl
  have fewer := sendLeft_wire t threads
    (fun u hu => by rw [returned, phases, Function.update_of_ne hu, Function.update_of_ne hu]; simp)
    (by simp [sendLeft, returned, hpc, waits, sending])
  rw [← hq, sessionLeft, threads, sessionLeft]
  omega

/-- What the threads can do towards their end the session can do, or the socket
first brings a call of `submit_share` to its return. -/
theorem proceeds_session {s : PoolSession.State n} (closing : Closing c s)
    (unfinished : s.threads.main ≠ .finished) : ∃ e, Proceeds calculateHash lib c s e := by
  obtain ⟨e, enabled, fewer⟩ :=
    @ShutDown.proceeds n calculateHash lib _ closing.halting unfinished
  by_cases ready : Ready s e
  · refine ⟨.thread e, ⟨⟨enabled, ready⟩, fun _ _ heq => by cases heq⟩, ?_⟩
    have most := sendLeft_thread calculateHash lib c s e
    have threads : (PoolSession.next calculateHash lib c s (.thread e)).threads =
        MinerThreads.next calculateHash lib s.threads e := next_threads s (.thread e)
    rw [sessionLeft, threads, sessionLeft]
    omega
  · cases e with
    | enter t =>
      obtain ⟨hpc, unbuilt⟩ := Classical.not_imp.mp ready
      obtain ⟨waits, still⟩ := closing.engaged.outside t hpc enabled.1
      refine ⟨.submitShare t s.wire.messageId, proceeds_submitShare _ hpc waits ?_⟩
      cases hphase : s.wire.phases t with
      | idle => rfl
      | waiting message => exact absurd ⟨message, hphase⟩ unbuilt
      | sending message k =>
        rw [hphase] at still
        exact absurd trivial still
    | work t env =>
      obtain ⟨hpc, waits⟩ := Classical.not_imp.mp ready
      have inside := enabled.2 (by rw [hpc]; intro h; cases h)
      obtain ⟨message, k, sending, more⟩ := (closing.engaged.within t hpc inside).resolve_left waits
      exact ⟨_, proceeds_send hpc (Bool.eq_false_of_not_eq_true waits) sending more⟩
    | recv lines =>
      -- the receive thread's way to its end does not lead through more lines
      have hr : s.threads.receiver = .inRecv := enabled
      have same := ShutDown.turns_same calculateHash lib (e := .recv lines) enabled fun _ => id
      have received : (MinerThreads.next calculateHash lib s.threads (.recv lines)).receiver =
          .handling .outside [] lines := rfl
      have main : (MinerThreads.next calculateHash lib s.threads (.recv lines)).main =
          s.threads.main := rfl
      have reader : (MinerThreads.next calculateHash lib s.threads (.recv lines)).reader =
          s.threads.reader := rfl
      simp only [ShutDown.workLeft, same, received, main, reader, hr,
        ShutDown.receiverLeft] at fewer
      omega
    | _ => exact absurd trivial ready

/-- The session as it begins, with the workers spawned. -/
def Begun (c : Credentials) (s : PoolSession.State n) : Prop :=
  Start c s ∧ ShutDown.Spawned s.threads

theorem joined_run {h : List (PoolSession.State n × PoolSession.Event n)}
    {s : PoolSession.State n}
    (run : Run (PoolSession.machine calculateHash lib c n) (Start c) h s) :
    Joined c s ∧ Engaged s := by
  apply run.invariant (P := fun _ s => Joined c s ∧ Engaged s)
  · exact fun _ start => ⟨start.joined, Start.engaged start⟩
  · rintro h s e ⟨joined, engaged⟩ enabled
    exact ⟨joined.step enabled, engaged.step joined enabled⟩

theorem sound_session {h : List (PoolSession.State n × PoolSession.Event n)}
    {s : PoolSession.State n}
    (run : Run (PoolSession.machine calculateHash lib c n) (Begun c) h s) :
    ShutDown.Sound s.threads := by
  have threads : Run (MinerThreads.machine calculateHash lib n) ShutDown.Spawned (threadsOf h)
      s.threads :=
    (refines_threads calculateHash lib c n).run (fun s begun => ⟨trivial, begun.2⟩) run
  exact ShutDown.sound_run threads

/-- The main thread has stopped the miner and the client, and nothing is on its way
to the pool any more. -/
structure Ended (s : PoolSession.State n) : Prop where
  main : s.threads.main = .finished
  workers : ∀ t, (s.worker t).pc = .returned
  receiver : s.threads.receiver = .ended
  socket : s.wire.lock = none ∧ ∀ t, Phase.message (s.wire.phases t) = none

/-- From a state on the way to the end the session gets there while the socket takes
what is sent. -/
theorem Closing.leads {s : PoolSession.State n} (closing : Closing c s) :
    ∃ s', Leads ((PoolSession.machine calculateHash lib c n).restrict Succeeds) s s' ∧
      Ended s' := by
  obtain ⟨s', leads, closed, finished⟩ :=
    leads_of_measure (M := (PoolSession.machine calculateHash lib c n).restrict Succeeds)
      (I := Closing c) (G := fun s => s.threads.main = .finished) (sessionLeft lib)
      (fun s closing unfinished => by
        obtain ⟨e, enabled, fewer⟩ :=
          @proceeds_session n calculateHash lib c s closing unfinished
        exact ⟨e, enabled, closing.step enabled.1, fewer⟩) closing
  have sound := closed.halting.sound
  have workers : ∀ t, (s'.worker t).pc = .returned :=
    fun t => sound.joined t (by rw [finished]; exact t.isLt)
  have silent : ∀ t, Phase.message (s'.wire.phases t) = none := by
    refine fun t => closed.joined.quiet fun submit => ?_
    rw [workers t] at submit
    cases submit
  refine ⟨s', leads, finished, workers, sound.ended finished, ?_, silent⟩
  cases hlock : s'.wire.lock with
  | none => rfl
  | some t =>
    obtain ⟨text, hmessage⟩ := Phase.message_of_isSending (closed.joined.current t hlock)
    cases (silent t).symm.trans hmessage

/-- From every reachable state with no worker at the unchecked read the session can
be brought to its end: no mutex, no share in hand and no full socket keeps it from it. -/
theorem session_completes {h : List (PoolSession.State n × PoolSession.Event n)}
    {s : PoolSession.State n}
    (run : Run (PoolSession.machine calculateHash lib c n) (Begun c) h s)
    (pastRead : ∀ t, (s.worker t).pc ≠ .firstVm) :
    ∃ newer s', Run (PoolSession.machine calculateHash lib c n) (Begun c) (newer ++ h) s' ∧
      ShareDelivery.SendsSucceed newer ∧ Ended s' := by
  obtain ⟨joined, engaged⟩ := joined_run (run.mono fun _ begun => begun.1)
  have sound := sound_session run
  by_cases mining : s.threads.main = .mining
  · have enabled : PoolSession.Enabled s (.thread .stop) :=
      ⟨by simp only [MinerThreads.Enabled, StopEnabled, mining], trivial⟩
    obtain ⟨-, -, workers, -, running⟩ := ShutDown.next_stop calculateHash lib s.threads
    have closing : Closing c (PoolSession.next calculateHash lib c s (.thread .stop)) := by
      refine ⟨joined.step enabled, engaged.step joined enabled,
        @ShutDown.Sound.step n calculateHash lib _ _ sound enabled.1, ?_, ?_⟩
      · exact running.trans (by rw [mining]; simp)
      · exact fun t => congrArg Worker.pc (congrFun workers t) ▸ pastRead t
    obtain ⟨s', leads, ended⟩ := @Closing.leads n calculateHash lib c _ closing
    obtain ⟨newer, whole, succeed⟩ := run.extend_restrict (leads.head
      (M := (PoolSession.machine calculateHash lib c n).restrict Succeeds)
      (e := .thread .stop) ⟨enabled, fun _ _ heq => by cases heq⟩)
    exact ⟨newer, s', whole, succeed, ended⟩
  · obtain ⟨s', leads, ended⟩ := @Closing.leads n calculateHash lib c s
      ⟨joined, engaged, sound, sound.stopped mining, pastRead⟩
    obtain ⟨newer, whole, succeed⟩ := run.extend_restrict leads
    exact ⟨newer, s', whole, succeed, ended⟩

def lastWorker (t : Fin 2) : Worker :=
  if t = worker0 then
    { Worker.fresh .hashing with
      job := readyState.shared.currentJob
      target := 18446744073709551615
      i := 4999
      vm := 2 }
  else Worker.fresh .loopHead

/-- Worker 0 is about to make the last hash call of its batch. -/
def lastHash : PoolSession.State 2 :=
  { miningSession with
    threads := { miningSession.threads with miner := { readyState with workers := lastWorker } } }

theorem begun_lastHash : Begun sampleCredentials lastHash := by
  refine ⟨⟨fun _ => rfl, ⟨rfl, iff_of_false (by decide) id, trivial⟩,
    ⟨rfl, fun _ => rfl, rfl, rfl, rfl⟩, by decide, fun _ => rfl, rfl, ⟨rfl, rfl⟩,
    ⟨rfl, rfl, rfl⟩, rfl⟩, ⟨fun _ => rfl, trivial, by decide, rfl⟩⟩

/-- It finds a share, and a part of its message is out. -/
def halfSent : List (PoolSession.Event 2) :=
  [.thread (.work worker0 idle), .submitShare worker0 1, .thread (.enter worker0),
    .send worker0 5]

def halfSentRun : List (PoolSession.State 2 × PoolSession.Event 2) × PoolSession.State 2 :=
  replay (PoolSession.machine zeroHash goodLibrary sampleCredentials 2) halfSent ([], lastHash)

set_option maxRecDepth 4000 in
theorem halfSent_enabled :
    AllEnabled (PoolSession.machine zeroHash goodLibrary sampleCredentials 2) halfSent
      lastHash := by
  refine ⟨⟨⟨?_, ?_⟩, fun h => absurd h ?_⟩, ⟨?_, ?_, rfl⟩,
    ⟨⟨rfl, _, rfl, rfl⟩, fun _ => ⟨_, rfl⟩⟩, ⟨_, _, rfl, ?_, ?_⟩, trivial⟩
  all_goals decide +kernel

theorem halfSent_run :
    Run (PoolSession.machine zeroHash goodLibrary sampleCredentials 2) (Begun sampleCredentials)
      halfSentRun.1 halfSentRun.2 :=
  replay_run (.init begun_lastHash) _ halfSent_enabled

theorem session_completes_halfSent :
    ∃ newer s', Run (PoolSession.machine zeroHash goodLibrary sampleCredentials 2)
        (Begun sampleCredentials) (newer ++ halfSentRun.1) s' ∧
      ShareDelivery.SendsSucceed newer ∧ Ended s' :=
  session_completes halfSent_run (by decide +kernel)

/-- Once `stop_mining` has returned no share is in hand: `send` has accepted each
share that was found. -/
theorem stopped_delivers {h : List (PoolSession.State n × PoolSession.Event n)}
    {s : PoolSession.State n}
    (run : Run (PoolSession.machine calculateHash lib c n) (Begun c) h s)
    (stopped : ShutDown.Main.Stopped s.threads.main) (succeed : ShareDelivery.SendsSucceed h)
    (plain : PlainCredentials c)
    (ids : ∀ share ∈ found calculateHash h, JsonFields.Plain share.jobId) :
    (received s).Perm (found calculateHash h) := by
  obtain ⟨sent, _, read, balance⟩ :=
    completeLines_session (run.mono fun _ begun => begun.1) succeed plain ids
  have sound := sound_session run
  have none : ∑ t, inHand s t = 0 := by
    refine Finset.sum_eq_zero fun t _ => if_neg ?_
    rintro ⟨submit, _⟩
    cases (sound.returned stopped t).symm.trans submit
  rw [none, add_zero, ← read] at balance
  exact Multiset.coe_eq_coe.mp balance

/-- The main thread stops the miner, the message goes out, and both workers return. -/
def joinedAfter : List (PoolSession.Event 2) :=
  [.thread .stop, .send worker0 156, .thread (.work worker0 idle), .thread (.work worker0 idle),
    .thread (.work worker0 idle), .thread (.work worker0 idle), .thread (.work worker1 idle),
    .thread .stop, .thread .stop, .thread .stop]

def joinedRun : List (PoolSession.State 2 × PoolSession.Event 2) × PoolSession.State 2 :=
  replay (PoolSession.machine zeroHash goodLibrary sampleCredentials 2) joinedAfter halfSentRun

set_option maxRecDepth 4000 in
theorem joinedAfter_enabled :
    AllEnabled (PoolSession.machine zeroHash goodLibrary sampleCredentials 2) joinedAfter
      halfSentRun.2 := by
  refine ⟨⟨trivial, trivial⟩, ⟨_, _, rfl, ?_, ?_⟩, ⟨⟨?_, ?_⟩, fun _ => ?_⟩,
    ⟨⟨?_, ?_⟩, fun h => absurd h ?_⟩, ⟨⟨?_, ?_⟩, fun h => absurd h ?_⟩,
    ⟨⟨?_, ?_⟩, fun h => absurd h ?_⟩, ⟨⟨?_, ?_⟩, fun h => absurd h ?_⟩,
    ⟨fun t _ => ?_, trivial⟩, ⟨fun t _ => ?_, trivial⟩,
    ⟨fun t _ => ?_, trivial⟩, trivial⟩
  all_goals first | decide +kernel | (revert t; decide +kernel)

theorem joined_succeeds : ShareDelivery.SendsSucceed joinedRun.1 := by
  have none : ShareDelivery.SendsSucceed (n := 2) [] := fun _ hm => nomatch hm
  have half : ShareDelivery.SendsSucceed halfSentRun.1 := by
    refine ShareDelivery.SendsSucceed.replay ?_ none lastHash
    rintro e he t outcome rfl
    simp [halfSent] at he
    omega
  refine ShareDelivery.SendsSucceed.replay ?_ half halfSentRun.2
  rintro e he t outcome rfl
  simp [joinedAfter] at he
  omega

set_option maxRecDepth 4000 in
theorem stopped_delivers_joined :
    (received joinedRun.2).Perm (found zeroHash joinedRun.1) :=
  stopped_delivers (replay_run halfSent_run _ joinedAfter_enabled) trivial joined_succeeds
    ⟨by decide, by decide, by decide⟩ (by decide +kernel)

end SessionEnd
