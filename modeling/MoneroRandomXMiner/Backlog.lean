import MoneroRandomXMiner.PoolDialogue

/-!
# What the pool has written can be handled

As long as the client runs, the receive thread can get to the last line that the
pool has written: a job callback waits for two mutexes, and whoever holds one of
them gives it back by a step of its own. Then nothing is in transit, so the
counters are the pool's verdicts and the miner has stored all of the pool's jobs.
-/

namespace Backlog

open Histories Simulations HexText MiningBlob HandleMessage MinerMachine MinerThreads SendMessage
  StreamLines PoolSession PoolDialogue
open ReceiveLoop (newline extractLines messages Recv)

variable {n : Nat} {calculateHash : Nat → List UInt8 → Hash} {lib : JsonLibrary} {c : Credentials}

/-- The steps of the receive thread from where it is to its next call of `recv`,
without those for the lines that wait. -/
def placeLeft : MinerThreads.Receiver → Nat
  | .ended | .inRecv => 0
  | .atTest => 1
  | .handling stage pending _ => 2 + (4 * pending.length - ShutDown.stepsDone stage)

def workerHolds (s : MinerThreads.State n) : Nat :=
  match s.owner .minerJob with
  | some (.worker _) => 1
  | _ => 0

/-- The steps to the next call of `recv`, with those of the threads in the way. -/
def threadsLeft (lib : JsonLibrary) (s : MinerThreads.State n) : Nat :=
  ShutDown.linesLeft lib (waitingLines s.receiver) + placeLeft s.receiver +
    (if s.reader = .reading then 1 else 0) + workerHolds s

/-- The client runs, and its receive thread has not left its loop. -/
structure Open (s : MinerThreads.State n) : Prop where
  tracked : Tracked s
  grounded : CoarseView.Receiver.Grounded s.receiver
  live : s.receiver ≠ .ended
  running : s.clientRunning = true

/-- The steps of the receive thread with what it has received, and those that give
back a mutex it waits for. -/
def Clears (s : MinerThreads.State n) : MinerThreads.Event n → Prop
  | .enter _ | .recv _ | .timeOut | .connectionEnds | .stop => False
  | .work t _ => (s.miner.workers t).pc = .takeJob
  | _ => True

/-- A step that clears something out of the way of the receive thread. -/
def Proceeds (calculateHash : Nat → List UInt8 → Hash) (lib : JsonLibrary)
    (s : MinerThreads.State n) (e : MinerThreads.Event n) : Prop :=
  MinerThreads.Enabled s e ∧ Clears s e ∧
    (MinerThreads.next calculateHash lib s e).receiver ≠ .ended ∧
    threadsLeft lib (MinerThreads.next calculateHash lib s e) < threadsLeft lib s

theorem linesLeft_append (lib : JsonLibrary) (lines more : List Text) :
    ShutDown.linesLeft lib (lines ++ more) =
      ShutDown.linesLeft lib lines + ShutDown.linesLeft lib more := by
  induction lines with
  | nil => simp [ShutDown.linesLeft]
  | cons line lines ih =>
    rw [List.cons_append, ShutDown.linesLeft, ShutDown.linesLeft, ih]
    omega

/-- Only the reader keeps the receive thread from the client's mutex. -/
theorem proceeds_job {s : MinerThreads.State n} (opened : Open s) {job : MiningJob}
    {pending : List Callback} {lines : List Text}
    (hr : s.receiver = .handling .outside (.job job :: pending) lines) :
    ∃ e, Proceeds calculateHash lib s e := by
  cases howner : s.owner .clientJob with
  | none =>
    have enabled : MinerThreads.Enabled s .lockClient := ⟨howner, job, pending, lines, hr⟩
    refine ⟨.lockClient, enabled, trivial, ?_, ?_⟩
    · simp [MinerThreads.next, hr, Receiver.head, acquire, receive]
    · simp [threadsLeft, MinerThreads.next, hr, Receiver.head, acquire, receive, placeLeft,
        waitingLines, workerHolds, ShutDown.stepsDone]
  | some u =>
    have holds := opened.tracked .clientJob u howner
    cases u with
    | main => cases holds
    | worker v =>
      have place := (held_worker.mp holds).2
      cases hpc : (s.miner.workers v).pc <;> simp [hpc, lockOf] at place
    | receiver => simp [held, hr] at holds
    | reader =>
      have reading : s.reader = .reading := by
        by_contra idle
        simp [held, idle] at holds
      refine ⟨.answer, reading, trivial, ?_, ?_⟩
      · exact fun ended => opened.live ended
      · simp [threadsLeft, MinerThreads.next, release, reading, workerHolds]

/-- Only a worker that copies the job keeps the receive thread from the miner's mutex. -/
theorem proceeds_client {s : MinerThreads.State n} (opened : Open s) {pending : List Callback}
    {lines : List Text} (hr : s.receiver = .handling .client pending lines) :
    ∃ e, Proceeds calculateHash lib s e := by
  have more : pending ≠ [] := by
    have grounded := opened.grounded
    rw [hr] at grounded
    exact grounded
  obtain ⟨call, rest, rfl⟩ := List.exists_cons_of_ne_nil more
  cases howner : s.owner .minerJob with
  | none =>
    refine ⟨.lockMiner, ⟨howner, _, lines, hr⟩, trivial, ?_, ?_⟩
    · simp [MinerThreads.next, receive, hr, acquire]
    · simp only [threadsLeft, MinerThreads.next, receive, hr, acquire, placeLeft, waitingLines,
        workerHolds, howner, Function.update_self, ShutDown.stepsDone, List.length_cons]
      omega
  | some u =>
    have holds := opened.tracked .minerJob u howner
    cases u with
    | main => cases holds
    | worker v =>
      obtain ⟨inside, hlock⟩ := held_worker.mp holds
      have hpc : (s.miner.workers v).pc = .takeJob := by
        cases hpc : (s.miner.workers v).pc <;> simp [hpc, lockOf] at hlock ⊢
      have enabled : MinerThreads.Enabled s (.work v idle) := by
        refine ⟨⟨?_, ?_, ?_⟩, fun _ => inside⟩ <;> simp [hpc]
      refine ⟨.work v idle, enabled, hpc, ?_, ?_⟩
      · simp [MinerThreads.next, hpc, lockOf, release, hr]
      · simp [threadsLeft, MinerThreads.next, hpc, lockOf, release, workerHolds, howner]
    | receiver => simp [held, hr] at holds
    | reader =>
      simp only [held] at holds
      split at holds
      · cases List.mem_singleton.mp holds
      · cases holds

/-- Until the receive thread is back in `recv` something can be cleared. -/
theorem proceeds {s : MinerThreads.State n} (opened : Open s) (busy : s.receiver ≠ .inRecv) :
    ∃ e, Proceeds calculateHash lib s e := by
  have grounded := opened.grounded
  cases hr : s.receiver with
  | ended => exact absurd hr opened.live
  | inRecv => exact absurd hr busy
  | atTest =>
    refine ⟨.test, hr, trivial, ?_, ?_⟩
    · simp [MinerThreads.next, receive, opened.running]
    · simp [threadsLeft, MinerThreads.next, receive, hr, opened.running, placeLeft, waitingLines,
        workerHolds]
  | handling stage pending lines =>
    rw [hr] at grounded
    cases stage with
    | outside =>
      cases pending with
      | nil =>
        refine ⟨.nextLine, ⟨lines, hr⟩, trivial, ?_, ?_⟩
        · cases lines <;> simp [MinerThreads.next, receive, hr]
        · cases lines with
          | nil =>
            simp [threadsLeft, MinerThreads.next, receive, hr, placeLeft, waitingLines, workerHolds]
          | cons line lines =>
            simp only [threadsLeft, MinerThreads.next, receive, hr, placeLeft, waitingLines,
              workerHolds, ShutDown.linesLeft, ShutDown.stepsDone, List.length_nil]
            omega
      | cons call rest =>
        cases call with
        | share accepted response =>
          refine ⟨.shareResult, ⟨_, _, _, _, hr⟩, trivial, ?_, ?_⟩
          · cases accepted <;> simp [MinerThreads.next, hr, Receiver.head, receive]
          · cases accepted <;>
              simp [threadsLeft, MinerThreads.next, hr, Receiver.head, receive, placeLeft,
                waitingLines, workerHolds, ShutDown.stepsDone]
        | job job => exact proceeds_job opened hr
    | client => exact proceeds_client opened hr
    | both =>
      obtain ⟨call, rest, rfl⟩ := List.exists_cons_of_ne_nil grounded
      refine ⟨.storeJob, ⟨_, lines, hr⟩, trivial, ?_, ?_⟩
      · simp [MinerThreads.next, receive, hr, release]
      · simp only [threadsLeft, MinerThreads.next, receive, hr, release, placeLeft, waitingLines,
          workerHolds, Function.update_self, ShutDown.stepsDone, List.length_cons]
        omega
    | raising =>
      obtain ⟨call, rest, rfl⟩ := List.exists_cons_of_ne_nil grounded
      refine ⟨.raiseNewJob, ⟨_, lines, hr⟩, trivial, ?_, ?_⟩
      · simp [MinerThreads.next, receive, hr, release]
      · simp only [threadsLeft, MinerThreads.next, receive, hr, release, placeLeft, waitingLines,
          workerHolds, ShutDown.stepsDone, List.length_cons]
        simp
        omega

/-- Nothing is on its way from the pool once these steps are done. A byte takes one
step to receive, and its chunk two more to be left behind. -/
def backlog (lib : JsonLibrary) (s : PoolSession.State n) : Nat :=
  3 * (s.fromPool.length - s.arrived) + ShutDown.linesLeft lib (messages (undelivered s)) +
    threadsLeft lib s.threads

/-- The receive thread waits in `recv`, and there is nothing to receive. -/
def Caught (s : PoolSession.State n) : Prop :=
  s.threads.receiver = .inRecv ∧ s.fromPool.length ≤ s.arrived

/-- The pool writes nothing. -/
def Silent (_ : PoolSession.State n) : PoolSession.Event n → Prop
  | .write _ _ => False
  | _ => True

theorem clears_ready {s : PoolSession.State n} {e : MinerThreads.Event n}
    (clears : Clears s.threads e) : Ready s e := by
  cases e with
  | enter t => exact clears.elim
  | recv lines => exact clears.elim
  | work t env =>
    intro hpc
    have copies : (s.worker t).pc = .takeJob := clears
    rw [copies] at hpc
    cases hpc
  | _ => trivial

/-- A received byte is a waiting line less, or is kept for one. -/
theorem backlog_recv {s : PoolSession.State n} {chunk : Text} (hr : s.threads.receiver = .inRecv)
    (piece : chunk <+: s.fromPool.drop s.arrived) (nonempty : chunk ≠ []) :
    backlog lib (PoolSession.next calculateHash lib c s (.recv chunk)) < backlog lib s := by
  have split := undelivered_recv piece
  obtain ⟨receiver, left⟩ := next_recv calculateHash lib c s chunk
  have threads : threadsLeft lib (PoolSession.next calculateHash lib c s (.recv chunk)).threads =
      ShutDown.linesLeft lib (messages (s.buffer ++ chunk)) + 2 +
        (if s.threads.reader = .reading then 1 else 0) + workerHolds s.threads := by
    rw [threadsLeft, receiver]
    rfl
  have before : threadsLeft lib s.threads =
      (if s.threads.reader = .reading then 1 else 0) + workerHolds s.threads := by
    simp [threadsLeft, hr, waitingLines, placeLeft, ShutDown.linesLeft]
  have bytes : (PoolSession.next calculateHash lib c s (.recv chunk)).fromPool.length -
      (PoolSession.next calculateHash lib c s (.recv chunk)).arrived =
      s.fromPool.length - (s.arrived + chunk.length) := rfl
  have fits := piece.length_le
  have some := List.length_pos_iff.mpr nonempty
  rw [List.length_drop] at fits
  rw [backlog, backlog, bytes, threads, before, left, split,
    messages_append (s.buffer ++ chunk), linesLeft_append]
  omega

/-- While there is something left of the pool's messages a step lowers the backlog. -/
theorem proceeds_session {s : PoolSession.State n} (opened : Open s.threads)
    (behind : ¬ Caught s) :
    ∃ e, (PoolSession.Enabled s e ∧ Silent s e) ∧
      Open (PoolSession.next calculateHash lib c s e).threads ∧
      backlog lib (PoolSession.next calculateHash lib c s e) < backlog lib s := by
  by_cases hr : s.threads.receiver = .inRecv
  · have more : s.arrived < s.fromPool.length := Nat.lt_of_not_le fun all => behind ⟨hr, all⟩
    obtain ⟨chunk, hchunk⟩ : ∃ chunk, chunk = (s.fromPool.drop s.arrived).take 1 := ⟨_, rfl⟩
    have piece : chunk <+: s.fromPool.drop s.arrived := hchunk ▸ List.take_prefix _ _
    have length : chunk.length = 1 := by
      rw [hchunk, List.length_take, List.length_drop]
      omega
    have nonempty : chunk ≠ [] := by
      rintro rfl
      cases length
    have enabled : PoolSession.Enabled s (.recv chunk) :=
      ⟨hr, ⟨nonempty, by omega⟩, piece⟩
    refine ⟨.recv chunk, ⟨enabled, trivial⟩, ⟨?_, trivial, ?_, opened.running⟩,
      backlog_recv hr piece nonempty⟩
    · have received : MinerThreads.Enabled s.threads
          (.recv (extractLines (s.buffer ++ chunk) []).2) := hr
      exact @tracked_step n calculateHash lib _ _ opened.tracked received
    · exact fun ended => nomatch ended
  · obtain ⟨e, enabled, clears, live, fewer⟩ := @proceeds n calculateHash lib _ opened hr
    have threads : (PoolSession.next calculateHash lib c s (.thread e)).threads =
        MinerThreads.next calculateHash lib s.threads e := next_threads s (.thread e)
    have notStop : e ≠ .stop := by
      rintro rfl
      exact clears
    have same : (PoolSession.next calculateHash lib c s (.thread e)).fromPool = s.fromPool ∧
        (PoolSession.next calculateHash lib c s (.thread e)).buffer = s.buffer ∧
        (PoolSession.next calculateHash lib c s (.thread e)).arrived = s.arrived := by
      cases e <;> exact ⟨rfl, rfl, rfl⟩
    obtain ⟨fromPool, buffer, arrived⟩ := same
    refine ⟨.thread e, ⟨⟨enabled, clears_ready clears⟩, trivial⟩, ?_, ?_⟩
    · rw [threads]
      refine ⟨tracked_step opened.tracked enabled,
        (CoarseView.receiver_next calculateHash lib enabled opened.grounded).2, live, ?_⟩
      rw [(ShutDown.next_main calculateHash lib notStop).2.1]
      exact opened.running
    · simp only [backlog, undelivered, threads, fromPool, buffer, arrived]
      omega

/-- What is kept from one call of `recv` to the next has no end of a line. -/
theorem buffer_run {h : List (PoolSession.State n × PoolSession.Event n)} {s : PoolSession.State n}
    (run : Run (PoolSession.machine calculateHash lib c n) (Start c) h s) :
    newline ∉ s.buffer := by
  apply run.invariant (P := fun _ s => newline ∉ s.buffer)
  · intro s start
    rw [start.stream.2.1]
    exact List.not_mem_nil
  · intro _ s e kept _
    cases e with
    | recv chunk =>
      have taken : ((PoolSession.machine calculateHash lib c n).next s (.recv chunk)).buffer =
          (extractLines (s.buffer ++ chunk) []).1 := rfl
      rw [taken, ReceiveLoop.extractLines_eq]
      exact not_mem_unfinished newline _
    | thread e => cases e <;> exact kept
    | _ => exact kept

theorem fromPool_leads {s s' : PoolSession.State n}
    (leads : Leads ((PoolSession.machine calculateHash lib c n).restrict Silent) s s') :
    s'.fromPool = s.fromPool := by
  induction leads with
  | refl => rfl
  | tail _ last ih =>
    obtain ⟨e, ⟨_, silent⟩, rfl⟩ := last
    rw [← ih]
    cases e with
    | thread e => cases e <;> rfl
    | write answers bytes => exact silent.elim
    | _ => rfl

/-- Every line of the pool has been handled: the counters are the verdicts in them
modulo `2 ^ 64`, and the jobs stored are the jobs in them. -/
structure CaughtUp (lib : JsonLibrary) (h : List (PoolSession.State n × PoolSession.Event n))
    (s : PoolSession.State n) : Prop where
  handled : PoolDialogue.handled h = written s
  counted : ∀ b, counter s.threads b = .ofNat (verdicts lib b (written s))
  stored : JobOrder.storedJobs (threadsOf h) = jobsIn lib (written s)

theorem Caught.caughtUp {start s : PoolSession.State n}
    {h : List (PoolSession.State n × PoolSession.Event n)} (initial : Start c start)
    (run : Run (PoolSession.machine calculateHash lib c n) (· = start) h s) (caught : Caught s) :
    CaughtUp lib h s := by
  obtain ⟨hr, all⟩ := caught
  have begun : Run (PoolSession.machine calculateHash lib c n) (Start c) h s :=
    run.mono fun r (same : r = start) => same ▸ initial
  have nothing : messages (undelivered s) = [] := by
    rw [undelivered, List.drop_eq_nil_of_le all, List.append_nil, ReceiveLoop.messages,
      completeLines_of_not_mem (buffer_run begun)]
    rfl
  have waiting : waitingLines s.threads.receiver = [] := by
    rw [hr]
    rfl
  have calls : pendingCalls s.threads.receiver = [] := by
    rw [hr]
    rfl
  have awaiting : JobOrder.awaiting s.threads = [] := by
    rw [JobOrder.awaiting, hr]
  have lines : PoolDialogue.handled h = written s := by
    have inOrder := (linesInOrder_run begun).lines
    rwa [waiting, nothing, List.append_nil, List.append_nil] at inOrder
  refine ⟨lines, fun b => ?_, ?_⟩
  · have tallied := (tallied_run begun).counted b
    rw [lines, calls, shareCalls_nil] at tallied
    exact (UInt64.add_zero _).symm.trans tallied
  · have stored := stored_session initial run
    have rest : jobsIn lib ([] ++ []) = [] := rfl
    rwa [awaiting, waiting, nothing, rest, List.append_nil, List.append_nil] at stored

/-- From every reachable state whose receive thread still runs, the session can go on,
without a word from the pool, until every line that the pool has written is handled. -/
theorem session_catches_up {start s : PoolSession.State n}
    {h : List (PoolSession.State n × PoolSession.Event n)} (initial : Start c start)
    (run : Run (PoolSession.machine calculateHash lib c n) (· = start) h s)
    (live : s.threads.receiver ≠ .ended) (running : s.threads.clientRunning = true) :
    ∃ newer s', Run (PoolSession.machine calculateHash lib c n) (· = start) (newer ++ h) s' ∧
      s'.fromPool = s.fromPool ∧ CaughtUp lib (newer ++ h) s' := by
  have parts := session_refines (run.mono fun r (same : r = start) => same ▸ initial)
  have kept : Tracked s.threads ∧ CoarseView.Coherent s.threads := by
    apply parts.threads.invariant (P := fun _ g => Tracked g ∧ CoarseView.Coherent g)
    · rintro g ⟨unlocked, coherent⟩
      refine ⟨fun l u holds => ?_, coherent⟩
      rw [unlocked l] at holds
      cases holds
    · rintro _ g e ⟨tracked, coherent⟩ enabled
      exact ⟨tracked_step tracked enabled, coherent.step enabled⟩
  have opened : Open s.threads := ⟨kept.1, kept.2.grounded, live, running⟩
  obtain ⟨s', leads, _, caught⟩ :=
    leads_of_measure (M := (PoolSession.machine calculateHash lib c n).restrict Silent)
      (I := fun s => Open s.threads) (G := Caught) (backlog lib)
      (fun _ opened behind => proceeds_session opened behind) opened
  obtain ⟨newer, whole, _⟩ := run.extend_restrict leads
  exact ⟨newer, s', whole, fromPool_leads leads, caught.caughtUp initial whole⟩

/-- The pool has accepted the share and written two jobs, and nothing is received yet. -/
theorem session_catches_up_dialogue :
    let p := replay (PoolSession.machine zeroHash goodLibrary sampleCredentials 2)
      (dialogue.take 2) oneShareRun
    ∃ newer s', Run (PoolSession.machine zeroHash goodLibrary sampleCredentials 2)
        (· = miningSession) (newer ++ p.1) s' ∧
      s'.fromPool = p.2.fromPool ∧ CaughtUp goodLibrary (newer ++ p.1) s' := by
  intro p
  have enabled : AllEnabled (PoolSession.machine zeroHash goodLibrary sampleCredentials 2)
      (dialogue.take 2 ++ dialogue.drop 2) oneShareRun.2 := dialogue_enabled
  have run := replay_run miningSession_oneShare _ (allEnabled_append enabled)
  exact session_catches_up start_miningSession run (fun ended => nomatch ended) rfl

end Backlog
