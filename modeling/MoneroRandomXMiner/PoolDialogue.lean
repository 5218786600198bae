import MoneroRandomXMiner.ShareDelivery
import Mathlib.Order.Interval.Finset.Nat

/-!
# What the pool says

The lines that the pool writes are handled in their order, each once, whatever
the chunks they are written and received in. So the jobs that the workers get are
those of the pool's messages, and the counters of the miner are the verdicts in
them. If the pool gives one verdict at most for each share, its answers, the
counters and the shares found balance in every reachable state.
-/

namespace PoolDialogue

open Histories Simulations HexText MiningBlob HandleMessage MinerMachine MinerThreads SendMessage
  StreamLines PoolSession ShareDelivery
open ReceiveLoop (newline extractLines messages Recv)

variable {n : Nat} {calculateHash : Nat → List UInt8 → Hash} {lib : JsonLibrary} {c : Credentials}

/-- The lines that the pool has written, oldest first. -/
def written (s : PoolSession.State n) : List Text := messages s.fromPool

def begunBy (s : MinerThreads.State n) : MinerThreads.Event n → List Text
  | .nextLine =>
    match s.receiver with
    | .handling _ _ (line :: _) => [line]
    | _ => []
  | _ => []

/-- The lines that `handle_message` has been called with, oldest first. -/
def handled : List (PoolSession.State n × PoolSession.Event n) → List Text
  | [] => []
  | (s, .thread e) :: h => handled h ++ begunBy s.threads e
  | _ :: h => handled h

/-- The received lines that wait for their call of `handle_message`. -/
def waitingLines : MinerThreads.Receiver → List Text
  | .handling _ _ lines => lines
  | _ => []

/-- What the pool has written behind the last line that was taken apart. -/
def undelivered (s : PoolSession.State n) : Text := s.buffer ++ s.fromPool.drop s.arrived

/-- The lines of the pool are handled, waiting or on their way, in this order, and
the line that it has begun is on its way. -/
structure LinesInOrder (h : List (PoolSession.State n × PoolSession.Event n))
    (s : PoolSession.State n) : Prop where
  lines : handled h ++ (waitingLines s.threads.receiver ++ messages (undelivered s)) = written s
  tail : unfinished newline (undelivered s) = unfinished newline s.fromPool
  within : s.arrived ≤ s.fromPool.length

/-- A line waits until `handle_message` is called with it. -/
theorem waitingLines_next (calculateHash : Nat → List UInt8 → Hash) (lib : JsonLibrary)
    {s : MinerThreads.State n} {e : MinerThreads.Event n}
    (enabled : MinerThreads.Enabled s e) (other : ∀ lines, e ≠ .recv lines) :
    waitingLines s.receiver =
      begunBy s e ++ waitingLines (MinerThreads.next calculateHash lib s e).receiver := by
  cases e with
  | recv lines => exact absurd rfl (other lines)
  | enter t =>
    cases hlock : lockOf (s.miner.workers t).pc <;>
      simp [begunBy, MinerThreads.next, hlock, acquire]
  | work t env =>
    cases hlock : lockOf (s.miner.workers t).pc <;>
      simp [begunBy, MinerThreads.next, hlock, release]
  | test =>
    have hr : s.receiver = .atTest := enabled
    cases hrun : s.clientRunning <;>
      simp [begunBy, MinerThreads.next, receive, hr, hrun, waitingLines]
  | timeOut =>
    have hr : s.receiver = .inRecv := enabled
    simp [begunBy, MinerThreads.next, receive, hr, waitingLines]
  | connectionEnds =>
    have hr : s.receiver = .inRecv := enabled
    simp [begunBy, MinerThreads.next, receive, hr, waitingLines]
  | nextLine =>
    obtain ⟨lines, hr⟩ := enabled
    cases lines <;> simp [begunBy, MinerThreads.next, receive, hr, waitingLines]
  | shareResult =>
    obtain ⟨accepted, response, pending, lines, hr⟩ := enabled
    cases accepted <;>
      simp [begunBy, MinerThreads.next, receive, hr, MinerThreads.Receiver.head, waitingLines]
  | lockClient =>
    obtain ⟨_, job, pending, lines, hr⟩ := enabled
    simp [begunBy, MinerThreads.next, receive, hr, MinerThreads.Receiver.head, acquire,
      waitingLines]
  | lockMiner =>
    obtain ⟨_, pending, lines, hr⟩ := enabled
    simp [begunBy, MinerThreads.next, receive, hr, acquire, waitingLines]
  | storeJob =>
    obtain ⟨pending, lines, hr⟩ := enabled
    simp [begunBy, MinerThreads.next, receive, hr, release, waitingLines]
  | raiseNewJob =>
    obtain ⟨pending, lines, hr⟩ := enabled
    cases pending <;> simp [begunBy, MinerThreads.next, receive, hr, release, waitingLines]
  | call => simp [begunBy, MinerThreads.next]
  | lockReader => simp [begunBy, MinerThreads.next, acquire]
  | answer => simp [begunBy, MinerThreads.next, release]
  | stop => simp [begunBy, MinerThreads.next]

theorem messages_append (stream more : Text) :
    messages (stream ++ more) =
      messages stream ++ messages (unfinished newline stream ++ more) := by
  rw [ReceiveLoop.messages, (lines_append newline stream more).1, List.filter_append]
  rfl

/-- A chunk is taken from what the pool has written. -/
theorem undelivered_recv {s : PoolSession.State n} {chunk : Text}
    (piece : chunk <+: s.fromPool.drop s.arrived) :
    undelivered s = (s.buffer ++ chunk) ++ s.fromPool.drop (s.arrived + chunk.length) := by
  obtain ⟨rest, hrest⟩ := piece
  have tail : s.fromPool.drop (s.arrived + chunk.length) = rest := by
    rw [← List.drop_drop, ← hrest, List.drop_left]
  rw [undelivered, ← hrest, tail, List.append_assoc]

/-- The receive thread takes the whole lines, and keeps the rest. -/
theorem next_recv (calculateHash : Nat → List UInt8 → Hash) (lib : JsonLibrary)
    (c : Credentials) (s : PoolSession.State n) (chunk : Text) :
    (PoolSession.next calculateHash lib c s (.recv chunk)).threads.receiver =
        .handling .outside [] (messages (s.buffer ++ chunk)) ∧
      undelivered (PoolSession.next calculateHash lib c s (.recv chunk)) =
        unfinished newline (s.buffer ++ chunk) ++
          s.fromPool.drop (s.arrived + chunk.length) := by
  have extracted := ReceiveLoop.extractLines_eq (s.buffer ++ chunk) []
  have received : (PoolSession.next calculateHash lib c s (.recv chunk)).threads.receiver =
      .handling .outside [] (extractLines (s.buffer ++ chunk) []).2 := rfl
  have parts : undelivered (PoolSession.next calculateHash lib c s (.recv chunk)) =
      (extractLines (s.buffer ++ chunk) []).1 ++ s.fromPool.drop (s.arrived + chunk.length) := rfl
  rw [received, parts, extracted]
  exact ⟨rfl, rfl⟩

theorem LinesInOrder.recv {h : List (PoolSession.State n × PoolSession.Event n)}
    {s : PoolSession.State n} {chunk : Text} (inOrder : LinesInOrder h s)
    (enabled : PoolSession.Enabled s (.recv chunk)) :
    LinesInOrder ((s, .recv chunk) :: h)
      (PoolSession.next calculateHash lib c s (.recv chunk)) := by
  obtain ⟨hr, _, piece⟩ := enabled
  obtain ⟨lines, tail, within⟩ := inOrder
  have split := undelivered_recv piece
  obtain ⟨receiver, left⟩ := next_recv calculateHash lib c s chunk
  constructor
  · have before : handled h ++ messages (undelivered s) = written s := by
      simpa only [hr, waitingLines, List.nil_append] using lines
    rw [receiver, left, waitingLines, ← messages_append, ← split]
    exact before
  · rw [left, ← (lines_append newline _ _).2, ← split]
    exact tail
  · have fits := piece.length_le
    rw [List.length_drop] at fits
    show s.arrived + chunk.length ≤ s.fromPool.length
    omega

/-- What the pool writes comes behind everything else. -/
theorem LinesInOrder.write {h : List (PoolSession.State n × PoolSession.Event n)}
    {s : PoolSession.State n} {answers : Option Nat} {bytes : Text} (inOrder : LinesInOrder h s) :
    LinesInOrder ((s, .write answers bytes) :: h)
      (PoolSession.next calculateHash lib c s (.write answers bytes)) := by
  obtain ⟨lines, tail, within⟩ := inOrder
  have longer : undelivered (PoolSession.next calculateHash lib c s (.write answers bytes)) =
      undelivered s ++ bytes := by
    change s.buffer ++ (s.fromPool ++ bytes).drop s.arrived = _
    rw [List.drop_append_of_le_length within, undelivered, List.append_assoc]
  constructor
  · change handled h ++ (waitingLines s.threads.receiver ++ _) = messages (s.fromPool ++ bytes)
    rw [longer, messages_append, messages_append s.fromPool, tail, ← List.append_assoc,
      ← List.append_assoc, List.append_assoc (handled h), lines]
    rfl
  · change unfinished newline _ = unfinished newline (s.fromPool ++ bytes)
    rw [longer, (lines_append newline _ _).2, tail, ← (lines_append newline _ _).2]
  · change s.arrived ≤ (s.fromPool ++ bytes).length
    rw [List.length_append]
    exact within.trans (Nat.le_add_right _ _)

theorem LinesInOrder.step {h : List (PoolSession.State n × PoolSession.Event n)}
    {s : PoolSession.State n} {e : PoolSession.Event n} (inOrder : LinesInOrder h s)
    (enabled : PoolSession.Enabled s e) :
    LinesInOrder ((s, e) :: h) (PoolSession.next calculateHash lib c s e) := by
  cases e with
  | thread e =>
    have fromSocket : ∀ lines, e ≠ .recv lines := by
      rintro lines rfl
      exact enabled.2
    obtain ⟨lines, tail, within⟩ := inOrder
    have waiting := waitingLines_next calculateHash lib enabled.1 fromSocket
    have same : (PoolSession.next calculateHash lib c s (.thread e)).fromPool = s.fromPool ∧
        (PoolSession.next calculateHash lib c s (.thread e)).buffer = s.buffer ∧
        (PoolSession.next calculateHash lib c s (.thread e)).arrived = s.arrived := by
      cases e <;> exact ⟨rfl, rfl, rfl⟩
    obtain ⟨fromPool, buffer, arrived⟩ := same
    have left : undelivered (PoolSession.next calculateHash lib c s (.thread e)) =
        undelivered s := by
      rw [undelivered, fromPool, buffer, arrived]
      rfl
    refine ⟨?_, by rw [left, fromPool]; exact tail, by rw [fromPool, arrived]; exact within⟩
    have unwritten : written (PoolSession.next calculateHash lib c s (.thread e)) = written s := by
      rw [written, fromPool]
      rfl
    have begun : handled ((s, .thread e) :: h) = handled h ++ begunBy s.threads e := rfl
    have threads : (PoolSession.next calculateHash lib c s (.thread e)).threads =
        MinerThreads.next calculateHash lib s.threads e := next_threads s (.thread e)
    rw [left, unwritten, begun, threads, ← lines, waiting, List.append_assoc, List.append_assoc]
  | recv chunk => exact inOrder.recv enabled
  | write answers bytes => exact inOrder.write
  | submitShare t loaded => exact ⟨inOrder.lines, inOrder.tail, inOrder.within⟩
  | send t outcome => exact ⟨inOrder.lines, inOrder.tail, inOrder.within⟩

theorem linesInOrder_start {s : PoolSession.State n} (start : Start c s) : LinesInOrder [] s := by
  obtain ⟨fromPool, buffer, arrived⟩ := start.stream
  have nothing : undelivered s = [] := by rw [undelivered, fromPool, buffer, arrived]; rfl
  refine ⟨?_, ?_, ?_⟩
  · rw [nothing, start.receiver, written, fromPool]
    rfl
  · rw [nothing, fromPool]
  · rw [arrived]
    exact Nat.zero_le _

theorem linesInOrder_run {h : List (PoolSession.State n × PoolSession.Event n)}
    {s : PoolSession.State n}
    (run : Run (PoolSession.machine calculateHash lib c n) (Start c) h s) : LinesInOrder h s := by
  apply run.invariant (P := fun h s => LinesInOrder h s)
  · exact fun _ start => linesInOrder_start start
  · exact fun _ _ _ inOrder enabled => inOrder.step enabled

/-- The calls of the share callback with this verdict. -/
def shareCalls (b : Bool) (cs : List Callback) : Nat :=
  cs.countP fun
    | .share accepted _ => accepted == b
    | .job _ => false

/-- The lines with this verdict. -/
def verdicts (lib : JsonLibrary) (b : Bool) (lines : List Text) : Nat :=
  lines.countP fun line => messageVerdict lib line == some b

/-- `m_accepted_shares` and `m_rejected_shares`. -/
def counter (s : MinerThreads.State n) : Bool → UInt64
  | true => s.acceptedShares
  | false => s.rejectedShares

def pendingCalls : MinerThreads.Receiver → List Callback
  | .handling _ pending _ => pending
  | _ => []

/-- While a job is on its way its callback is the first of the pending ones. -/
def JobFirst : MinerThreads.Receiver → Prop
  | .handling .outside _ _ => True
  | .handling _ (.job _ :: _) _ => True
  | .handling _ _ _ => False
  | _ => True

@[simp] theorem shareCalls_nil (b : Bool) : shareCalls b [] = 0 := rfl

@[simp] theorem shareCalls_job (b : Bool) (job : MiningJob) (cs : List Callback) :
    shareCalls b (.job job :: cs) = shareCalls b cs := by
  simp [shareCalls]

@[simp] theorem shareCalls_share (b accepted : Bool) (response : Text) (cs : List Callback) :
    shareCalls b (.share accepted response :: cs) =
      shareCalls b cs + (if accepted = b then 1 else 0) := by
  simp [shareCalls, List.countP_cons]

theorem shareCalls_append (b : Bool) (cs ds : List Callback) :
    shareCalls b (cs ++ ds) = shareCalls b cs + shareCalls b ds := List.countP_append

theorem shareCalls_jobCallbacks (b : Bool) (job : Option MiningJob) :
    shareCalls b (jobCallbacks job) = 0 := by
  cases job with
  | none => rfl
  | some job =>
    simp only [jobCallbacks]
    split <;> simp

/-- A line leads to a call of the share callback exactly when it has a verdict. -/
theorem shareCalls_callbacks (lib : JsonLibrary) (b : Bool) (line : Text) :
    shareCalls b (callbacks lib line) = verdicts lib b [line] := by
  have one : verdicts lib b [line] = if messageVerdict lib line = some b then 1 else 0 := by
    simp [verdicts]
  rw [one, callbacks, messageVerdict]
  cases hparse : lib.parse line with
  | none => simp
  | some j =>
    rw [Option.bind_some]
    cases hlogin : loginJob j with
    | none =>
      have none : verdict j ≠ some b := by
        intro hv
        rw [loginJob_of_bool (verdict_some hv).2.2] at hlogin
        cases hlogin
      simp [hlogin, none]
    | some login =>
      cases hnotified : notifiedJob j with
      | none => simp [hlogin, hnotified, shareCalls_jobCallbacks, verdict]
      | some notified =>
        simp only [hlogin, hnotified, shareCalls_append, shareCalls_jobCallbacks, Nat.zero_add,
          shareCallbacks, verdict, Option.isSome_some, and_true]
        cases hid : j.member (lit "id") with
        | none => simp
        | some id => cases hresult : boolResult j <;> simp

/-- The counters follow the verdicts of the lines that were begun. -/
theorem counter_next (calculateHash : Nat → List UInt8 → Hash) (lib : JsonLibrary)
    {s : MinerThreads.State n} {e : MinerThreads.Event n} (b : Bool)
    (enabled : MinerThreads.Enabled s e) (jobFirst : JobFirst s.receiver) :
    JobFirst (MinerThreads.next calculateHash lib s e).receiver ∧
      counter (MinerThreads.next calculateHash lib s e) b +
          .ofNat (shareCalls b (pendingCalls (MinerThreads.next calculateHash lib s e).receiver)) =
        counter s b + .ofNat (shareCalls b (pendingCalls s.receiver)) +
          .ofNat (verdicts lib b (begunBy s e)) := by
  have none : verdicts lib b [] = 0 := rfl
  cases e with
  | enter t =>
    cases hlock : lockOf (s.miner.workers t).pc <;> cases b <;>
      simp [begunBy, MinerThreads.next, hlock, acquire, counter, none, jobFirst]
  | work t env =>
    cases hlock : lockOf (s.miner.workers t).pc <;> cases b <;>
      simp [begunBy, MinerThreads.next, hlock, release, counter, none, jobFirst]
  | test =>
    have hr : s.receiver = .atTest := enabled
    cases hrun : s.clientRunning <;> cases b <;>
      simp [begunBy, MinerThreads.next, receive, hr, hrun, counter, none, pendingCalls, JobFirst]
  | recv lines =>
    have hr : s.receiver = .inRecv := enabled
    cases b <;>
      simp [begunBy, MinerThreads.next, receive, hr, counter, none, pendingCalls, JobFirst]
  | timeOut =>
    have hr : s.receiver = .inRecv := enabled
    cases b <;>
      simp [begunBy, MinerThreads.next, receive, hr, counter, none, pendingCalls, JobFirst]
  | connectionEnds =>
    have hr : s.receiver = .inRecv := enabled
    cases b <;>
      simp [begunBy, MinerThreads.next, receive, hr, counter, none, pendingCalls, JobFirst]
  | nextLine =>
    obtain ⟨lines, hr⟩ := enabled
    cases lines with
    | nil =>
      cases b <;>
        simp [begunBy, MinerThreads.next, receive, hr, counter, none, pendingCalls, JobFirst]
    | cons line lines =>
      have calls := shareCalls_callbacks lib b line
      cases b <;>
        simp [begunBy, MinerThreads.next, receive, hr, counter, pendingCalls, JobFirst, calls]
  | shareResult =>
    obtain ⟨accepted, response, pending, lines, hr⟩ := enabled
    cases accepted <;> cases b <;>
      simp [begunBy, MinerThreads.next, receive, hr, MinerThreads.Receiver.head, counter, none,
        pendingCalls, JobFirst, UInt64.ofNat_add, UInt64.add_assoc, UInt64.add_comm 1]
  | lockClient =>
    obtain ⟨_, job, pending, lines, hr⟩ := enabled
    cases b <;>
      simp [begunBy, MinerThreads.next, receive, hr, MinerThreads.Receiver.head, acquire, counter,
        none, pendingCalls, JobFirst]
  | lockMiner =>
    obtain ⟨_, pending, lines, hr⟩ := enabled
    have first : JobFirst (.handling .both pending lines) := by
      rw [hr] at jobFirst
      cases pending with
      | nil => exact jobFirst
      | cons call rest => cases call <;> exact jobFirst
    cases b <;>
      simp [begunBy, MinerThreads.next, receive, hr, acquire, counter, none, pendingCalls, first]
  | storeJob =>
    obtain ⟨pending, lines, hr⟩ := enabled
    have first : JobFirst (.handling .raising pending lines) := by
      rw [hr] at jobFirst
      cases pending with
      | nil => exact jobFirst
      | cons call rest => cases call <;> exact jobFirst
    cases b <;>
      simp [begunBy, MinerThreads.next, receive, hr, release, counter, none, pendingCalls, first]
  | raiseNewJob =>
    obtain ⟨pending, lines, hr⟩ := enabled
    rw [hr] at jobFirst
    cases pending with
    | nil => exact jobFirst.elim
    | cons call rest =>
      cases call with
      | share accepted response => exact jobFirst.elim
      | job job =>
        cases b <;>
          simp [begunBy, MinerThreads.next, receive, hr, release, counter, none, pendingCalls,
            JobFirst]
  | call => cases b <;> simp [begunBy, MinerThreads.next, counter, none, jobFirst]
  | lockReader => cases b <;> simp [begunBy, MinerThreads.next, acquire, counter, none, jobFirst]
  | answer => cases b <;> simp [begunBy, MinerThreads.next, release, counter, none, jobFirst]
  | stop => cases b <;> simp [begunBy, MinerThreads.next, counter, none, jobFirst]

/-- The counters are the verdicts of the handled lines modulo `2 ^ 64`, but for the
pending calls. -/
structure Tallied (lib : JsonLibrary) (h : List (PoolSession.State n × PoolSession.Event n))
    (s : PoolSession.State n) : Prop where
  jobFirst : JobFirst s.threads.receiver
  counted : ∀ b, counter s.threads b + .ofNat (shareCalls b (pendingCalls s.threads.receiver)) =
    .ofNat (verdicts lib b (handled h))

theorem verdicts_append (lib : JsonLibrary) (b : Bool) (lines more : List Text) :
    verdicts lib b (lines ++ more) = verdicts lib b lines + verdicts lib b more :=
  List.countP_append

theorem Tallied.step {h : List (PoolSession.State n × PoolSession.Event n)}
    {s : PoolSession.State n} {e : PoolSession.Event n} (tallied : Tallied lib h s)
    (enabled : PoolSession.Enabled s e) :
    Tallied lib ((s, e) :: h) (PoolSession.next calculateHash lib c s e) := by
  have threads := @next_threads n calculateHash lib c s e
  cases e with
  | thread e =>
    have step := fun b => counter_next calculateHash lib b enabled.1 tallied.jobFirst
    rw [nextThreads, threadEvent] at threads
    have begun : handled ((s, .thread e) :: h) = handled h ++ begunBy s.threads e := rfl
    constructor
    · rw [threads]
      exact (step true).1
    · intro b
      rw [threads, begun, verdicts_append, UInt64.ofNat_add, ← tallied.counted b]
      exact (step b).2
  | recv chunk =>
    have received : MinerThreads.Enabled s.threads
        (.recv (extractLines (s.buffer ++ chunk) []).2) := enabled.1
    have step := fun b => counter_next calculateHash lib b received tallied.jobFirst
    rw [nextThreads, threadEvent] at threads
    constructor
    · rw [threads]
      exact (step true).1
    · intro b
      have same : handled ((s, .recv chunk) :: h) = handled h := rfl
      rw [threads, same, ← tallied.counted b]
      exact (step b).2.trans (UInt64.add_zero _)
  | submitShare t loaded => exact ⟨tallied.jobFirst, tallied.counted⟩
  | send t outcome => exact ⟨tallied.jobFirst, tallied.counted⟩
  | write answers bytes => exact ⟨tallied.jobFirst, tallied.counted⟩

theorem tallied_run {h : List (PoolSession.State n × PoolSession.Event n)}
    {s : PoolSession.State n}
    (run : Run (PoolSession.machine calculateHash lib c n) (Start c) h s) : Tallied lib h s := by
  apply run.invariant (P := fun h s => Tallied lib h s)
  · intro s start
    refine ⟨?_, fun b => ?_⟩
    · rw [start.receiver]
      trivial
    · rw [start.receiver]
      refine (UInt64.add_zero _).trans ?_
      cases b
      · exact start.counters.2
      · exact start.counters.1
  · exact fun _ _ _ tallied enabled => tallied.step enabled

/-- The verdicts that the miner has not counted yet. -/
def inTransit (lib : JsonLibrary) (b : Bool) (s : PoolSession.State n) : Nat :=
  shareCalls b (pendingCalls s.threads.receiver) +
    verdicts lib b (waitingLines s.threads.receiver ++ messages (undelivered s))

/-- Whatever the pool writes, the counters are the verdicts in it but for those in transit. -/
theorem counted_session {h : List (PoolSession.State n × PoolSession.Event n)}
    {s : PoolSession.State n}
    (run : Run (PoolSession.machine calculateHash lib c n) (Start c) h s) (b : Bool) :
    counter s.threads b + .ofNat (inTransit lib b s) = .ofNat (verdicts lib b (written s)) := by
  rw [← (linesInOrder_run run).lines, verdicts_append, UInt64.ofNat_add,
    ← (tallied_run run).counted b, inTransit, UInt64.ofNat_add, UInt64.add_assoc]

/-- The messages that the pool completes with these bytes. -/
def completedBy (s : PoolSession.State n) (bytes : Text) : List Text :=
  messages (unfinished newline s.fromPool ++ bytes)

theorem written_write (calculateHash : Nat → List UInt8 → Hash) (lib : JsonLibrary)
    (c : Credentials) (s : PoolSession.State n) (answers : Option Nat) (bytes : Text) :
    written (PoolSession.next calculateHash lib c s (.write answers bytes)) =
      written s ++ completedBy s bytes :=
  messages_append s.fromPool bytes

/-- The lines with a verdict. -/
def judged (lib : JsonLibrary) (lines : List Text) : Nat :=
  verdicts lib true lines + verdicts lib false lines

theorem judged_append (lib : JsonLibrary) (lines more : List Text) :
    judged lib (lines ++ more) = judged lib lines + judged lib more := by
  rw [judged, verdicts_append, verdicts_append, judged, judged]
  omega

/-- A message with a verdict answers a line behind the login that has reached the pool
and has not been answered before, and no other message of the pool has one. -/
def AnswersOnce (lib : JsonLibrary) (s : PoolSession.State n) : PoolSession.Event n → Prop
  | .write (some i) bytes =>
    (0 < i ∧ i < (completeLines newline s.wire.sent).length ∧ i ∉ s.answered) ∧
      judged lib (completedBy s bytes) = 1
  | .write none bytes => judged lib (completedBy s bytes) = 0
  | _ => True

instance decidableAnswersOnce (lib : JsonLibrary) (s : PoolSession.State n) :
    ∀ e, Decidable (AnswersOnce lib s e)
  | .write (some _) _ => inferInstanceAs (Decidable ((_ ∧ _ ∧ _) ∧ _ = 1))
  | .write none _ => inferInstanceAs (Decidable (_ = 0))
  | .thread _ | .submitShare _ _ | .send _ _ | .recv _ => inferInstanceAs (Decidable True)

/-- Socket writes only append. -/
theorem sent_grows (c : Credentials) (w : Wire n) (e : SendMessage.Event n) :
    ∃ more, (SendMessage.next c w e).sent = w.sent ++ more := by
  cases e with
  | submitShare t loaded share => exact ⟨[], (List.append_nil _).symm⟩
  | acquire t =>
    refine ⟨[], ?_⟩
    simp only [SendMessage.next]
    split <;> exact (List.append_nil _).symm
  | send t outcome =>
    simp only [SendMessage.next]
    split
    · rename_i message k _
      by_cases failed : outcome ≤ 0
      · exact ⟨[], by simp [afterSend, failed, finish]⟩
      · refine ⟨(message.drop k).take outcome.toNat, ?_⟩
        simp only [afterSend, if_neg failed]
        split <;> rfl
    · exact ⟨[], (List.append_nil _).symm⟩

/-- The answered lines are complete lines behind the login, each answered once,
and the verdicts that the pool has written are its answers. -/
structure Answered (lib : JsonLibrary) (s : PoolSession.State n) : Prop where
  nodup : s.answered.Nodup
  complete : ∀ i ∈ s.answered, 0 < i ∧ i < (completeLines newline s.wire.sent).length
  given : s.answered.length = judged lib (written s)

theorem length_lines_grow (stream more : Text) :
    (completeLines newline stream).length ≤ (completeLines newline (stream ++ more)).length := by
  rw [(lines_append newline stream more).1, List.length_append]
  exact Nat.le_add_right _ _

theorem lines_next (calculateHash : Nat → List UInt8 → Hash) (lib : JsonLibrary)
    (c : Credentials) (s : PoolSession.State n) (e : PoolSession.Event n) :
    (completeLines newline s.wire.sent).length ≤
      (completeLines newline (PoolSession.next calculateHash lib c s e).wire.sent).length := by
  rw [next_wire, nextWire]
  split
  · rename_i e' _
    obtain ⟨more, grown⟩ := sent_grows c s.wire e'
    rw [grown]
    exact length_lines_grow _ _
  · exact le_refl _

/-- An event in which the pool gives no answer. -/
theorem Answered.quiet {s s' : PoolSession.State n} (answered : Answered lib s)
    (same : s'.answered = s.answered)
    (lines : (completeLines newline s.wire.sent).length ≤
      (completeLines newline s'.wire.sent).length)
    (silent : judged lib (written s') = judged lib (written s)) : Answered lib s' := by
  constructor
  · rw [same]
    exact answered.nodup
  · intro i hi
    obtain ⟨behind, complete⟩ := answered.complete i (same ▸ hi)
    exact ⟨behind, complete.trans_le lines⟩
  · rw [same, silent]
    exact answered.given

theorem Answered.write {s : PoolSession.State n} {answers : Option Nat} {bytes : Text}
    (answered : Answered lib s) (once : AnswersOnce lib s (.write answers bytes)) :
    Answered lib (PoolSession.next calculateHash lib c s (.write answers bytes)) := by
  have longer := written_write calculateHash lib c s answers bytes
  cases answers with
  | none =>
    have unjudged : judged lib (completedBy s bytes) = 0 := once
    refine answered.quiet rfl (le_refl _) ?_
    rw [longer, judged_append, unjudged, Nat.add_zero]
  | some i =>
    obtain ⟨⟨behind, complete, fresh⟩, one⟩ := once
    constructor
    · exact List.nodup_cons.mpr ⟨fresh, answered.nodup⟩
    · exact List.forall_mem_cons.mpr ⟨⟨behind, complete⟩, answered.complete⟩
    · have more : (PoolSession.next calculateHash lib c s (.write (some i) bytes)).answered.length =
          s.answered.length + 1 := rfl
      rw [more, longer, judged_append, answered.given, one]

theorem Answered.step {s : PoolSession.State n} {e : PoolSession.Event n}
    (answered : Answered lib s) (once : AnswersOnce lib s e) :
    Answered lib (PoolSession.next calculateHash lib c s e) := by
  have lines := lines_next calculateHash lib c s e
  cases e with
  | write answers bytes => exact answered.write once
  | thread e =>
    have same : (PoolSession.next calculateHash lib c s (.thread e)).answered = s.answered ∧
        (PoolSession.next calculateHash lib c s (.thread e)).fromPool = s.fromPool := by
      cases e <;> exact ⟨rfl, rfl⟩
    refine answered.quiet same.1 lines ?_
    rw [written, written, same.2]
  | submitShare t loaded => exact answered.quiet rfl lines rfl
  | send t outcome => exact answered.quiet rfl lines rfl
  | recv chunk => exact answered.quiet rfl lines rfl

theorem answered_run {h : List (PoolSession.State n × PoolSession.Event n)}
    {s : PoolSession.State n}
    (run : Run (PoolSession.machine calculateHash lib c n) (Start c) h s)
    (once : ∀ m ∈ h, AnswersOnce lib m.1 m.2) : Answered lib s := by
  refine run.invariant_of_steps (P := fun _ s => Answered lib s) ?_ ?_ once
  · intro s start
    refine ⟨?_, ?_, ?_⟩
    · rw [start.answered]
      exact List.nodup_nil
    · rw [start.answered]
      exact fun _ hi => nomatch hi
    · rw [start.answered, written, start.stream.1]
      rfl
  · exact fun _ _ _ answered _ once => answered.step once

/-- The complete lines behind the login that the pool has not answered. -/
def unanswered (s : PoolSession.State n) : Finset Nat :=
  Finset.Ioo 0 (completeLines newline s.wire.sent).length \ s.answered.toFinset

/-- Each share is in hand, on its way to the pool's answer, or counted by its verdict.
The counters are taken modulo `2 ^ 64`. -/
structure Settled (lib : JsonLibrary) (calculateHash : Nat → List UInt8 → Hash)
    (h : List (PoolSession.State n × PoolSession.Event n)) (s : PoolSession.State n) : Prop where
  counted : ∀ b, counter s.threads b + .ofNat (inTransit lib b s) =
    .ofNat (verdicts lib b (written s))
  answers : judged lib (written s) + (unanswered s).card = (received s).length
  shares : (received s).length + ∑ t, (inHand s t).card = (found calculateHash h).length

/-- The miner's counters are the pool's verdicts, up to those in transit. If it gives
them only as answers, one for each share at most, they and the shares found balance. -/
theorem session_settled {h : List (PoolSession.State n × PoolSession.Event n)}
    {s : PoolSession.State n}
    (run : Run (PoolSession.machine calculateHash lib c n) (Start c) h s)
    (succeed : SendsSucceed h) (plain : PlainCredentials c)
    (ids : ∀ share ∈ found calculateHash h, JsonFields.Plain share.jobId)
    (once : ∀ m ∈ h, AnswersOnce lib m.1 m.2) : Settled lib calculateHash h s := by
  obtain ⟨sent, lines, read, balance⟩ := completeLines_session run succeed plain ids
  have answered := answered_run run once
  have count : (completeLines newline s.wire.sent).length = (received s).length + 1 := by
    rw [lines, read, List.length_cons, List.length_map, List.length_map]
  constructor
  · exact counted_session run
  · have within : s.answered.toFinset ⊆
        Finset.Ioo 0 (completeLines newline s.wire.sent).length := by
      intro i hi
      exact Finset.mem_Ioo.mpr (answered.complete i (List.mem_toFinset.mp hi))
    have card := Finset.card_sdiff_add_card_eq_card within
    rw [List.toFinset_card_of_nodup answered.nodup, Nat.card_Ioo, count] at card
    rw [← answered.given, unanswered, count]
    omega
  · have cards := congrArg Multiset.card balance
    rw [Multiset.card_add, Multiset.card_sum, Multiset.coe_card, Multiset.coe_card, ← read] at cards
    exact cards

theorem dialogue_succeeds : SendsSucceed dialogueRun.1 := by
  refine ShareDelivery.SendsSucceed.replay ?_ oneShare_succeeds _
  rintro e he t outcome rfl
  simp [dialogue] at he

theorem dialogue_answersOnce : ∀ m ∈ dialogueRun.1, AnswersOnce goodLibrary m.1 m.2 := by
  have each : AllEnabled ⟨AnswersOnce goodLibrary, PoolSession.next zeroHash goodLibrary
      sampleCredentials⟩ (oneShare ++ dialogue) miningSession := by
    decide +kernel
  have all := replay_forall (M := PoolSession.machine zeroHash goodLibrary sampleCredentials 2) each
  exact all

theorem session_settled_dialogue :
    Settled goodLibrary zeroHash dialogueRun.1 dialogueRun.2 := by
  refine session_settled dialogue_run dialogue_succeeds ⟨by decide, by decide, by decide⟩ ?_
    dialogue_answersOnce
  decide +kernel

/-- The jobs of the messages in these lines. -/
def jobsIn (lib : JsonLibrary) (lines : List Text) : List MiningJob :=
  lines.flatMap fun line => JobOrder.jobsOf (callbacks lib line)

/-- The part of a session that the threads see. -/
abbrev threadsOf (h : List (PoolSession.State n × PoolSession.Event n)) :
    List (MinerThreads.State n × MinerThreads.Event n) :=
  seen PoolSession.State.threads threadEvent h

theorem jobsIn_append (lib : JsonLibrary) (lines more : List Text) :
    jobsIn lib (lines ++ more) = jobsIn lib lines ++ jobsIn lib more := List.flatMap_append

theorem deliveredBy_begun (lib : JsonLibrary) (s : MinerThreads.State n)
    (e : MinerThreads.Event n) : JobOrder.deliveredBy lib s e = jobsIn lib (begunBy s e) := by
  cases e with
  | nextLine =>
    cases hr : s.receiver with
    | handling stage pending lines =>
      cases lines <;> simp [JobOrder.deliveredBy, begunBy, hr, jobsIn]
    | _ => simp [JobOrder.deliveredBy, begunBy, hr, jobsIn]
  | _ => rfl

theorem deliveredJobs_handled (lib : JsonLibrary)
    (h : List (PoolSession.State n × PoolSession.Event n)) :
    JobOrder.deliveredJobs lib (threadsOf h) = jobsIn lib (handled h) := by
  induction h with
  | nil => rfl
  | cons m h ih =>
    obtain ⟨s, e⟩ := m
    cases e with
    | thread e =>
      rw [threadsOf, seen_cons_shown rfl, JobOrder.deliveredJobs, handled, jobsIn_append, ih,
        deliveredBy_begun]
    | recv chunk =>
      rw [threadsOf, seen_cons_shown rfl, JobOrder.deliveredJobs, ih]
      exact List.append_nil _
    | submitShare t loaded => rw [threadsOf, seen_cons_hidden rfl, ih]; rfl
    | send t outcome => rw [threadsOf, seen_cons_hidden rfl, ih]; rfl
    | write answers bytes => rw [threadsOf, seen_cons_hidden rfl, ih]; rfl

theorem threads_run {start s : PoolSession.State n}
    {h : List (PoolSession.State n × PoolSession.Event n)}
    (run : Run (PoolSession.machine calculateHash lib c n) (· = start) h s) :
    Run (MinerThreads.machine calculateHash lib n) (· = start.threads) (threadsOf h) s.threads := by
  refine (refines_threads calculateHash lib c n).run ?_ run
  rintro r rfl
  exact ⟨trivial, rfl⟩

/-- The miner stores the jobs of the pool's messages in their order, each once,
and the workers hash those jobs and the ones they started with. -/
structure JobsFollow (lib : JsonLibrary) (calculateHash : Nat → List UInt8 → Hash)
    (start : PoolSession.State n) (h : List (PoolSession.State n × PoolSession.Event n))
    (s : PoolSession.State n) : Prop where
  stored : JobOrder.storedJobs (threadsOf h) ++ (JobOrder.awaiting s.threads ++
      jobsIn lib (waitingLines s.threads.receiver ++ messages (undelivered s))) =
    jobsIn lib (written s)
  hashed : ∀ t, ∀ job ∈ JobOrder.hashedJobs calculateHash t (threadsOf h),
    job = (start.worker t).job ∨ job = start.threads.miner.shared.currentJob ∨
      job ∈ jobsIn lib (written s)

/-- The jobs stored and those on the way are the jobs that the pool has written. -/
theorem stored_session {start s : PoolSession.State n}
    {h : List (PoolSession.State n × PoolSession.Event n)} (initial : Start c start)
    (run : Run (PoolSession.machine calculateHash lib c n) (· = start) h s) :
    JobOrder.storedJobs (threadsOf h) ++ (JobOrder.awaiting s.threads ++
        jobsIn lib (waitingLines s.threads.receiver ++ messages (undelivered s))) =
      jobsIn lib (written s) := by
  have lines := (linesInOrder_run
    (run.mono fun r (same : r = start) => same ▸ initial)).lines
  have published := JobOrder.published_run (threads_run run)
  have none : JobOrder.awaiting start.threads = [] := by
    rw [JobOrder.awaiting, initial.receiver]
  rw [none, List.nil_append, deliveredJobs_handled] at published
  rw [← List.append_assoc, ← published, ← jobsIn_append, lines]

/-- A worker hashes with what it started with or with what the pool has written. -/
theorem hashed_session {start s : PoolSession.State n}
    {h : List (PoolSession.State n × PoolSession.Event n)} (initial : Start c start)
    (run : Run (PoolSession.machine calculateHash lib c n) (· = start) h s) (t : Fin n)
    {job : MiningJob} (hashed : job ∈ JobOrder.hashedJobs calculateHash t (threadsOf h)) :
    job = (start.worker t).job ∨ job = start.threads.miner.shared.currentJob ∨
      job ∈ jobsIn lib (written s) := by
  have places := (JobOrder.inStep_run (threads_run run) t).jobs
  have mem : some job ∈ (JobOrder.hashedJobs calculateHash t (threadsOf h)).map some :=
    List.mem_map_of_mem hashed
  rw [places] at mem
  obtain ⟨i, _, hi⟩ := List.mem_map.mp mem
  have delivered := List.mem_of_getElem? hi
  rw [JobOrder.deliveries, List.mem_cons, List.mem_cons] at delivered
  refine delivered.imp id (Or.imp id fun fromPool => ?_)
  rw [← stored_session initial run]
  exact List.mem_append_left _ fromPool

theorem jobs_follow {start s : PoolSession.State n}
    {h : List (PoolSession.State n × PoolSession.Event n)} (initial : Start c start)
    (run : Run (PoolSession.machine calculateHash lib c n) (· = start) h s) :
    JobsFollow lib calculateHash start h s :=
  ⟨stored_session initial run, fun t _ hashed => hashed_session initial run t hashed⟩

/-- The first job is stored, the second one is on its way. -/
theorem jobs_follow_dialogue :
    JobsFollow goodLibrary zeroHash miningSession dialogueRun.1 dialogueRun.2 ∧
      JobOrder.storedJobs (threadsOf dialogueRun.1) = [secondJob] ∧
      jobsIn goodLibrary (messages (undelivered dialogueRun.2)) = [thirdJob] := by
  refine ⟨jobs_follow start_miningSession miningSession_dialogue, ?_, ?_⟩
  all_goals decide +kernel

end PoolDialogue
