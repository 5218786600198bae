import MoneroRandomXMiner.Histories
import MoneroRandomXMiner.ReceiveLoop

/-!
# Whether the receive loop notices the end of a connection

A timeout and the end of the connection both reach the loop as a count that is
not positive, and `errno` is to tell them apart. An orderly close leaves
`errno` alone, so a timeout before it makes the loop take it for another
timeout, and every later one as well.
-/

namespace ConnectionEnd

open Histories HexText ReceiveLoop

/-- The receive thread; `waiting` holds from the test of `m_running` to the
return of `recv`. -/
structure Loop where
  receiver : Receiver
  waiting : Bool

/-- `stop` is the store to `m_running` by another thread. The handling of the
received lines may leave any value in `errno`. -/
inductive Event where
  | stop
  | test
  | recv (outcome : Recv) (errnoAfter : Errno)

def Enabled (l : Loop) : Event → Prop
  | .stop => True
  | .test => l.receiver.left = false ∧ l.waiting = false
  | .recv _ _ => l.receiver.left = false ∧ l.waiting = true

instance (l : Loop) : ∀ e, Decidable (Enabled l e)
  | .stop => inferInstanceAs (Decidable True)
  | .test => inferInstanceAs (Decidable (_ ∧ _))
  | .recv _ _ => inferInstanceAs (Decidable (_ ∧ _))

/-- The body of the loop after `recv` has returned. -/
def afterRecv (r : Receiver) (outcome : Recv) (errnoAfter : Errno) : Receiver :=
  match outcome with
  | .data chunk =>
    let extracted := extractLines (r.buffer ++ chunk) r.handled
    { r with buffer := extracted.1, handled := extracted.2, errno := errnoAfter }
  | .failed errno => noData { r with errno := errno }
  | .closed => noData r

def next (l : Loop) : Event → Loop
  | .stop => { l with receiver := { l.receiver with running := false } }
  | .test =>
    if l.receiver.running then { l with waiting := true }
    else { l with receiver := { l.receiver with left := true } }
  | .recv outcome errnoAfter => ⟨afterRecv l.receiver outcome errnoAfter, false⟩

def machine : Machine Loop Event where
  Enabled := Enabled
  next := next

instance (l : Loop) (e : Event) : Decidable (machine.Enabled l e) :=
  inferInstanceAs (Decidable (Enabled l e))

/-- A new thread starts with `errno` zero. -/
def Started (l : Loop) : Prop := l = ⟨Receiver.initial .other, false⟩

def Errno.TimedOut (errno : Errno) : Prop := errno = .eagain ∨ errno = .ewouldblock

instance (errno : Errno) : Decidable (Errno.TimedOut errno) :=
  inferInstanceAs (Decidable (_ ∨ _))

/-- An orderly close by the peer, or an error that is no timeout. -/
def EndsConnection : Event → Prop
  | .recv (.failed errno) _ => ¬ Errno.TimedOut errno
  | .recv .closed _ => True
  | _ => False

/-- The end of the connection makes the loop leave and the client report it;
nothing else makes the loop leave while `m_running` holds. -/
def Noticed (h : List (Loop × Event)) : Prop :=
  ∀ older l e, Moment h older l e →
    (EndsConnection e →
      (next l e).receiver.left = true ∧ (next l e).receiver.connected = false) ∧
    (¬ EndsConnection e → l.receiver.left = false → l.receiver.running = true →
      (next l e).receiver.left = false)

def SetsErrno : Event → Prop
  | .recv (.data _) _ | .recv (.failed _) _ => True
  | _ => False

/-- A timeout, or received lines whose handling leaves the error of one. -/
def LeavesTimeout : Event → Prop
  | .recv (.data _) errnoAfter => Errno.TimedOut errnoAfter
  | .recv (.failed errno) _ => Errno.TimedOut errno
  | _ => False

/-- Whatever set `errno` last left the error of a timeout there. -/
def TimeoutPending : List (Loop × Event) → Prop :=
  Since (fun m _ => ¬ SetsErrno m.2) (fun m _ => LeavesTimeout m.2)

def ClosesWithoutTimeout (h : List (Loop × Event)) : Prop :=
  ∀ older l errnoAfter, Moment h older l (.recv .closed errnoAfter) → ¬ TimeoutPending older

/-- One round of the loop is the test of `m_running` and the body. -/
theorem iterate_eq_afterRecv {r : Receiver} (running : r.running = true) (inside : r.left = false)
    (outcome : Recv) : iterate r outcome = afterRecv r outcome r.errno := by
  cases outcome <;> simp [iterate, afterRecv, running, inside]

theorem noData_timedOut {r : Receiver} (timedOut : Errno.TimedOut r.errno) : noData r = r :=
  if_pos timedOut

theorem noData_ended {r : Receiver} (ended : ¬ Errno.TimedOut r.errno) :
    noData r = { r with connected := false, left := true } := if_neg ended

theorem noData_errno (r : Receiver) : (noData r).errno = r.errno := by
  unfold noData
  split <;> rfl

theorem LeavesTimeout.setsErrno {e : Event} (leaves : LeavesTimeout e) : SetsErrno e := by
  cases e with
  | stop => exact leaves
  | test => exact leaves
  | recv outcome errnoAfter =>
    cases outcome with
    | data chunk => trivial
    | failed errno => trivial
    | closed => exact leaves

theorem errno_set (l : Loop) {e : Event} (sets : SetsErrno e) :
    Errno.TimedOut (next l e).receiver.errno ↔ LeavesTimeout e := by
  cases e with
  | stop => exact sets.elim
  | test => exact sets.elim
  | recv outcome errnoAfter =>
    cases outcome with
    | data chunk => exact Iff.rfl
    | failed errno =>
      simp only [next, afterRecv, noData_errno]
      exact Iff.rfl
    | closed => exact sets.elim

theorem errno_kept (l : Loop) {e : Event} (quiet : ¬SetsErrno e) :
    (next l e).receiver.errno = l.receiver.errno := by
  cases e with
  | stop => rfl
  | test =>
    simp only [next]
    split <;> rfl
  | recv outcome errnoAfter =>
    cases outcome with
    | data chunk => exact absurd trivial quiet
    | failed errno => exact absurd trivial quiet
    | closed => exact noData_errno l.receiver

/-- `errno` shows a timeout exactly while one is pending. -/
theorem errno_run {h : List (Loop × Event)} {l : Loop} (run : Run machine Started h l) :
    Errno.TimedOut l.receiver.errno ↔ TimeoutPending h := by
  apply run.latch (F := fun l => Errno.TimedOut l.receiver.errno) (S := fun _ e => LeavesTimeout e)
    (C := fun _ e => SetsErrno e)
  · rintro l rfl
    simp [Receiver.initial, Errno.TimedOut]
  · exact fun l e _ leaves => (errno_set l leaves.setsErrno).mpr leaves
  · exact fun l e _ clean sets timedOut => clean ((errno_set l sets).mp timedOut)
  · intro l e _ _ quiet
    rw [machine, errno_kept l quiet]

/-- A failed `recv` is told apart in any case. -/
theorem noticed_failed (l : Loop) (errno errnoAfter : Errno) :
    (¬ Errno.TimedOut errno →
      (next l (.recv (.failed errno) errnoAfter)).receiver.left = true ∧
        (next l (.recv (.failed errno) errnoAfter)).receiver.connected = false) ∧
    (Errno.TimedOut errno →
      (next l (.recv (.failed errno) errnoAfter)).receiver.left = l.receiver.left) := by
  constructor
  · intro ended
    simp only [next, afterRecv]
    rw [noData_ended ended]
    exact ⟨rfl, rfl⟩
  · intro timedOut
    simp only [next, afterRecv]
    rw [noData_timedOut timedOut]

/-- An orderly close is noticed exactly when `errno` shows no timeout. -/
theorem noticed_closed_iff {l : Loop} (errnoAfter : Errno) (inside : l.receiver.left = false) :
    ((next l (.recv .closed errnoAfter)).receiver.left = true ∧
      (next l (.recv .closed errnoAfter)).receiver.connected = false) ↔
      ¬ Errno.TimedOut l.receiver.errno := by
  simp only [next, afterRecv]
  constructor
  · rintro ⟨hleft, _⟩ timedOut
    rw [noData_timedOut timedOut, inside] at hleft
    cases hleft
  · intro ended
    rw [noData_ended ended]
    exact ⟨rfl, rfl⟩

/-- In every run the end of the connection is noticed exactly when no orderly
close finds a timeout pending. -/
theorem noticed_iff_closesWithoutTimeout {h : List (Loop × Event)} {l : Loop}
    (run : Run machine Started h l) : Noticed h ↔ ClosesWithoutTimeout h := by
  constructor
  · intro noticed older l errnoAfter moment
    obtain ⟨before, inside, _⟩ := run.at_moment moment
    have ended := (noticed_closed_iff errnoAfter inside).mp
      ((noticed older l _ moment).1 trivial)
    rwa [← errno_run before]
  · intro closes older l e moment
    obtain ⟨before, enabled⟩ := run.at_moment moment
    cases e with
    | stop => exact ⟨fun ends => ends.elim, fun _ inside _ => inside⟩
    | test =>
      refine ⟨fun ends => ends.elim, fun _ inside running => ?_⟩
      simp only [next, running, if_true]
      exact inside
    | recv outcome errnoAfter =>
      cases outcome with
      | data chunk => exact ⟨fun ends => ends.elim, fun _ inside _ => inside⟩
      | failed errno =>
        obtain ⟨ended, timedOut⟩ := noticed_failed l errno errnoAfter
        refine ⟨ended, fun alive inside _ => ?_⟩
        exact (timedOut (Classical.not_not.mp alive)).trans inside
      | closed =>
        have clear := closes older l errnoAfter moment
        rw [← errno_run before] at clear
        refine ⟨fun _ => (noticed_closed_iff errnoAfter enabled.1).mpr clear, ?_⟩
        exact fun alive => absurd trivial alive

/-- The pool is silent for the receive timeout and then closes the connection. -/
def silentClose : List Event :=
  [.test, .recv (.failed .eagain) .eagain, .test, .recv .closed .eagain]

def silentCloseRun : List (Loop × Event) × Loop :=
  replay machine silentClose ([], ⟨Receiver.initial .other, false⟩)

theorem silentClose_run : Run machine Started silentCloseRun.1 silentCloseRun.2 := by
  have started : Run machine Started [] ⟨Receiver.initial .other, false⟩ := .init rfl
  exact replay_run started silentClose (by decide)

theorem noticed_iff_closesWithoutTimeout_silentClose :
    Noticed silentCloseRun.1 ↔ ClosesWithoutTimeout silentCloseRun.1 :=
  noticed_iff_closesWithoutTimeout silentClose_run

/-- The loop goes on after the close, and the client reports a connection. -/
theorem noticed_fails_silentClose :
    Run machine Started silentCloseRun.1 silentCloseRun.2 ∧
      silentCloseRun.2.receiver.left = false ∧ silentCloseRun.2.receiver.connected = true ∧
      ¬ Noticed silentCloseRun.1 := by
  have stays : silentCloseRun.2.receiver.left = false := by decide
  refine ⟨silentClose_run, stays, by decide, fun noticed => ?_⟩
  have leaves := ((noticed _ _ _ ⟨[], rfl⟩).1 trivial).1
  have same : silentCloseRun.2.receiver.left = true := leaves
  rw [stays] at same
  cases same

end ConnectionEnd
