import MoneroRandomXMiner.Histories
import MoneroRandomXMiner.MiningBlob

/-!
# Sending messages from several threads

`submit_share` builds a message, takes the send lock and calls `send` until the
message is out or a call reports nothing sent. In the latter case it gives the
lock back in the middle of the message and still returns true. Messages stay
whole exactly in the runs where no call of `send` fails.
-/

namespace SendMessage

open Histories HexText MiningBlob

/-- The configured strings that go into messages. -/
structure Credentials where
  wallet : Text
  password : Text
  worker : Text

def loginText (c : Credentials) : Text :=
  lit "\x7b\"id\":1,\"method\":\"login\",\"params\":" ++
    lit "\x7b\"login\":\"" ++ c.wallet ++ lit "\"," ++
    lit "\"pass\":\"" ++ c.password ++ lit "\"," ++
    lit "\"agent\":\"CPPMiner/1.0\"," ++
    lit "\"worker\":\"" ++ c.worker ++ lit "\"\x7d\x7d\n"

def submitText (c : Credentials) (id : UInt32) (share : Share) : Text :=
  lit "\x7b\"id\":" ++ lit (toString id.toNat) ++
    lit ",\"method\":\"submit\",\"params\":" ++
    lit "\x7b\"id\":\"" ++ c.worker ++
    lit "\",\"job_id\":\"" ++ share.jobId ++
    lit "\",\"nonce\":\"" ++ share.nonce ++
    lit "\",\"result\":\"" ++ share.result ++ lit "\"\x7d\x7d\n"

/-- Where a thread stands in `submit_share`. -/
inductive Phase where
  | idle
  | waiting (message : Text)
  | sending (message : Text) (totalSent : Nat)

/-- A call that has returned: its message, how much of it the socket accepted,
and the value returned. -/
structure Finished where
  message : Text
  accepted : Nat
  returned : Bool

/-- `sent` is what the socket has accepted, `order` the messages in lock order. -/
structure Wire (n : Nat) where
  messageId : UInt32
  lock : Option (Fin n)
  phases : Fin n → Phase
  sent : Text
  order : List Text
  finished : List Finished

/-- `++m_message_id` is a load and a store outside the lock. The event is the store,
and the value loaded may be out of date by then: it can be any. -/
inductive Event (n : Nat) where
  | submitShare (t : Fin n) (loaded : UInt32) (share : Share)
  | acquire (t : Fin n)
  | send (t : Fin n) (outcome : Int)

variable {n : Nat}

/-- The lock is released and `submit_share` returns true. -/
def finish (w : Wire n) (t : Fin n) (message : Text) (totalSent : Nat) : Wire n :=
  { w with
    lock := none
    phases := Function.update w.phases t .idle
    finished := ⟨message, totalSent, true⟩ :: w.finished }

/-- One call of `send` and the loop around it. -/
def afterSend (w : Wire n) (t : Fin n) (message : Text) (totalSent : Nat) (outcome : Int) :
    Wire n :=
  if outcome ≤ 0 then finish w t message totalSent
  else
    let sent := { w with sent := w.sent ++ (message.drop totalSent).take outcome.toNat }
    if totalSent + outcome.toNat < message.length then
      { sent with
        phases := Function.update w.phases t (.sending message (totalSent + outcome.toNat)) }
    else finish sent t message (totalSent + outcome.toNat)

def next (c : Credentials) (w : Wire n) : Event n → Wire n
  | .submitShare t loaded share =>
    { w with
      messageId := loaded + 1
      phases := Function.update w.phases t (.waiting (submitText c (loaded + 1) share)) }
  | .acquire t =>
    match w.phases t with
    | .waiting message =>
      { w with
        lock := some t
        phases := Function.update w.phases t (.sending message 0)
        order := w.order ++ [message] }
    | _ => w
  | .send t outcome =>
    match w.phases t with
    | .sending message totalSent => afterSend w t message totalSent outcome
    | _ => w

/-- `send` accepts at most what it is given; it is called while something is left. -/
def Enabled (w : Wire n) : Event n → Prop
  | .submitShare t _ _ => w.phases t = .idle
  | .acquire t => w.lock = none ∧ ∃ message, w.phases t = .waiting message
  | .send t outcome => ∃ message totalSent, w.phases t = .sending message totalSent ∧
      totalSent < message.length ∧ outcome ≤ message.length - totalSent

def machine (c : Credentials) (n : Nat) : Machine (Wire n) (Event n) where
  Enabled := Enabled
  next := next c

/-- The socket has accepted the whole login message, and no share has been submitted. -/
structure AfterLogin (c : Credentials) (w : Wire n) : Prop where
  free : w.lock = none
  idle : ∀ t, w.phases t = .idle
  sent : w.sent = loginText c
  order : w.order = [loginText c]
  finished : w.finished = []

def Terminated (message : Text) : Prop := ∃ body, message = body ++ [10]

/-- The socket has accepted a prefix of the complete messages in lock order,
and a call that returned true has had its whole message accepted. -/
structure Whole (w : Wire n) : Prop where
  terminated : ∀ message ∈ w.order, Terminated message
  framed : w.sent <+: w.order.flatten
  confirmed : ∀ f ∈ w.finished, f.returned = true → f.accepted = f.message.length

def AlwaysWhole (h : List (Wire n × Event n)) (w : Wire n) : Prop :=
  (∀ m ∈ h, Whole m.1) ∧ Whole w

/-- Every call of `send` reports a positive count. -/
def SendsSucceed (h : List (Wire n × Event n)) : Prop :=
  ∀ w t outcome, (w, .send t outcome) ∈ h → 0 < outcome

variable {c : Credentials}

theorem loginText_terminated (c : Credentials) : Terminated (loginText c) := by
  have hend : lit "\"\x7d\x7d\n" = lit "\"\x7d\x7d" ++ [10] := by decide
  rw [loginText, hend, ← List.append_assoc]
  exact ⟨_, rfl⟩

theorem submitText_terminated (c : Credentials) (id : UInt32) (share : Share) :
    Terminated (submitText c id share) := by
  have hend : lit "\"\x7d\x7d\n" = lit "\"\x7d\x7d" ++ [10] := by decide
  rw [submitText, hend, ← List.append_assoc]
  exact ⟨_, rfl⟩

/-- What the holder of the lock has still to send. -/
def Phase.remaining : Phase → Text
  | .sending message totalSent => message.drop totalSent
  | _ => []

def Phase.IsSending : Phase → Prop
  | .sending _ _ => True
  | _ => False

/-- The state between events while no send fails. -/
structure Tidy (w : Wire n) : Prop where
  terminated : ∀ message ∈ w.order, Terminated message
  pending : ∀ t message, w.phases t = .waiting message → Terminated message
  free : w.lock = none → w.sent = w.order.flatten ∧ ∀ t, ¬ (w.phases t).IsSending
  held : ∀ t, w.lock = some t → w.sent ++ (w.phases t).remaining = w.order.flatten ∧
    ∀ u, u ≠ t → ¬ (w.phases u).IsSending
  confirmed : ∀ f ∈ w.finished, f.returned = true → f.accepted = f.message.length

theorem Tidy.whole {w : Wire n} (tidy : Tidy w) : Whole w := by
  refine ⟨tidy.terminated, ?_, tidy.confirmed⟩
  cases hlock : w.lock with
  | none => exact ⟨[], by rw [List.append_nil]; exact (tidy.free hlock).1⟩
  | some t => exact ⟨_, (tidy.held t hlock).1⟩

theorem tidy_afterLogin {w : Wire n} (login : AfterLogin c w) : Tidy w := by
  constructor
  · intro message hm
    rw [login.order] at hm
    rw [List.mem_singleton.mp hm]
    exact loginText_terminated c
  · intro t message hwaiting
    rw [login.idle t] at hwaiting
    cases hwaiting
  · intro _
    constructor
    · rw [login.sent, login.order, List.flatten_singleton]
    · intro t hsending
      rw [login.idle t] at hsending
      exact hsending
  · intro t hlock
    rw [login.free] at hlock
    cases hlock
  · intro f hf
    rw [login.finished] at hf
    cases hf

theorem isSending_update {w : Wire n} {t u : Fin n} {phase : Phase} (hphase : ¬ phase.IsSending)
    (others : u ≠ t → ¬ (w.phases u).IsSending) :
    ¬ (Function.update w.phases t phase u).IsSending := by
  by_cases hu : u = t
  · subst hu
    rwa [Function.update_self]
  · rw [Function.update_of_ne hu]
    exact others hu

theorem pending_update {w : Wire n} {t : Fin n} {phase : Phase}
    (pending : ∀ u m, w.phases u = .waiting m → Terminated m)
    (hphase : ∀ m, phase = .waiting m → Terminated m) (u : Fin n) (m : Text)
    (hwaiting : Function.update w.phases t phase u = .waiting m) : Terminated m := by
  by_cases hu : u = t
  · subst hu
    exact hphase m ((Function.update_self u _ w.phases).symm.trans hwaiting)
  · exact pending u m ((Function.update_of_ne hu _ _).symm.trans hwaiting)

theorem Tidy.submitShare {w : Wire n} {t : Fin n} {loaded : UInt32} {share : Share}
    (tidy : Tidy w) (idle : w.phases t = .idle) :
    Tidy (next c w (.submitShare t loaded share)) := by
  have quiet : ∀ u, ¬ (w.phases u).IsSending →
      ¬ ((next c w (.submitShare t loaded share)).phases u).IsSending :=
    fun u hu => isSending_update id (fun _ => hu)
  refine ⟨tidy.terminated, ?_, ?_, ?_, tidy.confirmed⟩
  · refine pending_update tidy.pending ?_
    rintro m ⟨⟩
    exact submitText_terminated c _ share
  · intro hlock
    exact ⟨(tidy.free hlock).1, fun u => quiet u ((tidy.free hlock).2 u)⟩
  · intro u hlock
    obtain ⟨hsent, hothers⟩ := tidy.held u hlock
    refine ⟨?_, fun v hv => quiet v (hothers v hv)⟩
    have hremaining : ((next c w (.submitShare t loaded share)).phases u).remaining =
        (w.phases u).remaining := by
      by_cases hu : u = t
      · subst hu
        rw [idle]
        exact (congrArg Phase.remaining (Function.update_self u _ w.phases)).trans rfl
      · exact congrArg Phase.remaining (Function.update_of_ne hu _ _)
    rw [hremaining]
    exact hsent

theorem Tidy.acquire {w : Wire n} {t : Fin n} {message : Text} (tidy : Tidy w)
    (free : w.lock = none) (waiting : w.phases t = .waiting message) :
    Tidy (next c w (.acquire t)) := by
  have hnext : next c w (.acquire t) =
      { w with
        lock := some t
        phases := Function.update w.phases t (.sending message 0)
        order := w.order ++ [message] } := by
    simp only [next, waiting]
  obtain ⟨hsent, hquiet⟩ := tidy.free free
  rw [hnext]
  refine ⟨?_, ?_, ?_, ?_, tidy.confirmed⟩
  · intro m hm
    rcases List.mem_append.mp hm with old | new
    · exact tidy.terminated m old
    · rw [List.mem_singleton.mp new]
      exact tidy.pending t message waiting
  · exact pending_update tidy.pending (fun _ hm => nomatch hm)
  · exact fun hlock => nomatch hlock
  · intro u hlock
    obtain rfl := Option.some.inj hlock
    constructor
    · simp [Phase.remaining, hsent]
    · intro v hv
      simpa only [Function.update_of_ne hv] using hquiet v

/-- A call that has sent all it had to send. -/
theorem Tidy.finish {w : Wire n} {t : Fin n} {message : Text} {totalSent : Nat}
    (terminated : ∀ m ∈ w.order, Terminated m)
    (pending : ∀ u m, w.phases u = .waiting m → Terminated m)
    (hsent : w.sent = w.order.flatten) (others : ∀ u, u ≠ t → ¬ (w.phases u).IsSending)
    (confirmed : ∀ f ∈ w.finished, f.returned = true → f.accepted = f.message.length)
    (all : totalSent = message.length) : Tidy (finish w t message totalSent) := by
  refine ⟨terminated, ?_, ?_, ?_, ?_⟩
  · exact pending_update pending (fun _ hm => nomatch hm)
  · exact fun _ => ⟨hsent, fun u => isSending_update id (others u)⟩
  · exact fun u hlock => nomatch hlock
  · intro f hf returned
    rcases List.mem_cons.mp hf with rfl | old
    · exact all
    · exact confirmed f old returned

/-- Only the holder of the lock sends. -/
theorem Tidy.holder {w : Wire n} {t : Fin n} (tidy : Tidy w) (sending : (w.phases t).IsSending) :
    w.lock = some t := by
  cases hlock : w.lock with
  | none => exact absurd sending ((tidy.free hlock).2 t)
  | some u =>
    by_cases hu : t = u
    · rw [hu]
    · exact absurd sending ((tidy.held u hlock).2 t hu)

/-- A successful call of `send` moves bytes from the rest of the message to the socket. -/
theorem Tidy.send {w : Wire n} {t : Fin n} {message : Text} {totalSent : Nat} {outcome : Int}
    (tidy : Tidy w) (sending : w.phases t = .sending message totalSent)
    (fits : outcome ≤ message.length - totalSent) (positive : 0 < outcome) :
    Tidy (next c w (.send t outcome)) := by
  have hlock : w.lock = some t := tidy.holder (by rw [sending]; trivial)
  obtain ⟨hsent, hothers⟩ := tidy.held t hlock
  rw [sending] at hsent
  have hcount : (outcome.toNat : Int) = outcome := Int.toNat_of_nonneg (by omega)
  have hsplit : w.sent ++ (message.drop totalSent).take outcome.toNat ++
      message.drop (totalSent + outcome.toNat) = w.order.flatten := by
    rw [List.append_assoc, ← List.drop_drop, List.take_append_drop]
    exact hsent
  simp only [next, sending, afterSend, if_neg (Int.not_le.mpr positive)]
  split
  · refine ⟨tidy.terminated, ?_, ?_, ?_, tidy.confirmed⟩
    · exact pending_update tidy.pending (fun _ hm => nomatch hm)
    · intro hfree
      rw [hlock] at hfree
      cases hfree
    · intro u hu
      obtain rfl := Option.some.inj (hlock.symm.trans hu)
      constructor
      · simpa only [Function.update_self, Phase.remaining] using hsplit
      · intro v hv
        simpa only [Function.update_of_ne hv] using hothers v hv
  · rename_i hdone
    have hall : totalSent + outcome.toNat = message.length := by omega
    rw [hall, List.drop_length, List.append_nil] at hsplit
    exact Tidy.finish tidy.terminated tidy.pending hsplit hothers tidy.confirmed hall

theorem Tidy.step {w : Wire n} {e : Event n} (tidy : Tidy w) (enabled : Enabled w e)
    (succeeds : ∀ t outcome, e = .send t outcome → 0 < outcome) : Tidy (next c w e) := by
  cases e with
  | submitShare t loaded share => exact tidy.submitShare enabled
  | acquire t =>
    obtain ⟨free, message, waiting⟩ := enabled
    exact tidy.acquire free waiting
  | send t outcome =>
    obtain ⟨message, totalSent, sending, _, fits⟩ := enabled
    exact tidy.send sending fits (succeeds t outcome rfl)

theorem tidy_run {h : List (Wire n × Event n)} {w : Wire n}
    (run : Run (machine c n) (AfterLogin c) h w) (succeed : SendsSucceed h) : Tidy w := by
  apply run.invariant_of_steps (P := fun _ w => Tidy w)
    (Q := fun _ e => ∀ t outcome, e = .send t outcome → 0 < outcome)
  · exact fun _ login => tidy_afterLogin login
  · exact fun _ _ _ tidy enabled succeeds => tidy.step enabled succeeds
  · rintro ⟨v, e⟩ hm t outcome rfl
    exact succeed v t outcome hm

theorem finished_next {w : Wire n} {e : Event n} {f : Finished} (hf : f ∈ w.finished) :
    f ∈ (next c w e).finished := by
  cases e with
  | submitShare t loaded share => exact hf
  | acquire t =>
    simp only [next]
    split <;> exact hf
  | send t outcome =>
    simp only [next]
    split
    · simp only [afterSend]
      split
      · exact List.mem_cons_of_mem _ hf
      · split
        · exact hf
        · exact List.mem_cons_of_mem _ hf
    · exact hf

/-- A failed call of `send` leaves a call that returned true too early. -/
theorem failed_send_returns {w : Wire n} {t : Fin n} {outcome : Int}
    (enabled : Enabled w (.send t outcome)) (failed : outcome ≤ 0) :
    ∃ f ∈ (next c w (.send t outcome)).finished,
      f.returned = true ∧ f.accepted < f.message.length := by
  obtain ⟨message, totalSent, sending, more, _⟩ := enabled
  refine ⟨⟨message, totalSent, true⟩, ?_, rfl, more⟩
  simp only [next, sending, afterSend, if_pos failed]
  exact List.mem_cons_self

theorem failed_send_remains {h : List (Wire n × Event n)} {w : Wire n}
    (run : Run (machine c n) (AfterLogin c) h w) {v : Wire n} {t : Fin n} {outcome : Int}
    (hm : (v, .send t outcome) ∈ h) (failed : outcome ≤ 0) :
    ∃ f ∈ w.finished, f.returned = true ∧ f.accepted < f.message.length := by
  induction run with
  | init _ => cases hm
  | step run enabled ih =>
    rcases List.mem_cons.mp hm with new | old
    · obtain ⟨rfl, rfl⟩ := Prod.mk.inj new
      exact failed_send_returns (c := c) enabled failed
    · obtain ⟨f, hf, early⟩ := ih old
      exact ⟨f, finished_next hf, early⟩

/-- In every run the messages stay whole, and are confirmed only when whole, if
and only if no call of `send` fails. -/
theorem alwaysWhole_iff_sendsSucceed {h : List (Wire n × Event n)} {w : Wire n}
    (run : Run (machine c n) (AfterLogin c) h w) : AlwaysWhole h w ↔ SendsSucceed h := by
  constructor
  · intro whole v t outcome hm
    by_contra failed
    obtain ⟨f, hf, returned, early⟩ := failed_send_remains run hm (Int.not_lt.mp failed)
    have hall := whole.2.confirmed f hf returned
    omega
  · intro succeed
    refine ⟨?_, (tidy_run run succeed).whole⟩
    rintro ⟨v, e⟩ hm
    obtain ⟨newer, older, rfl⟩ := List.append_of_mem hm
    refine (tidy_run run.before.1 ?_).whole
    exact fun u t outcome hu => succeed u t outcome (by simp [hu])

def sampleCredentials : Credentials := ⟨lit "4", lit "x", lit "worker1"⟩

def sampleShare : Share := ⟨lit "1", lit "00000000", lit "00"⟩

def loggedIn : Wire 3 :=
  ⟨1, none, fun _ => .idle, loginText sampleCredentials, [loginText sampleCredentials], []⟩

/-- Thread 0 sends five bytes and runs into the send timeout; thread 1 follows. -/
def tornMessage : List (Event 3) :=
  [.submitShare 0 1 sampleShare, .acquire 0, .send 0 5, .send 0 (-1),
    .submitShare 1 2 sampleShare, .acquire 1, .send 1 10]

def tornMessageRun : List (Wire 3 × Event 3) × Wire 3 :=
  replay (machine sampleCredentials 3) tornMessage ([], loggedIn)

theorem tornMessage_run : Run (machine sampleCredentials 3) (AfterLogin sampleCredentials)
    tornMessageRun.1 tornMessageRun.2 := by
  refine replay_run (.init ⟨rfl, fun _ => rfl, rfl, rfl, rfl⟩) _ ?_
  refine ⟨rfl, ⟨rfl, _, rfl⟩, ⟨_, _, rfl, ?_, ?_⟩, ⟨_, _, rfl, ?_, ?_⟩, rfl, ⟨rfl, _, rfl⟩,
    ⟨_, _, rfl, ?_, ?_⟩, trivial⟩ <;> decide +kernel

theorem alwaysWhole_iff_sendsSucceed_tornMessage :
    AlwaysWhole tornMessageRun.1 tornMessageRun.2 ↔ SendsSucceed tornMessageRun.1 :=
  alwaysWhole_iff_sendsSucceed tornMessage_run

/-- The second message starts in the middle of the first one. -/
theorem alwaysWhole_fails_tornMessage :
    Run (machine sampleCredentials 3) (AfterLogin sampleCredentials)
        tornMessageRun.1 tornMessageRun.2 ∧
      ¬ tornMessageRun.2.sent <+: tornMessageRun.2.order.flatten ∧
      ¬ AlwaysWhole tornMessageRun.1 tornMessageRun.2 := by
  have torn : ¬ tornMessageRun.2.sent <+: tornMessageRun.2.order.flatten := by decide +kernel
  exact ⟨tornMessage_run, torn, fun whole => torn whole.2.framed⟩

end SendMessage
