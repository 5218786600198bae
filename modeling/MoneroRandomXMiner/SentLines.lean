import MoneroRandomXMiner.StreamLines
import MoneroRandomXMiner.MessageFields

/-!
# The lines that reach the pool

While no call of `send` fails, the socket has accepted the login message, the
messages of the finished calls in lock order and a proper part of the message
being sent. A reader that splits the stream into lines and parses them as JSON
gets one share from each finished call.
-/

namespace SentLines

open Histories HexText MiningBlob SendMessage MessageFields JsonSyntax JsonFields StreamLines

variable {n : Nat} {c : Credentials}

/-- The messages of the calls that have returned, oldest first. -/
def finishedMessages (w : Wire n) : List Text := w.finished.reverse.map Finished.message

/-- The state between events while no send fails, in terms of the finished calls. -/
structure Progress (c : Credentials) (w : Wire n) : Prop where
  free : w.lock = none → w.sent = loginText c ++ (finishedMessages w).flatten
  held : ∀ t, w.lock = some t → ∃ message k, w.phases t = .sending message k ∧
    k < message.length ∧ w.sent = loginText c ++ (finishedMessages w).flatten ++ message.take k
  holder : ∀ t message k, w.phases t = .sending message k → w.lock = some t
  waiting : ∀ t message, w.phases t = .waiting message → message ≠ []

theorem progress_afterLogin {w : Wire n} (login : AfterLogin c w) : Progress c w where
  free := by
    intro _
    rw [login.sent, finishedMessages, login.finished]
    exact (List.append_nil _).symm
  held := by
    intro t hlock
    rw [login.free] at hlock
    cases hlock
  holder := by
    intro t message k sending
    rw [login.idle t] at sending
    cases sending
  waiting := by
    intro t message waiting
    rw [login.idle t] at waiting
    cases waiting

theorem submitText_ne_nil (c : Credentials) (id : UInt32) (share : Share) :
    submitText c id share ≠ [] := by
  obtain ⟨text, h⟩ := submitText_terminated c id share
  rw [h]
  exact List.append_ne_nil_of_right_ne_nil _ (List.cons_ne_nil _ _)

theorem Progress.submitShare {w : Wire n} {t : Fin n} {loaded : UInt32} {share : Share}
    (progress : Progress c w) (idle : w.phases t = .idle) :
    Progress c (SendMessage.next c w (.submitShare t loaded share)) where
  free := progress.free
  held := by
    intro u hlock
    obtain ⟨message, k, sending, more, sent⟩ := progress.held u hlock
    have hu : u ≠ t := by
      rintro rfl
      rw [idle] at sending
      cases sending
    exact ⟨message, k, (Function.update_of_ne hu _ _).trans sending, more, sent⟩
  holder := by
    intro u message k sending
    by_cases hu : u = t
    · subst hu
      cases (Function.update_self u _ w.phases).symm.trans sending
    · exact progress.holder u message k ((Function.update_of_ne hu _ _).symm.trans sending)
  waiting := by
    intro u message waiting
    by_cases hu : u = t
    · subst hu
      have same := Phase.waiting.inj ((Function.update_self u _ w.phases).symm.trans waiting)
      exact same ▸ submitText_ne_nil c _ share
    · exact progress.waiting u message ((Function.update_of_ne hu _ _).symm.trans waiting)

theorem Progress.acquire {w : Wire n} {t : Fin n} {message : Text} (progress : Progress c w)
    (free : w.lock = none) (waiting : w.phases t = .waiting message) :
    Progress c (SendMessage.next c w (.acquire t)) := by
  have hnext : SendMessage.next c w (.acquire t) =
      { w with
        lock := some t
        phases := Function.update w.phases t (.sending message 0)
        order := w.order ++ [message] } := by
    simp only [SendMessage.next, waiting]
  have more := List.length_pos_iff.mpr (progress.waiting t message waiting)
  rw [hnext]
  constructor
  · intro hlock
    cases hlock
  · intro u hlock
    obtain rfl := Option.some.inj hlock
    refine ⟨message, 0, Function.update_self _ _ _, more, ?_⟩
    rw [List.take_zero, List.append_nil]
    exact progress.free free
  · intro u m k sending
    by_cases hu : u = t
    · rw [hu]
    · have before := progress.holder u m k ((Function.update_of_ne hu _ _).symm.trans sending)
      rw [free] at before
      cases before
  · intro u m hwaiting
    by_cases hu : u = t
    · subst hu
      cases (Function.update_self u _ w.phases).symm.trans hwaiting
    · exact progress.waiting u m ((Function.update_of_ne hu _ _).symm.trans hwaiting)

theorem finishedMessages_finish (w : Wire n) (t : Fin n) (message : Text) (k : Nat) :
    finishedMessages (finish w t message k) = finishedMessages w ++ [message] := by
  simp [finishedMessages, finish]

/-- A successful call of `send` goes on with the message or finishes it. -/
theorem Progress.send {w : Wire n} {t : Fin n} {message : Text} {k : Nat} {outcome : Int}
    (progress : Progress c w) (sending : w.phases t = .sending message k)
    (fits : outcome ≤ message.length - k) (positive : 0 < outcome) :
    Progress c (SendMessage.next c w (.send t outcome)) := by
  have hlock := progress.holder t message k sending
  obtain ⟨message', k', sending', _, sent⟩ := progress.held t hlock
  obtain ⟨rfl, rfl⟩ := Phase.sending.inj (sending.symm.trans sending')
  have hcount : (outcome.toNat : Int) = outcome := Int.toNat_of_nonneg (by omega)
  have grown : w.sent ++ (message.drop k).take outcome.toNat =
      loginText c ++ (finishedMessages w).flatten ++ message.take (k + outcome.toNat) := by
    rw [sent, List.append_assoc, ← List.take_add]
  have alone : ∀ u m j, u ≠ t → w.phases u ≠ .sending m j := by
    intro u m j hu other
    have := progress.holder u m j other
    exact hu (Option.some.inj (this.symm.trans hlock))
  simp only [SendMessage.next, sending, afterSend, if_neg (Int.not_le.mpr positive)]
  split
  · rename_i more
    constructor
    · intro free
      rw [hlock] at free
      cases free
    · intro u hu
      obtain rfl := Option.some.inj (hlock.symm.trans hu)
      exact ⟨message, _, Function.update_self _ _ _, more, grown⟩
    · intro u m j other
      by_cases hu : u = t
      · rw [hu]
        exact hlock
      · exact absurd ((Function.update_of_ne hu _ _).symm.trans other) (alone u m j hu)
    · intro u m waiting
      by_cases hu : u = t
      · subst hu
        cases (Function.update_self u _ w.phases).symm.trans waiting
      · exact progress.waiting u m ((Function.update_of_ne hu _ _).symm.trans waiting)
  · have all : k + outcome.toNat = message.length := by omega
    constructor
    · intro _
      rw [finishedMessages_finish, List.flatten_append, List.flatten_singleton,
        ← List.append_assoc]
      exact grown.trans (by rw [all, List.take_length]; rfl)
    · intro u hu
      cases hu
    · intro u m j other
      by_cases hu : u = t
      · subst hu
        cases (Function.update_self u _ w.phases).symm.trans other
      · exact absurd ((Function.update_of_ne hu _ _).symm.trans other) (alone u m j hu)
    · intro u m waiting
      by_cases hu : u = t
      · subst hu
        cases (Function.update_self u _ w.phases).symm.trans waiting
      · exact progress.waiting u m ((Function.update_of_ne hu _ _).symm.trans waiting)

theorem Progress.step {w : Wire n} {e : SendMessage.Event n} (progress : Progress c w)
    (enabled : SendMessage.Enabled w e)
    (succeeds : ∀ t outcome, e = .send t outcome → 0 < outcome) :
    Progress c (SendMessage.next c w e) := by
  cases e with
  | submitShare t loaded share => exact progress.submitShare enabled
  | acquire t =>
    obtain ⟨free, message, waiting⟩ := enabled
    exact progress.acquire free waiting
  | send t outcome =>
    obtain ⟨message, k, sending, _, fits⟩ := enabled
    exact progress.send sending fits (succeeds t outcome rfl)

theorem progress_run {h : List (Wire n × SendMessage.Event n)} {w : Wire n}
    (run : Run (SendMessage.machine c n) (AfterLogin c) h w) (succeed : SendsSucceed h) :
    Progress c w := by
  apply run.invariant_of_steps (P := fun _ w => Progress c w)
    (Q := fun _ e => ∀ t outcome, e = .send t outcome → 0 < outcome)
  · exact fun _ login => progress_afterLogin login
  · exact fun _ _ _ progress enabled succeeds => progress.step enabled succeeds
  · rintro ⟨v, e⟩ hm t outcome rfl
    exact succeed v t outcome hm

/-- One newline, at the end. -/
def OneLine (message : Text) : Prop := ∃ line, message = line ++ [10] ∧ 10 ∉ line

theorem oneLine_submitText {share : Share} (id : UInt32) (worker : Plain c.worker)
    (jobId : Plain share.jobId) (nonce : Plain share.nonce) (result : Plain share.result) :
    OneLine (submitText c id share) :=
  ((faithful_submitText_iff c id share).mpr ⟨worker, jobId, nonce, result⟩).newline

theorem oneLine_loginText (wallet : Plain c.wallet) (password : Plain c.password)
    (worker : Plain c.worker) : OneLine (loginText c) :=
  ((faithful_loginText_iff c).mpr ⟨wallet, password, worker⟩).newline

theorem flatten_oneLine {messages : List Text} (oneLine : ∀ m ∈ messages, OneLine m) :
    messages.flatten = (messages.map List.dropLast).flatMap (· ++ [10]) ∧
      ∀ line ∈ messages.map List.dropLast, 10 ∉ line := by
  induction messages with
  | nil => exact ⟨rfl, fun _ hl => nomatch hl⟩
  | cons message messages ih =>
    obtain ⟨hflat, hfree⟩ := ih fun m hm => oneLine m (List.mem_cons_of_mem message hm)
    obtain ⟨line, rfl, free⟩ := oneLine message List.mem_cons_self
    constructor
    · rw [List.flatten_cons, hflat, List.map_cons, List.flatMap_cons, List.dropLast_concat]
    · rw [List.map_cons, List.dropLast_concat]
      exact List.forall_mem_cons.mpr ⟨free, hfree⟩

/-- A part of a message that is not the whole of it has no newline. -/
theorem take_oneLine {message : Text} (oneLine : OneLine message) {k : Nat}
    (more : k < message.length) : 10 ∉ message.take k := by
  obtain ⟨line, rfl, free⟩ := oneLine
  rw [List.length_append, List.length_singleton] at more
  rw [List.take_append_of_le_length (Nat.le_of_lt_succ more)]
  exact fun hm => free (List.mem_of_mem_take hm)

/-- The complete lines are the login and the messages of the finished calls. -/
theorem Progress.completeLines {w : Wire n} (progress : Progress c w)
    (login : OneLine (loginText c)) (finished : ∀ m ∈ finishedMessages w, OneLine m)
    (current : ∀ t m k, w.phases t = .sending m k → OneLine m) :
    completeLines 10 w.sent = (loginText c :: finishedMessages w).map List.dropLast := by
  obtain ⟨rest, sent, tail⟩ : ∃ rest,
      w.sent = (loginText c :: finishedMessages w).flatten ++ rest ∧ 10 ∉ rest := by
    cases hlock : w.lock with
    | none => exact ⟨[], by rw [List.append_nil]; exact progress.free hlock, List.not_mem_nil⟩
    | some t =>
      obtain ⟨message, k, sending, more, sent⟩ := progress.held t hlock
      exact ⟨_, sent, take_oneLine (current t message k sending) more⟩
  obtain ⟨hflat, hfree⟩ := flatten_oneLine (List.forall_mem_cons.mpr ⟨login, finished⟩)
  rw [sent, hflat]
  exact (lines_written hfree tail).1

/-- The member of a JSON object under a key. -/
def memberOf (v : Value) (key : Text) : Option Value :=
  match v with
  | .object members => members.lookup key
  | _ => none

def textOf (v : Value) : Option Text :=
  match v with
  | .string text => some text
  | _ => none

/-- How the pool reads a line, with the newline that ended it: the share of a
well-formed submission. -/
def readShare (line : Text) : Option Share := do
  let message ← parse (line ++ [10])
  let method ← (memberOf message (lit "method")).bind textOf
  let params ← memberOf message (lit "params")
  if method = lit "submit" then
    let jobId ← (memberOf params (lit "job_id")).bind textOf
    let nonce ← (memberOf params (lit "nonce")).bind textOf
    let result ← (memberOf params (lit "result")).bind textOf
    return ⟨jobId, nonce, result⟩
  else none

theorem parse_submitText {share : Share} (id : UInt32) (worker : Plain c.worker)
    (jobId : Plain share.jobId) (nonce : Plain share.nonce) (result : Plain share.result) :
    parse (submitText c id share) = some (.object [(lit "id", .number (decimal id.toNat)),
      (lit "method", .string (lit "submit")),
      (lit "params", .object (fieldValues (submitFields c share)))]) := by
  rw [submitText_eq]
  refine parse_requestText (by decide) (by simp [submitFields]) ?_ ?_
  · have hnames : Plain (lit "id") ∧ Plain (lit "job_id") ∧ Plain (lit "nonce") ∧
        Plain (lit "result") := by decide
    simpa [submitFields] using hnames
  · simpa [submitFields] using ⟨worker, jobId, nonce, result⟩

theorem parse_loginText (wallet : Plain c.wallet) (password : Plain c.password)
    (worker : Plain c.worker) :
    parse (loginText c) = some (.object [(lit "id", .number (decimal 1)),
      (lit "method", .string (lit "login")),
      (lit "params", .object (fieldValues (loginFields c)))]) := by
  have hagent : Plain (lit "CPPMiner/1.0") := by decide
  rw [loginText_eq]
  refine parse_requestText (by decide) (by simp [loginFields]) ?_ ?_
  · have hnames : Plain (lit "login") ∧ Plain (lit "pass") ∧ Plain (lit "agent") ∧
        Plain (lit "worker") := by decide
    simpa [loginFields] using hnames
  · simpa [loginFields] using ⟨wallet, password, hagent, worker⟩

theorem dropLast_oneLine {message : Text} (oneLine : OneLine message) :
    message.dropLast ++ [10] = message := by
  obtain ⟨line, rfl, _⟩ := oneLine
  rw [List.dropLast_concat]

/-- The pool reads the share that was submitted. -/
theorem readShare_submitText {share : Share} (id : UInt32) (worker : Plain c.worker)
    (jobId : Plain share.jobId) (nonce : Plain share.nonce) (result : Plain share.result) :
    readShare (submitText c id share).dropLast = some share := by
  rw [readShare, dropLast_oneLine (oneLine_submitText id worker jobId nonce result),
    parse_submitText id worker jobId nonce result]
  rfl

theorem readShare_loginText (wallet : Plain c.wallet) (password : Plain c.password)
    (worker : Plain c.worker) : readShare (loginText c).dropLast = none := by
  rw [readShare, dropLast_oneLine (oneLine_loginText wallet password worker),
    parse_loginText wallet password worker]
  rfl

end SentLines
