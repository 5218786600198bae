import MoneroRandomXMiner.Histories
import MoneroRandomXMiner.HandleMessage

/-!
# The destruction of a miner against its receive thread

`~RandomXMiner` joins the workers and frees the RandomX objects. The receive
thread goes on until the client is destroyed, and the client is declared before
every member that a callback uses, so it is destroyed after all of them. A
message that arrives in between runs its callbacks on destroyed members.
-/

namespace Teardown

open Histories HexText MiningBlob HandleMessage

/-- The members of `RandomXMiner`. -/
inductive Member where
  | config
  | stratum
  | miningThreads
  | running
  | newJob
  | totalHashes
  | startTime
  | jobMutex
  | currentJob
  | currentSeedHash
  | rxMutex
  | rxCache
  | rxDataset
  | rxVms
  | acceptedShares
  | rejectedShares
  deriving DecidableEq

/-- In the order of their declaration. -/
def members : List Member :=
  [.config, .stratum, .miningThreads, .running, .newJob, .totalHashes, .startTime, .jobMutex,
    .currentJob, .currentSeedHash, .rxMutex, .rxCache, .rxDataset, .rxVms, .acceptedShares,
    .rejectedShares]

inductive Action where
  | stopMining
  | destroyVms
  | releaseDataset
  | releaseCache
  | stopClient
  | destroy (m : Member)
  deriving DecidableEq

/-- The destructor's body and then the members, last declared first. The
destructor of the client stops the client before anything else. -/
def teardown : List Action :=
  [.stopMining, .destroyVms, .releaseDataset, .releaseCache] ++
    members.reverse.flatMap fun m =>
      if m = .stratum then [.stopClient, .destroy m] else [.destroy m]

/-- The members that a callback uses. -/
def uses : Callback → List Member
  | .job _ => [.jobMutex, .currentJob, .newJob]
  | .share true _ => [.acceptedShares]
  | .share false _ => [.rejectedShares]

/-- The receive thread: the callback it is in, the calls that the message in
hand still leads to, and the received lines not yet handled. -/
inductive Receiver where
  | absent
  | atTest
  | inRecv
  | handling (current : Option Callback) (pending : List Callback) (lines : List Text)
  | ended

/-- `remaining` is what is left of the destruction, `clientRunning` the client's `m_running`. -/
structure State where
  remaining : List Action
  clientRunning : Bool
  receiver : Receiver

inductive Event where
  | destruct
  | test
  | recv (lines : List Text)
  | timeOut
  | connectionEnds
  | nextLine
  | enter
  | leave

/-- The receive thread is joined before the client is destroyed. -/
def Joined : Receiver → Prop
  | .absent | .ended => True
  | _ => False

def Enabled (s : State) : Event → Prop
  | .destruct =>
    match s.remaining with
    | [] => False
    | .destroy .stratum :: _ => Joined s.receiver
    | _ => True
  | .test => s.receiver = .atTest
  | .recv _ | .timeOut | .connectionEnds => s.receiver = .inRecv
  | .nextLine => ∃ lines, s.receiver = .handling none [] lines
  | .enter => ∃ c pending lines, s.receiver = .handling none (c :: pending) lines
  | .leave => ∃ c pending lines, s.receiver = .handling (some c) pending lines

def nextReceiver (lib : JsonLibrary) (clientRunning : Bool) (r : Receiver) : Event → Receiver
  | .destruct => r
  | .test => if clientRunning then .inRecv else .ended
  | .recv lines => .handling none [] lines
  | .timeOut => .atTest
  | .connectionEnds => .ended
  | .nextLine =>
    match r with
    | .handling none [] (line :: lines) => .handling none (callbacks lib line) lines
    | _ => .atTest
  | .enter =>
    match r with
    | .handling none (c :: pending) lines => .handling (some c) pending lines
    | _ => r
  | .leave =>
    match r with
    | .handling (some _) pending lines => .handling none pending lines
    | _ => r

def next (lib : JsonLibrary) (s : State) (e : Event) : State :=
  let s := { s with receiver := nextReceiver lib s.clientRunning s.receiver e }
  match e with
  | .destruct =>
    { s with
      remaining := s.remaining.tail
      clientRunning := s.clientRunning && s.remaining.head? != some .stopClient }
  | _ => s

def machine (lib : JsonLibrary) : Machine State Event where
  Enabled := Enabled
  next := next lib

/-- The destructor is about to be called. -/
def Started (s : State) : Prop := s.remaining = teardown

def Alive (s : State) (m : Member) : Prop := .destroy m ∈ s.remaining

instance (s : State) (m : Member) : Decidable (Alive s m) := inferInstanceAs (Decidable (_ ∈ _))

def Usable (s : State) (c : Callback) : Prop := ∀ m ∈ uses c, Alive s m

/-- The callback in progress, if there is one, has all its members. -/
def Safe (s : State) : Prop :=
  ∀ c pending lines, s.receiver = .handling (some c) pending lines → Usable s c

/-- The callbacks that handling the message in hand still involves. -/
def Receiver.owed : Receiver → List Callback
  | .handling current pending _ => current.toList ++ pending
  | _ => []

/-- The share counter that was declared last has been destroyed, as the first member. -/
def MembersGo (s : State) : Prop := ¬ Alive s .rejectedShares

instance (s : State) : Decidable (MembersGo s) := inferInstanceAs (Decidable (¬ _))

/-- Between the destruction of the first member and the join of the receive thread
no line that involves a callback is taken up, and none is in hand when that
destruction begins. -/
def Orderly (lib : JsonLibrary) (s : State) : Event → Prop
  | .nextLine =>
    MembersGo s → ∀ line lines, s.receiver = .handling none [] (line :: lines) →
      callbacks lib line = []
  | .destruct => s.remaining.head? = some (.destroy .rejectedShares) → s.receiver.owed = []
  | _ => True

variable {lib : JsonLibrary}

theorem usable_congr {s t : State} {c : Callback} (same : t.remaining = s.remaining) :
    Usable t c ↔ Usable s c := by
  simp only [Usable, Alive, same]

theorem Safe.of_owed {s : State} (owed : ∀ c ∈ s.receiver.owed, Usable s c) : Safe s := by
  intro c pending lines hr
  exact owed c (by simp [Receiver.owed, hr])

theorem next_remaining {s : State} {e : Event} (hne : e ≠ .destruct) :
    (next lib s e).remaining = s.remaining := by
  cases e with
  | destruct => exact absurd rfl hne
  | _ => rfl

theorem next_receiver (s : State) (e : Event) :
    (next lib s e).receiver = nextReceiver lib s.clientRunning s.receiver e := by
  cases e <;> rfl

/-- A step of the receive thread owes what it owed before, or the callbacks of
the line it starts on. -/
theorem owed_next {s : State} {e : Event} {c : Callback} (enabled : Enabled s e)
    (owed : c ∈ (nextReceiver lib s.clientRunning s.receiver e).owed) :
    c ∈ s.receiver.owed ∨
      ∃ line lines, e = .nextLine ∧ s.receiver = .handling none [] (line :: lines) ∧
        c ∈ callbacks lib line := by
  cases e with
  | destruct => exact Or.inl owed
  | test =>
    simp only [nextReceiver] at owed
    split at owed <;> cases owed
  | recv lines => cases owed
  | timeOut => cases owed
  | connectionEnds => cases owed
  | nextLine =>
    obtain ⟨lines, hr⟩ := enabled
    rw [hr] at owed
    cases lines with
    | nil => cases owed
    | cons line lines => exact Or.inr ⟨line, lines, rfl, hr, owed⟩
  | enter =>
    obtain ⟨d, pending, lines, hr⟩ := enabled
    rw [hr] at owed ⊢
    exact Or.inl owed
  | leave =>
    obtain ⟨d, pending, lines, hr⟩ := enabled
    rw [hr] at owed ⊢
    exact Or.inl (List.mem_cons_of_mem d owed)

/-- Members are destroyed in the order of the destruction, each of them once. -/
theorem remaining_run {h : List (State × Event)} {s : State}
    (run : Run (machine lib) Started h s) : s.remaining <:+ teardown := by
  apply run.invariant (P := fun _ s => s.remaining <:+ teardown)
  · exact fun t started => started ▸ List.suffix_refl _
  · intro h s e suffix _
    by_cases he : e = .destruct
    · subst he
      exact (List.tail_suffix s.remaining).trans suffix
    · change (next lib s e).remaining <:+ teardown
      rw [next_remaining he]
      exact suffix

/-- What holds of every rest of the destruction, as a finite check. -/
theorem of_suffix {P : List Action → Prop} (all : ∀ rest ∈ teardown.tails, P rest) {s : State}
    (suffix : s.remaining <:+ teardown) : P s.remaining :=
  all _ ((List.mem_tails _ _).mpr suffix)

/-- Until the first member goes, all are there. -/
theorem usable_of_not_membersGo {s : State} (suffix : s.remaining <:+ teardown)
    (whole : ¬ MembersGo s) (c : Callback) : Usable s c := by
  have first : ∀ m, .destroy .rejectedShares ∈ s.remaining → .destroy m ∈ s.remaining := by
    intro m
    apply of_suffix (P := fun rest => .destroy .rejectedShares ∈ rest → .destroy m ∈ rest) _ suffix
    cases m <;> decide
  exact fun m _ => first m (Classical.not_not.mp whole)

/-- The members begin to go with the destruction of the first one. -/
theorem membersGo_next {s : State} {e : Event} (whole : ¬ MembersGo s)
    (goes : MembersGo (next lib s e)) :
    e = .destruct ∧ s.remaining.head? = some (.destroy .rejectedShares) := by
  unfold MembersGo Alive at whole goes
  by_cases he : e = .destruct
  · subst he
    refine ⟨rfl, ?_⟩
    rw [Classical.not_not] at whole
    cases hrem : s.remaining with
    | nil =>
      rw [hrem] at whole
      cases whole
    | cons a rest =>
      rw [hrem] at whole
      rcases List.mem_cons.mp whole with rfl | later
      · rfl
      · simp only [next, hrem, List.tail_cons] at goes
        exact absurd later goes
  · rw [next_remaining he] at goes
    exact absurd goes whole

/-- The invariant of an orderly run: once the members go, no callback is in hand. -/
theorem owed_nil_run {h : List (State × Event)} {s : State}
    (run : Run (machine lib) Started h s) (orderly : ∀ m ∈ h, Orderly lib m.1 m.2) :
    MembersGo s → s.receiver.owed = [] := by
  apply run.invariant_of_steps (P := fun _ s => MembersGo s → s.receiver.owed = [])
    (Q := Orderly lib) _ _ orderly
  · intro t started goes
    refine absurd ?_ goes
    rw [Alive, started]
    decide
  · intro h s e quiet enabled order goes
    change (next lib s e).receiver.owed = []
    change MembersGo (next lib s e) at goes
    rw [next_receiver]
    by_cases before : MembersGo s
    · refine List.eq_nil_iff_forall_not_mem.mpr fun c owed => ?_
      rcases owed_next enabled owed with old | ⟨line, lines, rfl, hr, new⟩
      · rw [quiet before] at old
        cases old
      · rw [order before line lines hr] at new
        cases new
    · obtain ⟨rfl, hhead⟩ := membersGo_next before goes
      exact order hhead

/-- What the message in hand still involves will be done: nothing stops it. -/
theorem unsafe_of_owed (pending : List Callback) {s : State} {current : Option Callback}
    {lines : List Text} {c : Callback} (hr : s.receiver = .handling current pending lines)
    (owed : c ∈ s.receiver.owed) (unusable : ¬ Usable s c) :
    ∃ s', Leads (machine lib) s s' ∧ ¬ Safe s' := by
  induction pending generalizing s current with
  | nil =>
    rw [hr, Receiver.owed, List.append_nil, Option.mem_toList] at owed
    rw [owed] at hr
    exact ⟨s, .refl, fun safe => unusable (safe c [] lines hr)⟩
  | cons d pending ih =>
    have enters : ∀ t : State, t.remaining = s.remaining →
        t.receiver = .handling none (d :: pending) lines → c ∈ d :: pending →
        ∃ s', Leads (machine lib) t s' ∧ ¬ Safe s' := by
      intro t hrem ht later
      have hnext : (next lib t .enter).receiver = .handling (some d) pending lines := by
        rw [next_receiver, ht, nextReceiver]
      obtain ⟨s', leads, bad⟩ := ih hnext (by simpa [Receiver.owed, hnext] using later)
        (mt (usable_congr hrem).mp unusable)
      exact ⟨s', leads.head (e := .enter) ⟨d, pending, lines, ht⟩, bad⟩
    cases current with
    | none => exact enters s rfl hr (by simpa [Receiver.owed, hr] using owed)
    | some b =>
      by_cases hb : c = b
      · subst hb
        exact ⟨s, .refl, fun safe => unusable (safe c _ lines hr)⟩
      · have hnext : (next lib s .leave).receiver = .handling none (d :: pending) lines := by
          rw [next_receiver, hr, nextReceiver]
        obtain ⟨s', leads, bad⟩ := enters (next lib s .leave) rfl hnext
          (by simpa [Receiver.owed, hr, hb] using owed)
        exact ⟨s', leads.head (e := .leave) ⟨b, d :: pending, lines, hr⟩, bad⟩

theorem not_usable {s : State}
    (gone : ∀ m ∈ [.jobMutex, .acceptedShares, .rejectedShares], ¬ Alive s m) (c : Callback) :
    ¬ Usable s c := by
  intro usable
  cases c with
  | job j => exact gone .jobMutex (by decide) (usable .jobMutex List.mem_cons_self)
  | share accepted response =>
    cases accepted with
    | true => exact gone .acceptedShares (by decide) (usable .acceptedShares List.mem_cons_self)
    | false => exact gone .rejectedShares (by decide) (usable .rejectedShares List.mem_cons_self)

/-- The client is destroyed after every member that a callback uses: until then
nothing that the receive thread has in hand keeps the destruction from going on. -/
theorem client_reached {s : State} (suffix : s.remaining <:+ teardown) :
    ∃ s', Leads (machine lib) s s' ∧ s'.receiver = s.receiver ∧ ∀ c, ¬ Usable s' c := by
  induction hrem : s.remaining generalizing s with
  | nil =>
    refine ⟨s, .refl, rfl, not_usable fun m _ alive => ?_⟩
    rw [Alive, hrem] at alive
    cases alive
  | cons a rest ih =>
    by_cases client : a = .destroy .stratum
    · have last : s.remaining.head? = some (.destroy .stratum) →
          s.remaining = [.destroy .stratum, .destroy .config] := by
        apply of_suffix (P := fun rest => rest.head? = some (.destroy .stratum) →
          rest = [.destroy .stratum, .destroy .config]) _ suffix
        decide
      refine ⟨s, .refl, rfl, not_usable ?_⟩
      simp only [Alive, last (by rw [hrem, client]; rfl)]
      decide
    · have enabled : Enabled s .destruct := by
        simp only [Enabled, hrem]
        split
        · simp_all
        · simp_all
        · trivial
      have tail : (next lib s .destruct).remaining = rest := by
        simp only [next, hrem, List.tail_cons]
      obtain ⟨s', leads, same, unusable⟩ := ih (s := next lib s .destruct)
        (by rw [tail]; exact (hrem ▸ List.suffix_cons a rest).trans suffix) tail
      exact ⟨s', leads.head (e := .destruct) enabled, same, unusable⟩

/-- A callback in hand can come to run without its members. -/
theorem unsafe_of_hand {s : State} {c : Callback} (suffix : s.remaining <:+ teardown)
    (owed : c ∈ s.receiver.owed) : ∃ s', Leads (machine lib) s s' ∧ ¬ Safe s' := by
  obtain ⟨t, leads, same, unusable⟩ := @client_reached lib s suffix
  cases hr : s.receiver with
  | handling current pending lines =>
    rw [hr] at same
    obtain ⟨s', later, bad⟩ := unsafe_of_owed pending (c := c) same
      (by rwa [same, ← hr]) (unusable c)
    exact ⟨s', leads.trans later, bad⟩
  | _ =>
    rw [hr] at owed
    cases owed

theorem unsafe_of_disorderly {s : State} {e : Event} (suffix : s.remaining <:+ teardown)
    (disorderly : ¬ Orderly lib s e) :
    ∃ s', Leads (machine lib) (next lib s e) s' ∧ ¬ Safe s' := by
  have after : (next lib s e).remaining <:+ teardown := by
    by_cases he : e = .destruct
    · subst he
      exact (List.tail_suffix s.remaining).trans suffix
    · rw [next_remaining he]
      exact suffix
  cases e with
  | destruct =>
    simp only [Orderly, not_forall] at disorderly
    obtain ⟨_, busy⟩ := disorderly
    obtain ⟨c, owed⟩ := List.exists_mem_of_ne_nil _ busy
    exact unsafe_of_hand (c := c) after owed
  | nextLine =>
    simp only [Orderly, not_forall] at disorderly
    obtain ⟨_, line, lines, hr, busy⟩ := disorderly
    obtain ⟨c, new⟩ := List.exists_mem_of_ne_nil _ busy
    have hnext : (next lib s .nextLine).receiver = .handling none (callbacks lib line) lines := by
      rw [next_receiver, hr, nextReceiver]
    exact unsafe_of_hand after (c := c) (by simpa [Receiver.owed, hnext] using new)
  | _ => exact absurd trivial disorderly

/-- In every run whose steps are orderly, each callback has its members while it
runs; and one disorderly step more, and the run can be continued to a state in
which a callback runs without one of them. -/
theorem orderly_safe {h : List (State × Event)} {s : State}
    (run : Run (machine lib) Started h s) (orderly : ∀ m ∈ h, Orderly lib m.1 m.2) :
    Safe s ∧
      ∀ e, Enabled s e → ¬ Orderly lib s e →
        ∃ newer s', Run (machine lib) Started (newer ++ (s, e) :: h) s' ∧ ¬ Safe s' := by
  have suffix := remaining_run run
  refine ⟨.of_owed fun c owed => usable_of_not_membersGo suffix (fun goes => ?_) c, ?_⟩
  · rw [owed_nil_run run orderly goes] at owed
    cases owed
  intro e enabled disorderly
  obtain ⟨s', leads, bad⟩ := unsafe_of_disorderly suffix disorderly
  have taken : Run (machine lib) Started ((s, e) :: h) (next lib s e) := run.step enabled
  obtain ⟨newer, run'⟩ := taken.extend leads
  exact ⟨newer, s', run', bad⟩

def rejectionText : Text := lit "\x7b\"id\":2,\"result\":false\x7d"

/-- The pool's plain refusal of a share, as parsed. -/
def rejection : Json := .obj [(lit "id", .unsigned 2), (lit "result", .bool false)]

def rejectionLibrary : JsonLibrary where
  parse := fun text => if text = rejectionText then some rejection else none
  dump := fun _ => []

theorem handling_rejection :
    Receiver.handling none (callbacks rejectionLibrary rejectionText) [] =
      .handling none [.share false []] [] := by
  have hparse : rejectionLibrary.parse rejectionText = some rejection := by
    simp only [rejectionLibrary, if_true]
  simp only [callbacks, hparse]
  rfl

theorem handling_entered :
    nextReceiver rejectionLibrary true
      (.handling none (callbacks rejectionLibrary rejectionText) []) .enter =
      .handling (some (.share false [])) [] [] :=
  congrArg (fun r => nextReceiver rejectionLibrary true r .enter) handling_rejection

theorem handling_left :
    nextReceiver rejectionLibrary true (nextReceiver rejectionLibrary true
      (.handling none (callbacks rejectionLibrary rejectionText) []) .enter) .leave =
      .handling none [] [] :=
  congrArg (fun r => nextReceiver rejectionLibrary true
    (nextReceiver rejectionLibrary true r .enter) .leave) handling_rejection

/-- The receive thread waits for data when the destructor is called. -/
def listening : State := ⟨teardown, true, .inRecv⟩

theorem listening_run : Run (machine rejectionLibrary) Started [] listening := .init rfl

/-- The refusal of a share is taken up before the destruction begins, and handled
before the first member goes. -/
def early : List Event :=
  [.recv [rejectionText], .nextLine, .enter, .destruct, .leave, .nextLine, .destruct, .destruct,
    .destruct, .destruct]

def earlyRun : List (State × Event) × State :=
  replay (machine rejectionLibrary) early ([], listening)

theorem earlyRun_run : Run (machine rejectionLibrary) Started earlyRun.1 earlyRun.2 :=
  replay_run listening_run _ ⟨rfl, ⟨_, rfl⟩, ⟨_, _, _, handling_rejection⟩, trivial,
    ⟨_, _, _, handling_entered⟩, ⟨_, handling_left⟩, trivial, trivial, trivial, trivial, trivial⟩

theorem earlyRun_orderly : ∀ m ∈ earlyRun.1, Orderly rejectionLibrary m.1 m.2 := by
  have before : ∀ a rest, a ≠ .destroy .rejectedShares →
      (a :: rest).head? ≠ some (Action.destroy .rejectedShares) := by
    intro a rest other same
    exact other (Option.some.inj same)
  apply replay_forall
  refine ⟨trivial, fun goes => absurd (by decide) goes, trivial, fun h => ?_, trivial,
    fun goes => absurd (by decide) goes, fun h => ?_, fun h => ?_, fun h => ?_, fun _ => ?_,
    trivial⟩
  · exact absurd h (before _ _ (by decide))
  · exact absurd h (before _ _ (by decide))
  · exact absurd h (before _ _ (by decide))
  · exact absurd h (before _ _ (by decide))
  · exact congrArg (fun r => (nextReceiver rejectionLibrary true r .nextLine).owed) handling_left

theorem orderly_safe_early :
    Safe earlyRun.2 ∧
      ∀ e, Enabled earlyRun.2 e → ¬ Orderly rejectionLibrary earlyRun.2 e →
        ∃ newer s', Run (machine rejectionLibrary) Started
            (newer ++ (earlyRun.2, e) :: earlyRun.1) s' ∧ ¬ Safe s' :=
  orderly_safe earlyRun_run earlyRun_orderly

/-- The destructor's body, the first member, and then the refusal of a share. -/
def lateRefusal : List Event :=
  [.destruct, .destruct, .destruct, .destruct, .destruct, .recv [rejectionText], .nextLine, .enter]

def lateRefusalRun : List (State × Event) × State :=
  replay (machine rejectionLibrary) lateRefusal ([], listening)

theorem lateRefusal_receiver :
    lateRefusalRun.2.receiver = .handling (some (.share false [])) [] [] :=
  handling_entered

/-- The refusal counts up a member that has been destroyed. -/
theorem safe_fails_lateRefusal :
    Run (machine rejectionLibrary) Started lateRefusalRun.1 lateRefusalRun.2 ∧
      ¬ Alive lateRefusalRun.2 .rejectedShares ∧ ¬ Safe lateRefusalRun.2 := by
  have dead : ¬ Alive lateRefusalRun.2 .rejectedShares := by decide
  refine ⟨replay_run listening_run _ ?_, dead, ?_⟩
  · exact ⟨trivial, trivial, trivial, trivial, trivial, rfl, ⟨_, rfl⟩,
      ⟨_, _, _, handling_rejection⟩, trivial⟩
  · intro safe
    exact dead (safe _ _ _ lateRefusal_receiver .rejectedShares List.mem_cons_self)

end Teardown
