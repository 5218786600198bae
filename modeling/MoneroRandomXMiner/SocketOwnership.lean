import MoneroRandomXMiner.Histories

/-!
# The sockets of the Stratum client

`connect` asks the flag `m_connected` whether there is a connection, and the
receive loop clears that flag when the peer has closed it, without closing the
socket. A `connect` after that overwrites the only descriptor of an open socket.
-/

namespace SocketOwnership

open Histories

/-- `opened` are the descriptors from `socket` that have not been closed. -/
structure Client where
  socketFd : Int
  connected : Bool
  opened : List Int
  deriving DecidableEq

def Client.constructed : Client := ⟨-1, false, []⟩

/-- How `resolve_host`, `socket` and `::connect` end; `created` is the new descriptor. -/
structure Outcome where
  resolved : Bool
  created : Option Nat
  reached : Bool
  deriving DecidableEq

/-- `closureNoticed` is the store of the receive loop when `recv` has ended. -/
inductive Event where
  | connect (outcome : Outcome)
  | closureNoticed
  | stop
  deriving DecidableEq

/-- `close(fd)` -/
def close (fd : Int) (c : Client) : Client := { c with opened := c.opened.erase fd }

/-- The value returned, and the client after the call. -/
def connect (o : Outcome) (c : Client) : Bool × Client :=
  if c.connected then (true, c)
  else if ¬o.resolved then (false, c)
  else
    match o.created with
    | none => (false, { c with socketFd := -1 })
    | some fd =>
      let created := { c with socketFd := fd, opened := (fd : Int) :: c.opened }
      if ¬o.reached then (false, { close created.socketFd created with socketFd := -1 })
      else (true, { created with connected := true })

/-- The join of the receive thread comes between the shutdown and the close. -/
def stop (c : Client) : Client :=
  let closed := if c.socketFd ≥ 0 then { close c.socketFd c with socketFd := -1 } else c
  { closed with connected := false }

/-- The system never returns a descriptor that is open. -/
def Enabled (c : Client) : Event → Prop
  | .connect o => ∀ fd ∈ o.created, (fd : Int) ∉ c.opened
  | .closureNoticed | .stop => True

instance (c : Client) : ∀ e, Decidable (Enabled c e)
  | .connect o => inferInstanceAs (Decidable (∀ fd ∈ o.created, (fd : Int) ∉ c.opened))
  | .closureNoticed | .stop => inferInstanceAs (Decidable True)

def next (c : Client) : Event → Client
  | .connect o => (connect o c).2
  | .closureNoticed => { c with connected := false }
  | .stop => stop c

def machine : Machine Client Event where
  Enabled := Enabled
  next := next

instance (c : Client) (e : Event) : Decidable (machine.Enabled c e) :=
  inferInstanceAs (Decidable (Enabled c e))

/-- At most one socket is open, and it is the one in `m_socket_fd`. -/
structure Owned (c : Client) : Prop where
  atMostOne : c.opened.length ≤ 1
  current : ∀ fd ∈ c.opened, fd = c.socketFd

/-- A failed `connect` leaves the sockets alone, and `stop` leaves none open. -/
def StepSound (c : Client) : Event → Prop
  | .connect o => (connect o c).1 = false →
      (connect o c).2.opened = c.opened ∧ (connect o c).2.socketFd = c.socketFd
  | .closureNoticed => True
  | .stop => (stop c).opened = []

structure Sound (h : List (Client × Event)) (c : Client) : Prop where
  owned : Always Owned h c
  steps : ∀ m ∈ h, StepSound m.1 m.2

/-- A `connect` that gets past the flag and the resolver finds no descriptor. -/
def ConnectsFree (c : Client) : Event → Prop
  | .connect o => c.connected = false → o.resolved = true → c.socketFd < 0
  | .closureNoticed | .stop => True

/-- The client has no socket, or one, whose descriptor it holds. -/
def Inv (c : Client) : Prop :=
  (c.opened = [] ∧ c.socketFd = -1) ∨ (c.opened = [c.socketFd] ∧ 0 ≤ c.socketFd)

theorem Inv.owned {c : Client} (inv : Inv c) : Owned c := by
  rcases inv with ⟨none, -⟩ | ⟨one, -⟩
  · exact ⟨by simp [none], by simp [none]⟩
  · exact ⟨by simp [one], by simp [one]⟩

theorem Inv.stop {c : Client} (inv : Inv c) :
    (stop c).opened = [] ∧ (SocketOwnership.stop c).socketFd = -1 := by
  rcases inv with ⟨none, hfd⟩ | ⟨one, hfd⟩
  · simp [SocketOwnership.stop, none, hfd]
  · simp [SocketOwnership.stop, close, one, hfd]

theorem connect_connected {c : Client} (o : Outcome) (connected : c.connected = true) :
    connect o c = (true, c) := by
  rw [connect, if_pos connected]

theorem connect_unresolved {c : Client} {o : Outcome} (off : c.connected = false)
    (unresolved : o.resolved = false) : connect o c = (false, c) := by
  simp [connect, off, unresolved]

/-- Without a descriptor a `connect` changes the sockets only if it succeeds. -/
theorem connect_free {c : Client} {o : Outcome} (none : c.opened = [] ∧ c.socketFd = -1) :
    ((connect o c).1 = false → (connect o c).2.opened = c.opened ∧
      (connect o c).2.socketFd = c.socketFd) ∧ Inv (connect o c).2 := by
  obtain ⟨hopened, hfd⟩ := none
  by_cases connected : c.connected = true
  · rw [connect_connected o connected]
    exact ⟨fun _ => ⟨rfl, rfl⟩, Or.inl ⟨hopened, hfd⟩⟩
  · have off : c.connected = false := by simpa using connected
    cases resolved : o.resolved with
    | false =>
      rw [connect_unresolved off resolved]
      exact ⟨fun _ => ⟨rfl, rfl⟩, Or.inl ⟨hopened, hfd⟩⟩
    | true =>
      cases created : o.created with
      | none => simp [connect, off, resolved, created, hopened, hfd, Inv]
      | some fd =>
        cases reached : o.reached with
        | false => simp [connect, off, resolved, created, reached, close, hopened, hfd, Inv]
        | true => simp [connect, off, resolved, created, reached, hopened, Inv]

/-- With a descriptor a `connect` past the resolver loses the open socket. -/
theorem connect_held {c : Client} {o : Outcome} (off : c.connected = false)
    (resolved : o.resolved = true) (one : c.opened = [c.socketFd]) (held : 0 ≤ c.socketFd)
    (fresh : ∀ fd ∈ o.created, (fd : Int) ∉ c.opened) : ¬Owned (connect o c).2 := by
  rintro ⟨atMostOne, current⟩
  cases created : o.created with
  | none =>
    have lost := current c.socketFd (by simp [connect, off, resolved, created, one])
    simp only [connect, off, resolved, created] at lost
    simp at lost
    omega
  | some fd =>
    have other : c.socketFd ≠ (fd : Int) := by
      intro same
      apply fresh fd created
      rw [one, same]
      exact List.mem_singleton_self _
    cases reached : o.reached with
    | false =>
      have lost := current c.socketFd (by
        simp [connect, off, resolved, created, reached, close, one])
      simp [connect, off, resolved, created, reached] at lost
      omega
    | true => simp [connect, off, resolved, created, reached, one] at atMostOne

theorem inv_next {c : Client} {e : Event} (inv : Inv c) (free : ConnectsFree c e) :
    Inv (next c e) := by
  cases e with
  | closureNoticed => exact inv
  | stop => exact Or.inl inv.stop
  | connect o =>
    rcases inv with none | ⟨one, held⟩
    · exact (connect_free none).2
    · by_cases connected : c.connected = true
      · rw [next, connect_connected o connected]
        exact Or.inr ⟨one, held⟩
      · have off : c.connected = false := by simpa using connected
        have unresolved : o.resolved = false := by
          by_contra resolved
          have hfd := free off (by simpa using resolved)
          omega
        rw [next, connect_unresolved off unresolved]
        exact Or.inr ⟨one, held⟩

/-- On a client that owns its socket, a step is sound exactly when it is free. -/
theorem step_iff {c : Client} {e : Event} (inv : Inv c) (enabled : Enabled c e) :
    Owned (next c e) ∧ StepSound c e ↔ ConnectsFree c e := by
  constructor
  · rintro ⟨owned, -⟩
    cases e with
    | closureNoticed => trivial
    | stop => trivial
    | connect o =>
      intro off resolved
      rcases inv with ⟨-, hfd⟩ | ⟨one, held⟩
      · omega
      · exact absurd owned (connect_held off resolved one held enabled)
  · intro free
    refine ⟨(inv_next inv free).owned, ?_⟩
    cases e with
    | closureNoticed => trivial
    | stop => exact inv.stop.1
    | connect o =>
      rcases inv with none | ⟨one, held⟩
      · exact (connect_free none).1
      · intro failed
        by_cases connected : c.connected = true
        · rw [connect_connected o connected] at failed
          cases failed
        · have off : c.connected = false := by simpa using connected
          have unresolved : o.resolved = false := by
            by_contra resolved
            have hfd := free off (by simpa using resolved)
            omega
          rw [connect_unresolved off unresolved]
          exact ⟨rfl, rfl⟩

theorem inv_constructed : Inv Client.constructed := Or.inl ⟨rfl, rfl⟩

/-- In every run the client owns its sockets exactly when every `connect` past the
flag and the resolver finds no descriptor. -/
theorem sound_iff_connectsFree {h : List (Client × Event)} {c : Client}
    (run : Run machine (· = Client.constructed) h c) :
    Sound h c ↔ ∀ m ∈ h, ConnectsFree m.1 m.2 := by
  have initial : ∀ c, c = Client.constructed → Inv c := by
    rintro c rfl
    exact inv_constructed
  have states := run.always_iff_steps (P := Owned) fun c hc => (initial c hc).owned
  have steps := run.forall_steps_iff (T := fun c e => Owned (next c e) ∧ StepSound c e) initial
    (fun _ _ inv _ free => inv_next inv free) (fun _ _ inv enabled => step_iff inv enabled)
  rw [← steps]
  constructor
  · rintro ⟨owned, sound⟩ m mem
    exact ⟨states.mp owned m mem, sound m mem⟩
  · intro both
    exact ⟨states.mpr fun m mem => (both m mem).1, fun m mem => (both m mem).2⟩

/-- A connection, its end, and a connection again. -/
def reconnects : List Event :=
  [.connect ⟨true, some 3, true⟩, .closureNoticed, .connect ⟨true, some 4, true⟩]

def reconnectsRun : List (Client × Event) × Client :=
  replay machine reconnects ([], Client.constructed)

theorem reconnects_run :
    Run machine (· = Client.constructed) reconnectsRun.1 reconnectsRun.2 := by
  have started : Run machine (· = Client.constructed) [] Client.constructed := .init rfl
  exact replay_run started _ (by decide)

theorem sound_iff_connectsFree_reconnects :
    Sound reconnectsRun.1 reconnectsRun.2 ↔ ∀ m ∈ reconnectsRun.1, ConnectsFree m.1 m.2 :=
  sound_iff_connectsFree reconnects_run

/-- Both sockets are open after the second connection. -/
theorem sound_fails_reconnects :
    Run machine (· = Client.constructed) reconnectsRun.1 reconnectsRun.2 ∧
      reconnectsRun.2.opened = [4, 3] ∧ ¬Sound reconnectsRun.1 reconnectsRun.2 := by
  have opened : reconnectsRun.2.opened = [4, 3] := by decide
  refine ⟨reconnects_run, opened, fun sound => ?_⟩
  have atMostOne := sound.owned.1.atMostOne
  rw [opened] at atMostOne
  exact absurd atMostOne (by decide)

end SocketOwnership
