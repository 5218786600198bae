import MoneroRandomXMiner.Histories

/-!
# The Android service and the native miner

Commands run on the main thread, one at a time. A START launches a coroutine
that calls the native start and only then sets `isMining`, so until that moment
the service does not see its own start. The wake lock is acquired for ten
minutes and never renewed. Service and native miner agree in the runs where no
command meets a start in flight, every acquisition and every native start
succeeds, and no lock times out under a miner.
-/

namespace MinerService

open Histories

/-- The commands that end mining. `destroy` is `onDestroy`, which calls `stopMining`. -/
inductive Ending where
  | pause
  | stop
  | destroy
  deriving DecidableEq

/-- The next action of the main thread. -/
inductive MainPc where
  | idle
  | check
  | acquire
  | launch
  | clear (k : Ending)
  | stopNative (k : Ending)
  | release (k : Ending)
  | cancel (k : Ending)
  deriving DecidableEq

/-- `wakeLock` holds while the lock that the service refers to is held: a lock that
has timed out is still referred to, but to release it does nothing. The launched
starts are counted by how far they have come: not begun, before the native
call, and after it with either result. -/
structure Service where
  main : MainPc
  isMining : Bool
  scopeActive : Bool
  wakeLock : Bool
  locksHeld : Nat
  stopRequested : Bool
  destroyed : Bool
  launched : Nat
  begun : Nat
  succeeded : Nat
  failed : Nat
  mining : Bool
  deriving DecidableEq

def Service.created : Service := ⟨.idle, false, true, false, 0, false, false, 0, 0, 0, 0, false⟩

inductive Command where
  | start
  | ending (k : Ending)

/-- One access to shared state, or one native call under `g_mutex`. The system
releases a lock that has timed out: the one that the service refers to, or one
whose reference has been overwritten. -/
inductive Event where
  | deliver (c : Command)
  | proceed
  | acquireFails
  | timeOut (referred : Bool)
  | dispatch
  | nativeStart (initialized : Bool)
  | resume (started : Bool)

def Enabled (s : Service) : Event → Prop
  | .deliver c => s.main = .idle ∧ s.destroyed = false ∧
      (match c with
        | .ending .destroy => s.stopRequested = true
        | _ => True)
  | .proceed => s.main ≠ .idle
  | .acquireFails => s.main = .acquire
  | .timeOut true => s.wakeLock = true
  | .timeOut false => s.wakeLock.toNat < s.locksHeld
  | .dispatch => 0 < s.launched
  | .nativeStart _ => 0 < s.begun
  | .resume started => 0 < if started then s.succeeded else s.failed

instance (s : Service) : ∀ e, Decidable (Enabled s e)
  | .deliver .start => inferInstanceAs (Decidable (_ ∧ _ ∧ True))
  | .deliver (.ending .pause) => inferInstanceAs (Decidable (_ ∧ _ ∧ True))
  | .deliver (.ending .stop) => inferInstanceAs (Decidable (_ ∧ _ ∧ True))
  | .deliver (.ending .destroy) => inferInstanceAs (Decidable (_ ∧ _ ∧ _ = _))
  | .proceed => inferInstanceAs (Decidable (_ ≠ _))
  | .acquireFails | .timeOut true => inferInstanceAs (Decidable (_ = _))
  | .timeOut false => inferInstanceAs (Decidable (_ < _))
  | .dispatch => inferInstanceAs (Decidable (_ < _))
  | .nativeStart _ => inferInstanceAs (Decidable (_ < _))
  | .resume _ => inferInstanceAs (Decidable (_ < _))

/-- One action of the command in progress. A start launched in a cancelled
scope never begins, and cancelling the scope drops the starts that have not. -/
def proceed (s : Service) : Service :=
  match s.main with
  | .idle => s
  | .check => { s with main := if s.isMining then .idle else .acquire }
  | .acquire => { s with wakeLock := true, locksHeld := s.locksHeld + 1, main := .launch }
  | .launch =>
    { s with launched := if s.scopeActive then s.launched + 1 else s.launched, main := .idle }
  | .clear k => { s with isMining := false, main := .stopNative k }
  | .stopNative k => { s with mining := false, main := .release k }
  | .release k =>
    { s with
      locksHeld := s.locksHeld - s.wakeLock.toNat
      wakeLock := false
      main := if k = .pause then .idle else .cancel k }
  | .cancel k =>
    { s with
      scopeActive := false
      launched := 0
      stopRequested := true
      destroyed := s.destroyed || k == .destroy
      main := .idle }

/-- The exception of a failing acquisition is logged, and the start goes on. -/
def acquireFails (s : Service) : Service := { s with main := .launch }

def timeOut (referred : Bool) (s : Service) : Service :=
  { s with wakeLock := s.wakeLock && !referred, locksHeld := s.locksHeld - 1 }

/-- `nativeStartMining`: false if the miner is running or does not initialise. -/
def nativeStart (initialized : Bool) (s : Service) : Service :=
  if s.mining = true ∨ initialized = false then
    { s with begun := s.begun - 1, failed := s.failed + 1 }
  else { s with begun := s.begun - 1, succeeded := s.succeeded + 1, mining := true }

/-- What the coroutine does with the result. -/
def resume (started : Bool) (s : Service) : Service :=
  if started then { s with succeeded := s.succeeded - 1, isMining := true }
  else { s with failed := s.failed - 1, stopRequested := true }

def next (s : Service) : Event → Service
  | .deliver .start => { s with main := .check }
  | .deliver (.ending k) => { s with main := .clear k }
  | .proceed => proceed s
  | .acquireFails => acquireFails s
  | .timeOut referred => timeOut referred s
  | .dispatch => { s with launched := s.launched - 1, begun := s.begun + 1 }
  | .nativeStart initialized => nativeStart initialized s
  | .resume started => resume started s

def machine : Machine Service Event where
  Enabled := Enabled
  next := next

instance (s : Service) (e : Event) : Decidable (machine.Enabled s e) :=
  inferInstanceAs (Decidable (Enabled s e))

/-- No command, native call or launched start is pending. -/
def Quiescent (s : Service) : Prop :=
  s.main = .idle ∧ s.launched = 0 ∧ s.begun = 0 ∧ s.succeeded = 0 ∧ s.failed = 0

instance (s : Service) : Decidable (Quiescent s) :=
  inferInstanceAs (Decidable (_ ∧ _ ∧ _ ∧ _ ∧ _))

def Agrees (s : Service) : Prop :=
  s.isMining = s.mining ∧ s.locksHeld = if s.isMining then 1 else 0

instance (s : Service) : Decidable (Agrees s) := inferInstanceAs (Decidable (_ ∧ _))

/-- Starts that have not come to an end. -/
def Service.pending (s : Service) : Nat := s.launched + s.begun + s.succeeded + s.failed

/-- The starts that an ending command can still meet: STOP cancels those that
have not begun, PAUSE does not. -/
def Service.inFlight (s : Service) : Ending → Nat
  | .pause => s.pending
  | _ => s.begun + s.succeeded + s.failed

def MainPc.IsEnding : MainPc → Prop
  | .idle | .check | .acquire | .launch => False
  | _ => True

/-- A START finds the service mining, or no start pending and the scope not yet
cancelled. An ending command finds no start in flight, and none begins while it
runs. An acquisition and a native start succeed, and the lock that the service
refers to times out only under an ending command. -/
def Orderly (s : Service) : Event → Prop
  | .deliver .start => s.isMining = true ∨ (s.pending = 0 ∧ s.scopeActive = true)
  | .deliver (.ending k) => s.inFlight k = 0
  | .acquireFails => False
  | .timeOut true => s.main.IsEnding
  | .dispatch => ¬ s.main.IsEnding
  | .nativeStart initialized => initialized = true
  | _ => True

instance : ∀ pc : MainPc, Decidable pc.IsEnding
  | .idle | .check | .acquire | .launch => inferInstanceAs (Decidable False)
  | .clear _ | .stopNative _ | .release _ | .cancel _ => inferInstanceAs (Decidable True)

instance (s : Service) : ∀ e, Decidable (Orderly s e)
  | .deliver .start => inferInstanceAs (Decidable (_ ∨ _ ∧ _))
  | .deliver (.ending _) => inferInstanceAs (Decidable (_ = _))
  | .acquireFails => inferInstanceAs (Decidable False)
  | .timeOut true => inferInstanceAs (Decidable s.main.IsEnding)
  | .dispatch => inferInstanceAs (Decidable (¬ _))
  | .nativeStart _ => inferInstanceAs (Decidable (_ = _))
  | .proceed | .timeOut false | .resume _ => inferInstanceAs (Decidable True)

theorem Service.inFlight_of_ne_pause {s : Service} {k : Ending} (hpause : k ≠ .pause) :
    s.inFlight k = s.begun + s.succeeded + s.failed := by
  cases k with
  | pause => exact absurd rfl hpause
  | stop => rfl
  | destroy => rfl

theorem nativeStart_running {s : Service} (hmining : s.mining = true) (initialized : Bool) :
    nativeStart initialized s = { s with begun := s.begun - 1, failed := s.failed + 1 } :=
  if_pos (Or.inl hmining)

theorem nativeStart_uninitialized (s : Service) :
    nativeStart false s = { s with begun := s.begun - 1, failed := s.failed + 1 } :=
  if_pos (Or.inr rfl)

theorem nativeStart_stopped {s : Service} (hmining : s.mining = false) :
    nativeStart true s =
      { s with begun := s.begun - 1, succeeded := s.succeeded + 1, mining := true } := by
  apply if_neg
  rintro (running | uninitialized)
  · rw [hmining] at running
    cases running
  · cases uninitialized

/-- Outside ending commands: at most one start is pending or done, and the
native miner and the wake lock account for it. -/
structure Balanced (s : Service) : Prop where
  single : s.pending + s.isMining.toNat ≤ 1
  native : s.mining.toNat = s.isMining.toNat + s.succeeded
  lock : s.wakeLock.toNat = s.isMining.toNat + s.pending

/-- The invariant at each action of the main thread. -/
def Consistent (s : Service) : Prop :=
  match s.main with
  | .idle => Balanced s
  | .check => Balanced s ∧ (s.isMining = true ∨ (s.pending = 0 ∧ s.scopeActive = true))
  | .acquire => Balanced s ∧ s.isMining = false ∧ s.pending = 0 ∧ s.scopeActive = true
  | .launch => s.isMining = false ∧ s.mining = false ∧ s.pending = 0 ∧ s.scopeActive = true ∧
      s.wakeLock = true
  | .clear k => s.inFlight k = 0
  | .stopNative k => s.inFlight k = 0 ∧ s.isMining = false
  | .release k => s.inFlight k = 0 ∧ s.isMining = false ∧ s.mining = false
  | .cancel k => s.inFlight k = 0 ∧ s.isMining = false ∧ s.mining = false ∧ s.wakeLock = false ∧
      k ≠ .pause

structure Inv (s : Service) : Prop where
  failed : s.failed = 0
  locks : s.locksHeld = s.wakeLock.toNat
  consistent : Consistent s

theorem inv_created : Inv Service.created := ⟨rfl, rfl, ⟨by decide, rfl, rfl⟩⟩

theorem Balanced.congr {s s' : Service} (balanced : Balanced s) (hpending : s'.pending = s.pending)
    (hmining : s'.isMining = s.isMining) (hnative : s'.mining = s.mining)
    (hsucceeded : s'.succeeded = s.succeeded) (hlock : s'.wakeLock = s.wakeLock) : Balanced s' := by
  constructor
  · rw [hpending, hmining]
    exact balanced.single
  · rw [hnative, hmining, hsucceeded]
    exact balanced.native
  · rw [hlock, hmining, hpending]
    exact balanced.lock

/-- With nothing pending and the miner stopped there is no lock either. -/
theorem balanced_stopped {s : Service} (hpending : s.pending = 0) (hmining : s.isMining = false)
    (hnative : s.mining = false) (hlock : s.wakeLock = false) : Balanced s := by
  have hsucceeded : s.succeeded = 0 := by
    simp only [Service.pending] at hpending
    omega
  constructor
  · simp [hpending, hmining]
  · simp [hnative, hmining, hsucceeded]
  · simp [hlock, hmining, hpending]

theorem Balanced.stopped {s : Service} (balanced : Balanced s) (hpending : s.pending = 0)
    (hmining : s.isMining = false) : s.mining = false ∧ s.wakeLock = false := by
  have hnative := balanced.native
  have hlock := balanced.lock
  simp only [Service.pending] at hpending
  simp only [hmining, Bool.toNat_false, Service.pending] at hnative hlock
  exact ⟨Bool.toNat_eq_zero.mp (by omega), Bool.toNat_eq_zero.mp (by omega)⟩

theorem Inv.deliver {s : Service} {c : Command} (inv : Inv s) (idle : s.main = .idle)
    (orderly : Orderly s (.deliver c)) : Inv (next s (.deliver c)) := by
  have balanced : Balanced s := by
    have consistent := inv.consistent
    simpa only [Consistent, idle] using consistent
  cases c with
  | start =>
    exact ⟨inv.failed, inv.locks, balanced.congr rfl rfl rfl rfl rfl, orderly⟩
  | ending k => exact ⟨inv.failed, inv.locks, orderly⟩

theorem Inv.proceed {s : Service} (inv : Inv s) (busy : s.main ≠ .idle) :
    Inv (proceed s) := by
  obtain ⟨hfailed, hlocks, consistent⟩ := inv
  cases hmain : s.main with
  | idle => exact absurd hmain busy
  | check =>
    simp only [Consistent, hmain] at consistent
    obtain ⟨balanced, horderly⟩ := consistent
    cases hmining : s.isMining with
    | true =>
      simp only [MinerService.proceed, hmain, hmining, if_true]
      exact ⟨hfailed, hlocks, balanced.congr rfl hmining.symm rfl rfl rfl⟩
    | false =>
      rw [hmining] at horderly
      obtain ⟨hpending, hscope⟩ := horderly.resolve_left (by decide)
      simp only [MinerService.proceed, hmain, hmining]
      exact ⟨hfailed, hlocks, balanced.congr rfl hmining.symm rfl rfl rfl, rfl, hpending, hscope⟩
  | acquire =>
    simp only [Consistent, hmain] at consistent
    obtain ⟨balanced, hmining, hpending, hscope⟩ := consistent
    obtain ⟨hnative, hlock⟩ := balanced.stopped hpending hmining
    simp only [MinerService.proceed, hmain]
    refine ⟨hfailed, ?_, hmining, hnative, hpending, hscope, rfl⟩
    simp [hlocks, hlock]
  | launch =>
    simp only [Consistent, hmain] at consistent
    obtain ⟨hmining, hnative, hpending, hscope, hlock⟩ := consistent
    simp only [MinerService.proceed, hmain, hscope, if_true]
    refine ⟨hfailed, hlocks, ?_, ?_, ?_⟩
    · simp only [Service.pending] at hpending ⊢
      simp only [hmining, Bool.toNat_false]
      omega
    · simp only [Service.pending] at hpending
      simp only [hnative, hmining, Bool.toNat_false]
      omega
    · simp only [Service.pending] at hpending ⊢
      simp only [hlock, hmining, Bool.toNat_false, Bool.toNat_true]
      omega
  | clear k =>
    simp only [Consistent, hmain] at consistent
    simp only [MinerService.proceed, hmain]
    exact ⟨hfailed, hlocks, consistent, rfl⟩
  | stopNative k =>
    simp only [Consistent, hmain] at consistent
    simp only [MinerService.proceed, hmain]
    exact ⟨hfailed, hlocks, consistent.1, consistent.2, rfl⟩
  | release k =>
    simp only [Consistent, hmain] at consistent
    obtain ⟨hflight, hmining, hnative⟩ := consistent
    simp only [MinerService.proceed, hmain]
    refine ⟨hfailed, by simp [hlocks], ?_⟩
    by_cases hpause : k = .pause
    · subst hpause
      simp only [if_true]
      exact balanced_stopped hflight hmining hnative rfl
    · simp only [if_neg hpause]
      exact ⟨hflight, hmining, hnative, rfl, hpause⟩
  | cancel k =>
    simp only [Consistent, hmain] at consistent
    obtain ⟨hflight, hmining, hnative, hlock, hpause⟩ := consistent
    simp only [MinerService.proceed, hmain]
    refine ⟨hfailed, hlocks, balanced_stopped ?_ hmining hnative hlock⟩
    rw [Service.inFlight_of_ne_pause hpause] at hflight
    simp only [Service.pending]
    omega

/-- The lock that the service refers to is the only one held, and under an ending
command it is no longer needed. -/
theorem Inv.timeOut {s : Service} {referred : Bool} (inv : Inv s)
    (enabled : Enabled s (.timeOut referred)) (orderly : Orderly s (.timeOut referred)) :
    Inv (next s (.timeOut referred)) := by
  obtain ⟨hfailed, hlocks, consistent⟩ := inv
  cases referred with
  | false =>
    have overwritten : s.wakeLock.toNat < s.locksHeld := enabled
    omega
  | true =>
    have held : s.wakeLock = true := enabled
    have hending : s.main.IsEnding := orderly
    refine ⟨hfailed, by simp [next, MinerService.timeOut, hlocks, held], ?_⟩
    cases hmain : s.main with
    | clear k =>
      simp only [Consistent, hmain] at consistent
      simp only [Consistent, next, MinerService.timeOut, hmain]
      exact consistent
    | stopNative k =>
      simp only [Consistent, hmain] at consistent
      simp only [Consistent, next, MinerService.timeOut, hmain]
      exact consistent
    | release k =>
      simp only [Consistent, hmain] at consistent
      simp only [Consistent, next, MinerService.timeOut, hmain]
      exact consistent
    | cancel k =>
      simp only [Consistent, hmain] at consistent
      rw [consistent.2.2.2.1] at held
      cases held
    | _ =>
      rw [hmain] at hending
      exact hending.elim

/-- While a start is pending, the main thread is idle or runs an ending command. -/
theorem Inv.idle_of_pending {s : Service} (inv : Inv s) (hpending : 0 < s.pending)
    (hending : ¬ s.main.IsEnding) : s.main = .idle ∧ Balanced s := by
  have consistent := inv.consistent
  cases hmain : s.main with
  | idle =>
    simp only [Consistent, hmain] at consistent
    exact ⟨rfl, consistent⟩
  | check =>
    simp only [Consistent, hmain] at consistent
    obtain ⟨balanced, hmining | ⟨hnone, _⟩⟩ := consistent
    · have hsingle := balanced.single
      simp only [hmining, Bool.toNat_true] at hsingle
      omega
    · omega
  | acquire =>
    simp only [Consistent, hmain] at consistent
    omega
  | launch =>
    simp only [Consistent, hmain] at consistent
    omega
  | _ =>
    rw [hmain] at hending
    exact absurd trivial hending

/-- No start is past its beginning while an ending command runs. -/
theorem Inv.not_ending {s : Service} (inv : Inv s)
    (flight : 0 < s.begun + s.succeeded + s.failed) : ¬ s.main.IsEnding := by
  have consistent := inv.consistent
  have none : ∀ k, s.inFlight k = 0 → False := by
    intro k hflight
    cases k <;> simp only [Service.inFlight, Service.pending] at hflight <;> omega
  intro hending
  cases hmain : s.main with
  | clear k =>
    simp only [Consistent, hmain] at consistent
    exact none k consistent
  | stopNative k =>
    simp only [Consistent, hmain] at consistent
    exact none k consistent.1
  | release k =>
    simp only [Consistent, hmain] at consistent
    exact none k consistent.1
  | cancel k =>
    simp only [Consistent, hmain] at consistent
    exact none k consistent.1
  | _ =>
    rw [hmain] at hending
    exact hending

theorem Inv.dispatch {s : Service} (inv : Inv s) (enabled : 0 < s.launched)
    (hending : ¬ s.main.IsEnding) : Inv (next s .dispatch) := by
  have hpending : 0 < s.pending := by
    simp only [Service.pending]
    omega
  obtain ⟨idle, balanced⟩ := inv.idle_of_pending hpending hending
  refine ⟨inv.failed, inv.locks, ?_⟩
  simp only [Consistent, next, idle]
  refine balanced.congr ?_ rfl rfl rfl rfl
  simp only [Service.pending]
  omega

theorem Inv.nativeStart {s : Service} (inv : Inv s) (enabled : 0 < s.begun) :
    Inv (next s (.nativeStart true)) := by
  have flight : 0 < s.begun + s.succeeded + s.failed := by omega
  have hpending : 0 < s.pending := by
    simp only [Service.pending]
    omega
  obtain ⟨idle, balanced⟩ := inv.idle_of_pending hpending (inv.not_ending flight)
  have hsingle := balanced.single
  have hnative := balanced.native
  simp only [Service.pending] at hsingle
  have hmining : s.isMining = false := Bool.toNat_eq_zero.mp (by omega)
  rw [hmining, Bool.toNat_false] at hnative hsingle
  have hstopped : s.mining = false := Bool.toNat_eq_zero.mp (by omega)
  rw [next, nativeStart_stopped hstopped]
  refine ⟨inv.failed, inv.locks, ?_⟩
  simp only [Consistent, idle]
  have hlock := balanced.lock
  constructor
  · simp only [Service.pending, hmining, Bool.toNat_false]
    omega
  · simp only [hmining, Bool.toNat_false, Bool.toNat_true]
    omega
  · simp only [Service.pending] at hlock ⊢
    omega

theorem Inv.resume {s : Service} (inv : Inv s) (enabled : 0 < s.succeeded) :
    Inv (next s (.resume true)) := by
  have flight : 0 < s.begun + s.succeeded + s.failed := by omega
  have hpending : 0 < s.pending := by
    simp only [Service.pending]
    omega
  obtain ⟨idle, balanced⟩ := inv.idle_of_pending hpending (inv.not_ending flight)
  obtain ⟨hsingle, hnative, hlock⟩ := balanced
  refine ⟨inv.failed, inv.locks, ?_⟩
  simp only [Consistent, next, MinerService.resume, if_true, idle]
  simp only [Service.pending] at hsingle hlock
  constructor
  · simp only [Service.pending, Bool.toNat_true]
    omega
  · simp only [Bool.toNat_true]
    omega
  · simp only [Service.pending, Bool.toNat_true]
    omega

theorem Inv.step {s : Service} {e : Event} (inv : Inv s) (enabled : Enabled s e)
    (orderly : Orderly s e) : Inv (next s e) := by
  cases e with
  | deliver c => exact inv.deliver enabled.1 orderly
  | proceed => exact inv.proceed enabled
  | acquireFails => exact orderly.elim
  | timeOut referred => exact inv.timeOut enabled orderly
  | dispatch => exact inv.dispatch enabled orderly
  | nativeStart initialized =>
    obtain rfl : initialized = true := orderly
    exact inv.nativeStart enabled
  | resume started =>
    cases started with
    | true => exact inv.resume enabled
    | false =>
      have hfailed : 0 < s.failed := enabled
      rw [inv.failed] at hfailed
      exact absurd hfailed (Nat.lt_irrefl 0)

theorem inv_run {h : List (Service × Event)} {s : Service}
    (run : Run machine (· = Service.created) h s) (orderly : ∀ m ∈ h, Orderly m.1 m.2) :
    Inv s := by
  apply run.invariant_of_steps (P := fun _ s => Inv s) _ _ orderly
  · rintro s rfl
    exact inv_created
  · exact fun _ _ _ inv enabled orderly => inv.step enabled orderly

theorem Inv.agrees {s : Service} (inv : Inv s) (quiet : Quiescent s) : Agrees s := by
  obtain ⟨idle, hlaunched, hbegun, hsucceeded, hfailed⟩ := quiet
  have balanced := inv.consistent
  simp only [Consistent, idle] at balanced
  obtain ⟨_, hnative, hlock⟩ := balanced
  simp only [Service.pending, hlaunched, hbegun, hsucceeded, hfailed, Nat.add_zero] at hnative hlock
  constructor
  · cases hmining : s.isMining <;> cases hg : s.mining <;> simp [hmining, hg] at hnative ⊢
  · rw [inv.locks, hlock]
    cases s.isMining <;> rfl

/-- The service is mining, or one of its starts is sure to succeed. -/
def Promised (s : Service) : Prop :=
  s.isMining = true ∨ 0 < s.succeeded ∨ (s.mining = false ∧ 0 < s.launched + s.begun)

/-- The steps that the pending starts have still to take. -/
def Service.work (s : Service) : Nat := 3 * s.launched + 2 * s.begun + s.succeeded + s.failed

/-- The pending starts can run to their end, which leaves the locks alone. -/
theorem drains (s : Service) (idle : s.main = .idle) :
    ∃ s', Leads machine s s' ∧ Quiescent s' ∧ s'.locksHeld = s.locksHeld ∧
      (Promised s → s'.isMining = true) := by
  induction hwork : s.work using Nat.strongRecOn generalizing s with
  | ind k ih =>
    have advance : ∀ e, Enabled s e → (next s e).main = .idle → (next s e).work < k →
        (next s e).locksHeld = s.locksHeld → (Promised s → Promised (next s e)) →
        ∃ s', Leads machine s s' ∧ Quiescent s' ∧ s'.locksHeld = s.locksHeld ∧
          (Promised s → s'.isMining = true) := by
      intro e enabled hidle hless hlocks hpromise
      obtain ⟨s', leads, quiet, hsame, mines⟩ := ih _ hless _ hidle rfl
      exact ⟨s', .head enabled leads, quiet, hsame.trans hlocks, fun hp => mines (hpromise hp)⟩
    simp only [Service.work] at hwork
    by_cases hsucceeded : 0 < s.succeeded
    · refine advance (.resume true) hsucceeded idle ?_ rfl (fun _ => Or.inl rfl)
      simp only [Service.work, next, resume, if_true]
      omega
    by_cases hfailed : 0 < s.failed
    · refine advance (.resume false) hfailed idle ?_ rfl id
      simp only [Service.work, next, resume]
      simp only [Bool.false_eq_true, if_false]
      omega
    by_cases hbegun : 0 < s.begun
    · cases hmining : s.mining with
      | true =>
        apply advance (.nativeStart true) hbegun <;> rw [next, nativeStart_running hmining]
        · exact idle
        · simp only [Service.work]
          omega
        · rintro (hm | hm | hm)
          · exact Or.inl hm
          · exact absurd hm hsucceeded
          · rw [hmining] at hm
            cases hm.1
      | false =>
        apply advance (.nativeStart true) hbegun <;> rw [next, nativeStart_stopped hmining]
        · exact idle
        · simp only [Service.work]
          omega
        · exact fun _ => Or.inr (Or.inl (Nat.succ_pos _))
    by_cases hlaunched : 0 < s.launched
    · refine advance .dispatch hlaunched idle ?_ rfl ?_
      · simp only [Service.work, next]
        omega
      · rintro (hm | hm | hm)
        · exact Or.inl hm
        · exact Or.inr (Or.inl hm)
        · refine Or.inr (Or.inr ⟨hm.1, ?_⟩)
          simp only [next]
          omega
    · have quiet : Quiescent s := ⟨idle, by omega, by omega, by omega, by omega⟩
      refine ⟨s, .refl, quiet, rfl, ?_⟩
      rintro (hm | hm | hm)
      · exact hm
      · exact absurd hm hsucceeded
      · omega

/-- Some continuation ends in a quiescent state of disagreement. -/
def Broken (s : Service) : Prop := ∃ s', Leads machine s s' ∧ Quiescent s' ∧ ¬ Agrees s'

theorem Broken.head {s : Service} {e : Event} (enabled : Enabled s e) (broken : Broken (next s e)) :
    Broken s := by
  obtain ⟨s', leads, quiet, disagrees⟩ := broken
  exact ⟨s', .head enabled leads, quiet, disagrees⟩

theorem Broken.proceed {s : Service} (busy : s.main ≠ .idle)
    (broken : Broken (MinerService.proceed s)) : Broken s :=
  Broken.head (e := .proceed) busy broken

theorem broken_of_two_locks {s : Service} (idle : s.main = .idle) (two : 2 ≤ s.locksHeld) :
    Broken s := by
  obtain ⟨s', leads, quiet, hlocks, _⟩ := drains s idle
  refine ⟨s', leads, quiet, fun agrees => ?_⟩
  have hcount := agrees.2
  rw [hlocks] at hcount
  split at hcount <;> omega

theorem broken_of_promised {s : Service} (idle : s.main = .idle) (none : s.locksHeld = 0)
    (promised : Promised s) : Broken s := by
  obtain ⟨s', leads, quiet, hlocks, mines⟩ := drains s idle
  refine ⟨s', leads, quiet, fun agrees => ?_⟩
  have hcount := agrees.2
  rw [hlocks, none, mines promised] at hcount
  cases hcount

theorem broken_of_stray_lock {s : Service} (quiet : Quiescent s) (hmining : s.isMining = false)
    (one : s.locksHeld = 1) : Broken s := by
  refine ⟨s, .refl, quiet, fun agrees => ?_⟩
  have hcount := agrees.2
  rw [one, hmining] at hcount
  cases hcount

/-- An ending command that runs to its end over a start that is past its
beginning leaves the service mining without a lock. -/
theorem broken_cancel {s : Service} {k : Ending} (hmain : s.main = .cancel k)
    (locks : s.locksHeld = s.wakeLock.toNat) (hmining : s.mining = false)
    (hlock : s.wakeLock = false) (flight : 0 < s.begun + s.succeeded) : Broken s := by
  apply Broken.proceed (by simp [hmain])
  apply broken_of_promised
  · simp only [proceed, hmain]
  · simp only [proceed, hmain]
    rw [locks, hlock]
    rfl
  · simp only [proceed, hmain]
    by_cases hsucceeded : 0 < s.succeeded
    · exact Or.inr (Or.inl hsucceeded)
    · refine Or.inr (Or.inr ⟨hmining, ?_⟩)
      dsimp only
      omega

theorem broken_release {s : Service} {k : Ending} (hmain : s.main = .release k)
    (locks : s.locksHeld = s.wakeLock.toNat) (hmining : s.mining = false)
    (flight : 0 < s.begun + s.succeeded ∨ (k = .pause ∧ 0 < s.launched)) : Broken s := by
  apply Broken.proceed (by simp [hmain])
  by_cases hpause : k = .pause
  · subst hpause
    apply broken_of_promised
    · simp only [proceed, hmain, if_true]
    · simp only [proceed, hmain, locks, Nat.sub_self]
    · simp only [proceed, hmain, if_true]
      by_cases hsucceeded : 0 < s.succeeded
      · exact Or.inr (Or.inl hsucceeded)
      · refine Or.inr (Or.inr ⟨hmining, ?_⟩)
        dsimp only
        omega
  · have hflight : 0 < s.begun + s.succeeded := flight.resolve_right fun hp => hpause hp.1
    apply broken_cancel (k := k)
    · simp only [proceed, hmain, if_neg hpause]
    · simp only [proceed, hmain, locks, Nat.sub_self, Bool.toNat_false]
    · simpa only [proceed, hmain] using hmining
    · simp only [proceed, hmain]
    · simpa only [proceed, hmain] using hflight

theorem broken_stopNative {s : Service} {k : Ending} (hmain : s.main = .stopNative k)
    (locks : s.locksHeld = s.wakeLock.toNat)
    (flight : 0 < s.begun + s.succeeded ∨ (k = .pause ∧ 0 < s.launched)) : Broken s := by
  have hnext : proceed s = { s with mining := false, main := .release k } := by
    simp only [proceed, hmain]
  apply Broken.proceed (by simp [hmain])
  rw [hnext]
  exact broken_release rfl locks rfl flight

theorem broken_clear {s : Service} {k : Ending} (hmain : s.main = .clear k)
    (locks : s.locksHeld = s.wakeLock.toNat)
    (flight : 0 < s.begun + s.succeeded ∨ (k = .pause ∧ 0 < s.launched)) : Broken s := by
  have hnext : proceed s = { s with isMining := false, main := .stopNative k } := by
    simp only [proceed, hmain]
  apply Broken.proceed (by simp [hmain])
  rw [hnext]
  exact broken_stopNative rfl locks flight

/-- A START that meets a pending start, or a cancelled scope. -/
theorem broken_start {s : Service} (inv : Inv s) (idle : s.main = .idle)
    (disorderly : ¬ Orderly s (.deliver .start)) : Broken (next s (.deliver .start)) := by
  have balanced := inv.consistent
  simp only [Consistent, idle] at balanced
  simp only [Orderly, not_or, Bool.not_eq_true] at disorderly
  obtain ⟨hmining, hunready⟩ := disorderly
  have hlocks : s.locksHeld = s.pending := by
    rw [inv.locks, balanced.lock, hmining, Bool.toNat_false, Nat.zero_add]
  apply Broken.proceed (by simp [next])
  apply Broken.proceed (by simp [next, proceed, hmining])
  apply Broken.proceed (by simp [next, proceed, hmining])
  by_cases hpending : s.pending = 0
  · have hscope : s.scopeActive = false := by
      cases hscope : s.scopeActive with
      | true => exact absurd ⟨hpending, hscope⟩ hunready
      | false => rfl
    simp only [Service.pending] at hpending
    refine broken_of_stray_lock ⟨?_, ?_, ?_, ?_, ?_⟩ ?_ ?_
    · simp [next, proceed, hmining]
    · simp [next, proceed, hmining, hscope]
      omega
    · simp [next, proceed, hmining]
      omega
    · simp [next, proceed, hmining]
      omega
    · simp [next, proceed, hmining, inv.failed]
    · simp [next, proceed, hmining]
    · simp [next, proceed, hmining, hlocks, Service.pending]
      omega
  · refine broken_of_two_locks ?_ ?_
    · simp [next, proceed, hmining]
    · simp [next, proceed, hmining, hlocks]
      omega

/-- A start that is about to be launched without a lock. -/
theorem broken_launch {s : Service} (hmain : s.main = .launch) (hscope : s.scopeActive = true)
    (hmining : s.mining = false) (none : s.locksHeld = 0) : Broken s := by
  apply Broken.proceed (by simp [hmain])
  apply broken_of_promised
  · simp only [proceed, hmain]
  · simpa only [proceed, hmain] using none
  · refine Or.inr (Or.inr ⟨?_, ?_⟩)
    · simpa only [proceed, hmain] using hmining
    · simp only [proceed, hmain, hscope, if_true]
      omega

theorem broken_acquireFails {s : Service} (inv : Inv s) (hmain : s.main = .acquire) :
    Broken (next s .acquireFails) := by
  have consistent := inv.consistent
  simp only [Consistent, hmain] at consistent
  obtain ⟨balanced, hmining, hpending, hscope⟩ := consistent
  obtain ⟨hnative, hlock⟩ := balanced.stopped hpending hmining
  refine broken_launch rfl hscope hnative ?_
  simp only [next, acquireFails, inv.locks, hlock, Bool.toNat_false]

/-- Outside ending commands a held lock belongs to a miner, or to a start that will
bring one up. -/
theorem Balanced.promised {s : Service} (balanced : Balanced s) (hfailed : s.failed = 0)
    (held : s.wakeLock = true) : Promised s := by
  obtain ⟨_, hnative, hlock⟩ := balanced
  simp only [held, Bool.toNat_true, Service.pending, hfailed] at hlock
  cases hmining : s.isMining with
  | true => exact Or.inl hmining
  | false =>
    rw [hmining, Bool.toNat_false] at hnative hlock
    by_cases hsucceeded : 0 < s.succeeded
    · exact Or.inr (Or.inl hsucceeded)
    · exact Or.inr (Or.inr ⟨Bool.toNat_eq_zero.mp (by omega), by omega⟩)

/-- The lock times out under a miner, or under a start. -/
theorem broken_timeOut {s : Service} (inv : Inv s) (held : s.wakeLock = true)
    (hending : ¬ s.main.IsEnding) : Broken (next s (.timeOut true)) := by
  have consistent := inv.consistent
  have none : s.locksHeld - 1 = 0 := by
    rw [inv.locks, held]
    rfl
  cases hmain : s.main with
  | idle =>
    simp only [Consistent, hmain] at consistent
    exact broken_of_promised hmain none (consistent.promised inv.failed held)
  | check =>
    simp only [Consistent, hmain] at consistent
    obtain ⟨balanced, horderly⟩ := consistent
    cases hmining : s.isMining with
    | true =>
      apply Broken.proceed (by simp [next, timeOut, hmain])
      apply broken_of_promised
      · simp [next, timeOut, proceed, hmain, hmining]
      · simpa [next, timeOut, proceed, hmain] using none
      · exact Or.inl (by simp [next, timeOut, proceed, hmain, hmining])
    | false =>
      rw [hmining] at horderly
      obtain ⟨hpending, _⟩ := horderly.resolve_left (by decide)
      rw [(balanced.stopped hpending hmining).2] at held
      cases held
  | acquire =>
    simp only [Consistent, hmain] at consistent
    obtain ⟨balanced, hmining, hpending, _⟩ := consistent
    rw [(balanced.stopped hpending hmining).2] at held
    cases held
  | launch =>
    simp only [Consistent, hmain] at consistent
    obtain ⟨_, hnative, _, hscope, _⟩ := consistent
    exact broken_launch hmain hscope hnative none
  | _ =>
    rw [hmain] at hending
    exact absurd trivial hending

/-- A native start that fails leaves the lock that was taken for it. -/
theorem broken_failed_start {s : Service} (inv : Inv s) (enabled : 0 < s.begun) :
    Broken (next s (.nativeStart false)) := by
  have hpending : 0 < s.pending := by
    simp only [Service.pending]
    omega
  obtain ⟨idle, balanced⟩ := inv.idle_of_pending hpending (inv.not_ending (by omega))
  obtain ⟨hsingle, _, hlock⟩ := balanced
  have hfailed := inv.failed
  simp only [Service.pending] at hsingle hlock
  have hmining : s.isMining = false := Bool.toNat_eq_zero.mp (by omega)
  rw [next, nativeStart_uninitialized]
  refine Broken.head (e := .resume false) (by simp [Enabled]) ?_
  refine broken_of_stray_lock ⟨?_, ?_, ?_, ?_, ?_⟩ ?_ ?_
  · simpa [next, resume] using idle
  · simp only [next, resume, Bool.false_eq_true, if_false]
    omega
  · simp only [next, resume, Bool.false_eq_true, if_false]
    omega
  · simp only [next, resume, Bool.false_eq_true, if_false]
    omega
  · simp only [next, resume, Bool.false_eq_true, if_false]
    omega
  · simpa [next, resume] using hmining
  · simp only [next, resume, Bool.false_eq_true, if_false, inv.locks]
    omega

/-- A start that begins while an ending command runs. -/
theorem broken_dispatch {s : Service} (inv : Inv s) (hending : s.main.IsEnding) :
    Broken (next s .dispatch) := by
  have consistent := inv.consistent
  have flight : 0 < (next s .dispatch).begun + (next s .dispatch).succeeded := by
    simp only [next]
    omega
  cases hmain : s.main with
  | clear k => exact broken_clear hmain inv.locks (Or.inl flight)
  | stopNative k => exact broken_stopNative hmain inv.locks (Or.inl flight)
  | release k =>
    simp only [Consistent, hmain] at consistent
    exact broken_release hmain inv.locks consistent.2.2 (Or.inl flight)
  | cancel k =>
    simp only [Consistent, hmain] at consistent
    exact broken_cancel hmain inv.locks consistent.2.2.1 consistent.2.2.2.1 flight
  | _ =>
    rw [hmain] at hending
    exact hending.elim

/-- Each disorderly step can be continued to a quiescent state of disagreement. -/
theorem broken_of_disorderly {s : Service} {e : Event} (inv : Inv s) (enabled : Enabled s e)
    (disorderly : ¬ Orderly s e) : Broken (next s e) := by
  cases e with
  | deliver c =>
    cases c with
    | start => exact broken_start inv enabled.1 disorderly
    | ending k =>
      have hfailed := inv.failed
      have hflight : s.inFlight k ≠ 0 := disorderly
      refine broken_clear (k := k) rfl inv.locks ?_
      by_cases hpause : k = .pause
      · subst hpause
        simp only [Service.inFlight, Service.pending] at hflight
        simp only [next, true_and]
        omega
      · rw [Service.inFlight_of_ne_pause hpause] at hflight
        simp only [next]
        omega
  | proceed => exact absurd trivial disorderly
  | acquireFails => exact broken_acquireFails inv enabled
  | timeOut referred =>
    cases referred with
    | true => exact broken_timeOut inv enabled disorderly
    | false => exact absurd trivial disorderly
  | dispatch => exact broken_dispatch inv (Classical.not_not.mp disorderly)
  | nativeStart initialized =>
    cases initialized with
    | true => exact absurd rfl disorderly
    | false => exact broken_failed_start inv enabled
  | resume started => exact absurd trivial disorderly

/-- In every run whose steps are orderly, service and native miner agree in
every quiescent state; and one disorderly step more, and the run can be
continued to a quiescent state in which they do not. -/
theorem orderly_agrees {h : List (Service × Event)} {s : Service}
    (run : Run machine (· = Service.created) h s) (orderly : ∀ m ∈ h, Orderly m.1 m.2) :
    (Quiescent s → Agrees s) ∧
      ∀ e, Enabled s e → ¬ Orderly s e →
        ∃ newer s', Run machine (· = Service.created) (newer ++ (s, e) :: h) s' ∧
          Quiescent s' ∧ ¬ Agrees s' := by
  have inv := inv_run run orderly
  refine ⟨inv.agrees, ?_⟩
  intro e enabled disorderly
  obtain ⟨s', leads, quiet, disagrees⟩ := broken_of_disorderly inv enabled disorderly
  have taken : Run machine (· = Service.created) ((s, e) :: h) (next s e) := run.step enabled
  obtain ⟨newer, run'⟩ := taken.extend leads
  exact ⟨newer, s', run', quiet, disagrees⟩

/-- A START and its native start. -/
def oneStart : List Event :=
  [.deliver .start, .proceed, .proceed, .proceed, .dispatch, .nativeStart true, .resume true]

def oneStartRun : List (Service × Event) × Service := replay machine oneStart ([], .created)

theorem created_run : Run machine (· = Service.created) [] Service.created := .init rfl

theorem oneStart_run : Run machine (· = Service.created) oneStartRun.1 oneStartRun.2 :=
  replay_run created_run _ (by decide)

/-- Ten minutes later the service mines without a lock. -/
example : machine.Enabled oneStartRun.2 (.timeOut true) ∧
    ¬ Agrees (next oneStartRun.2 (.timeOut true)) := by decide

theorem orderly_agrees_oneStart :
    (Quiescent oneStartRun.2 → Agrees oneStartRun.2) ∧
      ∀ e, Enabled oneStartRun.2 e → ¬ Orderly oneStartRun.2 e →
        ∃ newer s', Run machine (· = Service.created)
            (newer ++ (oneStartRun.2, e) :: oneStartRun.1) s' ∧
          Quiescent s' ∧ ¬ Agrees s' :=
  orderly_agrees oneStart_run (by decide)

/-- A second START before the first one is done. -/
def twoStarts : List Event :=
  [.deliver .start, .proceed, .proceed, .proceed, .deliver .start, .proceed, .proceed, .proceed,
    .dispatch, .nativeStart true, .resume true, .dispatch, .nativeStart true, .resume false]

def twoStartsRun : List (Service × Event) × Service := replay machine twoStarts ([], .created)

/-- The service mines with two wake locks, of which it knows one. -/
theorem agrees_fails_twoStarts :
    Run machine (· = Service.created) twoStartsRun.1 twoStartsRun.2 ∧
      Quiescent twoStartsRun.2 ∧ ¬ Agrees twoStartsRun.2 :=
  ⟨replay_run created_run _ (by decide), by decide, by decide⟩

end MinerService
