import MoneroRandomXMiner.MinerService

/-!
# Runs of START commands alone

A native start that returns false makes the service stop itself, and `onDestroy`
stops the native miner whoever started it. A second START that is delivered
before the first one has come to an end is enough for that.
-/

namespace StartRequests

open Histories MinerService

/-- No STOP and no PAUSE is delivered; `onDestroy` follows from `stopSelf`. -/
def StartsOnly : Event → Prop
  | .deliver (.ending .pause) | .deliver (.ending .stop) => False
  | _ => True

instance : ∀ e, Decidable (StartsOnly e)
  | .deliver (.ending .pause) | .deliver (.ending .stop) => inferInstanceAs (Decidable False)
  | .deliver .start | .deliver (.ending .destroy) | .proceed | .acquireFails | .timeOut _
  | .dispatch | .nativeStart _ | .resume _ => inferInstanceAs (Decidable True)

/-- A native start that returns true. -/
def StartSucceeds (s : Service) : Event → Prop
  | .nativeStart initialized => initialized = true ∧ s.mining = false
  | _ => False

instance (s : Service) : ∀ e, Decidable (StartSucceeds s e)
  | .nativeStart _ => inferInstanceAs (Decidable (_ ∧ _))
  | .deliver _ | .proceed | .acquireFails | .timeOut _ | .dispatch | .resume _ =>
    inferInstanceAs (Decidable False)

def HasSucceeded (h : List (Service × Event)) : Prop := ∃ m ∈ h, StartSucceeds m.1 m.2

instance (h : List (Service × Event)) : Decidable (HasSucceeded h) :=
  inferInstanceAs (Decidable (∃ m ∈ h, _))

/-- All starts have come to their end, and a requested stop has been carried out. -/
def Completed (s : Service) : Prop :=
  Quiescent s ∧ (s.stopRequested = true → s.destroyed = true)

instance (s : Service) : Decidable (Completed s) := inferInstanceAs (Decidable (_ ∧ (_ → _)))

/-- The native miner that a start has brought up is still running. -/
def KeepsMining (h : List (Service × Event)) (s : Service) : Prop :=
  Completed s → HasSucceeded h → s.mining = true

instance (h : List (Service × Event)) (s : Service) : Decidable (KeepsMining h s) :=
  inferInstanceAs (Decidable (_ → _ → _))

/-- A START finds the service mining, or no start pending and no stop requested. -/
def Unhurried (s : Service) : Event → Prop
  | .deliver .start => s.isMining = true ∨ (s.pending = 0 ∧ s.stopRequested = false)
  | _ => True

instance (s : Service) : ∀ e, Decidable (Unhurried s e)
  | .deliver .start => inferInstanceAs (Decidable (_ ∨ _ ∧ _))
  | .deliver (.ending _) | .proceed | .acquireFails | .timeOut _ | .dispatch | .nativeStart _
  | .resume _ => inferInstanceAs (Decidable True)

/-- At most one start is pending, and none has brought up the miner. -/
structure Waiting (s : Service) : Prop where
  stopped : s.mining = false ∧ s.isMining = false ∧ s.succeeded = 0
  available : s.scopeActive = true ∧ s.destroyed = false ∧ s.stopRequested = false
  single : s.pending ≤ 1
  main : s.main = .idle ∨
    (s.main = .check ∨ s.main = .acquire ∨ s.main = .launch) ∧ s.pending = 0

/-- One start has brought up the miner, and the service has seen it or is about to. -/
structure Running (s : Service) : Prop where
  mining : s.mining = true
  available : s.scopeActive = true ∧ s.destroyed = false ∧ s.stopRequested = false
  single : s.launched = 0 ∧ s.begun = 0 ∧ s.failed = 0
  seen : s.isMining = true ∧ s.succeeded = 0 ∨ s.isMining = false ∧ s.succeeded = 1
  main : s.main = .idle ∨ s.main = .check ∧ s.isMining = true

/-- The one start has failed, and the service is being destroyed. -/
structure Stopping (s : Service) : Prop where
  stopped : s.mining = false ∧ s.isMining = false ∧ s.pending = 0
  requested : s.stopRequested = true
  scope : s.destroyed = false → s.scopeActive = true
  main : s.main = .idle ∨ s.main = .clear .destroy ∨ s.main = .stopNative .destroy ∨
    s.main = .release .destroy ∨ s.main = .cancel .destroy

def Inv (h : List (Service × Event)) (s : Service) : Prop :=
  HasSucceeded h ∧ Running s ∨ ¬HasSucceeded h ∧ (Waiting s ∨ Stopping s)

theorem hasSucceeded_cons {s : Service} {e : Event} {h : List (Service × Event)} :
    HasSucceeded ((s, e) :: h) ↔ StartSucceeds s e ∨ HasSucceeded h := by
  simp [HasSucceeded]

theorem pending_zero_iff (s : Service) :
    s.pending = 0 ↔ s.launched = 0 ∧ s.begun = 0 ∧ s.succeeded = 0 ∧ s.failed = 0 := by
  simp only [Service.pending]
  omega

theorem Running.step {s : Service} {e : Event} (running : Running s) (enabled : Enabled s e)
    (only : StartsOnly e) (unhurried : Unhurried s e) :
    ¬StartSucceeds s e ∧ Running (next s e) := by
  obtain ⟨mining, ⟨scope, alive, kept⟩, ⟨hlaunched, hbegun, hfailed⟩, seen, main⟩ := running
  cases e with
  | deliver c =>
    cases c with
    | start =>
      have visible : s.isMining = true := by
        rcases unhurried with visible | ⟨none, -⟩
        · exact visible
        · have hsucceeded := ((pending_zero_iff s).mp none).2.2.1
          rcases seen with ⟨visible, -⟩ | ⟨-, one⟩
          · exact visible
          · omega
      exact ⟨id, mining, ⟨scope, alive, kept⟩, ⟨hlaunched, hbegun, hfailed⟩, seen,
        Or.inr ⟨rfl, visible⟩⟩
    | ending k =>
      cases k with
      | destroy =>
        have requested : s.stopRequested = true := enabled.2.2
        rw [kept] at requested
        cases requested
      | _ => exact only.elim
  | proceed =>
    rcases main with idle | ⟨check, visible⟩
    · exact absurd idle enabled
    · refine ⟨id, ?_⟩
      simp only [next, proceed, check, visible, if_true]
      exact ⟨mining, ⟨scope, alive, kept⟩, ⟨hlaunched, hbegun, hfailed⟩,
        by simpa [visible] using seen, Or.inl rfl⟩
  | acquireFails =>
    have acquire : s.main = .acquire := enabled
    rcases main with hmain | ⟨hmain, -⟩ <;> cases acquire.symm.trans hmain
  | timeOut referred =>
    exact ⟨id, mining, ⟨scope, alive, kept⟩, ⟨hlaunched, hbegun, hfailed⟩, seen, main⟩
  | dispatch =>
    have positive : 0 < s.launched := enabled
    omega
  | nativeStart initialized =>
    have positive : 0 < s.begun := enabled
    omega
  | resume started =>
    cases started with
    | false =>
      have positive : 0 < s.failed := enabled
      omega
    | true =>
      have positive : 0 < s.succeeded := enabled
      have one : s.succeeded = 1 := by omega
      have idle : s.main = .idle := by
        rcases main with idle | ⟨-, visible⟩
        · exact idle
        · rcases seen with ⟨-, none⟩ | ⟨unseen, -⟩
          · omega
          · rw [visible] at unseen
            cases unseen
      exact ⟨id, mining, ⟨scope, alive, kept⟩, ⟨hlaunched, hbegun, hfailed⟩,
        Or.inl ⟨rfl, by simp [next, resume, one]⟩, Or.inl idle⟩

theorem Stopping.step {s : Service} {e : Event} (stopping : Stopping s) (enabled : Enabled s e)
    (only : StartsOnly e) (unhurried : Unhurried s e) :
    ¬StartSucceeds s e ∧ Stopping (next s e) := by
  obtain ⟨⟨mining, unseen, none⟩, requested, scope, main⟩ := stopping
  obtain ⟨hlaunched, hbegun, hsucceeded, hfailed⟩ := (pending_zero_iff s).mp none
  cases e with
  | deliver c =>
    cases c with
    | start =>
      rcases unhurried with visible | ⟨-, kept⟩
      · rw [unseen] at visible
        cases visible
      · rw [requested] at kept
        cases kept
    | ending k =>
      cases k with
      | destroy => exact ⟨id, ⟨mining, unseen, none⟩, requested, scope, Or.inr (Or.inl rfl)⟩
      | _ => exact only.elim
  | proceed =>
    refine ⟨id, ?_⟩
    rcases main with idle | hmain | hmain | hmain | hmain
    · exact absurd idle enabled
    · simp only [next, proceed, hmain]
      exact ⟨⟨mining, rfl, none⟩, requested, scope, Or.inr (Or.inr (Or.inl rfl))⟩
    · simp only [next, proceed, hmain]
      exact ⟨⟨rfl, unseen, none⟩, requested, scope, Or.inr (Or.inr (Or.inr (Or.inl rfl)))⟩
    · simp only [next, proceed, hmain]
      exact ⟨⟨mining, unseen, none⟩, requested, scope, Or.inr (Or.inr (Or.inr (Or.inr rfl)))⟩
    · simp only [next, proceed, hmain]
      refine ⟨⟨mining, unseen, ?_⟩, rfl, by simp, Or.inl rfl⟩
      simp [Service.pending, hbegun, hsucceeded, hfailed]
  | acquireFails =>
    have acquire : s.main = .acquire := enabled
    rcases main with hmain | hmain | hmain | hmain | hmain <;> cases acquire.symm.trans hmain
  | timeOut referred => exact ⟨id, ⟨mining, unseen, none⟩, requested, scope, main⟩
  | dispatch =>
    have positive : 0 < s.launched := enabled
    omega
  | nativeStart initialized =>
    have positive : 0 < s.begun := enabled
    omega
  | resume started =>
    cases started with
    | true =>
      have positive : 0 < s.succeeded := enabled
      omega
    | false =>
      have positive : 0 < s.failed := enabled
      omega

/-- A pending start meets an idle main thread. -/
theorem Waiting.idle {s : Service} (waiting : Waiting s) (positive : 0 < s.pending) :
    s.main = .idle := by
  rcases waiting.main with idle | ⟨-, none⟩
  · exact idle
  · omega

/-- The first native start either brings up the miner or fails. -/
theorem Waiting.nativeStart {s : Service} (waiting : Waiting s) (positive : 0 < s.begun)
    (initialized : Bool) :
    StartSucceeds s (.nativeStart initialized) ∧ Running (next s (.nativeStart initialized)) ∨
      ¬StartSucceeds s (.nativeStart initialized) ∧
        Waiting (next s (.nativeStart initialized)) := by
  have idle := waiting.idle (by simp only [Service.pending]; omega)
  obtain ⟨⟨mining, unseen, hsucceeded⟩, available, single, -⟩ := waiting
  simp only [Service.pending] at single
  cases initialized with
  | true =>
    left
    refine ⟨⟨rfl, mining⟩, ?_⟩
    rw [next, nativeStart_stopped mining]
    refine ⟨rfl, available, ⟨?_, ?_, ?_⟩, Or.inr ⟨unseen, ?_⟩, Or.inl idle⟩ <;> dsimp only <;> omega
  | false =>
    right
    constructor
    · rintro ⟨impossible, -⟩
      cases impossible
    · rw [next, nativeStart_uninitialized]
      refine ⟨⟨mining, unseen, hsucceeded⟩, available, ?_, Or.inl idle⟩
      simp only [Service.pending]
      omega

theorem Waiting.step {s : Service} {e : Event} (waiting : Waiting s) (enabled : Enabled s e)
    (only : StartsOnly e) (unhurried : Unhurried s e) :
    StartSucceeds s e ∧ Running (next s e) ∨
      ¬StartSucceeds s e ∧ (Waiting (next s e) ∨ Stopping (next s e)) := by
  cases e with
  | nativeStart initialized =>
    exact (waiting.nativeStart enabled initialized).imp id fun h => ⟨h.1, Or.inl h.2⟩
  | deliver c =>
    obtain ⟨stopped, available, single, main⟩ := waiting
    refine Or.inr ⟨id, Or.inl ?_⟩
    cases c with
    | start =>
      have none : s.pending = 0 := by
        rcases unhurried with visible | ⟨none, -⟩
        · rw [stopped.2.1] at visible
          cases visible
        · exact none
      exact ⟨stopped, available, single, Or.inr ⟨Or.inl rfl, none⟩⟩
    | ending k =>
      cases k with
      | destroy =>
        have requested : s.stopRequested = true := enabled.2.2
        rw [available.2.2] at requested
        cases requested
      | _ => exact only.elim
  | proceed =>
    obtain ⟨stopped, available, single, main⟩ := waiting
    refine Or.inr ⟨id, Or.inl ?_⟩
    rcases main with idle | ⟨hmain | hmain | hmain, none⟩
    · exact absurd idle enabled
    · simp only [next, proceed, hmain, stopped.2.1]
      exact ⟨⟨stopped.1, rfl, stopped.2.2⟩, available, single, Or.inr ⟨Or.inr (Or.inl rfl), none⟩⟩
    · simp only [next, proceed, hmain]
      exact ⟨stopped, available, single, Or.inr ⟨Or.inr (Or.inr rfl), none⟩⟩
    · simp only [next, proceed, hmain, available.1, if_true]
      refine ⟨stopped, ⟨rfl, available.2⟩, ?_, Or.inl rfl⟩
      simp only [Service.pending] at none ⊢
      omega
  | acquireFails =>
    have acquire : s.main = .acquire := enabled
    obtain ⟨stopped, available, single, main⟩ := waiting
    refine Or.inr ⟨id, Or.inl ⟨stopped, available, single, Or.inr ⟨Or.inr (Or.inr rfl), ?_⟩⟩⟩
    rcases main with idle | ⟨-, none⟩
    · cases acquire.symm.trans idle
    · exact none
  | timeOut referred =>
    obtain ⟨stopped, available, single, main⟩ := waiting
    exact Or.inr ⟨id, Or.inl ⟨stopped, available, single, main⟩⟩
  | dispatch =>
    have positive : 0 < s.launched := enabled
    have idle := waiting.idle (by simp only [Service.pending]; omega)
    obtain ⟨stopped, available, single, -⟩ := waiting
    refine Or.inr ⟨id, Or.inl ⟨stopped, available, ?_, Or.inl idle⟩⟩
    simp only [next, Service.pending] at single ⊢
    omega
  | resume started =>
    cases started with
    | true =>
      have positive : 0 < s.succeeded := enabled
      rw [waiting.stopped.2.2] at positive
      omega
    | false =>
      have positive : 0 < s.failed := enabled
      have idle := waiting.idle (by simp only [Service.pending]; omega)
      obtain ⟨stopped, available, single, -⟩ := waiting
      refine Or.inr ⟨id, Or.inr ⟨⟨stopped.1, stopped.2.1, ?_⟩, rfl, fun _ => available.1,
        Or.inl idle⟩⟩
      simp only [Service.pending] at single
      simp only [next, resume, Service.pending, Bool.false_eq_true, if_false]
      omega

theorem inv_step {h : List (Service × Event)} {s : Service} {e : Event} (inv : Inv h s)
    (enabled : Enabled s e) (only : StartsOnly e) (unhurried : Unhurried s e) :
    Inv ((s, e) :: h) (next s e) := by
  rw [Inv, hasSucceeded_cons]
  rcases inv with ⟨succeeded, running⟩ | ⟨never, waiting | stopping⟩
  · exact Or.inl ⟨Or.inr succeeded, (running.step enabled only unhurried).2⟩
  · rcases waiting.step enabled only unhurried with ⟨succeeds, running⟩ | ⟨fails, rest⟩
    · exact Or.inl ⟨Or.inl succeeds, running⟩
    · exact Or.inr ⟨not_or.mpr ⟨fails, never⟩, rest⟩
  · obtain ⟨fails, rest⟩ := stopping.step enabled only unhurried
    exact Or.inr ⟨not_or.mpr ⟨fails, never⟩, Or.inr rest⟩

theorem waiting_created : Waiting Service.created :=
  ⟨⟨rfl, rfl, rfl⟩, ⟨rfl, rfl, rfl⟩, by decide, Or.inl rfl⟩

theorem inv_run {h : List (Service × Event)} {s : Service}
    (run : Run machine (· = Service.created) h s) (only : ∀ m ∈ h, StartsOnly m.2)
    (unhurried : ∀ m ∈ h, Unhurried m.1 m.2) : Inv h s := by
  apply run.invariant_of_steps (P := Inv) (Q := fun s e => StartsOnly e ∧ Unhurried s e)
  · rintro s rfl
    exact Or.inr ⟨by simp [HasSucceeded], Or.inl waiting_created⟩
  · exact fun _ _ _ inv enabled step => inv_step inv enabled step.1 step.2
  · exact fun m mem => ⟨only m mem, unhurried m mem⟩

theorem Inv.keepsMining {h : List (Service × Event)} {s : Service} (inv : Inv h s) :
    KeepsMining h s := by
  intro _ succeeded
  rcases inv with ⟨-, running⟩ | ⟨never, -⟩
  · exact running.mining
  · exact absurd succeeded never

/-- A continuation without STOP and PAUSE that ends with the miner stopped, and in
which a start succeeds if that is still needed. -/
def Dies (needed : Prop) (s : Service) : Prop :=
  ∃ newer s', Run machine (· = s) newer s' ∧ (∀ m ∈ newer, StartsOnly m.2) ∧ Completed s' ∧
    s'.mining = false ∧ (needed → HasSucceeded newer)

theorem Dies.head {needed : Prop} {s : Service} {e : Event} (enabled : Enabled s e)
    (only : StartsOnly e) (dies : Dies (needed ∧ ¬StartSucceeds s e) (next s e)) :
    Dies needed s := by
  obtain ⟨newer, s', run, rest, completed, stopped, succeeds⟩ := dies
  have here : Run machine (· = s) [] s := .init rfl
  have first : Run machine (· = s) [(s, e)] (next s e) := here.step enabled
  refine ⟨newer ++ [(s, e)], s', first.append run, ?_, completed, stopped, ?_⟩
  · intro m mem
    rcases List.mem_append.mp mem with later | oldest
    · exact rest m later
    · rw [List.mem_singleton.mp oldest]
      exact only
  · intro need
    by_cases now : StartSucceeds s e
    · exact ⟨(s, e), by simp, now⟩
    · obtain ⟨m, mem, later⟩ := succeeds ⟨need, now⟩
      exact ⟨m, List.mem_append_left _ mem, later⟩

theorem Dies.mono {needed needed' : Prop} {s : Service} (dies : Dies needed s)
    (less : needed' → needed) : Dies needed' s := by
  obtain ⟨newer, s', run, rest, completed, stopped, succeeds⟩ := dies
  exact ⟨newer, s', run, rest, completed, stopped, fun need => succeeds (less need)⟩

theorem Dies.proceed {needed : Prop} {s : Service} (busy : s.main ≠ .idle)
    (dies : Dies needed (proceed s)) : Dies needed s :=
  Dies.head (e := .proceed) busy trivial (dies.mono And.left)

/-- `onDestroy` runs to its end. -/
theorem dies_destroyed {s : Service} (idle : s.main = .idle) (alive : s.destroyed = false)
    (requested : s.stopRequested = true) (none : s.pending = 0) : Dies False s := by
  obtain ⟨hlaunched, hbegun, hsucceeded, hfailed⟩ := (pending_zero_iff s).mp none
  refine Dies.head (e := .deliver (.ending .destroy)) ⟨idle, alive, requested⟩ trivial ?_
  refine Dies.mono ?_ And.left
  apply Dies.proceed (by simp [next])
  apply Dies.proceed (by simp [next, proceed])
  apply Dies.proceed (by simp [next, proceed])
  apply Dies.proceed (by simp [next, proceed])
  refine ⟨[], _, .init rfl, by simp, ⟨⟨?_, ?_, ?_, ?_, ?_⟩, ?_⟩, ?_, False.elim⟩
  · simp [next, proceed]
  · simp [next, proceed]
  · simpa [next, proceed] using hbegun
  · simpa [next, proceed] using hsucceeded
  · simpa [next, proceed] using hfailed
  · simp [next, proceed]
  · simp [next, proceed]

/-- A stop that is requested, or will be by a start that fails, ends the miner. -/
theorem dies_drained (s : Service) (idle : s.main = .idle) (alive : s.destroyed = false)
    (doomed : s.stopRequested = true ∨ 0 < s.failed ∨
      s.mining = true ∧ 0 < s.launched + s.begun) : Dies False s := by
  induction hwork : s.work using Nat.strongRecOn generalizing s with
  | ind k ih =>
    have advance : ∀ e, Enabled s e → StartsOnly e → (next s e).main = .idle →
        (next s e).destroyed = false → (next s e).work < k →
        ((next s e).stopRequested = true ∨ 0 < (next s e).failed ∨
          (next s e).mining = true ∧ 0 < (next s e).launched + (next s e).begun) →
        Dies False s := by
      intro e enabled only hidle halive hless hdoomed
      exact Dies.head enabled only ((ih _ hless _ hidle halive hdoomed rfl).mono And.left)
    simp only [Service.work] at hwork
    by_cases hsucceeded : 0 < s.succeeded
    · refine advance (.resume true) hsucceeded trivial idle alive ?_ doomed
      simp only [Service.work, next, resume, if_true]
      omega
    by_cases hfailed : 0 < s.failed
    · refine advance (.resume false) hfailed trivial idle alive ?_ (Or.inl rfl)
      simp only [Service.work, next, resume, Bool.false_eq_true, if_false]
      omega
    by_cases hbegun : 0 < s.begun
    · cases hmining : s.mining with
      | true =>
        apply advance (.nativeStart true) hbegun trivial <;> rw [next, nativeStart_running hmining]
        · exact idle
        · exact alive
        · simp only [Service.work]
          omega
        · exact Or.inr (Or.inl (Nat.succ_pos _))
      | false =>
        have requested : s.stopRequested = true := by
          rcases doomed with requested | failed | ⟨mining, -⟩
          · exact requested
          · exact absurd failed hfailed
          · rw [hmining] at mining
            cases mining
        apply advance (.nativeStart true) hbegun trivial <;> rw [next, nativeStart_stopped hmining]
        · exact idle
        · exact alive
        · simp only [Service.work]
          omega
        · exact Or.inl requested
    by_cases hlaunched : 0 < s.launched
    · refine advance .dispatch hlaunched trivial idle alive ?_ ?_
      · simp only [Service.work, next]
        omega
      · refine doomed.imp_right (Or.imp_right (And.imp_right fun _ => ?_))
        simp only [next]
        omega
    · have requested : s.stopRequested = true := by
        rcases doomed with requested | failed | ⟨-, pending⟩
        · exact requested
        · exact absurd failed hfailed
        · omega
      exact dies_destroyed idle alive requested ((pending_zero_iff s).mpr (by omega))

/-- A start brings up the miner, which the stop then ends. -/
theorem dies_started {s : Service} (idle : s.main = .idle) (alive : s.destroyed = false)
    (stopped : s.mining = false) (pending : 0 < s.launched + s.begun)
    (doomed : s.stopRequested = true ∨ 0 < s.failed ∨ 2 ≤ s.launched + s.begun) :
    Dies True s := by
  have started : ∀ s : Service, s.main = .idle → s.destroyed = false → s.mining = false →
      0 < s.begun → s.stopRequested = true ∨ 0 < s.failed ∨ 2 ≤ s.launched + s.begun →
      Dies True s := by
    intro s idle alive stopped positive doomed
    have ended : Dies False (next s (.nativeStart true)) := by
      rw [next, nativeStart_stopped stopped]
      refine dies_drained _ idle alive (doomed.imp_right (Or.imp_right fun two => ⟨rfl, ?_⟩))
      dsimp only
      omega
    refine Dies.head (e := .nativeStart true) positive trivial ?_
    exact ended.mono fun need => need.2 ⟨rfl, stopped⟩
  by_cases hbegun : 0 < s.begun
  · exact started s idle alive stopped hbegun doomed
  · have hlaunched : 0 < s.launched := by omega
    refine Dies.head (e := .dispatch) hlaunched trivial (Dies.mono ?_ And.left)
    refine started _ idle alive stopped ?_ ?_
    · simp [next]
    · refine doomed.imp_right (Or.imp_right fun two => ?_)
      simp only [next]
      omega

/-- A START that finds the service not mining launches one more start. -/
theorem dies_launch {needed : Prop} {s : Service} (unseen : s.isMining = false)
    (scope : s.scopeActive = true)
    (dies : Dies needed
      { s with
        main := .idle, wakeLock := true, locksHeld := s.locksHeld + 1
        launched := s.launched + 1 }) :
    Dies needed (next s (.deliver .start)) := by
  apply Dies.proceed (by simp [next])
  apply Dies.proceed (by simp [next, proceed, unseen])
  apply Dies.proceed (by simp [next, proceed, unseen])
  simpa [next, proceed, unseen, scope] using dies

/-- A START that meets a pending start or a requested stop. -/
theorem dies_hurried {h : List (Service × Event)} {s : Service} (inv : Inv h s)
    (enabled : Enabled s (.deliver .start)) (hurried : ¬Unhurried s (.deliver .start)) :
    Dies (¬HasSucceeded h) (next s (.deliver .start)) := by
  simp only [Unhurried, not_or, Bool.not_eq_true] at hurried
  obtain ⟨unseen, unready⟩ := hurried
  rcases inv with ⟨succeeded, running⟩ | ⟨never, waiting | stopping⟩
  · have ended : Dies False (next s (.deliver .start)) := by
      apply dies_launch unseen running.available.1
      exact dies_drained _ rfl enabled.2.1 (Or.inr (Or.inr ⟨running.mining, by dsimp only; omega⟩))
    exact ended.mono fun need => need succeeded
  · have pending : s.pending ≠ 0 := fun none => unready ⟨none, waiting.available.2.2⟩
    have none := waiting.stopped.2.2
    simp only [Service.pending] at pending
    have ended : Dies True (next s (.deliver .start)) := by
      apply dies_launch unseen waiting.available.1
      apply dies_started
      · rfl
      · exact enabled.2.1
      · exact waiting.stopped.1
      · dsimp only
        omega
      · dsimp only
        omega
    exact ended.mono fun _ => trivial
  · have ended : Dies True (next s (.deliver .start)) := by
      apply dies_launch unseen (stopping.scope enabled.2.1)
      apply dies_started
      · rfl
      · exact enabled.2.1
      · exact stopping.stopped.1
      · dsimp only
        omega
      · exact Or.inl stopping.requested
    exact ended.mono fun _ => trivial

theorem unhurried_of_not_start {s : Service} {e : Event} (other : e ≠ .deliver .start) :
    Unhurried s e := by
  cases e with
  | deliver c =>
    cases c with
    | start => exact absurd rfl other
    | ending k => trivial
  | _ => trivial

/-- In every run of START commands in which none is hurried, a native start that has
succeeded keeps the miner running; and one hurried START more, and the run can be
continued to a completed state in which a start has succeeded and the miner is stopped. -/
theorem unhurried_keepsMining {h : List (Service × Event)} {s : Service}
    (run : Run machine (· = Service.created) h s) (only : ∀ m ∈ h, StartsOnly m.2)
    (unhurried : ∀ m ∈ h, Unhurried m.1 m.2) :
    KeepsMining h s ∧
      ∀ e, Enabled s e → ¬Unhurried s e →
        ∃ newer s', Run machine (· = Service.created) (newer ++ (s, e) :: h) s' ∧
          (∀ m ∈ newer ++ (s, e) :: h, StartsOnly m.2) ∧
          ¬KeepsMining (newer ++ (s, e) :: h) s' := by
  have inv := inv_run run only unhurried
  refine ⟨inv.keepsMining, ?_⟩
  intro e enabled hurried
  obtain rfl : e = .deliver .start := by
    by_contra other
    exact hurried (unhurried_of_not_start other)
  obtain ⟨newer, s', more, rest, completed, stopped, succeeds⟩ := dies_hurried inv enabled hurried
  have taken : Run machine (· = Service.created) ((s, .deliver .start) :: h)
    (next s (.deliver .start)) := run.step enabled
  refine ⟨newer, s', taken.append more, ?_, ?_⟩
  · intro m mem
    rcases List.mem_append.mp mem with later | earlier
    · exact rest m later
    · rcases List.mem_cons.mp earlier with rfl | old
      · trivial
      · exact only m old
  · intro keeps
    have succeeded : HasSucceeded (newer ++ (s, .deliver .start) :: h) := by
      by_cases before : HasSucceeded h
      · obtain ⟨m, mem, hm⟩ := before
        exact ⟨m, List.mem_append_right _ (List.mem_cons_of_mem _ mem), hm⟩
      · obtain ⟨m, mem, hm⟩ := succeeds before
        exact ⟨m, List.mem_append_left _ mem, hm⟩
    rw [keeps completed succeeded] at stopped
    cases stopped

theorem unhurried_keepsMining_oneStart :
    KeepsMining oneStartRun.1 oneStartRun.2 ∧
      ∀ e, Enabled oneStartRun.2 e → ¬Unhurried oneStartRun.2 e →
        ∃ newer s', Run machine (· = Service.created)
            (newer ++ (oneStartRun.2, e) :: oneStartRun.1) s' ∧
          (∀ m ∈ newer ++ (oneStartRun.2, e) :: oneStartRun.1, StartsOnly m.2) ∧
          ¬KeepsMining (newer ++ (oneStartRun.2, e) :: oneStartRun.1) s' :=
  unhurried_keepsMining oneStart_run (by decide) (by decide)

/-- Two STARTs before the first native start: the second one fails, and the service
stops itself. -/
def secondFails : List Event :=
  twoStarts ++ [.deliver (.ending .destroy), .proceed, .proceed, .proceed, .proceed]

def secondFailsRun : List (Service × Event) × Service :=
  replay machine secondFails ([], .created)

/-- A start has succeeded, everything has come to its end, and the miner is stopped. -/
theorem keepsMining_fails_secondFails :
    Run machine (· = Service.created) secondFailsRun.1 secondFailsRun.2 ∧
      (∀ m ∈ secondFailsRun.1, StartsOnly m.2) ∧ HasSucceeded secondFailsRun.1 ∧
      Completed secondFailsRun.2 ∧ ¬KeepsMining secondFailsRun.1 secondFailsRun.2 :=
  ⟨replay_run created_run _ (by decide), by decide, by decide, by decide, by decide⟩

end StartRequests
