import MoneroRandomXMiner.MinerViewModel

/-!
# The monitoring coroutines of the view model

`startMining` launches a coroutine that tests `isMining`, waits for a second and
writes the UI state, in this order. A stop does not end it, so it writes once
more, and a start in the meantime keeps it going beside the new one.
-/

namespace Monitoring

open Histories ConfigManager MinerViewModel

/-- A coroutine that waits in `delay`. -/
structure Monitor where
  startTime : Int
  deriving DecidableEq

/-- The view model with the uptime it shows and its coroutines. The hash rate and
the share counts, which nothing sets but for resets, are left out. -/
structure Screen (JsonText : Type) where
  vm : ViewModel JsonText
  uptime : Int
  uptimeFormatted : String
  monitors : List Monitor

variable {JsonText : Type}

/-- `%02d` -/
def twoDigits (n : Int) : String :=
  if 0 ≤ n ∧ n < 10 then "0" ++ toString n else toString n

def formatUptime (totalSeconds : Int) : String :=
  twoDigits (totalSeconds.tdiv 3600) ++ ":" ++ twoDigits ((totalSeconds.tmod 3600).tdiv 60) ++
    ":" ++ twoDigits (totalSeconds.tmod 60)

/-- The scope runs a coroutine at once up to its first suspension. -/
def startMonitoring (now : Int) (s : Screen JsonText) : Screen JsonText :=
  if s.vm.ui.isMining then { s with monitors := s.monitors ++ [⟨now⟩] } else s

def startMining (gson : Gson JsonText) (now : Int) (s : Screen JsonText) : Screen JsonText :=
  let called := { s with vm := MinerViewModel.startMining gson s.vm }
  match validationError gson s.vm with
  | some _ => called
  | none => startMonitoring now called

def stopMining (s : Screen JsonText) : Screen JsonText :=
  { s with vm := MinerViewModel.stopMining s.vm, uptime := 0, uptimeFormatted := "00:00:00" }

/-- What a coroutine does from the end of its `delay` to the next one, or to its end. -/
def resume (i : Nat) (now : Int) (s : Screen JsonText) : Screen JsonText :=
  match s.monitors[i]? with
  | none => s
  | some m =>
    let uptimeSeconds := (now - m.startTime).tdiv 1000
    let updated := { s with
      vm := { s.vm with ui := { s.vm.ui with status := "Mining" } }
      uptime := uptimeSeconds
      uptimeFormatted := formatUptime uptimeSeconds }
    if updated.vm.ui.isMining then updated
    else { updated with monitors := updated.monitors.eraseIdx i }

/-- A call of the view model, with the clock at that moment, or the end of a delay. -/
inductive Event where
  | call (op : Op) (now : Int)
  | tick (i : Nat) (now : Int)

def Enabled (s : Screen JsonText) : Event → Prop
  | .call _ _ => True
  | .tick i _ => i < s.monitors.length

instance (s : Screen JsonText) : ∀ e, Decidable (Enabled s e)
  | .call _ _ => inferInstanceAs (Decidable True)
  | .tick _ _ => inferInstanceAs (Decidable (_ < _))

def next (gson : Gson JsonText) (s : Screen JsonText) : Event → Screen JsonText
  | .call .startMining now => startMining gson now s
  | .call .stopMining _ => stopMining s
  | .call op _ => { s with vm := MinerViewModel.next gson s.vm op }
  | .tick i now => resume i now s

def machine (gson : Gson JsonText) : Machine (Screen JsonText) Event where
  Enabled := Enabled
  next := next gson

instance (gson : Gson JsonText) (s : Screen JsonText) (e : Event) :
    Decidable ((machine gson).Enabled s e) :=
  inferInstanceAs (Decidable (Enabled s e))

/-- A view model constructed over any preferences. -/
def Created (gson : Gson JsonText) (s : Screen JsonText) : Prop :=
  ∃ preferences,
    s = ⟨loadSavedConfig gson ⟨preferences, MinerUIState.initial, none, []⟩, 0, "00:00:00", []⟩

/-- A view model that is not mining shows so, and one coroutine at most goes on. -/
structure Agrees (s : Screen JsonText) : Prop where
  stopped : s.vm.ui.isMining = false → s.vm.ui.status = "Stopped" ∧ s.uptime = 0
  atMostOne : s.monitors.length ≤ 1

/-- A start that gets past its checks finds no coroutine waiting, and a coroutine
that wakes up finds the view model mining. -/
def Orderly (gson : Gson JsonText) (s : Screen JsonText) : Event → Prop
  | .call .startMining _ => Valid gson s.vm → s.monitors = []
  | .call _ _ => True
  | .tick _ _ => s.vm.ui.isMining = true

variable {gson : Gson JsonText}

theorem startMining_valid {s : Screen JsonText} (valid : Valid gson s.vm) (now : Int) :
    (startMining gson now s).vm.ui.isMining = true ∧
      (startMining gson now s).monitors = s.monitors ++ [⟨now⟩] := by
  have none : validationError gson s.vm = none := valid
  simp [startMining, MinerViewModel.startMining, startMonitoring, none]

theorem startMining_invalid {s : Screen JsonText} (invalid : ¬Valid gson s.vm) (now : Int) :
    (startMining gson now s).vm.ui = s.vm.ui ∧ (startMining gson now s).uptime = s.uptime ∧
      (startMining gson now s).monitors = s.monitors := by
  obtain ⟨toast, htoast⟩ := Option.ne_none_iff_exists'.mp invalid
  simp [startMining, MinerViewModel.startMining, htoast]

/-- A coroutine that wakes up writes, and ends where the view model is not mining. -/
theorem resume_eq {s : Screen JsonText} {i : Nat} (waiting : i < s.monitors.length) (now : Int) :
    (resume i now s).vm.ui.isMining = s.vm.ui.isMining ∧
      (resume i now s).vm.ui.status = "Mining" ∧
      (resume i now s).monitors.length ≤ s.monitors.length := by
  have found := List.getElem?_eq_getElem waiting
  simp only [resume, found]
  split
  · exact ⟨rfl, rfl, Nat.le_refl _⟩
  · exact ⟨rfl, rfl, List.length_eraseIdx_le _ _⟩

/-- The other calls leave alone what shows whether the view model is mining. -/
theorem next_quiet (gson : Gson JsonText) (vm : ViewModel JsonText) {op : Op}
    (start : op ≠ .startMining) (stop : op ≠ .stopMining) :
    (MinerViewModel.next gson vm op).ui.isMining = vm.ui.isMining ∧
      (MinerViewModel.next gson vm op).ui.status = vm.ui.status := by
  cases op with
  | selectRig rigName =>
    simp only [MinerViewModel.next, selectRig]
    split <;> exact ⟨rfl, rfl⟩
  | startMining => exact absurd rfl start
  | stopMining => exact absurd rfl stop
  | _ => exact ⟨rfl, rfl⟩

theorem agrees_quiet {s : Screen JsonText} (agrees : Agrees s) {op : Op}
    (start : op ≠ .startMining) (stop : op ≠ .stopMining) :
    Agrees { s with vm := MinerViewModel.next gson s.vm op } := by
  obtain ⟨hmining, hstatus⟩ := next_quiet gson s.vm start stop
  refine ⟨fun off => ?_, agrees.atMostOne⟩
  rw [hstatus]
  exact agrees.stopped (hmining ▸ off)

/-- From agreement a step leads to agreement exactly when it is orderly. -/
theorem agrees_next_iff {s : Screen JsonText} {e : Event} (agrees : Agrees s)
    (enabled : Enabled s e) : Agrees (next gson s e) ↔ Orderly gson s e := by
  cases e with
  | tick i now =>
    obtain ⟨hmining, hstatus, hlen⟩ := resume_eq enabled now
    constructor
    · rintro ⟨stopped, -⟩
      by_contra off
      have shown := (stopped (hmining.trans (by simpa [Orderly] using off))).1
      rw [next, hstatus] at shown
      exact absurd shown (by decide)
    · intro mining
      refine ⟨fun off => ?_, Nat.le_trans hlen agrees.atMostOne⟩
      rw [next, hmining, mining] at off
      cases off
  | call op now =>
    cases op with
    | startMining =>
      by_cases valid : Valid gson s.vm
      · obtain ⟨hmining, hmonitors⟩ := startMining_valid valid now
        constructor
        · rintro ⟨-, atMostOne⟩ -
          rw [next, hmonitors, List.length_append, List.length_singleton] at atMostOne
          exact List.eq_nil_of_length_eq_zero (by omega)
        · intro free
          refine ⟨fun off => ?_, ?_⟩
          · rw [next, hmining] at off
            cases off
          · rw [next, hmonitors, free valid]
            exact Nat.le_refl 1
      · obtain ⟨hui, huptime, hmonitors⟩ := startMining_invalid valid now
        refine iff_of_true ⟨fun off => ?_, ?_⟩ fun valid' => absurd valid' valid
        · rw [next, hui] at off
          rw [next, hui, huptime]
          exact agrees.stopped off
        · rw [next, hmonitors]
          exact agrees.atMostOne
    | stopMining => exact iff_of_true ⟨fun _ => ⟨rfl, rfl⟩, agrees.atMostOne⟩ trivial
    | _ => exact iff_of_true (agrees_quiet agrees (by simp) (by simp)) trivial

theorem agrees_created {s : Screen JsonText} (created : Created gson s) : Agrees s := by
  obtain ⟨preferences, rfl⟩ := created
  exact ⟨fun _ => ⟨rfl, rfl⟩, Nat.zero_le 1⟩

/-- In every run the monitors agree with the view model exactly when every step is orderly. -/
theorem always_agrees_iff {h : List (Screen JsonText × Event)} {s : Screen JsonText}
    (run : Run (machine gson) (Created gson) h s) :
    Always Agrees h s ↔ ∀ m ∈ h, Orderly gson m.1 m.2 := by
  apply run.always_iff (I := Agrees)
  · exact fun _ created => agrees_created created
  · exact fun _ agrees => agrees
  · exact fun _ _ agrees enabled orderly => (agrees_next_iff agrees enabled).mpr orderly
  · exact fun _ _ agrees enabled after => (agrees_next_iff agrees enabled).mp after

/-- A start, a stop within the first second, and the end of that second. -/
def stoppedEarly : List Event := [.call .startMining 0, .call .stopMining 500, .tick 0 1000]

def stoppedEarlyRun : List (Screen MinerConfig × Event) × Screen MinerConfig :=
  replay (machine identityGson) stoppedEarly ([], ⟨loaded, 0, "00:00:00", []⟩)

theorem stoppedEarly_run :
    Run (machine identityGson) (Created identityGson) stoppedEarlyRun.1 stoppedEarlyRun.2 := by
  have started : Run (machine identityGson) (Created identityGson) []
      ⟨loaded, 0, "00:00:00", []⟩ := .init ⟨_, rfl⟩
  exact replay_run started _ (by decide +kernel)

theorem always_agrees_iff_stoppedEarly :
    Always Agrees stoppedEarlyRun.1 stoppedEarlyRun.2 ↔
      ∀ m ∈ stoppedEarlyRun.1, Orderly identityGson m.1 m.2 :=
  always_agrees_iff stoppedEarly_run

/-- The stopped view model shows "Mining", with an uptime of one second. -/
theorem always_agrees_fails_stoppedEarly :
    Run (machine identityGson) (Created identityGson) stoppedEarlyRun.1 stoppedEarlyRun.2 ∧
      stoppedEarlyRun.2.vm.ui.isMining = false ∧ stoppedEarlyRun.2.vm.ui.status = "Mining" ∧
      stoppedEarlyRun.2.uptime = 1 ∧ ¬Always Agrees stoppedEarlyRun.1 stoppedEarlyRun.2 := by
  have off : stoppedEarlyRun.2.vm.ui.isMining = false := by decide +kernel
  have shown : stoppedEarlyRun.2.vm.ui.status = "Mining" := by decide +kernel
  refine ⟨stoppedEarly_run, off, shown, by decide +kernel, ?_⟩
  rintro ⟨agrees, -⟩
  have stopped := (agrees.stopped off).1
  rw [shown] at stopped
  exact absurd stopped (by decide)

end Monitoring
