import MoneroRandomXMiner.MinerPage
import MoneroRandomXMiner.NativeCalls

/-!
# The page over the native miner

The page is the only one to call the library, one method at a time. A load of
the page, with the activity or without, starts from a page at rest, and asks the
library for nothing.
-/

namespace PageControl

open Histories MinerPage NativeCalls

structure State where
  page : Page
  native : NativeBridge.State
  deriving DecidableEq

/-- `rest` is what happens in the library until the call returns, if there is one. -/
inductive Event where
  | load
  | start (form : Form) (rest : List NativeBridge.Event)
  | stop (rest : List NativeBridge.Event)
  | workerReturns (m k : Nat)

/-- What a click on START asks of the bridge. A disabled button ignores the click. -/
def asks (form : Form) (s : State) : Option Request :=
  if s.page.startDisabled then none else s.page.asks form

def startCall (r : Request) : NativeBridge.Event := .start .mainActivity r.threads.toNat

def stopCall : NativeBridge.Event := .stop .mainActivity

/-- A click on STOP gets to the bridge. -/
def Stops (s : State) : Prop := s.page.stopDisabled = false ∧ s.page.mining = true

instance (s : State) : Decidable (Stops s) := inferInstanceAs (Decidable (_ ∧ _))

def Enabled (s : State) : Event → Prop
  | .load => True
  | .start form rest =>
    match asks form s with
    | some r => OneCall (startCall r) rest s.native
    | none => rest = []
  | .stop rest => if Stops s then OneCall stopCall rest s.native else rest = []
  | .workerReturns m k => NativeBridge.Enabled s.native (.workerReturns m k)

def next (s : State) : Event → State
  | .load => { s with page := Page.loaded }
  | .start form rest =>
    match asks form s with
    | some r =>
      let native := call (startCall r) rest s.native
      ⟨startMining form (lastResult native) s.page, native⟩
    | none =>
      if s.page.startDisabled then s else { s with page := startMining form false s.page }
  | .stop rest =>
    if Stops s then ⟨stopMining s.page, call stopCall rest s.native⟩ else s
  | .workerReturns m k => { s with native := NativeBridge.next s.native (.workerReturns m k) }

def machine : Machine State Event where
  Enabled := Enabled
  next := next

/-- The page has been loaded for the first time, and the library with it. -/
def started : State := ⟨Page.loaded, NativeBridge.loaded⟩

/-- The page's flag is the library's. So STOP is there for a running miner, and START
asks for one only where none runs. -/
structure FlagsAgree (s : State) : Prop where
  flag : s.page.mining = s.native.globals.mining
  stopReaches : s.native.globals.mining = true → Stops s
  startFree : s.native.globals.mining = false → s.page.startDisabled = false

/-- A load of the page finds no miner that runs. -/
def LoadsAtRest (s : State) (e : Event) : Prop := e = .load → s.native.globals.mining = false

structure Inv (s : State) : Prop where
  native : NativeBridge.Inv s.native
  free : s.native.call = none
  startButton : s.page.startDisabled = s.page.mining
  stopButton : s.page.stopDisabled = !s.page.mining
  flag : s.page.mining = s.native.globals.mining

theorem Inv.agrees {s : State} (inv : Inv s) : FlagsAgree s := by
  refine ⟨inv.flag, fun running => ⟨?_, ?_⟩, fun idle => ?_⟩
  · rw [inv.stopButton, inv.flag, running]
    rfl
  · rw [inv.flag, running]
  · rw [inv.startButton, inv.flag, idle]

theorem asks_eq_some {form : Form} {s : State} {r : Request} (asked : asks form s = some r) :
    s.page.mining = false ∧ walletError (trim form.wallet) = none := by
  simp only [asks, Page.asks] at asked
  split at asked
  · cases asked
  · split at asked
    · cases asked
    · rename_i atRest
      split at asked
      · rename_i named
        exact ⟨Bool.eq_false_iff.mpr atRest, named⟩
      · cases asked

/-- A start that asks shows what the bridge has returned. -/
theorem startMining_asked {page : Page} (form : Form) (atRest : page.mining = false)
    (named : walletError (trim form.wallet) = none) (result : Bool) :
    (startMining form result page).mining = result ∧
      (startMining form result page).startDisabled = result ∧
      (startMining form result page).stopDisabled = !result := by
  cases result with
  | true => simp [startMining, atRest, named]
  | false => simp [startMining, atRest, named]

/-- A start that does not get to the bridge leaves the buttons alone. -/
theorem startMining_unasked {page : Page} {form : Form} (unasked : page.asks form = none) :
    (startMining form false page).mining = page.mining ∧
      (startMining form false page).startDisabled = page.startDisabled ∧
      (startMining form false page).stopDisabled = page.stopDisabled := by
  simp only [Page.asks] at unasked
  simp only [startMining]
  split
  · exact ⟨rfl, rfl, rfl⟩
  · rename_i atRest
    cases error : walletError (trim form.wallet) with
    | some text => exact ⟨rfl, rfl, rfl⟩
    | none =>
      rw [if_neg atRest, if_pos error] at unasked
      cases unasked

theorem inv_start {s : State} {form : Form} {rest : List NativeBridge.Event} (inv : Inv s)
    (enabled : Enabled s (.start form rest)) : Inv (next s (.start form rest)) := by
  simp only [Enabled] at enabled
  simp only [next]
  cases asked : asks form s with
  | some r =>
    rw [asked] at enabled
    obtain ⟨atRest, named⟩ := asks_eq_some asked
    have idle : s.native.globals.mining = false := inv.flag ▸ atRest
    obtain ⟨native, result⟩ := start_result inv.native enabled idle
    obtain ⟨flag, startButton, stopButton⟩ := startMining_asked form atRest named
      (lastResult (call (startCall r) rest s.native))
    exact ⟨native, enabled.returned, startButton.trans flag.symm,
      stopButton.trans (congrArg _ flag.symm), flag.trans result⟩
  | none =>
    by_cases disabled : s.page.startDisabled = true
    · simp only [if_pos disabled]
      exact inv
    · rw [asks, if_neg disabled] at asked
      obtain ⟨flag, startButton, stopButton⟩ := startMining_unasked asked
      simp only [if_neg disabled]
      refine ⟨inv.native, inv.free, ?_, ?_, ?_⟩
      · rw [startButton, flag]
        exact inv.startButton
      · rw [stopButton, flag]
        exact inv.stopButton
      · rw [flag]
        exact inv.flag

theorem inv_stop {s : State} {rest : List NativeBridge.Event} (inv : Inv s)
    (enabled : Enabled s (.stop rest)) : Inv (next s (.stop rest)) := by
  simp only [Enabled] at enabled
  simp only [next]
  by_cases stops : Stops s
  · rw [if_pos stops] at enabled
    obtain ⟨native, idle⟩ := stop_stops inv.native enabled
    rw [if_pos stops]
    simp only [stopMining, stops.2, if_true]
    exact ⟨native, enabled.returned, rfl, rfl, idle.symm⟩
  · rw [if_neg stops]
    exact inv

theorem inv_next {s : State} {e : Event} (inv : Inv s) (enabled : Enabled s e)
    (atRest : LoadsAtRest s e) : Inv (next s e) := by
  cases e with
  | load => exact ⟨inv.native, inv.free, rfl, rfl, (atRest rfl).symm⟩
  | start form rest => exact inv_start inv enabled
  | stop rest => exact inv_stop inv enabled
  | workerReturns m k =>
    have native := NativeBridge.inv_step (e := .workerReturns m k) inv.native enabled
    exact ⟨native, inv.free, inv.startButton, inv.stopButton, inv.flag⟩

/-- In every run the page agrees with the library in every state exactly when the page
is loaded only while no miner runs. -/
theorem always_flagsAgree_iff {h : List (State × Event)} {s : State}
    (run : Run machine (· = started) h s) :
    Always FlagsAgree h s ↔ ∀ m ∈ h, LoadsAtRest m.1 m.2 := by
  have initial : Inv started := by
    have loaded : Run NativeBridge.machine NativeBridge.Started [] NativeBridge.loaded := .init rfl
    exact ⟨NativeBridge.inv_run loaded, rfl, rfl, rfl, rfl⟩
  apply run.always_iff (I := Inv)
  · exact fun s start => start ▸ initial
  · exact fun s inv => inv.agrees
  · exact fun s e inv enabled atRest => inv_next inv enabled atRest
  · rintro s e inv enabled agrees rfl
    exact agrees.flag.symm

def minerForm : Form := ⟨String.ofList (List.replicate 95 '4'), "", "3333", "1", ""⟩

/-- The section of a start with one thread in which nothing fails. -/
def smooth : List NativeBridge.Event := List.replicate 7 (.proceed .succeeds)

/-- Mining is started, and the activity is created again. -/
def reloaded : List Event := [.start minerForm smooth, .load]

def reloadedRun : List (State × Event) × State := replay machine reloaded ([], started)

theorem asks_minerForm : asks minerForm started = some (request minerForm) := by decide +kernel

theorem oneCall_smooth : OneCall (startCall (request minerForm)) smooth started.native :=
  ⟨by decide +kernel, by decide, by decide +kernel⟩

theorem reloaded_run : Run machine (· = started) reloadedRun.1 reloadedRun.2 := by
  have first : Run machine (· = started) [] started := .init rfl
  refine replay_run first reloaded ⟨?_, trivial, trivial⟩
  simp only [machine, Enabled, asks_minerForm]
  exact oneCall_smooth

theorem always_flagsAgree_iff_reloaded :
    Always FlagsAgree reloadedRun.1 reloadedRun.2 ↔ ∀ m ∈ reloadedRun.1, LoadsAtRest m.1 m.2 :=
  always_flagsAgree_iff reloaded_run

/-- The new page has STOP disabled, and the miner runs. -/
theorem always_flagsAgree_fails_reloaded :
    Run machine (· = started) reloadedRun.1 reloadedRun.2 ∧
      reloadedRun.2.native.globals.mining = true ∧ reloadedRun.2.page.stopDisabled = true ∧
      ¬Always FlagsAgree reloadedRun.1 reloadedRun.2 := by
  have mining : reloadedRun.2.native.globals.mining = true := by
    simp only [reloadedRun, reloaded, replay, machine, next, asks_minerForm]
    decide +kernel
  refine ⟨reloaded_run, mining, rfl, fun always => ?_⟩
  exact absurd (always.1.stopReaches mining).1 (by decide)

end PageControl
