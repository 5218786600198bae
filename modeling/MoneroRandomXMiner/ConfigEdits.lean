import MoneroRandomXMiner.MinerViewModel
import Mathlib.Tactic.SplitIfs

/-!
# What is validated and what is launched

The fields for pool and threads are edited in the UI state alone. `validateConfig`
checks them there, and `startMining` launches the stored configuration, which
only an import changes in these fields.
-/

namespace ConfigEdits

open Histories ConfigManager MinerViewModel

variable {JsonText : Type}

def importConfigFromJson (gson : Gson JsonText) (json : JsonText) (vm : ViewModel JsonText) :
    ViewModel JsonText :=
  loadSavedConfig gson
    (match gson.fromJson json with
    | some config => { vm with preferences := saveConfig gson config }
    | none => vm)

def updatePoolHost (host : String) (vm : ViewModel JsonText) : ViewModel JsonText :=
  { vm with ui := { vm.ui with poolHost := host } }

def updatePoolPort (port : Int) (vm : ViewModel JsonText) : ViewModel JsonText :=
  { vm with ui := { vm.ui with poolPort := port } }

def updateWallet (wallet : String) (vm : ViewModel JsonText) : ViewModel JsonText :=
  { vm with ui := { vm.ui with wallet := wallet } }

def updateWorker (worker : String) (vm : ViewModel JsonText) : ViewModel JsonText :=
  { vm with ui := { vm.ui with worker := worker } }

/-- `cpuCount` is what the system reports. -/
def updateThreads (threads cpuCount : Int) (vm : ViewModel JsonText) : ViewModel JsonText :=
  if threads > cpuCount then
    { vm with toastMessage := some ("Threads exceed CPU cores (" ++ toString cpuCount ++ ")") }
  else if threads < 1 then { vm with toastMessage := some "Minimum 1 thread required" }
  else { vm with ui := { vm.ui with threads := threads } }

inductive Edit (JsonText : Type) where
  | call (op : Op)
  | loadSavedConfig
  | importConfigFromJson (json : JsonText)
  | updatePoolHost (host : String)
  | updatePoolPort (port : Int)
  | updateWallet (wallet : String)
  | updateWorker (worker : String)
  | updateThreads (threads cpuCount : Int)

/-- A list of pairs that stands for a map. -/
def IsMap (rigs : Rigs) : Prop := (rigs.map Prod.fst).Nodup

instance (rigs : Rigs) : Decidable (IsMap rigs) := inferInstanceAs (Decidable (List.Nodup _))

/-- What is read from a JSON text has a map of rigs: a key that comes twice throws. -/
def Enabled (gson : Gson JsonText) : Edit JsonText → Prop
  | .importConfigFromJson json =>
    ∀ config ∈ gson.fromJson json, IsMap config.subaddress.additionalRigs
  | _ => True

def next (gson : Gson JsonText) (vm : ViewModel JsonText) : Edit JsonText → ViewModel JsonText
  | .call op => MinerViewModel.next gson vm op
  | .loadSavedConfig => MinerViewModel.loadSavedConfig gson vm
  | .importConfigFromJson json => importConfigFromJson gson json vm
  | .updatePoolHost host => updatePoolHost host vm
  | .updatePoolPort port => updatePoolPort port vm
  | .updateWallet wallet => updateWallet wallet vm
  | .updateWorker worker => updateWorker worker vm
  | .updateThreads threads cpuCount => updateThreads threads cpuCount vm

def machine (gson : Gson JsonText) : Machine (ViewModel JsonText) (Edit JsonText) where
  Enabled := fun _ e => Enabled gson e
  next := next gson

/-- The view model as constructed over the preferences. -/
def created (gson : Gson JsonText) (preferences : Option JsonText) : ViewModel JsonText :=
  loadSavedConfig gson ⟨preferences, MinerUIState.initial, none, []⟩

/-- The launched configuration is the one shown, with a host, a port and a thread. -/
structure LaunchedAsShown (vm : ViewModel JsonText) (launched : MinerConfig) : Prop where
  poolHost : launched.poolHost = vm.ui.poolHost
  poolPort : launched.poolPort = vm.ui.poolPort
  threads : launched.threads = vm.ui.threads
  hostGiven : launched.poolHost ≠ ""
  portValid : 1 ≤ launched.poolPort ∧ launched.poolPort ≤ 65535
  threadGiven : 1 ≤ launched.threads

/-- A start of the run that gets past its checks. -/
def Launch (gson : Gson JsonText) (h older : List (ViewModel JsonText × Edit JsonText))
    (vm : ViewModel JsonText) : Prop :=
  Moment h older vm (.call .startMining) ∧ Valid gson vm

def AllLaunchedAsShown (gson : Gson JsonText) (h : List (ViewModel JsonText × Edit JsonText)) :
    Prop :=
  ∀ older vm, Launch gson h older vm →
    ∃ launched rest, (startMining gson vm).launched = launched :: rest ∧
      LaunchedAsShown vm launched

def Reloads : Edit JsonText → Prop
  | .loadSavedConfig | .importConfigFromJson _ => True
  | _ => False

instance : ∀ e : Edit JsonText, Decidable (Reloads e)
  | .loadSavedConfig | .importConfigFromJson _ => inferInstanceAs (Decidable True)
  | .call _ | .updatePoolHost _ | .updatePoolPort _ | .updateWallet _ | .updateWorker _
  | .updateThreads _ _ => inferInstanceAs (Decidable False)

/-- The last edit of a field since the stored configuration was shown. -/
def lastEdit {α : Type} (field : Edit JsonText → Option α) :
    List (ViewModel JsonText × Edit JsonText) → Option α
  | [] => none
  | m :: h => if Reloads m.2 then none else (field m.2).or (lastEdit field h)

def editedHost : Edit JsonText → Option String
  | .updatePoolHost host => some host
  | _ => none

def editedPort : Edit JsonText → Option Int
  | .updatePoolPort port => some port
  | _ => none

/-- An edit of the threads that is not refused. -/
def editedThreads : Edit JsonText → Option Int
  | .updateThreads threads cpuCount =>
    if 1 ≤ threads ∧ threads ≤ cpuCount then some threads else none
  | _ => none

/-- The last edits gave the values that are stored, and a thread is stored. -/
structure EditsStored (gson : Gson JsonText) (older : List (ViewModel JsonText × Edit JsonText))
    (vm : ViewModel JsonText) : Prop where
  poolHost : ∀ host ∈ lastEdit editedHost older, host = (vm.config gson).poolHost
  poolPort : ∀ port ∈ lastEdit editedPort older, port = (vm.config gson).poolPort
  threads : ∀ threads ∈ lastEdit editedThreads older, threads = (vm.config gson).threads
  threadGiven : 1 ≤ (vm.config gson).threads

variable {gson : Gson JsonText}

/-- The fields that the edits are about, as stored and as shown. -/
def fields (gson : Gson JsonText) (vm : ViewModel JsonText) :
    (String × Int × Int) × (String × Int × Int) :=
  (((vm.config gson).poolHost, (vm.config gson).poolPort, (vm.config gson).threads),
    (vm.ui.poolHost, vm.ui.poolPort, vm.ui.threads))

/-- No call of the view model but the edits changes them. -/
theorem fields_call (vm : ViewModel JsonText) (op : Op) :
    fields gson (MinerViewModel.next gson vm op) = fields gson vm := by
  cases op with
  | selectRig rigName =>
    simp only [MinerViewModel.next, selectRig]
    split <;> rfl
  | addRig rigName subaddress =>
    simp only [fields, MinerViewModel.next, addRig, config_saveSubaddress]
    rfl
  | removeRig rigName =>
    simp only [fields, MinerViewModel.next, removeRig, config_saveSubaddress]
    rfl
  | toggleSubaddress enabled =>
    simp only [fields, MinerViewModel.next, toggleSubaddress, config_saveSubaddress]
    rfl
  | updateMiningSubaddress address =>
    simp only [fields, MinerViewModel.next, updateMiningSubaddress, config_saveSubaddress]
    rfl
  | startMining =>
    by_cases valid : Valid gson vm
    · have none : validationError gson vm = none := valid
      simp only [fields, MinerViewModel.next, (startMining_valid valid).1]
      simp only [startMining, none, miningConfig]
    · obtain ⟨toast, htoast⟩ := Option.ne_none_iff_exists'.mp valid
      simp only [fields, MinerViewModel.next, startMining, htoast]
      rfl
  | stopMining => rfl

/-- What `validateConfig` has found out about the pool. -/
theorem valid_pool {vm : ViewModel JsonText} (valid : Valid gson vm) :
    vm.ui.poolHost ≠ "" ∧ 1 ≤ vm.ui.poolPort ∧ vm.ui.poolPort ≤ 65535 := by
  simp only [Valid, validationError] at valid
  split_ifs at valid with noAddress short noHost badPort
  exact ⟨noHost, badPort⟩

/-- What is shown is the last edit, or else what is stored. -/
structure Shown (gson : Gson JsonText) (h : List (ViewModel JsonText × Edit JsonText))
    (vm : ViewModel JsonText) : Prop where
  poolHost : vm.ui.poolHost = (lastEdit editedHost h).getD (vm.config gson).poolHost
  poolPort : vm.ui.poolPort = (lastEdit editedPort h).getD (vm.config gson).poolPort
  threads : vm.ui.threads = (lastEdit editedThreads h).getD (vm.config gson).threads

theorem lastEdit_reload {α : Type} (field : Edit JsonText → Option α)
    {m : ViewModel JsonText × Edit JsonText} (h : List (ViewModel JsonText × Edit JsonText))
    (reloads : Reloads m.2) : lastEdit field (m :: h) = none := by
  rw [lastEdit, if_pos reloads]

theorem lastEdit_cons {α : Type} (field : Edit JsonText → Option α)
    {m : ViewModel JsonText × Edit JsonText} (h : List (ViewModel JsonText × Edit JsonText))
    (kept : ¬Reloads m.2) : lastEdit field (m :: h) = (field m.2).or (lastEdit field h) := by
  rw [lastEdit, if_neg kept]

/-- The configuration is shown as it is stored. -/
theorem shown_reload {m : ViewModel JsonText × Edit JsonText}
    {h : List (ViewModel JsonText × Edit JsonText)} {vm : ViewModel JsonText}
    (reloads : Reloads m.2) : Shown gson (m :: h) (loadSavedConfig gson vm) := by
  constructor
  · rw [lastEdit_reload _ h reloads]
    rfl
  · rw [lastEdit_reload _ h reloads]
    rfl
  · rw [lastEdit_reload _ h reloads]
    rfl

/-- A step that reloads nothing and edits no field. -/
theorem Shown.quiet {h : List (ViewModel JsonText × Edit JsonText)} {vm vm' : ViewModel JsonText}
    {e : Edit JsonText} (shown : Shown gson h vm) (same : fields gson vm' = fields gson vm)
    (kept : ¬Reloads e) (host : editedHost e = none) (port : editedPort e = none)
    (threads : editedThreads e = none) : Shown gson ((vm, e) :: h) vm' := by
  simp only [fields, Prod.mk.injEq] at same
  obtain ⟨⟨host₁, port₁, threads₁⟩, host₂, port₂, threads₂⟩ := same
  constructor
  · rw [lastEdit_cons _ h kept, host, Option.none_or, host₁, host₂]
    exact shown.poolHost
  · rw [lastEdit_cons _ h kept, port, Option.none_or, port₁, port₂]
    exact shown.poolPort
  · rw [lastEdit_cons _ h kept, threads, Option.none_or, threads₁, threads₂]
    exact shown.threads

theorem shown_next {h : List (ViewModel JsonText × Edit JsonText)} {vm : ViewModel JsonText}
    (shown : Shown gson h vm) (e : Edit JsonText) : Shown gson ((vm, e) :: h) (next gson vm e) := by
  cases e with
  | call op => exact shown.quiet (fields_call vm op) id rfl rfl rfl
  | loadSavedConfig => exact shown_reload trivial
  | importConfigFromJson json => exact shown_reload trivial
  | updateWallet wallet => exact shown.quiet rfl id rfl rfl rfl
  | updateWorker worker => exact shown.quiet rfl id rfl rfl rfl
  | updatePoolHost host =>
    refine ⟨rfl, ?_, ?_⟩
    · rw [lastEdit_cons _ h id]
      exact shown.poolPort
    · rw [lastEdit_cons _ h id]
      exact shown.threads
  | updatePoolPort port =>
    refine ⟨?_, rfl, ?_⟩
    · rw [lastEdit_cons _ h id]
      exact shown.poolHost
    · rw [lastEdit_cons _ h id]
      exact shown.threads
  | updateThreads threads cpuCount =>
    by_cases most : threads ≤ cpuCount
    · by_cases least : 1 ≤ threads
      · have accepted : editedThreads (.updateThreads threads cpuCount : Edit JsonText) =
            some threads := if_pos ⟨least, most⟩
        have written : next gson vm (.updateThreads threads cpuCount) =
            { vm with ui := { vm.ui with threads := threads } } := by
          rw [next, updateThreads, if_neg (by omega), if_neg (by omega)]
        rw [written]
        refine ⟨?_, ?_, ?_⟩
        · rw [lastEdit_cons _ h id]
          exact shown.poolHost
        · rw [lastEdit_cons _ h id]
          exact shown.poolPort
        · rw [lastEdit_cons _ h id, accepted]
          rfl
      · refine shown.quiet ?_ id rfl rfl (if_neg fun both => least both.1)
        rw [next, updateThreads, if_neg (by omega), if_pos (by omega)]
        rfl
    · refine shown.quiet ?_ id rfl rfl (if_neg fun both => most both.2)
      rw [next, updateThreads, if_pos (by omega)]
      rfl

theorem shown_run {preferences : Option JsonText}
    {h : List (ViewModel JsonText × Edit JsonText)} {vm : ViewModel JsonText}
    (run : Run (machine gson) (· = created gson preferences) h vm) : Shown gson h vm := by
  apply run.invariant (P := Shown gson)
  · rintro vm rfl
    exact ⟨rfl, rfl, rfl⟩
  · exact fun _ _ e shown _ => shown_next shown e

theorem getD_eq_iff {α : Type} (o : Option α) (a : α) : a = o.getD a ↔ ∀ b ∈ o, b = a := by
  cases o with
  | none => simp
  | some b => simp [eq_comm]

/-- A launch is as shown exactly when the edits before it gave what is stored. -/
theorem launchedAsShown_iff {older : List (ViewModel JsonText × Edit JsonText)}
    {vm : ViewModel JsonText} (shown : Shown gson older vm) (valid : Valid gson vm) :
    LaunchedAsShown vm (miningConfig gson vm) ↔ EditsStored gson older vm := by
  constructor
  · rintro ⟨host, port, threads, -, -, given⟩
    constructor
    · exact (getD_eq_iff _ _).mp (host.trans shown.poolHost)
    · exact (getD_eq_iff _ _).mp (port.trans shown.poolPort)
    · exact (getD_eq_iff _ _).mp (threads.trans shown.threads)
    · exact given
  · rintro ⟨host, port, threads, given⟩
    have hhost : (vm.config gson).poolHost = vm.ui.poolHost :=
      ((getD_eq_iff _ _).mpr host).trans shown.poolHost.symm
    have hport : (vm.config gson).poolPort = vm.ui.poolPort :=
      ((getD_eq_iff _ _).mpr port).trans shown.poolPort.symm
    have hthreads : (vm.config gson).threads = vm.ui.threads :=
      ((getD_eq_iff _ _).mpr threads).trans shown.threads.symm
    obtain ⟨hostGiven, portValid⟩ := valid_pool valid
    exact ⟨hhost, hport, hthreads, hhost ▸ hostGiven, hport ▸ portValid, given⟩

/-- In every run what is launched is what is shown, a host, a port and a thread, exactly
when at every launch the edits made since the last load gave what is stored. -/
theorem allLaunchedAsShown_iff {preferences : Option JsonText}
    {h : List (ViewModel JsonText × Edit JsonText)} {vm : ViewModel JsonText}
    (run : Run (machine gson) (· = created gson preferences) h vm) :
    AllLaunchedAsShown gson h ↔
      ∀ older vm, Launch gson h older vm → EditsStored gson older vm := by
  constructor
  · intro all older vm launch
    obtain ⟨launched, rest, hlaunched, asShown⟩ := all older vm launch
    rw [(startMining_valid launch.2).2] at hlaunched
    obtain ⟨rfl, -⟩ := List.cons.inj hlaunched
    exact (launchedAsShown_iff (shown_run (run.at_moment launch.1).1) launch.2).mp asShown
  · intro all older vm launch
    refine ⟨_, _, (startMining_valid launch.2).2, ?_⟩
    exact (launchedAsShown_iff (shown_run (run.at_moment launch.1).1) launch.2).mpr
      (all older vm launch)

/-- Another pool is typed in, and mining is started. -/
def otherPool : List (Edit MinerConfig) :=
  [.updatePoolHost "other.pool", .updatePoolPort 4444, .call .startMining]

def otherPoolRun : List (ViewModel MinerConfig × Edit MinerConfig) × ViewModel MinerConfig :=
  replay (machine identityGson) otherPool ([], loaded)

theorem otherPool_run :
    Run (machine identityGson) (· = created identityGson (some sampleConfig)) otherPoolRun.1
      otherPoolRun.2 := by
  have started : Run (machine identityGson) (· = created identityGson (some sampleConfig)) []
      loaded := .init rfl
  exact replay_run started _ ⟨trivial, trivial, trivial, trivial⟩

theorem allLaunchedAsShown_iff_otherPool :
    AllLaunchedAsShown identityGson otherPoolRun.1 ↔
      ∀ older vm, Launch identityGson otherPoolRun.1 older vm →
        EditsStored identityGson older vm :=
  allLaunchedAsShown_iff otherPool_run

/-- The view model before the start. -/
def otherPoolTyped : ViewModel MinerConfig :=
  updatePoolPort 4444 (updatePoolHost "other.pool" loaded)

/-- The pool that is launched is the stored one. -/
theorem allLaunchedAsShown_fails_otherPool :
    Run (machine identityGson) (· = created identityGson (some sampleConfig)) otherPoolRun.1
        otherPoolRun.2 ∧
      otherPoolTyped.ui.poolHost = "other.pool" ∧
      (miningConfig identityGson otherPoolTyped).poolHost = "pool.supportxmr.com" ∧
      ¬AllLaunchedAsShown identityGson otherPoolRun.1 := by
  have moment : Moment otherPoolRun.1
      [(updatePoolHost "other.pool" loaded, .updatePoolPort 4444),
        (loaded, .updatePoolHost "other.pool")] otherPoolTyped (.call .startMining) := ⟨[], rfl⟩
  have valid : validationError identityGson otherPoolTyped = none := by decide +kernel
  refine ⟨otherPool_run, rfl, rfl, fun all => ?_⟩
  obtain ⟨launched, rest, hlaunched, asShown⟩ := all _ _ ⟨moment, valid⟩
  rw [(startMining_valid valid).2] at hlaunched
  obtain ⟨rfl, -⟩ := List.cons.inj hlaunched
  exact absurd asShown.poolHost (by decide)

end ConfigEdits
