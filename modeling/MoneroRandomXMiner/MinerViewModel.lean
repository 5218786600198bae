import MoneroRandomXMiner.Histories
import MoneroRandomXMiner.ConfigManager

/-!
# What a start does to the stored configuration

`startMining` derives an address and a worker name from the stored
configuration and the selected rig, and stores the configuration it launches.
The stored wallet and worker survive exactly the starts that launch them as
they are stored.
-/

namespace MinerViewModel

open Histories ConfigManager

/-- The fields of the UI state that decide or record a start. -/
structure MinerUIState where
  isMining : Bool
  status : String
  poolHost : String
  poolPort : Int
  wallet : String
  worker : String
  threads : Int
  subaddressEnabled : Bool
  miningSubaddress : String
  subaddressLabel : String
  rotateSubaddress : Bool
  rotationIntervalDays : Int
  additionalRigs : Rigs
  selectedRig : String
  availableRigs : List String
  deriving DecidableEq

def MinerUIState.initial : MinerUIState :=
  ⟨false, "Stopped", "", 3333, "", "android_miner", 2, false, "", "Mining Rig 1", false, 30, [],
    "default", ["default"]⟩

/-- The view model with the preferences it writes and the configurations it has
launched the service with, newest first. -/
structure ViewModel (JsonText : Type) where
  preferences : Option JsonText
  ui : MinerUIState
  toastMessage : Option String
  launched : List MinerConfig

variable {JsonText : Type}

def ViewModel.config (gson : Gson JsonText) (vm : ViewModel JsonText) : MinerConfig :=
  getConfig gson vm.preferences

def loadSavedConfig (gson : Gson JsonText) (vm : ViewModel JsonText) : ViewModel JsonText :=
  let config := vm.config gson
  { vm with
    ui := { vm.ui with
      poolHost := config.poolHost
      poolPort := config.poolPort
      wallet := config.wallet
      worker := config.worker
      threads := config.threads
      subaddressEnabled := config.subaddress.enabled
      miningSubaddress := config.subaddress.miningSubaddress
      subaddressLabel := config.subaddress.label
      rotateSubaddress := config.subaddress.rotateSubaddress
      rotationIntervalDays := config.subaddress.rotationIntervalDays
      additionalRigs := config.subaddress.additionalRigs
      availableRigs := config.getRigNames
      selectedRig := "default" } }

def getActiveMiningAddress (gson : Gson JsonText) (vm : ViewModel JsonText) : String :=
  let config := vm.config gson
  if vm.ui.selectedRig = "default" then
    if config.subaddress.enabled ∧ config.subaddress.miningSubaddress ≠ "" then
      config.subaddress.miningSubaddress
    else config.wallet
  else (config.subaddress.additionalRigs.lookup vm.ui.selectedRig).getD config.wallet

def selectRig (rigName : String) (vm : ViewModel JsonText) : ViewModel JsonText :=
  if rigName ∈ vm.ui.availableRigs then { vm with ui := { vm.ui with selectedRig := rigName } }
  else vm

/-- The stored configuration with another subaddress part. -/
def saveSubaddress (gson : Gson JsonText) (f : SubaddressConfig → SubaddressConfig)
    (vm : ViewModel JsonText) : ViewModel JsonText :=
  let config := vm.config gson
  { vm with preferences := saveConfig gson { config with subaddress := f config.subaddress } }

def toggleSubaddress (gson : Gson JsonText) (enabled : Bool) (vm : ViewModel JsonText) :
    ViewModel JsonText :=
  saveSubaddress gson (fun sub => { sub with enabled := enabled })
    { vm with ui := { vm.ui with subaddressEnabled := enabled } }

def updateMiningSubaddress (gson : Gson JsonText) (address : String) (vm : ViewModel JsonText) :
    ViewModel JsonText :=
  saveSubaddress gson (fun sub => { sub with miningSubaddress := address })
    { vm with ui := { vm.ui with miningSubaddress := address } }

def addRig (gson : Gson JsonText) (rigName subaddress : String) (vm : ViewModel JsonText) :
    ViewModel JsonText :=
  let currentRigs := vm.ui.additionalRigs.put rigName subaddress
  saveSubaddress gson (fun sub => { sub with additionalRigs := currentRigs })
    { vm with ui := { vm.ui with
      additionalRigs := currentRigs
      availableRigs := vm.ui.availableRigs ++ [rigName] } }

def removeRig (gson : Gson JsonText) (rigName : String) (vm : ViewModel JsonText) :
    ViewModel JsonText :=
  let currentRigs := vm.ui.additionalRigs.remove rigName
  saveSubaddress gson (fun sub => { sub with additionalRigs := currentRigs })
    { vm with ui := { vm.ui with
      additionalRigs := currentRigs
      availableRigs := vm.ui.availableRigs.erase rigName
      selectedRig := if vm.ui.selectedRig = rigName then "default" else vm.ui.selectedRig } }

/-- The length of a Kotlin string, in UTF-16 code units. -/
def kotlinLength (s : String) : Nat :=
  s.toList.foldl (fun length c => length + if c.toNat ≤ 0xFFFF then 1 else 2) 0

/-- The toast of the first check that fails. -/
def validationError (gson : Gson JsonText) (vm : ViewModel JsonText) : Option String :=
  let activeAddress := getActiveMiningAddress gson vm
  if activeAddress = "" then some "Wallet address is required"
  else if kotlinLength activeAddress < 95 then some "Invalid wallet address length"
  else if vm.ui.poolHost = "" then some "Pool host is required"
  else if ¬ (1 ≤ vm.ui.poolPort ∧ vm.ui.poolPort ≤ 65535) then some "Invalid pool port"
  else none

/-- `validateConfig` returns true. -/
def Valid (gson : Gson JsonText) (vm : ViewModel JsonText) : Prop := validationError gson vm = none

/-- The configuration that a start stores and launches. -/
def miningConfig (gson : Gson JsonText) (vm : ViewModel JsonText) : MinerConfig :=
  { vm.config gson with
    wallet := getActiveMiningAddress gson vm
    worker := (vm.config gson).getWorkerName vm.ui.selectedRig }

def startMining (gson : Gson JsonText) (vm : ViewModel JsonText) : ViewModel JsonText :=
  match validationError gson vm with
  | some toast => { vm with toastMessage := some toast }
  | none =>
    let mining := miningConfig gson vm
    { vm with
      preferences := saveConfig gson mining
      ui := { vm.ui with
        isMining := true
        status := "Starting..."
        wallet := mining.wallet
        worker := mining.worker }
      launched := mining :: vm.launched }

def stopMining (vm : ViewModel JsonText) : ViewModel JsonText :=
  { vm with ui := { vm.ui with isMining := false, status := "Stopped" } }

inductive Op where
  | selectRig (rigName : String)
  | addRig (rigName subaddress : String)
  | removeRig (rigName : String)
  | toggleSubaddress (enabled : Bool)
  | updateMiningSubaddress (address : String)
  | startMining
  | stopMining

def next (gson : Gson JsonText) (vm : ViewModel JsonText) : Op → ViewModel JsonText
  | .selectRig rigName => selectRig rigName vm
  | .addRig rigName subaddress => addRig gson rigName subaddress vm
  | .removeRig rigName => removeRig gson rigName vm
  | .toggleSubaddress enabled => toggleSubaddress gson enabled vm
  | .updateMiningSubaddress address => updateMiningSubaddress gson address vm
  | .startMining => startMining gson vm
  | .stopMining => stopMining vm

def machine (gson : Gson JsonText) : Machine (ViewModel JsonText) Op where
  Enabled := fun _ _ => True
  next := next gson

/-- The stored configuration has main wallet `wallet` and worker `worker`. -/
def Keeps (gson : Gson JsonText) (wallet worker : String) (vm : ViewModel JsonText) : Prop :=
  (vm.config gson).wallet = wallet ∧ (vm.config gson).worker = worker

/-- The start of this moment gets past its checks. -/
def Launches (gson : Gson JsonText) (vm : ViewModel JsonText) (op : Op) : Prop :=
  op = .startMining ∧ Valid gson vm

structure LaunchRight (gson : Gson JsonText) (wallet worker : String) (vm : ViewModel JsonText)
    (launched : MinerConfig) : Prop where
  main : vm.ui.selectedRig = "default" → (vm.config gson).subaddress.enabled = false →
    launched.wallet = wallet ∧ launched.worker = worker
  additional : vm.ui.selectedRig ≠ "default" →
    launched.worker = worker ++ "_" ++ vm.ui.selectedRig

/-- The stored wallet and worker never change, and each launch follows them. -/
structure PaysTo (gson : Gson JsonText) (wallet worker : String)
    (h : List (ViewModel JsonText × Op)) (vm : ViewModel JsonText) : Prop where
  kept : (∀ m ∈ h, Keeps gson wallet worker m.1) ∧ Keeps gson wallet worker vm
  launches : ∀ m ∈ h, Launches gson m.1 m.2 →
    ∃ launched rest, (next gson m.1 m.2).launched = launched :: rest ∧
      LaunchRight gson wallet worker m.1 launched

/-- The start uses the default rig and the main wallet. -/
def OnMainWallet (gson : Gson JsonText) (vm : ViewModel JsonText) : Prop :=
  vm.ui.selectedRig = "default" ∧
    ((vm.config gson).subaddress.enabled = false ∨
      (vm.config gson).subaddress.miningSubaddress = "" ∨
      (vm.config gson).subaddress.miningSubaddress = (vm.config gson).wallet)

def StartsOnMainWallet (gson : Gson JsonText) (h : List (ViewModel JsonText × Op)) : Prop :=
  ∀ m ∈ h, Launches gson m.1 m.2 → OnMainWallet gson m.1

variable {gson : Gson JsonText}

@[simp] theorem config_saveSubaddress (f : SubaddressConfig → SubaddressConfig)
    (vm : ViewModel JsonText) :
    (saveSubaddress gson f vm).config gson =
      { vm.config gson with subaddress := f (vm.config gson).subaddress } :=
  getConfig_saveConfig gson _

theorem keeps_saveSubaddress {wallet worker : String} (f : SubaddressConfig → SubaddressConfig)
    {vm : ViewModel JsonText} (keeps : Keeps gson wallet worker vm) :
    Keeps gson wallet worker (saveSubaddress gson f vm) := by
  simp only [Keeps, config_saveSubaddress]
  exact keeps

theorem startMining_valid {vm : ViewModel JsonText} (valid : Valid gson vm) :
    (startMining gson vm).config gson = miningConfig gson vm ∧
      (startMining gson vm).launched = miningConfig gson vm :: vm.launched := by
  have hnone : validationError gson vm = none := valid
  simp only [startMining, hnone, ViewModel.config, getConfig_saveConfig, and_self]

theorem startMining_invalid {vm : ViewModel JsonText} (invalid : ¬ Valid gson vm) :
    (startMining gson vm).config gson = vm.config gson := by
  obtain ⟨toast, htoast⟩ := Option.ne_none_iff_exists'.mp invalid
  simp only [startMining, htoast, ViewModel.config]

/-- Only a start that gets past its checks touches the stored wallet and worker. -/
theorem keeps_next {wallet worker : String} {vm : ViewModel JsonText} {op : Op}
    (quiet : ¬ Launches gson vm op) (keeps : Keeps gson wallet worker vm) :
    Keeps gson wallet worker (next gson vm op) := by
  cases op with
  | selectRig rigName =>
    simp only [next, selectRig]
    split <;> exact keeps
  | addRig rigName subaddress => exact keeps_saveSubaddress _ keeps
  | removeRig rigName => exact keeps_saveSubaddress _ keeps
  | toggleSubaddress enabled => exact keeps_saveSubaddress _ keeps
  | updateMiningSubaddress address => exact keeps_saveSubaddress _ keeps
  | startMining =>
    have invalid : ¬ Valid gson vm := fun valid => quiet ⟨rfl, valid⟩
    simpa only [Keeps, next, startMining_invalid invalid] using keeps
  | stopMining => exact keeps

theorem getWorkerName_eq_iff (config : MinerConfig) (rigName : String) :
    config.getWorkerName rigName = config.worker ↔ rigName = "default" := by
  unfold MinerConfig.getWorkerName
  split
  · rename_i hdefault
    simp only [hdefault]
  · rename_i hother
    constructor
    · intro same
      have hlength := congrArg String.length same
      simp only [String.length_append] at hlength
      have hone : "_".length = 1 := rfl
      omega
    · exact fun hdefault => absurd hdefault hother

theorem getActiveMiningAddress_eq_iff {vm : ViewModel JsonText}
    (hdefault : vm.ui.selectedRig = "default") :
    getActiveMiningAddress gson vm = (vm.config gson).wallet ↔
      ((vm.config gson).subaddress.enabled = false ∨
        (vm.config gson).subaddress.miningSubaddress = "" ∨
        (vm.config gson).subaddress.miningSubaddress = (vm.config gson).wallet) := by
  simp only [getActiveMiningAddress, hdefault, if_true]
  cases henabled : (vm.config gson).subaddress.enabled with
  | false => simp
  | true =>
    by_cases hempty : (vm.config gson).subaddress.miningSubaddress = ""
    · simp [hempty]
    · simp [hempty]

/-- A launch keeps wallet and worker exactly when it is on the main wallet. -/
theorem keeps_launch_iff {wallet worker : String} {vm : ViewModel JsonText}
    (valid : Valid gson vm) (keeps : Keeps gson wallet worker vm) :
    Keeps gson wallet worker (startMining gson vm) ↔ OnMainWallet gson vm := by
  obtain ⟨rfl, rfl⟩ := keeps
  rw [Keeps, (startMining_valid valid).1]
  constructor
  · rintro ⟨hwallet, hworker⟩
    have hdefault := (getWorkerName_eq_iff _ _).mp hworker
    exact ⟨hdefault, (getActiveMiningAddress_eq_iff hdefault).mp hwallet⟩
  · rintro ⟨hdefault, hmain⟩
    exact ⟨(getActiveMiningAddress_eq_iff hdefault).mpr hmain,
      (getWorkerName_eq_iff _ _).mpr hdefault⟩

theorem startsOnMainWallet_of_paysTo {wallet worker : String} {start : ViewModel JsonText → Prop}
    {h : List (ViewModel JsonText × Op)} {vm : ViewModel JsonText}
    (run : Run (machine gson) start h vm) (pays : PaysTo gson wallet worker h vm) :
    StartsOnMainWallet gson h := by
  obtain ⟨kept, now⟩ := pays.kept
  clear pays
  induction run with
  | init _ => exact fun m hm => nomatch hm
  | @step h vm op run enabled ih =>
    have before : Keeps gson wallet worker vm := kept _ List.mem_cons_self
    intro m hm launches
    rcases List.mem_cons.mp hm with rfl | old
    · obtain ⟨rfl, valid⟩ := launches
      exact (keeps_launch_iff valid before).mp now
    · exact ih (fun m hm => kept m (List.mem_cons_of_mem _ hm)) before m old launches

theorem paysTo_of_startsOnMainWallet {wallet worker : String}
    {h : List (ViewModel JsonText × Op)} {vm : ViewModel JsonText}
    (run : Run (machine gson) (Keeps gson wallet worker) h vm)
    (starts : StartsOnMainWallet gson h) : PaysTo gson wallet worker h vm := by
  induction run with
  | init keeps => exact ⟨⟨(fun m hm => nomatch hm), keeps⟩, (fun m hm => nomatch hm)⟩
  | @step h vm op run enabled ih =>
    have pays := ih fun m hm => starts m (List.mem_cons_of_mem _ hm)
    obtain ⟨kept, keeps⟩ := pays.kept
    have main := starts _ List.mem_cons_self
    refine ⟨⟨?_, ?_⟩, ?_⟩
    · intro m hm
      rcases List.mem_cons.mp hm with rfl | old
      · exact keeps
      · exact kept m old
    · by_cases launches : Launches gson vm op
      · obtain ⟨rfl, valid⟩ := launches
        exact (keeps_launch_iff valid keeps).mpr (main ⟨rfl, valid⟩)
      · exact keeps_next launches keeps
    · intro m hm launches
      rcases List.mem_cons.mp hm with rfl | old
      · obtain ⟨rfl, valid⟩ := launches
        obtain ⟨hdefault, _⟩ := main ⟨rfl, valid⟩
        have after := (keeps_launch_iff valid keeps).mpr (main ⟨rfl, valid⟩)
        obtain ⟨hconfig, hlaunched⟩ := startMining_valid valid
        rw [Keeps, hconfig] at after
        exact ⟨_, _, hlaunched, ⟨fun _ _ => after, fun hother => absurd hdefault hother⟩⟩
      · exact pays.launches m old launches

/-- In every run the stored wallet and worker stay, and the launches follow them,
if and only if every launch is on the default rig and the main wallet. -/
theorem paysTo_iff_startsOnMainWallet {wallet worker : String}
    {h : List (ViewModel JsonText × Op)} {vm : ViewModel JsonText}
    (run : Run (machine gson) (Keeps gson wallet worker) h vm) :
    PaysTo gson wallet worker h vm ↔ StartsOnMainWallet gson h :=
  ⟨startsOnMainWallet_of_paysTo run, paysTo_of_startsOnMainWallet run⟩

/-- Stands for the JSON library where the text itself does not matter. -/
def identityGson : Gson MinerConfig := ⟨id, some, fun _ => rfl⟩

def sampleWallet : String := String.ofList (List.replicate 95 '4')

def sampleConfig : MinerConfig :=
  { MinerConfig.default with
    wallet := sampleWallet
    worker := "K"
    subaddress := { SubaddressConfig.default with additionalRigs := [("r", sampleWallet)] } }

def loaded : ViewModel MinerConfig :=
  loadSavedConfig identityGson
    ⟨saveConfig identityGson sampleConfig, MinerUIState.initial, none, []⟩

/-- A start with the additional rig, and a second one. -/
def rigTwice : List Op := [.selectRig "r", .startMining, .stopMining, .startMining]

def rigTwiceRun : List (ViewModel MinerConfig × Op) × ViewModel MinerConfig :=
  replay (machine identityGson) rigTwice ([], loaded)

theorem rigTwice_run : Run (machine identityGson) (Keeps identityGson sampleWallet "K")
    rigTwiceRun.1 rigTwiceRun.2 :=
  replay_run (.init ⟨rfl, rfl⟩) _ (allEnabled_of_forall (fun _ _ => trivial) _ _)

theorem paysTo_iff_startsOnMainWallet_rigTwice :
    PaysTo identityGson sampleWallet "K" rigTwiceRun.1 rigTwiceRun.2 ↔
      StartsOnMainWallet identityGson rigTwiceRun.1 :=
  paysTo_iff_startsOnMainWallet rigTwice_run

/-- The second start stores and launches the worker "K_r_r". -/
theorem paysTo_fails_rigTwice :
    Run (machine identityGson) (Keeps identityGson sampleWallet "K")
        rigTwiceRun.1 rigTwiceRun.2 ∧
      (rigTwiceRun.2.config identityGson).worker = "K_r_r" ∧
      ¬ PaysTo identityGson sampleWallet "K" rigTwiceRun.1 rigTwiceRun.2 := by
  have hworker : (rigTwiceRun.2.config identityGson).worker = "K_r_r" := by decide +kernel
  refine ⟨rigTwice_run, hworker, fun pays => ?_⟩
  have hkept := pays.kept.2.2
  rw [hworker] at hkept
  exact absurd hkept (by decide)

end MinerViewModel
