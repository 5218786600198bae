import MoneroRandomXMiner.ConfigEdits
import MoneroRandomXMiner.ShareCredits

/-!
# The rig on the screen is the rig that is paid

The view model keeps the subaddress part of the stored configuration on the
screen. A start takes the address of the selected rig from it and falls back on
the stored wallet, which is the last one launched or imported. The shares of the
miner that the service then constructs are credited accordingly.
-/

namespace RigCredits

open Histories ConfigManager MinerViewModel ConfigEdits NumericSettings ShareCredits PoolSession
  ShareDelivery SendMessage HandleMessage JsonFields
open MinerMachine (worker0 zeroHash)
open HexText (lit)
open MiningBlob (Hash)
open ReceiveLoop (newline)
open StreamLines (completeLines)

variable {JsonText : Type} {gson : Gson JsonText}

def namesOf (config : MinerConfig) : Names := ⟨config.wallet, config.password, config.worker⟩

/-- Whom a start with this screen names, over the names that are stored. -/
def payee (ui : MinerUIState) (stored : Names) : Names where
  wallet :=
    if ui.selectedRig = "default" then
      if ui.subaddressEnabled ∧ ui.miningSubaddress ≠ "" then ui.miningSubaddress
      else stored.wallet
    else (ui.additionalRigs.lookup ui.selectedRig).getD stored.wallet
  password := stored.password
  worker :=
    if ui.selectedRig = "default" then stored.worker
    else stored.worker ++ "_" ++ ui.selectedRig

/-- The names that a run has left in the preferences: those of the last launch or import. -/
def storedNames (gson : Gson JsonText) (preferences : Option JsonText) :
    List (ViewModel JsonText × Edit JsonText) → Names
  | [] => namesOf (getConfig gson preferences)
  | (vm, .call .startMining) :: h =>
    match validationError gson vm with
    | none => payee vm.ui (storedNames gson preferences h)
    | some _ => storedNames gson preferences h
  | (_, .importConfigFromJson json) :: h =>
    match gson.fromJson json with
    | some config => namesOf config
    | none => storedNames gson preferences h
  | _ :: h => storedNames gson preferences h

/-- The subaddress part on the screen is the stored one. -/
structure Mirrors (gson : Gson JsonText) (vm : ViewModel JsonText) : Prop where
  enabled : vm.ui.subaddressEnabled = (vm.config gson).subaddress.enabled
  address : vm.ui.miningSubaddress = (vm.config gson).subaddress.miningSubaddress
  rigs : vm.ui.additionalRigs = (vm.config gson).subaddress.additionalRigs

/-- A start names the rig on the screen. -/
theorem Mirrors.payee {vm : ViewModel JsonText} (mirrors : Mirrors gson vm) :
    namesOf (miningConfig gson vm) = payee vm.ui (namesOf (vm.config gson)) := by
  simp only [namesOf, RigCredits.payee, miningConfig, getActiveMiningAddress,
    MinerConfig.getWorkerName, mirrors.enabled, mirrors.address, mirrors.rigs]

theorem mirrors_load (vm : ViewModel JsonText) : Mirrors gson (loadSavedConfig gson vm) :=
  ⟨rfl, rfl, rfl⟩

theorem mirrors_save {vm : ViewModel JsonText} (f : SubaddressConfig → SubaddressConfig)
    (enabled : vm.ui.subaddressEnabled = (f (vm.config gson).subaddress).enabled)
    (address : vm.ui.miningSubaddress = (f (vm.config gson).subaddress).miningSubaddress)
    (rigs : vm.ui.additionalRigs = (f (vm.config gson).subaddress).additionalRigs) :
    Mirrors gson (saveSubaddress gson f vm) := by
  refine ⟨?_, ?_, ?_⟩
  · rw [config_saveSubaddress]
    exact enabled
  · rw [config_saveSubaddress]
    exact address
  · rw [config_saveSubaddress]
    exact rigs

theorem mirrors_startMining {vm : ViewModel JsonText} (mirrors : Mirrors gson vm) :
    Mirrors gson (startMining gson vm) := by
  by_cases valid : Valid gson vm
  · have none : validationError gson vm = none := valid
    have config := (startMining_valid valid).1
    refine ⟨?_, ?_, ?_⟩
    · rw [config, startMining, none]
      exact mirrors.enabled
    · rw [config, startMining, none]
      exact mirrors.address
    · rw [config, startMining, none]
      exact mirrors.rigs
  · obtain ⟨toast, refused⟩ := Option.ne_none_iff_exists'.mp valid
    rw [startMining, refused]
    exact ⟨mirrors.enabled, mirrors.address, mirrors.rigs⟩

theorem mirrors_next {vm : ViewModel JsonText} (mirrors : Mirrors gson vm) (e : Edit JsonText) :
    Mirrors gson (ConfigEdits.next gson vm e) := by
  obtain ⟨enabled, address, rigs⟩ := mirrors
  cases e with
  | call op =>
    cases op with
    | selectRig rigName =>
      simp only [ConfigEdits.next, MinerViewModel.next, selectRig]
      split
      · exact ⟨enabled, address, rigs⟩
      · exact ⟨enabled, address, rigs⟩
    | addRig rigName subaddress =>
      simp only [ConfigEdits.next, MinerViewModel.next, addRig]
      exact mirrors_save _ enabled address rfl
    | removeRig rigName =>
      simp only [ConfigEdits.next, MinerViewModel.next, removeRig]
      exact mirrors_save _ enabled address rfl
    | toggleSubaddress on =>
      simp only [ConfigEdits.next, MinerViewModel.next, toggleSubaddress]
      exact mirrors_save _ rfl address rigs
    | updateMiningSubaddress shown =>
      simp only [ConfigEdits.next, MinerViewModel.next, updateMiningSubaddress]
      exact mirrors_save _ enabled rfl rigs
    | startMining => exact mirrors_startMining ⟨enabled, address, rigs⟩
    | stopMining => exact ⟨enabled, address, rigs⟩
  | loadSavedConfig => exact mirrors_load vm
  | importConfigFromJson json => exact mirrors_load _
  | updatePoolHost host => exact ⟨enabled, address, rigs⟩
  | updatePoolPort port => exact ⟨enabled, address, rigs⟩
  | updateWallet wallet => exact ⟨enabled, address, rigs⟩
  | updateWorker worker => exact ⟨enabled, address, rigs⟩
  | updateThreads threads cpuCount =>
    simp only [ConfigEdits.next, updateThreads]
    split
    · exact ⟨enabled, address, rigs⟩
    · split
      · exact ⟨enabled, address, rigs⟩
      · exact ⟨enabled, address, rigs⟩

/-- What a start or an import leaves is what `storedNames` says, and nothing else touches
the names. -/
theorem namesOf_next {preferences : Option JsonText}
    {h : List (ViewModel JsonText × Edit JsonText)} {vm : ViewModel JsonText}
    (mirrors : Mirrors gson vm) (stored : namesOf (vm.config gson) = storedNames gson preferences h)
    (e : Edit JsonText) :
    namesOf ((ConfigEdits.next gson vm e).config gson) =
      storedNames gson preferences ((vm, e) :: h) := by
  cases e with
  | call op =>
    cases op with
    | selectRig rigName =>
      simp only [ConfigEdits.next, MinerViewModel.next, selectRig]
      split
      · exact stored
      · exact stored
    | addRig rigName subaddress =>
      simp only [ConfigEdits.next, MinerViewModel.next, addRig, config_saveSubaddress]
      exact stored
    | removeRig rigName =>
      simp only [ConfigEdits.next, MinerViewModel.next, removeRig, config_saveSubaddress]
      exact stored
    | toggleSubaddress on =>
      simp only [ConfigEdits.next, MinerViewModel.next, toggleSubaddress, config_saveSubaddress]
      exact stored
    | updateMiningSubaddress address =>
      simp only [ConfigEdits.next, MinerViewModel.next, updateMiningSubaddress,
        config_saveSubaddress]
      exact stored
    | startMining =>
      simp only [ConfigEdits.next, MinerViewModel.next, storedNames]
      cases checked : validationError gson vm with
      | none =>
        rw [(startMining_valid checked).1, mirrors.payee, stored]
      | some toast =>
        have invalid : ¬Valid gson vm := fun valid => by
          rw [Valid, checked] at valid
          cases valid
        rw [startMining_invalid invalid, stored]
    | stopMining => exact stored
  | loadSavedConfig => exact stored
  | importConfigFromJson json =>
    simp only [ConfigEdits.next, importConfigFromJson, storedNames]
    cases gson.fromJson json with
    | none => exact stored
    | some config => exact congrArg namesOf (getConfig_saveConfig gson config)
  | updatePoolHost host => exact stored
  | updatePoolPort port => exact stored
  | updateWallet wallet => exact stored
  | updateWorker worker => exact stored
  | updateThreads threads cpuCount =>
    simp only [ConfigEdits.next, updateThreads]
    split
    · exact stored
    · split
      · exact stored
      · exact stored

theorem mirrors_run {preferences : Option JsonText}
    {h : List (ViewModel JsonText × Edit JsonText)} {vm : ViewModel JsonText}
    (run : Run (ConfigEdits.machine gson) (· = created gson preferences) h vm) :
    Mirrors gson vm ∧ namesOf (vm.config gson) = storedNames gson preferences h := by
  apply run.invariant
    (P := fun h vm => Mirrors gson vm ∧ namesOf (vm.config gson) = storedNames gson preferences h)
  · rintro vm rfl
    exact ⟨mirrors_load _, rfl⟩
  · rintro h vm e ⟨mirrors, stored⟩ _
    exact ⟨mirrors_next mirrors e, namesOf_next mirrors stored e⟩

/-- What a launch of a run names is the rig on the screen, and what the screen shows
from then on. -/
theorem launch_names {preferences : Option JsonText}
    {h older : List (ViewModel JsonText × Edit JsonText)} {vm vm' : ViewModel JsonText}
    (run : Run (ConfigEdits.machine gson) (· = created gson preferences) h vm')
    (launch : Launch gson h older vm) :
    let names := payee vm.ui (storedNames gson preferences older)
    namesOf (miningConfig gson vm) = names ∧
      (startMining gson vm).ui.wallet = names.wallet ∧
      (startMining gson vm).ui.worker = names.worker := by
  obtain ⟨mirrors, stored⟩ := mirrors_run (run.at_moment launch.1).1
  have none : validationError gson vm = none := launch.2
  have names := mirrors.payee
  rw [stored] at names
  refine ⟨names, ?_, ?_⟩
  · rw [startMining, none, ← names]
    rfl
  · rw [startMining, none, ← names]
    rfl

/-- The shares of a launched miner are credited to the rig that the screen shows as
selected, under the names that the screen shows from then on. -/
theorem rig_credited {preferences : Option JsonText}
    {h older : List (ViewModel JsonText × Edit JsonText)} {vm vm' : ViewModel JsonText}
    (edits : Run (ConfigEdits.machine gson) (· = created gson preferences) h vm')
    (launch : Launch gson h older vm) {launched : MinerConfig} {rest : List MinerConfig}
    (starts : (startMining gson vm).launched = launched :: rest)
    {Double : Type} {sys : System Double} {config : NativeConfig}
    (made : constructed sys (.serviceConfig launched) = some config)
    (plain : PlainNames (payee vm.ui (storedNames gson preferences older)))
    {n : Nat} {calculateHash : Nat → List UInt8 → Hash} {lib : JsonLibrary}
    {session : List (PoolSession.State n × PoolSession.Event n)} {s : PoolSession.State n}
    (run : Run (PoolSession.machine calculateHash lib
        (credentials (.serviceConfig launched : Entry Double) config) n)
      (Start (credentials (.serviceConfig launched : Entry Double) config)) session s)
    (succeed : SendsSucceed session)
    (ids : ∀ share ∈ found calculateHash session, Plain share.jobId) :
    let names := payee vm.ui (storedNames gson preferences older)
    (↑(credits none (completeLines newline s.wire.sent)) : Multiset Credit) +
          (∑ t, inHand s t).map (creditTo names) =
        ↑((found calculateHash session).map (creditTo names)) ∧
      (startMining gson vm).ui.wallet = names.wallet ∧
      (startMining gson vm).ui.worker = names.worker := by
  obtain ⟨names, shown⟩ := launch_names edits launch
  rw [(startMining_valid launch.2).2] at starts
  obtain ⟨rfl, -⟩ := List.cons.inj starts
  have same : named (.serviceConfig (miningConfig gson vm) : Entry Double) =
      payee vm.ui (storedNames gson preferences older) := names
  refine ⟨?_, shown⟩
  rw [credentials_eq made (same ▸ plain), same] at run
  exact credits_session plain run succeed ids

/-- The additional rig is selected and started. -/
def startsRig : List (Edit MinerConfig) := [.call (.selectRig "r"), .call .startMining]

def startsRigRun : List (ViewModel MinerConfig × Edit MinerConfig) × ViewModel MinerConfig :=
  replay (ConfigEdits.machine identityGson) startsRig ([], loaded)

theorem startsRig_run :
    Run (ConfigEdits.machine identityGson) (· = created identityGson (some sampleConfig))
      startsRigRun.1 startsRigRun.2 := by
  have started : Run (ConfigEdits.machine identityGson)
      (· = created identityGson (some sampleConfig)) [] loaded := .init rfl
  exact replay_run started _ ⟨trivial, trivial, trivial⟩

def rigSelected : ViewModel MinerConfig := selectRig "r" loaded

def rigClient : Credentials := clientOf ⟨sampleWallet, "x", "K_r"⟩

/-- Two workers in the main loop, logged in for the rig. -/
def rigSession : PoolSession.State 2 :=
  { miningSession with
    wire := ⟨1, none, fun _ => .idle, loginText rigClient, [loginText rigClient], []⟩ }

/-- Worker 0 finds a share with its first hash call and sends it in two pieces. -/
def rigShare : List (PoolSession.Event 2) :=
  oneShare.take 12 ++ [.send worker0 152, .thread (.work worker0 MinerMachine.idle)]

def rigShareRun : List (PoolSession.State 2 × PoolSession.Event 2) × PoolSession.State 2 :=
  replay (PoolSession.machine zeroHash goodLibrary rigClient 2) rigShare ([], rigSession)

theorem start_rigSession : Start rigClient rigSession where
  unlocked := fun _ => rfl
  coherent := ⟨rfl, iff_of_false (by decide) id, trivial⟩
  login := ⟨rfl, fun _ => rfl, rfl, rfl, rfl⟩
  noShare := by decide
  notReturned := fun _ => rfl
  receiver := rfl
  counters := ⟨rfl, rfl⟩
  stream := ⟨rfl, rfl, rfl⟩
  answered := rfl

set_option maxRecDepth 4000 in
theorem rigShare_enabled :
    AllEnabled (PoolSession.machine zeroHash goodLibrary rigClient 2) rigShare rigSession := by
  refine ⟨⟨⟨?_, ?_⟩, fun h => absurd h ?_⟩, ⟨⟨rfl, _, rfl, rfl⟩, fun h => absurd h ?_⟩,
    ⟨⟨?_, ?_⟩, fun h => absurd h ?_⟩, ⟨⟨rfl, _, rfl, rfl⟩, fun h => absurd h ?_⟩,
    ⟨⟨?_, ?_⟩, fun h => absurd h ?_⟩, ⟨⟨rfl, _, rfl, rfl⟩, fun h => absurd h ?_⟩,
    ⟨⟨?_, ?_⟩, fun h => absurd h ?_⟩, ⟨⟨?_, ?_⟩, fun h => absurd h ?_⟩,
    ⟨⟨?_, ?_⟩, fun h => absurd h ?_⟩, ⟨?_, ?_, rfl⟩,
    ⟨⟨rfl, _, rfl, rfl⟩, fun _ => ⟨_, rfl⟩⟩, ⟨_, _, rfl, ?_, ?_⟩, ⟨_, _, rfl, ?_, ?_⟩,
    ⟨⟨?_, ?_⟩, fun _ => ?_⟩, trivial⟩
  all_goals decide +kernel

theorem rigShare_run :
    Run (PoolSession.machine zeroHash goodLibrary rigClient 2) (Start rigClient) rigShareRun.1
      rigShareRun.2 :=
  replay_run (.init start_rigSession) _ rigShare_enabled

theorem rigShare_succeeds : ShareDelivery.SendsSucceed rigShareRun.1 := by
  have none : ShareDelivery.SendsSucceed (n := 2) [] := fun _ hm => by cases hm
  refine SendsSucceed.replay ?_ none rigSession
  rintro e he t outcome rfl
  simp [rigShare, oneShare] at he
  omega

theorem plain_sampleWallet : PlainText sampleWallet := by
  have chars : sampleWallet.toList = List.replicate 95 '4' := String.toList_ofList
  constructor
  · have bytes : lit sampleWallet = List.replicate 95 52 := by
      rw [lit_eq_flatMap, chars]
      rfl
    rw [bytes]
    refine plain_of_ascii ?_ ?_
    · intro c mem
      rw [List.eq_of_mem_replicate mem]
      decide
    · intro c mem
      rw [List.eq_of_mem_replicate mem]
      decide
  · intro c mem
    rw [chars] at mem
    rw [List.eq_of_mem_replicate mem]
    decide

def rigConfig : MinerConfig := miningConfig identityGson rigSelected

/-- The share is credited to the subaddress of the rig, for the worker "K_r". -/
theorem rig_credited_startsRig :
    let names : Names := ⟨sampleWallet, "x", "K_r"⟩
    (↑(credits none (completeLines newline rigShareRun.2.wire.sent)) : Multiset Credit) +
          (∑ t, inHand rigShareRun.2 t).map (creditTo names) =
        ↑((found zeroHash rigShareRun.1).map (creditTo names)) ∧
      (startMining identityGson rigSelected).ui.wallet = names.wallet ∧
      (startMining identityGson rigSelected).ui.worker = names.worker := by
  have valid : validationError identityGson rigSelected = none := by decide +kernel
  have launch : Launch identityGson startsRigRun.1 [(loaded, .call (.selectRig "r"))]
      rigSelected := ⟨⟨[], rfl⟩, valid⟩
  have made : constructed NumericSettings.idle (.serviceConfig rigConfig) =
      some (createMinerConfig rigConfig) := rfl
  have same : payee rigSelected.ui
      (storedNames identityGson (some sampleConfig) [(loaded, .call (.selectRig "r"))]) =
        ⟨sampleWallet, "x", "K_r"⟩ := by decide +kernel
  have plain : PlainNames (payee rigSelected.ui
      (storedNames identityGson (some sampleConfig) [(loaded, .call (.selectRig "r"))])) := by
    rw [same]
    exact ⟨plain_sampleWallet, ⟨by decide, by decide⟩, ⟨by decide, by decide⟩⟩
  have client : credentials (.serviceConfig rigConfig : Entry Int) (createMinerConfig rigConfig) =
      rigClient := by
    rw [credentials_eq made plain]
    rfl
  have run := rigShare_run
  rw [← client] at run
  refine rig_credited startsRig_run launch (startMining_valid valid).2 made plain run
    rigShare_succeeds ?_
  decide +kernel

end RigCredits
