import Mathlib.Data.List.Basic

/-!
# The stored configuration of the Android app

The configuration is kept as one JSON text in the shared preferences. The JSON
library is a parameter: what it wrote it reads back.
-/

namespace ConfigManager

/-- A Kotlin map in insertion order. -/
abbrev Rigs := List (String × String)

/-- `map[key] = value` on a mutable copy of the map. -/
def Rigs.put (rigs : Rigs) (key value : String) : Rigs :=
  if rigs.any (·.1 == key) then rigs.map fun p => if p.1 == key then (key, value) else p
  else rigs ++ [(key, value)]

def Rigs.remove (rigs : Rigs) (key : String) : Rigs := rigs.filter (·.1 != key)

structure SubaddressConfig where
  enabled : Bool
  miningSubaddress : String
  label : String
  rotateSubaddress : Bool
  rotationIntervalDays : Int
  additionalRigs : Rigs
  deriving DecidableEq

structure MinerConfig where
  poolHost : String
  poolPort : Int
  wallet : String
  worker : String
  threads : Int
  password : String
  subaddress : SubaddressConfig
  deriving DecidableEq

def SubaddressConfig.default : SubaddressConfig := ⟨false, "", "Mining Rig 1", false, 30, []⟩

def MinerConfig.default : MinerConfig :=
  ⟨"pool.supportxmr.com", 3333, "", "android_miner", 2, "x", SubaddressConfig.default⟩

def MinerConfig.getRigNames (config : MinerConfig) : List String :=
  ["default"] ++ config.subaddress.additionalRigs.map Prod.fst

def MinerConfig.getWorkerName (config : MinerConfig) (rigName : String) : String :=
  if rigName = "default" then config.worker else config.worker ++ "_" ++ rigName

/-- `toJson` and `fromJson` at the type of configurations. A text that cannot be
read throws. -/
structure Gson (JsonText : Type) where
  toJson : MinerConfig → JsonText
  fromJson : JsonText → Option MinerConfig
  roundTrip : ∀ config, fromJson (toJson config) = some config

variable {JsonText : Type}

/-- The new content of the preferences. -/
def saveConfig (gson : Gson JsonText) (config : MinerConfig) : Option JsonText :=
  some (gson.toJson config)

def getConfig (gson : Gson JsonText) : Option JsonText → MinerConfig
  | none => MinerConfig.default
  | some json => (gson.fromJson json).getD MinerConfig.default

@[simp] theorem getConfig_saveConfig (gson : Gson JsonText) (config : MinerConfig) :
    getConfig gson (saveConfig gson config) = config := by
  simp only [getConfig, saveConfig, gson.roundTrip, Option.getD_some]

end ConfigManager
