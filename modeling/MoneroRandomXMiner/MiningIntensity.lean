import MoneroRandomXMiner.AndroidBridge

/-!
# The mining intensity and the battery

`android_battery.cpp` has static variables of its own for the level of the
battery and the charger. Their names are those of `android_bridge.cpp`, where
the service's reports go; nothing ever writes these.
-/

namespace MiningIntensity

open Histories AndroidBridge

/-- The static variables of `android_battery.cpp`, without the intensity, which
nothing reads or writes. -/
structure Battery where
  optimizationEnabled : Bool
  batteryLevel : Int
  isCharging : Bool
  deriving DecidableEq

def Battery.loaded : Battery := ⟨true, 100, true⟩

def nativeSetBatteryOptimization (enabled : Bool) (b : Battery) : Battery :=
  { b with optimizationEnabled := enabled }

def nativeGetMiningIntensity (b : Battery) : Int :=
  if b.optimizationEnabled = false ∨ b.isCharging = true then 100
  else if b.batteryLevel > 80 then 100
  else if b.batteryLevel > 60 then 75
  else if b.batteryLevel > 40 then 50
  else if b.batteryLevel > 20 then 25
  else 0

/-- The two translation units. -/
structure Program where
  bridge : Bridge
  battery : Battery
  deriving DecidableEq

def Program.loaded : Program := ⟨Bridge.loaded, Battery.loaded⟩

inductive Event where
  | updateBatteryStatus (level : Int) (charging : Bool)
  | setBatteryOptimization (enabled : Bool)
  deriving DecidableEq

def next (p : Program) : Event → Program
  | .updateBatteryStatus level charging =>
    { p with bridge := nativeUpdateBatteryStatus level charging p.bridge }
  | .setBatteryOptimization enabled =>
    { p with battery := nativeSetBatteryOptimization enabled p.battery }

def machine : Machine Program Event where
  Enabled := fun _ _ => True
  next := next

/-- The battery that was reported last. -/
def lastReport : List (Program × Event) → Option (Int × Bool)
  | [] => none
  | m :: h =>
    match m.2 with
    | .updateBatteryStatus level charging => some (level, charging)
    | .setBatteryOptimization _ => lastReport h

/-- Optimisation is on until it is switched. -/
def optimizing : List (Program × Event) → Bool
  | [] => true
  | m :: h =>
    match m.2 with
    | .updateBatteryStatus _ _ => optimizing h
    | .setBatteryOptimization enabled => enabled

/-- The value of the band of a level. -/
def band (level : Int) : Int :=
  if level > 80 then 100
  else if level > 60 then 75
  else if level > 40 then 50
  else if level > 20 then 25
  else 0

/-- The intensity that a battery calls for. -/
def intended (enabled : Bool) (report : Int × Bool) : Int :=
  if enabled = true ∧ report.2 = false then band report.1 else 100

theorem band_monotone {low high : Int} (le : low ≤ high) : band low ≤ band high := by
  simp only [band]
  split_ifs <;> omega

theorem band_empty {level : Int} (empty : level ≤ 20) : band level = 0 := by
  simp only [band]
  split_ifs <;> omega

theorem band_full_iff (level : Int) : band level = 100 ↔ 80 < level := by
  simp only [band]
  split_ifs <;> omega

/-- The intensity is the one that the last report calls for. -/
def FollowsBattery (h : List (Program × Event)) (p : Program) : Prop :=
  ∀ report, lastReport h = some report →
    nativeGetMiningIntensity p.battery = intended (optimizing h) report

theorem FollowsBattery.eq_band {h : List (Program × Event)} {p : Program} {level : Int}
    (follows : FollowsBattery h p) (reported : lastReport h = some (level, false))
    (on : optimizing h = true) : nativeGetMiningIntensity p.battery = band level := by
  rw [follows _ reported, intended, if_pos ⟨on, rfl⟩]

/-- Off the charger an intensity that follows the battery grows with its level. -/
theorem FollowsBattery.monotone {h h' : List (Program × Event)} {p p' : Program}
    {level level' : Int} (follows : FollowsBattery h p) (follows' : FollowsBattery h' p')
    (reported : lastReport h = some (level, false))
    (reported' : lastReport h' = some (level', false)) (on : optimizing h = true)
    (on' : optimizing h' = true) (le : level ≤ level') :
    nativeGetMiningIntensity p.battery ≤ nativeGetMiningIntensity p'.battery := by
  rw [follows.eq_band reported on, follows'.eq_band reported' on']
  exact band_monotone le

theorem FollowsBattery.empty {h : List (Program × Event)} {p : Program} {level : Int}
    (follows : FollowsBattery h p) (reported : lastReport h = some (level, false))
    (on : optimizing h = true) (empty : level ≤ 20) :
    nativeGetMiningIntensity p.battery = 0 := by
  rw [follows.eq_band reported on, band_empty empty]

/-- What the query reads is what the program was loaded with, but for the switch. -/
theorem battery_run {h : List (Program × Event)} {p : Program}
    (run : Run machine (· = Program.loaded) h p) :
    p.battery = { Battery.loaded with optimizationEnabled := optimizing h } := by
  apply run.invariant
    (P := fun h p => p.battery = { Battery.loaded with optimizationEnabled := optimizing h })
  · rintro p rfl
    rfl
  · intro h p e kept _
    cases e with
    | updateBatteryStatus level charging => exact kept
    | setBatteryOptimization enabled =>
      simp only [machine, next, nativeSetBatteryOptimization, kept, optimizing]

theorem nativeGetMiningIntensity_run {h : List (Program × Event)} {p : Program}
    (run : Run machine (· = Program.loaded) h p) : nativeGetMiningIntensity p.battery = 100 := by
  rw [battery_run run]
  simp [nativeGetMiningIntensity, Battery.loaded]

/-- The intensity follows the battery exactly while full intensity is called for. -/
theorem followsBattery_iff {h : List (Program × Event)} {p : Program}
    (run : Run machine (· = Program.loaded) h p) {report : Int × Bool}
    (reported : lastReport h = some report) :
    FollowsBattery h p ↔ optimizing h = false ∨ report.2 = true ∨ 80 < report.1 := by
  have full := nativeGetMiningIntensity_run run
  have value : FollowsBattery h p ↔ 100 = intended (optimizing h) report := by
    simp only [FollowsBattery, reported, Option.some.injEq, forall_eq', full]
  rw [value, intended, ← band_full_iff]
  by_cases draining : optimizing h = true ∧ report.2 = false
  · rw [if_pos draining]
    obtain ⟨on, unplugged⟩ := draining
    simp [on, unplugged, eq_comm]
  · rw [if_neg draining]
    refine iff_of_true rfl ?_
    rcases not_and_or.mp draining with off | plugged
    · exact Or.inl (by simpa using off)
    · exact Or.inr (Or.inl (by simpa using plugged))

def emptyBattery : List Event := [.updateBatteryStatus 10 false]

def emptyBatteryRun : List (Program × Event) × Program :=
  replay machine emptyBattery ([], Program.loaded)

theorem emptyBattery_run :
    Run machine (· = Program.loaded) emptyBatteryRun.1 emptyBatteryRun.2 := by
  have started : Run machine (· = Program.loaded) [] Program.loaded := .init rfl
  exact replay_run started _ (allEnabled_of_forall (fun _ _ => trivial) _ _)

theorem followsBattery_iff_emptyBattery :
    FollowsBattery emptyBatteryRun.1 emptyBatteryRun.2 ↔
      optimizing emptyBatteryRun.1 = false ∨ false = true ∨ (80 : Int) < 10 := by
  have reported : lastReport emptyBatteryRun.1 = some (10, false) := rfl
  exact followsBattery_iff emptyBattery_run reported

/-- Ten percent off the charger, and full intensity. -/
theorem followsBattery_fails_emptyBattery :
    Run machine (· = Program.loaded) emptyBatteryRun.1 emptyBatteryRun.2 ∧
      lastReport emptyBatteryRun.1 = some (10, false) ∧
      nativeGetMiningIntensity emptyBatteryRun.2.battery = 100 ∧
      ¬FollowsBattery emptyBatteryRun.1 emptyBatteryRun.2 := by
  have reported : lastReport emptyBatteryRun.1 = some (10, false) := rfl
  refine ⟨emptyBattery_run, reported, by decide, ?_⟩
  intro follows
  exact absurd (follows.empty reported rfl (by decide)) (by decide)

end MiningIntensity
