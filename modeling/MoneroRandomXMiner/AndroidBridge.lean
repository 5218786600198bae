import MoneroRandomXMiner.Histories
import Mathlib.Algebra.Order.Ring.Rat
import Mathlib.Order.WithBot

/-!
# Battery, temperature and the number of threads

The service reports battery and temperature to the native library, which keeps
two latches of them and derives a number of threads. Every band of the
temperature but the highest of those that throttle sets the latch or clears it
or leaves it as it should; the highest one leaves it as it was.
-/

namespace AndroidBridge

open Histories

/-- Numbers with the two infinities. -/
abbrev Extended := WithBot (WithTop ℚ)

def extended (q : ℚ) : Extended := ((q : WithTop ℚ) : WithBot (WithTop ℚ))

/-- A `jfloat`, of which only comparisons are made. -/
inductive Temperature where
  | nan
  | celsius (t : Extended)
  deriving DecidableEq

/-- `t >= bound`, which is false of a NaN. -/
def Temperature.AtLeast (bound : ℚ) : Temperature → Prop
  | .nan => False
  | .celsius t => extended bound ≤ t

instance (bound : ℚ) : ∀ t, Decidable (Temperature.AtLeast bound t)
  | .nan => inferInstanceAs (Decidable False)
  | .celsius _ => inferInstanceAs (Decidable (_ ≤ _))

/-- `t₁ <= t₂` -/
def Temperature.Le : Temperature → Temperature → Prop
  | .celsius t₁, .celsius t₂ => t₁ ≤ t₂
  | _, _ => False

instance : ∀ t₁ t₂, Decidable (Temperature.Le t₁ t₂)
  | .celsius _, .celsius _ => inferInstanceAs (Decidable (_ ≤ _))
  | .nan, _ | .celsius _, .nan => inferInstanceAs (Decidable False)

def throttleWarning : ℚ := 45
def throttleCritical : ℚ := 55
def shutdownTemp : ℚ := 65

/-- The file's static variables. -/
structure Bridge where
  batteryLevel : Int
  isCharging : Bool
  lowPowerMode : Bool
  cpuTemperature : Temperature
  thermalThrottled : Bool
  deriving DecidableEq

def Bridge.loaded : Bridge := ⟨100, true, false, .celsius (extended 35), false⟩

def nativeUpdateBatteryStatus (level : Int) (charging : Bool) (b : Bridge) : Bridge :=
  { b with
    batteryLevel := level
    isCharging := charging
    lowPowerMode :=
      if level < 20 ∧ charging = false then true
      else if charging then false
      else b.lowPowerMode }

def nativeUpdateTemperature (temperature : Temperature) (b : Bridge) : Bridge :=
  { b with
    cpuTemperature := temperature
    thermalThrottled :=
      if temperature.AtLeast shutdownTemp then b.thermalThrottled
      else if temperature.AtLeast throttleCritical then true
      else if temperature.AtLeast throttleWarning then b.thermalThrottled
      else false }

/-- What the system reports. `sysinfo` is `freeram` and `mem_unit`, or nothing when
the call fails; a `long` has 32 bits on one of the platforms built for. -/
structure System where
  longBits : Nat
  processorsOnline : Int
  sysinfo : Option (Nat × Nat)

/-- The free memory in shares of two gigabytes, as the code counts them. -/
def System.memoryThreads (sys : System) : Int :=
  let toLong := fun n : Int => n.bmod (2 ^ sys.longBits)
  let availableMemory :=
    match sys.sysinfo with
    | some (freeram, memUnit) => toLong (freeram * memUnit)
    | none => 0
  let memoryPerThread := toLong (2 * 1024 * 1024 * 1024)
  (availableMemory.tdiv memoryPerThread).bmod (2 ^ 32)

def nativeGetOptimalThreadCount (sys : System) (b : Bridge) : Int :=
  let cpuCount := if b.thermalThrottled then min sys.processorsOnline 2 else sys.processorsOnline
  let cpuCount := if b.lowPowerMode then min cpuCount 1 else cpuCount
  let cpuCount := if cpuCount > 4 then cpuCount - 1 else cpuCount
  let result := min (min cpuCount sys.memoryThreads) 8
  max result 1

inductive Event where
  | batteryStatus (level : Int) (charging : Bool)
  | temperature (t : Temperature)
  deriving DecidableEq

def next (b : Bridge) : Event → Bridge
  | .batteryStatus level charging => nativeUpdateBatteryStatus level charging b
  | .temperature t => nativeUpdateTemperature t b

def machine : Machine Bridge Event where
  Enabled := fun _ _ => True
  next := next

def Hot : Event → Prop
  | .temperature t => t.AtLeast throttleCritical ∧ ¬t.AtLeast shutdownTemp
  | .batteryStatus _ _ => False

def Cool : Event → Prop
  | .temperature t =>
    ¬t.AtLeast shutdownTemp ∧ ¬t.AtLeast throttleCritical ∧ ¬t.AtLeast throttleWarning
  | .batteryStatus _ _ => False

def Draining : Event → Prop
  | .batteryStatus level charging => level < 20 ∧ charging = false
  | .temperature _ => False

def Charging : Event → Prop
  | .batteryStatus _ charging => charging = true
  | .temperature _ => False

/-- A temperature from 55 up to 65 was reported, and none below 45 since. -/
def HotSinceCool (h : List (Bridge × Event)) : Prop :=
  Since (fun m _ => ¬Cool m.2) (fun m _ => Hot m.2) h

/-- A battery below 20 percent off the charger was reported, and no charger since. -/
def DrainingSinceCharging (h : List (Bridge × Event)) : Prop :=
  Since (fun m _ => ¬Charging m.2) (fun m _ => Draining m.2) h

/-- The count after one more temperature. -/
def countAfter (sys : System) (b : Bridge) (t : Temperature) : Int :=
  nativeGetOptimalThreadCount sys (nativeUpdateTemperature t b)

/-- The higher temperature gives no more threads, and at most two from 55 on. -/
structure HotterNeverMore (sys : System) (b : Bridge) (t₁ t₂ : Temperature) : Prop where
  noMore : countAfter sys b t₂ ≤ countAfter sys b t₁
  capped : t₂.AtLeast throttleCritical → countAfter sys b t₂ ≤ 2

theorem thermalThrottled_run {h : List (Bridge × Event)} {b : Bridge}
    (run : Run machine (· = Bridge.loaded) h b) : b.thermalThrottled = true ↔ HotSinceCool h := by
  apply run.latch (F := fun b => b.thermalThrottled = true) (S := fun _ e => Hot e)
    (C := fun _ e => Cool e)
  · rintro b rfl
    decide
  · rintro b (_ | t) - hot
    · exact hot.elim
    · simp [machine, next, nativeUpdateTemperature, hot.1, hot.2]
  · rintro b (_ | t) - - cool
    · exact cool.elim
    · simp [machine, next, nativeUpdateTemperature, cool.1, cool.2.1, cool.2.2]
  · rintro b (_ | t) - mild warm
    · rfl
    · simp only [machine, next, nativeUpdateTemperature]
      split
      · rfl
      · rename_i below
        split
        · rename_i above
          exact absurd ⟨above, below⟩ mild
        · rename_i notHot
          split
          · rfl
          · rename_i notWarm
            exact absurd ⟨below, notHot, notWarm⟩ warm

theorem lowPowerMode_run {h : List (Bridge × Event)} {b : Bridge}
    (run : Run machine (· = Bridge.loaded) h b) :
    b.lowPowerMode = true ↔ DrainingSinceCharging h := by
  apply run.latch (F := fun b => b.lowPowerMode = true) (S := fun _ e => Draining e)
    (C := fun _ e => Charging e)
  · rintro b rfl
    decide
  · rintro b (⟨level, charging⟩ | t) - draining
    · simp [machine, next, nativeUpdateBatteryStatus, draining.1, draining.2]
    · exact draining.elim
  · rintro b (⟨level, charging⟩ | t) - - plugged
    · have hcharging : charging = true := plugged
      simp [machine, next, nativeUpdateBatteryStatus, hcharging]
    · exact plugged.elim
  · rintro b (⟨level, charging⟩ | t) - full unplugged
    · have hcharging : charging = false := by simpa [Charging] using unplugged
      have hlevel : ¬level < 20 := fun low => full ⟨low, hcharging⟩
      simp [machine, next, nativeUpdateBatteryStatus, hcharging, hlevel]
    · rfl

/-- The count as it depends on the two latches. -/
def threads (sys : System) (throttled lowPower : Bool) : Int :=
  nativeGetOptimalThreadCount sys
    { Bridge.loaded with thermalThrottled := throttled, lowPowerMode := lowPower }

/-- More than two threads need both latches clear, three processors and room for three. -/
theorem threads_le_two_iff (sys : System) (throttled lowPower : Bool) :
    threads sys throttled lowPower ≤ 2 ↔ throttled = true ∨ lowPower = true ∨
      sys.processorsOnline ≤ 2 ∨ sys.memoryThreads ≤ 2 := by
  cases throttled <;> cases lowPower
  all_goals simp [threads, nativeGetOptimalThreadCount]
  all_goals omega

theorem threads_throttled_le (sys : System) (throttled lowPower : Bool) :
    threads sys true lowPower ≤ threads sys throttled lowPower := by
  cases throttled <;> cases lowPower
  all_goals simp [threads, nativeGetOptimalThreadCount]
  all_goals omega

/-- Where two threads are the most, the thermal latch makes no difference. -/
theorem threads_eq_of_le_two {sys : System} {lowPower : Bool}
    (few : threads sys false lowPower ≤ 2) (throttled : Bool) :
    threads sys throttled lowPower = threads sys false lowPower := by
  revert few
  cases throttled <;> cases lowPower
  all_goals simp [threads, nativeGetOptimalThreadCount]
  all_goals omega

/-- With a 64-bit `long` two shares are what stays below six gigabytes. -/
theorem memoryThreads_le_two_iff {sys : System} {freeram memUnit : Nat}
    (wide : sys.longBits = 64) (reported : sys.sysinfo = some (freeram, memUnit))
    (sane : freeram * memUnit < 2 ^ 62) :
    sys.memoryThreads ≤ 2 ↔ freeram * memUnit < 6 * 1024 * 1024 * 1024 := by
  have available :
      ((freeram : Int) * memUnit).bmod (2 ^ 64) = ((freeram * memUnit : Nat) : Int) := by
    rw [← Int.natCast_mul]
    generalize freeram * memUnit = bytes at sane ⊢
    rw [Int.bmod_def]
    omega
  have share : (2 * 1024 * 1024 * 1024 : Int).bmod (2 ^ 64) = 2147483648 := by decide
  simp only [System.memoryThreads, wide, reported, available, share]
  generalize freeram * memUnit = bytes at sane ⊢
  rw [Int.tdiv_eq_ediv_of_nonneg (by omega), Int.bmod_def]
  omega

theorem Temperature.Le.atLeast {t₁ t₂ : Temperature} (le : t₁.Le t₂) {bound : ℚ}
    (above : t₁.AtLeast bound) : t₂.AtLeast bound := by
  cases t₁ with
  | nan => exact le.elim
  | celsius x =>
    cases t₂ with
    | nan => exact le.elim
    | celsius y => exact above.trans le

theorem countAfter_eq (sys : System) (b : Bridge) (t : Temperature) :
    countAfter sys b t =
      threads sys (nativeUpdateTemperature t b).thermalThrottled b.lowPowerMode := rfl

/-- From a mild temperature the latch only goes up to what it was. -/
theorem countAfter_mild {sys : System} {b : Bridge} {t₁ t₂ : Temperature} (le : t₁.Le t₂)
    (mild : ¬t₂.AtLeast throttleCritical) (open₂ : ¬t₂.AtLeast shutdownTemp) :
    countAfter sys b t₂ ≤ countAfter sys b t₁ := by
  have mild₁ : ¬t₁.AtLeast throttleCritical := fun above => mild (le.atLeast above)
  have open₁ : ¬t₁.AtLeast shutdownTemp := fun above => open₂ (le.atLeast above)
  rw [countAfter_eq, countAfter_eq]
  simp only [nativeUpdateTemperature, mild, open₂, mild₁, open₁, if_false]
  by_cases warm₁ : t₁.AtLeast throttleWarning
  · rw [if_pos warm₁, if_pos (le.atLeast warm₁)]
  · rw [if_neg warm₁]
    split
    · cases b.thermalThrottled with
      | true => exact threads_throttled_le sys false b.lowPowerMode
      | false => exact le_rfl
    · exact le_rfl

/-- The higher temperature gives no more threads, and at most two from 55 on, exactly
when it stays below the highest band, or a latch is set, or the processors or the
memory allow two at most. -/
theorem hotterNeverMore_iff (sys : System) {h : List (Bridge × Event)} {b : Bridge}
    (run : Run machine (· = Bridge.loaded) h b) {t₁ t₂ : Temperature} (le : t₁.Le t₂) :
    HotterNeverMore sys b t₁ t₂ ↔ ¬t₂.AtLeast shutdownTemp ∨ HotSinceCool h ∨
      DrainingSinceCharging h ∨ sys.processorsOnline ≤ 2 ∨ sys.memoryThreads ≤ 2 := by
  rw [← thermalThrottled_run run, ← lowPowerMode_run run, ← threads_le_two_iff]
  by_cases shut : t₂.AtLeast shutdownTemp
  · have same : countAfter sys b t₂ = threads sys b.thermalThrottled b.lowPowerMode := by
      rw [countAfter_eq]
      simp only [nativeUpdateTemperature, if_pos shut]
    constructor
    · rintro ⟨-, capped⟩
      rw [← same]
      refine Or.inr (capped ?_)
      cases t₂ with
      | nan => exact shut
      | celsius t =>
        have below : extended throttleCritical ≤ extended shutdownTemp := by decide
        exact below.trans shut
    · intro few
      have few := few.resolve_left (not_not_intro shut)
      refine ⟨?_, fun _ => same ▸ few⟩
      rw [same, countAfter_eq]
      cases hot : b.thermalThrottled with
      | true => exact threads_throttled_le sys _ b.lowPowerMode
      | false =>
        rw [hot] at few
        exact (threads_eq_of_le_two few _).ge
  · refine iff_of_true ?_ (Or.inl shut)
    by_cases critical : t₂.AtLeast throttleCritical
    · have throttled : countAfter sys b t₂ = threads sys true b.lowPowerMode := by
        rw [countAfter_eq]
        simp only [nativeUpdateTemperature, if_neg shut, if_pos critical]
      refine ⟨?_, fun _ => ?_⟩
      · rw [throttled, countAfter_eq]
        exact threads_throttled_le sys _ b.lowPowerMode
      · rw [throttled]
        exact (threads_le_two_iff sys true b.lowPowerMode).mpr (Or.inl rfl)
    · exact ⟨countAfter_mild le critical shut, fun above => absurd above critical⟩

/-- Eight processors, and memory for eight threads. -/
def octaCore : System := ⟨64, 8, some (17179869184, 1)⟩

/-- A hot report that throttles, one in the highest band, and a cool one. -/
def hotThenCool : List Event :=
  [.temperature (.celsius (extended 60)), .temperature (.celsius (extended 66)),
    .batteryStatus 50 false, .temperature (.celsius (extended 40))]

def hotThenCoolRun : List (Bridge × Event) × Bridge :=
  replay machine hotThenCool ([], Bridge.loaded)

theorem hotterNeverMore_iff_hotThenCool :
    HotterNeverMore octaCore hotThenCoolRun.2 (.celsius (extended 60)) (.celsius (extended 70)) ↔
      ¬Temperature.AtLeast shutdownTemp (.celsius (extended 70)) ∨ HotSinceCool hotThenCoolRun.1 ∨
        DrainingSinceCharging hotThenCoolRun.1 ∨ octaCore.processorsOnline ≤ 2 ∨
        octaCore.memoryThreads ≤ 2 := by
  have started : Run machine (· = Bridge.loaded) [] Bridge.loaded := .init rfl
  have run := replay_run started _ (allEnabled_of_forall (fun _ _ => trivial) hotThenCool _)
  exact hotterNeverMore_iff octaCore run (by decide)

/-- Two threads at 60 degrees, seven at 70. -/
theorem hotterNeverMore_fails_shutdown :
    countAfter octaCore Bridge.loaded (.celsius (extended 60)) = 2 ∧
      countAfter octaCore Bridge.loaded (.celsius (extended 70)) = 7 ∧
      ¬HotterNeverMore octaCore Bridge.loaded (.celsius (extended 60))
        (.celsius (extended 70)) := by
  have warm : countAfter octaCore Bridge.loaded (.celsius (extended 60)) = 2 := by decide +kernel
  have hot : countAfter octaCore Bridge.loaded (.celsius (extended 70)) = 7 := by decide +kernel
  refine ⟨warm, hot, ?_⟩
  rintro ⟨noMore, -⟩
  rw [warm, hot] at noMore
  omega

end AndroidBridge
