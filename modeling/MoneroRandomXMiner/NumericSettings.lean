import MoneroRandomXMiner.MinerPage
import Mathlib.Algebra.Group.Int.Defs

/-!
# Port and threads on their ways to the miner

The configuration file, the page and the service each hand over a port and a
number of threads as integers of their own kind. Each way ends in a narrowing
conversion to the fields of the native configuration, and none checks that the
integer fits.
-/

namespace NumericSettings

open ConfigManager MinerPage

/-- The native `MinerConfig`. -/
structure NativeConfig where
  pool_host : String
  pool_port : UInt16
  wallet : String
  worker : String
  password : String
  use_ssl : Bool
  num_threads : UInt32
  init_threads : UInt32
  huge_pages : Bool
  numa_aware : Bool
  scratchpad_size : UInt32
  deriving DecidableEq

/-- `double`, with the conversions that the program leaves to the compiler. -/
structure Doubles (Double : Type) where
  ofInt : Int → Double
  toInt32 : Double → Int32
  toUInt32 : Double → UInt32

/-- A member of the configuration file. An integer literal is kept as it is written. -/
inductive Json (Double : Type) where
  | null
  | bool (b : Bool)
  | integer (literal : Int)
  | decimal (x : Double)
  | str (text : String)
  | structured

/-- How the JSON library stores a number. -/
inductive Number (Double : Type) where
  | unsigned (n : UInt64)
  | integer (n : Int64)
  | float (x : Double)

variable {Double : Type}

def Number.scan (doubles : Doubles Double) (literal : Int) : Number Double :=
  if 0 ≤ literal ∧ literal < 2 ^ 64 then .unsigned (UInt64.ofInt literal)
  else if -2 ^ 63 ≤ literal ∧ literal < 0 then .integer (Int64.ofInt literal)
  else .float (doubles.ofInt literal)

/-- `static_cast<int>` -/
def Number.toInt32 (doubles : Doubles Double) : Number Double → Int32
  | .unsigned n => Int32.ofInt n.toNat
  | .integer n => Int32.ofInt n.toInt
  | .float x => doubles.toInt32 x

/-- `static_cast<unsigned int>` -/
def Number.toUInt32 (doubles : Doubles Double) : Number Double → UInt32
  | .unsigned n => UInt32.ofInt n.toNat
  | .integer n => UInt32.ofInt n.toInt
  | .float x => doubles.toUInt32 x

/-- `get<int>()`, which throws on a value of another type. -/
def Json.getInt (doubles : Doubles Double) : Json Double → Option Int32
  | .bool b => some (if b then 1 else 0)
  | .integer literal => some ((Number.scan doubles literal).toInt32 doubles)
  | .decimal x => some (doubles.toInt32 x)
  | .null | .str _ | .structured => none

def Json.getUnsigned (doubles : Doubles Double) : Json Double → Option UInt32
  | .bool b => some (if b then 1 else 0)
  | .integer literal => some ((Number.scan doubles literal).toUInt32 doubles)
  | .decimal x => some (doubles.toUInt32 x)
  | .null | .str _ | .structured => none

def Json.getString : Json Double → Option String
  | .str text => some text
  | .null | .bool _ | .integer _ | .decimal _ | .structured => none

def Json.getBool : Json Double → Option Bool
  | .bool b => some b
  | .null | .integer _ | .decimal _ | .str _ | .structured => none

abbrev Members (Double : Type) := List (String × Json Double)

/-- `j.value(key, default)` -/
def value {α : Type} (get : Json Double → Option α) (members : Members Double) (key : String)
    (default : α) : Option α :=
  match members.lookup key with
  | some v => get v
  | none => some default

/-- `none` stands for an exception. Without a JSON object in the file there is one. -/
def load_config (doubles : Doubles Double) (hardware_concurrency : UInt32)
    (file : Option (Members Double)) : Option NativeConfig := do
  let j ← file
  let pool_host ← value Json.getString j "pool_host" "pool.supportxmr.com"
  let pool_port ← value (Json.getInt doubles) j "pool_port" 3333
  let wallet ← value Json.getString j "wallet" ""
  let worker ← value Json.getString j "worker" "worker1"
  let password ← value Json.getString j "password" "x"
  let use_ssl ← value Json.getBool j "use_ssl" false
  let num_threads ← value (Json.getUnsigned doubles) j "threads" hardware_concurrency
  let init_threads ← value (Json.getInt doubles) j "init_threads" 2
  let huge_pages ← value Json.getBool j "huge_pages" true
  let numa_aware ← value Json.getBool j "numa_aware" false
  let scratchpad_size ← value (Json.getInt doubles) j "scratchpad_size" 0
  return {
    pool_host, pool_port := UInt16.ofInt pool_port.toInt, wallet, worker, password, use_ssl
    num_threads, init_threads := UInt32.ofInt init_threads.toInt, huge_pages, numa_aware
    scratchpad_size := UInt32.ofInt scratchpad_size.toInt }

/-- The miner that `main` constructs. -/
def main (doubles : Doubles Double) (hardware_concurrency : UInt32)
    (file : Option (Members Double)) : Option NativeConfig :=
  (load_config doubles hardware_concurrency file).filter fun config => config.wallet ≠ ""

/-- How a number of the page arrives as a Java `int`: those of its range as they are. -/
structure WebView where
  toJavaInt : Int → Int32
  exact : ∀ n, -2 ^ 31 ≤ n → n < 2 ^ 31 → (toJavaInt n).toInt = n

/-- The configuration that the activity fills in. -/
def activityConfig (host : String) (port : Int32) (wallet worker : String) (threads : Int32) :
    NativeConfig where
  pool_host := host
  pool_port := UInt16.ofInt port.toInt
  wallet := wallet
  worker := worker
  password := "x"
  use_ssl := false
  num_threads := UInt32.ofInt threads.toInt
  init_threads := 2
  huge_pages := false
  numa_aware := false
  scratchpad_size := 0

/-- The miner that `nativeStartMining` of the activity constructs. -/
def MainActivity_nativeStartMining (g_mining : Bool) (host : String) (port : Int32)
    (wallet worker : String) (threads : Int32) : Option NativeConfig :=
  if g_mining then none else some (activityConfig host port wallet worker threads)

def createMinerConfig (config : MinerConfig) : NativeConfig where
  pool_host := config.poolHost
  wallet := config.wallet
  worker := config.worker
  password := config.password
  pool_port := UInt16.ofInt config.poolPort
  num_threads := UInt32.ofInt config.threads
  use_ssl := false
  huge_pages := false
  numa_aware := false
  init_threads := min 2 (UInt32.ofInt config.threads)
  scratchpad_size := 0

/-- The miner that `nativeStartMining` of the service constructs. -/
def MinerService_nativeStartMining (g_mining : Bool) (config : MinerConfig) :
    Option NativeConfig :=
  if g_mining then none else some (createMinerConfig config)

/-- What the entries find around them. -/
structure System (Double : Type) where
  doubles : Doubles Double
  hardware_concurrency : UInt32
  webView : WebView
  page : Page
  nativeLibraryLoaded : Bool
  g_mining : Bool

inductive Entry (Double : Type) where
  | configFile (file : Option (Members Double))
  | page (form : Form)
  | serviceConfig (config : MinerConfig)

/-- The configuration with which an entry constructs a miner, if it does. -/
def constructed (sys : System Double) : Entry Double → Option NativeConfig
  | .configFile file => main sys.doubles sys.hardware_concurrency file
  | .page form =>
    (sys.page.asks form).bind fun r =>
      if sys.nativeLibraryLoaded then
        MainActivity_nativeStartMining sys.g_mining r.host (sys.webView.toJavaInt r.port) r.wallet
          r.worker (sys.webView.toJavaInt r.threads)
      else none
  | .serviceConfig config => MinerService_nativeStartMining sys.g_mining config

def GivesPort : Entry Double → Int → Prop
  | .configFile file, port => ∃ j ∈ file, j.lookup "pool_port" = some (.integer port)
  | .page form, port => form.poolPort = toString port
  | .serviceConfig config, port => config.poolPort = port

def GivesThreads : Entry Double → Int → Prop
  | .configFile file, threads => ∃ j ∈ file, j.lookup "threads" = some (.integer threads)
  | .page form, threads => form.threads = toString threads
  | .serviceConfig config, threads => config.threads = threads

/-- The number of threads that is asked for. The page keeps it within its bounds. -/
def threadsFor : Entry Double → Int → Int
  | .page _, threads => max 1 (min 8 threads)
  | .configFile _, threads | .serviceConfig _, threads => threads

def PortValid (port : Int) : Prop := 1 ≤ port ∧ port ≤ 65535

structure AsGiven (entry : Entry Double) (config : NativeConfig) : Prop where
  port : ∀ port, GivesPort entry port → (config.pool_port.toNat : Int) = port ∧ PortValid port
  threads : ∀ threads, GivesThreads entry threads →
    (config.num_threads.toNat : Int) = threadsFor entry threads

/-- The numbers given are the miner's, or no miner is constructed. -/
def UsedAsGiven (sys : System Double) (entry : Entry Double) : Prop :=
  ∀ config ∈ constructed sys entry, AsGiven entry config

def Json.IsNumeric : Json Double → Prop
  | .bool _ | .integer _ | .decimal _ => True
  | .null | .str _ | .structured => False

/-- Every member that the program reads has its type. -/
structure Readable (j : Members Double) : Prop where
  strings : ∀ key ∈ ["pool_host", "wallet", "worker", "password"], ∀ v, j.lookup key = some v →
    ∃ text, v = .str text
  flags : ∀ key ∈ ["use_ssl", "huge_pages", "numa_aware"], ∀ v, j.lookup key = some v →
    ∃ b, v = .bool b
  numbers : ∀ key ∈ ["pool_port", "threads", "init_threads", "scratchpad_size"],
    ∀ v, j.lookup key = some v → v.IsNumeric

/-- The checks that an entry makes are met. -/
def Accepted (sys : System Double) : Entry Double → Prop
  | .configFile file =>
    ∃ j ∈ file, Readable j ∧ ∃ wallet, j.lookup "wallet" = some (.str wallet) ∧ wallet ≠ ""
  | .page form => sys.page.mining = false ∧ walletError (trim form.wallet) = none ∧
      sys.nativeLibraryLoaded = true ∧ sys.g_mining = false
  | .serviceConfig _ => sys.g_mining = false

def ThreadsFit : Entry Double → Int → Prop
  | .page _, threads => threads ≠ 0
  | .configFile _, threads | .serviceConfig _, threads => 0 ≤ threads ∧ threads < 2 ^ 32

structure Fits (entry : Entry Double) : Prop where
  port : ∀ port, GivesPort entry port → PortValid port
  threads : ∀ threads, GivesThreads entry threads → ThreadsFit entry threads

theorem uint16_exact {n : Int} (low : 0 ≤ n) (high : n < 2 ^ 16) :
    ((UInt16.ofInt n).toNat : Int) = n := by
  rw [UInt16.ofInt, Int.emod_eq_of_lt low high, UInt16.toNat_ofNat']
  omega

theorem uint32_exact {n : Int} (low : 0 ≤ n) (high : n < 2 ^ 32) :
    ((UInt32.ofInt n).toNat : Int) = n := by
  rw [UInt32.ofInt, Int.emod_eq_of_lt low high, UInt32.toNat_ofNat']
  omega

theorem uint64_exact {n : Int} (low : 0 ≤ n) (high : n < 2 ^ 64) :
    ((UInt64.ofInt n).toNat : Int) = n := by
  rw [UInt64.ofInt, Int.emod_eq_of_lt low high, UInt64.toNat_ofNat']
  omega

theorem scan_unsigned (doubles : Doubles Double) {n : Int} (low : 0 ≤ n) (high : n < 2 ^ 64) :
    Number.scan doubles n = .unsigned (UInt64.ofInt n) := if_pos ⟨low, high⟩

theorem scan_toInt32 (doubles : Doubles Double) {n : Int} (low : 0 ≤ n) (high : n < 2 ^ 31) :
    ((Number.scan doubles n).toInt32 doubles).toInt = n := by
  rw [scan_unsigned doubles low (by omega), Number.toInt32, uint64_exact low (by omega)]
  exact Int32.toInt_ofInt_of_le (by omega) high

theorem scan_toUInt32 (doubles : Doubles Double) {n : Int} (low : 0 ≤ n) (high : n < 2 ^ 32) :
    (((Number.scan doubles n).toUInt32 doubles).toNat : Int) = n := by
  rw [scan_unsigned doubles low (by omega), Number.toUInt32, uint64_exact low (by omega)]
  exact uint32_exact low high

/-- A member is read exactly when it is missing or of a kind that `get` reads. -/
theorem value_isSome_iff {α : Type} {get : Json Double → Option α} {kind : Json Double → Prop}
    (reads : ∀ v, (∃ a, get v = some a) ↔ kind v) {j : Members Double} {key : String}
    {default : α} :
    (∃ a, value get j key default = some a) ↔ ∀ v, j.lookup key = some v → kind v := by
  rw [value]
  cases j.lookup key with
  | none => simp
  | some v => simp [reads v]

theorem string_iff {j : Members Double} {key : String} (default : String) :
    (∃ text, value Json.getString j key default = some text) ↔
      ∀ v, j.lookup key = some v → ∃ text, v = .str text := by
  apply value_isSome_iff
  intro v
  cases v <;> simp [Json.getString]

theorem bool_iff {j : Members Double} {key : String} (default : Bool) :
    (∃ b, value Json.getBool j key default = some b) ↔
      ∀ v, j.lookup key = some v → ∃ b, v = .bool b := by
  apply value_isSome_iff
  intro v
  cases v <;> simp [Json.getBool]

theorem int_iff (doubles : Doubles Double) {j : Members Double} {key : String} (default : Int32) :
    (∃ n, value (Json.getInt doubles) j key default = some n) ↔
      ∀ v, j.lookup key = some v → v.IsNumeric := by
  apply value_isSome_iff
  intro v
  cases v <;> simp [Json.getInt, Json.IsNumeric]

theorem unsigned_iff (doubles : Doubles Double) {j : Members Double} {key : String}
    (default : UInt32) :
    (∃ n, value (Json.getUnsigned doubles) j key default = some n) ↔
      ∀ v, j.lookup key = some v → v.IsNumeric := by
  apply value_isSome_iff
  intro v
  cases v <;> simp [Json.getUnsigned, Json.IsNumeric]

/-- What the loaded configuration has of the members that matter here. -/
structure Loaded (doubles : Doubles Double) (hardware_concurrency : UInt32) (j : Members Double)
    (config : NativeConfig) : Prop where
  readable : Readable j
  port : ∃ port, value (Json.getInt doubles) j "pool_port" 3333 = some port ∧
    config.pool_port = UInt16.ofInt port.toInt
  threads : value (Json.getUnsigned doubles) j "threads" hardware_concurrency =
    some config.num_threads
  wallet : value Json.getString j "wallet" "" = some config.wallet

theorem loaded_of_load_config {doubles : Doubles Double} {hardware_concurrency : UInt32}
    {j : Members Double} {config : NativeConfig}
    (load : load_config doubles hardware_concurrency (some j) = some config) :
    Loaded doubles hardware_concurrency j config := by
  rw [load_config, Option.bind_eq_bind, Option.bind_some] at load
  obtain ⟨pool_host, host, load⟩ := Option.bind_eq_some_iff.mp load
  obtain ⟨port, hport, load⟩ := Option.bind_eq_some_iff.mp load
  obtain ⟨wallet, hwallet, load⟩ := Option.bind_eq_some_iff.mp load
  obtain ⟨worker, hworker, load⟩ := Option.bind_eq_some_iff.mp load
  obtain ⟨password, hpassword, load⟩ := Option.bind_eq_some_iff.mp load
  obtain ⟨use_ssl, ssl, load⟩ := Option.bind_eq_some_iff.mp load
  obtain ⟨num_threads, threads, load⟩ := Option.bind_eq_some_iff.mp load
  obtain ⟨init_threads, init, load⟩ := Option.bind_eq_some_iff.mp load
  obtain ⟨huge_pages, huge, load⟩ := Option.bind_eq_some_iff.mp load
  obtain ⟨numa_aware, numa, load⟩ := Option.bind_eq_some_iff.mp load
  obtain ⟨scratchpad_size, scratchpad, load⟩ := Option.bind_eq_some_iff.mp load
  obtain rfl := Option.some.inj load
  refine ⟨⟨?_, ?_, ?_⟩, ⟨port, hport, rfl⟩, threads, hwallet⟩
  · simp only [List.forall_mem_cons]
    exact ⟨(string_iff _).mp ⟨_, host⟩, (string_iff _).mp ⟨_, hwallet⟩,
      (string_iff _).mp ⟨_, hworker⟩, (string_iff _).mp ⟨_, hpassword⟩,
      fun _ hkey => (nomatch hkey)⟩
  · simp only [List.forall_mem_cons]
    exact ⟨(bool_iff _).mp ⟨_, ssl⟩, (bool_iff _).mp ⟨_, huge⟩, (bool_iff _).mp ⟨_, numa⟩,
      fun _ hkey => (nomatch hkey)⟩
  · simp only [List.forall_mem_cons]
    exact ⟨(int_iff _ _).mp ⟨_, hport⟩, (unsigned_iff _ _).mp ⟨_, threads⟩,
      (int_iff _ _).mp ⟨_, init⟩, (int_iff _ _).mp ⟨_, scratchpad⟩, fun _ hkey => (nomatch hkey)⟩

theorem load_config_of_readable (doubles : Doubles Double) (hardware_concurrency : UInt32)
    {j : Members Double} (readable : Readable j) :
    ∃ config, load_config doubles hardware_concurrency (some j) = some config := by
  obtain ⟨strings, flags, numbers⟩ := readable
  simp only [List.forall_mem_cons] at strings flags numbers
  obtain ⟨host, wallet, worker, password, -⟩ := strings
  obtain ⟨ssl, huge, numa, -⟩ := flags
  obtain ⟨port, threads, init, scratchpad, -⟩ := numbers
  obtain ⟨_, host⟩ := (string_iff "pool.supportxmr.com").mpr host
  obtain ⟨_, port⟩ := (int_iff doubles 3333).mpr port
  obtain ⟨_, wallet⟩ := (string_iff "").mpr wallet
  obtain ⟨_, worker⟩ := (string_iff "worker1").mpr worker
  obtain ⟨_, password⟩ := (string_iff "x").mpr password
  obtain ⟨_, ssl⟩ := (bool_iff false).mpr ssl
  obtain ⟨_, threads⟩ := (unsigned_iff doubles hardware_concurrency).mpr threads
  obtain ⟨_, init⟩ := (int_iff doubles 2).mpr init
  obtain ⟨_, huge⟩ := (bool_iff true).mpr huge
  obtain ⟨_, numa⟩ := (bool_iff false).mpr numa
  obtain ⟨_, scratchpad⟩ := (int_iff doubles 0).mpr scratchpad
  simp only [load_config, Option.bind_eq_bind, Option.bind_some, host, port, wallet, worker,
    password, ssl, threads, init, huge, numa, scratchpad]
  exact ⟨_, rfl⟩

theorem getString_eq_some {v : Json Double} {text : String} :
    v.getString = some text ↔ v = .str text := by
  cases v <;> simp [Json.getString]

theorem main_iff {doubles : Doubles Double} {hardware_concurrency : UInt32}
    {file : Option (Members Double)} {config : NativeConfig} :
    main doubles hardware_concurrency file = some config ↔
      load_config doubles hardware_concurrency file = some config ∧ config.wallet ≠ "" := by
  rw [main, Option.filter_eq_some_iff, decide_eq_true_eq]

theorem constructed_page_iff {sys : System Double} {form : Form} {config : NativeConfig} :
    constructed sys (.page form) = some config ↔
      Accepted sys (.page form) ∧
        activityConfig (request form).host (sys.webView.toJavaInt (request form).port)
          (request form).wallet (request form).worker
          (sys.webView.toJavaInt (request form).threads) = config := by
  simp only [constructed, Accepted, Page.asks, MainActivity_nativeStartMining]
  cases sys.page.mining with
  | true => simp
  | false =>
    by_cases named : walletError (trim form.wallet) = none
    · cases sys.nativeLibraryLoaded with
      | false => simp
      | true => cases sys.g_mining <;> simp [named]
    · simp [named]

theorem constructed_service_iff {sys : System Double} {service : MinerConfig}
    {config : NativeConfig} :
    constructed sys (.serviceConfig service) = some config ↔
      Accepted sys (.serviceConfig service) ∧ createMinerConfig service = config := by
  simp only [constructed, Accepted, MinerService_nativeStartMining]
  cases sys.g_mining <;> simp

/-- A miner is constructed exactly when the entry's checks are met. -/
theorem constructed_isSome_iff (sys : System Double) (entry : Entry Double) :
    (∃ config, constructed sys entry = some config) ↔ Accepted sys entry := by
  cases entry with
  | configFile file =>
    simp only [constructed, main_iff]
    constructor
    · rintro ⟨config, load, named⟩
      cases file with
      | none => cases load
      | some j =>
        have loaded := loaded_of_load_config load
        refine ⟨j, rfl, loaded.readable, config.wallet, ?_, named⟩
        have wallet := loaded.wallet
        rw [value] at wallet
        split at wallet
        · rename_i v hv
          rw [hv, getString_eq_some.mp wallet]
        · exact absurd (Option.some.inj wallet).symm named
    · rintro ⟨j, rfl, readable, wallet, hwallet, named⟩
      obtain ⟨config, load⟩ := load_config_of_readable sys.doubles sys.hardware_concurrency readable
      refine ⟨config, load, ?_⟩
      have read := (loaded_of_load_config load).wallet
      simp only [value, hwallet, Json.getString, Option.some.injEq] at read
      exact read ▸ named
  | page form => simp only [constructed_page_iff, exists_and_left, exists_eq', and_true]
  | serviceConfig service =>
    simp only [constructed_service_iff, exists_and_left, exists_eq', and_true]

/-- A port that is given and valid arrives in the configuration. -/
theorem port_exact {sys : System Double} {entry : Entry Double} {config : NativeConfig}
    (made : constructed sys entry = some config) {port : Int} (given : GivesPort entry port)
    (valid : PortValid port) : (config.pool_port.toNat : Int) = port := by
  obtain ⟨low, high⟩ := valid
  cases entry with
  | configFile file =>
    obtain ⟨j, rfl, member⟩ := given
    obtain ⟨read, hread, hport⟩ := (loaded_of_load_config (main_iff.mp made).1).port
    simp only [value, member, Json.getInt, Option.some.injEq] at hread
    rw [hport, ← hread, scan_toInt32 _ (by omega) (by omega)]
    exact uint16_exact (by omega) (by omega)
  | page form =>
    obtain ⟨-, rfl⟩ := constructed_page_iff.mp made
    have asked : (request form).port = port := by
      have written : form.poolPort = toString port := given
      simp only [request, written, parseInt_toString]
      exact orElse_some (by omega) _
    simp only [activityConfig, asked]
    rw [sys.webView.exact _ (by omega) (by omega)]
    exact uint16_exact (by omega) (by omega)
  | serviceConfig service =>
    obtain ⟨-, rfl⟩ := constructed_service_iff.mp made
    have named : service.poolPort = port := given
    simp only [createMinerConfig, named]
    exact uint16_exact (by omega) (by omega)

/-- What is made of the threads that are given is what is asked for exactly when they fit. -/
theorem threads_exact_iff {sys : System Double} {entry : Entry Double} {config : NativeConfig}
    (made : constructed sys entry = some config) {threads : Int}
    (given : GivesThreads entry threads) :
    (config.num_threads.toNat : Int) = threadsFor entry threads ↔ ThreadsFit entry threads := by
  cases entry with
  | configFile file =>
    obtain ⟨j, rfl, member⟩ := given
    have read := (loaded_of_load_config (main_iff.mp made).1).threads
    simp only [value, member, Json.getUnsigned, Option.some.injEq] at read
    have bound := config.num_threads.toNat_lt
    constructor
    · intro same
      simp only [threadsFor] at same
      exact ⟨by omega, by omega⟩
    · rintro ⟨low, high⟩
      rw [← read]
      exact scan_toUInt32 _ low high
  | page form =>
    obtain ⟨-, rfl⟩ := constructed_page_iff.mp made
    have written : form.threads = toString threads := given
    have asked : (request form).threads = max 1 (min 8 (orElse (some threads) 2)) := by
      simp only [request, written, parseInt_toString]
    simp only [activityConfig, threadsFor, ThreadsFit]
    rw [sys.webView.exact _ (by omega) (by omega), uint32_exact (by omega) (by omega), asked]
    by_cases zero : threads = 0
    · subst zero
      exact iff_of_false (by decide) fun fit => fit rfl
    · rw [orElse_some zero]
      exact iff_of_true rfl zero
  | serviceConfig service =>
    obtain ⟨-, rfl⟩ := constructed_service_iff.mp made
    have named : service.threads = threads := given
    simp only [createMinerConfig, threadsFor, ThreadsFit, named]
    constructor
    · intro same
      have bound := (UInt32.ofInt threads).toNat_lt
      exact ⟨by omega, by omega⟩
    · rintro ⟨low, high⟩
      exact uint32_exact low high

/-- Each entry uses the numbers as given exactly when those that its checks let through fit. -/
theorem usedAsGiven_iff (sys : System Double) (entry : Entry Double) :
    UsedAsGiven sys entry ↔ (Accepted sys entry → Fits entry) := by
  constructor
  · intro used accepted
    obtain ⟨config, made⟩ := (constructed_isSome_iff sys entry).mpr accepted
    have asGiven := used config made
    constructor
    · exact fun port given => (asGiven.port port given).2
    · exact fun threads given => (threads_exact_iff made given).mp (asGiven.threads threads given)
  · intro fits config made
    obtain ⟨port, threads⟩ := fits ((constructed_isSome_iff sys entry).mp ⟨config, made⟩)
    constructor
    · exact fun n given => ⟨port_exact made given (port n given), port n given⟩
    · exact fun n given => (threads_exact_iff made given).mpr (threads n given)

/-- Doubles that keep every integer. -/
def exactDoubles : Doubles Int := ⟨id, Int32.ofInt, UInt32.ofInt⟩

def webView : WebView := ⟨Int32.ofInt, fun _ low high => Int32.toInt_ofInt_of_le low high⟩

def idle : System Int := ⟨exactDoubles, 8, webView, Page.loaded, true, false⟩

/-- A port beyond 2^16 in the configuration file. -/
def portTooLarge : Entry Int :=
  .configFile (some [("wallet", .str "4"), ("pool_port", .integer 70000), ("threads", .integer 2)])

/-- The miner is constructed with the port 4464. -/
theorem usedAsGiven_fails_portTooLarge :
    (constructed idle portTooLarge).map (·.pool_port) = some 4464 ∧
      ¬UsedAsGiven idle portTooLarge := by
  have port : (constructed idle portTooLarge).map (·.pool_port) = some 4464 := by decide
  refine ⟨port, fun used => ?_⟩
  obtain ⟨config, made, -⟩ := Option.map_eq_some_iff.mp port
  have given : GivesPort portTooLarge 70000 := ⟨_, rfl, rfl⟩
  exact absurd ((used config made).port 70000 given).2.2 (by decide)

end NumericSettings
