import Mathlib.Data.List.Basic
import Mathlib.Data.List.Induction
import Mathlib.Tactic.Ring

/-!
# Worker configurations

`configure_workers` takes the worker's number modulo what
`std::thread::hardware_concurrency()` returns. The standard allows zero, and a
remainder by zero is undefined; it ends the run of calls here.
-/

namespace WorkerPool

structure WorkerConfig where
  threadId : UInt32
  cpuAffinity : UInt32
  useNuma : Bool
  numaNode : UInt32
  deriving DecidableEq

structure Pool where
  numWorkers : UInt32
  workerConfigs : List WorkerConfig
  deriving DecidableEq

/-- A call of `configure_workers`, and the number of CPUs reported to it. -/
structure Call where
  hardwareConcurrency : UInt32
  numaAware : Bool
  setAffinity : Bool
  deriving DecidableEq

/-- `a % b` -/
def remainder (a b : UInt32) : Option UInt32 := if b = 0 then none else some (a % b)

/-- `{i, i % std::thread::hardware_concurrency(), numa, numa ? i % 2 : 0u}` -/
def workerConfig (c : Call) (i : UInt32) : Option WorkerConfig :=
  (remainder i c.hardwareConcurrency).map fun affinity =>
    ⟨i, affinity, c.numaAware, if c.numaAware then i % 2 else 0⟩

/-- `left` more turns of the loop, from `i` on. -/
def pushFrom (c : Call) (i : UInt32) : Nat → List WorkerConfig → Option (List WorkerConfig)
  | 0, configs => some configs
  | left + 1, configs =>
    (workerConfig c i).bind fun config => pushFrom c (i + 1) left (configs ++ [config])

def configureWorkers (c : Call) (pool : Pool) : Option Pool :=
  (pushFrom c 0 pool.numWorkers.toNat []).map fun configs => { pool with workerConfigs := configs }

/-- The pool of `n` workers after a sequence of calls. -/
def after (n : UInt32) (calls : List Call) : Option Pool :=
  calls.foldl (fun pool c => pool.bind (configureWorkers c)) (some ⟨n, []⟩)

/-- What `get_worker_configs` is to return after a call. -/
structure Exact (n : UInt32) (c : Call) (configs : List WorkerConfig) : Prop where
  ids : configs.map (fun config => config.threadId.toNat) = List.range n.toNat
  affinity : ∀ config ∈ configs, config.cpuAffinity.toNat < max 1 c.hardwareConcurrency.toNat
  numa : c.numaAware = false → ∀ config ∈ configs, config.numaNode = 0
  spread : ∀ (i j : Nat) (a b : WorkerConfig), i < j → configs[i]? = some a → configs[j]? = some b →
    a.cpuAffinity = b.cpuAffinity → ∀ cpu < max 1 c.hardwareConcurrency.toNat,
      ∃ (k : Nat) (d : WorkerConfig),
        i ≤ k ∧ k < j ∧ configs[k]? = some d ∧ d.cpuAffinity.toNat = cpu

/-- No call divides by zero, and each leaves the configurations as expected. -/
def TotalAndExact (n : UInt32) (calls : List Call) : Prop :=
  ∀ before c, before ++ [c] <+: calls →
    ∃ pool, after n (before ++ [c]) = some pool ∧ Exact n c pool.workerConfigs

/-- The configuration of worker `i` where the CPUs are known. -/
def configAt (c : Call) (i : Nat) : WorkerConfig :=
  ⟨UInt32.ofNat i, UInt32.ofNat i % c.hardwareConcurrency, c.numaAware,
    if c.numaAware then UInt32.ofNat i % 2 else 0⟩

theorem workerConfig_eq {c : Call} (known : c.hardwareConcurrency ≠ 0) (i : Nat) :
    workerConfig c (UInt32.ofNat i) = some (configAt c i) := by
  rw [workerConfig, remainder, if_neg known]
  rfl

theorem workerConfig_zero {c : Call} (unknown : c.hardwareConcurrency = 0) (i : UInt32) :
    workerConfig c i = none := by
  rw [workerConfig, remainder, if_pos unknown]
  rfl

theorem pushFrom_eq {c : Call} (known : c.hardwareConcurrency ≠ 0) (left i : Nat)
    (configs : List WorkerConfig) :
    pushFrom c (UInt32.ofNat i) left configs =
      some (configs ++ (List.range' i left).map (configAt c)) := by
  induction left generalizing i configs with
  | zero => simp [pushFrom]
  | succ left ih =>
    have hnext : UInt32.ofNat i + 1 = UInt32.ofNat (i + 1) := by
      rw [UInt32.ofNat_add]
      rfl
    rw [pushFrom, workerConfig_eq known, Option.bind_some, hnext, ih, List.range'_succ,
      List.map_cons, List.append_assoc, List.singleton_append]

theorem configureWorkers_eq {c : Call} (known : c.hardwareConcurrency ≠ 0) (pool : Pool) :
    configureWorkers c pool =
      some ⟨pool.numWorkers, (List.range pool.numWorkers.toNat).map (configAt c)⟩ := by
  have pushed := pushFrom_eq known pool.numWorkers.toNat 0 []
  rw [configureWorkers, show (0 : UInt32) = UInt32.ofNat 0 from rfl, pushed, List.range_eq_range']
  rfl

/-- The loop of a pool without workers makes no turn. -/
theorem configureWorkers_none (c : Call) {pool : Pool} (none : pool.numWorkers = 0) :
    configureWorkers c pool = some ⟨0, []⟩ := by
  rw [configureWorkers, none]
  rfl

theorem configureWorkers_fault {c : Call} (unknown : c.hardwareConcurrency = 0) {pool : Pool}
    (some : pool.numWorkers ≠ 0) : configureWorkers c pool = none := by
  obtain ⟨left, hleft⟩ : ∃ left, pool.numWorkers.toNat = left + 1 := by
    refine Nat.exists_eq_succ_of_ne_zero fun hzero => some (UInt32.toNat_inj.mp ?_)
    rw [hzero]
    rfl
  rw [configureWorkers, hleft, pushFrom, workerConfig_zero unknown]
  rfl

/-- Between two equal residues every residue comes up. -/
theorem residue_between {m i j r : Nat} (later : i < j) (same : i % m = j % m) (hr : r < m) :
    ∃ k, i ≤ k ∧ k < j ∧ k % m = r := by
  have hm : 0 < m := by omega
  have hi := Nat.mod_add_div i m
  have hj := Nat.mod_add_div j m
  have hlt := Nat.mod_lt i hm
  have turns : i / m + 1 ≤ j / m := by
    by_contra! few
    have hle : m * (j / m) ≤ m * (i / m) := Nat.mul_le_mul_left m (by omega)
    omega
  have room : m * (i / m) + m ≤ m * (j / m) := by
    calc m * (i / m) + m = m * (i / m + 1) := by ring
      _ ≤ m * (j / m) := Nat.mul_le_mul_left m turns
  by_cases ahead : i % m ≤ r
  · refine ⟨r + m * (i / m), by omega, by omega, ?_⟩
    rw [Nat.add_mul_mod_self_left, Nat.mod_eq_of_lt hr]
  · refine ⟨r + m * (i / m + 1), ?_, ?_, ?_⟩
    · rw [Nat.mul_add]
      omega
    · rw [Nat.mul_add]
      omega
    · rw [Nat.add_mul_mod_self_left, Nat.mod_eq_of_lt hr]

theorem toNat_configAt {n : UInt32} {i : Nat} (c : Call) (hi : i < n.toNat) :
    (configAt c i).threadId.toNat = i ∧
      (configAt c i).cpuAffinity.toNat = i % c.hardwareConcurrency.toNat := by
  have hword : (UInt32.ofNat i).toNat = i := by
    rw [UInt32.toNat_ofNat']
    exact Nat.mod_eq_of_lt (hi.trans n.toNat_lt)
  exact ⟨hword, by rw [configAt, UInt32.toNat_mod, hword]⟩

theorem exact_configAt (n : UInt32) {c : Call} (known : c.hardwareConcurrency ≠ 0) :
    Exact n c ((List.range n.toNat).map (configAt c)) := by
  have cpus : 0 < c.hardwareConcurrency.toNat := by
    refine Nat.pos_of_ne_zero fun hzero => known (UInt32.toNat_inj.mp ?_)
    rw [hzero]
    rfl
  have most : max 1 c.hardwareConcurrency.toNat = c.hardwareConcurrency.toNat := by omega
  have entry : ∀ {i a}, ((List.range n.toNat).map (configAt c))[i]? = some a →
      i < n.toNat ∧ a = configAt c i := by
    intro i a ha
    rw [List.getElem?_map, Option.map_eq_some_iff] at ha
    obtain ⟨i', hi', rfl⟩ := ha
    obtain ⟨hlt, rfl⟩ := List.getElem?_eq_some_iff.mp hi'
    rw [List.length_range] at hlt
    exact ⟨hlt, by rw [List.getElem_range]⟩
  constructor
  · rw [List.map_map]
    refine (List.map_congr_left fun i hi => ?_).trans (List.map_id _)
    exact (toNat_configAt c (List.mem_range.mp hi)).1
  · intro config mem
    obtain ⟨i, hi, rfl⟩ := List.mem_map.mp mem
    rw [(toNat_configAt c (List.mem_range.mp hi)).2, most]
    exact Nat.mod_lt i cpus
  · intro plain config mem
    obtain ⟨i, -, rfl⟩ := List.mem_map.mp mem
    simp [configAt, plain]
  · intro i j a b later ha hb same cpu hcpu
    obtain ⟨hi, rfl⟩ := entry ha
    obtain ⟨hj, rfl⟩ := entry hb
    have residues := congrArg UInt32.toNat same
    rw [(toNat_configAt c hi).2, (toNat_configAt c hj).2] at residues
    obtain ⟨k, hik, hkj, hk⟩ := residue_between later residues (most ▸ hcpu)
    have hkn : k < n.toNat := hkj.trans hj
    refine ⟨k, configAt c k, hik, hkj, ?_, (toNat_configAt c hkn).2.trans hk⟩
    rw [List.getElem?_map, List.getElem?_range hkn]
    rfl

theorem after_concat (n : UInt32) (calls : List Call) (c : Call) :
    after n (calls ++ [c]) = (after n calls).bind (configureWorkers c) := by
  simp [after]

/-- The calls keep the number of workers. -/
theorem numWorkers_after {n : UInt32} {calls : List Call} {pool : Pool}
    (reached : after n calls = some pool) : pool.numWorkers = n := by
  induction calls using List.reverseRecOn generalizing pool with
  | nil =>
    cases reached
    rfl
  | append_singleton calls c ih =>
    rw [after_concat, Option.bind_eq_some_iff] at reached
    obtain ⟨before, hbefore, hcall⟩ := reached
    obtain ⟨configs, -, rfl⟩ := Option.map_eq_some_iff.mp hcall
    have size : before.numWorkers = n := ih hbefore
    exact size

/-- A call goes through, with the configurations as expected, when no worker is to
be configured or the CPUs are known. -/
theorem configureWorkers_exact {n : UInt32} {c : Call} {pool : Pool} (size : pool.numWorkers = n)
    (fits : n = 0 ∨ c.hardwareConcurrency ≠ 0) :
    ∃ pool', configureWorkers c pool = some pool' ∧ Exact n c pool'.workerConfigs := by
  subst size
  by_cases known : c.hardwareConcurrency ≠ 0
  · exact ⟨_, configureWorkers_eq known pool, exact_configAt pool.numWorkers known⟩
  · have none := fits.resolve_right known
    refine ⟨_, configureWorkers_none c none, ?_⟩
    rw [none]
    constructor
    · rfl
    · simp
    · simp
    · simp

/-- All calls go through with the configurations as expected exactly when there are
no workers or no call is told zero CPUs. -/
theorem totalAndExact_iff (n : UInt32) (calls : List Call) :
    TotalAndExact n calls ↔ n = 0 ∨ ∀ c ∈ calls, c.hardwareConcurrency ≠ 0 := by
  constructor
  · intro total
    by_cases none : n = 0
    · exact Or.inl none
    · refine Or.inr fun c mem unknown => ?_
      obtain ⟨before, rest, rfl⟩ := List.append_of_mem mem
      obtain ⟨pool, reached, -⟩ := total before c ⟨rest, by simp⟩
      rw [after_concat, Option.bind_eq_some_iff] at reached
      obtain ⟨pool', hbefore, hcall⟩ := reached
      have size := numWorkers_after hbefore
      rw [configureWorkers_fault unknown (size ▸ none)] at hcall
      cases hcall
  · intro fits before c initial
    have through : ∀ done, done <+: calls → ∃ pool, after n done = some pool := by
      intro done
      induction done using List.reverseRecOn with
      | nil => exact fun _ => ⟨_, rfl⟩
      | append_singleton done d ih =>
        intro within
        obtain ⟨pool, reached⟩ := ih ((List.prefix_append done [d]).trans within)
        have hd : n = 0 ∨ d.hardwareConcurrency ≠ 0 :=
          fits.imp_right fun all => all d (within.subset (by simp))
        obtain ⟨pool', hcall, -⟩ := configureWorkers_exact (numWorkers_after reached) hd
        exact ⟨pool', by rw [after_concat, reached, Option.bind_some, hcall]⟩
    obtain ⟨pool, reached⟩ := through before ((List.prefix_append before [c]).trans initial)
    have hc : n = 0 ∨ c.hardwareConcurrency ≠ 0 :=
      fits.imp_right fun all => all c (initial.subset (by simp))
    obtain ⟨pool', hcall, exact⟩ := configureWorkers_exact (numWorkers_after reached) hc
    exact ⟨pool', by rw [after_concat, reached, Option.bind_some, hcall], exact⟩

/-- One worker, and a system that does not know its CPUs. -/
theorem totalAndExact_fails_unknown : ¬TotalAndExact 1 [⟨0, false, true⟩] := by
  intro total
  obtain ⟨pool, reached, -⟩ := total [] ⟨0, false, true⟩ (List.prefix_refl _)
  have fault : after 1 ([] ++ [⟨0, false, true⟩]) = none := by decide
  rw [fault] at reached
  cases reached

end WorkerPool
