import MoneroRandomXMiner.JobNotification
import Mathlib.Algebra.BigOperators.Fin
import Mathlib.Data.Nat.ModEq

/-!
# The count of hashes

Each worker counts its hashes in a local counter and adds it to the shared total
at the end of a batch, whichever way the batch ends. Total and local counters
together are the number of hash calls, up to the wrap-around of 64-bit words.
-/

namespace HashAccounting

open Histories HexText MiningBlob MinerMachine JobNotification

variable {n : Nat} {calculateHash : Nat → List UInt8 → Hash}

/-- All workers are in the main loop, and nothing has been counted. -/
structure Fresh (s : State n) : Prop where
  underway : Underway s
  total : s.shared.totalHashes = 0
  locals : ∀ t, (s.workers t).localHashCount = 0

/-- The calls of `randomx_calculate_hash` made so far. -/
def hashCalls (calculateHash : Nat → List UInt8 → Hash) (h : List (State n × Event n)) : Nat :=
  h.countP fun m => (hashCall calculateHash m.1 m.2).isSome

/-- `m_total_hashes` and the local counters of all workers. -/
def counted (s : State n) : Nat :=
  s.shared.totalHashes.toNat + ∑ t, (s.workers t).localHashCount.toNat

/-- Between the choice of a handle and the flush, where a local counter may not be
zero. -/
def Accumulates : Pc → Prop
  | .check | .clearSeen | .hashing | .submit | .flush => True
  | _ => False

structure Accounted (calculateHash : Nat → List UInt8 → Hash) (h : List (State n × Event n))
    (s : State n) : Prop where
  idle : ∀ t, ¬Accumulates (s.workers t).pc → (s.workers t).localHashCount = 0
  balance : counted s ≡ hashCalls calculateHash h [MOD 2 ^ 64]

theorem toNat_add_modEq (a b : UInt64) : (a + b).toNat ≡ a.toNat + b.toNat [MOD 2 ^ 64] := by
  rw [UInt64.toNat_add]
  exact Nat.mod_modEq _ _

/-- The total changes at the flush, the local counter there, at the hash call and
at the entry to the main loop. -/
theorem workerNext_counters {t : Nat} {env : Env} {g : Shared} {w : Worker} :
    (w.pc ≠ .flush → (workerNext calculateHash n t env g w).1.totalHashes = g.totalHashes) ∧
      (w.pc ≠ .flush → w.pc ≠ .hashing → w.pc ≠ .firstVm →
        (workerNext calculateHash n t env g w).2.localHashCount = w.localHashCount) := by
  cases hpc : w.pc with
  | firstVm => cases hv : g.rx.vms[t]? <;> simp [workerNext, hpc, hv]
  | fetchVm => cases hv : g.rx.vms[t]? <;> simp [workerNext, hpc, hv, beginBatch]
  | takeJob =>
    simp only [workerNext, hpc, chooseJob, beginBatch]
    split <;> try split
    all_goals simp
  | _ => simp [workerNext, hpc, nextIteration]

theorem workerNext_flush {t : Nat} {env : Env} {g : Shared} {w : Worker} (hpc : w.pc = .flush) :
    (workerNext calculateHash n t env g w).1.totalHashes = g.totalHashes + w.localHashCount ∧
      (workerNext calculateHash n t env g w).2.localHashCount = 0 := by
  simp [workerNext, hpc]

/-- The counter is zero before the entry to the main loop, and so it stays. -/
theorem workerNext_firstVm {t : Nat} {env : Env} {g : Shared} {w : Worker} (hpc : w.pc = .firstVm)
    (zero : w.localHashCount = 0) :
    (workerNext calculateHash n t env g w).2.localHashCount = 0 := by
  cases hv : g.rx.vms[t]? <;> simp [workerNext, hpc, hv, enterMainLoop, zero]

/-- A worker outside its batch has flushed its counter. -/
theorem workerNext_idle {t : Nat} {env : Env} {g : Shared} {w : Worker}
    (idle : ¬Accumulates w.pc → w.localHashCount = 0)
    (outside : ¬Accumulates (workerNext calculateHash n t env g w).2.pc) :
    (workerNext calculateHash n t env g w).2.localHashCount = 0 := by
  have flow : ∀ p : Pc, ∀ q ∈ p.successors, ¬Accumulates q → p = .flush ∨ ¬Accumulates p := by
    intro p
    cases p <;> simp [Pc.successors, Accumulates]
  rcases flow w.pc _ (workerNext_pc t env g w) outside with hpc | before
  · exact (workerNext_flush hpc).2
  · have zero := idle before
    by_cases first : w.pc = .firstVm
    · exact workerNext_firstVm first zero
    · rw [workerNext_counters.2 ?_ ?_ first, zero]
      · intro hpc
        simp [hpc, Accumulates] at before
      · intro hpc
        simp [hpc, Accumulates] at before

/-- The hash call comes with the increment; a blob error has neither. -/
theorem hashOnce_counts {s : State n} {t : Fin n} (env : Env) (hpc : (s.workers t).pc = .hashing) :
    (hashOnce calculateHash (s.workers t)).localHashCount.toNat ≡
      (s.workers t).localHashCount.toNat +
        (if (hashCall calculateHash s (.work t env)).isSome then 1 else 0) [MOD 2 ^ 64] := by
  cases built : constructMiningBlob (s.workers t).job.blob (s.workers t).nonce with
  | error text =>
    simp only [hashOnce, built, hashCall, hpc, if_true]
    exact Nat.ModEq.refl _
  | ok input =>
    have grown : (hashOnce calculateHash (s.workers t)).localHashCount =
        (s.workers t).localHashCount + 1 := by
      simp only [hashOnce, built, nextIteration]
      split <;> rfl
    rw [grown]
    simp only [hashCall, hpc, built, if_true, Option.isSome_some]
    exact toNat_add_modEq (s.workers t).localHashCount 1

theorem hashCall_none {s : State n} {t : Fin n} (env : Env) (hpc : (s.workers t).pc ≠ .hashing) :
    hashCall calculateHash s (.work t env) = none := by
  simp only [hashCall, if_neg hpc]

/-- One step keeps the balance of the stepping worker and the total. -/
theorem workerNext_balance {s : State n} {t : Fin n} (env : Env)
    (idle : ¬Accumulates (s.workers t).pc → (s.workers t).localHashCount = 0) :
    (workerNext calculateHash n t env s.shared (s.workers t)).1.totalHashes.toNat +
        (workerNext calculateHash n t env s.shared (s.workers t)).2.localHashCount.toNat ≡
      s.shared.totalHashes.toNat + (s.workers t).localHashCount.toNat +
        (if (hashCall calculateHash s (.work t env)).isSome then 1 else 0) [MOD 2 ^ 64] := by
  by_cases hashing : (s.workers t).pc = .hashing
  · have step : workerNext calculateHash n t env s.shared (s.workers t) =
        (s.shared, hashOnce calculateHash (s.workers t)) := by
      simp only [workerNext, hashing]
    rw [step, Nat.add_assoc]
    exact (hashOnce_counts env hashing).add_left _
  · rw [hashCall_none env hashing]
    by_cases flush : (s.workers t).pc = .flush
    · rw [(workerNext_flush flush).1, (workerNext_flush flush).2]
      simpa using toNat_add_modEq s.shared.totalHashes (s.workers t).localHashCount
    · rw [workerNext_counters.1 flush]
      by_cases first : (s.workers t).pc = .firstVm
      · have zero := idle (by simp [first, Accumulates])
        rw [workerNext_firstVm first zero, zero]
        exact Nat.ModEq.refl _
      · rw [workerNext_counters.2 flush hashing first]
        exact Nat.ModEq.refl _

theorem sum_update (f : Worker → Nat) (ws : Fin n → Worker) (t : Fin n) (w : Worker) :
    ∑ u, f (Function.update ws t w u) + f (ws t) = ∑ u, f (ws u) + f w := by
  have mem := Finset.mem_univ t
  rw [← Finset.add_sum_erase Finset.univ (fun u => f (Function.update ws t w u)) mem,
    ← Finset.add_sum_erase Finset.univ (fun u => f (ws u)) mem]
  have others : ∑ u ∈ Finset.univ.erase t, f (Function.update ws t w u) =
      ∑ u ∈ Finset.univ.erase t, f (ws u) := by
    apply Finset.sum_congr rfl
    intro u mem
    rw [Function.update_of_ne (Finset.ne_of_mem_erase mem)]
  rw [others, Function.update_self]
  ring

theorem counted_work (s : State n) (t : Fin n) (env : Env)
    (idle : ¬Accumulates (s.workers t).pc → (s.workers t).localHashCount = 0) :
    counted (next calculateHash s (.work t env)) ≡
      counted s + (if (hashCall calculateHash s (.work t env)).isSome then 1 else 0)
        [MOD 2 ^ 64] := by
  obtain ⟨r, hr⟩ : ∃ r, r = workerNext calculateHash n t env s.shared (s.workers t) := ⟨_, rfl⟩
  obtain ⟨made, hmade⟩ : ∃ made : Nat,
    made = if (hashCall calculateHash s (.work t env)).isSome then 1 else 0 := ⟨_, rfl⟩
  have step := @workerNext_balance n calculateHash s t env idle
  have sums := sum_update (fun w => w.localHashCount.toNat) s.workers t r.2
  have after : counted (next calculateHash s (.work t env)) =
      r.1.totalHashes.toNat + ∑ u, (Function.update s.workers t r.2 u).localHashCount.toNat := by
    rw [hr]
    rfl
  rw [← hr, ← hmade] at step
  rw [← hmade, after, counted]
  -- the other workers' counters stand on both sides
  refine Nat.ModEq.add_right_cancel' (s.workers t).localHashCount.toNat ?_
  calc r.1.totalHashes.toNat + ∑ u, (Function.update s.workers t r.2 u).localHashCount.toNat +
        (s.workers t).localHashCount.toNat
      = r.1.totalHashes.toNat + r.2.localHashCount.toNat +
        ∑ u, (s.workers u).localHashCount.toNat := by omega
    _ ≡ s.shared.totalHashes.toNat + (s.workers t).localHashCount.toNat + made +
        ∑ u, (s.workers u).localHashCount.toNat [MOD 2 ^ 64] := step.add_right _
    _ = s.shared.totalHashes.toNat + ∑ u, (s.workers u).localHashCount.toNat + made +
        (s.workers t).localHashCount.toNat := by omega

/-- Joined workers have flushed their counters. -/
theorem Accounted.locals_of_stopped {h : List (State n × Event n)} {s : State n}
    (accounted : Accounted calculateHash h s)
    (stopped : ∀ t, (s.workers t).pc = .absent ∨ (s.workers t).pc = .returned) (t : Fin n) :
    (s.workers t).localHashCount = 0 := by
  apply accounted.idle t
  rcases stopped t with hpc | hpc <;> simp [hpc, Accumulates]

theorem Accounted.total_of_stopped {h : List (State n × Event n)} {s : State n}
    (accounted : Accounted calculateHash h s)
    (stopped : ∀ t, (s.workers t).pc = .absent ∨ (s.workers t).pc = .returned) :
    s.shared.totalHashes.toNat = hashCalls calculateHash h % 2 ^ 64 := by
  have zero : ∑ t, (s.workers t).localHashCount.toNat = 0 := by
    apply Finset.sum_eq_zero
    intro t _
    rw [accounted.locals_of_stopped stopped t]
    rfl
  have balance := accounted.balance
  rw [counted, zero, Nat.add_zero] at balance
  rw [← Nat.mod_eq_of_lt s.shared.totalHashes.toNat_lt]
  exact balance

theorem accounted_step {h : List (State n × Event n)} {s : State n} {e : Event n}
    (accounted : Accounted calculateHash h s) (enabled : Enabled s e) :
    Accounted calculateHash ((s, e) :: h) (next calculateHash s e) := by
  have uncounted : hashCall calculateHash s e = none →
      hashCalls calculateHash ((s, e) :: h) = hashCalls calculateHash h := by
    intro none
    simp [hashCalls, none]
  cases e with
  | work t env =>
    constructor
    · exact workers_work (P := fun _ w => ¬Accumulates w.pc → w.localHashCount = 0)
        (workerNext_idle (accounted.idle t)) fun u _ => accounted.idle u
    · refine (counted_work s t env (accounted.idle t)).trans ?_
      rw [hashCalls, List.countP_cons, ← hashCalls]
      exact accounted.balance.add_right _
  | joinThreads =>
    constructor
    · exact fun _ _ => rfl
    · have same : counted (next calculateHash s .joinThreads) = counted s := by
        simp only [counted, accounted.locals_of_stopped enabled.2]
        rfl
      rw [same, uncounted rfl]
      exact accounted.balance
  | startMining =>
    constructor
    · exact fun _ _ => rfl
    · have same : counted (next calculateHash s .startMining) = counted s := by
        simp only [counted, accounted.locals_of_stopped fun t => Or.inl (enabled t)]
        rfl
      rw [same, uncounted rfl]
      exact accounted.balance
  | initializeMiner connected =>
    exact ⟨accounted.idle, (uncounted rfl).symm ▸ accounted.balance⟩
  | stopMining => exact ⟨accounted.idle, (uncounted rfl).symm ▸ accounted.balance⟩
  | storeJob job => exact ⟨accounted.idle, (uncounted rfl).symm ▸ accounted.balance⟩
  | raiseNewJob => exact ⟨accounted.idle, (uncounted rfl).symm ▸ accounted.balance⟩

theorem counters_run {h : List (State n × Event n)} {s : State n}
    (run : Run (machine calculateHash n) Fresh h s) : Accounted calculateHash h s := by
  apply run.invariant (P := fun h s => Accounted calculateHash h s)
  · intro s fresh
    refine ⟨fun t _ => fresh.locals t, ?_⟩
    simp [counted, fresh.total, fresh.locals, hashCalls, Nat.ModEq]
  · exact fun _ _ _ before enabled => accounted_step before enabled

/-- Total and local counters are the number of hash calls modulo 2^64, and without
workers the total alone is. -/
theorem hashes_counted {h : List (State n × Event n)} {s : State n}
    (run : Run (machine calculateHash n) Fresh h s) :
    counted s ≡ hashCalls calculateHash h [MOD 2 ^ 64] ∧
      ((∀ t, (s.workers t).pc = .absent ∨ (s.workers t).pc = .returned) →
        s.shared.totalHashes.toNat = hashCalls calculateHash h % 2 ^ 64) :=
  ⟨(counters_run run).balance, (counters_run run).total_of_stopped⟩

/-- Worker 0 makes one hash call and submits its share, a new job ends its batch,
and both workers are stopped and joined. -/
def oneHash : List (Event 2) :=
  List.replicate 7 (.work worker0 idle) ++
    [.storeJob (sampleJob (lit "2") (lit "aa")), .raiseNewJob] ++
    List.replicate 3 (.work worker0 idle) ++
    [.stopMining, .work worker0 idle, .work worker1 idle, .joinThreads]

def oneHashRun : List (State 2 × Event 2) × State 2 :=
  replay (machine zeroHash 2) oneHash ([], readyState)

theorem fresh_readyState : Fresh readyState :=
  ⟨underway_readyState, rfl, fun _ => rfl⟩

theorem oneHash_run : Run (machine zeroHash 2) Fresh oneHashRun.1 oneHashRun.2 :=
  replay_run (.init fresh_readyState) _ (by decide +kernel)

theorem hashes_counted_oneHash :
    counted oneHashRun.2 ≡ hashCalls zeroHash oneHashRun.1 [MOD 2 ^ 64] ∧
      ((∀ t, (oneHashRun.2.workers t).pc = .absent ∨ (oneHashRun.2.workers t).pc = .returned) →
        oneHashRun.2.shared.totalHashes.toNat = hashCalls zeroHash oneHashRun.1 % 2 ^ 64) :=
  hashes_counted oneHash_run

end HashAccounting
