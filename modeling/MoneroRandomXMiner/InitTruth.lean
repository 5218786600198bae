import MoneroRandomXMiner.Histories
import MoneroRandomXMiner.RandomXInit

/-!
# What a true result of `initialize_randomx` says

The early return trusts `m_current_seed_hash`, which only a complete rebuild
writes. A rebuild that fails has already torn down what that seed hash stands
for, so the same seed asked for again is answered with true and nothing built.
The result is true to the facts exactly when every early return is backed by a
complete rebuild that no failed one has followed.
-/

namespace InitTruth

open Histories HexText RandomXInit

/-- A call of `initialize_randomx` with the outcomes of its allocations. -/
structure Call where
  seedHash : Text
  alloc : AllocOutcome

def next (numThreads : Nat) (r : Rx) (call : Call) : Rx :=
  (initializeRandomx numThreads call.alloc call.seedHash r).2

def machine (numThreads : Nat) : Machine Rx Call where
  Enabled := fun _ _ => True
  next := next numThreads

/-- The RandomX members of an object after its constructor. -/
def Constructed (r : Rx) : Prop := r = Rx.initial

/-- After every call that returns true, what the call asked for is built. -/
def TellsTruth (numThreads : Nat) (h : List (Rx × Call)) : Prop :=
  ∀ older r call, Moment h older r call →
    (initializeRandomx numThreads call.alloc call.seedHash r).1 = true →
    (next numThreads r call).Built numThreads (seedBytes call.seedHash)

def ReturnsEarly (r : Rx) (call : Call) : Prop := call.seedHash = r.currentSeedHash

instance (r : Rx) (call : Call) : Decidable (ReturnsEarly r call) :=
  inferInstanceAs (Decidable (_ = _))

/-- Going back, there are only early returns up to a complete rebuild. -/
def Backed (numThreads : Nat) : List (Rx × Call) → Prop :=
  Since (fun m _ => ReturnsEarly m.1 m.2)
    (fun m _ => ¬ ReturnsEarly m.1 m.2 ∧ m.2.alloc.AllSucceed numThreads)

def EarlyReturnsBacked (numThreads : Nat) (h : List (Rx × Call)) : Prop :=
  ∀ older r call, Moment h older r call → ReturnsEarly r call → Backed numThreads older

variable {numThreads : Nat}

/-- What the object holds for the seed hash it remembers. -/
structure Tracked (numThreads : Nat) (h : List (Rx × Call)) (r : Rx) : Prop where
  fresh : r.heap.Fresh
  built_iff : r.Built numThreads (seedBytes r.currentSeedHash) ↔ Backed numThreads h

theorem tracked_constructed {r : Rx} (constructed : Constructed r) : Tracked numThreads [] r := by
  subst constructed
  refine ⟨fun _ _ => rfl, ?_⟩
  constructor
  · rintro ⟨c, d, ⟨hc, _⟩, _⟩
    cases hc
  · exact fun backed => absurd backed (since_nil _ _)

theorem Tracked.step {h : List (Rx × Call)} {r : Rx} {call : Call}
    (tracked : Tracked numThreads h r) :
    Tracked numThreads ((r, call) :: h) (next numThreads r call) := by
  by_cases early : ReturnsEarly r call
  · rw [next, initializeRandomx_early early]
    refine ⟨tracked.fresh, tracked.built_iff.trans ?_⟩
    exact (since_cons_of_hold early (fun hm => hm.1 early)).symm
  · by_cases all : call.alloc.AllSucceed numThreads
    · obtain ⟨r', hrun, hcurrent, built, _, fresh, _⟩ :=
        initializeRandomx_rebuild numThreads early tracked.fresh
      rw [next, initializeRandomx_allSucceed all, hrun]
      refine ⟨fresh, ?_⟩
      rw [hcurrent]
      exact ⟨fun _ => since_of_mark ⟨early, all⟩, fun _ => built⟩
    · obtain ⟨r', hrun, unbuilt, fresh⟩ := initializeRandomx_fails early tracked.fresh all
      rw [next, hrun]
      refine ⟨fresh, ?_⟩
      constructor
      · exact fun built => absurd built (unbuilt _)
      · intro backed
        exact absurd backed (not_since_cons early (fun hm => all hm.2))

theorem tracked_run {h : List (Rx × Call)} {r : Rx}
    (run : Run (machine numThreads) Constructed h r) : Tracked numThreads h r :=
  run.invariant (P := fun h r => Tracked numThreads h r) (fun _ => tracked_constructed)
    (fun _ _ _ tracked _ => tracked.step)

/-- A call that goes past the early return tells the truth in any case. -/
theorem rebuild_truth {r : Rx} {call : Call} (fresh : r.heap.Fresh)
    (changed : ¬ ReturnsEarly r call)
    (returned : (initializeRandomx numThreads call.alloc call.seedHash r).1 = true) :
    (next numThreads r call).Built numThreads (seedBytes call.seedHash) := by
  by_cases all : call.alloc.AllSucceed numThreads
  · obtain ⟨r', hrun, _, built, _⟩ := initializeRandomx_rebuild numThreads changed fresh
    rw [next, initializeRandomx_allSucceed all, hrun]
    exact built
  · obtain ⟨r', hrun, _⟩ := initializeRandomx_fails changed fresh all
    rw [hrun] at returned
    cases returned

/-- In every run of calls the result is true to the facts exactly when every
early return is backed by a complete rebuild. -/
theorem tellsTruth_iff_earlyReturnsBacked {h : List (Rx × Call)} {r : Rx}
    (run : Run (machine numThreads) Constructed h r) :
    TellsTruth numThreads h ↔ EarlyReturnsBacked numThreads h := by
  constructor
  · intro truth older r call moment early
    have tracked := tracked_run (run.at_moment moment).1
    have built := truth older r call moment (by rw [initializeRandomx_early early])
    rw [next, initializeRandomx_early early, early] at built
    exact tracked.built_iff.mp built
  · intro backed older r call moment returned
    have tracked := tracked_run (run.at_moment moment).1
    by_cases early : ReturnsEarly r call
    · have built := tracked.built_iff.mpr (backed older r call moment early)
      rw [next, initializeRandomx_early early, early]
      exact built
    · exact rebuild_truth tracked.fresh early returned

/-- Seed "aa" is built, seed "bb" fails for want of a dataset, and "aa" comes back. -/
def returningSeed : List Call :=
  [⟨lit "aa", AllocOutcome.succeeds⟩, ⟨lit "bb", ⟨true, false, fun _ => true⟩⟩,
    ⟨lit "aa", AllocOutcome.succeeds⟩]

def returningSeedRun : List (Rx × Call) × Rx := replay (machine 2) returningSeed ([], Rx.initial)

theorem returningSeed_run :
    Run (machine 2) Constructed returningSeedRun.1 returningSeedRun.2 := by
  have constructed : Run (machine 2) Constructed [] Rx.initial := .init rfl
  exact replay_run constructed returningSeed (allEnabled_of_forall (fun _ _ => trivial) _ _)

theorem tellsTruth_iff_earlyReturnsBacked_returningSeed :
    TellsTruth 2 returningSeedRun.1 ↔ EarlyReturnsBacked 2 returningSeedRun.1 :=
  tellsTruth_iff_earlyReturnsBacked returningSeed_run

/-- The third call returns true over an object without a cache and without VMs. -/
theorem tellsTruth_fails_returningSeed :
    Run (machine 2) Constructed returningSeedRun.1 returningSeedRun.2 ∧
      ¬ TellsTruth 2 returningSeedRun.1 := by
  refine ⟨returningSeed_run, fun truth => ?_⟩
  obtain ⟨older, r, _, hr, moment⟩ := replay_last (machine 2)
    [⟨lit "aa", AllocOutcome.succeeds⟩, ⟨lit "bb", ⟨true, false, fun _ => true⟩⟩]
    ⟨lit "aa", AllocOutcome.succeeds⟩ Rx.initial
  have early : ReturnsEarly r ⟨lit "aa", AllocOutcome.succeeds⟩ := by
    rw [hr]
    decide +kernel
  have hcache : r.cache = none := by
    rw [hr]
    rfl
  have built := truth older r _ moment (by rw [initializeRandomx_early early])
  rw [next, initializeRandomx_early early] at built
  obtain ⟨c, d, ⟨hc, _⟩, _⟩ := built
  rw [hcache] at hc
  cases hc

end InitTruth
