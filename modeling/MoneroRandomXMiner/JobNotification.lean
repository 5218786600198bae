import MoneroRandomXMiner.MinerMachine

/-!
# Whether a new job reaches every worker

`on_new_job` stores the job and then raises one flag for all workers. Each
worker that sees the flag clears it, and a worker that has not seen it by then
keeps hashing its old copy. A worker with a stale copy leaves its batch at the
check exactly when no other worker has cleared the flag since it was raised.
-/

namespace JobNotification

open Histories HexText MiningBlob RandomXInit MinerMachine

variable {n : Nat} {calculateHash : Nat → List UInt8 → Hash}

def Takes (t : Fin n) (s : State n) : Event n → Prop
  | .work u _ => u = t ∧ (s.workers u).pc = .takeJob
  | _ => False

def Stores : Event n → Prop
  | .storeJob _ => True
  | _ => False

def Raises : Event n → Prop
  | .raiseNewJob => True
  | _ => False

/-- Both places where a worker stores false in `m_new_job`. -/
def Clears (t : Fin n) (s : State n) : Event n → Prop
  | .work u _ => u = t ∧ ((s.workers u).pc = .clearSeen ∨ (s.workers u).pc = .clearStale)
  | _ => False

def Checks (t : Fin n) (s : State n) : Event n → Prop
  | .work u _ => u = t ∧ (s.workers u).pc = .check
  | _ => False

instance (t : Fin n) (s : State n) : ∀ e, Decidable (Takes t s e)
  | .work _ _ => inferInstanceAs (Decidable (_ ∧ _))
  | .initializeMiner _ | .startMining | .stopMining | .joinThreads | .storeJob _ | .raiseNewJob =>
    inferInstanceAs (Decidable False)

instance : ∀ e : Event n, Decidable (Stores e)
  | .storeJob _ => inferInstanceAs (Decidable True)
  | .initializeMiner _ | .startMining | .stopMining | .joinThreads | .raiseNewJob | .work _ _ =>
    inferInstanceAs (Decidable False)

instance : ∀ e : Event n, Decidable (Raises e)
  | .raiseNewJob => inferInstanceAs (Decidable True)
  | .initializeMiner _ | .startMining | .stopMining | .joinThreads | .storeJob _ | .work _ _ =>
    inferInstanceAs (Decidable False)

/-- Since worker `t` last copied the current job, an `on_new_job` has stored a
later one and returned. -/
def CopyStale (t : Fin n) : List (State n × Event n) → Prop :=
  Since (fun m _ => ¬ Takes t m.1 m.2)
    (fun m older => Raises m.2 ∧
      Since (fun m _ => ¬ Takes t m.1 m.2) (fun m _ => Stores m.2) older)

instance (t : Fin n) : ∀ h : List (State n × Event n), Decidable (CopyStale t h) :=
  fun _ => inferInstanceAs (Decidable (Since _ _ _))

/-- Since the flag was last raised, a worker other than `t` has cleared it. -/
def ClearedByOther (t : Fin n) : List (State n × Event n) → Prop :=
  Since (fun m _ => ¬ Raises m.2) (fun m _ => ∃ u, u ≠ t ∧ Clears u m.1 m.2)

/-- At its last check, worker `t` had a stale copy. -/
def CheckedStale (t : Fin n) : List (State n × Event n) → Prop :=
  Since (fun m _ => ¬ Checks t m.1 m.2) (fun m older => Checks t m.1 m.2 ∧ CopyStale t older)

/-- A worker with a stale copy leaves its batch at the check, and no hash or
submission comes from a worker whose last check found its copy stale. -/
def NewJobReaches (calculateHash : Nat → List UInt8 → Hash) (h : List (State n × Event n)) :
    Prop :=
  (∀ older m e t, Moment h older m e → Checks t m e → CopyStale t older →
    ((next calculateHash m e).workers t).pc = .clearSeen) ∧
  ∀ older m t env, Moment h older m (.work t env) →
    (m.workers t).pc = .hashing ∨ (m.workers t).pc = .submit → ¬ CheckedStale t older

def NotClearedByOther (h : List (State n × Event n)) : Prop :=
  ∀ older m e t, Moment h older m e → Checks t m e → CopyStale t older → ¬ ClearedByOther t older

/-- RandomX is ready and every worker has entered the main loop. -/
structure Underway (s : State n) : Prop where
  table : TableReady n s.shared.rx
  inLoop : ∀ t, (s.workers t).pc.InMainLoop

/-- From the copy of a job to the next clearing of the flag. -/
def Holding : Pc → Prop
  | .initRx | .fetchVm | .check | .hashing | .submit => True
  | _ => False

theorem copyStale_cons {t : Fin n} {s : State n} {e : Event n} {h : List (State n × Event n)}
    (htake : ¬ Takes t s e) (hraise : ¬ Raises e) :
    CopyStale t ((s, e) :: h) ↔ CopyStale t h :=
  since_cons_of_hold htake (fun hm => hraise hm.1)

theorem not_copyStale_take {t : Fin n} {s : State n} {e : Event n}
    {h : List (State n × Event n)} (htake : Takes t s e) : ¬ CopyStale t ((s, e) :: h) := by
  refine not_since_cons (fun hold => hold htake) ?_
  rintro ⟨hraise, _⟩
  cases e with
  | work u env => exact hraise
  | _ => exact htake

theorem clearedByOther_cons {t : Fin n} {s : State n} {e : Event n}
    {h : List (State n × Event n)} (hraise : ¬ Raises e) (hclear : ∀ u, ¬ Clears u s e) :
    ClearedByOther t ((s, e) :: h) ↔ ClearedByOther t h :=
  since_cons_of_hold hraise (fun ⟨u, _, hu⟩ => hclear u hu)

/-- The flag of a worker with a stale copy, while it holds that copy. -/
def FlagTracked (h : List (State n × Event n)) (s : State n) (t : Fin n) : Prop :=
  Holding (s.workers t).pc → CopyStale t h →
    (s.shared.newJob = true ↔ ¬ ClearedByOther t h)

theorem workerNext_clears {t : Nat} {env : Env} {g : Shared} {w : Worker}
    (hpc : w.pc = .clearSeen ∨ w.pc = .clearStale) :
    (workerNext calculateHash n t env g w).1.newJob = false ∧
      ¬ Holding (workerNext calculateHash n t env g w).2.pc := by
  rcases hpc with hpc | hpc
  · rw [workerNext, hpc]
    exact ⟨rfl, id⟩
  · rw [workerNext, hpc]
    exact ⟨rfl, id⟩

/-- A job is held only from the moment it is copied. -/
theorem holding_of_next {t : Nat} {env : Env} {g : Shared} {w : Worker} (hne : w.pc ≠ .takeJob)
    (holding : Holding (workerNext calculateHash n t env g w).2.pc) : Holding w.pc := by
  have flow : ∀ p : Pc, ∀ q ∈ p.successors, Holding q → p = .takeJob ∨ Holding p := by
    intro p
    cases p <;> simp [Pc.successors, Holding]
  exact (flow w.pc _ (workerNext_pc t env g w) holding).resolve_left hne

theorem flagTracked_work {h : List (State n × Event n)} {s : State n} {t u : Fin n} {env : Env}
    (tracked : FlagTracked h s u) :
    FlagTracked ((s, .work t env) :: h) (next calculateHash s (.work t env)) u := by
  intro holding stale
  have hraise : ¬ Raises (.work t env : Event n) := id
  by_cases htake : Takes u s (.work t env)
  · exact absurd stale (not_copyStale_take htake)
  rw [copyStale_cons htake hraise] at stale
  by_cases hclear : Clears t s (.work t env)
  · have hflag : (next calculateHash s (.work t env)).shared.newJob = false :=
      (workerNext_clears hclear.2).1
    have hne : t ≠ u := by
      rintro rfl
      rw [next_worker_same] at holding
      exact (workerNext_clears hclear.2).2 holding
    have hcleared : ClearedByOther u ((s, .work t env) :: h) := since_of_mark ⟨t, hne, hclear⟩
    simp [hflag, hcleared]
  · have hpc : (s.workers t).pc ≠ .clearSeen ∧ (s.workers t).pc ≠ .clearStale :=
      ⟨fun hpc => hclear ⟨rfl, Or.inl hpc⟩, fun hpc => hclear ⟨rfl, Or.inr hpc⟩⟩
    have hflag : (next calculateHash s (.work t env)).shared.newJob = s.shared.newJob :=
      workerNext_newJob hpc.1 hpc.2
    have hclears : ∀ v, ¬ Clears v s (.work t env) := by
      rintro v ⟨rfl, hv⟩
      exact hclear ⟨rfl, hv⟩
    have hold : Holding (s.workers u).pc := by
      by_cases hu : u = t
      · subst hu
        rw [next_worker_same] at holding
        exact holding_of_next (fun hpc => htake ⟨rfl, hpc⟩) holding
      · rwa [next_worker_other s env hu] at holding
    rw [hflag, clearedByOther_cons hraise hclears]
    exact tracked hold stale

theorem flagTracked_step {h : List (State n × Event n)} {s : State n} {e : Event n} {u : Fin n}
    (tracked : FlagTracked h s u) : FlagTracked ((s, e) :: h) (next calculateHash s e) u := by
  cases e with
  | work t env => exact flagTracked_work tracked
  | raiseNewJob =>
    intro _ _
    have hraised : ¬ ClearedByOther u ((s, .raiseNewJob) :: h) :=
      not_since_cons (fun hold => hold trivial) (fun ⟨_, _, hclear⟩ => hclear)
    exact ⟨fun _ => hraised, fun _ => rfl⟩
  | startMining => exact fun holding => holding.elim
  | joinThreads => exact fun holding => holding.elim
  | _ =>
    intro holding stale
    rw [copyStale_cons id id] at stale
    rw [clearedByOther_cons id (fun _ => id)]
    exact tracked holding stale

theorem flagTracked_run {start : State n → Prop} {h : List (State n × Event n)} {s : State n}
    (run : Run (machine calculateHash n) start h s) (t : Fin n) : FlagTracked h s t :=
  run.invariant (P := fun h s => FlagTracked h s t)
    (fun _ _ _ stale => absurd stale (since_nil _ _))
    (fun _ _ _ tracked _ => flagTracked_step tracked)

/-- Past its check, a worker is there because the flag was down at that check. -/
def PassedUnseen (calculateHash : Nat → List UInt8 → Hash) (h : List (State n × Event n))
    (s : State n) (t : Fin n) : Prop :=
  (s.workers t).pc.Hashes → CheckedStale t h →
    ∃ older m e, Moment h older m e ∧ Checks t m e ∧ CopyStale t older ∧
      ((next calculateHash m e).workers t).pc ≠ .clearSeen

theorem passedUnseen_quiet {h : List (State n × Event n)} {s : State n} {e : Event n} {u : Fin n}
    (hcheck : ¬ Checks u s e)
    (stays : ((next calculateHash s e).workers u).pc.Hashes → (s.workers u).pc.Hashes)
    (passed : PassedUnseen calculateHash h s u) :
    PassedUnseen calculateHash ((s, e) :: h) (next calculateHash s e) u := by
  intro hashes stale
  have hstale : CheckedStale u h := (since_cons_of_hold hcheck (fun hm => hcheck hm.1)).mp stale
  obtain ⟨older, m, f, moment, rest⟩ := passed (stays hashes) hstale
  exact ⟨older, m, f, moment_cons.mpr (Or.inr moment), rest⟩

theorem passedUnseen_step {h : List (State n × Event n)} {s : State n} {e : Event n} {u : Fin n}
    (passed : PassedUnseen calculateHash h s u) :
    PassedUnseen calculateHash ((s, e) :: h) (next calculateHash s e) u := by
  cases e with
  | work t env =>
    by_cases hu : u = t
    · subst hu
      by_cases hpc : (s.workers u).pc = .check
      · intro hashes stale
        have hcheck : Checks u s (.work u env) := ⟨rfl, hpc⟩
        have hstale : CopyStale u h := by
          rcases stale with mark | hold
          · exact mark.2
          · exact absurd hcheck hold.1
        refine ⟨h, s, _, moment_cons.mpr (Or.inl ⟨rfl, rfl, rfl⟩), hcheck, hstale, ?_⟩
        intro hseen
        rw [hseen] at hashes
        exact hashes
      · refine passedUnseen_quiet (fun hcheck => hpc hcheck.2) ?_ passed
        intro hashes
        rw [next_worker_same] at hashes
        rcases workerNext_hashes hashes with hhash | hcheck
        · rw [hhash]
          trivial
        · exact absurd hcheck.1 hpc
    · refine passedUnseen_quiet (fun hcheck => hu hcheck.1.symm) ?_ passed
      rw [next_worker_other s env hu]
      exact id
  | startMining => exact fun hashes => hashes.elim
  | joinThreads => exact fun hashes => hashes.elim
  | _ => exact passedUnseen_quiet id id passed

theorem passedUnseen_run {start : State n → Prop} {h : List (State n × Event n)} {s : State n}
    (run : Run (machine calculateHash n) start h s) (t : Fin n) :
    PassedUnseen calculateHash h s t :=
  run.invariant (P := fun h s => PassedUnseen calculateHash h s t)
    (fun _ _ _ stale => absurd stale (since_nil _ _))
    (fun _ _ _ passed _ => passedUnseen_step passed)

/-- At a check, the flag alone decides whether the worker leaves its batch. -/
theorem leaves_iff {s : State n} {e : Event n} {t : Fin n} (hcheck : Checks t s e) :
    ((next calculateHash s e).workers t).pc = .clearSeen ↔ s.shared.newJob = true := by
  cases e with
  | work u env =>
    obtain ⟨rfl, hpc⟩ := hcheck
    rw [next_worker_same, workerNext, hpc]
    dsimp only
    cases s.shared.newJob with
    | true => exact ⟨fun _ => rfl, fun _ => rfl⟩
    | false => simp
  | _ => exact hcheck.elim

/-- A worker with a stale copy leaves its batch exactly when the flag has not
been cleared by another worker since it was raised. -/
theorem leaves_iff_notCleared {start : State n → Prop} {h older : List (State n × Event n)}
    {s m : State n} {e : Event n} {t : Fin n} (run : Run (machine calculateHash n) start h s)
    (moment : Moment h older m e) (hcheck : Checks t m e) (stale : CopyStale t older) :
    ((next calculateHash m e).workers t).pc = .clearSeen ↔ ¬ ClearedByOther t older := by
  have holding : Holding (m.workers t).pc := by
    cases e with
    | work u env =>
      obtain ⟨rfl, hpc⟩ := hcheck
      rw [hpc]
      trivial
    | _ => exact hcheck.elim
  exact (leaves_iff hcheck).trans (flagTracked_run (run.at_moment moment).1 t holding stale)

theorem notClearedByOther_single {h : List (State 1 × Event 1)} : NotClearedByOther h := by
  intro older m e t _ _ _
  have general : ∀ h : List (State 1 × Event 1), ¬ ClearedByOther t h := by
    intro h
    induction h with
    | nil => exact since_nil _ _
    | cons entry h ih =>
      rintro (⟨u, hne, _⟩ | ⟨_, hs⟩)
      · exact hne (Subsingleton.elim u t)
      · exact ih hs
  exact general older

/-- A new job reaches every worker of a run exactly when no worker clears the
flag before another worker with a stale copy has checked it. -/
theorem newJobReaches_iff_notClearedByOther {start : State n → Prop}
    {h : List (State n × Event n)} {s : State n} (run : Run (machine calculateHash n) start h s) :
    NewJobReaches calculateHash h ↔ NotClearedByOther h := by
  constructor
  · intro reaches older m e t moment hcheck stale
    exact (leaves_iff_notCleared run moment hcheck stale).mp
      (reaches.1 older m e t moment hcheck stale)
  · intro notCleared
    have leaves : ∀ older m e t, Moment h older m e → Checks t m e → CopyStale t older →
        ((next calculateHash m e).workers t).pc = .clearSeen := by
      intro older m e t moment hcheck stale
      exact (leaves_iff_notCleared run moment hcheck stale).mpr
        (notCleared older m e t moment hcheck stale)
    refine ⟨leaves, ?_⟩
    intro older m t env moment hashes checked
    have passed := passedUnseen_run (run.at_moment moment).1 t
    have hhashes : (m.workers t).pc.Hashes := by
      rcases hashes with hpc | hpc
      · rw [hpc]
        trivial
      · rw [hpc]
        trivial
    obtain ⟨older', m', e', before, hcheck, stale, stays⟩ := passed hhashes checked
    obtain ⟨newer, rfl⟩ := moment
    obtain ⟨middle, rfl⟩ := before
    refine stays (leaves older' m' e' t ⟨newer ++ (m, .work t env) :: middle, ?_⟩ hcheck stale)
    simp only [List.append_assoc, List.cons_append]

/-- Both workers hold the first job; a second one arrives, worker 0 sees the
flag and clears it. -/
def clearedFlag : List (Event 2) :=
  [.work worker0 idle, .work worker0 idle, .work worker0 idle, .work worker0 idle,
    .work worker1 idle, .work worker1 idle, .work worker1 idle, .work worker1 idle,
    .storeJob (sampleJob (lit "2") (lit "aa")), .raiseNewJob,
    .work worker0 idle, .work worker0 idle]

/-- The cleared flag with the check of worker 1 that follows. -/
def clearedFlagRun : List (State 2 × Event 2) × State 2 :=
  replay (machine zeroHash 2) (clearedFlag ++ [.work worker1 idle]) ([], readyState)

theorem underway_readyState : Underway readyState :=
  ⟨tableReady_rebuild (by decide) (fun _ _ => rfl), fun _ => trivial⟩

theorem clearedFlag_run :
    Run (machine zeroHash 2) Underway clearedFlagRun.1 clearedFlagRun.2 :=
  replay_run (.init underway_readyState) _ (by decide +kernel)

theorem newJobReaches_iff_notClearedByOther_clearedFlag :
    NewJobReaches zeroHash clearedFlagRun.1 ↔ NotClearedByOther clearedFlagRun.1 :=
  newJobReaches_iff_notClearedByOther clearedFlag_run

/-- Worker 1 checks its stale copy against a cleared flag and goes on to hash it. -/
theorem newJobReaches_fails_clearedFlag :
    Run (machine zeroHash 2) Underway clearedFlagRun.1 clearedFlagRun.2 ∧
      ¬ NewJobReaches zeroHash clearedFlagRun.1 := by
  refine ⟨clearedFlag_run, fun reaches => ?_⟩
  obtain ⟨older, m, holder, hm, moment⟩ :=
    replay_last (machine zeroHash 2) clearedFlag (.work worker1 idle) readyState
  have hcheck : Checks 1 m (.work worker1 idle) := by
    rw [hm]
    exact ⟨rfl, by decide +kernel⟩
  have stale : CopyStale 1 older := by
    rw [holder]
    decide +kernel
  have hleaves := (leaves_iff hcheck).mp (reaches.1 older m _ 1 moment hcheck stale)
  have hflag : m.shared.newJob = false := by
    rw [hm]
    decide +kernel
  rw [hflag] at hleaves
  cases hleaves

end JobNotification
