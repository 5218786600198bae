import MoneroRandomXMiner.MinerMachine

/-!
# Which VM a worker hashes with

Re-initialising RandomX destroys the VMs of all workers, while each worker
keeps a private handle and a private `last_seed` and fetches a handle only
when its next job differs from that seed. A hash call is sound exactly when
no rebuild has come since the worker's last fetch and the seed in force at
that fetch was the one of its job.
-/

namespace SeedSoundness

open Histories HexText MiningBlob RandomXInit MinerMachine

variable {n : Nat} {calculateHash : Nat → List UInt8 → Hash}

/-- An `initializeRandomx` call that goes past its early return. -/
def Rebuilds (s : State n) : Event n → Prop
  | .work u _ => (s.workers u).pc = .initRx ∧
      (s.workers u).job.seedHash ≠ s.shared.rx.currentSeedHash
  | _ => False

def Fetches (t : Fin n) (s : State n) : Event n → Prop
  | .work u _ => u = t ∧ (s.workers u).pc = .fetchVm
  | _ => False

/-- Back to the last fetch of `t` there is no rebuild, and the seed in force at
that fetch had the given key. -/
def HandleFresh (t : Fin n) (key : Key) : List (State n × Event n) → Prop :=
  Since (fun m _ => ¬ Rebuilds m.1 m.2 ∧ ¬ Fetches t m.1 m.2)
    (fun m _ => Fetches t m.1 m.2 ∧ seedBytes m.1.shared.rx.currentSeedHash = key)

/-- Jobs carry a seed, and every allocation succeeds. -/
def Benign : Event n → Prop
  | .storeJob job => job.seedHash ≠ []
  | .work _ env => env.alloc = AllocOutcome.succeeds
  | _ => True

def JobSeeded (job : MiningJob) : Prop := job.blob = [] ∨ job.seedHash ≠ []

/-- All workers at the top of the main loop, each with its handle from the table. -/
structure Ready (s : State n) : Prop where
  table : TableReady n s.shared.rx
  job : JobSeeded s.shared.currentJob
  heads : ∀ t, (s.workers t).pc = .loopHead
  seeds : ∀ t, (s.workers t).lastSeed = []
  handles : ∀ t, s.shared.rx.vms[t.val]? = some (s.workers t).vm

def SeedSound (calculateHash : Nat → List UInt8 → Hash) (h : List (State n × Event n)) : Prop :=
  ∀ older m e t call, Moment h older m e → hashCall calculateHash m e = some (t, call) →
    m.shared.rx.heap.BuiltFor call.vm (seedBytes call.job.seedHash)

def HandlesFresh (calculateHash : Nat → List UInt8 → Hash) (h : List (State n × Event n)) :
    Prop :=
  ∀ older m e t call, Moment h older m e → hashCall calculateHash m e = some (t, call) →
    HandleFresh t (seedBytes call.job.seedHash) older

structure WorkerSeed (w : Worker) : Prop where
  pending : w.pc.Refetching → w.job.seedHash ≠ []
  batch : w.pc.InBatch → w.job.seedHash = w.lastSeed ∧ w.lastSeed ≠ []

theorem workerSeed_outside {w : Worker} (hrefetch : ¬ w.pc.Refetching) (hbatch : ¬ w.pc.InBatch) :
    WorkerSeed w :=
  ⟨fun h => absurd h hrefetch, fun h => absurd h hbatch⟩

theorem workerSeed_chooseJob {job : MiningJob} {w : Worker} (seeded : JobSeeded job) :
    WorkerSeed (chooseJob job w) := by
  rw [chooseJob]
  split
  · exact workerSeed_outside id id
  · rename_i hblob
    have hseed : job.seedHash ≠ [] := seeded.resolve_left hblob
    split
    · exact ⟨fun _ => hseed, fun h => h.elim⟩
    · rename_i hsame
      have heq : job.seedHash = w.lastSeed := Classical.not_not.mp hsame
      exact ⟨fun h => h.elim, fun _ => ⟨heq, heq ▸ hseed⟩⟩

/-- A step that neither copies a job nor reads the table of VMs. -/
theorem workerSeed_of_same {t : Nat} {env : Env} {g : Shared} {w : Worker} (seed : WorkerSeed w)
    (htake : w.pc ≠ .takeJob) (hfirst : w.pc ≠ .firstVm) (hfetch : w.pc ≠ .fetchVm) :
    WorkerSeed (workerNext calculateHash n t env g w).2 := by
  have refetching : ∀ p : Pc, ∀ q ∈ p.successors, q.Refetching → p = .takeJob ∨ p.Refetching := by
    intro p
    cases p <;> simp [Pc.successors, Pc.Refetching]
  constructor
  · intro h
    rw [workerNext_job htake]
    exact seed.pending ((refetching w.pc _ (workerNext_pc t env g w) h).resolve_left htake)
  · intro h
    rw [workerNext_job htake, (workerNext_handle hfirst hfetch).2]
    exact seed.batch (workerNext_inBatch htake hfetch h)

/-- What a worker knows about its seed is kept by each of its own steps. -/
theorem workerSeed_next {t : Nat} {env : Env} {g : Shared} {w : Worker} (seed : WorkerSeed w)
    (seeded : JobSeeded g.currentJob) : WorkerSeed (workerNext calculateHash n t env g w).2 := by
  cases hpc : w.pc with
  | takeJob =>
    rw [workerNext, hpc]
    exact workerSeed_chooseJob seeded
  | firstVm =>
    rw [workerNext, hpc]
    cases g.rx.vms[t]? with
    | none => exact seed
    | some v => exact workerSeed_outside id id
  | fetchVm =>
    have hseed := seed.pending (by rw [hpc]; trivial)
    cases hv : g.rx.vms[t]? with
    | none =>
      rw [workerNext, hpc]
      simp only [hv]
      exact workerSeed_outside id id
    | some v =>
      rw [workerNext_fetchVm hpc hv]
      exact ⟨fun h => h.elim, fun _ => ⟨rfl, hseed⟩⟩
  | _ => apply workerSeed_of_same seed <;> rw [hpc] <;> exact Pc.noConfusion

/-- A handle once fetched is in the table or destroyed for good, and it is sound
for the worker's seed exactly as long as it is fresh. -/
def HandleTracked (h : List (State n × Event n)) (r : Rx) (t : Fin n) (w : Worker) : Prop :=
  w.lastSeed ≠ [] →
    (w.vm < r.heap.next ∧ (w.vm ∈ r.vms ∨ r.heap.vms w.vm = none)) ∧
    (r.heap.BuiltFor w.vm (seedBytes w.lastSeed) ↔ HandleFresh t (seedBytes w.lastSeed) h)

theorem tracked_of_unseeded {h : List (State n × Event n)} {r : Rx} {t : Fin n} {w : Worker}
    (unseeded : w.lastSeed = []) : HandleTracked h r t w :=
  fun hseed => absurd unseeded hseed

theorem HandleTracked.congr {h : List (State n × Event n)} {r : Rx} {t : Fin n} {w w' : Worker}
    (tracked : HandleTracked h r t w) (hvm : w'.vm = w.vm) (hseed : w'.lastSeed = w.lastSeed) :
    HandleTracked h r t w' := by
  intro hne
  rw [hseed] at hne ⊢
  rw [hvm]
  exact tracked hne

theorem HandleTracked.quiet {h : List (State n × Event n)} {r : Rx} {t : Fin n} {w : Worker}
    {s : State n} {e : Event n} (tracked : HandleTracked h r t w) (hrebuild : ¬ Rebuilds s e)
    (hfetch : ¬ Fetches t s e) : HandleTracked ((s, e) :: h) r t w := by
  intro hne
  obtain ⟨hold, hiff⟩ := tracked hne
  refine ⟨hold, hiff.trans ?_⟩
  exact (since_cons_of_hold ⟨hrebuild, hfetch⟩ (fun hm => hfetch hm.1)).symm

/-- After a rebuild no earlier handle is live, and none is fresh. -/
theorem HandleTracked.rebuild {h : List (State n × Event n)} {r r' : Rx} {t : Fin n} {w : Worker}
    {s : State n} {e : Event n} (tracked : HandleTracked h r t w) (hrebuild : Rebuilds s e)
    (hfetch : ¬ Fetches t s e)
    (gone : ∀ v, v < r.heap.next → (v ∈ r.vms ∨ r.heap.vms v = none) → r'.heap.vms v = none)
    (grows : r.heap.next ≤ r'.heap.next) : HandleTracked ((s, e) :: h) r' t w := by
  intro hne
  obtain ⟨⟨hlt, hold⟩, _⟩ := tracked hne
  have hdead := gone w.vm hlt hold
  refine ⟨⟨Nat.lt_of_lt_of_le hlt grows, Or.inr hdead⟩, ?_⟩
  constructor
  · intro built
    exact absurd hdead built.live
  · intro fresh
    exact absurd fresh (not_since_cons (fun hold => hold.1 hrebuild) (fun hm => hfetch hm.1))

/-- A fetch takes a live VM of the seed in force. -/
theorem tracked_fetch {h : List (State n × Event n)} {s : State n} {t : Fin n} {env : Env}
    {w : Worker} {v : Nat} (table : TableReady n s.shared.rx)
    (hpc : (s.workers t).pc = .fetchVm) (hv : v ∈ s.shared.rx.vms) (hvm : w.vm = v) :
    HandleTracked ((s, .work t env) :: h) s.shared.rx t w := by
  intro _
  have built := table.built v hv
  have hlt : v < s.shared.rx.heap.next := by
    by_contra hge
    exact built.live (table.fresh v (Nat.le_of_not_lt hge))
  rw [hvm]
  refine ⟨⟨hlt, Or.inl hv⟩, ?_⟩
  have hfetch : Fetches t s (.work t env) := ⟨rfl, hpc⟩
  constructor
  · intro built'
    exact Or.inl ⟨hfetch, built.unique built'⟩
  · rintro (⟨_, hkey⟩ | ⟨hold, _⟩)
    · exact hkey ▸ built
    · exact absurd hfetch hold.2

structure Tracks (h : List (State n × Event n)) (s : State n) : Prop where
  table : TableReady n s.shared.rx
  job : JobSeeded s.shared.currentJob
  seeds : ∀ t, WorkerSeed (s.workers t)
  handles : ∀ t, HandleTracked h s.shared.rx t (s.workers t)

theorem tracks_ready {s : State n} (ready : Ready s) : Tracks [] s := by
  refine ⟨ready.table, ready.job, ?_, ?_⟩
  · intro t
    exact workerSeed_outside (by rw [ready.heads t]; exact id) (by rw [ready.heads t]; exact id)
  · intro t
    exact tracked_of_unseeded (ready.seeds t)

/-- Events of the main and the receive thread leave RandomX and the workers alone. -/
theorem Tracks.quiet {h : List (State n × Event n)} {s s' : State n} {e : Event n}
    (tracks : Tracks h s) (hrebuild : ¬ Rebuilds s e) (hfetch : ∀ t, ¬ Fetches t s e)
    (hrx : s'.shared.rx = s.shared.rx) (hworkers : s'.workers = s.workers)
    (hjob : JobSeeded s'.shared.currentJob) : Tracks ((s, e) :: h) s' := by
  refine ⟨hrx ▸ tracks.table, hjob, hworkers ▸ tracks.seeds, ?_⟩
  intro t
  rw [hrx, hworkers]
  exact (tracks.handles t).quiet hrebuild (hfetch t)

theorem tracks_fresh_workers {h : List (State n × Event n)} {s s' : State n} (pc : Pc)
    (tracks : Tracks h s) (hrx : s'.shared.rx = s.shared.rx)
    (hjob : s'.shared.currentJob = s.shared.currentJob)
    (hworkers : s'.workers = fun _ => Worker.fresh pc) (hrefetch : ¬ pc.Refetching)
    (hbatch : ¬ pc.InBatch) {h' : List (State n × Event n)} : Tracks h' s' := by
  refine ⟨hrx ▸ tracks.table, hjob ▸ tracks.job, ?_, ?_⟩
  · intro t
    rw [hworkers]
    exact workerSeed_outside hrefetch hbatch
  · intro t
    rw [hworkers]
    exact tracked_of_unseeded rfl

/-- The seeds after a worker's step. -/
theorem Tracks.seeds_work {h : List (State n × Event n)} {s : State n} {t : Fin n} {env : Env}
    (tracks : Tracks h s) (u : Fin n) :
    WorkerSeed ((next calculateHash s (.work t env)).workers u) :=
  workers_work (P := fun _ w => WorkerSeed w) (workerSeed_next (tracks.seeds t) tracks.job)
    (fun u _ => tracks.seeds u) u

theorem Tracks.job_work {h : List (State n × Event n)} {s : State n} {t : Fin n} {env : Env}
    (tracks : Tracks h s) :
    JobSeeded (next calculateHash s (.work t env)).shared.currentJob := by
  rw [next_shared_work, workerNext_currentJob]
  exact tracks.job

/-- A step that re-initialises RandomX, through its early return or not. -/
theorem Tracks.initRx {h : List (State n × Event n)} {s : State n} {t : Fin n} {env : Env}
    (tracks : Tracks h s) (hpc : (s.workers t).pc = .initRx)
    (succeeds : env.alloc = AllocOutcome.succeeds) :
    Tracks ((s, .work t env) :: h) (next calculateHash s (.work t env)) := by
  have hfetch : ∀ u, ¬ Fetches u s (.work t env) := by
    rintro u ⟨_, h⟩
    rw [hpc] at h
    cases h
  have hrx : (next calculateHash s (.work t env)).shared.rx =
      (initializeRandomx n env.alloc (s.workers t).job.seedHash s.shared.rx).2 := by
    rw [next_shared_work, workerNext_initRx hpc]
  have hhandle : ∀ u, ((next calculateHash s (.work t env)).workers u).vm = (s.workers u).vm ∧
      ((next calculateHash s (.work t env)).workers u).lastSeed = (s.workers u).lastSeed :=
    workers_work (P := fun u w => w.vm = (s.workers u).vm ∧ w.lastSeed = (s.workers u).lastSeed)
      (workerNext_handle (by simp [hpc]) (by simp [hpc])) (fun _ _ => ⟨rfl, rfl⟩)
  by_cases hsame : (s.workers t).job.seedHash = s.shared.rx.currentSeedHash
  · have hrebuild : ¬ Rebuilds s (.work t env) := fun hr => hr.2 hsame
    rw [initializeRandomx_early hsame] at hrx
    refine ⟨hrx ▸ tracks.table, tracks.job_work, tracks.seeds_work, ?_⟩
    intro u
    rw [hrx]
    exact ((tracks.handles u).quiet hrebuild (hfetch u)).congr
      (hhandle u).1 (hhandle u).2
  · obtain ⟨r', hrun, hcurrent, hbuilt, hgone, hfresh, hgrows⟩ :=
      initializeRandomx_rebuild n hsame tracks.table.fresh
    have hrebuild : Rebuilds s (.work t env) := ⟨hpc, hsame⟩
    rw [succeeds, hrun] at hrx
    refine ⟨?_, tracks.job_work, tracks.seeds_work, ?_⟩
    · rw [hrx]
      exact .of_built (hcurrent ▸ hbuilt) hfresh
    · intro u
      rw [hrx]
      exact ((tracks.handles u).rebuild hrebuild (hfetch u) hgone hgrows).congr
        (hhandle u).1 (hhandle u).2

/-- A step that fetches a handle from the table. -/
theorem Tracks.fetchVm {h : List (State n × Event n)} {s : State n} {t : Fin n} {env : Env}
    (tracks : Tracks h s) (hpc : (s.workers t).pc = .fetchVm) :
    Tracks ((s, .work t env) :: h) (next calculateHash s (.work t env)) := by
  have hlt : t.val < s.shared.rx.vms.length := by
    rw [tracks.table.count]
    exact t.isLt
  have hv := List.getElem?_eq_getElem hlt
  have hrx : (next calculateHash s (.work t env)).shared.rx = s.shared.rx := by
    rw [next_shared_work, workerNext_fetchVm hpc hv]
  have hrebuild : ¬ Rebuilds s (.work t env) := by
    rintro ⟨h, _⟩
    rw [hpc] at h
    cases h
  refine ⟨hrx ▸ tracks.table, tracks.job_work, tracks.seeds_work, ?_⟩
  rw [hrx]
  apply workers_work
  · rw [workerNext_fetchVm hpc hv]
    exact tracked_fetch tracks.table hpc (List.getElem_mem hlt) rfl
  · exact fun u hu => (tracks.handles u).quiet hrebuild (fun hf => hu hf.1.symm)

/-- Every other step of a worker. -/
theorem Tracks.other_work {h : List (State n × Event n)} {s : State n} {t : Fin n} {env : Env}
    (tracks : Tracks h s) (hinit : (s.workers t).pc ≠ .initRx)
    (hfetch : (s.workers t).pc ≠ .fetchVm) :
    Tracks ((s, .work t env) :: h) (next calculateHash s (.work t env)) := by
  have hrx : (next calculateHash s (.work t env)).shared.rx = s.shared.rx :=
    workerNext_rx hinit
  have hquiet : ∀ u, HandleTracked ((s, .work t env) :: h) s.shared.rx u (s.workers u) :=
    fun u => (tracks.handles u).quiet (fun hr => hinit hr.1) (fun hf => hfetch hf.2)
  refine ⟨hrx ▸ tracks.table, tracks.job_work, tracks.seeds_work, ?_⟩
  rw [hrx]
  apply workers_work
  · by_cases hfirst : (s.workers t).pc = .firstVm
    · rw [workerNext, hfirst]
      cases s.shared.rx.vms[t.val]? with
      | none => exact hquiet t
      | some v => exact tracked_of_unseeded rfl
    · apply (hquiet t).congr
      · exact (workerNext_handle hfirst hfetch).1
      · exact (workerNext_handle hfirst hfetch).2
  · exact fun u _ => hquiet u

theorem Tracks.step {h : List (State n × Event n)} {s : State n} {e : Event n}
    (tracks : Tracks h s) (benign : Benign e) :
    Tracks ((s, e) :: h) (next calculateHash s e) := by
  cases e with
  | initializeMiner connected => exact tracks.quiet id (fun _ => id) rfl rfl tracks.job
  | stopMining => exact tracks.quiet id (fun _ => id) rfl rfl tracks.job
  | raiseNewJob => exact tracks.quiet id (fun _ => id) rfl rfl tracks.job
  | storeJob job => exact tracks.quiet id (fun _ => id) rfl rfl (Or.inr benign)
  | startMining => refine tracks_fresh_workers .waitRunning tracks ?_ ?_ ?_ id id <;> rfl
  | joinThreads => refine tracks_fresh_workers .absent tracks ?_ ?_ ?_ id id <;> rfl
  | work t env =>
    by_cases hinit : (s.workers t).pc = .initRx
    · exact tracks.initRx hinit benign
    · by_cases hfetch : (s.workers t).pc = .fetchVm
      · exact tracks.fetchVm hfetch
      · exact tracks.other_work hinit hfetch

theorem tracks_run {h : List (State n × Event n)} {s : State n}
    (run : Run (machine calculateHash n) Ready h s) (benign : ∀ m ∈ h, Benign m.2) :
    Tracks h s :=
  run.invariant_of_steps (Q := fun _ e => Benign e) (fun _ => tracks_ready)
    (fun _ _ _ tracks _ benign => tracks.step benign) benign

/-- One hash call is sound exactly when its worker's handle is fresh. -/
theorem call_sound_iff {h : List (State n × Event n)} {s : State n} {e : Event n} {t : Fin n}
    {call : HashCall} (tracks : Tracks h s) (hcall : hashCall calculateHash s e = some (t, call)) :
    s.shared.rx.heap.BuiltFor call.vm (seedBytes call.job.seedHash) ↔
      HandleFresh t (seedBytes call.job.seedHash) h := by
  obtain ⟨_, hpc, _, heq⟩ := hashCall_some hcall
  obtain ⟨hjob, hne⟩ := (tracks.seeds t).batch (by rw [hpc]; trivial)
  rw [heq]
  dsimp only
  rw [hjob]
  exact (tracks.handles t hne).2

/-- In every run every hash call uses a live VM of its job's seed exactly when
no rebuild falls between a worker's fetch and its hash calls and each fetch
finds the seed of the worker's job in force. -/
theorem seedSound_iff_handlesFresh {h : List (State n × Event n)} {s : State n}
    (run : Run (machine calculateHash n) Ready h s) (benign : ∀ m ∈ h, Benign m.2) :
    SeedSound calculateHash h ↔ HandlesFresh calculateHash h := by
  have hiff : ∀ older m e t call, Moment h older m e →
      hashCall calculateHash m e = some (t, call) →
      (m.shared.rx.heap.BuiltFor call.vm (seedBytes call.job.seedHash) ↔
        HandleFresh t (seedBytes call.job.seedHash) older) := by
    intro older m e t call moment hcall
    have hbefore : ∀ m ∈ older, Benign m.2 := fun m hm => benign m (moment.older_mem hm)
    exact call_sound_iff (tracks_run (run.at_moment moment).1 hbefore) hcall
  constructor
  · intro sound older m e t call moment hcall
    exact (hiff older m e t call moment hcall).mp (sound older m e t call moment hcall)
  · intro fresh older m e t call moment hcall
    exact (hiff older m e t call moment hcall).mpr (fresh older m e t call moment hcall)

theorem ready_readyState : Ready readyState where
  table := tableReady_rebuild (by decide) (fun _ _ => rfl)
  job := Or.inr (by decide)
  heads := fun _ => rfl
  seeds := fun _ => rfl
  handles := by decide

/-- Worker 1 passes its check for the first job, the pool changes the seed, and
worker 0 rebuilds before worker 1 hashes. -/
def rebuildRace : List (Event 2) :=
  [.work worker1 idle, .work worker1 idle, .work worker1 idle, .work worker1 idle,
    .work worker1 idle, .storeJob (sampleJob (lit "2") (lit "bb")), .raiseNewJob,
    .work worker0 idle, .work worker0 idle, .work worker0 idle]

/-- The race with the hash call that follows it. -/
def rebuildRaceRun : List (State 2 × Event 2) × State 2 :=
  replay (machine zeroHash 2) (rebuildRace ++ [.work worker1 idle]) ([], readyState)

theorem rebuildRace_run : Run (machine zeroHash 2) Ready rebuildRaceRun.1 rebuildRaceRun.2 :=
  replay_run (.init ready_readyState) _ (by decide +kernel)

theorem rebuildRace_benign : ∀ m ∈ rebuildRaceRun.1, Benign m.2 := by
  intro m hm
  have hseed : lit "bb" ≠ [] := by decide
  have hall : ∀ e ∈ rebuildRace ++ [.work worker1 idle], Benign e := by
    simp [rebuildRace, Benign, idle, sampleJob, hseed]
  exact hall m.2 (replay_events hm)

theorem seedSound_iff_handlesFresh_rebuildRace :
    SeedSound zeroHash rebuildRaceRun.1 ↔ HandlesFresh zeroHash rebuildRaceRun.1 :=
  seedSound_iff_handlesFresh rebuildRace_run rebuildRace_benign

/-- Worker 1 hashes its job with a VM that worker 0 has destroyed. -/
theorem seedSound_fails_rebuildRace :
    Run (machine zeroHash 2) Ready rebuildRaceRun.1 rebuildRaceRun.2 ∧
      (∀ m ∈ rebuildRaceRun.1, Benign m.2) ∧ ¬ SeedSound zeroHash rebuildRaceRun.1 := by
  refine ⟨rebuildRace_run, rebuildRace_benign, fun sound => ?_⟩
  obtain ⟨older, m, _, hm, moment⟩ :=
    replay_last (machine zeroHash 2) rebuildRace (.work worker1 idle) readyState
  have hcall : (hashCall zeroHash m (.work worker1 idle)).map (fun c => (c.1, c.2.vm)) =
      some (1, 3) := by
    rw [hm]
    decide +kernel
  have hdead : m.shared.rx.heap.vms 3 = none := by
    rw [hm]
    decide +kernel
  obtain ⟨⟨t, call⟩, hc, heq⟩ := Option.map_eq_some_iff.mp hcall
  have hvm : call.vm = 3 := (Prod.mk.inj heq).2
  have built := sound older m _ t call moment hc
  rw [hvm] at built
  exact built.live hdead

end SeedSoundness
