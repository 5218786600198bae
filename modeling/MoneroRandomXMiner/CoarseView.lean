import MoneroRandomXMiner.Simulations
import MoneroRandomXMiner.JobOrder
import MoneroRandomXMiner.HashAccounting

/-!
# The threads of the miner without their mutexes

Between a lock and its release only one thread works on the members that the
lock protects, so a whole mutex section can be taken as one event. The machine
of the threads with their mutexes refines the machine of mutex sections: the
locks and the receive thread's private steps are hidden, the hash calls and the
submissions are the same.
-/

namespace CoarseView

open Histories Simulations HexText MiningBlob HandleMessage MinerMachine MinerThreads

variable {n : Nat} {calculateHash : Nat → List UInt8 → Hash} {lib : JsonLibrary}

/-- The event of the coarse machine that an event shows, if it touches the miner. -/
def minerEvent (s : MinerThreads.State n) : MinerThreads.Event n → Option (MinerMachine.Event n)
  | .work t env => some (.work t env)
  | .storeJob => some (.storeJob s.clientJob)
  | .raiseNewJob => some .raiseNewJob
  | .stop => if s.main = .mining then some .stopMining else none
  | _ => none

/-- Between the two halves of `on_new_job`. -/
def Receiver.Raising : Receiver → Prop
  | .handling .raising _ _ => True
  | _ => False

/-- A job on its way is still the first of the pending calls. -/
def Receiver.Grounded : Receiver → Prop
  | .handling .outside _ _ => True
  | .handling _ pending _ => pending ≠ []
  | _ => True

/-- The receive thread runs, and the miner's mark of a half-published job says
where that thread stands. -/
structure Coherent (s : MinerThreads.State n) : Prop where
  receiving : s.miner.shared.receiving = true
  notifying : s.miner.shared.notifying = true ↔ Receiver.Raising s.receiver
  grounded : Receiver.Grounded s.receiver

abbrev coarse (h : List (MinerThreads.State n × MinerThreads.Event n)) :
    List (MinerMachine.State n × MinerMachine.Event n) :=
  seen MinerThreads.State.miner minerEvent h

/-- A worker's step leaves the flags of the other threads alone. -/
theorem workerNext_flags (calculateHash : Nat → List UInt8 → Hash) (t : Nat) (env : Env)
    (g : Shared) (w : Worker) :
    (workerNext calculateHash n t env g w).1.receiving = g.receiving ∧
      (workerNext calculateHash n t env g w).1.notifying = g.notifying ∧
      (workerNext calculateHash n t env g w).1.running = g.running := by
  cases hpc : w.pc with
  | firstVm => cases hv : g.rx.vms[t]? <;> simp [workerNext, hpc, hv]
  | fetchVm => cases hv : g.rx.vms[t]? <;> simp [workerNext, hpc, hv]
  | _ => simp [workerNext, hpc]

/-- The part of `stop` that the miner sees. -/
theorem next_stop_miner (s : MinerThreads.State n) :
    (MinerThreads.next calculateHash lib s .stop).miner =
      if s.main = .mining then MinerMachine.next calculateHash s.miner .stopMining
      else s.miner := rfl

theorem next_hidden {s : MinerThreads.State n} {e : MinerThreads.Event n}
    (hidden : minerEvent s e = none) :
    (MinerThreads.next calculateHash lib s e).miner = s.miner := by
  cases e with
  | enter t =>
    cases hlock : lockOf (s.miner.workers t).pc <;> simp [MinerThreads.next, hlock, acquire]
  | shareResult =>
    simp only [MinerThreads.next]
    split <;> rfl
  | lockClient =>
    simp only [MinerThreads.next]
    split <;> rfl
  | stop =>
    rw [next_stop_miner]
    split
    · rename_i mining
      simp only [minerEvent, if_pos mining] at hidden
      cases hidden
    · rfl
  | work t env => cases hidden
  | storeJob => cases hidden
  | raiseNewJob => cases hidden
  | _ => rfl

theorem next_shown {s : MinerThreads.State n} {e : MinerThreads.Event n}
    {e' : MinerMachine.Event n} (shown : minerEvent s e = some e') :
    (MinerThreads.next calculateHash lib s e).miner =
      MinerMachine.next calculateHash s.miner e' := by
  cases e with
  | work t env =>
    obtain rfl := Option.some.inj shown
    exact JobOrder.next_work_miner s t env
  | storeJob =>
    obtain rfl := Option.some.inj shown
    rfl
  | raiseNewJob =>
    obtain rfl := Option.some.inj shown
    rfl
  | stop =>
    simp only [minerEvent] at shown
    split at shown
    · rename_i mining
      obtain rfl := Option.some.inj shown
      rw [next_stop_miner, if_pos mining]
    · cases shown
  | _ => cases shown

/-- Where the receive thread stands after an event. -/
theorem receiver_next (calculateHash : Nat → List UInt8 → Hash) (lib : JsonLibrary)
    {s : MinerThreads.State n} {e : MinerThreads.Event n}
    (enabled : MinerThreads.Enabled s e) (grounded : Receiver.Grounded s.receiver) :
    (Receiver.Raising (MinerThreads.next calculateHash lib s e).receiver ↔
        e = .storeJob ∨ (e ≠ .raiseNewJob ∧ Receiver.Raising s.receiver)) ∧
      Receiver.Grounded (MinerThreads.next calculateHash lib s e).receiver := by
  cases e with
  | enter t =>
    cases hlock : lockOf (s.miner.workers t).pc <;>
      simp [MinerThreads.next, hlock, acquire, grounded]
  | work t env =>
    cases hlock : lockOf (s.miner.workers t).pc <;>
      simp [MinerThreads.next, hlock, release, grounded]
  | test =>
    have hr : s.receiver = .atTest := enabled
    cases hrun : s.clientRunning <;>
      simp [MinerThreads.next, receive, hr, hrun, Receiver.Raising, Receiver.Grounded]
  | recv lines =>
    have hr : s.receiver = .inRecv := enabled
    simp [MinerThreads.next, receive, hr, Receiver.Raising, Receiver.Grounded]
  | timeOut =>
    have hr : s.receiver = .inRecv := enabled
    simp [MinerThreads.next, receive, hr, Receiver.Raising, Receiver.Grounded]
  | connectionEnds =>
    have hr : s.receiver = .inRecv := enabled
    simp [MinerThreads.next, receive, hr, Receiver.Raising, Receiver.Grounded]
  | nextLine =>
    obtain ⟨lines, hr⟩ := enabled
    cases lines <;>
      simp [MinerThreads.next, receive, hr, Receiver.Raising, Receiver.Grounded]
  | shareResult =>
    obtain ⟨accepted, response, pending, lines, hr⟩ := enabled
    cases accepted <;>
      simp [MinerThreads.next, receive, hr, Receiver.head, Receiver.Raising, Receiver.Grounded]
  | lockClient =>
    obtain ⟨_, job, pending, lines, hr⟩ := enabled
    simp [MinerThreads.next, receive, hr, Receiver.head, acquire, Receiver.Raising,
      Receiver.Grounded]
  | lockMiner =>
    obtain ⟨_, pending, lines, hr⟩ := enabled
    have more : pending ≠ [] := by simpa only [hr, Receiver.Grounded] using grounded
    simp [MinerThreads.next, receive, hr, acquire, Receiver.Raising, Receiver.Grounded, more]
  | storeJob =>
    obtain ⟨pending, lines, hr⟩ := enabled
    have more : pending ≠ [] := by simpa only [hr, Receiver.Grounded] using grounded
    simp [MinerThreads.next, receive, hr, release, Receiver.Raising, Receiver.Grounded, more]
  | raiseNewJob =>
    obtain ⟨pending, lines, hr⟩ := enabled
    have more : pending ≠ [] := by simpa only [hr, Receiver.Grounded] using grounded
    obtain ⟨call, rest, rfl⟩ := List.exists_cons_of_ne_nil more
    simp [MinerThreads.next, receive, hr, release, Receiver.Raising, Receiver.Grounded]
  | call => simp [MinerThreads.next, grounded]
  | lockReader => simp [MinerThreads.next, acquire, grounded]
  | answer => simp [MinerThreads.next, release, grounded]
  | stop => simp [MinerThreads.next, grounded]

/-- What the shown event does to the two flags of the receive thread. -/
theorem flags_next (calculateHash : Nat → List UInt8 → Hash) (lib : JsonLibrary)
    (s : MinerThreads.State n) (e : MinerThreads.Event n) :
    (MinerThreads.next calculateHash lib s e).miner.shared.receiving =
        s.miner.shared.receiving ∧
      ((MinerThreads.next calculateHash lib s e).miner.shared.notifying = true ↔
        e = .storeJob ∨ (e ≠ .raiseNewJob ∧ s.miner.shared.notifying = true)) := by
  cases hshown : minerEvent s e with
  | none =>
    rw [next_hidden hshown]
    have other : e ≠ .storeJob ∧ e ≠ .raiseNewJob := by
      constructor <;> rintro rfl <;> cases hshown
    simp [other]
  | some e' =>
    rw [next_shown hshown]
    cases e with
    | work t env =>
      obtain rfl := Option.some.inj hshown
      obtain ⟨receiving, notifying, _⟩ :=
        workerNext_flags (n := n) calculateHash t env s.miner.shared (s.miner.workers t)
      rw [next_shared_work, receiving, notifying]
      simp
    | storeJob =>
      obtain rfl := Option.some.inj hshown
      simp [MinerMachine.next]
    | raiseNewJob =>
      obtain rfl := Option.some.inj hshown
      simp [MinerMachine.next]
    | stop =>
      simp only [minerEvent] at hshown
      split at hshown
      · obtain rfl := Option.some.inj hshown
        simp [MinerMachine.next]
      · cases hshown
    | _ => cases hshown

theorem Coherent.step {s : MinerThreads.State n} {e : MinerThreads.Event n}
    (coherent : Coherent s) (enabled : MinerThreads.Enabled s e) :
    Coherent (MinerThreads.next calculateHash lib s e) := by
  obtain ⟨raising, grounded⟩ := receiver_next calculateHash lib enabled coherent.grounded
  obtain ⟨receiving, notifying⟩ := flags_next calculateHash lib s e
  refine ⟨receiving.trans coherent.receiving, ?_, grounded⟩
  rw [notifying, raising, coherent.notifying]

/-- A shown event can be taken by the coarse machine. -/
theorem Coherent.shown_enabled {s : MinerThreads.State n} {e : MinerThreads.Event n}
    {e' : MinerMachine.Event n} (coherent : Coherent s) (enabled : MinerThreads.Enabled s e)
    (shown : minerEvent s e = some e') : MinerMachine.Enabled s.miner e' := by
  cases e with
  | work t env =>
    obtain rfl := Option.some.inj shown
    exact enabled.1
  | storeJob =>
    obtain rfl := Option.some.inj shown
    obtain ⟨pending, lines, hr⟩ := enabled
    refine ⟨coherent.receiving, ?_⟩
    rw [← Bool.not_eq_true, coherent.notifying, hr]
    exact id
  | raiseNewJob =>
    obtain rfl := Option.some.inj shown
    obtain ⟨pending, lines, hr⟩ := enabled
    refine coherent.notifying.mpr ?_
    rw [hr]
    trivial
  | stop =>
    simp only [minerEvent] at shown
    split at shown
    · obtain rfl := Option.some.inj shown
      trivial
    · cases shown
  | _ => cases shown

theorem threads_refine (calculateHash : Nat → List UInt8 → Hash) (lib : JsonLibrary) (n : Nat) :
    Refines (MinerThreads.machine calculateHash lib n) (MinerMachine.machine calculateHash n)
      MinerThreads.State.miner minerEvent Coherent where
  keeps := fun _ _ coherent enabled => coherent.step enabled
  enabled := fun _ _ _ coherent enabled shown => coherent.shown_enabled enabled shown
  next := fun _ _ _ _ _ shown => next_shown shown
  hidden := fun _ _ _ _ hidden => next_hidden hidden

/-- The hash call that a worker makes in an event. -/
def hashCallOf (calculateHash : Nat → List UInt8 → Hash) (s : MinerThreads.State n) :
    MinerThreads.Event n → Option (Fin n × HashCall)
  | .work t env => hashCall calculateHash s.miner (.work t env)
  | _ => none

/-- The share that a worker submits in an event. -/
def submissionOf (s : MinerThreads.State n) : MinerThreads.Event n → Option (Fin n × Share)
  | .work t env => submission s.miner (.work t env)
  | _ => none

theorem hashCallOf_shown (s : MinerThreads.State n) (e : MinerThreads.Event n) :
    hashCallOf calculateHash s e = (minerEvent s e).bind (hashCall calculateHash s.miner) := by
  cases e with
  | stop =>
    simp only [minerEvent, hashCallOf]
    split <;> rfl
  | _ => rfl

theorem submissionOf_shown (s : MinerThreads.State n) (e : MinerThreads.Event n) :
    submissionOf s e = (minerEvent s e).bind (submission s.miner) := by
  cases e with
  | stop =>
    simp only [minerEvent, submissionOf]
    split <;> rfl
  | _ => rfl

/-- The shown steps of a run are a run of the coarse machine, with the same hash
calls and the same submissions in the same order. -/
structure SameWork (calculateHash : Nat → List UInt8 → Hash) (start : MinerMachine.State n → Prop)
    (h : List (MinerThreads.State n × MinerThreads.Event n)) (s : MinerThreads.State n) :
    Prop where
  run : Run (MinerMachine.machine calculateHash n) start (coarse h) s.miner
  hashes : h.filterMap (fun m => hashCallOf calculateHash m.1 m.2) =
    (coarse h).filterMap fun m => hashCall calculateHash m.1 m.2
  submissions : h.filterMap (fun m => submissionOf m.1 m.2) =
    (coarse h).filterMap fun m => submission m.1 m.2

theorem sameWork_run {start : MinerMachine.State n → Prop}
    {h : List (MinerThreads.State n × MinerThreads.Event n)} {s : MinerThreads.State n}
    (run : Run (MinerThreads.machine calculateHash lib n)
      (fun s => Coherent s ∧ start s.miner) h s) : SameWork calculateHash start h s := by
  have refines := threads_refine calculateHash lib n
  refine ⟨refines.run (fun _ hs => hs) run, ?_, ?_⟩
  · exact refines.observed (fun _ hs => hs.1) (fun s e _ _ => hashCallOf_shown s e) run
  · exact refines.observed (fun _ hs => hs.1) (fun s e _ _ => submissionOf_shown s e) run

theorem coherent_readyThreads : Coherent readyThreads :=
  ⟨rfl, iff_of_false (by decide) id, trivial⟩

/-- Worker 0 copies a job and hashes it while the receive thread stores the next one. -/
theorem sameWork_run_overtaken :
    SameWork zeroHash JobNotification.Underway
      (replay (MinerThreads.machine zeroHash noJson 2) JobOrder.overtaken ([], readyThreads)).1
      (replay (MinerThreads.machine zeroHash noJson 2) JobOrder.overtaken
        ([], readyThreads)).2 := by
  refine @sameWork_run 2 zeroHash noJson _ _ _ (replay_run (.init ?_) _ JobOrder.overtaken_enabled)
  exact ⟨coherent_readyThreads, JobNotification.underway_readyState⟩

end CoarseView
