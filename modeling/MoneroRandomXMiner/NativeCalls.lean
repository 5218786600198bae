import MoneroRandomXMiner.NativeBridge

/-!
# Whole calls of the native library

Seen from its caller a native method is one step: the section goes through to
its end, with whatever fails in it, and worker threads may return meanwhile. A
start leaves one answer about the globals as it found and left them, a stop
leaves `g_mining` false.
-/

namespace NativeCalls

open Histories NativeBridge

/-- The sections of the stopping methods. -/
def ofStopAfter : After → Bool
  | .storeStopped => true
  | .returnFalse | .initializeNew => false

def ofStopReturn : Return → Bool
  | .toStop => true
  | .toDestructor after => ofStopAfter after

def ofStop : Pc → Bool
  | .checkMiner | .storeStopped => true
  | .reset after | .free _ after => ofStopAfter after
  | .halt _ ret | .join _ ret => ofStopReturn ret
  | .checkMining | .construct | .initializeMiner | .storeRunning | .createThread _
  | .storeMining => false

/-- A start answers once, about the globals it found; a stop clears `g_mining`. -/
def Ended (stops : Bool) (entry : Globals) (answers : List Answer) (s : State) : Prop :=
  if stops then s.answers = answers ∧ s.globals.mining = false
  else ∃ a, s.answers = a :: answers ∧ a.entry = entry ∧ a.exit = s.globals

/-- A call that began with these globals and answers, on its way or at its end. -/
def Within (stops : Bool) (entry : Globals) (answers : List Answer) (s : State) : Prop :=
  match s.call with
  | some c => ofStop c.pc = stops ∧ c.entry = entry ∧ s.answers = answers
  | none => Ended stops entry answers s

/-- The events that begin a call. -/
def Begins : Event → Prop
  | .start _ _ | .stop _ => True
  | .proceed _ | .workerReturns _ _ => False

instance : ∀ e, Decidable (Begins e)
  | .start _ _ | .stop _ => inferInstanceAs (Decidable True)
  | .proceed _ | .workerReturns _ _ => inferInstanceAs (Decidable False)

/-- The state after the call that `e` begins, where `rest` is what happens until it returns. -/
def call (e : Event) (rest : List Event) (s : State) : State :=
  (replay machine rest ([], next s e)).2

structure OneCall (e : Event) (rest : List Event) (s : State) : Prop where
  enabled : AllEnabled machine (e :: rest) s
  goesOn : ∀ e ∈ rest, ¬Begins e
  returned : (call e rest s).call = none

section

variable {stops : Bool} {entry : Globals} {answers : List Answer} {s : State} {c : Call}

theorem within_goTo {pc : Pc} (same : ofStop pc = stops) (began : c.entry = entry)
    (old : s.answers = answers) : Within stops entry answers (goTo pc c s) := ⟨same, began, old⟩

theorem within_answer {result : Bool} (began : c.entry = entry) (old : s.answers = answers) :
    Within false entry answers (answer result c s) :=
  ⟨_, congrArg _ old, began, rfl⟩

theorem within_afterwards {after : After} (same : ofStopAfter after = stops)
    (began : c.entry = entry) (old : s.answers = answers) :
    Within stops entry answers (afterwards after c s) := by
  cases after with
  | returnFalse => exact same ▸ within_answer began old
  | storeStopped => exact within_goTo same began old
  | initializeNew => exact within_goTo same began old

theorem within_proceed (within : Within stops entry answers s) (calling : s.call = some c)
    (outcome : Outcome) : Within stops entry answers (proceed outcome c s) := by
  obtain ⟨client, numThreads, start, pc⟩ := c
  have before := within
  simp only [Within, calling] at before
  obtain ⟨rfl, began, old⟩ := before
  -- without a miner the step on it is none
  have miner (f : Nat → State → State) (goes : ∀ m, Within (ofStop pc) entry answers (f m s)) :
      Within (ofStop pc) entry answers (withMiner f s) := by
    unfold withMiner
    split
    · exact goes _
    · exact within
  cases pc with
  | checkMining =>
    simp only [proceed]
    split
    · exact within_answer began old
    · exact within_goTo rfl began old
  | construct =>
    simp only [proceed, assignNew]
    split
    · split
      · exact within_goTo rfl began old
      · exact within_goTo rfl began old
    · exact within_goTo rfl began old
  | initializeMiner =>
    simp only [proceed]
    split
    · exact within_goTo rfl began old
    · exact within_goTo rfl began old
  | storeRunning => exact miner _ fun m => within_goTo rfl began old
  | createThread k =>
    simp only [proceed]
    split
    · split
      · exact miner _ fun m => within_goTo rfl began old
      · exact within_goTo rfl began old
    · exact miner _ fun m => within_goTo rfl began old
  | storeMining => exact within_answer began old
  | checkMiner =>
    simp only [proceed]
    split
    · exact within_goTo rfl began old
    · exact within_goTo rfl began old
  | storeStopped => exact ⟨old, rfl⟩
  | reset after =>
    simp only [proceed, resetMiner]
    split
    · exact within_afterwards rfl began old
    · exact within_goTo rfl began old
  | halt m ret => exact within_goTo rfl began old
  | join m ret =>
    cases ret with
    | toStop => exact within_goTo rfl began old
    | toDestructor after => exact within_goTo rfl began old
  | free m after => exact within_afterwards rfl began old

theorem within_next {e : Event} (within : Within stops entry answers s) (enabled : Enabled s e)
    (goesOn : ¬Begins e) : Within stops entry answers (next s e) := by
  cases e with
  | start client numThreads => exact absurd trivial goesOn
  | stop client => exact absurd trivial goesOn
  | proceed outcome =>
    obtain ⟨c, calling, -⟩ := enabled
    simp only [next, Option.mem_def.mp calling]
    exact within_proceed within calling outcome
  | workerReturns m k => exact within

end

/-- A call ends as its beginning lets it, and keeps the invariant of the library. -/
theorem OneCall.ends {e : Event} {rest : List Event} {s : State} (one : OneCall e rest s)
    (inv : Inv s) (stops : Bool) (began : Within stops s.globals s.answers (next s e)) :
    Inv (call e rest s) ∧ Ended stops s.globals s.answers (call e rest s) := by
  have begun : Run machine (· = next s e) [] (next s e) := .init rfl
  have run : Run machine (· = next s e) (replay machine rest ([], next s e)).1 (call e rest s) :=
    replay_run begun rest one.enabled.2
  have kept : Inv (call e rest s) ∧ Within stops s.globals s.answers (call e rest s) := by
    apply run.invariant_of_steps (Q := fun _ e => ¬Begins e)
      (P := fun _ t => Inv t ∧ Within stops s.globals s.answers t)
    · rintro t rfl
      exact ⟨inv_step inv one.enabled.1, began⟩
    · rintro _ t e ⟨inv, within⟩ enabled goesOn
      exact ⟨inv_step inv enabled, within_next within enabled goesOn⟩
    · exact fun m hm => one.goesOn _ (replay_events hm)
  obtain ⟨inv, within⟩ := kept
  simp only [Within, one.returned] at within
  exact ⟨inv, within⟩

/-- What the last start has returned. -/
def lastResult (s : State) : Bool :=
  match s.answers with
  | a :: _ => a.result
  | [] => false

/-- A start that finds no running miner returns whether one runs now. -/
theorem start_result {client : Client} {numThreads : Nat} {rest : List Event} {s : State}
    (inv : Inv s) (one : OneCall (.start client numThreads) rest s)
    (idle : s.globals.mining = false) :
    Inv (call (.start client numThreads) rest s) ∧
      lastResult (call (.start client numThreads) rest s) =
        (call (.start client numThreads) rest s).globals.mining := by
  obtain ⟨after, a, answered, entry, exit⟩ := one.ends inv false ⟨rfl, rfl, rfl⟩
  refine ⟨after, ?_⟩
  have truthful : a.result = true ↔ a.entry = stopped ∧ a.exit.IsRunning :=
    after.truthful a (by rw [answered]; exact List.mem_cons_self)
  have before := inv.settled one.enabled.1
  have settled := after.settled one.returned
  have found : a.entry = stopped := by
    have null : s.globals.miner = none := by
      by_contra miner
      exact absurd (before.pair.mpr miner) (by simp [idle])
    rw [entry, stopped, ← idle, ← null]
  have result : lastResult (call (.start client numThreads) rest s) = a.result := by
    rw [lastResult, answered]
  rw [result, Bool.eq_iff_iff, truthful, exit]
  constructor
  · exact fun running => running.2.1
  · exact fun mining => ⟨found, mining, settled.pair.mp mining⟩

theorem stop_stops {client : Client} {rest : List Event} {s : State} (inv : Inv s)
    (one : OneCall (.stop client) rest s) :
    Inv (call (.stop client) rest s) ∧ (call (.stop client) rest s).globals.mining = false := by
  obtain ⟨after, -, mining⟩ := one.ends inv true ⟨rfl, rfl, rfl⟩
  exact ⟨after, mining⟩

end NativeCalls
