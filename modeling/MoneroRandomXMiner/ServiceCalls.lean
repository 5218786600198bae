import MoneroRandomXMiner.MinerService
import MoneroRandomXMiner.NativeCalls
import MoneroRandomXMiner.Simulations

/-!
# The service over the native library

The service takes a native call for one step. Below it a call waits for the
mutex, then goes through its section, where construction, `initialize` and
threads can fail, and the other threads of the service go on meanwhile. With a
call counted where it returns, what the service sees are the runs of the
service alone, and `g_mining` is what it takes it to be.
-/

namespace ServiceCalls

open Histories Simulations NativeBridge NativeCalls
open MinerService (Service MainPc)

structure State where
  service : Service
  native : NativeBridge.State

inductive Event where
  | service (e : MinerService.Event)
  | beginStart (numThreads : Nat)
  | beginStop
  | native (e : NativeBridge.Event)

/-- The steps of the service that are native calls. -/
def CallsNative (s : Service) : MinerService.Event → Prop
  | .nativeStart _ => True
  | .proceed => ∃ k, s.main = .stopNative k
  | _ => False

instance : ∀ m : MainPc, Decidable (∃ k, m = .stopNative k)
  | .stopNative k => .isTrue ⟨k, rfl⟩
  | .idle | .check | .acquire | .launch | .clear _ | .release _ | .cancel _ =>
    .isFalse fun ⟨_, stops⟩ => nomatch stops

instance (s : Service) : ∀ e, Decidable (CallsNative s e)
  | .nativeStart _ => inferInstanceAs (Decidable True)
  | .proceed => inferInstanceAs (Decidable (∃ k, s.main = .stopNative k))
  | .deliver _ | .acquireFails | .timeOut _ | .dispatch | .resume _ =>
    inferInstanceAs (Decidable False)

def Enabled (s : State) : Event → Prop
  | .service e => MinerService.Enabled s.service e ∧ ¬ CallsNative s.service e
  | .beginStart _ => 0 < s.service.begun ∧ s.native.call = none
  | .beginStop => (∃ k, s.service.main = .stopNative k) ∧ s.native.call = none
  | .native e => NativeBridge.Enabled s.native e ∧ ¬ Begins e

instance (s : State) : ∀ e, Decidable (Enabled s e)
  | .service _ | .beginStart _ | .beginStop | .native _ => inferInstanceAs (Decidable (_ ∧ _))

/-- The call that an event of the library brings to its return, as a step of the service. -/
def returned (s : State) (e : NativeBridge.Event) : Option MinerService.Event :=
  match s.native.call, (NativeBridge.next s.native e).call with
  | some c, none =>
    if ofStop c.pc then some .proceed
    else some (.nativeStart (lastResult (NativeBridge.next s.native e)))
  | _, _ => none

/-- What the service sees of an event. -/
def shown (s : State) : Event → Option MinerService.Event
  | .service e => some e
  | .native e => returned s e
  | _ => none

def next (s : State) (e : Event) : State where
  service :=
    match shown s e with
    | some e' => MinerService.next s.service e'
    | none => s.service
  native :=
    match e with
    | .service _ => s.native
    | .beginStart numThreads => NativeBridge.next s.native (.start .minerService numThreads)
    | .beginStop => NativeBridge.next s.native (.stop .minerService)
    | .native e => NativeBridge.next s.native e

def machine : Machine State Event where
  Enabled := Enabled
  next := next

instance (s : State) (e : Event) : Decidable (machine.Enabled s e) :=
  inferInstanceAs (Decidable (Enabled s e))

/-- The service has been created, and the library is loaded. -/
def created : State := ⟨.created, NativeBridge.loaded⟩

/-- A call in its section: the main thread waits for a stop, and a coroutine for a
start, which has found `g_mining` as the service takes it to be. -/
def Waiting (s : Service) (c : Call) : Prop :=
  if ofStop c.pc then ∃ k, s.main = .stopNative k
  else 0 < s.begun ∧ s.mining = c.entry.mining

structure Linked (s : State) : Prop where
  inv : Inv s.native
  free : s.native.call = none → s.service.mining = s.native.globals.mining
  calling : ∀ c, s.native.call = some c → Waiting s.service c
  entry : ∀ c, s.native.call = some c → c.entry.mining = false → c.entry = stopped

theorem linked_created : Linked created where
  inv := inv_run (.init rfl)
  free := fun _ => rfl
  calling := fun _ calling => nomatch calling
  entry := fun _ calling => nomatch calling

theorem agreed_entry {after : After} {c : Call} {g : Globals} (agreed : Agreed after c g)
    (starts : ofStopAfter after = false) : c.entry = stopped := by
  cases after with
  | returnFalse => exact agreed.1
  | storeStopped => cases starts
  | initializeNew => exact agreed.elim

/-- A start that has found the miner running is at its check, and has changed nothing. -/
theorem atCheck {c : Call} {g : Globals} {miners : List Miner} (consistent : Consistent c g miners)
    (starts : ofStop c.pc = false) (mining : c.entry.mining = true) :
    c.pc = .checkMining ∧ c.entry = g := by
  have running : c.entry ≠ stopped := by
    rintro stopped
    rw [stopped] at mining
    cases mining
  obtain ⟨client, numThreads, entry, pc⟩ := c
  cases pc with
  | checkMining => exact ⟨rfl, consistent.2⟩
  | construct => exact absurd consistent.1 running
  | initializeMiner => exact absurd consistent.1 running
  | storeRunning => exact absurd consistent.1 running
  | createThread k => exact absurd consistent.1 running
  | storeMining => exact absurd consistent.1 running
  | checkMiner => cases starts
  | storeStopped => cases starts
  | reset after => exact absurd (agreed_entry consistent.1 starts) running
  | halt m ret =>
    cases ret with
    | toStop => cases starts
    | toDestructor after => exact absurd (agreed_entry consistent.2.2.2 starts) running
  | join m ret =>
    cases ret with
    | toStop => cases starts
    | toDestructor after => exact absurd (agreed_entry consistent.2.2.2 starts) running
  | free m after => exact absurd (agreed_entry consistent.2.2.2 starts) running

/-- A start that returns has answered whether it found the miner stopped and left it
running, and otherwise it leaves `g_mining` as it found it. -/
theorem start_returns {s : NativeBridge.State} {c : Call} {e : NativeBridge.Event}
    (inv : Inv s) (calling : s.call = some c) (entry : c.entry.mining = false → c.entry = stopped)
    (enabled : NativeBridge.Enabled s e) (goesOn : ¬ Begins e) (starts : ofStop c.pc = false)
    (ends : (NativeBridge.next s e).call = none) :
    (NativeBridge.next s e).globals.mining =
        (c.entry.mining || lastResult (NativeBridge.next s e)) ∧
      (c.entry.mining = true → lastResult (NativeBridge.next s e) = false) := by
  have before : Within false c.entry s.answers s := by
    simp only [Within, calling]
    exact ⟨starts, trivial, trivial⟩
  have after := within_next before enabled goesOn
  simp only [Within, ends] at after
  obtain ⟨a, answered, aEntry, aExit⟩ := after
  have later := inv_step inv enabled
  have truthful : a.result = true ↔ a.entry = stopped ∧ a.exit.IsRunning :=
    later.truthful a (by rw [answered]; exact List.mem_cons_self)
  have result : lastResult (NativeBridge.next s e) = a.result := by rw [lastResult, answered]
  rw [aEntry, aExit] at truthful
  rw [result]
  cases mining : c.entry.mining with
  | true =>
    have refused : a.result = false := by
      rw [← Bool.not_eq_true, truthful]
      rintro ⟨found, _⟩
      rw [found] at mining
      cases mining
    obtain ⟨atCheck, same⟩ := atCheck (inv.consistent c calling) starts mining
    -- the check returns without touching the globals
    have kept : (NativeBridge.next s e).globals = s.globals := by
      cases e with
      | proceed outcome =>
        simp only [NativeBridge.next, calling, proceed, atCheck]
        split
        · rfl
        · rfl
      | workerReturns m k => rfl
      | start client numThreads => exact absurd trivial goesOn
      | stop client => exact absurd trivial goesOn
    rw [kept, ← same, mining, refused]
    exact ⟨rfl, fun _ => rfl⟩
  | false =>
    refine ⟨?_, fun found => by cases found⟩
    rw [Bool.false_or, Bool.eq_iff_iff, truthful]
    have settled := later.settled ends
    constructor
    · exact fun running => ⟨entry mining, running, settled.pair.mp running⟩
    · exact fun running => running.2.1

/-- A stop that returns has cleared `g_mining`. -/
theorem stop_returns {s : NativeBridge.State} {c : Call} {e : NativeBridge.Event}
    (calling : s.call = some c) (enabled : NativeBridge.Enabled s e) (goesOn : ¬ Begins e)
    (stops : ofStop c.pc = true) (ends : (NativeBridge.next s e).call = none) :
    (NativeBridge.next s e).globals.mining = false := by
  have before : Within true c.entry s.answers s := by
    simp only [Within, calling]
    exact ⟨stops, trivial, trivial⟩
  have after := within_next before enabled goesOn
  simp only [Within, ends] at after
  exact after.2

/-- Apart from its native calls the service leaves `g_mining` alone, and a thread
that waits for a call stays where it is. -/
theorem service_keeps {s : Service} {e : MinerService.Event} (enabled : MinerService.Enabled s e)
    (other : ¬ CallsNative s e) :
    (MinerService.next s e).mining = s.mining ∧ s.begun ≤ (MinerService.next s e).begun ∧
      ∀ k, s.main = .stopNative k → (MinerService.next s e).main = .stopNative k := by
  cases e with
  | deliver command =>
    have idle : s.main = .idle := by
      cases command with
      | start => exact enabled.1
      | ending k => exact enabled.1
    cases command <;> exact ⟨rfl, Nat.le_refl _, fun k stops => nomatch idle.symm.trans stops⟩
  | proceed =>
    have notStop : ∀ k, s.main ≠ .stopNative k := fun k stops => other ⟨k, stops⟩
    refine ⟨?_, ?_, fun k stops => absurd stops (notStop k)⟩
    · cases hmain : s.main with
      | stopNative k => exact absurd hmain (notStop k)
      | _ => simp [MinerService.next, MinerService.proceed, hmain]
    · cases hmain : s.main with
      | stopNative k => exact absurd hmain (notStop k)
      | _ => simp [MinerService.next, MinerService.proceed, hmain]
  | acquireFails =>
    have acquire : s.main = .acquire := enabled
    exact ⟨rfl, Nat.le_refl _, fun k stops => nomatch acquire.symm.trans stops⟩
  | timeOut referred => exact ⟨rfl, Nat.le_refl _, fun _ stops => stops⟩
  | dispatch => exact ⟨rfl, Nat.le_succ _, fun _ stops => stops⟩
  | nativeStart initialized => exact absurd trivial other
  | resume started =>
    cases started with
    | true => exact ⟨rfl, Nat.le_refl _, fun _ stops => stops⟩
    | false => exact ⟨rfl, Nat.le_refl _, fun _ stops => stops⟩

/-- The call that goes on is the one that was there. -/
theorem same_call {s : NativeBridge.State} {c c' : Call} {e : NativeBridge.Event}
    (calling : s.call = some c) (enabled : NativeBridge.Enabled s e) (goesOn : ¬ Begins e)
    (still : (NativeBridge.next s e).call = some c') :
    ofStop c'.pc = ofStop c.pc ∧ c'.entry = c.entry := by
  have before : Within (ofStop c.pc) c.entry s.answers s := by
    simp only [Within, calling]
    exact ⟨trivial, trivial, trivial⟩
  have after := within_next before enabled goesOn
  simp only [Within, still] at after
  exact ⟨after.1, after.2.1⟩

theorem Linked.service {s : State} {e : MinerService.Event} (linked : Linked s)
    (enabled : Enabled s (.service e)) : Linked (next s (.service e)) := by
  obtain ⟨mining, begun, stops⟩ := service_keeps enabled.1 enabled.2
  refine ⟨linked.inv, fun free => mining.trans (linked.free free), fun c calling => ?_,
    linked.entry⟩
  have waiting := linked.calling c calling
  unfold Waiting at waiting ⊢
  split
  · rename_i ofStop
    rw [if_pos ofStop] at waiting
    obtain ⟨k, hk⟩ := waiting
    exact ⟨k, stops k hk⟩
  · rename_i ofStart
    rw [if_neg ofStart] at waiting
    exact ⟨Nat.lt_of_lt_of_le waiting.1 begun, mining.trans waiting.2⟩

/-- A call begins at rest, so it finds the globals settled. -/
theorem Linked.begin {s : State} (linked : Linked s) {e : NativeBridge.Event} {c : Call}
    (enabled : NativeBridge.Enabled s.native e)
    (began : (NativeBridge.next s.native e).call = some c) (entry : c.entry = s.native.globals)
    (free : s.native.call = none) (waiting : Waiting s.service c) :
    Linked ⟨s.service, NativeBridge.next s.native e⟩ where
  inv := inv_step linked.inv enabled
  free := by
    intro none
    rw [began] at none
    cases none
  calling := by
    intro c' calling
    obtain rfl := Option.some.inj (began.symm.trans calling)
    exact waiting
  entry := by
    intro c' calling idle
    obtain rfl := Option.some.inj (began.symm.trans calling)
    rw [entry] at idle ⊢
    exact not_settled_running (linked.inv.settled free) idle

/-- What the service makes of a call that returns. -/
theorem Linked.returns {s : State} {e : NativeBridge.Event} {c : Call} (linked : Linked s)
    (calling : s.native.call = some c) (enabled : NativeBridge.Enabled s.native e)
    (goesOn : ¬ Begins e) (ends : (NativeBridge.next s.native e).call = none) :
    ∃ e', returned s e = some e' ∧ MinerService.Enabled s.service e' ∧
      (MinerService.next s.service e').mining = (NativeBridge.next s.native e).globals.mining := by
  have waiting := linked.calling c calling
  unfold Waiting at waiting
  cases kind : ofStop c.pc with
  | true =>
    rw [if_pos kind] at waiting
    obtain ⟨k, main⟩ := waiting
    refine ⟨.proceed, ?_, ?_, ?_⟩
    · simp only [returned, calling, ends, kind, if_true]
    · simp [MinerService.Enabled, main]
    · rw [stop_returns calling enabled goesOn kind ends]
      simp [MinerService.next, MinerService.proceed, main]
  | false =>
    rw [if_neg (by simp [kind])] at waiting
    obtain ⟨begun, mining⟩ := waiting
    obtain ⟨exit, refused⟩ := start_returns linked.inv calling (linked.entry c calling) enabled
      goesOn kind ends
    refine ⟨.nativeStart (lastResult (NativeBridge.next s.native e)), ?_, begun, ?_⟩
    · simp [returned, calling, ends, kind]
    · rw [exit, ← mining]
      rw [← mining] at refused
      cases hmining : s.service.mining with
      | true => simp [MinerService.next, MinerService.nativeStart, hmining]
      | false =>
        cases hresult : lastResult (NativeBridge.next s.native e) <;>
          simp [MinerService.next, MinerService.nativeStart, hmining]

theorem returned_none {s : State} {e : NativeBridge.Event}
    (still : s.native.call = none ∨ ∃ c, (NativeBridge.next s.native e).call = some c) :
    returned s e = none := by
  unfold returned
  split
  · rename_i c calling ends
    rcases still with before | ⟨c', after⟩
    · cases before.symm.trans calling
    · cases after.symm.trans ends
  · rfl

theorem Linked.native {s : State} {e : NativeBridge.Event} (linked : Linked s)
    (enabled : Enabled s (.native e)) : Linked (next s (.native e)) := by
  obtain ⟨enabled, goesOn⟩ := enabled
  have inv := inv_step linked.inv enabled
  have hidden : returned s e = none → (next s (.native e)).service = s.service := by
    intro none
    simp only [next, shown, none]
  cases before : s.native.call with
  | none =>
    obtain ⟨free, globals⟩ : (NativeBridge.next s.native e).call = none ∧
        (NativeBridge.next s.native e).globals = s.native.globals := by
      cases e with
      | proceed outcome =>
        obtain ⟨c, calling, _⟩ := enabled
        cases before.symm.trans calling
      | workerReturns m k => exact ⟨before, rfl⟩
      | start client numThreads => exact absurd trivial goesOn
      | stop client => exact absurd trivial goesOn
    have service := hidden (returned_none (Or.inl before))
    refine ⟨inv, fun _ => ?_, fun c calling => ?_, fun c calling => ?_⟩
    · rw [service, linked.free before]
      exact congrArg Globals.mining globals.symm
    · cases free.symm.trans calling
    · cases free.symm.trans calling
  | some c =>
    cases after : (NativeBridge.next s.native e).call with
    | none =>
      obtain ⟨e', hshown, _, mining⟩ := linked.returns before enabled goesOn after
      have service : (next s (.native e)).service = MinerService.next s.service e' := by
        simp only [next, shown, hshown]
      refine ⟨inv, fun _ => service ▸ mining, fun c calling => ?_, fun c calling => ?_⟩
      · cases after.symm.trans calling
      · cases after.symm.trans calling
    | some c' =>
      have service := hidden (returned_none (Or.inr ⟨c', after⟩))
      obtain ⟨kind, entry⟩ := same_call before enabled goesOn after
      refine ⟨inv, fun free => ?_, fun d calling => ?_, fun d calling => ?_⟩
      · cases after.symm.trans free
      · obtain rfl := Option.some.inj (after.symm.trans calling)
        have waiting := linked.calling c before
        rwa [service, Waiting, kind, entry]
      · obtain rfl := Option.some.inj (after.symm.trans calling)
        rw [entry]
        exact linked.entry c before

theorem Linked.step {s : State} {e : Event} (linked : Linked s) (enabled : Enabled s e) :
    Linked (next s e) := by
  cases e with
  | service e => exact linked.service enabled
  | beginStart numThreads =>
    obtain ⟨begun, free⟩ := enabled
    exact linked.begin (e := .start .minerService numThreads) free rfl rfl free
      ⟨begun, linked.free free⟩
  | beginStop =>
    obtain ⟨stops, free⟩ := enabled
    exact linked.begin (e := .stop .minerService) free rfl rfl free stops
  | native e => exact linked.native enabled

/-- The service over the library is the service with its native calls as single steps. -/
theorem refines_service :
    Refines machine MinerService.machine State.service shown Linked where
  keeps := fun _ _ linked enabled => linked.step enabled
  enabled := by
    intro s e e' linked enabled hshown
    cases e with
    | service e =>
      obtain rfl := Option.some.inj hshown
      exact enabled.1
    | beginStart numThreads => cases hshown
    | beginStop => cases hshown
    | native e =>
      obtain ⟨enabled, goesOn⟩ := enabled
      cases before : s.native.call with
      | none => cases (returned_none (Or.inl before)).symm.trans hshown
      | some c =>
        cases after : (NativeBridge.next s.native e).call with
        | none =>
          obtain ⟨e'', same, able, _⟩ := linked.returns before enabled goesOn after
          obtain rfl := Option.some.inj (same.symm.trans hshown)
          exact able
        | some c' => cases (returned_none (Or.inr ⟨c', after⟩)).symm.trans hshown
  next := by
    intro s e e' _ _ hshown
    show (next s e).service = _
    simp only [next, hshown]
    rfl
  hidden := by
    intro s e _ _ hidden
    show (next s e).service = _
    simp only [next, hidden]

/-- The part of a history that the service sees. -/
abbrev serviceOf (h : List (State × Event)) : List (Service × MinerService.Event) :=
  seen State.service shown h

/-- The service runs as by itself. Where no native call is under way `g_mining` is what
it takes it to be, and after orderly commands its own flag agrees with both globals. -/
structure Faithful (h : List (State × Event)) (s : State) : Prop where
  service : Run MinerService.machine (· = Service.created) (serviceOf h) s.service
  mining : s.native.call = none → s.service.mining = s.native.globals.mining
  agrees : (∀ m ∈ serviceOf h, MinerService.Orderly m.1 m.2) → MinerService.Quiescent s.service →
    s.native.call = none →
      (s.service.isMining = true ↔ s.native.globals.mining = true) ∧
        (s.service.isMining = true ↔ s.native.globals.miner ≠ none)

theorem calls_atomic {h : List (State × Event)} {s : State}
    (run : Run machine (· = created) h s) : Faithful h s := by
  have initial : ∀ s, s = created → Linked s ∧ s.service = Service.created := by
    rintro s rfl
    exact ⟨linked_created, rfl⟩
  have linked := refines_service.inv (fun s hs => (initial s hs).1) run
  have service : Run MinerService.machine (· = Service.created) (serviceOf h) s.service :=
    refines_service.run initial run
  refine ⟨service, linked.free, fun orderly quiet free => ?_⟩
  have agrees := ((MinerService.inv_run service orderly).agrees quiet).1
  have settled := linked.inv.settled free
  rw [agrees, linked.free free]
  exact ⟨Iff.rfl, settled.pair⟩

/-- A START, and its native call step by step. -/
def stepwiseStart : List Event :=
  [.service (.deliver .start), .service .proceed, .service .proceed, .service .proceed,
    .service .dispatch, .beginStart 1] ++
  List.replicate 7 (.native (.proceed .succeeds)) ++ [.service (.resume true)]

def stepwiseRun : List (State × Event) × State := replay machine stepwiseStart ([], created)

theorem stepwise_run : Run machine (· = created) stepwiseRun.1 stepwiseRun.2 := by
  have started : Run machine (· = created) [] created := .init rfl
  exact replay_run started stepwiseStart (by decide)

theorem calls_atomic_stepwise : Faithful stepwiseRun.1 stepwiseRun.2 := calls_atomic stepwise_run

end ServiceCalls
