import MoneroRandomXMiner.Histories
import Mathlib.Data.List.Basic

/-!
# Starting and stopping the native miner

Both JNI clients start and stop the one miner behind `g_miner` and `g_mining`
under `g_mutex`. A call that holds the mutex goes through its section step by
step, with a failure or an exception wherever one can occur. The miners are
numbered in the order of their construction.
-/

namespace NativeBridge

open Histories

/-- The two classes with native methods. Their sections differ in how the
configuration is read and in the callback references that the service keeps. -/
inductive Client where
  | mainActivity
  | minerService
  deriving DecidableEq

inductive WorkerThread where
  | running
  | returned
  | joined
  deriving DecidableEq

/-- `started` holds once `start_mining` has returned. A joined thread stays in
the list, where `stop_mining` clears its vector. -/
structure Miner where
  alive : Bool
  running : Bool
  started : Bool
  threads : List WorkerThread
  deriving DecidableEq

def Miner.constructed : Miner := ⟨true, false, false, []⟩

/-- `g_mining` and `g_miner`. -/
structure Globals where
  mining : Bool
  miner : Option Nat
  deriving DecidableEq

def stopped : Globals := ⟨false, none⟩

/-- What a section goes on with once `reset` or an assignment has destroyed the old miner. -/
inductive After where
  | returnFalse
  | storeStopped
  | initializeNew
  deriving DecidableEq

/-- What `stop_mining` returns to: the stopping call, or the destructor. -/
inductive Return where
  | toStop
  | toDestructor (after : After)
  deriving DecidableEq

/-- The next action of the call that holds the mutex. -/
inductive Pc where
  | checkMining
  | construct
  | initializeMiner
  | storeRunning
  | createThread (k : Nat)
  | storeMining
  | checkMiner
  | storeStopped
  | reset (after : After)
  | halt (m : Nat) (ret : Return)
  | join (m : Nat) (ret : Return)
  | free (m : Nat) (after : After)
  deriving DecidableEq

/-- `entry` records the globals at the beginning of the section. -/
structure Call where
  client : Client
  numThreads : Nat
  entry : Globals
  pc : Pc
  deriving DecidableEq

/-- What a call of `nativeStartMining` returned, and the globals around its section. -/
structure Answer where
  client : Client
  result : Bool
  entry : Globals
  exit : Globals
  deriving DecidableEq

structure State where
  globals : Globals
  miners : List Miner
  call : Option Call
  answers : List Answer
  deriving DecidableEq

/-- How the construction, `initialize` or the creation of a thread ends. -/
inductive Outcome where
  | succeeds
  | fails
  | throws
  deriving DecidableEq

inductive Event where
  | start (client : Client) (numThreads : Nat)
  | stop (client : Client)
  | proceed (outcome : Outcome)
  | workerReturns (m k : Nat)

def goTo (pc : Pc) (c : Call) (s : State) : State := { s with call := some { c with pc := pc } }

def answer (result : Bool) (c : Call) (s : State) : State :=
  { s with call := none, answers := ⟨c.client, result, c.entry, s.globals⟩ :: s.answers }

def modifyMiner (m : Nat) (f : Miner → Miner) (s : State) : State :=
  { s with miners := s.miners.modify m f }

/-- The actions on the miner that `g_miner` points to. -/
def withMiner (f : Nat → State → State) (s : State) : State :=
  match s.globals.miner with
  | some m => f m s
  | none => s

def afterwards (after : After) (c : Call) (s : State) : State :=
  match after with
  | .returnFalse => answer false c s
  | .storeStopped => goTo .storeStopped c s
  | .initializeNew => goTo .initializeMiner c s

/-- The assignment of a new miner destroys an old one. -/
def assignNew (c : Call) (s : State) : State :=
  let assigned := { s with
    globals := { s.globals with miner := some s.miners.length }
    miners := s.miners ++ [Miner.constructed] }
  match s.globals.miner with
  | none => goTo .initializeMiner c assigned
  | some old => goTo (.halt old (.toDestructor .initializeNew)) c assigned

/-- `g_miner.reset()`: the pointer is null before the destructor runs. -/
def resetMiner (after : After) (c : Call) (s : State) : State :=
  match s.globals.miner with
  | none => afterwards after c s
  | some m =>
    goTo (.halt m (.toDestructor after)) c { s with globals := { s.globals with miner := none } }

/-- The end of `stop_mining`. -/
def returnTo (m : Nat) (ret : Return) (c : Call) (s : State) : State :=
  match ret with
  | .toStop => goTo (.reset .storeStopped) c s
  | .toDestructor after => goTo (.free m after) c s

def proceed (outcome : Outcome) (c : Call) (s : State) : State :=
  match c.pc with
  | .checkMining => if s.globals.mining then answer false c s else goTo .construct c s
  | .construct =>
    if outcome = .succeeds then assignNew c s else goTo (.reset .returnFalse) c s
  | .initializeMiner =>
    if outcome = .succeeds then goTo .storeRunning c s else goTo (.reset .returnFalse) c s
  | .storeRunning =>
    withMiner (fun m s =>
      goTo (.createThread 0) c (modifyMiner m (fun x => { x with running := true }) s)) s
  | .createThread k =>
    if k < c.numThreads then
      if outcome = .succeeds then
        withMiner (fun m s => goTo (.createThread (k + 1)) c
          (modifyMiner m (fun x => { x with threads := x.threads ++ [.running] }) s)) s
      else goTo (.reset .returnFalse) c s
    else
      withMiner (fun m s =>
        goTo .storeMining c (modifyMiner m (fun x => { x with started := true }) s)) s
  | .storeMining => answer true c { s with globals := { s.globals with mining := true } }
  | .checkMiner =>
    match s.globals.miner with
    | some m => goTo (.halt m .toStop) c s
    | none => goTo .storeStopped c s
  | .storeStopped => { s with globals := { s.globals with mining := false }, call := none }
  | .reset after => resetMiner after c s
  | .halt m ret => goTo (.join m ret) c (modifyMiner m (fun x => { x with running := false }) s)
  | .join m ret =>
    returnTo m ret c
      (modifyMiner m (fun x => { x with threads := x.threads.map fun _ => .joined }) s)
  | .free m after => afterwards after c (modifyMiner m (fun x => { x with alive := false }) s)

/-- A join waits for all threads. Only `initialize` can fail without an exception. -/
def ProceedEnabled (outcome : Outcome) (miners : List Miner) : Pc → Prop
  | .initializeMiner => True
  | .construct | .createThread _ => outcome ≠ .fails
  | .join m _ => ∀ x ∈ miners[m]?, ∀ w ∈ x.threads, w ≠ .running
  | _ => outcome = .succeeds

instance (outcome : Outcome) (miners : List Miner) :
    ∀ pc, Decidable (ProceedEnabled outcome miners pc)
  | .initializeMiner => inferInstanceAs (Decidable True)
  | .construct | .createThread _ => inferInstanceAs (Decidable (_ ≠ _))
  | .join m _ =>
    inferInstanceAs (Decidable (∀ x ∈ miners[m]?, ∀ w ∈ x.threads, w ≠ WorkerThread.running))
  | .checkMining | .storeRunning | .storeMining | .checkMiner | .storeStopped | .reset _
  | .halt _ _ | .free _ _ => inferInstanceAs (Decidable (_ = _))

def Enabled (s : State) : Event → Prop
  | .start _ _ | .stop _ => s.call = none
  | .proceed outcome => ∃ c ∈ s.call, ProceedEnabled outcome s.miners c.pc
  | .workerReturns m k => ∃ x ∈ s.miners[m]?, x.threads[k]? = some .running

instance (s : State) : ∀ e, Decidable (Enabled s e)
  | .start _ _ | .stop _ => inferInstanceAs (Decidable (_ = _))
  | .proceed outcome =>
    inferInstanceAs (Decidable (∃ c ∈ s.call, ProceedEnabled outcome s.miners c.pc))
  | .workerReturns m k =>
    inferInstanceAs (Decidable (∃ x ∈ s.miners[m]?, x.threads[k]? = some .running))

def next (s : State) : Event → State
  | .start client numThreads =>
    { s with call := some ⟨client, numThreads, s.globals, .checkMining⟩ }
  | .stop client => { s with call := some ⟨client, 0, s.globals, .checkMiner⟩ }
  | .proceed outcome =>
    match s.call with
    | some c => proceed outcome c s
    | none => s
  | .workerReturns m k =>
    modifyMiner m (fun x => { x with threads := x.threads.set k .returned }) s

def machine : Machine State Event where
  Enabled := Enabled
  next := next

instance (s : State) (e : Event) : Decidable (machine.Enabled s e) :=
  inferInstanceAs (Decidable (Enabled s e))

/-- The library has been loaded. -/
def Started (s : State) : Prop := s = ⟨stopped, [], none, []⟩

/-- Destroyed, with all its worker threads joined. -/
def Miner.Dead (x : Miner) : Prop := x.alive = false ∧ ∀ w ∈ x.threads, w = .joined

/-- All miners are dead, but for the one given. -/
def OthersDead (miners : List Miner) (o : Option Nat) : Prop :=
  ∀ i x, miners[i]? = some x → o ≠ some i → x.Dead

/-- What holds whenever the mutex is free. -/
structure Settled (g : Globals) (miners : List Miner) : Prop where
  pair : g.mining = true ↔ g.miner ≠ none
  current : ∀ m, g.miner = some m →
    ∃ x, miners[m]? = some x ∧ x.alive = true ∧ x.started = true
  others : OthersDead miners g.miner

def Globals.IsRunning (g : Globals) : Prop := g.mining = true ∧ g.miner ≠ none

/-- A start returns true exactly when it takes the globals from stopped to running. -/
def Truthful (a : Answer) : Prop := a.result = true ↔ a.entry = stopped ∧ a.exit.IsRunning

/-- The miner with this number is alive and has the property. -/
def LiveWith (P : Miner → Prop) (miners : List Miner) (m : Nat) : Prop :=
  ∃ x, miners[m]? = some x ∧ x.alive = true ∧ P x

def AllJoined (x : Miner) : Prop := ∀ w ∈ x.threads, w = .joined

/-- A section that goes on this way has found the miner stopped and left
`g_mining` alone, or it is about to clear it. -/
def Agreed (after : After) (c : Call) (g : Globals) : Prop :=
  match after with
  | .returnFalse => c.entry = stopped ∧ g.mining = false
  | .storeStopped => True
  | .initializeNew => False

/-- A start past its check: one live miner, not yet announced by `g_mining`. -/
def Building (P : Miner → Prop) (c : Call) (g : Globals) (miners : List Miner) : Prop :=
  c.entry = stopped ∧ g.mining = false ∧
    ∃ m, g.miner = some m ∧ LiveWith P miners m ∧ OthersDead miners (some m)

/-- Where `stop_mining` finds the pointer to the miner it works on. -/
def Stopping (m : Nat) (c : Call) (g : Globals) : Return → Prop
  | .toStop => g.miner = some m
  | .toDestructor after => g.miner = none ∧ Agreed after c g

/-- The invariant at each action of a section. -/
def Consistent (c : Call) (g : Globals) (miners : List Miner) : Prop :=
  match c.pc with
  | .checkMining | .checkMiner => Settled g miners ∧ c.entry = g
  | .construct => c.entry = stopped ∧ g = stopped ∧ OthersDead miners none
  | .initializeMiner | .storeRunning | .createThread _ => Building (fun _ => True) c g miners
  | .storeMining => Building (fun x => x.started = true) c g miners
  | .storeStopped => g.miner = none ∧ OthersDead miners none
  | .reset after => Agreed after c g ∧ OthersDead miners g.miner ∧
      ∀ m, g.miner = some m → LiveWith (fun _ => True) miners m
  | .halt m ret | .join m ret =>
    LiveWith (fun _ => True) miners m ∧ OthersDead miners (some m) ∧ Stopping m c g ret
  | .free m after =>
    LiveWith AllJoined miners m ∧ OthersDead miners (some m) ∧
      Stopping m c g (.toDestructor after)

structure Inv (s : State) : Prop where
  truthful : ∀ a ∈ s.answers, Truthful a
  settled : s.call = none → Settled s.globals s.miners
  consistent : ∀ c, s.call = some c → Consistent c s.globals s.miners

theorem othersDead_modify {miners : List Miner} {m : Nat} (f : Miner → Miner)
    (others : OthersDead miners (some m)) : OthersDead (miners.modify m f) (some m) := by
  intro i x hx hne
  have other : m ≠ i := fun heq => hne (by rw [heq])
  rw [List.getElem?_modify_ne _ _ other] at hx
  exact others i x hx hne

theorem liveWith_modify {P Q : Miner → Prop} {miners : List Miner} {m : Nat} {f : Miner → Miner}
    (live : LiveWith P miners m) (alive : ∀ x, (f x).alive = x.alive)
    (keeps : ∀ x, P x → Q (f x)) : LiveWith Q (miners.modify m f) m := by
  obtain ⟨x, hx, halive, hp⟩ := live
  refine ⟨f x, ?_, (alive x).trans halive, keeps x hp⟩
  rw [List.getElem?_modify_eq, hx]
  rfl

/-- The last miner dies: its threads are joined and the object is freed. -/
theorem othersDead_freed {miners : List Miner} {m : Nat} (live : LiveWith AllJoined miners m)
    (others : OthersDead miners (some m)) :
    OthersDead (miners.modify m fun x => { x with alive := false }) none := by
  intro i x hx _
  by_cases heq : m = i
  · subst heq
    obtain ⟨y, hy, _, joined⟩ := live
    rw [List.getElem?_modify_eq, hy] at hx
    obtain rfl := Option.some.inj hx
    exact ⟨rfl, joined⟩
  · rw [List.getElem?_modify_ne _ _ heq] at hx
    exact others i x hx fun hsome => heq (Option.some.inj hsome)

theorem settled_stopped {g : Globals} {miners : List Miner} (globals : g = stopped)
    (others : OthersDead miners none) : Settled g miners := by
  subst globals
  exact ⟨by simp [stopped], fun m hm => (nomatch hm), others⟩

theorem not_settled_running {g : Globals} {miners : List Miner} (settled : Settled g miners)
    (idle : g.mining = false) : g = stopped := by
  obtain ⟨mining, miner⟩ := g
  obtain rfl : mining = false := idle
  cases miner with
  | none => rfl
  | some m => exact absurd (settled.pair.mpr (Option.some_ne_none m)) Bool.false_ne_true

theorem inv_goTo {s : State} {c : Call} {pc : Pc} (truthful : ∀ a ∈ s.answers, Truthful a)
    (consistent : Consistent { c with pc := pc } s.globals s.miners) : Inv (goTo pc c s) := by
  refine ⟨truthful, fun hnone => (nomatch hnone), ?_⟩
  intro d hd
  obtain rfl := Option.some.inj hd
  exact consistent

theorem inv_answer {s : State} {c : Call} {result : Bool} (truthful : ∀ a ∈ s.answers, Truthful a)
    (truth : Truthful ⟨c.client, result, c.entry, s.globals⟩)
    (settled : Settled s.globals s.miners) : Inv (answer result c s) := by
  refine ⟨?_, fun _ => settled, fun d hd => (nomatch hd)⟩
  intro a ha
  rcases List.mem_cons.mp ha with rfl | old
  · exact truth
  · exact truthful a old

/-- With no miner left the section returns false or clears `g_mining`. -/
theorem inv_afterwards {s : State} {c : Call} {after : After}
    (truthful : ∀ a ∈ s.answers, Truthful a) (agreed : Agreed after c s.globals)
    (empty : s.globals.miner = none) (others : OthersDead s.miners none) :
    Inv (afterwards after c s) := by
  cases after with
  | returnFalse =>
    obtain ⟨_, idle⟩ := agreed
    have globals : s.globals = stopped := by
      rw [stopped, ← idle, ← empty]
    refine inv_answer truthful ?_ (settled_stopped globals others)
    constructor
    · exact fun hfalse => absurd hfalse Bool.false_ne_true
    · rintro ⟨_, hmining, _⟩
      exact absurd (idle.symm.trans hmining) Bool.false_ne_true
  | storeStopped => exact inv_goTo truthful ⟨empty, others⟩
  | initializeNew => exact agreed.elim

theorem inv_resetMiner {s : State} {c : Call} {after : After}
    (truthful : ∀ a ∈ s.answers, Truthful a) (agreed : Agreed after c s.globals)
    (others : OthersDead s.miners s.globals.miner)
    (live : ∀ m, s.globals.miner = some m → LiveWith (fun _ => True) s.miners m) :
    Inv (resetMiner after c s) := by
  unfold resetMiner
  cases hm : s.globals.miner with
  | none =>
    rw [hm] at others
    exact inv_afterwards truthful agreed hm others
  | some m =>
    rw [hm] at others
    refine inv_goTo truthful ⟨live m hm, others, rfl, ?_⟩
    cases after with
    | returnFalse => exact agreed
    | storeStopped => trivial
    | initializeNew => exact agreed.elim

theorem Building.reset {P : Miner → Prop} {s : State} {c : Call}
    (building : Building P c s.globals s.miners) :
    Consistent { c with pc := .reset .returnFalse } s.globals s.miners := by
  obtain ⟨hentry, idle, m, hm, live, others⟩ := building
  refine ⟨⟨hentry, idle⟩, hm ▸ others, ?_⟩
  intro m' hm'
  obtain rfl := Option.some.inj (hm.symm.trans hm')
  obtain ⟨x, hx, alive, _⟩ := live
  exact ⟨x, hx, alive, trivial⟩

/-- A step of the start-up on the miner that it has just built. -/
theorem inv_withMiner {P Q : Miner → Prop} {s : State} {c : Call} {pc : Pc} {f : Miner → Miner}
    (truthful : ∀ a ∈ s.answers, Truthful a) (building : Building P c s.globals s.miners)
    (alive : ∀ x, (f x).alive = x.alive) (keeps : ∀ x, P x → Q (f x))
    (consistent : ∀ miners, Building Q c s.globals miners →
      Consistent { c with pc := pc } s.globals miners) :
    Inv (withMiner (fun m s => goTo pc c (modifyMiner m f s)) s) := by
  obtain ⟨hentry, idle, m, hm, live, others⟩ := building
  have built : Building Q c s.globals (s.miners.modify m f) :=
    ⟨hentry, idle, m, hm, liveWith_modify live alive keeps, othersDead_modify f others⟩
  simp only [withMiner, hm]
  exact @inv_goTo (modifyMiner m f s) c pc truthful (consistent _ built)

theorem inv_assignNew {s : State} {c : Call} (truthful : ∀ a ∈ s.answers, Truthful a)
    (entry : c.entry = stopped) (globals : s.globals = stopped)
    (others : OthersDead s.miners none) : Inv (assignNew c s) := by
  have empty : s.globals.miner = none := by
    rw [globals]
    rfl
  simp only [assignNew, empty]
  refine inv_goTo truthful ⟨entry, ?_, s.miners.length, rfl, ?_, ?_⟩
  · rw [globals]
    rfl
  · exact ⟨Miner.constructed, by simp, rfl, trivial⟩
  · intro i x hx hne
    have old : i < s.miners.length := by
      have hlt : i < (s.miners ++ [Miner.constructed]).length :=
        (List.getElem?_eq_some_iff.mp hx).1
      rw [List.length_append, List.length_singleton] at hlt
      have hi : i ≠ s.miners.length := fun heq => hne (by rw [heq])
      omega
    rw [List.getElem?_append_left old] at hx
    exact others i x hx (Option.some_ne_none i).symm

theorem inv_checkMining {s : State} {c : Call} (truthful : ∀ a ∈ s.answers, Truthful a)
    (settled : Settled s.globals s.miners) (entry : c.entry = s.globals) :
    Inv (if s.globals.mining then answer false c s else goTo .construct c s) := by
  cases hmining : s.globals.mining with
  | true =>
    refine inv_answer truthful ?_ settled
    constructor
    · exact fun hfalse => absurd hfalse Bool.false_ne_true
    · rintro ⟨hentry, _⟩
      change c.entry = stopped at hentry
      rw [← entry, hentry] at hmining
      cases hmining
  | false =>
    have globals := not_settled_running settled hmining
    have others := settled.others
    rw [globals] at others
    exact inv_goTo truthful ⟨entry.trans globals, globals, others⟩

theorem inv_storeMining {s : State} {c : Call} (truthful : ∀ a ∈ s.answers, Truthful a)
    (building : Building (fun x => x.started = true) c s.globals s.miners) :
    Inv (answer true c { s with globals := { s.globals with mining := true } }) := by
  obtain ⟨entry, _, m, hm, live, others⟩ := building
  have pointed : s.globals.miner ≠ none := by
    rw [hm]
    exact Option.some_ne_none m
  refine inv_answer truthful ?_ ⟨?_, ?_, ?_⟩
  · exact ⟨fun _ => ⟨entry, rfl, pointed⟩, fun _ => rfl⟩
  · exact ⟨fun _ => pointed, fun _ => rfl⟩
  · intro m' hm'
    obtain rfl := Option.some.inj (hm.symm.trans hm')
    exact live
  · change OthersDead s.miners s.globals.miner
    rw [hm]
    exact others

theorem inv_checkMiner {s : State} {c : Call} (truthful : ∀ a ∈ s.answers, Truthful a)
    (settled : Settled s.globals s.miners) :
    Inv (match s.globals.miner with
      | some m => goTo (.halt m .toStop) c s
      | none => goTo .storeStopped c s) := by
  have others := settled.others
  cases hm : s.globals.miner with
  | none =>
    rw [hm] at others
    exact inv_goTo truthful ⟨hm, others⟩
  | some m =>
    rw [hm] at others
    obtain ⟨x, hx, alive, _⟩ := settled.current m hm
    exact inv_goTo truthful ⟨⟨x, hx, alive, trivial⟩, others, hm⟩

theorem inv_returnTo {s : State} {c : Call} {m : Nat} {ret : Return}
    (truthful : ∀ a ∈ s.answers, Truthful a) (joined : LiveWith AllJoined s.miners m)
    (others : OthersDead s.miners (some m)) (stopping : Stopping m c s.globals ret) :
    Inv (returnTo m ret c s) := by
  cases ret with
  | toStop =>
    have hm : s.globals.miner = some m := stopping
    refine inv_goTo truthful ⟨trivial, hm ▸ others, ?_⟩
    intro m' hm'
    obtain rfl := Option.some.inj (hm.symm.trans hm')
    obtain ⟨x, hx, alive, _⟩ := joined
    exact ⟨x, hx, alive, trivial⟩
  | toDestructor after =>
    refine inv_goTo truthful ⟨joined, others, stopping.1, ?_⟩
    cases after <;> exact stopping.2

/-- One action of the section keeps the invariant. -/
theorem inv_proceed {s : State} {c : Call} {outcome : Outcome} (inv : Inv s)
    (calling : s.call = some c) : Inv (proceed outcome c s) := by
  have truthful := inv.truthful
  have consistent := inv.consistent c calling
  cases hpc : c.pc with
  | checkMining =>
    simp only [Consistent, hpc] at consistent
    simp only [proceed, hpc]
    exact inv_checkMining truthful consistent.1 consistent.2
  | construct =>
    simp only [Consistent, hpc] at consistent
    obtain ⟨entry, globals, others⟩ := consistent
    simp only [proceed, hpc]
    split
    · exact inv_assignNew truthful entry globals others
    · refine inv_goTo truthful ⟨⟨entry, ?_⟩, ?_, ?_⟩
      · rw [globals]
        rfl
      · rw [globals]
        exact others
      · rw [globals]
        exact fun m hm => (nomatch hm)
  | initializeMiner =>
    simp only [Consistent, hpc] at consistent
    simp only [proceed, hpc]
    split
    · exact inv_goTo truthful consistent
    · exact inv_goTo truthful consistent.reset
  | storeRunning =>
    simp only [Consistent, hpc] at consistent
    simp only [proceed, hpc]
    exact inv_withMiner truthful consistent (fun _ => rfl) (fun _ => id) fun _ => id
  | createThread k =>
    simp only [Consistent, hpc] at consistent
    simp only [proceed, hpc]
    split
    · split
      · exact inv_withMiner truthful consistent (fun _ => rfl) (fun _ => id) fun _ => id
      · exact inv_goTo truthful consistent.reset
    · exact inv_withMiner truthful consistent (fun _ => rfl) (fun _ _ => rfl) fun _ => id
  | storeMining =>
    simp only [Consistent, hpc] at consistent
    simp only [proceed, hpc]
    exact inv_storeMining truthful consistent
  | checkMiner =>
    simp only [Consistent, hpc] at consistent
    simp only [proceed, hpc]
    exact inv_checkMiner truthful consistent.1
  | storeStopped =>
    simp only [Consistent, hpc] at consistent
    simp only [proceed, hpc]
    refine ⟨truthful, fun _ => settled_stopped ?_ consistent.2, fun d hd => (nomatch hd)⟩
    rw [stopped, ← consistent.1]
  | reset after =>
    simp only [Consistent, hpc] at consistent
    simp only [proceed, hpc]
    exact inv_resetMiner truthful consistent.1 consistent.2.1 consistent.2.2
  | halt m ret =>
    simp only [Consistent, hpc] at consistent
    obtain ⟨live, others, stopping⟩ := consistent
    simp only [proceed, hpc]
    refine @inv_goTo (modifyMiner m _ s) c (.join m ret) truthful ⟨?_, ?_, ?_⟩
    · exact liveWith_modify live (fun _ => rfl) fun _ => id
    · exact othersDead_modify _ others
    · cases ret <;> exact stopping
  | join m ret =>
    simp only [Consistent, hpc] at consistent
    obtain ⟨live, others, stopping⟩ := consistent
    simp only [proceed, hpc]
    refine @inv_returnTo (modifyMiner m _ s) c m ret truthful ?_ (othersDead_modify _ others)
      stopping
    refine liveWith_modify live (fun _ => rfl) ?_
    intro x _ w hw
    obtain ⟨_, _, rfl⟩ := List.mem_map.mp hw
    rfl
  | free m after =>
    simp only [Consistent, hpc] at consistent
    obtain ⟨live, others, empty, agreed⟩ := consistent
    simp only [proceed, hpc]
    refine inv_afterwards truthful ?_ empty (othersDead_freed live others)
    cases after <;> exact agreed

/-- A worker that returns belongs to a miner that is not dead. -/
theorem othersDead_returns {miners : List Miner} {o : Option Nat} {m k : Nat} {x : Miner}
    (hx : miners[m]? = some x) (running : x.threads[k]? = some .running)
    (others : OthersDead miners o) :
    OthersDead (miners.modify m fun x => { x with threads := x.threads.set k .returned }) o := by
  intro i y hy hne
  by_cases heq : m = i
  · subst heq
    have joined := (others m x hx hne).2 .running (List.mem_of_getElem? running)
    cases joined
  · rw [List.getElem?_modify_ne _ _ heq] at hy
    exact others i y hy hne

theorem liveWith_returns {P : Miner → Prop} {miners : List Miner} {i m k : Nat} {x : Miner}
    (hx : miners[m]? = some x) (running : x.threads[k]? = some .running)
    (keeps : ∀ y, P y → y.threads[k]? = some .running →
      P { y with threads := y.threads.set k .returned })
    (live : LiveWith P miners i) :
    LiveWith P (miners.modify m fun x => { x with threads := x.threads.set k .returned }) i := by
  obtain ⟨y, hy, alive, hp⟩ := live
  by_cases heq : m = i
  · subst heq
    obtain rfl := Option.some.inj (hx.symm.trans hy)
    refine ⟨{ x with threads := x.threads.set k .returned }, ?_, alive, keeps x hp running⟩
    rw [List.getElem?_modify_eq, hx]
    rfl
  · refine ⟨y, ?_, alive, hp⟩
    rw [List.getElem?_modify_ne _ _ heq, hy]

theorem allJoined_returns {k : Nat} (y : Miner) (joined : AllJoined y)
    (running : y.threads[k]? = some .running) :
    AllJoined { y with threads := y.threads.set k .returned } := by
  have impossible := joined .running (List.mem_of_getElem? running)
  cases impossible

theorem settled_returns {g : Globals} {miners : List Miner} {m k : Nat} {x : Miner}
    (hx : miners[m]? = some x) (running : x.threads[k]? = some .running)
    (settled : Settled g miners) :
    Settled g (miners.modify m fun x => { x with threads := x.threads.set k .returned }) where
  pair := settled.pair
  current := fun i hi =>
    liveWith_returns (P := fun y => y.started = true) hx running (fun _ started _ => started)
      (settled.current i hi)
  others := othersDead_returns hx running settled.others

theorem inv_workerReturns {s : State} {m k : Nat} {x : Miner} (inv : Inv s)
    (hx : s.miners[m]? = some x) (running : x.threads[k]? = some .running) :
    Inv (next s (.workerReturns m k)) := by
  have building : ∀ {P : Miner → Prop} {c : Call},
      (∀ y, P y → y.threads[k]? = some .running →
        P { y with threads := y.threads.set k .returned }) →
      Building P c s.globals s.miners → Building P c s.globals
        (s.miners.modify m fun x => { x with threads := x.threads.set k .returned }) := by
    rintro P c keeps ⟨entry, idle, i, hi, live, others⟩
    exact ⟨entry, idle, i, hi, liveWith_returns hx running keeps live,
      othersDead_returns hx running others⟩
  refine ⟨inv.truthful, fun free => settled_returns hx running (inv.settled free), ?_⟩
  intro c calling
  have consistent := inv.consistent c calling
  cases hpc : c.pc with
  | checkMining | checkMiner =>
    simp only [Consistent, hpc] at consistent ⊢
    exact ⟨settled_returns hx running consistent.1, consistent.2⟩
  | construct =>
    simp only [Consistent, hpc] at consistent ⊢
    exact ⟨consistent.1, consistent.2.1, othersDead_returns hx running consistent.2.2⟩
  | initializeMiner | storeRunning | createThread k' =>
    simp only [Consistent, hpc] at consistent ⊢
    exact building (fun _ _ _ => trivial) consistent
  | storeMining =>
    simp only [Consistent, hpc] at consistent ⊢
    exact building (fun _ started _ => started) consistent
  | storeStopped =>
    simp only [Consistent, hpc] at consistent ⊢
    exact ⟨consistent.1, othersDead_returns hx running consistent.2⟩
  | reset after =>
    simp only [Consistent, hpc] at consistent ⊢
    exact ⟨consistent.1, othersDead_returns hx running consistent.2.1,
      fun i hi => liveWith_returns hx running (fun _ _ _ => trivial) (consistent.2.2 i hi)⟩
  | halt i ret | join i ret =>
    simp only [Consistent, hpc] at consistent ⊢
    exact ⟨liveWith_returns hx running (fun _ _ _ => trivial) consistent.1,
      othersDead_returns hx running consistent.2.1, consistent.2.2⟩
  | free i after =>
    simp only [Consistent, hpc] at consistent ⊢
    exact ⟨liveWith_returns hx running allJoined_returns consistent.1,
      othersDead_returns hx running consistent.2.1, consistent.2.2⟩

theorem inv_step {s : State} {e : Event} (inv : Inv s) (enabled : Enabled s e) :
    Inv (next s e) := by
  cases e with
  | start client numThreads =>
    refine ⟨inv.truthful, fun hnone => (nomatch hnone), ?_⟩
    intro c hc
    obtain rfl := Option.some.inj hc
    exact ⟨inv.settled enabled, rfl⟩
  | stop client =>
    refine ⟨inv.truthful, fun hnone => (nomatch hnone), ?_⟩
    intro c hc
    obtain rfl := Option.some.inj hc
    exact ⟨inv.settled enabled, rfl⟩
  | proceed outcome =>
    obtain ⟨c, calling, _⟩ := enabled
    simp only [next, Option.mem_def.mp calling]
    exact inv_proceed inv calling
  | workerReturns m k =>
    obtain ⟨x, hx, running⟩ := enabled
    exact inv_workerReturns inv hx running

theorem inv_run {h : List (State × Event)} {s : State} (run : Run machine Started h s) : Inv s := by
  apply run.invariant (P := fun _ s => Inv s)
  · rintro s rfl
    refine ⟨fun a ha => (nomatch ha), fun _ => settled_stopped rfl ?_, fun c hc => (nomatch hc)⟩
    exact fun i x hx => (nomatch hx)
  · exact fun _ _ _ before enabled => inv_step before enabled

/-- Whenever `g_mutex` is free the globals agree, only the miner they point to is
alive, and every start has told its caller the truth. -/
theorem settled_run {h : List (State × Event)} {s : State} (run : Run machine Started h s)
    (free : s.call = none) : Settled s.globals s.miners ∧ ∀ a ∈ s.answers, Truthful a :=
  ⟨(inv_run run).settled free, (inv_run run).truthful⟩

/-- The miner that `g_miner` points to is alive at every action of a section. -/
theorem Inv.pointed_alive {s : State} (inv : Inv s) {m : Nat} (hm : s.globals.miner = some m) :
    LiveWith (fun _ => True) s.miners m := by
  have settled : Settled s.globals s.miners → LiveWith (fun _ => True) s.miners m := by
    intro settled
    obtain ⟨x, hx, alive, _⟩ := settled.current m hm
    exact ⟨x, hx, alive, trivial⟩
  have building : ∀ {P : Miner → Prop} {c : Call}, Building P c s.globals s.miners →
      LiveWith (fun _ => True) s.miners m := by
    rintro P c ⟨_, _, i, hi, ⟨x, hx, alive, _⟩, _⟩
    obtain rfl := Option.some.inj (hi.symm.trans hm)
    exact ⟨x, hx, alive, trivial⟩
  have null : s.globals.miner = none → LiveWith (fun _ => True) s.miners m := by
    intro empty
    rw [empty] at hm
    cases hm
  cases calling : s.call with
  | none => exact settled (inv.settled calling)
  | some c =>
    have consistent := inv.consistent c calling
    cases hpc : c.pc with
    | checkMining | checkMiner =>
      simp only [Consistent, hpc] at consistent
      exact settled consistent.1
    | construct =>
      simp only [Consistent, hpc] at consistent
      exact null (by rw [consistent.2.1]; rfl)
    | initializeMiner | storeRunning | createThread k =>
      simp only [Consistent, hpc] at consistent
      exact building consistent
    | storeMining =>
      simp only [Consistent, hpc] at consistent
      exact building consistent
    | storeStopped =>
      simp only [Consistent, hpc] at consistent
      exact null consistent.1
    | reset after =>
      simp only [Consistent, hpc] at consistent
      exact consistent.2.2 m hm
    | halt i ret | join i ret =>
      simp only [Consistent, hpc] at consistent
      cases ret with
      | toStop =>
        obtain rfl := Option.some.inj (consistent.2.2.symm.trans hm)
        exact consistent.1
      | toDestructor after => exact null consistent.2.2.1
    | free i after =>
      simp only [Consistent, hpc] at consistent
      exact null consistent.2.2.1

theorem workersReturn {s : State} {m : Nat} {x : Miner} (hx : s.miners[m]? = some x) :
    ∃ s' x', Leads machine s s' ∧ s'.call = s.call ∧ s'.miners[m]? = some x' ∧
      ∀ w ∈ x'.threads, w ≠ .running := by
  induction hcount : x.threads.count .running generalizing s x with
  | zero => exact ⟨s, x, .refl, rfl, hx, fun w hw heq => List.count_eq_zero.mp hcount (heq ▸ hw)⟩
  | succ count ih =>
    have present : WorkerThread.running ∈ x.threads := by
      rw [← List.count_pos_iff, hcount]
      exact Nat.succ_pos count
    obtain ⟨k, hlt, hk⟩ := List.mem_iff_getElem.mp present
    have enabled : Enabled s (.workerReturns m k) :=
      ⟨x, hx, List.getElem?_eq_some_iff.mpr ⟨hlt, hk⟩⟩
    have hnext : (next s (.workerReturns m k)).miners[m]? =
        some { x with threads := x.threads.set k .returned } := by
      simp [next, modifyMiner, hx]
    obtain ⟨s', x', leads, calling, hx', idle⟩ := ih hnext (by
      rw [List.count_set hlt, hk, hcount]
      rfl)
    exact ⟨s', x', leads.head (e := .workerReturns m k) enabled, calling, hx', idle⟩

/-- A destructor that has begun comes to its end once the workers have returned. -/
theorem freed_eventually {s : State} {c : Call} {m : Nat} {after : After} (inv : Inv s)
    (calling : s.call = some c) (hpc : c.pc = .halt m (.toDestructor after)) :
    ∃ s', Leads machine s s' ∧ ∃ x, s'.miners[m]? = some x ∧ x.alive = false := by
  have consistent := inv.consistent c calling
  simp only [Consistent, hpc] at consistent
  obtain ⟨x, hx, _⟩ := consistent.1
  have halts : Enabled s (.proceed .succeeds) := ⟨c, calling, by simp only [hpc, ProceedEnabled]⟩
  have halted : next s (.proceed .succeeds) =
      goTo (.join m (.toDestructor after)) c
        (modifyMiner m (fun x => { x with running := false }) s) := by
    simp only [next, calling, proceed, hpc]
  obtain ⟨t, y, leads, waiting, hy, idle⟩ := workersReturn (s := next s (.proceed .succeeds))
    (m := m) (x := { x with running := false }) (by simp [halted, goTo, modifyMiner, hx])
  rw [halted] at waiting
  have joins : Enabled t (.proceed .succeeds) := by
    refine ⟨_, waiting, ?_⟩
    intro z hz
    obtain rfl := Option.some.inj (hy.symm.trans hz)
    exact idle
  have joined : next t (.proceed .succeeds) =
      goTo (.free m after) { c with pc := .join m (.toDestructor after) }
        (modifyMiner m (fun x => { x with threads := x.threads.map fun _ => .joined }) t) := by
    simp only [next, waiting, goTo, proceed, returnTo]
  have frees : Enabled (next t (.proceed .succeeds)) (.proceed .succeeds) := by
    rw [joined]
    exact ⟨_, rfl, rfl⟩
  have freed : Leads machine t (next (next t (.proceed .succeeds)) (.proceed .succeeds)) :=
    Leads.head (e := .proceed .succeeds) joins (Leads.head (e := .proceed .succeeds) frees .refl)
  refine ⟨_, Leads.head (e := .proceed .succeeds) halts (leads.trans freed), ?_⟩
  rw [joined]
  refine ⟨{ y with threads := y.threads.map fun _ => .joined, alive := false }, ?_, rfl⟩
  cases after <;> simp [next, goTo, proceed, afterwards, answer, modifyMiner, hy]

/-- The second worker of the activity's miner cannot be created; the service then
starts one that runs, and the activity is told that it cannot start another. -/
def thirdStart : List Event :=
  [.start .mainActivity 2, .proceed .succeeds, .proceed .succeeds, .proceed .succeeds,
    .proceed .succeeds, .proceed .succeeds, .proceed .throws, .proceed .succeeds,
    .proceed .succeeds, .workerReturns 0 0, .proceed .succeeds, .proceed .succeeds,
    .start .minerService 1, .proceed .succeeds, .proceed .succeeds, .proceed .succeeds,
    .proceed .succeeds, .proceed .succeeds, .proceed .succeeds, .proceed .succeeds,
    .start .mainActivity 2, .proceed .succeeds]

def loaded : State := ⟨stopped, [], none, []⟩

def thirdStartRun : List (State × Event) × State := replay machine thirdStart ([], loaded)

theorem settled_run_thirdStart :
    Settled thirdStartRun.2.globals thirdStartRun.2.miners ∧
      ∀ a ∈ thirdStartRun.2.answers, Truthful a := by
  have started : Run machine Started [] loaded := .init rfl
  exact settled_run (replay_run started thirdStart (by decide)) (by decide)

end NativeBridge
