import MoneroRandomXMiner.Histories
import MoneroRandomXMiner.Ownership
import MoneroRandomXMiner.HexText

/-!
# Who owns the RandomX objects of a wrapper

A wrapper holds a cache, a dataset and the VMs created from the two. It gives
them back when it is destroyed, initialised again or moved onto, and passes
them on when it is moved from. An initialisation may throw at several points
and leaves in the wrapper whatever it has built by then.
-/

namespace RandomXWrapper

open Histories HexText Ownership

/-- A VM with the cache and the dataset it was created from. -/
structure Vm where
  id : Nat
  cache : Nat
  dataset : Nat
  deriving DecidableEq

inductive Handle where
  | cache (id : Nat)
  | dataset (id : Nat)
  | vm (v : Vm)
  deriving DecidableEq

def Handle.id : Handle → Nat
  | .cache id => id
  | .dataset id => id
  | .vm v => v.id

/-- What RandomX has handed out, newest first, and what was given back to it,
oldest first. Every object handed out is a new one. -/
structure Heap where
  next : Nat
  handedOut : List Handle
  released : List Handle

namespace Heap

def empty : Heap := ⟨0, [], []⟩

def handOut (x : Handle) (h : Heap) : Heap :=
  { h with next := h.next + 1, handedOut := x :: h.handedOut }

def giveBack (x : Handle) (h : Heap) : Heap := { h with released := h.released ++ [x] }

def allocCache (ok : Bool) (h : Heap) : Option Nat × Heap :=
  if ok then (some h.next, h.handOut (.cache h.next)) else (none, h)

def allocDataset (ok : Bool) (h : Heap) : Option Nat × Heap :=
  if ok then (some h.next, h.handOut (.dataset h.next)) else (none, h)

def createVm (ok : Bool) (c d : Nat) (h : Heap) : Option Vm × Heap :=
  if ok then (some ⟨h.next, c, d⟩, h.handOut (.vm ⟨h.next, c, d⟩)) else (none, h)

def destroyVm (h : Heap) (v : Vm) : Heap := h.giveBack (.vm v)

def releaseDataset (d : Nat) (h : Heap) : Heap := h.giveBack (.dataset d)

def releaseCache (c : Nat) (h : Heap) : Heap := h.giveBack (.cache c)

end Heap

/-- The members of the class. Only pointers that are not null enter `m_vms`. -/
structure Wrapper where
  cache : Option Nat
  dataset : Option Nat
  vms : List Vm
  deriving DecidableEq

def Wrapper.empty : Wrapper := ⟨none, none, []⟩

/-- The outcomes of the allocations of one call of `initialize`: null, or an
exception of `reserve`, is `false`. VM creations are numbered by call, retries
included. -/
structure Outcome where
  cache : Bool
  dataset : Bool
  reserve : Bool
  createVm : Nat → Bool

def destroy (w : Wrapper) (h : Heap) : Wrapper × Heap :=
  let h := w.vms.foldl Heap.destroyVm h
  let h := match w.dataset with
    | some d => h.releaseDataset d
    | none => h
  let h := match w.cache with
    | some c => h.releaseCache c
    | none => h
  (.empty, h)

/-- One VM, with a second attempt without JIT if the first one was with it. -/
def createWithRetry (ok : Nat → Bool) (call : Nat) (jit : Bool) (c d : Nat) (h : Heap) :
    Option Vm × (Nat × Bool) × Heap :=
  match h.createVm (ok call) c d with
  | (some v, h) => (some v, (call + 1, jit), h)
  | (none, h) =>
    if jit then
      let retried := h.createVm (ok (call + 1)) c d
      (retried.1, (call + 2, false), retried.2)
    else (none, (call + 1, jit), h)

def vmFailure (i : Nat) : Text :=
  lit "Failed to create RandomX VM for thread " ++ lit (toString i)

/-- The loop over `i` below `num_threads`; the exception leaves the loop. -/
def createVms (ok : Nat → Bool) (c d : Nat) :
    Nat → Nat → Nat × Bool → Wrapper → Heap → Except Text Bool × Wrapper × Heap
  | 0, _, _, w, h => (.ok true, w, h)
  | count + 1, i, (call, jit), w, h =>
    match createWithRetry ok call jit c d h with
    | (none, _, h) => (.error (vmFailure i), w, h)
    | (some v, flags, h) => createVms ok c d count (i + 1) flags { w with vms := w.vms ++ [v] } h

def initializeWrapper (numThreads : Nat) (ok : Outcome) (w : Wrapper) (h : Heap) :
    Except Text Bool × Wrapper × Heap :=
  let (w, h) := destroy w h
  match h.allocCache ok.cache with
  | (none, h) => (.error (lit "Failed to allocate RandomX cache"), w, h)
  | (some c, h) =>
    let w := { w with cache := some c }
    match h.allocDataset ok.dataset with
    | (none, h) =>
      (.error (lit "Failed to allocate RandomX dataset"), { w with cache := none },
        h.releaseCache c)
    | (some d, h) =>
      let w := { w with dataset := some d }
      if ok.reserve then createVms ok.createVm c d numThreads 0 (0, true) w h
      else (.error (lit "std::bad_alloc"), w, h)

/-- The wrappers that are alive, by name. -/
structure State where
  heap : Heap
  wrappers : Nat → Option Wrapper

inductive Event where
  | construct (i : Nat)
  | initializeWrapper (i numThreads : Nat) (ok : Outcome)
  | moveConstruct (i other : Nat)
  | moveAssign (i other : Nat)
  | destruct (i : Nat)

def Enabled (s : State) : Event → Prop
  | .construct i => s.wrappers i = none
  | .initializeWrapper i _ _ | .destruct i => (s.wrappers i).isSome
  | .moveConstruct i other => s.wrappers i = none ∧ (s.wrappers other).isSome
  | .moveAssign i other => (s.wrappers i).isSome ∧ (s.wrappers other).isSome

instance (s : State) : ∀ e, Decidable (Enabled s e)
  | .construct _ => inferInstanceAs (Decidable (_ = _))
  | .initializeWrapper _ _ _ | .destruct _ => inferInstanceAs (Decidable (_ = _))
  | .moveConstruct _ _ | .moveAssign _ _ => inferInstanceAs (Decidable (_ ∧ _))

def put (ws : Nat → Option Wrapper) (i : Nat) (w : Wrapper) : Nat → Option Wrapper :=
  Function.update ws i (some w)

/-- The members of the other wrapper, which is left without any. -/
def takeOver (s : State) (i other : Nat) (w : Wrapper) : State :=
  { s with wrappers := put (put s.wrappers i w) other .empty }

/-- Both moves leave the other wrapper with null pointers and an empty vector. -/
def next (s : State) : Event → State
  | .construct i => { s with wrappers := put s.wrappers i .empty }
  | .initializeWrapper i numThreads ok =>
    match s.wrappers i with
    | some w =>
      let r := initializeWrapper numThreads ok w s.heap
      ⟨r.2.2, put s.wrappers i r.2.1⟩
    | none => s
  | .moveConstruct i other =>
    match s.wrappers other with
    | some w => takeOver s i other w
    | none => s
  | .moveAssign i other =>
    if i = other then s
    else
      match s.wrappers i, s.wrappers other with
      | some old, some w =>
        let r := destroy old s.heap
        takeOver ⟨r.2, put s.wrappers i r.1⟩ i other w
      | _, _ => s
  | .destruct i =>
    match s.wrappers i with
    | some w => ⟨(destroy w s.heap).2, Function.update s.wrappers i none⟩
    | none => s

def machine : Machine State Event where
  Enabled := Enabled
  next := next

instance (s : State) (e : Event) : Decidable (machine.Enabled s e) :=
  inferInstanceAs (Decidable (Enabled s e))

/-- No wrapper has been constructed yet. -/
def Started (s : State) : Prop := s = ⟨.empty, fun _ => none⟩

/-- In the order in which `destroy` gives them back. -/
def Wrapper.handles (w : Wrapper) : List Handle :=
  w.vms.map .vm ++ w.dataset.toList.map .dataset ++ w.cache.toList.map .cache

def ownedBy : Option Wrapper → List Handle
  | none => []
  | some w => w.handles

/-- A VM depends on the two objects it was created from. -/
def DependsOn : Handle → Handle → Prop
  | .vm v, .cache c => v.cache = c
  | .vm v, .dataset d => v.dataset = d
  | _, _ => False

/-- The state as a ledger. -/
def ledger (s : State) : Ledger Nat Handle :=
  ⟨s.heap.handedOut, s.heap.released, fun i => ownedBy (s.wrappers i)⟩

/-- Whatever has been handed out and not released is owned by one live wrapper,
once; nothing is released twice, and no cache or dataset before the VMs created
from it; and without live wrappers everything is released. -/
structure Accounted (s : State) : Prop where
  owned : ∀ x ∈ s.heap.handedOut, x ∉ s.heap.released →
    ∃! i, ∃ w, s.wrappers i = some w ∧ x ∈ w.handles
  held : ∀ i w, s.wrappers i = some w →
    w.handles.Nodup ∧ ∀ x ∈ w.handles, x ∈ s.heap.handedOut ∧ x ∉ s.heap.released
  once : s.heap.released.Nodup ∧ ∀ x ∈ s.heap.released, x ∈ s.heap.handedOut
  vmsFirst : ∀ older x newer, s.heap.released = older ++ x :: newer →
    ∀ v, .vm v ∈ s.heap.handedOut → x = .cache v.cache ∨ x = .dataset v.dataset →
      .vm v ∈ older
  complete : (∀ i, s.wrappers i = none) → ∀ x ∈ s.heap.handedOut, x ∈ s.heap.released

structure Good (s : State) : Prop where
  sound : Sound DependsOn (ledger s)
  bounded : ∀ x ∈ s.heap.handedOut, x.id < s.heap.next

theorem mem_ownedBy {s : State} {i : Nat} {x : Handle} :
    x ∈ ownedBy (s.wrappers i) ↔ ∃ w, s.wrappers i = some w ∧ x ∈ w.handles := by
  cases hw : s.wrappers i with
  | none => simp [ownedBy]
  | some w => simp [ownedBy]

theorem Good.accounted {s : State} (good : Good s) : Accounted s where
  owned := by
    intro x out live
    simpa only [ledger, mem_ownedBy] using good.sound.owner_unique out live
  held := by
    intro i w hw
    have hown : (ledger s).owned i = w.handles := by simp only [ledger, hw, ownedBy]
    refine ⟨hown ▸ good.sound.ownedOnce i, fun x hx => ?_⟩
    rw [← hown] at hx
    exact ⟨good.sound.handedOut_of_owned hx, good.sound.unreleased i x hx⟩
  once := ⟨good.sound.releasedOnce, fun x hx => (good.sound.known x).mpr (Or.inl hx)⟩
  vmsFirst := by
    intro older x newer split v out parent
    apply good.sound.ordered older x newer split (.vm v) out
    rcases parent with rfl | rfl
    · rfl
    · rfl
  complete := by
    intro none x out
    apply good.sound.all_released (fun i => ?_) out
    simp only [ledger, none i, ownedBy]

/-- `destroy` gives back all handles, in order. -/
theorem destroy_eq (w : Wrapper) (h : Heap) :
    destroy w h = (.empty, { h with released := h.released ++ w.handles }) := by
  have hvms : ∀ (vms : List Vm) (h : Heap),
      vms.foldl Heap.destroyVm h = { h with released := h.released ++ vms.map .vm } := by
    intro vms
    induction vms with
    | nil => exact fun h => by simp
    | cons v vms ih =>
      intro h
      rw [List.foldl_cons, ih]
      simp [Heap.destroyVm, Heap.giveBack]
  obtain ⟨cache, dataset, vms⟩ := w
  cases cache <;> cases dataset <;>
    simp [destroy, hvms, Wrapper.handles, Heap.releaseDataset, Heap.releaseCache, Heap.giveBack]

/-- A VM stands before the cache and the dataset of its wrapper. -/
theorem handles_dependentsFirst (w : Wrapper) :
    DependentsFirst DependsOn (· ∈ w.handles) w.handles := by
  intro older x newer split y hy hdep
  obtain ⟨v, rfl⟩ : ∃ v, y = .vm v := by
    cases y with
    | vm v => exact ⟨v, rfl⟩
    | _ => cases hdep
  have hv : .vm v ∈ w.vms.map Handle.vm := by
    simpa [Wrapper.handles] using hy
  have hx : x ∉ w.vms.map Handle.vm := by
    intro hx
    obtain ⟨u, _, rfl⟩ := List.mem_map.mp hx
    exact hdep
  rw [Wrapper.handles, List.append_assoc] at split
  rcases List.append_eq_append_iff.mp split with ⟨between, rfl, _⟩ | ⟨rest, hvms, htail⟩
  · exact List.mem_append_left _ hv
  · cases rest with
    | nil =>
      rw [List.append_nil] at hvms
      rwa [← hvms]
    | cons z rest =>
      rw [List.cons_append, List.cons.injEq] at htail
      obtain ⟨rfl, _⟩ := htail
      exact absurd (hvms ▸ by simp) hx

theorem ledger_put (h : Heap) (ws : Nat → Option Wrapper) (i : Nat) (o : Option Wrapper) :
    ledger ⟨h, Function.update ws i o⟩ =
      ⟨h.handedOut, h.released, Function.update (fun j => ownedBy (ws j)) i (ownedBy o)⟩ := by
  simp only [ledger, Ledger.mk.injEq, true_and]
  funext j
  by_cases hj : j = i
  · subst hj
    simp
  · simp [hj]

theorem put_self {ws : Nat → Option Wrapper} {i : Nat} {w : Wrapper} (hw : ws i = some w) :
    put ws i w = ws := by
  rw [put, ← hw, Function.update_eq_self]

theorem Good.congr {s s' : State} (good : Good s) (heap : s'.heap = s.heap)
    (owned : ∀ i, ownedBy (s'.wrappers i) = ownedBy (s.wrappers i)) : Good s' := by
  refine ⟨?_, heap ▸ good.bounded⟩
  have hledger : ledger s' = ledger s := by
    simp only [ledger, heap, owned]
  exact hledger ▸ good.sound

/-- A new object enters one wrapper, which holds what the object was made from. -/
theorem Good.acquire {h : Heap} {ws : Nat → Option Wrapper} {i : Nat} {w w' : Wrapper}
    {x : Handle} (good : Good ⟨h, put ws i w⟩) (hid : x.id = h.next)
    (parents : ∀ y, DependsOn x y → y ∈ w.handles) (listed : w'.handles.Perm (x :: w.handles)) :
    Good ⟨h.handOut x, put ws i w'⟩ := by
  have fresh : x ∉ h.handedOut := by
    intro old
    have hlt := good.bounded x old
    rw [hid] at hlt
    exact Nat.lt_irrefl _ hlt
  have hown : ownedBy (put ws i w i) = w.handles := by
    rw [put, Function.update_self, ownedBy]
  constructor
  · have hparents : ∀ y, DependsOn x y → y ∈ (ledger ⟨h, put ws i w⟩).owned i :=
      fun y hy => by simpa only [ledger, hown] using parents y hy
    have hlisted : w'.handles.Perm (x :: (ledger ⟨h, put ws i w⟩).owned i) := by
      simpa only [ledger, hown] using listed
    have sound := good.sound.acquire fresh hparents hlisted
    rw [put, ledger_put]
    rw [put, ledger_put] at sound
    simp only [Function.update_idem] at sound
    exact sound
  · intro y hy
    rcases List.mem_cons.mp hy with rfl | old
    · rw [hid]
      exact Nat.lt_succ_self _
    · exact Nat.lt_succ_of_lt (good.bounded y old)

/-- A wrapper gives back what it holds; it ends up empty or gone. -/
theorem Good.destroy {h : Heap} {ws : Nat → Option Wrapper} {i : Nat} {w : Wrapper}
    {o : Option Wrapper} (good : Good ⟨h, put ws i w⟩) (none : ownedBy o = []) :
    Good ⟨(destroy w h).2, Function.update ws i o⟩ := by
  have hown : ownedBy (put ws i w i) = w.handles := by
    rw [put, Function.update_self, ownedBy]
  rw [destroy_eq]
  refine ⟨?_, good.bounded⟩
  have sound := good.sound.releaseAll i
    (by simpa only [ledger, hown] using handles_dependentsFirst w)
  simp only [ledger, hown] at sound
  rw [ledger_put, none]
  convert sound using 2
  funext j
  by_cases hj : j = i
  · subst hj
    simp
  · simp [hj, put]

theorem Good.takeOver {h : Heap} {ws : Nat → Option Wrapper} {i other : Nat} {w : Wrapper}
    (good : Good ⟨h, ws⟩) (distinct : i ≠ other) (vacant : ownedBy (ws i) = [])
    (hw : ws other = some w) : Good (takeOver ⟨h, ws⟩ i other w) := by
  refine ⟨?_, good.bounded⟩
  have sound := good.sound.transfer distinct vacant
  rw [RandomXWrapper.takeOver, put, ledger_put]
  have hown : ownedBy (ws other) = w.handles := by rw [hw, ownedBy]
  simp only [ledger, hown] at sound
  convert sound using 2
  funext j
  by_cases hj : j = other
  · subst hj
    simp [ownedBy, Wrapper.handles, Wrapper.empty]
  · by_cases hi : j = i
    · subst hi
      simp [hj, put, ownedBy]
    · simp [hj, hi, put]

/-- The second attempt included, one VM is created or none. -/
theorem createWithRetry_cases (ok : Nat → Bool) (call : Nat) (jit : Bool) (c d : Nat) (h : Heap) :
    (∃ flags, createWithRetry ok call jit c d h = (none, flags, h)) ∨
      ∃ flags, createWithRetry ok call jit c d h =
        (some ⟨h.next, c, d⟩, flags, h.handOut (.vm ⟨h.next, c, d⟩)) := by
  unfold createWithRetry
  cases hfirst : ok call with
  | true => exact Or.inr ⟨(call + 1, jit), by simp only [Heap.createVm, if_true]⟩
  | false =>
    simp only [Heap.createVm, Bool.false_eq_true, if_false]
    cases jit with
    | false => exact Or.inl ⟨_, rfl⟩
    | true =>
      cases hsecond : ok (call + 1) with
      | true => exact Or.inr ⟨_, rfl⟩
      | false => exact Or.inl ⟨_, rfl⟩

/-- However the loop ends, the VMs created so far are in the wrapper. -/
theorem Good.createVms {ws : Nat → Option Wrapper} {i : Nat} (ok : Nat → Bool) {c d : Nat}
    (count t : Nat) (flags : Nat × Bool) {w : Wrapper} {h : Heap} (good : Good ⟨h, put ws i w⟩)
    (hc : w.cache = some c) (hd : w.dataset = some d) :
    Good ⟨(createVms ok c d count t flags w h).2.2,
      put ws i (createVms ok c d count t flags w h).2.1⟩ := by
  induction count generalizing t flags w h with
  | zero => exact good
  | succ count ih =>
    obtain ⟨call, jit⟩ := flags
    rcases createWithRetry_cases ok call jit c d h with ⟨flags, hnone⟩ | ⟨flags, hsome⟩
    · simp only [RandomXWrapper.createVms, hnone]
      exact good
    · simp only [RandomXWrapper.createVms, hsome]
      refine ih _ _ (good.acquire rfl ?_ ?_) hc hd
      · intro y hy
        cases y with
        | cache c' =>
          obtain rfl : c = c' := hy
          simp [Wrapper.handles, hc]
        | dataset d' =>
          obtain rfl : d = d' := hy
          simp [Wrapper.handles, hd]
        | vm v => cases hy
      · simp only [Wrapper.handles, List.map_append, List.append_assoc]
        exact List.perm_middle

theorem Good.initializeWrapper {h : Heap} {ws : Nat → Option Wrapper} {i : Nat} {w : Wrapper}
    (good : Good ⟨h, put ws i w⟩) (numThreads : Nat) (ok : Outcome) :
    Good ⟨(initializeWrapper numThreads ok w h).2.2,
      put ws i (initializeWrapper numThreads ok w h).2.1⟩ := by
  have cleared : Good ⟨(RandomXWrapper.destroy w h).2, put ws i .empty⟩ := good.destroy rfl
  obtain ⟨g, hg⟩ : ∃ g, g = (RandomXWrapper.destroy w h).2 := ⟨_, rfl⟩
  have hdestroy : RandomXWrapper.destroy w h = (.empty, g) := by
    rw [hg, destroy_eq]
  rw [← hg] at cleared
  simp only [RandomXWrapper.initializeWrapper, hdestroy]
  cases hcache : ok.cache with
  | false =>
    simp only [Heap.allocCache, Bool.false_eq_true, if_false]
    exact cleared
  | true =>
    have withCache : Good ⟨g.handOut (.cache g.next), put ws i ⟨some g.next, none, []⟩⟩ :=
      cleared.acquire rfl (fun y hy => by cases y <;> cases hy) (List.Perm.refl _)
    simp only [Heap.allocCache, if_true]
    cases hdataset : ok.dataset with
    | false =>
      simp only [Heap.allocDataset, Bool.false_eq_true, if_false]
      exact withCache.destroy (o := some .empty) rfl
    | true =>
      have withDataset : Good ⟨(g.handOut (.cache g.next)).handOut (.dataset (g.next + 1)),
          put ws i ⟨some g.next, some (g.next + 1), []⟩⟩ :=
        withCache.acquire rfl (fun y hy => by cases y <;> cases hy) (List.Perm.refl _)
      simp only [Heap.allocDataset, if_true]
      cases hreserve : ok.reserve with
      | false =>
        simp only [Bool.false_eq_true, if_false]
        exact withDataset
      | true =>
        simp only [if_true]
        exact withDataset.createVms ok.createVm numThreads 0 (0, true) rfl rfl

/-- The second VM fails with and without JIT; the first one stays in the wrapper. -/
example : (initializeWrapper 2 ⟨true, true, true, fun call => call == 0⟩ .empty .empty).2.1 =
    ⟨some 0, some 1, [⟨2, 0, 1⟩]⟩ := by decide

theorem good_step {s : State} {e : Event} (good : Good s) (enabled : Enabled s e) :
    Good (next s e) := by
  cases e with
  | construct i =>
    refine good.congr rfl fun j => ?_
    by_cases hj : j = i
    · subst hj
      have vacant : s.wrappers j = none := enabled
      simp [next, put, vacant, ownedBy, Wrapper.handles, Wrapper.empty]
    · simp [next, put, hj]
  | initializeWrapper i numThreads ok =>
    obtain ⟨w, hw⟩ := Option.isSome_iff_exists.mp enabled
    simp only [next, hw]
    apply Good.initializeWrapper
    rw [put_self hw]
    exact good
  | moveConstruct i other =>
    obtain ⟨w, hw⟩ := Option.isSome_iff_exists.mp enabled.2
    have distinct : i ≠ other := by
      rintro rfl
      rw [enabled.1] at hw
      cases hw
    simp only [next, hw]
    exact good.takeOver distinct (by rw [enabled.1, ownedBy]) hw
  | moveAssign i other =>
    obtain ⟨old, hold⟩ := Option.isSome_iff_exists.mp enabled.1
    obtain ⟨w, hw⟩ := Option.isSome_iff_exists.mp enabled.2
    by_cases same : i = other
    · simp only [next, if_pos same]
      exact good
    · simp only [next, if_neg same, hold, hw]
      have cleared : Good ⟨(destroy old s.heap).2, put s.wrappers i .empty⟩ := by
        apply Good.destroy (w := old) _ rfl
        rw [put_self hold]
        exact good
      refine cleared.takeOver same ?_ ?_
      · rw [put, Function.update_self]
        rfl
      · rw [put, Function.update_of_ne (Ne.symm same), hw]
  | destruct i =>
    obtain ⟨w, hw⟩ := Option.isSome_iff_exists.mp enabled
    simp only [next, hw]
    apply Good.destroy _ rfl
    rw [put_self hw]
    exact good

theorem good_run {h : List (State × Event)} {s : State} (run : Run machine Started h s) :
    Good s := by
  apply run.invariant (P := fun _ s => Good s)
  · rintro t rfl
    exact ⟨Sound.empty DependsOn, fun _ hx => nomatch hx⟩
  · exact fun _ _ _ before enabled => good_step before enabled

/-- The ledger is sound in every state that the operations reach. -/
theorem accounted_run {h : List (State × Event)} {s : State} (run : Run machine Started h s) :
    Accounted s := (good_run run).accounted

/-- The creation of the second VM fails with JIT and then without. -/
def secondVmFails : Outcome := ⟨true, true, true, fun call => call == 0⟩

/-- A partly built wrapper moves into a second one, which is then moved onto
itself; both are destroyed. -/
def partlyBuilt : List Event :=
  [.construct 0, .initializeWrapper 0 2 secondVmFails, .moveConstruct 1 0, .moveAssign 1 1,
    .destruct 0, .destruct 1]

theorem accounted_run_partlyBuilt :
    Accounted (replay machine partlyBuilt ([], ⟨.empty, fun _ => none⟩)).2 := by
  have started : Run machine Started [] ⟨.empty, fun _ => none⟩ := .init rfl
  exact accounted_run (replay_run started partlyBuilt (by decide))

end RandomXWrapper
