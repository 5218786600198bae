import MoneroRandomXMiner.AndroidBridge
import MoneroRandomXMiner.Simulations
import MoneroRandomXMiner.WrapperInitialize

/-!
# What a wrapper hashes with

For its callers a wrapper is a seed and a number of threads. An initialisation
replaces the two, a move carries them on, and `hash` answers from them alone.
The wrapper class does the same with objects of RandomX: no hash is made with a
VM whose objects are gone or hold another seed.
-/

namespace WrapperHashing

open Histories Simulations HexText MiningBlob RandomXWrapper WrapperInitialize
open AndroidBridge (Temperature Extended extended)

abbrev Seed := List UInt8

/-- What the caches and the datasets have been initialised from. -/
structure Contents where
  caches : Nat → Option Seed
  datasets : Nat → Option Seed

structure State where
  base : RandomXWrapper.State
  contents : Contents

/-- `t > bound` -/
def Above (bound : ℚ) : Temperature → Prop
  | .nan => False
  | .celsius t => extended bound < t

instance (bound : ℚ) : ∀ t, Decidable (Above bound t)
  | .nan => inferInstanceAs (Decidable False)
  | .celsius _ => inferInstanceAs (Decidable (_ < _))

/-- The threads that `initialize_android` asks for, unless it is too hot. -/
def androidThreads (numThreads : Nat) (batteryLevel : Int) (temperature : Temperature) :
    Option Nat :=
  let t := if batteryLevel < 20 then min numThreads 1
    else if batteryLevel < 40 then min numThreads 2
    else numThreads
  if Above 55 temperature then none
  else if Above 45 temperature then some (min t 1)
  else if Above 40 temperature then some (min t 2)
  else some t

inductive Event where
  | construct (i : Nat)
  | initializeWrapper (i : Nat) (seed : Seed) (numThreads : Nat) (ok : Outcome)
  | initializeAndroid (i : Nat) (seed : Seed) (numThreads : Nat) (batteryLevel : Int)
      (temperature : Temperature) (ok : Outcome)
  | moveConstruct (i other : Nat)
  | moveAssign (i other : Nat)
  | destruct (i : Nat)

/-- The cache is initialised from the seed as soon as it is there, the dataset from
the cache. -/
def Contents.initialized (ok : Outcome) (seed : Seed) (h : Heap) (contents : Contents) :
    Contents :=
  match h.allocCache ok.cache with
  | (none, _) => contents
  | (some c, h) =>
    let contents := { contents with caches := Function.update contents.caches c (some seed) }
    match h.allocDataset ok.dataset with
    | (none, _) => contents
    | (some d, _) =>
      { contents with datasets := Function.update contents.datasets d (contents.caches c) }

def initializeSeeded (i : Nat) (seed : Seed) (numThreads : Nat) (ok : Outcome) (s : State) :
    State :=
  match s.base.wrappers i with
  | some w =>
    ⟨RandomXWrapper.next s.base (.initializeWrapper i numThreads ok),
      s.contents.initialized ok seed (destroy w s.base.heap).2⟩
  | none => s

def Enabled (s : State) : Event → Prop
  | .construct i => RandomXWrapper.Enabled s.base (.construct i)
  | .initializeWrapper i _ _ _ | .initializeAndroid i _ _ _ _ _ => (s.base.wrappers i).isSome
  | .moveConstruct i other => RandomXWrapper.Enabled s.base (.moveConstruct i other)
  | .moveAssign i other => RandomXWrapper.Enabled s.base (.moveAssign i other)
  | .destruct i => RandomXWrapper.Enabled s.base (.destruct i)

instance (s : State) : ∀ e, Decidable (Enabled s e)
  | .construct _ => inferInstanceAs (Decidable (_ = _))
  | .initializeWrapper _ _ _ _ | .initializeAndroid _ _ _ _ _ _ | .destruct _ =>
    inferInstanceAs (Decidable (_ = _))
  | .moveConstruct _ _ | .moveAssign _ _ => inferInstanceAs (Decidable (_ ∧ _))

def next (s : State) : Event → State
  | .construct i => { s with base := RandomXWrapper.next s.base (.construct i) }
  | .initializeWrapper i seed numThreads ok => initializeSeeded i seed numThreads ok s
  | .initializeAndroid i seed numThreads batteryLevel temperature ok =>
    match androidThreads numThreads batteryLevel temperature with
    | some t => initializeSeeded i seed t ok s
    | none => s
  | .moveConstruct i other => { s with base := RandomXWrapper.next s.base (.moveConstruct i other) }
  | .moveAssign i other => { s with base := RandomXWrapper.next s.base (.moveAssign i other) }
  | .destruct i => { s with base := RandomXWrapper.next s.base (.destruct i) }

def machine : Machine State Event where
  Enabled := Enabled
  next := next

instance (s : State) (e : Event) : Decidable (machine.Enabled s e) :=
  inferInstanceAs (Decidable (Enabled s e))

def started : State := ⟨⟨.empty, fun _ => none⟩, ⟨fun _ => none, fun _ => none⟩⟩

/-- Handed out and not given back. -/
def Out (h : Heap) (x : Handle) : Prop := x ∈ h.handedOut ∧ x ∉ h.released

instance (h : Heap) (x : Handle) : Decidable (Out h x) := inferInstanceAs (Decidable (_ ∧ _))

/-- `randomx_calculate_hash`: RandomX with the seed of the VM's objects while they are
there, and anything at all otherwise. -/
def calculateHash (randomx : Seed → List UInt8 → Hash) (junk : Vm → List UInt8 → Hash)
    (s : State) (v : Vm) (input : List UInt8) : Hash :=
  match s.contents.caches v.cache with
  | some seed =>
    if Out s.base.heap (.vm v) ∧ Out s.base.heap (.cache v.cache) ∧
        Out s.base.heap (.dataset v.dataset) ∧ s.contents.datasets v.dataset = some seed then
      randomx seed input
    else junk v input
  | none => junk v input

/-- `hash_first` -/
def hashFirst (calculate : Vm → List UInt8 → Hash) (sizeBits : Nat) (w : Wrapper)
    (input : Option (List UInt8)) (output : Bool) : Except Text Hash :=
  if w.vms.isEmpty then .error (lit "No VMs available")
  else hash calculate sizeBits w 0 input output

/-- What a caller takes a wrapper for. Without threads the seed is of no account. -/
structure Hasher where
  seed : Seed
  threads : Nat

def Hasher.empty : Hasher := ⟨[], 0⟩

/-- The largest thread id is printed as a `size_t`. -/
def outOfRange (sizeBits threadId threads : Nat) : Text :=
  lit "Invalid thread ID: " ++ lit (toString threadId) ++ lit " (max: " ++
    lit (toString ((threads + 2 ^ sizeBits - 1) % 2 ^ sizeBits)) ++ lit ")"

def Hasher.hash (randomx : Seed → List UInt8 → Hash) (sizeBits : Nat) (k : Hasher)
    (threadId : Nat) (input : Option (List UInt8)) (output : Bool) : Except Text Hash :=
  if threadId < k.threads then
    match input with
    | some bytes =>
      if output then .ok (randomx k.seed bytes)
      else .error (lit "Input or output buffer is null")
    | none => .error (lit "Input or output buffer is null")
  else .error (outOfRange sizeBits threadId k.threads)

def Hasher.hashFirst (randomx : Seed → List UInt8 → Hash) (sizeBits : Nat) (k : Hasher)
    (input : Option (List UInt8)) (output : Bool) : Except Text Hash :=
  if k.threads = 0 then .error (lit "No VMs available")
  else k.hash randomx sizeBits 0 input output

/-- What is done to hashers. `build` has made some of the threads asked for, and all
of them if it returns; `refuse` does nothing. -/
inductive Act where
  | construct (i : Nat)
  | build (i : Nat) (seed : Seed) (numThreads made : Nat) (returned : Bool)
  | refuse (i : Nat)
  | moveConstruct (i other : Nat)
  | moveAssign (i other : Nat)
  | destruct (i : Nat)

abbrev Hashers := Nat → Option Hasher

def ActEnabled (a : Hashers) : Act → Prop
  | .construct i => a i = none
  | .build i _ numThreads made returned =>
    (a i).isSome ∧ made ≤ numThreads ∧ (returned = true → made = numThreads)
  | .refuse i | .destruct i => (a i).isSome
  | .moveConstruct i other => a i = none ∧ (a other).isSome
  | .moveAssign i other => (a i).isSome ∧ (a other).isSome

def carry (a : Hashers) (i other : Nat) : Hashers :=
  Function.update (Function.update a i (a other)) other (some .empty)

def act (a : Hashers) : Act → Hashers
  | .construct i => Function.update a i (some .empty)
  | .build i seed _ made _ => Function.update a i (some ⟨seed, made⟩)
  | .refuse _ => a
  | .moveConstruct i other => carry a i other
  | .moveAssign i other => if i = other then a else carry a i other
  | .destruct i => Function.update a i none

def hashers : Machine Hashers Act where
  Enabled := ActEnabled
  next := act

/-- What an initialisation comes to. -/
def built (s : State) (i : Nat) (seed : Seed) (numThreads : Nat) (ok : Outcome) : Act :=
  match s.base.wrappers i with
  | some w =>
    let r := initializeWrapper numThreads ok w s.base.heap
    .build i seed numThreads r.2.1.vms.length (match r.1 with | .ok b => b | .error _ => false)
  | none => .refuse i

/-- The events as they appear to a caller. -/
def appears (s : State) : Event → Act
  | .construct i => .construct i
  | .initializeWrapper i seed numThreads ok => built s i seed numThreads ok
  | .initializeAndroid i seed numThreads batteryLevel temperature ok =>
    match androidThreads numThreads batteryLevel temperature with
    | some t => built s i seed t ok
    | none => .refuse i
  | .moveConstruct i other => .moveConstruct i other
  | .moveAssign i other => .moveAssign i other
  | .destruct i => .destruct i

/-- The VMs are made from the two objects of the wrapper, which hold the seed. -/
structure Keyed (contents : Contents) (w : Wrapper) (k : Hasher) : Prop where
  count : w.vms.length = k.threads
  vms : ∀ v ∈ w.vms, w.cache = some v.cache ∧ w.dataset = some v.dataset ∧
    contents.caches v.cache = some k.seed ∧ contents.datasets v.dataset = some k.seed

def Related (contents : Contents) : Option Wrapper → Option Hasher → Prop
  | some w, some k => Keyed contents w k
  | none, none => True
  | _, _ => False

structure Agrees (s : State) (a : Hashers) : Prop where
  good : Good s.base
  related : ∀ i, Related s.contents (s.base.wrappers i) (a i)

variable {contents : Contents} {s : State} {a : Hashers} {i : Nat} {w : Wrapper} {k : Hasher}

theorem keyed_of_no_vms (none : w.vms = []) (seed : Seed) : Keyed contents w ⟨seed, 0⟩ := by
  refine ⟨by rw [none]; rfl, fun v hv => ?_⟩
  rw [none] at hv
  cases hv

theorem keyed_empty : Keyed contents .empty .empty := keyed_of_no_vms rfl []

theorem related_isSome {o : Option Wrapper} {p : Option Hasher} (related : Related contents o p) :
    o.isSome = p.isSome := by
  cases o with
  | none =>
    cases p with
    | none => rfl
    | some k => exact related.elim
  | some w =>
    cases p with
    | none => exact related.elim
    | some k => rfl

theorem related_some {p : Option Hasher} (related : Related contents (some w) p) :
    ∃ k, p = some k ∧ Keyed contents w k := by
  cases p with
  | none => exact related.elim
  | some k => exact ⟨k, rfl, related⟩

theorem related_update {ws : Nat → Option Wrapper} (related : ∀ j, Related contents (ws j) (a j))
    {o : Option Wrapper} {p : Option Hasher} (now : Related contents o p) (i : Nat) :
    ∀ j, Related contents (Function.update ws i o j) (Function.update a i p j) := by
  intro j
  by_cases hj : j = i
  · rw [hj, Function.update_self, Function.update_self]
    exact now
  · rw [Function.update_of_ne hj, Function.update_of_ne hj]
    exact related j

theorem related_put {ws : Nat → Option Wrapper} (related : ∀ j, Related contents (ws j) (a j))
    (keyed : Keyed contents w k) (i : Nat) :
    ∀ j, Related contents (put ws i w j) (Function.update a i (some k) j) :=
  related_update related (o := some w) (p := some k) keyed i

theorem Agrees.held (agrees : Agrees s a) (hw : s.base.wrappers i = some w) {x : Handle}
    (hx : x ∈ w.handles) : Out s.base.heap x :=
  (agrees.good.accounted.held i w hw).2 x hx

/-- All three objects behind a VM are there, and older than what comes next. -/
theorem Agrees.vm_out (agrees : Agrees s a) (hw : s.base.wrappers i = some w)
    (keyed : Keyed s.contents w k) {v : Vm} (hv : v ∈ w.vms) :
    Out s.base.heap (.vm v) ∧ Out s.base.heap (.cache v.cache) ∧
      Out s.base.heap (.dataset v.dataset) := by
  obtain ⟨cache, dataset, -, -⟩ := keyed.vms v hv
  refine ⟨agrees.held hw ?_, agrees.held hw ?_, agrees.held hw ?_⟩
  · simp [Wrapper.handles, hv]
  · simp [Wrapper.handles, cache]
  · simp [Wrapper.handles, dataset]

/-- A wrapper hashes as what it is taken for. -/
theorem Agrees.hash (agrees : Agrees s a) (hw : s.base.wrappers i = some w)
    (keyed : Keyed s.contents w k) (randomx : Seed → List UInt8 → Hash)
    (junk : Vm → List UInt8 → Hash) (sizeBits threadId : Nat) (input : Option (List UInt8))
    (output : Bool) :
    hash (calculateHash randomx junk s) sizeBits w threadId input output =
      k.hash randomx sizeBits threadId input output := by
  cases found : w.vms[threadId]? with
  | none =>
    have beyond : ¬ threadId < k.threads := by
      rw [← keyed.count]
      exact Nat.not_lt.mpr (List.getElem?_eq_none_iff.mp found)
    simp only [WrapperInitialize.hash, found, Hasher.hash, if_neg beyond, invalidThread,
      outOfRange, keyed.count]
  | some v =>
    obtain ⟨within, same⟩ := List.getElem?_eq_some_iff.mp found
    have hv : v ∈ w.vms := same ▸ List.getElem_mem within
    obtain ⟨vmOut, cacheOut, datasetOut⟩ := agrees.vm_out hw keyed hv
    obtain ⟨-, -, cache, dataset⟩ := keyed.vms v hv
    have calculated : calculateHash randomx junk s v = randomx k.seed := by
      funext bytes
      simp only [calculateHash, cache, dataset, vmOut, cacheOut, datasetOut, and_self, if_pos]
    rw [keyed.count] at within
    simp only [WrapperInitialize.hash, found, calculated, Hasher.hash, if_pos within]
    cases input with
    | none => rfl
    | some bytes => rfl

theorem Agrees.hashFirst (agrees : Agrees s a) (hw : s.base.wrappers i = some w)
    (keyed : Keyed s.contents w k) (randomx : Seed → List UInt8 → Hash)
    (junk : Vm → List UInt8 → Hash) (sizeBits : Nat) (input : Option (List UInt8))
    (output : Bool) :
    hashFirst (calculateHash randomx junk s) sizeBits w input output =
      k.hashFirst randomx sizeBits input output := by
  have empty : w.vms.isEmpty = true ↔ k.threads = 0 := by
    rw [List.isEmpty_iff, ← keyed.count, List.length_eq_zero_iff]
  simp only [WrapperHashing.hashFirst, Hasher.hashFirst, agrees.hash hw keyed, empty]

/-- The loop makes at most the VMs asked for. -/
theorem length_createVms_le (ok : Nat → Bool) (c d count t : Nat) (flags : Nat × Bool)
    (w : Wrapper) (h : Heap) :
    (createVms ok c d count t flags w h).2.1.vms.length ≤ w.vms.length + count := by
  induction count generalizing t flags w h with
  | zero => exact Nat.le_refl _
  | succ count ih =>
    obtain ⟨call, jit⟩ := flags
    rcases createWithRetry_cases ok call jit c d h with ⟨flags, none⟩ | ⟨flags, some⟩
    · rw [createVms, none]
      exact Nat.le_add_right _ _
    · rw [createVms, some]
      have more := ih (t + 1) flags { w with vms := w.vms ++ [⟨h.next, c, d⟩] }
        (h.handOut (.vm ⟨h.next, c, d⟩))
      simp only [List.length_append, List.length_singleton] at more
      exact Nat.le_trans more (by omega)

theorem made_le (numThreads : Nat) (ok : Outcome) (w : Wrapper) (h : Heap) :
    (initializeWrapper numThreads ok w h).2.1.vms.length ≤ numThreads := by
  by_cases early : ok.cache = false ∨ ok.dataset = false ∨ ok.reserve = false
  · rw [(initializeWrapper_early early numThreads w h).2]
    exact Nat.zero_le _
  · push Not at early
    obtain ⟨hcache, hdataset, hreserve⟩ := early
    rw [Bool.ne_false_iff] at hcache hdataset hreserve
    obtain ⟨g, loop⟩ := initializeWrapper_loop hcache hdataset hreserve numThreads w h
    have bound := length_createVms_le ok.createVm h.next (h.next + 1) numThreads 0 (0, true)
      ⟨some h.next, some (h.next + 1), []⟩ g
    rw [loop]
    simpa using bound

/-- An initialisation that returns has made all threads. -/
theorem made_of_returned (numThreads : Nat) (ok : Outcome) (w : Wrapper) (h : Heap)
    (returned : (match (initializeWrapper numThreads ok w h).1 with
      | .ok b => b
      | .error _ => false) = true) :
    (initializeWrapper numThreads ok w h).2.1.vms.length = numThreads := by
  by_cases early : ok.cache = false ∨ ok.dataset = false ∨ ok.reserve = false
  · obtain ⟨text, throws⟩ := (initializeWrapper_early early numThreads w h).1
    rw [throws] at returned
    cases returned
  · push Not at early
    obtain ⟨hcache, hdataset, hreserve⟩ := early
    rw [Bool.ne_false_iff] at hcache hdataset hreserve
    obtain ⟨g, loop⟩ := initializeWrapper_loop hcache hdataset hreserve numThreads w h
    rw [loop] at returned ⊢
    rcases createVms_ends ok.createVm h.next (h.next + 1) numThreads 0 0 true
      ⟨some h.next, some (h.next + 1), []⟩ g with ⟨-, length, -⟩ | ⟨_, text, throws, -⟩
    · simpa using length
    · rw [throws] at returned
      cases returned

/-- What an initialisation leaves in the wrapper is keyed by the new seed. -/
theorem initializeWrapper_keyed (numThreads : Nat) (ok : Outcome) (w : Wrapper) (h : Heap)
    (seed : Seed) (contents : Contents) :
    Keyed (contents.initialized ok seed (destroy w h).2) (initializeWrapper numThreads ok w h).2.1
      ⟨seed, (initializeWrapper numThreads ok w h).2.1.vms.length⟩ := by
  by_cases early : ok.cache = false ∨ ok.dataset = false ∨ ok.reserve = false
  · have none := (initializeWrapper_early early numThreads w h).2
    rw [none]
    exact keyed_of_no_vms none seed
  · push Not at early
    obtain ⟨hcache, hdataset, hreserve⟩ := early
    rw [Bool.ne_false_iff] at hcache hdataset hreserve
    obtain ⟨g, loop⟩ := initializeWrapper_loop hcache hdataset hreserve numThreads w h
    obtain ⟨cache, dataset, vms⟩ := createVms_members ok.createVm h.next (h.next + 1) numThreads 0
      (0, true) ⟨some h.next, some (h.next + 1), []⟩ g
    rw [loop]
    refine ⟨rfl, fun v hv => ?_⟩
    obtain ⟨hc, hd⟩ := (vms v hv).resolve_left List.not_mem_nil
    rw [cache, dataset, hc, hd]
    simp [Contents.initialized, destroy_eq, Heap.allocCache, Heap.allocDataset, Heap.handOut,
      hcache, hdataset]

/-- The objects of an initialisation are new. -/
theorem initialized_older (ok : Outcome) (seed : Seed) (w : Wrapper) (h : Heap)
    (contents : Contents) {x : Nat} (older : x < h.next) :
    (contents.initialized ok seed (destroy w h).2).caches x = contents.caches x ∧
      (contents.initialized ok seed (destroy w h).2).datasets x = contents.datasets x := by
  have first : x ≠ h.next := Nat.ne_of_lt older
  have second : x ≠ h.next + 1 := by omega
  cases hcache : ok.cache <;> cases hdataset : ok.dataset <;>
    simp [Contents.initialized, destroy_eq, Heap.allocCache, Heap.allocDataset, Heap.handOut,
      hcache, hdataset, first, second]

theorem Keyed.congr {contents' : Contents} (keyed : Keyed contents w k)
    (same : ∀ v ∈ w.vms, contents'.caches v.cache = contents.caches v.cache ∧
      contents'.datasets v.dataset = contents.datasets v.dataset) : Keyed contents' w k := by
  refine ⟨keyed.count, fun v hv => ?_⟩
  obtain ⟨cache, dataset, cacheSeed, datasetSeed⟩ := keyed.vms v hv
  obtain ⟨sameCache, sameDataset⟩ := same v hv
  exact ⟨cache, dataset, sameCache.trans cacheSeed, sameDataset.trans datasetSeed⟩

/-- The other wrappers are as they were. -/
theorem Agrees.built (agrees : Agrees s a) (hw : s.base.wrappers i = some w) (seed : Seed)
    (numThreads : Nat) (ok : Outcome) :
    ActEnabled a (built s i seed numThreads ok) ∧
      Agrees (initializeSeeded i seed numThreads ok s) (act a (built s i seed numThreads ok)) := by
  have alive : (a i).isSome := by
    rw [← related_isSome (agrees.related i), hw]
    rfl
  have enabled : RandomXWrapper.Enabled s.base (.initializeWrapper i numThreads ok) := by
    simp [RandomXWrapper.Enabled, hw]
  have good := good_step agrees.good enabled
  have keyed := initializeWrapper_keyed numThreads ok w s.base.heap seed s.contents
  simp only [WrapperHashing.built, initializeSeeded, hw]
  refine ⟨⟨alive, ?_, ?_⟩, good, ?_⟩
  · exact made_le numThreads ok w s.base.heap
  · exact made_of_returned numThreads ok w s.base.heap
  · have others : ∀ j, Related (s.contents.initialized ok seed (destroy w s.base.heap).2)
        (s.base.wrappers j) (a j) := by
      intro j
      have related := agrees.related j
      cases hj : s.base.wrappers j with
      | none =>
        rw [hj] at related
        cases hk : a j with
        | none => trivial
        | some k =>
          rw [hk] at related
          exact related.elim
      | some u =>
        rw [hj] at related
        obtain ⟨k, hk, before⟩ := related_some related
        rw [hk]
        refine before.congr fun v hv => ?_
        obtain ⟨-, cacheOut, datasetOut⟩ := agrees.vm_out hj before hv
        have cache := agrees.good.bounded _ cacheOut.1
        have dataset := agrees.good.bounded _ datasetOut.1
        exact ⟨(initialized_older ok seed w s.base.heap s.contents cache).1,
          (initialized_older ok seed w s.base.heap s.contents dataset).2⟩
    have wrappers : (RandomXWrapper.next s.base (.initializeWrapper i numThreads ok)).wrappers =
        put s.base.wrappers i (initializeWrapper numThreads ok w s.base.heap).2.1 := by
      simp only [RandomXWrapper.next, hw]
    rw [wrappers]
    exact related_put others keyed i

/-- A move carries the hasher on and leaves an empty one. -/
theorem related_carry {ws : Nat → Option Wrapper} (related : ∀ j, Related contents (ws j) (a j))
    {other : Nat} (hw : ws other = some w) (i : Nat) :
    ∀ j, Related contents (put (put ws i w) other .empty j) (carry a i other j) := by
  have carried : Related contents (some w) (a other) := hw ▸ related other
  exact related_put (related_update related carried i) keyed_empty other

theorem Agrees.step {e : Event} (agrees : Agrees s a) (enabled : Enabled s e) :
    ActEnabled a (appears s e) ∧ Agrees (next s e) (act a (appears s e)) := by
  have alive : ∀ j, (s.base.wrappers j).isSome → (a j).isSome := by
    intro j some
    rwa [← related_isSome (agrees.related j)]
  have vacant : ∀ j, s.base.wrappers j = none → a j = none := by
    intro j none
    have same := related_isSome (agrees.related j)
    rw [none] at same
    exact Option.isNone_iff_eq_none.mp (by rw [← Option.not_isSome, ← same]; rfl)
  cases e with
  | construct i =>
    refine ⟨vacant i enabled, good_step agrees.good (e := .construct i) enabled, ?_⟩
    exact related_put agrees.related keyed_empty i
  | initializeWrapper i seed numThreads ok =>
    obtain ⟨w, hw⟩ := Option.isSome_iff_exists.mp enabled
    exact agrees.built hw seed numThreads ok
  | initializeAndroid i seed numThreads batteryLevel temperature ok =>
    obtain ⟨w, hw⟩ := Option.isSome_iff_exists.mp enabled
    cases threads : androidThreads numThreads batteryLevel temperature with
    | none =>
      simp only [appears, next, threads]
      exact ⟨alive i enabled, agrees⟩
    | some t =>
      simp only [appears, next, threads]
      exact agrees.built hw seed t ok
  | moveConstruct i other =>
    obtain ⟨w, hw⟩ := Option.isSome_iff_exists.mp enabled.2
    have good := good_step agrees.good (e := .moveConstruct i other) enabled
    refine ⟨⟨vacant i enabled.1, alive other enabled.2⟩, good, ?_⟩
    simp only [next, appears, act, RandomXWrapper.next, hw, takeOver]
    exact related_carry agrees.related hw i
  | moveAssign i other =>
    obtain ⟨old, hold⟩ := Option.isSome_iff_exists.mp enabled.1
    obtain ⟨w, hw⟩ := Option.isSome_iff_exists.mp enabled.2
    have good := good_step agrees.good (e := .moveAssign i other) enabled
    refine ⟨⟨alive i enabled.1, alive other enabled.2⟩, good, ?_⟩
    by_cases same : i = other
    · simp only [next, appears, act, RandomXWrapper.next, if_pos same]
      exact agrees.related
    · simp only [next, appears, act, RandomXWrapper.next, if_neg same, hold, hw, takeOver,
        destroy_eq, put, Function.update_idem]
      exact related_carry agrees.related hw i
  | destruct i =>
    obtain ⟨w, hw⟩ := Option.isSome_iff_exists.mp enabled
    refine ⟨alive i enabled, good_step agrees.good (e := .destruct i) enabled, ?_⟩
    simp only [next, appears, act, RandomXWrapper.next, hw]
    exact related_update agrees.related (o := none) (p := none) trivial i

theorem agrees_started : Agrees started fun _ => none := by
  refine ⟨good_run (h := []) (.init rfl), fun i => ?_⟩
  trivial

theorem simulates : Simulates machine hashers Agrees fun s e => some (appears s e) where
  follows := by
    rintro s a e _ agrees enabled ⟨⟩
    exact agrees.step enabled
  stays := fun _ _ _ _ _ hidden => nomatch hidden

/-- The live wrappers are the hashers, and each of them hashes as its hasher does. -/
structure HashesAs (s : State) (a : Hashers) : Prop where
  alive : ∀ i, (s.base.wrappers i).isSome = (a i).isSome
  hashes : ∀ i w, s.base.wrappers i = some w → ∃ k, a i = some k ∧ numVms w = k.threads ∧
    ∀ randomx junk sizeBits input output,
      (∀ threadId, hash (calculateHash randomx junk s) sizeBits w threadId input output =
        k.hash randomx sizeBits threadId input output) ∧
      hashFirst (calculateHash randomx junk s) sizeBits w input output =
        k.hashFirst randomx sizeBits input output

theorem Agrees.hashesAs (agrees : Agrees s a) : HashesAs s a where
  alive := fun i => related_isSome (agrees.related i)
  hashes := by
    intro i w hw
    have related := agrees.related i
    rw [hw] at related
    obtain ⟨k, hk, keyed⟩ := related_some related
    refine ⟨k, hk, keyed.count, fun randomx junk sizeBits input output => ⟨fun threadId => ?_, ?_⟩⟩
    · exact agrees.hash hw keyed randomx junk sizeBits threadId input output
    · exact agrees.hashFirst hw keyed randomx junk sizeBits input output

/-- Whatever is done to wrappers is done to hashers, and hashed with what they hold. -/
theorem wrapper_hashes {h : List (State × Event)} {s : State}
    (run : Run machine (· = started) h s) :
    ∃ g a, Run hashers (· = fun _ => none) g a ∧ HashesAs s a ∧
      g.map Prod.snd = h.map fun m => appears m.1 m.2 := by
  have initial : ∀ s, s = started → ∃ a : Hashers, a = (fun _ => none) ∧ Agrees s a := by
    rintro s rfl
    exact ⟨_, rfl, agrees_started⟩
  obtain ⟨g, a, abstract, agrees, events⟩ := simulates.run initial run
  exact ⟨g, a, abstract, agrees.hashesAs, events.trans (List.filterMap_eq_map ▸ rfl)⟩

/-- A wrapper with one VM of two moves on and is built anew for a warm device. -/
def movedAndRebuilt : List Event :=
  [.construct 0, .initializeWrapper 0 [1, 2] 2 secondVmFails, .moveConstruct 1 0,
    .initializeAndroid 0 [3] 4 80 (.celsius (extended 42)) ⟨true, true, true, fun _ => true⟩,
    .initializeAndroid 1 [4] 4 80 (.celsius (extended 60)) ⟨true, true, true, fun _ => true⟩]

def movedAndRebuiltRun : List (State × Event) × State :=
  replay machine movedAndRebuilt ([], started)

theorem wrapper_hashes_movedAndRebuilt :
    ∃ g a, Run hashers (· = fun _ => none) g a ∧ HashesAs movedAndRebuiltRun.2 a ∧
      g.map Prod.snd = movedAndRebuiltRun.1.map fun m => appears m.1 m.2 := by
  have start : Run machine (· = started) [] started := .init rfl
  exact wrapper_hashes (replay_run start movedAndRebuilt (by decide))

end WrapperHashing
