import MoneroRandomXMiner.MinerMachine
import MoneroRandomXMiner.RandomXWrapper
import MoneroRandomXMiner.Simulations

/-!
# The RandomX objects of a miner

The miner keeps its cache, its dataset and its VMs in members of its own, next
to the wrapper class that does the same. Under any order of the workers' steps
its re-initialisations are those of one wrapper whose retries fail, so what is
known of the wrapper's ledger holds of the miner: the live objects are the ones
in its members, and the destructor leaves none.
-/

namespace MinerResources

open Histories Simulations HexText MiningBlob RandomXInit MinerMachine
open RandomXWrapper (Handle Vm Wrapper Good DependsOn ledger put)

variable {n : Nat} {calculateHash : Nat → List UInt8 → Hash}

/-- Handed out and not given back. -/
def Live (g : RandomXWrapper.Heap) (x : Handle) : Prop := x ∈ g.handedOut ∧ x ∉ g.released

/-- The miner holds the handles of the wrapper, and the same objects are live. -/
structure Matches (r : Rx) (w : Wrapper) (g : RandomXWrapper.Heap) : Prop where
  next : g.next = r.heap.next
  cache : w.cache = r.cache
  dataset : w.dataset = r.dataset
  vms : w.vms.map Vm.id = r.vms
  older : ∀ x, x ∈ g.handedOut ∨ x ∈ g.released → x.id < g.next
  liveCache : ∀ c, r.heap.caches c ≠ none ↔ Live g (.cache c)
  liveDataset : ∀ d, r.heap.datasets d ≠ none ↔ Live g (.dataset d)
  liveVm : ∀ v : Vm, r.heap.vms v.id = some (v.cache, v.dataset) ↔ Live g (.vm v)

variable {r : Rx} {w : Wrapper} {g : RandomXWrapper.Heap}

theorem live_handOut {x : Handle} (fresh : x ∉ g.released) (y : Handle) :
    Live (g.handOut x) y ↔ y = x ∨ Live g y := by
  simp only [Live, RandomXWrapper.Heap.handOut, List.mem_cons]
  constructor
  · rintro ⟨rfl | out, kept⟩
    · exact Or.inl rfl
    · exact Or.inr ⟨out, kept⟩
  · rintro (rfl | ⟨out, kept⟩)
    · exact ⟨Or.inl rfl, fresh⟩
    · exact ⟨Or.inr out, kept⟩

theorem live_giveBack (xs : List Handle) (y : Handle) :
    Live { g with released := g.released ++ xs } y ↔ Live g y ∧ y ∉ xs := by
  simp only [Live, List.mem_append, not_or, and_assoc]

theorem Matches.fresh (same : Matches r w g) {x : Handle} (hid : x.id = g.next) :
    x ∉ g.handedOut ∧ x ∉ g.released := by
  constructor
  · intro out
    exact absurd (same.older x (Or.inl out)) (by omega)
  · intro back
    exact absurd (same.older x (Or.inr back)) (by omega)

theorem Matches.older_handOut (same : Matches r w g) {x : Handle} (hid : x.id = g.next)
    (y : Handle) (hy : y ∈ (g.handOut x).handedOut ∨ y ∈ (g.handOut x).released) :
    y.id < (g.handOut x).next := by
  have grown : (g.handOut x).next = g.next + 1 := rfl
  rw [grown]
  rcases hy with out | back
  · rcases List.mem_cons.mp out with rfl | out
    · omega
    · exact Nat.lt_succ_of_lt (same.older y (Or.inl out))
  · exact Nat.lt_succ_of_lt (same.older y (Or.inr back))

/-- A cache is allocated and initialised. -/
theorem Matches.newCache (same : Matches r w g) (key : Key) :
    Matches
      { r with
        heap := (r.heap.allocCache true).2.initCache r.heap.next key
        cache := some r.heap.next }
      { w with cache := some g.next } (g.handOut (.cache g.next)) := by
  have live := live_handOut (same.fresh (x := .cache g.next) rfl).2
  refine ⟨?_, congrArg some same.next, same.dataset, same.vms, same.older_handOut rfl, ?_, ?_, ?_⟩
  · exact congrArg Nat.succ same.next
  · intro c
    rw [live, ← same.liveCache, same.next]
    by_cases hc : c = r.heap.next
    · simp [hc, Heap.allocCache, Heap.initCache]
    · simp [hc, Heap.allocCache, Heap.initCache]
  · intro d
    rw [live, ← same.liveDataset]
    simp [Heap.allocCache, Heap.initCache]
  · intro v
    rw [live, ← same.liveVm]
    simp [Heap.allocCache, Heap.initCache]

theorem Matches.newDataset (same : Matches r w g) (c : Nat) :
    Matches
      { r with
        heap := (r.heap.allocDataset true).2.initDataset r.heap.next c
        dataset := some r.heap.next }
      { w with dataset := some g.next } (g.handOut (.dataset g.next)) := by
  have live := live_handOut (same.fresh (x := .dataset g.next) rfl).2
  refine ⟨?_, same.cache, congrArg some same.next, same.vms, same.older_handOut rfl, ?_, ?_, ?_⟩
  · exact congrArg Nat.succ same.next
  · intro c
    rw [live, ← same.liveCache]
    simp [Heap.allocDataset, Heap.initDataset]
  · intro d
    rw [live, ← same.liveDataset, same.next]
    by_cases hd : d = r.heap.next
    · simp [hd, Heap.allocDataset, Heap.initDataset]
    · simp [hd, Heap.allocDataset, Heap.initDataset]
  · intro v
    rw [live, ← same.liveVm]
    simp [Heap.allocDataset, Heap.initDataset]

theorem Matches.newVm (same : Matches r w g) (c d : Nat) :
    Matches
      { r with
        heap := (r.heap.createVm true c d).2
        vms := r.vms ++ [r.heap.next] }
      { w with vms := w.vms ++ [⟨g.next, c, d⟩] } (g.handOut (.vm ⟨g.next, c, d⟩)) := by
  have live := live_handOut (same.fresh (x := .vm ⟨g.next, c, d⟩) rfl).2
  refine ⟨?_, same.cache, same.dataset, ?_, same.older_handOut rfl, ?_, ?_, ?_⟩
  · exact congrArg Nat.succ same.next
  · rw [List.map_append, same.vms, List.map_singleton, same.next]
  · intro c
    rw [live, ← same.liveCache]
    simp [Heap.createVm]
  · intro d
    rw [live, ← same.liveDataset]
    simp [Heap.createVm]
  · rintro ⟨id, c', d'⟩
    rw [live, ← same.liveVm, same.next]
    by_cases hid : id = r.heap.next
    · -- nothing is live yet at the handle that is handed out
      subst hid
      have vacant : r.heap.vms r.heap.next ≠ some (c', d') := by
        intro old
        have out := (same.liveVm ⟨r.heap.next, c', d'⟩).mp old
        exact (same.fresh (x := .vm ⟨r.heap.next, c', d'⟩) same.next.symm).1 out.1
      simp [Heap.createVm, vacant, eq_comm]
    · simp [Heap.createVm, hid]

/-- The cache is given back when the dataset cannot be allocated. -/
theorem Matches.dropCache (same : Matches r w g) {c : Nat} (out : Live g (.cache c)) :
    Matches { r with heap := r.heap.releaseCache c, cache := none } { w with cache := none }
      (g.releaseCache c) := by
  have live : ∀ y, Live (g.releaseCache c) y ↔ Live g y ∧ y ∉ [Handle.cache c] :=
    live_giveBack [.cache c]
  refine ⟨same.next, rfl, same.dataset, same.vms, ?_, ?_, ?_, ?_⟩
  · rintro y (handed | back)
    · exact same.older y (Or.inl handed)
    · rcases List.mem_append.mp back with before | now
      · exact same.older y (Or.inr before)
      · rw [List.mem_singleton.mp now]
        exact same.older _ (Or.inl out.1)
  · intro c'
    rw [live, ← same.liveCache]
    by_cases hc : c' = c <;> simp [hc, Heap.releaseCache]
  · intro d
    rw [live, ← same.liveDataset]
    simp [Heap.releaseCache]
  · intro v
    rw [live, ← same.liveVm]
    simp [Heap.releaseCache]

theorem destroyVms_parts (vs : List Nat) (h : Heap) :
    (vs.foldl Heap.destroyVm h).caches = h.caches ∧
      (vs.foldl Heap.destroyVm h).datasets = h.datasets := by
  induction vs generalizing h with
  | nil => exact ⟨rfl, rfl⟩
  | cons v vs ih => exact ih (h.destroyVm v)

theorem destroyOld_cache (r : Rx) (c : Nat) :
    (destroyOld r).heap.caches c = if r.cache = some c then none else r.heap.caches c := by
  have kept := (destroyVms_parts r.vms r.heap).1
  unfold destroyOld
  cases r.dataset <;> cases r.cache <;>
    simp [Heap.releaseCache, Heap.releaseDataset, kept, Function.update_apply, eq_comm]

theorem destroyOld_dataset (r : Rx) (d : Nat) :
    (destroyOld r).heap.datasets d = if r.dataset = some d then none else r.heap.datasets d := by
  have kept := (destroyVms_parts r.vms r.heap).2
  unfold destroyOld
  cases r.dataset <;> cases r.cache <;>
    simp [Heap.releaseCache, Heap.releaseDataset, kept, Function.update_apply, eq_comm]

theorem mem_handles_vm {v : Vm} : Handle.vm v ∈ w.handles ↔ v ∈ w.vms := by
  simp [Wrapper.handles]

theorem mem_handles_cache {c : Nat} : Handle.cache c ∈ w.handles ↔ w.cache = some c := by
  simp [Wrapper.handles]

theorem mem_handles_dataset {d : Nat} : Handle.dataset d ∈ w.handles ↔ w.dataset = some d := by
  simp [Wrapper.handles]

/-- A live VM is in the table of the miner when its record is in the wrapper. -/
theorem Matches.vm_held (same : Matches r w g) (held : ∀ x ∈ w.handles, Live g x) {v : Vm}
    (live : Live g (.vm v)) : v.id ∈ r.vms ↔ v ∈ w.vms := by
  rw [← same.vms, List.mem_map]
  constructor
  · rintro ⟨u, hu, hid⟩
    have record := (same.liveVm u).mpr (held _ (mem_handles_vm.mpr hu))
    rw [hid, (same.liveVm v).mpr live, Option.some.injEq, Prod.mk.injEq] at record
    have equal : v = u := by
      obtain ⟨id, c, d⟩ := v
      obtain ⟨id', c', d'⟩ := u
      obtain ⟨rfl, rfl⟩ := record
      obtain rfl : id' = id := hid
      rfl
    exact equal ▸ hu
  · exact fun hv => ⟨v, hv, rfl⟩

/-- Everything held is given back, by the miner as by the wrapper. -/
theorem Matches.destroyed (same : Matches r w g) (held : ∀ x ∈ w.handles, Live g x) :
    Matches (destroyOld r) .empty { g with released := g.released ++ w.handles } := by
  refine ⟨?_, rfl, rfl, rfl, ?_, ?_, ?_, ?_⟩
  · rw [destroyOld_next]
    exact same.next
  · rintro y (handed | back)
    · exact same.older y (Or.inl handed)
    · rcases List.mem_append.mp back with before | now
      · exact same.older y (Or.inr before)
      · exact same.older y (Or.inl (held y now).1)
  · intro c
    rw [live_giveBack, mem_handles_cache, ← same.liveCache, destroyOld_cache, same.cache]
    split <;> simp_all
  · intro d
    rw [live_giveBack, mem_handles_dataset, ← same.liveDataset, destroyOld_dataset, same.dataset]
    split <;> simp_all
  · intro v
    rw [live_giveBack, mem_handles_vm, destroyOld_vm]
    by_cases live : Live g (.vm v)
    · rw [← same.vm_held held live, ← same.liveVm]
      split <;> simp_all
    · have vacant : r.heap.vms v.id ≠ some (v.cache, v.dataset) :=
        fun record => live ((same.liveVm v).mp record)
      split <;> simp [live, vacant]

/-- The creations succeed up to the first failure of the list; there is no second attempt. -/
def untilFailure (ok : Nat → Bool) (call : Nat) : Bool := (List.range (call + 1)).all ok

def outcomeOf (ok : AllocOutcome) : RandomXWrapper.Outcome :=
  ⟨ok.cache, ok.dataset, true, untilFailure ok.vm⟩

theorem untilFailure_eq {ok : Nat → Bool} {i : Nat} (sofar : ∀ j < i, ok j = true) :
    untilFailure ok i = ok i := by
  have before : (List.range i).all ok = true := by simpa [List.all_eq_true] using sofar
  rw [untilFailure, List.range_succ, List.all_append, before]
  simp

theorem untilFailure_succ {ok : Nat → Bool} {i : Nat} (failed : ok i = false) :
    untilFailure ok (i + 1) = false := by
  rw [← Bool.not_eq_true]
  intro all
  rw [untilFailure, List.all_eq_true] at all
  have passed := all i (List.mem_range.mpr (by omega))
  rw [failed] at passed
  cases passed

/-- The two loops create the same VMs and end in the same way. -/
theorem Matches.createVms (ok : Nat → Bool) (c d count i : Nat) {r : Rx} {w : Wrapper}
    {g : RandomXWrapper.Heap} (same : Matches r w g) (sofar : ∀ j < i, ok j = true) :
    Matches (createVms ok c d count i r).2
        (RandomXWrapper.createVms (untilFailure ok) c d count i (i, true) w g).2.1
        (RandomXWrapper.createVms (untilFailure ok) c d count i (i, true) w g).2.2 ∧
      ((createVms ok c d count i r).1 = true ↔
        (RandomXWrapper.createVms (untilFailure ok) c d count i (i, true) w g).1 = .ok true) := by
  induction count generalizing i r w g with
  | zero => exact ⟨same, by simp [RandomXInit.createVms, RandomXWrapper.createVms]⟩
  | succ count ih =>
    have now := untilFailure_eq sofar
    cases hi : ok i with
    | true =>
      rw [hi] at now
      have more := ih (i + 1) (same.newVm c d) (by
        intro j hj
        rcases Nat.lt_succ_iff_lt_or_eq.mp hj with before | rfl
        · exact sofar j before
        · exact hi)
      simpa only [RandomXInit.createVms, RandomXWrapper.createVms, RandomXWrapper.createWithRetry,
        RandomXWrapper.Heap.createVm, Heap.createVm, hi, now, if_true] using more
    | false =>
      rw [hi] at now
      have retry := untilFailure_succ hi
      refine ⟨?_, ?_⟩
      · simpa [RandomXInit.createVms, RandomXWrapper.createVms, RandomXWrapper.createWithRetry,
          RandomXWrapper.Heap.createVm, Heap.createVm, hi, now, retry] using same
      · simp [RandomXInit.createVms, RandomXWrapper.createVms, RandomXWrapper.createWithRetry,
          RandomXWrapper.Heap.createVm, Heap.createVm, hi, now, retry]

/-- The miner's objects after a rebuild are the wrapper's after an initialisation
whose retries fail, and the two report the same result. -/
theorem Matches.rebuilt (same : Matches r w g) (held : ∀ x ∈ w.handles, Live g x)
    {seedHash : Text} (changed : seedHash ≠ r.currentSeedHash) (ok : AllocOutcome) :
    Matches (initializeRandomx n ok seedHash r).2
        (RandomXWrapper.initializeWrapper n (outcomeOf ok) w g).2.1
        (RandomXWrapper.initializeWrapper n (outcomeOf ok) w g).2.2 ∧
      ((initializeRandomx n ok seedHash r).1 = true ↔
        (RandomXWrapper.initializeWrapper n (outcomeOf ok) w g).1 = .ok true) := by
  have cleared := same.destroyed held
  obtain ⟨q, hq⟩ : ∃ q, q = destroyOld r := ⟨_, rfl⟩
  rw [← hq] at cleared
  have hdestroy := RandomXWrapper.destroy_eq w g
  obtain ⟨k, hk⟩ : ∃ k : RandomXWrapper.Heap,
      k = { g with released := g.released ++ w.handles } := ⟨_, rfl⟩
  rw [← hk] at cleared hdestroy
  simp only [initializeRandomx, if_neg changed, ← hq, RandomXWrapper.initializeWrapper, hdestroy,
    outcomeOf]
  cases hcache : ok.cache with
  | false => exact ⟨cleared, by simp [Heap.allocCache, RandomXWrapper.Heap.allocCache]⟩
  | true =>
    have withCache := cleared.newCache (seedBytes seedHash)
    cases hdataset : ok.dataset with
    | false =>
      have out : Live (k.handOut (.cache k.next)) (.cache k.next) :=
        (live_handOut (cleared.fresh (x := .cache k.next) rfl).2 _).mpr (Or.inl rfl)
      have dropped := withCache.dropCache out
      simp only [Heap.allocCache, RandomXWrapper.Heap.allocCache, Heap.allocDataset,
        RandomXWrapper.Heap.allocDataset, if_true, Bool.false_eq_true, if_false, cleared.next]
        at dropped ⊢
      exact ⟨dropped, by simp⟩
    | true =>
      have withDataset := withCache.newDataset q.heap.next
      have built := withDataset.createVms ok.vm q.heap.next (q.heap.next + 1) n 0
        (fun _ hj => absurd hj (Nat.not_lt_zero _))
      have second : (k.handOut (.cache q.heap.next)).next = q.heap.next + 1 :=
        congrArg Nat.succ cleared.next
      simp only [Heap.allocCache, RandomXWrapper.Heap.allocCache, Heap.allocDataset,
        RandomXWrapper.Heap.allocDataset, Heap.initCache, if_true, cleared.next, second] at built ⊢
      split
      all_goals
        rename_i heq
        rw [heq] at built
      · exact built
      · refine ⟨?_, built.2⟩
        obtain ⟨next, cache, dataset, vms, older, liveCache, liveDataset, liveVm⟩ := built.1
        exact ⟨next, cache, dataset, vms, older, liveCache, liveDataset, liveVm⟩

/-- The wrapper that holds what the miner holds. -/
def wrapperOf (r : Rx) : Wrapper where
  cache := r.cache
  dataset := r.dataset
  vms := r.vms.filterMap fun v => (r.heap.vms v).map fun p => ⟨v, p.1, p.2⟩

/-- It is the only one, and nothing else is live. -/
def wrapperState (r : Rx) : RandomXWrapper.State :=
  ⟨⟨r.heap.next, (wrapperOf r).handles, []⟩, put (fun _ => none) 0 (wrapperOf r)⟩

/-- The live objects are those in the members, each created before the next one, and
each VM from the cache and the dataset there. -/
structure Tidy (r : Rx) : Prop where
  cache : ∀ c, r.heap.caches c ≠ none ↔ r.cache = some c
  dataset : ∀ d, r.heap.datasets d ≠ none ↔ r.dataset = some d
  vms : ∀ v, r.heap.vms v ≠ none ↔ v ∈ r.vms
  distinct : r.vms.Nodup
  parents : ∀ v c d, r.heap.vms v = some (c, d) → r.cache = some c ∧ r.dataset = some d
  older : ∀ x ∈ (wrapperOf r).handles, x.id < r.heap.next

/-- The members as the constructor leaves them. -/
theorem tidy_initial : Tidy Rx.initial where
  cache := fun c => by simp [Rx.initial, Heap.empty]
  dataset := fun d => by simp [Rx.initial, Heap.empty]
  vms := fun v => by simp [Rx.initial, Heap.empty]
  distinct := List.nodup_nil
  parents := fun _ _ _ record => by simp [Rx.initial, Heap.empty] at record
  older := fun _ mem => nomatch mem

theorem mem_wrapperOf_vms {v : Vm} :
    v ∈ (wrapperOf r).vms ↔ v.id ∈ r.vms ∧ r.heap.vms v.id = some (v.cache, v.dataset) := by
  obtain ⟨id, c, d⟩ := v
  simp only [wrapperOf, List.mem_filterMap, Option.map_eq_some_iff, Vm.mk.injEq]
  constructor
  · rintro ⟨v, mem, ⟨c', d'⟩, record, rfl, rfl, rfl⟩
    exact ⟨mem, record⟩
  · rintro ⟨mem, record⟩
    exact ⟨id, mem, (c, d), record, rfl, rfl, rfl⟩

theorem Tidy.vms_wrapperOf (tidy : Tidy r) : (wrapperOf r).vms.map Vm.id = r.vms := by
  have recorded : ∀ v ∈ r.vms,
      ((r.heap.vms v).map fun p => Vm.mk v p.1 p.2).map Vm.id = some v := by
    intro v mem
    obtain ⟨p, record⟩ := Option.ne_none_iff_exists'.mp ((tidy.vms v).mpr mem)
    rw [record]
    rfl
  rw [wrapperOf, List.map_filterMap, List.filterMap_congr recorded, List.filterMap_some]

theorem Tidy.matches_wrapperOf (tidy : Tidy r) :
    Matches r (wrapperOf r) (wrapperState r).heap := by
  have live : ∀ x, Live (wrapperState r).heap x ↔ x ∈ (wrapperOf r).handles :=
    fun x => and_iff_left List.not_mem_nil
  refine ⟨rfl, rfl, rfl, tidy.vms_wrapperOf, ?_, ?_, ?_, ?_⟩
  · rintro x (out | back)
    · exact tidy.older x out
    · cases back
  · intro c
    rw [live, mem_handles_cache]
    exact tidy.cache c
  · intro d
    rw [live, mem_handles_dataset]
    exact tidy.dataset d
  · intro v
    rw [live, mem_handles_vm, mem_wrapperOf_vms, iff_and_self]
    intro record
    exact (tidy.vms v.id).mp (by rw [record]; exact Option.some_ne_none _)

theorem Tidy.handles_nodup (tidy : Tidy r) : (wrapperOf r).handles.Nodup := by
  have vms : ((wrapperOf r).vms.map Handle.vm).Nodup := by
    refine List.Nodup.map (fun _ _ => Handle.vm.inj) (List.Nodup.of_map Vm.id ?_)
    rw [tidy.vms_wrapperOf]
    exact tidy.distinct
  rw [Wrapper.handles, List.append_assoc]
  refine List.Nodup.append vms ?_ ?_
  · cases (wrapperOf r).dataset <;> cases (wrapperOf r).cache <;> simp
  · intro x hx hy
    obtain ⟨v, _, rfl⟩ := List.mem_map.mp hx
    simp at hy

theorem Tidy.good (tidy : Tidy r) : Good (wrapperState r) := by
  refine ⟨?_, tidy.older⟩
  have single : ledger (wrapperState r) =
      ⟨(wrapperOf r).handles, [], Function.update (fun _ => []) 0 (wrapperOf r).handles⟩ :=
    RandomXWrapper.ledger_put _ _ _ _
  rw [single]
  refine Ownership.Sound.single tidy.handles_nodup ?_
  rintro x y hy hdep
  cases y with
  | vm v =>
    obtain ⟨_, record⟩ := mem_wrapperOf_vms.mp (mem_handles_vm.mp hy)
    obtain ⟨cache, dataset⟩ := tidy.parents _ _ _ record
    cases x with
    | cache c =>
      obtain rfl : v.cache = c := hdep
      exact mem_handles_cache.mpr cache
    | dataset d =>
      obtain rfl : v.dataset = d := hdep
      exact mem_handles_dataset.mpr dataset
    | vm u => exact hdep.elim
  | cache c => exact hdep.elim
  | dataset d => exact hdep.elim

/-- The re-initialisation that an event makes, if it goes past the early return. -/
def rebuildOf (s : State n) : Event n → Option RandomXWrapper.Event
  | .work t env =>
    if (s.workers t).pc = .initRx ∧ (s.workers t).job.seedHash ≠ s.shared.rx.currentSeedHash then
      some (.initializeWrapper 0 n (outcomeOf env.alloc))
    else none
  | _ => none

/-- The miner's objects are those of the only wrapper, whose ledger is sound. -/
structure Follows (r : Rx) (u : RandomXWrapper.State) : Prop where
  good : Good u
  only : ∃ w, u.wrappers = put (fun _ => none) 0 w ∧ Matches r w u.heap

theorem held_live {u : RandomXWrapper.State} (good : Good u) {w : Wrapper}
    (only : u.wrappers = put (fun _ => none) 0 w) : ∀ x ∈ w.handles, Live u.heap x := by
  have owned : (ledger u).owned 0 = w.handles := by
    simp only [ledger, only, put, Function.update_self, RandomXWrapper.ownedBy]
  intro x hx
  rw [← owned] at hx
  exact ⟨good.sound.handedOut_of_owned hx, good.sound.unreleased 0 x hx⟩

theorem Tidy.follows (tidy : Tidy r) : Follows r (wrapperState r) :=
  ⟨tidy.good, wrapperOf r, rfl, tidy.matches_wrapperOf⟩

/-- An exception is no success. -/
def succeeded : Except Text Bool → Bool
  | .ok done => done
  | .error _ => false

/-- What an initialisation reports. -/
def wrapperReturns (u : RandomXWrapper.State) : RandomXWrapper.Event → Bool
  | .initializeWrapper i numThreads ok =>
    match u.wrappers i with
    | some w => succeeded (RandomXWrapper.initializeWrapper numThreads ok w u.heap).1
    | none => false
  | _ => false

/-- What `initialize_randomx` returns to the worker. -/
def minerReturns (s : State n) : Event n → Bool
  | .work t env =>
    (initializeRandomx n env.alloc (s.workers t).job.seedHash s.shared.rx).1
  | _ => false

theorem Follows.rebuilt {u : RandomXWrapper.State} (follows : Follows r u) {seedHash : Text}
    (changed : seedHash ≠ r.currentSeedHash) (ok : AllocOutcome) :
    RandomXWrapper.Enabled u (.initializeWrapper 0 n (outcomeOf ok)) ∧
      Follows (initializeRandomx n ok seedHash r).2
        (RandomXWrapper.next u (.initializeWrapper 0 n (outcomeOf ok))) ∧
      wrapperReturns u (.initializeWrapper 0 n (outcomeOf ok)) =
        (initializeRandomx n ok seedHash r).1 := by
  obtain ⟨good, w, only, same⟩ := follows
  have here : u.wrappers 0 = some w := by rw [only, put, Function.update_self]
  have enabled : RandomXWrapper.Enabled u (.initializeWrapper 0 n (outcomeOf ok)) :=
    Option.isSome_iff_exists.mpr ⟨w, here⟩
  obtain ⟨rebuilt, result⟩ := same.rebuilt (n := n) (held_live good only) changed ok
  refine ⟨enabled, ⟨RandomXWrapper.good_step good enabled, ?_⟩, ?_⟩
  · simp only [RandomXWrapper.next, here]
    refine ⟨_, ?_, rebuilt⟩
    rw [only, put, put, put, Function.update_idem]
  · simp only [wrapperReturns, here]
    rw [Bool.eq_iff_iff, result]
    cases (RandomXWrapper.initializeWrapper n (outcomeOf ok) w u.heap).1 with
    | error text => simp [succeeded]
    | ok done => simp [succeeded]

/-- The steps that leave RandomX alone are hidden. -/
theorem rx_of_hidden {s : State n} {e : Event n} (hidden : rebuildOf s e = none) :
    (next calculateHash s e).shared.rx = s.shared.rx := by
  cases e with
  | work t env =>
    rw [next_shared_work]
    by_cases hpc : (s.workers t).pc = .initRx
    · have early : (s.workers t).job.seedHash = s.shared.rx.currentSeedHash := by
        by_contra changed
        simp [rebuildOf, hpc, changed] at hidden
      rw [workerNext_initRx hpc, initializeRandomx_early early]
    · exact workerNext_rx hpc
  | _ => rfl

theorem miner_simulates (calculateHash : Nat → List UInt8 → Hash) (n : Nat) :
    Simulates (MinerMachine.machine calculateHash n) RandomXWrapper.machine
      (fun s u => Follows s.shared.rx u) rebuildOf where
  follows := by
    intro s u e e' follows _ hshown
    cases e with
    | work t env =>
      simp only [rebuildOf] at hshown
      split at hshown
      · rename_i past
        obtain rfl := Option.some.inj hshown
        have rebuilt := follows.rebuilt (n := n) past.2 env.alloc
        refine ⟨rebuilt.1, ?_⟩
        change Follows (next calculateHash s (.work t env)).shared.rx _
        rw [next_shared_work, workerNext_initRx past.1]
        exact rebuilt.2.1
      · cases hshown
    | _ => cases hshown
  stays := by
    intro s u e follows _ hidden
    change Follows (next calculateHash s e).shared.rx u
    rwa [rx_of_hidden hidden]

theorem follows_run {start s : State n} (tidy : Tidy start.shared.rx)
    {h : List (State n × Event n)}
    (run : Run (MinerMachine.machine calculateHash n) (· = start) h s) :
    ∃ g u, Run RandomXWrapper.machine (· = wrapperState start.shared.rx) g u ∧
      Follows s.shared.rx u ∧
      g.map (fun m => (m.2, wrapperReturns m.1 m.2)) =
        h.filterMap fun m => (rebuildOf m.1 m.2).map fun e => (e, minerReturns m.1 m.2) := by
  refine (miner_simulates calculateHash n).run_observed minerReturns wrapperReturns ?_ ?_ run
  · intro s u e e' follows _ hshown
    cases e with
    | work t env =>
      simp only [rebuildOf] at hshown
      split at hshown
      · rename_i past
        obtain rfl := Option.some.inj hshown
        exact (follows.rebuilt (n := n) past.2 env.alloc).2.2
      · cases hshown
    | _ => cases hshown
  · rintro r rfl
    exact ⟨_, rfl, tidy.follows⟩

/-- The miner's re-initialisations are the initialisations of one wrapper, in the
same order and with the same results. The miner and the wrapper hold the same live
objects, and the destructor of the miner gives back what `destroy` gives back. -/
theorem wrapper_followed {start s : State n} (tidy : Tidy start.shared.rx)
    {h : List (State n × Event n)}
    (run : Run (MinerMachine.machine calculateHash n) (· = start) h s) :
    ∃ g u w, Run RandomXWrapper.machine (· = wrapperState start.shared.rx) g u ∧
      (g.map fun m => (m.2, wrapperReturns m.1 m.2)) =
        (h.filterMap fun m => (rebuildOf m.1 m.2).map fun e => (e, minerReturns m.1 m.2)) ∧
      u.wrappers = put (fun _ => none) 0 w ∧ Matches s.shared.rx w u.heap ∧
      Matches (destroyOld s.shared.rx) (RandomXWrapper.destroy w u.heap).1
        (RandomXWrapper.destroy w u.heap).2 := by
  obtain ⟨g, u, abstract, ⟨good, w, only, same⟩, events⟩ := follows_run tidy run
  refine ⟨g, u, w, abstract, events, only, same, ?_⟩
  rw [RandomXWrapper.destroy_eq]
  exact same.destroyed (held_live good only)

/-- The destructor's loop over the VMs and its two releases. -/
def releaseAll (r : Rx) : Heap := (destroyOld r).heap

/-- A tidy miner whose destructor leaves nothing live. -/
structure Kept (r : Rx) : Prop extends Tidy r where
  noCache : ∀ c, (releaseAll r).caches c = none
  noDataset : ∀ d, (releaseAll r).datasets d = none
  noVm : ∀ v, (releaseAll r).vms v = none

theorem Matches.wrapperOf_eq (same : Matches r w g) (held : ∀ x ∈ w.handles, Live g x) :
    wrapperOf r = w := by
  obtain ⟨cache, dataset, vms⟩ := w
  have recorded : ∀ v ∈ vms, ((r.heap.vms v.id).map fun p => Vm.mk v.id p.1 p.2) = some v := by
    intro v mem
    rw [(same.liveVm v).mpr (held _ (mem_handles_vm.mpr mem))]
    rfl
  have listed : (wrapperOf r).vms = vms := by
    rw [wrapperOf, ← same.vms, List.filterMap_map]
    exact (List.filterMap_congr recorded).trans List.filterMap_some
  rw [← listed]
  exact congrArg₂ (Wrapper.mk · · _) same.cache.symm same.dataset.symm

/-- What is live is owned, and the wrapper is the only owner. -/
theorem live_iff_held {u : RandomXWrapper.State} (good : Good u) {w : Wrapper}
    (only : u.wrappers = put (fun _ => none) 0 w) (x : Handle) : Live u.heap x ↔ x ∈ w.handles := by
  constructor
  · rintro ⟨out, kept⟩
    obtain ⟨i, hi⟩ := ((good.sound.known x).mp out).resolve_left kept
    by_cases first : i = 0
    · subst first
      simpa only [ledger, only, put, Function.update_self, RandomXWrapper.ownedBy] using hi
    · simp [ledger, only, put, first, RandomXWrapper.ownedBy] at hi
  · exact held_live good only x

theorem Follows.tidy {u : RandomXWrapper.State} (follows : Follows r u) : Tidy r := by
  obtain ⟨good, w, only, same⟩ := follows
  have live := live_iff_held good only
  have owned : (ledger u).owned 0 = w.handles := by
    simp only [ledger, only, put, Function.update_self, RandomXWrapper.ownedBy]
  have record : ∀ v c d, r.heap.vms v = some (c, d) → ⟨v, c, d⟩ ∈ w.vms := by
    intro v c d hv
    exact mem_handles_vm.mp ((live _).mp ((same.liveVm ⟨v, c, d⟩).mp hv))
  have cache : ∀ c, r.heap.caches c ≠ none ↔ r.cache = some c := by
    intro c
    rw [same.liveCache, live, mem_handles_cache, same.cache]
  have dataset : ∀ d, r.heap.datasets d ≠ none ↔ r.dataset = some d := by
    intro d
    rw [same.liveDataset, live, mem_handles_dataset, same.dataset]
  have vms : ∀ v, r.heap.vms v ≠ none ↔ v ∈ r.vms := by
    intro v
    rw [← same.vms, List.mem_map, Option.ne_none_iff_exists']
    constructor
    · rintro ⟨⟨c, d⟩, hv⟩
      exact ⟨⟨v, c, d⟩, record v c d hv, rfl⟩
    · rintro ⟨⟨v, c, d⟩, hmem, rfl⟩
      exact ⟨(c, d), (same.liveVm ⟨v, c, d⟩).mpr ((live _).mpr (mem_handles_vm.mpr hmem))⟩
  refine ⟨cache, dataset, vms, ?_, ?_, ?_⟩
  · rw [← same.vms]
    have once := good.sound.ownedOnce 0
    rw [owned] at once
    -- two records with one handle would be two records of one live object
    refine (List.Nodup.of_map Handle.vm ?_).map_on ?_
    · exact (List.nodup_append.mp (List.nodup_append.mp once).1).1
    · rintro ⟨v, c, d⟩ hx ⟨v', c', d'⟩ hy hid
      obtain rfl : v = v' := hid
      have first := (same.liveVm _).mpr ((live _).mpr (mem_handles_vm.mpr hx))
      have second := (same.liveVm _).mpr ((live _).mpr (mem_handles_vm.mpr hy))
      obtain ⟨rfl, rfl⟩ := Prod.mk.inj (Option.some.inj (first.symm.trans second))
      rfl
  · intro v c d hv
    have held : Handle.vm ⟨v, c, d⟩ ∈ (ledger u).owned 0 := by
      rw [owned]
      exact mem_handles_vm.mpr (record v c d hv)
    have parentCache := good.sound.together 0 (.cache c) _ held rfl
    have parentDataset := good.sound.together 0 (.dataset d) _ held rfl
    rw [owned] at parentCache parentDataset
    rw [← same.cache, ← same.dataset]
    exact ⟨mem_handles_cache.mp parentCache, mem_handles_dataset.mp parentDataset⟩
  · have same' : wrapperOf r = w := same.wrapperOf_eq (held_live good only)
    intro x hx
    rw [same'] at hx
    rw [← same.next]
    exact same.older x (Or.inl (held_live good only x hx).1)

theorem Tidy.kept (tidy : Tidy r) : Kept r where
  toTidy := tidy
  noCache := by
    intro c
    rw [releaseAll, destroyOld_cache]
    split
    · rfl
    · rename_i other
      exact not_not.mp (mt (tidy.cache c).mp other)
  noDataset := by
    intro d
    rw [releaseAll, destroyOld_dataset]
    split
    · rfl
    · rename_i other
      exact not_not.mp (mt (tidy.dataset d).mp other)
  noVm := by
    intro v
    rw [releaseAll, destroyOld_vm]
    split
    · rfl
    · rename_i other
      exact not_not.mp (mt (tidy.vms v).mp other)

/-- A miner that has built for a job, or failed to, is tidy again. -/
theorem Tidy.rebuilt (tidy : Tidy r) (ok : AllocOutcome) (seedHash : Text) :
    Tidy (initializeRandomx n ok seedHash r).2 := by
  by_cases early : seedHash = r.currentSeedHash
  · rwa [initializeRandomx_early early]
  · exact (tidy.follows.rebuilt early ok).2.1.tidy

example : Tidy readyState.shared.rx := tidy_initial.rebuilt AllocOutcome.succeeds (lit "aa")

/-- Under any order of the workers' steps and any failures of the allocations no
object is lost, and the destructor gives all of them back. -/
theorem objects_kept {h : List (State n × Event n)} {s : State n}
    (run : Run (MinerMachine.machine calculateHash n) (fun s => Tidy s.shared.rx) h s) :
    Kept s.shared.rx := by
  have tidy : Tidy s.shared.rx := by
    apply run.invariant (P := fun _ s => Tidy s.shared.rx)
    · exact fun _ => id
    · intro _ s e tidy _
      cases e with
      | work t env =>
        change Tidy (next calculateHash s (.work t env)).shared.rx
        rw [next_shared_work]
        by_cases hpc : (s.workers t).pc = .initRx
        · rw [workerNext_initRx hpc]
          exact tidy.rebuilt env.alloc _
        · rwa [workerNext_rx hpc]
      | _ => exact tidy
  exact tidy.kept

/-- Two workers about to take a job, before anything has been built. -/
def unbuiltState : State 2 :=
  { readyState with shared := { readyState.shared with
      currentJob := sampleJob (lit "1") (lit "aa"), rx := Rx.initial } }

/-- The second VM cannot be created; the other worker then builds for its next job. -/
def secondVmFails : Env := ⟨0, ⟨true, true, fun i => i == 0⟩⟩

def twoBuilds : List (Event 2) :=
  [.work worker0 idle, .work worker0 idle, .work worker0 secondVmFails,
    .storeJob (sampleJob (lit "2") (lit "bb")), .work worker1 idle, .work worker1 idle,
    .work worker1 idle]

def twoBuildsRun : List (State 2 × Event 2) × State 2 :=
  replay (MinerMachine.machine zeroHash 2) twoBuilds ([], unbuiltState)

theorem twoBuilds_run :
    Run (MinerMachine.machine zeroHash 2) (· = unbuiltState) twoBuildsRun.1 twoBuildsRun.2 := by
  have started : Run (MinerMachine.machine zeroHash 2) (· = unbuiltState) [] unbuiltState :=
    .init rfl
  exact replay_run started twoBuilds (by decide +kernel)

theorem wrapper_followed_twoBuilds :
    ∃ g u w, Run RandomXWrapper.machine (· = wrapperState Rx.initial) g u ∧
      (g.map fun m => (m.2, wrapperReturns m.1 m.2)) =
        (twoBuildsRun.1.filterMap fun m =>
          (rebuildOf m.1 m.2).map fun e => (e, minerReturns m.1 m.2)) ∧
      u.wrappers = put (fun _ => none) 0 w ∧ Matches twoBuildsRun.2.shared.rx w u.heap ∧
      Matches (destroyOld twoBuildsRun.2.shared.rx) (RandomXWrapper.destroy w u.heap).1
        (RandomXWrapper.destroy w u.heap).2 := by
  have tidy : Tidy unbuiltState.shared.rx := tidy_initial
  exact wrapper_followed tidy twoBuilds_run

theorem objects_kept_twoBuilds : Kept twoBuildsRun.2.shared.rx :=
  objects_kept (twoBuilds_run.mono fun _ same => same ▸ tidy_initial)

end MinerResources
