import MoneroRandomXMiner.MiningBlob
import Mathlib.Logic.Function.Basic

/-!
# RandomX objects and their re-initialisation

The RandomX library hands out caches, datasets and virtual machines by
handle. Every successful allocation takes a new handle, so a handle that has
been destroyed is never live again. `initializeRandomx` is the section of the
miner guarded by `m_rx_mutex`; which of its allocations succeed is an input.
-/

namespace RandomXInit

open HexText MiningBlob

abbrev Key := List UInt8

/-- Live objects by handle. A cache or dataset holds the key it was
initialised with, if any; a VM holds its cache and its dataset. -/
structure Heap where
  next : Nat
  caches : Nat → Option (Option Key)
  datasets : Nat → Option (Option Key)
  vms : Nat → Option (Nat × Nat)

namespace Heap

def empty : Heap := ⟨0, fun _ => none, fun _ => none, fun _ => none⟩

def allocCache (ok : Bool) (h : Heap) : Option Nat × Heap :=
  if ok then
    (some h.next,
      { h with next := h.next + 1, caches := Function.update h.caches h.next (some none) })
  else (none, h)

def initCache (c : Nat) (key : Key) (h : Heap) : Heap :=
  { h with caches := Function.update h.caches c (some (some key)) }

def allocDataset (ok : Bool) (h : Heap) : Option Nat × Heap :=
  if ok then
    (some h.next,
      { h with next := h.next + 1, datasets := Function.update h.datasets h.next (some none) })
  else (none, h)

def initDataset (d c : Nat) (h : Heap) : Heap :=
  { h with datasets := Function.update h.datasets d (some (h.caches c).join) }

def createVm (ok : Bool) (c d : Nat) (h : Heap) : Option Nat × Heap :=
  if ok then
    (some h.next,
      { h with next := h.next + 1, vms := Function.update h.vms h.next (some (c, d)) })
  else (none, h)

def destroyVm (h : Heap) (v : Nat) : Heap := { h with vms := Function.update h.vms v none }

def releaseDataset (h : Heap) (d : Nat) : Heap :=
  { h with datasets := Function.update h.datasets d none }

def releaseCache (h : Heap) (c : Nat) : Heap :=
  { h with caches := Function.update h.caches c none }

/-- No VM lives at a handle that has not been handed out yet. -/
def Fresh (h : Heap) : Prop := ∀ v, h.next ≤ v → h.vms v = none

theorem Fresh.createVm {h : Heap} (fresh : h.Fresh) (c d : Nat) :
    Heap.Fresh
      { h with next := h.next + 1, vms := Function.update h.vms h.next (some (c, d)) } := by
  intro v hv
  have hne : v ≠ h.next := by
    intro heq
    subst heq
    exact absurd hv (Nat.not_succ_le_self _)
  exact (Function.update_of_ne hne _ _).trans (fresh v (Nat.le_of_succ_le hv))

/-- A live VM whose cache and dataset are both live and initialised from the key. -/
def BuiltFor (h : Heap) (v : Nat) (key : Key) : Prop :=
  ∃ c d, h.vms v = some (c, d) ∧ h.caches c = some (some key) ∧ h.datasets d = some (some key)

theorem BuiltFor.live {h : Heap} {v : Nat} {key : Key} (built : h.BuiltFor v key) :
    h.vms v ≠ none := by
  obtain ⟨c, d, hv, _⟩ := built
  rw [hv]
  exact Option.some_ne_none _

theorem BuiltFor.unique {h : Heap} {v : Nat} {key key' : Key} (built : h.BuiltFor v key)
    (built' : h.BuiltFor v key') : key = key' := by
  obtain ⟨c, d, hv, hc, _⟩ := built
  obtain ⟨c', d', hv', hc', _⟩ := built'
  rw [hv] at hv'
  obtain ⟨rfl, rfl⟩ := Prod.mk.inj (Option.some.inj hv')
  exact Option.some.inj (Option.some.inj (hc.symm.trans hc'))

end Heap

structure Rx where
  heap : Heap
  currentSeedHash : Text
  cache : Option Nat
  dataset : Option Nat
  vms : List Nat

def Rx.initial : Rx := ⟨Heap.empty, [], none, none, []⟩

/-- The outcome of each allocation of one call: null is `false`. -/
structure AllocOutcome where
  cache : Bool
  dataset : Bool
  vm : Nat → Bool

def AllocOutcome.succeeds : AllocOutcome := ⟨true, true, fun _ => true⟩

def seedBytes (seedHash : Text) : Key := (fullSlices seedHash).map hexByte

def destroyOld (r : Rx) : Rx :=
  let h := r.vms.foldl Heap.destroyVm r.heap
  let h := match r.dataset with
    | some d => h.releaseDataset d
    | none => h
  let h := match r.cache with
    | some c => h.releaseCache c
    | none => h
  { r with heap := h, cache := none, dataset := none, vms := [] }

/-- The loop over `i` below `m_config.num_threads`; it stops at the first null. -/
def createVms (ok : Nat → Bool) (c d : Nat) : Nat → Nat → Rx → Bool × Rx
  | 0, _, r => (true, r)
  | count + 1, i, r =>
    match r.heap.createVm (ok i) c d with
    | (none, h) => (false, { r with heap := h })
    | (some v, h) => createVms ok c d count (i + 1) { r with heap := h, vms := r.vms ++ [v] }

def initializeRandomx (numThreads : Nat) (ok : AllocOutcome) (seedHash : Text) (r : Rx) :
    Bool × Rx :=
  if seedHash = r.currentSeedHash then (true, r)
  else
    let r := destroyOld r
    match r.heap.allocCache ok.cache with
    | (none, h) => (false, { r with heap := h })
    | (some c, h) =>
      let h := h.initCache c (seedBytes seedHash)
      match h.allocDataset ok.dataset with
      | (none, h) => (false, { r with heap := h.releaseCache c, cache := none })
      | (some d, h) =>
        let h := h.initDataset d c
        match createVms ok.vm c d numThreads 0
            { r with heap := h, cache := some c, dataset := some d } with
        | (false, r) => (false, r)
        | (true, r) => (true, { r with currentSeedHash := seedHash })

theorem destroyVms_at (vs : List Nat) (h : Heap) (v : Nat) :
    (vs.foldl Heap.destroyVm h).vms v = if v ∈ vs then none else h.vms v := by
  induction vs generalizing h with
  | nil => simp
  | cons w vs ih =>
    rw [List.foldl_cons, ih]
    by_cases hv : v ∈ vs
    · simp [hv]
    · by_cases hw : v = w
      · subst hw
        simp [hv, Heap.destroyVm]
      · simp [hv, hw, Heap.destroyVm]

theorem destroyVms_next (vs : List Nat) (h : Heap) :
    (vs.foldl Heap.destroyVm h).next = h.next := by
  induction vs generalizing h with
  | nil => rfl
  | cons w vs ih => exact ih _

theorem destroyOld_vm (r : Rx) (v : Nat) :
    (destroyOld r).heap.vms v = if v ∈ r.vms then none else r.heap.vms v := by
  rw [← destroyVms_at]
  unfold destroyOld
  cases r.dataset <;> cases r.cache <;> rfl

theorem destroyOld_next (r : Rx) : (destroyOld r).heap.next = r.heap.next := by
  have hnext := destroyVms_next r.vms r.heap
  unfold destroyOld
  cases r.dataset <;> cases r.cache <;> exact hnext

theorem destroyOld_fresh {r : Rx} (fresh : r.heap.Fresh) : (destroyOld r).heap.Fresh := by
  intro v hv
  rw [destroyOld_next] at hv
  rw [destroyOld_vm]
  split
  · rfl
  · exact fresh v hv

/-- With every creation succeeding the loop appends `count` fresh VMs of the
given cache and dataset and touches nothing else. -/
theorem createVms_succeeds (c d count i : Nat) (r : Rx) :
    ∃ r', createVms (fun _ => true) c d count i r = (true, r') ∧
      r'.vms = r.vms ++ List.range' r.heap.next count ∧
      (∀ v ∈ r'.vms, v ∈ r.vms ∨ r'.heap.vms v = some (c, d)) ∧
      (∀ v, v < r.heap.next → r'.heap.vms v = r.heap.vms v) ∧
      (r.heap.Fresh → r'.heap.Fresh) ∧
      r.heap.next ≤ r'.heap.next ∧
      (r'.heap.caches = r.heap.caches ∧ r'.heap.datasets = r.heap.datasets) ∧
      r'.cache = r.cache ∧ r'.dataset = r.dataset := by
  induction count generalizing i r with
  | zero =>
    exact ⟨r, rfl, by simp, fun v hv => Or.inl hv, fun v _ => rfl, id, le_refl _, ⟨rfl, rfl⟩,
      rfl, rfl⟩
  | succ count ih =>
    obtain ⟨r', hrun, hvms, hnew, hold, hfresh, hnext, hparts, hhandles⟩ :=
      ih (i + 1)
        { r with
          heap := { r.heap with
            next := r.heap.next + 1
            vms := Function.update r.heap.vms r.heap.next (some (c, d)) }
          vms := r.vms ++ [r.heap.next] }
    refine ⟨r', hrun, ?_, ?_, ?_, ?_, ?_, hparts, hhandles⟩
    · rw [hvms, List.append_assoc, List.range'_succ]
      rfl
    · intro v hv
      rcases hnew v hv with old | built
      · rcases List.mem_append.mp old with old | last
        · exact Or.inl old
        · have hv' := List.mem_singleton.mp last
          subst hv'
          refine Or.inr ?_
          rw [hold r.heap.next (Nat.lt_succ_self _)]
          simp
      · exact Or.inr built
    · intro v hv
      rw [hold v (Nat.lt_succ_of_lt hv)]
      exact Function.update_of_ne (Nat.ne_of_lt hv) _ _
    · exact fun fresh => hfresh (fresh.createVm c d)
    · exact Nat.le_of_succ_le hnext

theorem initializeRandomx_early {numThreads : Nat} {ok : AllocOutcome} {seedHash : Text} {r : Rx}
    (same : seedHash = r.currentSeedHash) :
    initializeRandomx numThreads ok seedHash r = (true, r) := by
  rw [initializeRandomx, if_pos same]

/-- The object holds a cache and a dataset initialised from the key, and so many
VMs created from these two, none of them destroyed. -/
def Rx.Built (numThreads : Nat) (key : Key) (r : Rx) : Prop :=
  ∃ c d, (r.cache = some c ∧ r.dataset = some d) ∧
    (r.heap.caches c = some (some key) ∧ r.heap.datasets d = some (some key)) ∧
    (r.vms.length = numThreads ∧ r.vms.Nodup) ∧ ∀ v ∈ r.vms, r.heap.vms v = some (c, d)

theorem Rx.Built.count {numThreads : Nat} {key : Key} {r : Rx} (built : r.Built numThreads key) :
    r.vms.length = numThreads := by
  obtain ⟨c, d, _, _, hcount, _⟩ := built
  exact hcount.1

theorem Rx.Built.builtFor {numThreads : Nat} {key : Key} {r : Rx}
    (built : r.Built numThreads key) {v : Nat} (hv : v ∈ r.vms) : r.heap.BuiltFor v key := by
  obtain ⟨c, d, _, hkeys, _, hvms⟩ := built
  exact ⟨c, d, hvms v hv, hkeys⟩

/-- A rebuild in which every allocation succeeds: a full set of VMs for the new
seed, and every VM of the old table is gone. -/
theorem initializeRandomx_rebuild (numThreads : Nat) {seedHash : Text} {r : Rx}
    (changed : seedHash ≠ r.currentSeedHash) (fresh : r.heap.Fresh) :
    ∃ r', initializeRandomx numThreads AllocOutcome.succeeds seedHash r = (true, r') ∧
      r'.currentSeedHash = seedHash ∧ r'.Built numThreads (seedBytes seedHash) ∧
      (∀ v, v < r.heap.next → (v ∈ r.vms ∨ r.heap.vms v = none) → r'.heap.vms v = none) ∧
      r'.heap.Fresh ∧ r.heap.next ≤ r'.heap.next := by
  obtain ⟨q, hq⟩ : ∃ q, q = destroyOld r := ⟨_, rfl⟩
  have hqvms : q.vms = [] := by rw [hq]; rfl
  have hqnext : q.heap.next = r.heap.next := by rw [hq, destroyOld_next]
  have hqfresh : q.heap.Fresh := hq ▸ destroyOld_fresh fresh
  obtain ⟨r', hrun, hvms, hnew, hold, hfresh, hnext, ⟨hcaches, hdatasets⟩, hcache, hdataset⟩ :=
    createVms_succeeds q.heap.next (q.heap.next + 1) numThreads 0
      { q with
        heap := ((((q.heap.allocCache true).2.initCache q.heap.next
          (seedBytes seedHash)).allocDataset true).2.initDataset (q.heap.next + 1) q.heap.next)
        cache := some q.heap.next
        dataset := some (q.heap.next + 1) }
  rw [hqvms, List.nil_append] at hvms
  refine ⟨{ r' with currentSeedHash := seedHash }, ?_, rfl, ?_, ?_, ?_, ?_⟩
  · rw [initializeRandomx, if_neg changed, ← hq]
    simp only [AllocOutcome.succeeds, Heap.allocCache, Heap.allocDataset, Heap.initCache, if_true]
      at hrun ⊢
    rw [hrun]
  · refine ⟨q.heap.next, q.heap.next + 1, ⟨hcache, hdataset⟩, ⟨?_, ?_⟩, ⟨?_, ?_⟩, ?_⟩
    · change r'.heap.caches q.heap.next = _
      rw [hcaches]
      simp [Heap.initDataset, Heap.allocDataset, Heap.initCache]
    · change r'.heap.datasets (q.heap.next + 1) = _
      rw [hdatasets]
      simp [Heap.initDataset, Heap.allocDataset, Heap.initCache, Heap.allocCache]
    · change r'.vms.length = numThreads
      rw [hvms, List.length_range']
    · change r'.vms.Nodup
      rw [hvms]
      exact List.nodup_range'
    · intro v hv
      rcases hnew v hv with old | built
      · simp [hqvms] at old
      · exact built
  · intro v hv gone
    have hvq : v < q.heap.next + 1 + 1 := by omega
    change r'.heap.vms v = none
    rw [hold v hvq]
    change q.heap.vms v = none
    rw [hq, destroyOld_vm]
    split
    · rfl
    · rename_i hnot
      exact gone.resolve_left hnot
  · exact hfresh fun v hv => hqfresh v (by
      change q.heap.next + 1 + 1 ≤ v at hv
      omega)
  · have hle : q.heap.next + 1 + 1 ≤ r'.heap.next := hnext
    change r.heap.next ≤ r'.heap.next
    omega

/-- Every allocation that a rebuild for so many threads makes succeeds. -/
def AllocOutcome.AllSucceed (numThreads : Nat) (ok : AllocOutcome) : Prop :=
  ok.cache = true ∧ ok.dataset = true ∧ ∀ i < numThreads, ok.vm i = true

theorem createVms_congr {ok ok' : Nat → Bool} (c d count i : Nat) (r : Rx)
    (same : ∀ j < count, ok (i + j) = ok' (i + j)) :
    createVms ok c d count i r = createVms ok' c d count i r := by
  induction count generalizing i r with
  | zero => rfl
  | succ count ih =>
    have hfirst : ok i = ok' i := same 0 (Nat.succ_pos count)
    have hrest : ∀ j < count, ok (i + 1 + j) = ok' (i + 1 + j) := by
      intro j hj
      have hnext := same (j + 1) (by omega)
      rwa [show i + (j + 1) = i + 1 + j by omega] at hnext
    simp only [createVms, hfirst]
    split
    · rfl
    · exact ih (i + 1) _ hrest

/-- A rebuild does not look at allocations it does not make. -/
theorem initializeRandomx_allSucceed {numThreads : Nat} {ok : AllocOutcome}
    (all : ok.AllSucceed numThreads) (seedHash : Text) (r : Rx) :
    initializeRandomx numThreads ok seedHash r =
      initializeRandomx numThreads AllocOutcome.succeeds seedHash r := by
  obtain ⟨hcache, hdataset, hvm⟩ := all
  have hloop : ∀ c d r, createVms ok.vm c d numThreads 0 r =
      createVms (fun _ => true) c d numThreads 0 r := by
    intro c d r
    apply createVms_congr
    intro j hj
    rw [Nat.zero_add]
    exact hvm j hj
  simp only [initializeRandomx, hcache, hdataset, hloop, AllocOutcome.succeeds]

/-- The loop stops at the first null, short of its count. -/
theorem createVms_fails {ok : Nat → Bool} (c d count i : Nat) (r : Rx)
    (fails : ∃ j < count, ok (i + j) = false) :
    ∃ r', createVms ok c d count i r = (false, r') ∧
      r'.vms.length < r.vms.length + count ∧ (r.heap.Fresh → r'.heap.Fresh) := by
  induction count generalizing i r with
  | zero =>
    obtain ⟨j, hj, _⟩ := fails
    omega
  | succ count ih =>
    cases hfirst : ok i with
    | false =>
      refine ⟨r, ?_, by omega, id⟩
      simp only [createVms, Heap.createVm, hfirst, Bool.false_eq_true, if_false]
    | true =>
      have hrest : ∃ j < count, ok (i + 1 + j) = false := by
        obtain ⟨j, hj, hfalse⟩ := fails
        cases j with
        | zero =>
          rw [Nat.add_zero, hfirst] at hfalse
          cases hfalse
        | succ j => exact ⟨j, by omega, by rwa [show i + 1 + j = i + (j + 1) by omega]⟩
      obtain ⟨r', hrun, hlen, hfresh⟩ := ih (i + 1)
        { r with
          heap := { r.heap with
            next := r.heap.next + 1
            vms := Function.update r.heap.vms r.heap.next (some (c, d)) }
          vms := r.vms ++ [r.heap.next] } hrest
      refine ⟨r', ?_, ?_, fun fresh => hfresh (fresh.createVm c d)⟩
      · simp only [createVms, Heap.createVm, hfirst, if_true]
        exact hrun
      · simp only [List.length_append, List.length_singleton] at hlen
        omega

/-- A rebuild in which an allocation fails leaves the object without a cache or
short of VMs, and the seed hash of an earlier rebuild in place. -/
theorem initializeRandomx_fails {numThreads : Nat} {ok : AllocOutcome} {seedHash : Text} {r : Rx}
    (changed : seedHash ≠ r.currentSeedHash) (fresh : r.heap.Fresh)
    (fails : ¬ ok.AllSucceed numThreads) :
    ∃ r', initializeRandomx numThreads ok seedHash r = (false, r') ∧
      (∀ key, ¬ r'.Built numThreads key) ∧ r'.heap.Fresh := by
  have hfresh := destroyOld_fresh fresh
  cases hcache : ok.cache with
  | false =>
    refine ⟨{ destroyOld r with heap := (destroyOld r).heap }, ?_, ?_, hfresh⟩
    · simp [initializeRandomx, if_neg changed, Heap.allocCache, hcache]
    · rintro key ⟨c, d, ⟨hc, _⟩, _⟩
      cases hc
  | true =>
    cases hdataset : ok.dataset with
    | false =>
      refine ⟨{ destroyOld r with
        heap := (((destroyOld r).heap.allocCache true).2.initCache (destroyOld r).heap.next
          (seedBytes seedHash)).releaseCache (destroyOld r).heap.next
        cache := none }, ?_, ?_, ?_⟩
      · simp [initializeRandomx, if_neg changed, Heap.allocCache, hcache, Heap.allocDataset,
          hdataset]
      · rintro key ⟨c, d, ⟨hc, _⟩, _⟩
        cases hc
      · exact fun v hv => hfresh v (Nat.le_of_succ_le hv)
    | true =>
      have hvm : ∃ i < numThreads, ok.vm (0 + i) = false := by
        by_contra none
        refine fails ⟨hcache, hdataset, ?_⟩
        intro i hi
        by_contra hfalse
        exact none ⟨i, hi, by simpa using hfalse⟩
      obtain ⟨r', hrun, hlen, hkept⟩ := createVms_fails (destroyOld r).heap.next
        ((destroyOld r).heap.next + 1) numThreads 0
        { destroyOld r with
          heap := (((((destroyOld r).heap.allocCache true).2.initCache (destroyOld r).heap.next
            (seedBytes seedHash)).allocDataset true).2.initDataset ((destroyOld r).heap.next + 1)
              (destroyOld r).heap.next)
          cache := some (destroyOld r).heap.next
          dataset := some ((destroyOld r).heap.next + 1) } hvm
      refine ⟨r', ?_, ?_, hkept ?_⟩
      · simp only [initializeRandomx, if_neg changed, Heap.allocCache, hcache, if_true,
          Heap.allocDataset, hdataset, Heap.initCache] at hrun ⊢
        rw [hrun]
      · intro key built
        have hcount := built.count
        have hnone : (destroyOld r).vms = [] := rfl
        rw [hnone, List.length_nil] at hlen
        omega
      · intro v hv
        have hle : (destroyOld r).heap.next + 1 + 1 ≤ v := hv
        exact hfresh v (by omega)

/-- The table holds one VM for each worker, all built for the current seed. -/
structure TableReady (n : Nat) (r : Rx) : Prop where
  count : r.vms.length = n
  built : ∀ v ∈ r.vms, r.heap.BuiltFor v (seedBytes r.currentSeedHash)
  fresh : r.heap.Fresh

theorem TableReady.of_built {n : Nat} {r : Rx} (built : r.Built n (seedBytes r.currentSeedHash))
    (fresh : r.heap.Fresh) : TableReady n r :=
  ⟨built.count, fun _ hv => built.builtFor hv, fresh⟩

/-- What a successful rebuild leaves is a ready table. -/
theorem tableReady_rebuild {n : Nat} {seedHash : Text} {r : Rx}
    (changed : seedHash ≠ r.currentSeedHash) (fresh : r.heap.Fresh) :
    TableReady n (initializeRandomx n AllocOutcome.succeeds seedHash r).2 := by
  obtain ⟨r', hrun, hcurrent, hbuilt, _, hfresh, _⟩ :=
    initializeRandomx_rebuild n changed fresh
  rw [hrun]
  exact .of_built (hcurrent ▸ hbuilt) hfresh

end RandomXInit
