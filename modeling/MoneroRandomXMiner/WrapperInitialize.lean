import MoneroRandomXMiner.MiningBlob
import MoneroRandomXMiner.RandomXWrapper

/-!
# What an initialisation leaves in the wrapper

An initialisation that throws in the middle of the VM loop leaves the cache, the
dataset and the VMs made so far, which is all that `is_initialized` and `hash`
look at. One failed attempt is made up for by the switch to VMs without JIT; the
second one is final.
-/

namespace WrapperInitialize

open Histories HexText MiningBlob RandomXWrapper

def isInitialized (w : Wrapper) : Bool := w.cache.isSome && w.dataset.isSome && !w.vms.isEmpty

def numVms (w : Wrapper) : Nat := w.vms.length

/-- `m_vms.size() - 1` wraps around for an empty vector; `sizeBits` is the width
of `size_t`. -/
def invalidThread (sizeBits threadId : Nat) (w : Wrapper) : Text :=
  lit "Invalid thread ID: " ++ lit (toString threadId) ++ lit " (max: " ++
    lit (toString ((w.vms.length + 2 ^ sizeBits - 1) % 2 ^ sizeBits)) ++ lit ")"

/-- The input is `none` for a null pointer; `output` tells whether the buffer for
the hash is there. `m_vms` holds no null pointers. -/
def hash (calculateHash : Vm → List UInt8 → Hash) (sizeBits : Nat) (w : Wrapper)
    (threadId : Nat) (input : Option (List UInt8)) (output : Bool) : Except Text Hash :=
  match w.vms[threadId]? with
  | none => .error (invalidThread sizeBits threadId w)
  | some vm =>
    match input with
    | none => .error (lit "Input or output buffer is null")
    | some bytes =>
      if output then .ok (calculateHash vm bytes)
      else .error (lit "Input or output buffer is null")

/-- All VMs are there, live and made from the objects of this call. -/
structure AllBuilt (before after : State) (w : Wrapper) (numThreads : Nat) : Prop where
  initialized : isInitialized w = true
  count : numVms w = numThreads
  fresh : ∃ c d, w.cache = some c ∧ w.dataset = some d ∧
    .cache c ∉ before.heap.handedOut ∧ .dataset d ∉ before.heap.handedOut ∧
    ∀ v ∈ w.vms, v.cache = c ∧ v.dataset = d
  live : ∀ v ∈ w.vms, .vm v ∈ after.heap.handedOut ∧ .vm v ∉ after.heap.released

/-- Nothing is there that could hash. -/
structure NothingBuilt (w : Wrapper) : Prop where
  uninitialized : isInitialized w = false
  count : numVms w = 0
  rejects : ∀ calculateHash sizeBits threadId input output,
    hash calculateHash sizeBits w threadId input output =
      .error (invalidThread sizeBits threadId w)

/-- The call returns true with everything built, or throws with nothing left. -/
def AllOrNothing (s : State) (i : Nat) (w : Wrapper) (numThreads : Nat) (ok : Outcome) : Prop :=
  (initializeWrapper numThreads ok w s.heap).1 = .ok true ∧
      AllBuilt s (next s (.initializeWrapper i numThreads ok))
        (initializeWrapper numThreads ok w s.heap).2.1 numThreads ∨
    (∃ text, (initializeWrapper numThreads ok w s.heap).1 = .error text) ∧
      NothingBuilt (initializeWrapper numThreads ok w s.heap).2.1

/-- No second VM attempt fails, unless both do so for the first thread, or the loop
is not reached. -/
def FailsEarlyOrOnce (numThreads : Nat) (ok : Outcome) : Prop :=
  ok.cache = false ∨ ok.dataset = false ∨ ok.reserve = false ∨
    (ok.createVm 0 = false ∧ ok.createVm 1 = false) ∨
    ∀ a b, a < b → b ≤ numThreads → ok.createVm a = true ∨ ok.createVm b = true

/-- With JIT the loop gets over one failed attempt, without it over none. -/
def Tolerated (ok : Nat → Bool) (jit : Bool) (call count : Nat) : Prop :=
  if jit then
    ∀ a b, call ≤ a → a < b → b ≤ call + count → ok a = true ∨ ok b = true
  else ∀ a, call ≤ a → a < call + count → ok a = true

theorem tolerated_zero (ok : Nat → Bool) (jit : Bool) (call : Nat) : Tolerated ok jit call 0 := by
  cases jit with
  | true =>
    simp only [Tolerated, if_true]
    omega
  | false =>
    simp only [Tolerated, Bool.false_eq_true, if_false]
    omega

theorem tolerated_succ {ok : Nat → Bool} {call : Nat} (made : ok call = true) (jit : Bool)
    (count : Nat) : Tolerated ok jit call (count + 1) ↔ Tolerated ok jit (call + 1) count := by
  cases jit with
  | true =>
    simp only [Tolerated, if_true]
    constructor
    · intro tolerated a b lower lt upper
      exact tolerated a b (by omega) lt (by omega)
    · intro tolerated a b lower lt upper
      rcases Nat.eq_or_lt_of_le lower with rfl | later
      · exact Or.inl made
      · exact tolerated a b later lt (by omega)
  | false =>
    simp only [Tolerated, Bool.false_eq_true, if_false]
    constructor
    · intro tolerated a lower upper
      exact tolerated a (by omega) (by omega)
    · intro tolerated a lower upper
      rcases Nat.eq_or_lt_of_le lower with rfl | later
      · exact made
      · exact tolerated a later (by omega)

/-- After a failed attempt with JIT and a retry that succeeded, none may fail. -/
theorem tolerated_retried {ok : Nat → Bool} {call : Nat} (failed : ok call = false)
    (retried : ok (call + 1) = true) (count : Nat) :
    Tolerated ok true call (count + 1) ↔ Tolerated ok false (call + 2) count := by
  simp only [Tolerated, if_true, Bool.false_eq_true, if_false]
  constructor
  · intro tolerated a lower upper
    rcases tolerated call a (le_refl _) (by omega) (by omega) with made | made
    · rw [failed] at made
      cases made
    · exact made
  · intro tolerated a b lower lt upper
    right
    rcases Nat.eq_or_lt_of_le (show call + 1 ≤ b by omega) with rfl | later
    · exact retried
    · exact tolerated b later (by omega)

theorem not_tolerated_retried {ok : Nat → Bool} {call : Nat} (failed : ok call = false)
    (again : ok (call + 1) = false) (count : Nat) : ¬Tolerated ok true call (count + 1) := by
  simp only [Tolerated, if_true]
  intro tolerated
  rcases tolerated call (call + 1) (le_refl _) (by omega) (by omega) with made | made
  · rw [failed] at made
    cases made
  · rw [again] at made
    cases made

theorem not_tolerated_plain {ok : Nat → Bool} {call : Nat} (failed : ok call = false)
    (count : Nat) : ¬Tolerated ok false call (count + 1) := by
  simp only [Tolerated, Bool.false_eq_true, if_false]
  intro tolerated
  rw [tolerated call (le_refl _) (by omega)] at failed
  cases failed

theorem createWithRetry_made {ok : Nat → Bool} {call : Nat} (made : ok call = true) (jit : Bool)
    (c d : Nat) (h : Heap) :
    createWithRetry ok call jit c d h =
      (some ⟨h.next, c, d⟩, (call + 1, jit), h.handOut (.vm ⟨h.next, c, d⟩)) := by
  simp [createWithRetry, Heap.createVm, made]

theorem createWithRetry_retried {ok : Nat → Bool} {call : Nat} (failed : ok call = false)
    (retried : ok (call + 1) = true) (c d : Nat) (h : Heap) :
    createWithRetry ok call true c d h =
      (some ⟨h.next, c, d⟩, (call + 2, false), h.handOut (.vm ⟨h.next, c, d⟩)) := by
  simp [createWithRetry, Heap.createVm, failed, retried]

theorem createWithRetry_failed {ok : Nat → Bool} {call : Nat} {jit : Bool}
    (failed : ok call = false) (again : jit = true → ok (call + 1) = false) (c d : Nat)
    (h : Heap) : ∃ flags, createWithRetry ok call jit c d h = (none, flags, h) := by
  cases jit with
  | true => simp [createWithRetry, Heap.createVm, failed, again rfl]
  | false => simp [createWithRetry, Heap.createVm, failed]

/-- Either the loop makes every VM, or it throws after some of them. -/
def LoopEnds (ok : Nat → Bool) (jit : Bool) (call count : Nat) (w : Wrapper)
    (r : Except Text Bool × Wrapper × Heap) : Prop :=
  (r.1 = .ok true ∧ r.2.1.vms.length = w.vms.length + count ∧ Tolerated ok jit call count) ∨
    ∃ made text, r.1 = .error text ∧ r.2.1.vms.length = w.vms.length + made ∧
      ¬Tolerated ok jit call count ∧
      (made = 0 ↔ ok call = false ∧ (jit = true → ok (call + 1) = false))

theorem LoopEnds.prepend {ok : Nat → Bool} {jit jit' : Bool} {call call' count : Nat}
    {w w' : Wrapper} {r : Except Text Bool × Wrapper × Heap}
    (rest : LoopEnds ok jit' call' count w' r) (grown : w'.vms.length = w.vms.length + 1)
    (same : Tolerated ok jit call (count + 1) ↔ Tolerated ok jit' call' count)
    (first : ¬(ok call = false ∧ (jit = true → ok (call + 1) = false))) :
    LoopEnds ok jit call (count + 1) w r := by
  rcases rest with ⟨result, length, tolerated⟩ | ⟨made, text, result, length, intolerable, -⟩
  · exact Or.inl ⟨result, by omega, same.mpr tolerated⟩
  · refine Or.inr ⟨made + 1, text, result, by omega, fun t => intolerable (same.mp t), ?_⟩
    exact iff_of_false (by omega) first

theorem createVms_ends (ok : Nat → Bool) (c d count i call : Nat) (jit : Bool) (w : Wrapper)
    (h : Heap) : LoopEnds ok jit call count w (createVms ok c d count i (call, jit) w h) := by
  induction count generalizing i call jit w h with
  | zero => exact Or.inl ⟨rfl, rfl, tolerated_zero ok jit call⟩
  | succ count ih =>
    cases made : ok call with
    | true =>
      rw [createVms, createWithRetry_made made]
      refine (ih _ _ _ _ _).prepend (by simp) (tolerated_succ made jit count) ?_
      simp [made]
    | false =>
      by_cases retried : jit = true ∧ ok (call + 1) = true
      · obtain ⟨rfl, retried⟩ := retried
        rw [createVms, createWithRetry_retried made retried]
        refine (ih _ _ _ _ _).prepend (by simp) (tolerated_retried made retried count) ?_
        simp [retried]
      · have again : jit = true → ok (call + 1) = false := by
          intro hjit
          rw [Bool.eq_false_iff]
          exact fun made' => retried ⟨hjit, made'⟩
        obtain ⟨flags, hnone⟩ := createWithRetry_failed made again c d h
        rw [createVms, hnone]
        refine Or.inr ⟨0, vmFailure i, rfl, rfl, ?_, iff_of_true rfl ⟨made, again⟩⟩
        cases jit with
        | true => exact not_tolerated_retried made (again rfl) count
        | false => exact not_tolerated_plain made count

/-- The loop adds VMs made from its two objects and leaves the rest alone. -/
theorem createVms_members (ok : Nat → Bool) (c d count i : Nat) (flags : Nat × Bool) (w : Wrapper)
    (h : Heap) :
    (createVms ok c d count i flags w h).2.1.cache = w.cache ∧
      (createVms ok c d count i flags w h).2.1.dataset = w.dataset ∧
      ∀ v ∈ (createVms ok c d count i flags w h).2.1.vms,
        v ∈ w.vms ∨ v.cache = c ∧ v.dataset = d := by
  induction count generalizing i flags w h with
  | zero => exact ⟨rfl, rfl, fun v mem => Or.inl mem⟩
  | succ count ih =>
    obtain ⟨call, jit⟩ := flags
    rcases createWithRetry_cases ok call jit c d h with ⟨flags, hnone⟩ | ⟨flags, hsome⟩
    · rw [createVms, hnone]
      exact ⟨rfl, rfl, fun v mem => Or.inl mem⟩
    · rw [createVms, hsome]
      obtain ⟨hcache, hdataset, hvms⟩ := ih (i + 1) flags
        { w with vms := w.vms ++ [⟨h.next, c, d⟩] } (h.handOut (.vm ⟨h.next, c, d⟩))
      refine ⟨hcache, hdataset, ?_⟩
      intro v mem
      rcases hvms v mem with old | new
      · rcases List.mem_append.mp old with old | new
        · exact Or.inl old
        · rw [List.mem_singleton.mp new]
          exact Or.inr ⟨rfl, rfl⟩
      · exact Or.inr new


/-- Once cache and dataset are there, the loop decides. -/
theorem initializeWrapper_loop {ok : Outcome} (hcache : ok.cache = true)
    (hdataset : ok.dataset = true) (hreserve : ok.reserve = true) (numThreads : Nat) (w : Wrapper)
    (h : Heap) :
    ∃ g, initializeWrapper numThreads ok w h =
      createVms ok.createVm h.next (h.next + 1) numThreads 0 (0, true)
        ⟨some h.next, some (h.next + 1), []⟩ g := by
  simp [initializeWrapper, destroy_eq, Heap.allocCache, Heap.allocDataset, Heap.handOut, hcache,
    hdataset, hreserve, Wrapper.empty]

/-- Before the loop an exception leaves no VM behind. -/
theorem initializeWrapper_early {ok : Outcome}
    (early : ok.cache = false ∨ ok.dataset = false ∨ ok.reserve = false) (numThreads : Nat)
    (w : Wrapper) (h : Heap) :
    (∃ text, (initializeWrapper numThreads ok w h).1 = .error text) ∧
      (initializeWrapper numThreads ok w h).2.1.vms = [] := by
  cases hcache : ok.cache with
  | false => simp [initializeWrapper, destroy_eq, Heap.allocCache, hcache, Wrapper.empty]
  | true =>
    cases hdataset : ok.dataset with
    | false =>
      simp [initializeWrapper, destroy_eq, Heap.allocCache, Heap.allocDataset, hcache, hdataset,
        Wrapper.empty]
    | true =>
      have hreserve : ok.reserve = false := by simpa [hcache, hdataset] using early
      simp [initializeWrapper, destroy_eq, Heap.allocCache, Heap.allocDataset, hcache, hdataset,
        hreserve, Wrapper.empty]

theorem nothingBuilt_iff (w : Wrapper) : NothingBuilt w ↔ w.vms = [] := by
  constructor
  · intro nothing
    exact List.length_eq_zero_iff.mp nothing.count
  · intro none
    constructor
    · simp [isInitialized, none]
    · rw [numVms, none, List.length_nil]
    · intro calculateHash sizeBits threadId input output
      simp [hash, none]

variable {h : List (State × Event)} {s : State} {i : Nat} {w : Wrapper}

/-- A loop that made every VM leaves the wrapper complete. -/
theorem allBuilt_of_loop (run : Run machine Started h s) (hw : s.wrappers i = some w)
    {numThreads : Nat} (positive : 0 < numThreads) {ok : Outcome} (hcache : ok.cache = true)
    (hdataset : ok.dataset = true) (hreserve : ok.reserve = true)
    (made : (initializeWrapper numThreads ok w s.heap).2.1.vms.length = numThreads) :
    AllBuilt s (next s (.initializeWrapper i numThreads ok))
      (initializeWrapper numThreads ok w s.heap).2.1 numThreads := by
  have enabled : Enabled s (.initializeWrapper i numThreads ok) := by simp [Enabled, hw]
  have accounted : Accounted (next s (.initializeWrapper i numThreads ok)) :=
    (good_step (good_run run) enabled).accounted
  have hafter : (next s (.initializeWrapper i numThreads ok)).wrappers i =
      some (initializeWrapper numThreads ok w s.heap).2.1 := by
    simp [next, hw, put]
  obtain ⟨g, hloop⟩ := initializeWrapper_loop hcache hdataset hreserve numThreads w s.heap
  obtain ⟨hc, hd, hvms⟩ := createVms_members ok.createVm s.heap.next (s.heap.next + 1) numThreads 0
    (0, true) ⟨some s.heap.next, some (s.heap.next + 1), []⟩ g
  rw [← hloop] at hc hd hvms
  have unseen : ∀ x : Handle, s.heap.next ≤ x.id → x ∉ s.heap.handedOut := by
    intro x later seen
    have hlt := (good_run run).bounded x seen
    omega
  constructor
  case initialized =>
    have nonempty : (initializeWrapper numThreads ok w s.heap).2.1.vms ≠ [] := by
      rw [← List.length_pos_iff, made]
      exact positive
    simp [isInitialized, hc, hd, nonempty]
  case count => exact made
  case fresh =>
    refine ⟨s.heap.next, s.heap.next + 1, hc, hd, ?_, ?_, ?_⟩
    · exact unseen _ (le_refl _)
    · exact unseen _ (Nat.le_succ _)
    · intro v mem
      exact (hvms v mem).resolve_left List.not_mem_nil
  case live =>
    intro v mem
    exact (accounted.held i _ hafter).2 (.vm v) (by simp [Wrapper.handles, mem])

/-- Initialisation is all or nothing exactly when no second VM attempt fails after
a VM has been made. -/
theorem allOrNothing_iff (run : Run machine Started h s) (hw : s.wrappers i = some w)
    {numThreads : Nat} (positive : 0 < numThreads) (ok : Outcome) :
    AllOrNothing s i w numThreads ok ↔ FailsEarlyOrOnce numThreads ok := by
  by_cases early : ok.cache = false ∨ ok.dataset = false ∨ ok.reserve = false
  · have holds := initializeWrapper_early early numThreads w s.heap
    refine iff_of_true (Or.inr ⟨holds.1, (nothingBuilt_iff _).mpr holds.2⟩) ?_
    rcases early with hcache | hdataset | hreserve
    · exact Or.inl hcache
    · exact Or.inr (Or.inl hdataset)
    · exact Or.inr (Or.inr (Or.inl hreserve))
  · push Not at early
    obtain ⟨hcache, hdataset, hreserve⟩ := early
    rw [Bool.ne_false_iff] at hcache hdataset hreserve
    obtain ⟨g, hloop⟩ := initializeWrapper_loop hcache hdataset hreserve numThreads w s.heap
    have ends := createVms_ends ok.createVm s.heap.next (s.heap.next + 1) numThreads 0 0 true
      ⟨some s.heap.next, some (s.heap.next + 1), []⟩ g
    rw [← hloop] at ends
    have condition : FailsEarlyOrOnce numThreads ok ↔
        (ok.createVm 0 = false ∧ ok.createVm 1 = false) ∨
          Tolerated ok.createVm true 0 numThreads := by
      simp [FailsEarlyOrOnce, hcache, hdataset, hreserve, Tolerated]
    rw [condition]
    rcases ends with ⟨result, made, tolerated⟩ | ⟨made, text, result, length, intolerable, first⟩
    · refine iff_of_true (Or.inl ⟨result, ?_⟩) (Or.inr tolerated)
      exact allBuilt_of_loop run hw positive hcache hdataset hreserve (by simpa using made)
    · have throws : AllOrNothing s i w numThreads ok ↔ made = 0 := by
        simp only [AllOrNothing, result, reduceCtorEq, false_and, false_or, nothingBuilt_iff,
          ← List.length_eq_zero_iff, length, List.length_nil, Nat.zero_add]
        simp
      rw [throws, first, or_iff_left intolerable]
      simp

/-- One wrapper has been constructed. -/
def constructed : List (State × Event) × State :=
  replay machine [.construct 0] ([], ⟨.empty, fun _ => none⟩)

theorem constructed_run : Run machine Started constructed.1 constructed.2 := by
  have started : Run machine Started [] ⟨.empty, fun _ => none⟩ := .init rfl
  exact replay_run started _ (by decide)

theorem allOrNothing_iff_secondVm :
    AllOrNothing constructed.2 0 .empty 2 secondVmFails ↔ FailsEarlyOrOnce 2 secondVmFails :=
  allOrNothing_iff constructed_run rfl (by decide) secondVmFails

/-- The second VM cannot be made: the call throws, and the wrapper counts as
initialised with one VM. -/
theorem allOrNothing_fails_secondVm :
    Run machine Started constructed.1 constructed.2 ∧
      isInitialized (initializeWrapper 2 secondVmFails .empty constructed.2.heap).2.1 = true ∧
      ¬AllOrNothing constructed.2 0 .empty 2 secondVmFails := by
  have throws : (initializeWrapper 2 secondVmFails .empty constructed.2.heap).1 =
      .error (vmFailure 1) := rfl
  have remaining :
      numVms (initializeWrapper 2 secondVmFails .empty constructed.2.heap).2.1 = 1 := rfl
  refine ⟨constructed_run, rfl, ?_⟩
  rintro (⟨result, -⟩ | ⟨-, nothing⟩)
  · rw [throws] at result
    cases result
  · rw [nothing.count] at remaining
    cases remaining

end WrapperInitialize
