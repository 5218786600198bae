import MoneroRandomXMiner.NonceWalks

/-!
# The hash calls between two draws

From one draw to the next a worker may run through any number of batches and
jobs, be cut short by a new job or a malformed blob, and rebuild RandomX. Its
hash calls in that stretch still count up by one from the nonce drawn, so that
2^32 of them in a row try every nonce once.
-/

namespace NonceStretches

open Histories HexText MiningBlob RandomXInit MinerMachine NonceWalks

/-- The list counts up from `first` through all words, around and around. -/
structure CountsUp (first : UInt32) (nonces : List UInt32) : Prop where
  place : ∀ k nonce, nonces[k]? = some nonce → nonce.toNat = (first.toNat + k) % 2 ^ 32
  once : ∀ k l, k < l → l < k + 2 ^ 32 → l < nonces.length → nonces[k]? ≠ nonces[l]?
  noneSkipped : ∀ k, k + 2 ^ 32 ≤ nonces.length → ∀ nonce : UInt32,
    ∃ l, k ≤ l ∧ l < k + 2 ^ 32 ∧ nonces[l]? = some nonce

def countFrom (first : UInt32) (count : Nat) : List UInt32 :=
  (List.range count).map fun k => first + UInt32.ofNat k

theorem countFrom_succ (first : UInt32) (count : Nat) :
    countFrom first (count + 1) = countFrom first count ++ [first + UInt32.ofNat count] := by
  rw [countFrom, List.range_succ, List.map_append]
  rfl

theorem length_countFrom (first : UInt32) (count : Nat) :
    (countFrom first count).length = count := by
  simp [countFrom]

theorem getElem?_countFrom {first : UInt32} {count k : Nat} (hk : k < count) :
    (countFrom first count)[k]? = some (first + UInt32.ofNat k) := by
  simp [countFrom, hk]

theorem countsUp_countFrom (first : UInt32) (count : Nat) :
    CountsUp first (countFrom first count) := by
  refine ⟨?_, ?_, ?_⟩
  · intro k nonce found
    obtain ⟨hk, -⟩ := List.getElem?_eq_some_iff.mp found
    rw [length_countFrom] at hk
    rw [getElem?_countFrom hk] at found
    rw [← Option.some.inj found, toNat_place]
  · intro k l below within hl same
    rw [length_countFrom] at hl
    rw [getElem?_countFrom (by omega), getElem?_countFrom hl] at same
    have values := congrArg UInt32.toNat (Option.some.inj same)
    rw [toNat_place, toNat_place] at values
    omega
  · intro k fits nonce
    rw [length_countFrom] at fits
    have hnonce := nonce.toNat_lt
    have hfirst := first.toNat_lt
    -- the distance to `nonce` from the word at place `k`
    obtain ⟨d, hd⟩ : ∃ d, d = (2 ^ 32 + nonce.toNat - (first.toNat + k) % 2 ^ 32) % 2 ^ 32 :=
      ⟨_, rfl⟩
    refine ⟨k + d, by omega, by omega, ?_⟩
    rw [getElem?_countFrom (by omega), Option.some.injEq, ← UInt32.toNat_inj, toNat_place]
    omega

variable {n : Nat} {calculateHash : Nat → List UInt8 → Hash}

/-- The nonces that worker `t` has hashed, oldest first. -/
def noncesOf (calculateHash : Nat → List UInt8 → Hash) (t : Fin n)
    (h : List (State n × Event n)) : List UInt32 :=
  ((hashed calculateHash h).reverse.filter fun call => call.1 = t).map fun call => call.2.2

/-- The history ends where worker `t` begins to count from `first`: it has just
drawn this nonce, or the run starts with the worker in its main loop. -/
def BeginsAt (start : State n) (t : Fin n) (first : UInt32) : List (State n × Event n) → Prop
  | [] => (start.workers t).pc.InMainLoop ∧ upcoming (start.workers t) = first
  | m :: _ => drawn t m.1 m.2 = some first

/-- A part of a run in which worker `t` draws nothing, after it has begun to count from
`first`. -/
structure Stretch (start : State n) (t : Fin n) (first : UInt32)
    (stretch older : List (State n × Event n)) : Prop where
  begins : BeginsAt start t first older
  quiet : ∀ m ∈ stretch, drawn t m.1 m.2 = none

theorem noncesOf_cons (t : Fin n) (m : State n × Event n) (h : List (State n × Event n)) :
    noncesOf calculateHash t (m :: h) = noncesOf calculateHash t h ++
      if Calls calculateHash t m.1 m.2 then [(m.1.workers t).nonce] else [] := by
  cases hcall : hashCall calculateHash m.1 m.2 with
  | none => simp [Calls, hcall, noncesOf, hashed_cons_none h hcall]
  | some found =>
    obtain ⟨u, call⟩ := found
    rw [noncesOf, hashed_cons_some h hcall]
    by_cases hu : u = t
    · subst hu
      rw [if_pos ((calls_iff_caller hcall).mpr rfl)]
      simp [noncesOf]
    · rw [if_neg fun called => hu ((calls_iff_caller hcall).mp called)]
      simp [noncesOf, hu]

/-- The hash calls have counted up from `first`, and the worker is about to go on with
the word after them. -/
def Counted (calculateHash : Nat → List UInt8 → Hash) (t : Fin n) (first : UInt32)
    (stretch : List (State n × Event n)) (s : State n) : Prop :=
  ∃ count, noncesOf calculateHash t stretch = countFrom first count ∧
    ((s.workers t).pc.InMainLoop → upcoming (s.workers t) = first + UInt32.ofNat count)

theorem counted_step {t : Fin n} {first : UInt32} {stretch : List (State n × Event n)} {s : State n}
    {e : Event n} (counted : Counted calculateHash t first stretch s)
    (quiet : drawn t s e = none) :
    Counted calculateHash t first ((s, e) :: stretch) (next calculateHash s e) := by
  obtain ⟨count, listed, comes⟩ := counted
  rw [Counted, noncesOf_cons, listed]
  by_cases called : Calls calculateHash t s e
  · have hpc := (calls_hashing called).1
    have here := comes (by rw [hpc]; trivial)
    rw [if_pos called]
    refine ⟨count + 1, ?_, ?_⟩
    · rw [countFrom_succ, ← here, upcoming, if_neg (by simp [hpc])]
    · intro loop
      rw [(upcoming_quiet quiet loop).2, if_pos called, here]
      exact (place_succ first count).symm
  · rw [if_neg called, List.append_nil]
    refine ⟨count, rfl, ?_⟩
    intro loop
    obtain ⟨before, stays⟩ := upcoming_quiet quiet loop
    rw [stays, if_neg called, comes before]

theorem counted_begins {start : State n} {t : Fin n} {first : UInt32}
    {older : List (State n × Event n)} {s : State n}
    (run : Run (machine calculateHash n) (· = start) older s)
    (begins : BeginsAt start t first older) : Counted calculateHash t first [] s := by
  have comes : upcoming (s.workers t) = first := by
    cases run with
    | init same => exact same ▸ begins.2
    | step run enabled => exact upcoming_drawn enabled begins
  refine ⟨0, rfl, ?_⟩
  intro _
  rw [comes]
  exact (UInt32.add_zero first).symm

theorem counted_stretch {start : State n} {t : Fin n} {first : UInt32}
    {stretch older : List (State n × Event n)} {s : State n}
    (run : Run (machine calculateHash n) (· = start) (stretch ++ older) s)
    (part : Stretch start t first stretch older) : Counted calculateHash t first stretch s := by
  obtain ⟨begins, quiet⟩ := part
  induction stretch generalizing s with
  | nil => exact counted_begins run begins
  | cons m stretch ih =>
    rw [List.forall_mem_cons] at quiet
    cases run with
    | step run enabled => exact counted_step (ih run quiet.2) quiet.1

/-- A worker in the main loop is in a stretch. -/
theorem stretch_of_loop {start : State n} {t : Fin n} {h : List (State n × Event n)} {s : State n}
    (run : Run (machine calculateHash n) (· = start) h s) (loop : (s.workers t).pc.InMainLoop) :
    ∃ first stretch older, h = stretch ++ older ∧ Stretch start t first stretch older := by
  induction run with
  | init same =>
    subst same
    exact ⟨_, [], [], rfl, ⟨loop, rfl⟩, fun m hm => nomatch hm⟩
  | @step h s e run enabled ih =>
    cases draws : drawn t s e with
    | some first => exact ⟨first, [], _, rfl, draws, fun m hm => nomatch hm⟩
    | none =>
      obtain ⟨first, stretch, older, rfl, begins, quiet⟩ := ih (upcoming_quiet draws loop).1
      exact ⟨first, (s, e) :: stretch, older, rfl, begins, List.forall_mem_cons.mpr ⟨draws, quiet⟩⟩

/-- A worker draws when it enters the main loop and with every share, and at no other event. -/
theorem drawn_isSome_iff (s : State n) (e : Event n) (t : Fin n) :
    (drawn t s e).isSome ↔
      (∃ env, e = .work t env ∧ (s.workers t).pc = .firstVm) ∨
        ∃ share, submission s e = some (t, share) := by
  cases e with
  | work u env =>
    by_cases hu : u = t
    · subst hu
      by_cases hfirst : (s.workers u).pc = .firstVm
      · simp [drawn, submission, hfirst]
      · by_cases hsubmit : (s.workers u).pc = .submit
        · simp [drawn, submission, hsubmit]
        · simp [drawn, submission, hfirst, hsubmit]
    · by_cases hsubmit : (s.workers u).pc = .submit
      · simp [drawn, submission, hu, hsubmit]
      · simp [drawn, submission, hu, hsubmit]
  | _ => simp [drawn, submission]

/-- A worker draws on entering the main loop and with each of its shares. In every
stretch between two draws the nonces hashed count up from the nonce drawn, and
every hash call is made in a stretch. -/
theorem stretches_countUp {start : State n} {h : List (State n × Event n)} {s : State n}
    (run : Run (machine calculateHash n) (· = start) h s) (t : Fin n) :
    (∀ m ∈ h, (drawn t m.1 m.2).isSome ↔
      (∃ env, m.2 = .work t env ∧ (m.1.workers t).pc = .firstVm) ∨
        ∃ share, submission m.1 m.2 = some (t, share)) ∧
    (∀ newer stretch older first, h = newer ++ (stretch ++ older) →
      Stretch start t first stretch older → CountsUp first (noncesOf calculateHash t stretch)) ∧
    (∀ newer m before, h = newer ++ m :: before → Calls calculateHash t m.1 m.2 →
      ∃ first stretch older, before = stretch ++ older ∧
        Stretch start t first (m :: stretch) older) := by
  refine ⟨fun m _ => drawn_isSome_iff m.1 m.2 t, ?_, ?_⟩
  · rintro newer stretch older first rfl part
    obtain ⟨s', before⟩ := run.older
    obtain ⟨count, listed, -⟩ := counted_stretch before part
    rw [listed]
    exact countsUp_countFrom first count
  · rintro newer ⟨s', e⟩ before rfl called
    obtain ⟨hpc, quiet⟩ := calls_hashing called
    obtain ⟨first, stretch, older, rfl, begins, silent⟩ :=
      stretch_of_loop run.before.1 (by rw [hpc]; trivial)
    exact ⟨first, stretch, older, rfl, begins, List.forall_mem_cons.mpr ⟨quiet, silent⟩⟩

def highHash : Nat → List UInt8 → Hash := fun _ _ => Vector.replicate 32 255

/-- The worker draws the last word, hashes it, sees a new job and hashes once more. -/
def jobSwitch : List (Event 2) :=
  .work worker0 ⟨0xFFFFFFFF, AllocOutcome.succeeds⟩ :: List.replicate 6 (.work worker0 idle) ++
    [.storeJob (sampleJob (lit "2") (lit "aa")), .raiseNewJob] ++
    List.replicate 7 (.work worker0 idle)

def jobSwitchRun : List (State 2 × Event 2) × State 2 :=
  replay (machine highHash 2) jobSwitch ([], enteringState)

theorem jobSwitch_run :
    Run (machine highHash 2) (· = enteringState) jobSwitchRun.1 jobSwitchRun.2 := by
  have started : Run (machine highHash 2) (· = enteringState) [] enteringState := .init rfl
  exact replay_run started _ (by decide +kernel)

theorem jobSwitch_stretch : Stretch enteringState worker0 0xFFFFFFFF (jobSwitchRun.1.take 15)
    (jobSwitchRun.1.drop 15) := by
  refine ⟨?_, by decide +kernel⟩
  change drawn worker0 enteringState (.work worker0 ⟨0xFFFFFFFF, AllocOutcome.succeeds⟩) =
    some 0xFFFFFFFF
  decide +kernel

theorem stretches_countUp_jobSwitch :
    CountsUp 0xFFFFFFFF (noncesOf highHash worker0 (jobSwitchRun.1.take 15)) ∧
      noncesOf highHash worker0 (jobSwitchRun.1.take 15) = [0xFFFFFFFF, 0] :=
  ⟨(stretches_countUp jobSwitch_run worker0).2.1 [] _ _ _ (List.take_append_drop _ _).symm
    jobSwitch_stretch, by decide +kernel⟩

end NonceStretches
