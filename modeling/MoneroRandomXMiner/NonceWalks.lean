import MoneroRandomXMiner.JobNotification

/-!
# The nonces that the workers walk over

A worker draws a nonce when it enters the main loop and again after each share,
and counts up from it in between: from one draw to the next it walks over a range
of nonces, under whatever jobs arrive. Nothing keeps the ranges apart but the
draws. Where the draws under one job id are further apart than the walks are
long, no nonce is hashed by two workers for one job and no share is found twice.
-/

namespace NonceWalks

open Histories HexText MiningBlob RandomXInit MinerMachine

theorem toNat_place (first : UInt32) (k : Nat) :
    (first + UInt32.ofNat k).toNat = (first.toNat + k) % 2 ^ 32 := by
  rw [UInt32.toNat_add, UInt32.toNat_ofNat', Nat.add_mod_mod]

/-- Two ranges of words, each of which may wrap around, have no word in common
if each begins past the end of the other. -/
theorem ranges_disjoint {a b : UInt32} {k l i j : Nat} (forward : k ≤ (b - a).toNat)
    (backward : l ≤ (a - b).toNat) (hi : i < k) (hj : j < l) :
    a + UInt32.ofNat i ≠ b + UInt32.ofNat j := by
  have ha := a.toNat_lt
  have hb := b.toNat_lt
  rw [UInt32.toNat_sub] at forward backward
  rw [ne_eq, ← UInt32.toNat_inj, toNat_place, toNat_place]
  omega

variable {n : Nat} {calculateHash : Nat → List UInt8 → Hash}

/-- RandomX is ready, and every worker enters the main loop: it is about to draw
its starting nonce, or has drawn it. -/
structure Entered (s : State n) : Prop where
  table : TableReady n s.shared.rx
  entering : ∀ t, (s.workers t).pc = .firstVm ∨ (s.workers t).pc = .loopHead

/-- The hash calls of a run, newest first: worker, job and nonce. -/
def hashed (calculateHash : Nat → List UInt8 → Hash) (h : List (State n × Event n)) :
    List (Fin n × MiningJob × UInt32) :=
  h.filterMap fun m =>
    (hashCall calculateHash m.1 m.2).map fun call => (call.1, call.2.job, call.2.nonce)

/-- The job id and the nonce of every share submitted. -/
def submitted (h : List (State n × Event n)) : List (Text × Text) :=
  h.filterMap fun m => (submission m.1 m.2).map fun share => (share.2.jobId, share.2.nonce)

/-- The jobs of a run have different ids. -/
def DistinctIds (start : State n) (h : List (State n × Event n)) : Prop :=
  (start.shared.currentJob.jobId :: h.filterMap fun m =>
    match m.2 with
    | .storeJob job => some job.jobId
    | _ => none).Nodup

/-- No two workers hash the same nonce of the same job, and no two shares have job
id and nonce in common. -/
structure NoDuplicates (calculateHash : Nat → List UInt8 → Hash)
    (h : List (State n × Event n)) : Prop where
  work : ∀ a ∈ hashed calculateHash h, ∀ b ∈ hashed calculateHash h, a.1 ≠ b.1 → a.2 ≠ b.2
  shares : (submitted h).Nodup

/-- The starting nonce that an event gives to worker `t`: the first draw is
perturbed by the thread id, the later ones are taken as they are. -/
def drawn (t : Fin n) (s : State n) : Event n → Option UInt32
  | .work u env =>
    if u = t ∧ (s.workers u).pc = .firstVm then
      some (env.draw ^^^ (UInt32.ofNat u * 0x01000193))
    else if u = t ∧ (s.workers u).pc = .submit then some env.draw
    else none
  | _ => none

def Calls (calculateHash : Nat → List UInt8 → Hash) (t : Fin n) (s : State n) (e : Event n) :
    Prop :=
  (hashCall calculateHash s e).map Prod.fst = some t

instance (t : Fin n) (s : State n) (e : Event n) : Decidable (Calls calculateHash t s e) :=
  inferInstanceAs (Decidable (_ = _))

/-- The nonce drawn, and for every hash call since the id of its job, newest first. -/
structure Walk where
  start : UInt32
  jobIds : List Text
  deriving DecidableEq

def Walk.calls (w : Walk) : Nat := w.jobIds.length

/-- The nonce that comes next. -/
def Walk.place (w : Walk) : UInt32 := w.start + UInt32.ofNat w.calls

structure Walks where
  current : Walk
  ended : List Walk

def Walks.all (ws : Walks) : List Walk := ws.current :: ws.ended

/-- The walks of worker `t`: a draw ends one and begins the next. -/
def walks (calculateHash : Nat → List UInt8 → Hash) (start : State n) (t : Fin n) :
    List (State n × Event n) → Walks
  | [] => ⟨⟨(start.workers t).nonce, []⟩, []⟩
  | m :: h =>
    let ws := walks calculateHash start t h
    match drawn t m.1 m.2 with
    | some nonce => ⟨⟨nonce, []⟩, ws.all⟩
    | none =>
      if Calls calculateHash t m.1 m.2 then
        { ws with
          current := { ws.current with jobIds := (m.1.workers t).job.jobId :: ws.current.jobIds } }
      else ws

/-- Two walks with calls under one job id begin at least as far from each other, in
both directions around, as they have calls. -/
def Apart (a b : Walk) : Prop :=
  ∀ id ∈ a.jobIds, id ∈ b.jobIds →
    a.calls ≤ (b.start - a.start).toNat ∧ b.calls ≤ (a.start - b.start).toNat

instance (a b : Walk) : Decidable (Apart a b) :=
  inferInstanceAs (Decidable (∀ id ∈ a.jobIds, id ∈ b.jobIds → _ ∧ _))

/-- All draws are as far apart as the calls that follow them require. -/
structure DrawsApart (calculateHash : Nat → List UInt8 → Hash) (start : State n)
    (h : List (State n × Event n)) : Prop where
  own : ∀ t, (walks calculateHash start t h).all.Pairwise Apart
  others : ∀ t u, t ≠ u → ∀ a ∈ (walks calculateHash start t h).all,
    ∀ b ∈ (walks calculateHash start u h).all, Apart a b

/-- The nonce of a worker's next call, if no draw comes before it. -/
def upcoming (w : Worker) : UInt32 := if w.pc = .submit then w.nonce + 1 else w.nonce

theorem drawn_firstVm {s : State n} {t : Fin n} (env : Env) (hpc : (s.workers t).pc = .firstVm) :
    drawn t s (.work t env) = some (env.draw ^^^ (UInt32.ofNat t * 0x01000193)) := by
  simp [drawn, hpc]

theorem drawn_submit {s : State n} {t : Fin n} (env : Env) (hpc : (s.workers t).pc = .submit) :
    drawn t s (.work t env) = some env.draw := by
  simp [drawn, hpc]

theorem drawn_none {s : State n} {t : Fin n} (env : Env) (hfirst : (s.workers t).pc ≠ .firstVm)
    (hsubmit : (s.workers t).pc ≠ .submit) : drawn t s (.work t env) = none := by
  simp [drawn, hfirst, hsubmit]

theorem calls_iff {s : State n} {t : Fin n} {env : Env} :
    Calls calculateHash t s (.work t env) ↔ (s.workers t).pc = .hashing ∧
      ∃ input, constructMiningBlob (s.workers t).job.blob (s.workers t).nonce = .ok input := by
  simp only [Calls, hashCall]
  by_cases hpc : (s.workers t).pc = .hashing
  · cases built : constructMiningBlob (s.workers t).job.blob (s.workers t).nonce with
    | error text => simp [hpc]
    | ok input => simp [hpc]
  · simp [hpc]

theorem workerNext_nonce {t : Nat} {env : Env} {g : Shared} {w : Worker} (hfirst : w.pc ≠ .firstVm)
    (hhash : w.pc ≠ .hashing) (hsubmit : w.pc ≠ .submit) :
    (workerNext calculateHash n t env g w).2.nonce = w.nonce := by
  cases hpc : w.pc with
  | firstVm => exact absurd hpc hfirst
  | hashing => exact absurd hpc hhash
  | submit => exact absurd hpc hsubmit
  | fetchVm => cases hv : g.rx.vms[t]? <;> simp [workerNext, hpc, hv, beginBatch]
  | takeJob =>
    simp only [workerNext, hpc, chooseJob, beginBatch]
    split <;> try split
    all_goals rfl
  | _ => simp only [workerNext, hpc]

theorem workerNext_main {t : Nat} {env : Env} {g : Shared} {w : Worker} (hfirst : w.pc ≠ .firstVm)
    (loop : (workerNext calculateHash n t env g w).2.pc.InMainLoop) : w.pc.InMainLoop := by
  have flow : ∀ p : Pc, ∀ q ∈ p.successors, q.InMainLoop → p = .firstVm ∨ p.InMainLoop := by
    intro p
    cases p <;> simp [Pc.successors, Pc.InMainLoop]
  exact (flow w.pc _ (workerNext_pc t env g w) loop).resolve_left hfirst

/-- A submission follows a hash call only. -/
theorem workerNext_not_submit {t : Nat} {env : Env} {g : Shared} {w : Worker}
    (hhash : w.pc ≠ .hashing) : (workerNext calculateHash n t env g w).2.pc ≠ .submit := by
  intro hpc
  have hashes : (workerNext calculateHash n t env g w).2.pc.Hashes := by
    rw [hpc]
    trivial
  rcases workerNext_hashes hashes with before | ⟨-, after⟩
  · exact hhash before
  · rw [hpc] at after
    cases after

/-- A worker comes to submit by a hash call, and with the job of that call. -/
theorem workerNext_submit {s : State n} {t : Fin n} {env : Env}
    (hpc : (workerNext calculateHash n t env s.shared (s.workers t)).2.pc = .submit) :
    Calls calculateHash t s (.work t env) ∧
      (workerNext calculateHash n t env s.shared (s.workers t)).2.job = (s.workers t).job := by
  have hhash : (s.workers t).pc = .hashing := by
    by_contra other
    exact workerNext_not_submit other hpc
  cases built : constructMiningBlob (s.workers t).job.blob (s.workers t).nonce with
  | error text =>
    simp [workerNext, hhash, hashOnce, built] at hpc
  | ok input =>
    refine ⟨calls_iff.mpr ⟨hhash, input, built⟩, ?_⟩
    simp only [workerNext, hhash, hashOnce, built]
    split <;> rfl

/-- A draw is the upcoming nonce. -/
theorem workerNext_drawn {s : State n} {t : Fin n} {env : Env} {nonce : UInt32}
    (enabled : WorkerEnabled t s.shared (s.workers t))
    (draws : drawn t s (.work t env) = some nonce) :
    upcoming (workerNext calculateHash n t env s.shared (s.workers t)).2 = nonce := by
  by_cases hfirst : (s.workers t).pc = .firstVm
  · rw [drawn_firstVm env hfirst] at draws
    obtain ⟨v, hv⟩ : ∃ v, s.shared.rx.vms[t.val]? = some v :=
      ⟨_, List.getElem?_eq_getElem (enabled.2.2 hfirst)⟩
    simp only [workerNext, hfirst, hv, enterMainLoop, upcoming, reduceCtorEq, if_false]
    exact Option.some.inj draws
  · by_cases hsubmit : (s.workers t).pc = .submit
    · rw [drawn_submit env hsubmit] at draws
      rw [upcoming, if_neg (workerNext_not_submit (by simp [hsubmit]))]
      simp only [workerNext, hsubmit, nextIteration]
      exact Option.some.inj draws
    · rw [drawn_none env hfirst hsubmit] at draws
      cases draws

/-- A hash call moves the upcoming nonce by one, and nothing else moves it. -/
theorem workerNext_upcoming {s : State n} {t : Fin n} {env : Env}
    (quiet : drawn t s (.work t env) = none) :
    upcoming (workerNext calculateHash n t env s.shared (s.workers t)).2 =
      if Calls calculateHash t s (.work t env) then upcoming (s.workers t) + 1
      else upcoming (s.workers t) := by
  have hfirst : (s.workers t).pc ≠ .firstVm := by
    intro hpc
    rw [drawn_firstVm env hpc] at quiet
    cases quiet
  have hsubmit : (s.workers t).pc ≠ .submit := by
    intro hpc
    rw [drawn_submit env hpc] at quiet
    cases quiet
  by_cases hhash : (s.workers t).pc = .hashing
  · cases built : constructMiningBlob (s.workers t).job.blob (s.workers t).nonce with
    | error text =>
      have silent : ¬Calls calculateHash t s (.work t env) := by
        rw [calls_iff]
        simp [built]
      simp [silent, workerNext, hhash, hashOnce, built, upcoming]
    | ok input =>
      have called : Calls calculateHash t s (.work t env) := calls_iff.mpr ⟨hhash, input, built⟩
      rw [if_pos called]
      simp only [workerNext, hhash, hashOnce, built]
      split
      · simp [upcoming, hhash]
      · simp only [upcoming, nextIteration, hhash]
        split <;> simp
  · have silent : ¬Calls calculateHash t s (.work t env) := by
      intro called
      exact hhash (calls_iff.mp called).1
    rw [if_neg silent, upcoming, if_neg (workerNext_not_submit hhash), upcoming, if_neg hsubmit,
      workerNext_nonce hfirst hhash hsubmit]

theorem drawn_other {t u : Fin n} (s : State n) (env : Env) (hne : u ≠ t) :
    drawn t s (.work u env) = none := by
  simp [drawn, hne]

theorem not_calls_other {t u : Fin n} (s : State n) (env : Env) (hne : u ≠ t) :
    ¬Calls calculateHash t s (.work u env) := by
  intro called
  obtain ⟨⟨v, call⟩, hcall, same⟩ := Option.map_eq_some_iff.mp called
  obtain ⟨⟨env', henv⟩, -⟩ := hashCall_some hcall
  cases henv
  exact hne same

/-- After a draw of a worker, what it has drawn comes next. -/
theorem upcoming_drawn {s : State n} {e : Event n} {t : Fin n} {nonce : UInt32}
    (enabled : Enabled s e) (draws : drawn t s e = some nonce) :
    upcoming ((next calculateHash s e).workers t) = nonce := by
  cases e with
  | work u env =>
    by_cases hu : u = t
    · subst hu
      rw [next_worker_same, workerNext_drawn enabled draws]
    · rw [drawn_other s env hu] at draws
      cases draws
  | _ => cases draws

/-- Without a draw a worker was in the main loop before if it is there now, and
its hash calls alone move what comes next. -/
theorem upcoming_quiet {s : State n} {e : Event n} {t : Fin n} (quiet : drawn t s e = none)
    (loop : ((next calculateHash s e).workers t).pc.InMainLoop) :
    (s.workers t).pc.InMainLoop ∧
      upcoming ((next calculateHash s e).workers t) =
        if Calls calculateHash t s e then upcoming (s.workers t) + 1
        else upcoming (s.workers t) := by
  cases e with
  | work u env =>
    by_cases hu : u = t
    · subst hu
      have hfirst : (s.workers u).pc ≠ .firstVm := by
        intro hpc
        rw [drawn_firstVm env hpc] at quiet
        cases quiet
      rw [next_worker_same] at loop ⊢
      exact ⟨workerNext_main hfirst loop, workerNext_upcoming quiet⟩
    · rw [next_worker_other s env (Ne.symm hu)] at loop ⊢
      rw [if_neg (not_calls_other s env hu)]
      exact ⟨loop, rfl⟩
  | joinThreads => exact loop.elim
  | startMining => exact loop.elim
  | _ => exact ⟨loop, rfl⟩

theorem calls_hashing {s : State n} {e : Event n} {t : Fin n} (called : Calls calculateHash t s e) :
    (s.workers t).pc = .hashing ∧ drawn t s e = none := by
  obtain ⟨⟨u, call⟩, hcall, same⟩ := Option.map_eq_some_iff.mp called
  obtain ⟨⟨env, rfl⟩, hpc, -, -⟩ := hashCall_some hcall
  obtain rfl : u = t := same
  exact ⟨hpc, drawn_none env (by simp [hpc]) (by simp [hpc])⟩

theorem place_succ (first : UInt32) (count : Nat) :
    first + UInt32.ofNat (count + 1) = first + UInt32.ofNat count + 1 := by
  rw [UInt32.ofNat_add, ← UInt32.add_assoc]
  rfl

theorem walks_drawn {start : State n} {t : Fin n} {m : State n × Event n}
    {h : List (State n × Event n)} {nonce : UInt32} (draws : drawn t m.1 m.2 = some nonce) :
    walks calculateHash start t (m :: h) = ⟨⟨nonce, []⟩, (walks calculateHash start t h).all⟩ := by
  simp only [walks, draws]

theorem walks_called {start : State n} {t : Fin n} {m : State n × Event n}
    {h : List (State n × Event n)} (quiet : drawn t m.1 m.2 = none)
    (called : Calls calculateHash t m.1 m.2) :
    walks calculateHash start t (m :: h) =
      ⟨⟨(walks calculateHash start t h).current.start,
        (m.1.workers t).job.jobId :: (walks calculateHash start t h).current.jobIds⟩,
        (walks calculateHash start t h).ended⟩ := by
  simp only [walks, quiet, if_pos called]

theorem walks_silent {start : State n} {t : Fin n} {m : State n × Event n}
    {h : List (State n × Event n)} (quiet : drawn t m.1 m.2 = none)
    (silent : ¬Calls calculateHash t m.1 m.2) :
    walks calculateHash start t (m :: h) = walks calculateHash start t h := by
  simp only [walks, quiet, if_neg silent]

/-- The walk has been under this job id, and over this nonce. -/
def Walk.Covers (w : Walk) (id : Text) (nonce : UInt32) : Prop :=
  id ∈ w.jobIds ∧ ∃ i < w.calls, nonce = w.start + UInt32.ofNat i

theorem Apart.disjoint {a b : Walk} (apart : Apart a b) {id : Text} {nonce : UInt32}
    (inA : a.Covers id nonce) : ¬b.Covers id nonce := by
  obtain ⟨idA, i, hi, rfl⟩ := inA
  rintro ⟨idB, j, hj, meet⟩
  obtain ⟨forward, backward⟩ := apart id idA idB
  exact ranges_disjoint forward backward hi hj meet

/-- The other walk is this one with more calls. -/
def Walk.Grows (a b : Walk) : Prop := a.start = b.start ∧ a.jobIds <:+ b.jobIds

theorem Walk.Grows.refl (a : Walk) : a.Grows a := ⟨rfl, List.suffix_refl _⟩

theorem Walk.Grows.covers {a b : Walk} (grows : a.Grows b) {id : Text} {nonce : UInt32}
    (inA : a.Covers id nonce) : b.Covers id nonce := by
  obtain ⟨same, longer⟩ := grows
  obtain ⟨hid, i, hi, rfl⟩ := inA
  exact ⟨longer.subset hid, i, Nat.lt_of_lt_of_le hi longer.length_le, by rw [same]⟩

theorem Apart.mono {a a' b b' : Walk} (growsA : a.Grows a') (growsB : b.Grows b')
    (apart : Apart a' b') : Apart a b := by
  intro id idA idB
  obtain ⟨forward, backward⟩ := apart id (growsA.2.subset idA) (growsB.2.subset idB)
  rw [growsA.1, growsB.1]
  exact ⟨Nat.le_trans growsA.2.length_le forward, Nat.le_trans growsB.2.length_le backward⟩

/-- A step lets every walk grow, or leaves it. -/
theorem walk_grows (start : State n) (t : Fin n) (m : State n × Event n)
    (h : List (State n × Event n)) {w : Walk} (mem : w ∈ (walks calculateHash start t h).all) :
    ∃ w' ∈ (walks calculateHash start t (m :: h)).all, w.Grows w' := by
  cases draws : drawn t m.1 m.2 with
  | some nonce =>
    rw [walks_drawn draws]
    exact ⟨w, List.mem_cons_of_mem _ mem, .refl w⟩
  | none =>
    by_cases called : Calls calculateHash t m.1 m.2
    · rw [walks_called draws called]
      rcases List.mem_cons.mp mem with rfl | ended
      · exact ⟨_, List.mem_cons_self, rfl, List.suffix_cons _ _⟩
      · exact ⟨w, List.mem_cons_of_mem _ ended, .refl w⟩
    · rw [walks_silent draws called]
      exact ⟨w, mem, .refl w⟩

theorem ended_kept (start : State n) (t : Fin n) (m : State n × Event n)
    (h : List (State n × Event n)) {w : Walk} (mem : w ∈ (walks calculateHash start t h).ended) :
    w ∈ (walks calculateHash start t (m :: h)).ended := by
  cases draws : drawn t m.1 m.2 with
  | some nonce =>
    rw [walks_drawn draws]
    exact List.mem_cons_of_mem _ mem
  | none =>
    by_cases called : Calls calculateHash t m.1 m.2
    · rw [walks_called draws called]
      exact mem
    · rw [walks_silent draws called]
      exact mem

theorem pairwise_older {start : State n} {t : Fin n} {m : State n × Event n}
    {h : List (State n × Event n)}
    (apart : (walks calculateHash start t (m :: h)).all.Pairwise Apart) :
    (walks calculateHash start t h).all.Pairwise Apart := by
  cases draws : drawn t m.1 m.2 with
  | some nonce =>
    rw [walks_drawn draws] at apart
    exact (List.pairwise_cons.mp apart).2
  | none =>
    by_cases called : Calls calculateHash t m.1 m.2
    · rw [walks_called draws called] at apart
      obtain ⟨first, rest⟩ := List.pairwise_cons.mp apart
      have grows : (walks calculateHash start t h).current.Grows
          ⟨(walks calculateHash start t h).current.start,
            (m.1.workers t).job.jobId :: (walks calculateHash start t h).current.jobIds⟩ :=
        ⟨rfl, List.suffix_cons _ _⟩
      exact List.pairwise_cons.mpr ⟨fun w mem => Apart.mono grows (.refl w) (first w mem), rest⟩
    · rwa [walks_silent draws called] at apart

/-- Walks that stay apart have been apart before. -/
theorem DrawsApart.older {start : State n} {m : State n × Event n}
    {h : List (State n × Event n)} (apart : DrawsApart calculateHash start (m :: h)) :
    DrawsApart calculateHash start h := by
  refine ⟨fun t => pairwise_older (apart.own t), ?_⟩
  intro t u other a ha b hb
  obtain ⟨a', ha', growsA⟩ := walk_grows start t m h ha
  obtain ⟨b', hb', growsB⟩ := walk_grows start u m h hb
  exact (apart.others t u other a' ha' b' hb').mono growsA growsB

/-- Every worker in the main loop is where its draw and its calls since lead to. -/
def Placed (calculateHash : Nat → List UInt8 → Hash) (start : State n)
    (h : List (State n × Event n)) (s : State n) : Prop :=
  ∀ t, (s.workers t).pc.InMainLoop →
    upcoming (s.workers t) = (walks calculateHash start t h).current.place

theorem placed_step {start : State n} {h : List (State n × Event n)} {s : State n} {e : Event n}
    (placed : Placed calculateHash start h s) (enabled : Enabled s e) :
    Placed calculateHash start ((s, e) :: h) (next calculateHash s e) := by
  intro t loop
  cases draws : drawn t s e with
  | some nonce =>
    rw [upcoming_drawn enabled draws, walks_drawn draws]
    simp [Walk.place, Walk.calls]
  | none =>
    obtain ⟨before, moved⟩ := upcoming_quiet draws loop
    rw [moved, placed t before]
    by_cases called : Calls calculateHash t s e
    · rw [if_pos called, walks_called draws called]
      exact (place_succ _ _).symm
    · rw [if_neg called, walks_silent draws called]

/-- The share that a worker is about to submit comes from its last hash call. -/
def Found (calculateHash : Nat → List UInt8 → Hash) (start : State n)
    (h : List (State n × Event n)) (s : State n) : Prop :=
  ∀ t, (s.workers t).pc = .submit →
    (walks calculateHash start t h).current.jobIds.head? = some (s.workers t).job.jobId

theorem found_step {start : State n} {h : List (State n × Event n)} {s : State n} {e : Event n}
    (found : Found calculateHash start h s) :
    Found calculateHash start ((s, e) :: h) (next calculateHash s e) := by
  intro t hpc
  cases e with
  | work u env =>
    by_cases hu : u = t
    · subst hu
      rw [next_worker_same] at hpc ⊢
      obtain ⟨called, same⟩ := workerNext_submit hpc
      rw [walks_called (calls_hashing called).2 called, same]
      rfl
    · rw [next_worker_other s env (Ne.symm hu)] at hpc ⊢
      rw [walks_silent (drawn_other s env hu) (not_calls_other s env hu)]
      exact found t hpc
  | joinThreads => cases hpc
  | startMining => cases hpc
  | _ => exact found t hpc

theorem hashed_cons_none {m : State n × Event n} (h : List (State n × Event n))
    (silent : hashCall calculateHash m.1 m.2 = none) :
    hashed calculateHash (m :: h) = hashed calculateHash h := by
  rw [hashed, List.filterMap_cons, silent]
  rfl

theorem hashed_cons_some {m : State n × Event n} {u : Fin n} {call : HashCall}
    (h : List (State n × Event n)) (hcall : hashCall calculateHash m.1 m.2 = some (u, call)) :
    hashed calculateHash (m :: h) =
      (u, (m.1.workers u).job, (m.1.workers u).nonce) :: hashed calculateHash h := by
  obtain ⟨-, -, -, made⟩ := hashCall_some hcall
  rw [hashed, List.filterMap_cons, hcall, made]
  rfl

theorem calls_iff_caller {s : State n} {e : Event n} {t u : Fin n} {call : HashCall}
    (hcall : hashCall calculateHash s e = some (u, call)) :
    Calls calculateHash t s e ↔ u = t := by
  simp [Calls, hcall]

theorem mem_hashed_cons {t : Fin n} {job : MiningJob} {nonce : UInt32} {m : State n × Event n}
    {h : List (State n × Event n)} :
    (t, job, nonce) ∈ hashed calculateHash (m :: h) ↔
      (Calls calculateHash t m.1 m.2 ∧ (m.1.workers t).job = job ∧
        nonce = (m.1.workers t).nonce) ∨ (t, job, nonce) ∈ hashed calculateHash h := by
  cases hcall : hashCall calculateHash m.1 m.2 with
  | none => simp [Calls, hcall, hashed_cons_none h hcall]
  | some found =>
    obtain ⟨u, call⟩ := found
    rw [hashed_cons_some h hcall, calls_iff_caller hcall, List.mem_cons]
    simp only [Prod.mk.injEq]
    constructor
    · rintro (⟨rfl, rfl, rfl⟩ | old)
      · exact Or.inl ⟨rfl, rfl, rfl⟩
      · exact Or.inr old
    · rintro (⟨rfl, rfl, rfl⟩ | old)
      · exact Or.inl ⟨rfl, rfl, rfl⟩
      · exact Or.inr old

/-- Every hash call lies in a walk of its worker. -/
def Covered (calculateHash : Nat → List UInt8 → Hash) (start : State n)
    (h : List (State n × Event n)) : Prop :=
  ∀ t job nonce, (t, job, nonce) ∈ hashed calculateHash h →
    ∃ w ∈ (walks calculateHash start t h).all, w.Covers job.jobId nonce

theorem covered_step {start : State n} {h : List (State n × Event n)} {s : State n} {e : Event n}
    (covered : Covered calculateHash start h) (placed : Placed calculateHash start h s) :
    Covered calculateHash start ((s, e) :: h) := by
  intro t job nonce made
  rcases mem_hashed_cons.mp made with ⟨called, rfl, rfl⟩ | old
  · obtain ⟨hpc, quiet⟩ : (s.workers t).pc = .hashing ∧ drawn t s e = none :=
      calls_hashing called
    have here := placed t (by rw [hpc]; trivial)
    rw [upcoming, if_neg (by simp [hpc])] at here
    rw [walks_called quiet called]
    exact ⟨_, List.mem_cons_self, List.mem_cons_self, _, Nat.lt_succ_self _, here⟩
  · obtain ⟨w, mem, covers⟩ := covered t job nonce old
    obtain ⟨w', mem', grows⟩ := walk_grows start t (s, e) h mem
    exact ⟨w', mem', grows.covers covers⟩

/-- Every share submitted comes from a walk that its submission has ended. -/
def Listed (calculateHash : Nat → List UInt8 → Hash) (start : State n)
    (h : List (State n × Event n)) : Prop :=
  ∀ id text, (id, text) ∈ submitted h → ∃ t, ∃ w ∈ (walks calculateHash start t h).ended,
    ∃ nonce, w.Covers id nonce ∧ text = nonceText nonce

/-- A worker about to submit a share has found it in its current walk. -/
theorem covers_submit {start : State n} {h : List (State n × Event n)} {s : State n} {t : Fin n}
    (placed : Placed calculateHash start h s) (found : Found calculateHash start h s)
    (hpc : (s.workers t).pc = .submit) :
    (walks calculateHash start t h).current.Covers (s.workers t).job.jobId
      (s.workers t).nonce := by
  have here := placed t (by rw [hpc]; trivial)
  rw [upcoming, if_pos hpc, Walk.place, Walk.calls] at here
  have last := found t hpc
  cases ids : (walks calculateHash start t h).current.jobIds with
  | nil =>
    rw [ids] at last
    cases last
  | cons id rest =>
    rw [ids] at last here
    obtain rfl := Option.some.inj last
    rw [List.length_cons, place_succ, UInt32.add_left_inj] at here
    refine ⟨by rw [ids]; exact List.mem_cons_self, rest.length, ?_, here⟩
    rw [Walk.calls, ids]
    exact Nat.lt_succ_self _

theorem submitted_cons_some {s : State n} {e : Event n} {t : Fin n} {share : Share}
    (h : List (State n × Event n)) (made : submission s e = some (t, share)) :
    submitted ((s, e) :: h) =
      ((s.workers t).job.jobId, nonceText (s.workers t).nonce) :: submitted h := by
  obtain ⟨-, -, rfl⟩ := submission_some made
  rw [submitted, List.filterMap_cons, made]
  rfl

theorem submitted_cons_none {s : State n} {e : Event n} (h : List (State n × Event n))
    (silent : submission s e = none) : submitted ((s, e) :: h) = submitted h := by
  rw [submitted, List.filterMap_cons, silent]
  rfl

theorem listed_step {start : State n} {h : List (State n × Event n)} {s : State n} {e : Event n}
    (listed : Listed calculateHash start h) (placed : Placed calculateHash start h s)
    (found : Found calculateHash start h s) : Listed calculateHash start ((s, e) :: h) := by
  intro id text mem
  have older : (id, text) ∈ submitted h → ∃ t, ∃ w ∈ (walks calculateHash start t
      ((s, e) :: h)).ended, ∃ nonce, w.Covers id nonce ∧ text = nonceText nonce := by
    intro old
    obtain ⟨t, w, ended, covers⟩ := listed id text old
    exact ⟨t, w, ended_kept start t (s, e) h ended, covers⟩
  cases made : submission s e with
  | none =>
    rw [submitted_cons_none h made] at mem
    exact older mem
  | some pair =>
    obtain ⟨t, share⟩ := pair
    rw [submitted_cons_some h made] at mem
    rcases List.mem_cons.mp mem with new | old
    · obtain ⟨rfl, rfl⟩ := Prod.mk.inj new
      obtain ⟨⟨env, rfl⟩, hpc, -⟩ := submission_some made
      refine ⟨t, _, ?_, _, covers_submit placed found hpc, rfl⟩
      rw [walks_drawn (drawn_submit env hpc)]
      exact List.mem_cons_self
    · exact older old

theorem nonceText_injective : Function.Injective nonceText := by
  intro a b same
  have bytes := congrArg hexToBytes same
  rw [hexToBytes_nonceText, hexToBytes_nonceText, FixedWidth.bytesBE, FixedWidth.bytesBE,
    List.reverse_inj] at bytes
  have value := congrArg FixedWidth.valueLE bytes
  have ha : a.toNat < 256 ^ 4 := a.toNat_lt
  have hb : b.toNat < 256 ^ 4 := b.toNat_lt
  rw [FixedWidth.valueLE_bytesLE, FixedWidth.valueLE_bytesLE, Nat.mod_eq_of_lt ha,
    Nat.mod_eq_of_lt hb] at value
  exact UInt32.toNat_inj.mp value

/-- What the run invariant keeps: the places, the calls and the shares. -/
structure Tracked (calculateHash : Nat → List UInt8 → Hash) (start : State n)
    (h : List (State n × Event n)) (s : State n) : Prop where
  placed : Placed calculateHash start h s
  found : Found calculateHash start h s
  covered : Covered calculateHash start h
  listed : Listed calculateHash start h
  once : DrawsApart calculateHash start h → (submitted h).Nodup

theorem tracked_start {start : State n} (entered : Entered start) :
    Tracked calculateHash start [] start := by
  have outside : ∀ t, (start.workers t).pc ≠ .submit := by
    intro t
    rcases entered.entering t with hpc | hpc <;> simp [hpc]
  refine ⟨?_, fun t hpc => absurd hpc (outside t), ?_, ?_, fun _ => List.nodup_nil⟩
  · intro t _
    simp [upcoming, outside t, walks, Walk.place, Walk.calls]
  · intro t job nonce made
    cases made
  · intro id text mem
    cases mem

/-- A share is not found a second time: its walk is none of those that have ended. -/
theorem once_step {start : State n} {h : List (State n × Event n)} {s : State n} {e : Event n}
    (tracked : Tracked calculateHash start h s)
    (apart : DrawsApart calculateHash start ((s, e) :: h)) : (submitted ((s, e) :: h)).Nodup := by
  have before := apart.older
  cases made : submission s e with
  | none =>
    rw [submitted_cons_none h made]
    exact tracked.once before
  | some pair =>
    obtain ⟨t, share⟩ := pair
    rw [submitted_cons_some h made]
    refine List.nodup_cons.mpr ⟨fun mem => ?_, tracked.once before⟩
    have here := covers_submit tracked.placed tracked.found (submission_some made).2.1
    obtain ⟨u, w, ended, nonce, covers, same⟩ := tracked.listed _ _ mem
    rw [← nonceText_injective same] at covers
    have distance : Apart (walks calculateHash start t h).current w := by
      by_cases hu : t = u
      · subst hu
        exact (List.pairwise_cons.mp (before.own t)).1 w ended
      · exact before.others t u hu _ List.mem_cons_self w (List.mem_cons_of_mem _ ended)
    exact distance.disjoint here covers

theorem tracked_run {start : State n} (entered : Entered start) {h : List (State n × Event n)}
    {s : State n} (run : Run (machine calculateHash n) (· = start) h s) :
    Tracked calculateHash start h s := by
  apply run.invariant (P := fun h s => Tracked calculateHash start h s)
  · rintro s rfl
    exact tracked_start entered
  · intro h s e tracked enabled
    exact ⟨placed_step tracked.placed enabled, found_step tracked.found,
      covered_step tracked.covered tracked.placed,
      listed_step tracked.listed tracked.placed tracked.found, once_step tracked⟩

/-- If the draws are as far apart as the calls after them require, no nonce is hashed
by two workers for one job, and no share is submitted twice. -/
theorem noDuplicates_of_drawsApart {start : State n} (entered : Entered start)
    {h : List (State n × Event n)} {s : State n}
    (run : Run (machine calculateHash n) (· = start) h s)
    (apart : DrawsApart calculateHash start h) : NoDuplicates calculateHash h := by
  have tracked := tracked_run entered run
  refine ⟨?_, tracked.once apart⟩
  rintro ⟨t, job, nonce⟩ byT ⟨u, job', nonce'⟩ byU other same
  obtain ⟨rfl, rfl⟩ := Prod.mk.inj same
  obtain ⟨a, ha, inA⟩ := tracked.covered t job nonce byT
  obtain ⟨b, hb, inB⟩ := tracked.covered u job nonce byU
  exact (apart.others t u other a ha b hb).disjoint inA inB

/-- Two workers about to draw their starting nonces. -/
def enteringState : State 2 :=
  { readyState with workers := fun t => { readyState.workers t with pc := .firstVm } }

/-- Each worker draws, makes its first hash call and submits the share it finds. The
second draw is `0`, which the thread id turns into `0x01000193`. -/
def firstShares (draw : UInt32) : List (Event 2) :=
  .work worker0 ⟨draw, AllocOutcome.succeeds⟩ :: List.replicate 7 (.work worker0 idle) ++
    .work worker1 idle :: List.replicate 7 (.work worker1 idle)

def firstSharesRun (draw : UInt32) : List (State 2 × Event 2) × State 2 :=
  replay (machine zeroHash 2) (firstShares draw) ([], enteringState)

theorem entered_enteringState : Entered enteringState :=
  ⟨JobNotification.underway_readyState.table, fun _ => Or.inl rfl⟩

theorem started_enteringState :
    Run (machine zeroHash 2) (· = enteringState) [] enteringState := .init rfl

/-- The starting nonces are `0` and `0x01000193`, with one call after each of them. -/
theorem noDuplicates_of_drawsApart_firstShares : NoDuplicates zeroHash (firstSharesRun 0).1 :=
  noDuplicates_of_drawsApart entered_enteringState
    (replay_run started_enteringState _ (by decide +kernel))
    ⟨by decide +kernel, by decide +kernel⟩

/-- Both starting nonces are `0x01000193`. -/
def sameStartRun : List (State 2 × Event 2) × State 2 := firstSharesRun 0x01000193

/-- The two workers hash the same first nonce of the one job, and submit it twice. -/
theorem noDuplicates_fails_sameStart :
    Run (machine zeroHash 2) (· = enteringState) sameStartRun.1 sameStartRun.2 ∧
      DistinctIds enteringState sameStartRun.1 ∧
      ¬(∀ a ∈ hashed zeroHash sameStartRun.1, ∀ b ∈ hashed zeroHash sameStartRun.1,
        a.1 ≠ b.1 → a.2 ≠ b.2) ∧
      ¬(submitted sameStartRun.1).Nodup ∧ ¬NoDuplicates zeroHash sameStartRun.1 := by
  have twice : ¬(submitted sameStartRun.1).Nodup := by decide +kernel
  refine ⟨replay_run started_enteringState _ (by decide +kernel), ?_, ?_, twice,
    fun none => twice none.shares⟩
  · unfold DistinctIds
    decide +kernel
  · decide +kernel

end NonceWalks
