import MoneroRandomXMiner.MinerMachine

/-!
# What a submitted share says about the hash call behind it

A share is sent in the step after the hash call that found it. Its job id and
result text always describe that call, and the hash always meets the target of
the job. The nonce text spells the nonce most significant byte first, whereas
the hashed blob holds it least significant byte first.
-/

namespace SubmittedShares

open Histories FixedWidth HexText MiningBlob ShareTarget RandomXInit MinerMachine

variable {n : Nat} {calculateHash : Nat → List UInt8 → Hash}

/-- The latest hash call of worker `t`. -/
def lastCall (calculateHash : Nat → List UInt8 → Hash) (t : Fin n) :
    List (State n × Event n) → Option HashCall
  | [] => none
  | m :: h =>
    match hashCall calculateHash m.1 m.2 with
    | some (u, call) => if u = t then some call else lastCall calculateHash t h
    | none => lastCall calculateHash t h

/-- The share names the work of the call, read the way a pool reads it. -/
structure Describes (share : Share) (call : HashCall) : Prop where
  jobId : share.jobId = call.job.jobId
  result : hexToBytes share.result = call.output.toList
  meets : hashMeetsTarget call.output (targetToUint64 call.job.target) = true
  nonce : hexToBytes share.nonce = (call.input.drop 39).take 4
  respliced :
    splice ((fullSlices call.job.blob).map hexByte) 39 (hexToBytes share.nonce) = call.input

def SharesDescribe (calculateHash : Nat → List UInt8 → Hash) (h : List (State n × Event n)) :
    Prop :=
  ∀ older m e t share, Moment h older m e → submission m e = some (t, share) →
    ∃ call, lastCall calculateHash t older = some call ∧ Describes share call

def NoncesPalindromic (h : List (State n × Event n)) : Prop :=
  ∀ older m e t share, Moment h older m e → submission m e = some (t, share) →
    BytePalindrome (m.workers t).nonce

/-- No worker is inside the batch loop. -/
def OutOfBatch (s : State n) : Prop := ∀ t, ¬ (s.workers t).pc.InBatch

/-- The target a worker compares with is the one of its job. -/
def TargetSet (w : Worker) : Prop := w.pc.InBatch → w.target = targetToUint64 w.job.target

theorem targetSet_chooseJob {job : MiningJob} {w : Worker} : TargetSet (chooseJob job w) := by
  unfold chooseJob
  split
  · exact fun batch => batch.elim
  · split
    · exact fun batch => batch.elim
    · exact fun _ => rfl

theorem targetSet_next {t : Nat} {env : Env} {g : Shared} {w : Worker} (set : TargetSet w) :
    TargetSet (workerNext calculateHash n t env g w).2 := by
  by_cases htake : w.pc = .takeJob
  · rw [workerNext, htake]
    exact targetSet_chooseJob
  by_cases hfetch : w.pc = .fetchVm
  · cases hv : g.rx.vms[t]? with
    | none =>
      simp only [workerNext, hfetch, hv]
      exact fun batch => batch.elim
    | some v =>
      rw [workerNext_fetchVm hfetch hv]
      exact fun _ => rfl
  intro batch
  rw [workerNext_target htake hfetch, workerNext_job htake]
  exact set (workerNext_inBatch htake hfetch batch)

/-- What a worker about to submit remembers of its last hash call. -/
structure Remembers (w : Worker) (call : HashCall) : Prop where
  job : call.job = w.job
  nonce : call.nonce = w.nonce
  output : call.output = w.hash
  built : constructMiningBlob w.job.blob w.nonce = .ok call.input
  meets : hashMeetsTarget w.hash w.target = true

def CallRemembered (calculateHash : Nat → List UInt8 → Hash) (h : List (State n × Event n))
    (s : State n) (t : Fin n) : Prop :=
  (s.workers t).pc = .submit →
    ∃ call, lastCall calculateHash t h = some call ∧ Remembers (s.workers t) call

/-- A worker comes to a submission only from a hash call that met the target. -/
theorem workerNext_submit {t : Nat} {env : Env} {g : Shared} {w : Worker}
    (hsubmit : (workerNext calculateHash n t env g w).2.pc = .submit) :
    w.pc = .hashing := by
  have hashes : (workerNext calculateHash n t env g w).2.pc.Hashes := by
    rw [hsubmit]
    trivial
  rcases workerNext_hashes hashes with hpc | ⟨_, hpc⟩
  · exact hpc
  · rw [hpc] at hsubmit
    cases hsubmit

theorem hashOnce_submit {w : Worker} (hsubmit : (hashOnce calculateHash w).pc = .submit) :
    ∃ input, constructMiningBlob w.job.blob w.nonce = .ok input ∧
      hashMeetsTarget (calculateHash w.vm input) w.target = true ∧
      Remembers (hashOnce calculateHash w)
        ⟨w.job, w.nonce, w.vm, input, calculateHash w.vm input⟩ := by
  cases built : constructMiningBlob w.job.blob w.nonce with
  | error message =>
    simp only [hashOnce, built] at hsubmit
    cases hsubmit
  | ok input =>
    by_cases meets : hashMeetsTarget (calculateHash w.vm input) w.target = true
    · refine ⟨input, rfl, meets, ?_⟩
      simp only [hashOnce, built, meets, if_true]
      exact ⟨rfl, rfl, rfl, built, meets⟩
    · simp only [hashOnce, built, if_neg meets, nextIteration] at hsubmit
      split at hsubmit <;> cases hsubmit

theorem callRemembered_other {h : List (State n × Event n)} {s : State n} {e : Event n}
    {u : Fin n} (hcall : ∀ call, hashCall calculateHash s e ≠ some (u, call))
    (same : (next calculateHash s e).workers u = s.workers u)
    (remembered : CallRemembered calculateHash h s u) :
    CallRemembered calculateHash ((s, e) :: h) (next calculateHash s e) u := by
  intro hsubmit
  rw [same] at hsubmit ⊢
  obtain ⟨call, hlast, remembers⟩ := remembered hsubmit
  refine ⟨call, ?_, remembers⟩
  unfold lastCall
  split
  · rename_i v c hc
    split
    · rename_i hv
      subst hv
      exact absurd hc (hcall c)
    · exact hlast
  · exact hlast

theorem callRemembered_work {h : List (State n × Event n)} {s : State n} {t u : Fin n} {env : Env}
    (remembered : CallRemembered calculateHash h s u) :
    CallRemembered calculateHash ((s, .work t env) :: h)
      (next calculateHash s (.work t env)) u := by
  by_cases hu : u = t
  · subst hu
    intro hsubmit
    rw [next_worker_same] at hsubmit ⊢
    have hpc := workerNext_submit hsubmit
    simp only [workerNext, hpc] at hsubmit ⊢
    obtain ⟨input, built, _, remembers⟩ := hashOnce_submit hsubmit
    exact ⟨_, by simp only [lastCall, hashCall, hpc, if_true, built], remembers⟩
  · refine callRemembered_other ?_ (next_worker_other s env hu) remembered
    intro call hcall
    obtain ⟨⟨env', he⟩, _⟩ := hashCall_some hcall
    injection he with ht _
    exact hu ht.symm

theorem callRemembered_step {h : List (State n × Event n)} {s : State n} {e : Event n} {u : Fin n}
    (remembered : CallRemembered calculateHash h s u) :
    CallRemembered calculateHash ((s, e) :: h) (next calculateHash s e) u := by
  cases e with
  | work t env => exact callRemembered_work remembered
  | startMining => exact fun hsubmit => nomatch hsubmit
  | joinThreads => exact fun hsubmit => nomatch hsubmit
  | _ => exact callRemembered_other (fun _ hcall => nomatch hcall) rfl remembered

theorem targetSet_step {s : State n} {e : Event n} (set : ∀ t, TargetSet (s.workers t)) :
    ∀ t, TargetSet ((next calculateHash s e).workers t) := by
  cases e with
  | work t env =>
    exact workers_work (P := fun _ w => TargetSet w) (targetSet_next (set t)) (fun u _ => set u)
  | startMining => exact fun _ batch => batch.elim
  | joinThreads => exact fun _ batch => batch.elim
  | _ => exact set

theorem targetSet_run {h : List (State n × Event n)} {s : State n}
    (run : Run (machine calculateHash n) OutOfBatch h s) :
    ∀ t, TargetSet (s.workers t) :=
  run.invariant (P := fun _ s => ∀ t, TargetSet (s.workers t))
    (fun _ out t batch => absurd batch (out t)) (fun _ _ _ set _ => targetSet_step set)

theorem callRemembered_run {h : List (State n × Event n)} {s : State n}
    (run : Run (machine calculateHash n) OutOfBatch h s) (t : Fin n) :
    CallRemembered calculateHash h s t := by
  apply run.invariant (P := fun h s => CallRemembered calculateHash h s t)
  · intro s out hsubmit
    have batch := out t
    rw [hsubmit] at batch
    exact absurd trivial batch
  · exact fun _ _ _ remembered _ => callRemembered_step remembered

/-- All a share says is true of the last hash call, its nonce text aside. -/
theorem describes_iff {h : List (State n × Event n)} {s : State n} {e : Event n} {t : Fin n}
    {share : Share} (run : Run (machine calculateHash n) OutOfBatch h s)
    (hshare : submission s e = some (t, share)) :
    ∃ call, lastCall calculateHash t h = some call ∧
      (Describes share call ↔ BytePalindrome (s.workers t).nonce) := by
  obtain ⟨_, hpc, rfl⟩ := submission_some hshare
  obtain ⟨call, hlast, remembers⟩ := callRemembered_run run t hpc
  have htarget := targetSet_run run t (by rw [hpc]; trivial)
  refine ⟨call, hlast, ?_⟩
  constructor
  · intro describes
    exact (nonceText_matches_iff remembers.built).mp describes.nonce
  · intro palindrome
    constructor
    · exact congrArg MiningJob.jobId remembers.job.symm
    · exact remembers.output ▸ hexToBytes_hashText _
    · rw [remembers.output, remembers.job, ← htarget]
      exact remembers.meets
    · exact (nonceText_matches_iff remembers.built).mpr palindrome
    · rw [remembers.job]
      exact (respliced_iff remembers.built).mpr palindrome

/-- In every run the submitted shares describe what was hashed exactly when
every submitted nonce reads the same in both byte orders. -/
theorem sharesDescribe_iff_noncesPalindromic {h : List (State n × Event n)} {s : State n}
    (run : Run (machine calculateHash n) OutOfBatch h s) :
    SharesDescribe calculateHash h ↔ NoncesPalindromic h := by
  constructor
  · intro describe older m e t share moment hshare
    obtain ⟨call, hlast, hiff⟩ := describes_iff (run.at_moment moment).1 hshare
    obtain ⟨call', hlast', describes⟩ := describe older m e t share moment hshare
    have hsame : call' = call := Option.some.inj (hlast'.symm.trans hlast)
    exact hiff.mp (hsame ▸ describes)
  · intro palindromes older m e t share moment hshare
    obtain ⟨call, hlast, hiff⟩ := describes_iff (run.at_moment moment).1 hshare
    exact ⟨call, hlast, hiff.mpr (palindromes older m e t share moment hshare)⟩

/-- Worker 0 finds a share with nonce 0, draws the nonce 0x01020304 and finds
another one. -/
def secondShare : List (Event 2) :=
  [.work worker0 idle, .work worker0 idle, .work worker0 idle, .work worker0 idle,
    .work worker0 idle, .work worker0 idle, .work worker0 ⟨0x01020304, AllocOutcome.succeeds⟩,
    .work worker0 idle, .work worker0 idle]

/-- The run with the second submission. -/
def secondShareRun : List (State 2 × Event 2) × State 2 :=
  replay (machine zeroHash 2) (secondShare ++ [.work worker0 idle]) ([], readyState)

theorem secondShare_run :
    Run (machine zeroHash 2) OutOfBatch secondShareRun.1 secondShareRun.2 :=
  replay_run (.init fun _ => id) _ (by decide +kernel)

theorem sharesDescribe_iff_noncesPalindromic_secondShare :
    SharesDescribe zeroHash secondShareRun.1 ↔ NoncesPalindromic secondShareRun.1 :=
  sharesDescribe_iff_noncesPalindromic secondShare_run

/-- The second share sends "01020304" for the bytes 04 03 02 01. -/
theorem sharesDescribe_fails_secondShare :
    Run (machine zeroHash 2) OutOfBatch secondShareRun.1 secondShareRun.2 ∧
      ¬ SharesDescribe zeroHash secondShareRun.1 := by
  refine ⟨secondShare_run, fun describe => ?_⟩
  obtain ⟨older, m, _, hm, moment⟩ :=
    replay_last (machine zeroHash 2) secondShare (.work worker0 idle) readyState
  have hshare : (submission m (.work worker0 idle)).map Prod.fst = some 0 := by
    rw [hm]
    decide +kernel
  have hnonce : (m.workers 0).nonce = 0x01020304 := by
    rw [hm]
    decide +kernel
  obtain ⟨⟨t, share⟩, hs, ht⟩ := Option.map_eq_some_iff.mp hshare
  obtain rfl : t = 0 := ht
  obtain ⟨call, hlast, hiff⟩ := describes_iff (secondShare_run.at_moment moment).1 hs
  obtain ⟨call', hlast', describes⟩ := describe older m _ _ share moment hs
  have hsame : call' = call := Option.some.inj (hlast'.symm.trans hlast)
  have palindrome := hiff.mp (hsame ▸ describes)
  rw [hnonce] at palindrome
  exact absurd palindrome (by decide)

end SubmittedShares
