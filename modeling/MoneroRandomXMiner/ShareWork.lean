import MoneroRandomXMiner.PoolDialogue

/-!
# Every share is work for a job of the pool

Every share that can be read on the wire is the outcome of a hash call with a job
that the pool has sent: the result text is the hash, the hash meets the target of
the job, and the nonce text is the nonce as the miner prints it. A pool that puts
the bytes of that text into the blob gets the hashed input back only where the
nonce reads the same in both byte orders. Which VM the hash call was made with is
another matter, so the hash is one with some handle.
-/

namespace ShareWork

open Histories Simulations FixedWidth HexText MiningBlob ShareTarget HandleMessage MinerMachine
  SendMessage PoolSession ShareDelivery PoolDialogue SubmittedShares

variable {n : Nat} {calculateHash : Nat → List UInt8 → Hash} {lib : JsonLibrary} {c : Credentials}

/-- The nonce that the miner has printed as this text. -/
def readNonce (text : Text) : UInt32 := UInt32.ofNat (valueLE (hexToBytes text).reverse)

/-- The input that a pool rebuilds: the bytes of the nonce text in the blob of the job. -/
def poolInput (job : MiningJob) (share : Share) : List UInt8 :=
  splice ((fullSlices job.blob).map hexByte) 39 (hexToBytes share.nonce)

/-- The share is the outcome of this hash call for this job. The pool can repeat the
call from the share alone when the nonce reads the same in both byte orders. -/
structure WorkFor (hash : List UInt8 → Hash) (job : MiningJob) (share : Share)
    (input : List UInt8) : Prop where
  built : constructMiningBlob job.blob (readNonce share.nonce) = .ok input
  jobId : share.jobId = job.jobId
  result : hexToBytes share.result = (hash input).toList
  meets : hashMeetsTarget (hash input) (targetToUint64 job.target) = true
  rebuilt : poolInput job share = input ↔ BytePalindrome (readNonce share.nonce)

/-- Some hash call for the job has this outcome. -/
def IsWork (calculateHash : Nat → List UInt8 → Hash) (job : MiningJob) (share : Share) : Prop :=
  ∃ vm input, WorkFor (calculateHash vm) job share input

theorem readNonce_nonceText (nonce : UInt32) : readNonce (nonceText nonce) = nonce := by
  rw [readNonce, hexToBytes_nonceText, bytesBE, List.reverse_reverse, valueLE_bytesLE]
  have small : nonce.toNat % 256 ^ 4 = nonce.toNat := Nat.mod_eq_of_lt nonce.toNat_lt
  rw [small, UInt32.ofNat_toNat]

theorem workFor_shareOf {hash : List UInt8 → Hash} {job : MiningJob} {nonce : UInt32}
    {input : List UInt8} (built : constructMiningBlob job.blob nonce = .ok input)
    (meets : hashMeetsTarget (hash input) (targetToUint64 job.target) = true) :
    WorkFor hash job (shareOf job nonce (hash input)) input := by
  have nonceRead : readNonce (shareOf job nonce (hash input)).nonce = nonce :=
    readNonce_nonceText nonce
  constructor
  · rw [nonceRead]
    exact built
  · rfl
  · exact hexToBytes_hashText (hash input)
  · exact meets
  · rw [nonceRead]
    exact respliced_iff built

/-- What an event finds is work for the job that its hash call was made with. -/
theorem foundBy_isWork {s : PoolSession.State n} {e : PoolSession.Event n} {share : Share}
    (set : ∀ t, TargetSet (s.worker t)) (hfound : foundBy calculateHash s e = some share) :
    ∃ t env job, e = .thread (.work t env) ∧
      job ∈ JobOrder.hashedBy calculateHash t s.threads (.work t env) ∧
      IsWork calculateHash job share := by
  unfold foundBy at hfound
  split at hfound
  · rename_i t env
    split at hfound
    · rename_i u call hcall
      split at hfound
      · rename_i meets
        obtain rfl := Option.some.inj hfound
        obtain ⟨⟨env', heq⟩, hpc, built, made⟩ := hashCall_some hcall
        injection heq with same _
        subst same
        have target : (s.worker t).target = targetToUint64 (s.worker t).job.target :=
          set t (by rw [State.worker, hpc]; trivial)
        rw [made] at meets ⊢
        refine ⟨t, env, (s.worker t).job, rfl, ?_, (s.worker t).vm, call.input, ?_⟩
        · simp [JobOrder.hashedBy, hcall, congrArg HashCall.job made]
        · exact workFor_shareOf built (target ▸ meets)
      · cases hfound
    · cases hfound
  · cases hfound

/-- Every share found so far is work for a job that one of the workers has hashed. -/
structure Honest (calculateHash : Nat → List UInt8 → Hash)
    (h : List (PoolSession.State n × PoolSession.Event n)) (s : PoolSession.State n) : Prop where
  targets : ∀ t, TargetSet (s.worker t)
  shares : ∀ share ∈ found calculateHash h, ∃ t,
    ∃ job ∈ JobOrder.hashedJobs calculateHash t (threadsOf h), IsWork calculateHash job share

theorem targetSet_session {s : PoolSession.State n} (e : PoolSession.Event n)
    (set : ∀ t, TargetSet (s.worker t)) (t : Fin n) :
    TargetSet ((PoolSession.next calculateHash lib c s e).worker t) := by
  by_cases own : ∃ env, e = .thread (.work t env)
  · obtain ⟨env, rfl⟩ := own
    have worker : (PoolSession.next calculateHash lib c s (.thread (.work t env))).worker t =
        (workerNext calculateHash n t env s.threads.miner.shared (s.worker t)).2 :=
      @JobOrder.next_worker_work n calculateHash lib s.threads t env
    rw [worker]
    exact targetSet_next (set t)
  · rw [worker_other calculateHash lib c fun env heq => own ⟨env, heq⟩]
    exact set t

/-- The jobs hashed so far stay hashed. -/
theorem hashedJobs_grow {t : Fin n} {job : MiningJob} (s : PoolSession.State n)
    (e : PoolSession.Event n) {h : List (PoolSession.State n × PoolSession.Event n)}
    (hashed : job ∈ JobOrder.hashedJobs calculateHash t (threadsOf h)) :
    job ∈ JobOrder.hashedJobs calculateHash t (threadsOf ((s, e) :: h)) := by
  cases shown : threadEvent s e with
  | none => rwa [threadsOf, seen_cons_hidden shown]
  | some e' =>
    rw [threadsOf, seen_cons_shown shown]
    exact List.mem_append_left _ hashed

theorem Honest.step {h : List (PoolSession.State n × PoolSession.Event n)}
    {s : PoolSession.State n} (honest : Honest calculateHash h s) (e : PoolSession.Event n) :
    Honest calculateHash ((s, e) :: h) (PoolSession.next calculateHash lib c s e) := by
  refine ⟨targetSet_session e honest.targets, ?_⟩
  intro share mem
  have old : share ∈ found calculateHash h → ∃ t,
      ∃ job ∈ JobOrder.hashedJobs calculateHash t (threadsOf ((s, e) :: h)),
        IsWork calculateHash job share := by
    intro before
    obtain ⟨t, job, hashed, work⟩ := honest.shares share before
    exact ⟨t, job, hashedJobs_grow s e hashed, work⟩
  rw [found, List.filterMap_cons] at mem
  cases hfound : foundBy calculateHash s e with
  | none =>
    rw [hfound] at mem
    exact old mem
  | some new =>
    rw [hfound] at mem
    rcases List.mem_cons.mp mem with rfl | before
    · obtain ⟨t, env, job, rfl, hashed, work⟩ := foundBy_isWork honest.targets hfound
      refine ⟨t, job, ?_, work⟩
      rw [threadsOf, seen_cons_shown rfl]
      exact List.mem_append_right _ hashed
    · exact old before

/-- The session begins with workers whose targets are those of their jobs. -/
structure FairStart (c : Credentials) (start : PoolSession.State n) : Prop where
  opened : Start c start
  targets : ∀ t, TargetSet (start.worker t)

/-- A job that the pool has sent, or one that the miner had when the session began. -/
def Given (lib : JsonLibrary) (start s : PoolSession.State n) (job : MiningJob) : Prop :=
  (∃ t, job = (start.worker t).job) ∨ job = start.threads.miner.shared.currentJob ∨
    job ∈ jobsIn lib (written s)

/-- Every share on the wire is work for a job that the pool has given out. -/
def AllWork (lib : JsonLibrary) (calculateHash : Nat → List UInt8 → Hash)
    (start s : PoolSession.State n) : Prop :=
  ∀ share ∈ received s, ∃ job, Given lib start s job ∧ IsWork calculateHash job share

/-- It is so under any order of the steps of the threads, the socket and the pool. -/
theorem shares_are_work {start s : PoolSession.State n}
    {h : List (PoolSession.State n × PoolSession.Event n)} (fair : FairStart c start)
    (run : Run (PoolSession.machine calculateHash lib c n) (· = start) h s)
    (succeed : SendsSucceed h) (plain : PlainCredentials c)
    (ids : ∀ share ∈ found calculateHash h, JsonFields.Plain share.jobId) :
    AllWork lib calculateHash start s := by
  have honest : Honest calculateHash h s := by
    apply run.invariant (P := fun h s => Honest calculateHash h s)
    · rintro r rfl
      exact ⟨fair.targets, fun _ mem => nomatch mem⟩
    · exact fun _ _ e before _ => before.step e
  obtain ⟨sent, _, read, balance⟩ := completeLines_session
    (run.mono fun r (same : r = start) => same ▸ fair.opened) succeed plain ids
  intro share mem
  have mine : share ∈ found calculateHash h := by
    rw [← Multiset.mem_coe, ← balance, Multiset.mem_add]
    exact Or.inl (Multiset.mem_coe.mpr (read ▸ mem))
  obtain ⟨t, job, hashed, work⟩ := honest.shares share mine
  refine ⟨job, ?_, work⟩
  exact (hashed_session fair.opened run t hashed).imp (fun same => ⟨t, same⟩) id

theorem shares_are_work_dialogue :
    (received dialogueRun.2).length = 1 ∧
      AllWork goodLibrary zeroHash miningSession dialogueRun.2 := by
  have fair : FairStart sampleCredentials miningSession :=
    ⟨start_miningSession, fun _ batch => batch.elim⟩
  refine ⟨by decide +kernel, shares_are_work fair miningSession_dialogue dialogue_succeeds
    ⟨by decide, by decide, by decide⟩ ?_⟩
  decide +kernel

end ShareWork
