import MoneroRandomXMiner.PoolSession
import MoneroRandomXMiner.SubmittedShares
import Mathlib.Algebra.BigOperators.Fin
import Mathlib.Algebra.Order.Group.Multiset
import Mathlib.Tactic.Abel

/-!
# Every share reaches the pool once

A share is found by the hash call that meets the target, it is in the hand of its
worker until `submit_share` returns, and then its message is on the wire. While
no call of `send` fails, what can be read from the bytes that `send` has accepted
and what is in hand are together what was found, as multisets: no share is lost,
torn or sent twice. The bytes accepted are taken for those that the pool receives.
-/

namespace ShareDelivery

open Histories Simulations HexText MiningBlob ShareTarget HandleMessage MinerMachine SendMessage
  SentLines PoolSession StreamLines JsonFields
open ReceiveLoop (newline)

variable {n : Nat} {calculateHash : Nat → List UInt8 → Hash} {lib : JsonLibrary} {c : Credentials}

/-- The share that an event finds: a hash call below the target. -/
def foundBy (calculateHash : Nat → List UInt8 → Hash) (s : PoolSession.State n) :
    PoolSession.Event n → Option Share
  | .thread (.work t env) =>
    match hashCall calculateHash s.threads.miner (.work t env) with
    | some (_, call) =>
      if hashMeetsTarget call.output (s.worker t).target then
        some (shareOf call.job call.nonce call.output)
      else none
    | none => none
  | _ => none

def found (calculateHash : Nat → List UInt8 → Hash)
    (h : List (PoolSession.State n × PoolSession.Event n)) : List Share :=
  h.filterMap fun m => foundBy calculateHash m.1 m.2

/-- The share of a worker whose call of `submit_share` has not returned. -/
def inHand (s : PoolSession.State n) (t : Fin n) : Multiset Share :=
  if (s.worker t).pc = .submit ∧ s.returned t = false then {s.share t} else 0

/-- No call of `send` fails. -/
def SendsSucceed (h : List (PoolSession.State n × PoolSession.Event n)) : Prop :=
  ∀ m ∈ h, ∀ t outcome, m.2 = .send t outcome → 0 < outcome

theorem SendsSucceed.replay {M : Machine (PoolSession.State n) (PoolSession.Event n)}
    {es : List (PoolSession.Event n)}
    (all : ∀ e ∈ es, ∀ t outcome, e = .send t outcome → 0 < outcome)
    {h : List (PoolSession.State n × PoolSession.Event n)} (succeed : SendsSucceed h)
    (s : PoolSession.State n) : SendsSucceed (Histories.replay M es (h, s)).1 := by
  induction es generalizing h s with
  | nil => exact succeed
  | cons e es ih =>
    apply ih (fun f hf => all f (List.mem_cons_of_mem e hf))
    intro m hm
    rcases List.mem_cons.mp hm with rfl | before
    · exact all e List.mem_cons_self
    · exact succeed m before

/-- The finished messages are those of found shares, and each found share is in
one of them or in hand. -/
def Balanced (c : Credentials) (calculateHash : Nat → List UInt8 → Hash)
    (h : List (PoolSession.State n × PoolSession.Event n)) (s : PoolSession.State n) : Prop :=
  ∃ sent : List (UInt32 × Share),
    finishedMessages s.wire = sent.map (fun p => submitText c p.1 p.2) ∧
      (↑(sent.map Prod.snd) : Multiset Share) + ∑ t, inHand s t = ↑(found calculateHash h)

theorem sum_changed {M : Type*} [AddCommMonoid M] {f g : Fin n → M} {t : Fin n}
    (others : ∀ u, u ≠ t → f u = g u) : ∑ u, f u + g t = ∑ u, g u + f t := by
  have mem := Finset.mem_univ t
  have same : ∑ u ∈ Finset.univ.erase t, f u = ∑ u ∈ Finset.univ.erase t, g u :=
    Finset.sum_congr rfl fun u hu => others u (Finset.ne_of_mem_erase hu)
  rw [← Finset.add_sum_erase Finset.univ f mem, ← Finset.add_sum_erase Finset.univ g mem, same]
  abel

/-- A worker comes to `submit_share` by finding a share, and by nothing else. -/
theorem foundBy_work (s : PoolSession.State n) (t : Fin n) (env : Env) :
    foundBy calculateHash s (.thread (.work t env)) =
      if (workerNext calculateHash n t env s.threads.miner.shared (s.worker t)).2.pc = .submit then
        some (shareOf (s.worker t).job (s.worker t).nonce
          (workerNext calculateHash n t env s.threads.miner.shared (s.worker t)).2.hash)
      else none := by
  by_cases hpc : (s.worker t).pc = .hashing
  · have step : (workerNext calculateHash n t env s.threads.miner.shared (s.worker t)).2 =
        hashOnce calculateHash (s.worker t) := by
      simp only [workerNext, hpc]
    rw [step]
    cases built : constructMiningBlob (s.worker t).job.blob (s.worker t).nonce with
    | error text => simp [foundBy, hashCall, hpc, built, hashOnce]
    | ok input =>
      by_cases meets : hashMeetsTarget (calculateHash (s.worker t).vm input) (s.worker t).target
      · simp [foundBy, hashCall, hpc, built, hashOnce, meets]
      · simp only [foundBy, hashCall, hpc, built, hashOnce, meets, nextIteration, if_true]
        by_cases more : (s.worker t).i + 1 < batchSize <;> simp [more]
  · rw [if_neg fun hsubmit => hpc (SubmittedShares.workerNext_submit hsubmit)]
    simp only [foundBy, HashAccounting.hashCall_none env hpc]

/-- A submission in hand is gone when the worker goes on, and the worker's next
share, if it has found one, takes its place. -/
theorem inHand_work {s : PoolSession.State n} {t : Fin n} {env : Env}
    (enabled : PoolSession.Enabled s (.thread (.work t env))) :
    inHand s t = 0 ∧
      inHand (PoolSession.next calculateHash lib c s (.thread (.work t env))) t =
        ((foundBy calculateHash s (.thread (.work t env))).toList : Multiset Share) := by
  have worker : (PoolSession.next calculateHash lib c s (.thread (.work t env))).worker t =
      (workerNext calculateHash n t env s.threads.miner.shared (s.worker t)).2 :=
    @JobOrder.next_worker_work n calculateHash lib s.threads t env
  have returned : (PoolSession.next calculateHash lib c s (.thread (.work t env))).returned t =
      false := Function.update_self _ _ _
  constructor
  · have ready : (s.worker t).pc = .submit → s.returned t = true := enabled.2
    refine if_neg ?_
    rintro ⟨hpc, waits⟩
    rw [ready hpc] at waits
    cases waits
  · rw [foundBy_work, inHand, returned, worker]
    by_cases hsubmit :
        (workerNext calculateHash n t env s.threads.miner.shared (s.worker t)).2.pc = .submit
    · have hpc := SubmittedShares.workerNext_submit hsubmit
      have step : (workerNext calculateHash n t env s.threads.miner.shared (s.worker t)).2 =
          hashOnce calculateHash (s.worker t) := by
        simp only [workerNext, hpc]
      obtain ⟨input, _, _, remembers⟩ :=
        SubmittedShares.hashOnce_submit (step ▸ hsubmit)
      have share : (PoolSession.next calculateHash lib c s (.thread (.work t env))).share t =
          shareOf (s.worker t).job (s.worker t).nonce
            (workerNext calculateHash n t env s.threads.miner.shared (s.worker t)).2.hash := by
        rw [State.share, worker, step, ← remembers.job, ← remembers.nonce]
      simp [hsubmit, share]
    · simp [hsubmit]

/-- The hand of a worker is as before if its steps and its call of `submit_share` are. -/
theorem inHand_same {s s' : PoolSession.State n} {t : Fin n} (worker : s'.worker t = s.worker t)
    (returned : s'.returned t = s.returned t) : inHand s' t = inHand s t := by
  rw [inHand, inHand, worker, returned, share_of_worker worker]

theorem worker_other (calculateHash : Nat → List UInt8 → Hash) (lib : JsonLibrary)
    (c : Credentials) {s : PoolSession.State n} {e : PoolSession.Event n} {u : Fin n}
    (other : ∀ env, e ≠ .thread (.work u env)) :
    (PoolSession.next calculateHash lib c s e).worker u = s.worker u := by
  have threads := @next_threads n calculateHash lib c s e
  rw [State.worker, threads, nextThreads]
  cases e with
  | thread e =>
    apply JobOrder.next_worker_idle
    rintro env rfl
    exact other env rfl
  | recv chunk =>
    apply JobOrder.next_worker_idle
    intro env h
    cases h
  | _ => rfl

/-- An event other than a worker's step and a call of `send` changes no hand, finds
no share and finishes no message. -/
theorem Balanced.quiet {h : List (PoolSession.State n × PoolSession.Event n)}
    {s : PoolSession.State n} {e : PoolSession.Event n} (balanced : Balanced c calculateHash h s)
    (unfound : foundBy calculateHash s e = none)
    (finished : (PoolSession.next calculateHash lib c s e).wire.finished = s.wire.finished)
    (hands : ∀ t, inHand (PoolSession.next calculateHash lib c s e) t = inHand s t) :
    Balanced c calculateHash ((s, e) :: h) (PoolSession.next calculateHash lib c s e) := by
  obtain ⟨sent, messages, balance⟩ := balanced
  refine ⟨sent, ?_, ?_⟩
  · rw [finishedMessages, finished]
    exact messages
  · have same : found calculateHash ((s, e) :: h) = found calculateHash h :=
      List.filterMap_cons_none unfound
    rw [Finset.sum_congr rfl fun t _ => hands t, same]
    exact balance

theorem Balanced.work {h : List (PoolSession.State n × PoolSession.Event n)}
    {s : PoolSession.State n} {t : Fin n} {env : Env} (balanced : Balanced c calculateHash h s)
    (enabled : PoolSession.Enabled s (.thread (.work t env))) :
    Balanced c calculateHash ((s, .thread (.work t env)) :: h)
      (PoolSession.next calculateHash lib c s (.thread (.work t env))) := by
  obtain ⟨sent, messages, balance⟩ := balanced
  obtain ⟨before, after⟩ := @inHand_work n calculateHash lib c _ _ _ enabled
  have others : ∀ u, u ≠ t →
      inHand (PoolSession.next calculateHash lib c s (.thread (.work t env))) u = inHand s u := by
    intro u hne
    apply inHand_same
    · apply worker_other
      intro env' heq
      exact hne (MinerThreads.Event.work.inj (PoolSession.Event.thread.inj heq)).1.symm
    · exact Function.update_of_ne hne _ _
  have sums := sum_changed others
  rw [before, after, add_zero] at sums
  have grown : (↑(found calculateHash ((s, .thread (.work t env)) :: h)) : Multiset Share) =
      ↑(foundBy calculateHash s (.thread (.work t env))).toList + ↑(found calculateHash h) := by
    rw [Multiset.coe_add, found, List.filterMap_cons]
    cases foundBy calculateHash s (.thread (.work t env)) <;> rfl
  refine ⟨sent, messages, ?_⟩
  rw [sums, grown, ← balance]
  abel

/-- The end of a call of `submit_share` moves a share from the hand to the wire. -/
theorem Balanced.send {h : List (PoolSession.State n × PoolSession.Event n)}
    {s : PoolSession.State n} {t : Fin n} {outcome : Int}
    (balanced : Balanced c calculateHash h s) (joined : Joined c s)
    (enabled : PoolSession.Enabled s (.send t outcome)) :
    Balanced c calculateHash ((s, .send t outcome) :: h)
      (PoolSession.next calculateHash lib c s (.send t outcome)) := by
  obtain ⟨message, k, sending, _, _⟩ := enabled
  obtain ⟨hpc, waits, id, rfl⟩ := joined.message t message (by rw [sending]; rfl)
  have worker : ∀ u, (PoolSession.next calculateHash lib c s (.send t outcome)).worker u =
      s.worker u := fun _ => rfl
  rcases next_send calculateHash lib c outcome sending with
    ⟨k', _, _, _, finished, returned⟩ | ⟨accepted, _, _, finished, returned⟩
  · refine balanced.quiet rfl finished fun u => inHand_same (worker u) ?_
    rw [returned, ← waits, Function.update_eq_self]
  · obtain ⟨sent, messages, balance⟩ := balanced
    refine ⟨sent ++ [(id, s.share t)], ?_, ?_⟩
    · rw [finishedMessages, finished, List.reverse_cons, List.map_append, List.map_append,
        ← messages]
      rfl
    · have before : inHand s t = {s.share t} := if_pos ⟨hpc, waits⟩
      have after : inHand (PoolSession.next calculateHash lib c s (.send t outcome)) t = 0 := by
        refine if_neg ?_
        rintro ⟨_, still⟩
        rw [returned, Function.update_self] at still
        cases still
      have sums := sum_changed (t := t)
        (f := inHand (PoolSession.next calculateHash lib c s (.send t outcome))) (g := inHand s)
        fun u hne => inHand_same (worker u) (by rw [returned, Function.update_of_ne hne])
      rw [before, after, add_zero] at sums
      have same : found calculateHash ((s, .send t outcome) :: h) = found calculateHash h := rfl
      rw [same, ← balance, ← sums, List.map_append, ← Multiset.coe_add]
      have last : (↑([(id, s.share t)].map Prod.snd) : Multiset Share) = {s.share t} := rfl
      rw [last]
      abel

theorem Balanced.step {h : List (PoolSession.State n × PoolSession.Event n)}
    {s : PoolSession.State n} {e : PoolSession.Event n} (balanced : Balanced c calculateHash h s)
    (joined : Joined c s) (enabled : PoolSession.Enabled s e) :
    Balanced c calculateHash ((s, e) :: h) (PoolSession.next calculateHash lib c s e) := by
  cases e with
  | thread e =>
    by_cases own : ∃ t env, e = .work t env
    · obtain ⟨t, env, rfl⟩ := own
      exact balanced.work enabled
    · refine balanced.quiet ?_ ?_ fun t => inHand_same ?_ ?_
      · cases e with
        | work t env => exact absurd ⟨t, env, rfl⟩ own
        | _ => rfl
      · rw [next_wire, nextWire]
        cases e with
        | enter t =>
          obtain ⟨⟨_, l, hlock, _⟩, ready⟩ := enabled
          simp only [wireEvent]
          split
          · rename_i hevent
            split at hevent
            · rename_i hpc
              obtain rfl := Option.some.inj hevent
              obtain ⟨message, waiting⟩ := ready hpc
              simp only [SendMessage.next, waiting]
            · cases hevent
          · rfl
        | _ => rfl
      · apply worker_other
        rintro env heq
        exact own ⟨t, env, PoolSession.Event.thread.inj heq⟩
      · cases e with
        | work t env => exact absurd ⟨t, env, rfl⟩ own
        | _ => rfl
  | send t outcome => exact balanced.send joined enabled
  | submitShare t loaded => exact balanced.quiet rfl rfl fun _ => inHand_same rfl rfl
  | recv chunk => exact balanced.quiet rfl rfl fun _ => inHand_same rfl rfl
  | write answers bytes => exact balanced.quiet rfl rfl fun _ => inHand_same rfl rfl

theorem balanced_run {h : List (PoolSession.State n × PoolSession.Event n)}
    {s : PoolSession.State n}
    (run : Run (PoolSession.machine calculateHash lib c n) (Start c) h s) :
    Joined c s ∧ Balanced c calculateHash h s := by
  apply run.invariant (P := fun h s => Joined c s ∧ Balanced c calculateHash h s)
  · intro s start
    refine ⟨start.joined, [], ?_, ?_⟩
    · rw [finishedMessages, start.login.finished]
      rfl
    · have none : ∀ t, inHand s t = 0 := fun t => if_neg fun both => start.noShare t both.1
      simp [none, found]
  · rintro h s e ⟨joined, balanced⟩ enabled
    exact ⟨joined.step enabled, balanced.step joined enabled⟩

/-- The parts of a submission that the miner makes itself are plain. -/
theorem plain_found {h : List (PoolSession.State n × PoolSession.Event n)} {share : Share}
    (mem : share ∈ found calculateHash h) : Plain share.nonce ∧ Plain share.result := by
  obtain ⟨m, _, hfound⟩ := List.mem_filterMap.mp mem
  unfold foundBy at hfound
  split at hfound
  · split at hfound
    · split at hfound
      · obtain rfl := Option.some.inj hfound
        exact ⟨MessageFields.plain_nonceText _, MessageFields.plain_hashText _⟩
      · cases hfound
    · cases hfound
  · cases hfound

theorem progress_session {h : List (PoolSession.State n × PoolSession.Event n)}
    {s : PoolSession.State n}
    (run : Run (PoolSession.machine calculateHash lib c n) (Start c) h s)
    (succeed : SendsSucceed h) : Progress c s.wire := by
  have refines := refines_wire calculateHash lib c n
  have socket : Run (SendMessage.machine c n) (AfterLogin c)
      (seen PoolSession.State.wire wireEvent h) s.wire :=
    refines.run (fun _ start => ⟨start.joined, start.login⟩) run
  refine progress_run socket ?_
  intro w t outcome hm
  obtain ⟨m, hm, _, hshown⟩ := mem_seen.mp hm
  apply succeed m hm t
  unfold wireEvent at hshown
  split at hshown
  · split at hshown <;> cases hshown
  · cases hshown
  · rename_i u o hevent
    cases hshown
    exact hevent
  · cases hshown

/-- The configured strings go into the messages as they are. -/
structure PlainCredentials (c : Credentials) : Prop where
  wallet : Plain c.wallet
  password : Plain c.password
  worker : Plain c.worker

/-- What the pool reads from the complete lines of the bytes that `send` has accepted. -/
def received (s : PoolSession.State n) : List Share :=
  (completeLines newline s.wire.sent).filterMap readShare

/-- The complete lines are the login and one message for each share read. -/
theorem completeLines_session {h : List (PoolSession.State n × PoolSession.Event n)}
    {s : PoolSession.State n}
    (run : Run (PoolSession.machine calculateHash lib c n) (Start c) h s)
    (succeed : SendsSucceed h) (plain : PlainCredentials c)
    (ids : ∀ share ∈ found calculateHash h, Plain share.jobId) :
    ∃ sent : List (UInt32 × Share),
      completeLines newline s.wire.sent =
        (loginText c).dropLast :: sent.map (fun p => (submitText c p.1 p.2).dropLast) ∧
      received s = sent.map Prod.snd ∧
      (↑(sent.map Prod.snd) : Multiset Share) + ∑ t, inHand s t = ↑(found calculateHash h) := by
  obtain ⟨joined, sent, messages, balance⟩ := balanced_run run
  have progress := progress_session run succeed
  have all : ∀ share, share ∈ (↑(sent.map Prod.snd) : Multiset Share) + ∑ t, inHand s t →
      Plain share.jobId ∧ Plain share.nonce ∧ Plain share.result := by
    intro share mem
    rw [balance] at mem
    exact ⟨ids share mem, plain_found mem⟩
  have whole : ∀ p ∈ sent, Plain p.2.jobId ∧ Plain p.2.nonce ∧ Plain p.2.result := by
    intro p mem
    apply all
    exact Multiset.mem_add.mpr (Or.inl (Multiset.mem_coe.mpr (List.mem_map_of_mem mem)))
  have current : ∀ t m k, s.wire.phases t = .sending m k → OneLine m := by
    intro t m k sending
    obtain ⟨hpc, waits, id, rfl⟩ := joined.message t m (by rw [sending]; rfl)
    have hand : s.share t ∈ ∑ u, inHand s u := by
      rw [Multiset.mem_sum]
      refine ⟨t, Finset.mem_univ t, ?_⟩
      rw [inHand, if_pos ⟨hpc, waits⟩]
      exact Multiset.mem_singleton_self _
    obtain ⟨jobId, nonce, result⟩ := all _ (Multiset.mem_add.mpr (Or.inr hand))
    exact oneLine_submitText id plain.worker jobId nonce result
  have lines : completeLines newline s.wire.sent =
      (loginText c :: finishedMessages s.wire).map List.dropLast := by
    refine progress.completeLines
      (oneLine_loginText plain.wallet plain.password plain.worker) ?_ current
    intro m mem
    rw [messages] at mem
    obtain ⟨p, hp, rfl⟩ := List.mem_map.mp mem
    obtain ⟨jobId, nonce, result⟩ := whole p hp
    exact oneLine_submitText p.1 plain.worker jobId nonce result
  rw [messages, List.map_cons, List.map_map] at lines
  refine ⟨sent, lines, ?_, balance⟩
  rw [received, lines, List.filterMap_cons,
    readShare_loginText plain.wallet plain.password plain.worker, List.filterMap_map]
  rw [← List.filterMap_eq_map]
  apply List.filterMap_congr
  intro p mem
  obtain ⟨jobId, nonce, result⟩ := whole p mem
  exact readShare_submitText p.1 plain.worker jobId nonce result

/-- While no call of `send` fails, the shares that the pool reads and those still in
hand are the shares found: none is lost, and none is sent twice. -/
theorem shares_delivered {h : List (PoolSession.State n × PoolSession.Event n)}
    {s : PoolSession.State n}
    (run : Run (PoolSession.machine calculateHash lib c n) (Start c) h s)
    (succeed : SendsSucceed h) (plain : PlainCredentials c)
    (ids : ∀ share ∈ found calculateHash h, Plain share.jobId) :
    (↑(received s) : Multiset Share) + ∑ t, inHand s t = ↑(found calculateHash h) := by
  obtain ⟨sent, _, read, balance⟩ := completeLines_session run succeed plain ids
  rw [read]
  exact balance

theorem oneShare_succeeds : SendsSucceed oneShareRun.1 := by
  have none : SendsSucceed (n := 2) [] := fun _ hm => nomatch hm
  refine SendsSucceed.replay ?_ none miningSession
  rintro e he t outcome rfl
  simp [oneShare] at he
  omega

theorem shares_delivered_oneShare :
    (↑(received oneShareRun.2) : Multiset Share) + ∑ t, inHand oneShareRun.2 t =
      ↑(found zeroHash oneShareRun.1) := by
  refine shares_delivered oneShare_run oneShare_succeeds ⟨by decide, by decide, by decide⟩ ?_
  decide +kernel

end ShareDelivery
