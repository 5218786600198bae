import MoneroRandomXMiner.NativeBridge

/-!
# The native statistics beside starts and stops

`nativeGetStats` does not take `g_mutex`. It checks `g_mining` and `g_miner`
and then goes through `g_miner` three times, once for each number. A stop or a
failing start that resets the pointer in between leaves it with a null pointer
or with a miner that has been destroyed.
-/

namespace NativeStats

open Histories NativeBridge

/-- A call of `nativeGetStats`: the activity looks at `g_mining` first, the
service at `g_miner`. `called` are the pointers through which methods have been
called so far, out of `get_hashrate`, `get_accepted_shares` and
`get_rejected_shares`. -/
inductive Stats where
  | idle
  | testMining (client : Client)
  | testMiner (client : Client)
  | load (called : List (Option Nat))
  | invoke (target : Option Nat) (called : List (Option Nat))
  deriving DecidableEq

/-- Any number of threads ask for statistics. -/
structure State where
  bridge : NativeBridge.State
  stats : Nat → Stats

inductive Event where
  | bridge (e : NativeBridge.Event)
  | getStats (r : Nat) (client : Client)
  | step (r : Nat)

def firstTest : Client → Stats
  | .mainActivity => .testMining .mainActivity
  | .minerService => .testMiner .minerService

/-- One read or one method call. The answer "stopped" and the third call end it. -/
def stepStats (g : Globals) : Stats → Stats
  | .idle => .idle
  | .testMining .mainActivity => if g.mining then .testMiner .mainActivity else .idle
  | .testMining .minerService => if g.mining then .load [] else .idle
  | .testMiner .mainActivity => if g.miner = none then .idle else .load []
  | .testMiner .minerService => if g.miner = none then .idle else .testMining .minerService
  | .load called => .invoke g.miner called
  | .invoke target called => if called.length < 2 then .load (called ++ [target]) else .idle

def Enabled (s : State) : Event → Prop
  | .bridge e => NativeBridge.Enabled s.bridge e
  | .getStats r _ => s.stats r = .idle
  | .step r => s.stats r ≠ .idle

instance (s : State) : ∀ e, Decidable (Enabled s e)
  | .bridge e => inferInstanceAs (Decidable (NativeBridge.Enabled s.bridge e))
  | .getStats _ _ => inferInstanceAs (Decidable (_ = _))
  | .step _ => inferInstanceAs (Decidable (_ ≠ _))

def next (s : State) : Event → State
  | .bridge e => { s with bridge := NativeBridge.next s.bridge e }
  | .getStats r client => { s with stats := Function.update s.stats r (firstTest client) }
  | .step r =>
    { s with stats := Function.update s.stats r (stepStats s.bridge.globals (s.stats r)) }

def machine : Machine State Event where
  Enabled := Enabled
  next := next

instance (s : State) (e : Event) : Decidable (machine.Enabled s e) :=
  inferInstanceAs (Decidable (Enabled s e))

def Started (s : State) : Prop := NativeBridge.Started s.bridge ∧ ∀ r, s.stats r = .idle

/-- The method is called on a live miner, the one of the answer's earlier numbers. -/
def CallOk (miners : List Miner) (target : Option Nat) (called : List (Option Nat)) : Prop :=
  ∃ m, target = some m ∧ LiveWith (fun _ => True) miners m ∧ ∀ t ∈ called, t = some m

/-- No method is called on a destroyed miner or a null pointer, and the numbers
of one answer come from one miner. -/
def Sound (h : List (State × Event)) : Prop :=
  ∀ older s r target called, Moment h older s (.step r) → s.stats r = .invoke target called →
    CallOk s.bridge.miners target called

/-- The section is about to take the miner out of `g_miner`. -/
def ResetsMiner (s : NativeBridge.State) : NativeBridge.Event → Prop
  | .proceed _ => s.globals.miner ≠ none ∧ ∃ c after, s.call = some c ∧ c.pc = .reset after
  | _ => False

/-- The pointers that a call past its tests has read. -/
def Stats.pointers : Stats → Option (List (Option Nat))
  | .load called => some called
  | .invoke target called => some (called ++ [target])
  | _ => none

/-- `g_miner` is reset only while no call is past its tests, and the service's
second test does not find `g_mining` set over a null pointer. -/
def Orderly (s : State) : Event → Prop
  | .bridge e => ResetsMiner s.bridge e → ∀ r, (s.stats r).pointers = none
  | .getStats _ _ => True
  | .step r => s.stats r = .testMining .minerService → s.bridge.globals.mining = true →
      s.bridge.globals.miner ≠ none

/-- A call past its tests has read nothing but the present pointer, which is not null. -/
structure Tracked (s : State) : Prop where
  bridge : Inv s.bridge
  pointers : ∀ r ps, (s.stats r).pointers = some ps →
    s.bridge.globals.miner ≠ none ∧ ∀ t ∈ ps, t = s.bridge.globals.miner

theorem afterwards_miner (after : After) (c : Call) (s : NativeBridge.State) :
    (afterwards after c s).globals.miner = s.globals.miner := by
  cases after <;> rfl

/-- A section takes a miner out of `g_miner` only by resetting it. -/
theorem miner_kept {s : NativeBridge.State} {e : NativeBridge.Event} (inv : Inv s)
    (present : s.globals.miner ≠ none) (keeps : ¬ ResetsMiner s e) :
    (NativeBridge.next s e).globals.miner = s.globals.miner := by
  cases e with
  | proceed outcome =>
    cases calling : s.call with
    | none => simp only [NativeBridge.next, calling]
    | some c =>
      have consistent := inv.consistent c calling
      simp only [NativeBridge.next, calling]
      cases hpc : c.pc with
      | construct =>
        simp only [Consistent, hpc] at consistent
        exact absurd (by rw [consistent.2.1]; rfl) present
      | reset after => exact absurd ⟨present, c, after, calling, hpc⟩ keeps
      | checkMining =>
        simp only [proceed, hpc]
        split <;> rfl
      | initializeMiner =>
        simp only [proceed, hpc]
        split <;> rfl
      | storeRunning =>
        simp only [proceed, hpc, withMiner]
        split <;> rfl
      | createThread k =>
        simp only [proceed, hpc, withMiner]
        split
        · split
          · split <;> rfl
          · rfl
        · split <;> rfl
      | checkMiner =>
        simp only [proceed, hpc]
        split <;> rfl
      | join m ret => cases ret <;> simp only [proceed, hpc, returnTo, goTo, modifyMiner]
      | free m after => simp only [proceed, hpc, afterwards_miner, modifyMiner]
      | storeMining => simp only [proceed, hpc, answer]
      | storeStopped => simp only [proceed, hpc]
      | halt m ret => simp only [proceed, hpc, goTo, modifyMiner]
  | start client numThreads => rfl
  | stop client => rfl
  | workerReturns m k => rfl

/-- A step of a call past its tests, or into the part past them. -/
theorem pointers_stepStats {s : State} {r : Nat} {ps : List (Option Nat)} (tracked : Tracked s)
    (order : Orderly s (.step r))
    (hps : (stepStats s.bridge.globals (s.stats r)).pointers = some ps) :
    s.bridge.globals.miner ≠ none ∧ ∀ t ∈ ps, t = s.bridge.globals.miner := by
  cases hstats : s.stats r with
  | idle =>
    rw [hstats] at hps
    cases hps
  | testMining client =>
    rw [hstats] at hps
    cases client with
    | mainActivity =>
      simp only [stepStats] at hps
      split at hps <;> cases hps
    | minerService =>
      simp only [stepStats] at hps
      split at hps
      · rename_i hmining
        obtain rfl := Option.some.inj hps
        exact ⟨order hstats hmining, fun t ht => (nomatch ht)⟩
      · cases hps
  | testMiner client =>
    rw [hstats] at hps
    cases client with
    | mainActivity =>
      simp only [stepStats] at hps
      split at hps
      · cases hps
      · rename_i present
        obtain rfl := Option.some.inj hps
        exact ⟨present, fun t ht => (nomatch ht)⟩
    | minerService =>
      simp only [stepStats] at hps
      split at hps <;> cases hps
  | load called =>
    rw [hstats] at hps
    obtain rfl := Option.some.inj hps
    obtain ⟨present, same⟩ := tracked.pointers r called (by rw [hstats]; rfl)
    refine ⟨present, fun t ht => ?_⟩
    rcases List.mem_append.mp ht with old | new
    · exact same t old
    · exact List.mem_singleton.mp new
  | invoke target called =>
    rw [hstats] at hps
    have before := tracked.pointers r (called ++ [target]) (by rw [hstats]; rfl)
    simp only [stepStats] at hps
    split at hps
    · obtain rfl := Option.some.inj hps
      exact before
    · cases hps

theorem tracked_step {s : State} {e : Event} (tracked : Tracked s) (enabled : Enabled s e)
    (order : Orderly s e) : Tracked (next s e) := by
  cases e with
  | bridge e =>
    refine ⟨inv_step tracked.bridge enabled, ?_⟩
    intro r ps hps
    change (s.stats r).pointers = some ps at hps
    obtain ⟨present, same⟩ := tracked.pointers r ps hps
    have kept : (NativeBridge.next s.bridge e).globals.miner = s.bridge.globals.miner := by
      apply miner_kept tracked.bridge present
      intro resets
      rw [order resets r] at hps
      cases hps
    simp only [next, kept]
    exact ⟨present, same⟩
  | getStats r client =>
    refine ⟨tracked.bridge, ?_⟩
    intro q ps hps
    by_cases hq : q = r
    · subst hq
      simp only [next, Function.update_self] at hps
      cases client <;> cases hps
    · simp only [next, Function.update_of_ne hq] at hps
      exact tracked.pointers q ps hps
  | step r =>
    refine ⟨tracked.bridge, ?_⟩
    intro q ps hps
    by_cases hq : q = r
    · subst hq
      have stepped : (stepStats s.bridge.globals (s.stats q)).pointers = some ps := by
        simpa only [next, Function.update_self] using hps
      exact pointers_stepStats (s := s) tracked order stepped
    · simp only [next, Function.update_of_ne hq] at hps
      exact tracked.pointers q ps hps

theorem tracked_run {h : List (State × Event)} {s : State} (run : Run machine Started h s)
    (orderly : ∀ m ∈ h, Orderly m.1 m.2) : Tracked s := by
  apply run.invariant_of_steps (P := fun _ s => Tracked s) (Q := Orderly) _ _ orderly
  · intro t started
    refine ⟨inv_run (.init started.1), ?_⟩
    intro r ps hps
    rw [started.2 r] at hps
    cases hps
  · exact fun _ _ _ before enabled order => tracked_step before enabled order

theorem sound_of_orderly {h : List (State × Event)} {s : State} (run : Run machine Started h s)
    (orderly : ∀ m ∈ h, Orderly m.1 m.2) : Sound h := by
  intro older t r target called moment hstats
  have earlier : ∀ m ∈ older, Orderly m.1 m.2 := fun m hm => orderly m (moment.older_mem hm)
  have tracked := tracked_run (run.at_moment moment).1 earlier
  obtain ⟨present, same⟩ := tracked.pointers r (called ++ [target]) (by rw [hstats]; rfl)
  obtain ⟨m, hm⟩ := Option.ne_none_iff_exists'.mp present
  rw [hm] at same
  exact ⟨m, same target (by simp), tracked.bridge.pointed_alive hm,
    fun p hp => same p (List.mem_append_left _ hp)⟩

/-- Some continuation calls a method on a null pointer or a destroyed miner. -/
def Doomed (s : State) : Prop :=
  ∃ s' r target called, Leads machine s s' ∧ s'.stats r = .invoke target called ∧
    ¬ CallOk s'.bridge.miners target called

theorem Doomed.head {s : State} {e : Event} (enabled : Enabled s e) (doomed : Doomed (next s e)) :
    Doomed s := by
  obtain ⟨s', r, target, called, leads, hstats, bad⟩ := doomed
  exact ⟨s', r, target, called, leads.head (e := e) enabled, hstats, bad⟩

theorem doomed_load {s : State} {r : Nat} {called : List (Option Nat)}
    (hstats : s.stats r = .load called) (null : s.bridge.globals.miner = none) : Doomed s := by
  apply Doomed.head (e := .step r) (by rw [Enabled, hstats]; exact fun h => nomatch h)
  refine ⟨_, r, none, called, .refl, ?_, ?_⟩
  · simp [next, hstats, stepStats, null]
  · rintro ⟨m, hm, _⟩
    cases hm

/-- The bridge may go on by itself. -/
theorem leads_bridge {s : State} {b : NativeBridge.State}
    (leads : Leads NativeBridge.machine s.bridge b) : Leads machine s { s with bridge := b } := by
  induction leads with
  | refl => exact .refl
  | tail _ step ih =>
    obtain ⟨e, enabled, rfl⟩ := step
    exact ih.tail ⟨.bridge e, enabled, rfl⟩

/-- The step that resets `g_miner` under a call past its tests. -/
theorem doomed_reset {s : State} {e : NativeBridge.Event} {r : Nat} {ps : List (Option Nat)}
    (tracked : Tracked s) (enabled : NativeBridge.Enabled s.bridge e)
    (resets : ResetsMiner s.bridge e) (hps : (s.stats r).pointers = some ps) :
    Doomed (next s (.bridge e)) := by
  cases e with
  | proceed outcome =>
    obtain ⟨present, c, after, calling, hpc⟩ := resets
    obtain ⟨m, hm⟩ := Option.ne_none_iff_exists'.mp present
    have hnext : NativeBridge.next s.bridge (.proceed outcome) =
        goTo (.halt m (.toDestructor after)) c
          { s.bridge with globals := { s.bridge.globals with miner := none } } := by
      simp only [NativeBridge.next, calling, proceed, hpc, resetMiner, hm]
    cases hstats : s.stats r with
    | load called =>
      refine doomed_load (r := r) hstats ?_
      simp only [next, hnext, goTo]
    | invoke target called =>
      by_cases more : called.length < 2
      · apply Doomed.head (e := .step r)
        · change s.stats r ≠ .idle
          rw [hstats]
          intro h
          cases h
        · have hload : (next (next s (.bridge (.proceed outcome))) (.step r)).stats r =
              .load (called ++ [target]) := by
            simp [next, hstats, stepStats, more]
          refine doomed_load hload ?_
          simp only [next, hnext, goTo]
      · -- the last call is still to be made: it comes after the destructor
        have inv : Inv (NativeBridge.next s.bridge (.proceed outcome)) :=
          inv_step tracked.bridge enabled
        obtain ⟨b, leads, x, hx, dead⟩ := freed_eventually inv (by rw [hnext]; rfl) rfl
        have target_eq : target = some m := by
          rw [← hm]
          exact (tracked.pointers r (called ++ [target]) (by rw [hstats]; rfl)).2 target (by simp)
        refine ⟨_, r, target, called, leads_bridge leads, hstats, ?_⟩
        rintro ⟨i, hi, ⟨y, hy, alive, _⟩, _⟩
        obtain rfl := Option.some.inj (target_eq.symm.trans hi)
        obtain rfl := Option.some.inj (hx.symm.trans hy)
        rw [dead] at alive
        cases alive
    | _ =>
      rw [hstats] at hps
      cases hps
  | _ => exact resets.elim

theorem doomed_of_disorderly {s : State} {e : Event} (tracked : Tracked s)
    (enabled : Enabled s e) (disorderly : ¬ Orderly s e) : Doomed (next s e) := by
  cases e with
  | bridge e =>
    simp only [Orderly, not_forall] at disorderly
    obtain ⟨resets, r, exposed⟩ := disorderly
    obtain ⟨ps, hps⟩ := Option.ne_none_iff_exists'.mp exposed
    exact doomed_reset tracked enabled resets hps
  | getStats r client => exact absurd trivial disorderly
  | step r =>
    simp only [Orderly, not_forall, Classical.not_not] at disorderly
    obtain ⟨hstats, hmining, null⟩ := disorderly
    have hload : (next s (.step r)).stats r = .load [] := by
      simp [next, hstats, stepStats, hmining]
    exact doomed_load hload null

/-- In every run whose steps are orderly no statistics call goes through a dead
miner or mixes two; and one disorderly step more, and the run can be continued
to one in which a call does. -/
theorem orderly_sound {h : List (State × Event)} {s : State} (run : Run machine Started h s)
    (orderly : ∀ m ∈ h, Orderly m.1 m.2) :
    Sound h ∧
      ∀ e, Enabled s e → ¬ Orderly s e →
        ∃ newer s', Run machine Started (newer ++ (s, e) :: h) s' ∧
          ¬ Sound (newer ++ (s, e) :: h) := by
  refine ⟨sound_of_orderly run orderly, ?_⟩
  intro e enabled disorderly
  obtain ⟨t, r, target, called, leads, hstats, bad⟩ :=
    doomed_of_disorderly (tracked_run run orderly) enabled disorderly
  have taken : Run machine Started ((s, e) :: h) (next s e) := run.step enabled
  obtain ⟨newer, run'⟩ := taken.extend leads
  have invokes : Enabled t (.step r) := by
    rw [Enabled, hstats]
    exact fun h => nomatch h
  refine ⟨(t, .step r) :: newer, _, run'.step invokes, ?_⟩
  intro sound
  exact bad (sound _ t r target called ⟨[], rfl⟩ hstats)

/-- The service starts a miner with one worker, and its notification loop asks for
the hashrate. -/
def asked : List Event :=
  [.bridge (.start .minerService 1), .bridge (.proceed .succeeds), .bridge (.proceed .succeeds),
    .bridge (.proceed .succeeds), .bridge (.proceed .succeeds), .bridge (.proceed .succeeds),
    .bridge (.proceed .succeeds), .bridge (.proceed .succeeds), .getStats 0 .minerService,
    .step 0, .step 0, .step 0]

def loaded : State := ⟨NativeBridge.loaded, fun _ => .idle⟩

theorem loaded_run : Run machine Started [] loaded := .init ⟨rfl, fun _ => rfl⟩

def askedRun : List (State × Event) × State := replay machine asked ([], loaded)

theorem askedRun_orderly : ∀ m ∈ askedRun.1, Orderly m.1 m.2 := by
  apply replay_forall
  refine ⟨?_, ?_, ?_, ?_, ?_, ?_, ?_, ?_, trivial, ?_, fun _ _ => by decide, ?_, trivial⟩
  all_goals first
    | exact fun _ _ => rfl
    | exact fun h => nomatch h

theorem orderly_sound_asked :
    Sound askedRun.1 ∧
      ∀ e, Enabled askedRun.2 e → ¬ Orderly askedRun.2 e →
        ∃ newer s', Run machine Started (newer ++ (askedRun.2, e) :: askedRun.1) s' ∧
          ¬ Sound (newer ++ (askedRun.2, e) :: askedRun.1) :=
  orderly_sound (replay_run loaded_run asked (by decide)) askedRun_orderly

/-- The service's main thread stops and destroys the miner between the read of the
pointer and the call. -/
def stoppedBetween : List Event :=
  asked ++ [.bridge (.stop .minerService), .bridge (.proceed .succeeds),
    .bridge (.proceed .succeeds), .bridge (.workerReturns 0 0), .bridge (.proceed .succeeds),
    .bridge (.proceed .succeeds), .bridge (.proceed .succeeds), .bridge (.proceed .succeeds),
    .bridge (.proceed .succeeds)]

theorem sound_fails_stoppedBetween :
    Run machine Started (replay machine (stoppedBetween ++ [.step 0]) ([], loaded)).1
        (replay machine (stoppedBetween ++ [.step 0]) ([], loaded)).2 ∧
      ¬ Sound (replay machine (stoppedBetween ++ [.step 0]) ([], loaded)).1 := by
  refine ⟨replay_run loaded_run _ (by decide), fun sound => ?_⟩
  obtain ⟨older, m, -, hm, moment⟩ := replay_last machine stoppedBetween (.step 0) loaded
  have hstats : m.stats 0 = .invoke (some 0) [] := by
    rw [hm]
    decide
  have dead : m.bridge.miners = [⟨false, false, true, [.joined]⟩] := by
    rw [hm]
    decide
  obtain ⟨i, hi, ⟨x, hx, alive, _⟩, _⟩ := sound older m 0 (some 0) [] moment hstats
  obtain rfl := Option.some.inj hi
  rw [dead] at hx
  obtain rfl := Option.some.inj hx
  cases alive

end NativeStats
