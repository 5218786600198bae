import Mathlib.Logic.Function.Basic
import Mathlib.Logic.Relation

/-!
# Runs with their histories, and past-time conditions

A machine has guarded events and a total successor function. A run keeps the
list of states left behind, newest first, each paired with the event taken
there. A condition about the past of a run (`Since`) is recursive in that list,
so one new event unfolds exactly one layer of it.
-/

namespace Histories

universe u v w

structure Machine (State : Type u) (Event : Type v) where
  Enabled : State → Event → Prop
  next : State → Event → State

variable {State : Type u} {Event : Type v}

inductive Run (M : Machine State Event) (start : State → Prop) :
    List (State × Event) → State → Prop
  | init {s : State} (hs : start s) : Run M start [] s
  | step {h : List (State × Event)} {s : State} {e : Event}
      (run : Run M start h s) (enabled : M.Enabled s e) :
      Run M start ((s, e) :: h) (M.next s e)

variable {M : Machine State Event} {start : State → Prop}

/-- Some enabled events take one state to the other. -/
def Leads (M : Machine State Event) : State → State → Prop :=
  Relation.ReflTransGen fun s s' => ∃ e, M.Enabled s e ∧ M.next s e = s'

theorem Leads.head {s s' : State} {e : Event} (enabled : M.Enabled s e)
    (leads : Leads M (M.next s e) s') : Leads M s s' :=
  Relation.ReflTransGen.head ⟨e, enabled, rfl⟩ leads

theorem Run.extend {h : List (State × Event)} {s s' : State} (run : Run M start h s)
    (leads : Leads M s s') : ∃ newer, Run M start (newer ++ h) s' := by
  induction leads with
  | refl => exact ⟨[], run⟩
  | tail _ step ih =>
    obtain ⟨newer, before⟩ := ih
    obtain ⟨e, enabled, rfl⟩ := step
    exact ⟨_ :: newer, before.step enabled⟩

/-- The machine in which the events must meet a further condition. -/
def Machine.restrict (M : Machine State Event) (Q : State → Event → Prop) :
    Machine State Event where
  Enabled := fun s e => M.Enabled s e ∧ Q s e
  next := M.next

theorem Run.extend_restrict {Q : State → Event → Prop} {h : List (State × Event)} {s s' : State}
    (run : Run M start h s) (leads : Leads (M.restrict Q) s s') :
    ∃ newer, Run M start (newer ++ h) s' ∧ ∀ m ∈ newer, Q m.1 m.2 := by
  induction leads with
  | refl => exact ⟨[], run, fun _ hm => (nomatch hm)⟩
  | tail _ step ih =>
    obtain ⟨newer, before, met⟩ := ih
    obtain ⟨e, ⟨enabled, now⟩, rfl⟩ := step
    exact ⟨_ :: newer, before.step enabled, List.forall_mem_cons.mpr ⟨now, met⟩⟩

/-- A run that starts where another one ends goes on from it. -/
theorem Run.append {h newer : List (State × Event)} {s s' : State} (run : Run M start h s)
    (more : Run M (· = s) newer s') : Run M start (newer ++ h) s' := by
  induction more with
  | init same => exact same ▸ run
  | step _ enabled ih => exact ih.step enabled

theorem Run.mono {start' : State → Prop} (weaker : ∀ s, start s → start' s)
    {h : List (State × Event)} {s : State} (run : Run M start h s) : Run M start' h s := by
  induction run with
  | init hs => exact .init (weaker _ hs)
  | step _ enabled ih => exact ih.step enabled

/-- The induction rule. The invariant may mention the history as well as the
state, and the steps of the run may all be known to meet a condition. -/
theorem Run.invariant_of_steps {P : List (State × Event) → State → Prop}
    {Q : State → Event → Prop} (initial : ∀ s, start s → P [] s)
    (preserved : ∀ h s e, P h s → M.Enabled s e → Q s e → P ((s, e) :: h) (M.next s e))
    {h : List (State × Event)} {s : State} (run : Run M start h s)
    (steps : ∀ m ∈ h, Q m.1 m.2) : P h s := by
  induction run with
  | init hs => exact initial _ hs
  | step run enabled ih =>
    apply preserved _ _ _ _ enabled (steps _ List.mem_cons_self)
    exact ih fun m hm => steps m (List.mem_cons_of_mem _ hm)

theorem Run.invariant {P : List (State × Event) → State → Prop}
    (initial : ∀ s, start s → P [] s)
    (preserved : ∀ h s e, P h s → M.Enabled s e → P ((s, e) :: h) (M.next s e))
    {h : List (State × Event)} {s : State} (run : Run M start h s) : P h s :=
  run.invariant_of_steps (Q := fun _ _ => True) initial
    (fun h s e hp enabled _ => preserved h s e hp enabled) (fun _ _ => trivial)

/-- A property of every state of a run, the last one included. -/
def Always (P : State → Prop) (h : List (State × Event)) (s : State) : Prop :=
  P s ∧ ∀ m ∈ h, P m.1

/-- The states of a run are the first one and those that its steps lead to. -/
theorem Run.always_iff_steps {P : State → Prop} (initial : ∀ s, start s → P s)
    {h : List (State × Event)} {s : State} (run : Run M start h s) :
    Always P h s ↔ ∀ m ∈ h, P (M.next m.1 m.2) := by
  induction run with
  | init hs => exact iff_of_true ⟨initial _ hs, fun _ hm => (nomatch hm)⟩ fun _ hm => (nomatch hm)
  | step run enabled ih =>
    rw [Always, List.forall_mem_cons, List.forall_mem_cons]
    exact and_congr_right fun _ => ih

theorem Always.at_start {P : State → Prop} {s₀ : State} {h : List (State × Event)} {s : State}
    (run : Run M (· = s₀) h s) (always : Always P h s) : P s₀ := by
  induction run with
  | init same => exact same ▸ always.1
  | step run enabled ih =>
    obtain ⟨-, before⟩ := always
    rw [List.forall_mem_cons] at before
    exact ih before

/-- A property of the steps of a run holds of all of them exactly when a condition
does, if an invariant that the condition keeps makes the two agree on each step. -/
theorem Run.forall_steps_iff {I : State → Prop} {T Q : State → Event → Prop}
    (initial : ∀ s, start s → I s)
    (keeps : ∀ s e, I s → M.Enabled s e → Q s e → I (M.next s e))
    (agree : ∀ s e, I s → M.Enabled s e → (T s e ↔ Q s e))
    {h : List (State × Event)} {s : State} (run : Run M start h s) :
    (∀ m ∈ h, T m.1 m.2) ↔ ∀ m ∈ h, Q m.1 m.2 := by
  have kept : ∀ {h : List (State × Event)} {s : State}, Run M start h s →
      (∀ m ∈ h, Q m.1 m.2) → I s := by
    intro h s run steps
    exact run.invariant_of_steps (P := fun _ s => I s) initial
      (fun _ s e inv enabled step => keeps s e inv enabled step) steps
  induction run with
  | init hs => exact iff_of_true (fun _ hm => (nomatch hm)) fun _ hm => (nomatch hm)
  | step run enabled ih =>
    rw [List.forall_mem_cons, List.forall_mem_cons]
    constructor
    · rintro ⟨now, before⟩
      have steps := ih.mp before
      exact ⟨(agree _ _ (kept run steps) enabled).mp now, steps⟩
    · rintro ⟨now, steps⟩
      exact ⟨(agree _ _ (kept run steps) enabled).mpr now, ih.mpr steps⟩

/-- What an invariant implies holds in every state of a run exactly when each step
meets the condition that keeps the invariant, if no other step keeps what it implies. -/
theorem Run.always_iff {P I : State → Prop} {Q : State → Event → Prop}
    (initial : ∀ s, start s → I s) (holds : ∀ s, I s → P s)
    (keeps : ∀ s e, I s → M.Enabled s e → Q s e → I (M.next s e))
    (needs : ∀ s e, I s → M.Enabled s e → P (M.next s e) → Q s e)
    {h : List (State × Event)} {s : State} (run : Run M start h s) :
    Always P h s ↔ ∀ m ∈ h, Q m.1 m.2 := by
  rw [run.always_iff_steps fun s hs => holds s (initial s hs)]
  apply run.forall_steps_iff (T := fun s e => P (M.next s e)) initial keeps
  intro s e inv enabled
  constructor
  · exact needs s e inv enabled
  · exact fun met => holds _ (keeps s e inv enabled met)

/-- Every older part of a history is the history of a run. -/
theorem Run.older {newer older : List (State × Event)} {s : State}
    (run : Run M start (newer ++ older) s) : ∃ t, Run M start older t := by
  induction newer generalizing s with
  | nil => exact ⟨s, run⟩
  | cons entry newer ih =>
    cases run with
    | step run enabled => exact ih run

/-- The part of a run before one of its events is a run, and that event was enabled. -/
theorem Run.before {newer older : List (State × Event)} {s t : State} {e : Event}
    (run : Run M start (newer ++ (t, e) :: older) s) :
    Run M start older t ∧ M.Enabled t e := by
  obtain ⟨_, upTo⟩ := run.older
  cases upTo with
  | step run enabled => exact ⟨run, enabled⟩

/-- The part of a run after one of its events is a run from the state that follows it. -/
theorem Run.after {newer older : List (State × Event)} {s t : State} {e : Event}
    (run : Run M start (newer ++ (t, e) :: older) s) : Run M (· = M.next t e) newer s := by
  induction newer generalizing s with
  | nil =>
    cases run with
    | step run enabled => exact .init rfl
  | cons entry newer ih =>
    cases run with
    | step run enabled => exact (ih run).step enabled

/-- While the goal is not reached some enabled step lowers the measure. -/
theorem leads_of_measure {I G : State → Prop} (measure : State → Nat)
    (step : ∀ s, I s → ¬ G s →
      ∃ e, M.Enabled s e ∧ I (M.next s e) ∧ measure (M.next s e) < measure s)
    {s : State} (inv : I s) : ∃ s', Leads M s s' ∧ I s' ∧ G s' := by
  induction h : measure s using Nat.strongRecOn generalizing s with
  | ind k ih =>
    by_cases goal : G s
    · exact ⟨s, .refl, inv, goal⟩
    · obtain ⟨e, enabled, kept, lower⟩ := step s inv goal
      obtain ⟨s', leads, inv', goal'⟩ := ih _ (h ▸ lower) kept rfl
      exact ⟨s', leads.head enabled, inv', goal'⟩

/-- Moments of a run: an event together with the history before it. -/
def Moment (h : List (State × Event)) (older : List (State × Event)) (s : State)
    (e : Event) : Prop :=
  ∃ newer, h = newer ++ (s, e) :: older

theorem Run.at_moment {h older : List (State × Event)} {s t : State} {e : Event}
    (run : Run M start h s) (moment : Moment h older t e) :
    Run M start older t ∧ M.Enabled t e := by
  obtain ⟨newer, rfl⟩ := moment
  exact run.before

theorem Moment.older_mem {h older : List (State × Event)} {t : State} {e : Event}
    (moment : Moment h older t e) {m : State × Event} (hm : m ∈ older) : m ∈ h := by
  obtain ⟨newer, rfl⟩ := moment
  exact List.mem_append_right _ (List.mem_cons_of_mem _ hm)

theorem moment_cons {h older : List (State × Event)} {s t : State} {e f : Event} :
    Moment ((s, f) :: h) older t e ↔
      (t = s ∧ e = f ∧ older = h) ∨ Moment h older t e := by
  constructor
  · rintro ⟨newer, hn⟩
    cases newer with
    | nil =>
      simp only [List.nil_append, List.cons.injEq, Prod.mk.injEq] at hn
      exact Or.inl ⟨hn.1.1.symm, hn.1.2.symm, hn.2.symm⟩
    | cons entry newer =>
      simp only [List.cons_append, List.cons.injEq] at hn
      exact Or.inr ⟨newer, hn.2⟩
  · rintro (⟨rfl, rfl, rfl⟩ | ⟨newer, rfl⟩)
    · exact ⟨[], rfl⟩
    · exact ⟨(s, f) :: newer, rfl⟩

/-- A measure of histories that no new entry lowers is not lowered by any number of them. -/
theorem le_append_of_le_cons {α : Type w} {f : List α → Nat} (cons : ∀ a h, f h ≤ f (a :: h))
    (newer older : List α) : f older ≤ f (newer ++ older) := by
  induction newer with
  | nil => exact Nat.le_refl _
  | cons a newer ih => exact Nat.le_trans ih (cons a (newer ++ older))

/-- Going back from the present, `mark` is met while `hold` holds of everything newer. -/
def Since {α : Type w} (hold mark : α → List α → Prop) : List α → Prop
  | [] => False
  | a :: h => mark a h ∨ (hold a h ∧ Since hold mark h)

instance decidableSince {α : Type w} (hold mark : α → List α → Prop)
    [∀ a h, Decidable (hold a h)] [∀ a h, Decidable (mark a h)] :
    ∀ h, Decidable (Since hold mark h)
  | [] => inferInstanceAs (Decidable False)
  | _ :: h =>
    have := decidableSince hold mark h
    inferInstanceAs (Decidable (_ ∨ (_ ∧ _)))

@[simp] theorem since_nil {α : Type w} (hold mark : α → List α → Prop) :
    ¬ Since hold mark [] := id

theorem since_cons {α : Type w} (hold mark : α → List α → Prop) (a : α) (h : List α) :
    Since hold mark (a :: h) ↔ mark a h ∨ (hold a h ∧ Since hold mark h) := Iff.rfl

theorem since_of_mark {α : Type w} {hold mark : α → List α → Prop} {a : α} {h : List α}
    (ha : mark a h) : Since hold mark (a :: h) := Or.inl ha

theorem since_cons_of_hold {α : Type w} {hold mark : α → List α → Prop} {a : α} {h : List α}
    (ha : hold a h) (hm : ¬ mark a h) : Since hold mark (a :: h) ↔ Since hold mark h := by
  rw [since_cons]
  exact ⟨fun hs => hs.elim (fun hx => absurd hx hm) (fun hx => hx.2), fun hs => Or.inr ⟨ha, hs⟩⟩

theorem not_since_cons {α : Type w} {hold mark : α → List α → Prop} {a : α} {h : List α}
    (ha : ¬ hold a h) (hm : ¬ mark a h) : ¬ Since hold mark (a :: h) := by
  rintro (hx | hx)
  · exact hm hx
  · exact ha hx.1

/-- A flag that some steps set, some clear and the others leave alone holds exactly
when it has been set and not been cleared since. -/
theorem Run.latch {F : State → Prop} {S C : State → Event → Prop}
    (initial : ∀ s, start s → ¬ F s)
    (set : ∀ s e, M.Enabled s e → S s e → F (M.next s e))
    (clear : ∀ s e, M.Enabled s e → ¬ S s e → C s e → ¬ F (M.next s e))
    (keep : ∀ s e, M.Enabled s e → ¬ S s e → ¬ C s e → (F (M.next s e) ↔ F s))
    {h : List (State × Event)} {s : State} (run : Run M start h s) :
    F s ↔ Since (fun m _ => ¬ C m.1 m.2) (fun m _ => S m.1 m.2) h := by
  apply run.invariant (P := fun h s =>
    F s ↔ Since (fun m _ => ¬ C m.1 m.2) (fun m _ => S m.1 m.2) h)
  · exact fun s hs => iff_of_false (initial s hs) (since_nil _ _)
  · intro h s e tracked enabled
    by_cases hset : S s e
    · exact iff_of_true (set s e enabled hset) (since_of_mark hset)
    · by_cases hclear : C s e
      · exact iff_of_false (clear s e enabled hset hclear)
          (not_since_cons (fun kept => kept hclear) hset)
      · exact (keep s e enabled hset hclear).trans
          (tracked.trans (since_cons_of_hold hclear hset).symm)

/-- Replaying a list of events from a state, oldest event first. -/
def replay (M : Machine State Event) :
    List Event → List (State × Event) × State → List (State × Event) × State
  | [], p => p
  | e :: es, p => replay M es ((p.2, e) :: p.1, M.next p.2 e)

def AllEnabled (M : Machine State Event) : List Event → State → Prop
  | [], _ => True
  | e :: es, s => M.Enabled s e ∧ AllEnabled M es (M.next s e)

instance decidableAllEnabled (M : Machine State Event)
    [∀ s e, Decidable (M.Enabled s e)] : ∀ es s, Decidable (AllEnabled M es s)
  | [], _ => inferInstanceAs (Decidable True)
  | e :: es, s =>
    have := decidableAllEnabled M es (M.next s e)
    inferInstanceAs (Decidable (_ ∧ _))

theorem allEnabled_append {es fs : List Event} {s : State} (enabled : AllEnabled M (es ++ fs) s) :
    AllEnabled M es s := by
  induction es generalizing s with
  | nil => trivial
  | cons e es ih => exact ⟨enabled.1, ih enabled.2⟩

theorem allEnabled_of_forall (all : ∀ s e, M.Enabled s e) (es : List Event) (s : State) :
    AllEnabled M es s := by
  induction es generalizing s with
  | nil => trivial
  | cons e es ih => exact ⟨all s e, ih _⟩

theorem replay_run {h : List (State × Event)} {s : State} (run : Run M start h s)
    (es : List Event) (enabled : AllEnabled M es s) :
    Run M start (replay M es (h, s)).1 (replay M es (h, s)).2 := by
  induction es generalizing h s with
  | nil => exact run
  | cons e es ih => exact ih (run.step enabled.1) enabled.2

/-- A replay records the replayed events and no others. -/
theorem replay_events {es : List Event} {s : State} {m : State × Event}
    (hm : m ∈ (replay M es ([], s)).1) : m.2 ∈ es := by
  have general : ∀ (es : List Event) (p : List (State × Event) × State),
      m ∈ (replay M es p).1 → m ∈ p.1 ∨ m.2 ∈ es := by
    intro es
    induction es with
    | nil => exact fun p hp => Or.inl hp
    | cons e es ih =>
      intro p hp
      rcases ih _ hp with old | new
      · rcases List.mem_cons.mp old with rfl | old
        · exact Or.inr List.mem_cons_self
        · exact Or.inl old
      · exact Or.inr (List.mem_cons_of_mem e new)
  rcases general es ([], s) hm with old | new
  · cases old
  · exact new

/-- What holds of each step in turn holds of all steps that a replay records. -/
theorem replay_forall {Q : State → Event → Prop} {es : List Event} {s : State}
    (holds : AllEnabled ⟨Q, M.next⟩ es s) : ∀ m ∈ (replay M es ([], s)).1, Q m.1 m.2 := by
  have general : ∀ (es : List Event) (h : List (State × Event)) (s : State),
      (∀ m ∈ h, Q m.1 m.2) → AllEnabled ⟨Q, M.next⟩ es s →
      ∀ m ∈ (replay M es (h, s)).1, Q m.1 m.2 := by
    intro es
    induction es with
    | nil => exact fun h s old _ => old
    | cons e es ih =>
      intro h s old holds
      exact ih _ _ (List.forall_mem_cons.mpr ⟨holds.1, old⟩) holds.2
  exact general es [] s (fun _ hm => nomatch hm) holds

/-- The last event of a replay is its newest moment. The history and the state
before it are given names, so that they need not be computed. -/
theorem replay_last (M : Machine State Event) (es : List Event) (e : Event) (s : State) :
    ∃ older m, older = (replay M es ([], s)).1 ∧ m = (replay M es ([], s)).2 ∧
      Moment (replay M (es ++ [e]) ([], s)).1 older m e := by
  have general : ∀ (es : List Event) (p : List (State × Event) × State),
      (replay M (es ++ [e]) p).1 = ((replay M es p).2, e) :: (replay M es p).1 := by
    intro es
    induction es with
    | nil => exact fun p => rfl
    | cons f es ih => exact fun p => ih _
  exact ⟨_, _, rfl, rfl, [], general es ([], s)⟩

end Histories
