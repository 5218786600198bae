import MoneroRandomXMiner.Histories

/-!
# Simulations

A machine refines another one along a view of its states if each of its events
is shown as an event of the other one, or is hidden and leaves the view alone.
The shown part of the history of a run is then the history of a run.
-/

namespace Simulations

open Histories

variable {S E S' E' S'' E'' : Type*}

/-- The invariant is what the refinement knows of the states of the lower machine. -/
structure Refines (C : Machine S E) (A : Machine S' E') (view : S → S')
    (shown : S → E → Option E') (Inv : S → Prop) : Prop where
  keeps : ∀ s e, Inv s → C.Enabled s e → Inv (C.next s e)
  enabled : ∀ s e e', Inv s → C.Enabled s e → shown s e = some e' → A.Enabled (view s) e'
  next : ∀ s e e', Inv s → C.Enabled s e → shown s e = some e' →
    view (C.next s e) = A.next (view s) e'
  hidden : ∀ s e, Inv s → C.Enabled s e → shown s e = none → view (C.next s e) = view s

/-- The steps of a history that are shown, in the view. -/
def seen (view : S → S') (shown : S → E → Option E') (h : List (S × E)) : List (S' × E') :=
  h.filterMap fun m => (shown m.1 m.2).map fun e => (view m.1, e)

variable {C : Machine S E} {A : Machine S' E'} {B : Machine S'' E''} {view : S → S'}
  {shown : S → E → Option E'} {Inv : S → Prop} {start : S → Prop} {start' : S' → Prop}

theorem seen_cons_hidden {s : S} {e : E} (hidden : shown s e = none) (h : List (S × E)) :
    seen view shown ((s, e) :: h) = seen view shown h :=
  List.filterMap_cons_none (by simp only [hidden, Option.map_none])

theorem seen_cons_shown {s : S} {e : E} {e' : E'} (hshown : shown s e = some e')
    (h : List (S × E)) : seen view shown ((s, e) :: h) = (view s, e') :: seen view shown h :=
  List.filterMap_cons_some (by simp only [hshown, Option.map_some])

theorem mem_seen {m' : S' × E'} {h : List (S × E)} :
    m' ∈ seen view shown h ↔ ∃ m ∈ h, view m.1 = m'.1 ∧ shown m.1 m.2 = some m'.2 := by
  simp only [seen, List.mem_filterMap, Option.map_eq_some_iff]
  constructor
  · rintro ⟨m, hm, e', hshown, rfl⟩
    exact ⟨m, hm, rfl, hshown⟩
  · rintro ⟨m, hm, hview, hshown⟩
    exact ⟨m, hm, m'.2, hshown, by rw [hview]⟩

theorem Refines.inv (refines : Refines C A view shown Inv) (initial : ∀ s, start s → Inv s)
    {h : List (S × E)} {s : S} (run : Run C start h s) : Inv s :=
  run.invariant (P := fun _ s => Inv s) initial fun _ s e inv enabled =>
    refines.keeps s e inv enabled

theorem Refines.run (refines : Refines C A view shown Inv)
    (initial : ∀ s, start s → Inv s ∧ start' (view s)) {h : List (S × E)} {s : S}
    (run : Run C start h s) : Run A start' (seen view shown h) (view s) := by
  induction run with
  | init hs => exact .init (initial _ hs).2
  | @step h s e run enabled abstract =>
    have inv : Inv s := refines.inv (fun s hs => (initial s hs).1) run
    cases hshown : shown s e with
    | none =>
      rw [seen_cons_hidden hshown, refines.hidden s e inv enabled hshown]
      exact abstract
    | some e' =>
      rw [seen_cons_shown hshown, refines.next s e e' inv enabled hshown]
      exact abstract.step (refines.enabled s e e' inv enabled hshown)

/-- What is observed of each step is observed of the shown steps, in the same order. -/
theorem Refines.observed {O : Type*} {observe : S → E → Option O} {observe' : S' → E' → Option O}
    (refines : Refines C A view shown Inv) (initial : ∀ s, start s → Inv s)
    (agree : ∀ s e, Inv s → C.Enabled s e → observe s e = (shown s e).bind (observe' (view s)))
    {h : List (S × E)} {s : S} (run : Run C start h s) :
    h.filterMap (fun m => observe m.1 m.2) =
      (seen view shown h).filterMap fun m => observe' m.1 m.2 := by
  induction run with
  | init _ => rfl
  | @step h s e run enabled ih =>
    have inv : Inv s := refines.inv initial run
    have now := agree s e inv enabled
    cases hshown : shown s e with
    | none =>
      rw [hshown, Option.bind_none] at now
      rw [seen_cons_hidden hshown, ← ih, List.filterMap_cons, now]
    | some e' =>
      rw [hshown, Option.bind_some] at now
      rw [seen_cons_shown hshown, List.filterMap_cons, List.filterMap_cons, now, ih]

theorem Refines.comp {view' : S' → S''} {shown' : S' → E' → Option E''} {Inv' : S' → Prop}
    (lower : Refines C A view shown Inv) (upper : Refines A B view' shown' Inv') :
    Refines C B (fun s => view' (view s)) (fun s e => (shown s e).bind (shown' (view s)))
      (fun s => Inv s ∧ Inv' (view s)) where
  keeps := by
    rintro s e ⟨inv, inv'⟩ enabled
    refine ⟨lower.keeps s e inv enabled, ?_⟩
    cases hshown : shown s e with
    | none => rwa [lower.hidden s e inv enabled hshown]
    | some e' =>
      rw [lower.next s e e' inv enabled hshown]
      exact upper.keeps _ e' inv' (lower.enabled s e e' inv enabled hshown)
  enabled := by
    rintro s e e'' ⟨inv, inv'⟩ enabled both
    obtain ⟨e', hshown, hshown'⟩ := Option.bind_eq_some_iff.mp both
    exact upper.enabled _ e' e'' inv' (lower.enabled s e e' inv enabled hshown) hshown'
  next := by
    rintro s e e'' ⟨inv, inv'⟩ enabled both
    obtain ⟨e', hshown, hshown'⟩ := Option.bind_eq_some_iff.mp both
    rw [lower.next s e e' inv enabled hshown]
    exact upper.next _ e' e'' inv' (lower.enabled s e e' inv enabled hshown) hshown'
  hidden := by
    rintro s e ⟨inv, inv'⟩ enabled neither
    cases hshown : shown s e with
    | none => rw [lower.hidden s e inv enabled hshown]
    | some e' =>
      rw [hshown, Option.bind_some] at neither
      rw [lower.next s e e' inv enabled hshown]
      exact upper.hidden _ e' inv' (lower.enabled s e e' inv enabled hshown) neither

/-- A relation between the states of two machines that every step keeps: what is
shown is a step of the other machine, what is hidden leaves its state alone. -/
structure Simulates (C : Machine S E) (A : Machine S' E') (R : S → S' → Prop)
    (shown : S → E → Option E') : Prop where
  follows : ∀ s a e e', R s a → C.Enabled s e → shown s e = some e' →
    A.Enabled a e' ∧ R (C.next s e) (A.next a e')
  stays : ∀ s a e, R s a → C.Enabled s e → shown s e = none → R (C.next s e) a

/-- The shown events of a run are those of a run of the other machine, and what is
observed of related steps is observed of both runs. -/
theorem Simulates.run_observed {O : Type*} (observe : S → E → O) (observe' : S' → E' → O)
    {R : S → S' → Prop} (simulates : Simulates C A R shown)
    (agree : ∀ s a e e', R s a → C.Enabled s e → shown s e = some e' →
      observe' a e' = observe s e)
    (initial : ∀ s, start s → ∃ a, start' a ∧ R s a) {h : List (S × E)} {s : S}
    (run : Run C start h s) :
    ∃ g a, Run A start' g a ∧ R s a ∧
      g.map (fun m => (m.2, observe' m.1 m.2)) =
        h.filterMap fun m => (shown m.1 m.2).map fun e' => (e', observe m.1 m.2) := by
  induction run with
  | init hs =>
    obtain ⟨a, started, related⟩ := initial _ hs
    exact ⟨[], a, .init started, related, rfl⟩
  | @step h s e run enabled ih =>
    obtain ⟨g, a, abstract, related, events⟩ := ih
    cases hshown : shown s e with
    | none =>
      refine ⟨g, a, abstract, simulates.stays s a e related enabled hshown, ?_⟩
      rw [List.filterMap_cons, hshown, events, Option.map_none]
    | some e' =>
      obtain ⟨enabled', related'⟩ := simulates.follows s a e e' related enabled hshown
      refine ⟨_, _, abstract.step enabled', related', ?_⟩
      rw [List.filterMap_cons, hshown, List.map_cons, events, Option.map_some,
        agree s a e e' related enabled hshown]

theorem Simulates.run {R : S → S' → Prop} (simulates : Simulates C A R shown)
    (initial : ∀ s, start s → ∃ a, start' a ∧ R s a) {h : List (S × E)} {s : S}
    (run : Run C start h s) :
    ∃ g a, Run A start' g a ∧ R s a ∧
      g.map Prod.snd = h.filterMap fun m => shown m.1 m.2 := by
  obtain ⟨g, a, abstract, related, pairs⟩ := simulates.run_observed (fun _ _ => ())
    (fun _ _ => ()) (fun _ _ _ _ _ _ _ => rfl) initial run
  have events := congrArg (List.map Prod.fst) pairs
  rw [List.map_map, List.map_filterMap] at events
  refine ⟨g, a, abstract, related, events.trans ?_⟩
  simp only [Option.map_map, Function.comp_def, Option.map_id']

end Simulations
