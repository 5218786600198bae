import Mathlib.Logic.Relation

/-!
# Waiting cycles and lock orders

Threads wait for mutexes and for the end of other threads. If the mutexes are
ranked, a thread waits only for one above all that it holds, and a thread that
joins holds none and is not joined, then there is no cycle of waiting threads.
-/

namespace LockOrder

universe u v

inductive Wait (Thread : Type u) (Lock : Type v) where
  | lock (l : Lock)
  | finish (t : Thread)

/-- Who holds which mutex, and what each thread is blocked on. -/
structure Snapshot (Thread : Type u) (Lock : Type v) where
  holds : Thread → Lock → Prop
  waits : Thread → Option (Wait Thread Lock)

variable {Thread : Type u} {Lock : Type v}

/-- The first thread waits for a mutex that the second one holds, or for its end. -/
def WaitsFor (s : Snapshot Thread Lock) (t u : Thread) : Prop :=
  match s.waits t with
  | none => False
  | some (.lock l) => s.holds u l
  | some (.finish v) => u = v

def Deadlocked (s : Snapshot Thread Lock) : Prop := ∃ t, Relation.TransGen (WaitsFor s) t t

structure Ranked (rank : Lock → Nat) (s : Snapshot Thread Lock) : Prop where
  upward : ∀ t l l', s.waits t = some (.lock l) → s.holds t l' → rank l' < rank l
  joinerHolds : ∀ t v l, s.waits t = some (.finish v) → ¬ s.holds t l
  joinerEnds : ∀ t v u, s.waits t = some (.finish v) → s.waits u ≠ some (.finish t)

variable {rank : Lock → Nat} {s : Snapshot Thread Lock}

theorem not_waitsFor {t u : Thread} (ht : s.waits t = none) : ¬ WaitsFor s t u := by
  simp only [WaitsFor, ht, not_false_eq_true]

theorem waitsFor_lock {t u : Thread} {l : Lock} (ht : s.waits t = some (.lock l)) :
    WaitsFor s t u ↔ s.holds u l := by
  simp only [WaitsFor, ht]

theorem waitsFor_finish {t u v : Thread} (ht : s.waits t = some (.finish v)) :
    WaitsFor s t u ↔ u = v := by
  simp only [WaitsFor, ht]

/-- Nobody waits for a thread that joins another one. -/
theorem Ranked.joiner_free (ranked : Ranked rank s) {t u v : Thread}
    (joins : s.waits t = some (.finish v)) : ¬ WaitsFor s u t := by
  intro edge
  cases hu : s.waits u with
  | none => exact not_waitsFor hu edge
  | some wait =>
    cases wait with
    | lock l => exact ranked.joinerHolds t v l joins ((waitsFor_lock hu).mp edge)
    | finish w =>
      obtain rfl := (waitsFor_finish hu).mp edge
      exact ranked.joinerEnds t v u joins hu

/-- Along a path of waiting threads the ranks of the awaited mutexes go up. -/
theorem Ranked.path_upward (ranked : Ranked rank s) {t u : Thread}
    (path : Relation.TransGen (WaitsFor s) t u) {l l' : Lock} (ht : s.waits t = some (.lock l))
    (hu : s.waits u = some (.lock l')) : rank l < rank l' := by
  induction path generalizing l' with
  | single edge => exact ranked.upward _ l' l hu ((waitsFor_lock ht).mp edge)
  | @tail b c path edge ih =>
    cases hb : s.waits b with
    | none => exact absurd edge (not_waitsFor hb)
    | some wait =>
      cases wait with
      | lock k =>
        have last : rank k < rank l' := ranked.upward c l' k hu ((waitsFor_lock hb).mp edge)
        exact Nat.lt_trans (ih hb) last
      | finish v =>
        obtain ⟨a, _, into⟩ := Relation.TransGen.tail'_iff.mp path
        exact absurd into (ranked.joiner_free hb)

theorem Ranked.not_deadlocked (ranked : Ranked rank s) : ¬ Deadlocked s := by
  rintro ⟨t, cycle⟩
  cases ht : s.waits t with
  | none =>
    obtain ⟨b, edge, _⟩ := Relation.TransGen.head'_iff.mp cycle
    exact not_waitsFor ht edge
  | some wait =>
    cases wait with
    | lock l => exact Nat.lt_irrefl _ (ranked.path_upward cycle ht ht)
    | finish v =>
      obtain ⟨b, _, edge⟩ := Relation.TransGen.tail'_iff.mp cycle
      exact ranked.joiner_free ht edge

end LockOrder
