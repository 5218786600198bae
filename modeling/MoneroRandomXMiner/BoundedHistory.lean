import Mathlib.Data.List.Basic
import Mathlib.Data.List.DropRight
import Mathlib.Data.List.Induction

/-!
# A history that is trimmed by one entry at a time

New entries go to the end. When the list is then longer than the limit in force,
one entry goes at the front. With a limit that may change between two insertions
the list can stay above it; how long it gets is a matter of the limits alone.
-/

namespace BoundedHistory

variable {α : Type*}

/-- Append an entry and drop the oldest one when the list is above the limit. -/
def insertTrim (recent : List α) (insertion : Nat × α) : List α :=
  if (recent ++ [insertion.2]).length > insertion.1 then (recent ++ [insertion.2]).tail
  else recent ++ [insertion.2]

/-- The list after insertions, each with the limit in force at it. -/
def kept (insertions : List (Nat × α)) : List α := insertions.foldl insertTrim []

/-- At most `limit` entries are in the list after insertions under these limits:
so few were made in all, or an earlier one left room for those made since. -/
def Roomy (limits : List Nat) (limit : Nat) : Prop :=
  limits.length ≤ limit ∨
    ∃ before m since, limits = before ++ m :: since ∧ m + since.length ≤ limit

/-- A property of every element of a list with the elements before it. -/
def AtEach (P : List α → α → Prop) (l : List α) : Prop :=
  ∀ before x, before ++ [x] <+: l → P before x

theorem atEach_nil (P : List α → α → Prop) : AtEach P [] := by
  intro before x initial
  simp at initial

theorem atEach_concat {P : List α → α → Prop} {l : List α} {x : α} :
    AtEach P (l ++ [x]) ↔ AtEach P l ∧ P l x := by
  constructor
  · intro all
    constructor
    · intro before y initial
      exact all before y (initial.trans (List.prefix_append l [x]))
    · exact all l x (List.prefix_refl _)
  · rintro ⟨all, last⟩ before y initial
    rcases List.prefix_concat_iff.mp initial with whole | inner
    · obtain ⟨rfl, same⟩ := List.append_inj' whole rfl
      cases same
      exact last
    · exact all before y inner

theorem length_insertTrim (recent : List α) (limit : Nat) (x : α) :
    (insertTrim recent (limit, x)).length =
      if recent.length + 1 > limit then recent.length else recent.length + 1 := by
  rw [insertTrim]
  split <;> simp_all

theorem insertTrim_suffix (recent : List α) (insertion : Nat × α) :
    insertTrim recent insertion <:+ recent ++ [insertion.2] := by
  rw [insertTrim]
  split
  · exact List.tail_suffix _
  · exact List.suffix_refl _

@[simp] theorem kept_nil : kept ([] : List (Nat × α)) = [] := rfl

@[simp] theorem kept_concat (insertions : List (Nat × α)) (insertion : Nat × α) :
    kept (insertions ++ [insertion]) = insertTrim (kept insertions) insertion := by
  simp [kept]

theorem kept_suffix (insertions : List (Nat × α)) :
    kept insertions <:+ insertions.map Prod.snd := by
  induction insertions using List.reverseRecOn with
  | nil => exact List.suffix_refl _
  | append_singleton insertions insertion ih =>
    rw [kept_concat, List.map_append]
    refine (insertTrim_suffix _ _).trans ?_
    obtain ⟨dropped, hdropped⟩ := ih
    exact ⟨dropped, by rw [← hdropped, List.append_assoc]; rfl⟩

/-- Below a lower bound of the limits nothing is dropped. -/
theorem le_length_kept {least : Nat} {insertions : List (Nat × α)}
    (bound : ∀ insertion ∈ insertions, least ≤ insertion.1) :
    min insertions.length least ≤ (kept insertions).length := by
  induction insertions using List.reverseRecOn with
  | nil => simp
  | append_singleton insertions insertion ih =>
    have hlast : least ≤ insertion.1 := bound insertion (by simp)
    have hlen := ih (fun i hi => bound i (List.mem_append_left _ hi))
    rw [kept_concat, length_insertTrim, List.length_append, List.length_singleton]
    split <;> omega

theorem length_kept_concat_le_iff (insertions : List (Nat × α)) (insertion : Nat × α) :
    (kept (insertions ++ [insertion])).length ≤ insertion.1 ↔
      (kept insertions).length ≤ insertion.1 := by
  rw [kept_concat, length_insertTrim]
  split <;> omega

theorem roomy_concat (limits : List Nat) (m limit : Nat) :
    Roomy (limits ++ [m]) limit ↔ m ≤ limit ∨ 1 ≤ limit ∧ Roomy limits (limit - 1) := by
  constructor
  · rintro (few | ⟨before, m', since, split, room⟩)
    · rw [List.length_append, List.length_singleton] at few
      exact Or.inr ⟨by omega, Or.inl (by omega)⟩
    · rcases List.eq_nil_or_concat since with rfl | ⟨since, last, rfl⟩
      · obtain ⟨-, same⟩ := List.append_inj' split rfl
        cases same
        exact Or.inl room
      · rw [List.concat_eq_append] at split room
        rw [← List.cons_append, ← List.append_assoc] at split
        obtain ⟨hlimits, -⟩ := List.append_inj' split rfl
        rw [List.length_append, List.length_singleton] at room
        exact Or.inr ⟨by omega, Or.inr ⟨before, m', since, hlimits, by omega⟩⟩
  · rintro (last | ⟨positive, few | ⟨before, m', since, rfl, room⟩⟩)
    · exact Or.inr ⟨limits, m, [], rfl, last⟩
    · exact Or.inl (by rw [List.length_append, List.length_singleton]; omega)
    · refine Or.inr ⟨before, m', since ++ [m], by simp, ?_⟩
      rw [List.length_append, List.length_singleton]
      omega

/-- After insertions that each found room, the list is as short as the limits say. -/
theorem length_kept_le_iff {insertions : List (Nat × α)}
    (found : AtEach (fun before i => (kept before).length ≤ i.1) insertions) (limit : Nat) :
    (kept insertions).length ≤ limit ↔ Roomy (insertions.map Prod.fst) limit := by
  induction insertions using List.reverseRecOn generalizing limit with
  | nil => simp [Roomy]
  | append_singleton insertions insertion ih =>
    obtain ⟨earlier, last⟩ := atEach_concat.mp found
    rw [List.map_append, List.map_singleton, roomy_concat, ← ih earlier, kept_concat,
      length_insertTrim]
    split <;> omega

/-- The list is within the limit after every insertion exactly when the limits
leave room at every insertion. -/
theorem bounded_iff (insertions : List (Nat × α)) :
    AtEach (fun before i => (kept (before ++ [i])).length ≤ i.1) insertions ↔
      AtEach (fun before i => Roomy (before.map Prod.fst) i.1) insertions := by
  simp only [length_kept_concat_le_iff]
  induction insertions using List.reverseRecOn with
  | nil => exact iff_of_true (atEach_nil _) (atEach_nil _)
  | append_singleton insertions insertion ih =>
    rw [atEach_concat, atEach_concat, ← ih]
    exact and_congr_right fun found => length_kept_le_iff found insertion.1

end BoundedHistory
