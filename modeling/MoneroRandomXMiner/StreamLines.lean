import Mathlib.Data.List.Basic

/-!
# The lines of a stream

A stream is a list over any alphabet and one letter ends a line. What follows
the last end of a line is the unfinished rest. Both are determined by any
prefix of the stream through the rest of that prefix.
-/

namespace StreamLines

universe u

variable {α : Type u} [BEq α] [LawfulBEq α]

/-- The terminated lines, without their terminators. -/
def completeLines (stop : α) (stream : List α) : List (List α) := (stream.splitOn stop).dropLast

/-- What follows the last terminator. -/
def unfinished (stop : α) (stream : List α) : List α :=
  (stream.splitOn stop).getLast (List.splitOn_ne_nil stop stream)

theorem completeLines_of_not_mem {stop : α} {stream : List α} (free : stop ∉ stream) :
    completeLines stop stream = [] := by
  simp only [completeLines, List.splitOn_eq_singleton free, List.dropLast_singleton]

theorem unfinished_of_not_mem {stop : α} {stream : List α} (free : stop ∉ stream) :
    unfinished stop stream = stream := by
  simp only [unfinished, List.splitOn_eq_singleton free, List.getLast_singleton]

theorem completeLines_line {stop : α} {line : List α} (free : stop ∉ line) (rest : List α) :
    completeLines stop (line ++ stop :: rest) = line :: completeLines stop rest := by
  have hne := List.splitOn_ne_nil stop rest
  simp only [completeLines, List.splitOn_append_cons_self_of_not_mem free]
  exact List.dropLast_cons_of_ne_nil hne

theorem unfinished_line {stop : α} {line : List α} (free : stop ∉ line) (rest : List α) :
    unfinished stop (line ++ stop :: rest) = unfinished stop rest := by
  have hne := List.splitOn_ne_nil stop rest
  simp only [unfinished, List.splitOn_append_cons_self_of_not_mem free]
  exact List.getLast_cons hne

/-- A stream written line by line has the lines that were written. -/
theorem lines_written {stop : α} {lines : List (List α)} {rest : List α}
    (free : ∀ line ∈ lines, stop ∉ line) (tail : stop ∉ rest) :
    completeLines stop (lines.flatMap (· ++ [stop]) ++ rest) = lines ∧
      unfinished stop (lines.flatMap (· ++ [stop]) ++ rest) = rest := by
  induction lines with
  | nil => exact ⟨completeLines_of_not_mem tail, unfinished_of_not_mem tail⟩
  | cons line lines ih =>
    have hline : stop ∉ line := free line List.mem_cons_self
    obtain ⟨hlines, hrest⟩ := ih fun l hl => free l (List.mem_cons_of_mem line hl)
    rw [List.flatMap_cons, List.append_assoc, List.append_assoc, List.singleton_append,
      completeLines_line hline, unfinished_line hline, hlines, hrest]
    exact ⟨rfl, rfl⟩

/-- A stream either has no terminator or starts with a line. -/
theorem first_line (stop : α) (stream : List α) :
    stop ∉ stream ∨ ∃ line rest, stop ∉ line ∧ stream = line ++ stop :: rest := by
  by_cases found : stop ∈ stream
  · obtain ⟨line, rest, rfl, free⟩ := List.eq_append_cons_of_mem found
    exact Or.inr ⟨line, rest, free, rfl⟩
  · exact Or.inl found

/-- Whatever follows extends the unfinished rest, and nothing before it. -/
theorem lines_append (stop : α) (stream more : List α) :
    completeLines stop (stream ++ more) =
        completeLines stop stream ++ completeLines stop (unfinished stop stream ++ more) ∧
      unfinished stop (stream ++ more) = unfinished stop (unfinished stop stream ++ more) := by
  induction h : stream.length using Nat.strongRecOn generalizing stream with
  | ind k ih =>
    rcases first_line stop stream with free | ⟨line, rest, free, rfl⟩
    · rw [completeLines_of_not_mem free, unfinished_of_not_mem free]
      exact ⟨rfl, rfl⟩
    · have shorter : rest.length < k := by
        simp only [List.length_append, List.length_cons] at h
        omega
      obtain ⟨hlines, hrest⟩ := ih rest.length shorter rest rfl
      rw [List.append_assoc, List.cons_append, completeLines_line free, unfinished_line free,
        completeLines_line free, unfinished_line free, hlines, hrest]
      exact ⟨rfl, rfl⟩

theorem not_mem_unfinished (stop : α) (stream : List α) : stop ∉ unfinished stop stream := by
  induction h : stream.length using Nat.strongRecOn generalizing stream with
  | ind k ih =>
    rcases first_line stop stream with free | ⟨line, rest, free, rfl⟩
    · rwa [unfinished_of_not_mem free]
    · have shorter : rest.length < k := by
        simp only [List.length_append, List.length_cons] at h
        omega
      rw [unfinished_line free]
      exact ih rest.length shorter rest rfl

end StreamLines
