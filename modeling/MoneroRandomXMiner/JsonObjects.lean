import Mathlib.Algebra.Ring.Nat
import Mathlib.Data.List.Basic
import MoneroRandomXMiner.JsonFields

/-!
# An object of scalars, written and read back

Members are written one behind the other, each value as it is spelled. A
spelling that is read as its value whatever stands behind it is a field of the
member, so that every such object is read back as it was meant. Printed numbers
are spellings, and their digits give the number back.
-/

namespace JsonObjects

open JsonSyntax JsonFields

/-- A spelling that is read as one value, unless a number goes on behind it. -/
def Spells (spelling : Bytes) (v : Value) : Prop :=
  ∀ n stop rest, isNumberByte stop = false →
    value (n + 1) (spelling ++ stop :: rest) = some (v, stop :: rest)

structure Member where
  name : Bytes
  spelling : Bytes
  value : Value
  plain : Plain name
  spells : Spells spelling value

def Member.text (m : Member) : Bytes := 34 :: m.name ++ 34 :: 58 :: m.spelling

def writeMembers : List Member → Bytes
  | [] => []
  | [m] => m.text
  | m :: k :: rest => m.text ++ 44 :: writeMembers (k :: rest)

def writeObject (ms : List Member) : Bytes := 123 :: writeMembers ms ++ [125]

def memberValues (ms : List Member) : List (Bytes × Value) := ms.map fun m => (m.name, m.value)

theorem spells_string {s : Bytes} (plain : Plain s) : Spells (34 :: s ++ [34]) (.string s) := by
  intro n stop rest _
  have text : 34 :: s ++ [34] ++ stop :: rest = 34 :: (s ++ 34 :: stop :: rest) := by simp
  rw [text, value_string, string_plain plain, Option.map_some]

theorem spells_number {digits : Bytes} (spelled : isNumber digits)
    (bytes : ∀ c ∈ digits, isNumberByte c) : Spells digits (.number digits) :=
  fun n _ rest stops => value_number spelled bytes stops n rest

theorem members_text (m : Member) (n : Nat) {stop : UInt8} (stops : isNumberByte stop = false)
    (rest : Bytes) :
    members (n + 2) (m.text ++ stop :: rest) =
      endOr 125 (fun text => members (n + 1) text) (m.name, m.value) (stop :: rest) := by
  have text : m.text ++ stop :: rest =
      34 :: m.name ++ 34 :: 58 :: (m.spelling ++ stop :: rest) := by simp [Member.text]
  rw [text, members_value m.plain, m.spells n stop rest stops, Option.bind_some]

theorem members_writeMembers {ms : List Member} (nonempty : ms ≠ []) {n : Nat}
    (enough : ms.length < n) (rest : Bytes) :
    members n (writeMembers ms ++ 125 :: rest) = some (memberValues ms, rest) := by
  induction ms using writeMembers.induct generalizing n with
  | case1 => exact absurd rfl nonempty
  | case2 m =>
    obtain ⟨n, rfl⟩ : ∃ k, n = k + 2 := ⟨n - 2, by simp at enough; omega⟩
    rw [writeMembers, members_text m n rfl, endOr_close rfl]
    rfl
  | case3 m k ms ih =>
    obtain ⟨n, rfl⟩ : ∃ k, n = k + 2 := ⟨n - 2, by simp at enough; omega⟩
    have tail := ih (List.cons_ne_nil _ _) (n := n + 1) (Nat.lt_of_succ_lt_succ enough)
    rw [writeMembers, List.append_assoc, List.cons_append, members_text m n rfl,
      endOr_comma (by decide), tail]
    rfl

theorem writeMembers_cons (m : Member) (ms : List Member) :
    ∃ text, writeMembers (m :: ms) = 34 :: text := by
  cases ms with
  | nil => exact ⟨_, rfl⟩
  | cons k ms => exact ⟨_, rfl⟩

theorem value_writeObject {ms : List Member} (nonempty : ms ≠ []) {n : Nat}
    (enough : ms.length < n) : value (n + 1) (writeObject ms) =
      some (.object (memberValues ms), []) := by
  obtain ⟨text, quoted⟩ : ∃ text, writeMembers ms = 34 :: text := by
    cases ms with
    | nil => exact absurd rfl nonempty
    | cons m ms => exact writeMembers_cons m ms
  have inner := members_writeMembers nonempty enough []
  rw [quoted, List.cons_append] at inner
  rw [writeObject, quoted, List.cons_append, List.cons_append, value_object, inner,
    Option.map_some]

/-- The round trip: what was written is read back, member by member. -/
theorem parse_writeObject {ms : List Member} (nonempty : ms ≠ []) :
    parse (writeObject ms) = some (.object (memberValues ms)) := by
  have fuel : 2 * (writeObject ms).length < 2 * (writeObject ms).length + ms.length + 1 + 1 := by
    omega
  rw [parse_eq fuel, value_writeObject nonempty (by omega)]
  rfl

/-- The number that a row of digits stands for. -/
def digitsValue (digits : Bytes) : Nat := digits.foldl (fun n c => 10 * n + (c.toNat - 48)) 0

theorem toUInt8_toNat {c : Char} (digit : c.isDigit) : c.toUInt8.toNat = c.toNat := by
  simp only [Char.isDigit, Bool.and_eq_true, decide_eq_true_eq, ge_iff_le,
    UInt32.le_iff_toNat_le] at digit
  have high : '9'.val.toNat = 57 := rfl
  rw [Char.toUInt8, UInt32.toNat_toUInt8]
  exact Nat.mod_eq_of_lt (by omega)

/-- The digits of a printed number give it back. -/
theorem digitsValue_decimal (n : Nat) : digitsValue (decimal n) = n := by
  calc
    digitsValue (decimal n) = Nat.ofDigitChars 10 (Nat.toDigits 10 n) 0 := by
      rw [digitsValue, decimal, List.foldl_map, Nat.ofDigitChars_eq_foldl]
      apply List.foldl_ext
      intro m c hc
      rw [toUInt8_toNat (Nat.isDigit_of_mem_toDigits (by decide) (by decide) hc)]
      rfl
    _ = n := Nat.ofDigitChars_toDigits (by decide) (by decide)

theorem digitsValue_append (left right : Bytes) :
    digitsValue (left ++ right) =
      right.foldl (fun n c => 10 * n + (c.toNat - 48)) (digitsValue left) := by
  rw [digitsValue, List.foldl_append, digitsValue]

theorem spells_decimal (n : Nat) : Spells (decimal n) (.number (decimal n)) :=
  spells_number (isNumber_decimal n) fun c hc => by simp [isNumberByte, isDigit_decimal hc]

theorem length_decimal_le {n k : Nat} (positive : 0 < k) (small : n < 10 ^ k) :
    (decimal n).length ≤ k := by
  rw [decimal, List.length_map]
  exact (Nat.length_toDigits_le_iff (by decide) positive).mpr small

/-- Two digits of a number below one hundred. -/
def twoDigits (n : Nat) : Bytes := [(48 + n / 10).toUInt8, (48 + n % 10).toUInt8]

/-- A number of hundredths, printed with its two decimals. -/
def fixed2 (hundredths : Nat) : Bytes :=
  decimal (hundredths / 100) ++ 46 :: twoDigits (hundredths % 100)

theorem isDigit_twoDigits : ∀ n < 100, ∀ c ∈ twoDigits n, isDigit c := by decide +kernel

theorem isFraction_decimals {n : Nat} (small : n < 100) : isFraction (46 :: twoDigits n) := by
  have digits := isDigit_twoDigits n small
  have front : (twoDigits n).takeWhile isDigit = twoDigits n :=
    List.takeWhile_eq_self_iff.mpr digits
  have rest : (twoDigits n).dropWhile isDigit = [] := List.dropWhile_eq_nil_iff.mpr digits
  rw [isFraction, if_pos rfl, front, rest]
  rfl

theorem isNumber_fixed2 (h : Nat) : isNumber (fixed2 h) := by
  have fraction := isFraction_decimals (Nat.mod_lt h (by decide : 0 < 100))
  rw [fixed2]
  rcases Nat.eq_zero_or_pos (h / 100) with zero | positive
  · rw [zero]
    exact fraction
  · obtain ⟨d, ds, written, nonzero⟩ := decimal_head positive
    have digits : ∀ c ∈ d :: ds, isDigit c := fun c hc => isDigit_decimal (written ▸ hc)
    have digit := digits d List.mem_cons_self
    have unsigned : d ≠ 45 := by
      rintro rfl
      exact absurd digit (by decide)
    have rest : (ds ++ 46 :: twoDigits (h % 100)).dropWhile isDigit =
        46 :: twoDigits (h % 100) := by
      rw [List.dropWhile_append_of_pos fun c hc => digits c (List.mem_cons_of_mem _ hc),
        List.dropWhile_cons_of_neg (by decide)]
    rw [written, List.cons_append, isNumber, if_neg unsigned, isUnsigned, if_neg nonzero, digit,
      rest, fraction]
    rfl

theorem spells_fixed2 (h : Nat) : Spells (fixed2 h) (.number (fixed2 h)) := by
  refine spells_number (isNumber_fixed2 h) fun c hc => ?_
  rcases List.mem_append.mp hc with whole | decimals
  · simp [isNumberByte, isDigit_decimal whole]
  · rcases List.mem_cons.mp decimals with rfl | decimal
    · rfl
    · simp [isNumberByte, isDigit_twoDigits _ (Nat.mod_lt h (by decide)) c decimal]

theorem length_fixed2_le {h k : Nat} (positive : 0 < k) (small : h / 100 < 10 ^ k) :
    (fixed2 h).length ≤ k + 3 := by
  rw [fixed2, List.length_append]
  exact Nat.add_le_add_right (length_decimal_le positive small) 3

theorem twoDigits_value : ∀ n < 100, ∀ m,
    (twoDigits n).foldl (fun n c => 10 * n + (c.toNat - 48)) m = 100 * m + n := by
  intro n small m
  have tens : ((48 + n / 10).toUInt8).toNat = 48 + n / 10 := by
    rw [Nat.toUInt8, UInt8.toNat_ofNat']
    omega
  have ones : ((48 + n % 10).toUInt8).toNat = 48 + n % 10 := by
    rw [Nat.toUInt8, UInt8.toNat_ofNat']
    omega
  simp only [twoDigits, List.foldl_cons, List.foldl_nil, tens, ones]
  omega

/-- Without its point, a number with two decimals gives its hundredths back. -/
theorem digitsValue_fixed2 (h : Nat) : digitsValue ((fixed2 h).filter isDigit) = h := by
  have whole : (decimal (h / 100)).filter isDigit = decimal (h / 100) :=
    List.filter_eq_self.mpr fun c hc => isDigit_decimal hc
  have small : h % 100 < 100 := Nat.mod_lt _ (by decide)
  have decimals : (twoDigits (h % 100)).filter isDigit = twoDigits (h % 100) :=
    List.filter_eq_self.mpr fun c hc => isDigit_twoDigits _ small c hc
  rw [fixed2, List.filter_append, whole, List.filter_cons_of_neg (by decide), decimals,
    digitsValue_append, digitsValue_decimal, twoDigits_value _ small]
  omega

end JsonObjects
