import MoneroRandomXMiner.HexText
import MoneroRandomXMiner.JsonObjects

/-!
# The statistics as text

The native library prints what it knows of the running miner into a buffer of
256 bytes. The page parses the text, and the notification of the service takes
the hashrate from it with a regular expression. Both find the numbers that
were printed.
-/

namespace StatsText

open JsonSyntax JsonFields JsonObjects HexText

/-- What a buffer of `size` bytes holds of a printed text, the null byte apart. -/
def snprintf (size : Nat) (text : Bytes) : Bytes := text.take (size - 1)

/-- What the running miner is asked for, the hashrate in hundredths as it is printed. -/
structure Readings where
  hundredths : Nat
  accepted : UInt64
  rejected : UInt64
  deriving DecidableEq

def MainActivity_nativeGetStats : Option Readings → Bytes
  | some r =>
    snprintf 256 (lit "\x7b\"hashrate\":" ++ fixed2 r.hundredths ++ lit ",\"accepted\":" ++
      decimal r.accepted.toNat ++ lit ",\"rejected\":" ++ decimal r.rejected.toNat ++ lit "\x7d")
  | none => snprintf 256 (lit "\x7b\"hashrate\":0,\"accepted\":0,\"rejected\":0\x7d")

def MinerService_nativeGetStats : Option Readings → Bytes
  | some r =>
    snprintf 256 (lit "\x7b\"status\":\"running\",\"hashrate\":" ++ fixed2 r.hundredths ++
      lit ",\"accepted\":" ++ decimal r.accepted.toNat ++ lit ",\"rejected\":" ++
      decimal r.rejected.toNat ++ lit "\x7d")
  | none => lit "\x7b\"status\":\"stopped\",\"hashrate\":0,\"accepted\":0,\"rejected\":0\x7d"

/-- `\d+\.?\d*` at the front of a text, which takes what it can. -/
def group (text : Bytes) : Option Bytes :=
  if text.takeWhile isDigit = [] then none
  else
    match text.dropWhile isDigit with
    | [] => some (text.takeWhile isDigit)
    | c :: rest =>
      if c = 46 then some (text.takeWhile isDigit ++ 46 :: rest.takeWhile isDigit)
      else some (text.takeWhile isDigit)

/-- The group of the first match of `"hashrate":(\d+\.?\d*)`. -/
def findHashrate : Bytes → Option Bytes
  | [] => none
  | c :: text =>
    if lit "\"hashrate\":" <+: c :: text then
      match group (text.drop 10) with
      | some digits => some digits
      | none => findHashrate text
    else findHashrate text

/-- The members that are printed, and their values. -/
def counts (r : Readings) : List Member :=
  [⟨lit "hashrate", fixed2 r.hundredths, _, by decide, spells_fixed2 _⟩,
    ⟨lit "accepted", decimal r.accepted.toNat, _, by decide, spells_decimal _⟩,
    ⟨lit "rejected", decimal r.rejected.toNat, _, by decide, spells_decimal _⟩]

def running : Member :=
  ⟨lit "status", 34 :: lit "running" ++ [34], _, by decide,
    spells_string (s := lit "running") (by decide)⟩

/-- A text that fits is printed whole. -/
theorem snprintf_of_lt {size : Nat} {text : Bytes} (fits : text.length < size) :
    snprintf size text = text := List.take_of_length_le (by omega)

theorem length_counts {r : Readings} (rate : r.hundredths ≤ 1000 * 2 ^ 64) :
    (writeMembers (counts r)).length ≤ 100 := by
  have hashrate : (fixed2 r.hundredths).length ≤ 24 :=
    length_fixed2_le (k := 21) (by decide) (by omega)
  have accepted : (decimal r.accepted.toNat).length ≤ 20 :=
    length_decimal_le (by decide) (Nat.lt_trans r.accepted.toNat_lt (by decide))
  have rejected : (decimal r.rejected.toNat).length ≤ 20 :=
    length_decimal_le (by decide) (Nat.lt_trans r.rejected.toNat_lt (by decide))
  have names : (lit "hashrate").length = 8 ∧ (lit "accepted").length = 8 ∧
      (lit "rejected").length = 8 := by decide
  simp only [counts, writeMembers, Member.text, List.length_append, List.length_cons, names]
  omega

/-- What the activity prints is an object of the three members. -/
theorem activity_text {r : Readings} (rate : r.hundredths ≤ 1000 * 2 ^ 64) :
    MainActivity_nativeGetStats (some r) = writeObject (counts r) := by
  have first : lit "\x7b\"hashrate\":" = 123 :: 34 :: lit "hashrate" ++ [34, 58] := by decide
  have second : lit ",\"accepted\":" = 44 :: 34 :: lit "accepted" ++ [34, 58] := by decide
  have third : lit ",\"rejected\":" = 44 :: 34 :: lit "rejected" ++ [34, 58] := by decide
  have last : lit "\x7d" = [125] := by decide
  have whole : lit "\x7b\"hashrate\":" ++ fixed2 r.hundredths ++ lit ",\"accepted\":" ++
      decimal r.accepted.toNat ++ lit ",\"rejected\":" ++ decimal r.rejected.toNat ++
        lit "\x7d" = writeObject (counts r) := by
    simp [writeObject, writeMembers, counts, Member.text, first, second, third, last]
  have short := length_counts rate
  rw [MainActivity_nativeGetStats, whole, snprintf_of_lt]
  rw [writeObject, List.length_append, List.length_cons, List.length_singleton]
  omega

theorem service_text {r : Readings} (rate : r.hundredths ≤ 1000 * 2 ^ 64) :
    MinerService_nativeGetStats (some r) = writeObject (running :: counts r) := by
  have first : lit "\x7b\"status\":\"running\",\"hashrate\":" =
      123 :: running.text ++ 44 :: 34 :: lit "hashrate" ++ [34, 58] := by decide
  have second : lit ",\"accepted\":" = 44 :: 34 :: lit "accepted" ++ [34, 58] := by decide
  have third : lit ",\"rejected\":" = 44 :: 34 :: lit "rejected" ++ [34, 58] := by decide
  have last : lit "\x7d" = [125] := by decide
  have whole : lit "\x7b\"status\":\"running\",\"hashrate\":" ++ fixed2 r.hundredths ++
      lit ",\"accepted\":" ++ decimal r.accepted.toNat ++ lit ",\"rejected\":" ++
      decimal r.rejected.toNat ++ lit "\x7d" = writeObject (running :: counts r) := by
    simp [writeObject, writeMembers, counts, Member.text, first, second, third, last]
  have short := length_counts rate
  have status : running.text.length = 18 := by decide
  rw [MinerService_nativeGetStats, whole, snprintf_of_lt]
  rw [writeObject, List.length_append, List.length_cons, List.length_singleton]
  change (running.text ++ 44 :: writeMembers (counts r)).length + 1 + 1 < 256
  rw [List.length_append, List.length_cons, status]
  omega

theorem group_fixed2 (h : Nat) (rest : Bytes) :
    group (fixed2 h ++ 44 :: rest) = some (fixed2 h) := by
  have text : fixed2 h ++ 44 :: rest =
      decimal (h / 100) ++ 46 :: (twoDigits (h % 100) ++ 44 :: rest) := by simp [fixed2]
  have digits : ∀ c ∈ decimal (h / 100), isDigit c := fun c hc => isDigit_decimal hc
  have whole : (fixed2 h ++ 44 :: rest).takeWhile isDigit = decimal (h / 100) := by
    rw [text, List.takeWhile_append_of_pos digits, List.takeWhile_cons_of_neg (by decide),
      List.append_nil]
  have point : (fixed2 h ++ 44 :: rest).dropWhile isDigit =
      46 :: (twoDigits (h % 100) ++ 44 :: rest) := by
    rw [text, List.dropWhile_append_of_pos digits, List.dropWhile_cons_of_neg (by decide)]
  have decimals : (twoDigits (h % 100) ++ 44 :: rest).takeWhile isDigit = twoDigits (h % 100) := by
    rw [List.takeWhile_append_of_pos (isDigit_twoDigits _ (Nat.mod_lt h (by decide))),
      List.takeWhile_cons_of_neg (by decide), List.append_nil]
  have nonempty : decimal (h / 100) ≠ [] := by
    intro empty
    have spelled := isNumber_decimal (h / 100)
    rw [empty] at spelled
    cases spelled
  rw [group, whole, point, if_neg nonempty]
  simp only [if_pos, decimals]
  rfl

/-- The only match in the text of the service stands where the hashrate is printed. -/
theorem findHashrate_service {r : Readings} (rate : r.hundredths ≤ 1000 * 2 ^ 64) :
    findHashrate (MinerService_nativeGetStats (some r)) = some (fixed2 r.hundredths) := by
  have pattern : lit "\"hashrate\":" = [34, 104, 97, 115, 104, 114, 97, 116, 101, 34, 58] := by
    decide
  obtain ⟨rest, text⟩ : ∃ rest, writeObject (running :: counts r) =
      123 :: running.text ++ 44 :: lit "\"hashrate\":" ++ (fixed2 r.hundredths ++ 44 :: rest) := by
    have name : lit "\"hashrate\":" = 34 :: lit "hashrate" ++ [34, 58] := by decide
    refine ⟨writeMembers (counts r).tail ++ [125], ?_⟩
    simp [writeObject, writeMembers, counts, Member.text, name]
  have status : running.text = [34, 115, 116, 97, 116, 117, 115, 34, 58, 34, 114, 117, 110, 110,
      105, 110, 103, 34] := by decide
  rw [service_text rate, text, status, pattern]
  simp [findHashrate, pattern, List.cons_prefix_cons, group_fixed2]

/-- A member of a parsed object; of two with one name the later counts. -/
def member (name : Bytes) : Value → Option Value
  | .object ms => (ms.reverse.find? fun m => m.1 = name).map fun m => m.2
  | _ => none

def digitsOf : Value → Option Bytes
  | .number digits => some digits
  | _ => none

/-- The readings that a parsed text tells. -/
def tells (v : Value) : Option Readings :=
  ((member (lit "hashrate") v).bind digitsOf).bind fun hashrate =>
    ((member (lit "accepted") v).bind digitsOf).bind fun accepted =>
      ((member (lit "rejected") v).bind digitsOf).map fun rejected =>
        ⟨digitsValue (hashrate.filter isDigit), UInt64.ofNat (digitsValue accepted),
          UInt64.ofNat (digitsValue rejected)⟩

/-- Without a miner all three are zero. -/
def reported (r : Option Readings) : Readings := r.getD ⟨0, 0, 0⟩

def printedRate : Option Readings → Bytes
  | some r => fixed2 r.hundredths
  | none => lit "0"

/-- The members of the text of the activity, as they are printed. -/
def printed (r : Option Readings) : List (Bytes × Value) :=
  [(lit "hashrate", .number (printedRate r)),
    (lit "accepted", .number (decimal (reported r).accepted.toNat)),
    (lit "rejected", .number (decimal (reported r).rejected.toNat))]

def status (r : Option Readings) : Bytes := if r.isSome then lit "running" else lit "stopped"

/-- The service prints the status in front of them. -/
def printedWithStatus (r : Option Readings) : List (Bytes × Value) :=
  (lit "status", .string (status r)) :: printed r

/-- No text fills its buffer, so that none is cut. Both are parsed to objects of the
members printed, which tell the readings, and the notification finds the hashrate. -/
structure ReadBack (r : Option Readings) : Prop where
  fits : (MainActivity_nativeGetStats r).length < 255 ∧ (MinerService_nativeGetStats r).length < 255
  activity : parse (MainActivity_nativeGetStats r) = some (.object (printed r)) ∧
    tells (.object (printed r)) = some (reported r)
  service : parse (MinerService_nativeGetStats r) = some (.object (printedWithStatus r)) ∧
    tells (.object (printedWithStatus r)) = some (reported r)
  notification : findHashrate (MinerService_nativeGetStats r) = some (printedRate r) ∧
    digitsValue ((printedRate r).filter isDigit) = (reported r).hundredths

theorem tells_counts {r : Readings} {ms : List (Bytes × Value)}
    (told : ∀ name ∈ [lit "hashrate", lit "accepted", lit "rejected"],
      member name (.object ms) = member name (.object (memberValues (counts r)))) :
    tells (.object ms) = some r := by
  have distinct : lit "accepted" ≠ lit "hashrate" ∧ lit "rejected" ≠ lit "hashrate" ∧
      lit "rejected" ≠ lit "accepted" := by decide
  obtain ⟨accepted, rejected, other⟩ := distinct
  have first := told _ List.mem_cons_self
  have second := told _ (List.mem_cons_of_mem _ List.mem_cons_self)
  have third := told _ (List.mem_cons_of_mem _ (List.mem_cons_of_mem _ List.mem_cons_self))
  rw [tells, first, second, third]
  simp [member, memberValues, counts, digitsOf, accepted, rejected, other, digitsValue_decimal,
    digitsValue_fixed2]

theorem parse_activity {r : Readings} (rate : r.hundredths ≤ 1000 * 2 ^ 64) :
    parse (MainActivity_nativeGetStats (some r)) = some (.object (memberValues (counts r))) := by
  rw [activity_text rate]
  exact parse_writeObject (List.cons_ne_nil _ _)

theorem parse_service {r : Readings} (rate : r.hundredths ≤ 1000 * 2 ^ 64) :
    parse (MinerService_nativeGetStats (some r)) =
      some (.object (memberValues (running :: counts r))) := by
  rw [service_text rate]
  exact parse_writeObject (List.cons_ne_nil _ _)

/-- The status is none of the other members. -/
theorem member_running (r : Readings) {name : Bytes}
    (among : name ∈ [lit "hashrate", lit "accepted", lit "rejected"]) :
    member name (.object (memberValues (running :: counts r))) =
      member name (.object (memberValues (counts r))) := by
  have other : ∀ name ∈ [lit "hashrate", lit "accepted", lit "rejected"],
      lit "status" ≠ name := by decide
  have skipped : [(running.name, running.value)].find? (fun m => m.1 = name) = none := by
    simp [running, other name among]
  have reversed : (memberValues (running :: counts r)).reverse =
      (memberValues (counts r)).reverse ++ [(running.name, running.value)] := by
    simp [memberValues]
  simp only [member]
  rw [reversed, List.find?_append, skipped, Option.or_none]

theorem readBack_stopped : ReadBack none where
  fits := by decide +kernel
  activity := ⟨rfl, by decide +kernel⟩
  service := ⟨rfl, by decide +kernel⟩
  notification := by decide +kernel

/-- The hashrate is the hashes over more than a tenth of a second, so that no
readings fill the buffer. -/
theorem stats_read {r : Option Readings} (rate : ∀ q ∈ r, q.hundredths ≤ 1000 * 2 ^ 64) :
    ReadBack r := by
  cases r with
  | none => exact readBack_stopped
  | some r =>
    have rate := rate r rfl
    constructor
    · have short := length_counts rate
      have status : running.text.length = 18 := by decide
      rw [activity_text rate, service_text rate, writeObject, writeObject]
      change (123 :: writeMembers (counts r) ++ [125]).length < 255 ∧
        (123 :: (running.text ++ 44 :: writeMembers (counts r)) ++ [125]).length < 255
      simp only [List.length_append, List.length_cons, List.length_nil, status]
      omega
    · exact ⟨parse_activity rate, tells_counts fun _ _ => rfl⟩
    · exact ⟨parse_service rate, tells_counts fun _ among => member_running r among⟩
    · exact ⟨findHashrate_service rate, digitsValue_fixed2 r.hundredths⟩

theorem stats_read_running : ReadBack (some ⟨12345, 3, 18446744073709551615⟩) := by
  apply stats_read
  rintro q ⟨⟩
  decide

end StatsText
