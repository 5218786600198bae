import Mathlib.Data.List.TakeWhile

/-!
# Reading JSON text

A text is its bytes. Strings are scanned to their closing quote and then
decoded; numbers keep their spelling, objects the order of their members.
-/

namespace JsonSyntax

abbrev Bytes := List UInt8

inductive Value where
  | null
  | bool (b : Bool)
  | number (digits : Bytes)
  | string (text : Bytes)
  | array (elements : List Value)
  | object (members : List (Bytes × Value))

def isWhite (c : UInt8) : Bool := c == 32 || c == 9 || c == 10 || c == 13

def skipWhite (text : Bytes) : Bytes := text.dropWhile isWhite

/-- One structural character, after white space. -/
def token (c : UInt8) (text : Bytes) : Option Bytes :=
  match skipWhite text with
  | [] => none
  | d :: rest => if d = c then some rest else none

/-- What stands before the next unescaped quote, and what follows that quote. -/
def scan : Bytes → Option (Bytes × Bytes)
  | [] => none
  | c :: text =>
    if c = 34 then some ([], text)
    else if c = 92 then
      match text with
      | [] => none
      | d :: rest => (scan rest).map fun found => (c :: d :: found.1, found.2)
    else if c < 32 then none
    else (scan text).map fun found => (c :: found.1, found.2)

def hexValue (c : UInt8) : Option Nat :=
  if 48 ≤ c ∧ c ≤ 57 then some (c.toNat - 48)
  else if 97 ≤ c ∧ c ≤ 102 then some (c.toNat - 87)
  else if 65 ≤ c ∧ c ≤ 70 then some (c.toNat - 55)
  else none

def codeUnit (a b c d : UInt8) : Option Nat :=
  (hexValue a).bind fun a => (hexValue b).bind fun b => (hexValue c).bind fun c =>
    (hexValue d).map fun d => 4096 * a + 256 * b + 16 * c + d

def codePoint (n : Nat) : Bytes := String.utf8EncodeChar (Char.ofNat n)

/-- The code point of a surrogate pair. -/
def pairPoint (high low : Nat) : Nat := 0x10000 + 0x400 * (high - 0xD800) + (low - 0xDC00)

/-- What the code unit of an escape writes, and the high surrogate left waiting. -/
def surrogates (waiting : Option Nat) (unit : Nat) : Option (Bytes × Option Nat) :=
  match waiting with
  | none =>
    if 0xD800 ≤ unit ∧ unit ≤ 0xDBFF then some ([], some unit)
    else if 0xDC00 ≤ unit ∧ unit ≤ 0xDFFF then none
    else some (codePoint unit, none)
  | some high =>
    if 0xDC00 ≤ unit ∧ unit ≤ 0xDFFF then some (codePoint (pairPoint high unit), none)
    else none

/-- The escapes of one letter. -/
def escape (c : UInt8) : Option UInt8 :=
  if c = 34 ∨ c = 92 ∨ c = 47 then some c
  else if c = 98 then some 8
  else if c = 102 then some 12
  else if c = 110 then some 10
  else if c = 114 then some 13
  else if c = 116 then some 9
  else none

def decode (waiting : Option Nat) : Bytes → Option Bytes
  | [] => if waiting = none then some [] else none
  | c :: text =>
    if c = 92 then
      match text with
      | [] => none
      | e :: rest =>
        if e = 117 then
          match rest with
          | h₁ :: h₂ :: h₃ :: h₄ :: rest =>
            (codeUnit h₁ h₂ h₃ h₄).bind fun unit =>
              (surrogates waiting unit).bind fun out =>
                (decode out.2 rest).map (out.1 ++ ·)
          | _ => none
        else if waiting = none then
          (escape e).bind fun b => (decode none rest).map (b :: ·)
        else none
    else if waiting = none then (decode none text).map (c :: ·)
    else none

/-- A string after its opening quote. -/
def string (text : Bytes) : Option (Bytes × Bytes) :=
  (scan text).bind fun found =>
    if found.1.toByteArray.IsValidUTF8 then
      (decode none found.1).map fun value => (value, found.2)
    else none

def isDigit (c : UInt8) : Bool := 48 ≤ c && c ≤ 57

def isNumberByte (c : UInt8) : Bool :=
  isDigit c || c == 43 || c == 45 || c == 46 || c == 69 || c == 101

def isDigits (text : Bytes) : Bool := !text.isEmpty && text.all isDigit

def isExponent : Bytes → Bool
  | [] => true
  | e :: rest =>
    (e == 69 || e == 101) &&
      match rest with
      | [] => false
      | sign :: digits =>
        if sign = 43 ∨ sign = 45 then isDigits digits else isDigits (sign :: digits)

def isFraction : Bytes → Bool
  | [] => true
  | c :: rest =>
    if c = 46 then
      !(rest.takeWhile isDigit).isEmpty && isExponent (rest.dropWhile isDigit)
    else isExponent (c :: rest)

def isUnsigned : Bytes → Bool
  | [] => false
  | c :: rest =>
    if c = 48 then isFraction rest
    else isDigit c && isFraction (rest.dropWhile isDigit)

def isNumber : Bytes → Bool
  | [] => false
  | c :: rest => if c = 45 then isUnsigned rest else isUnsigned (c :: rest)

def number (text : Bytes) : Option (Value × Bytes) :=
  if isNumber (text.takeWhile isNumberByte) then
    some (.number (text.takeWhile isNumberByte), text.dropWhile isNumberByte)
  else none

/-- One of the three words of the grammar. -/
def word (spelling : Bytes) (v : Value) (text : Bytes) : Option (Value × Bytes) :=
  if spelling <+: text then some (v, text.drop spelling.length) else none

/-- After an item comes the closing bracket, or a comma and the other items. -/
def endOr {α : Type} (close : UInt8) (more : Bytes → Option (List α × Bytes)) (item : α)
    (text : Bytes) : Option (List α × Bytes) :=
  match token close text with
  | some rest => some ([item], rest)
  | none => (token 44 text).bind fun rest =>
    (more rest).map fun found => (item :: found.1, found.2)

/-- The items of a bracket that may be empty. -/
def bracket {α : Type} (close : UInt8) (items : Bytes → Option (List α × Bytes))
    (text : Bytes) : Option (List α × Bytes) :=
  match token close text with
  | some rest => some ([], rest)
  | none => items text

mutual

/-- The fuel goes down along the items of a bracket and into it. -/
def value (fuel : Nat) (text : Bytes) : Option (Value × Bytes) :=
  match fuel with
  | 0 => none
  | fuel + 1 =>
    match skipWhite text with
    | [] => none
    | c :: rest =>
      if c = 34 then (string rest).map fun found => (.string found.1, found.2)
      else if c = 123 then
        (bracket 125 (fun text => members fuel text) rest).map
          fun found => (.object found.1, found.2)
      else if c = 91 then
        (bracket 93 (fun text => elements fuel text) rest).map
          fun found => (.array found.1, found.2)
      else if c = 110 then word [110, 117, 108, 108] .null (c :: rest)
      else if c = 116 then word [116, 114, 117, 101] (.bool true) (c :: rest)
      else if c = 102 then word [102, 97, 108, 115, 101] (.bool false) (c :: rest)
      else number (c :: rest)

def members (fuel : Nat) (text : Bytes) : Option (List (Bytes × Value) × Bytes) :=
  match fuel with
  | 0 => none
  | fuel + 1 =>
    (token 34 text).bind fun rest => (string rest).bind fun name =>
      (token 58 name.2).bind fun rest => (value fuel rest).bind fun item =>
        endOr 125 (fun text => members fuel text) (name.1, item.1) item.2

def elements (fuel : Nat) (text : Bytes) : Option (List Value × Bytes) :=
  match fuel with
  | 0 => none
  | fuel + 1 =>
    (value fuel text).bind fun item =>
      endOr 93 (fun text => elements fuel text) item.1 item.2

end

/-- A whole text: one value, and nothing but white space after it. -/
def parse (text : Bytes) : Option Value :=
  (value (2 * text.length + 1) text).bind fun found =>
    if skipWhite found.2 = [] then some found.1 else none

theorem length_skipWhite (text : Bytes) : (skipWhite text).length ≤ text.length :=
  (List.dropWhile_suffix _).length_le

theorem length_token {c : UInt8} {text rest : Bytes} (h : token c text = some rest) :
    rest.length < text.length := by
  have hskip := length_skipWhite text
  simp only [token] at h
  split at h
  · cases h
  · rename_i d tail hd
    rw [hd, List.length_cons] at hskip
    split at h
    · cases h
      omega
    · cases h

/-- A scanned string, its closing quote and the rest make up the text. -/
theorem scan_eq {text raw rest : Bytes} (h : scan text = some (raw, rest)) :
    text = raw ++ 34 :: rest := by
  fun_induction scan text generalizing raw rest with
  | case1 => cases h
  | case2 text => cases h; rfl
  | case3 _ => cases h
  | case4 d tail _ ih =>
    obtain ⟨found, hfound, heq⟩ := Option.map_eq_some_iff.mp h
    cases heq
    simp [ih hfound]
  | case5 => cases h
  | case6 c tail _ _ _ ih =>
    obtain ⟨found, hfound, heq⟩ := Option.map_eq_some_iff.mp h
    cases heq
    simp [ih hfound]

theorem string_some {text s rest : Bytes} (h : string text = some (s, rest)) :
    ∃ raw, text = raw ++ 34 :: rest ∧ scan text = some (raw, rest) ∧
      raw.toByteArray.IsValidUTF8 ∧ decode none raw = some s := by
  obtain ⟨⟨raw, tail⟩, hscan, hdecode⟩ := Option.bind_eq_some_iff.mp h
  split at hdecode
  · rename_i hvalid
    obtain ⟨value, hvalue, heq⟩ := Option.map_eq_some_iff.mp hdecode
    cases heq
    exact ⟨raw, scan_eq hscan, hscan, hvalid, hvalue⟩
  · cases hdecode

theorem length_string {text s rest : Bytes} (h : string text = some (s, rest)) :
    rest.length < text.length := by
  obtain ⟨raw, rfl, _⟩ := string_some h
  rw [List.length_append, List.length_cons]
  omega

theorem length_word {spelling text rest : Bytes} {v u : Value}
    (h : word spelling v text = some (u, rest)) : rest.length ≤ text.length := by
  simp only [word] at h
  split at h
  · cases h
    simp
  · cases h

theorem length_number {text rest : Bytes} {v : Value} (h : number text = some (v, rest)) :
    rest.length ≤ text.length := by
  simp only [number] at h
  split at h
  · cases h
    exact (List.dropWhile_suffix _).length_le
  · cases h

section Fuel

variable {α : Type} {close : UInt8} {f g : Bytes → Option (List α × Bytes)}

theorem length_endOr {item : α} {text rest : Bytes} {items : List α}
    (more : ∀ {t r is}, f t = some (is, r) → r.length ≤ t.length)
    (h : endOr close f item text = some (items, rest)) : rest.length < text.length := by
  simp only [endOr] at h
  split at h
  · rename_i tail htoken
    cases h
    exact length_token htoken
  · obtain ⟨tail, htoken, hmap⟩ := Option.bind_eq_some_iff.mp h
    obtain ⟨found, hfound, heq⟩ := Option.map_eq_some_iff.mp hmap
    cases heq
    exact Nat.lt_of_le_of_lt (more hfound) (length_token htoken)

theorem length_bracket {text rest : Bytes} {items : List α}
    (more : ∀ {t r is}, f t = some (is, r) → r.length ≤ t.length)
    (h : bracket close f text = some (items, rest)) : rest.length ≤ text.length := by
  simp only [bracket] at h
  split at h
  · rename_i tail htoken
    cases h
    exact Nat.le_of_lt (length_token htoken)
  · exact more h

theorem endOr_congr {item : α} {text : Bytes}
    (same : ∀ rest, rest.length < text.length → f rest = g rest) :
    endOr close f item text = endOr close g item text := by
  simp only [endOr]
  split
  · rfl
  · cases htoken : token 44 text with
    | none => rfl
    | some rest => simp only [Option.bind_some, same rest (length_token htoken)]

theorem bracket_congr {text : Bytes} (same : f text = g text) :
    bracket close f text = bracket close g text := by
  simp only [bracket, same]

end Fuel

/-- What is read is shorter than what was there. -/
theorem length_read (fuel : Nat) :
    (∀ {text rest v}, value fuel text = some (v, rest) → rest.length ≤ text.length) ∧
    (∀ {text rest ms}, members fuel text = some (ms, rest) → rest.length ≤ text.length) ∧
    (∀ {text rest es}, elements fuel text = some (es, rest) → rest.length ≤ text.length) := by
  induction fuel with
  | zero => simp [value, members, elements]
  | succ fuel ih =>
    obtain ⟨ihValue, ihMembers, ihElements⟩ := ih
    refine ⟨?_, ?_, ?_⟩
    · intro text rest v h
      have hskip := length_skipWhite text
      simp only [value] at h
      split at h
      · cases h
      · rename_i c tail hc
        rw [hc, List.length_cons] at hskip
        split_ifs at h
        · obtain ⟨found, hfound, heq⟩ := Option.map_eq_some_iff.mp h
          cases heq
          have := length_string hfound
          omega
        · obtain ⟨found, hfound, heq⟩ := Option.map_eq_some_iff.mp h
          cases heq
          have := length_bracket ihMembers hfound
          omega
        · obtain ⟨found, hfound, heq⟩ := Option.map_eq_some_iff.mp h
          cases heq
          have := length_bracket ihElements hfound
          omega
        · exact Nat.le_trans (length_word h) hskip
        · exact Nat.le_trans (length_word h) hskip
        · exact Nat.le_trans (length_word h) hskip
        · exact Nat.le_trans (length_number h) hskip
    · intro text rest ms h
      simp only [members] at h
      obtain ⟨afterQuote, hquote, h⟩ := Option.bind_eq_some_iff.mp h
      obtain ⟨name, hname, h⟩ := Option.bind_eq_some_iff.mp h
      obtain ⟨afterColon, hcolon, h⟩ := Option.bind_eq_some_iff.mp h
      obtain ⟨item, hitem, h⟩ := Option.bind_eq_some_iff.mp h
      have h₁ := length_token hquote
      have h₂ := length_string hname
      have h₃ := length_token hcolon
      have h₄ := ihValue hitem
      have h₅ := length_endOr ihMembers h
      omega
    · intro text rest es h
      simp only [elements] at h
      obtain ⟨item, hitem, h⟩ := Option.bind_eq_some_iff.mp h
      have h₁ := ihValue hitem
      have h₂ := length_endOr ihElements h
      omega

/-- Fuel beyond twice the length of the text changes nothing. -/
theorem read_fuel (n : Nat) :
    (∀ m text, 2 * text.length < n → 2 * text.length < m → value n text = value m text) ∧
    (∀ m text, 2 * text.length < n → 2 * text.length < m → members n text = members m text) ∧
    (∀ m text, 2 * text.length + 1 < n → 2 * text.length + 1 < m →
      elements n text = elements m text) := by
  induction n with
  | zero => simp
  | succ n ih =>
    obtain ⟨ihValue, ihMembers, ihElements⟩ := ih
    refine ⟨?_, ?_, ?_⟩ <;> intro m text hn hm <;>
      obtain ⟨m, rfl⟩ : ∃ k, m = k + 1 := ⟨m - 1, by omega⟩
    · have hskip := length_skipWhite text
      simp only [value]
      split
      · rfl
      · rename_i c tail hc
        rw [hc, List.length_cons] at hskip
        rw [bracket_congr (ihMembers m tail (by omega) (by omega)),
          bracket_congr (ihElements m tail (by omega) (by omega))]
    · simp only [members]
      refine Option.bind_congr fun afterQuote hquote => ?_
      refine Option.bind_congr fun name hname => ?_
      refine Option.bind_congr fun afterColon hcolon => ?_
      have h₁ := length_token hquote
      have h₂ := length_string hname
      have h₃ := length_token hcolon
      rw [ihValue m afterColon (by omega) (by omega)]
      refine Option.bind_congr fun item hitem => ?_
      have h₄ := (length_read m).1 hitem
      exact endOr_congr fun rest hrest => ihMembers m rest (by omega) (by omega)
    · simp only [elements]
      rw [ihValue m text (by omega) (by omega)]
      refine Option.bind_congr fun item hitem => ?_
      have h₁ := (length_read m).1 hitem
      exact endOr_congr fun rest hrest => ihElements m rest (by omega) (by omega)

theorem parse_eq {text : Bytes} {n : Nat} (enough : 2 * text.length < n) :
    parse text = (value n text).bind fun found =>
      if skipWhite found.2 = [] then some found.1 else none := by
  rw [parse, (read_fuel _).1 n text (Nat.lt_succ_self _) enough]

end JsonSyntax
