import MoneroRandomXMiner.JsonSyntax

/-!
# JSON written by concatenation

A string put between quotes as it is, and an object of such strings. Reading
gives back what was meant exactly when every string is plain: well-formed
UTF-8 without quotes, backslashes and control characters.
-/

namespace JsonFields

open JsonSyntax

/-- No quote, no backslash and no control character. -/
def PlainByte (c : UInt8) : Prop := c ≠ 34 ∧ c ≠ 92 ∧ 32 ≤ c

instance (c : UInt8) : Decidable (PlainByte c) := inferInstanceAs (Decidable (_ ∧ _ ∧ _))

/-- Text that a string may hold as it stands. -/
def Plain (s : Bytes) : Prop := s.toByteArray.IsValidUTF8 ∧ ∀ c ∈ s, PlainByte c

instance (s : Bytes) : Decidable (Plain s) :=
  @instDecidableAnd _ _ _ (List.decidableBAll _ s)

theorem isValidUTF8_singleton {c : UInt8} (h : c < 128) : [c].toByteArray.IsValidUTF8 := by
  refine ⟨[Char.ofNat c.toNat], ?_⟩
  have hc : c.toNat < 128 := UInt8.lt_iff_toNat_lt.mp h
  have hval : (Char.ofNat c.toNat).val.toNat = c.toNat := by
    rw [Char.ofNat, dif_pos (Or.inl (by omega))]
    rfl
  rw [List.utf8Encode_singleton, List.toByteArray_inj]
  simp [String.utf8EncodeChar, hval, Nat.le_of_lt_succ hc]

theorem plain_of_ascii {s : Bytes} (ascii : ∀ c ∈ s, c < 128)
    (plain : ∀ c ∈ s, PlainByte c) : Plain s := by
  refine ⟨?_, plain⟩
  induction s with
  | nil => exact ByteArray.isValidUTF8_empty
  | cons c s ih =>
    rw [← List.singleton_append, List.toByteArray_append]
    exact (isValidUTF8_singleton (ascii c List.mem_cons_self)).append
      (ih (fun d hd => ascii d (List.mem_cons_of_mem _ hd))
        fun d hd => plain d (List.mem_cons_of_mem _ hd))

theorem scan_plain {s : Bytes} (plain : ∀ c ∈ s, PlainByte c) (rest : Bytes) :
    scan (s ++ 34 :: rest) = some (s, rest) := by
  induction s with
  | nil =>
    rw [List.nil_append, scan.eq_def]
    exact if_pos rfl
  | cons c s ih =>
    obtain ⟨hquote, hslash, hcontrol⟩ := plain c List.mem_cons_self
    rw [List.cons_append, scan.eq_def]
    simp only [if_neg hquote, if_neg hslash, if_neg (UInt8.not_lt.mpr hcontrol)]
    rw [ih fun d hd => plain d (List.mem_cons_of_mem _ hd)]
    rfl

theorem decode_plain {s : Bytes} (plain : 92 ∉ s) : decode none s = some s := by
  induction s with
  | nil => rfl
  | cons c s ih =>
    obtain ⟨hc, hs⟩ := List.ne_and_not_mem_of_not_mem_cons plain
    rw [decode.eq_def]
    simp only [if_neg (Ne.symm hc), ih hs]
    rfl

theorem string_plain {s : Bytes} (plain : Plain s) (rest : Bytes) :
    string (s ++ 34 :: rest) = some (s, rest) := by
  have hslash : 92 ∉ s := fun hm => (plain.2 92 hm).2.1 rfl
  rw [string, scan_plain plain.2, Option.bind_some, if_pos plain.1, decode_plain hslash]
  rfl

theorem length_codePoint (n : Nat) : (codePoint n).length ≤ 4 := by
  rw [codePoint, String.length_utf8EncodeChar]
  exact Char.utf8Size_le_four _

theorem length_surrogates {waiting : Option Nat} {unit : Nat} {out : Bytes × Option Nat}
    (h : surrogates waiting unit = some out) : out.1.length ≤ 4 := by
  cases waiting with
  | none =>
    simp only [surrogates] at h
    split at h
    · rw [← Option.some.inj h]
      exact Nat.zero_le 4
    · split at h
      · cases h
      · rw [← Option.some.inj h]
        exact length_codePoint _
  | some high =>
    simp only [surrogates] at h
    split at h
    · rw [← Option.some.inj h]
      dsimp only
      exact length_codePoint _
    · cases h

/-- Escapes are longer than what they stand for. -/
theorem length_decode {waiting : Option Nat} {raw s : Bytes} (h : decode waiting raw = some s) :
    s.length ≤ raw.length ∧ (92 ∈ raw → s.length < raw.length) := by
  fun_induction decode waiting raw generalizing s with
  | case1 => cases h; simp
  | case2 => cases h
  | case3 => cases h
  | case4 waiting h₁ h₂ h₃ h₄ rest ih =>
    obtain ⟨unit, _, h⟩ := Option.bind_eq_some_iff.mp h
    obtain ⟨out, hout, h⟩ := Option.bind_eq_some_iff.mp h
    obtain ⟨tail, htail, rfl⟩ := Option.map_eq_some_iff.mp h
    have hlen := length_surrogates hout
    have := (ih out htail).1
    simp only [List.length_append, List.length_cons]
    omega
  | case5 => cases h
  | case6 e rest hu ih =>
    obtain ⟨b, _, h⟩ := Option.bind_eq_some_iff.mp h
    obtain ⟨tail, htail, rfl⟩ := Option.map_eq_some_iff.mp h
    have := (ih htail).1
    simp only [List.length_cons]
    omega
  | case7 => cases h
  | case8 c text hc ih =>
    obtain ⟨tail, htail, rfl⟩ := Option.map_eq_some_iff.mp h
    obtain ⟨hle, hlt⟩ := ih htail
    refine ⟨Nat.succ_le_succ hle, fun hm => ?_⟩
    rcases List.mem_cons.mp hm with rfl | hm
    · exact absurd rfl hc
    · exact Nat.succ_lt_succ (hlt hm)
  | case9 => cases h

theorem hexValue_comma : hexValue 44 = none := by decide

theorem escape_comma : escape 44 = none := by decide

/-- A comma is no part of an escape. -/
theorem getLast_decode {waiting : Option Nat} {raw s : Bytes} (h : decode waiting raw = some s)
    (last : raw.getLast? = some 44) : s.getLast? = some 44 := by
  fun_induction decode waiting raw generalizing s with
  | case1 => cases last
  | case2 => cases h
  | case3 => cases h
  | case4 waiting h₁ h₂ h₃ h₄ rest ih =>
    obtain ⟨unit, hunit, h⟩ := Option.bind_eq_some_iff.mp h
    obtain ⟨out, hout, h⟩ := Option.bind_eq_some_iff.mp h
    obtain ⟨tail, htail, rfl⟩ := Option.map_eq_some_iff.mp h
    cases rest with
    | nil =>
      obtain rfl : h₄ = 44 := by simpa using last
      simp [codeUnit, hexValue_comma] at hunit
    | cons d rest =>
      have hlast := ih out htail (by simpa using last)
      rw [List.getLast?_append, hlast]
      rfl
  | case5 => cases h
  | case6 e rest hu ih =>
    obtain ⟨b, hb, h⟩ := Option.bind_eq_some_iff.mp h
    obtain ⟨tail, htail, rfl⟩ := Option.map_eq_some_iff.mp h
    cases rest with
    | nil =>
      obtain rfl : e = 44 := by simpa using last
      rw [escape_comma] at hb
      cases hb
    | cons d rest =>
      have hlast := ih htail (by simpa using last)
      rw [List.getLast?_cons, hlast]
      rfl
  | case7 => cases h
  | case8 c text hc ih =>
    obtain ⟨tail, htail, rfl⟩ := Option.map_eq_some_iff.mp h
    cases text with
    | nil =>
      cases htail
      simpa using last
    | cons d text =>
      have hlast := ih htail (by simpa using last)
      rw [List.getLast?_cons, hlast]
      rfl
  | case9 => cases h

/-- A scan that runs past the quote after `s` finds `s` ending in a backslash. -/
theorem scan_past {s rest raw tail : Bytes} (h : scan (s ++ 34 :: rest) = some (raw, tail))
    (past : s.length < raw.length) :
    s.getLast? = some 92 ∧ ∃ mid, raw = s ++ 34 :: mid ∧ scan rest = some (mid, tail) := by
  induction s using scan.induct generalizing raw with
  | case1 =>
    rw [List.nil_append, scan.eq_def] at h
    cases h
    cases past
  | case2 s =>
    rw [List.cons_append, scan.eq_def] at h
    cases h
    cases past
  | case3 =>
    rw [List.singleton_append, scan.eq_def] at h
    obtain ⟨found, hfound, heq⟩ := Option.map_eq_some_iff.mp h
    cases heq
    exact ⟨rfl, found.1, rfl, hfound⟩
  | case4 d s _ ih =>
    rw [List.cons_append, List.cons_append, scan.eq_def] at h
    obtain ⟨found, hfound, heq⟩ := Option.map_eq_some_iff.mp h
    cases heq
    obtain ⟨hlast, mid, hmid, hscan⟩ := ih hfound (by simpa using past)
    refine ⟨?_, mid, ?_, hscan⟩
    · rw [List.getLast?_cons, List.getLast?_cons, hlast]
      rfl
    · rw [hmid, List.cons_append, List.cons_append]
  | case5 c s hquote hslash hcontrol =>
    rw [List.cons_append, scan.eq_def] at h
    simp only [if_neg hquote, if_neg hslash, if_pos hcontrol] at h
    cases h
  | case6 c s hquote hslash hcontrol ih =>
    rw [List.cons_append, scan.eq_def] at h
    simp only [if_neg hquote, if_neg hslash, if_neg hcontrol] at h
    obtain ⟨found, hfound, heq⟩ := Option.map_eq_some_iff.mp h
    cases heq
    obtain ⟨hlast, mid, hmid, hscan⟩ := ih hfound (by simpa using past)
    refine ⟨?_, mid, ?_, hscan⟩
    · rw [List.getLast?_cons, hlast]
      rfl
    · rw [hmid, List.cons_append]

theorem clean_of_scan {text raw rest : Bytes} (h : scan text = some (raw, rest))
    (hslash : 92 ∉ raw) : ∀ c ∈ raw, PlainByte c := by
  fun_induction scan text generalizing raw with
  | case1 => cases h
  | case2 => cases h; simp
  | case3 => cases h
  | case4 d tail _ ih =>
    obtain ⟨found, hfound, heq⟩ := Option.map_eq_some_iff.mp h
    cases heq
    exact absurd List.mem_cons_self hslash
  | case5 => cases h
  | case6 c tail hquote hc hcontrol ih =>
    obtain ⟨found, hfound, heq⟩ := Option.map_eq_some_iff.mp h
    cases heq
    intro d hd
    rcases List.mem_cons.mp hd with rfl | hd
    · exact ⟨hquote, hc, UInt8.not_lt.mp hcontrol⟩
    · exact ih hfound (List.not_mem_of_not_mem_cons hslash) d hd

/-- A string that is read back as it was written between quotes is plain, where
a scan from behind the closing quote would end in a comma or fail. -/
theorem plain_of_string {s rest tail : Bytes} (read : string (s ++ 34 :: rest) = some (s, tail))
    (beyond : ∀ mid r, scan rest = some (mid, r) → mid.getLast? = some 44) :
    Plain s ∧ tail = rest := by
  obtain ⟨raw, htext, hscan, hvalid, hdecode⟩ := string_some read
  obtain ⟨hle, hlt⟩ := length_decode hdecode
  rcases Nat.lt_or_eq_of_le hle with past | same
  · obtain ⟨hlast, mid, rfl, hmid⟩ := scan_past hscan past
    have hcomma : s.getLast? = some 44 := by
      refine getLast_decode hdecode ?_
      rw [List.getLast?_append, List.getLast?_cons, beyond mid tail hmid]
      rfl
    rw [hlast] at hcomma
    cases hcomma
  · obtain ⟨rfl, hrest⟩ := List.append_inj htext same
    have hslash : 92 ∉ s := fun hm => Nat.lt_irrefl _ (hlt hm)
    exact ⟨⟨hvalid, clean_of_scan hscan hslash⟩, (List.cons.inj hrest).2.symm⟩

theorem skipWhite_cons {c : UInt8} (ink : isWhite c = false) (rest : Bytes) :
    skipWhite (c :: rest) = c :: rest := by
  rw [skipWhite, List.dropWhile_cons_of_neg (by simp [ink])]

theorem token_self {c : UInt8} (ink : isWhite c = false) (rest : Bytes) :
    token c (c :: rest) = some rest := by
  simp only [token, skipWhite_cons ink, if_pos]

theorem token_other {c d : UInt8} (ink : isWhite d = false) (other : d ≠ c) (rest : Bytes) :
    token c (d :: rest) = none := by
  simp only [token, skipWhite_cons ink, if_neg other]

theorem endOr_close {α : Type} {close : UInt8} (ink : isWhite close = false)
    (more : Bytes → Option (List α × Bytes)) (item : α) (rest : Bytes) :
    endOr close more item (close :: rest) = some ([item], rest) := by
  simp only [endOr, token_self ink]

theorem endOr_comma {α : Type} {close : UInt8} (other : 44 ≠ close)
    (more : Bytes → Option (List α × Bytes)) (item : α) (rest : Bytes) :
    endOr close more item (44 :: rest) =
      (more rest).map fun found => (item :: found.1, found.2) := by
  simp only [endOr, token_other (d := 44) rfl other, token_self (c := 44) rfl, Option.bind_some]

/-- The item read first stays first. -/
theorem endOr_head {α : Type} {close : UInt8} {more : Bytes → Option (List α × Bytes)} {item : α}
    {text rest : Bytes} {items : List α} (h : endOr close more item text = some (items, rest)) :
    item ∈ items := by
  simp only [endOr] at h
  split at h
  · cases h
    exact List.mem_singleton_self _
  · obtain ⟨tail, _, hmap⟩ := Option.bind_eq_some_iff.mp h
    obtain ⟨found, _, heq⟩ := Option.map_eq_some_iff.mp hmap
    cases heq
    exact List.mem_cons_self

theorem value_string (n : Nat) (text : Bytes) :
    value (n + 1) (34 :: text) = (string text).map fun found => (.string found.1, found.2) := by
  simp only [value, skipWhite_cons (c := 34) rfl, if_pos]

/-- An object that is not empty. -/
theorem value_object (n : Nat) (text : Bytes) :
    value (n + 1) (123 :: 34 :: text) =
      (members n (34 :: text)).map fun found => (.object found.1, found.2) := by
  have hopen : ¬ (123 : UInt8) = 34 := by decide
  simp only [value, skipWhite_cons (c := 123) rfl, if_neg hopen, if_pos, bracket,
    token_other (c := 125) (d := 34) rfl (by decide)]

theorem members_value {name : Bytes} (plain : Plain name) (n : Nat) (text : Bytes) :
    members (n + 1) (34 :: name ++ 34 :: 58 :: text) =
      (value n text).bind fun item =>
        endOr 125 (fun text => members n text) (name, item.1) item.2 := by
  rw [members, List.cons_append, token_self (c := 34) rfl, Option.bind_some, string_plain plain,
    Option.bind_some, token_self (c := 58) rfl, Option.bind_some]

theorem isNumber_head {c : UInt8} {text : Bytes} (spelled : isNumber (c :: text)) :
    c = 45 ∨ isDigit c := by
  by_cases hminus : c = 45
  · exact Or.inl hminus
  · right
    rw [isNumber, if_neg hminus, isUnsigned] at spelled
    split at spelled
    · rename_i hzero
      rw [hzero]
      rfl
    · exact (Bool.and_eq_true_iff.mp spelled).1

theorem value_number {digits : Bytes} (spelled : isNumber digits)
    (bytes : ∀ c ∈ digits, isNumberByte c) {stop : UInt8} (hstop : isNumberByte stop = false)
    (n : Nat) (rest : Bytes) :
    value (n + 1) (digits ++ stop :: rest) = some (.number digits, stop :: rest) := by
  have htake : (digits ++ stop :: rest).takeWhile isNumberByte = digits := by
    rw [List.takeWhile_append_of_pos bytes, List.takeWhile_cons_of_neg (by simp [hstop]),
      List.append_nil]
  have hdrop : (digits ++ stop :: rest).dropWhile isNumberByte = stop :: rest := by
    rw [List.dropWhile_append_of_pos bytes, List.dropWhile_cons_of_neg (by simp [hstop])]
  match digits, spelled with
  | c :: digits, spelled =>
    have avoid : ∀ b : UInt8, b ≠ 45 → isDigit b = false → c ≠ b := by
      rintro b hminus hdigit rfl
      rcases isNumber_head spelled with h | h
      · exact hminus h
      · rw [hdigit] at h
        cases h
    have ink : isWhite c = false := by
      simp [isWhite, avoid 32 (by decide) rfl, avoid 9 (by decide) rfl, avoid 10 (by decide) rfl,
        avoid 13 (by decide) rfl]
    rw [List.cons_append] at htake hdrop ⊢
    simp only [value, skipWhite_cons ink, if_neg (avoid 34 (by decide) rfl),
      if_neg (avoid 123 (by decide) rfl), if_neg (avoid 91 (by decide) rfl),
      if_neg (avoid 110 (by decide) rfl), if_neg (avoid 116 (by decide) rfl),
      if_neg (avoid 102 (by decide) rfl), number, htake, hdrop, if_pos spelled]

/-- A natural number as it is printed. -/
def decimal (n : Nat) : Bytes := (Nat.toDigits 10 n).map Char.toUInt8

theorem isDigit_toUInt8 {c : Char} (h : c.isDigit) : isDigit c.toUInt8 := by
  simp only [Char.isDigit, Bool.and_eq_true, decide_eq_true_eq, ge_iff_le,
    UInt32.le_iff_toNat_le] at h
  simp only [isDigit, Char.toUInt8, Bool.and_eq_true, decide_eq_true_eq, UInt8.le_iff_toNat_le,
    UInt32.toNat_toUInt8]
  have hlow : '0'.val.toNat = 48 := rfl
  have hhigh : '9'.val.toNat = 57 := rfl
  have hlow' : (48 : UInt8).toNat = 48 := rfl
  have hhigh' : (57 : UInt8).toNat = 57 := rfl
  omega

theorem isDigit_decimal {n : Nat} {c : UInt8} (h : c ∈ decimal n) : isDigit c := by
  obtain ⟨d, hd, rfl⟩ := List.mem_map.mp h
  exact isDigit_toUInt8 (Nat.isDigit_of_mem_toDigits (by decide) (by decide) hd)

/-- Only zero is printed with a leading zero. -/
theorem decimal_head {n : Nat} (h : 0 < n) : ∃ d ds, decimal n = d :: ds ∧ d ≠ 48 := by
  induction n using Nat.strongRecOn with
  | ind n ih =>
    by_cases hsmall : n < 10
    · have hdigit : ∀ k < 10, 0 < k → (Nat.digitChar k).toUInt8 ≠ 48 := by decide
      exact ⟨_, [], by rw [decimal, Nat.toDigits_of_lt_base hsmall]; rfl, hdigit n hsmall h⟩
    · obtain ⟨d, ds, hds, hd⟩ := ih (n / 10) (by omega) (by omega)
      refine ⟨d, ds ++ [(n % 10).digitChar.toUInt8], ?_, hd⟩
      rw [decimal, Nat.toDigits_of_base_le (by decide) (by omega), List.map_append]
      exact congrArg (· ++ _) hds

theorem isNumber_decimal (n : Nat) : isNumber (decimal n) := by
  have hall : (decimal n).all isDigit := List.all_eq_true.mpr fun c hc => isDigit_decimal hc
  rcases Nat.eq_zero_or_pos n with rfl | hpos
  · decide
  · obtain ⟨d, ds, hds, hd⟩ := decimal_head hpos
    rw [hds, List.all_cons, Bool.and_eq_true_iff] at hall
    have hminus : d ≠ 45 := by
      rintro rfl
      exact absurd hall.1 (by decide)
    have hrest : ds.dropWhile isDigit = [] :=
      List.dropWhile_eq_nil_iff.mpr (List.all_eq_true.mp hall.2)
    rw [hds, isNumber, if_neg hminus, isUnsigned, if_neg hd, hall.1, hrest]
    rfl

theorem value_decimal (k n : Nat) (rest : Bytes) :
    value (n + 1) (decimal k ++ 44 :: rest) = some (.number (decimal k), 44 :: rest) := by
  refine value_number (isNumber_decimal k) (fun c hc => ?_) rfl n rest
  simp [isNumberByte, isDigit_decimal hc]

/-- A member whose value is a string, written without escaping. -/
def writeField (f : Bytes × Bytes) : Bytes := 34 :: f.1 ++ 34 :: 58 :: 34 :: f.2 ++ [34]

def writeFields : List (Bytes × Bytes) → Bytes
  | [] => []
  | [f] => writeField f
  | f :: g :: rest => writeField f ++ 44 :: writeFields (g :: rest)

theorem newline_writeField {f : Bytes × Bytes} (name : Plain f.1) (text : Plain f.2) :
    10 ∉ writeField f := by
  have hname : 10 ∉ f.1 := fun hm => absurd (name.2 10 hm).2.2 (by decide)
  have htext : 10 ∉ f.2 := fun hm => absurd (text.2 10 hm).2.2 (by decide)
  simp [writeField, hname, htext]

theorem newline_writeFields {fields : List (Bytes × Bytes)}
    (plain : ∀ f ∈ fields, Plain f.1 ∧ Plain f.2) : 10 ∉ writeFields fields := by
  induction fields using writeFields.induct with
  | case1 => exact List.not_mem_nil
  | case2 f => exact newline_writeField (plain f (by simp)).1 (plain f (by simp)).2
  | case3 f g fields ih =>
    have hf := newline_writeField (plain f (by simp)).1 (plain f (by simp)).2
    have htail := ih fun x hx => plain x (List.mem_cons_of_mem _ hx)
    simp [writeFields, hf, htail]

/-- The members that were meant. -/
def fieldValues (fields : List (Bytes × Bytes)) : List (Bytes × Value) :=
  fields.map fun f => (f.1, .string f.2)

theorem members_field {f : Bytes × Bytes} (plain : Plain f.1) (n : Nat) (rest : Bytes) :
    members (n + 2) (writeField f ++ rest) =
      (string (f.2 ++ 34 :: rest)).bind fun found =>
        endOr 125 (fun text => members (n + 1) text) (f.1, .string found.1) found.2 := by
  have htext : writeField f ++ rest = 34 :: f.1 ++ 34 :: 58 :: (34 :: (f.2 ++ 34 :: rest)) := by
    simp [writeField]
  rw [htext, members_value plain, value_string, Option.bind_map]
  rfl

theorem members_writeFields {fields : List (Bytes × Bytes)} (nonempty : fields ≠ [])
    (plain : ∀ f ∈ fields, Plain f.1 ∧ Plain f.2) {n : Nat} (enough : fields.length < n)
    (rest : Bytes) :
    members n (writeFields fields ++ 125 :: rest) = some (fieldValues fields, rest) := by
  induction fields using writeFields.induct generalizing n with
  | case1 => exact absurd rfl nonempty
  | case2 f =>
    obtain ⟨n, rfl⟩ : ∃ k, n = k + 2 := ⟨n - 2, by simp at enough; omega⟩
    have hf := plain f List.mem_cons_self
    rw [writeFields, members_field hf.1, string_plain hf.2, Option.bind_some, endOr_close rfl]
    rfl
  | case3 f g fields ih =>
    obtain ⟨n, rfl⟩ : ∃ k, n = k + 2 := ⟨n - 2, by simp at enough; omega⟩
    have hf := plain f List.mem_cons_self
    have htail := ih (List.cons_ne_nil _ _) (fun x hx => plain x (List.mem_cons_of_mem _ hx))
      (n := n + 1) (Nat.lt_of_succ_lt_succ enough)
    rw [writeFields, List.append_assoc, members_field hf.1, List.cons_append, string_plain hf.2,
      Option.bind_some, endOr_comma (by decide), htail]
    rfl

theorem writeFields_cons (f : Bytes × Bytes) (fields : List (Bytes × Bytes)) :
    ∃ text, writeFields (f :: fields) = 34 :: text := by
  cases fields with
  | nil => exact ⟨_, rfl⟩
  | cons g fields => exact ⟨_, rfl⟩

/-- A first member that is read back as meant is plain, and the reader goes on
behind it. -/
theorem plain_of_field {meant : List (Bytes × Bytes)} {f : Bytes × Bytes}
    (unique : ∀ k v w, (k, v) ∈ meant → (k, w) ∈ meant → v = w) (mem : f ∈ meant)
    (name : Plain f.1) {n : Nat} {rest tail : Bytes} {ms : List (Bytes × Value)}
    (beyond : ∀ mid r, scan rest = some (mid, r) → mid.getLast? = some 44)
    (read : members n (writeField f ++ rest) = some (ms, tail))
    (only : ∀ m ∈ ms, m ∈ fieldValues meant) :
    Plain f.2 ∧ ∃ k, endOr 125 (fun text => members k text) (f.1, .string f.2) rest =
      some (ms, tail) := by
  match n, read with
  | 0, read => rw [members] at read; cases read
  | 1, read =>
    have htext : writeField f ++ rest = 34 :: f.1 ++ 34 :: 58 :: (34 :: (f.2 ++ 34 :: rest)) := by
      simp [writeField]
    rw [htext, members_value name, value, Option.bind_none] at read
    cases read
  | n + 2, read =>
    rw [members_field name] at read
    obtain ⟨⟨s, r⟩, hstring, hmore⟩ := Option.bind_eq_some_iff.mp read
    obtain ⟨g, hg, heq⟩ := List.mem_map.mp (only _ (endOr_head hmore))
    obtain ⟨hname, hvalue⟩ := Prod.mk.inj heq
    obtain rfl : s = f.2 :=
      (Value.string.inj hvalue).symm.trans (unique f.1 g.2 f.2 (hname ▸ hg) mem)
    obtain ⟨plain, rfl⟩ := plain_of_string hstring beyond
    exact ⟨plain, n + 1, hmore⟩

/-- Members read back as meant are plain, where a scan from behind the closing
brace fails. -/
theorem plain_of_members {meant fields : List (Bytes × Bytes)}
    (unique : ∀ k v w, (k, v) ∈ meant → (k, w) ∈ meant → v = w)
    (sub : ∀ f ∈ fields, f ∈ meant) (names : ∀ f ∈ fields, Plain f.1) {n : Nat}
    {rest tail : Bytes} {ms : List (Bytes × Value)} (beyond : scan (125 :: rest) = none)
    (read : members n (writeFields fields ++ 125 :: rest) = some (ms, tail))
    (only : ∀ m ∈ ms, m ∈ fieldValues meant) : ∀ f ∈ fields, Plain f.2 := by
  induction fields using writeFields.induct generalizing n ms with
  | case1 => exact fun f hf => nomatch hf
  | case2 f =>
    have step := plain_of_field unique (sub f List.mem_cons_self) (names f List.mem_cons_self)
      (fun mid r hscan => by rw [beyond] at hscan; cases hscan) read only
    intro g hg
    rw [List.mem_singleton.mp hg]
    exact step.1
  | case3 f g fields ih =>
    obtain ⟨text, htext⟩ := writeFields_cons g fields
    have hcomma : ∀ mid r, scan (44 :: writeFields (g :: fields) ++ 125 :: rest) =
        some (mid, r) → mid.getLast? = some 44 := by
      intro mid r hscan
      rw [htext, List.cons_append, List.cons_append] at hscan
      cases (scan_plain (List.forall_mem_singleton.mpr (by decide)) _).symm.trans hscan
      rfl
    rw [writeFields, List.append_assoc] at read
    obtain ⟨plain, k, hmore⟩ := plain_of_field unique (sub f List.mem_cons_self)
      (names f List.mem_cons_self) hcomma read only
    rw [List.cons_append, endOr_comma (by decide)] at hmore
    obtain ⟨found, hfound, heq⟩ := Option.map_eq_some_iff.mp hmore
    cases heq
    intro x hx
    rcases List.mem_cons.mp hx with rfl | hx
    · exact plain
    · exact ih (fun y hy => sub y (List.mem_cons_of_mem _ hy))
        (fun y hy => names y (List.mem_cons_of_mem _ hy)) hfound
        (fun m hm => only m (List.mem_cons_of_mem _ hm)) x hx

end JsonFields
