import MoneroRandomXMiner.HexText

/-!
# Printing and reading bytes as hexadecimal text

The encoder sets the width before every number, since a number printed uses it
up, and the fill character once. The decoder reads two characters at a time.
The two are inverse on the texts that the encoder prints, and these are the
texts of even length in lower-case digits.
-/

namespace HexCodec

open FixedWidth HexText

/-- What the encoders use of a `std::stringstream` with `std::hex`: the text so
far, the width of the next item and the fill character. -/
structure HexStream where
  text : Text
  width : Nat
  fill : Char

/-- `ss << std::hex << std::setfill('0')` on an empty stream. -/
def HexStream.zeroFilled : HexStream := ⟨[], 0, '0'⟩

def HexStream.setw (ss : HexStream) (width : Nat) : HexStream := { ss with width := width }

/-- `ss << n`; the width falls back to zero. -/
def HexStream.put (ss : HexStream) (n : Nat) : HexStream :=
  { ss with
    text := ss.text ++ ((Nat.toDigits 16 n).leftpad ss.width ss.fill).map Char.toUInt8
    width := 0 }

/-- The loop of `BlobHelper::bytes_to_hex`, whose text is listed by `bytesToHex`. -/
def bytesToHexLoop (bytes : List UInt8) : Text :=
  (bytes.foldl (fun ss b => (ss.setw 2).put b.toNat) HexStream.zeroFilled).text

def LowerDigit (c : UInt8) : Prop := 48 ≤ c ∧ c ≤ 57 ∨ 97 ≤ c ∧ c ≤ 102

instance (c : UInt8) : Decidable (LowerDigit c) := inferInstanceAs (Decidable (_ ∨ _))

/-- A digit of either case. -/
def HexChar (c : UInt8) : Prop := (digitValue c).isSome

instance (c : UInt8) : Decidable (HexChar c) := inferInstanceAs (Decidable (_ = true))

/-- `std::tolower` in the "C" locale. -/
def toLower (c : UInt8) : UInt8 := if 65 ≤ c ∧ c ≤ 90 then c + 32 else c

theorem loop_text (bytes : List UInt8) (ss : HexStream) (zeros : ss.fill = '0') :
    (bytes.foldl (fun ss b => (ss.setw 2).put b.toNat) ss).text =
      ss.text ++ bytesToHex bytes := by
  induction bytes generalizing ss with
  | nil => simp [bytesToHex]
  | cons b rest ih =>
    have hfill : ((ss.setw 2).put b.toNat).fill = '0' := zeros
    rw [List.foldl_cons, ih _ hfill]
    simp [HexStream.setw, HexStream.put, zeros, bytesToHex, putHex]

theorem bytesToHexLoop_eq (bytes : List UInt8) : bytesToHexLoop bytes = bytesToHex bytes := by
  rw [bytesToHexLoop, loop_text bytes _ rfl]
  rfl

/-- A lower-case digit is the digit of its value. -/
theorem digitValue_lower {c : UInt8} (lower : LowerDigit c) :
    ∃ d < 16, digitValue c = some d ∧ hexDigit d = c := by
  rcases lower with numeral | letter
  · refine of_byte_range c numeral ?_
    decide
  · refine of_byte_range c letter ?_
    decide

theorem lower_hexDigit {d : Nat} (hd : d < 16) : LowerDigit (hexDigit d) := by
  interval_cases d <;> decide

theorem hexDigit_lt_iff : ∀ x < 16, ∀ y < 16, (hexDigit x < hexDigit y ↔ x < y) := by decide

/-- Lower-casing a digit keeps its value and gives a lower-case digit. -/
theorem toLower_digit {c : UInt8} (digit : HexChar c) :
    LowerDigit (toLower c) ∧ digitValue (toLower c) = digitValue c := by
  by_cases lower : LowerDigit c
  · have hsame : toLower c = c := by
      refine if_neg ?_
      rintro ⟨low, high⟩
      have hlow : 65 ≤ c.toNat := low
      have hhigh : c.toNat ≤ 90 := high
      have range : 48 ≤ c.toNat ∧ c.toNat ≤ 57 ∨ 97 ≤ c.toNat ∧ c.toNat ≤ 102 := lower
      omega
    rw [hsame]
    exact ⟨lower, rfl⟩
  · have upper : 65 ≤ c ∧ c ≤ 70 := by
      unfold HexChar digitValue at digit
      grind [LowerDigit]
    refine of_byte_range c upper ?_
    decide

theorem hexBytes_map_toLower {text : Text} (digits : ∀ c ∈ text, HexChar c) :
    hexToBytes (text.map toLower) = hexToBytes text := by
  induction text using slices.induct with
  | case1 => rfl
  | case2 a =>
    obtain ⟨x, hx⟩ := Option.isSome_iff_exists.mp (digits a (by simp))
    have hlower : digitValue (toLower a) = some x := by
      rw [(toLower_digit (digits a (by simp))).2, hx]
    have hbyte : hexByte [toLower a] = hexByte [a] := by
      rw [← UInt8.toNat_inj, hexByte_digit hlower, hexByte_digit hx]
    simp [hexToBytes, slices, hbyte]
  | case3 a b rest ih =>
    obtain ⟨x, hx⟩ := Option.isSome_iff_exists.mp (digits a (by simp))
    obtain ⟨y, hy⟩ := Option.isSome_iff_exists.mp (digits b (by simp))
    have hlowerA : digitValue (toLower a) = some x := by
      rw [(toLower_digit (digits a (by simp))).2, hx]
    have hlowerB : digitValue (toLower b) = some y := by
      rw [(toLower_digit (digits b (by simp))).2, hy]
    have hbyte : hexByte [toLower a, toLower b] = hexByte [a, b] := by
      rw [← UInt8.toNat_inj, hexByte_digits hlowerA hlowerB, hexByte_digits hx hy]
    have hrest := ih fun c hc => digits c (by simp [hc])
    simp only [hexToBytes] at hrest
    simp only [List.map_cons, hexToBytes, slices, hbyte, hrest]

/-- Two lower-case digits are what the byte they stand for is printed as. -/
theorem bytesToHex_hexByte {a b : UInt8} (ha : LowerDigit a) (hb : LowerDigit b)
    (rest : List UInt8) : bytesToHex (hexByte [a, b] :: rest) = a :: b :: bytesToHex rest := by
  obtain ⟨x, hx, valueA, digitA⟩ := digitValue_lower ha
  obtain ⟨y, hy, valueB, digitB⟩ := digitValue_lower hb
  have hbyte := hexByte_digits valueA valueB
  have hhigh : (16 * x + y) / 16 = x := by omega
  have hlow : (16 * x + y) % 16 = y := by omega
  rw [bytesToHex_cons, hbyte, hhigh, hlow, digitA, digitB]

theorem bytesToHex_hexToBytes {text : Text} (even : text.length % 2 = 0)
    (lower : ∀ c ∈ text, LowerDigit c) : bytesToHex (hexToBytes text) = text := by
  induction text using slices.induct with
  | case1 => rfl
  | case2 a => simp at even
  | case3 a b rest ih =>
    have hrest : bytesToHex (hexToBytes rest) = rest := by
      apply ih
      · simp only [List.length_cons] at even
        omega
      · exact fun c hc => lower c (by simp [hc])
    rw [hexToBytes, slices, List.map_cons,
      bytesToHex_hexByte (lower a (by simp)) (lower b (by simp))]
    rw [hexToBytes] at hrest
    rw [hrest]

/-- What is printed for an even text of digits is the text in lower case. -/
theorem bytesToHex_toLower {text : Text} (even : text.length % 2 = 0)
    (digits : ∀ c ∈ text, HexChar c) : bytesToHex (hexToBytes text) = text.map toLower := by
  have lower : ∀ c ∈ text.map toLower, LowerDigit c := by
    intro c hc
    obtain ⟨c', hc', rfl⟩ := List.mem_map.mp hc
    exact (toLower_digit (digits c' hc')).1
  rw [← hexBytes_map_toLower digits, bytesToHex_hexToBytes (by simpa using even) lower]

theorem hexDigit_inj {x y : Nat} (hx : x < 16) (hy : y < 16) :
    hexDigit x = hexDigit y ↔ x = y := by
  constructor
  · intro same
    have value := digitValue_hexDigit hx
    rw [same, digitValue_hexDigit hy] at value
    exact (Option.some.inj value).symm
  · rintro rfl
    rfl

/-- Texts of bytes are ordered as the bytes are. -/
theorem bytesToHex_lt_iff (xs ys : List UInt8) :
    bytesToHex xs < bytesToHex ys ↔ xs < ys := by
  induction xs generalizing ys with
  | nil =>
    cases ys with
    | nil => simp
    | cons y ys => simp [bytesToHex_cons, bytesToHex_nil]
  | cons x xs ih =>
    cases ys with
    | nil => simp [bytesToHex_nil]
    | cons y ys =>
      have hx := x.toNat_lt
      have hy := y.toNat_lt
      have hxHigh : x.toNat / 16 < 16 := by omega
      have hyHigh : y.toNat / 16 < 16 := by omega
      have hxLow : x.toNat % 16 < 16 := by omega
      have hyLow : y.toNat % 16 < 16 := by omega
      have below : x.toNat < y.toNat ↔ x.toNat / 16 < y.toNat / 16 ∨
          x.toNat / 16 = y.toNat / 16 ∧ x.toNat % 16 < y.toNat % 16 := by omega
      have equal : x.toNat = y.toNat ↔
          x.toNat / 16 = y.toNat / 16 ∧ x.toNat % 16 = y.toNat % 16 := by omega
      simp only [bytesToHex_cons, List.cons_lt_cons_iff, ih ys, hexDigit_lt_iff _ hxHigh _ hyHigh,
        hexDigit_lt_iff _ hxLow _ hyLow, hexDigit_inj hxHigh hyHigh, hexDigit_inj hxLow hyLow,
        UInt8.lt_iff_toNat_lt, ← UInt8.toNat_inj, below, equal]
      tauto

/-- Printing undoes reading on even texts of lower-case digits, reading undoes
printing on all bytes, and the case of a digit does not matter to the reader. -/
theorem hexCodec_roundTrip :
    (∀ bytes : List UInt8, hexToBytes (bytesToHexLoop bytes) = bytes) ∧
    (∀ text : Text, text.length % 2 = 0 → (∀ c ∈ text, LowerDigit c) →
      bytesToHexLoop (hexToBytes text) = text) ∧
    (∀ text : Text, (∀ c ∈ text, HexChar c) →
      hexToBytes (text.map toLower) = hexToBytes text) := by
  refine ⟨?_, ?_, ?_⟩
  · intro bytes
    rw [bytesToHexLoop_eq, hexToBytes_bytesToHex]
  · intro text even lower
    rw [bytesToHexLoop_eq, bytesToHex_hexToBytes even lower]
  · intro text digits
    exact hexBytes_map_toLower digits

theorem hexCodec_roundTrip_word :
    hexToBytes (bytesToHexLoop [0, 10, 255]) = [0, 10, 255] ∧
      bytesToHexLoop (hexToBytes (lit "000aff")) = lit "000aff" ∧
      hexToBytes ((lit "0aFf").map toLower) = hexToBytes (lit "0aFf") :=
  ⟨hexCodec_roundTrip.1 _,
    hexCodec_roundTrip.2.1 _ (by decide) (List.forall_iff_forall_mem.mp (by decide)),
    hexCodec_roundTrip.2.2 _ (List.forall_iff_forall_mem.mp (by decide))⟩

end HexCodec
