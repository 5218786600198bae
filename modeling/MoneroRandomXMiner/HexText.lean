import MoneroRandomXMiner.FixedWidth

/-!
# Hexadecimal text as the miner reads and prints it

`std::string` is its list of bytes. Decoders slice the text two characters at
a time and hand each slice to `strtol` with base 16; encoders print through a
stream with `std::hex`, a width and the fill character '0'.
-/

namespace HexText

open FixedWidth

abbrev Text := List UInt8

/-- The bytes of a source literal. -/
def lit (s : String) : Text := s.toUTF8.data.toList

def isSpace (c : UInt8) : Bool := c == 32 || (9 ≤ c && c ≤ 13)

def digitValue (c : UInt8) : Option Nat :=
  if 48 ≤ c ∧ c ≤ 57 then some (c.toNat - 48)
  else if 97 ≤ c ∧ c ≤ 102 then some (c.toNat - 87)
  else if 65 ≤ c ∧ c ≤ 70 then some (c.toNat - 55)
  else none

def readDigits (acc : Nat) : Text → Nat
  | [] => acc
  | c :: rest => match digitValue c with
    | some d => readDigits (16 * acc + d) rest
    | none => acc

/-- A leading "0x" or "0X" is skipped when a digit follows it. -/
def dropRadixPrefix : Text → Text
  | z :: x :: c :: rest =>
    if z = 48 ∧ (x = 120 ∨ x = 88) ∧ (digitValue c).isSome then c :: rest
    else z :: x :: c :: rest
  | t => t

/-- `strtol(text, nullptr, 16)`. The slices read here are too short to reach
the limits of `long`, so the clamping at those limits is left out. -/
def strtol16 (t : Text) : Int :=
  match t.dropWhile isSpace with
  | [] => 0
  | c :: rest =>
    if c = 45 then -(readDigits 0 (dropRadixPrefix rest) : Int)
    else if c = 43 then readDigits 0 (dropRadixPrefix rest)
    else readDigits 0 (dropRadixPrefix (c :: rest))

/-- `static_cast<uint8_t>(strtol(slice.c_str(), nullptr, 16))` -/
def hexByte (slice : Text) : UInt8 := UInt8.ofInt (strtol16 slice)

/-- The values of `text.substr(i, 2)` for `i = 0, 2, ...` below the length. -/
def slices : Text → List Text
  | [] => []
  | [a] => [[a]]
  | a :: b :: rest => [a, b] :: slices rest

/-- The slices with `i + 1` below the length: a last single character is dropped. -/
def fullSlices : Text → List Text
  | a :: b :: rest => [a, b] :: fullSlices rest
  | _ => []

/-- `BlobHelper::hex_to_bytes` -/
def hexToBytes (hex : Text) : List UInt8 := (slices hex).map hexByte

/-- `stream << std::hex << std::setw(width) << std::setfill('0') << n` -/
def putHex (width n : Nat) : Text :=
  ((Nat.toDigits 16 n).leftpad width '0').map Char.toUInt8

/-- `BlobHelper::bytes_to_hex` -/
def bytesToHex (bytes : List UInt8) : Text := bytes.flatMap fun b => putHex 2 b.toNat

def hexDigit (d : Nat) : UInt8 := (Nat.digitChar d).toUInt8

theorem digitValue_hexDigit {d : Nat} (hd : d < 16) : digitValue (hexDigit d) = some d := by
  interval_cases d <;> decide

theorem digit_bounds {c : UInt8} {d : Nat} (hd : digitValue c = some d) :
    48 ≤ c.toNat ∧ d < 16 ∧ (d = 0 → c = 48) := by
  unfold digitValue at hd
  split at hd
  · rename_i hrange
    obtain rfl := Option.some.inj hd
    have hlow : 48 ≤ c.toNat := hrange.1
    have hhigh : c.toNat ≤ 57 := hrange.2
    refine ⟨hlow, by omega, fun hzero => UInt8.toNat_inj.mp ?_⟩
    change c.toNat = 48
    omega
  · split at hd
    · rename_i hrange
      obtain rfl := Option.some.inj hd
      have hlow : 97 ≤ c.toNat := hrange.1
      have hhigh : c.toNat ≤ 102 := hrange.2
      exact ⟨by omega, by omega, fun hzero => by omega⟩
    · split at hd
      · rename_i hrange
        obtain rfl := Option.some.inj hd
        have hlow : 65 ≤ c.toNat := hrange.1
        have hhigh : c.toNat ≤ 70 := hrange.2
        exact ⟨by omega, by omega, fun hzero => by omega⟩
      · cases hd

/-- A digit of either case is neither skipped as a space nor taken for a sign. -/
theorem digit_starts {c : UInt8} {d : Nat} (hd : digitValue c = some d) :
    isSpace c = false ∧ c ≠ 45 ∧ c ≠ 43 := by
  obtain ⟨hlow, -, -⟩ := digit_bounds hd
  have hother : ∀ k : UInt8, k.toNat < 48 → c ≠ k := by
    rintro k hk rfl
    omega
  have hhigh : ¬c ≤ 13 := by
    intro hle
    have hnat : c.toNat ≤ 13 := hle
    omega
  have hspace : isSpace c = false := by simp [isSpace, hother 32 (by decide), hhigh]
  exact ⟨hspace, hother 45 (by decide), hother 43 (by decide)⟩

/-- Two digits of either case are one byte. -/
theorem hexByte_digits {a b : UInt8} {x y : Nat} (ha : digitValue a = some x)
    (hb : digitValue b = some y) : (hexByte [a, b]).toNat = 16 * x + y := by
  obtain ⟨_, hx, _⟩ := digit_bounds ha
  obtain ⟨_, hy, _⟩ := digit_bounds hb
  obtain ⟨hspace, hminus, hplus⟩ := digit_starts ha
  have hvalue : strtol16 [a, b] = ((16 * x + y : Nat) : Int) := by
    simp [strtol16, List.dropWhile, hspace, hminus, hplus, dropRadixPrefix, readDigits, ha, hb]
  rw [hexByte, hvalue, UInt8.ofInt]
  simp only [UInt8.toNat_ofNat']
  omega

theorem hexByte_digit {a : UInt8} {x : Nat} (ha : digitValue a = some x) :
    (hexByte [a]).toNat = x := by
  obtain ⟨_, hx, _⟩ := digit_bounds ha
  obtain ⟨hspace, hminus, hplus⟩ := digit_starts ha
  have hvalue : strtol16 [a] = (x : Int) := by
    simp [strtol16, List.dropWhile, hspace, hminus, hplus, dropRadixPrefix, readDigits, ha]
  rw [hexByte, hvalue, UInt8.ofInt]
  simp only [UInt8.toNat_ofNat']
  omega

theorem hexByte_pair {hi lo : Nat} (hhi : hi < 16) (hlo : lo < 16) :
    hexByte [hexDigit hi, hexDigit lo] = UInt8.ofNat (16 * hi + lo) := by
  apply UInt8.toNat_inj.mp
  rw [hexByte_digits (digitValue_hexDigit hhi) (digitValue_hexDigit hlo), UInt8.toNat_ofNat']
  omega

theorem length_slices (text : Text) : (slices text).length = (text.length + 1) / 2 := by
  induction text using slices.induct with
  | case1 => rfl
  | case2 a => simp [slices]
  | case3 a b rest ih =>
    simp only [slices, List.length_cons, ih]
    omega

theorem length_fullSlices (text : Text) : (fullSlices text).length = text.length / 2 := by
  induction text using slices.induct with
  | case1 => rfl
  | case2 a => simp [fullSlices]
  | case3 a b rest ih =>
    rw [fullSlices, List.length_cons, ih, List.length_cons, List.length_cons]
    omega

theorem fullSlices_of_even {text : Text} (even : text.length % 2 = 0) :
    fullSlices text = slices text := by
  induction text using slices.induct with
  | case1 => rfl
  | case2 a => simp at even
  | case3 a b rest ih =>
    rw [fullSlices, slices, ih]
    rw [List.length_cons, List.length_cons] at even
    omega

/-- Whole slices are taken by taking two characters for each. -/
theorem take_slices (text : Text) (k : Nat) :
    (slices text).take k = slices (text.take (2 * k)) := by
  induction text using slices.induct generalizing k with
  | case1 => simp [slices]
  | case2 a => cases k <;> simp [slices, Nat.mul_add]
  | case3 a b rest ih =>
    cases k with
    | zero => simp [slices]
    | succ k => simp [slices, Nat.mul_add, ih]

theorem putHex_eq_digits {w n : Nat} (hn : n < 16 ^ (w + 1)) :
    putHex (w + 1) n = (digitsBE 16 (w + 1) n).map hexDigit := by
  rw [putHex, leftpad_toDigits (by norm_num) w n hn, List.map_map]
  rfl

theorem hexToBytes_append {xs : Text} (hx : xs.length % 2 = 0) (ys : Text) :
    hexToBytes (xs ++ ys) = hexToBytes xs ++ hexToBytes ys := by
  induction xs using slices.induct with
  | case1 => simp [hexToBytes, slices]
  | case2 a => simp at hx
  | case3 a b rest ih =>
    have hrest : rest.length % 2 = 0 := by
      simp only [List.length_cons] at hx
      omega
    have htail := ih hrest
    simp only [hexToBytes] at htail ⊢
    simp [slices, htail]

@[simp] theorem length_digitsBE (b w n : Nat) : (digitsBE b w n).length = w := by
  induction w generalizing n with
  | zero => rfl
  | succ w ih => simp [digitsBE, ih]

/-- Two digits to a byte: the digits of `2 * k` places decode to `k` bytes,
both read from the most significant end. -/
theorem hexToBytes_digits (k n : Nat) :
    hexToBytes ((digitsBE 16 (2 * k) n).map hexDigit) = bytesBE k n := by
  induction k generalizing n with
  | zero => rfl
  | succ k ih =>
    have hsplit : digitsBE 16 (2 * (k + 1)) n =
        digitsBE 16 (2 * k) (n / 256) ++ [n / 16 % 16, n % 16] := by
      rw [show 2 * (k + 1) = 2 * k + 1 + 1 by ring, digitsBE, digitsBE, Nat.div_div_eq_div_mul]
      simp
    have hlast : hexToBytes ([n / 16 % 16, n % 16].map hexDigit) = [UInt8.ofNat n] := by
      have hmod : 16 * (n / 16 % 16) + n % 16 = n % 256 := by omega
      have hpair := hexByte_pair (Nat.mod_lt (n / 16) (by norm_num : 0 < 16))
        (Nat.mod_lt n (by norm_num : 0 < 16))
      rw [hmod] at hpair
      simp only [List.map_cons, List.map_nil, hexToBytes, slices, hpair]
      congr 1
      exact UInt8.toNat_inj.mp (by simp)
    rw [hsplit, List.map_append, hexToBytes_append (by simp), ih, hlast, bytesBE, bytesBE,
      bytesLE, List.reverse_cons]

/-- A zero-padded number of `2 * k` places decodes to its `k` bytes, big-endian. -/
theorem hexToBytes_putHex {k n : Nat} (hk : 0 < k) (hn : n < 256 ^ k) :
    hexToBytes (putHex (2 * k) n) = bytesBE k n := by
  obtain ⟨j, rfl⟩ : ∃ j, k = j + 1 := ⟨k - 1, by omega⟩
  have hwidth : n < 16 ^ (2 * j + 1 + 1) := by
    rw [show 2 * j + 1 + 1 = 2 * (j + 1) by ring, pow_mul]
    simpa using hn
  have hdigits := putHex_eq_digits hwidth
  rw [show 2 * j + 1 + 1 = 2 * (j + 1) by ring] at hdigits
  rw [hdigits, hexToBytes_digits]

theorem length_putHex {w n : Nat} (hn : n < 16 ^ (w + 1)) : (putHex (w + 1) n).length = w + 1 := by
  rw [putHex_eq_digits hn, List.length_map, length_digitsBE]

theorem putHex_byte (b : UInt8) :
    putHex 2 b.toNat = [hexDigit (b.toNat / 16), hexDigit (b.toNat % 16)] := by
  have hb := b.toNat_lt
  have hdigits := putHex_eq_digits (w := 1) (n := b.toNat) hb
  have hhigh : b.toNat / 16 % 16 = b.toNat / 16 := Nat.mod_eq_of_lt (by omega)
  rw [hdigits]
  simp [digitsBE, hhigh]

theorem bytesToHex_nil : bytesToHex [] = [] := rfl

theorem bytesToHex_cons (b : UInt8) (rest : List UInt8) : bytesToHex (b :: rest) =
    hexDigit (b.toNat / 16) :: hexDigit (b.toNat % 16) :: bytesToHex rest := by
  rw [bytesToHex, List.flatMap_cons, putHex_byte]
  rfl

/-- Printing bytes and decoding the text gives the bytes back. -/
theorem hexToBytes_bytesToHex (bytes : List UInt8) : hexToBytes (bytesToHex bytes) = bytes := by
  induction bytes with
  | nil => rfl
  | cons b rest ih =>
    have hb := b.toNat_lt
    have hpair : hexByte [hexDigit (b.toNat / 16), hexDigit (b.toNat % 16)] = b := by
      rw [hexByte_pair (by omega) (by omega), Nat.div_add_mod, UInt8.ofNat_toNat]
    rw [hexToBytes] at ih
    rw [bytesToHex_cons, hexToBytes, slices, List.map_cons, hpair, ih]

theorem length_bytesToHex (bytes : List UInt8) :
    (bytesToHex bytes).length = 2 * bytes.length := by
  induction bytes with
  | nil => rfl
  | cons b rest ih =>
    rw [bytesToHex_cons, List.length_cons, List.length_cons, ih, List.length_cons]
    ring

end HexText
