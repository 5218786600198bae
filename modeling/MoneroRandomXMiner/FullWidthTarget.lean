import MoneroRandomXMiner.ShareTarget

/-!
# The long form of a target and the test of a hash, as numbers

The two loops run in opposite directions. Read as numbers both are
little-endian: the target is the value of its digits taken as byte pairs, and a
hash meets it when the upper 64 bits of the hash are below it.
-/

namespace FullWidthTarget

open FixedWidth HexText MiningBlob ShareTarget

def AllDigits (text : Text) : Prop := ∀ c ∈ text, (digitValue c).isSome

/-- The value of a digit of either case. -/
def digit (c : UInt8) : Nat := (digitValue c).getD 0

/-- Digits read as byte pairs, least significant byte first. A last single digit
is a byte of its own. -/
def pairValue : Text → Nat
  | [] => 0
  | [c] => digit c
  | high :: low :: rest => 16 * digit high + digit low + 256 * pairValue rest

/-- The hash as a 256-bit little-endian number. -/
def hashNumber (hash : Hash) : Nat := valueLE hash.toList

/-- On digits the decoded bytes have the value of the pairs. -/
theorem valueLE_hexToBytes {text : Text} (digits : AllDigits text) :
    valueLE (hexToBytes text) = pairValue text := by
  induction text using slices.induct with
  | case1 => rfl
  | case2 a =>
    obtain ⟨x, hx⟩ := Option.isSome_iff_exists.mp (digits a (by simp))
    simp [hexToBytes, slices, pairValue, digit, hx, hexByte_digit hx]
  | case3 a b rest ih =>
    obtain ⟨x, hx⟩ := Option.isSome_iff_exists.mp (digits a (by simp))
    obtain ⟨y, hy⟩ := Option.isSome_iff_exists.mp (digits b (by simp))
    have htail : valueLE (hexToBytes rest) = pairValue rest :=
      ih fun c hc => digits c (by simp [hc])
    rw [hexToBytes] at htail
    simp [hexToBytes, slices, pairValue, digit, hx, hy, hexByte_digits hx hy, htail]

theorem targetToUint64_digits {text : Text} (long : 8 < text.length) (digits : AllDigits text) :
    (targetToUint64 text).toNat = pairValue (text.take 16) := by
  rw [wide_toNat long, valueLE_hexToBytes]
  intro c hc
  exact digits c (List.mem_of_mem_take hc)

theorem targetToUint64_littleEndianText (v : UInt64) :
    targetToUint64 (littleEndianText 8 v.toNat) = v :=
  UInt64.toNat_inj.mp (wideForm_toNat v.toNat_lt)

/-- The word that is compared is the hash without its lower 192 bits. -/
theorem hashValue_eq_div (hash : Hash) : (hashValue hash).toNat = hashNumber hash / 2 ^ 192 := by
  have hlen : (hash.toList.take 24).length = 24 := by simp
  have hlow : valueLE (hash.toList.take 24) < 256 ^ 24 := by
    have hlt := valueLE_lt (hash.toList.take 24)
    rwa [hlen] at hlt
  have hsplit : hashNumber hash =
      valueLE (hash.toList.take 24) + 256 ^ 24 * valueLE (hash.toList.drop 24) := by
    have happend := valueLE_append (hash.toList.take 24) (hash.toList.drop 24)
    rwa [List.take_append_drop, hlen] at happend
  rw [hashValue_toNat, hsplit, show (2 : Nat) ^ 192 = 256 ^ 24 by norm_num,
    Nat.add_mul_div_left _ _ (by positivity), Nat.div_eq_of_lt hlow, Nat.zero_add]

theorem hashMeetsTarget_iff_div (hash : Hash) (target : UInt64) :
    hashMeetsTarget hash target = true ↔ hashNumber hash / 2 ^ 192 < target.toNat := by
  rw [hashMeetsTarget_iff, hashValue_eq_div]

/-- Long targets and hashes are read the same way, least significant byte first. -/
theorem fullWidth (text : Text) (long : 8 < text.length) (digits : AllDigits text) :
    (targetToUint64 text).toNat = pairValue (text.take 16) ∧
      (∀ v : UInt64, targetToUint64 (littleEndianText 8 v.toNat) = v) ∧
      ∀ (hash : Hash) (target : UInt64),
        hashMeetsTarget hash target = true ↔ hashNumber hash / 2 ^ 192 < target.toNat := by
  constructor
  · exact targetToUint64_digits long digits
  · exact ⟨targetToUint64_littleEndianText, hashMeetsTarget_iff_div⟩

/-- Nine digits of both cases: four pairs and a last digit. -/
theorem fullWidth_nineDigits :
    (targetToUint64 (lit "aB00Ff107")).toNat = pairValue ((lit "aB00Ff107").take 16) ∧
      (∀ v : UInt64, targetToUint64 (littleEndianText 8 v.toNat) = v) ∧
      ∀ (hash : Hash) (target : UInt64),
        hashMeetsTarget hash target = true ↔ hashNumber hash / 2 ^ 192 < target.toNat :=
  fullWidth (lit "aB00Ff107") (by decide) (List.all_eq_true.mp (by decide))

example : pairValue (lit "aB00Ff107") = 0xab + 256 * (256 * (0xff + 256 * (0x10 + 256 * 0x7))) := by
  decide

end FullWidthTarget
