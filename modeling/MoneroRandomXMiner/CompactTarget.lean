import MoneroRandomXMiner.HexCodec
import MoneroRandomXMiner.TargetHelper

/-!
# Targets in full width as text

`TargetHelper` prints a target as sixteen digits, most significant first, and
reads it back from at most eight slices. Printing and reading are inverse, and
since the first digit weighs most, texts of one length are ordered as the
numbers they stand for.
-/

namespace CompactTarget

open FixedWidth HexText HexCodec TargetHelper

/-- `ss << std::hex << std::setw(16) << std::setfill('0') << target` -/
def uint64ToCompact (target : UInt64) : Text :=
  ((HexStream.zeroFilled.setw 16).put target.toNat).text

def toHexTarget (t : UInt64) : Text := uint64ToCompact t

theorem uint64ToCompact_eq (target : UInt64) :
    uint64ToCompact target = putHex 16 target.toNat := rfl

theorem hexToBytes_uint64ToCompact (target : UInt64) :
    hexToBytes (uint64ToCompact target) = bytesBE 8 target.toNat :=
  hexToBytes_putHex (k := 8) (by norm_num) target.toNat_lt

theorem length_uint64ToCompact (target : UInt64) : (uint64ToCompact target).length = 16 :=
  length_putHex (w := 15) target.toNat_lt

theorem lower_uint64ToCompact (target : UInt64) : ∀ c ∈ uint64ToCompact target, LowerDigit c := by
  intro c hc
  rw [uint64ToCompact_eq, putHex_eq_digits (w := 15) target.toNat_lt] at hc
  obtain ⟨d, hd, rfl⟩ := List.mem_map.mp hc
  exact lower_hexDigit (lt_of_mem_digitsBE (by norm_num) hd)

/-- The text of a target is what its eight bytes are printed as. -/
theorem bytesToHex_target (target : UInt64) :
    bytesToHex (bytesBE 8 target.toNat) = uint64ToCompact target := by
  rw [← hexToBytes_uint64ToCompact]
  exact bytesToHex_hexToBytes (by rw [length_uint64ToCompact]) (lower_uint64ToCompact target)

theorem compactToUint64_toNat {text : Text} (hlen : text.length ≤ 16) :
    (compactToUint64 text).toNat = valueLE (hexToBytes text).reverse :=
  fromHexTarget_toNat hlen

theorem compact_uint64 (target : UInt64) : compactToUint64 (uint64ToCompact target) = target := by
  have hlt : target.toNat < 256 ^ 8 := target.toNat_lt
  rw [← UInt64.toNat_inj, compactToUint64_toNat (length_uint64ToCompact target).le,
    hexToBytes_uint64ToCompact, bytesBE, List.reverse_reverse, valueLE_bytesLE,
    Nat.mod_eq_of_lt hlt]

/-- The bytes of a text of sixteen digits are the bytes of its number. -/
theorem bytesBE_compactToUint64 {text : Text} (hlen : text.length = 16) :
    bytesBE 8 (compactToUint64 text).toNat = hexToBytes text := by
  have hcount : (hexToBytes text).reverse.length = 8 := by
    simp [hexToBytes, length_slices, hlen]
  have hbytes := bytesLE_valueLE (hexToBytes text).reverse
  rw [hcount] at hbytes
  rw [compactToUint64_toNat hlen.le, bytesBE, hbytes, List.reverse_reverse]

theorem uint64_compact {text : Text} (hlen : text.length = 16)
    (lower : ∀ c ∈ text, LowerDigit c) : uint64ToCompact (compactToUint64 text) = text := by
  rw [← bytesToHex_target, bytesBE_compactToUint64 hlen]
  exact bytesToHex_hexToBytes (by rw [hlen]) lower

theorem compact_lt_iff {s t : Text} (same : s.length = t.length) (even : s.length % 2 = 0)
    (fits : s.length ≤ 16) (digitsS : ∀ c ∈ s, HexChar c) (digitsT : ∀ c ∈ t, HexChar c) :
    compactToUint64 s < compactToUint64 t ↔ s.map toLower < t.map toLower := by
  have hbytes : (hexToBytes s).length = (hexToBytes t).length := by
    simp [hexToBytes, length_slices, same]
  rw [UInt64.lt_iff_toNat_lt, compactToUint64_toNat fits, compactToUint64_toNat (same ▸ fits),
    valueLE_reverse_lt_iff hbytes, ← bytesToHex_lt_iff, bytesToHex_toLower even digitsS,
    bytesToHex_toLower (same ▸ even) digitsT]

/-- One number is read from two texts of one length exactly when they differ in case at most. -/
theorem compact_eq_iff {s t : Text} (same : s.length = t.length) (even : s.length % 2 = 0)
    (fits : s.length ≤ 16) (digitsS : ∀ c ∈ s, HexChar c) (digitsT : ∀ c ∈ t, HexChar c) :
    compactToUint64 s = compactToUint64 t ↔ s.map toLower = t.map toLower := by
  have hbytes : (hexToBytes s).reverse.length = (hexToBytes t).reverse.length := by
    simp [hexToBytes, length_slices, same]
  rw [← UInt64.toNat_inj, compactToUint64_toNat fits, compactToUint64_toNat (same ▸ fits)]
  constructor
  · intro value
    have bytes := bytesLE_valueLE (hexToBytes s).reverse
    rw [value, hbytes, bytesLE_valueLE, List.reverse_inj] at bytes
    rw [← bytesToHex_toLower even digitsS, ← bytesToHex_toLower (same ▸ even) digitsT, bytes]
  · intro lower
    rw [← hexBytes_map_toLower digitsS, lower, hexBytes_map_toLower digitsT]

/-- Printing and reading targets are inverse, and the order of the numbers read
is the order of the texts in lower case. -/
theorem compact_roundTrip :
    (∀ t : UInt64, compactToUint64 (uint64ToCompact t) = t ∧ fromHexTarget (toHexTarget t) = t) ∧
    (∀ s : Text, s.length = 16 → (∀ c ∈ s, LowerDigit c) →
      uint64ToCompact (compactToUint64 s) = s) ∧
    (∀ s t : Text, s.length = t.length → s.length % 2 = 0 → s.length ≤ 16 →
      (∀ c ∈ s, HexChar c) → (∀ c ∈ t, HexChar c) →
      (compactToUint64 s < compactToUint64 t ↔ s.map toLower < t.map toLower) ∧
      (compactToUint64 s = compactToUint64 t ↔ s.map toLower = t.map toLower)) := by
  refine ⟨fun t => ⟨compact_uint64 t, compact_uint64 t⟩, fun s => uint64_compact, ?_⟩
  intro s t same even fits digitsS digitsT
  exact ⟨compact_lt_iff same even fits digitsS digitsT,
    compact_eq_iff same even fits digitsS digitsT⟩

theorem compact_roundTrip_ten :
    compactToUint64 (uint64ToCompact 10) = 10 ∧
      uint64ToCompact (compactToUint64 (lit "000000000000000a")) = lit "000000000000000a" ∧
      (compactToUint64 (lit "0A") < compactToUint64 (lit "b0") ↔
        (lit "0A").map toLower < (lit "b0").map toLower) :=
  ⟨(compact_roundTrip.1 10).1,
    compact_roundTrip.2.1 _ (by decide) (List.forall_iff_forall_mem.mp (by decide)),
    (compact_roundTrip.2.2 _ _ (by decide) (by decide) (by decide)
      (List.forall_iff_forall_mem.mp (by decide))
      (List.forall_iff_forall_mem.mp (by decide))).1⟩

end CompactTarget
