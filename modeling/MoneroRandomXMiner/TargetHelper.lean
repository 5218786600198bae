import MoneroRandomXMiner.ShareTarget

/-!
# The target helper beside the miner's own test

`TargetHelper` reads a target of 16 digits most significant byte first and
compares it with the first eight bytes of the hash; the miner reads it least
significant byte first and compares it with the last eight. The two tests look
at different bytes, so they agree on every hash only for a target that no hash
can meet.
-/

namespace TargetHelper

open FixedWidth HexText MiningBlob ShareTarget

/-- `target = (target << 8) | byte` over the first eight slices. -/
def compactToUint64 (targetHex : Text) : UInt64 :=
  ((slices targetHex).take 8).foldl
    (fun target slice => target <<< 8 ||| (hexByte slice).toUInt64) 0

def fromHexTarget (s : Text) : UInt64 := compactToUint64 s

/-- `for (i = 7; i >= 0; --i) hv = (hv << 8) | hash[i]` -/
def hv (hash : Hash) : UInt64 :=
  (List.finRange 8).reverse.foldl (fun v i => v <<< 8 ||| (hash.get (Fin.castAdd 24 i)).toUInt64) 0

def hashMeetsTarget (hash : Hash) (target : UInt64) : Bool := hv hash < target

/-- Sixteen hexadecimal digits of either case. -/
def HexDigits (text : Text) : Prop :=
  text.length = 16 ∧ ∀ c ∈ text, (digitValue c).isSome

/-- The helper's test and the miner's test have the same outcome. -/
def TestsAgree (hash : Hash) (text : Text) : Prop :=
  hashMeetsTarget hash (fromHexTarget text) = ShareTarget.hashMeetsTarget hash (targetToUint64 text)

/-- The first and the last eight bytes of a hash, as little-endian numbers. -/
def headWord (hash : Hash) : Nat := valueLE (hash.toList.take 8)

def tailWord (hash : Hash) : Nat := valueLE (hash.toList.drop 24)

/-- The bytes of the text as a number, from either end. -/
def littleEndianValue (text : Text) : Nat := valueLE (hexToBytes text)

def bigEndianValue (text : Text) : Nat := valueLE (hexToBytes text).reverse

theorem hv_toNat (hash : Hash) : (hv hash).toNat = headWord hash := by
  have hhead : (List.finRange 8).map (fun i => hash.get (Fin.castAdd 24 i)) =
      hash.toList.take 8 := by
    apply List.ext_getElem
    · simp
    · intro i h₁ h₂
      simp [Vector.get]
  rw [headWord, ← hhead, ← foldr_shift_toNat _ (by simp), hv, List.foldl_reverse, List.foldr_map]

theorem fromHexTarget_toNat {text : Text} (hlen : text.length ≤ 16) :
    (fromHexTarget text).toNat = bigEndianValue text := by
  have hcount : (slices text).length ≤ 8 := by
    rw [length_slices]
    omega
  have hbytes : (hexToBytes text).reverse.length ≤ 8 := by simpa [hexToBytes] using hcount
  rw [bigEndianValue, ← foldr_shift_toNat _ hbytes, List.foldr_reverse, fromHexTarget,
    compactToUint64, List.take_of_length_le hcount, hexToBytes, List.foldl_map]

theorem targetToUint64_toNat {text : Text} (hlen : text.length = 16) :
    (targetToUint64 text).toNat = littleEndianValue text := by
  rw [wide_toNat (by omega), List.take_of_length_le (by omega), littleEndianValue]

theorem testsAgree_iff_sameSide {hash : Hash} {text : Text} (hlen : text.length = 16) :
    TestsAgree hash text ↔
      (headWord hash < bigEndianValue text ↔ tailWord hash < littleEndianValue text) := by
  have hhelper : hashMeetsTarget hash (fromHexTarget text) = true ↔
      headWord hash < bigEndianValue text := by
    rw [hashMeetsTarget, decide_eq_true_iff, UInt64.lt_iff_toNat_lt, hv_toNat,
      fromHexTarget_toNat hlen.le]
  have hminer : ShareTarget.hashMeetsTarget hash (targetToUint64 text) = true ↔
      tailWord hash < littleEndianValue text := by
    rw [hashMeetsTarget_iff, hashValue_toNat, targetToUint64_toNat hlen, tailWord]
  rw [TestsAgree, Bool.eq_iff_iff, hhelper, hminer]

theorem zero_of_valueLE {bs : List UInt8} (zero : valueLE bs = 0) : ∀ b ∈ bs, b = 0 := by
  induction bs with
  | nil => exact fun b hb => nomatch hb
  | cons a bs ih =>
    rw [valueLE_cons] at zero
    intro b hb
    rcases List.mem_cons.mp hb with rfl | old
    · exact UInt8.toNat_inj.mp (by simpa using (by omega : b.toNat = 0))
    · exact ih (by omega) b old

/-- Only zero digits make up bytes that are all zero. -/
theorem zeros_of_bytes {text : Text} (heven : text.length % 2 = 0)
    (digits : ∀ c ∈ text, (digitValue c).isSome) (zero : ∀ b ∈ hexToBytes text, b = 0) :
    ∀ c ∈ text, c = 48 := by
  induction text using slices.induct with
  | case1 =>
    intro c hc
    cases hc
  | case2 a => simp at heven
  | case3 a b rest ih =>
    obtain ⟨x, hx⟩ := Option.isSome_iff_exists.mp (digits a (by simp))
    obtain ⟨y, hy⟩ := Option.isSome_iff_exists.mp (digits b (by simp))
    have hpair : 16 * x + y = 0 := by
      rw [← hexByte_digits hx hy, zero (hexByte [a, b]) (by simp [hexToBytes, slices])]
      rfl
    have hrest : ∀ c ∈ rest, c = 48 := by
      apply ih
      · simp only [List.length_cons] at heven
        omega
      · exact fun c hc => digits c (by simp [hc])
      · intro c hc
        apply zero c
        simp only [hexToBytes, slices, List.map_cons, List.mem_cons]
        exact Or.inr hc
    intro c hc
    rcases List.mem_cons.mp hc with rfl | hc
    · exact (digit_bounds hx).2.2 (by omega)
    · rcases List.mem_cons.mp hc with rfl | hc
      · exact (digit_bounds hy).2.2 (by omega)
      · exact hrest c hc

/-- A hash that no target lets through by its first bytes, and every target but
zero by its last. -/
def lopsidedHash : Hash :=
  ⟨(List.replicate 24 (255 : UInt8) ++ List.replicate 8 0).toArray, by simp⟩

theorem words_lopsidedHash :
    headWord lopsidedHash = 2 ^ 64 - 1 ∧ tailWord lopsidedHash = 0 := by decide +kernel

/-- For each hash the two tests agree exactly when the two words lie on the same
side of their thresholds, and for all hashes only for the target of sixteen zeros. -/
theorem testsAgree_iff {text : Text} (digits : HexDigits text) :
    (∀ hash, TestsAgree hash text ↔
      (headWord hash < bigEndianValue text ↔ tailWord hash < littleEndianValue text)) ∧
    ((∀ hash, TestsAgree hash text) ↔ text = List.replicate 16 48) := by
  refine ⟨fun hash => testsAgree_iff_sameSide digits.1, ?_⟩
  constructor
  · intro agree
    have hsides := (testsAgree_iff_sameSide digits.1).mp (agree lopsidedHash)
    rw [words_lopsidedHash.1, words_lopsidedHash.2] at hsides
    have hbytes : (hexToBytes text).reverse.length = 8 := by
      simp [hexToBytes, length_slices, digits.1]
    have hmax : bigEndianValue text < 256 ^ 8 := hbytes ▸ valueLE_lt (hexToBytes text).reverse
    have hzero : littleEndianValue text = 0 := by
      by_contra hne
      have hpos := hsides.mpr (Nat.pos_of_ne_zero hne)
      omega
    have hdigits := zeros_of_bytes (by rw [digits.1]) digits.2 (zero_of_valueLE hzero)
    exact List.eq_replicate_iff.mpr ⟨digits.1, hdigits⟩
  · rintro rfl hash
    have hzero : bigEndianValue (List.replicate 16 48) = 0 ∧
        littleEndianValue (List.replicate 16 48) = 0 := by decide +kernel
    rw [testsAgree_iff_sameSide digits.1, hzero.1, hzero.2]
    simp

/-- The threshold 1 of the short word, in the order a pool sends it. -/
theorem testsAgree_iff_one :
    (∀ hash, TestsAgree hash (lit "0100000000000000") ↔
      (headWord hash < bigEndianValue (lit "0100000000000000") ↔
        tailWord hash < littleEndianValue (lit "0100000000000000"))) ∧
    ((∀ hash, TestsAgree hash (lit "0100000000000000")) ↔
      lit "0100000000000000" = List.replicate 16 48) :=
  testsAgree_iff ⟨by decide, List.all_eq_true.mp (by decide)⟩

/-- The miner takes a hash that ends in zeros for the target 1; the helper does not. -/
theorem testsAgree_fails_one :
    ShareTarget.hashMeetsTarget lopsidedHash (targetToUint64 (lit "0100000000000000")) = true ∧
      hashMeetsTarget lopsidedHash (fromHexTarget (lit "0100000000000000")) = false ∧
      ¬ TestsAgree lopsidedHash (lit "0100000000000000") := by
  have hminer : ShareTarget.hashMeetsTarget lopsidedHash
      (targetToUint64 (lit "0100000000000000")) = true := by decide +kernel
  have hhelper : hashMeetsTarget lopsidedHash (fromHexTarget (lit "0100000000000000")) =
      false := by decide +kernel
  refine ⟨hminer, hhelper, ?_⟩
  rw [TestsAgree, hminer, hhelper]
  exact Bool.false_ne_true

end TargetHelper
