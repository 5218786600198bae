import MoneroRandomXMiner.MiningBlob

/-!
# The blob helper beside the miner's own blob builder

`BlobHelper` decodes a blob text, checks its size and writes the nonce in
separate functions that the miner does not call. A last single character is a
byte for the one and is dropped by the other.
-/

namespace BlobHelper

open FixedWidth HexText MiningBlob

/-- An access past the end is undefined; it changes nothing here. -/
def insertNonce (blob : List UInt8) (nonce offset : UInt32) : List UInt8 :=
  (((blob.set offset.toNat (nonce &&& 0xFF).toUInt8).set
    (offset + 1).toNat (nonce >>> 8 &&& 0xFF).toUInt8).set
    (offset + 2).toNat (nonce >>> 16 &&& 0xFF).toUInt8).set
    (offset + 3).toNat (nonce >>> 24 &&& 0xFF).toUInt8

/-- An access past the end is undefined; it reads zero here. -/
def extractNonce (blob : List UInt8) (offset : UInt32) : UInt32 :=
  (blob.getD offset.toNat 0).toUInt32 ||| (blob.getD (offset + 1).toNat 0).toUInt32 <<< 8 |||
    (blob.getD (offset + 2).toNat 0).toUInt32 <<< 16 |||
    (blob.getD (offset + 3).toNat 0).toUInt32 <<< 24

/-- `blob.insert(blob.begin() + 43, extra.begin(), extra.end())` -/
def insertExtraNonce (blob extra : List UInt8) : List UInt8 :=
  blob.take 43 ++ extra ++ blob.drop 43

def extractExtraNonce (blob : List UInt8) : List UInt8 :=
  if blob.length > 43 then blob.drop 43 else []

def validateBlob (blob : List UInt8) : Bool := blob.length ≥ 76

def getNonceOffset (_blob : List UInt8) : UInt64 := 39

theorem length_storeNonce (blob : List UInt8) (offset : Nat) (nonce : UInt32) :
    (storeNonce blob offset nonce).length = blob.length := by
  simp [storeNonce]

/-- At the offset of a block header both nonce writers are one. -/
theorem insertNonce_eq_storeNonce (blob : List UInt8) (nonce : UInt32) :
    insertNonce blob nonce (getNonceOffset blob).toUInt32 = storeNonce blob 39 nonce := rfl

/-- Four bytes or-ed at their places are the little-endian value. -/
theorem toNat_or_bytes (b₀ b₁ b₂ b₃ : UInt8) :
    (b₀.toUInt32 ||| b₁.toUInt32 <<< 8 ||| b₂.toUInt32 <<< 16 ||| b₃.toUInt32 <<< 24).toNat =
      valueLE [b₀, b₁, b₂, b₃] := by
  have h₀ := b₀.toNat_lt
  have h₁ := b₁.toNat_lt
  have h₂ := b₂.toNat_lt
  have zeroth : b₀.toUInt32.toNat = b₀.toNat := UInt8.toNat_toUInt32 b₀
  have first := or_shift_toNat32 (k := 1) (by norm_num)
    (show b₀.toUInt32.toNat < 256 ^ 1 by omega) b₁
  have second := or_shift_toNat32 (k := 2) (by norm_num) (by rw [first]; omega) b₂
  have third := or_shift_toNat32 (k := 3) (by norm_num) (by rw [second, first]; omega) b₃
  simp only [valueLE_cons, valueLE_nil]
  refine third.trans ?_
  rw [second, first, zeroth]
  ring

/-- The whole field is inside the blob, and its offsets do not wrap. -/
def Inside (blob : List UInt8) (offset : UInt32) : Prop :=
  offset.toNat + 3 < blob.length ∧ offset.toNat + 3 < 2 ^ 32

instance (blob : List UInt8) (offset : UInt32) : Decidable (Inside blob offset) :=
  inferInstanceAs (Decidable (_ ∧ _))

theorem Inside.toNat_add {blob : List UInt8} {offset : UInt32} (inside : Inside blob offset) :
    (offset + 1).toNat = offset.toNat + 1 ∧ (offset + 2).toNat = offset.toNat + 2 ∧
      (offset + 3).toNat = offset.toNat + 3 := by
  obtain ⟨-, noWrap⟩ := inside
  refine ⟨?_, ?_, ?_⟩
  · rw [UInt32.toNat_add]
    exact Nat.mod_eq_of_lt (show offset.toNat + 1 < 2 ^ 32 by omega)
  · rw [UInt32.toNat_add]
    exact Nat.mod_eq_of_lt (show offset.toNat + 2 < 2 ^ 32 by omega)
  · rw [UInt32.toNat_add]
    exact Nat.mod_eq_of_lt noWrap

theorem insertNonce_eq_splice {blob : List UInt8} {offset : UInt32} (nonce : UInt32)
    (inside : Inside blob offset) :
    insertNonce blob nonce offset = splice blob offset.toNat (bytesLE 4 nonce.toNat) := by
  obtain ⟨h₁, h₂, h₃⟩ := inside.toNat_add
  rw [← storeNonce_eq_splice nonce inside.1, insertNonce, h₁, h₂, h₃, storeNonce]

/-- The four reads are the little-endian value of the field. -/
theorem extractNonce_toNat {blob : List UInt8} {offset : UInt32} (inside : Inside blob offset) :
    (extractNonce blob offset).toNat = valueLE ((blob.drop offset.toNat).take 4) := by
  obtain ⟨h₁, h₂, h₃⟩ := inside.toNat_add
  have hlong := inside.1
  have hfield : (blob.drop offset.toNat).take 4 =
      [blob.getD offset.toNat 0, blob.getD (offset.toNat + 1) 0, blob.getD (offset.toNat + 2) 0,
        blob.getD (offset.toNat + 3) 0] := by
    apply List.ext_getElem
    · simp only [List.length_take, List.length_drop, List.length_cons, List.length_nil]
      omega
    · intro i hi _
      have hi4 : i < 4 := by
        rw [List.length_take] at hi
        omega
      interval_cases i <;>
        simp [show offset.toNat < blob.length by omega,
          show offset.toNat + 1 < blob.length by omega,
          show offset.toNat + 2 < blob.length by omega, hlong]
  rw [extractNonce, toNat_or_bytes, h₁, h₂, h₃, hfield]

theorem extractNonce_insertNonce {blob : List UInt8} {offset : UInt32} (nonce : UInt32)
    (inside : Inside blob offset) :
    extractNonce (insertNonce blob nonce offset) offset = nonce := by
  have field : offset.toNat + (bytesLE 4 nonce.toNat).length ≤ blob.length := by
    rw [length_bytesLE]
    exact inside.1
  have written : Inside (insertNonce blob nonce offset) offset := by
    rw [insertNonce_eq_splice nonce inside]
    refine ⟨?_, inside.2⟩
    rw [length_splice field]
    exact inside.1
  have hslice := slice_splice field
  rw [length_bytesLE] at hslice
  apply UInt32.toNat_inj.mp
  rw [extractNonce_toNat written, insertNonce_eq_splice nonce inside, hslice, valueLE_bytesLE]
  exact Nat.mod_eq_of_lt nonce.toNat_lt

/-- Writing and reading the nonce at one place of a blob. -/
structure FieldLaws (blob : List UInt8) (offset n m : UInt32) : Prop where
  extracted : extractNonce (insertNonce blob n offset) offset = n
  restored : insertNonce blob (extractNonce blob offset) offset = blob
  overridden : insertNonce (insertNonce blob n offset) m offset = insertNonce blob m offset
  size : (insertNonce blob n offset).length = blob.length
  outside : ∀ i, i < offset.toNat ∨ offset.toNat + 3 < i →
    (insertNonce blob n offset)[i]? = blob[i]?

theorem insertNonce_extractNonce {blob : List UInt8} {offset : UInt32}
    (inside : Inside blob offset) :
    insertNonce blob (extractNonce blob offset) offset = blob := by
  have hlen : ((blob.drop offset.toNat).take 4).length = 4 := by
    rw [List.length_take, List.length_drop]
    have hlong := inside.1
    omega
  have hbytes : bytesLE 4 (extractNonce blob offset).toNat =
      (blob.drop offset.toNat).take 4 := by
    have hvalue := bytesLE_valueLE ((blob.drop offset.toNat).take 4)
    rwa [hlen, ← extractNonce_toNat inside] at hvalue
  rw [insertNonce_eq_splice _ inside, hbytes]
  exact splice_slice inside.1

theorem fieldLaws_of_inside {blob : List UInt8} {offset : UInt32} (inside : Inside blob offset)
    (n m : UInt32) : FieldLaws blob offset n m := by
  have field : ∀ nonce : UInt32,
      offset.toNat + (bytesLE 4 nonce.toNat).length ≤ blob.length := by
    intro nonce
    rw [length_bytesLE]
    exact inside.1
  have size : (insertNonce blob n offset).length = blob.length := by
    rw [insertNonce_eq_splice n inside]
    exact length_splice (field n)
  refine ⟨extractNonce_insertNonce n inside, insertNonce_extractNonce inside, ?_, size, ?_⟩
  · have written : Inside (insertNonce blob n offset) offset := by
      refine ⟨?_, inside.2⟩
      rw [size]
      exact inside.1
    rw [insertNonce_eq_splice m written, insertNonce_eq_splice n inside,
      insertNonce_eq_splice m inside]
    exact splice_splice (by rw [length_bytesLE, length_bytesLE]) (field n)
  · intro i outside
    rw [insertNonce_eq_splice n inside]
    apply getElem?_splice_outside (field n)
    rw [length_bytesLE]
    omega

/-- The field ends where the extra nonce goes. -/
theorem insertExtraNonce_insertNonce {blob : List UInt8} (extra : List UInt8) (nonce : UInt32)
    (long : 43 ≤ blob.length) :
    insertExtraNonce (insertNonce blob nonce 39) extra =
      insertNonce (insertExtraNonce blob extra) nonce 39 := by
  have inside : Inside blob 39 := ⟨long, by decide⟩
  have hhead : (blob.take 43).length = 43 := by
    rw [List.length_take]
    omega
  have inside' : Inside (insertExtraNonce blob extra) 39 := by
    refine ⟨show 42 < (insertExtraNonce blob extra).length from ?_, by decide⟩
    simp only [insertExtraNonce, List.length_append, hhead]
    omega
  have hbytes : (blob.take 39 ++ bytesLE 4 nonce.toNat).length = 43 := by
    rw [List.length_append, List.length_take, length_bytesLE]
    omega
  have before : (insertExtraNonce blob extra).take 39 = blob.take 39 := by
    rw [insertExtraNonce, List.append_assoc, List.take_append_of_le_length (by omega),
      List.take_take]
    rfl
  have behind : (insertExtraNonce blob extra).drop 43 = extra ++ blob.drop 43 := by
    rw [insertExtraNonce, List.append_assoc, List.drop_left' hhead]
  have at39 : (39 : UInt32).toNat = 39 := rfl
  rw [insertNonce_eq_splice nonce inside, insertNonce_eq_splice nonce inside', at39, splice,
    splice, length_bytesLE, before, behind, insertExtraNonce, List.take_left' hbytes,
    List.drop_left' hbytes, List.append_assoc _ extra]

/-- The laws of the nonce field at every place inside a blob; and at the place of
the header an extra nonce is inserted behind it without touching it. -/
theorem nonceField_laws :
    (∀ (blob : List UInt8) (offset : UInt32), Inside blob offset →
      ∀ n m, FieldLaws blob offset n m) ∧
    ∀ (blob : List UInt8), 43 ≤ blob.length → ∀ (extra : List UInt8) (n : UInt32),
      insertExtraNonce (insertNonce blob n 39) extra =
        insertNonce (insertExtraNonce blob extra) n 39 :=
  ⟨fun _ _ inside n m => fieldLaws_of_inside inside n m,
    fun _ long extra n => insertExtraNonce_insertNonce extra n long⟩

theorem nonceField_laws_zeros :
    FieldLaws (List.replicate 76 0) 39 0xDEADBEEF 1 ∧
      insertExtraNonce (insertNonce (List.replicate 76 0) 0xDEADBEEF 39) [7] =
        insertNonce (insertExtraNonce (List.replicate 76 0) [7]) 0xDEADBEEF 39 :=
  ⟨nonceField_laws.1 _ _ (by decide) _ _, nonceField_laws.2 _ (by decide) _ _⟩

/-- The builder and the helper agree on a text: the same texts are accepted, and
an accepted one gives the same bytes. -/
structure Agree (s : Text) (nonce : UInt32) : Prop where
  accepted : (∃ input, constructMiningBlob s nonce = .ok input) ↔
    validateBlob (hexToBytes s) = true
  sameBytes : ∀ input, constructMiningBlob s nonce = .ok input →
    input = insertNonce (hexToBytes s) nonce (getNonceOffset (hexToBytes s)).toUInt32

theorem validateBlob_hexToBytes_iff (s : Text) :
    validateBlob (hexToBytes s) = true ↔ 151 ≤ s.length := by
  simp only [validateBlob, hexToBytes, List.length_map, length_slices, ge_iff_le,
    decide_eq_true_eq]
  omega

theorem constructMiningBlob_accepts_iff (s : Text) (nonce : UInt32) :
    (∃ input, constructMiningBlob s nonce = .ok input) ↔ 152 ≤ s.length := by
  rw [constructMiningBlob_isOk_iff, List.length_map, length_fullSlices]
  omega

theorem constructMiningBlob_eq {s : Text} {nonce : UInt32} {input : List UInt8}
    (built : constructMiningBlob s nonce = .ok input) :
    input = storeNonce ((fullSlices s).map hexByte) 39 nonce := by
  rw [constructMiningBlob] at built
  split at built
  · cases built
  · exact (Except.ok.inj built).symm

/-- The two agree exactly on the texts without a last single digit, and on those
too short for either. -/
theorem agree_iff (s : Text) (nonce : UInt32) :
    Agree s nonce ↔ s.length % 2 = 0 ∨ s.length < 151 := by
  constructor
  · intro agree
    by_contra! odd
    have accepts : ∃ input, constructMiningBlob s nonce = .ok input :=
      agree.accepted.mpr ((validateBlob_hexToBytes_iff s).mpr odd.2)
    obtain ⟨input, built⟩ := accepts
    have hsame := agree.sameBytes input built
    have hlen := congrArg List.length ((constructMiningBlob_eq built).symm.trans hsame)
    rw [insertNonce_eq_storeNonce, length_storeNonce, length_storeNonce, hexToBytes,
      List.length_map, List.length_map, length_fullSlices, length_slices] at hlen
    omega
  · intro fits
    constructor
    · rw [constructMiningBlob_accepts_iff, validateBlob_hexToBytes_iff]
      omega
    · intro input built
      have hlong := (constructMiningBlob_accepts_iff s nonce).mp ⟨input, built⟩
      have even : s.length % 2 = 0 := by omega
      rw [constructMiningBlob_eq built, insertNonce_eq_storeNonce, hexToBytes,
        fullSlices_of_even even]

/-- 151 digits: 75 bytes for the builder, 76 for the helper. -/
theorem agree_fails_oddDigits : ¬Agree (List.replicate 151 48) 0 := by
  intro agree
  have valid : validateBlob (hexToBytes (List.replicate 151 48)) = true := by
    rw [validateBlob_hexToBytes_iff, List.length_replicate]
  have long := (constructMiningBlob_accepts_iff _ 0).mp (agree.accepted.mpr valid)
  rw [List.length_replicate] at long
  omega

/-- What `extract_extra_nonce` returns, taken out of the blob again. -/
def removeExtraNonce (blob : List UInt8) : List UInt8 :=
  blob.take 43 ++ blob.drop (43 + (extractExtraNonce blob).length)

structure RoundTrip (blob extra : List UInt8) : Prop where
  extracted : extractExtraNonce (insertExtraNonce blob extra) = extra
  restored : removeExtraNonce (insertExtraNonce blob extra) = blob

/-- The field is read to the end of the blob. -/
theorem extractExtraNonce_insertExtraNonce {blob : List UInt8} (extra : List UInt8)
    (valid : validateBlob blob = true) :
    extractExtraNonce (insertExtraNonce blob extra) = extra ++ blob.drop 43 := by
  have hsize : 76 ≤ blob.length := by simpa [validateBlob] using valid
  have hhead : (blob.take 43).length = 43 := by
    rw [List.length_take]
    omega
  have hlong : (insertExtraNonce blob extra).length > 43 := by
    simp only [insertExtraNonce, List.length_append, List.length_drop, hhead]
    omega
  rw [extractExtraNonce, if_pos hlong, insertExtraNonce, List.append_assoc,
    List.drop_append_of_le_length (by omega), List.drop_take_self, List.nil_append]

theorem roundTrip_never {blob : List UInt8} (extra : List UInt8)
    (valid : validateBlob blob = true) : ¬RoundTrip blob extra := by
  intro trip
  have hsize : 76 ≤ blob.length := by simpa [validateBlob] using valid
  have hextra := trip.extracted
  rw [extractExtraNonce_insertExtraNonce extra valid] at hextra
  have hlen := congrArg List.length hextra
  rw [List.length_append, List.length_drop] at hlen
  omega

theorem roundTrip_never_twoBytes : ¬RoundTrip (List.replicate 100 7) [5, 6] :=
  roundTrip_never [5, 6] (by decide)

/-- A blob of 76 zeros with one byte inserted: 34 bytes come back. -/
theorem roundTrip_fails_zeros : ¬RoundTrip (List.replicate 76 0) [1] := by
  intro trip
  exact absurd trip.extracted (by decide)

end BlobHelper
