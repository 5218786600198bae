import MoneroRandomXMiner.HexText

/-!
# Jobs, mining blobs and the text of a share

The block template of a job arrives as hexadecimal text. The miner decodes
it, stores its 32-bit nonce in the four bytes at offset 39 and hashes the
result; a share carries the nonce and the hash back as text.
-/

namespace MiningBlob

open FixedWidth HexText

/-- `received_time` is left out: the clock value is stored and never read. -/
structure MiningJob where
  jobId : Text
  blob : Text
  target : Text
  seedHash : Text
  height : UInt64
  deriving DecidableEq

/-- The value-initialised job a miner starts with. -/
def MiningJob.empty : MiningJob := ⟨[], [], [], [], 0⟩

abbrev Hash := Vector UInt8 32

/-- `blob[offset + k] = (nonce >> 8 * k) & 0xFF` for `k = 0, 1, 2, 3` -/
def storeNonce (blob : List UInt8) (offset : Nat) (nonce : UInt32) : List UInt8 :=
  (((blob.set offset (nonce &&& 0xFF).toUInt8).set
    (offset + 1) (nonce >>> 8 &&& 0xFF).toUInt8).set
    (offset + 2) (nonce >>> 16 &&& 0xFF).toUInt8).set
    (offset + 3) (nonce >>> 24 &&& 0xFF).toUInt8

/-- The thrown `std::runtime_error` is the error, with its text. -/
def constructMiningBlob (blobHex : Text) (nonce : UInt32) : Except String (List UInt8) :=
  let blob := (fullSlices blobHex).map hexByte
  if blob.length < 76 then
    .error ("Invalid mining blob size: " ++ toString blob.length)
  else
    .ok (storeNonce blob 39 nonce)

structure Share where
  jobId : Text
  nonce : Text
  result : Text
  deriving DecidableEq

def nonceText (nonce : UInt32) : Text := putHex 8 nonce.toNat

def hashText (hash : Hash) : Text := bytesToHex hash.toList

/-- The arguments of `submit_share` for a solution of a job. -/
def shareOf (job : MiningJob) (nonce : UInt32) (hash : Hash) : Share :=
  ⟨job.jobId, nonceText nonce, hashText hash⟩

theorem nonceBytes_eq (nonce : UInt32) :
    [(nonce &&& 0xFF).toUInt8, (nonce >>> 8 &&& 0xFF).toUInt8,
      (nonce >>> 16 &&& 0xFF).toUInt8, (nonce >>> 24 &&& 0xFF).toUInt8] =
    bytesLE 4 nonce.toNat := by
  have hmask : ∀ m : Nat, m &&& 255 = m % 256 := fun m => Nat.and_two_pow_sub_one_eq_mod m 8
  have hbyte : ∀ (m : UInt32) (k : Nat), m.toNat = k → (m &&& 0xFF).toUInt8 = UInt8.ofNat k := by
    intro m k hk
    apply UInt8.toNat_inj.mp
    subst hk
    simp [hmask]
  simp only [bytesLE, Nat.div_div_eq_div_mul]
  rw [hbyte nonce _ rfl,
    hbyte (nonce >>> 8) (nonce.toNat / 256) (by simp [Nat.shiftRight_eq_div_pow]),
    hbyte (nonce >>> 16) (nonce.toNat / (256 * 256)) (by simp [Nat.shiftRight_eq_div_pow]),
    hbyte (nonce >>> 24) (nonce.toNat / (256 * (256 * 256)))
      (by simp [Nat.shiftRight_eq_div_pow])]

/-- The four stores overwrite one field with the little-endian nonce. -/
theorem storeNonce_eq_splice {blob : List UInt8} {offset : Nat} (nonce : UInt32)
    (inside : offset + 4 ≤ blob.length) :
    storeNonce blob offset nonce = splice blob offset (bytesLE 4 nonce.toNat) := by
  rw [← nonceBytes_eq, ← setAll_eq_splice _ inside]
  rfl

theorem constructMiningBlob_ok {blobHex : Text} {nonce : UInt32} {input : List UInt8}
    (built : constructMiningBlob blobHex nonce = .ok input) :
    76 ≤ ((fullSlices blobHex).map hexByte).length ∧
      input = splice ((fullSlices blobHex).map hexByte) 39 (bytesLE 4 nonce.toNat) := by
  simp only [constructMiningBlob] at built
  split at built
  · cases built
  · rename_i hsize
    have hlen : 76 ≤ ((fullSlices blobHex).map hexByte).length := Nat.le_of_not_lt hsize
    refine ⟨hlen, ?_⟩
    rw [← storeNonce_eq_splice nonce (by omega)]
    exact (Except.ok.inj built).symm

/-- Whether a blob is accepted does not depend on the nonce. -/
theorem constructMiningBlob_isOk_iff (blobHex : Text) (nonce : UInt32) :
    (∃ input, constructMiningBlob blobHex nonce = .ok input) ↔
      76 ≤ ((fullSlices blobHex).map hexByte).length := by
  constructor
  · rintro ⟨input, built⟩
    exact (constructMiningBlob_ok built).1
  · intro hlen
    refine ⟨storeNonce ((fullSlices blobHex).map hexByte) 39 nonce, ?_⟩
    simp only [constructMiningBlob]
    rw [if_neg (Nat.not_lt.mpr hlen)]

theorem hexToBytes_nonceText (nonce : UInt32) :
    hexToBytes (nonceText nonce) = bytesBE 4 nonce.toNat :=
  hexToBytes_putHex (k := 4) (by norm_num) nonce.toNat_lt

theorem hexToBytes_hashText (hash : Hash) : hexToBytes (hashText hash) = hash.toList :=
  hexToBytes_bytesToHex _

/-- The bytes of a 32-bit word read the same from both ends. -/
def BytePalindrome (nonce : UInt32) : Prop :=
  bytesBE 4 nonce.toNat = bytesLE 4 nonce.toNat

instance (nonce : UInt32) : Decidable (BytePalindrome nonce) :=
  inferInstanceAs (Decidable (_ = _))

theorem nonceText_matches_iff {blobHex : Text} {nonce : UInt32} {input : List UInt8}
    (built : constructMiningBlob blobHex nonce = .ok input) :
    hexToBytes (nonceText nonce) = (input.drop 39).take 4 ↔ BytePalindrome nonce := by
  obtain ⟨hlen, rfl⟩ := constructMiningBlob_ok built
  have inside : 39 + (bytesLE 4 nonce.toNat).length ≤
      ((fullSlices blobHex).map hexByte).length := by
    rw [length_bytesLE]
    omega
  have hslice := slice_splice inside
  rw [length_bytesLE] at hslice
  rw [hexToBytes_nonceText, hslice, BytePalindrome]

/-- What the pool rebuilds from the nonce text is the hashed input exactly for
the nonces whose two encodings agree. -/
theorem respliced_iff {blobHex : Text} {nonce : UInt32} {input : List UInt8}
    (built : constructMiningBlob blobHex nonce = .ok input) :
    splice ((fullSlices blobHex).map hexByte) 39 (hexToBytes (nonceText nonce)) = input ↔
      BytePalindrome nonce := by
  obtain ⟨hlen, rfl⟩ := constructMiningBlob_ok built
  rw [hexToBytes_nonceText, BytePalindrome]
  constructor
  · intro same
    have hwidth : (bytesBE 4 nonce.toNat).length = 4 := by simp [bytesBE]
    exact splice_injective (by rw [hwidth, length_bytesLE]) (by rw [hwidth]; omega) same
  · intro same
    rw [same]

end MiningBlob
