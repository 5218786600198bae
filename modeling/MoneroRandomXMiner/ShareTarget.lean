import MoneroRandomXMiner.MiningBlob

/-!
# Share targets

A pool sends a target as 8 hexadecimal digits (a 32-bit threshold for the top
word of the hash) or as 16 (a 64-bit one). Both byte orders are little-endian.
The long form is read as it stands. The short form goes through a division,
which turns the order of the thresholds around.
-/

namespace ShareTarget

open FixedWidth HexText MiningBlob

/-- `compact |= static_cast<uint32_t>(b) << (i * 4)` for `i = 2 * j` -/
def orBytes32 (compact : UInt32) : Nat → List UInt8 → UInt32
  | _, [] => compact
  | j, b :: bs => orBytes32 (compact ||| b.toUInt32 <<< UInt32.ofNat (8 * j)) (j + 1) bs

/-- `t |= static_cast<uint64_t>(bytes[i]) << (i * 8)` -/
def orBytes64 (t : UInt64) : Nat → List UInt8 → UInt64
  | _, [] => t
  | i, b :: bs => orBytes64 (t ||| b.toUInt64 <<< UInt64.ofNat (8 * i)) (i + 1) bs

def uint64Max : UInt64 := 0xFFFFFFFFFFFFFFFF

/-- The 4-byte branch: at most four slices are read. -/
def shortTarget (targetHex : Text) : UInt64 :=
  let compact := orBytes32 0 0 (((slices targetHex).take 4).map hexByte)
  if compact = 0 then uint64Max else uint64Max / compact.toUInt64

/-- `uint8_t bytes[8] = {}`, filled from the first eight slices. -/
def targetBytes (targetHex : Text) : List UInt8 :=
  ((((slices targetHex).take 8).map hexByte) ++ List.replicate 8 0).take 8

def targetToUint64 (targetHex : Text) : UInt64 :=
  if targetHex.length ≤ 8 then shortTarget targetHex
  else orBytes64 0 0 (targetBytes targetHex)

/-- `for (i = 7; i >= 0; --i) hash_value = (hash_value << 8) | hash[24 + i]` -/
def hashValue (hash : Hash) : UInt64 :=
  (List.finRange 8).reverse.foldl
    (fun v i => v <<< 8 ||| (hash.get (Fin.natAdd 24 i)).toUInt64) 0

def hashMeetsTarget (hash : Hash) (target : UInt64) : Bool :=
  hashValue hash < target

theorem orBytes32_toNat (bs : List UInt8) {compact : UInt32} {j : Nat}
    (below : compact.toNat < 256 ^ j) (fits : j + bs.length ≤ 4) :
    (orBytes32 compact j bs).toNat = compact.toNat + 256 ^ j * valueLE bs := by
  induction bs generalizing compact j with
  | nil => simp [orBytes32]
  | cons b bs ih =>
    simp only [List.length_cons] at fits
    have hstep := or_shift_toNat32 (by omega) below b
    have hnext : (compact ||| b.toUInt32 <<< UInt32.ofNat (8 * j)).toNat < 256 ^ (j + 1) := by
      rw [hstep, pow_succ]
      exact byte_above_lt below b.toNat_lt
    rw [orBytes32, ih hnext (by omega), hstep, valueLE_cons]
    ring

theorem orBytes64_toNat (bs : List UInt8) {t : UInt64} {i : Nat}
    (below : t.toNat < 256 ^ i) (fits : i + bs.length ≤ 8) :
    (orBytes64 t i bs).toNat = t.toNat + 256 ^ i * valueLE bs := by
  induction bs generalizing t i with
  | nil => simp [orBytes64]
  | cons b bs ih =>
    simp only [List.length_cons] at fits
    have hstep := or_shift_toNat64 (by omega) below b
    have hnext : (t ||| b.toUInt64 <<< UInt64.ofNat (8 * i)).toNat < 256 ^ (i + 1) := by
      rw [hstep, pow_succ]
      exact byte_above_lt below b.toNat_lt
    rw [orBytes64, ih hnext (by omega), hstep, valueLE_cons]
    ring

theorem length_targetBytes (targetHex : Text) : (targetBytes targetHex).length = 8 := by
  simp [targetBytes]

theorem wideTarget_toNat (targetHex : Text) :
    (orBytes64 0 0 (targetBytes targetHex)).toNat = valueLE (targetBytes targetHex) := by
  have h : (orBytes64 0 0 (targetBytes targetHex)).toNat =
      (0 : UInt64).toNat + 256 ^ 0 * valueLE (targetBytes targetHex) :=
    orBytes64_toNat _ (by simp) (by rw [length_targetBytes])
  simpa using h

theorem valueLE_zeros (k : Nat) : valueLE (List.replicate k 0) = 0 := by
  induction k with
  | zero => rfl
  | succ k ih => simp [List.replicate_succ, ih]

/-- The long form is the little-endian value of the bytes of its first 16 characters. -/
theorem wide_toNat {targetHex : Text} (long : 8 < targetHex.length) :
    (targetToUint64 targetHex).toNat = valueLE (hexToBytes (targetHex.take 16)) := by
  have hfew : (hexToBytes (targetHex.take 16)).length ≤ 8 := by
    rw [hexToBytes, List.length_map, length_slices, List.length_take]
    omega
  have hbytes : targetBytes targetHex = hexToBytes (targetHex.take 16) ++
      List.replicate (8 - (hexToBytes (targetHex.take 16)).length) 0 := by
    rw [targetBytes, take_slices, List.take_append, ← hexToBytes, List.take_of_length_le hfew,
      List.take_replicate, Nat.min_eq_left (by omega)]
  rw [targetToUint64, if_neg (by omega), wideTarget_toNat, hbytes, valueLE_append, valueLE_zeros]
  simp

/-- The descending loop is the little-endian value of the bytes it visits. -/
theorem foldr_shift_toNat (bs : List UInt8) (fits : bs.length ≤ 8) :
    (bs.foldr (fun (b : UInt8) (v : UInt64) => v <<< 8 ||| b.toUInt64) 0).toNat =
      valueLE bs := by
  induction bs with
  | nil => rfl
  | cons b bs ih =>
    simp only [List.length_cons] at fits
    have htail := ih (by omega)
    have hlt : valueLE bs < 256 ^ 7 :=
      (valueLE_lt bs).trans_le (Nat.pow_le_pow_right (by norm_num) (by omega))
    rw [List.foldr_cons, shift_or_toNat64 (by rw [htail]; exact hlt), htail, valueLE_cons]
    ring

theorem hash_tail (hash : Hash) :
    (List.finRange 8).map (fun i => hash.get (Fin.natAdd 24 i)) = hash.toList.drop 24 := by
  apply List.ext_getElem
  · simp
  · intro i h₁ h₂
    simp [Vector.get]

theorem hashValue_toNat (hash : Hash) : (hashValue hash).toNat = valueLE (hash.toList.drop 24) := by
  rw [← hash_tail, ← foldr_shift_toNat _ (by simp), hashValue, List.foldl_reverse, List.foldr_map]

/-- The top 32 bits of the hash: bytes 28 to 31. -/
def topWord (hash : Hash) : Nat := valueLE (hash.toList.drop 28)

theorem hashValue_split (hash : Hash) :
    ∃ low, low < 2 ^ 32 ∧ (hashValue hash).toNat = 2 ^ 32 * topWord hash + low := by
  obtain ⟨low, hlow⟩ : ∃ low, low = (hash.toList.drop 24).take 4 := ⟨_, rfl⟩
  have hdrop : hash.toList.drop 24 = low ++ hash.toList.drop 28 := by
    have hsplit := List.take_append_drop 4 (hash.toList.drop 24)
    rw [← hlow, List.drop_drop] at hsplit
    exact hsplit.symm
  have hlen : low.length = 4 := by
    rw [hlow]
    simp
  refine ⟨valueLE low, ?_, ?_⟩
  · simpa [hlen] using valueLE_lt low
  · rw [hashValue_toNat, hdrop, valueLE_append, hlen, topWord]
    ring

/-- A hash whose last eight bytes are the given word. -/
def hashWith (v : Nat) : Hash :=
  ⟨(List.replicate 24 0 ++ bytesLE 8 v).toArray, by simp⟩

theorem hashValue_hashWith {v : Nat} (hv : v < 2 ^ 64) : (hashValue (hashWith v)).toNat = v := by
  have htail : (hashWith v).toList.drop 24 = bytesLE 8 v := by
    simp [hashWith, Vector.toList]
  rw [hashValue_toNat, htail, valueLE_bytesLE, Nat.mod_eq_of_lt (by simpa using hv)]

theorem topWord_hashWith {v : Nat} (hv : v < 2 ^ 64) : topWord (hashWith v) = v / 2 ^ 32 := by
  obtain ⟨low, hlow, hsplit⟩ := hashValue_split (hashWith v)
  rw [hashValue_hashWith hv] at hsplit
  omega

theorem hashMeetsTarget_iff (hash : Hash) (target : UInt64) :
    hashMeetsTarget hash target = true ↔ (hashValue hash).toNat < target.toNat := by
  simp [hashMeetsTarget, UInt64.lt_iff_toNat_lt]

/-- The little-endian text of a word of `k` bytes. -/
def littleEndianText (k n : Nat) : Text := bytesToHex (bytesLE k n)

theorem length_littleEndianText (k n : Nat) : (littleEndianText k n).length = 2 * k := by
  rw [littleEndianText, length_bytesToHex, length_bytesLE]

theorem slices_littleEndianText (k n : Nat) :
    (slices (littleEndianText k n)).map hexByte = bytesLE k n :=
  hexToBytes_bytesToHex _

theorem shortForm_toNat {c : UInt32} (hc : c ≠ 0) :
    (targetToUint64 (littleEndianText 4 c.toNat)).toNat = (2 ^ 64 - 1) / c.toNat := by
  have hvalue : (orBytes32 0 0 (bytesLE 4 c.toNat)).toNat = c.toNat := by
    have h : (orBytes32 0 0 (bytesLE 4 c.toNat)).toNat =
        (0 : UInt32).toNat + 256 ^ 0 * valueLE (bytesLE 4 c.toNat) :=
      orBytes32_toNat _ (by simp) (by simp)
    have hfits : c.toNat < 256 ^ 4 := c.toNat_lt
    rw [h, valueLE_bytesLE, Nat.mod_eq_of_lt hfits]
    simp
  have hcompact : orBytes32 0 0 (bytesLE 4 c.toNat) = c := UInt32.toNat_inj.mp hvalue
  have hslices : ((slices (littleEndianText 4 c.toNat)).take 4).map hexByte =
      bytesLE 4 c.toNat := by
    rw [List.map_take, slices_littleEndianText, List.take_of_length_le (by simp)]
  rw [targetToUint64, if_pos (by rw [length_littleEndianText]), shortTarget, hslices]
  simp only [hcompact, if_neg hc]
  rw [UInt64.toNat_div, UInt32.toNat_toUInt64]
  rfl

theorem wideForm_toNat {n : Nat} (hn : n < 2 ^ 64) :
    (targetToUint64 (littleEndianText 8 n)).toNat = n := by
  have hlen : (littleEndianText 8 n).length = 16 := length_littleEndianText 8 n
  have hbytes : hexToBytes (littleEndianText 8 n) = bytesLE 8 n := slices_littleEndianText 8 n
  rw [wide_toNat (by omega), List.take_of_length_le (by omega), hbytes, valueLE_bytesLE,
    Nat.mod_eq_of_lt (by simpa using hn)]

/-- The short form ranks every hash as the threshold `c` for the top word does. -/
def RanksLikeTopWord (target : UInt64) (c : UInt32) : Prop :=
  ∀ hash : Hash, (topWord hash < c.toNat → hashMeetsTarget hash target = true) ∧
    (c.toNat < topWord hash → hashMeetsTarget hash target = false)

/-- The 8-byte form of `c * 2 ^ 32` is that threshold. -/
theorem wideForm_ranks (c : UInt32) :
    RanksLikeTopWord (targetToUint64 (littleEndianText 8 (c.toNat * 2 ^ 32))) c := by
  intro hash
  have hc := c.toNat_lt
  have htarget := wideForm_toNat (n := c.toNat * 2 ^ 32) (by omega)
  obtain ⟨low, hlow, hsplit⟩ := hashValue_split hash
  constructor
  · intro below
    rw [hashMeetsTarget_iff, htarget, hsplit]
    omega
  · intro above
    rw [← Bool.not_eq_true, hashMeetsTarget_iff, htarget, hsplit]
    omega

/-- Small thresholds are expanded to a target that lets too much through. -/
theorem small_threshold_too_wide {c : Nat} (hpos : 0 < c) (hsmall : c < 2 ^ 16) :
    (c + 1) * 2 ^ 32 < (2 ^ 64 - 1) / c := by
  have hle : (c + 1) * 2 ^ 32 + 1 ≤ (2 ^ 64 - 1) / c := by
    rw [Nat.le_div_iff_mul_le hpos]
    have hprod : (c + 1) * c ≤ 2 ^ 16 * (2 ^ 16 - 1) := Nat.mul_le_mul (by omega) (by omega)
    have hexpand : ((c + 1) * 2 ^ 32 + 1) * c = (c + 1) * c * 2 ^ 32 + c := by ring
    omega
  omega

/-- Large thresholds are expanded to a target below themselves. -/
theorem large_threshold_too_narrow {c : Nat} (hlarge : 2 ^ 16 ≤ c) :
    (2 ^ 64 - 1) / c ≤ c * 2 ^ 32 - 1 := by
  have hpos : 0 < c := by omega
  have hlt : (2 ^ 64 - 1) / c < c * 2 ^ 32 := by
    rw [Nat.div_lt_iff_lt_mul hpos]
    have hprod : 2 ^ 16 * 2 ^ 16 ≤ c * c := Nat.mul_le_mul hlarge hlarge
    have hexpand : c * 2 ^ 32 * c = c * c * 2 ^ 32 := by ring
    omega
  omega

/-- Below 2^16 a hash above the threshold is let through. -/
theorem small_shortForm_misranks {c : UInt32} (hc : c ≠ 0) (hsmall : c.toNat < 2 ^ 16) :
    ∃ hash, c.toNat < topWord hash ∧
      hashMeetsTarget hash (targetToUint64 (littleEndianText 4 c.toNat)) = true := by
  have hpos : 0 < c.toNat := Nat.pos_of_ne_zero fun h => hc (UInt32.toNat_inj.mp h)
  have hv : (c.toNat + 1) * 2 ^ 32 < 2 ^ 64 := by omega
  refine ⟨hashWith ((c.toNat + 1) * 2 ^ 32), ?_, ?_⟩
  · rw [topWord_hashWith hv]
    omega
  · rw [hashMeetsTarget_iff, hashValue_hashWith hv, shortForm_toNat hc]
    exact small_threshold_too_wide hpos hsmall

/-- From 2^16 on a hash below the threshold is turned away. -/
theorem large_shortForm_misranks {c : UInt32} (hlarge : 2 ^ 16 ≤ c.toNat) :
    ∃ hash, topWord hash < c.toNat ∧
      hashMeetsTarget hash (targetToUint64 (littleEndianText 4 c.toNat)) = false := by
  have hlt := c.toNat_lt
  have hc : c ≠ 0 := by
    rintro rfl
    simp at hlarge
  have hv : c.toNat * 2 ^ 32 - 1 < 2 ^ 64 := by omega
  refine ⟨hashWith (c.toNat * 2 ^ 32 - 1), ?_, ?_⟩
  · rw [topWord_hashWith hv]
    omega
  · rw [← Bool.not_eq_true, hashMeetsTarget_iff, hashValue_hashWith hv, shortForm_toNat hc]
    exact Nat.not_lt.mpr (large_threshold_too_narrow hlarge)

theorem shortForm_antitone {c d : UInt32} (hc : c ≠ 0) (hcd : c ≤ d) :
    targetToUint64 (littleEndianText 4 d.toNat) ≤ targetToUint64 (littleEndianText 4 c.toNat) := by
  have hle : c.toNat ≤ d.toNat := UInt32.le_iff_toNat_le.mp hcd
  have hpos : 0 < c.toNat := Nat.pos_of_ne_zero fun h => hc (UInt32.toNat_inj.mp h)
  have hd : d ≠ 0 := by
    rintro rfl
    simp at hle
    omega
  rw [UInt64.le_iff_toNat_le, shortForm_toNat hc, shortForm_toNat hd]
  exact Nat.div_le_div_left hle hpos

/-- For no threshold does the expanded short form rank the hashes as intended,
and larger thresholds get smaller targets. -/
theorem shortForm_ranks_never {c : UInt32} (hc : c ≠ 0) :
    ¬ RanksLikeTopWord (targetToUint64 (littleEndianText 4 c.toNat)) c ∧
      ∀ d, c ≤ d → targetToUint64 (littleEndianText 4 d.toNat) ≤
        targetToUint64 (littleEndianText 4 c.toNat) := by
  refine ⟨?_, fun d hcd => shortForm_antitone hc hcd⟩
  intro ranks
  by_cases hsmall : c.toNat < 2 ^ 16
  · obtain ⟨hash, habove, hmeets⟩ := small_shortForm_misranks hc hsmall
    rw [(ranks hash).2 habove] at hmeets
    cases hmeets
  · obtain ⟨hash, hbelow, hfails⟩ := large_shortForm_misranks (Nat.le_of_not_lt hsmall)
    rw [(ranks hash).1 hbelow] at hfails
    cases hfails

/-- The threshold of difficulty 10000, sent by a pool as "b88d0600". -/
theorem shortForm_ranks_never_b88d0600 :
    ¬ RanksLikeTopWord (targetToUint64 (littleEndianText 4 (429496 : UInt32).toNat)) 429496 ∧
      ∀ d : UInt32, 429496 ≤ d → targetToUint64 (littleEndianText 4 d.toNat) ≤
        targetToUint64 (littleEndianText 4 (429496 : UInt32).toNat) :=
  shortForm_ranks_never (c := 429496) (by decide)

/-- At difficulty 10000 a hash one below the threshold is not submitted. -/
theorem shortForm_misses_share :
    littleEndianText 4 (429496 : UInt32).toNat = lit "b88d0600" ∧
      topWord (hashWith (429495 * 2 ^ 32)) < (429496 : UInt32).toNat ∧
      hashMeetsTarget (hashWith (429495 * 2 ^ 32)) (targetToUint64 (lit "b88d0600")) = false ∧
      ¬ RanksLikeTopWord (targetToUint64 (lit "b88d0600")) 429496 := by
  have htext : littleEndianText 4 (429496 : UInt32).toNat = lit "b88d0600" := by decide
  have hbelow : topWord (hashWith (429495 * 2 ^ 32)) < (429496 : UInt32).toNat := by decide
  have hfails : hashMeetsTarget (hashWith (429495 * 2 ^ 32)) (targetToUint64 (lit "b88d0600")) =
      false := by decide
  refine ⟨htext, hbelow, hfails, fun ranks => ?_⟩
  rw [(ranks _).1 hbelow] at hfails
  cases hfails

end ShareTarget
