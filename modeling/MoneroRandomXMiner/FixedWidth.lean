import Mathlib.Data.Nat.Digits.Lemmas
import Mathlib.Data.List.Basic

/-!
# Fixed-width positional texts and byte words

Numbers written with a fixed count of digits or bytes. A zero-padded numeral
is compared with its digits taken from the right, and the two usual ways of
assembling a machine word from bytes (or-ing shifted bytes upwards, shifting
an accumulator downwards) are reduced to one arithmetic value.
-/

namespace FixedWidth

/-- The `w` lowest base-`b` digits of `n`, most significant first. -/
def digitsBE (b : Nat) : Nat → Nat → List Nat
  | 0, _ => []
  | w + 1, n => digitsBE b w (n / b) ++ [n % b]

theorem digitsBE_zero (b w : Nat) : digitsBE b w 0 = List.replicate w 0 := by
  induction w with
  | zero => rfl
  | succ w ih => simp [digitsBE, ih, List.replicate_succ']

theorem lt_of_mem_digitsBE {b w n d : Nat} (hb : 0 < b) (hd : d ∈ digitsBE b w n) : d < b := by
  induction w generalizing n with
  | zero => cases hd
  | succ w ih =>
    rcases List.mem_append.mp hd with high | low
    · exact ih high
    · rw [List.mem_singleton.mp low]
      exact Nat.mod_lt n hb

/-- A numeral padded with zeros to its full width is the digit list. -/
theorem leftpad_toDigits {b : Nat} (hb : 1 < b) (w n : Nat) (hn : n < b ^ (w + 1)) :
    (Nat.toDigits b n).leftpad (w + 1) '0' = (digitsBE b (w + 1) n).map Nat.digitChar := by
  induction w generalizing n with
  | zero =>
    have hn' : n < b := by simpa using hn
    simp [Nat.toDigits_of_lt_base hn', digitsBE, Nat.mod_eq_of_lt hn', List.leftpad]
  | succ w ih =>
    by_cases hlt : n < b
    · have hdiv : n / b = 0 := Nat.div_eq_of_lt hlt
      rw [digitsBE, hdiv, digitsBE_zero, Nat.toDigits_of_lt_base hlt, Nat.mod_eq_of_lt hlt]
      simp [List.leftpad, Nat.digitChar]
    · have hle : b ≤ n := Nat.le_of_not_lt hlt
      have hdiv : n / b < b ^ (w + 1) := by
        rw [Nat.div_lt_iff_lt_mul (by omega)]
        simpa [pow_succ] using hn
      have htop := ih (n / b) hdiv
      rw [digitsBE, List.map_append, ← htop, Nat.toDigits_of_base_le hb hle]
      simp [List.leftpad]

/-- The `k` lowest bytes of `n`, least significant first. -/
def bytesLE : Nat → Nat → List UInt8
  | 0, _ => []
  | k + 1, n => UInt8.ofNat n :: bytesLE k (n / 256)

def bytesBE (k n : Nat) : List UInt8 := (bytesLE k n).reverse

def valueLE (bs : List UInt8) : Nat := Nat.ofDigits 256 (bs.map UInt8.toNat)

@[simp] theorem length_bytesLE (k n : Nat) : (bytesLE k n).length = k := by
  induction k generalizing n with
  | zero => rfl
  | succ k ih => simp [bytesLE, ih]

@[simp] theorem valueLE_nil : valueLE [] = 0 := rfl

@[simp] theorem valueLE_cons (b : UInt8) (bs : List UInt8) :
    valueLE (b :: bs) = b.toNat + 256 * valueLE bs := by
  simp [valueLE, Nat.ofDigits_cons]

theorem valueLE_append (xs ys : List UInt8) :
    valueLE (xs ++ ys) = valueLE xs + 256 ^ xs.length * valueLE ys := by
  simp [valueLE, Nat.ofDigits_append]

theorem valueLE_lt (bs : List UInt8) : valueLE bs < 256 ^ bs.length := by
  induction bs with
  | nil => simp
  | cons b bs ih =>
    have hb := b.toNat_lt
    rw [valueLE_cons, List.length_cons, pow_succ]
    omega

theorem valueLE_bytesLE (k n : Nat) : valueLE (bytesLE k n) = n % 256 ^ k := by
  induction k generalizing n with
  | zero => simp [bytesLE, Nat.mod_one]
  | succ k ih =>
    rw [bytesLE, valueLE_cons, ih, pow_succ', Nat.mod_mul]
    simp

theorem bytesLE_valueLE (bs : List UInt8) : bytesLE bs.length (valueLE bs) = bs := by
  induction bs with
  | nil => rfl
  | cons b bs ih =>
    have hb := b.toNat_lt
    have hdiv : (b.toNat + 256 * valueLE bs) / 256 = valueLE bs := by omega
    have hlow : UInt8.ofNat (b.toNat + 256 * valueLE bs) = b := by
      apply UInt8.toNat_inj.mp
      rw [UInt8.toNat_ofNat']
      omega
    rw [List.length_cons, bytesLE, valueLE_cons, hdiv, hlow, ih]

/-- Words of equally many bytes, most significant first, are ordered as their texts are. -/
theorem valueLE_reverse_lt_iff {xs ys : List UInt8} (same : xs.length = ys.length) :
    valueLE xs.reverse < valueLE ys.reverse ↔ xs < ys := by
  induction xs generalizing ys with
  | nil =>
    obtain rfl := List.eq_nil_of_length_eq_zero same.symm
    simp
  | cons x xs ih =>
    cases ys with
    | nil => cases same
    | cons y ys =>
      have hlen : xs.length = ys.length := Nat.succ.inj same
      have hxs : valueLE xs.reverse < 256 ^ ys.length := by
        simpa [hlen] using valueLE_lt xs.reverse
      have hys : valueLE ys.reverse < 256 ^ ys.length := by simpa using valueLE_lt ys.reverse
      simp only [List.reverse_cons, valueLE_append, List.length_reverse, hlen, valueLE_cons,
        valueLE_nil, Nat.mul_zero, Nat.add_zero]
      rw [List.cons_lt_cons_iff, ← ih hlen, UInt8.lt_iff_toNat_lt, ← UInt8.toNat_inj]
      rcases lt_trichotomy x.toNat y.toNat with below | equal | above
      · have hle : 256 ^ ys.length * (x.toNat + 1) ≤ 256 ^ ys.length * y.toNat :=
          Nat.mul_le_mul_left _ below
        rw [Nat.mul_add] at hle
        omega
      · rw [equal]
        omega
      · have hle : 256 ^ ys.length * (y.toNat + 1) ≤ 256 ^ ys.length * x.toNat :=
          Nat.mul_le_mul_left _ above
        rw [Nat.mul_add] at hle
        omega

theorem byte_above_lt {a p b : Nat} (ha : a < p) (hb : b < 256) : a + p * b < p * 256 := by
  have hle : p * (b + 1) ≤ p * 256 := Nat.mul_le_mul_left p hb
  rw [Nat.mul_add] at hle
  omega

/-- Or-ing a byte above an accumulator that stays below it adds it there. -/
theorem or_shift_eq_add {a k : Nat} (ha : a < 256 ^ k) (b : Nat) :
    a ||| b <<< (8 * k) = a + 256 ^ k * b := by
  have hpow : (256 : Nat) ^ k = 2 ^ (8 * k) := by rw [pow_mul]; norm_num
  rw [hpow] at ha ⊢
  rw [Nat.shiftLeft_eq, Nat.mul_comm b, Nat.or_comm, ← Nat.two_pow_add_eq_or_of_lt ha,
    Nat.add_comm]

/-- A byte shifted to a whole place of a word stays in the word. -/
theorem byte_shift_lt {b k w : Nat} (hb : b < 2 ^ 8) (hk : 8 + 8 * k ≤ w) :
    b <<< (8 * k) < 2 ^ w := by
  rw [Nat.shiftLeft_eq]
  calc b * 2 ^ (8 * k) < 2 ^ 8 * 2 ^ (8 * k) := Nat.mul_lt_mul_of_pos_right hb (by positivity)
    _ = 2 ^ (8 + 8 * k) := by rw [pow_add]
    _ ≤ 2 ^ w := Nat.pow_le_pow_right (by norm_num) hk

theorem or_shift_toNat32 {a : UInt32} {k : Nat} (hk : k < 4) (ha : a.toNat < 256 ^ k)
    (b : UInt8) :
    (a ||| b.toUInt32 <<< UInt32.ofNat (8 * k)).toNat = a.toNat + 256 ^ k * b.toNat := by
  have hsmall : b.toNat <<< (8 * k) < 2 ^ 32 := byte_shift_lt b.toNat_lt (by omega)
  have hshift : (UInt32.ofNat (8 * k)).toNat % 32 = 8 * k := by
    rw [UInt32.toNat_ofNat']
    omega
  rw [UInt32.toNat_or, UInt32.toNat_shiftLeft, UInt8.toNat_toUInt32, hshift,
    Nat.mod_eq_of_lt hsmall, or_shift_eq_add ha]

theorem or_shift_toNat64 {a : UInt64} {k : Nat} (hk : k < 8) (ha : a.toNat < 256 ^ k)
    (b : UInt8) :
    (a ||| b.toUInt64 <<< UInt64.ofNat (8 * k)).toNat = a.toNat + 256 ^ k * b.toNat := by
  have hsmall : b.toNat <<< (8 * k) < 2 ^ 64 := byte_shift_lt b.toNat_lt (by omega)
  have hshift : (UInt64.ofNat (8 * k)).toNat % 64 = 8 * k := by
    rw [UInt64.toNat_ofNat']
    omega
  rw [UInt64.toNat_or, UInt64.toNat_shiftLeft, UInt8.toNat_toUInt64, hshift,
    Nat.mod_eq_of_lt hsmall, or_shift_eq_add ha]

/-- Shifting the accumulator down the bytes reads them big-endian. -/
theorem shift_or_toNat64 {a : UInt64} (ha : a.toNat < 256 ^ 7) (b : UInt8) :
    (a <<< 8 ||| b.toUInt64).toNat = 256 * a.toNat + b.toNat := by
  have hb := b.toNat_lt
  have hsmall : a.toNat <<< 8 < 2 ^ 64 := by
    rw [Nat.shiftLeft_eq]
    omega
  have hshift : (8 : UInt64).toNat % 64 = 8 := rfl
  rw [UInt64.toNat_or, UInt64.toNat_shiftLeft, UInt8.toNat_toUInt64, hshift,
    Nat.mod_eq_of_lt hsmall, Nat.shiftLeft_eq, Nat.mul_comm a.toNat,
    ← Nat.two_pow_add_eq_or_of_lt hb]

/-- What holds of each word of a range of numbers holds of the bytes in that range. -/
@[elab_as_elim] theorem of_byte_range {P : UInt8 → Prop} {low high : UInt8} (c : UInt8)
    (range : low ≤ c ∧ c ≤ high)
    (each : ∀ k ≤ high.toNat, low.toNat ≤ k → P (UInt8.ofNat k)) : P c := by
  have here := each c.toNat range.2 range.1
  rwa [UInt8.ofNat_toNat] at here

/-- Storing values at consecutive indices, one assignment at a time. -/
def setAll {α : Type*} : List α → Nat → List α → List α
  | xs, _, [] => xs
  | xs, o, v :: vs => setAll (xs.set o v) (o + 1) vs

def splice {α : Type*} (xs : List α) (o : Nat) (field : List α) : List α :=
  xs.take o ++ field ++ xs.drop (o + field.length)

theorem setAll_eq_splice {α : Type*} (vs : List α) {xs : List α} {o : Nat}
    (inside : o + vs.length ≤ xs.length) : setAll xs o vs = splice xs o vs := by
  induction vs generalizing xs o with
  | nil => simp [setAll, splice]
  | cons v vs ih =>
    simp only [List.length_cons] at inside
    have hlt : o < xs.length := by omega
    have htake : (xs.set o v).take (o + 1) = xs.take o ++ [v] := by
      rw [List.take_add_one, List.take_set_of_le (le_refl o), List.getElem?_set_self hlt]
      rfl
    have hdrop : (xs.set o v).drop (o + 1 + vs.length) = xs.drop (o + (vs.length + 1)) := by
      rw [List.drop_set_of_lt (by omega)]
      congr 1
      omega
    rw [setAll, ih (by simpa using (by omega : o + 1 + vs.length ≤ xs.length)), splice, htake,
      hdrop, splice, List.length_cons]
    simp

/-- The field just written is read back at its offset. -/
theorem slice_splice {α : Type*} {xs field : List α} {o : Nat}
    (inside : o + field.length ≤ xs.length) :
    ((splice xs o field).drop o).take field.length = field := by
  have hlen : (xs.take o).length = o := by
    rw [List.length_take]
    omega
  rw [splice, List.append_assoc, List.drop_append_of_le_length (by omega), List.drop_take_self,
    List.nil_append, List.take_left']
  rfl

theorem length_splice {α : Type*} {xs field : List α} {o : Nat}
    (inside : o + field.length ≤ xs.length) : (splice xs o field).length = xs.length := by
  simp only [splice, List.length_append, List.length_take, List.length_drop]
  omega

/-- The field that is there is written back. -/
theorem splice_slice {α : Type*} {xs : List α} {o k : Nat} (inside : o + k ≤ xs.length) :
    splice xs o ((xs.drop o).take k) = xs := by
  have hlen : ((xs.drop o).take k).length = k := by
    rw [List.length_take, List.length_drop]
    omega
  rw [splice, hlen, List.append_assoc, ← List.drop_drop, List.take_append_drop,
    List.take_append_drop]

theorem splice_splice {α : Type*} {xs f g : List α} {o : Nat} (hlen : f.length = g.length)
    (inside : o + f.length ≤ xs.length) : splice (splice xs o f) o g = splice xs o g := by
  have hhead : (xs.take o ++ f).length = o + g.length := by
    rw [List.length_append, List.length_take]
    omega
  have htake : (splice xs o f).take o = xs.take o := by
    rw [splice, List.append_assoc, List.take_append_of_le_length, List.take_take, min_self]
    rw [List.length_take]
    omega
  have hdrop : (splice xs o f).drop (o + g.length) = xs.drop (o + g.length) := by
    rw [splice, List.drop_left' hhead, hlen]
  rw [splice, htake, hdrop, splice]

theorem getElem?_splice_outside {α : Type*} {xs field : List α} {o i : Nat}
    (inside : o + field.length ≤ xs.length) (outside : i < o ∨ o + field.length ≤ i) :
    (splice xs o field)[i]? = xs[i]? := by
  have hhead : (xs.take o ++ field).length = o + field.length := by
    rw [List.length_append, List.length_take]
    omega
  rcases outside with before | behind
  · rw [splice, List.append_assoc, List.getElem?_append_left, List.getElem?_take_of_lt before]
    rw [List.length_take]
    omega
  · rw [splice, List.getElem?_append_right (by omega), hhead, List.getElem?_drop]
    congr 1
    omega

/-- Equal results of two writes at one place come from equal fields. -/
theorem splice_injective {α : Type*} {xs f g : List α} {o : Nat} (hlen : f.length = g.length)
    (inside : o + f.length ≤ xs.length) (same : splice xs o f = splice xs o g) : f = g := by
  have hf := slice_splice inside
  have hg : ((splice xs o g).drop o).take g.length = g := slice_splice (by omega)
  rw [same, hlen, hg] at hf
  exact hf.symm

end FixedWidth
