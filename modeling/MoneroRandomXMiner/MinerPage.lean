import MoneroRandomXMiner.MinerViewModel
import Mathlib.Data.List.TakeWhile

/-!
# The page of the activity

`miner.js` reads its form as texts. The numbers among them go through
`parseInt`, which takes the digits at the front of a text. The page keeps a flag
of its own for a running miner, and asks the bridge to start and stop one.
-/

namespace MinerPage

open MinerViewModel (kotlinLength)

/-- What `trim` and `parseInt` take for white space. -/
def isWhiteSpace (c : Char) : Bool :=
  c.toNat ∈ [0x09, 0x0A, 0x0B, 0x0C, 0x0D, 0x20, 0xA0, 0x1680, 0x2028, 0x2029, 0x202F, 0x205F,
    0x3000, 0xFEFF] || (0x2000 ≤ c.toNat && c.toNat ≤ 0x200A)

def trim (text : String) : String :=
  String.ofList
    (((text.toList.dropWhile isWhiteSpace).reverse.dropWhile isWhiteSpace).reverse)

def digitOf (radix : Nat) (c : Char) : Option Nat :=
  let value :=
    if c.isDigit then c.toNat - 48
    else if c.isLower then c.toNat - 87
    else if c.isUpper then c.toNat - 55
    else radix
  if value < radix then some value else none

/-- The digits at the front of a text, `none` (for NaN) if there are none. -/
def digits (radix : Nat) (text : List Char) : Option Nat :=
  let front := text.takeWhile fun c => (digitOf radix c).isSome
  if front = [] then none
  else some (front.foldl (fun n c => radix * n + (digitOf radix c).getD 0) 0)

def magnitude (text : List Char) : Option Nat :=
  if text.take 2 = ['0', 'x'] ∨ text.take 2 = ['0', 'X'] then digits 16 (text.drop 2)
  else digits 10 text

/-- The integer that is read. As a double it is rounded from 2^53 on, which makes no
number zero and takes none across the bounds that the page compares with. -/
def parseInt (text : String) : Option Int :=
  match text.toList.dropWhile isWhiteSpace with
  | '-' :: rest => (magnitude rest).map fun n => -(n : Int)
  | '+' :: rest => (magnitude rest).map Int.ofNat
  | rest => (magnitude rest).map Int.ofNat

/-- `parsed || default`: zero and NaN are false. -/
def orElse (parsed : Option Int) (default : Int) : Int :=
  match parsed with
  | none | some 0 => default
  | some n => n

/-- The numbers of the page's script, with the comparison with zero and `String(x)`.
An integer up to 2^53 is a double of its own, and is written in decimal. -/
structure JsNumbers (Num : Type) where
  ofInt : Int → Num
  positive : Num → Bool
  text : Num → String
  positive_ofInt : ∀ n : Int, n.natAbs ≤ 9007199254740992 → positive (ofInt n) = decide (0 < n)
  text_ofInt : ∀ n : Int, n.natAbs ≤ 9007199254740992 → text (ofInt n) = toString n

/-- Numbers that are all exact. -/
def exactNumbers : JsNumbers Int where
  ofInt := id
  positive := fun n => decide (0 < n)
  text := toString
  positive_ofInt := fun _ _ => rfl
  text_ofInt := fun _ _ => rfl

structure Form where
  wallet : String
  poolHost : String
  poolPort : String
  threads : String
  worker : String
  deriving DecidableEq

/-- The arguments of the bridge's `startMining`. -/
structure Request where
  host : String
  port : Int
  wallet : String
  worker : String
  threads : Int
  deriving DecidableEq

/-- The error that `startMining` logs for a wallet. -/
def walletError (wallet : String) : Option String :=
  if wallet = "" ∨ kotlinLength wallet < 90 then
    some "Please enter a valid Monero wallet address (95+ chars starting with 4 or 8)"
  else if wallet.toList.head? ≠ some '4' ∧ wallet.toList.head? ≠ some '8' then
    some "Wallet address must start with 4 (standard) or 8 (subaddress)"
  else none

/-- `text.trim() || default` -/
def textOr (text default : String) : String := if trim text = "" then default else trim text

def request (form : Form) : Request where
  host := textOr form.poolHost "pool.supportxmr.com"
  port := orElse (parseInt form.poolPort) 3333
  wallet := trim form.wallet
  worker := textOr form.worker "android_miner"
  threads := max 1 (min 8 (orElse (parseInt form.threads) 2))

/-- `errors` are the lines logged as errors, newest first. -/
structure Page where
  mining : Bool
  statusText : String
  startDisabled : Bool
  stopDisabled : Bool
  polling : Bool
  errors : List String
  deriving DecidableEq

/-- The page as `index.html` and a fresh run of `miner.js` leave it. -/
def Page.loaded : Page := ⟨false, "READY", false, true, false, []⟩

/-- What `startMining` asks of the bridge, if it gets that far. -/
def Page.asks (page : Page) (form : Form) : Option Request :=
  if page.mining then none
  else if walletError (trim form.wallet) = none then some (request form)
  else none

/-- `startMining`, where the bridge returns `result` if it is asked. -/
def startMining (form : Form) (result : Bool) (page : Page) : Page :=
  if page.mining then page
  else
    match walletError (trim form.wallet) with
    | some error => { page with errors := error :: page.errors }
    | none =>
      if result then
        { page with
          mining := true
          statusText := "MINING"
          startDisabled := true
          stopDisabled := false
          polling := true }
      else
        { page with
          mining := false
          statusText := "ERROR"
          startDisabled := false
          stopDisabled := true
          errors := "❌ Failed to start native miner – check pool and wallet" :: page.errors }

def stopMining (page : Page) : Page :=
  if page.mining then
    { page with
      mining := false
      statusText := "STOPPED"
      startDisabled := false
      stopDisabled := true
      polling := false }
  else page

theorem digit_bounds {c : Char} (digit : c.isDigit = true) : 48 ≤ c.toNat ∧ c.toNat ≤ 57 := by
  simpa [Char.isDigit, UInt32.le_iff_toNat_le] using digit

theorem digitOf_digit {c : Char} (digit : c.isDigit = true) :
    digitOf 10 c = some (c.toNat - '0'.toNat) := by
  have bounds := digit_bounds digit
  have small : c.toNat - 48 < 10 := by omega
  simp only [digitOf, digit, if_true, if_pos small]
  rfl

theorem isWhiteSpace_digit {c : Char} (digit : c.isDigit = true) : isWhiteSpace c = false := by
  have bounds := digit_bounds digit
  simp only [isWhiteSpace, List.mem_cons, List.not_mem_nil, or_false, Bool.decide_or,
    Bool.or_eq_false_iff, decide_eq_false_iff_not, Bool.and_eq_false_imp, decide_eq_true_eq, not_le]
  omega

theorem isDigit_of_mem {n : Nat} {c : Char} (mem : c ∈ Nat.toDigits 10 n) : c.isDigit = true :=
  Nat.isDigit_of_mem_toDigits (by decide) (by decide) mem

theorem digits_toDigits (n : Nat) : digits 10 (Nat.toDigits 10 n) = some n := by
  have front : (Nat.toDigits 10 n).takeWhile (fun c => (digitOf 10 c).isSome) =
      Nat.toDigits 10 n := by
    apply List.takeWhile_eq_self_iff.mpr
    intro c hc
    rw [digitOf_digit (isDigit_of_mem hc)]
    rfl
  have value : (Nat.toDigits 10 n).foldl (fun n c => 10 * n + (digitOf 10 c).getD 0) 0 = n := by
    calc
      _ = Nat.ofDigitChars 10 (Nat.toDigits 10 n) 0 := by
        rw [Nat.ofDigitChars_eq_foldl]
        apply List.foldl_ext
        intro m c hc
        rw [digitOf_digit (isDigit_of_mem hc)]
        rfl
      _ = n := Nat.ofDigitChars_toDigits (by decide) (by decide)
  rw [digits, front, value, if_neg Nat.toDigits_ne_nil]

theorem magnitude_toDigits (n : Nat) : magnitude (Nat.toDigits 10 n) = some n := by
  have all : ∀ c ∈ (Nat.toDigits 10 n).take 2, c.isDigit = true :=
    fun c hc => isDigit_of_mem (List.mem_of_mem_take hc)
  have plain : ¬((Nat.toDigits 10 n).take 2 = ['0', 'x'] ∨
      (Nat.toDigits 10 n).take 2 = ['0', 'X']) := by
    rintro (small | big)
    · exact absurd (all 'x' (by rw [small]; decide)) (by decide)
    · exact absurd (all 'X' (by rw [big]; decide)) (by decide)
  rw [magnitude, if_neg plain, digits_toDigits]

theorem dropWhile_toDigits (n : Nat) :
    (Nat.toDigits 10 n).dropWhile isWhiteSpace = Nat.toDigits 10 n := by
  cases written : Nat.toDigits 10 n with
  | nil => rfl
  | cons c cs =>
    have digit : c.isDigit = true := isDigit_of_mem (n := n) (written ▸ List.mem_cons_self)
    rw [List.dropWhile_cons_of_neg (by simp [isWhiteSpace_digit digit])]

/-- An integer written in decimal is read back as it is. -/
theorem parseInt_toString (n : Int) : parseInt (toString n) = some n := by
  cases n with
  | ofNat n =>
    have text : (toString (Int.ofNat n)).toList = Nat.toDigits 10 n := by
      simp [Int.toString_eq_repr, Int.repr]
    rw [parseInt, text, dropWhile_toDigits]
    split
    · rename_i rest hrest
      exact absurd (isDigit_of_mem (n := n) (hrest ▸ List.mem_cons_self)) (by decide)
    · rename_i rest hrest
      exact absurd (isDigit_of_mem (n := n) (hrest ▸ List.mem_cons_self)) (by decide)
    · rw [magnitude_toDigits]
      rfl
  | negSucc n =>
    have text : (toString (Int.negSucc n)).toList = '-' :: Nat.toDigits 10 (n + 1) := by
      simp [Int.toString_eq_repr, Int.repr]
    have dash : isWhiteSpace '-' = false := by decide
    rw [parseInt, text, List.dropWhile_cons_of_neg (by simp [dash])]
    simp only [magnitude_toDigits]
    rfl

theorem orElse_some {n : Int} (nonzero : n ≠ 0) (default : Int) : orElse (some n) default = n := by
  unfold orElse
  split
  · rename_i none
    cases none
  · rename_i zero
    exact absurd (Option.some.inj zero) nonzero
  · rename_i same
    exact (Option.some.inj same).symm

end MinerPage
