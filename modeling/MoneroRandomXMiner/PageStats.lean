import MoneroRandomXMiner.MessageFields
import MoneroRandomXMiner.MinerPage
import MoneroRandomXMiner.ShareAccounting
import MoneroRandomXMiner.StatsText

/-!
# The share counts on the page

The page polls the miner on a timer. A poll loads the two counters one after
the other while the pool goes on answering, prints them, parses the text and
takes over what is above zero. While the counters are below `2 ^ 53`, what the page
shows is never ahead of them and never behind a poll that has finished.
-/

namespace PageStats

open Histories JsonSyntax JsonFields JsonObjects HexText HandleMessage StatsText
open MessageFields (lit_toString)
open MinerPage (JsNumbers exactNumbers)
open ShareAccounting (Account)

variable {Num : Type}

/-- The number that `JSON.parse` makes of the digits of a count. -/
def readNumber (js : JsNumbers Num) (digits : Bytes) : Num := js.ofInt (digitsValue digits)

structure Totals (Num : Type) where
  accepted : Num
  rejected : Num

/-- `totalShares`, and the texts of the two elements. -/
structure Page (Num : Type) where
  totalShares : Totals Num
  sharesAcc : Bytes
  sharesRej : Bytes

/-- What `startMining` of the page resets. -/
def resetStats (js : JsNumbers Num) : Page Num where
  totalShares := ⟨js.ofInt 0, js.ofInt 0⟩
  sharesAcc := lit "0"
  sharesRej := lit "0"

/-- `if (stats.x > 0) total = stats.x`. Only numbers stand there; a missing member is
not above zero. -/
def takeOver (js : JsNumbers Num) (stat : Option Value) (total : Num) : Num :=
  match stat.bind digitsOf with
  | some digits => if js.positive (readNumber js digits) then readNumber js digits else total
  | none => total

/-- Text that cannot be parsed ends in the `catch`, and nothing changes. -/
def updateStats (js : JsNumbers Num) (raw : Bytes) (page : Page Num) : Page Num :=
  match parse raw with
  | none => page
  | some stats =>
    let accepted := takeOver js (member (lit "accepted") stats) page.totalShares.accepted
    let rejected := takeOver js (member (lit "rejected") stats) page.totalShares.rejected
    ⟨⟨accepted, rejected⟩, lit (js.text accepted), lit (js.text rejected)⟩

/-- The answers of `getStats` when no miner is asked. -/
inductive Unavailable where
  | stopped
  | notLoaded
  | error

/-- `getStats` of the activity. -/
def getStats (unavailable : Unavailable) : Bytes :=
  match unavailable with
  | .stopped => MainActivity_nativeGetStats none
  | .notLoaded => lit "\x7b\"status\": \"not_loaded\", \"hashrate\": 0\x7d"
  | .error => lit "\x7b\"status\": \"error\", \"hashrate\": 0\x7d"

structure State (Num : Type) where
  account : Account
  page : Page Num
  /-- The accepted shares, loaded by a poll that goes on. -/
  loaded : Option UInt64

/-- The session of the miner goes on, a poll loads the first counter, or it loads the
second and is shown with the hashrate. -/
inductive Event where
  | miner (e : ShareAccounting.Event)
  | load
  | finish (hundredths : Nat)
  | without (unavailable : Unavailable)

def accepted (s : State Num) : UInt64 := s.account.session.acceptedShares

def rejected (s : State Num) : UInt64 := s.account.session.rejectedShares

/-- The page runs in one thread, so its polls do not overlap. The pool may write anything. -/
def Enabled (s : State Num) : Event → Prop
  | .miner _ => True
  | .load => s.loaded = none
  | .finish hundredths => s.loaded.isSome ∧ hundredths ≤ 1000 * 2 ^ 64
  | .without _ => s.loaded = none

def next (lib : JsonLibrary) (js : JsNumbers Num) (s : State Num) : Event → State Num
  | .miner e => { s with account := ShareAccounting.next lib s.account e }
  | .load => { s with loaded := some (accepted s) }
  | .finish hundredths =>
    match s.loaded with
    | some loaded =>
      let readings := ⟨hundredths, loaded, rejected s⟩
      { s with
        page := updateStats js (MainActivity_nativeGetStats (some readings)) s.page
        loaded := none }
    | none => s
  | .without unavailable => { s with page := updateStats js (getStats unavailable) s.page }

def machine (lib : JsonLibrary) (js : JsNumbers Num) : Machine (State Num) Event where
  Enabled := Enabled
  next := next lib js

/-- The page has been reset, and the miner has been built. -/
def Started (js : JsNumbers Num) (s : State Num) : Prop :=
  ShareAccounting.Fresh s.account ∧ s.page = resetStats js ∧ s.loaded = none

/-- Both counters are doubles of their own. -/
def Small (s : State Num) : Prop := (accepted s).toNat < 2 ^ 53 ∧ (rejected s).toNat < 2 ^ 53

/-- Never ahead of the counters, and never behind a poll that has finished. -/
structure Shown (h : List (State Num × Event)) (s : State Num) : Prop where
  accepted : ∃ n, s.page.sharesAcc = decimal n ∧ n ≤ (accepted s).toNat ∧
    ∀ older t hundredths, Moment h older t (.finish hundredths) →
      ∀ u, (u, .load) ∈ older → (PageStats.accepted u).toNat ≤ n
  rejected : ∃ n, s.page.sharesRej = decimal n ∧ n ≤ (rejected s).toNat ∧
    ∀ t hundredths, (t, .finish hundredths) ∈ h → (PageStats.rejected t).toNat ≤ n

/-- The invariant, with the two counts that are shown. -/
structure Follows (js : JsNumbers Num) (h : List (State Num × Event)) (s : State Num)
    (n m : Nat) : Prop where
  totals : s.page.totalShares = ⟨js.ofInt n, js.ofInt m⟩
  acc : s.page.sharesAcc = decimal n
  rej : s.page.sharesRej = decimal m
  accBehind : n ≤ (accepted s).toNat
  rejBehind : m ≤ (rejected s).toNat
  between : ∀ x, s.loaded = some x → n ≤ x.toNat ∧ x.toNat ≤ (accepted s).toNat
  loads : ∀ u, (u, .load) ∈ h → (accepted u).toNat ≤ (s.loaded.map UInt64.toNat).getD n
  finished : ∀ older t hundredths, Moment h older t (.finish hundredths) →
    ∀ u, (u, .load) ∈ older → (accepted u).toNat ≤ n
  finishedRej : ∀ t hundredths, (t, .finish hundredths) ∈ h → (rejected t).toNat ≤ m

theorem Follows.shown {js : JsNumbers Num} {h : List (State Num × Event)} {s : State Num}
    {n m : Nat} (follows : Follows js h s n m) : Shown h s where
  accepted := ⟨n, follows.acc, follows.accBehind, follows.finished⟩
  rejected := ⟨m, follows.rej, follows.rejBehind, follows.finishedRej⟩

/-- The digits of a count are the number that they spell. -/
theorem positive_readNumber (js : JsNumbers Num) {n : Nat} (small : n < 2 ^ 53) :
    readNumber js (decimal n) = js.ofInt n ∧ js.positive (js.ofInt n) = decide (0 < n) := by
  have exact : (n : Int).natAbs ≤ 9007199254740992 := by omega
  refine ⟨by rw [readNumber, digitsValue_decimal], ?_⟩
  rw [js.positive_ofInt n exact]
  simp

theorem print_number (js : JsNumbers Num) {n : Nat} (small : n < 2 ^ 53) :
    lit (js.text (js.ofInt n)) = decimal n := by
  have exact : (n : Int).natAbs ≤ 9007199254740992 := by omega
  rw [js.text_ofInt n exact]
  exact lit_toString n

/-- A count takes the place of one that is not greater. -/
theorem takeOver_decimal (js : JsNumbers Num) {n k : Nat} {stat : Option Value}
    (told : stat.bind digitsOf = some (decimal k)) (grown : n ≤ k) (small : k < 2 ^ 53) :
    takeOver js stat (js.ofInt n) = js.ofInt k := by
  obtain ⟨read, positive⟩ := positive_readNumber js small
  simp only [takeOver, told, read, positive]
  by_cases some : 0 < k
  · simp [some]
  · have none : n = k := by omega
    simp [none]

theorem tells_members {v : Value} {r : Readings} (told : v = .object (memberValues (counts r))) :
    (member (lit "accepted") v).bind digitsOf = some (decimal r.accepted.toNat) ∧
      (member (lit "rejected") v).bind digitsOf = some (decimal r.rejected.toNat) := by
  have other : lit "rejected" ≠ lit "accepted" := by decide
  rw [told]
  simp [member, memberValues, counts, digitsOf, other]

theorem updateStats_running {js : JsNumbers Num} {page : Page Num} {n m : Nat}
    (totals : page.totalShares = ⟨js.ofInt n, js.ofInt m⟩)
    {r : Readings} (rate : r.hundredths ≤ 1000 * 2 ^ 64)
    (accGrown : n ≤ r.accepted.toNat) (accSmall : r.accepted.toNat < 2 ^ 53)
    (rejGrown : m ≤ r.rejected.toNat) (rejSmall : r.rejected.toNat < 2 ^ 53) :
    updateStats js (MainActivity_nativeGetStats (some r)) page =
      ⟨⟨js.ofInt r.accepted.toNat, js.ofInt r.rejected.toNat⟩,
        decimal r.accepted.toNat, decimal r.rejected.toNat⟩ := by
  obtain ⟨acc, rej⟩ := tells_members (r := r) rfl
  simp only [updateStats, parse_activity rate, totals, takeOver_decimal js acc accGrown accSmall,
    takeOver_decimal js rej rejGrown rejSmall, print_number js accSmall, print_number js rejSmall]

/-- Without a miner either no count is told, or zero. -/
theorem unavailable_counts (unavailable : Unavailable) :
    ∃ v, parse (getStats unavailable) = some v ∧
      ∀ name ∈ [lit "accepted", lit "rejected"],
        ∀ digits ∈ (member name v).bind digitsOf, digits = decimal 0 := by
  have found : ((parse (getStats unavailable)).map fun v =>
      [lit "accepted", lit "rejected"].all fun name =>
        ((member name v).bind digitsOf).all (· == decimal 0)) = some true := by
    cases unavailable
    all_goals decide +kernel
  obtain ⟨v, read, all⟩ := Option.map_eq_some_iff.mp found
  refine ⟨v, read, fun name among digits told => ?_⟩
  have zero := List.all_eq_true.mp all name among
  rw [Option.mem_def.mp told] at zero
  exact beq_iff_eq.mp zero

theorem takeOver_unavailable (js : JsNumbers Num) {stat : Option Value}
    (told : ∀ digits ∈ stat.bind digitsOf, digits = decimal 0) (total : Num) :
    takeOver js stat total = total := by
  cases found : stat.bind digitsOf with
  | none => simp only [takeOver, found]
  | some digits =>
    have zero := told digits found
    obtain ⟨read, positive⟩ := positive_readNumber js (n := 0) (by decide)
    simp only [takeOver, found, zero, read, positive]
    simp

theorem updateStats_unavailable {js : JsNumbers Num} {page : Page Num} {n m : Nat}
    (totals : page.totalShares = ⟨js.ofInt n, js.ofInt m⟩)
    (accSmall : n < 2 ^ 53) (rejSmall : m < 2 ^ 53) (unavailable : Unavailable) :
    updateStats js (getStats unavailable) page =
      ⟨⟨js.ofInt n, js.ofInt m⟩, decimal n, decimal m⟩ := by
  obtain ⟨v, read, told⟩ := unavailable_counts unavailable
  have acc := takeOver_unavailable js (told _ List.mem_cons_self) (js.ofInt n)
  have rej := takeOver_unavailable js (told _ (List.mem_cons_of_mem _ List.mem_cons_self))
    (js.ofInt m)
  simp only [updateStats, read, totals, acc, rej, print_number js accSmall,
    print_number js rejSmall]

theorem toNat_add_bool {x : UInt64} (small : x.toNat < 2 ^ 53) (b : Bool) :
    x.toNat ≤ (x + b.toUInt64).toNat := by
  rw [ShareAccounting.toUInt64_eq, UInt64.toNat_add, UInt64.toNat_ofNat']
  cases b <;> simp only [Bool.toNat_false, Bool.toNat_true] <;> omega

/-- Small counters do not wrap around. -/
theorem counters_grow (lib : JsonLibrary) (js : JsNumbers Num) {s : State Num} (small : Small s)
    (e : Event) :
    (accepted s).toNat ≤ (accepted (next lib js s e)).toNat ∧
      (rejected s).toNat ≤ (rejected (next lib js s e)).toNat := by
  cases e with
  | miner e =>
    obtain ⟨acc, rej⟩ := ShareAccounting.next_counts lib s.account e
    simp only [accepted, rejected, next, acc, rej]
    exact ⟨toNat_add_bool small.1 _, toNat_add_bool small.2 _⟩
  | load => exact ⟨Nat.le_refl _, Nat.le_refl _⟩
  | finish hundredths =>
    simp only [next]
    split
    · exact ⟨Nat.le_refl _, Nat.le_refl _⟩
    · exact ⟨Nat.le_refl _, Nat.le_refl _⟩
  | without unavailable => exact ⟨Nat.le_refl _, Nat.le_refl _⟩

/-- What is said of finished polls stays true while another event comes. -/
theorem Follows.finished_cons {js : JsNumbers Num} {h : List (State Num × Event)} {s : State Num}
    {n m : Nat} {e : Event} (follows : Follows js h s n m) (other : ∀ k, e ≠ .finish k) :
    (∀ older t hundredths, Moment ((s, e) :: h) older t (.finish hundredths) →
      ∀ u, (u, .load) ∈ older → (accepted u).toNat ≤ n) ∧
      ∀ t hundredths, (t, .finish hundredths) ∈ (s, e) :: h → (rejected t).toNat ≤ m := by
  constructor
  · intro older t hundredths moment
    rcases moment_cons.mp moment with ⟨_, now, _⟩ | before
    · exact absurd now.symm (other hundredths)
    · exact follows.finished older t hundredths before
  · intro t hundredths finished
    rcases List.mem_cons.mp finished with now | before
    · exact absurd (Prod.mk.inj now).2.symm (other hundredths)
    · exact follows.finishedRej t hundredths before

theorem load_of_cons {h : List (State Num × Event)} {s u : State Num} {e : Event}
    (other : e ≠ .load) (load : (u, .load) ∈ (s, e) :: h) : (u, .load) ∈ h := by
  rcases List.mem_cons.mp load with now | before
  · exact absurd (Prod.mk.inj now).2.symm other
  · exact before

theorem Follows.miner {lib : JsonLibrary} {js : JsNumbers Num} {h : List (State Num × Event)}
    {s : State Num} {n m : Nat} (follows : Follows js h s n m) (small : Small s)
    (e : ShareAccounting.Event) :
    Follows js ((s, .miner e) :: h) (next lib js s (.miner e)) n m := by
  obtain ⟨acc, rej⟩ := counters_grow lib js small (.miner e)
  obtain ⟨finished, finishedRej⟩ := follows.finished_cons (e := .miner e) fun _ => by simp
  refine ⟨follows.totals, follows.acc, follows.rej, Nat.le_trans follows.accBehind acc,
    Nat.le_trans follows.rejBehind rej, fun x loaded => ?_,
    fun u load => follows.loads u (load_of_cons (e := .miner e) (by simp) load), finished,
    finishedRej⟩
  have between := follows.between x loaded
  exact ⟨between.1, Nat.le_trans between.2 acc⟩

theorem Follows.load {lib : JsonLibrary} {js : JsNumbers Num} {h : List (State Num × Event)}
    {s : State Num} {n m : Nat} (follows : Follows js h s n m) (idle : s.loaded = none) :
    Follows js ((s, .load) :: h) (next lib js s .load) n m := by
  obtain ⟨finished, finishedRej⟩ := follows.finished_cons (e := .load) fun _ => by simp
  refine ⟨follows.totals, follows.acc, follows.rej, follows.accBehind, follows.rejBehind,
    fun x loaded => ?_, fun u loads => ?_, finished, finishedRej⟩
  · cases loaded
    exact ⟨follows.accBehind, Nat.le_refl _⟩
  · change (accepted u).toNat ≤ (accepted s).toNat
    rcases List.mem_cons.mp loads with now | before
    · cases now
      exact Nat.le_refl _
    · -- the polls before this one are over
      have ended := follows.loads u before
      rw [idle] at ended
      exact Nat.le_trans ended follows.accBehind

theorem Follows.finish {lib : JsonLibrary} {js : JsNumbers Num} {h : List (State Num × Event)}
    {s : State Num} {n m hundredths : Nat} {x : UInt64} (follows : Follows js h s n m)
    (loaded : s.loaded = some x) (rate : hundredths ≤ 1000 * 2 ^ 64) (small : Small s) :
    Follows js ((s, .finish hundredths) :: h) (next lib js s (.finish hundredths))
      x.toNat (rejected s).toNat := by
  obtain ⟨grown, behind⟩ := follows.between x loaded
  have page := updateStats_running follows.totals (r := ⟨hundredths, x, rejected s⟩) rate grown
    (Nat.lt_of_le_of_lt behind small.1) follows.rejBehind small.2
  have loads : ∀ u, (u, .load) ∈ h → (accepted u).toNat ≤ x.toNat := by
    intro u before
    have ended := follows.loads u before
    rwa [loaded] at ended
  have after : next lib js s (.finish hundredths) =
      ⟨s.account, ⟨⟨js.ofInt x.toNat, js.ofInt (rejected s).toNat⟩,
        decimal x.toNat, decimal (rejected s).toNat⟩, none⟩ := by
    simp only [next, loaded, page]
  rw [after]
  refine ⟨rfl, rfl, rfl, behind, Nat.le_refl _, fun _ none => (nomatch none),
    fun u load => loads u (load_of_cons (e := .finish hundredths) (by simp) load),
    fun older t k moment u load => ?_,
    fun t k finished => ?_⟩
  · rcases moment_cons.mp moment with ⟨_, _, rfl⟩ | before
    · exact loads u load
    · exact loads u (before.older_mem load)
  · rcases List.mem_cons.mp finished with now | before
    · cases now
      exact Nat.le_refl _
    · exact Nat.le_trans (follows.finishedRej t k before) follows.rejBehind

theorem Follows.without {lib : JsonLibrary} {js : JsNumbers Num} {h : List (State Num × Event)}
    {s : State Num} {n m : Nat} (follows : Follows js h s n m) (small : Small s)
    (unavailable : Unavailable) :
    Follows js ((s, .without unavailable) :: h) (next lib js s (.without unavailable)) n m := by
  have page := updateStats_unavailable follows.totals
    (Nat.lt_of_le_of_lt follows.accBehind small.1)
    (Nat.lt_of_le_of_lt follows.rejBehind small.2) unavailable
  obtain ⟨finished, finishedRej⟩ :=
    follows.finished_cons (e := .without unavailable) fun _ => by simp
  simp only [next, page]
  exact ⟨rfl, rfl, rfl, follows.accBehind, follows.rejBehind, follows.between,
    fun u load => follows.loads u (load_of_cons (e := .without unavailable) (by simp) load),
    finished, finishedRej⟩

theorem Follows.step {lib : JsonLibrary} {js : JsNumbers Num} {h : List (State Num × Event)}
    {s : State Num} {e : Event} {n m : Nat} (follows : Follows js h s n m)
    (enabled : Enabled s e) (small : Small s) :
    ∃ n m, Follows js ((s, e) :: h) (next lib js s e) n m := by
  cases e with
  | miner e => exact ⟨n, m, follows.miner small e⟩
  | load => exact ⟨n, m, follows.load enabled⟩
  | finish hundredths =>
    obtain ⟨going, rate⟩ := enabled
    obtain ⟨x, loaded⟩ := Option.isSome_iff_exists.mp going
    exact ⟨_, _, follows.finish loaded rate small⟩
  | without unavailable => exact ⟨n, m, follows.without small unavailable⟩

theorem follows_run {lib : JsonLibrary} {js : JsNumbers Num} {h : List (State Num × Event)}
    {s : State Num} (run : Run (machine lib js) (Started js) h s) (small : ∀ m ∈ h, Small m.1) :
    ∃ n m, Follows js h s n m := by
  refine run.invariant_of_steps (P := fun h s => ∃ n m, Follows js h s n m)
    (Q := fun s _ => Small s) ?_ ?_ small
  · rintro s ⟨_, page, idle⟩
    refine ⟨0, 0, ?_, ?_, ?_, Nat.zero_le _, Nat.zero_le _, fun x loaded => ?_,
      fun _ none => (nomatch none), ?_, fun _ _ none => (nomatch none)⟩
    · rw [page]
      rfl
    · rw [page]
      rfl
    · rw [page]
      rfl
    · rw [idle] at loaded
      cases loaded
    · rintro older t hundredths ⟨newer, empty⟩
      exact absurd empty.symm (by simp)
  · rintro h s e ⟨n, m, follows⟩ enabled small
    exact follows.step enabled small

/-- If the counters are small when the page or the pool acts, the page shows no more
than they hold and no less than the last poll has read. -/
theorem page_shows {lib : JsonLibrary} {js : JsNumbers Num} {h : List (State Num × Event)}
    {s : State Num} (run : Run (machine lib js) (Started js) h s) (small : ∀ m ∈ h, Small m.1) :
    Shown h s := by
  obtain ⟨n, m, follows⟩ := follows_run run small
  exact follows.shown

def acceptedLine : Text := lit "\x7b\"id\":2,\"result\":true,\"error\":null\x7d"

def acceptedAnswer : Json :=
  .obj [(lit "error", .null), (lit "id", .unsigned 2), (lit "result", .bool true)]

def acceptingLibrary : JsonLibrary where
  parse := fun text => if text = acceptedLine then some acceptedAnswer else none
  dump := fun _ => []

def beforeShares : State Int :=
  ⟨ShareAccounting.freshAccount, resetStats exactNumbers, none⟩

/-- The share is answered between the two loads of the first poll. -/
def answeredWithin : List Event :=
  [.miner .submitShare, .load, .miner (.receive acceptedLine), .finish 250, .load, .finish 251]

def answeredWithinRun : List (State Int × Event) × State Int :=
  replay (machine acceptingLibrary exactNumbers) answeredWithin ([], beforeShares)

theorem answeredWithin_run : Run (machine acceptingLibrary exactNumbers) (Started exactNumbers)
    answeredWithinRun.1 answeredWithinRun.2 := by
  have started : Started exactNumbers beforeShares := ⟨⟨rfl, rfl, rfl⟩, rfl, rfl⟩
  exact replay_run (.init started) _ ⟨trivial, rfl, trivial, ⟨rfl, by decide⟩, rfl,
    ⟨rfl, by decide⟩, trivial⟩

theorem page_shows_answeredWithin :
    accepted answeredWithinRun.2 = 1 ∧ Shown answeredWithinRun.1 answeredWithinRun.2 := by
  refine ⟨by decide +kernel, page_shows answeredWithin_run ?_⟩
  simp only [Small]
  decide +kernel

end PageStats
