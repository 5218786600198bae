import MoneroRandomXMiner.Histories
import MoneroRandomXMiner.HandleMessage

/-!
# Accounting of submitted shares

The client issues ids, the pool answers each of them once, and a ledger keeps
what the answers say. The miner's own counters follow a boolean `result` and
never the id, so they agree with the ledger exactly in the runs where every
answer is a plain boolean and no other message looks like one. The counters have
64 bits and wrap around, the ledger does not.
-/

namespace ShareAccounting

open Histories HexText MiningBlob HandleMessage

/-- What the pool owes and what it has answered. -/
structure Ledger where
  outstanding : List UInt32
  good : Nat
  bad : Nat

structure Account where
  session : Session
  ledger : Ledger

inductive Event where
  | submitShare
  | receive (message : Text)

def hasId (j : Json) (id : UInt32) : Bool :=
  match j.member (lit "id") with
  | some (.unsigned n) => n == id.toUInt64
  | _ => false

/-- The outstanding submit that a message answers, with its value. -/
def answered (lib : JsonLibrary) (outstanding : List UInt32) (message : Text) :
    Option (UInt32 × Json) :=
  match lib.parse message with
  | some j => (outstanding.find? (hasId j)).map fun id => (id, j)
  | none => none

/-- Without error, and with a result other than false. -/
def answersWell (j : Json) : Bool :=
  j.errorValue.isNull && boolResult j != some false

/-- The three forms of an answer: a boolean result, a result object without
error, or an error without result. -/
def AnswerShape (j : Json) : Prop :=
  j.member (lit "method") = none ∧
    ((∃ b, boolResult j = some b) ∨
      ((∃ members, j.member (lit "result") = some (.obj members)) ∧ j.errorValue.isNull = true) ∨
      ((j.member (lit "result") = none ∨ j.member (lit "result") = some .null) ∧
        j.errorValue.isNull = false))

def Ledger.record (l : Ledger) (id : UInt32) (j : Json) : Ledger where
  outstanding := l.outstanding.erase id
  good := l.good + (answersWell j).toNat
  bad := l.bad + (!answersWell j).toNat

def Ledger.receive (lib : JsonLibrary) (l : Ledger) (message : Text) : Ledger :=
  match answered lib l.outstanding message with
  | some (id, j) => l.record id j
  | none => l

def next (lib : JsonLibrary) (a : Account) : Event → Account
  | .submitShare =>
    let issued := issueId a.session
    ⟨issued.2, { a.ledger with outstanding := issued.1 :: a.ledger.outstanding }⟩
  | .receive message => ⟨handleMessage lib message a.session, a.ledger.receive lib message⟩

/-- The pool answers a submit in one of the three forms. Its other messages are
arbitrary. -/
def Enabled (lib : JsonLibrary) (a : Account) : Event → Prop
  | .submitShare => True
  | .receive message => ∀ id j, answered lib a.ledger.outstanding message = some (id, j) →
      AnswerShape j

def machine (lib : JsonLibrary) : Machine Account Event where
  Enabled := Enabled lib
  next := next lib

/-- No share counted, none outstanding. -/
def Fresh (a : Account) : Prop :=
  a.session.acceptedShares = 0 ∧ a.session.rejectedShares = 0 ∧ a.ledger = ⟨[], 0, 0⟩

/-- A message that answers no outstanding submit. -/
def Foreign (lib : JsonLibrary) (a : Account) : Event → Prop
  | .submitShare => False
  | .receive message => answered lib a.ledger.outstanding message = none

/-- The counters are the counts of the ledger. -/
structure Counted (a : Account) : Prop where
  accepted : a.session.acceptedShares = UInt64.ofNat a.ledger.good
  rejected : a.session.rejectedShares = UInt64.ofNat a.ledger.bad

/-- Foreign messages leave the counters alone. -/
def ForeignQuiet (lib : JsonLibrary) (h : List (Account × Event)) : Prop :=
  ∀ m ∈ h, Foreign lib m.1 m.2 →
    (next lib m.1 m.2).session.acceptedShares = m.1.session.acceptedShares ∧
      (next lib m.1 m.2).session.rejectedShares = m.1.session.rejectedShares

structure Exact (lib : JsonLibrary) (h : List (Account × Event)) (a : Account) : Prop where
  counted : Counted a
  foreign : ForeignQuiet lib h

/-- The counters are exact in every state of the run. -/
structure AlwaysExact (lib : JsonLibrary) (h : List (Account × Event)) (a : Account) : Prop where
  counted : Always Counted h a
  foreign : ForeignQuiet lib h

/-- Every answer has a boolean result, true only without error, and no other
message has an id, a boolean result and no malformed job notification. -/
def PlainTraffic (lib : JsonLibrary) (h : List (Account × Event)) : Prop :=
  ∀ a message, (a, .receive message) ∈ h →
    match answered lib a.ledger.outstanding message with
    | some (_, j) => ∃ b, boolResult j = some b ∧ (b = true → j.errorValue.isNull = true)
    | none => messageVerdict lib message = none

variable {lib : JsonLibrary}

def counts (lib : JsonLibrary) (b : Bool) (m : Account × Event) : Bool :=
  match m.2 with
  | .submitShare => false
  | .receive message => messageVerdict lib message == some b

def owes (lib : JsonLibrary) (b : Bool) (m : Account × Event) : Bool :=
  match m.2 with
  | .submitShare => false
  | .receive message =>
    (answered lib m.1.ledger.outstanding message).any fun p => answersWell p.2 == b

theorem next_counts (lib : JsonLibrary) (a : Account) (e : Event) :
    (next lib a e).session.acceptedShares =
        a.session.acceptedShares + (counts lib true (a, e)).toUInt64 ∧
      (next lib a e).session.rejectedShares =
        a.session.rejectedShares + (counts lib false (a, e)).toUInt64 := by
  cases e with
  | submitShare => exact ⟨(UInt64.add_zero _).symm, (UInt64.add_zero _).symm⟩
  | receive message =>
    change (handleMessage lib message a.session).acceptedShares = _ ∧
      (handleMessage lib message a.session).rejectedShares = _
    cases hv : messageVerdict lib message with
    | none =>
      obtain ⟨haccepted, hrejected⟩ := handleMessage_quiet (s := a.session) hv
      simp [haccepted, hrejected, counts, hv, Bool.toUInt64]
    | some b =>
      obtain ⟨haccepted, hrejected⟩ := handleMessage_verdict (s := a.session) hv
      cases b <;> simp [haccepted, hrejected, counts, hv, Bool.toUInt64]

theorem next_owes (lib : JsonLibrary) (a : Account) (e : Event) :
    (next lib a e).ledger.good = a.ledger.good + (owes lib true (a, e)).toNat ∧
      (next lib a e).ledger.bad = a.ledger.bad + (owes lib false (a, e)).toNat := by
  cases e with
  | submitShare => exact ⟨rfl, rfl⟩
  | receive message =>
    change (a.ledger.receive lib message).good = _ ∧ (a.ledger.receive lib message).bad = _
    cases hans : answered lib a.ledger.outstanding message with
    | none => simp [Ledger.receive, owes, hans]
    | some p =>
      cases hwell : answersWell p.2 <;> simp [Ledger.receive, Ledger.record, owes, hans, hwell]

/-- Counters and ledger are sums over the messages of the run. -/
structure Tallied (lib : JsonLibrary) (h : List (Account × Event)) (a : Account) : Prop where
  accepted : a.session.acceptedShares = UInt64.ofNat (h.countP (counts lib true))
  rejected : a.session.rejectedShares = UInt64.ofNat (h.countP (counts lib false))
  good : a.ledger.good = h.countP (owes lib true)
  bad : a.ledger.bad = h.countP (owes lib false)

theorem countP_cons_toNat {α : Type} (p : α → Bool) (m : α) (h : List α) :
    (m :: h).countP p = h.countP p + (p m).toNat := by
  rw [List.countP_cons]
  cases p m <;> rfl

theorem toUInt64_eq (b : Bool) : b.toUInt64 = UInt64.ofNat b.toNat := by
  cases b <;> rfl

theorem Tallied.step {h : List (Account × Event)} {a : Account} {e : Event}
    (tallied : Tallied lib h a) : Tallied lib ((a, e) :: h) (next lib a e) := by
  obtain ⟨haccepted, hrejected⟩ := next_counts lib a e
  obtain ⟨hgood, hbad⟩ := next_owes lib a e
  constructor
  · rw [countP_cons_toNat, UInt64.ofNat_add, ← tallied.accepted, haccepted, toUInt64_eq]
  · rw [countP_cons_toNat, UInt64.ofNat_add, ← tallied.rejected, hrejected, toUInt64_eq]
  · rw [countP_cons_toNat, ← tallied.good, hgood]
  · rw [countP_cons_toNat, ← tallied.bad, hbad]

theorem tallied_run {h : List (Account × Event)} {a : Account}
    (run : Run (machine lib) Fresh h a) : Tallied lib h a := by
  apply run.invariant
  · rintro a ⟨haccepted, hrejected, hledger⟩
    refine ⟨haccepted, hrejected, ?_, ?_⟩
    · rw [hledger]
      rfl
    · rw [hledger]
      rfl
  · exact fun _ _ _ tallied _ => tallied.step

/-- Two counts agree only if the narrower test misses nothing. -/
theorem imp_of_countP_eq {α : Type} {p q : α → Bool} {h : List α}
    (imp : ∀ m ∈ h, p m = true → q m = true) (eq : h.countP p = h.countP q) :
    ∀ m ∈ h, q m = p m := by
  induction h with
  | nil => exact fun m hm => nomatch hm
  | cons m h ih =>
    have himp : ∀ m ∈ h, p m = true → q m = true :=
      fun k hk => imp k (List.mem_cons_of_mem m hk)
    have hle := List.countP_mono_left himp
    have hm := imp m List.mem_cons_self
    rw [countP_cons_toNat, countP_cons_toNat] at eq
    have hsame : q m = p m := by
      cases hp : p m with
      | true => exact hm hp
      | false =>
        cases hq : q m with
        | true => simp only [hp, hq, Bool.toNat_false, Bool.toNat_true] at eq; omega
        | false => rfl
    intro k hk
    rcases List.mem_cons.mp hk with rfl | old
    · exact hsame
    · refine ih himp ?_ k old
      rw [hsame] at eq
      omega

/-- On one event the miner counts what the ledger records. -/
def Agrees (lib : JsonLibrary) (m : Account × Event) : Prop :=
  owes lib true m = counts lib true m ∧ owes lib false m = counts lib false m

theorem answered_some {outstanding : List UInt32} {message : Text} {id : UInt32} {j : Json}
    (hans : answered lib outstanding message = some (id, j)) :
    lib.parse message = some j ∧ ∃ number, j.member (lit "id") = some number := by
  unfold answered at hans
  split at hans
  · rename_i k hparse
    obtain ⟨found, hfind, heq⟩ := Option.map_eq_some_iff.mp hans
    obtain ⟨rfl, rfl⟩ := Prod.mk.inj heq
    refine ⟨hparse, ?_⟩
    have hid := List.find?_some hfind
    unfold hasId at hid
    split at hid
    · rename_i number hmember
      exact ⟨_, hmember⟩
    · cases hid
  · cases hans

/-- An answer in one of the three forms is counted by its boolean result alone. -/
theorem messageVerdict_answer {outstanding : List UInt32} {message : Text} {id : UInt32} {j : Json}
    (hans : answered lib outstanding message = some (id, j)) (shape : AnswerShape j) :
    messageVerdict lib message = boolResult j := by
  obtain ⟨hparse, number, hid⟩ := answered_some hans
  have hnotified : notifiedJob j = some none := by
    simp only [notifiedJob, Json.isJobMethod, shape.1, Bool.false_eq_true, if_false]
  simp [messageVerdict, hparse, verdict, hid, hnotified]

theorem agrees_answer {a : Account} {message : Text} {id : UInt32} {j : Json}
    (hans : answered lib a.ledger.outstanding message = some (id, j)) (shape : AnswerShape j) :
    Agrees lib (a, .receive message) ↔
      ∃ b, boolResult j = some b ∧ (b = true → j.errorValue.isNull = true) := by
  have hv := messageVerdict_answer hans shape
  cases hresult : boolResult j with
  | none =>
    cases hwell : answersWell j <;> simp [Agrees, counts, owes, hv, hans, hresult, hwell]
  | some b =>
    cases b with
    | false => simp [Agrees, counts, owes, hv, hans, hresult, answersWell]
    | true =>
      cases herror : j.errorValue.isNull <;>
        simp [Agrees, counts, owes, hv, hans, hresult, answersWell, herror]

theorem agrees_foreign {a : Account} {message : Text}
    (hans : answered lib a.ledger.outstanding message = none) :
    Agrees lib (a, .receive message) ↔ messageVerdict lib message = none := by
  cases hv : messageVerdict lib message with
  | none => simp [Agrees, counts, owes, hv, hans]
  | some b => cases b <;> simp [Agrees, counts, owes, hv, hans]

theorem plainTraffic_iff_agrees {h : List (Account × Event)}
    (enabled : ∀ m ∈ h, Enabled lib m.1 m.2) :
    PlainTraffic lib h ↔ ∀ m ∈ h, Agrees lib m := by
  constructor
  · rintro plain ⟨a, e⟩ hm
    cases e with
    | submitShare => exact ⟨rfl, rfl⟩
    | receive message =>
      have traffic := plain a message hm
      cases hans : answered lib a.ledger.outstanding message with
      | none =>
        rw [hans] at traffic
        exact (agrees_foreign hans).mpr traffic
      | some p =>
        rw [hans] at traffic
        exact (agrees_answer hans (enabled _ hm _ _ hans)).mpr traffic
  · intro agrees a message hm
    have agree := agrees _ hm
    cases hans : answered lib a.ledger.outstanding message with
    | none => exact (agrees_foreign hans).mp agree
    | some p => exact (agrees_answer hans (enabled _ hm _ _ hans)).mp agree

/-- Unless a foreign message is counted, a counted rejection is recorded, and a
counted acceptance is recorded one way or the other. -/
theorem counts_imp_owes {m : Account × Event} (enabled : Enabled lib m.1 m.2)
    (quiet : Foreign lib m.1 m.2 → ∀ b, counts lib b m = false) :
    (counts lib false m = true → owes lib false m = true) ∧
      (counts lib true m = true → counts lib false m = false ∧
        (owes lib true m = true ∨ owes lib false m = true)) := by
  obtain ⟨a, e⟩ := m
  cases e with
  | submitShare => exact ⟨(fun hc => nomatch hc), (fun hc => nomatch hc)⟩
  | receive message =>
    cases hans : answered lib a.ledger.outstanding message with
    | none =>
      have hquiet := quiet hans
      simp [hquiet]
    | some p =>
      have hv := messageVerdict_answer hans (enabled _ _ hans)
      cases hresult : boolResult p.2 with
      | none => simp [counts, hv, hresult]
      | some b =>
        cases b with
        | false => simp [counts, owes, hv, hans, hresult, answersWell]
        | true => cases hwell : answersWell p.2 <;> simp [counts, owes, hv, hans, hresult, hwell]

theorem foreign_quiet_iff {m : Account × Event} :
    ((next lib m.1 m.2).session.acceptedShares = m.1.session.acceptedShares ∧
      (next lib m.1 m.2).session.rejectedShares = m.1.session.rejectedShares) ↔
      ∀ b, counts lib b m = false := by
  obtain ⟨haccepted, hrejected⟩ := next_counts lib m.1 m.2
  rw [haccepted, hrejected, Bool.forall_bool, And.comm]
  cases counts lib true m <;> cases counts lib false m <;> simp [Bool.toUInt64]

theorem foreignQuiet_of_agrees {h : List (Account × Event)} (agrees : ∀ m ∈ h, Agrees lib m) :
    ForeignQuiet lib h := by
  rintro ⟨b, e⟩ hm foreign
  refine foreign_quiet_iff.mpr ?_
  cases e with
  | submitShare => exact foreign.elim
  | receive message =>
    have hnone := (agrees_foreign foreign).mp (agrees _ hm)
    intro b
    simp [counts, hnone]

theorem ofNat_toNat_inj {b d : Bool} :
    UInt64.ofNat b.toNat = UInt64.ofNat d.toNat ↔ b = d := by
  cases b <;> cases d <;> decide

/-- Counters that are exact stay so by an event on which the miner agrees with the
ledger, and by no other. -/
theorem counted_next_iff {a : Account} {e : Event} (counted : Counted a) :
    Counted (next lib a e) ↔ Agrees lib (a, e) := by
  obtain ⟨haccepted, hrejected⟩ := next_counts lib a e
  obtain ⟨hgood, hbad⟩ := next_owes lib a e
  rw [counted.accepted, toUInt64_eq] at haccepted
  rw [counted.rejected, toUInt64_eq] at hrejected
  have accepted : (next lib a e).session.acceptedShares = UInt64.ofNat (next lib a e).ledger.good ↔
      counts lib true (a, e) = owes lib true (a, e) := by
    rw [haccepted, hgood, UInt64.ofNat_add, UInt64.add_right_inj, ofNat_toNat_inj]
  have rejected : (next lib a e).session.rejectedShares = UInt64.ofNat (next lib a e).ledger.bad ↔
      counts lib false (a, e) = owes lib false (a, e) := by
    rw [hrejected, hbad, UInt64.ofNat_add, UInt64.add_right_inj, ofNat_toNat_inj]
  constructor
  · exact fun after => ⟨(accepted.mp after.accepted).symm, (rejected.mp after.rejected).symm⟩
  · exact fun agrees => ⟨accepted.mpr agrees.1.symm, rejected.mpr agrees.2.symm⟩

theorem counted_fresh {a : Account} (fresh : Fresh a) : Counted a := by
  obtain ⟨haccepted, hrejected, hledger⟩ := fresh
  constructor
  · rw [haccepted, hledger]
    rfl
  · rw [hrejected, hledger]
    rfl

theorem always_counted_iff {h : List (Account × Event)} {a : Account}
    (run : Run (machine lib) Fresh h a) : Always Counted h a ↔ ∀ m ∈ h, Agrees lib m :=
  run.always_iff (I := Counted) (Q := fun a e => Agrees lib (a, e)) (fun _ => counted_fresh)
    (fun _ => id) (fun _ _ counted _ => (counted_next_iff counted).mpr)
    (fun _ _ counted _ => (counted_next_iff counted).mp)

/-- Before the counters can wrap around, their last values tell what was counted. -/
theorem agrees_of_exact {h : List (Account × Event)} {a : Account} (tallied : Tallied lib h a)
    (enabled : ∀ m ∈ h, Enabled lib m.1 m.2) (short : h.length < UInt64.size)
    (exact : Exact lib h a) : ∀ m ∈ h, Agrees lib m := by
  have himp := fun m hm => counts_imp_owes (enabled m hm)
    (fun foreign => foreign_quiet_iff.mp (exact.foreign m hm foreign))
  have value : ∀ p : Account × Event → Bool,
      (UInt64.ofNat (h.countP p)).toNat = h.countP p := fun p =>
    UInt64.toNat_ofNat_of_lt' (Nat.lt_of_le_of_lt List.countP_le_length short)
  have hbad : ∀ m ∈ h, owes lib false m = counts lib false m := by
    refine imp_of_countP_eq (fun m hm => (himp m hm).1) ?_
    have same := exact.counted.rejected
    rw [tallied.rejected, tallied.bad] at same
    rw [← value, same, value]
  have hgood : ∀ m ∈ h, owes lib true m = counts lib true m := by
    refine imp_of_countP_eq ?_ ?_
    · intro m hm htrue
      obtain ⟨hfalse, hrecorded⟩ := (himp m hm).2 htrue
      rcases hrecorded with good | bad
      · exact good
      · rw [hbad m hm, hfalse] at bad
        cases bad
    · have same := exact.counted.accepted
      rw [tallied.accepted, tallied.good] at same
      rw [← value, same, value]
  exact fun m hm => ⟨hgood m hm, hbad m hm⟩

/-- In every run the counters are exact throughout if and only if the traffic is
plain; in a run too short for them to wrap around, if and only if they are exact in
the end. -/
theorem exact_iff_plainTraffic {h : List (Account × Event)} {a : Account}
    (run : Run (machine lib) Fresh h a) :
    (AlwaysExact lib h a ↔ PlainTraffic lib h) ∧
      (h.length < UInt64.size → (Exact lib h a ↔ PlainTraffic lib h)) := by
  have enabled : ∀ m ∈ h, Enabled lib m.1 m.2 := by
    intro m hm
    obtain ⟨newer, older, rfl⟩ := List.append_of_mem hm
    exact run.before.2
  have always := always_counted_iff run
  rw [plainTraffic_iff_agrees enabled]
  refine ⟨⟨fun exact => always.mp exact.counted, fun agrees => ?_⟩, fun short => ⟨?_, ?_⟩⟩
  · exact ⟨always.mpr agrees, foreignQuiet_of_agrees agrees⟩
  · exact agrees_of_exact (tallied_run run) enabled short
  · exact fun agrees => ⟨(always.mpr agrees).1, foreignQuiet_of_agrees agrees⟩

/-- The usual answer of a Monero pool: `{"id":2,...,"result":{"status":"OK"}}`. -/
def statusOk : Json :=
  .obj [(lit "error", .null), (lit "id", .unsigned 2), (lit "jsonrpc", .str (lit "2.0")),
    (lit "result", .obj [(lit "status", .str (lit "OK"))])]

def statusOkText : Text :=
  lit "\x7b\"id\":2,\"jsonrpc\":\"2.0\",\"error\":null,\"result\":\x7b\"status\":\"OK\"\x7d\x7d"

def statusOkLibrary : JsonLibrary where
  parse := fun text => if text = statusOkText then some statusOk else none
  dump := fun _ => []

def freshAccount : Account :=
  ⟨⟨1, MiningJob.empty, MiningJob.empty, false, 0, 0⟩, ⟨[], 0, 0⟩⟩

/-- One share is submitted and accepted by the pool. -/
def statusOkRun : List (Account × Event) × Account :=
  replay (machine statusOkLibrary) [.submitShare, .receive statusOkText] ([], freshAccount)

theorem parse_statusOk : statusOkLibrary.parse statusOkText = some statusOk := by
  simp only [statusOkLibrary, if_true]

theorem answered_statusOk : answered statusOkLibrary [2] statusOkText = some (2, statusOk) := by
  simp only [answered, parse_statusOk]
  rfl

theorem statusOk_run :
    Run (machine statusOkLibrary) Fresh statusOkRun.1 statusOkRun.2 := by
  refine replay_run (.init ⟨rfl, rfl, rfl⟩) _ ⟨trivial, ?_, trivial⟩
  intro id j hans
  obtain ⟨_, rfl⟩ := Prod.mk.inj (Option.some.inj (answered_statusOk.symm.trans hans))
  exact ⟨rfl, Or.inr (Or.inl ⟨⟨_, rfl⟩, rfl⟩)⟩

theorem exact_iff_plainTraffic_statusOk :
    (AlwaysExact statusOkLibrary statusOkRun.1 statusOkRun.2 ↔
        PlainTraffic statusOkLibrary statusOkRun.1) ∧
      (statusOkRun.1.length < UInt64.size →
        (Exact statusOkLibrary statusOkRun.1 statusOkRun.2 ↔
          PlainTraffic statusOkLibrary statusOkRun.1)) :=
  exact_iff_plainTraffic statusOk_run

/-- The share was answered without error, and none was counted as accepted. -/
theorem exact_fails_statusOk :
    Run (machine statusOkLibrary) Fresh statusOkRun.1 statusOkRun.2 ∧
      statusOkRun.2.ledger.outstanding = [] ∧
      ¬ Exact statusOkLibrary statusOkRun.1 statusOkRun.2 := by
  have hgood : statusOkRun.2.ledger = ⟨[], 1, 0⟩ := by
    change Ledger.receive statusOkLibrary ⟨[2], 0, 0⟩ statusOkText = _
    simp only [Ledger.receive, answered_statusOk]
    rfl
  have hnone : statusOkRun.2.session.acceptedShares = 0 := by
    refine (handleMessage_quiet ?_).1
    simp only [messageVerdict, parse_statusOk]
    rfl
  refine ⟨statusOk_run, by rw [hgood], fun exact => ?_⟩
  have hcount := exact.counted.accepted
  rw [hnone, hgood] at hcount
  exact absurd hcount (by decide)

end ShareAccounting
