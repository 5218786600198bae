import MoneroRandomXMiner.MiningBlob

/-!
# The handling of a pool message

`handle_message` parses one line as JSON and looks at it three times: for the
job of a login reply, for a job notification and for the answer to a share. A
field of the wrong type throws, which ends the message where it stands. The
JSON library is a parameter; its lookups are those of `nlohmann::json`.
-/

namespace HandleMessage

open HexText MiningBlob

/-- A JSON value. A floating-point number is kept as its conversion to
`uint64_t`, the only thing the program ever reads of it. -/
inductive Json where
  | null
  | bool (b : Bool)
  | unsigned (n : UInt64)
  | integer (n : Int64)
  | float (converted : UInt64)
  | str (t : Text)
  | arr (items : List Json)
  | obj (members : List (Text × Json))

/-- `json::parse`, which throws on ill-formed text, and `dump`. -/
structure JsonLibrary where
  parse : Text → Option Json
  dump : Json → Text

/-- `j.contains(key)`, and `j[key]` where it holds. -/
def Json.member (j : Json) (key : Text) : Option Json :=
  match j with
  | .obj members => members.lookup key
  | _ => none

def Json.isNull : Json → Bool
  | .null => true
  | _ => false

/-- `j.value(key, "")` as a string. A member of another type throws. -/
def Json.stringValue (j : Json) (key : Text) : Option Text :=
  match j.member key with
  | none => some []
  | some (.str t) => some t
  | some _ => none

/-- `j.value(key, uint64_t(0))`. Every number converts, any other type throws. -/
def Json.uint64Value (j : Json) (key : Text) : Option UInt64 :=
  match j.member key with
  | none => some 0
  | some (.unsigned n) => some n
  | some (.integer n) => some n.toUInt64
  | some (.float converted) => some converted
  | some _ => none

/-- `j.value("error", json{})` -/
def Json.errorValue (j : Json) : Json := (j.member (lit "error")).getD .null

/-- The five reads of a job object, in order. -/
def readJob (j : Json) : Option MiningJob := do
  let jobId ← j.stringValue (lit "job_id")
  let blob ← j.stringValue (lit "blob")
  let target ← j.stringValue (lit "target")
  let seedHash ← j.stringValue (lit "seed_hash")
  let height ← j.uint64Value (lit "height")
  return ⟨jobId, blob, target, seedHash, height⟩

/-- What the client and, through the callbacks, the miner keep of the session. -/
structure Session where
  messageId : UInt32
  clientJob : MiningJob
  minerJob : MiningJob
  newJob : Bool
  acceptedShares : UInt64
  rejectedShares : UInt64
  deriving DecidableEq

def onNewJob (job : MiningJob) (s : Session) : Session :=
  { s with minerJob := job, newJob := true }

def onShareResult (accepted : Bool) (_response : Text) (s : Session) : Session :=
  if accepted then { s with acceptedShares := s.acceptedShares + 1 }
  else { s with rejectedShares := s.rejectedShares + 1 }

/-- A job with a blob becomes the client's current job and goes to the callback. -/
def publish : Option MiningJob → Session → Session
  | none, s => s
  | some job, s => if job.blob = [] then s else onNewJob job { s with clientJob := job }

/-- The job object of a login reply, `none` outside if one of its fields throws. -/
def loginJob (j : Json) : Option (Option MiningJob) :=
  match j.member (lit "result") with
  | some (.obj result) =>
    match (Json.obj result).member (lit "job") with
    | some (.obj jj) => (readJob (.obj jj)).map some
    | _ => some none
  | _ => some none

/-- `j.contains("method") && j["method"] == "job"` -/
def Json.isJobMethod (j : Json) : Bool :=
  match j.member (lit "method") with
  | some (.str t) => t == lit "job"
  | _ => false

def notifiedJob (j : Json) : Option (Option MiningJob) :=
  if j.isJobMethod then
    match j.member (lit "params") with
    | some (.obj p) => (readJob (.obj p)).map some
    | _ => some none
  else some none

/-- `j["result"]` where it is a boolean. -/
def boolResult (j : Json) : Option Bool :=
  match j.member (lit "result") with
  | some (.bool accepted) => some accepted
  | _ => none

def shareReply (lib : JsonLibrary) (j : Json) (s : Session) : Session :=
  match j.member (lit "id"), boolResult j with
  | some _, some accepted =>
    onShareResult accepted (if j.errorValue.isNull then [] else lib.dump j.errorValue) s
  | _, _ => s

def handleMessage (lib : JsonLibrary) (message : Text) (s : Session) : Session :=
  match lib.parse message with
  | none => s
  | some j =>
    match loginJob j with
    | none => s
    | some login =>
      match notifiedJob j with
      | none => publish login s
      | some notified => shareReply lib j (publish notified (publish login s))

/-- A call that `handle_message` makes through one of the two callbacks. -/
inductive Callback where
  | job (job : MiningJob)
  | share (accepted : Bool) (response : Text)
  deriving DecidableEq

def jobCallbacks : Option MiningJob → List Callback
  | none => []
  | some job => if job.blob = [] then [] else [.job job]

def shareCallbacks (lib : JsonLibrary) (j : Json) : List Callback :=
  match j.member (lit "id"), boolResult j with
  | some _, some accepted =>
    [.share accepted (if j.errorValue.isNull then [] else lib.dump j.errorValue)]
  | _, _ => []

/-- The calls that one message leads to, in order, up to the first exception. -/
def callbacks (lib : JsonLibrary) (message : Text) : List Callback :=
  match lib.parse message with
  | none => []
  | some j =>
    match loginJob j with
    | none => []
    | some login =>
      match notifiedJob j with
      | none => jobCallbacks login
      | some notified => jobCallbacks login ++ jobCallbacks notified ++ shareCallbacks lib j

/-- One call, with the store to the client's current job that precedes it. -/
def runCallback (s : Session) : Callback → Session
  | .job job => onNewJob job { s with clientJob := job }
  | .share accepted response => onShareResult accepted response s

/-- `++m_message_id`: the id that `submit_share` puts into its message. -/
def issueId (s : Session) : UInt32 × Session :=
  (s.messageId + 1, { s with messageId := s.messageId + 1 })

variable {lib : JsonLibrary}

@[simp] theorem publish_accepted (job : Option MiningJob) (s : Session) :
    (publish job s).acceptedShares = s.acceptedShares := by
  cases job with
  | none => rfl
  | some job =>
    simp only [publish, onNewJob]
    split <;> rfl

@[simp] theorem publish_rejected (job : Option MiningJob) (s : Session) :
    (publish job s).rejectedShares = s.rejectedShares := by
  cases job with
  | none => rfl
  | some job =>
    simp only [publish, onNewJob]
    split <;> rfl

theorem publish_eq_callbacks (job : Option MiningJob) (s : Session) :
    publish job s = (jobCallbacks job).foldl runCallback s := by
  cases job with
  | none => rfl
  | some job =>
    simp only [publish, jobCallbacks]
    split <;> rfl

theorem shareReply_eq_callbacks (j : Json) (s : Session) :
    shareReply lib j s = (shareCallbacks lib j).foldl runCallback s := by
  simp only [shareReply, shareCallbacks]
  split <;> rfl

/-- A message has no effect beyond its callbacks. -/
theorem handleMessage_eq_callbacks (message : Text) (s : Session) :
    handleMessage lib message s = (callbacks lib message).foldl runCallback s := by
  unfold handleMessage callbacks
  cases lib.parse message with
  | none => rfl
  | some j =>
    cases hlogin : loginJob j with
    | none => simp only [hlogin, List.foldl_nil]
    | some login =>
      cases hnotified : notifiedJob j with
      | none => simp only [hlogin, hnotified, publish_eq_callbacks]
      | some notified =>
        simp only [hlogin, hnotified, publish_eq_callbacks, shareReply_eq_callbacks,
          List.foldl_append]

/-- The answer that reaches the share callback: an id of any kind, a boolean
result, and no exception on the way. -/
def verdict (j : Json) : Option Bool :=
  if (j.member (lit "id")).isSome ∧ (notifiedJob j).isSome then boolResult j else none

def messageVerdict (lib : JsonLibrary) (message : Text) : Option Bool :=
  (lib.parse message).bind verdict

theorem loginJob_of_bool {j : Json} {b : Bool} (hresult : boolResult j = some b) :
    loginJob j = some none := by
  unfold boolResult at hresult
  split at hresult
  · rename_i accepted hmember
    simp only [loginJob, hmember]
  · cases hresult

theorem verdict_some {j : Json} {b : Bool} (hv : verdict j = some b) :
    (∃ id, j.member (lit "id") = some id) ∧ (∃ notified, notifiedJob j = some notified) ∧
      boolResult j = some b := by
  unfold verdict at hv
  split at hv
  · rename_i hboth
    exact ⟨Option.isSome_iff_exists.mp hboth.1, Option.isSome_iff_exists.mp hboth.2, hv⟩
  · cases hv

/-- A message without a verdict leaves the counters alone. -/
theorem handleMessage_quiet {message : Text} {s : Session}
    (quiet : messageVerdict lib message = none) :
    (handleMessage lib message s).acceptedShares = s.acceptedShares ∧
      (handleMessage lib message s).rejectedShares = s.rejectedShares := by
  cases hparse : lib.parse message with
  | none => simp only [handleMessage, hparse, and_self]
  | some j =>
    have hv : verdict j = none := by
      simpa only [messageVerdict, hparse, Option.bind_some] using quiet
    cases hlogin : loginJob j with
    | none => simp only [handleMessage, hparse, hlogin, and_self]
    | some login =>
      cases hnotified : notifiedJob j with
      | none => simp only [handleMessage, hparse, hlogin, hnotified, publish_accepted,
          publish_rejected, and_self]
      | some notified =>
        simp only [handleMessage, hparse, hlogin, hnotified, shareReply]
        split
        · rename_i id accepted hid hresult
          simp [verdict, hid, hresult, hnotified] at hv
        · simp only [publish_accepted, publish_rejected, and_self]

/-- A message with a verdict is one call of the share callback. -/
theorem handleMessage_verdict {message : Text} {s : Session} {b : Bool}
    (counted : messageVerdict lib message = some b) :
    (handleMessage lib message s).acceptedShares = s.acceptedShares + b.toUInt64 ∧
      (handleMessage lib message s).rejectedShares = s.rejectedShares + (!b).toUInt64 := by
  cases hparse : lib.parse message with
  | none => simp only [messageVerdict, hparse, Option.bind_none, reduceCtorEq] at counted
  | some j =>
    have hv : verdict j = some b := by
      simpa only [messageVerdict, hparse, Option.bind_some] using counted
    obtain ⟨⟨id, hid⟩, ⟨notified, hnotified⟩, hresult⟩ := verdict_some hv
    simp only [handleMessage, hparse, loginJob_of_bool hresult, hnotified, shareReply, hid,
      hresult]
    cases b with
    | true => simp [onShareResult, Bool.toUInt64]
    | false => simp [onShareResult, Bool.toUInt64]

end HandleMessage
