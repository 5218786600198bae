import MoneroRandomXMiner.HandleMessage

/-!
# What a message can do

The three looks at a message are put together. A message without both a result
and a method announces one job, or answers one share, or does nothing. Which of
the three it is depends on its members alone, and an exception on the way never
leaves a job half applied.
-/

namespace MessageCases

open HexText MiningBlob HandleMessage

variable {lib : JsonLibrary}

/-- `result.job`, the job of a login reply -/
def ResultJob (j jj : Json) : Prop :=
  ∃ result members, j.member (lit "result") = some (.obj result) ∧
    (Json.obj result).member (lit "job") = some (.obj members) ∧ jj = .obj members

/-- `params` of a message whose method is "job" -/
def ParamsJob (j jj : Json) : Prop :=
  j.member (lit "method") = some (.str (lit "job")) ∧
    ∃ members, j.member (lit "params") = some (.obj members) ∧ jj = .obj members

/-- The object in which a message announces its job. -/
def JobObject (j jj : Json) : Prop := ResultJob j jj ∨ ParamsJob j jj

/-- The value of a number of any kind, converted to `uint64_t`. -/
def number : Json → Option UInt64
  | .unsigned n => some n
  | .integer n => some n.toUInt64
  | .float converted => some converted
  | _ => none

/-- An absent member stands for the empty text. -/
def TextField (jj : Json) (key text : Text) : Prop :=
  jj.member key = none ∧ text = [] ∨ jj.member key = some (.str text)

/-- An absent member stands for zero. -/
def NumberField (jj : Json) (key : Text) (n : UInt64) : Prop :=
  jj.member key = none ∧ n = 0 ∨ ∃ v, jj.member key = some v ∧ number v = some n

/-- The object gives the job all its fields. -/
structure Describes (jj : Json) (job : MiningJob) : Prop where
  jobId : TextField jj (lit "job_id") job.jobId
  blob : TextField jj (lit "blob") job.blob
  target : TextField jj (lit "target") job.target
  seedHash : TextField jj (lit "seed_hash") job.seedHash
  height : NumberField jj (lit "height") job.height

/-- A field of the object is there with a value of another type. -/
def WrongType (jj : Json) : Prop :=
  (∃ key ∈ [lit "job_id", lit "blob", lit "target", lit "seed_hash"],
    ∃ v, jj.member key = some v ∧ ∀ text, v ≠ .str text) ∨
    ∃ v, jj.member (lit "height") = some v ∧ number v = none

/-- The client's and the miner's current job become this one. -/
def Replaces (lib : JsonLibrary) (message : Text) (s : Session) (job : MiningJob) : Prop :=
  callbacks lib message = [.job job] ∧
    handleMessage lib message s = { s with clientJob := job, minerJob := job, newJob := true }

/-- The share callback is called once and counts one share. -/
def Answers (lib : JsonLibrary) (message : Text) (s : Session) (accepted : Bool) : Prop :=
  (∃ response, callbacks lib message = [.share accepted response]) ∧
    handleMessage lib message s =
      { s with
        acceptedShares := s.acceptedShares + accepted.toUInt64
        rejectedShares := s.rejectedShares + (!accepted).toUInt64 }

def LeavesAll (lib : JsonLibrary) (message : Text) (s : Session) : Prop :=
  callbacks lib message = [] ∧ handleMessage lib message s = s

/-- The complete behaviour on one message. -/
structure Specified (lib : JsonLibrary) (message : Text) (s : Session) : Prop where
  replaces_iff : ∀ job, Replaces lib message s job ↔
    ∃ j jj, lib.parse message = some j ∧ JobObject j jj ∧ Describes jj job ∧ job.blob ≠ []
  answers_iff : ∀ accepted, Answers lib message s accepted ↔
    ∃ j id, lib.parse message = some j ∧ j.member (lit "id") = some id ∧
      j.member (lit "result") = some (.bool accepted)
  complete : (∃ job, Replaces lib message s job) ∨
    (∃ accepted, Answers lib message s accepted) ∨ LeavesAll lib message s
  exclusive : ¬((∃ job, Replaces lib message s job) ∧ ∃ accepted, Answers lib message s accepted) ∧
    ¬((∃ job, Replaces lib message s job) ∧ LeavesAll lib message s) ∧
    ¬((∃ accepted, Answers lib message s accepted) ∧ LeavesAll lib message s)
  unparsable : lib.parse message = none → LeavesAll lib message s
  wrongType : ∀ j jj, lib.parse message = some j → JobObject j jj → WrongType jj →
    LeavesAll lib message s

/-- The message does not carry both a result and a method. -/
def Single (j : Json) : Prop :=
  ¬((j.member (lit "result")).isSome ∧ (j.member (lit "method")).isSome)

theorem stringValue_eq_some_iff {jj : Json} {key text : Text} :
    jj.stringValue key = some text ↔ TextField jj key text := by
  rw [Json.stringValue, TextField]
  split
  · rename_i absent
    simp [absent, eq_comm]
  · rename_i t present
    simp [present]
  · rename_i v other present
    simp only [present, reduceCtorEq, false_and, Option.some.injEq, false_or, false_iff]
    exact other text

theorem uint64Value_eq_some_iff {jj : Json} {key : Text} {n : UInt64} :
    jj.uint64Value key = some n ↔ NumberField jj key n := by
  rw [Json.uint64Value, NumberField]
  cases jj.member key with
  | none => simp [eq_comm]
  | some v => cases v <;> simp [number]

theorem readJob_eq_some_iff {jj : Json} {job : MiningJob} :
    readJob jj = some job ↔ Describes jj job := by
  constructor
  · intro read
    simp only [readJob, Option.bind_eq_bind, Option.bind_eq_some_iff, Option.pure_def,
      Option.some.injEq, stringValue_eq_some_iff, uint64Value_eq_some_iff] at read
    obtain ⟨jobId, hid, blob, hblob, target, htarget, seed, hseed, height, hheight, rfl⟩ := read
    exact ⟨hid, hblob, htarget, hseed, hheight⟩
  · rintro ⟨hid, hblob, htarget, hseed, hheight⟩
    rw [← stringValue_eq_some_iff] at hid hblob htarget hseed
    rw [← uint64Value_eq_some_iff] at hheight
    simp only [readJob, hid, hblob, htarget, hseed, hheight, Option.bind_eq_bind,
      Option.bind_some, Option.pure_def]

theorem loginJob_of_resultJob {j jj : Json} (announced : ResultJob j jj) :
    loginJob j = (readJob jj).map some := by
  obtain ⟨result, members, hresult, hjob, rfl⟩ := announced
  simp only [loginJob, hresult, hjob]

theorem notifiedJob_of_paramsJob {j jj : Json} (announced : ParamsJob j jj) :
    notifiedJob j = (readJob jj).map some := by
  obtain ⟨hmethod, members, hparams, rfl⟩ := announced
  simp [notifiedJob, Json.isJobMethod, hmethod, hparams]

theorem loginJob_of_not_resultJob {j : Json} (silent : ∀ jj, ¬ResultJob j jj) :
    loginJob j = some none := by
  rw [loginJob]
  split
  · rename_i result hresult
    split
    · rename_i members hjob
      exact absurd ⟨result, members, hresult, hjob, rfl⟩ (silent (.obj members))
    · rfl
  · rfl

theorem isJobMethod_iff {j : Json} :
    j.isJobMethod = true ↔ j.member (lit "method") = some (.str (lit "job")) := by
  rw [Json.isJobMethod]
  split
  · rename_i t hmethod
    simp [hmethod]
  · rename_i other
    simp only [Bool.false_eq_true, false_iff]
    exact other (lit "job")

theorem notifiedJob_of_not_paramsJob {j : Json} (silent : ∀ jj, ¬ParamsJob j jj) :
    notifiedJob j = some none := by
  rw [notifiedJob]
  split
  · rename_i hmethod
    split
    · rename_i members hparams
      exact absurd ⟨isJobMethod_iff.mp hmethod, members, hparams, rfl⟩ (silent (.obj members))
    · rfl
  · rfl

/-- The object that announces a job rules out the other place for one, and the
answer to a share. -/
theorem jobObject_alone {j jj : Json} (single : Single j) (announced : JobObject j jj) :
    (loginJob j = (readJob jj).map some ∧ notifiedJob j = some none ∨
      loginJob j = some none ∧ notifiedJob j = (readJob jj).map some) ∧
      boolResult j = none := by
  rcases announced with inResult | inParams
  · obtain ⟨result, members, hresult, -, -⟩ := id inResult
    have hmethod : ∀ p, ¬ParamsJob j p := by
      rintro p ⟨hmethod, -⟩
      exact single ⟨by simp [hresult], by simp [hmethod]⟩
    refine ⟨Or.inl ⟨loginJob_of_resultJob inResult, notifiedJob_of_not_paramsJob hmethod⟩, ?_⟩
    simp [boolResult, hresult]
  · have habsent : j.member (lit "result") = none := by
      by_contra present
      exact single ⟨Option.isSome_iff_ne_none.mpr present, by simp [inParams.1]⟩
    have hresult : ∀ r, ¬ResultJob j r := by
      rintro r ⟨result, members, hmember, -⟩
      simp [habsent] at hmember
    refine ⟨Or.inr ⟨loginJob_of_not_resultJob hresult, notifiedJob_of_paramsJob inParams⟩, ?_⟩
    simp [boolResult, habsent]

theorem shareCallbacks_of_noResult {j : Json} (noResult : boolResult j = none) :
    shareCallbacks lib j = [] := by
  rw [shareCallbacks, noResult]
  split
  · rename_i accepted impossible
    cases impossible
  · rfl

/-- A message with a job object does what the object says, or nothing. -/
theorem callbacks_of_jobObject {message : Text} {j jj : Json}
    (parsed : lib.parse message = some j) (single : Single j) (announced : JobObject j jj) :
    callbacks lib message = jobCallbacks (readJob jj) := by
  obtain ⟨places, noResult⟩ := jobObject_alone single announced
  have noShare : shareCallbacks lib j = [] := shareCallbacks_of_noResult noResult
  rcases places with ⟨hlogin, hnotified⟩ | ⟨hlogin, hnotified⟩
  · cases hread : readJob jj <;>
      simp [callbacks, parsed, hlogin, hnotified, hread, noShare, jobCallbacks]
  · cases hread : readJob jj <;>
      simp [callbacks, parsed, hlogin, hnotified, hread, noShare, jobCallbacks]

theorem callbacks_of_noJobObject {message : Text} {j : Json}
    (parsed : lib.parse message = some j) (silent : ∀ jj, ¬JobObject j jj) :
    callbacks lib message = shareCallbacks lib j := by
  have hlogin := loginJob_of_not_resultJob fun jj inResult => silent jj (Or.inl inResult)
  have hnotified := notifiedJob_of_not_paramsJob fun jj inParams => silent jj (Or.inr inParams)
  simp [callbacks, parsed, hlogin, hnotified, jobCallbacks]

theorem callbacks_announced {message : Text} {j jj : Json} {job : MiningJob}
    (parsed : lib.parse message = some j) (single : Single j) (announced : JobObject j jj)
    (describes : Describes jj job) (blob : job.blob ≠ []) :
    callbacks lib message = [.job job] := by
  rw [callbacks_of_jobObject parsed single announced, readJob_eq_some_iff.mpr describes,
    jobCallbacks, if_neg blob]

theorem callbacks_answered {message : Text} {j id : Json} {accepted : Bool}
    (parsed : lib.parse message = some j) (single : Single j)
    (hid : j.member (lit "id") = some id)
    (hresult : j.member (lit "result") = some (.bool accepted)) :
    ∃ response, callbacks lib message = [.share accepted response] := by
  have silent : ∀ jj, ¬JobObject j jj := by
    rintro jj (⟨result, members, hmember, -⟩ | ⟨hmethod, -⟩)
    · simp [hresult] at hmember
    · exact single ⟨by simp [hresult], by simp [hmethod]⟩
  rw [callbacks_of_noJobObject parsed silent]
  simp [shareCallbacks, hid, boolResult, hresult]

theorem not_describes_of_wrongType {jj : Json} (wrong : WrongType jj) (job : MiningJob) :
    ¬Describes jj job := by
  intro describes
  have text : ∀ {key value : Text} {v : Json}, TextField jj key value → jj.member key = some v →
      ∃ t, v = .str t := by
    rintro key value v (⟨absent, -⟩ | present) member
    · simp [absent] at member
    · exact ⟨value, Option.some.inj (member.symm.trans present)⟩
  rcases wrong with ⟨key, hkey, v, member, other⟩ | ⟨v, member, other⟩
  · have field : ∃ value, TextField jj key value := by
      simp only [List.mem_cons, List.not_mem_nil, or_false] at hkey
      rcases hkey with rfl | rfl | rfl | rfl
      · exact ⟨_, describes.jobId⟩
      · exact ⟨_, describes.blob⟩
      · exact ⟨_, describes.target⟩
      · exact ⟨_, describes.seedHash⟩
    obtain ⟨value, hvalue⟩ := field
    obtain ⟨t, same⟩ := text hvalue member
    exact other t same
  · rcases describes.height with ⟨absent, -⟩ | ⟨v', member', value⟩
    · simp [absent] at member
    · rw [Option.some.inj (member.symm.trans member'), value] at other
      cases other

/-- What the callbacks of a message are, read back from the message. -/
theorem callbacks_cases {message : Text} (single : ∀ j, lib.parse message = some j → Single j) :
    (∃ j jj job, lib.parse message = some j ∧ JobObject j jj ∧ Describes jj job ∧ job.blob ≠ [] ∧
      callbacks lib message = [.job job]) ∨
    (∃ j id accepted response, lib.parse message = some j ∧ j.member (lit "id") = some id ∧
      j.member (lit "result") = some (.bool accepted) ∧
      callbacks lib message = [.share accepted response]) ∨
    callbacks lib message = [] := by
  cases parsed : lib.parse message with
  | none => exact Or.inr (Or.inr (by simp [callbacks, parsed]))
  | some j =>
    by_cases announced : ∃ jj, JobObject j jj
    · obtain ⟨jj, announced⟩ := announced
      have hcalls := callbacks_of_jobObject parsed (single j parsed) announced
      cases hread : readJob jj with
      | none => exact Or.inr (Or.inr (by rw [hcalls, hread, jobCallbacks]))
      | some job =>
        by_cases blob : job.blob = []
        · exact Or.inr (Or.inr (by rw [hcalls, hread, jobCallbacks, if_pos blob]))
        · refine Or.inl ⟨j, jj, job, rfl, announced, readJob_eq_some_iff.mp hread, blob, ?_⟩
          rw [hcalls, hread, jobCallbacks, if_neg blob]
    · have hcalls := callbacks_of_noJobObject parsed fun jj h => announced ⟨jj, h⟩
      right
      cases hid : j.member (lit "id") with
      | none =>
        right
        simp [hcalls, shareCallbacks, hid]
      | some id =>
        cases hresult : boolResult j with
        | none => exact Or.inr (hcalls.trans (shareCallbacks_of_noResult hresult))
        | some accepted =>
          left
          have hmember : j.member (lit "result") = some (.bool accepted) := by
            rw [boolResult] at hresult
            split at hresult
            · rename_i b hb
              rw [hb, Option.some.inj hresult]
            · cases hresult
          obtain ⟨response, answered⟩ := callbacks_answered parsed (single j parsed) hid hmember
          exact ⟨j, id, accepted, response, rfl, hid, hmember, answered⟩

theorem replaces_iff_callbacks {message : Text} {s : Session} {job : MiningJob} :
    Replaces lib message s job ↔ callbacks lib message = [.job job] := by
  refine ⟨And.left, fun hcalls => ⟨hcalls, ?_⟩⟩
  rw [handleMessage_eq_callbacks, hcalls]
  rfl

theorem answers_iff_callbacks {message : Text} {s : Session} {accepted : Bool} :
    Answers lib message s accepted ↔
      ∃ response, callbacks lib message = [.share accepted response] := by
  refine ⟨And.left, fun hcalls => ⟨hcalls, ?_⟩⟩
  obtain ⟨response, hresponse⟩ := hcalls
  rw [handleMessage_eq_callbacks, hresponse]
  cases accepted <;> simp [runCallback, onShareResult, Bool.toUInt64]

theorem leavesAll_iff_callbacks {message : Text} {s : Session} :
    LeavesAll lib message s ↔ callbacks lib message = [] := by
  refine ⟨And.left, fun hcalls => ⟨hcalls, ?_⟩⟩
  rw [handleMessage_eq_callbacks, hcalls]
  rfl

/-- A message replaces the job in both places, counts one share or has no effect. -/
theorem handleMessage_specified {message : Text} (s : Session)
    (single : ∀ j, lib.parse message = some j → Single j) : Specified lib message s := by
  constructor
  case replaces_iff =>
    intro job
    rw [replaces_iff_callbacks]
    constructor
    · intro hcalls
      rcases callbacks_cases single with ⟨j, jj, job', parsed, announced, describes, blob, found⟩ |
        ⟨j, id, accepted, response, -, -, -, found⟩ | found
      · rw [hcalls] at found
        cases found
        exact ⟨j, jj, parsed, announced, describes, blob⟩
      · simp [hcalls] at found
      · simp [hcalls] at found
    · rintro ⟨j, jj, parsed, announced, describes, blob⟩
      exact callbacks_announced parsed (single j parsed) announced describes blob
  case answers_iff =>
    intro accepted
    rw [answers_iff_callbacks]
    constructor
    · rintro ⟨response, hcalls⟩
      rcases callbacks_cases single with ⟨j, jj, job', parsed, announced, describes, blob, found⟩ |
        ⟨j, id, accepted', response', parsed, hid, hresult, found⟩ | found
      · simp [hcalls] at found
      · rw [hcalls] at found
        cases found
        exact ⟨j, id, parsed, hid, hresult⟩
      · simp [hcalls] at found
    · rintro ⟨j, id, parsed, hid, hresult⟩
      exact callbacks_answered parsed (single j parsed) hid hresult
  case complete =>
    rcases callbacks_cases single with ⟨j, jj, job, -, -, -, -, found⟩ |
      ⟨j, id, accepted, response, -, -, -, found⟩ | found
    · exact Or.inl ⟨job, replaces_iff_callbacks.mpr found⟩
    · exact Or.inr (Or.inl ⟨accepted, answers_iff_callbacks.mpr ⟨response, found⟩⟩)
    · exact Or.inr (Or.inr (leavesAll_iff_callbacks.mpr found))
  case exclusive =>
    simp only [replaces_iff_callbacks, answers_iff_callbacks, leavesAll_iff_callbacks]
    refine ⟨?_, ?_, ?_⟩
    · rintro ⟨⟨job, announced⟩, accepted, response, answered⟩
      simp [announced] at answered
    · rintro ⟨⟨job, announced⟩, nothing⟩
      simp [announced] at nothing
    · rintro ⟨⟨accepted, response, answered⟩, nothing⟩
      simp [answered] at nothing
  case unparsable =>
    intro unparsable
    exact leavesAll_iff_callbacks.mpr (by simp [callbacks, unparsable])
  case wrongType =>
    intro j jj parsed announced wrong
    rw [leavesAll_iff_callbacks, callbacks_of_jobObject parsed (single j parsed) announced]
    cases hread : readJob jj with
    | none => rfl
    | some job =>
      exact absurd (readJob_eq_some_iff.mp hread) (not_describes_of_wrongType wrong job)

/-- `{"method":"job","params":{"blob":"0707","height":7}}` -/
def notification : Json :=
  .obj [(lit "method", .str (lit "job")),
    (lit "params", .obj [(lit "blob", .str (lit "0707")), (lit "height", .unsigned 7)])]

def notificationText : Text :=
  lit "\x7b\"method\":\"job\",\"params\":\x7b\"blob\":\"0707\",\"height\":7\x7d\x7d"

def notificationLibrary : JsonLibrary where
  parse := fun text => if text = notificationText then some notification else none
  dump := fun _ => []

/-- A session without a job. -/
def idle : Session := ⟨1, MiningJob.empty, MiningJob.empty, false, 0, 0⟩

theorem handleMessage_specified_notification :
    Specified notificationLibrary notificationText idle := by
  refine handleMessage_specified idle ?_
  intro j parsed
  simp only [notificationLibrary, if_true, Option.some.injEq] at parsed
  rw [← parsed]
  have absent : notification.member (lit "result") = none := by decide
  simp [Single, absent]

end MessageCases
