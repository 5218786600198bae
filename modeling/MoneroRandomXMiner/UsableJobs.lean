import MoneroRandomXMiner.BlobHelper
import MoneroRandomXMiner.MessageCases

/-!
# Jobs that can be mined, and jobs that are published

Whether a job can be mined is decided when a worker builds its blob. Whether it
becomes the current job is decided when its message is handled, which asks only
for a text that is not empty.
-/

namespace UsableJobs

open HexText MiningBlob HandleMessage MessageCases

variable {lib : JsonLibrary}

/-- The builder accepts the blob under every nonce, and its text is whole bytes
in hexadecimal digits. -/
def Usable (blob : Text) : Prop :=
  (∀ nonce, ∃ input, constructMiningBlob blob nonce = .ok input) ∧
    blob.length % 2 = 0 ∧ ∀ c ∈ blob, (digitValue c).isSome

/-- A field of the job in the login reply throws. -/
def LoginThrows (j : Json) : Prop := ∃ jj, ResultJob j jj ∧ ∀ job, ¬Describes jj job

/-- The message carries this job, with a text for a blob, and no exception comes
before it. -/
def Announces (j : Json) (job : MiningJob) : Prop :=
  job.blob ≠ [] ∧
    ((∃ jj, ResultJob j jj ∧ Describes jj job) ∨
      ¬LoginThrows j ∧ ∃ jj, ParamsJob j jj ∧ Describes jj job)

def AnnouncedBy (lib : JsonLibrary) (message : Text) (job : MiningJob) : Prop :=
  ∃ j, lib.parse message = some j ∧ Announces j job

/-- The calls that a sequence of messages leads to. -/
def calls (lib : JsonLibrary) (messages : List Text) : List Callback :=
  messages.flatMap (callbacks lib)

def afterMessages (lib : JsonLibrary) (s : Session) (messages : List Text) : Session :=
  messages.foldl (fun s message => handleMessage lib message s) s

/-- A malformed job never becomes the current one. -/
structure NeverDisplaced (lib : JsonLibrary) (s : Session) (messages : List Text) : Prop where
  usable : ∀ done, done <+: calls lib messages →
    (done.foldl runCallback s).minerJob = MiningJob.empty ∨
      Usable (done.foldl runCallback s).minerJob.blob
  unchanged : ∀ before message, before ++ [message] <+: messages →
    (∀ job, AnnouncedBy lib message job → ¬Usable job.blob) →
    (afterMessages lib s (before ++ [message])).minerJob = (afterMessages lib s before).minerJob

theorem loginJob_eq_some_iff {j : Json} {job : MiningJob} :
    loginJob j = some (some job) ↔ ∃ jj, ResultJob j jj ∧ Describes jj job := by
  constructor
  · intro hlogin
    by_cases announced : ∃ jj, ResultJob j jj
    · obtain ⟨jj, announced⟩ := announced
      rw [loginJob_of_resultJob announced, Option.map_eq_some_iff] at hlogin
      obtain ⟨job', hread, same⟩ := hlogin
      cases same
      exact ⟨jj, announced, readJob_eq_some_iff.mp hread⟩
    · rw [loginJob_of_not_resultJob fun jj h => announced ⟨jj, h⟩] at hlogin
      cases hlogin
  · rintro ⟨jj, announced, describes⟩
    rw [loginJob_of_resultJob announced, readJob_eq_some_iff.mpr describes]
    rfl

theorem notifiedJob_eq_some_iff {j : Json} {job : MiningJob} :
    notifiedJob j = some (some job) ↔ ∃ jj, ParamsJob j jj ∧ Describes jj job := by
  constructor
  · intro hnotified
    by_cases announced : ∃ jj, ParamsJob j jj
    · obtain ⟨jj, announced⟩ := announced
      rw [notifiedJob_of_paramsJob announced, Option.map_eq_some_iff] at hnotified
      obtain ⟨job', hread, same⟩ := hnotified
      cases same
      exact ⟨jj, announced, readJob_eq_some_iff.mp hread⟩
    · rw [notifiedJob_of_not_paramsJob fun jj h => announced ⟨jj, h⟩] at hnotified
      cases hnotified
  · rintro ⟨jj, announced, describes⟩
    rw [notifiedJob_of_paramsJob announced, readJob_eq_some_iff.mpr describes]
    rfl

theorem loginJob_eq_none_iff {j : Json} : loginJob j = none ↔ LoginThrows j := by
  constructor
  · intro throws
    by_cases announced : ∃ jj, ResultJob j jj
    · obtain ⟨jj, announced⟩ := announced
      refine ⟨jj, announced, ?_⟩
      intro job describes
      rw [loginJob_of_resultJob announced, readJob_eq_some_iff.mpr describes] at throws
      cases throws
    · rw [loginJob_of_not_resultJob fun jj h => announced ⟨jj, h⟩] at throws
      cases throws
  · rintro ⟨jj, announced, malformed⟩
    rw [loginJob_of_resultJob announced, Option.map_eq_none_iff]
    cases hread : readJob jj with
    | none => rfl
    | some job => exact absurd (readJob_eq_some_iff.mp hread) (malformed job)

theorem mem_jobCallbacks_iff {found : Option MiningJob} {job : MiningJob} :
    Callback.job job ∈ jobCallbacks found ↔ job.blob ≠ [] ∧ found = some job := by
  cases found with
  | none => simp [jobCallbacks]
  | some job' =>
    rw [jobCallbacks]
    split
    · rename_i empty
      simp only [List.not_mem_nil, false_iff, not_and]
      rintro blob same
      cases same
      exact blob empty
    · rename_i blob
      simp only [List.mem_singleton, Callback.job.injEq, Option.some.injEq]
      constructor
      · rintro rfl
        exact ⟨blob, rfl⟩
      · rintro ⟨-, rfl⟩
        rfl

theorem job_not_mem_shareCallbacks (j : Json) (job : MiningJob) :
    Callback.job job ∉ shareCallbacks lib j := by
  rw [shareCallbacks]
  split <;> simp

/-- The jobs that a message publishes are those it announces. -/
theorem mem_callbacks_iff {message : Text} {job : MiningJob} :
    Callback.job job ∈ callbacks lib message ↔ AnnouncedBy lib message job := by
  rw [callbacks, AnnouncedBy]
  cases parsed : lib.parse message with
  | none => simp
  | some j =>
    simp only [Option.some.injEq, exists_eq_left', Announces, ← loginJob_eq_some_iff,
      ← notifiedJob_eq_some_iff, ← loginJob_eq_none_iff]
    cases hlogin : loginJob j with
    | none => simp
    | some login =>
      cases hnotified : notifiedJob j with
      | none => simp [mem_jobCallbacks_iff]
      | some notified =>
        simp only [List.mem_append, mem_jobCallbacks_iff, job_not_mem_shareCallbacks, or_false,
          Option.some.injEq, reduceCtorEq, not_false_eq_true, true_and]
        tauto

theorem afterMessages_concat (s : Session) (messages : List Text) (message : Text) :
    afterMessages lib s (messages ++ [message]) =
      handleMessage lib message (afterMessages lib s messages) := by
  simp [afterMessages]

/-- After some calls the miner's job is the first one or one that was published. -/
theorem minerJob_after (s : Session) (done : List Callback) :
    (done.foldl runCallback s).minerJob = s.minerJob ∨
      Callback.job (done.foldl runCallback s).minerJob ∈ done := by
  induction done using List.reverseRecOn with
  | nil => exact Or.inl rfl
  | append_singleton done c ih =>
    rw [List.foldl_append]
    cases c with
    | job job => exact Or.inr (List.mem_append_right _ (List.mem_singleton.mpr rfl))
    | share accepted response =>
      have kept : (runCallback (done.foldl runCallback s) (.share accepted response)).minerJob =
          (done.foldl runCallback s).minerJob := by
        cases accepted <;> rfl
      rw [List.foldl_cons, List.foldl_nil, kept]
      exact ih.imp id (List.mem_append_left _)

/-- The miner never works on a malformed job exactly when every job that a message
announces is usable. -/
theorem neverDisplaced_iff (messages : List Text) {s : Session}
    (initial : s.minerJob = MiningJob.empty) :
    NeverDisplaced lib s messages ↔
      ∀ message ∈ messages, ∀ job, AnnouncedBy lib message job → Usable job.blob := by
  constructor
  · intro never message mem job announced
    have published : Callback.job job ∈ calls lib messages :=
      List.mem_flatMap.mpr ⟨message, mem, mem_callbacks_iff.mpr announced⟩
    obtain ⟨before, after, split⟩ := List.append_of_mem published
    have current : ((before ++ [Callback.job job]).foldl runCallback s).minerJob = job := by
      rw [List.foldl_append]
      rfl
    have moment := never.usable (before ++ [.job job]) ⟨after, by rw [split]; simp⟩
    rw [current] at moment
    rcases moment with empty | usable
    · obtain ⟨j, -, blob, -⟩ := announced
      exact absurd (by rw [empty]; rfl) blob
    · exact usable
  · intro all
    constructor
    · intro done moment
      rcases minerJob_after s done with first | published
      · exact Or.inl (first.trans initial)
      · obtain ⟨message, mem, inMessage⟩ := List.mem_flatMap.mp (moment.subset published)
        exact Or.inr (all message mem _ (mem_callbacks_iff.mp inMessage))
    · intro before message moment malformed
      have mem : message ∈ messages := moment.subset (by simp)
      have noJob : ∀ job, Callback.job job ∉ callbacks lib message := by
        intro job inMessage
        have announced := mem_callbacks_iff.mp inMessage
        exact malformed job announced (all message mem job announced)
      rw [afterMessages_concat, handleMessage_eq_callbacks]
      exact (minerJob_after _ (callbacks lib message)).resolve_right (noJob _)

/-- A notification of a job with this blob and no other field. -/
def jobMessage (blob : Text) : Json :=
  .obj [(lit "method", .str (lit "job")), (lit "params", .obj [(lit "blob", .str blob)])]

def jobText (blob : Text) : Text :=
  lit "\x7b\"method\":\"job\",\"params\":\x7b\"blob\":\"" ++ blob ++ lit "\"\x7d\x7d"

def zeros : Text := List.replicate 152 48

theorem usable_zeros : Usable zeros := by
  refine ⟨?_, by rw [zeros, List.length_replicate], ?_⟩
  · intro nonce
    rw [BlobHelper.constructMiningBlob_accepts_iff, zeros, List.length_replicate]
  · intro c mem
    rw [List.eq_of_mem_replicate mem]
    decide

/-- Reads the two texts of the run. -/
def zzLibrary : JsonLibrary where
  parse := fun text =>
    if text = jobText (lit "zz") then some (jobMessage (lit "zz"))
    else if text = jobText zeros then some (jobMessage zeros)
    else none
  dump := fun _ => []

theorem callbacks_jobMessage {message blob : Text}
    (parsed : lib.parse message = some (jobMessage blob)) (hblob : blob ≠ []) :
    callbacks lib message = [.job { MiningJob.empty with blob := blob }] := by
  have noResult : (jobMessage blob).member (lit "result") = none := rfl
  refine callbacks_announced parsed (by simp [Single, noResult])
    (Or.inr ⟨rfl, [(lit "blob", .str blob)], rfl, rfl⟩) ?_ hblob
  constructor
  · exact Or.inl ⟨rfl, rfl⟩
  · exact Or.inr rfl
  · exact Or.inl ⟨rfl, rfl⟩
  · exact Or.inl ⟨rfl, rfl⟩
  · exact Or.inl ⟨rfl, rfl⟩

theorem neverDisplaced_iff_zz :
    NeverDisplaced zzLibrary idle [jobText zeros, jobText (lit "zz")] ↔
      ∀ message ∈ [jobText zeros, jobText (lit "zz")], ∀ job,
        AnnouncedBy zzLibrary message job → Usable job.blob :=
  neverDisplaced_iff _ rfl

/-- A usable job is displaced by one whose blob is "zz". -/
theorem neverDisplaced_fails_zz :
    (afterMessages zzLibrary idle [jobText zeros]).minerJob.blob = zeros ∧ Usable zeros ∧
      ¬NeverDisplaced zzLibrary idle [jobText zeros, jobText (lit "zz")] := by
  have parsedZeros : zzLibrary.parse (jobText zeros) = some (jobMessage zeros) := by
    have differs : jobText zeros ≠ jobText (lit "zz") := by
      intro same
      have hlen := congrArg List.length same
      have hzeros : zeros.length = 152 := List.length_replicate
      have hzz : (lit "zz").length = 2 := rfl
      simp only [jobText, List.length_append] at hlen
      omega
    simp only [zzLibrary, if_neg differs, if_true]
  have parsedZz : zzLibrary.parse (jobText (lit "zz")) = some (jobMessage (lit "zz")) := by
    simp only [zzLibrary, if_true]
  have first := callbacks_jobMessage parsedZeros (by decide)
  have second := callbacks_jobMessage parsedZz (by decide)
  refine ⟨?_, usable_zeros, ?_⟩
  · rw [afterMessages, List.foldl_cons, List.foldl_nil, handleMessage_eq_callbacks, first]
    rfl
  · intro never
    have moment := never.usable _ (List.prefix_refl _)
    rw [calls, List.flatMap_cons, List.flatMap_cons, List.flatMap_nil, first, second] at moment
    rcases moment with empty | usable
    · exact absurd empty (by decide)
    · obtain ⟨input, built⟩ := usable.1 0
      have short := (BlobHelper.constructMiningBlob_accepts_iff _ 0).mp ⟨input, built⟩
      exact absurd short (by decide)

end UsableJobs
