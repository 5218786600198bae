import MoneroRandomXMiner.JsonFields
import MoneroRandomXMiner.SendMessage

/-!
# The fields of outgoing messages

`login` and `submit_share` put strings of the configuration and the job id of
the pool between quotes as they are. A JSON reader finds the fields that were
meant exactly when those strings are plain.
-/

namespace MessageFields

open HexText MiningBlob SendMessage JsonSyntax JsonFields

def loginFields (c : Credentials) : List (Text × Text) :=
  [(lit "login", c.wallet), (lit "pass", c.password), (lit "agent", lit "CPPMiner/1.0"),
    (lit "worker", c.worker)]

def submitFields (c : Credentials) (share : Share) : List (Text × Text) :=
  [(lit "id", c.worker), (lit "job_id", share.jobId), (lit "nonce", share.nonce),
    (lit "result", share.result)]

/-- One newline, at the end, and the members that were meant, in any order. -/
structure Faithful (text : Text) (id : Nat) (method : Text) (fields : List (Text × Text)) :
    Prop where
  newline : ∃ body, text = body ++ [10] ∧ 10 ∉ body
  parsed : ∃ message params, parse text = some (.object message) ∧
    message.Perm [(lit "id", .number (lit (toString id))), (lit "method", .string method),
      (lit "params", .object params)] ∧
    params.Perm (fieldValues fields)

/-- The common shape of the two messages. -/
def requestText (id : Nat) (method : Text) (fields : List (Text × Text)) : Text :=
  123 :: 34 :: lit "id" ++ 34 :: 58 :: (decimal id ++ 44 ::
    (writeField (lit "method", method) ++ 44 ::
      (34 :: lit "params" ++ 34 :: 58 :: 123 :: (writeFields fields ++ 125 :: [125, 10]))))

theorem lit_toString (n : Nat) : lit (toString n) = decimal n := by
  have hdigits : ∀ c ∈ Nat.toDigits 10 n, String.utf8EncodeChar c = [c.toUInt8] := by
    intro c hc
    have hdigit := Nat.isDigit_of_mem_toDigits (by decide) (by decide) hc
    apply String.utf8EncodeChar_eq_singleton
    simp only [Char.isDigit, Bool.and_eq_true, decide_eq_true_eq] at hdigit
    exact Char.utf8Size_eq_one_iff.mpr (UInt32.le_trans hdigit.2 (by decide))
  rw [lit, Nat.toString_eq_ofList_toDigits, String.toUTF8_eq_toByteArray,
    String.toByteArray_ofList, List.utf8Encode, List.toList_data_toByteArray, decimal,
    List.flatMap_congr hdigits]
  exact List.flatMap_pure_eq_map _ _

theorem loginText_eq (c : Credentials) :
    loginText c = requestText 1 (lit "login") (loginFields c) := by
  simp only [loginText, requestText, loginFields, writeFields, writeField, List.append_assoc,
    List.cons_append, List.nil_append]
  rfl

theorem submitText_eq (c : Credentials) (id : UInt32) (share : Share) :
    submitText c id share = requestText id.toNat (lit "submit") (submitFields c share) := by
  simp only [submitText, requestText, submitFields, writeFields, writeField, List.append_assoc,
    List.cons_append, List.nil_append, lit_toString]
  rfl

section Request

variable {id : Nat} {method : Text} {fields : List (Text × Text)}

/-- Up to the braces of `params` a request is read whatever its fields are. -/
theorem value_requestText (plain : Plain method) (nonempty : fields ≠ []) (k : Nat) :
    value (k + 5) (requestText id method fields) =
      (members k (writeFields fields ++ 125 :: [125, 10])).bind fun params =>
        (endOr 125 (fun text => members (k + 1) text) (lit "params", .object params.1)
          params.2).map fun last =>
            (.object ((lit "id", .number (decimal id)) :: (lit "method", .string method) ::
              last.1), last.2) := by
  match fields, nonempty with
  | f :: fields, _ =>
    obtain ⟨text, htext⟩ := writeFields_cons f fields
    have hid : Plain (lit "id") := by decide
    have hmethod : Plain (lit "method") := by decide
    have hparams : Plain (lit "params") := by decide
    have hvalue : value (k + 1) (123 :: (writeFields (f :: fields) ++ 125 :: [125, 10])) =
        (members k (writeFields (f :: fields) ++ 125 :: [125, 10])).map
          fun found => (.object found.1, found.2) := by
      rw [htext]
      exact value_object k _
    rw [requestText, List.cons_append, List.cons_append, value_object, ← List.cons_append,
      members_value hid, value_decimal, Option.bind_some, endOr_comma (by decide),
      members_field hmethod, string_plain plain, Option.bind_some, endOr_comma (by decide),
      members_value hparams, hvalue]
    simp only [Option.map_bind, Option.bind_map]
    refine Option.bind_congr fun params _ => ?_
    simp only [Function.comp_apply, Option.map_map]
    rfl

theorem parse_requestText (plain : Plain method) (nonempty : fields ≠ [])
    (names : ∀ f ∈ fields, Plain f.1) (values : ∀ f ∈ fields, Plain f.2) :
    parse (requestText id method fields) = some (.object [(lit "id", .number (decimal id)),
      (lit "method", .string method), (lit "params", .object (fieldValues fields))]) := by
  have henough : 2 * (requestText id method fields).length <
      2 * (requestText id method fields).length + fields.length + 1 + 5 := by omega
  have hfields := members_writeFields nonempty (fun f hf => ⟨names f hf, values f hf⟩)
    (n := 2 * (requestText id method fields).length + fields.length + 1) (by omega) [125, 10]
  rw [parse_eq henough, value_requestText plain nonempty, hfields, Option.bind_some,
    endOr_close rfl]
  rfl

/-- A request that is read as it was meant has plain fields. -/
theorem plain_of_parsed (plain : Plain method) (nonempty : fields ≠ [])
    (names : ∀ f ∈ fields, Plain f.1) (distinct : (fields.map Prod.fst).Nodup)
    (faithful : Faithful (requestText id method fields) id method fields) :
    ∀ f ∈ fields, Plain f.2 := by
  obtain ⟨message, params, hparse, hmessage, hparams⟩ := faithful.parsed
  have henough : 2 * (requestText id method fields).length <
      2 * (requestText id method fields).length + 5 := by omega
  rw [parse_eq henough, value_requestText plain nonempty] at hparse
  obtain ⟨whole, hwhole, hrest⟩ := Option.bind_eq_some_iff.mp hparse
  obtain ⟨found, hfound, hmap⟩ := Option.bind_eq_some_iff.mp hwhole
  obtain ⟨last, hlast, rfl⟩ := Option.map_eq_some_iff.mp hmap
  have hmem : (lit "params", Value.object found.1) ∈ message := by
    split at hrest
    · cases hrest
      exact List.mem_cons_of_mem _ (List.mem_cons_of_mem _ (endOr_head hlast))
    · cases hrest
  have hobject : found.1 = params := by
    have hid : lit "params" ≠ lit "id" := by decide
    have hmethod : lit "params" ≠ lit "method" := by decide
    simpa [hid, hmethod] using hmessage.mem_iff.mp hmem
  refine plain_of_members ?_ (fun f hf => hf) names rfl hfound ?_
  · intro k v w hv hw
    exact congrArg Prod.snd (List.inj_on_of_nodup_map distinct hv hw rfl)
  · intro m hm
    rw [hobject] at hm
    exact hparams.mem_iff.mp hm

theorem newline_requestText (plain : Plain method) (names : ∀ f ∈ fields, Plain f.1)
    (values : ∀ f ∈ fields, Plain f.2) :
    ∃ body, requestText id method fields = body ++ [10] ∧ 10 ∉ body := by
  have hname : Plain (lit "method") := by decide
  have hmethod : 10 ∉ writeField (lit "method", method) := newline_writeField hname plain
  have hfields := newline_writeFields fun f hf => ⟨names f hf, values f hf⟩
  have hid : 10 ∉ decimal id := fun hm => absurd (isDigit_decimal hm) (by decide)
  have hnames : 10 ∉ lit "id" ∧ 10 ∉ lit "params" := by decide
  refine ⟨123 :: 34 :: lit "id" ++ 34 :: 58 :: (decimal id ++ 44 ::
    (writeField (lit "method", method) ++ 44 ::
      (34 :: lit "params" ++ 34 :: 58 :: 123 :: (writeFields fields ++ [125, 125])))), ?_, ?_⟩
  · simp [requestText]
  · simp [hmethod, hfields, hid, hnames]

theorem faithful_requestText_iff (plain : Plain method) (nonempty : fields ≠ [])
    (names : ∀ f ∈ fields, Plain f.1) (distinct : (fields.map Prod.fst).Nodup) :
    Faithful (requestText id method fields) id method fields ↔ ∀ f ∈ fields, Plain f.2 := by
  constructor
  · exact plain_of_parsed plain nonempty names distinct
  · intro values
    refine ⟨newline_requestText plain names values, _, fieldValues fields,
      parse_requestText plain nonempty names values, ?_, List.Perm.refl _⟩
    rw [lit_toString]

end Request

theorem hexDigit_plain {d : Nat} (hd : d < 16) :
    hexDigit d < 128 ∧ PlainByte (hexDigit d) := by
  interval_cases d <;> decide

theorem plain_of_putHex {s : Text} (h : ∀ c ∈ s, ∃ w n, n < 16 ^ (w + 1) ∧ c ∈ putHex (w + 1) n) :
    Plain s := by
  have hdigit : ∀ c ∈ s, ∃ d < 16, c = hexDigit d := by
    intro c hc
    obtain ⟨w, n, hn, hmem⟩ := h c hc
    rw [putHex_eq_digits hn] at hmem
    obtain ⟨d, hd, rfl⟩ := List.mem_map.mp hmem
    exact ⟨d, FixedWidth.lt_of_mem_digitsBE (by decide) hd, rfl⟩
  refine plain_of_ascii ?_ ?_ <;> intro c hc <;> obtain ⟨d, hd, rfl⟩ := hdigit c hc
  · exact (hexDigit_plain hd).1
  · exact (hexDigit_plain hd).2

theorem plain_nonceText (nonce : UInt32) : Plain (nonceText nonce) :=
  plain_of_putHex fun _ hc => ⟨7, nonce.toNat, nonce.toNat_lt, hc⟩

theorem plain_hashText (hash : Hash) : Plain (hashText hash) :=
  plain_of_putHex fun _ hc => by
    obtain ⟨b, _, hb⟩ := List.mem_flatMap.mp hc
    exact ⟨1, b.toNat, b.toNat_lt, hb⟩

theorem faithful_loginText_iff (c : Credentials) :
    Faithful (loginText c) 1 (lit "login") (loginFields c) ↔
      Plain c.wallet ∧ Plain c.password ∧ Plain c.worker := by
  have hagent : Plain (lit "CPPMiner/1.0") := by decide
  rw [loginText_eq, faithful_requestText_iff (by decide) (by simp [loginFields])]
  · simp [loginFields, hagent]
  · have hnames : Plain (lit "login") ∧ Plain (lit "pass") ∧ Plain (lit "agent") ∧
        Plain (lit "worker") := by decide
    simpa [loginFields] using hnames
  · have hdistinct : [lit "login", lit "pass", lit "agent", lit "worker"].Nodup := by decide
    exact hdistinct

theorem faithful_submitText_iff (c : Credentials) (id : UInt32) (share : Share) :
    Faithful (submitText c id share) id.toNat (lit "submit") (submitFields c share) ↔
      Plain c.worker ∧ Plain share.jobId ∧ Plain share.nonce ∧ Plain share.result := by
  rw [submitText_eq, faithful_requestText_iff (by decide) (by simp [submitFields])]
  · simp [submitFields]
  · have hnames : Plain (lit "id") ∧ Plain (lit "job_id") ∧ Plain (lit "nonce") ∧
        Plain (lit "result") := by decide
    simpa [submitFields] using hnames
  · have hdistinct : [lit "id", lit "job_id", lit "nonce", lit "result"].Nodup := by decide
    exact hdistinct

/-- The messages say what was meant exactly for plain configured strings and
plain job ids. -/
theorem messages_faithful_iff (c : Credentials) (id : UInt32) (job : MiningJob) (nonce : UInt32)
    (hash : Hash) :
    (Faithful (loginText c) 1 (lit "login") (loginFields c) ↔
      Plain c.wallet ∧ Plain c.password ∧ Plain c.worker) ∧
    (Faithful (submitText c id (shareOf job nonce hash)) id.toNat (lit "submit")
        (submitFields c (shareOf job nonce hash)) ↔
      Plain c.worker ∧ Plain job.jobId) := by
  refine ⟨faithful_loginText_iff c, ?_⟩
  rw [faithful_submitText_iff]
  have hnonce : Plain (shareOf job nonce hash).nonce := plain_nonceText nonce
  have hresult : Plain (shareOf job nonce hash).result := plain_hashText hash
  have hjob : (shareOf job nonce hash).jobId = job.jobId := rfl
  simp only [hnonce, hresult, hjob, and_true]

/-- The pool writes this job id as "a\"b". -/
def quotedJob : MiningJob := { MiningJob.empty with jobId := lit "a\"b" }

def zeroShare : Share := shareOf quotedJob 0 (Vector.replicate 32 0)

/-- The quote ends the job id early, and the message is no JSON any more. -/
theorem messages_unfaithful_quotedJob :
    string (lit "a\\\"b\"") = some (quotedJob.jobId, []) ∧
      parse (submitText sampleCredentials 2 zeroShare) = none ∧
      ¬ Faithful (submitText sampleCredentials 2 zeroShare) 2 (lit "submit")
        (submitFields sampleCredentials zeroShare) := by
  have broken : parse (submitText sampleCredentials 2 zeroShare) = none := by decide +kernel
  refine ⟨by decide +kernel, broken, ?_⟩
  rintro ⟨_, message, params, hparse, _⟩
  rw [broken] at hparse
  cases hparse

end MessageFields
