import MoneroRandomXMiner.NumericSettings
import MoneroRandomXMiner.ShareDelivery

/-!
# Whom the shares are credited to

The configuration file, the page and the service each name a wallet, a password
and a worker. The names travel through the native configuration into the login
and into every submission. A pool that receives what `send` has accepted, and
credits what it reads to the last login, credits every share found to the account
that was named, and to no other.
-/

namespace ShareCredits

open Histories HexText MiningBlob HandleMessage SendMessage MessageFields SentLines PoolSession
  ShareDelivery JsonSyntax JsonFields NumericSettings ConfigManager MinerPage
open MinerMachine (zeroHash)
open ReceiveLoop (newline)
open StreamLines (completeLines)

variable {Double : Type}

/-- A UTF-16 code unit in three bytes. -/
def threeBytes (unit : Nat) : Text :=
  [(224 + unit / 4096).toUInt8, (128 + unit / 64 % 64).toUInt8, (128 + unit % 64).toUInt8]

/-- `GetStringUTFChars`: zero takes two bytes, and a character outside the basic plane
is written as its two surrogates. -/
def modifiedUtf8 (text : String) : Text :=
  text.toList.flatMap fun ch =>
    if ch.toNat = 0 then [192, 128]
    else if ch.toNat < 0x10000 then String.utf8EncodeChar ch
    else
      threeBytes (0xD800 + (ch.toNat - 0x10000) / 0x400) ++
        threeBytes (0xDC00 + (ch.toNat - 0x10000) % 0x400)

/-- How the strings of an entry become those of the native configuration. -/
def bytesOf : Entry Double → String → Text
  | .configFile _ => lit
  | .page _ | .serviceConfig _ => modifiedUtf8

/-- What the miner passes on to the client. -/
def credentials (entry : Entry Double) (config : NativeConfig) : Credentials :=
  ⟨bytesOf entry config.wallet, bytesOf entry config.password, bytesOf entry config.worker⟩

/-- The three names of an entry. -/
structure Names where
  wallet : String
  password : String
  worker : String
  deriving DecidableEq

/-- The string of a member, or its default. -/
def stringOf (members : Members Double) (key default : String) : String :=
  match members.lookup key with
  | some (.str text) => text
  | _ => default

def named : Entry Double → Names
  | .configFile none => ⟨"", "x", "worker1"⟩
  | .configFile (some j) => ⟨stringOf j "wallet" "", stringOf j "password" "x",
      stringOf j "worker" "worker1"⟩
  | .page form => ⟨trim form.wallet, "x", textOr form.worker "android_miner"⟩
  | .serviceConfig config => ⟨config.wallet, config.password, config.worker⟩

/-- No character is zero, and none needs a surrogate pair. -/
def Basic (text : String) : Prop := ∀ ch ∈ text.toList, ch.toNat ≠ 0 ∧ ch.toNat < 0x10000

instance (text : String) : Decidable (Basic text) := List.decidableBAll _ text.toList

/-- Text of the basic plane that a JSON string holds as it stands. -/
structure PlainText (text : String) : Prop where
  plain : Plain (lit text)
  basic : Basic text

structure PlainNames (names : Names) : Prop where
  wallet : PlainText names.wallet
  password : PlainText names.password
  worker : PlainText names.worker

structure Account where
  login : Text
  pass : Text
  worker : Text
  deriving DecidableEq

def accountOf (names : Names) : Account := ⟨lit names.wallet, lit names.password, lit names.worker⟩

/-- A client with these names. -/
def clientOf (names : Names) : Credentials :=
  ⟨lit names.wallet, lit names.password, lit names.worker⟩

/-- How the pool reads a login. -/
def readLogin (line : Text) : Option Account := do
  let message ← parse (line ++ [10])
  let method ← (memberOf message (lit "method")).bind textOf
  let params ← memberOf message (lit "params")
  if method = lit "login" then
    let login ← (memberOf params (lit "login")).bind textOf
    let pass ← (memberOf params (lit "pass")).bind textOf
    let worker ← (memberOf params (lit "worker")).bind textOf
    return ⟨login, pass, worker⟩
  else none

/-- The worker that a line names, in the `id` of its parameters. -/
def readWorker (line : Text) : Option Text := do
  let message ← parse (line ++ [10])
  let params ← memberOf message (lit "params")
  (memberOf params (lit "id")).bind textOf

structure Credit where
  account : Account
  worker : Text
  share : Share
  deriving DecidableEq

/-- What a line earns the account that is logged in. -/
def creditOf (account : Option Account) (line : Text) : Option Credit := do
  let account ← account
  let share ← readShare line
  let worker ← readWorker line
  return ⟨account, worker, share⟩

/-- The book of the pool over the lines it has read. -/
def credits (account : Option Account) : List Text → List Credit
  | [] => []
  | line :: rest =>
    match readLogin line with
    | some account => credits (some account) rest
    | none =>
      match creditOf account line with
      | some credit => credit :: credits account rest
      | none => credits account rest

/-- A share, credited to the account and the worker of these names. -/
def creditTo (names : Names) (share : Share) : Credit :=
  ⟨accountOf names, lit names.worker, share⟩

theorem lit_eq_flatMap (text : String) : lit text = text.toList.flatMap String.utf8EncodeChar := by
  conv_lhs => rw [← String.ofList_toList (s := text)]
  rw [lit, String.toUTF8_eq_toByteArray, String.toByteArray_ofList, List.utf8Encode,
    List.toList_data_toByteArray]

/-- In the basic plane the modified encoding is UTF-8. -/
theorem modifiedUtf8_eq {text : String} (plain : PlainText text) :
    modifiedUtf8 text = lit text := by
  rw [lit_eq_flatMap, modifiedUtf8]
  apply List.flatMap_congr
  intro ch hch
  obtain ⟨nonzero, basic⟩ := plain.basic ch hch
  rw [if_neg nonzero, if_pos basic]

theorem bytesOf_eq (entry : Entry Double) {text : String} (plain : PlainText text) :
    bytesOf entry text = lit text := by
  cases entry with
  | configFile file => rfl
  | page form => exact modifiedUtf8_eq plain
  | serviceConfig config => exact modifiedUtf8_eq plain

theorem stringOf_value {members : Members Double} {key default text : String}
    (read : value Json.getString members key default = some text) :
    text = stringOf members key default := by
  rw [stringOf]
  rw [NumericSettings.value] at read
  cases found : members.lookup key with
  | none =>
    rw [found] at read
    exact (Option.some.inj read).symm
  | some v =>
    rw [found] at read
    rw [getString_eq_some.mp read]

/-- Every entry hands its three names on as they are. -/
theorem names_constructed {sys : System Double} {entry : Entry Double} {config : NativeConfig}
    (made : constructed sys entry = some config) :
    (⟨config.wallet, config.password, config.worker⟩ : Names) = named entry := by
  cases entry with
  | configFile file =>
    obtain ⟨load, _⟩ := main_iff.mp made
    cases file with
    | none => cases load
    | some j =>
      rw [load_config, Option.bind_eq_bind, Option.bind_some] at load
      obtain ⟨_, _, load⟩ := Option.bind_eq_some_iff.mp load
      obtain ⟨_, _, load⟩ := Option.bind_eq_some_iff.mp load
      obtain ⟨wallet, hwallet, load⟩ := Option.bind_eq_some_iff.mp load
      obtain ⟨worker, hworker, load⟩ := Option.bind_eq_some_iff.mp load
      obtain ⟨password, hpassword, load⟩ := Option.bind_eq_some_iff.mp load
      obtain ⟨_, _, load⟩ := Option.bind_eq_some_iff.mp load
      obtain ⟨_, _, load⟩ := Option.bind_eq_some_iff.mp load
      obtain ⟨_, _, load⟩ := Option.bind_eq_some_iff.mp load
      obtain ⟨_, _, load⟩ := Option.bind_eq_some_iff.mp load
      obtain ⟨_, _, load⟩ := Option.bind_eq_some_iff.mp load
      obtain ⟨_, _, load⟩ := Option.bind_eq_some_iff.mp load
      obtain rfl := Option.some.inj load
      rw [named, stringOf_value hwallet, stringOf_value hworker, stringOf_value hpassword]
  | page form =>
    obtain ⟨_, rfl⟩ := constructed_page_iff.mp made
    rfl
  | serviceConfig service =>
    obtain ⟨_, rfl⟩ := constructed_service_iff.mp made
    rfl

/-- The credentials of the client are the names that were given. -/
theorem credentials_eq {sys : System Double} {entry : Entry Double} {config : NativeConfig}
    (made : constructed sys entry = some config) (plain : PlainNames (named entry)) :
    credentials entry config = clientOf (named entry) := by
  have names := names_constructed made
  rw [← names] at plain ⊢
  rw [credentials, clientOf, bytesOf_eq entry plain.wallet, bytesOf_eq entry plain.password,
    bytesOf_eq entry plain.worker]

section Lines

variable {c : Credentials}

theorem readLogin_loginText (wallet : Plain c.wallet) (password : Plain c.password)
    (worker : Plain c.worker) :
    readLogin (loginText c).dropLast = some ⟨c.wallet, c.password, c.worker⟩ := by
  rw [readLogin, dropLast_oneLine (oneLine_loginText wallet password worker),
    parse_loginText wallet password worker]
  rfl

variable {share : Share} (id : UInt32)

theorem readLogin_submitText (worker : Plain c.worker) (jobId : Plain share.jobId)
    (nonce : Plain share.nonce) (result : Plain share.result) :
    readLogin (submitText c id share).dropLast = none := by
  rw [readLogin, dropLast_oneLine (oneLine_submitText id worker jobId nonce result),
    parse_submitText id worker jobId nonce result]
  rfl

theorem readWorker_submitText (worker : Plain c.worker) (jobId : Plain share.jobId)
    (nonce : Plain share.nonce) (result : Plain share.result) :
    readWorker (submitText c id share).dropLast = some c.worker := by
  rw [readWorker, dropLast_oneLine (oneLine_submitText id worker jobId nonce result),
    parse_submitText id worker jobId nonce result]
  rfl

end Lines

/-- Submissions alone leave the account logged in and earn it one credit each. -/
theorem credits_submissions {c : Credentials} (account : Account) (worker : Plain c.worker)
    {sent : List (UInt32 × Share)}
    (plain : ∀ p ∈ sent, Plain p.2.jobId ∧ Plain p.2.nonce ∧ Plain p.2.result) :
    credits (some account) (sent.map fun p => (submitText c p.1 p.2).dropLast) =
      sent.map fun p => ⟨account, c.worker, p.2⟩ := by
  induction sent with
  | nil => rfl
  | cons p sent ih =>
    obtain ⟨⟨jobId, nonce, result⟩, rest⟩ := List.forall_mem_cons.mp plain
    have earned : creditOf (some account) (submitText c p.1 p.2).dropLast =
        some ⟨account, c.worker, p.2⟩ := by
      rw [creditOf, readShare_submitText p.1 worker jobId nonce result,
        readWorker_submitText p.1 worker jobId nonce result]
      rfl
    rw [List.map_cons, credits, readLogin_submitText p.1 worker jobId nonce result]
    simp only [earned, ih rest, List.map_cons]

/-- A client with these names earns their account every share that it finds. -/
theorem credits_session {names : Names} (plain : PlainNames names) {n : Nat}
    {calculateHash : Nat → List UInt8 → Hash} {lib : JsonLibrary}
    {h : List (PoolSession.State n × PoolSession.Event n)} {s : PoolSession.State n}
    (run : Run (PoolSession.machine calculateHash lib (clientOf names) n)
      (Start (clientOf names)) h s)
    (succeed : SendsSucceed h) (ids : ∀ share ∈ found calculateHash h, Plain share.jobId) :
    (↑(credits none (completeLines newline s.wire.sent)) : Multiset Credit) +
        (∑ t, inHand s t).map (creditTo names) =
      ↑((found calculateHash h).map (creditTo names)) := by
  have wallet : Plain (clientOf names).wallet := plain.wallet.plain
  have password : Plain (clientOf names).password := plain.password.plain
  have worker : Plain (clientOf names).worker := plain.worker.plain
  obtain ⟨sent, lines, _, balance⟩ :=
    completeLines_session run succeed ⟨wallet, password, worker⟩ ids
  have whole : ∀ p ∈ sent, Plain p.2.jobId ∧ Plain p.2.nonce ∧ Plain p.2.result := by
    intro p mem
    have mem : p.2 ∈ found calculateHash h := by
      rw [← Multiset.mem_coe, ← balance]
      exact Multiset.mem_add.mpr (Or.inl (Multiset.mem_coe.mpr (List.mem_map_of_mem mem)))
    exact ⟨ids _ mem, plain_found mem⟩
  have booked : credits none (completeLines newline s.wire.sent) =
      (sent.map Prod.snd).map (creditTo names) := by
    rw [lines, credits, readLogin_loginText wallet password worker]
    simp only
    rw [credits_submissions _ worker whole, List.map_map]
    rfl
  rw [booked, ← Multiset.map_coe, ← Multiset.map_add, balance, Multiset.map_coe]

/-- While no call of `send` fails, the credits in what `send` has accepted and those of
the shares in hand are the credits of the shares found, all for the account that the
configuration file, the page or the service named. -/
theorem shares_credited {sys : System Double} {entry : Entry Double} {config : NativeConfig}
    (made : constructed sys entry = some config) (plain : PlainNames (named entry))
    {n : Nat} {calculateHash : Nat → List UInt8 → Hash} {lib : JsonLibrary}
    {h : List (PoolSession.State n × PoolSession.Event n)} {s : PoolSession.State n}
    (run : Run (PoolSession.machine calculateHash lib (credentials entry config) n)
      (Start (credentials entry config)) h s)
    (succeed : SendsSucceed h) (ids : ∀ share ∈ found calculateHash h, Plain share.jobId) :
    (↑(credits none (completeLines newline s.wire.sent)) : Multiset Credit) +
        (∑ t, inHand s t).map (creditTo (named entry)) =
      ↑((found calculateHash h).map (creditTo (named entry))) := by
  rw [credentials_eq made plain] at run
  exact credits_session plain run succeed ids

/-- The file that names the strings of the sessions above. -/
def twoThreads : Entry Int :=
  .configFile (some [("wallet", .str "4"), ("threads", .integer 2)])

def twoThreadsConfig : NativeConfig where
  pool_host := "pool.supportxmr.com"
  pool_port := 3333
  wallet := "4"
  worker := "worker1"
  password := "x"
  use_ssl := false
  num_threads := 2
  init_threads := 2
  huge_pages := true
  numa_aware := false
  scratchpad_size := 0

theorem shares_credited_twoThreads :
    (↑(credits none (completeLines newline oneShareRun.2.wire.sent)) : Multiset Credit) +
        (∑ t, inHand oneShareRun.2 t).map (creditTo (named twoThreads)) =
      ↑((found zeroHash oneShareRun.1).map (creditTo (named twoThreads))) := by
  have made : constructed idle twoThreads = some twoThreadsConfig := by decide
  have same : named twoThreads = ⟨"4", "x", "worker1"⟩ := by decide
  have plain : PlainNames (named twoThreads) := by
    rw [same]
    exact ⟨⟨by decide, by decide⟩, ⟨by decide, by decide⟩, ⟨by decide, by decide⟩⟩
  have client : credentials twoThreads twoThreadsConfig = sampleCredentials := by
    rw [credentials_eq made plain]
    rfl
  have run : Run (PoolSession.machine zeroHash goodLibrary
      (credentials twoThreads twoThreadsConfig) 2) (Start (credentials twoThreads twoThreadsConfig))
      oneShareRun.1 oneShareRun.2 := by
    rw [client]
    exact oneShare_run
  refine shares_credited made plain run oneShare_succeeds ?_
  decide +kernel

end ShareCredits
