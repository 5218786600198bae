import MoneroRandomXMiner.Histories
import MoneroRandomXMiner.MinerPage
import Mathlib.Data.List.DropRight

/-!
# The form that the page saves

A start that passes its checks saves the values it asks for as texts, one key at
a time, and any of the writes may fail. The next load of the page fills the form
with what it can read. A start from that form asks for the saved values again,
key by key.
-/

namespace SavedForms

open Histories MinerPage

variable {Num : Type}

inductive Key where
  | miner_host
  | miner_port
  | miner_wallet
  | miner_threads
  | miner_worker
  deriving DecidableEq

/-- `localStorage` outlives the page, `configStore` is a variable of its script. -/
structure Browser where
  localStorage : Key → Option String
  configStore : Key → Option String
  form : Form
  page : Page

/-- The values that `index.html` gives. -/
def initialForm : Form := ⟨"", "pool.supportxmr.com", "3333", "2", "android_miner"⟩

/-- The first load, over an empty storage. -/
def opened : Browser := ⟨fun _ => none, fun _ => none, initialForm, Page.loaded⟩

/-- `works` says that `setItem` does not throw. -/
def saveConfig (works : Bool) (key : Key) (val : String) (b : Browser) : Browser :=
  { b with
    localStorage :=
      if works then Function.update b.localStorage key (some val) else b.localStorage
    configStore := Function.update b.configStore key (some val) }

/-- `works` says that `getItem` does not throw. -/
def loadConfig (works : Bool) (b : Browser) (key : Key) : Option String :=
  match if works then b.localStorage key else none with
  | some v => some v
  | none => (b.configStore key).filter (· ≠ "")

/-- `if (v) input.value = v` -/
def fill (loaded : Option String) (shown : String) : String :=
  match loaded with
  | some v => if v = "" then shown else v
  | none => shown

/-- A load of the page: its variables and its form start afresh. -/
def load (reads : Key → Bool) (b : Browser) : Browser :=
  let fresh := { b with configStore := fun _ => none, form := initialForm, page := Page.loaded }
  let loaded := fun key => loadConfig (reads key) fresh key
  { fresh with
    form := {
      poolHost := fill (loaded .miner_host) initialForm.poolHost
      poolPort := fill (loaded .miner_port) initialForm.poolPort
      wallet := fill (loaded .miner_wallet) initialForm.wallet
      threads := fill (loaded .miner_threads) initialForm.threads
      worker := fill (loaded .miner_worker) initialForm.worker } }

/-- The text that a start saves under a key. -/
def written (numbers : JsNumbers Num) (r : Request) : Key → String
  | .miner_host => r.host
  | .miner_port => numbers.text (numbers.ofInt r.port)
  | .miner_wallet => r.wallet
  | .miner_threads => numbers.text (numbers.ofInt r.threads)
  | .miner_worker => r.worker

def saveAll (numbers : JsNumbers Num) (writes : Key → Bool) (r : Request) (b : Browser) : Browser :=
  [Key.miner_host, .miner_port, .miner_wallet, .miner_threads, .miner_worker].foldl
    (fun b key => saveConfig (writes key) key (written numbers r key) b) b

/-- What a click on START comes to ask for. A disabled button ignores the click. -/
def asked (b : Browser) : Option Request :=
  if b.page.startDisabled then none else b.page.asks b.form

/-- `result` is what the bridge returns if it is asked. -/
def start (numbers : JsNumbers Num) (writes : Key → Bool) (result : Bool) (b : Browser) : Browser :=
  match asked b with
  | some r => { saveAll numbers writes r b with page := startMining b.form result b.page }
  | none =>
    if b.page.startDisabled then b else { b with page := startMining b.form false b.page }

inductive Event where
  | load (reads : Key → Bool)
  | edit (form : Form)
  | start (writes : Key → Bool) (result : Bool)
  | stop

def next (numbers : JsNumbers Num) (b : Browser) : Event → Browser
  | .load reads => load reads b
  | .edit form => { b with form := form }
  | .start writes result => start numbers writes result b
  | .stop => if b.page.stopDisabled then b else { b with page := stopMining b.page }

def machine (numbers : JsNumbers Num) : Machine Browser Event where
  Enabled := fun _ _ => True
  next := next numbers

/-- The request of the last start whose write of this key went through. -/
def lastSaved (key : Key) : List (Browser × Event) → Option Request
  | [] => none
  | (b, .start writes _) :: h =>
    match asked b with
    | some r => if writes key then some r else lastSaved key h
    | none => lastSaved key h
  | _ :: h => lastSaved key h

/-- What a load finds of it. -/
def recalled (reads : Key → Bool) (h : List (Browser × Event)) (key : Key) : Option Request :=
  if reads key then lastSaved key h else none

/-- Each value from the last start that saved it, or else the page's own. -/
def repeats (reads : Key → Bool) (h : List (Browser × Event)) : Request where
  host := ((recalled reads h .miner_host).map Request.host).getD "pool.supportxmr.com"
  port := ((recalled reads h .miner_port).map Request.port).getD 3333
  wallet := ((recalled reads h .miner_wallet).map Request.wallet).getD ""
  worker := ((recalled reads h .miner_worker).map Request.worker).getD "android_miner"
  threads := ((recalled reads h .miner_threads).map Request.threads).getD 2

/-- Neither a load nor an edit: the form stays. -/
def KeepsForm : Event → Prop
  | .load _ | .edit _ => False
  | .start _ _ | .stop => True

theorem toList_trim (text : String) :
    (trim text).toList =
      (text.toList.dropWhile isWhiteSpace).rdropWhile isWhiteSpace := by
  rw [trim, String.toList_ofList]
  rfl

theorem dropWhile_of_prefix {α : Type} {p : α → Bool} {front l : List α} (first : front <+: l)
    (kept : l.dropWhile p = l) : front.dropWhile p = front := by
  rw [List.dropWhile_eq_self_iff] at kept ⊢
  intro nonempty
  rw [first.getElem nonempty]
  exact kept (Nat.lt_of_lt_of_le nonempty first.length_le)

theorem trim_trim (text : String) : trim (trim text) = trim text := by
  have front : (trim text).toList.dropWhile isWhiteSpace = (trim text).toList := by
    rw [toList_trim]
    exact dropWhile_of_prefix (List.rdropWhile_prefix _ _) (List.dropWhile_idempotent _ _)
  apply String.toList_inj.mp
  rw [toList_trim, front, toList_trim, List.rdropWhile_idempotent]

theorem trim_poolHost : trim "pool.supportxmr.com" = "pool.supportxmr.com" := by decide +kernel

theorem trim_worker : trim "android_miner" = "android_miner" := by decide +kernel

theorem textOr_default {default : String} (given : default ≠ "")
    (trimmed : trim default = default) : textOr default default = default := by
  rw [textOr, trimmed, if_neg given]

theorem textOr_textOr (text : String) {default : String} (given : default ≠ "")
    (trimmed : trim default = default) :
    textOr text default ≠ "" ∧ textOr (textOr text default) default = textOr text default := by
  by_cases empty : trim text = ""
  · have value : textOr text default = default := if_pos empty
    rw [value]
    exact ⟨given, textOr_default given trimmed⟩
  · have value : textOr text default = trim text := if_neg empty
    rw [value, textOr, trim_trim, if_neg empty]
    exact ⟨empty, rfl⟩

theorem orElse_ne_zero (parsed : Option Int) {default : Int} (given : default ≠ 0) :
    orElse parsed default ≠ 0 := by
  unfold orElse
  split
  · exact given
  · exact given
  · rename_i nonzero
    intro zero
    exact nonzero (by rw [zero])

/-- What a start asks for is read back as it is. -/
structure Settled (r : Request) : Prop where
  host : r.host ≠ "" ∧ textOr r.host "pool.supportxmr.com" = r.host
  port : r.port ≠ 0
  wallet : trim r.wallet = r.wallet ∧ walletError r.wallet = none
  worker : r.worker ≠ "" ∧ textOr r.worker "android_miner" = r.worker
  threads : 1 ≤ r.threads ∧ r.threads ≤ 8

theorem settled_request {form : Form} (good : walletError (trim form.wallet) = none) :
    Settled (request form) where
  host := by
    simp only [request]
    exact textOr_textOr form.poolHost (by decide) trim_poolHost
  port := orElse_ne_zero _ (by decide)
  wallet := ⟨trim_trim _, good⟩
  worker := by
    simp only [request]
    exact textOr_textOr form.worker (by decide) trim_worker
  threads := by
    simp only [request]
    omega

theorem asked_eq_some {b : Browser} {r : Request} (asks : asked b = some r) :
    walletError (trim b.form.wallet) = none ∧ r = request b.form := by
  unfold asked Page.asks at asks
  split at asks
  · cases asks
  · split at asks
    · cases asks
    · split at asks
      · rename_i good
        exact ⟨good, (Option.some.inj asks).symm⟩
      · cases asks

theorem lastSaved_settled {key : Key} {h : List (Browser × Event)} {r : Request}
    (saved : lastSaved key h = some r) : Settled r := by
  induction h with
  | nil => cases saved
  | cons m h ih =>
    obtain ⟨b, e⟩ := m
    cases e with
    | start writes result =>
      simp only [lastSaved] at saved
      cases asks : asked b with
      | none =>
        simp only [asks] at saved
        exact ih saved
      | some r' =>
        simp only [asks] at saved
        split at saved
        · obtain ⟨good, same⟩ := asked_eq_some asks
          rw [← Option.some.inj saved, same]
          exact settled_request good
        · exact ih saved
    | load reads => exact ih saved
    | edit form => exact ih saved
    | stop => exact ih saved

theorem localStorage_saveConfig (works : Bool) (key : Key) (val : String) (b : Browser)
    (other : Key) : (saveConfig works key val b).localStorage other =
      if other = key ∧ works = true then some val else b.localStorage other := by
  cases works with
  | false => simp [saveConfig]
  | true => simp [saveConfig, Function.update_apply]

theorem localStorage_saveAll (numbers : JsNumbers Num) (writes : Key → Bool) (r : Request)
    (b : Browser) (key : Key) :
    (saveAll numbers writes r b).localStorage key =
      if writes key then some (written numbers r key) else b.localStorage key := by
  simp only [saveAll, List.foldl_cons, List.foldl_nil, localStorage_saveConfig]
  cases key <;> simp

/-- The storage holds under each key what the last start to save it wrote. -/
def Stored (numbers : JsNumbers Num) (h : List (Browser × Event)) (b : Browser) : Prop :=
  ∀ key, b.localStorage key = (lastSaved key h).map fun r => written numbers r key

theorem Stored.start {numbers : JsNumbers Num} {h : List (Browser × Event)} {b : Browser}
    (stored : Stored numbers h b) (writes : Key → Bool) (result : Bool) :
    Stored numbers ((b, .start writes result) :: h) (start numbers writes result b) := by
  intro key
  cases asks : asked b with
  | none =>
    have kept : (SavedForms.start numbers writes result b).localStorage key =
        b.localStorage key := by
      simp only [SavedForms.start, asks]
      split <;> rfl
    rw [kept, stored key]
    simp only [lastSaved, asks]
  | some r =>
    have saved : (SavedForms.start numbers writes result b).localStorage key =
        if writes key then some (written numbers r key) else b.localStorage key := by
      simp only [SavedForms.start, asks]
      exact localStorage_saveAll numbers writes r b key
    rw [saved, stored key]
    simp only [lastSaved, asks]
    split
    · rfl
    · rfl

theorem stored_run {numbers : JsNumbers Num} {h : List (Browser × Event)} {b : Browser}
    (run : Run (machine numbers) (· = opened) h b) : Stored numbers h b := by
  apply run.invariant (P := Stored numbers)
  · rintro b rfl key
    rfl
  · intro h b e stored _
    cases e with
    | load reads => exact stored
    | edit form => exact stored
    | start writes result => exact stored.start writes result
    | stop =>
      simp only [machine, next]
      split
      · exact stored
      · exact stored

/-- A load finds in the storage alone what it finds: the variable is empty by then. -/
theorem form_load {numbers : JsNumbers Num} {h : List (Browser × Event)} {b : Browser}
    (stored : Stored numbers h b) (reads : Key → Bool) :
    (load reads b).form =
      let found := fun key => (recalled reads h key).map fun r => written numbers r key
      { poolHost := fill (found .miner_host) initialForm.poolHost
        poolPort := fill (found .miner_port) initialForm.poolPort
        wallet := fill (found .miner_wallet) initialForm.wallet
        threads := fill (found .miner_threads) initialForm.threads
        worker := fill (found .miner_worker) initialForm.worker } := by
  have found : ∀ key, loadConfig (reads key)
      { b with configStore := fun _ => none, form := initialForm, page := Page.loaded } key =
        (recalled reads h key).map fun r => written numbers r key := by
    intro key
    simp only [loadConfig, recalled, stored key]
    cases reads key with
    | false => rfl
    | true => cases lastSaved key h <;> rfl
  simp only [load, found]

/-- What is read out of a filled field: the saved value if there is one. -/
theorem read_fill {α : Type} {saved : Option Request} {text : Request → String}
    (read : String → α) (value : Request → α) {shown : String} {default : α}
    (given : ∀ r ∈ saved, text r ≠ "") (back : ∀ r ∈ saved, read (text r) = value r)
    (unsaved : read shown = default) :
    read (fill (saved.map text) shown) = (saved.map value).getD default := by
  cases saved with
  | none => exact unsaved
  | some r =>
    have filled : fill (some (text r)) shown = text r := if_neg (given r rfl)
    rw [Option.map_some, filled, back r rfl]
    rfl

/-- A number that is saved is read back. -/
theorem read_number (numbers : JsNumbers Num) {n : Int} (small : n.natAbs ≤ 9007199254740992)
    (nonzero : n ≠ 0) (default : Int) :
    numbers.text (numbers.ofInt n) ≠ "" ∧
      orElse (parseInt (numbers.text (numbers.ofInt n))) default = n := by
  have read : parseInt (numbers.text (numbers.ofInt n)) = some n := by
    rw [numbers.text_ofInt n small, parseInt_toString]
  refine ⟨fun empty => ?_, ?_⟩
  · have unread : parseInt "" = none := by decide
    rw [empty, unread] at read
    cases read
  · rw [read, orElse_some nonzero]

theorem recalled_settled {reads : Key → Bool} {h : List (Browser × Event)} {key : Key}
    {r : Request} (saved : recalled reads h key = some r) : Settled r := by
  simp only [recalled] at saved
  split at saved
  · exact lastSaved_settled saved
  · cases saved

theorem Settled.wallet_given {r : Request} (settled : Settled r) : r.wallet ≠ "" := by
  intro empty
  have good := settled.wallet.2
  rw [empty] at good
  exact absurd good (by decide)

/-- The threads that are saved are within the page's bounds, and stay so. -/
theorem Settled.read_threads {r : Request} (settled : Settled r) (numbers : JsNumbers Num) :
    numbers.text (numbers.ofInt r.threads) ≠ "" ∧
      max 1 (min 8 (orElse (parseInt (numbers.text (numbers.ofInt r.threads))) 2)) = r.threads := by
  obtain ⟨least, most⟩ := settled.threads
  obtain ⟨given, read⟩ := read_number numbers (n := r.threads) (by omega) (by omega) 2
  rw [read]
  exact ⟨given, by omega⟩

theorem request_load {numbers : JsNumbers Num} {h : List (Browser × Event)} {b : Browser}
    (stored : Stored numbers h b) (reads : Key → Bool)
    (small : ∀ r ∈ recalled reads h .miner_port, r.port.natAbs ≤ 9007199254740992) :
    request (load reads b).form = repeats reads h := by
  have host : textOr (load reads b).form.poolHost "pool.supportxmr.com" =
      (repeats reads h).host := by
    rw [form_load stored reads]
    exact read_fill (textOr · "pool.supportxmr.com") Request.host
      (fun r saved => (recalled_settled saved).host.1)
      (fun r saved => (recalled_settled saved).host.2) (textOr_default (by decide) trim_poolHost)
  have port : orElse (parseInt (load reads b).form.poolPort) 3333 = (repeats reads h).port := by
    have read : ∀ r ∈ recalled reads h .miner_port, numbers.text (numbers.ofInt r.port) ≠ "" ∧
        orElse (parseInt (numbers.text (numbers.ofInt r.port))) 3333 = r.port := fun r saved =>
      read_number numbers (small r saved) (recalled_settled saved).port 3333
    rw [form_load stored reads]
    exact read_fill (fun text => orElse (parseInt text) 3333) Request.port
      (fun r saved => (read r saved).1) (fun r saved => (read r saved).2) (by decide)
  have wallet : trim (load reads b).form.wallet = (repeats reads h).wallet := by
    rw [form_load stored reads]
    exact read_fill trim Request.wallet (fun r saved => (recalled_settled saved).wallet_given)
      (fun r saved => (recalled_settled saved).wallet.1) (by decide)
  have worker : textOr (load reads b).form.worker "android_miner" =
      (repeats reads h).worker := by
    rw [form_load stored reads]
    exact read_fill (textOr · "android_miner") Request.worker
      (fun r saved => (recalled_settled saved).worker.1)
      (fun r saved => (recalled_settled saved).worker.2) (textOr_default (by decide) trim_worker)
  have threads : max 1 (min 8 (orElse (parseInt (load reads b).form.threads) 2)) =
      (repeats reads h).threads := by
    rw [form_load stored reads]
    exact read_fill (fun text => max 1 (min 8 (orElse (parseInt text) 2))) Request.threads
      (fun r saved => ((recalled_settled saved).read_threads numbers).1)
      (fun r saved => ((recalled_settled saved).read_threads numbers).2) (by decide)
  rw [request, host, port, wallet, worker, threads]

theorem form_next {numbers : JsNumbers Num} {b : Browser} {e : Event} (keeps : KeepsForm e) :
    (next numbers b e).form = b.form := by
  cases e with
  | load reads => exact keeps.elim
  | edit form => exact keeps.elim
  | start writes result =>
    simp only [next, start]
    cases asked b with
    | some r => rfl
    | none =>
      simp only
      split <;> rfl
  | stop =>
    simp only [next]
    split <;> rfl

/-- While nobody edits the form after a load, the page asks for the values that were
saved, each from the last start that saved it, and the start is not refused if the
wallet is among them. -/
theorem reload_repeats {numbers : JsNumbers Num} {newer older : List (Browser × Event)}
    {b₀ b : Browser} {reads : Key → Bool}
    (run : Run (machine numbers) (· = opened) (newer ++ (b₀, .load reads) :: older) b)
    (kept : ∀ m ∈ newer, KeepsForm m.2)
    (small : ∀ r ∈ recalled reads older .miner_port, r.port.natAbs ≤ 9007199254740992) :
    request b.form = repeats reads older ∧
      (b.page.mining = false → (recalled reads older .miner_wallet).isSome →
        b.page.asks b.form = some (repeats reads older)) := by
  have form : b.form = (load reads b₀).form := by
    apply run.after.invariant_of_steps (P := fun _ b => b.form = (load reads b₀).form)
      (Q := fun _ e => KeepsForm e) _ _ kept
    · rintro b rfl
      rfl
    · intro h b e same _ keeps
      exact (form_next keeps).trans same
  have same : request b.form = repeats reads older := by
    rw [form]
    exact request_load (stored_run run.before.1) reads small
  refine ⟨same, fun atRest saved => ?_⟩
  obtain ⟨r, hr⟩ := Option.isSome_iff_exists.mp saved
  have wallet : trim b.form.wallet = r.wallet := by
    have read : trim b.form.wallet = (repeats reads older).wallet := congrArg Request.wallet same
    rw [read, repeats, hr]
    rfl
  have good : walletError (trim b.form.wallet) = none := by
    rw [wallet]
    exact (recalled_settled hr).wallet.2
  rw [Page.asks, atRest, if_neg (by decide), if_pos good, same]

def longWallet : String := String.ofList (List.replicate 95 '4')

/-- A port with a decimal point, and too many threads. -/
def typedForm : Form := ⟨longWallet, "other.pool", "4444.0", "99", "rig"⟩

def typed : Browser := { opened with form := typedForm }

/-- All but the host is saved, and the native start fails. -/
def savesMost (key : Key) : Bool := key ≠ .miner_host

def startFailed : Browser := start exactNumbers savesMost false typed

def reloaded : Browser := load (fun _ => true) startFailed

/-- The page is loaded again, and STOP is clicked. -/
def failedStart : List (Browser × Event) :=
  [(reloaded, .stop)] ++ (startFailed, .load fun _ => true) ::
    [(typed, .start savesMost false), (opened, .edit typedForm)]

theorem failedStart_run : Run (machine exactNumbers) (· = opened) failedStart reloaded := by
  have started : Run (machine exactNumbers) (· = opened) [] opened := .init rfl
  have edited : Run (machine exactNumbers) (· = opened) [(opened, .edit typedForm)] typed :=
    started.step trivial
  have failed : Run (machine exactNumbers) (· = opened)
      [(typed, .start savesMost false), (opened, .edit typedForm)] startFailed :=
    edited.step trivial
  have again : Run (machine exactNumbers) (· = opened)
      [(startFailed, .load fun _ => true), (typed, .start savesMost false),
        (opened, .edit typedForm)] reloaded := failed.step trivial
  exact again.step trivial

def typedRequest : Request := ⟨"other.pool", 4444, longWallet, "rig", 8⟩

theorem asked_typed : asked typed = some typedRequest := by decide +kernel

theorem recalled_typed (key : Key) :
    recalled (fun _ => true) [(typed, .start savesMost false), (opened, .edit typedForm)] key =
      if key = .miner_host then none else some typedRequest := by
  simp only [recalled, lastSaved, asked_typed]
  cases key <;> rfl

theorem reload_repeats_failedStart :
    reloaded.page.asks reloaded.form =
      some ⟨"pool.supportxmr.com", 4444, longWallet, "rig", 8⟩ := by
  have small : ∀ r ∈ recalled (fun _ => true)
      [(typed, .start savesMost false), (opened, .edit typedForm)] .miner_port,
        r.port.natAbs ≤ 9007199254740992 := by
    intro r saved
    rw [recalled_typed] at saved
    obtain rfl := Option.some.inj saved
    decide
  have kept : ∀ m ∈ [(reloaded, Event.stop)], KeepsForm m.2 := by
    intro m hm
    rw [List.mem_singleton.mp hm]
    trivial
  obtain ⟨_, asks⟩ := reload_repeats failedStart_run kept small
  rw [asks rfl (by rw [recalled_typed]; rfl)]
  simp only [repeats, recalled_typed]
  rfl

end SavedForms
