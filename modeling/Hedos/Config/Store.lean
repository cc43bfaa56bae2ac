import Hedos.Config.Document

/-!
# The settings store

`SettingsStore` (`runtime/src/settings.rs`): a tolerant `load`, and an `update` that loads, mutates
and writes the whole document back. What the `toml` crate does is a parameter (`TomlCrate`), with
the round trip that `update` relies on as a hypothesis.

A file that cannot be read or parsed loads as the defaults, and an update writes them over it.
`update_keeps_iff` says when an update keeps what it does not touch.
-/

namespace Hedos.Config

/-! ## Files -/

/-- The bytes of a file: those of a text, or bytes that are no UTF-8. -/
inductive Content
  | text (text : String)
  | other (bytes : List UInt8)
deriving DecidableEq

structure File where
  content : Content
  readable : Bool
deriving DecidableEq

/-- `fs::read_to_string`; `none` is an error. -/
def readToString : Option File → Option String
  | some ⟨.text text, true⟩ => some text
  | _ => none

/-- What is used of the `toml` crate, and of the decoders it is derived for. -/
structure TomlCrate where
  Table : Type
  Value : Type
  /-- `text.parse::<toml::Table>()`. -/
  parse : String → Option Table
  get : Table → String → Option Value
  /-- `value.try_into()`, for the fields of a table. -/
  tryInto : (key : TableKey) → Value → Option key.Fields
  toStringPretty : Settings → Except String String

/-! ## The store -/

inductive SettingsError
  | io (path : String) (source : String)
  | encode (message : String)
  | lock (path : String) (source : String)
deriving DecidableEq

/-- How the calls of one `update` end: `none`, or their error. -/
structure Calls where
  /-- `create_dir_all`, `open` and `lock_exclusive` of `lock`. -/
  lockDir : Option String := none
  openLock : Option String := none
  lockExclusive : Option String := none
  /-- `create_dir_all`, `write` and `rename` of `save`. -/
  saveDir : Option String := none
  write : Option String := none
  rename : Option String := none

structure SettingsStore where
  path : String
  lockPath : String

/-- `Default::default` of each table. -/
def TableKey.default (key : TableKey) : key.Fields := Settings.get {} key

variable (toml : TomlCrate)

def decodeTable (table : toml.Table) (key : TableKey) : key.Fields :=
  ((toml.get table key.name).bind (toml.tryInto key)).getD key.default

def load (file : Option File) : Settings :=
  match readToString file with
  | none => {}
  | some text =>
    match toml.parse text with
    | none => {}
    | some table =>
      { models := decodeTable toml table .models
        chat := decodeTable toml table .chat
        voice := decodeTable toml table .voice
        gateway := decodeTable toml table .gateway
        pull := decodeTable toml table .pull
        advanced := decodeTable toml table .advanced
        engines := decodeTable toml table .engines }

namespace SettingsStore

variable (store : SettingsStore) (calls : Calls)

def ioError (source : String) : SettingsError := .io store.path source

/-- `lock`. -/
def lock : Except SettingsError Unit :=
  match calls.lockDir, calls.openLock, calls.lockExclusive with
  | some source, _, _ => .error (store.ioError source)
  | none, some source, _ => .error (.lock store.lockPath source)
  | none, none, some source => .error (.lock store.lockPath source)
  | none, none, none => .ok ()

/-- `save`: a temporary file takes the place of the old one. -/
def save (settings : Settings) (file : Option File) : Option File × Except SettingsError Unit :=
  match toml.toStringPretty settings with
  | .error message => (file, .error (.encode message))
  | .ok text =>
    match calls.saveDir, calls.write, calls.rename with
    | some source, _, _ => (file, .error (store.ioError source))
    | none, some source, _ => (file, .error (store.ioError source))
    | none, none, some source => (file, .error (store.ioError source))
    | none, none, none => (some ⟨.text text, true⟩, .ok ())

/-- `update`: load, mutate and save. -/
def update (mutate : Settings → Settings) (file : Option File) :
    Option File × Except SettingsError Settings :=
  match store.lock calls with
  | .error error => (file, .error error)
  | .ok () =>
    let settings := mutate (load toml file)
    match store.save toml calls settings file with
    | (file, .error error) => (file, .error error)
    | (file, .ok ()) => (file, .ok settings)

end SettingsStore

/-! ## What an update keeps -/

/-- What the table in the file decodes to, if it does. -/
def decoded (file : Option File) (key : TableKey) : Option key.Fields :=
  ((readToString file).bind toml.parse).bind fun table =>
    (toml.get table key.name).bind (toml.tryInto key)

/-- The file is text, and TOML. -/
def Parses (file : Option File) : Prop := ((readToString file).bind toml.parse).isSome

/-- What is written for the settings is read as them. -/
def TomlCrate.RoundTrips (settings : Settings) : Prop :=
  ∀ text, toml.toStringPretty settings = .ok text →
    ∀ key, decoded toml (some ⟨.text text, true⟩) key = some (settings.get key)

/-- An update of one table keeps the others, and a file that it cannot read. -/
structure KeepsUntouched (touched : TableKey) (before after : Option File)
    (returned : Except SettingsError Settings) : Prop where
  tables : returned.isOk → ∀ key, key ≠ touched → ∀ fields,
    decoded toml before key = some fields → decoded toml after key = some fields
  unread : before ≠ none → ¬ Parses toml before → ¬ returned.isOk ∧ after = before

/-- A call of the update fails. -/
def Calls.fail (calls : Calls) : Bool :=
  calls.lockDir.isSome || calls.openLock.isSome || calls.lockExclusive.isSome ||
    calls.saveDir.isSome || calls.write.isSome || calls.rename.isSome

section Update

variable {toml} {store : SettingsStore} {calls : Calls} {mutate : Settings → Settings}
variable {file : Option File} {touched : TableKey}

theorem lock_eq_ok (h : calls.fail = false) : store.lock calls = .ok () := by
  simp only [Calls.fail, Bool.or_eq_false_iff, Option.isSome_eq_false_iff,
    Option.isNone_iff_eq_none] at h
  obtain ⟨⟨⟨⟨⟨hdir, hopen⟩, hlock⟩, -⟩, -⟩, -⟩ := h
  simp only [SettingsStore.lock, hdir, hopen, hlock]

theorem save_eq_ok {settings : Settings} {text : String} (h : calls.fail = false)
    (htext : toml.toStringPretty settings = .ok text) :
    store.save toml calls settings file = (some ⟨.text text, true⟩, .ok ()) := by
  simp only [Calls.fail, Bool.or_eq_false_iff, Option.isSome_eq_false_iff,
    Option.isNone_iff_eq_none] at h
  obtain ⟨⟨⟨-, hdir⟩, hwrite⟩, hrename⟩ := h
  simp only [SettingsStore.save, htext, hdir, hwrite, hrename]

/-- Where no call fails, the file is the text of the new settings. -/
theorem update_eq_ok {text : String} (h : calls.fail = false)
    (htext : toml.toStringPretty (mutate (load toml file)) = .ok text) :
    store.update toml calls mutate file =
      (some ⟨.text text, true⟩, .ok (mutate (load toml file))) := by
  simp only [SettingsStore.update, lock_eq_ok h, save_eq_ok h htext]

/-- `save` fails without a trace in the file. -/
theorem save_cases (settings : Settings) :
    (∃ error, store.save toml calls settings file = (file, .error error)) ∨
      (calls.saveDir = none ∧ calls.write = none ∧ calls.rename = none ∧
        ∃ text, toml.toStringPretty settings = .ok text) := by
  unfold SettingsStore.save
  split
  · exact .inl ⟨_, rfl⟩
  · rename_i text htext
    split
    · exact .inl ⟨_, rfl⟩
    · exact .inl ⟨_, rfl⟩
    · exact .inl ⟨_, rfl⟩
    · rename_i hdir hwrite hrename
      exact .inr ⟨hdir, hwrite, hrename, text, htext⟩

/-- And so does an update. -/
theorem update_eq_error
    (h : calls.fail = true ∨ ∃ message, toml.toStringPretty (mutate (load toml file)) =
      .error message) : ∃ error, store.update toml calls mutate file = (file, .error error) := by
  unfold SettingsStore.update
  split
  · exact ⟨_, rfl⟩
  · rename_i hlock
    rcases @save_cases toml store calls file (mutate (load toml file)) with
      ⟨error, hsave⟩ | ⟨hdir, hwrite, hrename, text, htext⟩
    · exact ⟨error, by simp only [hsave]⟩
    · rcases h with hfail | ⟨message, hmessage⟩
      · -- the lock was taken, so none of its calls failed
        unfold SettingsStore.lock at hlock
        split at hlock
        · cases hlock
        · cases hlock
        · cases hlock
        · rename_i hlockDir hopenLock hlockExclusive
          simp [Calls.fail, hlockDir, hopenLock, hlockExclusive, hdir, hwrite, hrename] at hfail
      · rw [htext] at hmessage
        cases hmessage

theorem load_of_not_parses (h : ¬ Parses toml file) : load toml file = {} := by
  unfold load
  split
  · rfl
  · rename_i text htext
    have hnone : toml.parse text = none := by simpa [Parses, htext] using h
    rw [hnone]

theorem get_load (key : TableKey) {fields : key.Fields} (h : decoded toml file key = some fields) :
    (load toml file).get key = fields := by
  obtain ⟨table, htable, hfields⟩ := Option.bind_eq_some_iff.1 h
  obtain ⟨text, htext, hparse⟩ := Option.bind_eq_some_iff.1 htable
  have hdecode : decodeTable toml table key = fields := by
    rw [decodeTable, hfields]
    rfl
  rw [← hdecode]
  unfold load
  rw [htext]
  simp only [hparse]
  cases key <;> rfl

end Update

/-- An update of one table keeps the other tables, and a file that it cannot read, exactly when
there is no file, or it can be read, or the update fails at something else. -/
theorem update_keeps_iff (toml : TomlCrate) (store : SettingsStore) (calls : Calls)
    (touched : TableKey) (mutate : Settings → Settings) (file : Option File)
    (htouches : OnlyTouches touched mutate) (hround : toml.RoundTrips (mutate (load toml file))) :
    KeepsUntouched toml touched file (store.update toml calls mutate file).1
        (store.update toml calls mutate file).2 ↔
      file = none ∨ Parses toml file ∨ calls.fail = true ∨
        ∃ message, toml.toStringPretty (mutate {}) = .error message := by
  by_cases hfails : calls.fail = true ∨
      ∃ message, toml.toStringPretty (mutate (load toml file)) = .error message
  · -- nothing is written
    obtain ⟨error, hupdate⟩ := @update_eq_error toml store calls mutate file hfails
    rw [hupdate]
    constructor
    · intro _
      by_cases hparses : Parses toml file
      · exact .inr (.inl hparses)
      · rw [load_of_not_parses hparses] at hfails
        exact .inr (.inr hfails)
    · intro _
      exact ⟨nofun, fun _ _ => ⟨nofun, rfl⟩⟩
  · obtain ⟨hcalls, hencodes⟩ := not_or.1 hfails
    rw [Bool.not_eq_true] at hcalls
    obtain ⟨text, htext⟩ : ∃ text, toml.toStringPretty (mutate (load toml file)) = .ok text := by
      cases hprint : toml.toStringPretty (mutate (load toml file)) with
      | ok text => exact ⟨text, rfl⟩
      | error message => exact absurd ⟨message, hprint⟩ hencodes
    rw [update_eq_ok hcalls htext]
    constructor
    · intro hkeeps
      by_cases hnone : file = none
      · exact .inl hnone
      · by_cases hparses : Parses toml file
        · exact .inr (.inl hparses)
        · exact absurd rfl (hkeeps.unread hnone hparses).1
    · intro hcondition
      refine ⟨fun _ key hkey fields hfields => ?_, fun hnone hparses => ?_⟩
      · rw [hround text htext key, htouches _ key hkey, get_load key hfields]
      · rw [load_of_not_parses hparses] at hencodes
        rcases hcondition with habsent | hparsed | hfail | hmessage
        · exact absurd habsent hnone
        · exact absurd hparsed hparses
        · rw [hcalls] at hfail
          cases hfail
        · exact absurd hmessage hencodes

/-! ## A file that parses, and one that does not -/

/-- The document with a watched folder and a default model, as it is written. -/
def writtenText (modelId : String) : String :=
  "[models]\nwatched_folders = [\"/models\"]\nhf_cache_roots = []\n" ++
    "approved_network_runtimes = []\napproved_host_runtimes = []\n" ++
    "keep_warm = \"five_minutes\"\neviction = \"strict_single\"\nram_budget_mb = 0\n\n" ++
    "[models.approved_network_runtime_hashes]\n\n[models.approved_host_runtime_hashes]\n\n" ++
    "[chat]\ndefault_model_id = \"" ++ modelId ++ "\"\ndefault_system_prompt = \"\"\n" ++
    "show_stats = true\nsend_with_enter = true\ndefault_bench = []\n\n" ++
    "[voice]\ndefault_voice = \"\"\nspeed = 1.0\nauto_speak = false\n\n" ++
    "[gateway]\nenabled = false\nhost = \"127.0.0.1\"\nport = 43367\n" ++
    "max_connections = 128\nmax_concurrent_inference = 4\n\n" ++
    "[pull]\nmax_concurrent = 2\nauto_resume = true\npartial_age_hours = 24\n" ++
    "retry_window_minutes = 120\nregister_timeout_seconds = 120\nkeep_ended = 20\n\n" ++
    "[advanced]\njob_history_limit = 50\ncheck_for_updates = true\n\n" ++
    "[engines]\nllama_server = \"\"\n"

def keptText : String := writtenText "gemma"

/-- The same without the model. -/
def defaultedText : String := writtenText ""

/-- A folder that is watched, and a default model. -/
def chosen (modelId : String) : Settings :=
  { models := { watchedFolders := ["/models"] }, chat := { defaultModelId := modelId } }

/-- A file with one table of one key. -/
def chatText : String := "[chat]\ndefault_model_id = \"gemma\"\n"

/-- The same file with a bracket missing further down. -/
def brokenText : String := "[chat]\ndefault_model_id = \"gemma\"\n\n[voice\nspeed = 1.5\n"

/-- A table of a document beside its name. -/
abbrev Entries : Type := List (String × Σ key : TableKey, key.Fields)

def entriesOf (settings : Settings) : Entries :=
  [TableKey.models, .chat, .voice, .gateway, .pull, .advanced, .engines].map fun key =>
    (key.name, ⟨key, settings.get key⟩)

def parseSmall (text : String) : Option Entries :=
  if text = chatText then some [("chat", ⟨.chat, { defaultModelId := "gemma" }⟩)]
  else if text = keptText then some (entriesOf (chosen "gemma"))
  else none

def printSmall (settings : Settings) : Except String String :=
  if settings = chosen "gemma" then .ok keptText
  else if settings = chosen "" then .ok defaultedText
  else .error "no such document"

/-- `toml` on these documents. -/
def smallToml : TomlCrate where
  Table := Entries
  Value := Σ key : TableKey, key.Fields
  parse := parseSmall
  get := fun table name => (table.find? fun entry => entry.1 = name).map Prod.snd
  tryInto := fun key value => if h : value.1 = key then some (h ▸ value.2) else none
  toStringPretty := printSmall

def sampleStore : SettingsStore :=
  ⟨"/home/me/.config/hedos.toml", "/home/me/.config/hedos.toml.lock"⟩

variable {text : String}

theorem parse_chat (h : text = chatText) :
    smallToml.parse text = some [("chat", ⟨.chat, { defaultModelId := "gemma" }⟩)] :=
  if_pos h

theorem parse_kept (hchat : text ≠ chatText) (h : text = keptText) :
    smallToml.parse text = some (entriesOf (chosen "gemma")) :=
  (if_neg hchat).trans (if_pos h)

theorem parse_other (hchat : text ≠ chatText) (hkept : text ≠ keptText) :
    smallToml.parse text = none :=
  (if_neg hchat).trans (if_neg hkept)

theorem print_kept {settings : Settings} (h : settings = chosen "gemma") :
    smallToml.toStringPretty settings = .ok keptText :=
  if_pos h

theorem print_defaulted {settings : Settings} (hkept : settings ≠ chosen "gemma")
    (h : settings = chosen "") : smallToml.toStringPretty settings = .ok defaultedText :=
  (if_neg hkept).trans (if_pos h)

theorem load_chat (h : text = chatText) :
    addWatchedFolder "/models" (load smallToml (some ⟨.text text, true⟩)) = chosen "gemma" := by
  have hload : load smallToml (some ⟨.text text, true⟩) =
      { chat := { defaultModelId := "gemma" } } := by
    simp only [load, readToString, parse_chat h]
    rfl
  rw [hload]
  rfl

theorem chosen_roundTrips : smallToml.RoundTrips (chosen "gemma") := by
  intro text htext key
  rw [print_kept rfl] at htext
  have hkept : text = keptText := (Except.ok.inj htext).symm
  have hchat : text ≠ chatText := by
    rw [hkept]
    decide +kernel
  simp only [decoded, readToString, Option.bind_some, parse_kept hchat hkept]
  cases key <;> rfl

/-- A folder is added, and the default model stays. -/
theorem added_folder_keeps_model :
    KeepsUntouched smallToml .models (some ⟨.text chatText, true⟩)
      (sampleStore.update smallToml {} (addWatchedFolder "/models")
        (some ⟨.text chatText, true⟩)).1
      (sampleStore.update smallToml {} (addWatchedFolder "/models")
        (some ⟨.text chatText, true⟩)).2 := by
  refine (update_keeps_iff smallToml sampleStore {} .models _ _
    (addWatchedFolder_touches "/models") ?_).2 (.inr (.inl ?_))
  · rw [load_chat rfl]
    exact chosen_roundTrips
  · simp only [Parses, readToString, Option.bind_some, parse_chat]
    rfl

/-- Through the file with the bracket missing an update writes the defaults over the model. -/
theorem broken_file_overwritten :
    sampleStore.update smallToml {} (addWatchedFolder "/models") (some ⟨.text brokenText, true⟩) =
        (some ⟨.text defaultedText, true⟩, .ok (chosen "")) ∧
      ¬ KeepsUntouched smallToml .models (some ⟨.text brokenText, true⟩)
        (sampleStore.update smallToml {} (addWatchedFolder "/models")
          (some ⟨.text brokenText, true⟩)).1
        (sampleStore.update smallToml {} (addWatchedFolder "/models")
          (some ⟨.text brokenText, true⟩)).2 := by
  have hchat : brokenText ≠ chatText := by decide +kernel
  have hkept : brokenText ≠ keptText := by decide +kernel
  have hnot : ¬ Parses smallToml (some ⟨.text brokenText, true⟩) := by
    simp [Parses, readToString, parse_other hchat hkept]
  have hload : addWatchedFolder "/models" (load smallToml (some ⟨.text brokenText, true⟩)) =
      chosen "" := by
    rw [load_of_not_parses hnot]
    rfl
  have hmodel : chosen "" ≠ chosen "gemma" := by decide +kernel
  have hupdate := @update_eq_ok smallToml sampleStore {} (addWatchedFolder "/models")
    (some ⟨.text brokenText, true⟩) defaultedText rfl (hload ▸ print_defaulted hmodel rfl)
  rw [hupdate, hload]
  exact ⟨rfl, fun hkeeps => (hkeeps.unread (by simp) hnot).1 rfl⟩

end Hedos.Config
