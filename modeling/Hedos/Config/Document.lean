import Hedos.Governor.Policy
import Std.Data.ExtTreeMap

/-!
# The settings document

The tables of `hedos.toml` with their defaults, and what the named updates change
(`runtime/src/settings.rs`). Each of these updates keeps to one table (`OnlyTouches`).
-/

namespace Hedos.Config

open Hedos.Governor (EvictionPolicy)

/-- A double, by its bits. -/
structure F64 where
  bits : UInt64
deriving DecidableEq

def F64.one : F64 := ⟨0x3ff0000000000000⟩

inductive KeepWarmPolicy
  | fiveMinutes
  | fifteenMinutes
  | oneHour
  | never
deriving DecidableEq

/-! ## The tables -/

structure ModelsSettings where
  watchedFolders : List String := []
  hfCacheRoots : List String := []
  approvedNetworkRuntimes : List String := []
  approvedNetworkRuntimeHashes : Std.ExtTreeMap String String := ∅
  approvedHostRuntimes : List String := []
  approvedHostRuntimeHashes : Std.ExtTreeMap String String := ∅
  keepWarm : KeepWarmPolicy := .fiveMinutes
  eviction : EvictionPolicy := .strictSingle
  ramBudgetMb : ℤ := 0
deriving DecidableEq

structure ChatSettings where
  defaultModelId : String := ""
  defaultSystemPrompt : String := ""
  showStats : Bool := true
  sendWithEnter : Bool := true
  defaultBench : List String := []
deriving DecidableEq

structure VoiceSettings where
  defaultVoice : String := ""
  speed : F64 := .one
  autoSpeak : Bool := false
deriving DecidableEq

structure GatewaySettings where
  enabled : Bool := false
  host : String := "127.0.0.1"
  port : UInt16 := 43367
  maxConnections : ℤ := 128
  maxConcurrentInference : ℤ := 4
deriving DecidableEq

structure PullSettings where
  maxConcurrent : ℤ := 2
  autoResume : Bool := true
  partialAgeHours : ℤ := 24
  retryWindowMinutes : ℤ := 120
  registerTimeoutSeconds : ℤ := 120
  keepEnded : ℤ := 20
deriving DecidableEq

structure AdvancedSettings where
  jobHistoryLimit : ℤ := 50
  checkForUpdates : Bool := true
deriving DecidableEq

structure EngineSettings where
  llamaServer : String := ""
deriving DecidableEq

/-- The whole document, one per file; `{}` is `Settings::default`. -/
structure Settings where
  models : ModelsSettings := {}
  chat : ChatSettings := {}
  voice : VoiceSettings := {}
  gateway : GatewaySettings := {}
  pull : PullSettings := {}
  advanced : AdvancedSettings := {}
  engines : EngineSettings := {}
deriving DecidableEq

/-! ## By table -/

inductive TableKey
  | models
  | chat
  | voice
  | gateway
  | pull
  | advanced
  | engines
deriving DecidableEq

namespace TableKey

def name : TableKey → String
  | .models => "models"
  | .chat => "chat"
  | .voice => "voice"
  | .gateway => "gateway"
  | .pull => "pull"
  | .advanced => "advanced"
  | .engines => "engines"

abbrev Fields : TableKey → Type
  | .models => ModelsSettings
  | .chat => ChatSettings
  | .voice => VoiceSettings
  | .gateway => GatewaySettings
  | .pull => PullSettings
  | .advanced => AdvancedSettings
  | .engines => EngineSettings

end TableKey

def Settings.get (settings : Settings) : (key : TableKey) → key.Fields
  | .models => settings.models
  | .chat => settings.chat
  | .voice => settings.voice
  | .gateway => settings.gateway
  | .pull => settings.pull
  | .advanced => settings.advanced
  | .engines => settings.engines

/-- The mutation changes fields of one table alone. -/
def OnlyTouches (touched : TableKey) (mutate : Settings → Settings) : Prop :=
  ∀ settings key, key ≠ touched → (mutate settings).get key = settings.get key

theorem OnlyTouches.models {mutate : Settings → Settings} (change : ModelsSettings → ModelsSettings)
    (h : ∀ settings, mutate settings = { settings with models := change settings.models }) :
    OnlyTouches .models mutate := by
  intro settings key hkey
  rw [h]
  cases key with
  | models => exact absurd rfl hkey
  | _ => rfl

theorem OnlyTouches.chat {mutate : Settings → Settings} (change : ChatSettings → ChatSettings)
    (h : ∀ settings, mutate settings = { settings with chat := change settings.chat }) :
    OnlyTouches .chat mutate := by
  intro settings key hkey
  rw [h]
  cases key with
  | chat => exact absurd rfl hkey
  | _ => rfl

/-! ## The named updates -/

/-- `push_unique`. -/
def pushUnique (list : List String) (value : String) : List String :=
  if value ∈ list then list else list ++ [value]

/-- `add_watched_folder`, the tilde expanded. -/
def addWatchedFolder (folder : String) (settings : Settings) : Settings :=
  { settings with models :=
    { settings.models with watchedFolders := pushUnique settings.models.watchedFolders folder } }

def removeWatchedFolder (folder : String) (settings : Settings) : Settings :=
  { settings with models :=
    { settings.models with watchedFolders := settings.models.watchedFolders.filter (· ≠ folder) } }

def addHfCacheRoot (root : String) (settings : Settings) : Settings :=
  { settings with models :=
    { settings.models with hfCacheRoots := pushUnique settings.models.hfCacheRoots root } }

def removeHfCacheRoot (root : String) (settings : Settings) : Settings :=
  { settings with models :=
    { settings.models with hfCacheRoots := settings.models.hfCacheRoots.filter (· ≠ root) } }

def setDefaultChatModel (modelId : Option String) (settings : Settings) : Settings :=
  { settings with chat := { settings.chat with defaultModelId := modelId.getD "" } }

/-- The hash of `id`, when one is given. -/
def recordHash (hashes : Std.ExtTreeMap String String) (id : String) (contentHash : Option String) :
    Std.ExtTreeMap String String :=
  match contentHash with
  | some hash => hashes.insert id hash
  | none => hashes

/-- What `approve_runtime` makes of the table; an approval for the host alone takes one for the
network back. -/
def ModelsSettings.approve (models : ModelsSettings) (id : String) (contentHash : Option String)
    (network : Bool) : ModelsSettings :=
  let models :=
    { models with
      approvedHostRuntimes := pushUnique models.approvedHostRuntimes id
      approvedHostRuntimeHashes := recordHash models.approvedHostRuntimeHashes id contentHash }
  if network then
    { models with
      approvedNetworkRuntimes := pushUnique models.approvedNetworkRuntimes id
      approvedNetworkRuntimeHashes :=
        recordHash models.approvedNetworkRuntimeHashes id contentHash }
  else
    { models with
      approvedNetworkRuntimes := models.approvedNetworkRuntimes.filter (· ≠ id)
      approvedNetworkRuntimeHashes := models.approvedNetworkRuntimeHashes.erase id }

def approveRuntime (id : String) (contentHash : Option String) (network : Bool)
    (settings : Settings) : Settings :=
  { settings with models := settings.models.approve id contentHash network }

def ModelsSettings.revoke (models : ModelsSettings) (id : String) : ModelsSettings :=
  { models with
    approvedHostRuntimes := models.approvedHostRuntimes.filter (· ≠ id)
    approvedNetworkRuntimes := models.approvedNetworkRuntimes.filter (· ≠ id)
    approvedHostRuntimeHashes := models.approvedHostRuntimeHashes.erase id
    approvedNetworkRuntimeHashes := models.approvedNetworkRuntimeHashes.erase id }

def revokeRuntime (id : String) (settings : Settings) : Settings :=
  { settings with models := settings.models.revoke id }

section Touches

variable (text : String) (given : Option String) (network : Bool)

theorem addWatchedFolder_touches : OnlyTouches .models (addWatchedFolder text) :=
  .models (fun models =>
    { models with watchedFolders := pushUnique models.watchedFolders text }) fun _ => rfl

theorem removeWatchedFolder_touches : OnlyTouches .models (removeWatchedFolder text) :=
  .models (fun models =>
    { models with watchedFolders := models.watchedFolders.filter (· ≠ text) }) fun _ => rfl

theorem addHfCacheRoot_touches : OnlyTouches .models (addHfCacheRoot text) :=
  .models (fun models =>
    { models with hfCacheRoots := pushUnique models.hfCacheRoots text }) fun _ => rfl

theorem removeHfCacheRoot_touches : OnlyTouches .models (removeHfCacheRoot text) :=
  .models (fun models =>
    { models with hfCacheRoots := models.hfCacheRoots.filter (· ≠ text) }) fun _ => rfl

theorem setDefaultChatModel_touches : OnlyTouches .chat (setDefaultChatModel given) :=
  .chat (fun chat => { chat with defaultModelId := given.getD "" }) fun _ => rfl

theorem approveRuntime_touches : OnlyTouches .models (approveRuntime text given network) :=
  .models (fun models => models.approve text given network) fun _ => rfl

theorem revokeRuntime_touches : OnlyTouches .models (revokeRuntime text) :=
  .models (fun models => models.revoke text) fun _ => rfl

end Touches

end Hedos.Config
