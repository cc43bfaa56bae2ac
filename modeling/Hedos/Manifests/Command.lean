import Hedos.Capabilities.Strings
import Hedos.Lib.Placeholders
import Hedos.Resolution.Identity
import Mathlib.Data.List.Sort

/-!
# The arguments of a manifest's command

`prompt_text`, `expand_placeholders` and `substituted` of `src/runtime/src/manifests/mod.rs`.

A template is split at its spaces and then each piece is expanded, so what a payload says ends up
in the arguments whose pieces hold the prompt's placeholder, and nowhere else.
-/

namespace Hedos.Manifests

open Hedos.Kernel (JsonValue)
open Hedos.Capabilities (len)
open Hedos.Discovery (SourceKind)
open Hedos.Resolution (Record join)

/-! ## Paths -/

/-- The answers of the system calls on a path; `none` is an error. -/
structure PathHost where
  canonicalize : String → Option String
  existsAt : String → Bool

structure SidecarModelPaths where
  sandboxRoot : String
  snapshot : String
deriving DecidableEq

def SidecarModelPaths.resolve (host : PathHost) (record : Record) : SidecarModelPaths :=
  let base := record.details.source.path
  let root := (host.canonicalize base).getD base
  let snapshot : Option String :=
    if record.details.source.kind = SourceKind.huggingfaceCache then
      (record.details.source.reference.map fun reference =>
        join (join root "snapshots") reference).filter host.existsAt
    else none
  ⟨root, snapshot.getD root⟩

/-! ## Prompts -/

/-- A turn as a line, when it has a role and a content. -/
def conversationLine (entry : JsonValue) : Option String :=
  ((entry.get "role").bind JsonValue.asStr).bind fun role =>
    ((entry.get "content").bind JsonValue.asStr).map fun content => role ++ ": " ++ content

def conversationText (payload : JsonValue) : String :=
  String.intercalate "\n"
    ((((payload.get "messages").bind JsonValue.asArray).getD []).filterMap conversationLine)

def promptText (payload : JsonValue) : String :=
  ((payload.get "prompt").bind JsonValue.asStr).getD (conversationText payload)

/-! ## Placeholders -/

/-- A map from keys to values, in the order of the keys, none of which is empty. -/
structure Replacements where
  entries : Placeholders.Entries Char
  nonempty : ∀ entry ∈ entries, entry.1 ≠ []

/-- The entries with the longest keys first. -/
def Replacements.byLength (replacements : Replacements) : List (Text × Text) :=
  replacements.entries.insertionSort fun a b => len b.1 ≤ len a.1

/-- The loop of `expand_placeholders`, with what is left of a key that was matched to pass over. -/
def expandFrom (replacements : Replacements) : ℕ → Text → Text
  | _, [] => []
  | skip + 1, _ :: rest => expandFrom replacements skip rest
  | 0, c :: rest =>
    match replacements.byLength.find? fun entry => entry.1.isPrefixOf (c :: rest) with
    | some (key, value) => value ++ expandFrom replacements (key.length - 1) rest
    | none => c :: expandFrom replacements 0 rest

def expandPlaceholders (token : Text) (replacements : Replacements) : Text :=
  expandFrom replacements 0 token

inductive ManifestError
  | failed (message : String)
deriving DecidableEq

def binKey : Text := "\x7bbin\x7d".toList
def modelKey : Text := "\x7bmodel\x7d".toList
def outputsKey : Text := "\x7boutputs\x7d".toList
def promptKey : Text := "\x7bprompt\x7d".toList
def pythonKey : Text := "\x7bpython\x7d".toList
def workdirKey : Text := "\x7bworkdir\x7d".toList

/-- The placeholders of a command, those of a binary and of an interpreter where they are there. -/
def placeholderKeys (hasBin hasPython : Bool) : List Text :=
  (if hasBin then [binKey] else []) ++ [modelKey, outputsKey, promptKey] ++
    (if hasPython then [pythonKey] else []) ++ [workdirKey]

/-- What the placeholders of a command stand for. -/
def replacementEntries (snapshot prompt workdir outputs : String) (envDir bin : Option String) :
    Placeholders.Entries Char :=
  (bin.toList.map fun bin => (binKey, bin.toList)) ++
    [(modelKey, snapshot.toList), (outputsKey, outputs.toList), (promptKey, prompt.toList)] ++
    (envDir.toList.map fun envDir => (pythonKey, (join envDir "bin/python").toList)) ++
    [(workdirKey, workdir.toList)]

theorem replacementEntries_keys (snapshot prompt workdir outputs : String)
    (envDir bin : Option String) :
    (replacementEntries snapshot prompt workdir outputs envDir bin).map Prod.fst =
      placeholderKeys bin.isSome envDir.isSome := by
  cases bin <;> cases envDir <;> rfl

theorem placeholderKeys_ne_nil (hasBin hasPython : Bool) :
    ∀ key ∈ placeholderKeys hasBin hasPython, key ≠ [] := by
  cases hasBin <;> cases hasPython <;> decide

def replacementsOf (snapshot prompt workdir outputs : String) (envDir bin : Option String) :
    Replacements where
  entries := replacementEntries snapshot prompt workdir outputs envDir bin
  nonempty := by
    intro entry hentry
    apply placeholderKeys_ne_nil bin.isSome envDir.isSome
    rw [← replacementEntries_keys snapshot prompt workdir outputs]
    exact List.mem_map_of_mem hentry

/-- The pieces of a command between its spaces, those of nothing left out. -/
def pieces (command : String) : List Text :=
  (command.toList.splitOn ' ').filter (· ≠ [])

def substituted (host : PathHost) (command : String) (record : Record) (payload : JsonValue)
    (workdir outputs : String) (envDir bin : Option String) :
    Except ManifestError (List String) :=
  if pythonKey <:+: command.toList ∧ envDir = none then
    .error (.failed
      "the command uses \x7bpython\x7d but the manifest declares no [env]")
  else
    let paths := SidecarModelPaths.resolve host record
    let replacements :=
      replacementsOf paths.snapshot (promptText payload) workdir outputs envDir bin
    let tokens := (pieces command).map fun token =>
      String.ofList (expandPlaceholders token replacements)
    if tokens.isEmpty then .error (.failed "the manifest command is empty") else .ok tokens

end Hedos.Manifests
