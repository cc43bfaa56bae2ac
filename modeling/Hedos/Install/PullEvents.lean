import Hedos.Install.Pulls
import Hedos.Kernel.Values

/-!
# The history file of a pull

`kernel/src/install/pulls.rs`: the bytes of `events.jsonl`, one JSON line for each event.

* `append` writes a line at the end, behind a newline when the last line was torn off;
* `events` reads the lines that decode, oldest first;
* whatever bytes were there, the events read after an append are those read before it and the
  new one (`append_keeps_events`), `JobFiles.events` being their list. The one event that is
  written and never read back is a move to `unreadable`.
-/

namespace Hedos.Install.PullEvents

open Hedos.Kernel (JsonValue)

/-! ## Events as JSON -/

/-- The state under `rename_all = "lowercase"`. -/
def stateName : PullState → String
  | .queued => "queued"
  | .running => "running"
  | .paused => "paused"
  | .done => "done"
  | .failed => "failed"
  | .cancelled => "cancelled"
  | .interrupted => "interrupted"
  | .unreadable => "unreadable"

def stateNamed (name : String) : Option PullState :=
  match name with
  | "queued" => some .queued
  | "running" => some .running
  | "paused" => some .paused
  | "done" => some .done
  | "failed" => some .failed
  | "cancelled" => some .cancelled
  | "interrupted" => some .interrupted
  -- `#[serde(skip_deserializing)]`: `unreadable` is no name a record can give.
  | _ => none

def kindFields : PullEventKind → List (String × JsonValue)
  | .state state => [("event", .string "state"), ("state", .string (stateName state))]
  | .status text => [("event", .string "status"), ("text", .string text)]
  | .retry attempt reason delayMs =>
    [("event", .string "retry"), ("attempt", .int attempt), ("reason", .string reason),
      ("delay_ms", .int delayMs)]

/-- The kind is flattened into the object of its event. -/
def toValue (event : PullEvent) : JsonValue :=
  .object (("at_ms", .int event.atMs) :: kindFields event.kind)

def readI64 : JsonValue → Option ℤ
  | .int value => if -2 ^ 63 ≤ value ∧ value < 2 ^ 63 then some value else none
  | _ => none

def readU32 : JsonValue → Option ℕ
  | .int value => if 0 ≤ value ∧ value < 2 ^ 32 then some value.toNat else none
  | _ => none

def readRetry (value : JsonValue) : Option PullEventKind := do
  let attempt ← (value.get "attempt").bind readU32
  let reason ← (value.get "reason").bind JsonValue.asStr
  let delayMs ← (value.get "delay_ms").bind readI64
  some (.retry attempt reason delayMs)

/-- The kind by its tag. -/
def readKind (value : JsonValue) : Option PullEventKind := do
  let tag ← (value.get "event").bind JsonValue.asStr
  match tag with
  | "state" => (((value.get "state").bind JsonValue.asStr).bind stateNamed).map .state
  | "status" => ((value.get "text").bind JsonValue.asStr).map .status
  | "retry" => readRetry value
  | _ => none

def fromValue (value : JsonValue) : Option PullEvent := do
  let atMs ← (value.get "at_ms").bind readI64
  let kind ← readKind value
  some { atMs, kind }

/-- The numbers of an event are those of its Rust type. -/
structure Fits (event : PullEvent) : Prop where
  atMs : -2 ^ 63 ≤ event.atMs ∧ event.atMs < 2 ^ 63
  retry : ∀ attempt reason delayMs, event.kind = .retry attempt reason delayMs →
    attempt < 2 ^ 32 ∧ -2 ^ 63 ≤ delayMs ∧ delayMs < 2 ^ 63

/-! ## The file -/

/-- `serde_json` on the bytes of one line. -/
structure Serde where
  toVec : JsonValue → Bytes
  fromSlice : Bytes → Option JsonValue

/-- The value is written without a newline and reads back, and an empty line is no value. -/
structure Serde.Faithful (serde : Serde) (value : JsonValue) : Prop where
  reads : serde.fromSlice (serde.toVec value) = some value
  newline : 10 ∉ serde.toVec value
  empty : serde.fromSlice [] = none

/-- The event of one line. -/
def Serde.decode (serde : Serde) (line : Bytes) : Option PullEvent :=
  (serde.fromSlice line).bind fromValue

/-- The file holds bytes that do not end in a newline; no file is `none`. -/
def endsMidLine (file : Option Bytes) : Bool :=
  (file.filter (! ·.isEmpty)).any fun bytes => bytes.getLast? != some 10

/-- The file after an append that succeeded. -/
def append (serde : Serde) (file : Option Bytes) (kind : PullEventKind) (now : ℤ) :
    Option Bytes :=
  let line := serde.toVec (toValue { atMs := now, kind }) ++ [10]
  let unterminated := endsMidLine file
  let opened := file.getD []
  let opened := if unterminated then opened ++ [10] else opened
  some (opened ++ line)

def events (serde : Serde) (file : Option Bytes) : List PullEvent :=
  match file with
  | none => []
  | some bytes => (bytes.splitOn 10).filterMap serde.decode

/-! ## What decodes -/

theorem stateNamed_stateName (state : PullState) :
    stateNamed (stateName state) = if state = .unreadable then none else some state := by
  cases state <;> rfl

theorem readI64_int {value : ℤ} (h : -2 ^ 63 ≤ value ∧ value < 2 ^ 63) :
    readI64 (.int value) = some value := if_pos h

theorem readU32_int {value : ℕ} (h : value < 2 ^ 32) : readU32 (.int value) = some value := by
  rw [readU32, if_pos ⟨by omega, by omega⟩, Int.toNat_natCast]

variable {value : JsonValue} {event : PullEvent} {serde : Serde}

theorem readKind_retry (htag : value.get "event" = some (.string "retry")) :
    readKind value = readRetry value := by
  simp only [readKind, htag, Option.bind_some, JsonValue.asStr, Option.bind_eq_bind]

theorem readRetry_eq {attempt : ℕ} {reason : String} {delayMs : ℤ}
    (hattemptAt : value.get "attempt" = some (.int attempt))
    (hreasonAt : value.get "reason" = some (.string reason))
    (hdelayAt : value.get "delay_ms" = some (.int delayMs))
    (hattempt : attempt < 2 ^ 32) (hdelay : -2 ^ 63 ≤ delayMs ∧ delayMs < 2 ^ 63) :
    readRetry value = some (.retry attempt reason delayMs) := by
  rw [readRetry, hattemptAt, hreasonAt, hdelayAt, Option.bind_some, Option.bind_some,
    Option.bind_some, readU32_int hattempt, readI64_int hdelay]
  rfl

/-- The kind reads back from the fields of its event, a move to `unreadable` apart. -/
theorem readKind_toValue (h : Fits event) :
    readKind (toValue event) =
      if event.kind = .state .unreadable then none else some event.kind := by
  obtain ⟨atMs, kind⟩ := event
  cases kind with
  | state state =>
    have hread : readKind (toValue { atMs, kind := .state state }) =
        (stateNamed (stateName state)).map PullEventKind.state := rfl
    rw [hread, stateNamed_stateName]
    by_cases hstate : state = .unreadable
    · rw [if_pos hstate, if_pos (congrArg _ hstate), Option.map_none]
    · rw [if_neg hstate, if_neg fun heq => hstate (PullEventKind.state.inj heq), Option.map_some]
  | status text => rfl
  | retry attempt reason delayMs =>
    obtain ⟨hattempt, hdelay⟩ := h.retry attempt reason delayMs rfl
    have htag : (toValue { atMs, kind := .retry attempt reason delayMs }).get "event" =
        some (.string "retry") := rfl
    rw [readKind_retry htag]
    exact readRetry_eq rfl rfl rfl hattempt hdelay

/-- An event reads back from its JSON, a move to `unreadable` apart. -/
theorem fromValue_toValue (h : Fits event) :
    fromValue (toValue event) = if event.kind = .state .unreadable then none else some event := by
  have hat : (toValue event).get "at_ms" = some (.int event.atMs) := rfl
  rw [fromValue, hat, Option.bind_some, readI64_int h.atMs, readKind_toValue h]
  split <;> rfl

/-! ## Lines -/

theorem events_concat {line : Bytes} (hempty : serde.fromSlice [] = none) (hline : 10 ∉ line) :
    events serde (some (line ++ [10])) = (serde.decode line).toList := by
  rw [events, List.splitOn_append_cons_self, List.splitOn_eq_singleton hline, List.splitOn_nil]
  have hdecode : serde.decode [] = none := by rw [Serde.decode, hempty]; rfl
  cases hread : serde.decode line <;> simp [hread, hdecode]

/-- What stands behind a newline is read by itself. -/
theorem events_append (before after : Bytes) :
    events serde (some (before ++ 10 :: after)) =
      events serde (some before) ++ events serde (some after) := by
  rw [events, List.splitOn_append_cons_self, List.filterMap_append]
  rfl

/-- A newline at the end of the file ends no further event. -/
theorem events_terminated (hempty : serde.fromSlice [] = none) (bytes : Bytes) :
    events serde (some (bytes ++ [10])) = events serde (some bytes) := by
  have hnil : events serde (some []) = [] := by
    simp [events, List.splitOn_nil, Serde.decode, hempty]
  rw [events_append, hnil, List.append_nil]

theorem terminated_or_empty {bytes : Bytes} (h : ¬ endsMidLine (some bytes) = true) :
    bytes = [] ∨ ∃ front, bytes = front ++ [10] := by
  rcases bytes.eq_nil_or_concat with rfl | ⟨front, last, rfl⟩
  · exact Or.inl rfl
  · refine Or.inr ⟨front, ?_⟩
    have hlast : last = 10 := by simpa [endsMidLine, List.concat_eq_append] using h
    rw [hlast, List.concat_eq_append]

/-- What is read of a file that was given its newline back is what was read before. -/
theorem events_reopened (hempty : serde.fromSlice [] = none) (file : Option Bytes) {line : Bytes} :
    events serde (some ((if endsMidLine file then file.getD [] ++ [10] else file.getD []) ++
        line)) =
      events serde file ++ events serde (some line) := by
  cases file with
  | none => simp [endsMidLine, events]
  | some bytes =>
    by_cases hends : endsMidLine (some bytes) = true
    · -- A torn last line: it is ended first, and stays what it was.
      rw [if_pos hends, Option.getD_some, List.append_assoc, List.singleton_append, events_append]
    · rw [if_neg hends, Option.getD_some]
      rcases terminated_or_empty hends with rfl | ⟨front, rfl⟩
      · simp [events, List.splitOn_nil, Serde.decode, hempty]
      · -- A whole last line: the new one is written right behind its newline.
        rw [List.append_assoc, List.singleton_append, events_append, events_terminated hempty]

/-- What an append adds to the history that is read. A move to `unreadable` is written, and it is
shown and never decoded. -/
def readBack (event : PullEvent) : List PullEvent :=
  if event.kind = .state .unreadable then [] else [event]

theorem decode_toVec (hfits : Fits event) (hserde : serde.Faithful (toValue event)) :
    (serde.decode (serde.toVec (toValue event))).toList = readBack event := by
  rw [Serde.decode, hserde.reads, Option.bind_some, fromValue_toValue hfits, readBack]
  split <;> rfl

theorem events_append_line (file : Option Bytes) (kind : PullEventKind) (now : ℤ)
    (hserde : serde.Faithful (toValue { atMs := now, kind })) :
    events serde (append serde file kind now) =
      events serde file ++ (serde.decode (serde.toVec (toValue { atMs := now, kind }))).toList := by
  rw [append, events_reopened hserde.empty, events_concat hserde.empty hserde.newline]

/-- Over any number of appends the history only grows, by the events in the order they came. -/
theorem appends_keep_events (serde : Serde) (file : Option Bytes) (added : List PullEvent)
    (hfits : ∀ event ∈ added, Fits event)
    (hserde : ∀ event ∈ added, serde.Faithful (toValue event)) :
    events serde (added.foldl (fun file event => append serde file event.kind event.atMs) file) =
      events serde file ++ added.flatMap readBack := by
  induction added generalizing file with
  | nil => simp
  | cons event added ih =>
    have hhead := hserde event (.head _)
    rw [List.foldl_cons, ih _ (fun e he => hfits e (.tail _ he))
      (fun e he => hserde e (.tail _ he)),
      events_append_line file event.kind event.atMs hhead,
      decode_toVec (hfits event (.head _)) hhead, List.append_assoc, List.flatMap_cons]

/-! ## One append -/

/-- `serde_json` at one value and its text. -/
def Serde.single (value : JsonValue) (text : Bytes) : Serde where
  toVec := fun _ => text
  fromSlice := fun line => if line = text then some value else none

theorem Serde.single_faithful {text : Bytes} (hnewline : 10 ∉ text)
    (hne : text ≠ []) : (Serde.single value text).Faithful value where
  reads := if_pos rfl
  newline := hnewline
  empty := if_neg hne.symm

def ascii (text : String) : Bytes := text.toList.map fun c => c.toNat.toUInt8

/-- A line cut off in the middle, with a byte that is no text. -/
def tornFile : Option Bytes := some (ascii "\x7b\"at_ms\":3,\"ev" ++ [255])

def statusText : Bytes := ascii "\x7b\"at_ms\":5,\"event\":\"status\",\"text\":\"pulling\"\x7d"

/-- The events read after an append are those read before it and the new one. Only a move to
`unreadable` is written and never read back. -/
theorem append_keeps_events (serde : Serde) (file : Option Bytes) (kind : PullEventKind) (now : ℤ)
    (hfits : Fits { atMs := now, kind }) (hserde : serde.Faithful (toValue { atMs := now, kind })) :
    events serde (append serde file kind now) =
      events serde file ++ readBack { atMs := now, kind } := by
  rw [events_append_line file kind now hserde, decode_toVec hfits hserde]

/-- The torn line is ended, skipped, and the new one read. -/
theorem append_keeps_events_torn :
    let serde := Serde.single (toValue ⟨5, .status "pulling"⟩) statusText
    events serde (append serde tornFile (.status "pulling") 5) =
      events serde tornFile ++ [⟨5, .status "pulling"⟩] := by
  have hfits : Fits ⟨5, .status "pulling"⟩ := ⟨by decide, by rintro _ _ _ ⟨⟩⟩
  have hfaithful : (Serde.single (toValue ⟨5, .status "pulling"⟩) statusText).Faithful
      (toValue ⟨5, .status "pulling"⟩) := Serde.single_faithful (by decide) (by decide)
  exact append_keeps_events _ tornFile (.status "pulling") 5 hfits hfaithful

theorem torn_line_keeps_appends :
    let event : PullEvent := ⟨5, .status "pulling"⟩
    let serde := Serde.single (toValue event) statusText
    events serde ([event, event].foldl
        (fun file event => append serde file event.kind event.atMs) tornFile) =
      events serde tornFile ++ [event, event] := by
  refine appends_keep_events _ tornFile [_, _] ?_ ?_
  · simpa using ⟨by decide, by rintro _ _ _ ⟨⟩⟩
  · simpa using Serde.single_faithful (by decide) (by decide)

def unreadableText : Bytes :=
  ascii "\x7b\"at_ms\":5,\"event\":\"state\",\"state\":\"unreadable\"\x7d"

/-- A move to `unreadable` is written on its line, and no event is read back from it. -/
theorem unreadable_not_read_back :
    let serde := Serde.single (toValue ⟨5, .state .unreadable⟩) unreadableText
    serde.Faithful (toValue ⟨5, .state .unreadable⟩) ∧ Fits ⟨5, .state .unreadable⟩ ∧
      append serde none (.state .unreadable) 5 = some (unreadableText ++ [10]) ∧
      events serde (append serde none (.state .unreadable) 5) ≠
        events serde none ++ [⟨5, .state .unreadable⟩] := by
  intro serde
  have hfaithful : serde.Faithful (toValue ⟨5, .state .unreadable⟩) :=
    Serde.single_faithful (by decide) (by decide)
  refine ⟨hfaithful, ⟨by decide, by rintro _ _ _ ⟨⟩⟩, rfl, ?_⟩
  have hevents : events serde (append serde none (.state .unreadable) 5) =
      (serde.decode unreadableText).toList :=
    events_concat hfaithful.empty hfaithful.newline
  rw [hevents, Serde.decode, show serde.fromSlice unreadableText = _ from hfaithful.reads,
    Option.bind_some, fromValue_toValue ⟨by decide, by rintro _ _ _ ⟨⟩⟩]
  simp [events]

end Hedos.Install.PullEvents
