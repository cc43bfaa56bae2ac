import Hedos.Capabilities.Strings
import Hedos.Kernel.Time

/-!
# The audit log and its generations

`gateway/src/audit.rs`: a line for each served request, in a file that is moved aside once it is
larger than a bound, with at most two older files beside it.

* `append`, `append_unauthorized` and `flush` write through `persist`, which moves the files first;
* `generations` cuts the entries written so far into the runs that went to one file;
* after every sequence of calls the files hold the last three of these (`Holds`), so `read_all`
  gives the entries of the newest ones back, each as its line reads (`readAll_newest`).
-/

namespace Hedos.Gateway.Audit

open Function

open Hedos.Kernel.Time (iso8601 millisFromIso8601)
open Hedos.Capabilities (len)

/-! ## Entries -/

/-- An audit entry; its timestamp is a count of milliseconds in memory and a text on the wire. -/
structure Entry (τ : Type) where
  ts : τ
  client : Option Text
  clientName : Option Text
  method : Text
  route : Text
  model : Option Text
  capability : Option Text
  outcome : Text
  status : ℕ
  durationMs : ℤ
  detail : Option Text
deriving DecidableEq

abbrev GatewayAuditEntry := Entry ℤ

def Entry.withTs {τ σ : Type} (entry : Entry τ) (ts : σ) : Entry σ where
  ts := ts
  client := entry.client
  clientName := entry.clientName
  method := entry.method
  route := entry.route
  model := entry.model
  capability := entry.capability
  outcome := entry.outcome
  status := entry.status
  durationMs := entry.durationMs
  detail := entry.detail

/-- `serde_json` on the wire form of an entry. -/
structure Serde where
  toVec : Entry Text → Text
  fromStr : Text → Option (Entry Text)

/-- `wire_ts::serialize`. -/
def wire (entry : GatewayAuditEntry) : Entry Text := entry.withTs (iso8601 entry.ts)

/-- A line of the log, with `wire_ts::deserialize`. -/
def Serde.decode (serde : Serde) (line : Text) : Option GatewayAuditEntry := do
  let entry ← serde.fromStr line
  let ts ← millisFromIso8601 entry.ts
  some (entry.withTs ts)

/-- The entry is written on one line, without control characters, and reads back. -/
structure Serde.Faithful (serde : Serde) (entry : GatewayAuditEntry) : Prop where
  reads : serde.fromStr (serde.toVec (wire entry)) = some (wire entry)
  nonempty : serde.toVec (wire entry) ≠ []
  newline : '\n' ∉ serde.toVec (wire entry)
  carriage : '\r' ∉ serde.toVec (wire entry)

/-! ## The files -/

/-- The files of the log's directory by name. -/
abbrev Files := Text → Option Text

/-- `GENERATIONS`, the live file among them. -/
def generationLimit : ℕ := 3

def unauthorizedWindowMs : ℤ := 60000

def path : Text := "audit.jsonl".toList

def rotatedPath (generation : ℕ) : Text :=
  "audit.".toList ++ (Nat.toDigits 10 generation ++ ".jsonl".toList)

def Files.set (files : Files) (name : Text) (text : Option Text) : Files :=
  update files name text

def Files.rename (files : Files) (source target : Text) : Files :=
  match files source with
  | none => files
  | some text => (files.set source none).set target (some text)

/-- `str::lines`. -/
def lines (text : Text) : List Text :=
  let pieces := text.splitOn '\n'
  pieces.dropLast.map withoutCarriage ++ pieces.getLast?.toList.filter (· ≠ [])
where
  withoutCarriage (line : Text) : Text :=
    if line.getLast? = some '\r' then line.dropLast else line

/-! ## The log -/

structure UnauthorizedWindow where
  startMillis : Option ℤ := none
  suppressed : ℕ := 0

structure GatewayAuditLog where
  serde : Serde
  maxBytes : ℕ
  files : Files := fun _ => none
  unauthorized : UnauthorizedWindow := {}
  /-- Every entry handed to `persist`, oldest first. -/
  persisted : List GatewayAuditEntry := []

namespace GatewayAuditLog

/-- Each file becomes one generation older, and the oldest goes. -/
def rotateIfNeeded (maxBytes : ℕ) (files : Files) : Files :=
  match files path with
  | none => files
  | some text =>
    if len text ≤ maxBytes then files
    else
      let files := files.set (rotatedPath (generationLimit - 1)) none
      let files := (List.range' 1 (generationLimit - 2)).reverse.foldl
        (fun files generation =>
          files.rename (rotatedPath generation) (rotatedPath (generation + 1))) files
      files.rename path (rotatedPath 1)

/-- A line is written at the end of the live file, which is there afterwards. -/
def persistLine (maxBytes : ℕ) (files : Files) (line : Text) : Files :=
  let files := rotateIfNeeded maxBytes files
  files.set path (some ((files path).getD [] ++ (line ++ ['\n'])))

def persist (log : GatewayAuditLog) (entry : GatewayAuditEntry) : GatewayAuditLog :=
  { log with
    files := persistLine log.maxBytes log.files (log.serde.toVec (wire entry))
    persisted := log.persisted ++ [entry] }

/-- The line that stands for the requests a closed window left out. -/
def summary (start : ℤ) (suppressed : ℕ) : GatewayAuditEntry where
  ts := start
  client := none
  clientName := none
  method := "-".toList
  route := "-".toList
  model := none
  capability := none
  outcome := "unauthorized".toList
  status := 401
  durationMs := 0
  detail := some (Nat.toDigits 10 suppressed ++ " more unauthenticated requests rejected".toList)

/-- The difference of two times; `i64` subtraction wraps around. -/
def elapsed (since now : ℤ) : ℤ := (now - since).bmod (2 ^ 64)

def flushUnauthorized (log : GatewayAuditLog) : GatewayAuditLog :=
  let closed := { log with unauthorized := {} }
  match log.unauthorized.startMillis with
  | none => closed
  | some start =>
    if log.unauthorized.suppressed = 0 then closed
    else closed.persist (summary start log.unauthorized.suppressed)

/-- What is called on the log, one after another. -/
inductive Call
  | append (entry : GatewayAuditEntry)
  | appendUnauthorized (entry : GatewayAuditEntry)
  | flush

def append (log : GatewayAuditLog) (entry : GatewayAuditEntry) : GatewayAuditLog :=
  log.flushUnauthorized.persist entry

def appendUnauthorized (log : GatewayAuditLog) (entry : GatewayAuditEntry) : GatewayAuditLog :=
  let opened (log : GatewayAuditLog) : GatewayAuditLog :=
    { log.flushUnauthorized with unauthorized := { startMillis := some entry.ts } }
  match log.unauthorized.startMillis with
  | none => (opened log).persist entry
  | some start =>
    if elapsed start entry.ts < unauthorizedWindowMs then
      { log with unauthorized :=
          { log.unauthorized with suppressed := log.unauthorized.suppressed + 1 } }
    else (opened log).persist entry

def call (log : GatewayAuditLog) : Call → GatewayAuditLog
  | .append entry => log.append entry
  | .appendUnauthorized entry => log.appendUnauthorized entry
  | .flush => log.flushUnauthorized

/-- The log of a new directory after some calls. -/
def run (serde : Serde) (maxBytes : ℕ) (calls : List Call) : GatewayAuditLog :=
  calls.foldl call { serde, maxBytes }

def readInto (log : GatewayAuditLog) (name : Text) : List GatewayAuditEntry :=
  match log.files name with
  | none => []
  | some text => ((lines text).filter (· ≠ [])).filterMap log.serde.decode

/-- The oldest generation first, the live file last. -/
def readAll (log : GatewayAuditLog) : List GatewayAuditEntry :=
  (List.range' 1 (generationLimit - 1)).reverse.flatMap (fun generation =>
    log.readInto (rotatedPath generation)) ++ log.readInto path

def tail (log : GatewayAuditLog) (limit : ℕ) : List GatewayAuditEntry :=
  match log.files path with
  | none => []
  | some text =>
    let lines := (lines text).filter (· ≠ [])
    (lines.drop (lines.length - limit)).filterMap log.serde.decode

end GatewayAuditLog

/-! ## Generations -/

/-- The text of a file with these lines. -/
def contents (serde : Serde) (entries : List GatewayAuditEntry) : Text :=
  entries.flatMap fun entry => serde.toVec (wire entry) ++ ['\n']

/-- One more entry, with the newest generation in front. -/
def push (serde : Serde) (maxBytes : ℕ) (newestFirst : List (List GatewayAuditEntry))
    (entry : GatewayAuditEntry) : List (List GatewayAuditEntry) :=
  match newestFirst with
  | [] => [[entry]]
  | newest :: older =>
    if len (contents serde newest) ≤ maxBytes then (newest ++ [entry]) :: older
    else [entry] :: newest :: older

/-- The entries in the runs that go to one file, oldest first. -/
def generations (serde : Serde) (maxBytes : ℕ) (entries : List GatewayAuditEntry) :
    List (List GatewayAuditEntry) :=
  (entries.foldl (push serde maxBytes) []).reverse

/-- The entry as its line is read, which keeps the whole seconds of its timestamp. -/
def stored (entry : GatewayAuditEntry) : Option GatewayAuditEntry :=
  (millisFromIso8601 (iso8601 entry.ts)).map entry.withTs

theorem push_flatten (serde : Serde) (maxBytes : ℕ) (newestFirst : List (List GatewayAuditEntry))
    (entry : GatewayAuditEntry) :
    (push serde maxBytes newestFirst entry).reverse.flatten =
      newestFirst.reverse.flatten ++ [entry] := by
  unfold push
  cases newestFirst with
  | nil => rfl
  | cons newest older =>
    simp only
    split <;> simp

theorem generations_flatten (serde : Serde) (maxBytes : ℕ) (entries : List GatewayAuditEntry) :
    (generations serde maxBytes entries).flatten = entries := by
  induction entries using List.reverseRecOn with
  | nil => rfl
  | append_singleton entries entry ih =>
    rw [generations, List.foldl_append, List.foldl_cons, List.foldl_nil, push_flatten]
    rw [generations] at ih
    rw [ih]

theorem stored_eq {entry : GatewayAuditEntry} (h : entry.ts < 2 ^ 63) :
    stored entry =
      if -62167219200000 ≤ entry.ts then some (entry.withTs (entry.ts / 1000 * 1000))
      else none := by
  rw [stored, Kernel.Time.millisFromIso8601_iso8601 h]
  split <;> rfl

/-! ## Lines -/

theorem withoutCarriage_eq {line : Text} (h : '\r' ∉ line) : lines.withoutCarriage line = line := by
  rw [lines.withoutCarriage, if_neg fun hlast => h (List.mem_of_getLast? hlast)]

theorem lines_cons {line : Text} (hnewline : '\n' ∉ line) (hcarriage : '\r' ∉ line) (rest : Text) :
    lines (line ++ '\n' :: rest) = line :: lines rest := by
  have hne := List.splitOn_ne_nil '\n' rest
  rw [lines, List.splitOn_append_cons_self_of_not_mem hnewline]
  rw [List.dropLast_cons_of_ne_nil hne, List.map_cons, withoutCarriage_eq hcarriage,
    List.getLast?_cons_of_ne_nil hne]
  rfl

variable {serde : Serde} {entries : List GatewayAuditEntry} {maxBytes : ℕ} {files : Files}
  {older newestFirst : List (List GatewayAuditEntry)} {log : GatewayAuditLog}

theorem lines_contents (h : ∀ entry ∈ entries, serde.Faithful entry) :
    lines (contents serde entries) = entries.map fun entry => serde.toVec (wire entry) := by
  induction entries with
  | nil => rfl
  | cons entry entries ih =>
    obtain ⟨hentry, hrest⟩ := List.forall_mem_cons.1 h
    rw [contents, List.flatMap_cons, List.append_assoc, List.singleton_append,
      lines_cons hentry.newline hentry.carriage, List.map_cons, ← ih hrest]
    rfl

theorem decode_line {entry : GatewayAuditEntry} (h : serde.Faithful entry) :
    serde.decode (serde.toVec (wire entry)) = stored entry := by
  rw [Serde.decode, h.reads, stored]
  simp only [Option.bind_eq_bind, Option.bind_some, wire, Entry.withTs]
  cases millisFromIso8601 (iso8601 entry.ts) <;> rfl

/-- No line of the log is empty. -/
theorem filled_lines (h : ∀ entry ∈ entries, serde.Faithful entry) :
    (lines (contents serde entries)).filter (· ≠ []) =
      entries.map fun entry => serde.toVec (wire entry) := by
  rw [lines_contents h, List.filter_eq_self]
  intro line hline
  obtain ⟨entry, hentry, rfl⟩ := List.mem_map.1 hline
  simpa using (h entry hentry).nonempty

theorem decode_lines (h : ∀ entry ∈ entries, serde.Faithful entry) :
    (entries.map fun entry => serde.toVec (wire entry)).filterMap serde.decode =
      entries.filterMap stored := by
  rw [List.filterMap_map]
  exact List.filterMap_congr fun entry hentry => decode_line (h entry hentry)

/-! ## What the files hold -/

/-- The files behind the live one hold the newest of these generations, and there are no others. -/
structure Behind (serde : Serde) (files : Files) (older : List (List GatewayAuditEntry)) :
    Prop where
  rotated : ∀ generation, generation + 1 < generationLimit →
    files (rotatedPath (generation + 1)) = older[generation]?.map (contents serde)
  others : ∀ name, name ≠ path →
    (∀ generation, generation + 1 < generationLimit → name ≠ rotatedPath (generation + 1)) →
    files name = none

structure Holds (serde : Serde) (files : Files) (newestFirst : List (List GatewayAuditEntry)) :
    Prop where
  live : files path = newestFirst.head?.map (contents serde)
  behind : Behind serde files newestFirst.tail

theorem Files.rename_apply (files : Files) (source : Text) {target : Text}
    (htarget : files target = none) (name : Text) :
    files.rename source target name =
      if name = target then files source else if name = source then none else files name := by
  unfold Files.rename
  cases hsource : files source with
  | none =>
    simp only
    split
    · rename_i heq
      rw [heq, htarget]
    · split
      · rename_i heq
        rw [heq, hsource]
      · rfl
  | some text =>
    simp only [Files.set, update_apply]

theorem rotatedPath_ne :
    rotatedPath 1 ≠ rotatedPath 2 ∧ path ≠ rotatedPath 1 ∧ path ≠ rotatedPath 2 := by decide

open GatewayAuditLog

theorem rotate_apply {text : Text} (hlive : files path = some text)
    (hlarge : maxBytes < len text) (name : Text) :
    rotateIfNeeded maxBytes files name =
      if name = rotatedPath 2 then files (rotatedPath 1)
      else if name = rotatedPath 1 then files path
      else if name = path then none
      else files name := by
  obtain ⟨hne, hlive_ne, hlive_ne'⟩ := rotatedPath_ne
  have hrotate : rotateIfNeeded maxBytes files =
      ((files.set (rotatedPath 2) none).rename (rotatedPath 1) (rotatedPath 2)).rename path
        (rotatedPath 1) := by
    simp only [rotateIfNeeded, hlive, if_neg hlarge.not_ge]
    rfl
  have hset : ∀ name, files.set (rotatedPath 2) none name =
      if name = rotatedPath 2 then none else files name := update_apply files _ _
  have hmiddle := Files.rename_apply (files.set (rotatedPath 2) none) (rotatedPath 1)
    (by rw [hset, if_pos rfl])
  rw [hrotate, Files.rename_apply _ path (by rw [hmiddle, if_neg hne, if_pos rfl])]
  simp only [hmiddle, hset, if_neg hne, if_neg hlive_ne, if_neg hlive_ne']
  split_ifs <;> simp_all

theorem rotatedPath_ne_path {generation : ℕ} (h : generation + 1 < generationLimit) :
    rotatedPath (generation + 1) ≠ path := by
  have hcases : generation = 0 ∨ generation = 1 := by
    rw [generationLimit] at h
    omega
  rcases hcases with rfl | rfl
  · exact rotatedPath_ne.2.1.symm
  · exact rotatedPath_ne.2.2.symm

/-- Writing the live file leaves the others as they are. -/
theorem Behind.set_live (h : Behind serde files older) (text : Option Text) :
    Behind serde (files.set path text) older := by
  have hset : ∀ name, name ≠ path → files.set path text name = files name := fun name hname =>
    update_of_ne hname ..
  refine ⟨fun generation hlimit => ?_, fun name hname hothers => ?_⟩
  · rw [hset _ (rotatedPath_ne_path hlimit)]
    exact h.rotated generation hlimit
  · rw [hset name hname]
    exact h.others name hname hothers

theorem Holds.write {newest : List GatewayAuditEntry} (h : Behind serde files older) :
    Holds serde (files.set path (some (contents serde newest))) (newest :: older) :=
  ⟨update_self .., h.set_live _⟩

/-- The live file has become the first of the others, and the oldest of them is gone. -/
theorem Holds.rotate {newest : List GatewayAuditEntry} (h : Holds serde files (newest :: older))
    (hlarge : maxBytes < len (contents serde newest)) :
    Behind serde (rotateIfNeeded maxBytes files) (newest :: older) ∧
      rotateIfNeeded maxBytes files path = none := by
  obtain ⟨hne, hlive_ne, hlive_ne'⟩ := rotatedPath_ne
  have hrotate := rotate_apply h.live hlarge
  refine ⟨⟨fun generation hlimit => ?_, fun name hname hothers => ?_⟩, ?_⟩
  · have hcases : generation = 0 ∨ generation = 1 := by
      rw [generationLimit] at hlimit
      omega
    rcases hcases with rfl | rfl
    · rw [hrotate, if_neg hne, if_pos rfl]
      exact h.live
    · rw [hrotate, if_pos rfl]
      exact h.behind.rotated 0 (by decide)
  · rw [hrotate, if_neg (hothers 1 (by decide)), if_neg (hothers 0 (by decide)), if_neg hname]
    exact h.behind.others name hname hothers
  · rw [hrotate, if_neg hlive_ne', if_neg hlive_ne, if_pos rfl]

theorem contents_concat (serde : Serde) (entries : List GatewayAuditEntry)
    (entry : GatewayAuditEntry) :
    contents serde (entries ++ [entry]) =
      contents serde entries ++ (serde.toVec (wire entry) ++ ['\n']) := by
  simp [contents]

theorem Holds.persistLine (h : Holds serde files newestFirst) (entry : GatewayAuditEntry) :
    Holds serde (persistLine maxBytes files (serde.toVec (wire entry)))
      (push serde maxBytes newestFirst entry) := by
  unfold GatewayAuditLog.persistLine push
  cases newestFirst with
  | nil =>
    have hsame : rotateIfNeeded maxBytes files = files := by
      rw [rotateIfNeeded, h.live]
      rfl
    have hline := contents_concat serde [] entry
    simp only [hsame, h.live]
    exact hline ▸ Holds.write h.behind
  | cons newest older =>
    simp only
    by_cases hfits : len (contents serde newest) ≤ maxBytes
    · have hsame : rotateIfNeeded maxBytes files = files := by
        simp only [rotateIfNeeded, h.live, List.head?_cons, Option.map_some, if_pos hfits]
      rw [if_pos hfits, hsame, h.live]
      exact contents_concat serde newest entry ▸ Holds.write h.behind
    · obtain ⟨hbehind, hgone⟩ := h.rotate (Nat.lt_of_not_le hfits)
      rw [if_neg hfits, hgone]
      exact contents_concat serde [] entry ▸ Holds.write hbehind

/-! ## Every sequence of calls -/

/-- The log is as the entries handed to `persist` make it. -/
structure Kept (serde : Serde) (maxBytes : ℕ) (log : GatewayAuditLog) : Prop where
  serde_eq : log.serde = serde
  maxBytes_eq : log.maxBytes = maxBytes
  holds : Holds serde log.files (generations serde maxBytes log.persisted).reverse

theorem Kept.persist (h : Kept serde maxBytes log) (entry : GatewayAuditEntry) :
    Kept serde maxBytes (log.persist entry) := by
  refine ⟨h.serde_eq, h.maxBytes_eq, ?_⟩
  have hholds := h.holds
  rw [generations, List.reverse_reverse] at hholds ⊢
  simp only [GatewayAuditLog.persist, h.serde_eq, h.maxBytes_eq]
  rw [List.foldl_append]
  exact hholds.persistLine entry

theorem Kept.congr {log' : GatewayAuditLog}
    (h : Kept serde maxBytes log) (hserde : log'.serde = log.serde)
    (hmax : log'.maxBytes = log.maxBytes) (hfiles : log'.files = log.files)
    (hpersisted : log'.persisted = log.persisted) : Kept serde maxBytes log' :=
  ⟨hserde.trans h.serde_eq, hmax.trans h.maxBytes_eq, by rw [hfiles, hpersisted]; exact h.holds⟩

theorem Kept.flushUnauthorized
    (h : Kept serde maxBytes log) : Kept serde maxBytes log.flushUnauthorized := by
  have hclosed : Kept serde maxBytes { log with unauthorized := {} } := h.congr rfl rfl rfl rfl
  unfold GatewayAuditLog.flushUnauthorized
  cases log.unauthorized.startMillis with
  | none => exact hclosed
  | some start =>
    simp only
    split
    · exact hclosed
    · exact hclosed.persist _

theorem Kept.call
    (h : Kept serde maxBytes log) (call : Call) : Kept serde maxBytes (log.call call) := by
  cases call with
  | append entry => exact h.flushUnauthorized.persist entry
  | flush => exact h.flushUnauthorized
  | appendUnauthorized entry =>
    have hopened : Kept serde maxBytes
        { log.flushUnauthorized with unauthorized := { startMillis := some entry.ts } } :=
      h.flushUnauthorized.congr rfl rfl rfl rfl
    simp only [GatewayAuditLog.call, appendUnauthorized]
    split
    · exact hopened.persist entry
    · split
      · exact h.congr rfl rfl rfl rfl
      · exact hopened.persist entry

theorem Kept.run (serde : Serde) (maxBytes : ℕ) (calls : List Call) :
    Kept serde maxBytes (run serde maxBytes calls) := by
  induction calls using List.reverseRecOn with
  | nil =>
    refine ⟨rfl, rfl, rfl, fun generation hlimit => rfl, fun name hname hothers => rfl⟩
  | append_singleton calls call ih =>
    rw [GatewayAuditLog.run, List.foldl_append]
    exact ih.call call

/-- A file with these lines reads as their entries. -/
theorem readInto_contents (generation : ℕ) {name : Text}
    (hfile : log.files name = newestFirst[generation]?.map (contents log.serde))
    (h : ∀ entries ∈ newestFirst, ∀ entry ∈ entries, log.serde.Faithful entry) :
    log.readInto name = (newestFirst[generation]?.getD []).filterMap stored := by
  unfold GatewayAuditLog.readInto
  cases hentries : newestFirst[generation]? with
  | none => rw [hfile, hentries]; rfl
  | some entries =>
    have hfaithful := h entries (List.mem_of_getElem? hentries)
    rw [hfile, hentries]
    simp only [Option.map_some, Option.getD_some]
    rw [filled_lines hfaithful, decode_lines hfaithful]

theorem push_ne_nil (h : [] ∉ newestFirst) (entry : GatewayAuditEntry) :
    [] ∉ push serde maxBytes newestFirst entry := by
  unfold push
  cases newestFirst with
  | nil => simp
  | cons newest older =>
    simp only
    split
    · rw [List.mem_cons, not_or] at h ⊢
      exact ⟨(List.append_ne_nil_of_right_ne_nil _ (List.cons_ne_nil _ _)).symm, h.2⟩
    · rw [List.mem_cons, not_or]
      exact ⟨(List.cons_ne_nil _ _).symm, h⟩

/-- Something is written to every generation. -/
theorem generations_ne_nil (serde : Serde) (maxBytes : ℕ) (entries : List GatewayAuditEntry) :
    [] ∉ generations serde maxBytes entries := by
  rw [generations, List.mem_reverse]
  induction entries using List.reverseRecOn with
  | nil => exact List.not_mem_nil
  | append_singleton entries entry ih =>
    rw [List.foldl_append]
    exact push_ne_nil ih entry

/-- The three files in the order `read_all` reads them. -/
theorem flatten_drop_reverse (newestFirst : List (List GatewayAuditEntry)) :
    (newestFirst.reverse.drop (newestFirst.length - 3)).flatten =
      newestFirst[2]?.getD [] ++ (newestFirst[1]?.getD [] ++ newestFirst[0]?.getD []) := by
  rw [← List.reverse_take]
  match newestFirst with
  | [] | [_] | [_, _] => simp
  | _ :: _ :: _ :: rest => simp

section

variable {serde : Serde} {maxBytes : ℕ} {log : GatewayAuditLog}

theorem Kept.readAll_eq (h : Kept serde maxBytes log)
    (hserde : ∀ entry ∈ log.persisted, serde.Faithful entry) :
    log.readAll = ((generations serde maxBytes log.persisted).drop
      ((generations serde maxBytes log.persisted).length - 3)).flatten.filterMap stored := by
  obtain ⟨newestFirst, hnewest⟩ : ∃ newestFirst, newestFirst =
      (generations serde maxBytes log.persisted).reverse := ⟨_, rfl⟩
  have hgenerations : generations serde maxBytes log.persisted = newestFirst.reverse := by
    rw [hnewest, List.reverse_reverse]
  have hfaithful : ∀ entries ∈ newestFirst, ∀ entry ∈ entries, log.serde.Faithful entry := by
    intro entries hentries entry hentry
    rw [h.serde_eq]
    refine hserde entry ?_
    rw [← generations_flatten serde maxBytes log.persisted, hgenerations]
    exact List.mem_flatten.2 ⟨entries, List.mem_reverse.2 hentries, hentry⟩
  have hholds := h.holds
  rw [← hnewest, ← h.serde_eq] at hholds
  have hlive := readInto_contents 0 (by rw [hholds.live, List.head?_eq_getElem?]) hfaithful
  have hfirst := readInto_contents 1
    (by rw [hholds.behind.rotated 0 (by decide), List.getElem?_tail]) hfaithful
  have hsecond := readInto_contents 2
    (by rw [hholds.behind.rotated 1 (by decide), List.getElem?_tail]) hfaithful
  have hread : log.readAll =
      log.readInto (rotatedPath 2) ++ (log.readInto (rotatedPath 1) ++ log.readInto path) := by
    simp [GatewayAuditLog.readAll, generationLimit, List.range']
  rw [hread, hlive, hfirst, hsecond, hgenerations, List.length_reverse, flatten_drop_reverse,
    List.filterMap_append, List.filterMap_append]

/-- The newest entry is in the newest generation. -/
theorem getLast_kept (serde : Serde) (maxBytes : ℕ) (entries : List GatewayAuditEntry) :
    ((generations serde maxBytes entries).drop
      ((generations serde maxBytes entries).length - 3)).flatten.getLast? = entries.getLast? := by
  have hne := generations_ne_nil serde maxBytes entries
  have hflatten := generations_flatten serde maxBytes entries
  generalize generations serde maxBytes entries = gens at *
  have hsplit : (gens.take (gens.length - 3)).flatten ++ (gens.drop (gens.length - 3)).flatten =
      entries := by
    rw [← List.flatten_append, List.take_append_drop, hflatten]
  by_cases hnil : gens = []
  · subst hnil
    rw [← hflatten]
    rfl
  · have hkept : (gens.drop (gens.length - 3)).flatten ≠ [] := by
      intro hempty
      have hlength := List.length_pos_iff.2 hnil
      have hdrop : gens.drop (gens.length - 3) ≠ [] := by
        rw [Ne, List.drop_eq_nil_iff]
        omega
      obtain ⟨entries, hentries⟩ := List.exists_mem_of_ne_nil _ hdrop
      rw [List.flatten_eq_nil_iff.1 hempty entries hentries] at hentries
      exact hne (List.mem_of_mem_drop hentries)
    rw [← hsplit, List.getLast?_append_of_ne_nil _ hkept]

end

/-- After every sequence of calls the log's files are the last three generations of the entries
written so far: `read_all` gives the entries of these back, oldest first, each with its timestamp
cut down to the whole second, or not at all when it is stamped before the year 0; the generations
that are gone are older than all of them, and the newest entry is never gone. -/
theorem readAll_newest (serde : Serde) (maxBytes : ℕ) (calls : List Call)
    (hserde : ∀ entry ∈ (run serde maxBytes calls).persisted, serde.Faithful entry) :
    ∃ dropped kept : List (List GatewayAuditEntry),
      generations serde maxBytes (run serde maxBytes calls).persisted = dropped ++ kept ∧
      (run serde maxBytes calls).persisted = dropped.flatten ++ kept.flatten ∧
      (run serde maxBytes calls).readAll = kept.flatten.filterMap stored ∧
      kept.flatten.getLast? = (run serde maxBytes calls).persisted.getLast? ∧
      kept.length ≤ 3 ∧ (dropped = [] ∨ kept.length = 3) ∧
      (∀ name, (run serde maxBytes calls).files name ≠ none →
        name ∈ [path, rotatedPath 1, rotatedPath 2]) ∧
      ∀ entry : GatewayAuditEntry, entry.ts < 2 ^ 63 →
        stored entry =
          if -62167219200000 ≤ entry.ts then some (entry.withTs (entry.ts / 1000 * 1000))
          else none := by
  have hkept := Kept.run serde maxBytes calls
  have hflatten := generations_flatten serde maxBytes (run serde maxBytes calls).persisted
  refine ⟨_, _, (List.take_append_drop (_ - 3) _).symm, ?_, hkept.readAll_eq hserde,
    getLast_kept serde maxBytes _, ?_, ?_, fun name hname => ?_, fun entry hts => stored_eq hts⟩
  · rw [← List.flatten_append, List.take_append_drop, hflatten]
  · rw [List.length_drop]
    omega
  · rw [List.take_eq_nil_iff, List.length_drop]
    omega
  · by_contra hother
    simp only [List.mem_cons, List.not_mem_nil, or_false, not_or] at hother
    refine hname (hkept.holds.behind.others name hother.1 fun generation hlimit => ?_)
    have hcases : generation = 0 ∨ generation = 1 := by
      rw [generationLimit] at hlimit
      omega
    rcases hcases with rfl | rfl
    · exact hother.2.1
    · exact hother.2.2

def sampleEntry : GatewayAuditEntry where
  ts := 1600000000999
  client := none
  clientName := none
  method := "GET".toList
  route := "/v1/models".toList
  model := none
  capability := none
  outcome := "ok".toList
  status := 200
  durationMs := 1
  detail := none

def sampleLine : Text :=
  ("\x7b\"ts\":\"2020-09-13T12:26:40Z\",\"method\":\"GET\",\"route\":\"/v1/models\"," ++
    "\"outcome\":\"ok\",\"status\":200,\"durationMs\":1\x7d").toList

/-- What `serde_json` does with the one line. -/
def sampleSerde : Serde where
  toVec entry := if entry = wire sampleEntry then sampleLine else []
  fromStr line := if line = sampleLine then some (wire sampleEntry) else none

theorem sampleLine_plain : sampleLine ≠ [] ∧ '\n' ∉ sampleLine ∧ '\r' ∉ sampleLine := by
  unfold sampleLine
  rw [String.toList_append]
  -- character lists evaluate faster than string literals
  repeat rw [String.toList_ofList]
  decide +kernel

theorem sampleSerde_faithful : sampleSerde.Faithful sampleEntry := by
  have hline : sampleSerde.toVec (wire sampleEntry) = sampleLine := by
    simp only [sampleSerde, if_true]
  refine ⟨?_, ?_, ?_, ?_⟩ <;> rw [hline]
  · simp only [sampleSerde, if_true]
  · exact sampleLine_plain.1
  · exact sampleLine_plain.2.1
  · exact sampleLine_plain.2.2

/-- Of four entries that each fill a file, the three newest are read. -/
theorem readAll_after_rotations :
    (run sampleSerde 0 (List.replicate 4 (.append sampleEntry))).readAll =
      (List.replicate 3 sampleEntry).filterMap stored := by
  obtain ⟨dropped, kept, hgenerations, -, hread, -, hlength, hfull, -⟩ :=
    readAll_newest sampleSerde 0 (List.replicate 4 (.append sampleEntry)) fun entry hentry => by
      have hsample : entry ∈ List.replicate 4 sampleEntry := hentry
      rw [List.eq_of_mem_replicate hsample]
      exact sampleSerde_faithful
  have hfour : generations sampleSerde 0
      (run sampleSerde 0 (List.replicate 4 (.append sampleEntry))).persisted =
        List.replicate 4 [sampleEntry] := by
    unfold sampleSerde sampleEntry sampleLine
    rw [String.toList_append]
    repeat rw [String.toList_ofList]
    decide +kernel
  rw [hfour] at hgenerations
  obtain ⟨hsum, -, hkept⟩ := List.append_eq_replicate_iff.1 hgenerations.symm
  have hthree : kept.length = 3 := by
    rcases hfull with rfl | hthree
    · rw [List.length_nil] at hsum
      omega
    · exact hthree
  rw [hread, hkept, hthree]
  rfl

/-- An entry does not come back with the milliseconds of its timestamp. -/
theorem readAll_cuts_timestamp :
    sampleSerde.Faithful sampleEntry ∧
      ¬ (run sampleSerde 100 [.append sampleEntry]).readAll <:+
        (run sampleSerde 100 [.append sampleEntry]).persisted :=
  ⟨sampleSerde_faithful, by
    unfold sampleSerde sampleEntry sampleLine
    rw [String.toList_append]
    repeat rw [String.toList_ofList]
    decide +kernel⟩

end Hedos.Gateway.Audit
