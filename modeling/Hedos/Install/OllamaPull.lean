import Mathlib.Algebra.BigOperators.Group.Finset.Basic
import Mathlib.Algebra.Order.BigOperators.Group.List
import Hedos.Install.Service
import Hedos.Upstream.Ends

/-!
# Pulls through Ollama

`Aggregator` of `kernel/src/install/ollama_pull.rs` with `saturating_sum` of `bytes.rs`, and the
loop of `run_pull` with `fold_line` of `runtime/src/install/ollama.rs` behind a 200 head, for a
consumer that stays.

The JSON reader and the decoding of bytes are parameters (`Foreign`).
-/

namespace Hedos.Install.Ollama

open Function

open Hedos.Install.Service (Progress StreamEvent)
open Hedos.Upstream (splitLines)

/-! ## The aggregator -/

/-- What serde reads of a line. -/
structure Line where
  status : Option String := none
  digest : Option String := none
  total : Option ℤ := none
  completed : Option ℤ := none
  error : Option String := none
deriving DecidableEq

structure Foreign where
  /-- `serde_json::from_str::<Line>`. -/
  fromStr : String → Option Line
  /-- `String::from_utf8_lossy`. -/
  utf8Lossy : Bytes → String

inductive Outcome
  | ignored
  | status (message : String)
  | progress (progress : Progress)
  | success
deriving DecidableEq

/-- `BTreeMap::insert`; nothing depends on the order of the entries. -/
def insert (key : String) (value : ℤ) : List (String × ℤ) → List (String × ℤ)
  | [] => [(key, value)]
  | entry :: rest =>
    if entry.1 = key then (key, value) :: rest else entry :: insert key value rest

structure Aggregator where
  totals : List (String × ℤ) := []
  completed : List (String × ℤ) := []
  lastStatus : Option String := none
deriving DecidableEq

def saturatingSum (values : List ℤ) : ℤ :=
  values.foldl (fun accumulated value => saturatingAddI64 accumulated (max value 0)) 0

def Aggregator.aggregate (aggregator : Aggregator) : Progress :=
  { bytesDownloaded := saturatingSum (aggregator.completed.map Prod.snd)
    totalBytes := some (saturatingSum (aggregator.totals.map Prod.snd))
    totalIsPartial := true
    currentFile := none }

/-- A string that is there and not empty. -/
def nonEmpty (text : Option String) : Option String := text.filter (· ≠ "")

def Aggregator.layer (aggregator : Aggregator) (digest : String) (total : ℤ)
    (completed : Option ℤ) : Aggregator :=
  -- a line that omits the completed count leaves the last one
  let completed := (completed <|> aggregator.completed.lookup digest).getD 0
  { aggregator with
    totals := insert digest total aggregator.totals
    completed := insert digest completed aggregator.completed }

def Aggregator.fold (f : Foreign) (aggregator : Aggregator) (line : String) :
    Except InstallError Outcome × Aggregator :=
  match f.fromStr line with
  | none => (.ok .ignored, aggregator)
  | some decoded =>
    match nonEmpty decoded.error with
    | some error => (.error (.transferFailed ("ollama: " ++ error)), aggregator)
    | none =>
      match nonEmpty decoded.status with
      | none => (.ok .ignored, aggregator)
      | some status =>
        if status = "success" then (.ok .success, aggregator)
        else
          match decoded.digest, decoded.total with
          | some digest, some total =>
            let aggregator := aggregator.layer digest total decoded.completed
            (.ok (.progress aggregator.aggregate), aggregator)
          | _, _ =>
            if aggregator.lastStatus = some status then (.ok .ignored, aggregator)
            else (.ok (.status status), { aggregator with lastStatus := some status })

/-! ## The loop -/

/-- `text.trim_end_matches('\r')`. -/
def trimEndReturns (text : String) : String :=
  String.ofList (text.toList.reverse.dropWhile (· = '\r')).reverse

def lineText (f : Foreign) (line : Bytes) : String := trimEndReturns (f.utf8Lossy line)

/-- What a line makes of the loop: the aggregator it goes on with, or how the pull ends. -/
inductive LineOutcome
  | goesOn (aggregator : Aggregator)
  | ends (result : Except InstallError Unit)

/-- `fold_line`, with what it sends. -/
def foldLine (f : Foreign) (aggregator : Aggregator) (line : Bytes) :
    List StreamEvent × LineOutcome :=
  match aggregator.fold f (lineText f line) with
  | (.error error, _) => ([], .ends (.error error))
  | (.ok .ignored, aggregator) => ([], .goesOn aggregator)
  | (.ok .success, _) => ([], .ends (.ok ()))
  | (.ok (.status message), aggregator) => ([.status message], .goesOn aggregator)
  | (.ok (.progress progress), aggregator) => ([.progress progress], .goesOn aggregator)

/-- The lines of a buffer, up to one that ends the pull. -/
def foldLines (f : Foreign) : Aggregator → List Bytes → List StreamEvent × LineOutcome
  | aggregator, [] => ([], .goesOn aggregator)
  | aggregator, line :: lines =>
    match foldLine f aggregator line with
    | (sent, .ends result) => (sent, .ends result)
    | (sent, .goesOn aggregator) =>
      let (more, outcome) := foldLines f aggregator lines
      (sent ++ more, outcome)

def pullResponseCap : ℕ := 4 * 2 ^ 30

def maxLineBytes : ℕ := 2 * 2 ^ 20

def stalled : InstallError :=
  .transferFailed "ollama pull stalled: no data within the idle timeout"

def oversizedResponse : InstallError :=
  .transferFailed s!"ollama sent a response larger than {pullResponseCap} bytes"

def oversizedLine : InstallError :=
  .transferFailed s!"ollama sent a line larger than {maxLineBytes} bytes"

def endedWithoutSuccess : InstallError :=
  .transferFailed "ollama ended the pull without reporting success"

/-- How the body ends behind its chunks. -/
inductive BodyEnd
  | eof
  | stalled
  | broken (reason : String)
deriving DecidableEq

/-- Behind the last chunk: a final line may lack its newline. -/
def foldRest (f : Foreign) (aggregator : Aggregator) (buffer : Bytes) :
    BodyEnd → List StreamEvent × Except InstallError Unit
  | .stalled => ([], .error stalled)
  | .broken reason => ([], .error (.transferFailed ("reading ollama pull: " ++ reason)))
  | .eof =>
    if buffer = [] then ([], .error endedWithoutSuccess)
    else
      match foldLine f aggregator buffer with
      | (sent, .ends result) => (sent, result)
      | (sent, .goesOn _) => (sent, .error endedWithoutSuccess)

/-- The loop of `run_pull` over the chunks of the body. -/
def readPull (f : Foreign) :
    Aggregator → Bytes → ℕ → List Bytes → BodyEnd → List StreamEvent × Except InstallError Unit
  | aggregator, buffer, _, [], ending => foldRest f aggregator buffer ending
  | aggregator, buffer, totalRead, bytes :: chunks, ending =>
    let totalRead := totalRead + bytes.length
    if totalRead > pullResponseCap then ([], .error oversizedResponse)
    else
      let (lines, rest) := splitLines (buffer ++ bytes)
      match foldLines f aggregator (lines.map List.dropLast) with
      | (sent, .ends result) => (sent, result)
      | (sent, .goesOn aggregator) =>
        if rest.length > maxLineBytes then (sent, .error oversizedLine)
        else
          let (more, result) := readPull f aggregator rest totalRead chunks ending
          (sent ++ more, result)

/-- What `install` sends: `started` says that it had to start the daemon first. -/
def install (f : Foreign) (started : Bool) (chunks : List Bytes) (ending : BodyEnd) :
    List (Except InstallError StreamEvent) :=
  let (sent, result) := readPull f {} [] 0 chunks ending
  (if started then [.ok (.status "Starting Ollama…")] else []) ++ sent.map .ok ++
    match result with
    | .ok () => []
    | .error error => [.error error]

/-! ## The sums -/

/-- What a progress line says of its layer. -/
structure Layer where
  digest : String
  total : ℤ
  completed : Option ℤ
deriving DecidableEq

def lastTotal (layers : List Layer) (digest : String) : ℤ :=
  (((layers.filter (·.digest = digest)).map Layer.total).getLast?).getD 0

/-- The last completed count that a line of the digest gave. -/
def lastCompleted (layers : List Layer) (digest : String) : ℤ :=
  (((layers.filter (·.digest = digest)).filterMap Layer.completed).getLast?).getD 0

/-- The digests of the layers. -/
def digests (layers : List Layer) : Finset String := (layers.map Layer.digest).toFinset

/-- The saturating sums over the digests; a negative count adds nothing. -/
def reported (layers : List Layer) : Progress :=
  { bytesDownloaded := min i64Max (∑ digest ∈ digests layers, max (lastCompleted layers digest) 0)
    totalBytes := some (min i64Max (∑ digest ∈ digests layers, max (lastTotal layers digest) 0))
    totalIsPartial := true
    currentFile := none }

theorem saturatingSum_eq (values : List ℤ) :
    saturatingSum values = min i64Max ((values.map (max · 0)).sum) := by
  have hmax : 0 ≤ i64Max := by decide
  have hfold : ∀ accumulated, 0 ≤ accumulated → accumulated ≤ i64Max →
      values.foldl (fun done value => saturatingAddI64 done (max value 0)) accumulated =
        min i64Max (accumulated + (values.map (max · 0)).sum) := by
    induction values with
    | nil =>
      intro accumulated _ hle
      simp [hle]
    | cons value values ih =>
      intro accumulated hnonneg hle
      have hsum : 0 ≤ (values.map (max · 0)).sum :=
        List.sum_nonneg fun x hx => by
          obtain ⟨y, -, rfl⟩ := List.mem_map.1 hx
          exact le_max_right y 0
      have hadded : saturatingAddI64 accumulated (max value 0) =
          min i64Max (accumulated + max value 0) := by
        unfold saturatingAddI64
        omega
      rw [List.foldl_cons, List.map_cons, List.sum_cons, hadded, ih _ (by omega) (min_le_left _ _)]
      omega
  rw [saturatingSum, hfold 0 (Int.le_refl 0) hmax, zero_add]

section

variable {keys : List String} {g : String → ℤ}

theorem lookup_map (key : String) :
    (keys.map fun k => (k, g k)).lookup key = if key ∈ keys then some (g key) else none := by
  induction keys with
  | nil => rfl
  | cons k keys ih =>
    rw [List.map_cons, List.lookup_cons]
    by_cases hkey : key = k
    · simp [hkey]
    · simp [hkey, ih, beq_false_of_ne hkey]

theorem insert_map (hnodup : keys.Nodup) (key : String) (value : ℤ) :
    insert key value (keys.map fun k => (k, g k)) =
      (if key ∈ keys then keys else keys ++ [key]).map
        fun k => (k, update g key value k) := by
  induction keys with
  | nil => simp [insert]
  | cons k keys ih =>
    obtain ⟨hk, hrest⟩ := List.nodup_cons.1 hnodup
    by_cases hkey : k = key
    · subst hkey
      -- the other entries are not its own
      have hothers : keys.map (fun x => (x, g x)) = keys.map fun x => (x, update g k value x) := by
        apply List.map_congr_left
        intro x hx
        have hne : x ≠ k := fun h => hk (h ▸ hx)
        rw [update_of_ne hne]
      simp [insert, hothers]
    · have hmem : key ∈ k :: keys ↔ key ∈ keys := by simp [Ne.symm hkey]
      simp only [List.map_cons, insert, if_neg hkey, ih hrest, hmem]
      split <;> simp [update_of_ne hkey]

end

theorem lastTotal_append (layers : List Layer) (layer : Layer) :
    lastTotal (layers ++ [layer]) = update (lastTotal layers) layer.digest layer.total := by
  funext digest
  by_cases hdigest : digest = layer.digest
  · simp [lastTotal, hdigest]
  · simp [lastTotal, update_of_ne hdigest, Ne.symm hdigest]

theorem lastCompleted_append (layers : List Layer) (layer : Layer) :
    lastCompleted (layers ++ [layer]) =
      update (lastCompleted layers) layer.digest
        (layer.completed.getD (lastCompleted layers layer.digest)) := by
  funext digest
  by_cases hdigest : digest = layer.digest
  · subst hdigest
    rw [update_self]
    cases hcompleted : layer.completed with
    | none => simp [lastCompleted, hcompleted]
    | some completed => simp [lastCompleted, hcompleted]
  · simp [lastCompleted, update_of_ne hdigest, Ne.symm hdigest]

/-- The aggregator holds the last counts of the layers it has seen. -/
def Holds (layers : List Layer) (aggregator : Aggregator) : Prop :=
  ∃ keys : List String, keys.Nodup ∧ keys.toFinset = digests layers ∧
    aggregator.totals = (keys.map fun key => (key, lastTotal layers key)) ∧
    aggregator.completed = keys.map fun key => (key, lastCompleted layers key)

theorem holds_nil : Holds [] {} :=
  ⟨[], List.nodup_nil, rfl, rfl, rfl⟩

variable {aggregator : Aggregator} {buffer : Bytes} {chunks : List Bytes}

theorem Holds.layer {layers : List Layer} (h : Holds layers aggregator) (layer : Layer) :
    Holds (layers ++ [layer]) (aggregator.layer layer.digest layer.total layer.completed) := by
  obtain ⟨keys, hnodup, hkeys, htotals, hcompleted⟩ := h
  have hmem : layer.digest ∈ keys ↔ layer.digest ∈ digests layers := by
    rw [← hkeys, List.mem_toFinset]
  -- a digest that was not seen has no completed count yet
  have hlast : (layer.completed <|> aggregator.completed.lookup layer.digest).getD 0 =
      layer.completed.getD (lastCompleted layers layer.digest) := by
    rw [hcompleted, lookup_map]
    cases layer.completed with
    | some completed => rfl
    | none =>
      by_cases hseen : layer.digest ∈ keys
      · simp [hseen]
      · have hnone : layers.filter (·.digest = layer.digest) = [] := by
          rw [List.filter_eq_nil_iff]
          intro other hother hdigest
          apply hseen
          rw [hmem, digests, List.mem_toFinset]
          exact List.mem_map.2 ⟨other, hother, of_decide_eq_true hdigest⟩
        simp [hseen, lastCompleted, hnone]
  refine ⟨if layer.digest ∈ keys then keys else keys ++ [layer.digest], ?_, ?_, ?_, ?_⟩
  · split
    · exact hnodup
    · rename_i hnew
      exact List.nodup_append.2 ⟨hnodup, List.nodup_singleton _, fun a ha b hb => by
        rw [List.mem_singleton.1 hb]
        exact fun h => hnew (h ▸ ha)⟩
  · have hdigests : digests (layers ++ [layer]) = Insert.insert layer.digest (digests layers) := by
      ext digest
      simp [digests]
    rw [hdigests]
    split
    · rename_i hold
      rw [hkeys, Finset.insert_eq_of_mem (hmem.1 hold)]
    · rw [← hkeys]
      ext digest
      simp
  · show insert layer.digest layer.total aggregator.totals = _
    rw [htotals, insert_map hnodup, lastTotal_append]
  · show insert layer.digest _ aggregator.completed = _
    rw [hlast, hcompleted, insert_map hnodup, lastCompleted_append]

theorem Holds.aggregate {layers : List Layer}
    (h : Holds layers aggregator) : aggregator.aggregate = reported layers := by
  obtain ⟨keys, hnodup, hkeys, htotals, hcompleted⟩ := h
  have hsum : ∀ g : String → ℤ, saturatingSum ((keys.map fun key => (key, g key)).map Prod.snd) =
      min i64Max (∑ digest ∈ digests layers, max (g digest) 0) := by
    intro g
    rw [saturatingSum_eq, ← hkeys, List.sum_toFinset _ hnodup, List.map_map, List.map_map]
    rfl
  rw [Aggregator.aggregate, reported, htotals, hcompleted, hsum, hsum]

/-! ## What the lines say -/

def readLine (f : Foreign) (line : Bytes) : Option Line := f.fromStr (lineText f line)

/-- The error a line reports. -/
def errorOf (f : Foreign) (line : Bytes) : Option String :=
  (readLine f line).bind fun decoded => nonEmpty decoded.error

/-- The line reports no error, and success. -/
def isSuccess (f : Foreign) (line : Bytes) : Bool :=
  (errorOf f line).isNone &&
    (readLine f line).any fun decoded => decoded.status == some "success"

/-- The line is an error or a success. -/
def isDecisive (f : Foreign) (line : Bytes) : Bool := (errorOf f line).isSome || isSuccess f line

/-- What a progress line says: one with a status, a digest and a total. -/
def layerOf (f : Foreign) (line : Bytes) : Option Layer := do
  let decoded ← readLine f line
  let _ ← nonEmpty decoded.status
  let digest ← decoded.digest
  let total ← decoded.total
  some ⟨digest, total, decoded.completed⟩

/-- The layers of the progress lines in front of the first error or success. -/
def layersOf (f : Foreign) (lines : List Bytes) : List Layer :=
  (lines.takeWhile fun line => !isDecisive f line).filterMap (layerOf f)

/-- The lines of a body, the last of them possibly unterminated. -/
def bodyLines (body : Bytes) : List Bytes :=
  (splitLines body).1.map List.dropLast ++
    if (splitLines body).2 = [] then [] else [(splitLines body).2]

/-- The first line that is an error or a success is a success. -/
def Succeeds (f : Foreign) (lines : List Bytes) : Prop :=
  ∃ line, lines.find? (isDecisive f) = some line ∧ isSuccess f line = true

instance (f : Foreign) (lines : List Bytes) : Decidable (Succeeds f lines) :=
  decidable_of_iff ((lines.find? (isDecisive f)).any (isSuccess f) = true) (by
    simp [Succeeds, Option.any_eq_true])

/-- The progress to report after each of the layers. -/
def reportsOf (layers : List Layer) : List Progress :=
  (List.range layers.length).map fun k => reported (layers.take (k + 1))

def progressOf (sent : List StreamEvent) : List Progress :=
  sent.filterMap fun
    | .progress progress => some progress
    | .status _ => none

/-! ## One line -/

section

variable {f : Foreign} {aggregator : Aggregator} {line : Bytes}

theorem foldLine_of_error {error : String} (h : errorOf f line = some error) :
    foldLine f aggregator line =
      ([], .ends (.error (.transferFailed ("ollama: " ++ error)))) := by
  rw [errorOf, readLine, Option.bind_eq_some_iff] at h
  obtain ⟨decoded, hdecoded, herror⟩ := h
  simp only [foldLine, Aggregator.fold, hdecoded, herror]

theorem foldLine_of_success (h : isSuccess f line = true) :
    foldLine f aggregator line = ([], .ends (.ok ())) := by
  rw [isSuccess, Bool.and_eq_true, Option.isNone_iff_eq_none, Option.any_eq_true] at h
  obtain ⟨herror, decoded, hdecoded, hstatus⟩ := h
  rw [errorOf, hdecoded, Option.bind_some] at herror
  rw [readLine] at hdecoded
  have hsome : nonEmpty decoded.status = some "success" := by
    rw [eq_of_beq hstatus]
    rfl
  simp only [foldLine, Aggregator.fold, hdecoded, herror, hsome, if_true]

/-- A line that is neither goes on; a progress line reports the sums, any other leaves them. -/
theorem foldLine_of_other {layers : List Layer} (hholds : Holds layers aggregator)
    (h : isDecisive f line = false) :
    ∃ sent next, foldLine f aggregator line = (sent, .goesOn next) ∧
      Holds (layers ++ (layerOf f line).toList) next ∧
      progressOf sent = (layerOf f line).toList.map fun layer => reported (layers ++ [layer]) := by
  rw [isDecisive, Bool.or_eq_false_iff, Option.isSome_eq_false_iff, Option.isNone_iff_eq_none] at h
  obtain ⟨herror, hsuccess⟩ := h
  cases hdecoded : readLine f line with
  | none =>
    have hnone : f.fromStr (lineText f line) = none := hdecoded
    refine ⟨[], aggregator, ?_, ?_, ?_⟩
    · simp only [foldLine, Aggregator.fold, hnone]
    · simpa [layerOf, hdecoded] using hholds
    · simp [layerOf, hdecoded, progressOf]
  | some decoded =>
    have hsome : f.fromStr (lineText f line) = some decoded := hdecoded
    have hnoError : nonEmpty decoded.error = none := by
      rwa [errorOf, hdecoded, Option.bind_some] at herror
    cases hstatus : nonEmpty decoded.status with
    | none =>
      refine ⟨[], aggregator, ?_, ?_, ?_⟩
      · simp only [foldLine, Aggregator.fold, hsome, hnoError, hstatus]
      · simpa [layerOf, hdecoded, hstatus] using hholds
      · simp [layerOf, hdecoded, hstatus, progressOf]
    | some status =>
      have hnot : ¬ status = "success" := by
        rintro rfl
        have hin := (Option.filter_eq_some_iff.1 hstatus).1
        simp [isSuccess, errorOf, hdecoded, hnoError, hin] at hsuccess
      have hkept : decoded.digest = none ∨ decoded.total = none →
          ∃ sent next, foldLine f aggregator line = (sent, .goesOn next) ∧
            Holds (layers ++ (layerOf f line).toList) next ∧
            progressOf sent =
              (layerOf f line).toList.map fun layer => reported (layers ++ [layer]) := by
        intro hmissing
        have hlayer : layerOf f line = none := by
          rcases hmissing with hnone | hnone
          · simp [layerOf, hdecoded, hnone]
          · simp [layerOf, hdecoded, hnone]
        have hfold : aggregator.fold f (lineText f line) =
            if aggregator.lastStatus = some status then (.ok .ignored, aggregator)
            else (.ok (.status status), { aggregator with lastStatus := some status }) := by
          simp only [Aggregator.fold, hsome, hnoError, hstatus, if_neg hnot]
          rcases hmissing with hnone | hnone
          · rw [hnone]
          · rw [hnone]
            cases decoded.digest <;> rfl
        rw [hlayer, Option.toList_none, List.append_nil, foldLine, hfold]
        by_cases hlast : aggregator.lastStatus = some status
        · rw [if_pos hlast]
          exact ⟨[], aggregator, rfl, hholds, rfl⟩
        · rw [if_neg hlast]
          exact ⟨[.status status], { aggregator with lastStatus := some status }, rfl, hholds, rfl⟩
      cases hdigest : decoded.digest with
      | none => exact hkept (.inl hdigest)
      | some digest =>
        cases htotal : decoded.total with
        | none => exact hkept (.inr htotal)
        | some total =>
          have hlayer : layerOf f line = some ⟨digest, total, decoded.completed⟩ := by
            simp [layerOf, hdecoded, hstatus, hdigest, htotal]
          have hnext := hholds.layer ⟨digest, total, decoded.completed⟩
          refine ⟨[.progress (aggregator.layer digest total decoded.completed).aggregate],
            aggregator.layer digest total decoded.completed, ?_, ?_, ?_⟩
          · simp only [foldLine, Aggregator.fold, hsome, hnoError, hstatus, if_neg hnot, hdigest,
              htotal]
          · rw [hlayer]
            exact hnext
          · rw [hlayer]
            show [_] = [_]
            rw [hnext.aggregate]

end

/-! ## All lines -/

variable (f : Foreign)

theorem foldLines_append (aggregator : Aggregator) (front rest : List Bytes) :
    foldLines f aggregator (front ++ rest) =
      match foldLines f aggregator front with
      | (sent, .ends result) => (sent, .ends result)
      | (sent, .goesOn aggregator) =>
        (sent ++ (foldLines f aggregator rest).1, (foldLines f aggregator rest).2) := by
  induction front generalizing aggregator with
  | nil => simp [foldLines]
  | cons line front ih =>
    simp only [List.cons_append, foldLines]
    rcases foldLine f aggregator line with ⟨sent, next | result⟩
    · simp only [ih]
      rcases foldLines f next front with ⟨more, last | result⟩ <;> simp
    · rfl

/-- How the pull ends at a line that is an error or a success. -/
def verdict (f : Foreign) (line : Bytes) : Except InstallError Unit :=
  match errorOf f line with
  | some error => .error (.transferFailed ("ollama: " ++ error))
  | none => .ok ()

theorem foldLine_of_decisive {f : Foreign} {line : Bytes} (aggregator : Aggregator)
    (h : isDecisive f line = true) :
    foldLine f aggregator line = ([], .ends (verdict f line)) := by
  unfold verdict
  cases herror : errorOf f line with
  | some error => exact foldLine_of_error herror
  | none =>
    rw [isDecisive, herror, Option.isSome_none, Bool.false_or] at h
    exact foldLine_of_success h

theorem reportsFrom_cons (before : List Layer) (layer : Layer) (layers : List Layer) :
    (List.range (layer :: layers).length).map (fun k =>
        reported (before ++ (layer :: layers).take (k + 1))) =
      reported (before ++ [layer]) :: (List.range layers.length).map fun k =>
        reported ((before ++ [layer]) ++ layers.take (k + 1)) := by
  rw [List.length_cons, List.range_succ_eq_map, List.map_cons, List.map_map]
  simp [comp_def]

/-- The lines up to the first that is an error or a success report the sums, and this one ends the
pull. -/
theorem foldLines_spec (lines : List Bytes) {before : List Layer}
    (hholds : Holds before aggregator) :
    progressOf (foldLines f aggregator lines).1 =
        (List.range (layersOf f lines).length).map (fun k =>
          reported (before ++ (layersOf f lines).take (k + 1))) ∧
      (∀ line, lines.find? (isDecisive f) = some line →
        (foldLines f aggregator lines).2 = .ends (verdict f line)) ∧
      (lines.find? (isDecisive f) = none →
        ∃ next, (foldLines f aggregator lines).2 = .goesOn next) := by
  induction lines generalizing before aggregator with
  | nil => exact ⟨rfl, nofun, fun _ => ⟨aggregator, rfl⟩⟩
  | cons line lines ih =>
    cases hdecisive : isDecisive f line with
    | true =>
      simp only [foldLines, foldLine_of_decisive aggregator hdecisive, layersOf,
        List.takeWhile_cons, hdecisive, List.find?_cons]
      refine ⟨rfl, fun other hother => ?_, nofun⟩
      rw [Option.some.inj hother]
    | false =>
      obtain ⟨sent, next, hline, hnext, hsent⟩ := foldLine_of_other hholds hdecisive
      obtain ⟨hprogress, hends, hgoesOn⟩ := ih hnext
      have hlayers : layersOf f (line :: lines) = (layerOf f line).toList ++ layersOf f lines := by
        cases hlayer : layerOf f line <;> simp [layersOf, hdecisive, hlayer]
      simp only [foldLines, hline, List.find?_cons, hdecisive, hlayers]
      refine ⟨?_, hends, hgoesOn⟩
      rw [progressOf, List.filterMap_append, ← progressOf, ← progressOf, hsent, hprogress]
      cases layerOf f line with
      | none => simp
      | some layer =>
        rw [Option.toList_some, List.singleton_append, reportsFrom_cons]
        rfl

/-! ## However the body is cut -/

/-- The chunks stay below the limits: the body by its length, and whatever has arrived by what
follows its last newline. -/
structure BelowLimits (buffer : Bytes) (totalRead : ℕ) (chunks : List Bytes) : Prop where
  body : totalRead + chunks.flatten.length ≤ pullResponseCap
  lines : ∀ front, front <+: chunks → (splitLines (buffer ++ front.flatten)).2.length ≤ maxLineBytes

theorem BelowLimits.tail {bytes : Bytes} {totalRead : ℕ}
    (h : BelowLimits buffer totalRead (bytes :: chunks)) :
    BelowLimits (splitLines (buffer ++ bytes)).2 (totalRead + bytes.length) chunks := by
  refine ⟨?_, fun front hfront => ?_⟩
  · have hbody := h.body
    rw [List.flatten_cons, List.length_append] at hbody
    omega
  · have hlines := h.lines (bytes :: front) (List.cons_prefix_cons.2 ⟨rfl, hfront⟩)
    rw [List.flatten_cons, ← List.append_assoc, Upstream.splitLines_append] at hlines
    exact hlines

theorem length_rest_le (bytes : Bytes) : (splitLines bytes).2.length ≤ bytes.length := by
  induction bytes with
  | nil => exact Nat.le_refl 0
  | cons byte rest ih =>
    rw [List.length_cons]
    by_cases hbyte : byte = 10
    · rw [splitLines, if_pos hbyte]
      exact Nat.le_succ_of_le ih
    · rw [Upstream.splitLines_cons_of_ne hbyte]
      split
      · exact Nat.succ_le_succ ih
      · exact Nat.le_succ_of_le ih

/-- However a short body is cut, it stays below the limits. -/
theorem BelowLimits.of_short (h : chunks.flatten.length ≤ maxLineBytes) :
    BelowLimits [] 0 chunks := by
  refine ⟨?_, fun front hfront => ?_⟩
  · have hcap : maxLineBytes ≤ pullResponseCap := by decide
    omega
  · have hrest := length_rest_le ([] ++ front.flatten)
    have hfront := hfront.sublist.flatten.length_le
    rw [List.nil_append] at hrest ⊢
    omega

/-- How the pull ends behind its last line. -/
def LineOutcome.result : LineOutcome → Except InstallError Unit
  | .goesOn _ => .error endedWithoutSuccess
  | .ends result => result

/-- The lines of bytes are those of their front, and those of what is left with the rest. -/
theorem bodyLines_append (front rest : Bytes) :
    bodyLines (front ++ rest) =
      (splitLines front).1.map List.dropLast ++ bodyLines ((splitLines front).2 ++ rest) := by
  simp only [bodyLines, Upstream.splitLines_append front rest, List.map_append, List.append_assoc]

theorem bodyLines_rest (h : splitLines buffer = ([], buffer)) :
    bodyLines buffer = if buffer = [] then [] else [buffer] := by
  simp only [bodyLines, h, List.map_nil, List.nil_append]

/-- Whatever the chunks, the loop folds the lines of the body. -/
theorem readPull_eq (aggregator : Aggregator) {totalRead : ℕ}
    (hbuffer : splitLines buffer = ([], buffer)) (hlimits : BelowLimits buffer totalRead chunks) :
    readPull f aggregator buffer totalRead chunks .eof =
      ((foldLines f aggregator (bodyLines (buffer ++ chunks.flatten))).1,
        (foldLines f aggregator (bodyLines (buffer ++ chunks.flatten))).2.result) := by
  induction chunks generalizing aggregator buffer totalRead with
  | nil =>
    rw [List.flatten_nil, List.append_nil, bodyLines_rest hbuffer, readPull, foldRest]
    split
    · rfl
    · simp only [foldLines]
      rcases foldLine f aggregator buffer with ⟨sent, next | result⟩
      · simp [LineOutcome.result]
      · rfl
  | cons bytes chunks ih =>
    have htotal : ¬ totalRead + bytes.length > pullResponseCap := by
      have hbody := hlimits.body
      rw [List.flatten_cons, List.length_append] at hbody
      omega
    have hrest : ¬ (splitLines (buffer ++ bytes)).2.length > maxLineBytes := by
      have hline := hlimits.lines [bytes] (by simp)
      rw [List.flatten_singleton] at hline
      omega
    rw [List.flatten_cons, ← List.append_assoc, bodyLines_append, foldLines_append]
    simp only [readPull, if_neg htotal]
    rcases foldLines f aggregator ((splitLines (buffer ++ bytes)).1.map List.dropLast) with
      ⟨sent, next | result⟩
    · simp only [if_neg hrest]
      rw [ih next (Upstream.splitLines_rest _) hlimits.tail]
    · rfl

/-- What the consumer is sent: the reports of the layers, and an error exactly when the pull does
not succeed. -/
theorem readPull_spec (hlimits : BelowLimits [] 0 chunks) :
    progressOf (readPull f {} [] 0 chunks .eof).1 =
        reportsOf (layersOf f (bodyLines chunks.flatten)) ∧
      ((readPull f {} [] 0 chunks .eof).2 = .ok () ↔ Succeeds f (bodyLines chunks.flatten)) := by
  rw [readPull_eq f {} rfl hlimits, List.nil_append]
  obtain ⟨hprogress, hends, hgoesOn⟩ := foldLines_spec f (bodyLines chunks.flatten) holds_nil
  refine ⟨hprogress, ?_⟩
  unfold Succeeds
  cases hfind : (bodyLines chunks.flatten).find? (isDecisive f) with
  | none =>
    obtain ⟨next, hnext⟩ := hgoesOn hfind
    rw [hnext]
    simp [LineOutcome.result]
  | some line =>
    rw [hends line hfind]
    have hdecisive := List.find?_some hfind
    simp only [LineOutcome.result, verdict, Option.some.injEq, exists_eq_left']
    cases herror : errorOf f line with
    | some error => simp [isSuccess, herror]
    | none =>
      rw [isDecisive, herror, Option.isSome_none, Bool.false_or] at hdecisive
      simp [hdecisive]

end Hedos.Install.Ollama
