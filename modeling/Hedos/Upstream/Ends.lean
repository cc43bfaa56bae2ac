import Hedos.Upstream.LineStream

/-!
# An upstream failure and a complete answer

What a server says with its lines (`Server.reading`), what an answer has to be then (`IsHonest`),
and exactly when it is.

* the lines that arrive, and what cuts them off, do not depend on what they say (`arrive`); the
  reader is a walk through them (`readLines_eq`), and they are lines of the bytes whatever the
  chunks (`arrive_lines`);
* a walk whose line handler does what `Heeds` says is honest exactly when the first line it stops
  at is a completion without a failure before it or text on it, or a failure it knows, or when
  there is none and the answer is cut by something else than the end of the connection
  (`walk_honest_iff`).
-/

namespace Hedos.Upstream

open Hedos.Kernel (JsonValue GenerationStats ToolCall CapabilityChunk RuntimeError)

/-! ## The lines that arrive -/

/-- What ends the lines. -/
inductive Cut
  | closed
  | transport (reason : String)
  | oversizedResponse
  | oversizedLine
deriving DecidableEq

/-- The lines that reach `on_line` if it never stops, the rest of the buffer among them when the
connection is closed, and what cuts them off. -/
def arrive : Bytes → ℕ → List Bytes → Ending → List Bytes × Cut
  | buffer, _, [], .closed => ([buffer], .closed)
  | _, _, [], .transport reason => ([], .transport reason)
  | buffer, total, bytes :: chunks, ending =>
    let total := total + bytes.length
    if total > maxResponseBytes then ([], .oversizedResponse)
    else
      let (lines, rest) := splitLines (buffer ++ bytes)
      if rest.length > maxLineBytes then (lines, .oversizedLine)
      else
        let (more, cut) := arrive rest total chunks ending
        (lines ++ more, cut)

/-- What is sent for a cut. -/
def Cut.sent (errorPrefix : String) : Cut → List Sent
  | closed => []
  | transport reason => [.error (.failed (errorPrefix ++ ": " ++ reason))]
  | oversizedResponse => [.error Upstream.oversizedResponse]
  | oversizedLine => [.error Upstream.oversizedLine]

/-- The answer for lines and their cut. -/
def walk {σ : Type} (onLine : OnLine σ) (errorPrefix : String) (state : σ) (lines : List Bytes)
    (cut : Cut) : List Sent :=
  match feed onLine state lines with
  | (_, sent, true) => sent ++ cut.sent errorPrefix
  | (_, sent, false) => sent

section

variable {σ : Type} {onLine : OnLine σ} {errorPrefix : String}
variable (state : σ)

theorem walk_cons (line : Bytes) (lines : List Bytes) (cut : Cut) :
    walk onLine errorPrefix state (line :: lines) cut =
      (onLine state line).2.1 ++
        if (onLine state line).2.2 then walk onLine errorPrefix (onLine state line).1 lines cut
        else [] := by
  rw [walk, feed]
  rcases onLine state line with ⟨state', sent, goesOn⟩
  cases goesOn with
  | false => simp
  | true =>
    simp only [if_true]
    rw [walk]
    rcases feed onLine state' lines with ⟨last, more, goesOn⟩
    cases goesOn <;> simp

theorem walk_append (lines more : List Bytes) (cut : Cut) :
    walk onLine errorPrefix state (lines ++ more) cut =
      (feed onLine state lines).2.1 ++
        if (feed onLine state lines).2.2 then
          walk onLine errorPrefix (feed onLine state lines).1 more cut
        else [] := by
  induction lines generalizing state with
  | nil => simp [feed]
  | cons line lines ih =>
    rw [List.cons_append, walk_cons, feed]
    rcases onLine state line with ⟨state', sent, goesOn⟩
    cases goesOn with
    | false => simp
    | true =>
      simp only [if_true]
      rw [ih, List.append_assoc]

/-- The reader is a walk through the lines that arrive. -/
theorem readLines_eq (buffer : Bytes) (total : ℕ) (chunks : List Bytes) (ending : Ending) :
    readLines errorPrefix onLine state buffer total chunks ending =
      walk onLine errorPrefix state (arrive buffer total chunks ending).1
        (arrive buffer total chunks ending).2 := by
  induction chunks generalizing state buffer total with
  | nil =>
    cases ending with
    | closed =>
      rw [readLines, arrive, walk_cons]
      split <;> simp [walk, feed, Cut.sent]
    | transport reason => simp [readLines, arrive, walk, feed, Cut.sent]
  | cons bytes chunks ih =>
    simp only [readLines, arrive, drainLines]
    split
    · simp [walk, feed, Cut.sent]
    · rcases splitLines (buffer ++ bytes) with ⟨lines, rest⟩
      simp only
      by_cases hlong : rest.length > maxLineBytes
      · simp only [if_pos hlong]
        rw [walk]
        rcases feed onLine state lines with ⟨last, sent, goesOn⟩
        cases goesOn with
        | false => rfl
        | true =>
          simp only
          rw [if_pos hlong]
          rfl
      · simp only [if_neg hlong]
        rw [walk_append]
        rcases feed onLine state lines with ⟨last, sent, goesOn⟩
        cases goesOn with
        | false => simp
        | true =>
          simp only [if_true]
          rw [if_neg hlong, ih]

end

/-! ## Lines of the bytes -/

/-- Bytes in front of a buffer without a line in it only make it longer. -/
theorem splitLines_cons_of_ne {byte : UInt8} (h : byte ≠ 10) (rest : Bytes) :
    splitLines (byte :: rest) =
      ((splitLines rest).1.modifyHead (byte :: ·),
        if (splitLines rest).1.isEmpty then byte :: (splitLines rest).2
        else (splitLines rest).2) := by
  rw [splitLines, if_neg h]
  rcases splitLines rest with ⟨lines, tail⟩
  cases lines <;> rfl

/-- The lines of a text are those of its front, and those of what is left with the rest. -/
theorem splitLines_append (a b : Bytes) :
    splitLines (a ++ b) =
      ((splitLines a).1 ++ (splitLines ((splitLines a).2 ++ b)).1,
        (splitLines ((splitLines a).2 ++ b)).2) := by
  induction a with
  | nil => simp [splitLines]
  | cons byte a ih =>
    by_cases hbyte : byte = 10
    · rw [List.cons_append, splitLines, if_pos hbyte, splitLines, if_pos hbyte, ih]
      rfl
    · rw [List.cons_append, splitLines_cons_of_ne hbyte, splitLines_cons_of_ne hbyte, ih]
      rcases splitLines a with ⟨lines, tail⟩
      cases lines with
      | nil => simp [splitLines_cons_of_ne hbyte]
      | cons line lines => simp

theorem splitLines_rest (bytes : Bytes) :
    splitLines (splitLines bytes).2 = ([], (splitLines bytes).2) := by
  induction bytes with
  | nil => rfl
  | cons byte rest ih =>
    by_cases hbyte : byte = 10
    · rw [splitLines, if_pos hbyte]
      exact ih
    · rw [splitLines_cons_of_ne hbyte]
      rcases hsplit : splitLines rest with ⟨lines, tail⟩
      rw [hsplit] at ih
      cases lines with
      | nil => simp [splitLines_cons_of_ne hbyte, ih]
      | cons line lines => simpa using ih

/-- However the bytes are cut into chunks, what arrives until the connection is closed are their
lines, and what arrives until something else happens is a front of them. -/
theorem arrive_lines (buffer : Bytes) (hbuffer : splitLines buffer = ([], buffer)) (total : ℕ)
    (chunks : List Bytes) (ending : Ending) :
    ((arrive buffer total chunks ending).2 = .closed →
      (arrive buffer total chunks ending).1 =
        (splitLines (buffer ++ chunks.flatten)).1 ++ [(splitLines (buffer ++ chunks.flatten)).2]) ∧
    ((arrive buffer total chunks ending).2 ≠ .closed →
      (arrive buffer total chunks ending).1 <+: (splitLines (buffer ++ chunks.flatten)).1) := by
  induction chunks generalizing buffer total with
  | nil =>
    cases ending with
    | closed => simp [arrive, hbuffer]
    | transport reason => simp [arrive]
  | cons bytes chunks ih =>
    have happend := splitLines_append (buffer ++ bytes) chunks.flatten
    have hrest := splitLines_rest (buffer ++ bytes)
    rw [List.flatten_cons, ← List.append_assoc, happend]
    simp only [arrive]
    split
    · simp
    · rcases hsplit : splitLines (buffer ++ bytes) with ⟨lines, rest⟩
      rw [hsplit] at hrest
      simp only
      split
      · simp
      · obtain ⟨hclosed, hcut⟩ := ih rest hrest (total + bytes.length)
        rcases harrive : arrive rest (total + bytes.length) chunks ending with ⟨more, cut⟩
        rw [harrive] at hclosed hcut
        refine ⟨fun h => ?_, fun h => ?_⟩
        · rw [List.append_assoc]
          exact congrArg _ (hclosed h)
        · exact (List.prefix_append_right_inj lines).2 (hcut h)

theorem arrive_lines_in_two_chunks :
    (arrive [] 0 [[97], [98, 10, 99]] .closed).1 = [[97, 98, 10], [99]] :=
  (arrive_lines [] rfl 0 [[97], [98, 10, 99]] .closed).1 rfl

/-! ## What a line says -/

/-- An `error` that is there, whatever it is. -/
def hasError (object : JsonValue) : Bool :=
  match object.get "error" with
  | none | some .null => false
  | some _ => true

/-- What a line says to one who reads all of it. -/
structure Reading where
  /-- The answer is complete. -/
  completes : Bool := false
  /-- It has failed. -/
  fails : Bool := false
  /-- In words the adapter looks for. -/
  isKnown : Bool := false
  /-- The thinking and the text on it. -/
  pieces : List CapabilityChunk := []

def readingOpenAI (f : Foreign) (line : Bytes) : Reading :=
  match (fromUtf8 line).bind payload with
  | none => {}
  | some text =>
    if text = "[DONE]" then { completes := true }
    else
      match f.fromStr text with
      | some (.object fields) =>
        { fails := hasError (.object fields)
          pieces := (firstChoice (.object fields)).elim [] deltaChunks }
      | _ => {}

def readingOllama (f : Foreign) (line : Bytes) : Reading :=
  match f.fromSlice line with
  | some (.object fields) =>
    let object := JsonValue.object fields
    let isKnown := (nonEmpty (object.get "error")).isSome
    { completes := (object.get "done").bind JsonValue.asBool = some true && !isKnown
      fails := hasError object
      isKnown
      pieces := messageChunks object }
  | _ => {}

def Server.reading (f : Foreign) : Server → Bytes → Reading
  | .openAI => readingOpenAI f
  | .ollama => readingOllama f

/-! ## Honest answers -/

def isPiece : Sent → Bool
  | .ok (.text _) | .ok (.thinking _) => true
  | _ => false

/-- Neither a `Done` nor an error. -/
def isMiddle : Sent → Bool
  | .error _ | .ok (.done _) => false
  | _ => true

def isDoneSent : Sent → Bool
  | .ok (.done _) => true
  | _ => false

def isErrorSent : Sent → Bool
  | .error _ => true
  | _ => false

/-- One chunk of the kind last, and neither a `Done` nor an error before it. -/
def EndsWith (kind : Sent → Bool) (sent : List Sent) : Prop :=
  ∃ front last, sent = front ++ [last] ∧ kind last = true ∧ ∀ s ∈ front, isMiddle s = true

/-- The lines say that the answer is complete, and not before that it has failed. -/
def signalled (reading : Bytes → Reading) : List Bytes → Bool
  | [] => false
  | line :: lines =>
    if (reading line).fails then false
    else if (reading line).completes then true
    else signalled reading lines

/-- The pieces of the lines up to a failure, or up to and including the completion. -/
def required (reading : Bytes → Reading) : List Bytes → List CapabilityChunk
  | [] => []
  | line :: lines =>
    if (reading line).fails then []
    else if (reading line).completes then (reading line).pieces
    else (reading line).pieces ++ required reading lines

/-- The answer ends as the lines say, and nothing of them is missing. -/
def IsHonest (reading : Bytes → Reading) (lines : List Bytes) (sent : List Sent) : Prop :=
  EndsWith (if signalled reading lines then isDoneSent else isErrorSent) sent ∧
    (required reading lines).map Except.ok <+: sent.filter isPiece

/-- A failure the adapter looks for, or the completion. -/
def stops (reading : Bytes → Reading) (line : Bytes) : Bool :=
  (reading line).isKnown || (reading line).completes

/-- The first line that stops the adapter is a failure it knows, or a completion with no text on it
and no failure up to it; and without one it is not the end of the connection that cuts the lines
off. -/
def Noticed (reading : Bytes → Reading) (lines : List Bytes) (cut : Cut) : Prop :=
  (lines.find? (stops reading)).elim (cut ≠ .closed) fun line =>
    (reading line).isKnown = true ∨
      (reading line).pieces = [] ∧ (reading line).fails = false ∧
        ∀ before ∈ lines.takeWhile fun line => !stops reading line, (reading before).fails = false

/-- The line handler notices what its adapter looks for, and sends the pieces of other lines. -/
structure Heeds {σ : Type} (onLine : OnLine σ) (reading : Bytes → Reading) : Prop where
  known : ∀ state line, (reading line).isKnown = true →
    (reading line).fails = true ∧ ∃ error, (onLine state line).2 = ([.error error], false)
  completes : ∀ state line, (reading line).completes = true →
    (reading line).isKnown = false ∧ ∃ front stats,
      (onLine state line).2 = (front ++ [.ok (.done stats)], false) ∧
        ∀ s ∈ front, isMiddle s = true ∧ isPiece s = false
  plain : ∀ state line, (reading line).isKnown = false → (reading line).completes = false →
    (onLine state line).2.2 = true ∧ (∀ s ∈ (onLine state line).2.1, isMiddle s = true) ∧
      (onLine state line).2.1.filter isPiece = (reading line).pieces.map Except.ok

section

variable {kind : Sent → Bool} {out rest : List Sent}

/-- Chunks in the middle do not change how an answer ends. -/
theorem endsWith_append_iff (hout : ∀ s ∈ out, isMiddle s = true)
    (hkind : ∀ s, kind s = true → isMiddle s = false) :
    EndsWith kind (out ++ rest) ↔ EndsWith kind rest := by
  constructor
  · rintro ⟨front, last, heq, hlast, hfront⟩
    rcases List.eq_nil_or_concat rest with rfl | ⟨front', last', rfl⟩
    · have hmem : last ∈ out := by
        rw [← List.append_nil out, heq]
        simp
      have hmiddle := hout last hmem
      rw [hkind last hlast] at hmiddle
      cases hmiddle
    · rw [List.concat_eq_append, ← List.append_assoc] at heq
      obtain ⟨hfronts, hsingle⟩ := List.append_inj' heq rfl
      obtain rfl := List.singleton_inj.1 hsingle
      refine ⟨front', last', List.concat_eq_append, hlast, fun t ht => ?_⟩
      exact hfront t (hfronts ▸ List.mem_append_right _ ht)
  · rintro ⟨front, last, rfl, hlast, hfront⟩
    refine ⟨out ++ front, last, (List.append_assoc _ _ _).symm, hlast, fun t ht => ?_⟩
    rcases List.mem_append.1 ht with ht | ht
    · exact hout t ht
    · exact hfront t ht

variable (s : Sent)

theorem endsWith_singleton_iff : EndsWith kind [s] ↔ kind s = true := by
  constructor
  · rintro ⟨front, last, heq, hlast, -⟩
    have hlength := congrArg List.length heq
    obtain rfl : front = [] := by
      rw [← List.length_eq_zero_iff]
      simpa using hlength.symm
    rw [List.singleton_inj.1 heq]
    exact hlast
  · intro h
    exact ⟨[], s, rfl, h, by simp⟩

theorem not_endsWith_nil : ¬ EndsWith kind [] := by
  rintro ⟨front, last, heq, -⟩
  simp at heq

theorem isMiddle_of_isDoneSent (h : isDoneSent s = true) : isMiddle s = false := by
  rcases s with error | chunk
  · cases h
  · cases chunk <;> first | rfl | cases h

theorem isMiddle_of_isErrorSent (h : isErrorSent s = true) : isMiddle s = false := by
  rcases s with error | chunk
  · rfl
  · cases h

/-- An answer that nothing stopped ends with an error unless the connection was closed. -/
theorem endsWith_cut_iff (errorPrefix : String) (cut : Cut) :
    EndsWith isErrorSent (cut.sent errorPrefix) ↔ cut ≠ .closed := by
  cases cut with
  | closed => exact iff_of_false not_endsWith_nil (by simp)
  | transport reason => exact iff_of_true ((endsWith_singleton_iff _).2 rfl) (by simp)
  | oversizedResponse => exact iff_of_true ((endsWith_singleton_iff _).2 rfl) (by simp)
  | oversizedLine => exact iff_of_true ((endsWith_singleton_iff _).2 rfl) (by simp)

end

/-! ## The walk -/

section

variable {σ : Type} {onLine : OnLine σ} {reading : Bytes → Reading} {errorPrefix : String}

/-- A walk ends with an error when the first line that stops it is a failure, or when none does
and the connection was not closed. -/
theorem walk_endsWithError_iff (h : Heeds onLine reading) (state : σ) (lines : List Bytes)
    (cut : Cut) :
    EndsWith isErrorSent (walk onLine errorPrefix state lines cut) ↔
      (lines.find? (stops reading)).elim (cut ≠ .closed) fun line =>
        (reading line).isKnown = true := by
  induction lines generalizing state with
  | nil =>
    rw [← endsWith_cut_iff errorPrefix]
    exact Iff.rfl
  | cons line lines ih =>
    rw [walk_cons, List.find?_cons]
    by_cases hknown : (reading line).isKnown = true
    · obtain ⟨-, error, hline⟩ := h.known state line hknown
      rw [hline]
      simp only [stops, hknown, Bool.true_or, Option.elim_some]
      exact iff_of_true ((endsWith_singleton_iff _).2 rfl) trivial
    · rw [Bool.not_eq_true] at hknown
      by_cases hcompletes : (reading line).completes = true
      · obtain ⟨-, front, stats, hline, hfront⟩ := h.completes state line hcompletes
        rw [hline]
        simp only [stops, hknown, hcompletes, Bool.or_true, Option.elim_some]
        refine iff_of_false (fun hends => ?_) (by simp)
        simp only [Bool.false_eq_true, if_false, List.append_nil] at hends
        rw [endsWith_append_iff (fun s hs => (hfront s hs).1) isMiddle_of_isErrorSent,
          endsWith_singleton_iff] at hends
        cases hends
      · rw [Bool.not_eq_true] at hcompletes
        obtain ⟨hgoes, hmiddle, -⟩ := h.plain state line hknown hcompletes
        simp only [stops, hknown, hcompletes, Bool.or_false, hgoes, if_true]
        rw [endsWith_append_iff hmiddle isMiddle_of_isErrorSent]
        exact ih _

theorem isMiddle_of_ending (b : Bool) (s : Sent)
    (h : (if b then isDoneSent else isErrorSent) s = true) : isMiddle s = false := by
  cases b with
  | false => exact isMiddle_of_isErrorSent s h
  | true => exact isMiddle_of_isDoneSent s h

variable {line : Bytes} {lines : List Bytes}

/-- Behind a failure the answer has to end with an error. -/
theorem isHonest_cons_of_fails {sent : List Sent} (h : (reading line).fails = true) :
    IsHonest reading (line :: lines) sent ↔ EndsWith isErrorSent sent := by
  simp [IsHonest, signalled, required, h]

/-- A completion is answered well if nothing was on its line. -/
theorem isHonest_completion_iff {front : List Sent} {stats : Option GenerationStats}
    (hfails : (reading line).fails = false) (hcompletes : (reading line).completes = true)
    (hfront : ∀ s ∈ front, isMiddle s = true ∧ isPiece s = false) :
    IsHonest reading (line :: lines) (front ++ [Except.ok (CapabilityChunk.done stats)]) ↔
      (reading line).pieces = [] := by
  have hends : EndsWith isDoneSent (front ++ [Except.ok (CapabilityChunk.done stats)]) :=
    ⟨front, _, rfl, rfl, fun s hs => (hfront s hs).1⟩
  have hnone : (front ++ [Except.ok (CapabilityChunk.done stats)]).filter isPiece = [] := by
    refine List.filter_eq_nil_iff.2 fun s hs => ?_
    rcases List.mem_append.1 hs with hs | hs
    · simp [(hfront s hs).2]
    · rw [List.mem_singleton.1 hs]
      simp [isPiece]
  simp only [IsHonest, signalled, required, hfails, hcompletes, Bool.false_eq_true, if_false,
    if_true, hends, hnone, true_and]
  simp

/-- Another line adds its pieces, and leaves the rest to those behind it. -/
theorem isHonest_cons_of_plain {out rest : List Sent} (hfails : (reading line).fails = false)
    (hcompletes : (reading line).completes = false) (hmiddle : ∀ s ∈ out, isMiddle s = true)
    (hpieces : out.filter isPiece = (reading line).pieces.map Except.ok) :
    IsHonest reading (line :: lines) (out ++ rest) ↔ IsHonest reading lines rest := by
  simp only [IsHonest, signalled, required, hfails, hcompletes, Bool.false_eq_true, if_false]
  rw [endsWith_append_iff hmiddle (isMiddle_of_ending _), List.filter_append, hpieces,
    List.map_append, List.prefix_append_right_inj]

theorem noticed_cons_of_plain {cut : Cut} (hstops : stops reading line = false) :
    Noticed reading (line :: lines) cut ↔
      if (reading line).fails then
        (lines.find? (stops reading)).elim (cut ≠ .closed) fun line =>
          (reading line).isKnown = true
      else Noticed reading lines cut := by
  rw [Noticed, List.find?_cons, hstops]
  cases hfails : (reading line).fails with
  | false =>
    rw [Noticed]
    cases lines.find? (stops reading) with
    | none => simp
    | some found => simp [hstops, hfails]
  | true =>
    cases lines.find? (stops reading) with
    | none => simp
    | some found => simp [hstops, hfails]

/-- A walk is honest exactly when the adapter notices what the lines say. -/
theorem walk_honest_iff (h : Heeds onLine reading) (state : σ) (lines : List Bytes) (cut : Cut) :
    IsHonest reading lines (walk onLine errorPrefix state lines cut) ↔
      Noticed reading lines cut := by
  induction lines generalizing state with
  | nil =>
    have hcut := endsWith_cut_iff errorPrefix cut
    simpa [IsHonest, signalled, required, Noticed, walk, feed] using hcut
  | cons line lines ih =>
    cases hstops : stops reading line with
    | false =>
      obtain ⟨hknown, hcompletes⟩ : (reading line).isKnown = false ∧
          (reading line).completes = false := by simpa [stops] using hstops
      obtain ⟨hgoes, hmiddle, hpieces⟩ := h.plain state line hknown hcompletes
      rw [noticed_cons_of_plain hstops, walk_cons, hgoes, if_pos rfl]
      cases hfails : (reading line).fails with
      | true =>
        rw [isHonest_cons_of_fails hfails, endsWith_append_iff hmiddle isMiddle_of_isErrorSent,
          walk_endsWithError_iff h]
        simp
      | false =>
        rw [isHonest_cons_of_plain hfails hcompletes hmiddle hpieces, ih]
        simp
    | true =>
      rw [walk_cons, Noticed, List.find?_cons, hstops]
      simp only [Option.elim_some]
      cases hknown : (reading line).isKnown with
      | true =>
        obtain ⟨hfails, error, hline⟩ := h.known state line hknown
        rw [isHonest_cons_of_fails hfails, hline]
        exact iff_of_true ((endsWith_singleton_iff _).2 rfl) (.inl rfl)
      | false =>
        have hcompletes : (reading line).completes = true := by simpa [stops, hknown] using hstops
        obtain ⟨-, front, stats, hline, hfront⟩ := h.completes state line hcompletes
        rw [hline]
        simp only [Bool.false_eq_true, if_false, List.append_nil, false_or]
        cases hfails : (reading line).fails with
        | true =>
          refine iff_of_false (fun hhonest => ?_) (by simp)
          rw [isHonest_cons_of_fails hfails,
            endsWith_append_iff (fun s hs => (hfront s hs).1) isMiddle_of_isErrorSent,
            endsWith_singleton_iff] at hhonest
          cases hhonest
        | false =>
          rw [isHonest_completion_iff hfails hcompletes hfront]
          simp [hstops]

end

/-! ## The two adapters -/

section

variable {f : Foreign}

variable {chunks : List CapabilityChunk} {chunk : CapabilityChunk}

theorem sendChunks_middle (h : ∀ chunk ∈ chunks, isDone chunk = false) :
    sendChunks chunks = (chunks.map Except.ok, true) := by
  induction chunks with
  | nil => rfl
  | cons chunk chunks ih =>
    rw [sendChunks, h chunk (.head _), ih fun c hc => h c (.tail _ hc)]
    rfl

theorem sendChunks_done (h : ∀ chunk ∈ chunks, isDone chunk = false)
    (stats : Option GenerationStats) :
    sendChunks (chunks ++ [CapabilityChunk.done stats]) =
      (chunks.map Except.ok ++ [Except.ok (CapabilityChunk.done stats)], false) := by
  induction chunks with
  | nil => rfl
  | cons chunk chunks ih =>
    rw [List.cons_append, sendChunks, h chunk (.head _), ih fun c hc => h c (.tail _ hc)]
    rfl

def isToolCall : CapabilityChunk → Bool
  | .toolCall _ => true
  | _ => false

theorem isDone_of_isToolCall (h : isToolCall chunk = true) : isDone chunk = false := by
  cases chunk <;> first | rfl | cases h

theorem callsOf_toolCalls (ids : ℕ) (fragments : List ToolFragment) :
    ∀ chunk ∈ (callsOf f ids fragments).2, isToolCall chunk = true := by
  induction fragments generalizing ids with
  | nil => simp [callsOf]
  | cons fragment fragments ih =>
    rw [callsOf]
    split
    · exact ih ids
    · split
      · simpa [isToolCall] using ih ids
      · simpa [isToolCall] using ih (ids + 1)

theorem ollamaCall_toolCall {ids : ℕ} {entry : JsonValue}
    (h : ollamaCall f ids entry = some chunk) : isToolCall chunk = true := by
  rw [ollamaCall] at h
  simp only [Option.bind_eq_bind, Option.bind_eq_some_iff, Option.some.injEq] at h
  obtain ⟨-, -, -, -, rfl⟩ := h
  rfl

theorem ollamaCalls_toolCalls (ids : ℕ) (entries : List JsonValue) :
    ∀ chunk ∈ (ollamaCalls f ids entries).2, isToolCall chunk = true := by
  induction entries generalizing ids with
  | nil => simp [ollamaCalls]
  | cons entry entries ih =>
    rw [ollamaCalls]
    split
    · exact ih ids
    · rename_i call hcall
      simpa [ollamaCall_toolCall hcall] using ih (ids + 1)

theorem sent_of_isToolCall (h : isToolCall chunk = true) :
    isMiddle (.ok chunk) = true ∧ isPiece (.ok chunk) = false := by
  cases chunk <;> first | exact ⟨rfl, rfl⟩ | cases h

theorem filter_toolCalls {calls : List CapabilityChunk}
    (h : ∀ chunk ∈ calls, isToolCall chunk = true) :
    (calls.map Except.ok).filter isPiece = [] := by
  refine List.filter_eq_nil_iff.2 fun s hs => ?_
  obtain ⟨chunk, hchunk, rfl⟩ := List.mem_map.1 hs
  simp [(sent_of_isToolCall (h chunk hchunk)).2]

/-- A piece is thinking or text. -/
def isPieceChunk : CapabilityChunk → Bool
  | .text _ | .thinking _ => true
  | _ => false

theorem optional_pieces (thought text : Option String) :
    ∀ chunk ∈ (thought.map CapabilityChunk.thinking).toList ++
      (text.map CapabilityChunk.text).toList, isPieceChunk chunk = true := by
  cases thought <;> cases text <;> simp [isPieceChunk]

theorem sent_of_isPieceChunk (h : isPieceChunk chunk = true) :
    isMiddle (.ok chunk) = true ∧ isPiece (.ok chunk) = true ∧ isDone chunk = false := by
  cases chunk <;> first | exact ⟨rfl, rfl, rfl⟩ | cases h

theorem filter_pieces {pieces : List CapabilityChunk}
    (h : ∀ chunk ∈ pieces, isPieceChunk chunk = true) :
    (pieces.map Except.ok).filter isPiece = pieces.map Except.ok := by
  refine List.filter_eq_self.2 fun s hs => ?_
  obtain ⟨chunk, hchunk, rfl⟩ := List.mem_map.1 hs
  exact (sent_of_isPieceChunk (h chunk hchunk)).2.1

/-- The chunks of an object are its pieces, and then calls. -/
theorem parseObject_chunks (parser : OpenAiStreamParser) (object : JsonValue) :
    ∃ calls, (∀ chunk ∈ calls, isToolCall chunk = true) ∧
      (parser.parseObject f object).2 = (firstChoice object).elim [] deltaChunks ++ calls := by
  rw [OpenAiStreamParser.parseObject]
  cases firstChoice object with
  | none => exact ⟨[], by simp, rfl⟩
  | some choice =>
    simp only [Option.elim_some]
    cases nonEmpty (choice.get "finish_reason") with
    | none => exact ⟨[], by simp, by simp⟩
    | some reason => exact ⟨_, callsOf_toolCalls _ _, rfl⟩

/-- What is sent for pieces and calls. -/
theorem sent_pieces_calls {pieces calls : List CapabilityChunk}
    (hpieces : ∀ chunk ∈ pieces, isPieceChunk chunk = true)
    (hcalls : ∀ chunk ∈ calls, isToolCall chunk = true) :
    (∀ chunk ∈ pieces ++ calls, isDone chunk = false ∧ isMiddle (.ok chunk) = true) ∧
      ((pieces ++ calls).map Except.ok).filter isPiece = pieces.map Except.ok ∧
      ((calls ++ pieces).map Except.ok).filter isPiece = pieces.map Except.ok := by
  refine ⟨fun chunk hchunk => ?_, ?_, ?_⟩
  · rcases List.mem_append.1 hchunk with h | h
    · exact ⟨(sent_of_isPieceChunk (hpieces chunk h)).2.2,
        (sent_of_isPieceChunk (hpieces chunk h)).1⟩
    · exact ⟨isDone_of_isToolCall (hcalls chunk h), (sent_of_isToolCall (hcalls chunk h)).1⟩
  · rw [List.map_append, List.filter_append, filter_pieces hpieces, filter_toolCalls hcalls,
      List.append_nil]
  · rw [List.map_append, List.filter_append, filter_pieces hpieces, filter_toolCalls hcalls,
      List.nil_append]

theorem forall_ok {p : Sent → Prop}
    (h : ∀ chunk ∈ chunks, p (.ok chunk)) : ∀ s ∈ chunks.map Except.ok, p s := by
  intro s hs
  obtain ⟨chunk, hchunk, rfl⟩ := List.mem_map.1 hs
  exact h chunk hchunk

theorem openAI_heeds : Heeds (forwardOpenAI f) (readingOpenAI f) := by
  refine ⟨fun parser line hknown => ?_, fun parser line hcompletes => ?_,
    fun parser line _ hcompletes => ?_⟩
  · -- it looks for no failure
    unfold readingOpenAI at hknown
    split at hknown
    · cases hknown
    · split at hknown
      · cases hknown
      · split at hknown <;> cases hknown
  · unfold readingOpenAI at hcompletes ⊢
    cases hutf : fromUtf8 line with
    | none =>
      rw [hutf] at hcompletes
      cases hcompletes
    | some text =>
      rw [hutf] at hcompletes
      simp only [Option.bind_some] at hcompletes ⊢
      cases hpayload : payload text with
      | none =>
        rw [hpayload] at hcompletes
        cases hcompletes
      | some inner =>
        rw [hpayload] at hcompletes
        simp only at hcompletes ⊢
        by_cases hdone : inner = "[DONE]"
        · rw [if_pos hdone]
          refine ⟨rfl, (parser.flushToolCalls f).2.map Except.ok,
            some ((parser.flushToolCalls f).1.stats f), ?_, ?_⟩
          · simp only [forwardOpenAI, hutf, OpenAiStreamParser.parse, hpayload, if_pos hdone]
            exact sendChunks_done
              (fun chunk hchunk => isDone_of_isToolCall (callsOf_toolCalls _ _ chunk hchunk)) _
          · exact forall_ok fun chunk hchunk =>
              sent_of_isToolCall (callsOf_toolCalls _ _ chunk hchunk)
        · rw [if_neg hdone] at hcompletes
          split at hcompletes <;> cases hcompletes
  · unfold readingOpenAI at hcompletes ⊢
    cases hutf : fromUtf8 line with
    | none => simp [forwardOpenAI, hutf]
    | some text =>
      rw [hutf] at hcompletes
      simp only [Option.bind_some] at hcompletes ⊢
      cases hpayload : payload text with
      | none => simp [forwardOpenAI, hutf, OpenAiStreamParser.parse, hpayload, sendChunks]
      | some inner =>
        rw [hpayload] at hcompletes
        simp only at hcompletes ⊢
        by_cases hdone : inner = "[DONE]"
        · rw [if_pos hdone] at hcompletes
          cases hcompletes
        · simp only [forwardOpenAI, hutf, OpenAiStreamParser.parse, hpayload, if_neg hdone]
          rcases hjson : f.fromStr inner with _ | value
          · simp [sendChunks]
          cases value with
          | object fields =>
            simp only
            obtain ⟨calls, hcalls, hchunks⟩ := parseObject_chunks (f := f) parser (.object fields)
            have hpieces : ∀ chunk ∈ (firstChoice (.object fields)).elim [] deltaChunks,
                isPieceChunk chunk = true := by
              cases firstChoice (.object fields) with
              | none => simp
              | some choice => exact optional_pieces _ _
            obtain ⟨hmiddle, hfilter, -⟩ := sent_pieces_calls hpieces hcalls
            rw [hchunks, sendChunks_middle fun chunk hchunk => (hmiddle chunk hchunk).1]
            exact ⟨rfl, forall_ok fun chunk hchunk => (hmiddle chunk hchunk).2, hfilter⟩
          | null | bool _ | int _ | double _ | string _ | array _ => simp [sendChunks]

theorem ollama_heeds : Heeds (forwardOllama f) (readingOllama f) := by
  refine ⟨fun ids line hknown => ?_, fun ids line hcompletes => ?_,
    fun ids line hknown hcompletes => ?_⟩
  all_goals
    unfold readingOllama at *
    unfold forwardOllama
  · cases hline : f.fromSlice line with
    | none => simp [hline] at hknown
    | some value =>
      cases value with
      | object fields =>
        simp only [hline, Option.isSome_iff_exists] at hknown ⊢
        obtain ⟨message, hmessage⟩ := hknown
        simp only [forwardObject, hmessage]
        refine ⟨?_, _, rfl⟩
        rw [hasError]
        cases herror : (JsonValue.object fields).get "error" with
        | none => simp [herror, nonEmpty] at hmessage
        | some value =>
          cases value with
          | null => simp [herror, nonEmpty, JsonValue.asStr] at hmessage
          | bool _ | int _ | double _ | string _ | array _ | object _ => rfl
      | null | bool _ | int _ | double _ | string _ | array _ => simp [hline] at hknown
  · cases hline : f.fromSlice line with
    | none => simp [hline] at hcompletes
    | some value =>
      cases value with
      | object fields =>
        simp only [hline, Bool.and_eq_true, decide_eq_true_eq, Bool.not_eq_true',
          Option.isSome_eq_false_iff, Option.isNone_iff_eq_none] at hcompletes ⊢
        obtain ⟨hdone, hknown⟩ := hcompletes
        simp only [forwardObject, hknown, hdone, if_true]
        exact ⟨trivial, _, _, rfl, forall_ok fun chunk hchunk =>
          sent_of_isToolCall (ollamaCalls_toolCalls _ _ chunk hchunk)⟩
      | null | bool _ | int _ | double _ | string _ | array _ => simp [hline] at hcompletes
  · cases hline : f.fromSlice line with
    | none => simp
    | some value =>
      cases value with
      | object fields =>
        simp only [hline] at hknown hcompletes ⊢
        simp only [Option.isSome_eq_false_iff, Option.isNone_iff_eq_none] at hknown
        simp only [hknown, Option.isSome_none, Bool.not_false, Bool.and_true,
          decide_eq_false_iff_not] at hcompletes
        simp only [forwardObject, hknown, if_neg hcompletes]
        have hpieces := optional_pieces
          (nonEmpty ((objectField (.object fields) "message").bind (·.get "thinking")))
          (nonEmpty ((objectField (.object fields) "message").bind (·.get "content")))
        obtain ⟨hmiddle, -, hfilter⟩ := sent_pieces_calls hpieces
          (ollamaCalls_toolCalls (f := f) ids _)
        refine ⟨trivial, forall_ok fun chunk hchunk => (hmiddle chunk ?_).2, hfilter⟩
        rw [List.mem_append] at hchunk ⊢
        exact hchunk.symm
      | null | bool _ | int _ | double _ | string _ | array _ => simp

end

/-- For every server, every chunking and every end of the connection: the answer ends with one
`Done` if the server said it was complete, with one error if not, and with all the text up to
there, exactly when the adapter notices what the lines say. -/
theorem upstream_answer_honest_iff (f : Foreign) (server : Server) (chunks : List Bytes)
    (ending : Ending) :
    IsHonest (server.reading f) (arrive [] 0 chunks ending).1 (answer f chunks ending server) ↔
      Noticed (server.reading f) (arrive [] 0 chunks ending).1 (arrive [] 0 chunks ending).2 := by
  cases server with
  | openAI =>
    rw [answer, readLines_eq]
    exact walk_honest_iff openAI_heeds _ _ _
  | ollama =>
    rw [answer, readLines_eq]
    exact walk_honest_iff ollama_heeds _ _ _

/-! ## A connection that is closed -/

def utf8 (text : String) : Bytes := text.toByteArray.data.toList

theorem fromUtf8_utf8 (text : String) : fromUtf8 (utf8 text) = some text := by
  have hbytes : (⟨(utf8 text).toArray⟩ : ByteArray) = text.toByteArray := by simp [utf8]
  have hvalid := text.isValidUTF8
  rw [fromUtf8, hbytes, String.fromUTF8?]
  simp [hvalid, String.fromUTF8]

theorem utf8_ofList (chars : List Char) :
    utf8 (String.ofList chars) = chars.flatMap String.utf8EncodeChar := by
  rw [utf8, String.toByteArray_ofList, List.utf8Encode, List.data_toByteArray]

theorem utf8_append (front behind : String) :
    utf8 (front ++ behind) = utf8 front ++ utf8 behind := by
  simp [utf8]

/-- The text behind `data:`, where it has no blanks at its ends. -/
theorem payload_of_trim {line : String} {text : List Char}
    (hline : trim line.toList = "data:".toList ++ ' ' :: text)
    (htext : trim (' ' :: text) = text) : payload line = some (String.ofList text) := by
  have hlength : "data:".toList.length = 5 := by
    rw [String.toList_ofList]
    rfl
  have hstarts : "data:".toList.isPrefixOf (trim line.toList) = true := by
    rw [hline, List.isPrefixOf_iff_prefix]
    exact List.prefix_append _ _
  rw [payload, if_pos hstarts, hline, List.drop_left' hlength, htext]

def onceText : String := "\x7b\"choices\":[\x7b\"delta\":\x7b\"content\":\"Once\"\x7d\x7d]\x7d"

def onceObject : JsonValue :=
  .object [("choices", .array [.object [("delta", .object [("content", .string "Once")])]])]

/-- What is outside, for that one line. -/
def onceRead : Foreign where
  fromStr text := if text = onceText then some onceObject else none
  fromSlice _ := none
  roundMs _ := none
  nanosToMs ns := ns / 1000000
  newCallId n := "call_" ++ toString n
  elapsedMs := 0

def onceLine : Bytes := ("data: " ++ onceText ++ "\n").toList.map fun c => UInt8.ofNat c.toNat

/-- The first word arrives and the connection is closed: the answer is that word, and nothing tells
it from a complete one but the `Done` that is not there. -/
theorem closed_connection_is_silent :
    answer onceRead [onceLine] .closed .openAI = [.ok (.text "Once")] ∧
      ¬ IsHonest (Server.openAI.reading onceRead) (arrive [] 0 [onceLine] .closed).1
        (answer onceRead [onceLine] .closed .openAI) := by
  have hline : onceLine = utf8 ("data: " ++ onceText ++ "\n") ∧
      arrive [] 0 [onceLine] .closed = ([onceLine, []], .closed) := by
    unfold onceLine onceText
    repeat rw [utf8_append]
    repeat rw [String.toList_append]
    -- character lists evaluate faster than string literals
    repeat rw [utf8_ofList]
    repeat rw [String.toList_ofList]
    decide +kernel
  have htrims : trim ("data: " ++ onceText ++ "\n").toList =
      "data:".toList ++ ' ' :: onceText.toList ∧
      trim (' ' :: onceText.toList) = onceText.toList ∧ onceText.toList ≠ "[DONE]".toList := by
    unfold onceText
    repeat rw [String.toList_append]
    repeat rw [String.toList_ofList]
    decide +kernel
  have harrive := hline.2
  have htext : fromUtf8 onceLine = some ("data: " ++ onceText ++ "\n") :=
    (congrArg fromUtf8 hline.1).trans (fromUtf8_utf8 _)
  have hempty : fromUtf8 [] = some "" := fromUtf8_utf8 ""
  have hpayload : payload ("data: " ++ onceText ++ "\n") = some onceText := by
    rw [payload_of_trim htrims.1 htrims.2.1, String.ofList_toList]
  have hnone : payload "" = none := by decide +kernel
  have hnotDone : onceText ≠ "[DONE]" := fun h => htrims.2.2 (congrArg String.toList h)
  have hanswer : answer onceRead [onceLine] .closed .openAI = [.ok (.text "Once")] := by
    rw [answer, readLines_eq, harrive]
    simp only [walk, feed, forwardOpenAI, htext, hempty, OpenAiStreamParser.parse, hpayload, hnone,
      if_neg hnotDone, onceRead, if_pos, onceObject]
    rfl
  have hsignal : signalled (Server.openAI.reading onceRead) (arrive [] 0 [onceLine] .closed).1 =
      false := by
    rw [harrive]
    simp only [signalled, Server.reading, readingOpenAI, htext, hempty, Option.bind_some, hpayload,
      hnone, if_neg hnotDone, onceRead, if_pos, onceObject]
    rfl
  refine ⟨hanswer, fun hhonest => ?_⟩
  rw [IsHonest, hsignal, hanswer] at hhonest
  have hlast := (endsWith_singleton_iff _).1 hhonest.1
  cases hlast

end Hedos.Upstream
