import Hedos.Upstream.Ends
import Mathlib.Data.Finset.Sort

/-!
# Calls put together again

The answer of an OpenAI-compatible server comes in chunks of bytes, these in lines, a line may carry
some pieces of tool calls, and a call is the pieces with its index.

* below the limits the lines that arrive are those of the bytes, whatever the chunks
  (`arrive_within`);
* the fragments the parser keeps are the pieces since the last flush, joined by index (`Gathered`,
  kept by a line: `forward_gathered`);
* a flush sends one call for each index with a name, in order (`callsOf_emitted`).
-/

namespace Hedos.Upstream

open Hedos.Kernel (JsonValue GenerationStats ToolCall CapabilityChunk RuntimeError)

/-! ## Below the limits -/

/-- The bytes, their lines and what is behind the last line are not too long. -/
structure WithinLimits (bytes : Bytes) : Prop where
  total : bytes.length ≤ maxResponseBytes
  /-- A line with its newline. -/
  lines : ∀ line ∈ (splitLines bytes).1, line.length ≤ maxLineBytes + 1
  tail : (splitLines bytes).2.length ≤ maxLineBytes

/-- The lines of the bytes, and what is behind the last one if the connection is closed. -/
def linesOf (bytes : Bytes) : Ending → List Bytes
  | .closed => (splitLines bytes).1 ++ [(splitLines bytes).2]
  | .transport _ => (splitLines bytes).1

def Ending.cut : Ending → Cut
  | closed => .closed
  | transport reason => .transport reason

theorem ne_of_splitLines_self {byte : UInt8} {rest : Bytes}
    (h : splitLines (byte :: rest) = ([], byte :: rest)) :
    byte ≠ 10 ∧ splitLines rest = ([], rest) := by
  have hbyte : byte ≠ 10 := by
    rintro rfl
    rw [splitLines, if_pos rfl] at h
    cases congrArg Prod.fst h
  refine ⟨hbyte, ?_⟩
  rw [splitLines_cons_of_ne hbyte] at h
  rcases hsplit : splitLines rest with ⟨lines, tail⟩
  rw [hsplit] at h
  cases lines with
  | nil => simpa using h
  | cons line lines => simp at h

/-- Bytes without a newline are the front of the first line behind them, or of the rest. -/
theorem splitLines_append_of_self {front : Bytes} (h : splitLines front = ([], front))
    (bytes : Bytes) :
    splitLines (front ++ bytes) =
      ((splitLines bytes).1.modifyHead (front ++ ·),
        if (splitLines bytes).1.isEmpty then front ++ (splitLines bytes).2
        else (splitLines bytes).2) := by
  induction front with
  | nil =>
    rw [List.nil_append]
    rcases splitLines bytes with ⟨lines, tail⟩
    cases lines <;> rfl
  | cons byte front ih =>
    obtain ⟨hbyte, hfront⟩ := ne_of_splitLines_self h
    rw [List.cons_append, splitLines_cons_of_ne hbyte, ih hfront]
    rcases splitLines bytes with ⟨lines, tail⟩
    cases lines <;> rfl

theorem splitLines_ne_nil (bytes : Bytes) : ∀ line ∈ (splitLines bytes).1, line ≠ [] := by
  induction bytes with
  | nil => simp [splitLines]
  | cons byte rest ih =>
    by_cases hbyte : byte = 10
    · rw [splitLines, if_pos hbyte]
      intro line hline
      rcases List.mem_cons.1 hline with rfl | hline
      · exact List.cons_ne_nil _ _
      · exact ih line hline
    · rw [splitLines_cons_of_ne hbyte]
      rcases hsplit : splitLines rest with ⟨lines, tail⟩
      rw [hsplit] at ih
      cases lines with
      | nil => simp
      | cons first lines =>
        intro line hline
        rcases List.mem_cons.1 hline with rfl | hline
        · exact List.cons_ne_nil _ _
        · exact ih line (.tail _ hline)

/-- What is in the buffer is part of a line, so it is not too long if no line is. -/
theorem buffer_within {buffer : Bytes} (hbuffer : splitLines buffer = ([], buffer)) {bytes : Bytes}
    (hlines : ∀ line ∈ (splitLines (buffer ++ bytes)).1, line.length ≤ maxLineBytes + 1)
    (htail : (splitLines (buffer ++ bytes)).2.length ≤ maxLineBytes) :
    buffer.length ≤ maxLineBytes := by
  have hne := splitLines_ne_nil bytes
  rw [splitLines_append_of_self hbuffer] at hlines htail
  rcases hsplit : splitLines bytes with ⟨lines, tail⟩
  rw [hsplit] at hne hlines htail
  cases lines with
  | nil =>
    simp only [List.isEmpty_nil, if_true, List.length_append] at htail
    omega
  | cons line lines =>
    have hline := hlines (buffer ++ line) (.head _)
    have hpos := List.length_pos_iff.2 (hne line (.head _))
    rw [List.length_append] at hline
    omega

/-- Below the limits only the end of the response cuts the lines off. -/
theorem arrive_within {buffer : Bytes} (hbuffer : splitLines buffer = ([], buffer)) (total : ℕ)
    (chunks : List Bytes) (ending : Ending)
    (htotal : total + chunks.flatten.length ≤ maxResponseBytes)
    (hlines : ∀ line ∈ (splitLines (buffer ++ chunks.flatten)).1, line.length ≤ maxLineBytes + 1)
    (htail : (splitLines (buffer ++ chunks.flatten)).2.length ≤ maxLineBytes) :
    arrive buffer total chunks ending =
      (linesOf (buffer ++ chunks.flatten) ending, ending.cut) := by
  induction chunks generalizing buffer total with
  | nil => cases ending <;> simp [arrive, linesOf, hbuffer, Ending.cut]
  | cons bytes chunks ih =>
    have happend := splitLines_append (buffer ++ bytes) chunks.flatten
    have hrest := splitLines_rest (buffer ++ bytes)
    rw [List.flatten_cons, List.length_append] at htotal
    rw [List.flatten_cons, ← List.append_assoc] at hlines htail ⊢
    rw [happend] at hlines htail
    rcases hsplit : splitLines (buffer ++ bytes) with ⟨lines, rest⟩
    simp only [hsplit] at hrest happend hlines htail
    have hmore : ∀ line ∈ (splitLines (rest ++ chunks.flatten)).1,
        line.length ≤ maxLineBytes + 1 := fun line hline =>
      hlines line (List.mem_append_right _ hline)
    have hshort := buffer_within hrest hmore htail
    simp only [arrive, hsplit]
    rw [if_neg (by omega), if_neg (by omega),
      ih hrest (total + bytes.length) (by omega) hmore htail]
    cases ending with
    | closed =>
      rw [linesOf, linesOf, happend, List.append_assoc]
    | transport reason =>
      rw [linesOf, linesOf, happend]

/-- Below the limits the answer is a walk through the lines of the bytes. -/
theorem answer_within (f : Foreign) {chunks : List Bytes} (ending : Ending)
    (h : WithinLimits chunks.flatten) :
    answer f chunks ending .openAI =
      walk (forwardOpenAI f) "endpoint" {} (linesOf chunks.flatten ending) ending.cut := by
  have harrive := @arrive_within [] rfl 0 chunks ending (by simpa using h.total) h.lines h.tail
  rw [answer, readLines_eq, harrive]
  rfl

/-! ## Pieces of calls -/

/-- What one entry of `tool_calls` adds to the call at its index. -/
structure Piece where
  index : ℤ
  /-- An id that is not empty. -/
  id : Option String
  name : String
  arguments : String
deriving DecidableEq

def pieceOf (entry : JsonValue) : Option Piece :=
  match entry with
  | .object _ =>
    let function := objectField entry "function"
    some
      { index := ((entry.get "index").bind JsonValue.asI64).getD 0
        id := nonEmpty (entry.get "id")
        name := ((function.bind (·.get "name")).bind JsonValue.asStr).getD ""
        arguments := ((function.bind (·.get "arguments")).bind JsonValue.asStr).getD "" }
  | _ => none

/-- The object on a line with data, unless it is the end of the answer. -/
def objectOn (f : Foreign) (line : Bytes) : Option JsonValue :=
  match (fromUtf8 line).bind payload with
  | none => none
  | some text =>
    if text = "[DONE]" then none
    else (f.fromStr text).filter fun value => value.asObject.isSome

def isDoneLine (line : Bytes) : Bool :=
  (fromUtf8 line).bind payload == some "[DONE]"

/-- The first choice on a line. -/
def choiceOn (f : Foreign) (line : Bytes) : Option JsonValue := (objectOn f line).bind firstChoice

def piecesOf (choice : JsonValue) : List Piece :=
  ((((objectField choice "delta").bind (·.get "tool_calls")).bind JsonValue.asArray).getD
    []).filterMap pieceOf

/-- There is a finish reason. -/
def finishes (choice : JsonValue) : Bool := (nonEmpty (choice.get "finish_reason")).isSome

/-- The pieces on a line, in order. -/
def piecesOn (f : Foreign) (line : Bytes) : List Piece := (choiceOn f line).elim [] piecesOf

/-- A line with `[DONE]`, or with a finish reason. -/
def flushes (f : Foreign) (line : Bytes) : Bool := isDoneLine line || (choiceOn f line).any finishes

/-- The pieces since the last flush, behind a line. -/
def pendingAfter (f : Foreign) (pending : List Piece) (line : Bytes) : List Piece :=
  if flushes f line then [] else pending ++ piecesOn f line

/-- The pieces of each flush, up to the end of the answer. -/
def flushGroups (f : Foreign) : List Piece → List Bytes → List (List Piece)
  | _, [] => []
  | pending, line :: lines =>
    if isDoneLine line then [pending ++ piecesOn f line]
    else if flushes f line then (pending ++ piecesOn f line) :: flushGroups f [] lines
    else flushGroups f (pending ++ piecesOn f line) lines

def piecesAt (pieces : List Piece) (index : ℤ) : List Piece :=
  pieces.filter fun piece => piece.index = index

def joinedName (pieces : List Piece) (index : ℤ) : String :=
  String.join ((piecesAt pieces index).map (·.name))

def joinedArguments (pieces : List Piece) (index : ℤ) : String :=
  String.join ((piecesAt pieces index).map (·.arguments))

/-- The id given last. -/
def lastId (pieces : List Piece) (index : ℤ) : Option String :=
  ((piecesAt pieces index).filterMap (·.id)).getLast?

/-- The indices at which there is a name, in increasing order. -/
def namedIndices (pieces : List Piece) : List ℤ :=
  ((pieces.filter fun piece => piece.name ≠ "").map (·.index)).toFinset.sort (· ≤ ·)

/-- The call that the pieces with an index make: one without an id is given a new one. -/
structure IsCall (f : Foreign) (pieces : List Piece) (index : ℤ) (call : ToolCall) : Prop where
  name : call.name = joinedName pieces index
  arguments : call.arguments = parseToolArguments f (joinedArguments pieces index)
  id : ∀ id, lastId pieces index = some id → call.id = id
  newId : lastId pieces index = none → ∃ n, call.id = f.newCallId n

/-- One call for each index at which there is a name, in increasing order. -/
def Emitted (f : Foreign) (pieces : List Piece) (calls : List ToolCall) : Prop :=
  List.Forall₂ (IsCall f pieces) (namedIndices pieces) calls

/-- The calls among what is sent. -/
def callsSent (sent : List Sent) : List ToolCall :=
  sent.filterMap fun
    | .ok (.toolCall call) => some call
    | _ => none

/-! ## The fragments kept -/

/-- What a piece does to the fragment at its index. -/
def Piece.change (piece : Piece) (fragment : ToolFragment) : ToolFragment :=
  { id := piece.id <|> fragment.id
    name := fragment.name ++ piece.name
    arguments := fragment.arguments ++ piece.arguments }

/-- The pieces at an index, joined. -/
def joined (pieces : List Piece) (index : ℤ) : ToolFragment :=
  { id := lastId pieces index
    name := joinedName pieces index
    arguments := joinedArguments pieces index }

/-- The fragments are the pieces, joined by index. -/
structure Gathered (pieces : List Piece) (fragments : List (ℤ × ToolFragment)) : Prop where
  sorted : (fragments.map Prod.fst).Pairwise (· < ·)
  indices : ∀ index, index ∈ fragments.map Prod.fst ↔ index ∈ pieces.map (·.index)
  values : ∀ entry ∈ fragments, entry.2 = joined pieces entry.1

section

open OpenAiStreamParser

variable {pieces : List Piece} {index : ℤ} {fragments : List (ℤ × ToolFragment)}
  {object : JsonValue} {line : Bytes}

theorem joined_of_notMem (h : index ∉ pieces.map (·.index)) : joined pieces index = {} := by
  have hnone : piecesAt pieces index = [] := by
    refine List.filter_eq_nil_iff.2 fun piece hpiece heq => h ?_
    exact List.mem_map.2 ⟨piece, hpiece, of_decide_eq_true heq⟩
  simp [joined, lastId, joinedName, joinedArguments, hnone]

theorem joined_append_self (pieces : List Piece) (piece : Piece) :
    joined (pieces ++ [piece]) piece.index = piece.change (joined pieces piece.index) := by
  have hat : piecesAt (pieces ++ [piece]) piece.index =
      piecesAt pieces piece.index ++ [piece] := by simp [piecesAt]
  simp only [joined, lastId, joinedName, joinedArguments, hat, Piece.change]
  cases hid : piece.id <;> simp [hid, String.join]

theorem joined_append_of_ne (pieces : List Piece) {piece : Piece}
    (h : piece.index ≠ index) : joined (pieces ++ [piece]) index = joined pieces index := by
  have hat : piecesAt (pieces ++ [piece]) index = piecesAt pieces index := by simp [piecesAt, h]
  simp only [joined, lastId, joinedName, joinedArguments, hat]

theorem mem_keys_upsert (index : ℤ) (change : ToolFragment → ToolFragment)
    (fragments : List (ℤ × ToolFragment)) (key : ℤ) :
    key ∈ (upsert index change fragments).map Prod.fst ↔
      key = index ∨ key ∈ fragments.map Prod.fst := by
  induction fragments with
  | nil => simp [upsert]
  | cons entry fragments ih =>
    rcases entry with ⟨i, fragment⟩
    rw [upsert]
    split
    · rename_i heq
      simp [heq]
    · split
      · simp
      · rw [List.map_cons, List.mem_cons, ih, List.map_cons, List.mem_cons]
        exact or_left_comm

theorem upsert_sorted (index : ℤ) (change : ToolFragment → ToolFragment)
    (h : (fragments.map Prod.fst).Pairwise (· < ·)) :
    ((upsert index change fragments).map Prod.fst).Pairwise (· < ·) := by
  induction fragments with
  | nil => simp [upsert]
  | cons entry fragments ih =>
    rcases entry with ⟨i, fragment⟩
    obtain ⟨hfirst, hrest⟩ := List.pairwise_cons.1 h
    rw [upsert]
    split
    · exact h
    · rename_i hne
      split
      · rename_i hlt
        refine List.pairwise_cons.2 ⟨fun key hkey => ?_, h⟩
        rcases List.mem_cons.1 hkey with rfl | hkey
        · exact hlt
        · exact lt_trans hlt (hfirst key hkey)
      · refine List.pairwise_cons.2 ⟨fun key hkey => ?_, ih hrest⟩
        rcases (mem_keys_upsert index change fragments key).1 hkey with rfl | hkey
        · omega
        · exact hfirst key hkey

/-- An entry behind a change is an entry as it was, or the changed one, which is made of nothing if
there was none. -/
theorem mem_upsert {change : ToolFragment → ToolFragment}
    (h : (fragments.map Prod.fst).Pairwise (· < ·)) {entry : ℤ × ToolFragment}
    (hentry : entry ∈ upsert index change fragments) :
    (entry.1 ≠ index ∧ entry ∈ fragments) ∨
      (∃ fragment, (index, fragment) ∈ fragments ∧ entry = (index, change fragment)) ∨
      (index ∉ fragments.map Prod.fst ∧ entry = (index, change {})) := by
  induction fragments with
  | nil =>
    rw [upsert, List.mem_singleton] at hentry
    exact .inr (.inr ⟨by simp, hentry⟩)
  | cons first fragments ih =>
    rcases first with ⟨i, fragment⟩
    obtain ⟨hfirst, hrest⟩ := List.pairwise_cons.1 h
    have hbehind : ∀ e ∈ fragments, i < e.1 := fun e he =>
      hfirst e.1 (List.mem_map_of_mem he)
    rw [upsert] at hentry
    split at hentry
    · rename_i heq
      subst heq
      rcases List.mem_cons.1 hentry with rfl | hmem
      · exact .inr (.inl ⟨fragment, .head _, rfl⟩)
      · exact .inl ⟨(hbehind entry hmem).ne', .tail _ hmem⟩
    · rename_i hne
      split at hentry
      · rename_i hlt
        have hnew : index ∉ ((i, fragment) :: fragments).map Prod.fst := by
          intro hmem
          rcases List.mem_cons.1 hmem with heq | hmem
          · exact hne heq.symm
          · exact absurd (hfirst index hmem) (by omega)
        rcases List.mem_cons.1 hentry with rfl | hmem
        · exact .inr (.inr ⟨hnew, rfl⟩)
        · refine .inl ⟨?_, hmem⟩
          rintro rfl
          exact hnew (List.mem_map_of_mem hmem)
      · rcases List.mem_cons.1 hentry with rfl | hmem
        · exact .inl ⟨hne, .head _⟩
        · rcases ih hrest hmem with ⟨hother, hold⟩ | ⟨old, hold, rfl⟩ | ⟨hnew, rfl⟩
          · exact .inl ⟨hother, .tail _ hold⟩
          · exact .inr (.inl ⟨old, .tail _ hold, rfl⟩)
          · refine .inr (.inr ⟨?_, rfl⟩)
            rw [List.map_cons, List.mem_cons]
            exact not_or.2 ⟨fun heq => hne heq.symm, hnew⟩

theorem gathered_nil : Gathered [] [] := ⟨List.Pairwise.nil, by simp, by simp⟩

/-- One more piece. -/
theorem Gathered.add (h : Gathered pieces fragments) (piece : Piece) :
    Gathered (pieces ++ [piece]) (upsert piece.index piece.change fragments) := by
  refine ⟨upsert_sorted _ _ h.sorted, fun key => ?_, fun entry hentry => ?_⟩
  · rw [mem_keys_upsert, h.indices, List.map_append, List.mem_append]
    simp [or_comm]
  · rcases mem_upsert h.sorted hentry with ⟨hother, hold⟩ | ⟨old, hold, rfl⟩ | ⟨hnew, rfl⟩
    · rw [joined_append_of_ne pieces (Ne.symm hother)]
      exact h.values entry hold
    · rw [joined_append_self, ← h.values _ hold]
    · rw [joined_append_self, joined_of_notMem fun hmem => hnew ((h.indices _).2 hmem)]

/-! ## The calls of a flush -/

theorem join_eq_empty_iff (texts : List String) :
    String.join texts = "" ↔ ∀ text ∈ texts, text = "" := by
  induction texts with
  | nil => simp
  | cons text texts ih => simp [ih]

/-- There is a name at an index when a piece there has one. -/
theorem joinedName_ne_empty_iff (pieces : List Piece) (index : ℤ) :
    joinedName pieces index ≠ "" ↔
      ∃ piece ∈ pieces, piece.index = index ∧ piece.name ≠ "" := by
  rw [joinedName, ne_eq, join_eq_empty_iff]
  simp [piecesAt, and_assoc]

theorem namedIndices_eq (h : Gathered pieces fragments) :
    namedIndices pieces = (fragments.filter fun entry => entry.2.name ≠ "").map Prod.fst := by
  have hsublist : ((fragments.filter fun entry => entry.2.name ≠ "").map Prod.fst).Sublist
      (fragments.map Prod.fst) := List.filter_sublist.map _
  have hsorted := h.sorted.sublist hsublist
  have hsame : ((pieces.filter fun piece => piece.name ≠ "").map (·.index)).toFinset =
      ((fragments.filter fun entry => entry.2.name ≠ "").map Prod.fst).toFinset := by
    ext key
    simp only [List.mem_toFinset, List.mem_map, List.mem_filter, decide_eq_true_eq]
    constructor
    · rintro ⟨piece, ⟨hpiece, hname⟩, rfl⟩
      have hkey := (h.indices piece.index).2 (List.mem_map_of_mem hpiece)
      obtain ⟨entry, hentry, hindex⟩ := List.mem_map.1 hkey
      refine ⟨entry, ⟨hentry, ?_⟩, hindex⟩
      rw [h.values entry hentry, hindex]
      exact (joinedName_ne_empty_iff pieces _).2 ⟨piece, hpiece, rfl, hname⟩
    · rintro ⟨entry, ⟨hentry, hname⟩, rfl⟩
      rw [h.values entry hentry] at hname
      obtain ⟨piece, hpiece, hindex, hname⟩ := (joinedName_ne_empty_iff pieces _).1 hname
      exact ⟨piece, ⟨hpiece, hname⟩, hindex⟩
  rw [namedIndices, hsame]
  exact (List.toFinset_sort _ (hsorted.imp ne_of_lt)).2 (hsorted.imp le_of_lt)

/-- The calls of fragments that are the pieces joined. -/
theorem callsOf_calls (f : Foreign) (ids : ℕ)
    (h : ∀ entry ∈ fragments, entry.2 = joined pieces entry.1) :
    ∃ calls : List ToolCall,
      (callsOf f ids (fragments.map Prod.snd)).2 = calls.map CapabilityChunk.toolCall ∧
        List.Forall₂ (IsCall f pieces)
          ((fragments.filter fun entry => entry.2.name ≠ "").map Prod.fst) calls := by
  induction fragments generalizing ids with
  | nil => exact ⟨[], rfl, .nil⟩
  | cons entry fragments ih =>
    rcases entry with ⟨index, fragment⟩
    have hrest : ∀ e ∈ fragments, e.2 = joined pieces e.1 := fun e he =>
      h e (.tail _ he)
    have hfragment : fragment = joined pieces index := h (index, fragment) (.head _)
    rw [List.map_cons, callsOf]
    by_cases hname : fragment.name = ""
    · rw [if_pos (by simp [hname]), List.filter_cons_of_neg (by simp [hname])]
      exact ih ids hrest
    · rw [if_neg (by simpa using hname), List.filter_cons_of_pos (by simpa using hname),
        List.map_cons]
      cases hid : fragment.id with
      | some id =>
        obtain ⟨calls, hcalls, hmade⟩ := ih ids hrest
        refine ⟨{ id, name := fragment.name,
                  arguments := parseToolArguments f fragment.arguments } :: calls, ?_, ?_⟩
        · simp only [hcalls, List.map_cons]
        · have hlast : lastId pieces index = some id := by rw [← hid, hfragment, joined]
          refine .cons ⟨by rw [hfragment, joined], by rw [hfragment, joined], ?_, ?_⟩ hmade
          · intro last hl
            exact Option.some.inj (hlast.symm.trans hl)
          · intro hl
            cases hlast.symm.trans hl
      | none =>
        obtain ⟨calls, hcalls, hmade⟩ := ih (ids + 1) hrest
        refine ⟨{ id := f.newCallId ids, name := fragment.name,
                  arguments := parseToolArguments f fragment.arguments } :: calls, ?_, ?_⟩
        · simp only [hcalls, List.map_cons]
        · have hlast : lastId pieces index = none := by rw [← hid, hfragment, joined]
          refine .cons ⟨by rw [hfragment, joined], by rw [hfragment, joined], ?_, ?_⟩ hmade
          · intro last hl
            cases hlast.symm.trans hl
          · exact fun _ => ⟨ids, rfl⟩

/-- A flush makes the calls of the pieces, and keeps nothing. -/
theorem flush_emitted {f : Foreign} {parser : OpenAiStreamParser}
    (h : Gathered pieces parser.toolFragments) :
    (parser.flushToolCalls f).1.toolFragments = [] ∧
      ∃ calls : List ToolCall, (parser.flushToolCalls f).2 = calls.map CapabilityChunk.toolCall ∧
        Emitted f pieces calls := by
  obtain ⟨calls, hcalls, hmade⟩ := callsOf_calls f parser.ids h.values
  refine ⟨rfl, calls, hcalls, ?_⟩
  rw [Emitted, namedIndices_eq h]
  exact hmade

/-! ## A line -/

theorem nonEmpty_getD (value : Option JsonValue) :
    (nonEmpty value).getD "" = (value.bind JsonValue.asStr).getD "" := by
  rw [nonEmpty]
  cases hvalue : value.bind JsonValue.asStr with
  | none => rfl
  | some text =>
    by_cases htext : text = ""
    · simp [Option.filter, htext]
    · simp [Option.filter, htext]

theorem accumulate_fragments (parser : OpenAiStreamParser) (entry : JsonValue) :
    (parser.accumulate entry).toolFragments =
      (pieceOf entry).elim parser.toolFragments fun piece =>
        upsert piece.index piece.change parser.toolFragments := by
  cases entry with
  | object fields =>
    simp only [accumulate, pieceOf, Option.elim_some, nonEmpty_getD]
    rfl
  | _ => rfl

theorem Gathered.accumulate {parser : OpenAiStreamParser}
    (h : Gathered pieces parser.toolFragments) (entries : List JsonValue) :
    Gathered (pieces ++ entries.filterMap pieceOf)
      (entries.foldl OpenAiStreamParser.accumulate parser).toolFragments := by
  induction entries generalizing pieces parser with
  | nil => simpa using h
  | cons entry entries ih =>
    have hentry := accumulate_fragments parser entry
    rw [List.foldl_cons]
    cases hpiece : pieceOf entry with
    | none =>
      rw [List.filterMap_cons_none hpiece]
      rw [hpiece, Option.elim_none] at hentry
      exact ih (hentry ▸ h)
    | some piece =>
      rw [List.filterMap_cons_some hpiece, ← List.singleton_append, ← List.append_assoc]
      rw [hpiece, Option.elim_some] at hentry
      exact ih (hentry ▸ h.add piece)

/-- What is sent for pieces of text, and for calls behind them. -/
theorem callsSent_map {pieces : List CapabilityChunk} (calls : List ToolCall)
    (h : ∀ chunk ∈ pieces, isPieceChunk chunk = true) :
    callsSent ((pieces ++ calls.map CapabilityChunk.toolCall).map Except.ok) = calls := by
  have hpieces : callsSent (pieces.map Except.ok) = [] := by
    refine List.filterMap_eq_nil_iff.2 fun s hs => ?_
    obtain ⟨chunk, hchunk, rfl⟩ := List.mem_map.1 hs
    have hpiece := h chunk hchunk
    cases chunk <;> first | rfl | cases hpiece
  rw [callsSent] at hpieces
  rw [callsSent, List.map_append, List.filterMap_append, hpieces, List.nil_append, List.map_map,
    List.filterMap_map]
  exact List.filterMap_some

variable {f : Foreign} {parser : OpenAiStreamParser} {pending : List Piece}

/-- Counting tokens leaves the fragments alone. -/
theorem counted_fragments (f : Foreign) (parser : OpenAiStreamParser)
    (usage timings : Option JsonValue) :
    (timings.elim (usage.elim parser parser.takeUsage)
      ((usage.elim parser parser.takeUsage).takeTimings f)).toolFragments =
        parser.toolFragments := by
  cases usage <;> cases timings <;> rfl

theorem parseObject_none (f : Foreign) (parser : OpenAiStreamParser)
    (h : firstChoice object = none) :
    (parser.parseObject f object).1.toolFragments = parser.toolFragments ∧
      (parser.parseObject f object).2 = [] := by
  rw [parseObject, h]
  exact ⟨counted_fragments f parser _ _, rfl⟩

theorem parseObject_choice (hgathered : Gathered pending parser.toolFragments)
    {choice : JsonValue} (h : firstChoice object = some choice) :
    Gathered (if finishes choice then [] else pending ++ piecesOf choice)
      (parser.parseObject f object).1.toolFragments ∧
    ∃ calls : List ToolCall,
      (parser.parseObject f object).2 = deltaChunks choice ++ calls.map CapabilityChunk.toolCall ∧
      if finishes choice then Emitted f (pending ++ piecesOf choice) calls else calls = [] := by
  have hcounted := counted_fragments f parser (objectField object "usage")
    (objectField object "timings")
  rw [← hcounted] at hgathered
  simp only [parseObject, h]
  generalize (objectField object "timings").elim _ _ = counted at hgathered ⊢
  have hpieces : Gathered (pending ++ piecesOf choice)
      ((((((objectField choice "delta").bind (·.get "tool_calls")).bind
        JsonValue.asArray).getD []).foldl accumulate counted).toolFragments) :=
    hgathered.accumulate _
  cases hreason : nonEmpty (choice.get "finish_reason") with
  | none =>
    have hfinishes : finishes choice = false := by rw [finishes, hreason]; rfl
    simp only [hfinishes, Bool.false_eq_true, if_false]
    exact ⟨hpieces, [], by simp, rfl⟩
  | some reason =>
    have hfinishes : finishes choice = true := by rw [finishes, hreason]; rfl
    simp only [hfinishes, if_true]
    generalize ((((objectField choice "delta").bind (·.get "tool_calls")).bind
        JsonValue.asArray).getD []).foldl accumulate counted = gathered at hpieces ⊢
    have hsame : Gathered (pending ++ piecesOf choice)
      { gathered with finishReason := some reason }.toolFragments := hpieces
    obtain ⟨hnone, calls, hcalls, hemitted⟩ := flush_emitted (f := f) hsame
    refine ⟨?_, calls, ?_, hemitted⟩
    · rw [hnone]
      exact gathered_nil
    · rw [hcalls]

/-- A line without an object on it, and not the end of the answer. -/
theorem forward_silent (f : Foreign) (parser : OpenAiStreamParser)
    (hdone : isDoneLine line = false) (hobject : objectOn f line = none) :
    forwardOpenAI f parser line = (parser, [], true) := by
  rw [isDoneLine] at hdone
  rw [objectOn] at hobject
  rw [forwardOpenAI]
  cases hutf : fromUtf8 line with
  | none => rfl
  | some text =>
    rw [hutf, Option.bind_some] at hdone hobject
    cases hpayload : payload text with
    | none =>
      simp only [parse, hpayload]
      rfl
    | some data =>
      rw [hpayload] at hdone hobject
      have hnot : data ≠ "[DONE]" := by simpa using hdone
      simp only [if_neg hnot] at hobject
      simp only [parse, hpayload, if_neg hnot]
      split
      · rename_i fields hread
        rw [hread] at hobject
        cases hobject
      · rfl

theorem forward_object (f : Foreign) (parser : OpenAiStreamParser)
    (hobject : objectOn f line = some object) :
    isDoneLine line = false ∧
      forwardOpenAI f parser line =
        ((parser.parseObject f object).1, sendChunks (parser.parseObject f object).2) := by
  rw [objectOn] at hobject
  rw [isDoneLine, forwardOpenAI]
  cases hutf : fromUtf8 line with
  | none =>
    rw [hutf] at hobject
    cases hobject
  | some text =>
    rw [hutf, Option.bind_some] at hobject
    rw [Option.bind_some]
    cases hpayload : payload text with
    | none =>
      rw [hpayload] at hobject
      cases hobject
    | some data =>
      rw [hpayload] at hobject
      by_cases hdata : data = "[DONE]"
      · simp only [if_pos hdata] at hobject
        cases hobject
      · simp only [if_neg hdata, Option.filter_eq_some_iff] at hobject
        obtain ⟨hread, hisObject⟩ := hobject
        refine ⟨by simpa using hdata, ?_⟩
        simp only [parse, hpayload, if_neg hdata, hread]
        cases object with
        | object fields => rfl
        | _ => cases hisObject

theorem forward_done (f : Foreign) (parser : OpenAiStreamParser) (hdone : isDoneLine line = true) :
    objectOn f line = none ∧
      forwardOpenAI f parser line = ((parser.flushToolCalls f).1,
        sendChunks ((parser.flushToolCalls f).2 ++
          [CapabilityChunk.done (some ((parser.flushToolCalls f).1.stats f))])) := by
  rw [isDoneLine, beq_iff_eq] at hdone
  rw [objectOn, hdone, forwardOpenAI]
  obtain ⟨text, hutf, hpayload⟩ := Option.bind_eq_some_iff.1 hdone
  rw [hutf]
  simp only [parse, hpayload, if_true, true_and]

theorem isPieceChunk_deltaChunks (choice : JsonValue) :
    ∀ chunk ∈ deltaChunks choice, isPieceChunk chunk = true := optional_pieces _ _

/-- What is sent when pieces and calls are parsed. -/
theorem callsSent_sendChunks {pieces : List CapabilityChunk} (calls : List ToolCall)
    (h : ∀ chunk ∈ pieces, isPieceChunk chunk = true) :
    callsSent (sendChunks (pieces ++ calls.map CapabilityChunk.toolCall)).1 = calls := by
  have hcalls : ∀ chunk ∈ calls.map CapabilityChunk.toolCall, isToolCall chunk = true := by
    simp [isToolCall]
  rw [sendChunks_middle fun chunk hchunk => ((sent_pieces_calls h hcalls).1 chunk hchunk).1]
  exact callsSent_map calls h

/-- A line joins its pieces to those since the last flush, and sends their calls if it flushes. -/
theorem forward_gathered (hgathered : Gathered pending parser.toolFragments) (line : Bytes) :
    Gathered (pendingAfter f pending line) (forwardOpenAI f parser line).1.toolFragments ∧
      if flushes f line then
        Emitted f (pending ++ piecesOn f line) (callsSent (forwardOpenAI f parser line).2.1)
      else callsSent (forwardOpenAI f parser line).2.1 = [] := by
  cases hdone : isDoneLine line with
  | true =>
    obtain ⟨hobject, hforward⟩ := forward_done f parser hdone
    have hflushes : flushes f line = true := by rw [flushes, hdone, Bool.true_or]
    have hpieces : piecesOn f line = [] := by rw [piecesOn, choiceOn, hobject]; rfl
    obtain ⟨hnone, calls, hcalls, hemitted⟩ := flush_emitted (f := f) hgathered
    rw [pendingAfter, hflushes, if_pos rfl, if_pos rfl, hpieces, List.append_nil, hforward]
    refine ⟨?_, ?_⟩
    · simp only [hnone]
      exact gathered_nil
    · have hmiddle : ∀ chunk ∈ (parser.flushToolCalls f).2, isDone chunk = false :=
        fun chunk hchunk => isDone_of_isToolCall (callsOf_toolCalls _ _ chunk hchunk)
      have hsent := @callsSent_map [] calls (by simp)
      rw [List.nil_append, ← hcalls] at hsent
      rw [sendChunks_done hmiddle, callsSent, List.filterMap_append]
      rw [callsSent] at hsent
      simpa [hsent] using hemitted
  | false =>
    cases hobject : objectOn f line with
    | none =>
      have hchoice : choiceOn f line = none := by rw [choiceOn, hobject]; rfl
      have hflushes : flushes f line = false := by rw [flushes, hdone, hchoice]; rfl
      rw [pendingAfter, hflushes, piecesOn, hchoice, forward_silent f parser hdone hobject]
      simpa [callsSent] using hgathered
    | some object =>
      rw [(forward_object f parser hobject).2]
      cases hchoice : firstChoice object with
      | none =>
        have hnone : choiceOn f line = none := by rw [choiceOn, hobject, Option.bind_some, hchoice]
        have hflushes : flushes f line = false := by rw [flushes, hdone, hnone]; rfl
        obtain ⟨hsame, hsilent⟩ := parseObject_none f parser hchoice
        rw [pendingAfter, hflushes, piecesOn, hnone, hsame, hsilent]
        simpa [callsSent, sendChunks] using hgathered
      | some choice =>
        have hsome : choiceOn f line = some choice := by
          rw [choiceOn, hobject, Option.bind_some, hchoice]
        have hflushes : flushes f line = finishes choice := by
          rw [flushes, hdone, hsome]; rfl
        obtain ⟨hkept, calls, hcalls, hsent⟩ := parseObject_choice (f := f) hgathered hchoice
        rw [pendingAfter, hflushes, piecesOn, hsome, Option.elim_some, hcalls,
          callsSent_sendChunks calls (isPieceChunk_deltaChunks choice)]
        exact ⟨hkept, hsent⟩

/-- Behind lines that do not end the answer the parser keeps the pieces since the last flush. -/
theorem feed_gathered (hgathered : Gathered pending parser.toolFragments) (lines : List Bytes)
    (hgoesOn : (feed (forwardOpenAI f) parser lines).2.2 = true) :
    Gathered (lines.foldl (pendingAfter f) pending)
      (feed (forwardOpenAI f) parser lines).1.toolFragments := by
  induction lines generalizing parser pending with
  | nil => exact hgathered
  | cons line lines ih =>
    have hstep := (forward_gathered (f := f) hgathered line).1
    rw [feed] at hgoesOn ⊢
    rcases hline : forwardOpenAI f parser line with ⟨next, sent, goesOn⟩
    rw [hline] at hgoesOn hstep
    cases goesOn with
    | false => cases hgoesOn
    | true => exact ih hstep hgoesOn

/-- Only the end of the answer stops the reader. -/
theorem forward_goesOn (f : Foreign) (parser : OpenAiStreamParser) (line : Bytes) :
    (forwardOpenAI f parser line).2.2 = !isDoneLine line := by
  cases hdone : isDoneLine line with
  | true =>
    have hmiddle : ∀ chunk ∈ (parser.flushToolCalls f).2, isDone chunk = false :=
      fun chunk hchunk => isDone_of_isToolCall (callsOf_toolCalls _ _ chunk hchunk)
    rw [(forward_done f parser hdone).2, sendChunks_done hmiddle]
    rfl
  | false =>
    cases hobject : objectOn f line with
    | none =>
      rw [forward_silent f parser hdone hobject]
      rfl
    | some object =>
      obtain ⟨calls, hcalls, hchunks⟩ := parseObject_chunks (f := f) parser object
      have hpieces : ∀ chunk ∈ (firstChoice object).elim [] deltaChunks,
          isPieceChunk chunk = true := by
        cases firstChoice object with
        | none => simp
        | some choice => exact isPieceChunk_deltaChunks choice
      rw [(forward_object f parser hobject).2, hchunks,
        sendChunks_middle fun chunk hchunk =>
          ((sent_pieces_calls hpieces hcalls).1 chunk hchunk).1]
      rfl

theorem callsSent_cut (errorPrefix : String) (cut : Cut) :
    callsSent (cut.sent errorPrefix) = [] := by
  cases cut <;> rfl

/-- The calls of an answer are those of its flushes, each of the pieces since the one before. -/
theorem walk_calls (hgathered : Gathered pending parser.toolFragments) (errorPrefix : String)
    (lines : List Bytes) (cut : Cut) :
    ∃ calls : List (List ToolCall),
      callsSent (walk (forwardOpenAI f) errorPrefix parser lines cut) = calls.flatten ∧
        List.Forall₂ (Emitted f) (flushGroups f pending lines) calls := by
  induction lines generalizing parser pending with
  | nil =>
    refine ⟨[], ?_, .nil⟩
    rw [walk]
    exact callsSent_cut errorPrefix cut
  | cons line lines ih =>
    obtain ⟨hkept, hsent⟩ := forward_gathered (f := f) hgathered line
    rw [walk_cons, forward_goesOn, callsSent, List.filterMap_append, flushGroups]
    cases hdone : isDoneLine line with
    | true =>
      have hflushes : flushes f line = true := by rw [flushes, hdone, Bool.true_or]
      rw [hflushes, if_pos rfl] at hsent
      refine ⟨[callsSent (forwardOpenAI f parser line).2.1], ?_, .cons hsent .nil⟩
      simp [callsSent]
    | false =>
      obtain ⟨calls, hcalls, hgroups⟩ := ih hkept
      rw [callsSent] at hcalls
      simp only [Bool.not_false, if_true, Bool.false_eq_true, if_false, hcalls]
      rw [pendingAfter] at hgroups
      cases hflushes : flushes f line with
      | true =>
        rw [hflushes, if_pos rfl] at hsent hgroups
        refine ⟨callsSent (forwardOpenAI f parser line).2.1 :: calls, ?_, .cons hsent hgroups⟩
        rw [List.flatten_cons, callsSent]
      | false =>
        rw [hflushes, if_neg Bool.false_ne_true, callsSent] at hsent
        rw [hflushes, if_neg Bool.false_ne_true] at hgroups
        refine ⟨calls, ?_, hgroups⟩
        rw [hsent, List.nil_append]

end

/-- Below the limits the answer is what the lines say one after the other, however they are cut into
chunks. A line sends the calls of the pieces since the last flush if it flushes, one for each index
with a name, and no call if it does not; and no other calls are sent. -/
theorem stream_reassembled (f : Foreign) (chunks : List Bytes) (ending : Ending)
    (hlimits : WithinLimits chunks.flatten) :
    answer f chunks ending .openAI =
        walk (forwardOpenAI f) "endpoint" {} (linesOf chunks.flatten ending) ending.cut ∧
      (∀ other : List Bytes, other.flatten = chunks.flatten →
        answer f other ending .openAI = answer f chunks ending .openAI) ∧
      (∀ before line behind, linesOf chunks.flatten ending = before ++ line :: behind →
        (feed (forwardOpenAI f) {} before).2.2 = true →
          let sent := (forwardOpenAI f (feed (forwardOpenAI f) {} before).1 line).2.1
          (∃ later, answer f chunks ending .openAI =
            (feed (forwardOpenAI f) {} before).2.1 ++ (sent ++ later)) ∧
          if flushes f line then
            Emitted f (before.foldl (pendingAfter f) [] ++ piecesOn f line) (callsSent sent)
          else callsSent sent = []) ∧
      ∃ calls : List (List ToolCall),
        callsSent (answer f chunks ending .openAI) = calls.flatten ∧
          List.Forall₂ (Emitted f) (flushGroups f [] (linesOf chunks.flatten ending)) calls := by
  have hgathered : Gathered [] ({} : OpenAiStreamParser).toolFragments := gathered_nil
  have hanswer := answer_within f ending hlimits
  refine ⟨hanswer, fun other hother => ?_, fun before line behind hlines hgoesOn => ⟨?_, ?_⟩, ?_⟩
  · rw [answer_within f ending (hother ▸ hlimits), hanswer, hother]
  · rw [hanswer, hlines, walk_append, if_pos hgoesOn, walk_cons]
    exact ⟨_, rfl⟩
  · exact (forward_gathered (feed_gathered hgathered before hgoesOn) line).2
  · rw [hanswer]
    exact walk_calls hgathered _ _ _

/-! ## Two calls -/

theorem splitLines_line {front : Bytes} (h : ∀ byte ∈ front, byte ≠ 10) (rest : Bytes) :
    splitLines (front ++ 10 :: rest) =
      ((front ++ [10]) :: (splitLines rest).1, (splitLines rest).2) := by
  induction front with
  | nil =>
    rw [List.nil_append, splitLines, if_pos rfl]
    rfl
  | cons byte front ih =>
    rw [List.cons_append, splitLines_cons_of_ne (h byte (.head _)),
      ih fun b hb => h b (.tail _ hb)]
    rfl

/-- Fragments of two calls in turn. -/
def callText : String :=
  "\x7b\"choices\":[\x7b\"delta\":\x7b\"tool_calls\":[" ++
    "\x7b\"index\":0,\"function\":\x7b\"name\":\"f\",\"arguments\":\"\x7b\"\x7d\x7d," ++
    "\x7b\"index\":1,\"function\":\x7b\"name\":\"g\"\x7d\x7d," ++
    "\x7b\"index\":0,\"function\":\x7b\"arguments\":\"\x7d\"\x7d\x7d]\x7d\x7d]\x7d"

def callObject : JsonValue :=
  .object [("choices", .array [.object [("delta", .object [("tool_calls", .array
    [.object [("index", .int 0),
        ("function", .object [("name", .string "f"), ("arguments", .string "\x7b")])],
      .object [("index", .int 1), ("function", .object [("name", .string "g")])],
      .object [("index", .int 0), ("function", .object [("arguments", .string "\x7d")])]])])]])]

/-- What is outside, for these texts. -/
def callRead : Foreign where
  fromStr text :=
    if text = callText then some callObject
    else if text = "\x7b\x7d" then some (.object [])
    else none
  fromSlice _ := none
  roundMs _ := none
  nanosToMs ns := ns / 1000000
  newCallId n := "call_" ++ toString n
  elapsedMs := 0

def callBytes : Bytes := utf8 ("data: " ++ callText) ++ 10 :: (utf8 "data: [DONE]" ++ 10 :: [])

theorem payload_call : payload ("data: " ++ callText ++ "\n") = some callText := by
  have htrims : trim ("data: " ++ callText ++ "\n").toList =
      "data:".toList ++ ' ' :: callText.toList ∧
      trim (' ' :: callText.toList) = callText.toList := by
    unfold callText
    repeat rw [String.toList_append]
    -- character lists evaluate faster than string literals
    repeat rw [String.toList_ofList]
    decide +kernel
  rw [payload_of_trim htrims.1 htrims.2, String.ofList_toList]

theorem splitLines_call :
    splitLines callBytes =
      ([utf8 ("data: " ++ callText ++ "\n"), utf8 "data: [DONE]\n"], []) := by
  have hbreak : utf8 "\n" = [10] := by
    rw [utf8_ofList]
    decide +kernel
  have hfirst : 10 ∉ utf8 ("data: " ++ callText) := by
    unfold callText
    repeat rw [utf8_append]
    repeat rw [utf8_ofList]
    decide +kernel
  have hsecond : 10 ∉ utf8 "data: [DONE]" := by
    rw [utf8_ofList]
    decide +kernel
  have hend : utf8 "data: [DONE]\n" = utf8 "data: [DONE]" ++ [10] := by
    rw [utf8_ofList, utf8_ofList]
    decide +kernel
  rw [callBytes, splitLines_line fun _ hbyte => ne_of_mem_of_not_mem hbyte hfirst,
    splitLines_line fun _ hbyte => ne_of_mem_of_not_mem hbyte hsecond, splitLines, hend,
    utf8_append _ "\n", hbreak]

theorem withinLimits_call : WithinLimits callBytes := by
  refine ⟨?_, ?_, ?_⟩
  · unfold callBytes callText
    repeat rw [utf8_append]
    repeat rw [utf8_ofList]
    decide +kernel
  · rw [splitLines_call]
    unfold callText
    repeat rw [utf8_append]
    repeat rw [utf8_ofList]
    decide +kernel
  · rw [splitLines_call]
    exact Nat.zero_le _

theorem objectOn_call :
    objectOn callRead (utf8 ("data: " ++ callText ++ "\n")) = some callObject := by
  have hnotDone : callText ≠ "[DONE]" := by
    intro h
    have hchars := congrArg String.toList h
    unfold callText at hchars
    repeat rw [String.toList_append] at hchars
    repeat rw [String.toList_ofList] at hchars
    cases hchars
  have hread : callRead.fromStr callText = some callObject := by
    simp only [callRead, if_true]
  rw [objectOn, fromUtf8_utf8, Option.bind_some, payload_call]
  simp only [if_neg hnotDone, hread]
  rfl

/-- Cut in the middle of their line, each call is sent once, with all of its arguments. -/
theorem calls_sent_once :
    (callsSent (answer callRead [callBytes.take 20, callBytes.drop 20] .closed .openAI)).map
        (fun call => (call.id, call.name, call.arguments)) =
      [("call_0", "f", .object []), ("call_1", "g", .object [])] := by
  have hchunks : [callBytes.take 20, callBytes.drop 20].flatten = callBytes := by
    rw [List.flatten_cons, List.flatten_cons, List.flatten_nil, List.append_nil,
      List.take_append_drop]
  have hdone : isDoneLine (utf8 "data: [DONE]\n") = true := by
    have htrims : trim "data: [DONE]\n".toList = "data:".toList ++ ' ' :: "[DONE]".toList ∧
        trim (' ' :: "[DONE]".toList) = "[DONE]".toList := by
      repeat rw [String.toList_ofList]
      decide +kernel
    rw [isDoneLine, fromUtf8_utf8, Option.bind_some, payload_of_trim htrims.1 htrims.2,
      String.ofList_toList, beq_self_eq_true]
  have hbytes : [callBytes].flatten = callBytes := by
    rw [List.flatten_cons, List.flatten_nil, List.append_nil]
  have hlimits : WithinLimits [callBytes].flatten := hbytes ▸ withinLimits_call
  have hreassembled := stream_reassembled callRead [callBytes] .closed hlimits
  rw [hreassembled.2.1 _ (hchunks.trans hbytes.symm), hreassembled.1, hbytes, linesOf,
    splitLines_call, List.cons_append, walk_cons, (forward_object callRead {} objectOn_call).2,
    List.cons_append, walk_cons, (forward_done callRead _ hdone).2]
  rfl

end Hedos.Upstream
