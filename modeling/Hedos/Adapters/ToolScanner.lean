import Hedos.Capabilities.Strings
import Hedos.Upstream.LineStream

/-!
# The tool-call scanner

`runtime/src/adapters/tool_scanner.rs`: a model's text passes through the scanner, which takes
`<tool_call>{…}</tool_call>` blocks out of it.

* `ToolCallScanner.feed` and `ToolCallScanner.flush` are the code's, `none` being a panic at a cut
  inside a character;
* `blocks` takes a whole text apart into its complete blocks and what follows the last of them;
* one call of `feed` completes one block at most (`feed_spec`), so that what follows a block waits
  for the next call, and `flush` lets it through unread;
* the scanner does not depend on the chunks, and finds every block, exactly when what follows the
  first block of the text would pass through anyway (`toolScanner_chunk_independent_iff`).
-/

namespace Hedos.Adapters

open Hedos.Kernel (JsonValue)
open Hedos.Capabilities (len splitAt find)
open Hedos.Upstream (trim)

/-- The opening marker of a tool-call block. -/
def callOpen : Text := "<tool_call>".toList

/-- The closing marker of a tool-call block. -/
def callClose : Text := "</tool_call>".toList

/-- What a call is made of; its id is drawn afresh by `ToolCall::new`. -/
structure FoundCall where
  name : String
  arguments : JsonValue

/-- Streams model text, separating plain text from `<tool_call>` blocks. -/
structure ToolCallScanner where
  pending : Text := []
  inCall : Bool := false
  callBody : Text := []
deriving DecidableEq

section

-- `serde_json::from_str`
variable (fromStr : Text → Option JsonValue)

/-- A tool-call object as a call, nothing if it is no object with a name. -/
def parseToolCall (json : Text) : Option FoundCall :=
  match fromStr json with
  | some (.object fields) => do
    let name ← (← fields.lookup "name").asStr
    some { name, arguments := (fields.lookup "arguments").getD (.object []) }
  | _ => none

namespace ToolCallScanner

/-- Consume buffered call-body text; once the closing marker arrives, parse what is before it. -/
def drainCall (scanner : ToolCallScanner) : Option (Text × Option FoundCall × ToolCallScanner) :=
  let callBody := scanner.callBody ++ scanner.pending
  match find callBody callClose with
  | none => some ([], none, { scanner with pending := [], callBody })
  | some close => do
    let (body, _) ← splitAt callBody close
    let json := trim body
    let (_, remainder) ← splitAt callBody (close + len callClose)
    let scanner := { pending := remainder, inCall := false, callBody := [] }
    match parseToolCall fromStr json with
    | some call => some ([], some call, scanner)
    | none => some (callOpen ++ json ++ callClose, none, scanner)

/-- The loop of `emittable_prefix`, from the longest overlap down: the text to emit, and what is
held. -/
def emittableFrom (pending : Text) : ℕ → Option (Text × Text)
  | 0 => some (pending, [])
  | overlap + 1 => do
    let (candidate, _) ← splitAt callOpen (overlap + 1)
    if candidate.isSuffixOf pending then
      let (text, _) ← splitAt pending (len pending - (overlap + 1))
      some (text, candidate)
    else emittableFrom pending overlap

/-- The plain text safe to emit now. -/
def emittablePrefix (scanner : ToolCallScanner) : Option (Text × ToolCallScanner) := do
  let max := min (len callOpen - 1) (len scanner.pending)
  let (text, held) ← emittableFrom scanner.pending max
  some (text, { scanner with pending := held })

/-- Feed the next piece of model output: the plain text now safe to emit, and a call if the piece
finished one. -/
def feed (scanner : ToolCallScanner) (piece : Text) :
    Option (Text × Option FoundCall × ToolCallScanner) :=
  let scanner := { scanner with pending := scanner.pending ++ piece }
  if scanner.inCall then scanner.drainCall fromStr
  else
    match find scanner.pending callOpen with
    | some start => do
      let (text, _) ← splitAt scanner.pending start
      let (_, callBody) ← splitAt scanner.pending (start + len callOpen)
      let (callText, call, scanner) ←
        drainCall fromStr { pending := [], inCall := true, callBody }
      some (text ++ callText, call, scanner)
    | none => do
      let (text, scanner) ← scanner.emittablePrefix
      some (text, none, scanner)

/-- Emit any buffered plain text once the stream ends. Text held inside an unfinished block is
dropped, and the scanner starts afresh. -/
def flush (scanner : ToolCallScanner) : Text × ToolCallScanner :=
  (if scanner.inCall then [] else scanner.pending, {})

/-- Feed the pieces one after another and flush: all the text shown and all the calls found. -/
def run (scanner : ToolCallScanner) : List Text → Option (Text × List FoundCall)
  | [] => some (scanner.flush.1, [])
  | piece :: pieces => do
    let (text, call, scanner) ← scanner.feed fromStr piece
    let (rest, calls) ← scanner.run pieces
    some (text ++ rest, call.toList ++ calls)

end ToolCallScanner

end

/-! ## The blocks of a text -/

/-- The first complete block: what stands before it, its body, and what stands behind it. -/
def firstBlock (text : Text) : Option (Text × Text × Text) := do
  let (before, inside) ← Search.cut callOpen text
  let (body, rest) ← Search.cut callClose inside
  some (before, body, rest)

variable {text before body rest : Text} {n : ℕ}

theorem firstBlock_length (h : firstBlock text = some (before, body, rest)) :
    before.length + callOpen.length + body.length + callClose.length + rest.length =
      text.length := by
  simp only [firstBlock, Option.bind_eq_bind, Option.bind_eq_some_iff, Prod.exists,
    Option.some.injEq, Prod.mk.injEq] at h
  obtain ⟨_, inside, hopen, _, _, hclose, rfl, rfl, rfl⟩ := h
  have houter := Search.cut_length hopen
  have hinner := Search.cut_length hclose
  omega

/-- The complete blocks of a text, each with what stands before it, and what follows the last. -/
def blocks (text : Text) : List (Text × Text) × Text :=
  match _hblock : firstBlock text with
  | some (before, body, rest) =>
    let (found, last) := blocks rest
    ((before, body) :: found, last)
  | none => ([], text)
termination_by text.length
decreasing_by
  have hlength := firstBlock_length _hblock
  have hmark : 0 < callOpen.length := by decide
  omega

theorem blocks_some (h : firstBlock text = some (before, body, rest)) :
    blocks text = ((before, body) :: (blocks rest).1, (blocks rest).2) := by
  rw [blocks]
  split
  · rename_i hblock
    rw [h] at hblock
    cases hblock
    rfl
  · rename_i hnone
    rw [h] at hnone
    cases hnone

theorem blocks_none (h : firstBlock text = none) : blocks text = ([], text) := by
  rw [blocks]
  split
  · rename_i hblock
    rw [h] at hblock
    cases hblock
  · rfl

/-- What stands before an unfinished block. -/
def beforeOpen (text : Text) : Text := (Search.cut callOpen text).elim text Prod.fst

section

variable (fromStr : Text → Option JsonValue)

/-- The text a block leaves: what stands before it, and the block itself when it is no call. -/
def shownOf (block : Text × Text) : Text :=
  match parseToolCall fromStr (trim block.2) with
  | some _ => block.1
  | none => block.1 ++ (callOpen ++ trim block.2 ++ callClose)

/-- What is to be shown of a text, and the calls in it: one for each block that is a call, and
nothing of an unfinished block. -/
def expected (text : Text) : Text × List FoundCall :=
  ((blocks text).1.flatMap (shownOf fromStr) ++ beforeOpen (blocks text).2,
    (blocks text).1.filterMap fun block => parseToolCall fromStr (trim block.2))

/-- The text has no call and no unfinished block in it, and the blocks it has come out as they
are. -/
structure PassesThrough (text : Text) : Prop where
  last : ¬ callOpen <:+: (blocks text).2
  found : ∀ block ∈ (blocks text).1,
    parseToolCall fromStr (trim block.2) = none ∧ trim block.2 = block.2

end

/-! ## What is held back -/

theorem splitAt_callOpen (h : n < 11) :
    splitAt callOpen n = some (callOpen.take n, callOpen.drop n) := by
  have hall : ∀ n < 11, splitAt callOpen n = some (callOpen.take n, callOpen.drop n) := by decide
  exact hall n h

theorem len_take_callOpen (h : n < 11) : len (callOpen.take n) = n := by
  have hall : ∀ n < 11, len (callOpen.take n) = n := by decide
  exact hall n h

theorem length_take_callOpen (h : n < 11) : (callOpen.take n).length = n := by
  have hlength : callOpen.length = 11 := by decide
  rw [List.length_take, hlength]
  omega

namespace ToolCallScanner

variable {pending : Text}

/-- The candidate ends the text exactly when the marker begins with the end of the text. -/
theorem isSuffixOf_iff {n : ℕ} (hn : n < 11) (hle : n ≤ pending.length) :
    (callOpen.take n).isSuffixOf pending = true ↔
      (pending.drop (pending.length - n)).isPrefixOf callOpen = true := by
  have hlength := length_take_callOpen hn
  rw [List.isSuffixOf_iff_suffix, List.isPrefixOf_iff_prefix]
  constructor
  · intro h
    have heq : pending.drop (pending.length - n) = callOpen.take n := by
      have hdrop := List.suffix_iff_eq_drop.1 h
      rw [hlength] at hdrop
      exact hdrop.symm
    rw [heq]
    exact List.take_prefix n callOpen
  · intro h
    have heq : pending.drop (pending.length - n) = callOpen.take n := by
      have htake := List.prefix_iff_eq_take.1 h
      rwa [List.length_drop, show pending.length - (pending.length - n) = n by omega] at htake
    rw [← heq]
    exact List.drop_suffix _ _

/-- The loop holds back the end of the text that the marker begins with. -/
theorem emittableFrom_eq (pending : Text) {n : ℕ} (hn : n < 11) :
    let kept := pending.length - Search.heldUpTo pending [callOpen] (min n pending.length)
    emittableFrom pending n = some (pending.take kept, pending.drop kept) := by
  induction n with
  | zero => simp [emittableFrom, Search.heldUpTo]
  | succ n ih =>
    have hrest := ih (by omega)
    rcases Nat.lt_or_ge pending.length (n + 1) with hlong | hle
    · -- the candidate is longer than the text
      have hnot : ¬ (callOpen.take (n + 1)).isSuffixOf pending = true := by
        rw [List.isSuffixOf_iff_suffix]
        intro h
        have hlength := h.length_le
        rw [length_take_callOpen hn] at hlength
        omega
      have hmin : min (n + 1) pending.length = min n pending.length := by omega
      simp only [emittableFrom, splitAt_callOpen hn, Option.bind_eq_bind, Option.bind_some,
        if_neg hnot, hmin]
      exact hrest
    · have hmin : min (n + 1) pending.length = n + 1 := by omega
      have hmin' : min n pending.length = n := by omega
      simp only [emittableFrom, splitAt_callOpen hn, Option.bind_eq_bind, Option.bind_some, hmin,
        Search.heldUpTo, List.any_cons, List.any_nil, Bool.or_false]
      by_cases hends : (pending.drop (pending.length - (n + 1))).isPrefixOf callOpen = true
      · have hsuffix := (isSuffixOf_iff hn hle).2 hends
        have hdrop := List.suffix_iff_eq_drop.1 (List.isSuffixOf_iff_suffix.1 hsuffix)
        rw [length_take_callOpen hn] at hdrop
        have hlen := Capabilities.len_take_add_drop pending (pending.length - (n + 1))
        rw [← hdrop, len_take_callOpen hn] at hlen
        have hsub : len pending - (n + 1) = len (pending.take (pending.length - (n + 1))) := by
          omega
        rw [if_pos hsuffix, if_pos hends, hsub, Capabilities.splitAt_len_take, ← hdrop]
        rfl
      · rw [if_neg fun h => hends ((isSuffixOf_iff hn hle).1 h), if_neg hends]
        rwa [hmin'] at hrest

/-- What the scanner lets go of while no marker stands in what it holds. -/
theorem emittablePrefix_eq (scanner : ToolCallScanner) :
    let pending := scanner.pending
    let kept := pending.length - Search.held pending [callOpen]
    scanner.emittablePrefix =
      some (pending.take kept, { scanner with pending := pending.drop kept }) := by
  intro pending kept
  have hmax : min (len callOpen - 1) (len pending) < 11 := by
    have hlen : len callOpen = 11 := by decide
    omega
  have hmin : min (min (len callOpen - 1) (len pending)) pending.length =
      min (([callOpen].map List.length).max?.getD 1 - 1) pending.length := by
    have hlen : len callOpen = 11 := by decide
    have hlength : ([callOpen].map List.length).max?.getD 1 = 11 := by decide
    have hle := Capabilities.length_le_len pending
    omega
  have hloop := emittableFrom_eq pending hmax
  rw [hmin] at hloop
  simp only [emittablePrefix, Option.bind_eq_bind]
  rw [hloop]
  rfl

/-! ## One feed -/

theorem find_eq (text pattern : Text) :
    find text pattern = (Search.cut pattern text).map fun parts => len parts.1 := by
  rw [find, Search.cut, Option.map_map]
  rfl

/-- What the scanner has been fed and has not let go of. -/
def unread (scanner : ToolCallScanner) : Text :=
  if scanner.inCall then callOpen ++ scanner.callBody else scanner.pending

/-- Inside a block everything is in its body, which is not complete. -/
structure Wf (scanner : ToolCallScanner) : Prop where
  inside : scanner.inCall = true → scanner.pending = [] ∧ ¬ callClose <:+: scanner.callBody
  outside : scanner.inCall = false → scanner.callBody = []

theorem wf_new : Wf {} := ⟨fun h => Bool.noConfusion h, fun _ => rfl⟩

variable {fromStr : Text → Option JsonValue}

/-- What `feed` does with what the scanner holds: it lets go of text in which no block begins, or
it takes out the first block. -/
inductive Fed (fromStr : Text → Option JsonValue) (whole : Text) :
    Text × Option FoundCall × ToolCallScanner → Prop
  | passed {text : Text} {scanner : ToolCallScanner} (hsplit : whole = text ++ scanner.unread)
    (hclean : scanner.inCall = true ∨ ¬ callOpen <:+: scanner.pending)
    (hlate : ∀ more i, callOpen <+: (whole ++ more).drop i → text.length ≤ i) :
    Fed fromStr whole (text, none, scanner)
  | found {before body rest : Text}
    (hblock : firstBlock whole = some (before, body, rest)) :
    Fed fromStr whole (shownOf fromStr (before, body), parseToolCall fromStr (trim body),
      { pending := rest })

/-- The body of a block that is not closed yet. -/
theorem drainCall_of_none {callBody : Text}
    (h : Search.cut callClose (callBody ++ pending) = none) :
    drainCall fromStr { pending, inCall := true, callBody } =
      some ([], none, { inCall := true, callBody := callBody ++ pending }) := by
  rw [drainCall]
  simp only [find_eq, h]
  rfl

/-- A block that is closed. -/
theorem drainCall_of_some {callBody body rest : Text}
    (h : Search.cut callClose (callBody ++ pending) = some (body, rest)) :
    drainCall fromStr { pending, inCall := true, callBody } =
      some (shownOf fromStr ([], body), parseToolCall fromStr (trim body),
        { pending := rest }) := by
  have hwhole := (Search.cut_eq_some_iff.1 h).1
  have hbody : splitAt (callBody ++ pending) (len body) = some (body, callClose ++ rest) := by
    rw [hwhole, List.append_assoc, Capabilities.splitAt_append]
  have hrest : splitAt (callBody ++ pending) (len body + len callClose) =
      some (body ++ callClose, rest) := by
    rw [hwhole, ← Capabilities.len_append, Capabilities.splitAt_append]
  rw [drainCall]
  simp only [find_eq, h, Option.map_some, Option.bind_eq_bind, Option.bind_some, hbody, hrest,
    shownOf]
  cases parseToolCall fromStr (trim body) <;> rfl

theorem firstBlock_of_cut {text before inside : Text}
    (h : Search.cut callOpen text = some (before, inside)) :
    firstBlock text =
      (Search.cut callClose inside).map fun parts => (before, parts.1, parts.2) := by
  simp only [firstBlock, h, Option.bind_eq_bind, Option.bind_some]
  rw [Option.map_eq_bind]
  rfl

/-- A feed completes one block at most. -/
theorem feed_spec (fromStr : Text → Option JsonValue) {scanner : ToolCallScanner}
    (h : scanner.Wf) (piece : Text) :
    ∃ fed, scanner.feed fromStr piece = some fed ∧ fed.2.2.Wf ∧
      Fed fromStr (scanner.unread ++ piece) fed := by
  obtain ⟨pending, inCall, callBody⟩ := scanner
  cases inCall with
  | true =>
    obtain ⟨rfl, hbody⟩ := h.inside rfl
    have hwhole : unread ⟨[], true, callBody⟩ ++ piece = callOpen ++ (callBody ++ piece) := by
      simp [unread]
    have hfeed : feed fromStr ⟨[], true, callBody⟩ piece =
        drainCall fromStr { pending := piece, inCall := true, callBody } := rfl
    have hopen := Search.cut_self_append callOpen (callBody ++ piece)
    rw [hwhole, hfeed]
    cases hclose : Search.cut callClose (callBody ++ piece) with
    | none =>
      refine ⟨_, drainCall_of_none hclose, ?_, .passed ?_ (.inl rfl) fun _ _ _ => Nat.zero_le _⟩
      · exact ⟨fun _ => ⟨rfl, Search.cut_eq_none.1 hclose⟩, fun h => Bool.noConfusion h⟩
      · simp [unread]
    | some parts =>
      refine ⟨_, drainCall_of_some hclose, ?_, .found ?_⟩
      · exact ⟨fun h => Bool.noConfusion h, fun _ => rfl⟩
      · rw [firstBlock_of_cut hopen, hclose]
        rfl
  | false =>
    obtain rfl := h.outside rfl
    have hwhole : unread ⟨pending, false, []⟩ ++ piece = pending ++ piece := rfl
    rw [hwhole]
    cases hopen : Search.cut callOpen (pending ++ piece) with
    | none =>
      have hnone := Search.cut_eq_none.1 hopen
      set kept := (pending ++ piece).length - Search.held (pending ++ piece) [callOpen] with hkept
      have hemit := emittablePrefix_eq { pending := pending ++ piece }
      simp only [← hkept] at hemit
      refine ⟨((pending ++ piece).take kept, none, { pending := (pending ++ piece).drop kept }),
        ?_, ⟨fun h => Bool.noConfusion h, fun _ => rfl⟩, .passed ?_ (.inr ?_) ?_⟩
      · simp only [feed, find_eq, hopen, Option.map_none, Bool.false_eq_true, if_false, hemit,
          Option.bind_eq_bind, Option.bind_some]
      · exact (List.take_append_drop _ _).symm
      · exact fun hwithin => hnone (hwithin.trans (List.drop_suffix _ _).isInfix)
      · intro more i hi
        have hle : (pending ++ piece).length - Search.held (pending ++ piece) [callOpen] ≤ i :=
          Search.held_le_of_occurs (by simpa using hnone) (List.mem_singleton_self _) hi
        rw [List.length_take]
        omega
    | some parts =>
      obtain ⟨before, inside⟩ := parts
      have hsplit := (Search.cut_eq_some_iff.1 hopen).1
      have hbefore : splitAt (pending ++ piece) (len before) =
          some (before, callOpen ++ inside) := by
        rw [hsplit, List.append_assoc, Capabilities.splitAt_append]
      have hinside : splitAt (pending ++ piece) (len before + len callOpen) =
          some (before ++ callOpen, inside) := by
        rw [hsplit, ← Capabilities.len_append, Capabilities.splitAt_append]
      have hfeed : feed fromStr ⟨pending, false, []⟩ piece =
          (drainCall fromStr { inCall := true, callBody := inside }).map fun fed =>
            (before ++ fed.1, fed.2.1, fed.2.2) := by
        simp only [feed, find_eq, hopen, Option.map_some, Bool.false_eq_true, if_false, hbefore,
          hinside, Option.bind_eq_bind, Option.bind_some]
        rw [Option.map_eq_bind]
        rfl
      rw [hfeed]
      cases hclose : Search.cut callClose inside with
      | none =>
        rw [drainCall_of_none (by rwa [List.append_nil])]
        refine ⟨_, rfl, ?_, .passed ?_ (.inl rfl) ?_⟩
        · refine ⟨fun _ => ⟨rfl, ?_⟩, fun h => Bool.noConfusion h⟩
          rw [List.append_nil]
          exact Search.cut_eq_none.1 hclose
        · simp [unread, hsplit]
        · intro more i hi
          rw [List.append_nil]
          exact not_lt.1 fun hlt =>
            (Search.cut_eq_some_iff.1 (Search.cut_append hopen more)).2 i hlt hi
      | some parts =>
        obtain ⟨body, rest⟩ := parts
        rw [drainCall_of_some (by rwa [List.append_nil])]
        have hshown : before ++ shownOf fromStr ([], body) = shownOf fromStr (before, body) := by
          simp only [shownOf]
          cases parseToolCall fromStr (trim body) <;> simp
        refine ⟨_, rfl, ⟨fun h => Bool.noConfusion h, fun _ => rfl⟩, ?_⟩
        simp only [hshown]
        refine .found ?_
        rw [firstBlock_of_cut hopen, hclose]
        rfl

end ToolCallScanner

/-! ## What is expected of a text -/

theorem firstBlock_eq (h : firstBlock text = some (before, body, rest)) :
    text = before ++ callOpen ++ (body ++ callClose ++ rest) := by
  simp only [firstBlock, Option.bind_eq_bind, Option.bind_eq_some_iff, Prod.exists,
    Option.some.injEq, Prod.mk.injEq] at h
  obtain ⟨_, inside, hopen, _, _, hclose, rfl, rfl, rfl⟩ := h
  rw [(Search.cut_eq_some_iff.1 hopen).1, (Search.cut_eq_some_iff.1 hclose).1]

theorem firstBlock_append (h : firstBlock text = some (before, body, rest)) (more : Text) :
    firstBlock (text ++ more) = some (before, body, rest ++ more) := by
  simp only [firstBlock, Option.bind_eq_bind, Option.bind_eq_some_iff, Prod.exists,
    Option.some.injEq, Prod.mk.injEq] at h
  obtain ⟨_, inside, hopen, _, _, hclose, rfl, rfl, rfl⟩ := h
  simp only [firstBlock, Search.cut_append hopen, Search.cut_append hclose, Option.bind_eq_bind,
    Option.bind_some]

/-- No block begins in the first part. -/
def BeginsBehind (text more : Text) : Prop :=
  ∀ i, callOpen <+: (text ++ more).drop i → text.length ≤ i

theorem firstBlock_behind {more : Text} (h : BeginsBehind text more) :
    firstBlock (text ++ more) =
      (firstBlock more).map fun block => (text ++ block.1, block.2.1, block.2.2) := by
  simp only [firstBlock, Search.cut_behind h, Option.bind_eq_bind]
  cases Search.cut callOpen more with
  | none => rfl
  | some parts =>
    simp only [Option.map_some, Option.bind_some]
    cases Search.cut callClose parts.2 <;> rfl

theorem beforeOpen_behind {more : Text} (h : BeginsBehind text more) :
    beforeOpen (text ++ more) = text ++ beforeOpen more := by
  rw [beforeOpen, beforeOpen, Search.cut_behind h]
  cases Search.cut callOpen more <;> rfl

theorem beforeOpen_of_not_occurs (h : ¬ callOpen <:+: text) : beforeOpen text = text := by
  rw [beforeOpen, Search.cut_eq_none.2 h]
  rfl

theorem firstBlock_of_not_occurs (h : ¬ callOpen <:+: text) : firstBlock text = none := by
  simp only [firstBlock, Search.cut_eq_none.2 h, Option.bind_eq_bind, Option.bind_none]

section

variable {fromStr : Text → Option JsonValue} {text more before body rest : Text}

theorem expected_none (h : firstBlock text = none) :
    expected fromStr text = (beforeOpen text, []) := by
  simp [expected, blocks_none h]

theorem expected_some (h : firstBlock text = some (before, body, rest)) :
    expected fromStr text =
      (shownOf fromStr (before, body) ++ (expected fromStr rest).1,
        (parseToolCall fromStr (trim body)).toList ++ (expected fromStr rest).2) := by
  simp only [expected, blocks_some h, List.flatMap_cons, List.append_assoc, List.filterMap_cons]
  cases parseToolCall fromStr (trim body) <;> rfl

theorem shownOf_append : shownOf fromStr (text ++ before, body) =
    text ++ shownOf fromStr (before, body) := by
  simp only [shownOf]
  cases parseToolCall fromStr (trim body) <;> simp

theorem expected_behind (h : BeginsBehind text more) :
    expected fromStr (text ++ more) =
      (text ++ (expected fromStr more).1, (expected fromStr more).2) := by
  have hfirst := firstBlock_behind h
  cases hblock : firstBlock more with
  | none =>
    rw [hblock, Option.map_none] at hfirst
    rw [expected_none hfirst, expected_none hblock, beforeOpen_behind h]
  | some block =>
    obtain ⟨before, body, rest⟩ := block
    rw [hblock, Option.map_some] at hfirst
    rw [expected_some hfirst, expected_some hblock, shownOf_append, List.append_assoc]

theorem PassesThrough.behind (h : BeginsBehind text more)
    (hpasses : PassesThrough fromStr (text ++ more)) : PassesThrough fromStr more := by
  have hfirst := firstBlock_behind h
  cases hblock : firstBlock more with
  | none =>
    rw [hblock, Option.map_none] at hfirst
    have hlast := hpasses.last
    rw [blocks_none hfirst] at hlast
    refine ⟨?_, by simp [blocks_none hblock]⟩
    rw [blocks_none hblock]
    exact fun hwithin => hlast (hwithin.trans (List.suffix_append _ _).isInfix)
  | some block =>
    obtain ⟨before, body, rest⟩ := block
    rw [hblock, Option.map_some] at hfirst
    obtain ⟨hlast, hfound⟩ := hpasses
    rw [blocks_some hfirst] at hlast hfound
    refine ⟨by rwa [blocks_some hblock], ?_⟩
    rw [blocks_some hblock]
    exact List.forall_mem_cons.2 ⟨(List.forall_mem_cons.1 hfound).1,
      (List.forall_mem_cons.1 hfound).2⟩

theorem passesThrough_some (h : firstBlock text = some (before, body, rest)) :
    PassesThrough fromStr text ↔
      (parseToolCall fromStr (trim body) = none ∧ trim body = body) ∧
        PassesThrough fromStr rest := by
  constructor
  · rintro ⟨hlast, hfound⟩
    rw [blocks_some h] at hlast hfound
    exact ⟨(List.forall_mem_cons.1 hfound).1, hlast, (List.forall_mem_cons.1 hfound).2⟩
  · rintro ⟨hbody, hlast, hfound⟩
    refine ⟨by rwa [blocks_some h], ?_⟩
    rw [blocks_some h]
    exact List.forall_mem_cons.2 ⟨hbody, hfound⟩

theorem trim_within (text : Text) : trim text <:+: text := by
  refine List.IsInfix.trans ?_ (List.dropWhile_suffix Upstream.isWhitespace).isInfix
  rw [trim, ← List.reverse_infix, List.reverse_reverse]
  exact (List.dropWhile_suffix Upstream.isWhitespace).isInfix

/-- Never more is shown than the text has. -/
theorem expected_length_le (text : Text) : (expected fromStr text).1.length ≤ text.length := by
  induction text using blocks.induct with
  | case1 text before body rest hblock found last hrest ih =>
    have htrim := (trim_within body).length_le
    rw [expected_some hblock, ← firstBlock_length hblock]
    simp only [shownOf]
    cases parseToolCall fromStr (trim body) <;> simp only [List.length_append] <;> omega
  | case2 text hblock =>
    rw [expected_none hblock, beforeOpen]
    cases hcut : Search.cut callOpen text with
    | none => exact le_rfl
    | some parts =>
      have hlength := Search.cut_length (a := parts.1) (b := parts.2) hcut
      simp only [Option.elim_some]
      omega

/-- Exactly such a text comes out as it is. -/
theorem expected_eq_self_iff (text : Text) :
    expected fromStr text = (text, []) ↔ PassesThrough fromStr text := by
  induction text using blocks.induct with
  | case1 text before body rest hblock found last hrest ih =>
    have hwhole := firstBlock_eq hblock
    rw [expected_some hblock, passesThrough_some hblock, ← ih]
    cases hcall : parseToolCall fromStr (trim body) with
    | some call => simp
    | none =>
      simp only [shownOf, hcall, Option.toList_none, List.nil_append, true_and]
      constructor
      · intro h
        obtain ⟨hshown, hcalls⟩ := Prod.mk.inj h
        rw [hwhole] at hshown
        have hinner : trim body ++ (callClose ++ (expected fromStr rest).1) =
            body ++ (callClose ++ rest) := by
          simpa [List.append_assoc] using hshown
        -- neither side can make up for what the other one drops
        have hle := (trim_within body).length_le
        have hrest : (expected fromStr rest).1.length ≤ rest.length := expected_length_le rest
        have hlengths := congrArg List.length hinner
        simp only [List.length_append] at hlengths
        have htrim : trim body = body := (trim_within body).eq_of_length (by omega)
        rw [htrim] at hinner
        exact ⟨htrim, Prod.ext (by simpa using hinner) hcalls⟩
      · rintro ⟨htrim, hrest⟩
        rw [hrest, htrim, hwhole]
        simp
  | case2 text hblock =>
    rw [expected_none hblock, Prod.mk.injEq, eq_self, and_true]
    constructor
    · intro h
      refine ⟨?_, by simp [blocks_none hblock]⟩
      rw [blocks_none hblock]
      intro hwithin
      cases hcut : Search.cut callOpen text with
      | none => exact Search.cut_eq_none.1 hcut hwithin
      | some parts =>
        have hlength := Search.cut_length (a := parts.1) (b := parts.2) hcut
        have hmark : 0 < callOpen.length := by decide
        rw [beforeOpen, hcut, Option.elim_some] at h
        rw [h] at hlength
        omega
    · intro h
      have hlast := h.last
      rw [blocks_none hblock] at hlast
      exact beforeOpen_of_not_occurs hlast

/-! ## Every chunking -/

/-- What follows the first block of the text would pass through. -/
def RestPassesThrough (fromStr : Text → Option JsonValue) (text : Text) : Prop :=
  ∀ before body rest, firstBlock text = some (before, body, rest) → PassesThrough fromStr rest

namespace ToolCallScanner

/-- What the scanner holds and what is still to come are handled as they should be: they would pass
through, or no block lies ready in the scanner and no second one comes. -/
def Ready (fromStr : Text → Option JsonValue) (scanner : ToolCallScanner) (text : Text) : Prop :=
  PassesThrough fromStr text ∨
    (scanner.inCall = true ∨ ¬ callOpen <:+: scanner.pending) ∧ RestPassesThrough fromStr text

variable {scanner : ToolCallScanner}

/-- No block lies ready in the scanner. -/
theorem Wf.firstBlock_unread (hwf : scanner.Wf)
    (hclean : scanner.inCall = true ∨ ¬ callOpen <:+: scanner.pending) :
    firstBlock scanner.unread = none := by
  obtain ⟨pending, inCall, callBody⟩ := scanner
  cases inCall with
  | true =>
    obtain ⟨-, hbody⟩ := hwf.inside rfl
    have hopen := Search.cut_self_append callOpen callBody
    simp only [unread, if_true]
    rw [firstBlock_of_cut hopen, Search.cut_eq_none.2 hbody]
    rfl
  | false => exact firstBlock_of_not_occurs (hclean.resolve_left Bool.noConfusion)

/-- What `flush` gives is what is expected of what the scanner holds. -/
theorem flush_expected (hwf : scanner.Wf) (hready : scanner.Ready fromStr scanner.unread) :
    expected fromStr scanner.unread = (scanner.flush.1, []) := by
  rcases hin : scanner.inCall with _ | _
  · have hheld : scanner.unread = scanner.pending := by simp [unread, hin]
    rw [flush, hin, if_neg Bool.false_ne_true]
    rw [hheld] at hready ⊢
    rcases hready with hpasses | ⟨hclean, -⟩
    · exact (expected_eq_self_iff _).2 hpasses
    · have hnone : ¬ callOpen <:+: scanner.pending := hclean.resolve_left (by simp [hin])
      rw [expected_none (firstBlock_of_not_occurs hnone), beforeOpen_of_not_occurs hnone]
  · have hbody : scanner.unread = callOpen ++ scanner.callBody := by simp [unread, hin]
    rw [expected_none (hwf.firstBlock_unread (.inl hin)), flush, if_pos hin, hbody, beforeOpen,
      Search.cut_self_append]
    rfl

theorem run_expected (hwf : scanner.Wf) (pieces : List Text)
    (hready : scanner.Ready fromStr (scanner.unread ++ pieces.flatten)) :
    scanner.run fromStr pieces = some (expected fromStr (scanner.unread ++ pieces.flatten)) := by
  induction pieces generalizing scanner with
  | nil =>
    simp only [List.flatten_nil, List.append_nil] at hready ⊢
    rw [run, flush_expected hwf hready]
  | cons piece pieces ih =>
    obtain ⟨fed, hfeed, hwf', hfed⟩ := feed_spec fromStr hwf piece
    have hflat : scanner.unread ++ (piece :: pieces).flatten =
        (scanner.unread ++ piece) ++ pieces.flatten := by simp
    rw [hflat] at hready ⊢
    generalize scanner.unread ++ piece = whole at hfed hready ⊢
    cases hfed with
    | @passed text scanner' hsplit hclean hlate =>
      have hbehind : BeginsBehind text (scanner'.unread ++ pieces.flatten) := by
        intro i hi
        rw [← List.append_assoc, ← hsplit] at hi
        exact hlate _ i hi
      rw [hsplit, List.append_assoc] at hready ⊢
      have hnext : scanner'.Ready fromStr (scanner'.unread ++ pieces.flatten) := by
        rcases hready with hpasses | ⟨-, hone⟩
        · exact .inl (hpasses.behind hbehind)
        · refine .inr ⟨hclean, fun before body rest hblock => hone (text ++ before) body rest ?_⟩
          rw [firstBlock_behind hbehind, hblock]
          rfl
      simp only [run, hfeed, Option.bind_eq_bind, Option.bind_some]
      rw [ih hwf' hnext, expected_behind hbehind]
      rfl
    | @found before body rest hblock =>
      have hwhole := firstBlock_append hblock pieces.flatten
      have hnext : PassesThrough fromStr (rest ++ pieces.flatten) := by
        rcases hready with hpasses | ⟨-, hone⟩
        · exact ((passesThrough_some hwhole).1 hpasses).2
        · exact hone before body _ hwhole
      simp only [run, hfeed, Option.bind_eq_bind, Option.bind_some]
      have hrun := @ih { pending := rest } hwf' (.inl hnext)
      rw [hrun, expected_some hwhole]
      rfl

end ToolCallScanner

/-- However the text is cut, the same text is shown and the same calls are found, each call of the
text once and none of it shown. -/
def ScansWell (fromStr : Text → Option JsonValue) (text : Text) : Prop :=
  (∀ pieces pieces', pieces.flatten = text → pieces'.flatten = text →
    ToolCallScanner.run fromStr {} pieces = ToolCallScanner.run fromStr {} pieces') ∧
  ∀ pieces, pieces.flatten = text →
    ToolCallScanner.run fromStr {} pieces = some (expected fromStr text)

/-- The scanner does so exactly when what follows the first complete block of the text would pass
through as it is. -/
theorem toolScanner_chunk_independent_iff (fromStr : Text → Option JsonValue) (text : Text) :
    ScansWell fromStr text ↔ RestPassesThrough fromStr text := by
  constructor
  · rintro ⟨-, hexpected⟩ before body rest hblock
    have hone := hexpected [text] (by simp)
    obtain ⟨fed, hfeed, hwf, hfed⟩ :=
      ToolCallScanner.feed_spec fromStr ToolCallScanner.wf_new text
    have hwhole : ToolCallScanner.unread {} ++ text = text := rfl
    rw [hwhole] at hfed
    simp only [ToolCallScanner.run, hfeed, Option.bind_eq_bind, Option.bind_some,
      Option.some.injEq] at hone
    cases hfed with
    | @passed shown scanner hsplit hclean hlate =>
      have hbehind : BeginsBehind shown scanner.unread := by
        intro i hi
        rw [← hsplit] at hi
        exact hlate [] i (by rwa [List.append_nil])
      rw [hsplit, firstBlock_behind hbehind, hwf.firstBlock_unread hclean] at hblock
      cases hblock
    | @found before' body' rest' hblock' =>
      obtain ⟨rfl, rfl, rfl⟩ : before = before' ∧ body = body' ∧ rest = rest' := by
        simpa [hblock] using hblock'
      rw [expected_some hblock] at hone
      obtain ⟨hshown, hcalls⟩ := Prod.mk.inj hone
      rw [← expected_eq_self_iff]
      exact Prod.ext (List.append_cancel_left hshown).symm (List.append_cancel_left hcalls).symm
  · intro h
    have hrun : ∀ pieces, pieces.flatten = text →
        ToolCallScanner.run fromStr {} pieces = some (expected fromStr text) := by
      rintro pieces rfl
      exact ToolCallScanner.run_expected ToolCallScanner.wf_new pieces (.inr ⟨.inr (by decide), h⟩)
    exact ⟨fun pieces pieces' hpieces hpieces' =>
      (hrun pieces hpieces).trans (hrun pieces' hpieces').symm, hrun⟩

end

/-- A call without arguments. -/
def sampleCall : Text := "<tool_call>\x7b\"name\":\"f\"\x7d</tool_call>".toList

/-- `serde_json::from_str` on the body of that call. -/
def sampleFromStr (json : Text) : Option JsonValue :=
  if json = "\x7b\"name\":\"f\"\x7d".toList then some (.object [("name", .string "f")]) else none

/-- Two calls: in one piece the second one is shown as text. -/
theorem second_call_is_shown : ¬ ScansWell sampleFromStr (sampleCall ++ sampleCall) := by
  intro h
  have hsame := congrArg (Option.map fun out => (out.1, out.2.length))
    (h.1 [sampleCall ++ sampleCall] [sampleCall, sampleCall] (by simp) (by simp))
  revert hsame
  decide +kernel

end Hedos.Adapters
