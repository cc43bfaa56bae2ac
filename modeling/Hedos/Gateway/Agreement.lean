import Hedos.Gateway.Unary

/-!
# A client reads the same from both branches

Over the frames of a stream the client's draft follows what `collect_completion` accumulates
(`Draft.Follows`): each loop's chunks keep it (`reads_written`), and the closing frames add what the
collected body has.
-/

namespace Hedos.Gateway

open Hedos.Kernel (JsonValue GenerationStats ToolCall CapabilityChunk RuntimeError)

/-! ## Calls by index -/

section

variable {calls : List (ℕ × ReadCall)} {index : ℕ}

/-- The first piece of a call goes behind the calls of smaller indices. -/
theorem mergeCall_new (h : ∀ entry ∈ calls, entry.1 < index) (piece : ReadCall) :
    mergeCall calls index piece = calls ++ [(index, piece)] := by
  induction calls with
  | nil => rfl
  | cons entry calls ih =>
    obtain ⟨hentry, hrest⟩ := List.forall_mem_cons.1 h
    rw [mergeCall, if_neg (Nat.not_lt.2 hentry.le), if_neg hentry.ne', ih hrest]
    rfl

/-- The next one to the call itself. -/
theorem mergeCall_last (h : ∀ entry ∈ calls, entry.1 < index) (call piece : ReadCall) :
    mergeCall (calls ++ [(index, call)]) index piece = calls ++ [(index, call.extend piece)] := by
  induction calls with
  | nil => simp [mergeCall]
  | cons entry calls ih =>
    obtain ⟨hentry, hrest⟩ := List.forall_mem_cons.1 h
    rw [List.cons_append, mergeCall, if_neg (Nat.not_lt.2 hentry.le), if_neg hentry.ne', ih hrest]
    rfl

theorem below_append (h : ∀ entry ∈ calls, entry.1 < index) {next i : ℕ} (hi : i < next)
    (hnext : index ≤ next) (call : ReadCall) :
    ∀ entry ∈ calls ++ [(i, call)], entry.1 < next := by
  intro entry hentry
  rcases List.mem_append.1 hentry with hold | hnew
  · exact (h entry hold).trans_le hnext
  · rw [List.mem_singleton.1 hnew]
    exact hi

end

/-! ## Following a run -/

/-- The draft has the text and the calls collected so far, no index from the bound on, and neither a
finish reason nor a count. -/
structure Draft.Follows (draft : Draft) (wire : ToolCall → ReadCall) (bound : ℕ)
    (completion : Completion) : Prop where
  text : draft.text = completion.text
  calls : draft.calls.map Prod.snd = completion.toolCalls.map wire
  below : ∀ entry ∈ draft.calls, entry.1 < bound
  finish : draft.finish = none
  count : draft.completionTokens = none

section

variable {draft : Draft} {wire : ToolCall → ReadCall} {bound : ℕ} {completion : Completion}

theorem Draft.follows_start (wire : ToolCall → ReadCall) (bound : ℕ) :
    ({} : Draft).Follows wire bound {} :=
  ⟨rfl, rfl, fun _ h => absurd h List.not_mem_nil, rfl, rfl⟩

theorem Draft.Follows.addText (h : draft.Follows wire bound completion) (text : String) :
    { draft with text := draft.text ++ text }.Follows wire bound (completion.add (.text text)) :=
  ⟨congrArg (· ++ text) h.text, h.calls, h.below, h.finish, h.count⟩

theorem Draft.Follows.addCall (h : draft.Follows wire bound completion) (call : ToolCall)
    {index next : ℕ} (hindex : bound ≤ index) (hnext : index < next) :
    { draft with calls := draft.calls ++ [(index, wire call)] }.Follows wire next
      (completion.add (.toolCall call)) where
  text := h.text
  calls := by
    simp only [Completion.add, List.map_append, h.calls, List.map_cons, List.map_nil]
  below := below_append h.below hnext (hindex.trans hnext.le) _
  finish := h.finish
  count := h.count

theorem Draft.Follows.done (h : draft.Follows wire bound completion)
    (stats : Option GenerationStats) :
    draft.Follows wire bound (completion.add (.done stats)) :=
  ⟨h.text, h.calls, h.below, h.finish, h.count⟩

theorem Draft.Follows.mono (h : draft.Follows wire bound completion) {next : ℕ}
    (hnext : bound ≤ next) : draft.Follows wire next completion :=
  ⟨h.text, h.calls, fun entry hentry => (h.below entry hentry).trans_le hnext, h.finish, h.count⟩

end

variable {σ : Type}

/-- A relation that the frames of every chunk keep is kept by the frames of a run. -/
theorem reads_written {loop : Loop σ} {read : Draft → Frame → Draft}
    {Rel : σ → Draft → Completion → Prop}
    (hchunk : ∀ state draft completion chunk, Rel state draft completion →
      Rel (loop.chunk state chunk).1 ((loop.chunk state chunk).2.foldl read draft)
        (completion.add chunk))
    (chunks : List CapabilityChunk) (state : σ) (draft : Draft) (completion : Completion)
    (h : Rel state draft completion) :
    Rel (loop.written state (chunks.map .ok)).1
      ((loop.written state (chunks.map .ok)).2.foldl read draft)
      (chunks.foldl Completion.add completion) := by
  induction chunks generalizing state draft completion with
  | nil => exact h
  | cons chunk chunks ih =>
    simp only [List.map_cons, Loop.written, List.foldl_append, List.foldl_cons]
    exact ih _ _ _ (hchunk state draft completion chunk h)

theorem failure_map_ok (chunks : List CapabilityChunk) : failure (chunks.map .ok) = none :=
  failure_eq_none_iff.2 fun _ h => by
    obtain ⟨chunk, -, rfl⟩ := List.mem_map.1 h
    exact ⟨chunk, rfl⟩

theorem collectFrom_map_ok (chunks : List CapabilityChunk) (completion : Completion) :
    collectFrom completion (chunks.map .ok) = .ok (chunks.foldl Completion.add completion) := by
  induction chunks generalizing completion with
  | nil => rfl
  | cons chunk chunks ih => exact ih _

/-- All that a loop writes for a run without an error. -/
theorem drain_sent (loop : Loop σ) (chunks : List CapabilityChunk) :
    (loop.drain (chunks.map .ok)).2.sent =
      loop.opening ++ (loop.written loop.start (chunks.map .ok)).2 ++
        loop.closing (loop.written loop.start (chunks.map .ok)).1 := by
  rw [Loop.drain_ok (failure_map_ok chunks)]
  rfl

theorem drainBounded_sent (surface : GatewaySurface) (loop : Loop σ)
    (chunks : List CapabilityChunk) :
    (drainBounded surface loop (chunks.map .ok)).2.sent =
      loop.opening ++ (loop.written loop.start (chunks.map .ok)).2 ++
        loop.closing (loop.written loop.start (chunks.map .ok)).1 := by
  rw [drainBounded, Loop.drain_ok (failure_map_ok chunks)]
  rfl

/-- What a client makes of a stream is to be what it reads in the collected body, without the count
where the stream does not carry it. -/
def Endpoint.agreed (endpoint : Endpoint) (reply : ReadReply) : ReadReply :=
  if endpoint.countsTokens then reply else { reply with completionTokens := none }

/-! ## OpenAI -/

section

variable (toText : JsonValue → String)

/-- A call as the dialects with ids have it. -/
def wireCall (call : ToolCall) : ReadCall where
  id := some call.id
  name := call.name
  arguments := toText call.arguments

variable {calls : List (ℕ × ReadCall)} {draft : Draft} {completion : Completion}

theorem OpenAI.readCall_toolCallWire {index : ℕ}
    (h : ∀ entry ∈ calls, entry.1 < index) (call : ToolCall) :
    OpenAI.readCall calls (OpenAI.toolCallWire toText call index) =
      calls ++ [(index, wireCall toText call)] :=
  mergeCall_new h _

/-- The draft of a chat stream follows the run, and the handler counts its calls. -/
def ChatFollows (state : ChatState) (draft : Draft) (completion : Completion) : Prop :=
  draft.Follows (wireCall toText) state.toolCalls completion ∧
    state.toolCalls = completion.toolCalls.length ∧ state.finalStats = completion.stats

variable (id served model : String) (toolCalls : List ToolCall)

theorem openAIChat_chunk (created : ℤ) (served : String) (includeUsage : Bool)
    (state : ChatState) (draft : Draft) (completion : Completion) (chunk : CapabilityChunk)
    (h : ChatFollows toText state draft completion) :
    ChatFollows toText ((openAIChat toText id created served includeUsage).chunk state chunk).1
      (((openAIChat toText id created served includeUsage).chunk state chunk).2.foldl
        ((Endpoint.openAIChat id created served includeUsage).readFrame toText) draft)
      (completion.add chunk) := by
  obtain ⟨first, finalStats, toolCalls⟩ := state
  obtain ⟨hdraft, hcount, hstats⟩ := h
  cases chunk with
  | text text =>
    refine ⟨?_, hcount, hstats⟩
    have hadd := hdraft.addText text
    cases first <;> exact hadd
  | thinking thought =>
    refine ⟨?_, hcount, hstats⟩
    have hadd := hdraft.addText ""
    have hsame : completion.add (.text "") = completion := by
      simp [Completion.add]
    rw [hsame] at hadd
    cases first <;> exact hadd
  | toolCall call =>
    refine ⟨?_, ?_, hstats⟩
    · have hadd := hdraft.addCall call (le_refl toolCalls) (Nat.lt_succ_self toolCalls)
      rw [← OpenAI.readCall_toolCallWire toText hdraft.below call,
        ← String.append_empty (s := draft.text)] at hadd
      cases first <;> exact hadd
    · simp only [Completion.add, List.length_append, List.length_singleton]
      exact congrArg (· + 1) hcount
  | done stats => exact ⟨hdraft.done stats, hcount, rfl⟩
  | segment text startMs endMs | audio data | vector values | status message =>
    exact ⟨hdraft, hcount, hstats⟩

/-- The calls of a collected body, read in their order. -/
theorem OpenAI.readCalls_mapIdx {bound : ℕ} (h : ∀ entry ∈ calls, entry.1 < bound) :
    ((toolCalls.mapIdx fun index call => toolCallWire toText call (index + bound)).foldl readCall
      calls).map Prod.snd = calls.map Prod.snd ++ toolCalls.map (wireCall toText) := by
  induction toolCalls generalizing calls bound with
  | nil => simp
  | cons call toolCalls ih =>
    have hrest := ih (below_append h (Nat.lt_succ_self bound) (Nat.le_succ bound)
      (wireCall toText call))
    rw [List.mapIdx_cons, List.foldl_cons, Nat.zero_add, readCall_toolCallWire toText h]
    simp only [Nat.add_assoc, Nat.add_comm 1 bound]
    rw [hrest]
    simp

theorem readBody_openAIChat (created : ℤ) (served : String) (includeUsage : Bool)
    (completion : Completion) :
    let endpoint := Endpoint.openAIChat id created served includeUsage
    endpoint.readBody toText (endpoint.body toText completion) =
      { text := completion.text
        calls := completion.toolCalls.map (wireCall toText)
        finish := some (if completion.toolCalls.isEmpty then
          (completion.stats.bind (·.finishReason)).getD "stop" else "tool_calls")
        completionTokens := some ((completion.stats.bind (·.completionTokens)).getD 0) } := by
  obtain ⟨text, toolCalls, stats⟩ := completion
  have hnone : ∀ entry ∈ ([] : List (ℕ × ReadCall)), entry.1 < 0 := fun _ h =>
    absurd h List.not_mem_nil
  have hcalls := OpenAI.readCalls_mapIdx toText toolCalls hnone
  simp only [Nat.add_zero, List.map_nil, List.nil_append] at hcalls
  have htext : "" ++ text = text := String.empty_append
  cases toolCalls with
  | nil =>
    intro endpoint
    rw [← htext]
    rfl
  | cons call toolCalls =>
    intro endpoint
    rw [← hcalls]
    by_cases hempty : text.isEmpty
    · obtain rfl : text = "" := by simpa using hempty
      rfl
    · have hbody : endpoint.body toText ⟨text, call :: toolCalls, stats⟩ = .object
          [("id", .string id), ("object", .string "chat.completion"), ("created", .int created),
            ("model", .string served), ("choices", .array [.object [("index", .int 0),
              ("message", .object [("role", .string "assistant"), ("content", .string text),
                ("tool_calls", .array ((call :: toolCalls).mapIdx fun index call =>
                  OpenAI.toolCallWire toText call index))]),
              ("finish_reason", .string "tool_calls")]]), ("usage", OpenAI.usage stats)] := by
        simp only [endpoint, Endpoint.body, OpenAI.completion, List.isEmpty_cons, if_neg hempty,
          Bool.false_eq_true, if_false]
      rw [hbody]
      show ReadReply.mk ("" ++ text) _ _ _ = _
      rw [htext]
      rfl

/-- The finish reason of a stream, by the number of its calls, is that of the collected body. -/
theorem finish_eq {toolCalls : List ToolCall} {count : ℕ} (hcount : count = toolCalls.length)
    (finish : String) :
    (if count > 0 then "tool_calls" else finish) =
      if toolCalls.isEmpty then finish else "tool_calls" := by
  subst hcount
  cases toolCalls <;> rfl

theorem openAIChat_closing (created : ℤ) (served : String) (includeUsage : Bool)
    {state : ChatState} (h : ChatFollows toText state draft completion) :
    let endpoint := Endpoint.openAIChat id created served includeUsage
    (((openAIChat toText id created served includeUsage).closing state).foldl
        (endpoint.readFrame toText) draft).reply =
      endpoint.agreed (endpoint.readBody toText (endpoint.body toText completion)) := by
  intro endpoint
  obtain ⟨first, finalStats, toolCalls⟩ := state
  obtain ⟨hdraft, hcount, hstats⟩ := h
  have hfinish := finish_eq hcount ((completion.stats.bind (·.finishReason)).getD "stop")
  simp only at hcount hstats
  rw [readBody_openAIChat, ← hfinish, ← hdraft.text, ← hdraft.calls, ← hstats]
  have htext : draft.text ++ "" = draft.text := String.append_empty
  cases includeUsage with
  | false =>
    show ReadReply.mk (draft.text ++ "") (draft.calls.map Prod.snd) _ draft.completionTokens = _
    rw [htext, hdraft.count]
    rfl
  | true =>
    show ReadReply.mk (draft.text ++ "" ++ "") (draft.calls.map Prod.snd) _ _ = _
    rw [htext, htext]
    rfl

theorem openAIChat_agrees (created : ℤ) (served : String) (includeUsage : Bool)
    (chunks : List CapabilityChunk) :
    let endpoint := Endpoint.openAIChat id created served includeUsage
    endpoint.readStream toText (endpoint.reply toText (chunks.map .ok)).sent =
      endpoint.agreed (endpoint.readBody toText
        (endpoint.body toText (chunks.foldl Completion.add {}))) := by
  intro endpoint
  have hwritten := reads_written (openAIChat_chunk toText id created served includeUsage) chunks
    {} {} {} ⟨Draft.follows_start _ _, rfl, rfl⟩
  rw [Endpoint.reply]
  simp only [endpoint]
  rw [drainBounded_sent, Endpoint.readStream, List.foldl_append, List.foldl_append]
  exact openAIChat_closing toText id created served includeUsage hwritten

/-! ### Completions -/

/-- A draft of a prompt endpoint, which has no calls. -/
def TextFollows (finalStats : Option GenerationStats) (draft : Draft) (completion : Completion) :
    Prop :=
  draft = { text := completion.text } ∧ finalStats = completion.stats

theorem TextFollows.text {finalStats : Option GenerationStats}
    (h : TextFollows finalStats draft completion) (text : String) :
    TextFollows finalStats { draft with text := draft.text ++ text }
      (completion.add (.text text)) := by
  obtain ⟨rfl, hstats⟩ := h
  exact ⟨rfl, hstats⟩

theorem openAICompletions_chunk (created : ℤ) (model : String) (includeUsage : Bool)
    (finalStats : Option GenerationStats) (draft : Draft) (completion : Completion)
    (chunk : CapabilityChunk) (h : TextFollows finalStats draft completion) :
    TextFollows ((openAICompletions id created model includeUsage).chunk finalStats chunk).1
      (((openAICompletions id created model includeUsage).chunk finalStats chunk).2.foldl
        ((Endpoint.openAICompletions id created model includeUsage).readFrame toText) draft)
      (completion.add chunk) := by
  cases chunk with
  | text text => exact h.text text
  | done stats => exact ⟨h.1, rfl⟩
  | thinking thought | toolCall call | segment text startMs endMs | audio data | vector values
  | status message => exact h

theorem openAICompletions_closing (created : ℤ) (model : String) (includeUsage : Bool)
    {finalStats : Option GenerationStats} (h : TextFollows finalStats draft completion) :
    let endpoint := Endpoint.openAICompletions id created model includeUsage
    (((openAICompletions id created model includeUsage).closing finalStats).foldl
        (endpoint.readFrame toText) draft).reply =
      endpoint.agreed (endpoint.readBody toText (endpoint.body toText completion)) := by
  intro endpoint
  obtain ⟨text, toolCalls, stats⟩ := completion
  obtain ⟨rfl, rfl⟩ := h
  have htext : text ++ "" = "" ++ text := by rw [String.append_empty, String.empty_append]
  cases includeUsage with
  | false =>
    show ReadReply.mk (text ++ "") [] _ none = ReadReply.mk ("" ++ text) [] _ none
    rw [htext]
    rfl
  | true =>
    show ReadReply.mk (text ++ "" ++ "") [] _ _ = ReadReply.mk ("" ++ text) [] _ _
    rw [String.append_empty (s := text ++ ""), htext]
    rfl

theorem openAICompletions_agrees (created : ℤ) (model : String)
    (includeUsage : Bool) (chunks : List CapabilityChunk) :
    let endpoint := Endpoint.openAICompletions id created model includeUsage
    endpoint.readStream toText (endpoint.reply toText (chunks.map .ok)).sent =
      endpoint.agreed (endpoint.readBody toText
        (endpoint.body toText (chunks.foldl Completion.add {}))) := by
  intro endpoint
  have hwritten := reads_written
    (openAICompletions_chunk toText id created model includeUsage) chunks
    none {} {} ⟨rfl, rfl⟩
  rw [Endpoint.reply]
  simp only [endpoint]
  rw [drain_sent, Endpoint.readStream, List.foldl_append, List.foldl_append]
  exact openAICompletions_closing toText id created model includeUsage hwritten

/-! ## Ollama -/

theorem Ollama.lookup_evalCount (stats : Option GenerationStats) :
    ((Ollama.statsFields stats).lookup "eval_count").bind JsonValue.asI64 =
      stats.bind (·.completionTokens) := by
  unfold Ollama.statsFields
  cases stats with
  | none => rfl
  | some stats =>
    obtain ⟨promptTokens, completionTokens, durationMs⟩ := stats
    cases durationMs <;> cases promptTokens <;> cases completionTokens <;> rfl

/-- A call as Ollama has it. -/
def plainCall (call : ToolCall) : ReadCall where
  id := none
  name := call.name
  arguments := toText call.arguments

/-- The draft of an Ollama chat follows the run, and the handler knows whether it had a call. -/
def OllamaFollows (state : OllamaState) (draft : Draft) (completion : Completion) : Prop :=
  draft.Follows (plainCall toText) draft.calls.length completion ∧
    state.sawToolCall = !completion.toolCalls.isEmpty ∧ state.finalStats = completion.stats

theorem Ollama.readCall_toolCallEntry
    (h : ∀ entry ∈ calls, entry.1 < calls.length) (call : ToolCall) :
    Ollama.readCall toText calls (Ollama.toolCallEntry call) =
      calls ++ [(calls.length, plainCall toText call)] :=
  mergeCall_new h _

theorem ollamaChat_chunk (now : ℕ → String) (state : OllamaState) (draft : Draft)
    (completion : Completion) (chunk : CapabilityChunk)
    (h : OllamaFollows toText state draft completion) :
    OllamaFollows toText ((ollamaChat served now).chunk state chunk).1
      (((ollamaChat served now).chunk state chunk).2.foldl
        ((Endpoint.ollamaChat served now).readFrame toText) draft) (completion.add chunk) := by
  obtain ⟨finalStats, sawToolCall, frames⟩ := state
  obtain ⟨hdraft, hsaw, hstats⟩ := h
  cases chunk with
  | text text => exact ⟨hdraft.addText text, hsaw, hstats⟩
  | thinking thought =>
    have hadd := hdraft.addText ""
    have hsame : completion.add (.text "") = completion := by
      simp [Completion.add]
    rw [hsame] at hadd
    exact ⟨hadd, hsaw, hstats⟩
  | toolCall call =>
    refine ⟨?_, by simp [ollamaChat, Completion.add], hstats⟩
    have hadd := hdraft.addCall call (le_refl draft.calls.length) (Nat.lt_succ_self _)
    have hlength : draft.calls.length + 1 =
        (draft.calls ++ [(draft.calls.length, plainCall toText call)]).length := by simp
    rw [Nat.succ_eq_add_one, hlength, ← Ollama.readCall_toolCallEntry toText hdraft.below call,
      ← String.append_empty (s := draft.text)] at hadd
    exact hadd
  | done stats => exact ⟨hdraft.done stats, hsaw, rfl⟩
  | segment text startMs endMs | audio data | vector values | status message =>
    exact ⟨hdraft, hsaw, hstats⟩

theorem Ollama.readCalls_map (h : ∀ entry ∈ calls, entry.1 < calls.length) :
    ((toolCalls.map toolCallEntry).foldl (readCall toText) calls).map Prod.snd =
      calls.map Prod.snd ++ toolCalls.map (plainCall toText) := by
  induction toolCalls generalizing calls with
  | nil => simp
  | cons call toolCalls ih =>
    have hnext : ∀ entry ∈ calls ++ [(calls.length, plainCall toText call)],
        entry.1 < (calls ++ [(calls.length, plainCall toText call)]).length := by
      rw [List.length_append, List.length_singleton]
      exact below_append h (Nat.lt_succ_self _) (Nat.le_succ _) _
    rw [List.map_cons, List.foldl_cons, readCall_toolCallEntry toText h, ih hnext]
    simp

/-- Why Ollama says that a reply is done. -/
def doneReason (completion : Completion) : String :=
  let finish := completion.stats.bind (·.finishReason)
  if !completion.toolCalls.isEmpty ∨ finish = some "tool_calls" then "stop" else finish.getD "stop"

theorem readBody_ollamaChat (now : ℕ → String) (completion : Completion) :
    let endpoint := Endpoint.ollamaChat served now
    endpoint.readBody toText (endpoint.body toText completion) =
      { text := completion.text
        calls := completion.toolCalls.map (plainCall toText)
        finish := some (doneReason completion)
        completionTokens := completion.stats.bind (·.completionTokens) } := by
  intro endpoint
  obtain ⟨text, toolCalls, stats⟩ := completion
  have hnone : ∀ entry ∈ ([] : List (ℕ × ReadCall)), entry.1 < 0 := fun _ h =>
    absurd h List.not_mem_nil
  have hcalls := Ollama.readCalls_map toText toolCalls hnone
  have htext : "" ++ text = text := String.empty_append
  have hcount : ((((Ollama.statsFields stats).lookup "eval_count").bind JsonValue.asI64) <|> none) =
      stats.bind (·.completionTokens) := by
    rw [Ollama.lookup_evalCount]
    cases stats.bind (·.completionTokens) <;> rfl
  simp only [List.map_nil, List.nil_append] at hcalls
  simp only
  rw [← hcalls, ← hcount]
  cases toolCalls with
  | nil =>
    show ReadReply.mk ("" ++ text) _ _ _ = _
    rw [htext]
    rfl
  | cons call toolCalls =>
    show ReadReply.mk ("" ++ text) _ _ _ = _
    rw [htext]
    rfl

/-- The last line of a stream, whose calls have all been sent, adds what the whole reply has. -/
theorem readChat_finalFrame (served createdAt : String) (stats : GenerationStats) (draft : Draft) :
    (Ollama.readChat toText draft (Ollama.finalFrame served createdAt stats)).reply =
      { text := draft.text ++ ""
        calls := draft.calls.map Prod.snd
        finish := some (if stats.finishReason = some "tool_calls" then "stop"
          else stats.finishReason.getD "stop")
        completionTokens := stats.completionTokens <|> draft.completionTokens } := by
  have hcount := Ollama.lookup_evalCount (some stats)
  simp only [Option.bind_some] at hcount
  rw [← hcount]
  rfl

theorem ollamaChat_closing (now : ℕ → String) {state : OllamaState}
    (h : OllamaFollows toText state draft completion) :
    let endpoint := Endpoint.ollamaChat served now
    (((ollamaChat served now).closing state).foldl (endpoint.readFrame toText) draft).reply =
      endpoint.agreed (endpoint.readBody toText (endpoint.body toText completion)) := by
  intro endpoint
  obtain ⟨finalStats, sawToolCall, frames⟩ := state
  obtain ⟨text, toolCalls, stats⟩ := completion
  obtain ⟨hdraft, hsaw, hstats⟩ := h
  simp only at hsaw hstats
  subst hsaw hstats
  have hagreed (reply : ReadReply) : endpoint.agreed reply = reply := rfl
  have htext : draft.text ++ "" = text := by rw [String.append_empty, hdraft.text]
  have hcalls : draft.calls.map Prod.snd = toolCalls.map (plainCall toText) := hdraft.calls
  have hclosing : ∃ last : GenerationStats,
      ((ollamaChat served now).closing ⟨finalStats, !toolCalls.isEmpty, frames⟩).foldl
        (endpoint.readFrame toText) draft =
          Ollama.readChat toText draft (Ollama.finalFrame served (now frames) last) ∧
      last.completionTokens = finalStats.bind (·.completionTokens) ∧
      (if last.finishReason = some "tool_calls" then "stop" else last.finishReason.getD "stop") =
        doneReason ⟨text, toolCalls, finalStats⟩ := by
    cases toolCalls with
    | nil =>
      refine ⟨finalStats.getD {}, rfl, by cases finalStats <;> rfl, ?_⟩
      cases finalStats <;> simp [doneReason]
    | cons call toolCalls =>
      refine ⟨{ finalStats.getD {} with finishReason := some "stop" }, rfl, ?_, ?_⟩
      · cases finalStats <;> rfl
      · simp [doneReason]
  obtain ⟨last, hlast, hcount, hfinish⟩ := hclosing
  rw [hagreed, readBody_ollamaChat, hlast, readChat_finalFrame, htext, hcalls, hcount, hfinish,
    hdraft.count]
  cases finalStats.bind (·.completionTokens) <;> rfl

theorem ollamaChat_agrees (now : ℕ → String) (chunks : List CapabilityChunk) :
    let endpoint := Endpoint.ollamaChat served now
    endpoint.readStream toText (endpoint.reply toText (chunks.map .ok)).sent =
      endpoint.agreed (endpoint.readBody toText
        (endpoint.body toText (chunks.foldl Completion.add {}))) := by
  intro endpoint
  have hwritten := reads_written (ollamaChat_chunk toText served now) chunks
    {} {} {} ⟨Draft.follows_start _ _, rfl, rfl⟩
  rw [Endpoint.reply]
  simp only [endpoint]
  rw [drainBounded_sent, Endpoint.readStream, List.foldl_append, List.foldl_append]
  exact ollamaChat_closing toText served now hwritten

/-! ### Generate -/

def GenerateFollows (state : GenerateState) (draft : Draft) (completion : Completion) : Prop :=
  TextFollows state.finalStats draft completion

theorem ollamaGenerate_chunk (now : ℕ → String) (state : GenerateState)
    (draft : Draft) (completion : Completion) (chunk : CapabilityChunk)
    (h : GenerateFollows state draft completion) :
    GenerateFollows ((ollamaGenerate model now).chunk state chunk).1
      (((ollamaGenerate model now).chunk state chunk).2.foldl
        ((Endpoint.ollamaGenerate model now).readFrame toText) draft) (completion.add chunk) := by
  cases chunk with
  | text text => exact TextFollows.text h text
  | done stats => exact ⟨h.1, rfl⟩
  | thinking thought | toolCall call | segment text startMs endMs | audio data | vector values
  | status message => exact h

theorem ollamaGenerate_closing (now : ℕ → String) {state : GenerateState}
    (h : GenerateFollows state draft completion) :
    let endpoint := Endpoint.ollamaGenerate model now
    (((ollamaGenerate model now).closing state).foldl (endpoint.readFrame toText) draft).reply =
      endpoint.agreed (endpoint.readBody toText (endpoint.body toText completion)) := by
  intro endpoint
  obtain ⟨finalStats, frames⟩ := state
  obtain ⟨text, toolCalls, stats⟩ := completion
  obtain ⟨rfl, hstats⟩ := h
  simp only at hstats
  subst hstats
  have htext : text ++ "" = "" ++ text := by rw [String.append_empty, String.empty_append]
  show ReadReply.mk (text ++ "") [] _ _ = ReadReply.mk ("" ++ text) [] _ _
  rw [htext]
  rfl

theorem ollamaGenerate_agrees (now : ℕ → String) (chunks : List CapabilityChunk) :
    let endpoint := Endpoint.ollamaGenerate model now
    endpoint.readStream toText (endpoint.reply toText (chunks.map .ok)).sent =
      endpoint.agreed (endpoint.readBody toText
        (endpoint.body toText (chunks.foldl Completion.add {}))) := by
  intro endpoint
  have hwritten := reads_written (ollamaGenerate_chunk toText model now) chunks {} {} {} ⟨rfl, rfl⟩
  rw [Endpoint.reply]
  simp only [endpoint]
  rw [drain_sent, Endpoint.readStream, List.foldl_append, List.foldl_append]
  exact ollamaGenerate_closing toText model now hwritten

/-! ## Anthropic -/

/-- The draft of a message follows the run; the blocks of its calls lie below the current one. -/
def MessageFollows (state : MessageState) (draft : Draft) (completion : Completion) : Prop :=
  draft.Follows (wireCall toText) state.index completion ∧
    state.toolCalls = completion.toolCalls.length ∧ state.finalStats = completion.stats

theorem readEvent_textBlockStart (id served : String) (draft : Draft) (index : ℕ) :
    (Endpoint.anthropicMessages id served).readFrame toText draft
      (Anthropic.textBlockStart index) = draft := by
  show { draft with text := draft.text ++ "" } = draft
  rw [String.append_empty]

theorem readEvent_textDelta (id served : String) (draft : Draft) (index : ℕ) (text : String) :
    (Endpoint.anthropicMessages id served).readFrame toText draft
      (Anthropic.textDelta index text) = { draft with text := draft.text ++ text } := rfl

/-- A call is opened and then given its input, in one piece. -/
theorem readEvent_call (id served : String) (draft : Draft) {index : ℕ}
    (h : ∀ entry ∈ draft.calls, entry.1 < index) (call : ToolCall) :
    [Anthropic.toolBlockStart index call, Anthropic.toolInputDelta toText index call,
        Anthropic.blockStop index].foldl
      ((Endpoint.anthropicMessages id served).readFrame toText) draft =
        { draft with calls := draft.calls ++ [(index, wireCall toText call)] } := by
  have hopened : (Endpoint.anthropicMessages id served).readFrame toText draft
      (Anthropic.toolBlockStart index call) =
        { draft with calls := draft.calls ++ [(index, ⟨some call.id, call.name, ""⟩)] } := by
    rw [← mergeCall_new h]
    rfl
  have hextended : (ReadCall.mk (some call.id) call.name "").extend
      ⟨none, "", toText call.arguments⟩ = wireCall toText call := by
    unfold ReadCall.extend wireCall
    by_cases hempty : call.name.isEmpty
    · rw [if_pos hempty, String.empty_append, String.isEmpty_iff.1 hempty]
      rfl
    · rw [if_neg hempty, String.empty_append]
      rfl
  rw [List.foldl_cons, hopened, ← hextended, ← mergeCall_last h]
  rfl

theorem anthropicMessages_chunk (id served : String) (state : MessageState) (draft : Draft)
    (completion : Completion) (chunk : CapabilityChunk)
    (h : MessageFollows toText state draft completion) :
    MessageFollows toText ((anthropicMessages toText id served).chunk state chunk).1
      (((anthropicMessages toText id served).chunk state chunk).2.foldl
        ((Endpoint.anthropicMessages id served).readFrame toText) draft)
      (completion.add chunk) := by
  obtain ⟨index, textOpen, toolCalls, finalStats⟩ := state
  obtain ⟨hdraft, hcount, hstats⟩ := h
  simp only at hdraft hcount hstats
  cases chunk with
  | text text =>
    refine ⟨?_, hcount, hstats⟩
    have hadd := hdraft.addText text
    cases textOpen with
    | true => exact hadd
    | false =>
      simp only [anthropicMessages, Bool.false_eq_true, if_false, List.cons_append, List.nil_append,
        List.foldl_cons, List.foldl_nil]
      rw [readEvent_textBlockStart, readEvent_textDelta]
      exact hadd
  | toolCall call =>
    refine ⟨?_, ?_, hstats⟩
    · -- an open text block is closed first, and the call has the index behind it
      simp only [anthropicMessages]
      cases textOpen with
      | true =>
        have hbelow := (hdraft.mono (Nat.le_succ index)).below
        have hstop : [Anthropic.blockStop index].foldl
            ((Endpoint.anthropicMessages id served).readFrame toText) draft = draft := rfl
        simp only [if_true]
        rw [List.foldl_append, hstop, readEvent_call toText id served draft hbelow]
        exact hdraft.addCall call (Nat.le_succ index) (Nat.lt_succ_self _)
      | false =>
        simp only [Bool.false_eq_true, if_false, List.nil_append]
        rw [readEvent_call toText id served draft hdraft.below]
        exact hdraft.addCall call (le_refl index) (Nat.lt_succ_self index)
    · simp only [Completion.add, List.length_append, List.length_singleton]
      exact congrArg (· + 1) hcount
  | done stats => exact ⟨hdraft.done stats, hcount, rfl⟩
  | thinking thought | segment text startMs endMs | audio data | vector values | status message =>
    exact ⟨hdraft, hcount, hstats⟩

theorem Anthropic.readBlocks_map (draft : Draft)
    (h : ∀ entry ∈ draft.calls, entry.1 < draft.calls.length) :
    (((toolCalls.map toolUseBlock).foldl (readBlock toText) draft).calls.map Prod.snd =
        draft.calls.map Prod.snd ++ toolCalls.map (wireCall toText)) ∧
      ((toolCalls.map toolUseBlock).foldl (readBlock toText) draft).text = draft.text := by
  induction toolCalls generalizing draft with
  | nil => simp
  | cons call toolCalls ih =>
    have hread : readBlock toText draft (toolUseBlock call) =
        { draft with calls := draft.calls ++ [(draft.calls.length, wireCall toText call)] } := by
      rw [← mergeCall_new h]
      rfl
    have hnext : ∀ entry ∈ draft.calls ++ [(draft.calls.length, wireCall toText call)],
        entry.1 < (draft.calls ++ [(draft.calls.length, wireCall toText call)]).length := by
      rw [List.length_append, List.length_singleton]
      exact below_append h (Nat.lt_succ_self _) (Nat.le_succ _) _
    obtain ⟨hcalls, htext⟩ := ih { draft with
      calls := draft.calls ++ [(draft.calls.length, wireCall toText call)] } hnext
    rw [List.map_cons, List.foldl_cons, hread, hcalls, htext]
    exact ⟨by simp, rfl⟩

theorem readBody_anthropicMessages (id served : String) (completion : Completion) :
    let endpoint := Endpoint.anthropicMessages id served
    endpoint.readBody toText (endpoint.body toText completion) =
      { text := completion.text
        calls := completion.toolCalls.map (wireCall toText)
        finish := some (Anthropic.stopReason completion.toolCalls.length completion.stats)
        completionTokens := some ((completion.stats.bind (·.completionTokens)).getD 0) } := by
  intro endpoint
  obtain ⟨text, toolCalls, stats⟩ := completion
  obtain ⟨hcalls, htext⟩ := Anthropic.readBlocks_map toText toolCalls { text := text }
    fun _ h => absurd h List.not_mem_nil
  have hblocks : (Anthropic.contentBlocks text toolCalls).foldl (Anthropic.readBlock toText) {} =
      (toolCalls.map Anthropic.toolUseBlock).foldl (Anthropic.readBlock toText)
        { text := text } := by
    unfold Anthropic.contentBlocks
    rw [List.foldl_append]
    by_cases hempty : text.isEmpty
    · rw [if_pos hempty, String.isEmpty_iff.1 hempty]
      rfl
    · rw [if_neg hempty]
      show _ = (toolCalls.map Anthropic.toolUseBlock).foldl (Anthropic.readBlock toText)
        { text := text }
      rw [← String.empty_append (s := text)]
      rfl
  simp only [List.map_nil, List.nil_append] at hcalls
  show ReadReply.mk ((Anthropic.contentBlocks text toolCalls).foldl
    (Anthropic.readBlock toText) {}).text (((Anthropic.contentBlocks text toolCalls).foldl
      (Anthropic.readBlock toText) {}).calls.map Prod.snd) _ _ = _
  rw [hblocks, hcalls, htext]
  rfl

theorem anthropicMessages_closing (id served : String) {state : MessageState}
    (h : MessageFollows toText state draft completion) :
    let endpoint := Endpoint.anthropicMessages id served
    (((anthropicMessages toText id served).closing state).foldl
        (endpoint.readFrame toText) draft).reply =
      endpoint.agreed (endpoint.readBody toText (endpoint.body toText completion)) := by
  intro endpoint
  obtain ⟨index, textOpen, toolCalls, finalStats⟩ := state
  obtain ⟨hdraft, hcount, hstats⟩ := h
  simp only at hcount hstats
  have hagreed (reply : ReadReply) : endpoint.agreed reply = reply := rfl
  rw [hagreed, readBody_anthropicMessages, ← hdraft.text, ← hdraft.calls, ← hcount, ← hstats]
  cases textOpen <;> rfl

theorem anthropicMessages_agrees (id served : String) (chunks : List CapabilityChunk) :
    let endpoint := Endpoint.anthropicMessages id served
    endpoint.readStream toText (endpoint.reply toText (chunks.map .ok)).sent =
      endpoint.agreed (endpoint.readBody toText
        (endpoint.body toText (chunks.foldl Completion.add {}))) := by
  intro endpoint
  have hwritten := reads_written (anthropicMessages_chunk toText id served) chunks {} {} {}
    ⟨Draft.follows_start _ _, rfl, rfl⟩
  rw [Endpoint.reply]
  simp only [endpoint]
  rw [drainBounded_sent, Endpoint.readStream, List.foldl_append, List.foldl_append]
  exact anthropicMessages_closing toText id served hwritten

end

/-! ## Every endpoint -/

/-- For every run without an error the reply a client folds from the streamed frames is the one it
reads in the collected body: the text, the tool calls with their ids, names and arguments, the
finish reason and the token count. Only an OpenAI stream that was not asked for its usage has no
count. -/
theorem streamed_agrees_with_unary (toText : JsonValue → String) (endpoint : Endpoint)
    (chunks : List CapabilityChunk) :
    ∃ body, endpoint.unary toText (chunks.map .ok) = .ok body ∧
      endpoint.readStream toText (endpoint.reply toText (chunks.map .ok)).sent =
        endpoint.agreed (endpoint.readBody toText body) := by
  refine ⟨endpoint.body toText (chunks.foldl Completion.add {}), ?_, ?_⟩
  · rw [Endpoint.unary, collectCompletion, collectFrom_map_ok]
    rfl
  · cases endpoint with
    | openAIChat id created served includeUsage =>
      exact openAIChat_agrees toText id created served includeUsage chunks
    | openAICompletions id created model includeUsage =>
      exact openAICompletions_agrees toText id created model includeUsage chunks
    | ollamaChat served now => exact ollamaChat_agrees toText served now chunks
    | ollamaGenerate model now => exact ollamaGenerate_agrees toText model now chunks
    | anthropicMessages id served => exact anthropicMessages_agrees toText id served chunks

/-- A chat whose stream was not asked for its usage, and a run of five tokens. -/
theorem unasked_stream_has_no_count :
    ∃ (toText : JsonValue → String) (endpoint : Endpoint) (chunks : List CapabilityChunk)
      (body : JsonValue),
      endpoint.unary toText (chunks.map .ok) = .ok body ∧
        (endpoint.readStream toText
          (endpoint.reply toText (chunks.map .ok)).sent).completionTokens = none ∧
        (endpoint.readBody toText body).completionTokens = some 5 :=
  ⟨fun _ => "", .openAIChat "chatcmpl-0" 1700000000 "llama" false,
    [.text "Once", .done (some { completionTokens := some 5, finishReason := some "stop" })],
    _, rfl, rfl, rfl⟩

end Hedos.Gateway
