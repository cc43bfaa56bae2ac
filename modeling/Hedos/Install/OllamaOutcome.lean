import Hedos.Install.Heard
import Hedos.Install.OllamaPull

/-!
# How an install through Ollama ends

The install service with the Ollama provider behind one of its installs (`Sends`): the install is
done exactly when the first decisive line of the body is a success, and on the way it reports the
sums of its layers (`ollama_pull_outcome`).
-/

namespace Hedos.Install.Ollama

open Hedos.Install.Service (State Config Action Event Item StreamEvent Progress Sends StreamEnded
  EndsWith HeardAt shown)

/-! ## What is sent -/

/-- The events that `install` sends. -/
def sentEvents (f : Foreign) (started : Bool) (chunks : List Bytes) : List StreamEvent :=
  (if started then [StreamEvent.status "Starting Ollama…"] else []) ++
    (readPull f {} [] 0 chunks .eof).1

/-- The error `install` sends behind them. -/
def failure (result : Except InstallError Unit) : List Item :=
  match result with
  | .ok () => []
  | .error error => [.error error]

theorem install_eq (f : Foreign) (started : Bool) (chunks : List Bytes) :
    install f started chunks .eof =
      (sentEvents f started chunks).map .ok ++ failure (readPull f {} [] 0 chunks .eof).2 := by
  rw [install, sentEvents, List.map_append]
  cases started <;> rfl

theorem progressOf_sentEvents (f : Foreign) (started : Bool) (chunks : List Bytes) :
    progressOf (sentEvents f started chunks) = progressOf (readPull f {} [] 0 chunks .eof).1 := by
  cases started <;> rfl

section

variable {config : Config} {sent seen : List StreamEvent} {result : Except InstallError Unit}

/-- What was told before the sender went away or the stream failed. -/
theorem prefix_of_heard (h : seen.map .ok <+: sent.map .ok ++ failure result) : seen <+: sent := by
  induction seen generalizing sent with
  | nil => exact List.nil_prefix
  | cons event seen ih =>
    cases sent with
    | nil =>
      cases result with
      | ok _ => simp [failure] at h
      | error error => simp [failure] at h
    | cons other sent =>
      rw [List.map_cons, List.map_cons, List.cons_append, List.cons_prefix_cons,
        Except.ok.injEq] at h
      exact List.cons_prefix_cons.2 ⟨h.1, ih h.2⟩

/-- Behind all that was sent without an error there is none. -/
theorem result_of_ok
    (h : sent.map .ok ++ failure result = seen.map (Except.ok (ε := InstallError))) :
    seen = sent ∧ result = .ok () := by
  induction sent generalizing seen with
  | nil =>
    cases result with
    | ok _ => simpa [failure, eq_comm] using h
    | error error =>
      cases seen with
      | nil => cases h
      | cons event seen => cases h
  | cons event sent ih =>
    cases seen with
    | nil => cases h
    | cons other seen =>
      rw [List.map_cons, List.map_cons, List.cons_append, List.cons_eq_cons, Except.ok.injEq] at h
      obtain ⟨rfl, hrest⟩ := h
      obtain ⟨rfl, hresult⟩ := ih hrest
      exact ⟨rfl, hresult⟩

/-- An error comes behind all the events. -/
theorem result_of_error {error : InstallError} {rest : List Item}
    (h : seen.map .ok ++ .error error :: rest <+: sent.map .ok ++ failure result) :
    seen = sent ∧ result = .error error := by
  induction sent generalizing seen with
  | nil =>
    cases result with
    | ok _ => simp [failure] at h
    | error other =>
      cases seen with
      | nil =>
        simp only [failure, List.map_nil, List.nil_append, List.cons_prefix_cons,
          Except.error.injEq] at h
        exact ⟨rfl, by rw [h.1]⟩
      | cons event seen => simp [failure] at h
  | cons event sent ih =>
    cases seen with
    | nil => simp at h
    | cons other seen =>
      simp only [List.map_cons, List.cons_append, List.cons_prefix_cons, Except.ok.injEq] at h
      obtain ⟨rfl, hrest⟩ := h
      obtain ⟨rfl, hresult⟩ := ih hrest
      exact ⟨rfl, hresult⟩

theorem progress_shown (seen : List StreamEvent) :
    (shown seen).filterMap Event.asProgress = progressOf seen := by
  have hmap : ∀ events : List StreamEvent,
      (events.map StreamEvent.toEvent).filterMap Event.asProgress = progressOf events := by
    intro events
    induction events with
    | nil => rfl
    | cons event events ih =>
      cases event with
      | status message => exact ih
      | progress progress => exact congrArg (progress :: ·) ih
  exact hmap seen

end

/-! ## The outcome -/

section

variable {f : Foreign} {started : Bool} {chunks : List Bytes} {config : Config}
  {items : List Item} {closed : Bool} {seen : List StreamEvent} {terminal : Event}

/-- A stream that was heard to its end is the whole pull, and the install ends as this did. -/
theorem ends_with (hlimits : BelowLimits [] 0 chunks)
    (horder : items <+: install f started chunks .eof)
    (hlast : closed = true → items = install f started chunks .eof)
    (hends : EndsWith config items closed seen terminal) :
    progressOf seen = reportsOf (layersOf f (bodyLines chunks.flatten)) ∧
      (Succeeds f (bodyLines chunks.flatten) ∧ terminal = .done ∨
        ¬ Succeeds f (bodyLines chunks.flatten) ∧ ∃ message, terminal = .failed message) := by
  obtain ⟨hreports, hresult⟩ := readPull_spec f hlimits
  rw [← progressOf_sentEvents f started] at hreports
  rw [install_eq] at horder hlast
  cases hends with
  | done hclosed hitems =>
    obtain ⟨rfl, hok⟩ := result_of_ok ((hlast hclosed).symm.trans hitems)
    exact ⟨hreports, .inl ⟨hresult.1 hok, rfl⟩⟩
  | failed error rest hitems =>
    rw [hitems] at horder
    obtain ⟨rfl, herror⟩ := result_of_error horder
    refine ⟨hreports, .inr ⟨fun hsucceeds => ?_, config.text error, rfl⟩⟩
    rw [hresult.2 hsucceeds] at herror
    cases herror

/-- What was told of the pull so far. -/
theorem reports_prefix (hlimits : BelowLimits [] 0 chunks) {rest : List Item}
    (horder : seen.map .ok ++ rest <+: install f started chunks .eof) :
    progressOf seen <+: reportsOf (layersOf f (bodyLines chunks.flatten)) := by
  rw [← (readPull_spec f hlimits).1, ← progressOf_sentEvents f started]
  rw [install_eq] at horder
  exact (prefix_of_heard ((List.prefix_append _ _).trans horder)).filterMap _

end

/-- Whatever the chunks of a body and the order of the steps: an install whose provider sends what
a pull through Ollama makes of the body, and which nobody cancels, reports after each progress line
the sums of the layers so far; it ends as done exactly when the first line that is an error or a
success is a success, and as failed otherwise; and once the stream has ended it is concluded. -/
theorem ollama_pull_outcome (f : Foreign) (started : Bool) {chunks : List Bytes}
    (hlimits : BelowLimits [] 0 chunks) {config : Config} {actions : List Action} {s : State}
    {i : ℕ} (hrun : Transition.run (Service.step config) {} actions = some s)
    (hsends : Sends i (install f started chunks .eof) actions) :
    (i ∈ s.concluded →
      ((s.emitted i).getLast? = some .done ↔ Succeeds f (bodyLines chunks.flatten)) ∧
      ((∃ message, (s.emitted i).getLast? = some (.failed message)) ↔
        ¬ Succeeds f (bodyLines chunks.flatten)) ∧
      (s.emitted i).filterMap Event.asProgress =
        reportsOf (layersOf f (bodyLines chunks.flatten))) ∧
    (s.emitted i).filterMap Event.asProgress <+: reportsOf (layersOf f (bodyLines chunks.flatten)) ∧
    (StreamEnded i actions →
      i ∈ s.concluded ∨ (Service.step config s (.task i)).isSome = true ∧
        ∃ n, ∀ more t, Transition.run (Service.step config) s more = some t →
          n ≤ more.countP (Action.isTask i) → i ∈ t.concluded) := by
  obtain ⟨hinv, hfollows⟩ := Service.heard_run hsends.stays hrun
  refine ⟨fun hconcluded => ?_, ?_, hfollows.concludes hinv⟩
  · obtain ⟨task, htask, hpc⟩ := (hinv.concluded i).1 hconcluded
    have hheard := (hfollows.heard task htask).heard
    rw [hpc] at hheard
    cases hheard with
    | finished seen terminal hends hemitted =>
      obtain ⟨hreports, hend⟩ := ends_with hlimits hsends.order hsends.last hends
      have hlast : (s.emitted i).getLast? = some terminal := by
        rw [hemitted, List.getLast?_concat]
      have hnone : terminal.asProgress = none := by
        rcases hend with ⟨-, rfl⟩ | ⟨-, message, rfl⟩ <;> rfl
      rw [hlast, hemitted, List.filterMap_append, progress_shown, hreports]
      refine ⟨?_, ?_, by simp [hnone]⟩
      · rcases hend with ⟨hsucceeds, rfl⟩ | ⟨hfails, message, rfl⟩
        · simp [hsucceeds]
        · simp [hfails]
      · rcases hend with ⟨hsucceeds, rfl⟩ | ⟨hfails, message, rfl⟩
        · simp [hsucceeds]
        · simp [hfails]
  · cases htask : s.tasks i with
    | none =>
      have hempty : s.emitted i = [] := by
        cases hinv.ids i with
        | unused _ _ _ hemitted => exact hemitted
        | active task _ _ hsome => rw [htask] at hsome; cases hsome
        | concluded task _ hsome => rw [htask] at hsome; cases hsome
      rw [hempty]
      exact List.nil_prefix
    | some task =>
      have hheard := (hfollows.heard task htask).heard
      have hprefix := hsends.order
      have hended : ∀ {seen terminal}, EndsWith config (Service.pushed i actions)
          (actions.any (Action.closes i)) seen terminal →
          progressOf seen <+: reportsOf (layersOf f (bodyLines chunks.flatten)) := by
        intro seen terminal hends
        rw [(ends_with hlimits hsends.order hsends.last hends).1]
      generalize task.pc = pc at hheard
      cases hheard with
      | preparing _ _ _ hemitted =>
        rw [hemitted]
        exact List.nil_prefix
      | selecting seen hitems hemitted =>
        rw [hitems] at hprefix
        rw [hemitted, progress_shown]
        exact reports_prefix hlimits hprefix
      | handling seen event hitems hemitted =>
        rw [hitems] at hprefix
        rw [hemitted, progress_shown]
        exact reports_prefix hlimits hprefix
      | dropping seen terminal failure hends hemitted =>
        rw [hemitted, progress_shown]
        exact hended hends
      | concluding seen terminal failure hends hemitted =>
        rw [hemitted, progress_shown]
        exact hended hends
      | finished seen terminal hends hemitted =>
        have hnone : terminal.asProgress = none := by
          cases hends <;> rfl
        rw [hemitted, List.filterMap_append, progress_shown]
        simpa [hnone] using hended hends

/-! ## A pull that succeeds -/

def layerText : String :=
  "\x7b\"status\":\"pulling a\",\"digest\":\"a\",\"total\":10,\"completed\":4\x7d"

def successText : String := "\x7b\"status\":\"success\"\x7d"

/-- The JSON of the two lines, and ASCII. -/
def sampleForeign : Foreign where
  fromStr text :=
    if text = layerText then
      some { status := some "pulling a", digest := some "a", total := some 10, completed := some 4 }
    else if text = successText then some { status := some "success" }
    else none
  utf8Lossy bytes := String.ofList (bytes.map fun byte => Char.ofNat byte.toNat)

def ascii (text : String) : Bytes := text.toList.map fun c => UInt8.ofNat c.toNat

/-- The first line comes in two chunks, the second without its newline. -/
def sampleChunks : List Bytes :=
  [(ascii layerText).take 20, (ascii layerText).drop 20 ++ [13, 10] ++ ascii successText]

def gemma : Service.Plan :=
  { provider := "ollama", reference := "gemma3:4b", displayName := "gemma3:4b", totalBytes := none
    remainingBytes := none }

def ollamaOnly : Config :=
  { providers := ["ollama"], required := id, text := fun _ => "the pull failed" }

/-- The daemon is there; the events are heard one by one, and then the end of the stream. -/
def sampleRun : List Action :=
  [.begin gemma 100 0, .task 0,
    .push 0 (.ok (.progress
      { bytesDownloaded := 4, totalBytes := some 10, totalIsPartial := true })),
    .task 0, .task 0, .close 0, .task 0, .task 0, .task 0]

theorem ollama_pull_outcome_cut :
    ∃ s, Transition.run (Service.step ollamaOnly) {} sampleRun = some s ∧
      (s.emitted 0).getLast? = some .done ∧
      (s.emitted 0).filterMap Event.asProgress =
        [{ bytesDownloaded := 4, totalBytes := some 10, totalIsPartial := true }] := by
  have hrun : (Transition.run (Service.step ollamaOnly) {} sampleRun).map State.concluded =
      some [0] := by
    decide +kernel
  rw [Option.map_eq_some_iff] at hrun
  obtain ⟨s, hs, hconcluded⟩ := hrun
  have hsends : Sends 0 (install sampleForeign false sampleChunks .eof) sampleRun := by
    refine ⟨?_, ?_, ?_⟩
    · intro action haction
      have hall : sampleRun.all (fun action => !action.stops 0) = true := by decide +kernel
      simpa using List.all_eq_true.1 hall action haction
    · have heq : Service.pushed 0 sampleRun = install sampleForeign false sampleChunks .eof := by
        unfold sampleForeign sampleChunks ascii layerText successText
        -- character lists evaluate faster than string literals
        repeat rw [String.toList_ofList]
        decide +kernel
      rw [heq]
    · intro _
      decide +kernel
  have hlimits : BelowLimits [] 0 sampleChunks := BelowLimits.of_short (by decide +kernel)
  obtain ⟨hdone, -, hreports⟩ :=
    (ollama_pull_outcome sampleForeign false hlimits hs hsends).1 (by rw [hconcluded]; simp)
  have hsucceeds : Succeeds sampleForeign (bodyLines sampleChunks.flatten) := by
    unfold sampleForeign sampleChunks ascii layerText successText
    repeat rw [String.toList_ofList]
    decide +kernel
  refine ⟨s, hs, hdone.2 hsucceeds, ?_⟩
  rw [hreports]
  decide +kernel

end Hedos.Install.Ollama
