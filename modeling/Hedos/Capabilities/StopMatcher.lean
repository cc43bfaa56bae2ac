import Hedos.Capabilities.Strings

/-!
# The stop-sequence matcher

`kernel/src/capabilities/stop_matcher.rs`: text is emitted as it arrives, except for an end
that could be the start of a stop sequence.

* `StopMatcher.feed` and `StopMatcher.flush` are the code's, `none` being a panic at a cut
  inside a character;
* `Tracks` says what a matcher has emitted of the text fed to it so far;
* however a text is cut, no stop sequence is leaked (`stopMatcher_never_leaks`).
-/

namespace Hedos.Capabilities

/-- A stop-sequence matcher fed text incrementally. -/
structure StopMatcher where
  stops : List Text
  buffer : Text := []
  stopped : Bool := false
deriving DecidableEq

namespace StopMatcher

/-- A matcher for the given stop sequences. Empty strings are ignored. -/
def new (stops : List Text) : StopMatcher where
  stops := stops.filter fun stop => !stop.isEmpty

/-- Whether any stop sequence is configured. -/
def isActive (m : StopMatcher) : Bool := !m.stops.isEmpty

/-- Whether a stop sequence has been reached. -/
def isStopped (m : StopMatcher) : Bool := m.stopped

def earliestStop (m : StopMatcher) : Option ℕ :=
  (m.stops.filterMap fun stop => find m.buffer stop).min?

/-- Feeds a chunk; the text safe to emit now, and the matcher afterwards. -/
def feed (m : StopMatcher) (chunk : Text) : Option (Text × StopMatcher) :=
  if !m.isActive then some (chunk, m)
  else if m.stopped then some ([], m)
  else do
    let m := { m with buffer := m.buffer ++ chunk }
    match m.earliestStop with
    | some position =>
      let (emit, _) ← splitAt m.buffer position
      some (emit, { m with buffer := [], stopped := true })
    | none =>
      let held ← heldSuffixLen m.buffer m.stops
      let (emit, rest) ← splitAt m.buffer (len m.buffer - held)
      some (emit, { m with buffer := rest })

/-- Emits any buffered text that was held back. -/
def flush (m : StopMatcher) : Text × StopMatcher :=
  if m.stopped then ([], m) else (m.buffer, { m with buffer := [] })

/-- Feeds the chunks one after another and flushes: everything emitted, and the matcher at
the end. -/
def run (m : StopMatcher) : List Text → Option (Text × StopMatcher)
  | [] => some m.flush
  | chunk :: chunks => do
    let (emit, m) ← m.feed chunk
    let (rest, m) ← m.run chunks
    some (emit ++ rest, m)

/-! ## One feed -/

variable {stops : List Text} {m : StopMatcher} {text emitted chunk : Text}

theorem mem_new_stops {stop : Text} : stop ∈ (new stops).stops ↔ stop ∈ stops ∧ stop ≠ [] := by
  simp [new]

/-- Some stop sequence stands in the text. -/
def Contains (stops : List Text) (text : Text) : Prop := ∃ stop ∈ stops, stop <:+: text

/-- However the text goes on, no stop sequence begins in what has been emitted. -/
def BeginsAfter (stops : List Text) (text emitted : Text) : Prop :=
  ∀ more, ∀ stop ∈ stops, ∀ i, stop <+: (text ++ more).drop i → emitted.length ≤ i

/-- What has been emitted of `text`: all of it but the buffer, in which alone a stop sequence
can still begin; or, once stopped, a proper leading part without any. -/
inductive Tracks (m : StopMatcher) (text emitted : Text) : Prop
  | open_ (hstopped : m.stopped = false) (hsplit : text = emitted ++ m.buffer)
      (hnone : ¬ Contains m.stops text) (hlate : BeginsAfter m.stops text emitted)
  | stopped (hstopped : m.stopped = true) (hleads : emitted <+: text)
      (hne : emitted ≠ text) (hnone : ¬ Contains m.stops emitted) (hsome : Contains m.stops text)

/-- The earliest stop is a place where a stop sequence stands, and none stands before it. -/
theorem earliestStop_eq_some {position : ℕ}
    (h : m.earliestStop = some position) : ∃ i, position = len (m.buffer.take i) ∧
      (∃ stop ∈ m.stops, stop <+: m.buffer.drop i) ∧
      ∀ stop ∈ m.stops, ∀ j < i, ¬ stop <+: m.buffer.drop j := by
  obtain ⟨hmem, hmin⟩ := List.min?_eq_some_iff.1 h
  obtain ⟨stop, hstop, hfind⟩ := List.mem_filterMap.1 hmem
  obtain ⟨i, hi, rfl⟩ := Option.map_eq_some_iff.1 hfind
  refine ⟨i, rfl, ⟨stop, hstop, (Search.firstAt_eq_some hi).1⟩, fun other hother j hj hpre => ?_⟩
  obtain ⟨k, hk⟩ := Search.firstAt_isSome (Search.infix_iff_exists_drop.2 ⟨j, hpre⟩)
  have hkj : k ≤ j := by
    by_contra hlt
    exact (Search.firstAt_eq_some hk).2 j (by omega) hpre
  have hle := hmin (len (m.buffer.take k))
    (List.mem_filterMap.2 ⟨other, hother, by simp [find, hk]⟩)
  have hlt := len_take_lt (show k < i by omega) (Search.firstAt_le_length hi)
  omega

theorem earliestStop_eq_none (h : m.earliestStop = none) : ¬ Contains m.stops m.buffer := by
  rintro ⟨stop, hstop, hwithin⟩
  obtain ⟨i, hi⟩ := Search.firstAt_isSome hwithin
  have hfind : find m.buffer stop = some (len (m.buffer.take i)) := by simp [find, hi]
  have hmem := List.mem_filterMap.2 ⟨stop, hstop, hfind⟩
  rw [earliestStop, List.min?_eq_none_iff] at h
  rw [h] at hmem
  simp at hmem

theorem Contains.mono {text' : Text} (h : Contains stops text)
    (hsub : text <:+: text') : Contains stops text' := by
  obtain ⟨stop, hstop, hwithin⟩ := h
  exact ⟨stop, hstop, hwithin.trans hsub⟩

/-- A stop sequence that begins nowhere in `emitted` stands in the rest if it stands at all. -/
theorem BeginsAfter.contains_rest {rest : Text}
    (hlate : BeginsAfter stops text emitted) (hsplit : text ++ chunk = emitted ++ rest)
    (h : Contains stops (text ++ chunk)) : Contains stops rest := by
  obtain ⟨stop, hstop, hwithin⟩ := h
  obtain ⟨i, hi⟩ := Search.infix_iff_exists_drop.1 hwithin
  have hle := hlate chunk stop hstop i hi
  rw [hsplit, Search.drop_append_of_le hle] at hi
  exact ⟨stop, hstop, Search.infix_iff_exists_drop.2 ⟨_, hi⟩⟩

/-- A feed that reaches a stop sequence emits what stands before the earliest one. -/
theorem Tracks.stop {i : ℕ} (hne : ∀ stop ∈ m.stops, stop ≠ [])
    (hsplit : text = emitted ++ m.buffer) (hlate : BeginsAfter m.stops text emitted)
    (hfound : ∃ stop ∈ m.stops, stop <+: (m.buffer ++ chunk).drop i)
    (hfirst : ∀ stop ∈ m.stops, ∀ j < i, ¬ stop <+: (m.buffer ++ chunk).drop j) :
    Tracks { m with buffer := [], stopped := true } (text ++ chunk)
      (emitted ++ (m.buffer ++ chunk).take i) := by
  have hwhole : text ++ chunk = emitted ++ (m.buffer ++ chunk) := by
    rw [hsplit, List.append_assoc]
  have hleads : emitted ++ (m.buffer ++ chunk).take i <+: text ++ chunk := by
    rw [hwhole, List.prefix_append_right_inj]
    exact List.take_prefix i _
  obtain ⟨found, hmem, hat⟩ := hfound
  have hlt := Search.lt_length_of_occurs (hne found hmem) hat
  refine .stopped rfl hleads ?_ ?_ ?_
  · intro heq
    rw [hwhole, List.append_cancel_left_eq, List.take_eq_self_iff] at heq
    omega
  · -- a stop sequence inside what is emitted would begin before the earliest one
    rintro ⟨stop, hstop, hwithin⟩
    obtain ⟨k, hk⟩ := Search.infix_iff_exists_drop.1 hwithin
    have hkt := Search.lt_length_of_occurs (hne stop hstop) hk
    have hwide : stop <+: (text ++ chunk).drop k := hk.trans (hleads.drop k)
    have hle := hlate chunk stop hstop k hwide
    rw [hwhole, Search.drop_append_of_le hle] at hwide
    apply hfirst stop hstop _ _ hwide
    simp only [List.length_append, List.length_take] at hkt
    omega
  · refine ⟨found, hmem, ?_⟩
    rw [hwhole]
    exact (Search.infix_iff_exists_drop.2 ⟨i, hat⟩).trans (List.suffix_append _ _).isInfix

/-- A feed that reaches no stop sequence emits all but what is held back. -/
theorem Tracks.hold (hstopped : m.stopped = false) (hsplit : text = emitted ++ m.buffer)
    (hlate : BeginsAfter m.stops text emitted) (hnone : ¬ Contains m.stops (m.buffer ++ chunk)) :
    let buffer := m.buffer ++ chunk
    let kept := buffer.length - Search.held buffer m.stops
    Tracks { m with buffer := buffer.drop kept } (text ++ chunk) (emitted ++ buffer.take kept) := by
  intro buffer kept
  have hwhole : text ++ chunk = emitted ++ buffer := by
    rw [hsplit, List.append_assoc]
  refine .open_ hstopped ?_ ?_ ?_
  · rw [hwhole, List.append_assoc, List.take_append_drop]
  · intro h
    exact hnone (hlate.contains_rest hwhole h)
  · intro more stop hstop i hi
    have hle : emitted.length ≤ i := hlate (chunk ++ more) stop hstop i (by
      rwa [← List.append_assoc])
    rw [hwhole, List.append_assoc, Search.drop_append_of_le hle] at hi
    have hheld : kept ≤ i - emitted.length := Search.held_le_of_occurs
      (fun q hq hwithin => hnone ⟨q, hq, hwithin⟩) hstop hi
    simp only [List.length_append, List.length_take]
    omega

/-- Feeding a chunk never cuts inside a character, and keeps track of the text. -/
theorem Tracks.feed (h : Tracks m text emitted)
    (hactive : m.isActive = true) (hne : ∀ stop ∈ m.stops, stop ≠ []) (chunk : Text) :
    ∃ emit m', m.feed chunk = some (emit, m') ∧ m'.stops = m.stops ∧
      Tracks m' (text ++ chunk) (emitted ++ emit) := by
  cases h with
  | stopped hstopped hleads hproper hnone hsome =>
    refine ⟨[], m, by simp [StopMatcher.feed, hactive, hstopped], rfl, ?_⟩
    rw [List.append_nil]
    have hlen : emitted.length < text.length := by
      rcases Nat.lt_or_ge emitted.length text.length with hlt | hge
      · exact hlt
      · exact absurd (hleads.eq_of_length_le hge) hproper
    refine .stopped hstopped (hleads.trans (List.prefix_append _ _)) ?_ hnone
      (hsome.mono (List.prefix_append _ _).isInfix)
    intro heq
    rw [heq, List.length_append] at hlen
    omega
  | open_ hstopped hsplit hnone hlate =>
    simp only [StopMatcher.feed, hactive, hstopped, Bool.not_true, Bool.false_eq_true, if_false]
    cases hfound : earliestStop { m with buffer := m.buffer ++ chunk, stopped := false } with
    | some position =>
      obtain ⟨i, rfl, hsome, hfirst⟩ := earliestStop_eq_some hfound
      refine ⟨(m.buffer ++ chunk).take i, { m with buffer := [], stopped := true }, ?_, rfl,
        Tracks.stop hne hsplit hlate hsome hfirst⟩
      simp [splitAt_len_take]
    | none =>
      refine ⟨_, _, ?_, ?_, Tracks.hold hstopped hsplit hlate (earliestStop_eq_none hfound)⟩
      · simp only [heldSuffixLen_eq, Option.bind_eq_bind, Option.bind_some, splitAt_held]
        rw [hstopped]
      · rfl

/-! ## Every chunking -/

/-- With no stop sequences the text passes straight through. -/
theorem run_inactive (hactive : m.isActive = false) (hbuffer : m.buffer = [])
    (hstopped : m.stopped = false) (chunks : List Text) :
    m.run chunks = some (chunks.flatten, m) := by
  induction chunks with
  | nil =>
    cases m
    simp_all [run, flush]
  | cons chunk chunks ih => simp [run, feed, hactive, ih]

/-- What has been emitted once everything is fed and flushed. -/
structure Finished (stops : List Text) (text emitted : Text) (stopped : Bool) : Prop where
  isPrefix : emitted <+: text
  clean : ¬ Contains stops emitted
  whole_iff : emitted = text ↔ ¬ Contains stops text
  stopped_iff : stopped = true ↔ Contains stops text

theorem Tracks.flush (h : Tracks m text emitted) :
    Finished m.stops text (emitted ++ m.flush.1) m.flush.2.stopped := by
  cases h with
  | open_ hstopped hsplit hnone hlate =>
    simp only [StopMatcher.flush, hstopped, Bool.false_eq_true, if_false, ← hsplit]
    exact ⟨List.prefix_rfl, hnone, by simp [hnone], by simp [hnone]⟩
  | stopped hstopped hleads hproper hnone hsome =>
    simp only [StopMatcher.flush, hstopped, if_true, List.append_nil]
    exact ⟨hleads, hnone, by simp [hproper, hsome], by simp [hsome]⟩

theorem Tracks.run (h : Tracks m text emitted)
    (hactive : m.isActive = true) (hne : ∀ stop ∈ m.stops, stop ≠ []) (chunks : List Text) :
    ∃ rest m', m.run chunks = some (rest, m') ∧
      Finished m.stops (text ++ chunks.flatten) (emitted ++ rest) m'.stopped := by
  induction chunks generalizing m text emitted with
  | nil => exact ⟨m.flush.1, m.flush.2, rfl, by simpa using h.flush⟩
  | cons chunk chunks ih =>
    obtain ⟨emit, m', hfeed, hstops, htracks⟩ := h.feed hactive hne chunk
    obtain ⟨rest, m'', hrun, hfinished⟩ := ih htracks
      (by simpa [isActive, hstops] using hactive) (by rwa [hstops])
    refine ⟨emit ++ rest, m'', by simp [StopMatcher.run, hfeed, hrun], ?_⟩
    rw [hstops] at hfinished
    simpa using hfinished

/-- A new matcher has emitted nothing of the empty text. -/
theorem tracks_new (stops : List Text) : Tracks (new stops) [] [] := by
  refine .open_ rfl rfl ?_ ?_
  · rintro ⟨stop, hstop, hwithin⟩
    exact (mem_new_stops.1 hstop).2 (List.infix_nil.1 hwithin)
  · intro more stop hstop i hi
    simp

theorem run_new (stops chunks : List Text) :
    ∃ emitted m, (new stops).run chunks = some (emitted, m) ∧
      Finished (new stops).stops chunks.flatten emitted m.stopped := by
  cases hactive : (new stops).isActive with
  | true =>
    obtain ⟨rest, m, hrun, hfinished⟩ := (tracks_new stops).run hactive
      (fun stop hstop => (mem_new_stops.1 hstop).2) chunks
    exact ⟨rest, m, hrun, by simpa using hfinished⟩
  | false =>
    refine ⟨chunks.flatten, new stops, run_inactive hactive rfl rfl chunks, ?_⟩
    have hnone : ∀ text, ¬ Contains (new stops).stops text := by
      rintro text ⟨stop, hstop, -⟩
      simp only [isActive, Bool.not_eq_false', List.isEmpty_iff] at hactive
      simp [hactive] at hstop
    have hopen : (new stops).stopped = false := rfl
    exact ⟨List.prefix_rfl, hnone _, by simp [hnone], by simp [hopen, hnone]⟩

end StopMatcher

theorem contains_new_iff {stops : List Text} {text : Text} :
    StopMatcher.Contains (StopMatcher.new stops).stops text ↔
      ∃ stop ∈ stops, stop ≠ [] ∧ stop <:+: text := by
  simp only [StopMatcher.Contains, StopMatcher.mem_new_stops, and_assoc]

/-- For every list of stop sequences and every way to cut a text, the matcher runs through;
what it emits is a leading part of the text with no non-empty stop sequence in it, the whole
text exactly when there is none in the text, and it ends stopped exactly when there is one. -/
theorem stopMatcher_never_leaks (stops chunks : List Text) :
    ∃ emitted m, (StopMatcher.new stops).run chunks = some (emitted, m) ∧
      emitted <+: chunks.flatten ∧
      (∀ stop ∈ stops, stop ≠ [] → ¬ stop <:+: emitted) ∧
      (emitted = chunks.flatten ↔ ∀ stop ∈ stops, stop ≠ [] → ¬ stop <:+: chunks.flatten) ∧
      (m.isStopped = true ↔ ∃ stop ∈ stops, stop ≠ [] ∧ stop <:+: chunks.flatten) := by
  obtain ⟨emitted, m, hrun, hfinished⟩ := StopMatcher.run_new stops chunks
  refine ⟨emitted, m, hrun, hfinished.isPrefix, ?_, ?_, ?_⟩
  · intro stop hstop hne hwithin
    exact hfinished.clean (contains_new_iff.2 ⟨stop, hstop, hne, hwithin⟩)
  · rw [hfinished.whole_iff, contains_new_iff]
    push Not
    rfl
  · rw [← contains_new_iff]
    exact hfinished.stopped_iff

-- overlapping stop sequences, one cut by a chunk
example : (StopMatcher.new ["</s>".toList, "END".toList]).run
    ["ab<".toList, "/sEN".toList, "Dx".toList] =
    some ("ab</s".toList, { stops := ["</s>".toList, "END".toList], stopped := true }) := by
  decide +kernel

end Hedos.Capabilities
