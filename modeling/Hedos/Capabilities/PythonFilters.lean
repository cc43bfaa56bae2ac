import Hedos.Capabilities.StopMatcher
import Hedos.Capabilities.ThinkSplitter

/-!
# The stream filters of the Python runtime

`StopScanner` and `ThinkSplitter` of `runtime/runtimes/python-mlx-lm/main.py`, the same filters as
`StopMatcher` and `ThinkSplitter` of the kernel in another language: a string is indexed by its
characters here, and the loops keep the first of the least themselves.

* the loop `earliestFrom` finds what `min` and `min_by_key` find (`earliestFrom_eq`), and an
  index in characters and an offset in bytes fall in the same place;
* so each filter makes the same step as its counterpart (`StopScanner.feed_agrees`,
  `ThinkSplitter.feed_agrees`), and they agree on every list of chunks
  (`python_filters_agree`).
-/

namespace Hedos.Capabilities.Python

/-! ## Strings -/

/-- `str.find`, `none` for `-1`. -/
def find (text pattern : Text) : Option ℕ := Search.firstAt pattern text

/-- `text[-length:]` for a positive length. -/
def lastChars (text : Text) (length : ℕ) : Text := text.drop (text.length - length)

/-- `max((len(s) for s in strings), default=1)`. -/
def longest (strings : List Text) : ℕ := (strings.map List.length).max?.getD 1

/-- The loop over `xs` that keeps in `earliest` the first of those found with the least key. -/
def earliestFrom {α β : Type} (locate : α → Option β) (key : β → ℕ) (earliest : Option β) :
    List α → Option β
  | [] => earliest
  | x :: xs =>
    match locate x with
    | some found =>
      earliestFrom locate key
        (if earliest.all fun best => key found < key best then some found else earliest) xs
    | none => earliestFrom locate key earliest xs

/-- The loop over the lengths from `n` down, for the first suffix some string begins with. -/
def holdFrom (buffer : Text) (strings : List Text) : ℕ → ℕ
  | 0 => 0
  | n + 1 =>
    let suffix := lastChars buffer (n + 1)
    if strings.any fun s => suffix.isPrefixOf s then n + 1 else holdFrom buffer strings n

/-! ## `StopScanner` -/

structure StopScanner where
  stops : List Text
  buffer : Text := []
  stopped : Bool := false
deriving DecidableEq

namespace StopScanner

/-- `__init__`. -/
def new (stops : List Text) : StopScanner where
  stops := stops.filter fun s => !s.isEmpty

def feed (s : StopScanner) (chunk : Text) : Text × StopScanner :=
  if s.stops.isEmpty || s.stopped then (if s.stopped then [] else chunk, s)
  else
    let buffer := s.buffer ++ chunk
    match earliestFrom (find buffer) id none s.stops with
    | some earliest => (buffer.take earliest, { s with buffer := [], stopped := true })
    | none =>
      let cap := min (longest s.stops - 1) buffer.length
      let cut := buffer.length - holdFrom buffer s.stops cap
      (buffer.take cut, { s with buffer := buffer.drop cut })

def flush (s : StopScanner) : Text × StopScanner :=
  if s.stopped then ([], s) else (s.buffer, { s with buffer := [] })

end StopScanner

/-! ## `ThinkSplitter` -/

/-- `PAIRS`. -/
def pairs : List (Text × Text) :=
  [("<think>".toList, "</think>".toList),
   ("<|START_THINKING|>".toList, "<|END_THINKING|>".toList)]

/-- `thinking` says that the mode is `"thinking"` rather than `"text"`. -/
structure ThinkSplitter where
  thinking : Bool := false
  close : Option Text := none
  buffer : Text := []
  openTags : List Text
deriving DecidableEq

namespace ThinkSplitter

/-- `__init__`. -/
def new : ThinkSplitter where
  openTags := pairs.map Prod.fst

/-- `_emittable`, as the number of characters of the buffer that it gives. -/
def emittable (buffer : Text) (tags : List Text) : ℕ :=
  let maxHold := min (longest tags - 1) buffer.length
  buffer.length - holdFrom buffer tags maxHold

/-- Where the earliest opening tag stands, with the tag and the closing one. -/
def earliestOpening (buffer : Text) : Option (ℕ × Text × Text) :=
  earliestFrom (fun pair => (find buffer pair.1).map fun index => (index, pair)) Prod.fst none pairs

/-- The piece for a stretch of text, none for an empty one. -/
def emit (thinking : Bool) (chars : Text) : List Piece :=
  if chars.isEmpty then [] else [if thinking then .thinking chars else .text chars]

/-- The loop of `feed`, which takes a tag out of the buffer in each round but the last. Looking
for a closing tag that is `None` raises. -/
def feedLoop : ℕ → ThinkSplitter → List Piece → Option (List Piece × ThinkSplitter)
  | 0, _, _ => none
  | fuel + 1, s, out =>
    if !s.thinking then
      match earliestOpening s.buffer with
      | none =>
        let cut := emittable s.buffer s.openTags
        some (out ++ emit false (s.buffer.take cut), { s with buffer := s.buffer.drop cut })
      | some (index, openTag, closeTag) =>
        feedLoop fuel
          { s with
            buffer := s.buffer.drop (index + openTag.length)
            thinking := true
            close := some closeTag }
          (out ++ emit false (s.buffer.take index))
    else
      s.close.bind fun close =>
        match find s.buffer close with
        | none =>
          let cut := emittable s.buffer [close]
          some (out ++ emit true (s.buffer.take cut), { s with buffer := s.buffer.drop cut })
        | some index =>
          feedLoop fuel
            { s with
              buffer := s.buffer.drop (index + close.length)
              thinking := false
              close := none }
            (out ++ emit true (s.buffer.take index))

def feed (s : ThinkSplitter) (chunk : Text) : Option (List Piece × ThinkSplitter) :=
  let s := { s with buffer := s.buffer ++ chunk }
  feedLoop (s.buffer.length + 1) s []

def flush (s : ThinkSplitter) : List Piece × ThinkSplitter :=
  if s.buffer.isEmpty then ([], s)
  else ([if s.thinking then .thinking s.buffer else .text s.buffer], { s with buffer := [] })

end ThinkSplitter

/-! ## The loops -/

theorem minByKey_cons_cons {β : Type} (key : β → ℕ) (b found : β) (rest : List β) :
    minByKey key (b :: found :: rest) =
      minByKey key ((if key found < key b then found else b) :: rest) := by
  simp only [minByKey]
  cases minByKey key rest with
  | none => grind
  | some y => grind

/-- The loop finds the first of the least of what it has and what is found. -/
theorem earliestFrom_eq {α β : Type} (locate : α → Option β) (key : β → ℕ) (xs : List α) :
    ∀ earliest, earliestFrom locate key earliest xs =
      minByKey key (earliest.toList ++ xs.filterMap locate) := by
  induction xs with
  | nil =>
    rintro ⟨⟩ <;> simp [earliestFrom, minByKey]
  | cons x xs ih =>
    intro earliest
    rw [earliestFrom]
    cases hx : locate x with
    | none =>
      rw [List.filterMap_cons_none hx]
      exact ih earliest
    | some found =>
      rw [List.filterMap_cons_some hx]
      simp only [ih]
      cases earliest with
      | none => simp
      | some best =>
        simp only [Option.toList_some, List.cons_append, List.nil_append, minByKey_cons_cons,
          Option.all_some]
        by_cases hlt : key found < key best <;> simp [hlt]

/-- The first of the least is found in the same place under a key in the same order. -/
theorem minByKey_map {β γ : Type} {key : β → ℕ} {key' : γ → ℕ} (f : β → γ) {xs : List β}
    (hsame : ∀ x ∈ xs, ∀ y ∈ xs, (key' (f x) ≤ key' (f y) ↔ key x ≤ key y)) :
    minByKey key' (xs.map f) = (minByKey key xs).map f := by
  induction xs with
  | nil => rfl
  | cons x xs ih =>
    have hrest := ih fun y hy z hz =>
      hsame y (.tail _ hy) z (.tail _ hz)
    rw [List.map_cons, minByKey, minByKey, hrest]
    cases hmin : minByKey key xs with
    | none => rfl
    | some y =>
      have hy := (minByKey_eq_some hmin).1
      have hxy := hsame x (by simp) y (.tail _ hy)
      simp only [Option.map_some, hxy]
      split <;> rfl

theorem minByKey_id (xs : List ℕ) : minByKey id xs = xs.min? := by
  cases hmin : minByKey id xs with
  | none =>
    rw [minByKey_eq_none] at hmin
    simp [hmin]
  | some y =>
    obtain ⟨hmem, hle⟩ := minByKey_eq_some hmin
    exact (List.min?_eq_some_iff.2 ⟨hmem, hle⟩).symm

theorem holdFrom_eq (buffer : Text) (strings : List Text) (n : ℕ) :
    holdFrom buffer strings n = Search.heldUpTo buffer strings n := by
  induction n with
  | zero => rfl
  | succ n ih => rw [holdFrom, Search.heldUpTo, ih, lastChars]

/-- Offsets in bytes are in the order of the indices in characters. -/
theorem len_take_le_iff {text : Text} {i j : ℕ} (hi : i ≤ text.length) (hj : j ≤ text.length) :
    len (text.take i) ≤ len (text.take j) ↔ i ≤ j := by
  constructor
  · intro h
    by_contra hlt
    have hbytes := len_take_lt (show j < i by omega) hi
    omega
  · intro h
    rcases Nat.lt_or_eq_of_le h with hlt | rfl
    · exact Nat.le_of_lt (len_take_lt hlt hj)
    · exact Nat.le_refl _

/-! ## `StopScanner` and `StopMatcher` -/

/-- The earliest stop in bytes is the earliest one in characters. -/
theorem earliestStop_eq (m : StopMatcher) :
    m.earliestStop =
      (earliestFrom (find m.buffer) id none m.stops).map fun i => len (m.buffer.take i) := by
  have hmap : (m.stops.filterMap fun stop => Capabilities.find m.buffer stop) =
      (m.stops.filterMap (find m.buffer)).map fun i => len (m.buffer.take i) := by
    rw [List.map_filterMap]
    rfl
  rw [StopMatcher.earliestStop, hmap, ← minByKey_id, earliestFrom_eq, Option.toList_none,
    List.nil_append, minByKey_map]
  intro i hi j hj
  obtain ⟨stop, -, hstop⟩ := List.mem_filterMap.1 hi
  obtain ⟨stop', -, hstop'⟩ := List.mem_filterMap.1 hj
  exact len_take_le_iff (Search.firstAt_le_length hstop) (Search.firstAt_le_length hstop')

/-- The scanner with the fields of a matcher. -/
def StopScanner.of (m : StopMatcher) : StopScanner :=
  { stops := m.stops, buffer := m.buffer, stopped := m.stopped }

/-- One feed gives the same text, and the same state after it. A matcher without stops never
stops. -/
theorem StopScanner.feed_agrees (m : StopMatcher) (hm : m.stopped = true → m.stops ≠ [])
    (chunk : Text) :
    ∃ emit m', m.feed chunk = some (emit, m') ∧ (of m).feed chunk = (emit, of m') ∧
      (m'.stopped = true → m'.stops ≠ []) := by
  by_cases hnone : m.stops = []
  · have hopen : m.stopped = false := by
      rw [← Bool.not_eq_true]
      exact fun h => hm h hnone
    exact ⟨chunk, m, by simp [StopMatcher.feed, StopMatcher.isActive, hnone],
      by simp [StopScanner.feed, of, hnone, hopen], hm⟩
  have hactive : m.isActive = true := by simp [StopMatcher.isActive, hnone]
  cases hstopped : m.stopped with
  | true =>
    exact ⟨[], m, by simp [StopMatcher.feed, hactive, hstopped],
      by simp [StopScanner.feed, of, hstopped], fun _ => hnone⟩
  | false =>
    have hearliest := earliestStop_eq { m with buffer := m.buffer ++ chunk }
    simp only at hearliest
    cases hfound : earliestFrom (find (m.buffer ++ chunk)) id none m.stops with
    | some i =>
      rw [hfound, Option.map_some, hstopped] at hearliest
      refine ⟨(m.buffer ++ chunk).take i, { m with buffer := [], stopped := true }, ?_, ?_,
        fun _ => hnone⟩
      · simp only [StopMatcher.feed, hactive, Bool.not_true, Bool.false_eq_true, if_false,
          hstopped, hearliest, splitAt_len_take, Option.bind_eq_bind, Option.bind_some]
      · simp [StopScanner.feed, of, hnone, hstopped, hfound]
    | none =>
      rw [hfound, Option.map_none, hstopped] at hearliest
      have hcut := splitAt_held (m.buffer ++ chunk) m.stops
      refine ⟨(m.buffer ++ chunk).take ((m.buffer ++ chunk).length -
          Search.held (m.buffer ++ chunk) m.stops),
        { m with buffer := (m.buffer ++ chunk).drop ((m.buffer ++ chunk).length -
          Search.held (m.buffer ++ chunk) m.stops) }, ?_, ?_, fun h => by simp [hstopped] at h⟩
      · simp only [StopMatcher.feed, hactive, Bool.not_true, Bool.false_eq_true, if_false,
          hstopped, hearliest, heldSuffixLen_eq, Option.bind_eq_bind, Option.bind_some, hcut]
      · simp only [StopScanner.feed, of, List.isEmpty_eq_false_iff.2 hnone, hstopped,
          Bool.or_false, Bool.false_eq_true, if_false, hfound, holdFrom_eq]
        rfl

/-! ## The two splitters -/

/-- The kernel's default pairs are the runtime's. -/
theorem defaultPairs_eq : defaultPairs = pairs.map fun pair => ⟨pair.1, pair.2⟩ := rfl

/-- The earliest opening tag in bytes is the earliest one in characters. -/
theorem opening_eq (buffer : Text) :
    Capabilities.ThinkSplitter.opening defaultPairs buffer =
      (ThinkSplitter.earliestOpening buffer).map fun found =>
        (len (buffer.take found.1), len found.2.1, found.2.2) := by
  have hmap : (defaultPairs.filterMap fun pair => (Capabilities.find buffer pair.open_).map
        fun position => (position, len pair.open_, pair.close)) =
      (pairs.filterMap fun pair => (find buffer pair.1).map fun index => (index, pair)).map
        fun found => (len (buffer.take found.1), len found.2.1, found.2.2) := by
    rw [List.map_filterMap, defaultPairs_eq, List.filterMap_map]
    congr 1
    funext pair
    simp [Capabilities.find, find, Function.comp_def]
  rw [Capabilities.ThinkSplitter.opening, hmap, ThinkSplitter.earliestOpening, earliestFrom_eq,
    Option.toList_none, List.nil_append, minByKey_map]
  intro found hfound found' hfound'
  obtain ⟨pair, -, hpair⟩ := List.mem_filterMap.1 hfound
  obtain ⟨pair', -, hpair'⟩ := List.mem_filterMap.1 hfound'
  obtain ⟨i, hi, rfl⟩ := Option.map_eq_some_iff.1 hpair
  obtain ⟨j, hj, rfl⟩ := Option.map_eq_some_iff.1 hpair'
  exact len_take_le_iff (Search.firstAt_le_length hi) (Search.firstAt_le_length hj)

namespace ThinkSplitter

/-- The runtime's splitter in the state of the kernel's. -/
def of (s : Capabilities.ThinkSplitter) : ThinkSplitter where
  thinking := match s.mode with
    | .text => false
    | .thinking _ => true
  close := match s.mode with
    | .text => none
    | .thinking close => some close
  buffer := s.buffer
  openTags := s.openTags

theorem emit_text (chars : Text) :
    emit false chars = Capabilities.ThinkSplitter.emit .text chars := rfl

theorem emit_thinking (chars : Text) :
    emit true chars = Capabilities.ThinkSplitter.emit .thinking chars := rfl

/-- A tag found at a character is cut out at its bytes. -/
theorem splitAt_found {buffer tag : Text} {i : ℕ} (h : find buffer tag = some i) :
    splitAt buffer (len (buffer.take i)) = some (buffer.take i, buffer.drop i) ∧
      splitAt buffer (len (buffer.take i) + len tag) =
        some (buffer.take i ++ tag, buffer.drop (i + tag.length)) := by
  have hsplit := Capabilities.ThinkSplitter.split_at_occurrence (Search.firstAt_eq_some h).1
  have hcuts := Capabilities.ThinkSplitter.splitAt_tag (buffer.take i) tag
    (buffer.drop (i + tag.length))
  rw [← hsplit] at hcuts
  exact ⟨splitAt_len_take buffer i, hcuts.2⟩

theorem drainPrefix_emittable (buffer : Text) (tags : List Text) (piece : Text → Piece)
    (out : List Piece) :
    Capabilities.ThinkSplitter.drainPrefix buffer tags piece out =
      some (buffer.drop (emittable buffer tags),
        out ++ Capabilities.ThinkSplitter.emit piece (buffer.take (emittable buffer tags))) := by
  have hcut : emittable buffer tags = buffer.length - Search.held buffer tags := by
    rw [emittable, holdFrom_eq]
    rfl
  rw [hcut]
  exact Capabilities.ThinkSplitter.drainPrefix_eq buffer tags piece out

/-- The earliest opening tag stands where it is found. -/
theorem find_of_earliestOpening {buffer openTag closeTag : Text} {index : ℕ}
    (h : earliestOpening buffer = some (index, openTag, closeTag)) :
    find buffer openTag = some index := by
  rw [earliestOpening, earliestFrom_eq, Option.toList_none, List.nil_append] at h
  obtain ⟨pair, -, hpair⟩ := List.mem_filterMap.1 (minByKey_eq_some h).1
  obtain ⟨i, hi, hfound⟩ := Option.map_eq_some_iff.1 hpair
  cases hfound
  exact hi

/-- Round by round the two loops do the same. -/
theorem feedLoop_agrees (fuel : ℕ) : ∀ (s : Capabilities.ThinkSplitter) (out : List Piece),
    s.pairs = defaultPairs →
    feedLoop fuel (of s) out =
      (Capabilities.ThinkSplitter.feedLoop fuel s out).map fun fed => (fed.1, of fed.2) := by
  induction fuel with
  | zero => intros; rfl
  | succ fuel ih =>
    intro s out hpairs
    cases hmode : s.mode with
    | text =>
      have hopening := opening_eq s.buffer
      rw [← hpairs] at hopening
      have hof : (of s).thinking = false := by simp [of, hmode]
      have hbuffer : (of s).buffer = s.buffer := rfl
      simp only [feedLoop, Capabilities.ThinkSplitter.feedLoop, hof, hbuffer, hmode, hopening,
        Bool.not_false, if_true]
      cases hfound : earliestOpening s.buffer with
      | none =>
        simp only [Option.map_none, drainPrefix_emittable, Option.bind_eq_bind,
          Option.bind_some, Option.map_some, emit_text]
        simp [of, hmode]
      | some found =>
        obtain ⟨index, openTag, closeTag⟩ := found
        have hcuts := splitAt_found (find_of_earliestOpening hfound)
        have hnext := ih
          { s with buffer := s.buffer.drop (index + openTag.length), mode := .thinking closeTag }
          (out ++ emit false (s.buffer.take index)) hpairs
        simp only [Option.map_some, hcuts.1, hcuts.2, Option.bind_eq_bind, Option.bind_some]
        rw [← emit_text, ← hnext]
        rfl
    | thinking close =>
      have hof : (of s).thinking = true := by simp [of, hmode]
      have hclose : (of s).close = some close := by simp [of, hmode]
      have hbuffer : (of s).buffer = s.buffer := rfl
      simp only [feedLoop, Capabilities.ThinkSplitter.feedLoop, hof, hclose, hbuffer, hmode,
        Bool.not_true, Bool.false_eq_true, if_false, Option.bind_some, Capabilities.find]
      cases hfound : find s.buffer close with
      | none =>
        have hfirst : Search.firstAt close s.buffer = none := hfound
        simp only [hfirst, Option.map_none, drainPrefix_emittable, Option.bind_eq_bind,
          Option.bind_some, Option.map_some, emit_thinking]
        simp [of, hmode]
      | some index =>
        have hfirst : Search.firstAt close s.buffer = some index := hfound
        have hcuts := splitAt_found hfound
        have hnext := ih { s with buffer := s.buffer.drop (index + close.length), mode := .text }
          (out ++ emit true (s.buffer.take index)) hpairs
        simp only [hfirst, Option.map_some, hcuts.1, hcuts.2, Option.bind_eq_bind, Option.bind_some]
        rw [← emit_thinking, ← hnext]
        rfl

/-- One feed gives the same pieces, and the same state after it. -/
theorem feed_agrees (s : Capabilities.ThinkSplitter) (hpairs : s.pairs = defaultPairs)
    (chunk : Text) :
    (of s).feed chunk = (s.feed chunk).map fun fed => (fed.1, of fed.2) :=
  feedLoop_agrees _ { s with buffer := s.buffer ++ chunk } [] hpairs

theorem flush_agrees (s : Capabilities.ThinkSplitter) : (of s).flush.1 = s.flush.1 := by
  rw [flush, Capabilities.ThinkSplitter.flush]
  have hbuffer : (of s).buffer = s.buffer := rfl
  rw [hbuffer]
  split
  · rfl
  · cases hmode : s.mode <;> simp [of, hmode]

end ThinkSplitter

/-! ## The filters agree -/

/-- What the kernel's matcher returns from each feed, and the matcher afterwards. -/
def stopMatcherFeeds (m : StopMatcher) : List Text → Option (List Text × StopMatcher)
  | [] => some ([], m)
  | chunk :: chunks => do
    let (emit, m) ← m.feed chunk
    let (rest, m) ← stopMatcherFeeds m chunks
    some (emit :: rest, m)

/-- What the runtime's scanner returns from each feed, and the scanner afterwards. -/
def stopScannerFeeds (s : StopScanner) : List Text → List Text × StopScanner
  | [] => ([], s)
  | chunk :: chunks =>
    let (emit, s) := s.feed chunk
    let (rest, s) := stopScannerFeeds s chunks
    (emit :: rest, s)

/-- What the kernel's splitter returns from each feed, and the splitter afterwards. -/
def kernelSplitterFeeds (s : Capabilities.ThinkSplitter) :
    List Text → Option (List (List Piece) × Capabilities.ThinkSplitter)
  | [] => some ([], s)
  | chunk :: chunks => do
    let (pieces, s) ← s.feed chunk
    let (rest, s) ← kernelSplitterFeeds s chunks
    some (pieces :: rest, s)

/-- What the runtime's splitter returns from each feed, and the splitter afterwards. -/
def runtimeSplitterFeeds (s : ThinkSplitter) :
    List Text → Option (List (List Piece) × ThinkSplitter)
  | [] => some ([], s)
  | chunk :: chunks => do
    let (pieces, s) ← s.feed chunk
    let (rest, s) ← runtimeSplitterFeeds s chunks
    some (pieces :: rest, s)

theorem stopFeeds_agree (chunks : List Text) : ∀ m : StopMatcher,
    (m.stopped = true → m.stops ≠ []) →
    ∃ emits m', stopMatcherFeeds m chunks = some (emits, m') ∧
      stopScannerFeeds (StopScanner.of m) chunks = (emits, StopScanner.of m') := by
  induction chunks with
  | nil => exact fun m _ => ⟨[], m, rfl, rfl⟩
  | cons chunk chunks ih =>
    intro m hm
    obtain ⟨emit, m₁, hkernel, hruntime, hm₁⟩ := StopScanner.feed_agrees m hm chunk
    obtain ⟨emits, m', hkernel', hruntime'⟩ := ih m₁ hm₁
    refine ⟨emit :: emits, m', ?_, ?_⟩
    · simp [stopMatcherFeeds, hkernel, hkernel']
    · simp [stopScannerFeeds, hruntime, hruntime']

theorem splitterFeeds_agree (chunks : List Text) : ∀ s : Capabilities.ThinkSplitter,
    s.Wf → s.pairs = defaultPairs →
    ∃ pieces s', kernelSplitterFeeds s chunks = some (pieces, s') ∧
      runtimeSplitterFeeds (ThinkSplitter.of s) chunks = some (pieces, ThinkSplitter.of s') := by
  induction chunks with
  | nil => exact fun s _ _ => ⟨[], s, rfl, rfl⟩
  | cons chunk chunks ih =>
    intro s hs hpairs
    obtain ⟨emitted, s₁, hfeed, hs₁, hsame, -⟩ :=
      Capabilities.ThinkSplitter.feedLoop_scan (s := { s with buffer := s.buffer ++ chunk })
        ⟨hs.openTags, hs.pairs, hs.mode⟩ (by rw [hpairs]; exact defaultPairs_unambiguous)
        (Nat.lt_succ_self _) []
    have hkernel : s.feed chunk = some (emitted, s₁) := by
      rw [Capabilities.ThinkSplitter.feed, hfeed, List.nil_append]
    have hruntime := ThinkSplitter.feed_agrees s hpairs chunk
    rw [hkernel, Option.map_some] at hruntime
    obtain ⟨pieces, s', hkernel', hruntime'⟩ := ih s₁ hs₁ (hsame.trans hpairs)
    refine ⟨emitted :: pieces, s', ?_, ?_⟩
    · simp [kernelSplitterFeeds, hkernel, hkernel']
    · simp [runtimeSplitterFeeds, hruntime, hruntime']

/-- For every stop strings and chunks, the two stop filters return the same from each feed and
from a flush after any of them, and agree on having stopped; and for every chunks the two
splitters return the same pieces from each feed and from a flush after any of them. Neither
kernel filter panics at a cut and neither runtime filter raises. -/
theorem python_filters_agree (chunks : List Text) :
    (∀ stops, ∃ emits m s, stopMatcherFeeds (StopMatcher.new stops) chunks = some (emits, m) ∧
      stopScannerFeeds (StopScanner.new stops) chunks = (emits, s) ∧
      m.flush.1 = s.flush.1 ∧ m.isStopped = s.stopped) ∧
    ∃ pieces k r, kernelSplitterFeeds Capabilities.ThinkSplitter.new chunks = some (pieces, k) ∧
      runtimeSplitterFeeds ThinkSplitter.new chunks = some (pieces, r) ∧
      k.flush.1 = r.flush.1 := by
  refine ⟨fun stops => ?_, ?_⟩
  · obtain ⟨emits, m, hkernel, hruntime⟩ := stopFeeds_agree chunks (StopMatcher.new stops) nofun
    refine ⟨emits, m, StopScanner.of m, hkernel, hruntime, ?_, rfl⟩
    rw [StopMatcher.flush, StopScanner.flush, StopScanner.of]
    split <;> simp_all
  · obtain ⟨pieces, k, hkernel, hruntime⟩ := splitterFeeds_agree chunks
      Capabilities.ThinkSplitter.new (Capabilities.ThinkSplitter.withPairs_wf defaultPairs)
      new_pairs
    exact ⟨pieces, k, ThinkSplitter.of k, hkernel, hruntime, (ThinkSplitter.flush_agrees k).symm⟩

end Hedos.Capabilities.Python
