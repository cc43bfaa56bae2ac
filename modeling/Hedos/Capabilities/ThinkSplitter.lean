import Hedos.Capabilities.Strings

/-!
# The thinking splitter

`kernel/src/capabilities/think_splitter.rs`: separating a model's thinking spans from its
visible text as the stream arrives.

* `ThinkSplitter.feed` and `ThinkSplitter.flush` are the code's, `none` being a panic at a
  cut inside a character;
* `Scan` is the left-to-right reading of a whole text, from one delimiter to the next;
* where no opening tag stands inside another (`Unambiguous`), every chunking of a text gives
  the pieces of its scan (`run_eq_scan`), so any two chunkings agree
  (`thinkSplitter_chunk_independent`).
-/

namespace Hedos.Capabilities

/-- A run of separated output. -/
inductive Piece
  | text (chars : Text)
  | thinking (chars : Text)
deriving DecidableEq

/-- A matching pair of open/close thinking delimiters. -/
structure TagPair where
  open_ : Text
  close : Text
deriving DecidableEq

/-- The default thinking delimiters recognized. -/
def defaultPairs : List TagPair :=
  [{ open_ := "<think>".toList, close := "</think>".toList },
   { open_ := "<|START_THINKING|>".toList, close := "<|END_THINKING|>".toList }]

inductive Mode
  | text
  | thinking (close : Text)
deriving DecidableEq

/-- A streaming splitter that separates thinking spans from visible text. -/
structure ThinkSplitter where
  pairs : List TagPair
  openTags : List Text
  mode : Mode := .text
  buffer : Text := []
deriving DecidableEq

/-- `Iterator::min_by_key`: the first of the elements with the least key. -/
def minByKey {β : Type} (key : β → ℕ) : List β → Option β
  | [] => none
  | x :: xs =>
    match minByKey key xs with
    | none => some x
    | some y => if key x ≤ key y then some x else some y

namespace ThinkSplitter

/-- A splitter using the given delimiter pairs, those with an empty delimiter dropped. -/
def withPairs (pairs : List TagPair) : ThinkSplitter :=
  let pairs := pairs.filter fun pair => !pair.open_.isEmpty && !pair.close.isEmpty
  { pairs := pairs, openTags := pairs.map TagPair.open_ }

/-- A splitter using the default delimiter pairs. -/
def new : ThinkSplitter := withPairs defaultPairs

/-- The opening tag that stands earliest in the buffer: its offset, its length and the
closing tag that goes with it. -/
def opening (pairs : List TagPair) (buffer : Text) : Option (ℕ × ℕ × Text) :=
  minByKey Prod.fst (pairs.filterMap fun pair =>
    (find buffer pair.open_).map fun position => (position, len pair.open_, pair.close))

/-- The piece for a stretch of text, none for an empty one. -/
def emit (piece : Text → Piece) (chars : Text) : List Piece :=
  if chars.isEmpty then [] else [piece chars]

/-- Everything in the buffer but a partial delimiter at its end is emitted. -/
def drainPrefix (buffer : Text) (tags : List Text) (piece : Text → Piece)
    (output : List Piece) : Option (Text × List Piece) := do
  let held ← heldSuffixLen buffer tags
  let emitLen := len buffer - held
  if emitLen > 0 then
    let (chars, rest) ← splitAt buffer emitLen
    some (rest, output ++ [piece chars])
  else some (buffer, output)

/-- The loop of `feed`. Each round takes a tag out of the buffer, which `fuel` bounds. -/
def feedLoop : ℕ → ThinkSplitter → List Piece → Option (List Piece × ThinkSplitter)
  | 0, _, _ => none
  | fuel + 1, s, output =>
    match s.mode with
    | .text =>
      match opening s.pairs s.buffer with
      | some (position, openLen, close) => do
        let (before, _) ← splitAt s.buffer position
        let (_, rest) ← splitAt s.buffer (position + openLen)
        feedLoop fuel { s with buffer := rest, mode := .thinking close }
          (output ++ emit .text before)
      | none => do
        let (buffer, output) ← drainPrefix s.buffer s.openTags .text output
        some (output, { s with buffer := buffer })
    | .thinking close =>
      match find s.buffer close with
      | some position => do
        let (before, _) ← splitAt s.buffer position
        let (_, rest) ← splitAt s.buffer (position + len close)
        feedLoop fuel { s with buffer := rest, mode := .text } (output ++ emit .thinking before)
      | none => do
        let (buffer, output) ← drainPrefix s.buffer [close] .thinking output
        some (output, { s with buffer := buffer })

/-- Feeds a chunk; the pieces that can be classified now, and the splitter afterwards. -/
def feed (s : ThinkSplitter) (chunk : Text) : Option (List Piece × ThinkSplitter) :=
  let s := { s with buffer := s.buffer ++ chunk }
  feedLoop (s.buffer.length + 1) s []

/-- Emits any buffered text, classified by the current mode. -/
def flush (s : ThinkSplitter) : List Piece × ThinkSplitter :=
  if s.buffer.isEmpty then ([], s)
  else
    match s.mode with
    | .thinking _ => ([.thinking s.buffer], { s with buffer := [] })
    | .text => ([.text s.buffer], { s with buffer := [] })

/-- Feeds the chunks one after another and flushes. -/
def run (s : ThinkSplitter) : List Text → Option (List Piece)
  | [] => some s.flush.1
  | chunk :: chunks => do
    let (pieces, s) ← s.feed chunk
    let rest ← s.run chunks
    some (pieces ++ rest)

end ThinkSplitter

/-! ## Pieces with the adjacent ones joined -/

namespace Piece

def chars : Piece → Text
  | text chars => chars
  | thinking chars => chars

def isThinking : Piece → Bool
  | text _ => false
  | thinking _ => true

/-- The characters of a piece, each with its kind. -/
def marked (p : Piece) : List (Bool × Char) := p.chars.map fun c => (p.isThinking, c)

/-- Puts a piece in front of pieces already joined. -/
def joinTo (p : Piece) (ps : List Piece) : List Piece :=
  if p.chars.isEmpty then ps
  else
    match p, ps with
    | text a, text b :: rest => text (a ++ b) :: rest
    | thinking a, thinking b :: rest => thinking (a ++ b) :: rest
    | p, ps => p :: ps

/-- Adjacent pieces of the same kind joined, empty ones dropped. -/
def join (ps : List Piece) : List Piece := ps.foldr joinTo []

/-- The pieces of a marked text, adjacent characters of one kind together. -/
def ofMarked : List (Bool × Char) → List Piece
  | [] => []
  | (false, c) :: rest => joinTo (text [c]) (ofMarked rest)
  | (true, c) :: rest => joinTo (thinking [c]) (ofMarked rest)

theorem joinTo_text_append (a b : Text) (ps : List Piece) :
    joinTo (text (a ++ b)) ps = joinTo (text a) (joinTo (text b) ps) := by
  cases a with
  | nil => simp [joinTo, chars]
  | cons c a =>
    cases b with
    | nil => simp [joinTo, chars]
    | cons d b => rcases ps with _ | ⟨_ | _, ps⟩ <;> simp [joinTo, chars]

theorem joinTo_thinking_append (a b : Text) (ps : List Piece) :
    joinTo (thinking (a ++ b)) ps = joinTo (thinking a) (joinTo (thinking b) ps) := by
  cases a with
  | nil => simp [joinTo, chars]
  | cons c a =>
    cases b with
    | nil => simp [joinTo, chars]
    | cons d b => rcases ps with _ | ⟨_ | _, ps⟩ <;> simp [joinTo, chars]

theorem joinTo_ofMarked (p : Piece) (ms : List (Bool × Char)) :
    joinTo p (ofMarked ms) = ofMarked (p.marked ++ ms) := by
  cases p with
  | text cs =>
    induction cs with
    | nil => simp [joinTo, chars, marked]
    | cons c cs ih =>
      rw [← List.singleton_append, joinTo_text_append, ih]
      rfl
  | thinking cs =>
    induction cs with
    | nil => simp [joinTo, chars, marked]
    | cons c cs ih =>
      rw [← List.singleton_append, joinTo_thinking_append, ih]
      rfl

/-- Joining forgets the cuts: what is left is the text with the kind of each character. -/
theorem join_eq_ofMarked (ps : List Piece) : join ps = ofMarked (ps.flatMap marked) := by
  induction ps with
  | nil => rfl
  | cons p ps ih =>
    rw [join, List.foldr_cons, ← join, ih, joinTo_ofMarked, List.flatMap_cons]

theorem map_snd_marked (ps : List Piece) : (ps.flatMap marked).map Prod.snd = ps.flatMap chars := by
  induction ps with
  | nil => rfl
  | cons p ps ih => simp [ih, marked, Function.comp_def]

end Piece

/-! ## The scan of a whole text -/

/-- What a scan reads: pieces, and the delimiters between them. -/
inductive Token
  | piece (p : Piece)
  | delimiter (tag : Text)
deriving DecidableEq

namespace Token

def chars : Token → Text
  | piece p => p.chars
  | delimiter tag => tag

def piece? : Token → Option Piece
  | piece p => some p
  | delimiter _ => none

/-- The pieces among the tokens. -/
def pieces (tokens : List Token) : List Piece := tokens.filterMap piece?

@[simp] theorem pieces_nil : pieces [] = [] := rfl

@[simp] theorem pieces_piece (p : Piece) (tokens : List Token) :
    pieces (piece p :: tokens) = p :: pieces tokens := rfl

@[simp] theorem pieces_delimiter (tag : Text) (tokens : List Token) :
    pieces (delimiter tag :: tokens) = pieces tokens := rfl

end Token

namespace Mode

/-- What is read in this mode. -/
def piece : Mode → Text → Piece
  | text => .text
  | thinking _ => .thinking

/-- The tags that end this mode, each with the mode that begins after it. -/
def exits (pairs : List TagPair) : Mode → List (Text × Mode)
  | text => pairs.map fun pair => (pair.open_, thinking pair.close)
  | thinking close => [(close, text)]

@[simp] theorem chars_piece (mode : Mode) (chars : Text) : (mode.piece chars).chars = chars := by
  cases mode <;> rfl

theorem marked_piece_append (mode : Mode) (a b : Text) :
    (mode.piece (a ++ b)).marked = (mode.piece a).marked ++ (mode.piece b).marked := by
  cases mode <;> simp [piece, Piece.marked, Piece.chars, Piece.isThinking]

@[simp] theorem marked_piece_nil (mode : Mode) : (mode.piece []).marked = [] := by
  cases mode <;> rfl

end Mode

/-- `exit` is the first of the tags that end `mode` to stand in `text`, after `before`. -/
structure FirstExit (pairs : List TagPair) (mode : Mode) (text before : Text)
    (exit : Text × Mode) (rest : Text) : Prop where
  mem : exit ∈ mode.exits pairs
  split : text = before ++ exit.1 ++ rest
  first : ∀ other ∈ mode.exits pairs, ∀ i < before.length, ¬ other.1 <+: text.drop i

/-- Reading a text from left to right: up to the first tag that ends the mode, and on after
it in the mode that begins there. -/
inductive Scan (pairs : List TagPair) : Mode → Text → List Token → Prop
  | last {mode : Mode} {text : Text} (hnone : ∀ exit ∈ mode.exits pairs, ¬ exit.1 <:+: text) :
      Scan pairs mode text [.piece (mode.piece text)]
  | delimited {mode : Mode} {text before rest : Text} {exit : Text × Mode} {tokens : List Token}
      (hexit : FirstExit pairs mode text before exit rest)
      (hrest : Scan pairs exit.2 rest tokens) :
      Scan pairs mode text (.piece (mode.piece before) :: .delimiter exit.1 :: tokens)

/-- No opening tag stands in another one. -/
def Unambiguous (pairs : List TagPair) : Prop :=
  ∀ p ∈ pairs, ∀ q ∈ pairs, p.open_ <:+: q.open_ → p = q

variable {pairs : List TagPair} {mode : Mode} {text before rest : Text} {tokens : List Token}

/-- The tokens are the text, the delimiters between the pieces. -/
theorem Scan.flatMap_chars (h : Scan pairs mode text tokens) :
    tokens.flatMap Token.chars = text := by
  induction h with
  | last hnone => simp [Token.chars]
  | delimited hexit hrest ih => simp [Token.chars, ih, hexit.split]

theorem Unambiguous.exits (h : Unambiguous pairs) {e e' : Text × Mode} (he : e ∈ mode.exits pairs)
    (he' : e' ∈ mode.exits pairs) (hwithin : e.1 <:+: e'.1) : e = e' := by
  cases mode with
  | text =>
    obtain ⟨p, hp, rfl⟩ := List.mem_map.1 he
    obtain ⟨q, hq, rfl⟩ := List.mem_map.1 he'
    rw [h p hp q hq hwithin]
  | thinking close =>
    rw [List.mem_singleton.1 he, List.mem_singleton.1 he']

/-- Which tag comes first, and what stands around it, is decided by the text. -/
theorem FirstExit.unique (hpairs : Unambiguous pairs) {before' rest' : Text}
    {exit exit' : Text × Mode} (h : FirstExit pairs mode text before exit rest)
    (h' : FirstExit pairs mode text before' exit' rest') :
    before = before' ∧ exit = exit' ∧ rest = rest' := by
  have hat : exit.1 <+: text.drop before.length := by
    rw [h.split, List.append_assoc, List.drop_left]
    exact List.prefix_append _ _
  have hat' : exit'.1 <+: text.drop before'.length := by
    rw [h'.split, List.append_assoc, List.drop_left]
    exact List.prefix_append _ _
  have hge : before'.length ≤ before.length := by
    by_contra hlt
    exact h'.first exit h.mem _ (by omega) hat
  have hle : before.length ≤ before'.length := by
    by_contra hlt
    exact h.first exit' h'.mem _ (by omega) hat'
  have hlen : before.length = before'.length := by omega
  rw [hlen] at hat
  have hexit : exit = exit' := by
    rcases Nat.le_total exit.1.length exit'.1.length with hshort | hshort
    · exact hpairs.exits h.mem h'.mem (List.prefix_of_prefix_length_le hat hat' hshort).isInfix
    · exact (hpairs.exits h'.mem h.mem
        (List.prefix_of_prefix_length_le hat' hat hshort).isInfix).symm
  subst hexit
  have hsplit := h.split.symm.trans h'.split
  rw [List.append_assoc, List.append_assoc] at hsplit
  obtain ⟨hbefore, htail⟩ := List.append_inj hsplit hlen
  exact ⟨hbefore, rfl, List.append_cancel_left htail⟩

theorem FirstExit.occurs
    {exit : Text × Mode} (h : FirstExit pairs mode text before exit rest) : exit.1 <:+: text :=
  ⟨before, rest, h.split.symm⟩

/-- A text has one scan. -/
theorem Scan.unique (hpairs : Unambiguous pairs) {tokens' : List Token}
    (h : Scan pairs mode text tokens) (h' : Scan pairs mode text tokens') : tokens = tokens' := by
  induction h generalizing tokens' with
  | last hnone =>
    cases h' with
    | last _ => rfl
    | delimited hexit _ => exact absurd hexit.occurs (hnone _ hexit.mem)
  | delimited hexit hrest ih =>
    cases h' with
    | last hnone => exact absurd hexit.occurs (hnone _ hexit.mem)
    | delimited hexit' hrest' =>
      obtain ⟨rfl, rfl, rfl⟩ := hexit.unique hpairs hexit'
      rw [ih hrest']

/-! ## One round of the loop -/

theorem minByKey_eq_none {β : Type} {key : β → ℕ} {xs : List β} :
    minByKey key xs = none ↔ xs = [] := by
  cases xs with
  | nil => simp [minByKey]
  | cons x xs =>
    rw [minByKey]
    cases minByKey key xs with
    | none => simp
    | some y => simp only [reduceCtorEq, iff_false]; split <;> simp

theorem minByKey_eq_some {β : Type} {key : β → ℕ} {xs : List β} {y : β}
    (h : minByKey key xs = some y) : y ∈ xs ∧ ∀ x ∈ xs, key y ≤ key x := by
  induction xs generalizing y with
  | nil => simp [minByKey] at h
  | cons x xs ih =>
    rw [minByKey] at h
    cases hrest : minByKey key xs with
    | none =>
      rw [minByKey_eq_none] at hrest
      subst hrest
      simp only [minByKey, Option.some.injEq] at h
      simp [h]
    | some z =>
      obtain ⟨hmem, hmin⟩ := ih hrest
      simp only [hrest] at h
      split at h <;> simp only [Option.some.injEq] at h <;> subst h
      · rename_i hle
        refine ⟨by simp, fun w hw => ?_⟩
        rcases List.mem_cons.1 hw with rfl | hw
        · exact Nat.le_refl _
        · exact hle.trans (hmin w hw)
      · rename_i hlt
        refine ⟨.tail _ hmem, fun w hw => ?_⟩
        rcases List.mem_cons.1 hw with rfl | hw
        · omega
        · exact hmin w hw

namespace ThinkSplitter

/-- A pattern that stands at `i`, with what is around it. -/
theorem split_at_occurrence {text pattern : Text} {i : ℕ} (h : pattern <+: text.drop i) :
    text = text.take i ++ pattern ++ text.drop (i + pattern.length) := by
  obtain ⟨rest, hrest⟩ := h
  have hdrop : text.drop (i + pattern.length) = rest := by
    rw [← List.drop_drop, ← hrest, List.drop_left]
  rw [hdrop, List.append_assoc, hrest, List.take_append_drop]

/-- Both cuts of the code at a tag fall on character boundaries. -/
theorem splitAt_tag (before tag rest : Text) :
    splitAt (before ++ tag ++ rest) (len before) = some (before, tag ++ rest) ∧
      splitAt (before ++ tag ++ rest) (len before + len tag) = some (before ++ tag, rest) := by
  constructor
  · rw [List.append_assoc, splitAt_append]
  · rw [← len_append, splitAt_append]

variable {buffer : Text}

theorem opening_eq_some {pairs : List TagPair} {position openLen : ℕ}
    {close : Text} (h : opening pairs buffer = some (position, openLen, close)) :
    ∃ before tag rest, position = len before ∧ openLen = len tag ∧
      FirstExit pairs .text buffer before (tag, .thinking close) rest := by
  obtain ⟨hmem, hmin⟩ := minByKey_eq_some h
  obtain ⟨pair, hpair, hfind⟩ := List.mem_filterMap.1 hmem
  obtain ⟨found, hfound, heq⟩ := Option.map_eq_some_iff.1 hfind
  obtain ⟨i, hi, hat⟩ := find_eq_some hfound
  simp only [Prod.mk.injEq] at heq
  obtain ⟨rfl, rfl, rfl⟩ := heq
  have hlt := Search.firstAt_le_length hat
  have hoccurs := Search.firstAt_eq_some hat
  refine ⟨buffer.take i, pair.open_, buffer.drop (i + pair.open_.length), hi, rfl,
    List.mem_map.2 ⟨pair, hpair, rfl⟩, split_at_occurrence hoccurs.1, ?_⟩
  intro other hother j hj hpre
  obtain ⟨q, hq, rfl⟩ := List.mem_map.1 hother
  obtain ⟨k, hk⟩ := Search.firstAt_isSome (Search.infix_iff_exists_drop.2 ⟨j, hpre⟩)
  have hkj : k ≤ j := by
    by_contra hgt
    exact (Search.firstAt_eq_some hk).2 j (by omega) hpre
  have hle := hmin (len (buffer.take k), len q.open_, q.close)
    (List.mem_filterMap.2 ⟨q, hq, by simp [find, hk]⟩)
  rw [List.length_take] at hj
  have hearlier := len_take_lt (show k < i by omega) hlt
  simp only [hi] at hle
  omega

theorem opening_eq_none {pairs : List TagPair} (h : opening pairs buffer = none) :
    ∀ exit ∈ Mode.text.exits pairs, ¬ exit.1 <:+: buffer := by
  intro exit hexit
  obtain ⟨pair, hpair, rfl⟩ := List.mem_map.1 hexit
  rw [opening, minByKey_eq_none, List.filterMap_eq_nil_iff] at h
  exact find_eq_none.1 (Option.map_eq_none_iff.1 (h pair hpair))

theorem find_eq_firstExit (pairs : List TagPair) {close : Text} {position : ℕ}
    (h : find buffer close = some position) :
    ∃ before rest, position = len before ∧
      FirstExit pairs (.thinking close) buffer before (close, .text) rest := by
  obtain ⟨i, hi, hat⟩ := find_eq_some h
  have hoccurs := Search.firstAt_eq_some hat
  refine ⟨buffer.take i, buffer.drop (i + close.length), hi, by simp [Mode.exits],
    split_at_occurrence hoccurs.1, ?_⟩
  intro other hother j hj
  rw [List.mem_singleton.1 hother]
  rw [List.length_take] at hj
  exact hoccurs.2 j (by omega)

theorem drainPrefix_eq (buffer : Text) (tags : List Text) (piece : Text → Piece)
    (output : List Piece) :
    let kept := buffer.length - Search.held buffer tags
    drainPrefix buffer tags piece output =
      some (buffer.drop kept, output ++ emit piece (buffer.take kept)) := by
  intro kept
  have hlen := len_take_add_drop buffer kept
  have hheld : heldSuffixLen buffer tags = some (len (buffer.drop kept)) :=
    heldSuffixLen_eq buffer tags
  have hsplit : splitAt buffer (len buffer - len (buffer.drop kept)) =
      some (buffer.take kept, buffer.drop kept) := splitAt_held buffer tags
  simp only [drainPrefix, hheld, Option.bind_eq_bind, Option.bind_some, hsplit]
  cases htake : buffer.take kept with
  | nil =>
    rw [htake, len_nil] at hlen
    have hall : buffer.drop kept = buffer := by
      have happ := List.take_append_drop kept buffer
      rwa [htake, List.nil_append] at happ
    rw [if_neg (by omega), hall]
    simp [emit]
  | cons c cs =>
    rw [htake, len_cons] at hlen
    have hpos := c.utf8Size_pos
    rw [if_pos (by omega)]
    simp [emit]

/-- The splitters `withPairs` makes and `feed` keeps: no delimiter is empty. -/
structure Wf (s : ThinkSplitter) : Prop where
  openTags : s.openTags = s.pairs.map TagPair.open_
  pairs : ∀ pair ∈ s.pairs, pair.open_ ≠ [] ∧ pair.close ≠ []
  mode : ∀ close, s.mode = .thinking close → close ≠ []

theorem Wf.exit {s : ThinkSplitter} (hs : s.Wf) {exit : Text × Mode}
    (hexit : exit ∈ s.mode.exits s.pairs) :
    exit.1 ≠ [] ∧ ∀ close, exit.2 = .thinking close → close ≠ [] := by
  cases hmode : s.mode with
  | text =>
    rw [hmode] at hexit
    obtain ⟨pair, hpair, rfl⟩ := List.mem_map.1 hexit
    refine ⟨(hs.pairs pair hpair).1, fun close hclose => ?_⟩
    rw [← Mode.thinking.inj hclose]
    exact (hs.pairs pair hpair).2
  | thinking close =>
    rw [hmode] at hexit
    rw [List.mem_singleton.1 hexit]
    exact ⟨hs.mode close hmode, by simp⟩

/-- What is kept of the buffer once no tag stands in it. -/
def released (s : ThinkSplitter) : ℕ :=
  s.buffer.length - Search.held s.buffer ((s.mode.exits s.pairs).map Prod.fst)

/-- A round of the loop takes out the first tag that ends the mode, or is the last one. -/
theorem feedLoop_succ {s : ThinkSplitter} (hs : s.Wf) (fuel : ℕ) (output : List Piece) :
    (∃ before exit rest, FirstExit s.pairs s.mode s.buffer before exit rest ∧
      feedLoop (fuel + 1) s output = feedLoop fuel { s with buffer := rest, mode := exit.2 }
        (output ++ emit s.mode.piece before)) ∨
    ((∀ exit ∈ s.mode.exits s.pairs, ¬ exit.1 <:+: s.buffer) ∧
      feedLoop (fuel + 1) s output = some
        (output ++ emit s.mode.piece (s.buffer.take s.released),
          { s with buffer := s.buffer.drop s.released })) := by
  rw [feedLoop, released]
  cases hmode : s.mode with
  | text =>
    simp only
    cases hfound : opening s.pairs s.buffer with
    | some found =>
      obtain ⟨position, openLen, close⟩ := found
      obtain ⟨before, tag, rest, rfl, rfl, hexit⟩ := opening_eq_some hfound
      refine .inl ⟨before, _, rest, hexit, ?_⟩
      have hsplit : s.buffer = before ++ tag ++ rest := hexit.split
      have hcuts := splitAt_tag before tag rest
      rw [← hsplit] at hcuts
      simp only [hcuts.1, hcuts.2, Option.bind_eq_bind, Option.bind_some]
      rfl
    | none =>
      refine .inr ⟨opening_eq_none hfound, ?_⟩
      have htags : (Mode.text.exits s.pairs).map Prod.fst = s.openTags := by
        rw [hs.openTags, Mode.exits, List.map_map]
        rfl
      simp only [drainPrefix_eq, Option.bind_eq_bind, Option.bind_some, htags]
      rfl
  | thinking close =>
    simp only
    cases hfound : find s.buffer close with
    | some position =>
      obtain ⟨before, rest, rfl, hexit⟩ := find_eq_firstExit s.pairs hfound
      refine .inl ⟨before, _, rest, hexit, ?_⟩
      have hsplit : s.buffer = before ++ close ++ rest := hexit.split
      have hcuts := splitAt_tag before close rest
      rw [← hsplit] at hcuts
      simp only [hcuts.1, hcuts.2, Option.bind_eq_bind, Option.bind_some]
      rfl
    | none =>
      refine .inr ⟨?_, ?_⟩
      · intro exit hexit
        rw [List.mem_singleton.1 hexit]
        exact find_eq_none.1 hfound
      · simp only [drainPrefix_eq, Option.bind_eq_bind, Option.bind_some, Mode.exits,
          List.map_cons, List.map_nil]
        rfl

end ThinkSplitter

/-! ## The pieces of every chunking are those of the scan -/

/-- The first tag stays the first one however the text goes on: an earlier one that is not
complete yet would hold it whole. -/
theorem FirstExit.extend (hpairs : Unambiguous pairs) {exit : Text × Mode}
    (h : FirstExit pairs mode text before exit rest) (more : Text) :
    FirstExit pairs mode (text ++ more) before exit (rest ++ more) := by
  refine ⟨h.mem, by rw [h.split, List.append_assoc], fun other hother i hi hpre => ?_⟩
  have hlen : text.length = before.length + exit.1.length + rest.length := by
    rw [h.split, List.length_append, List.length_append]
  rw [List.drop_append_of_le_length (by omega)] at hpre
  rcases Nat.le_total other.1.length (text.drop i).length with hshort | hlong
  · exact h.first other hother i hi
      (List.prefix_of_prefix_length_le hpre (List.prefix_append _ _) hshort)
  · have hends : text.drop i <+: other.1 :=
      List.prefix_of_prefix_length_le (List.prefix_append _ _) hpre hlong
    have hinside : exit.1 <:+: text.drop i := by
      refine ⟨before.drop i, rest, ?_⟩
      rw [h.split, List.append_assoc, List.append_assoc, List.drop_append_of_le_length (by omega)]
    have hsame := hpairs.exits h.mem hother (hinside.trans hends.isInfix)
    have hle := hends.length_le
    rw [← hsame, List.length_drop] at hle
    omega

/-- Text released while no tag stands in the buffer is text of the scan. -/
theorem Scan.release {more : Text} (hnone : ∀ exit ∈ mode.exits pairs, ¬ exit.1 <:+: text)
    {kept : ℕ} (hkept : kept = text.length - Search.held text ((mode.exits pairs).map Prod.fst))
    (h : Scan pairs mode (text.drop kept ++ more) tokens) :
    ∃ tokens', Scan pairs mode (text ++ more) tokens' ∧
      (Token.pieces tokens').flatMap Piece.marked =
        (mode.piece (text.take kept)).marked ++ (Token.pieces tokens).flatMap Piece.marked := by
  have hwhole : text ++ more = text.take kept ++ (text.drop kept ++ more) := by
    rw [← List.append_assoc, List.take_append_drop]
  have hlate : ∀ exit ∈ mode.exits pairs, ∀ i, exit.1 <+: (text ++ more).drop i →
      (text.take kept).length ≤ i := by
    intro exit hexit i hi
    have htags : ∀ tag ∈ (mode.exits pairs).map Prod.fst, ¬ tag <:+: text := by
      intro tag htag
      obtain ⟨e, he, rfl⟩ := List.mem_map.1 htag
      exact hnone e he
    have hle := Search.held_le_of_occurs htags (List.mem_map_of_mem hexit) hi
    rw [List.length_take]
    omega
  cases h with
  | last hrest =>
    refine ⟨_, .last fun exit hexit hwithin => ?_, ?_⟩
    · obtain ⟨i, hi⟩ := Search.infix_iff_exists_drop.1 hwithin
      have hle := hlate exit hexit i hi
      rw [hwhole, Search.drop_append_of_le hle] at hi
      exact hrest exit hexit (Search.infix_iff_exists_drop.2 ⟨_, hi⟩)
    · rw [hwhole]
      simp [Mode.marked_piece_append]
  | @delimited _ _ before rest exit tokens hexit hrest =>
    have hexit' : FirstExit pairs mode (text ++ more) (text.take kept ++ before) exit rest := by
      refine ⟨hexit.mem, ?_, fun other hother i hi hpre => ?_⟩
      · rw [hwhole, hexit.split]
        simp
      · have hle := hlate other hother i hpre
        rw [hwhole, Search.drop_append_of_le hle] at hpre
        rw [List.length_append] at hi
        exact hexit.first other hother _ (by omega) hpre
    refine ⟨_, .delimited hexit' hrest, ?_⟩
    simp [Mode.marked_piece_append]

namespace ThinkSplitter

theorem flatMap_marked_emit (mode : Mode) (chars : Text) :
    (emit mode.piece chars).flatMap Piece.marked = (mode.piece chars).marked := by
  cases chars with
  | nil => simp [emit]
  | cons c chars => simp [emit]

/-- A feed runs to its end; what it emits and what a scan of the rest gives make up a scan of
the whole, however the text goes on. -/
theorem feedLoop_scan {s : ThinkSplitter} (hs : s.Wf) (hpairs : Unambiguous s.pairs) {fuel : ℕ}
    (hfuel : s.buffer.length < fuel) (output : List Piece) :
    ∃ emitted s', feedLoop fuel s output = some (output ++ emitted, s') ∧
      s'.Wf ∧ s'.pairs = s.pairs ∧
      (∀ exit ∈ s'.mode.exits s.pairs, ¬ exit.1 <:+: s'.buffer) ∧
      ∀ more tokens, Scan s.pairs s'.mode (s'.buffer ++ more) tokens →
        ∃ tokens', Scan s.pairs s.mode (s.buffer ++ more) tokens' ∧
          (Token.pieces tokens').flatMap Piece.marked =
            emitted.flatMap Piece.marked ++ (Token.pieces tokens).flatMap Piece.marked := by
  induction fuel generalizing s output with
  | zero => omega
  | succ fuel ih =>
    rcases feedLoop_succ hs fuel output with ⟨before, exit, rest, hexit, hloop⟩ | ⟨hnone, hloop⟩
    · have htag := hs.exit hexit.mem
      have hpos := List.length_pos_iff.2 htag.1
      have hlen : s.buffer.length = before.length + exit.1.length + rest.length := by
        rw [hexit.split, List.length_append, List.length_append]
      obtain ⟨emitted, s', hrun, hs', hsame, hclear, hscan⟩ :=
        ih (s := { s with buffer := rest, mode := exit.2 }) ⟨hs.openTags, hs.pairs, htag.2⟩ hpairs
          (show rest.length < fuel by omega) (output ++ emit s.mode.piece before)
      refine ⟨emit s.mode.piece before ++ emitted, s', by rw [hloop, hrun, List.append_assoc],
        hs', hsame, hclear, fun more tokens htokens => ?_⟩
      obtain ⟨tokens', htokens', heq⟩ := hscan more tokens htokens
      refine ⟨_, .delimited (hexit.extend hpairs more) htokens', ?_⟩
      simp [flatMap_marked_emit, heq]
    · refine ⟨emit s.mode.piece (s.buffer.take s.released), _, hloop,
        ⟨hs.openTags, hs.pairs, hs.mode⟩, rfl, ?_, fun more tokens htokens => ?_⟩
      · intro exit hexit hwithin
        exact hnone exit hexit (hwithin.trans (List.drop_suffix _ _).isInfix)
      · obtain ⟨tokens', htokens', heq⟩ := Scan.release hnone rfl htokens
        refine ⟨tokens', htokens', ?_⟩
        rw [flatMap_marked_emit, heq]
        rfl

theorem flush_marked (s : ThinkSplitter) :
    s.flush.1.flatMap Piece.marked = (s.mode.piece s.buffer).marked := by
  rw [flush]
  split
  · rename_i hempty
    rw [List.isEmpty_iff.1 hempty]
    simp
  · cases s.mode <;> simp [Mode.piece]

/-- From a splitter whose buffer holds no tag, every chunking gives the pieces of a scan. -/
theorem run_eq_scan {s : ThinkSplitter} (hs : s.Wf) (hpairs : Unambiguous s.pairs)
    (hclear : ∀ exit ∈ s.mode.exits s.pairs, ¬ exit.1 <:+: s.buffer) (chunks : List Text) :
    ∃ pieces tokens, s.run chunks = some pieces ∧
      Scan s.pairs s.mode (s.buffer ++ chunks.flatten) tokens ∧
      pieces.flatMap Piece.marked = (Token.pieces tokens).flatMap Piece.marked := by
  induction chunks generalizing s with
  | nil =>
    refine ⟨s.flush.1, [.piece (s.mode.piece s.buffer)], rfl, ?_, ?_⟩
    · rw [List.flatten_nil, List.append_nil]
      exact .last hclear
    · simp [flush_marked]
  | cons chunk chunks ih =>
    obtain ⟨emitted, s', hfeed, hs', hsame, hclear', hscan⟩ :=
      feedLoop_scan (s := { s with buffer := s.buffer ++ chunk })
        ⟨hs.openTags, hs.pairs, hs.mode⟩ hpairs (Nat.lt_succ_self _) []
    simp only at hsame
    obtain ⟨pieces, tokens, hrun, htokens, heq⟩ :=
      ih hs' (by rwa [hsame]) (by rwa [hsame])
    rw [hsame] at htokens
    obtain ⟨tokens', htokens', heq'⟩ := hscan chunks.flatten tokens htokens
    refine ⟨emitted ++ pieces, tokens', ?_, by simpa using htokens', ?_⟩
    · rw [run, feed, hfeed, List.nil_append]
      simp [hrun]
    · rw [List.flatMap_append, heq', heq]

theorem withPairs_wf (pairs : List TagPair) : (withPairs pairs).Wf where
  openTags := rfl
  pairs := by
    intro pair hpair
    have hkept := (List.mem_filter.1 hpair).2
    simpa [Bool.and_eq_true] using hkept
  mode := by
    intro close hclose
    cases hclose

end ThinkSplitter

theorem new_pairs : ThinkSplitter.new.pairs = defaultPairs := by decide

/-- No default opening tag stands in the other. -/
theorem defaultPairs_unambiguous : Unambiguous defaultPairs := by
  unfold Unambiguous
  decide +kernel

theorem run_new_eq_scan (chunks : List Text) :
    ∃ pieces tokens, ThinkSplitter.new.run chunks = some pieces ∧
      Scan defaultPairs .text chunks.flatten tokens ∧
      pieces.flatMap Piece.marked = (Token.pieces tokens).flatMap Piece.marked := by
  have hwf : ThinkSplitter.new.Wf := ThinkSplitter.withPairs_wf defaultPairs
  have hrun := ThinkSplitter.run_eq_scan hwf (by rw [new_pairs]; exact defaultPairs_unambiguous)
    (fun exit hexit hwithin => (hwf.exit hexit).1 (List.infix_nil.1 hwithin)) chunks
  rwa [new_pairs] at hrun

/-- For every two chunkings of a text, the default splitter gives the same pieces once the
adjacent ones of a kind are joined: those of feeding the text at once, and those of the one
scan of the text that alternates between the earliest opening tag and the first closing tag
of its pair. Its tokens are the text, so that the pieces are the text without the delimiters. -/
theorem thinkSplitter_chunk_independent (chunks chunks' : List Text)
    (hsame : chunks.flatten = chunks'.flatten) :
    ∃ pieces pieces' whole tokens,
      ThinkSplitter.new.run chunks = some pieces ∧
      ThinkSplitter.new.run chunks' = some pieces' ∧
      ThinkSplitter.new.run [chunks.flatten] = some whole ∧
      Piece.join pieces = Piece.join pieces' ∧ Piece.join pieces = Piece.join whole ∧
      Piece.join pieces = Piece.join (Token.pieces tokens) ∧
      (∀ tokens', Scan defaultPairs .text chunks.flatten tokens' ↔ tokens' = tokens) ∧
      tokens.flatMap Token.chars = chunks.flatten ∧
      pieces.flatMap Piece.chars = (Token.pieces tokens).flatMap Piece.chars := by
  obtain ⟨pieces, tokens, hrun, hscan, hmarked⟩ := run_new_eq_scan chunks
  obtain ⟨pieces', tokens', hrun', hscan', hmarked'⟩ := run_new_eq_scan chunks'
  obtain ⟨whole, tokens'', hwhole, hscan'', hmarked''⟩ := run_new_eq_scan [chunks.flatten]
  rw [← hsame] at hscan'
  rw [List.flatten_singleton] at hscan''
  rw [hscan'.unique defaultPairs_unambiguous hscan] at hmarked'
  rw [hscan''.unique defaultPairs_unambiguous hscan] at hmarked''
  refine ⟨pieces, pieces', whole, tokens, hrun, hrun', hwhole, ?_, ?_, ?_, ?_,
    hscan.flatMap_chars, ?_⟩
  · rw [Piece.join_eq_ofMarked, Piece.join_eq_ofMarked, hmarked, hmarked']
  · rw [Piece.join_eq_ofMarked, Piece.join_eq_ofMarked, hmarked, hmarked'']
  · rw [Piece.join_eq_ofMarked, Piece.join_eq_ofMarked, hmarked]
  · intro other
    constructor
    · intro hscan'
      exact hscan'.unique defaultPairs_unambiguous hscan
    · rintro rfl
      exact hscan
  · rw [← Piece.map_snd_marked, ← Piece.map_snd_marked, hmarked]

/-- A tag cut in two, and the same text in one chunk. -/
theorem thinkSplitter_cut_tag : ∃ pieces pieces',
    ThinkSplitter.new.run ["a<thi".toList, "nk>b</think>c".toList] = some pieces ∧
    ThinkSplitter.new.run ["a<think>b</think>c".toList] = some pieces' ∧
    Piece.join pieces = Piece.join pieces' := by
  obtain ⟨pieces, pieces', -, -, hrun, hrun', -, hjoin, -⟩ := thinkSplitter_chunk_independent
    ["a<thi".toList, "nk>b</think>c".toList] ["a<think>b</think>c".toList] (by decide)
  exact ⟨pieces, pieces', hrun, hrun', hjoin⟩

end Hedos.Capabilities
