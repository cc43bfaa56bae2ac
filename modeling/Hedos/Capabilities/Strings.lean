import Hedos.Lib.Primitives
import Hedos.Lib.Search

/-!
# Strings and what a stream holds back

`kernel/src/capabilities/mod.rs`, with the operations of `str` it and its two users are built
on. A string is its list of characters; its offsets are counted in the bytes of its UTF-8
form, as `str` counts them, and cutting it at an offset that is not a character boundary
panics (`none`).
-/

namespace Hedos.Capabilities

/-! ## Byte offsets -/

/-- `str::len`. -/
def len : Text → ℕ
  | [] => 0
  | c :: text => c.utf8Size + len text

@[simp] theorem len_nil : len [] = 0 := rfl

@[simp] theorem len_cons (c : Char) (text : Text) : len (c :: text) = c.utf8Size + len text := rfl

@[simp] theorem len_append (a b : Text) : len (a ++ b) = len a + len b := by
  induction a with
  | nil => simp
  | cons c a ih => simp [ih, Nat.add_assoc]

variable (text : Text)

theorem length_le_len : text.length ≤ len text := by
  induction text with
  | nil => simp
  | cons c text ih =>
    have hpos := c.utf8Size_pos
    simp only [List.length_cons, len_cons]
    omega

/-- `(&text[..at], &text[at..])`. -/
def splitAt : Text → ℕ → Option (Text × Text)
  | text, 0 => some ([], text)
  | [], _ + 1 => none
  | c :: text, n + 1 =>
    if c.utf8Size ≤ n + 1 then
      (splitAt text (n + 1 - c.utf8Size)).map fun parts => (c :: parts.1, parts.2)
    else none

/-- Cutting after a leading part gives that part back. -/
@[simp] theorem splitAt_append (a b : Text) : splitAt (a ++ b) (len a) = some (a, b) := by
  induction a with
  | nil => cases b <;> simp [splitAt]
  | cons c a ih =>
    have hpos := c.utf8Size_pos
    obtain ⟨n, hn⟩ : ∃ n, len (c :: a) = n + 1 := ⟨len (c :: a) - 1, by simp; omega⟩
    have hrest : n + 1 - c.utf8Size = len a := by
      rw [← hn, len_cons]
      omega
    rw [hn, List.cons_append, splitAt, if_pos (by rw [← hn, len_cons]; omega), hrest, ih]
    rfl

/-- Offsets are in the order of the characters. -/
theorem len_take_lt {text : Text} {i j : ℕ} (h : i < j) (hj : j ≤ text.length) :
    len (text.take i) < len (text.take j) := by
  induction text generalizing i j with
  | nil => simp at hj; omega
  | cons c text ih =>
    obtain ⟨j, rfl⟩ : ∃ k, j = k + 1 := ⟨j - 1, by omega⟩
    have hpos := c.utf8Size_pos
    cases i with
    | zero => simp; omega
    | succ i =>
      have hrest := ih (i := i) (j := j) (by omega) (by simpa using hj)
      simpa using hrest

theorem splitAt_len_take (i : ℕ) :
    splitAt text (len (text.take i)) = some (text.take i, text.drop i) := by
  have hsplit := splitAt_append (text.take i) (text.drop i)
  rwa [List.take_append_drop] at hsplit

theorem len_take_add_drop (i : ℕ) : len (text.take i) + len (text.drop i) = len text := by
  rw [← len_append, List.take_append_drop]

/-- `str::find` with a string pattern. -/
def find (text pattern : Text) : Option ℕ :=
  (Search.firstAt pattern text).map fun i => len (text.take i)

theorem find_eq_some {text pattern : Text} {position : ℕ} (h : find text pattern = some position) :
    ∃ i, position = len (text.take i) ∧ Search.firstAt pattern text = some i := by
  obtain ⟨i, hi, rfl⟩ := Option.map_eq_some_iff.1 h
  exact ⟨i, rfl, hi⟩

theorem find_eq_none {text pattern : Text} : find text pattern = none ↔ ¬ pattern <:+: text := by
  rw [find, Option.map_eq_none_iff, Search.firstAt_eq_none]

/-- `str::char_indices`, the characters with the offsets they begin at. -/
def charIndices (offset : ℕ) : Text → List (ℕ × Char)
  | [] => []
  | c :: text => (offset, c) :: charIndices (offset + c.utf8Size) text

/-! ## The helpers of `capabilities` -/

/-- The byte index at which the last `charsFromEnd` characters of `text` begin. -/
def charBoundaryFromEnd (text : Text) (charsFromEnd : ℕ) : ℕ :=
  if charsFromEnd = 0 then len text
  else ((charIndices 0 text).reverse[charsFromEnd - 1]?).elim 0 Prod.fst

/-- The loop of `held_suffix_len`, from the longest suffix it tries down. -/
def heldSuffixLoop (text : Text) (candidates : List Text) : ℕ → Option ℕ
  | 0 => some 0
  | n + 1 => do
    let start := charBoundaryFromEnd text (n + 1)
    let (_, suffix) ← splitAt text start
    if candidates.any fun candidate => suffix.isPrefixOf candidate then
      some (len text - start)
    else heldSuffixLoop text candidates n

/-- The byte length of the longest suffix of `text` (up to one character shy of the longest
candidate) that is a prefix of some candidate delimiter. -/
def heldSuffixLen (text : Text) (candidates : List Text) : Option ℕ :=
  let maxChars := (candidates.map List.length).max?.getD 1
  let cap := min (maxChars - 1) text.length
  heldSuffixLoop text candidates cap

theorem charIndices_getElem? (offset : ℕ) (text : Text) (i : ℕ) :
    ((charIndices offset text)[i]?).map Prod.fst =
      if i < text.length then some (offset + len (text.take i)) else none := by
  induction text generalizing offset i with
  | nil => simp [charIndices]
  | cons c text ih =>
    cases i with
    | zero => simp [charIndices]
    | succ i => simp [charIndices, ih, Nat.add_assoc]

theorem charIndices_length (offset : ℕ) (text : Text) :
    (charIndices offset text).length = text.length := by
  induction text generalizing offset with
  | nil => rfl
  | cons c text ih => simp [charIndices, ih]

theorem charBoundaryFromEnd_eq {text : Text} {k : ℕ} (hpos : 0 < k) (hk : k ≤ text.length) :
    charBoundaryFromEnd text k = len (text.take (text.length - k)) := by
  have hrev : (charIndices 0 text).reverse[k - 1]? = (charIndices 0 text)[text.length - k]? := by
    rw [List.getElem?_reverse (by rw [charIndices_length]; omega), charIndices_length]
    congr 1
    omega
  have hget := charIndices_getElem? 0 text (text.length - k)
  rw [if_pos (by omega), Nat.zero_add] at hget
  rw [charBoundaryFromEnd, if_neg (by omega), hrev]
  cases hc : (charIndices 0 text)[text.length - k]? with
  | none => simp [hc] at hget
  | some e => simpa [hc] using hget

theorem heldSuffixLoop_eq (candidates : List Text) {n : ℕ} (hn : n ≤ text.length) :
    heldSuffixLoop text candidates n =
      some (len (text.drop (text.length - Search.heldUpTo text candidates n))) := by
  induction n with
  | zero => simp [heldSuffixLoop, Search.heldUpTo]
  | succ n ih =>
    have hlen := len_take_add_drop text (text.length - (n + 1))
    rw [heldSuffixLoop, charBoundaryFromEnd_eq (by omega) hn, splitAt_len_take, Search.heldUpTo]
    simp only [Option.bind_eq_bind, Option.bind_some]
    split
    · congr 1
      omega
    · exact ih (by omega)

/-- What is held back is the end of the text that `Search.held` measures in characters. -/
theorem heldSuffixLen_eq (candidates : List Text) :
    heldSuffixLen text candidates =
      some (len (text.drop (text.length - Search.held text candidates))) :=
  heldSuffixLoop_eq text candidates (Nat.min_le_right _ _)

/-- The text in front of what is held back: the code cuts it off at a character boundary. -/
theorem splitAt_held (candidates : List Text) :
    let kept := text.length - Search.held text candidates
    splitAt text (len text - len (text.drop kept)) = some (text.take kept, text.drop kept) := by
  intro kept
  have hlen := len_take_add_drop text kept
  rw [← hlen, Nat.add_sub_cancel, splitAt_len_take]

end Hedos.Capabilities
