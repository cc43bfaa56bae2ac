import Mathlib

/-!
# Breaking cells into lines

`cli/src/tui/wrap.rs`: a paragraph of cells, each a grapheme with its width, is broken into lines,
between words first and inside a word that is longer than a line.

* `wrapCells` takes the cells run by run, and a run cut by cut (`place`);
* nothing but blanks is lost, nothing is added and nothing changes its place (`wrapCells_keeps`);
* the lines fit exactly when what stands of the leading blanks in front of the first word leaves
  room for its first cell (`wraps_fit_iff`).
-/

namespace Hedos.Cli

structure Cell (σ : Type) where
  grapheme : String
  width : ℕ
  style : σ
deriving DecidableEq

variable {σ : Type}

def Cell.blank (cell : Cell σ) : Bool := cell.grapheme == " "

def widthOf (line : List (Cell σ)) : ℕ := (line.map Cell.width).sum

def hasText (line : List (Cell σ)) : Bool := line.any fun cell => !cell.blank

def trimEnd (line : List (Cell σ)) : List (Cell σ) := line.rdropWhile Cell.blank

/-- One more cell of `runs`. -/
def addToRuns (runs : List (List (Cell σ))) (cell : Cell σ) : List (List (Cell σ)) :=
  match runs.getLast? with
  | some run =>
    if run.getLast?.any fun last => last.blank == cell.blank then
      runs.dropLast ++ [run ++ [cell]]
    else runs ++ [[cell]]
  | none => runs ++ [[cell]]

/-- The cells as alternating runs of blanks and of anything else. -/
def runs (cells : List (Cell σ)) : List (List (Cell σ)) := cells.foldl addToRuns []

/-- How many cells in front fit behind what is used of a line. -/
def fitting (width used : ℕ) : List (Cell σ) → ℕ
  | [] => 0
  | cell :: token =>
    if width < used + cell.width then 0 else fitting width (used + cell.width) token + 1

/-- The lines that are done, and the one being filled. -/
structure Wrapping (σ : Type) where
  lines : List (List (Cell σ)) := []
  line : List (Cell σ) := []
  used : ℕ := 0

/-- A run is put on the line, behind a break, or cut where the line ends. -/
def place (width : ℕ) (blank : Bool) (wrapping : Wrapping σ) (token : List (Cell σ)) :
    Wrapping σ :=
  if token.isEmpty then wrapping
  else if wrapping.used + widthOf token ≤ width then
    { wrapping with
      line := wrapping.line ++ token
      used := wrapping.used + widthOf token }
  else if hasText wrapping.line then
    let flushed : Wrapping σ := { lines := wrapping.lines ++ [trimEnd wrapping.line] }
    if blank then flushed else place width blank flushed token
  else
    -- a glyph wider than what is left still goes somewhere
    let cut := max (fitting width wrapping.used token) 1
    let line := wrapping.line ++ token.take cut
    if (token.drop cut).isEmpty then { wrapping with line := line, used := widthOf line }
    else place width blank { lines := wrapping.lines ++ [line] } (token.drop cut)
termination_by 2 * token.length + (if hasText wrapping.line then 1 else 0)
decreasing_by
  · have htext : hasText wrapping.line = true := ‹_›
    have hnone : hasText ([] : List (Cell σ)) = false := rfl
    rw [hnone, htext]
    simp
  · rename_i htoken _ htext _
    have hpos : 0 < token.length := List.length_pos_iff.2 (by simpa using htoken)
    have hnone : hasText ([] : List (Cell σ)) = false := rfl
    simp only [List.length_drop, hnone, htext]
    omega

def blankRun (run : List (Cell σ)) : Bool := run.head?.any Cell.blank

def placeRun (width : ℕ) (wrapping : Wrapping σ) (token : List (Cell σ)) : Wrapping σ :=
  place width (blankRun token) wrapping token

/-- Blanks dropped at the last break leave nothing worth a line of its own. -/
def Wrapping.finish (wrapping : Wrapping σ) : List (List (Cell σ)) :=
  if wrapping.lines.isEmpty || hasText wrapping.line then wrapping.lines ++ [wrapping.line]
  else wrapping.lines

def wrapCells (cells : List (Cell σ)) (width : ℕ) : List (List (Cell σ)) :=
  ((runs cells).foldl (placeRun (max width 1)) {}).finish

/-! ## Runs -/

/-- The runs are not empty, each is of blanks or of anything else, and they take turns. -/
structure Alternating (runs : List (List (Cell σ))) : Prop where
  ne_nil : ∀ run ∈ runs, run ≠ []
  uniform : ∀ run ∈ runs, ∀ cell ∈ run, cell.blank = blankRun run
  turns : (runs.map blankRun).IsChain (· ≠ ·)

theorem addToRuns_flatten (runs : List (List (Cell σ))) (cell : Cell σ) :
    (addToRuns runs cell).flatten = runs.flatten ++ [cell] := by
  unfold addToRuns
  cases hlast : runs.getLast? with
  | none => simp
  | some run =>
    obtain ⟨before, rfl⟩ := List.getLast?_eq_some_iff.1 hlast
    dsimp only
    split <;> simp

theorem runs_flatten (cells : List (Cell σ)) : (runs cells).flatten = cells := by
  induction cells using List.reverseRecOn with
  | nil => rfl
  | append_singleton cells cell ih =>
    rw [runs, List.foldl_concat, addToRuns_flatten]
    exact congrArg (· ++ [cell]) ih

theorem Alternating.addToRuns {runs : List (List (Cell σ))} (h : Alternating runs)
    (cell : Cell σ) : Alternating (addToRuns runs cell) := by
  unfold Cli.addToRuns
  cases hlast : runs.getLast? with
  | none =>
    obtain rfl : runs = [] := List.getLast?_eq_none_iff.1 hlast
    exact ⟨by simp, by simp [blankRun], by simp⟩
  | some run =>
    obtain ⟨before, rfl⟩ := List.getLast?_eq_some_iff.1 hlast
    obtain ⟨first, rest, rfl⟩ := List.exists_cons_of_ne_nil (h.ne_nil run (by simp))
    obtain ⟨last, hend⟩ : ∃ last, (first :: rest).getLast? = some last :=
      ⟨_, List.getLast?_eq_some_getLast (List.cons_ne_nil first rest)⟩
    have hkind : last.blank = first.blank :=
      h.uniform _ (by simp) last (List.mem_of_getLast? hend)
    dsimp only
    rw [hend, Option.any_some]
    have hrun : blankRun (first :: rest) = first.blank := rfl
    split
    · rename_i hsame
      have hcell : cell.blank = first.blank := by rw [← hkind, eq_comm]; simpa using hsame
      refine ⟨fun run hrun => ?_, fun run hrun => ?_, ?_⟩
      · rcases List.mem_append.1 hrun with hbefore | hnew
        · exact h.ne_nil run (List.mem_append_left _ (by simpa using hbefore))
        · rw [List.mem_singleton.1 hnew]
          simp
      · rcases List.mem_append.1 hrun with hbefore | hnew
        · exact h.uniform run (List.mem_append_left _ (by simpa using hbefore))
        · rw [List.mem_singleton.1 hnew]
          intro other hother
          rcases List.mem_append.1 hother with hold | hnew
          · exact h.uniform (first :: rest) (by simp) other hold
          · rw [List.mem_singleton.1 hnew]
            exact hcell
      · have hsame :
            ((before ++ [first :: rest]).dropLast ++ [first :: rest ++ [cell]]).map blankRun =
              (before ++ [first :: rest]).map blankRun := by simp [blankRun]
        rw [hsame]
        exact h.turns
    · rename_i hother
      refine ⟨fun run hrun => ?_, fun run hrun => ?_, ?_⟩
      · rcases List.mem_append.1 hrun with hold | hnew
        · exact h.ne_nil run hold
        · rw [List.mem_singleton.1 hnew]
          simp
      · rcases List.mem_append.1 hrun with hold | hnew
        · exact h.uniform run hold
        · rw [List.mem_singleton.1 hnew]
          simp [blankRun]
      · rw [List.map_append, List.isChain_append]
        refine ⟨h.turns, by simp, fun kind hkind' other hother' => ?_⟩
        simp [blankRun] at hkind' hother'
        rw [← hkind', ← hother', ← hkind]
        simpa using hother

theorem runs_alternating (cells : List (Cell σ)) : Alternating (runs cells) := by
  induction cells using List.reverseRecOn with
  | nil => exact ⟨by simp [runs], by simp [runs], by simp [runs]⟩
  | append_singleton cells cell ih =>
    rw [runs, List.foldl_concat]
    exact Alternating.addToRuns ih cell

/-! ## Placing a run -/

@[simp] theorem widthOf_append (line token : List (Cell σ)) :
    widthOf (line ++ token) = widthOf line + widthOf token := by
  simp [widthOf]

@[simp] theorem hasText_append (line token : List (Cell σ)) :
    hasText (line ++ token) = (hasText line || hasText token) := by
  simp [hasText]

variable {line token blanks : List (Cell σ)} {tokens : List (List (Cell σ))} {width used : ℕ}
  {wrapping : Wrapping σ}

theorem hasText_eq_false : hasText line = false ↔ ∀ cell ∈ line, cell.blank = true := by
  simp [hasText]

/-- The cells that are on the lines so far. -/
def Wrapping.cells (wrapping : Wrapping σ) : List (Cell σ) :=
  wrapping.lines.flatten ++ wrapping.line

def text (cells : List (Cell σ)) : List (Cell σ) := cells.filter fun cell => !cell.blank

theorem trimEnd_sublist (line : List (Cell σ)) : (trimEnd line).Sublist line :=
  (List.rdropWhile_prefix _ _).sublist

@[simp] theorem text_append (line token : List (Cell σ)) :
    text (line ++ token) = text line ++ text token :=
  List.filter_append ..

theorem text_of_blank {cells : List (Cell σ)} (h : hasText cells = false) : text cells = [] := by
  rw [text, List.filter_eq_nil_iff]
  intro cell hcell
  simp [hasText_eq_false.1 h cell hcell]

theorem text_trimEnd (line : List (Cell σ)) : text (trimEnd line) = text line := by
  have hsplit : trimEnd line ++ line.rtakeWhile Cell.blank = line :=
    List.rdropWhile_append_rtakeWhile
  have hblank : text (line.rtakeWhile Cell.blank) = [] := by
    refine text_of_blank (hasText_eq_false.2 fun cell hcell => ?_)
    exact List.mem_rtakeWhile_imp hcell
  conv_rhs => rw [← hsplit, text_append, hblank, List.append_nil]

/-- A run goes on the lines as it is, or not at all when it is blank. -/
theorem place_keeps (width : ℕ) (blank : Bool) (wrapping : Wrapping σ) (token : List (Cell σ))
    (hblank : blank = true → hasText token = false) :
    (place width blank wrapping token).cells.Sublist (wrapping.cells ++ token) ∧
      text (place width blank wrapping token).cells = text (wrapping.cells ++ token) := by
  have htrim (wrapping : Wrapping σ) :
      (wrapping.lines ++ [trimEnd wrapping.line]).flatten.Sublist wrapping.cells ∧
        text (wrapping.lines ++ [trimEnd wrapping.line]).flatten = text wrapping.cells := by
    constructor
    · simpa [Wrapping.cells] using (trimEnd_sublist wrapping.line)
    · simp [Wrapping.cells, text_trimEnd]
  fun_induction place width blank wrapping token with
  | case1 wrapping token hempty =>
    obtain rfl : token = [] := by simpa using hempty
    simp
  | case2 wrapping token => simp [Wrapping.cells]
  | case3 wrapping token _ _ _ flushed hb =>
    obtain ⟨hsub, htext⟩ := htrim wrapping
    have htoken := text_of_blank (hblank hb)
    have hflushed : flushed.cells = (wrapping.lines ++ [trimEnd wrapping.line]).flatten :=
      List.append_nil _
    constructor
    · rw [hflushed]
      exact hsub.trans (List.sublist_append_left _ _)
    · rw [hflushed, htext, text_append, htoken, List.append_nil]
  | case4 wrapping token _ _ _ flushed _ ih =>
    obtain ⟨hsub, htext⟩ := htrim wrapping
    obtain ⟨hplaced, hsame⟩ := ih hblank
    have hflushed : flushed.cells = (wrapping.lines ++ [trimEnd wrapping.line]).flatten :=
      List.append_nil _
    rw [hflushed] at hplaced hsame
    refine ⟨hplaced.trans (hsub.append (List.Sublist.refl token)), ?_⟩
    rw [hsame, text_append, htext, text_append]
  | case5 wrapping token _ _ _ cut line hrest =>
    have hall : token.take cut = token := by
      have hdrop : token.drop cut = [] := by simpa using hrest
      have hsplit := List.take_append_drop cut token
      rwa [hdrop, List.append_nil] at hsplit
    have hcells : wrapping.lines.flatten ++ line = wrapping.cells ++ token := by
      rw [Wrapping.cells, List.append_assoc, ← hall]
    constructor
    · exact hcells ▸ List.Sublist.refl _
    · exact congrArg text hcells
  | case6 wrapping token _ _ _ cut line _ ih =>
    have hcells : Wrapping.cells { lines := wrapping.lines ++ [line] } ++ token.drop cut =
        wrapping.cells ++ token := by
      simp [Wrapping.cells, line]
    rw [hcells] at ih
    exact ih fun hb => hasText_eq_false.2 fun cell hcell =>
      hasText_eq_false.1 (hblank hb) cell (List.mem_of_mem_drop hcell)

theorem Alternating.tail {run : List (Cell σ)} {runs : List (List (Cell σ))}
    (h : Alternating (run :: runs)) : Alternating runs where
  ne_nil other hother := h.ne_nil other (.tail _ hother)
  uniform other hother := h.uniform other (.tail _ hother)
  turns := h.turns.tail

theorem Alternating.hasText_head {run : List (Cell σ)} {runs : List (List (Cell σ))}
    (h : Alternating (run :: runs)) : hasText run = !blankRun run := by
  obtain ⟨first, rest, rfl⟩ := List.exists_cons_of_ne_nil (h.ne_nil run (.head _))
  have hrun := h.uniform _ (.head _)
  cases hkind : blankRun (first :: rest) with
  | true =>
    rw [hkind] at hrun
    exact hasText_eq_false.2 hrun
  | false =>
    have hfirst : first.blank = false := hkind
    simp [hasText, hfirst]

theorem placeAll_keeps (width : ℕ) (h : Alternating tokens) (wrapping : Wrapping σ) :
    (tokens.foldl (placeRun width) wrapping).cells.Sublist (wrapping.cells ++ tokens.flatten) ∧
      text (tokens.foldl (placeRun width) wrapping).cells =
        text (wrapping.cells ++ tokens.flatten) := by
  induction tokens generalizing wrapping with
  | nil => simp
  | cons token tokens ih =>
    obtain ⟨hsub, htext⟩ := place_keeps width (blankRun token) wrapping token fun hblank => by
      rw [h.hasText_head, hblank]
      rfl
    obtain ⟨hrest, hsame⟩ := ih h.tail (placeRun width wrapping token)
    rw [List.foldl_cons, List.flatten_cons, ← List.append_assoc]
    refine ⟨hrest.trans (hsub.append (List.Sublist.refl _)), ?_⟩
    rw [hsame, text_append, text_append _ tokens.flatten]
    exact congrArg (· ++ text tokens.flatten) htext

/-- The lines hold the cells in order, and only blanks are left out. -/
def Keeps (cells : List (Cell σ)) (lines : List (List (Cell σ))) : Prop :=
  lines.flatten.Sublist cells ∧ text lines.flatten = text cells

theorem wrapCells_keeps (cells : List (Cell σ)) (width : ℕ) :
    Keeps cells (wrapCells cells width) := by
  obtain ⟨hsub, htext⟩ := placeAll_keeps (max width 1) (runs_alternating cells) {}
  have hcells : Wrapping.cells {} ++ (runs cells).flatten = cells := runs_flatten cells
  rw [hcells] at hsub htext
  unfold wrapCells Wrapping.finish
  generalize (runs cells).foldl (placeRun (max width 1)) {} = wrapping at *
  split
  · have hpushed : (wrapping.lines ++ [wrapping.line]).flatten = wrapping.cells := by
      simp [Wrapping.cells]
    rw [Keeps, hpushed]
    exact ⟨hsub, htext⟩
  · rename_i hdrop
    have hnone : hasText wrapping.line = false := by
      cases hline : hasText wrapping.line <;> simp_all
    constructor
    · exact (List.sublist_append_left _ _).trans hsub
    · rw [← htext, Wrapping.cells, text_append, text_of_blank hnone, List.append_nil]

/-! ## How wide the lines get -/

/-- No wider than the width, or one cell. -/
def LineFits (width : ℕ) (line : List (Cell σ)) : Prop :=
  widthOf line ≤ width ∨ ∃ cell, line = [cell] ∧ width < cell.width

structure Wrapping.Fits (width : ℕ) (wrapping : Wrapping σ) : Prop where
  used : wrapping.used = widthOf wrapping.line
  lines : ∀ line ∈ wrapping.lines, LineFits width line
  line : LineFits width wrapping.line

theorem lineFits_nil (width : ℕ) : LineFits width ([] : List (Cell σ)) := Or.inl (Nat.zero_le _)

theorem lineFits_singleton (width : ℕ) (cell : Cell σ) : LineFits width [cell] := by
  by_cases h : width < cell.width
  · exact Or.inr ⟨cell, rfl, h⟩
  · exact Or.inl (by simpa [widthOf] using h)

theorem widthOf_sublist {cells : List (Cell σ)} (h : line.Sublist cells) :
    widthOf line ≤ widthOf cells :=
  (h.map Cell.width).sum_le_sum (fun _ _ => Nat.zero_le _)

theorem LineFits.trimEnd {width : ℕ} {line : List (Cell σ)} (h : LineFits width line) :
    LineFits width (trimEnd line) := by
  rcases h with h | ⟨cell, rfl, -⟩
  · exact Or.inl ((widthOf_sublist (trimEnd_sublist line)).trans h)
  · unfold Cli.trimEnd
    rw [List.rdropWhile_singleton]
    split
    · exact lineFits_nil width
    · exact lineFits_singleton width cell

theorem Wrapping.Fits.flush (h : wrapping.Fits width) :
    Wrapping.Fits width { lines := wrapping.lines ++ [trimEnd wrapping.line] } where
  used := rfl
  lines line hline := by
    rcases List.mem_append.1 hline with hold | hnew
    · exact h.lines line hold
    · rw [List.mem_singleton.1 hnew]
      exact h.line.trimEnd
  line := lineFits_nil width

theorem widthOf_fitting (h : 0 < fitting width used token) :
    used + widthOf (token.take (fitting width used token)) ≤ width := by
  induction token generalizing used with
  | nil => simp [fitting] at h
  | cons cell token ih =>
    rw [fitting] at h ⊢
    split at h
    · simp at h
    · rename_i hcell
      rw [if_neg hcell]
      have hcons : widthOf (cell :: token.take (fitting width (used + cell.width) token)) =
          cell.width + widthOf (token.take (fitting width (used + cell.width) token)) := by
        simp [widthOf]
      rw [List.take_succ_cons, hcons]
      rcases Nat.eq_zero_or_pos (fitting width (used + cell.width) token) with hzero | hpos
      · rw [hzero]
        simp [widthOf]
        omega
      · have := ih hpos
        omega

/-- The run can be begun on the line without making it too wide. -/
def Ready (width : ℕ) (wrapping : Wrapping σ) (token : List (Cell σ)) : Prop :=
  wrapping.line = [] ∨ hasText wrapping.line = true ∨
    ∀ cell ∈ token.head?, wrapping.used + cell.width ≤ width

/-- The first piece of a run that is cut. -/
theorem cut_fits (h : wrapping.Fits width) (hready : Ready width wrapping token) (hne : token ≠ [])
    (hnone : hasText wrapping.line = false) :
    LineFits width (wrapping.line ++ token.take (max (fitting width wrapping.used token) 1)) := by
  rcases Nat.eq_zero_or_pos (fitting width wrapping.used token) with hzero | hpos
  · obtain ⟨cell, rest, rfl⟩ := List.exists_cons_of_ne_nil hne
    have hover : width < wrapping.used + cell.width := by
      by_contra hfit
      rw [fitting, if_neg hfit] at hzero
      omega
    rcases hready with hline | htext | hroom
    · rw [hzero, hline]
      exact lineFits_singleton width cell
    · rw [hnone] at htext
      cases htext
    · exact absurd (hroom cell rfl) (by omega)
  · refine Or.inl ?_
    rw [Nat.max_eq_left hpos, widthOf_append, ← h.used]
    exact widthOf_fitting hpos

theorem place_fits {blank : Bool} (h : wrapping.Fits width) (hready : Ready width wrapping token) :
    (place width blank wrapping token).Fits width := by
  fun_induction place width blank wrapping token with
  | case1 => exact h
  | case2 wrapping token _ hfits =>
    refine ⟨?_, h.lines, Or.inl ?_⟩
    · simp [h.used]
    · rw [widthOf_append, ← h.used]
      exact hfits
  | case3 => exact h.flush
  | case4 wrapping token _ _ _ flushed _ ih => exact ih h.flush (Or.inl rfl)
  | case5 wrapping token hne hwide hnone cut line hrest =>
    exact ⟨rfl, h.lines, cut_fits h hready (by simpa using hne) (by simpa using hnone)⟩
  | case6 wrapping token hne hwide hnone cut line _ ih =>
    refine ih ⟨rfl, ?_, lineFits_nil width⟩ (Or.inl rfl)
    intro other hother
    rcases List.mem_append.1 hother with hold | hnew
    · exact h.lines other hold
    · rw [List.mem_singleton.1 hnew]
      exact cut_fits h hready (by simpa using hne) (by simpa using hnone)

theorem hasText_take (hne : token ≠ []) (htext : ∀ cell ∈ token, cell.blank = false) (n : ℕ) :
    hasText (token.take (max n 1)) = true := by
  obtain ⟨cell, rest, rfl⟩ := List.exists_cons_of_ne_nil hne
  obtain ⟨m, hm⟩ : ∃ m, max n 1 = m + 1 := ⟨max n 1 - 1, by omega⟩
  rw [hm, List.take_succ_cons]
  simp [hasText, htext cell List.mem_cons_self]

/-- A run with text leaves text on the line. -/
theorem place_text {blank : Bool}
    (hblank : blank = false) (hne : token ≠ []) (htext : ∀ cell ∈ token, cell.blank = false) :
    hasText (place width blank wrapping token).line = true := by
  fun_induction place width blank wrapping token with
  | case1 wrapping token hempty => exact absurd (by simpa using hempty) hne
  | case2 wrapping token =>
    have htoken := hasText_take hne htext token.length
    rw [List.take_of_length_le (Nat.le_max_left _ _)] at htoken
    simp [htoken]
  | case3 wrapping token _ _ _ flushed hb => simp_all
  | case4 wrapping token _ _ _ flushed _ ih => exact ih hne htext
  | case5 wrapping token _ _ _ cut line _ =>
    show hasText (wrapping.line ++ token.take cut) = true
    rw [hasText_append, hasText_take hne htext, Bool.or_true]
  | case6 wrapping token _ _ _ cut line hrest ih =>
    exact ih (by simpa using hrest) fun cell hcell => htext cell (List.mem_of_mem_drop hcell)

/-- A blank run leaves text on the line, or nothing. -/
theorem place_blank (h : hasText wrapping.line = true) :
    hasText (place width true wrapping token).line = true ∨
      (place width true wrapping token).line = [] := by
  rw [place]
  split
  · exact Or.inl h
  · split
    · exact Or.inl (by simp [h])
    · exact Or.inr rfl

/-- Behind a run that stands on the line with text, the runs fit. -/
theorem placeAll_fits (halt : Alternating tokens) (h : wrapping.Fits width)
    (hline : hasText wrapping.line = true ∨ wrapping.line = [])
    (hfirst : ∀ token ∈ tokens.head?, blankRun token = true → hasText wrapping.line = true) :
    (tokens.foldl (placeRun width) wrapping).Fits width := by
  induction tokens generalizing wrapping with
  | nil => exact h
  | cons token tokens ih =>
    have hready : Ready width wrapping token := hline.elim (fun h => Or.inr (Or.inl h)) Or.inl
    have hplaced : (placeRun width wrapping token).Fits width := place_fits h hready
    have hkind := halt.uniform token (.head _)
    have hne := halt.ne_nil token (.head _)
    rw [List.foldl_cons]
    cases hblank : blankRun token with
    | true =>
      have htext := hfirst token rfl hblank
      have hafter : hasText (placeRun width wrapping token).line = true ∨
          (placeRun width wrapping token).line = [] := by
        rw [placeRun, hblank]
        exact place_blank htext
      refine ih halt.tail hplaced hafter fun next hnext hsame => ?_
      -- the next run is not blank
      obtain ⟨rest, rfl⟩ : ∃ rest, tokens = next :: rest := by
        cases tokens with
        | nil => cases hnext
        | cons other rest => exact ⟨rest, by rw [Option.mem_some_iff.1 hnext]⟩
      have hturn := halt.turns
      simp [hblank, hsame] at hturn
    | false =>
      have htext : hasText (placeRun width wrapping token).line = true :=
        place_text hblank hne fun cell hcell => by rw [hkind cell hcell, hblank]
      exact ih halt.tail hplaced (Or.inl htext) fun _ _ _ => htext

/-! ## The leading blanks -/

/-- How wide the last piece is, of blanks that are cut where the lines end. -/
def lastPiece (width used : ℕ) (blanks : List (Cell σ)) : ℕ :=
  blanks.foldl (fun used cell => if used + cell.width ≤ width then used + cell.width
    else cell.width) used

theorem lastPiece_fits
    (h : used + widthOf blanks ≤ width) : lastPiece width used blanks = used + widthOf blanks := by
  induction blanks generalizing used with
  | nil => rfl
  | cons cell blanks ih =>
    have hcons : widthOf (cell :: blanks) = cell.width + widthOf blanks := by simp [widthOf]
    rw [hcons] at h ⊢
    rw [lastPiece, List.foldl_cons, if_pos (by omega)]
    refine (ih (by omega)).trans (by omega)

/-- A cell that does not fit begins a piece. -/
theorem lastPiece_restart {cell : Cell σ} (h : width < used + cell.width) :
    lastPiece width used (cell :: blanks) = lastPiece width 0 (cell :: blanks) := by
  simp only [lastPiece, List.foldl_cons, Nat.zero_add, ite_self]
  rw [if_neg (by omega)]

theorem lastPiece_fitting (width used : ℕ) (blanks : List (Cell σ)) :
    lastPiece width used blanks =
        lastPiece width (used + widthOf (blanks.take (fitting width used blanks)))
          (blanks.drop (fitting width used blanks)) ∧
      ∀ cell ∈ (blanks.drop (fitting width used blanks)).head?,
        width < used + widthOf (blanks.take (fitting width used blanks)) + cell.width := by
  induction blanks generalizing used with
  | nil => exact ⟨rfl, fun _ h => by cases h⟩
  | cons cell blanks ih =>
    rw [fitting]
    split
    · rename_i hwide
      refine ⟨rfl, fun other hother => ?_⟩
      obtain rfl : cell = other := Option.some.inj hother
      exact hwide
    · rename_i hfits
      obtain ⟨hpiece, hnext⟩ := ih (used + cell.width)
      have hcons : widthOf (cell :: blanks.take (fitting width (used + cell.width) blanks)) =
          cell.width + widthOf (blanks.take (fitting width (used + cell.width) blanks)) := by
        simp [widthOf]
      rw [List.take_succ_cons, List.drop_succ_cons, hcons, ← Nat.add_assoc]
      refine ⟨?_, hnext⟩
      rw [← hpiece, lastPiece, List.foldl_cons, if_pos (by omega)]
      rfl

theorem lastPiece_cut (hrest : blanks.drop (max (fitting width 0 blanks) 1) ≠ []) :
    lastPiece width 0 blanks =
      lastPiece width 0 (blanks.drop (max (fitting width 0 blanks) 1)) := by
  obtain ⟨cell, rest, hcell⟩ := List.exists_cons_of_ne_nil hrest
  rcases Nat.eq_zero_or_pos (fitting width 0 blanks) with hzero | hpos
  · cases blanks with
    | nil => simp at hrest
    | cons first blanks =>
      have hwide : width < first.width := by
        by_contra hfit
        rw [fitting, if_neg (by omega)] at hzero
        omega
      rw [hzero] at hcell ⊢
      have hblanks : blanks = cell :: rest := hcell
      subst hblanks
      have hstart : lastPiece width 0 (first :: cell :: rest) =
          lastPiece width first.width (cell :: rest) := by
        simp only [lastPiece, List.foldl_cons, Nat.zero_add, ite_self]
      rw [hstart, lastPiece_restart (by omega)]
      rfl
  · obtain ⟨hpiece, hnext⟩ := lastPiece_fitting width 0 blanks
    rw [Nat.max_eq_left hpos] at hcell ⊢
    rw [hcell] at hpiece hnext ⊢
    rw [hpiece, lastPiece_restart (hnext cell rfl)]

/-- The leading blanks are cut into lines; the last piece stays on the line. -/
theorem place_leading (width : ℕ) (blank : Bool) (wrapping : Wrapping σ)
    (hline : wrapping.line = []) (hused : wrapping.used = 0) (hne : token ≠ [])
    (hblank : hasText token = false) :
    (place width blank wrapping token).used = lastPiece width 0 token ∧
      (place width blank wrapping token).line ≠ [] ∧
      hasText (place width blank wrapping token).line = false := by
  fun_induction place width blank wrapping token with
  | case1 wrapping token hempty => exact absurd (by simpa using hempty) hne
  | case2 wrapping token _ hfits =>
    rw [hused] at hfits
    refine ⟨?_, by simp [hne], by rw [hline, List.nil_append, hblank]⟩
    rw [lastPiece_fits hfits, hused]
  | case3 wrapping token _ _ htext => simp [hline, hasText] at htext
  | case4 wrapping token _ _ htext => simp [hline, hasText] at htext
  | case5 wrapping token _ hwide _ cut line hrest =>
    -- a cut that takes everything is one cell that is too wide
    obtain ⟨cell, rest, rfl⟩ := List.exists_cons_of_ne_nil hne
    have hcut : (cell :: rest).length ≤ cut := by simpa using hrest
    have hzero : fitting width wrapping.used (cell :: rest) = 0 := by
      by_contra hpos
      have hfits := widthOf_fitting (Nat.pos_of_ne_zero hpos)
      rw [List.take_of_length_le (by omega)] at hfits
      omega
    have hnil : rest = [] := by
      have hone : cut = 1 := by simp only [cut, hzero, Nat.zero_max]
      rw [hone] at hcut
      simpa using hcut
    have hcell : line = [cell] := by
      show wrapping.line ++ List.take cut (cell :: rest) = [cell]
      rw [hline, List.take_of_length_le hcut, hnil]
      rfl
    subst hnil
    refine ⟨?_, ?_, ?_⟩
    · show widthOf line = _
      simp [hcell, widthOf, lastPiece]
    · show line ≠ []
      simp [hcell]
    · show hasText line = false
      rw [hcell, hblank]
  | case6 wrapping token _ _ _ cut line hrest ih =>
    have hdrop : token.drop (max (fitting width 0 token) 1) ≠ [] := by
      simpa [cut, hused] using hrest
    rw [lastPiece_cut hdrop]
    have hcut : cut = max (fitting width 0 token) 1 := by rw [← hused]
    rw [← hcut]
    refine ih rfl rfl (by simpa using hrest) ?_
    exact hasText_eq_false.2 fun cell hcell =>
      hasText_eq_false.1 hblank cell (List.mem_of_mem_drop hcell)

/-! ## Lines that do not fit -/

theorem place_lines (width : ℕ) (blank : Bool) (wrapping : Wrapping σ) (token : List (Cell σ)) :
    wrapping.lines <+: (place width blank wrapping token).lines := by
  fun_induction place width blank wrapping token with
  | case1 => exact List.prefix_rfl
  | case2 => exact List.prefix_rfl
  | case3 => exact List.prefix_append _ _
  | case4 wrapping token _ _ _ flushed _ ih => exact (List.prefix_append _ _).trans ih
  | case5 => exact List.prefix_rfl
  | case6 wrapping token _ _ _ cut line _ ih => exact (List.prefix_append _ _).trans ih

theorem placeAll_lines (width : ℕ) (wrapping : Wrapping σ) (tokens : List (List (Cell σ))) :
    wrapping.lines <+: (tokens.foldl (placeRun width) wrapping).lines := by
  induction tokens generalizing wrapping with
  | nil => exact List.prefix_rfl
  | cons token tokens ih => exact (place_lines width _ wrapping token).trans (ih _)

theorem Wrapping.lines_finish (wrapping : Wrapping σ) : wrapping.lines <+: wrapping.finish := by
  unfold finish
  split
  · exact List.prefix_append _ _
  · exact List.prefix_rfl

theorem Wrapping.Fits.finish (h : wrapping.Fits width) :
    ∀ line ∈ wrapping.finish, LineFits width line := by
  intro line hline
  unfold Wrapping.finish at hline
  split at hline
  · rcases List.mem_append.1 hline with hold | hnew
    · exact h.lines line hold
    · rw [List.mem_singleton.1 hnew]
      exact h.line
  · exact h.lines line hline

/-- A full line that ends with text is among the lines in the end. -/
theorem mem_finish_of_full (wrapping : Wrapping σ)
    (hne : ∀ token ∈ tokens, token ≠ []) (hfull : width < wrapping.used)
    (htext : hasText wrapping.line = true) (hend : trimEnd wrapping.line = wrapping.line) :
    wrapping.line ∈ (tokens.foldl (placeRun width) wrapping).finish := by
  cases tokens with
  | nil =>
    show wrapping.line ∈ wrapping.finish
    unfold Wrapping.finish
    rw [htext, Bool.or_true, if_pos rfl]
    exact List.mem_append_right _ (.head _)
  | cons token tokens =>
    have hflushed : wrapping.lines ++ [trimEnd wrapping.line] <+:
        (placeRun width wrapping token).lines := by
      have hsome := hne token (.head _)
      rw [placeRun, place, if_neg (by simpa using hsome), if_neg (by omega), if_pos htext]
      dsimp only
      split
      · exact List.prefix_rfl
      · exact place_lines width _ { lines := wrapping.lines ++ [trimEnd wrapping.line] } token
    have hall := hflushed.trans (placeAll_lines width (placeRun width wrapping token) tokens)
    rw [hend] at hall
    have hmem := (hall.trans (Wrapping.lines_finish _)).subset
    exact hmem (List.mem_append_right _ (.head _))

/-- A line of blanks with a glyph that does not fit behind them. -/
theorem not_lineFits {glyph : Cell σ} (hne : line ≠ [])
    (hwide : width < widthOf line + glyph.width) : ¬ LineFits width (line ++ [glyph]) := by
  intro h
  rcases h with hfits | ⟨cell, hcell, -⟩
  · simp [widthOf] at hfits hwide
    omega
  · obtain ⟨first, rest, rfl⟩ := List.exists_cons_of_ne_nil hne
    simp at hcell

theorem mem_finish_of_wide (width : ℕ) {glyph : Cell σ} (word : List (Cell σ))
    (hused : wrapping.used = widthOf wrapping.line) (hnone : hasText wrapping.line = false)
    (hglyph : glyph.blank = false) (hwide : width < wrapping.used + glyph.width)
    (hne : ∀ token ∈ tokens, token ≠ []) :
    wrapping.line ++ [glyph] ∈
      (((glyph :: word) :: tokens).foldl (placeRun width) wrapping).finish := by
  have hover : ¬ wrapping.used + widthOf (glyph :: word) ≤ width := by
    simp [widthOf]
    omega
  have hfitting : fitting width wrapping.used (glyph :: word) = 0 := by
    rw [fitting, if_pos hwide]
  rw [List.foldl_cons]
  cases word with
  | nil =>
    have hplaced : placeRun width wrapping [glyph] =
        { wrapping with
          line := wrapping.line ++ [glyph]
          used := widthOf (wrapping.line ++ [glyph]) } := by
      rw [placeRun, place, if_neg (by simp), if_neg hover, if_neg (by simp [hnone])]
      simp [hfitting]
    rw [hplaced]
    refine mem_finish_of_full _ hne ?_ ?_ ?_
    · simpa [widthOf, hused] using hwide
    · simp [hasText, hglyph]
    · exact List.rdropWhile_concat_neg _ _ _ (by simp [hglyph])
  | cons next word =>
    have hplaced : wrapping.lines ++ [wrapping.line ++ [glyph]] <+:
        (placeRun width wrapping (glyph :: next :: word)).lines := by
      rw [placeRun, place, if_neg (by simp), if_neg hover, if_neg (by simp [hnone])]
      simp only [hfitting, Nat.zero_max, List.take_succ_cons, List.take_zero, List.drop_succ_cons,
        List.drop_zero, List.isEmpty_cons, Bool.false_eq_true, if_false]
      exact place_lines width _ { lines := wrapping.lines ++ [wrapping.line ++ [glyph]] } _
    have hall := hplaced.trans (placeAll_lines width _ tokens)
    exact (hall.trans (Wrapping.lines_finish _)).subset (List.mem_append_right _ (.head _))

/-! ## When the lines fit -/

/-- The last piece of the leading blanks leaves room for the first cell behind them. -/
def IndentFits (width : ℕ) (cells : List (Cell σ)) : Prop :=
  cells.takeWhile Cell.blank ≠ [] → ∀ cell ∈ (cells.dropWhile Cell.blank).head?,
    lastPiece width 0 (cells.takeWhile Cell.blank) + cell.width ≤ width

theorem fits_empty (width : ℕ) : ({} : Wrapping σ).Fits width where
  used := rfl
  lines _ h := by cases h
  line := lineFits_nil width

theorem finish_fits_iff {cells : List (Cell σ)} :
    (∀ line ∈ ((runs cells).foldl (placeRun width) {}).finish, LineFits width line) ↔
      IndentFits width cells := by
  have halt := runs_alternating cells
  have hcells := runs_flatten cells
  cases hruns : runs cells with
  | nil =>
    rw [hruns] at hcells
    refine iff_of_true (fits_empty width).finish fun hlead => ?_
    exact absurd (by rw [← hcells]; rfl) hlead
  | cons token tokens =>
    rw [hruns] at halt hcells
    have hne := halt.ne_nil token (.head _)
    have htext := halt.hasText_head
    cases hblank : blankRun token with
    | false =>
      have hfits := placeAll_fits halt (fits_empty width) (Or.inr rfl) fun other hother hkind => by
        obtain rfl : token = other := Option.some.inj hother
        rw [hblank] at hkind
        cases hkind
      refine iff_of_true hfits.finish fun hlead => ?_
      obtain ⟨first, rest, rfl⟩ := List.exists_cons_of_ne_nil hne
      have hfirst : first.blank = false := hblank
      exact absurd (by rw [← hcells]; simp [hfirst]) hlead
    | true =>
      rw [hblank] at htext
      obtain ⟨hused, hline, hnone⟩ :=
        place_leading width true {} rfl rfl hne htext
      have hfits : (placeRun width {} token).Fits width :=
        place_fits (fits_empty width) (Or.inl rfl)
      have hplaced : placeRun width {} token = place width true {} token := by
        rw [placeRun, hblank]
      rw [← hplaced] at hused hline hnone
      cases tokens with
      | nil =>
        refine iff_of_true hfits.finish fun _ cell hcell => ?_
        have hdrop : cells.dropWhile Cell.blank = [] := by
          rw [← hcells, List.flatten_singleton]
          exact List.dropWhile_eq_nil_iff.2 (hasText_eq_false.1 htext)
        rw [hdrop] at hcell
        cases hcell
      | cons word tokens =>
        have hword : blankRun word = false := by
          have hturn := halt.turns
          simp only [List.map_cons, List.isChain_cons_cons, hblank] at hturn
          simpa using hturn.1.symm
        have hwordNe := halt.tail.ne_nil word (.head _)
        obtain ⟨glyph, rest, rfl⟩ := List.exists_cons_of_ne_nil hwordNe
        have hglyph : glyph.blank = false := hword
        have hlead : cells.takeWhile Cell.blank = token ∧
            (cells.dropWhile Cell.blank).head? = some glyph := by
          have hall := hasText_eq_false.1 htext
          rw [← hcells, List.flatten_cons, List.flatten_cons, List.cons_append,
            List.takeWhile_append_of_pos hall, List.dropWhile_append_of_pos hall,
            List.takeWhile_cons_of_neg (by simp [hglyph]),
            List.dropWhile_cons_of_neg (by simp [hglyph])]
          exact ⟨List.append_nil token, rfl⟩
        have hcond : IndentFits width cells ↔ lastPiece width 0 token + glyph.width ≤ width := by
          rw [IndentFits, hlead.1, hlead.2]
          exact ⟨fun h => h hne glyph rfl, fun h _ cell hcell => Option.some.inj hcell ▸ h⟩
        rw [hcond, List.foldl_cons]
        by_cases hroom : lastPiece width 0 token + glyph.width ≤ width
        · refine iff_of_true ?_ hroom
          have hready : Ready width (placeRun width {} token) (glyph :: rest) := by
            refine Or.inr (Or.inr fun cell hcell => ?_)
            rw [hused, ← Option.some.inj hcell]
            exact hroom
          have hbegun : (placeRun width (placeRun width {} token) (glyph :: rest)).Fits width :=
            place_fits hfits hready
          have hstands :
              hasText (placeRun width (placeRun width {} token) (glyph :: rest)).line = true :=
            place_text hword hwordNe fun cell hcell => by
              rw [halt.tail.uniform _ (.head _) cell hcell, hword]
          exact (placeAll_fits halt.tail.tail hbegun (Or.inl hstands) fun _ _ _ => hstands).finish
        · refine iff_of_false (fun hall => ?_) hroom
          have hmem := mem_finish_of_wide width rest hfits.used hnone hglyph (by omega)
            halt.tail.tail.ne_nil
          exact not_lineFits hline (by rw [← hfits.used]; omega) (hall _ hmem)

/-- For every list of cells and every width, the lines keep the cells but for blanks; and no line
but a single cell is too wide exactly when the leading blanks leave room for the first word. -/
theorem wraps_fit_iff (cells : List (Cell σ)) (width : ℕ) (h : 1 ≤ width) :
    (Keeps cells (wrapCells cells width) ∧
      ∀ line ∈ wrapCells cells width, LineFits width line) ↔ IndentFits width cells := by
  have hfits : (∀ line ∈ wrapCells cells width, LineFits width line) ↔ IndentFits width cells := by
    rw [wrapCells, Nat.max_eq_left h]
    exact finish_fits_iff
  rw [hfits]
  exact and_iff_right (wrapCells_keeps cells width)

def letters (text : List Char) : List (Cell Unit) :=
  text.map fun c => { grapheme := String.singleton c, width := 1, style := () }

/-- Two blanks and a letter on lines of two cells make one line of three. -/
theorem indent_too_wide :
    ¬ (Keeps (letters [' ', ' ', 'a']) (wrapCells (letters [' ', ' ', 'a']) 2) ∧
      ∀ line ∈ wrapCells (letters [' ', ' ', 'a']) 2, LineFits 2 line) := by
  intro h
  have hindent : IndentFits 2 (letters [' ', ' ', 'a']) := finish_fits_iff.1 h.2
  have hroom := hindent (by decide) { grapheme := "a", width := 1, style := () } (by decide)
  exact absurd hroom (by decide)

theorem wraps_fit_words :
    1 ≤ 3 ∧
      Keeps (letters [' ', 'a', ' ', 'b', 'c']) (wrapCells (letters [' ', 'a', ' ', 'b', 'c']) 3) ∧
      ∀ line ∈ wrapCells (letters [' ', 'a', ' ', 'b', 'c']) 3, LineFits 3 line :=
  ⟨by decide, (wraps_fit_iff _ 3 (by decide)).2 fun _ cell hcell => by
    obtain rfl : { grapheme := "a", width := 1, style := () } = cell := Option.some.inj hcell
    decide⟩

end Hedos.Cli
