import Hedos.Adapters.Embeddings
import Hedos.Lib.Lists
import Mathlib.Algebra.Order.BigOperators.Group.List

/-!
# The vector of each input

* `chunked` cuts the inputs into ranges that follow one another (`Covers`), none of them too large
  (`Within`);
* an answer that is read gives each slot the vector of its one row (`orderRows_placed`), so an
  accepted answer gives each input of a chunk its vector (`Given`);
* a run sends the vectors of the chunks accepted before the first that is not, and then ends
  (`embedChunks_accepted`, `embedChunks_refused`).
-/

namespace Hedos.Embeddings

open Hedos.Kernel (JsonValue GenerationStats CapabilityChunk RuntimeError)
open Hedos.Upstream (Ending Sent)

/-! ## Ranges -/

/-- The ranges follow one another from a place to another, and none is empty. -/
def Covers : ℕ → List Range → ℕ → Prop
  | start, [], stop => start = stop
  | start, range :: ranges, stop =>
    range.start = start ∧ range.start < range.stop ∧ Covers range.stop ranges stop

/-- The bytes of text of some inputs, as a `usize` has them. -/
def textBytes (inputs : List JsonValue) : ℕ := min usizeMax (inputs.map textLen).sum

/-- At most 64 inputs, and within the budget unless there is but one. -/
def Within (limit : ℕ) (inputs : List JsonValue) (range : Range) : Prop :=
  range.stop - range.start ≤ embeddingChunkInputs ∧
    (range.stop - range.start = 1 ∨ textBytes (range.slice inputs) ≤ limit)

section

variable {limit : ℕ}

theorem chunkedFrom_covers (inputs : List JsonValue) {index start : ℕ} (bytes : ℕ)
    (hstart : start ≤ index) :
    Covers start (chunkedFrom limit inputs index start bytes) (index + inputs.length) := by
  induction inputs generalizing index start bytes with
  | nil =>
    rw [chunkedFrom]
    split
    · rename_i hlt
      exact ⟨rfl, hlt, rfl⟩
    · simp only [Covers, List.length_nil]
      omega
  | cons input inputs ih =>
    have hlength : index + (input :: inputs).length = index + 1 + inputs.length := by
      rw [List.length_cons]
      omega
    rw [chunkedFrom, hlength]
    split
    · rename_i hfull
      have hlt : start < index := by
        rcases hfull with h | h
        · rw [embeddingChunkInputs] at h
          omega
        · exact h.1
      exact ⟨rfl, hlt, ih _ (Nat.le_succ index)⟩
    · exact ih _ (by omega)

theorem saturatingAdd_textBytes (inputs : List JsonValue) (input : JsonValue) :
    saturatingAdd (textBytes inputs) (textLen input) = textBytes (inputs ++ [input]) := by
  simp only [saturatingAdd, textBytes, List.map_append, List.map_cons, List.map_nil,
    List.sum_append, List.sum_cons, List.sum_nil]
  omega

variable {start : ℕ}

/-- The chunk that is open behind some inputs may be closed there. -/
theorem within_open {done : List JsonValue} (inputs : List JsonValue)
    (hlt : start < done.length) (hcount : done.length - start ≤ embeddingChunkInputs)
    (hbytes : done.length - start ≤ 1 ∨ textBytes (done.drop start) ≤ limit) :
    Within limit (done ++ inputs) ⟨start, done.length⟩ := by
  have hslice : Range.slice ⟨start, done.length⟩ (done ++ inputs) = done.drop start := by
    rw [Range.slice, List.drop_append_of_le_length hlt.le, List.take_left']
    exact List.length_drop
  refine ⟨hcount, ?_⟩
  rw [hslice]
  rcases hbytes with h | h
  · exact .inl (by simp only; omega)
  · exact .inr h

theorem chunkedFrom_within (inputs done : List JsonValue)
    (hstart : start ≤ done.length) (hcount : done.length - start ≤ embeddingChunkInputs)
    (hbytes : done.length - start ≤ 1 ∨ textBytes (done.drop start) ≤ limit) :
    ∀ range ∈ chunkedFrom limit inputs done.length start (textBytes (done.drop start)),
      Within limit (done ++ inputs) range := by
  induction inputs generalizing done start with
  | nil =>
    intro range hrange
    rw [chunkedFrom] at hrange
    split at hrange
    · rename_i hlt
      rw [List.mem_singleton.1 hrange]
      exact within_open [] hlt hcount hbytes
    · cases hrange
  | cons input inputs ih =>
    intro range hrange
    have hnext : (done ++ [input]).length = done.length + 1 := by simp
    have hwhole : done ++ input :: inputs = (done ++ [input]) ++ inputs := by simp
    rw [chunkedFrom] at hrange
    split at hrange
    · rename_i hfull
      have hlt : start < done.length := by
        rcases hfull with h | h
        · rw [embeddingChunkInputs] at h
          omega
        · exact h.1
      rcases List.mem_cons.1 hrange with rfl | hmem
      · exact within_open _ hlt hcount hbytes
      · have halone : saturatingAdd 0 (textLen input) =
            textBytes ((done ++ [input]).drop done.length) := by
          rw [List.drop_left, saturatingAdd, textBytes]
          simp
        rw [halone, ← hnext] at hmem
        rw [hwhole]
        refine ih (done ++ [input]) (by omega) ?_ (.inl (by omega)) range hmem
        rw [hnext, embeddingChunkInputs]
        omega
    · rename_i hroom
      obtain ⟨hnotFull, hfits⟩ := not_or.1 hroom
      have hmore : saturatingAdd (textBytes (done.drop start)) (textLen input) =
          textBytes ((done ++ [input]).drop start) := by
        rw [saturatingAdd_textBytes, List.drop_append_of_le_length hstart]
      rw [hmore, ← hnext] at hrange
      rw [hwhole]
      refine ih (done ++ [input]) (by omega) (by omega) ?_ range hrange
      rcases Nat.eq_or_lt_of_le hstart with heq | hlt
      · exact .inl (by omega)
      · have hle := Nat.le_of_not_lt fun h => hfits ⟨hlt, h⟩
        exact .inr (hmore ▸ hle)

end

/-- The ranges of `chunked` follow one another through all inputs, and none is too large. -/
theorem chunked_ranges (inputs : List JsonValue) (window : ℤ) :
    Covers 0 (chunked inputs window) inputs.length ∧
      ∀ range ∈ chunked inputs window, Within (budget window) inputs range := by
  refine ⟨?_, chunkedFrom_within inputs [] (Nat.zero_le _) (Nat.zero_le _) (.inl (Nat.zero_le _))⟩
  have hcovers := @chunkedFrom_covers (budget window) inputs 0 0 0 (Nat.le_refl 0)
  rwa [Nat.zero_add] at hcovers

/-! ## Rows -/

section

variable {w : Outside}

theorem mapM_id_eq_some {α : Type} {slots : List (Option α)} {items : List α}
    (h : slots.mapM id = some items) : slots = items.map some := by
  induction slots generalizing items with
  | nil =>
    cases h
    rfl
  | cons slot slots ih =>
    rw [List.mapM_cons] at h
    obtain ⟨item, hitem, h⟩ := Option.bind_eq_some_iff.1 h
    obtain ⟨rest, hrest, h⟩ := Option.bind_eq_some_iff.1 h
    cases h
    rw [List.map_cons, ← ih hrest]
    exact congrArg (· :: slots) hitem

/-- The vectors of the rows with an index, in the order they come. -/
def vectorsAt (w : Outside) (rows : List JsonValue) (index : ℕ) : List (Option (List ℚ)) :=
  (rows.filter fun row => rowIndex row = some index).map (rowVector w)

/-- Each slot holds the vector of the one row with its index, or there is none. -/
def Placed (w : Outside) (rows : List JsonValue) (ordered : List (Option (List ℚ))) : Prop :=
  ∀ index slot, ordered[index]? = some slot → vectorsAt w rows index = slot.toList.map some

variable {rows : List JsonValue}

variable {ordered ordered' : List (Option (List ℚ))}

theorem placeRow_placed {row : JsonValue}
    (hplaced : Placed w rows ordered) (h : placeRow w ordered row = some ordered') :
    ordered'.length = ordered.length ∧ Placed w (rows ++ [row]) ordered' := by
  obtain ⟨index, hindex, h⟩ := Option.bind_eq_some_iff.1 h
  obtain ⟨vector, hvector, h⟩ := Option.bind_eq_some_iff.1 h
  obtain ⟨slot, hslot, h⟩ := Option.bind_eq_some_iff.1 h
  split at h
  · cases h
  · rename_i hfree
    cases h
    have hnone : slot = none := by simpa using hfree
    subst hnone
    refine ⟨List.length_set, fun i s hs => ?_⟩
    rw [List.getElem?_set] at hs
    rw [vectorsAt, List.filter_append, List.map_append]
    split at hs
    · rename_i hi
      subst hi
      have hold := hplaced index none hslot
      rw [vectorsAt] at hold
      rw [hold]
      split at hs
      · cases hs
        simp [hindex, hvector]
      · cases hs
    · rename_i hi
      have hold := hplaced i s hs
      rw [vectorsAt] at hold
      rw [hold]
      simp [hindex, hi]

theorem foldlM_placed {done : List JsonValue}
    (hplaced : Placed w done ordered) (h : rows.foldlM (placeRow w) ordered = some ordered') :
    ordered'.length = ordered.length ∧ Placed w (done ++ rows) ordered' := by
  induction rows generalizing done ordered with
  | nil =>
    cases h
    exact ⟨rfl, by rwa [List.append_nil]⟩
  | cons row rows ih =>
    rw [List.foldlM_cons] at h
    obtain ⟨next, hnext, h⟩ := Option.bind_eq_some_iff.1 h
    obtain ⟨hlength, hplaced⟩ := placeRow_placed hplaced hnext
    obtain ⟨hlength', hplaced'⟩ := ih hplaced h
    refine ⟨hlength'.trans hlength, ?_⟩
    rwa [List.append_assoc, List.singleton_append] at hplaced'

/-- The vectors of rows are as many, and each is that of the one row with its place. -/
theorem orderRows_placed {vectors : List (List ℚ)} (h : orderRows w rows = some vectors) :
    ∀ index vector, vectors[index]? = some vector → vectorsAt w rows index = [some vector] := by
  obtain ⟨ordered, hordered, h⟩ := Option.bind_eq_some_iff.1 h
  have hslots := mapM_id_eq_some h
  have hempty : Placed w [] (List.replicate rows.length none) := by
    intro index slot hslot
    have hnone := List.eq_of_mem_replicate (List.mem_of_getElem? hslot)
    rw [hnone]
    rfl
  obtain ⟨-, hplaced⟩ := foldlM_placed hempty hordered
  intro index vector hvector
  have hslot : ordered[index]? = some (some vector) := by
    rw [hslots, List.getElem?_map, hvector]
    rfl
  exact hplaced index (some vector) hslot

end

/-! ## Errors that name an input -/

theorem rejected_text (tooLong : TooLong) (index : Option ℕ) :
    ∃ rest, tooLong.rejected index =
      .rejected (index.elim "the input" (fun index => "input " ++ toString index) ++
        (" " ++ rest)) := by
  have hspace : (" is " : String) = " " ++ "is " := rfl
  have hmore : (" is more than the " : String) = " " ++ "is more than the " := rfl
  cases tooLong with | mk tokens most =>
  cases tokens with
  | none =>
    refine ⟨"is more than the " ++ toString most ++ " tokens this model embeds at once", ?_⟩
    cases index <;> simp only [TooLong.rejected, hmore, Option.elim, String.append_assoc]
  | some tokens =>
    refine ⟨"is " ++ toString tokens ++ " tokens, more than the " ++ toString most ++
      " this model embeds at once", ?_⟩
    cases index <;> simp only [TooLong.rejected, hspace, Option.elim, String.append_assoc]

/-- A number and a space behind it are read back. -/
theorem takeWhile_digits (n : ℕ) (rest : List Char) :
    (Nat.toDigits 10 n ++ ' ' :: rest).takeWhile Char.isDigit = Nat.toDigits 10 n := by
  have hdigits : ∀ c ∈ Nat.toDigits 10 n, c.isDigit = true := fun c hc =>
    Nat.isDigit_of_mem_toDigits (by decide) (by decide) hc
  rw [List.takeWhile_append_of_pos hdigits, List.takeWhile_cons_of_neg (by decide), List.append_nil]

/-- The text of a rejection says which input it is about. -/
theorem rejected_inj {a b : TooLong} {i : ℕ} {index : Option ℕ}
    (h : a.rejected index = b.rejected (some i)) : index = some i := by
  obtain ⟨rest, hrest⟩ := rejected_text a index
  obtain ⟨rest', hrest'⟩ := rejected_text b (some i)
  rw [hrest, hrest'] at h
  have htext := congrArg String.toList (RuntimeError.rejected.inj h)
  simp only [Option.elim, String.toList_append] at htext
  cases index with
  | none => cases htext
  | some j =>
    simp only [String.toList_append, List.append_assoc, List.append_cancel_left_eq] at htext
    have hspace : (" " : String).toList = [' '] := rfl
    have hdigits : ∀ n : ℕ, (toString n).toList = Nat.toDigits 10 n := fun n => Nat.toList_repr
    simp only [hspace, hdigits, List.singleton_append] at htext
    have hsame := congrArg (List.takeWhile Char.isDigit) htext
    rw [takeWhile_digits, takeWhile_digits] at hsame
    have hvalue := congrArg (fun digits => Nat.ofDigitChars 10 digits 0) hsame
    simp only [Nat.ofDigitChars_ten_toDigits] at hvalue
    rw [hvalue]

/-- An error that is not about the length of an input. -/
def IsOther (error : RuntimeError) : Prop := ∀ message, error ≠ .rejected message

theorem otherwiseRefused_other (status : ℕ) (body : ErrorBody) (name : String) :
    ∃ error, otherwiseRefused status body name = .failed error ∧ IsOther error := by
  rw [otherwiseRefused]
  split
  · exact ⟨_, rfl, fun _ h => by cases h⟩
  · exact ⟨_, rfl, fun _ h => by cases h⟩

/-- What a failure is refused with names no input. -/
theorem refused_other {failure : PostFailure} {window : ℤ} {name : String} {error : RuntimeError}
    (hruntime : ∀ e, failure = .runtime e → IsOther e)
    (h : refused failure window name = .failed error) : IsOther error := by
  cases failure with
  | runtime e =>
    cases h
    exact hruntime error rfl
  | answered status body =>
    obtain ⟨other, hother, hisOther⟩ := otherwiseRefused_other status body name
    simp only [refused] at h
    split at h
    · split at h
      · cases h
      · rw [hother] at h
        cases h
        exact hisOther
    · split at h
      · cases h
      · rw [hother] at h
        cases h
        exact hisOther

section

variable {w : Outside} {server : EmbeddingServer}

variable {error : RuntimeError} {n : ℕ} {ranges : List Range} {range : Range}

variable {cap start stop : ℕ} {bytes body : Bytes} {embedded : Embedded} {results : List Embedded}
  {run : List Exchange}

theorem cappedBody_other {chunks : List Bytes} {ending : Ending}
    (h : cappedBody cap bytes chunks ending = .error error) :
    IsOther error := by
  induction chunks generalizing bytes with
  | nil =>
    cases ending with
    | closed => cases h
    | transport reason =>
      cases h
      exact fun _ h => by cases h
  | cons chunk chunks ih =>
    rw [cappedBody] at h
    split at h
    · cases h
      exact fun _ h => by cases h
    · exact ih h

theorem postCapped_other
    (h : postCapped w n body cap = .error (.runtime error)) : IsOther error := by
  rw [postCapped] at h
  split at h
  · cases h
    exact fun _ h => by cases h
  · cases h
    exact fun _ h => by cases h
  · split at h
    · split at h
      · cases h
      · rename_i hbody
        cases h
        exact cappedBody_other hbody
    · cases h

theorem parseEmbeddings_other (h : parseEmbeddings w bytes = .error error) : IsOther error := by
  have hunderstood : IsOther understood := fun _ h => by cases h
  rw [parseEmbeddings] at h
  split at h
  · cases h
    exact hunderstood
  · split at h
    · cases h
      exact hunderstood
    · cases h

theorem postEmbeddings_other
    (h : postEmbeddings w n body = .error (.runtime error)) : IsOther error := by
  rw [postEmbeddings] at h
  split at h
  · rename_i hpost
    cases h
    exact postCapped_other hpost
  · split at h
    · cases h
    · rename_i hparse
      cases h
      exact parseEmbeddings_other hparse

theorem embed_other {inputs : List JsonValue}
    (h : embed w server n inputs = .error (.failed error)) : IsOther error := by
  rw [embed] at h
  split at h
  · rename_i hbody
    cases h
    rw [embeddingsBody] at hbody
    split at hbody
    · cases hbody
    · cases hbody
      exact fun _ h => by cases h
  · split at h
    · cases h
    · rename_i failure hpost
      refine refused_other (fun e he => ?_) (Except.error.inj h)
      subst he
      exact postEmbeddings_other hpost

/-! ## Answers -/

/-- The rows of the answer to the `n`-th request, if it is one that can be read. -/
def answerRows (w : Outside) (server : EmbeddingServer) (n : ℕ) (inputs : List JsonValue) :
    Option (List JsonValue) :=
  match embeddingsBody w server.model inputs with
  | .error _ => none
  | .ok body =>
    match postCapped w n body maxJsonBodyBytes with
    | .error _ => none
    | .ok bytes => (w.fromSlice bytes).bind dataRows

/-- The one vector the server gives for an input of the `n`-th request. -/
def Given (w : Outside) (server : EmbeddingServer) (n : ℕ) (inputs : List JsonValue) (index : ℕ)
    (vector : List ℚ) : Prop :=
  ∃ rows, answerRows w server n inputs = some rows ∧ vectorsAt w rows index = [some vector]

theorem embed_given {inputs : List JsonValue}
    (h : embed w server n inputs = .ok embedded) {index : ℕ} {vector : List ℚ}
    (hvector : embedded.1[index]? = some vector) : Given w server n inputs index vector := by
  rw [embed] at h
  rw [Given, answerRows]
  cases hbody : embeddingsBody w server.model inputs with
  | error error =>
    rw [hbody] at h
    cases h
  | ok body =>
    simp only [hbody, postEmbeddings] at h
    cases hpost : postCapped w n body maxJsonBodyBytes with
    | error failure =>
      rw [hpost] at h
      cases h
    | ok bytes =>
      simp only [hpost, parseEmbeddings] at h
      cases hvalue : w.fromSlice bytes with
      | none =>
        rw [hvalue] at h
        cases h
      | some value =>
        simp only [hvalue] at h
        cases hrows : dataRows value with
        | none =>
          rw [hrows] at h
          cases h
        | some rows =>
          simp only [hrows, Option.bind_some] at h
          cases hvectors : orderRows w rows with
          | none =>
            rw [hvectors] at h
            cases h
          | some vectors =>
            rw [hvectors] at h
            cases h
            refine ⟨rows, ?_, orderRows_placed hvectors index vector hvector⟩
            simp only [hpost, hvalue, Option.bind_some, hrows]

/-- The answer to the `n`-th request, if it has a vector for each input. -/
def accepted (w : Outside) (server : EmbeddingServer) (n : ℕ) (chunk : List JsonValue) :
    Option Embedded :=
  match embed w server n chunk with
  | .ok embedded => if embedded.1.length = chunk.length then some embedded else none
  | .error _ => none

theorem accepted_eq_some {chunk : List JsonValue} (h : accepted w server n chunk = some embedded) :
    embed w server n chunk = .ok embedded ∧ embedded.1.length = chunk.length := by
  rw [accepted] at h
  split at h
  · rename_i hembed
    split at h
    · rename_i hlength
      cases h
      exact ⟨hembed, hlength⟩
    · cases h
  · cases h

/-- The requests for the ranges, each with its number, are accepted with the results. -/
def Answered (w : Outside) (server : EmbeddingServer) (inputs : List JsonValue)
    (ranges : List (Range × ℕ)) (results : List Embedded) : Prop :=
  List.Forall₂ (fun place result =>
    accepted w server place.2 (place.1.slice inputs) = some result) ranges results

/-- The vectors of some answers, one after the other. -/
def vectorsOf (results : List Embedded) : List (List ℚ) := results.flatMap Prod.fst

def sentVectors (results : List Embedded) : List Sent :=
  (vectorsOf results).map fun vector => .ok (.vector vector)

/-! ## Runs -/

variable {inputs : List JsonValue}

/-- When every answer is accepted, all vectors are sent and then a `Done`. -/
theorem embedChunks_accepted
    (h : Answered w server inputs (ranges.zipIdx n) results) (promptTokens : Option ℤ) :
    (embedChunks w server inputs n ranges promptTokens).sent =
      sentVectors results ++
        [Except.ok (CapabilityChunk.done (some
          { promptTokens := (results.map Prod.snd).foldl addTokens promptTokens }))] := by
  induction ranges generalizing n results promptTokens with
  | nil =>
    cases h
    rfl
  | cons range ranges ih =>
    rw [List.zipIdx_cons] at h
    rcases h with _ | ⟨hfirst, hrest⟩
    rename_i result results
    obtain ⟨hembed, hlength⟩ := accepted_eq_some hfirst
    simp only [embedChunks, hembed, if_pos hlength]
    rw [ih hrest, sentVectors, sentVectors, vectorsOf, vectorsOf, List.flatMap_cons,
      List.map_append, List.append_assoc]
    rfl

/-- Only an input that is refused alone as too long is named. -/
def NamesRefused (inputs : List JsonValue) (run : List Exchange) (error : RuntimeError) : Prop :=
  ∀ index (tooLong : TooLong), error = tooLong.rejected (some index) →
    ∃ input, inputs[index]? = some input ∧
      ∃ found, (⟨[input], .error (.tooLong found)⟩ : Exchange) ∈ run

theorem namesRefused_of_other (h : IsOther error) :
    NamesRefused inputs run error := by
  intro index tooLong herror
  obtain ⟨rest, hrest⟩ := rejected_text tooLong (some index)
  exact absurd (herror.trans hrest) (h _)

theorem namesRefused_rejected {tooLong : TooLong} {index : Option ℕ}
    (h : ∀ i, index = some i → ∃ input, inputs[i]? = some input ∧
      ∃ found, (⟨[input], .error (.tooLong found)⟩ : Exchange) ∈ run) :
    NamesRefused inputs run (tooLong.rejected index) := fun i _ herror =>
  h i (rejected_inj herror)

theorem NamesRefused.cons {run : List Exchange} {error : RuntimeError}
    (h : NamesRefused inputs run error) (exchange : Exchange) :
    NamesRefused inputs (exchange :: run) error := by
  intro index tooLong herror
  obtain ⟨input, hinput, found, hmem⟩ := h index tooLong herror
  exact ⟨input, hinput, found, .tail _ hmem⟩

/-- The exchanges are the requests from the `n`-th on. -/
def Numbered (w : Outside) (server : EmbeddingServer) (n : ℕ) (run : List Exchange) : Prop :=
  ∀ (i : ℕ) exchange, run[i]? = some exchange →
    exchange.result = embed w server (n + i) exchange.inputs

theorem Numbered.cons {n : ℕ} {run : List Exchange} (h : Numbered w server (n + 1) run)
    (chunk : List JsonValue) :
    Numbered w server n (⟨chunk, embed w server n chunk⟩ :: run) := by
  intro i exchange hi
  cases i with
  | zero =>
    cases hi
    rfl
  | succ i =>
    rw [h i exchange hi]
    congr 1
    omega

theorem numbered_nil (n : ℕ) : Numbered w server n [] := fun _ _ h => by cases h

theorem locate_named (tooLong : TooLong) {n index : ℕ} {chunk : List JsonValue}
    (hchunk : ∀ (i : ℕ) input, chunk[i]? = some input → inputs[index + i]? = some input) :
    NamesRefused inputs (locate w server tooLong n index chunk).1
        (locate w server tooLong n index chunk).2 ∧
      Numbered w server n (locate w server tooLong n index chunk).1 := by
  induction chunk generalizing n index with
  | nil =>
    rw [locate]
    dsimp only
    exact ⟨namesRefused_rejected (fun _ h => by cases h), numbered_nil n⟩
  | cons input chunk ih =>
    have hfirst := hchunk 0 input rfl
    have hrest : ∀ (i : ℕ) other, chunk[i]? = some other → inputs[index + 1 + i]? = some other := by
      intro i other hi
      have := hchunk (i + 1) other hi
      rwa [← Nat.add_assoc, Nat.add_right_comm] at this
    obtain ⟨hnamed, hnumbered⟩ := ih (n := n + 1) hrest
    have hone : Numbered w server n [⟨[input], embed w server n [input]⟩] :=
      (numbered_nil (n + 1)).cons [input]
    rw [locate]
    split
    · exact ⟨hnamed.cons _, hnumbered.cons [input]⟩
    · rename_i found hfound
      dsimp only at hfound ⊢
      refine ⟨namesRefused_rejected fun i hi => ?_, hone⟩
      cases hi
      refine ⟨input, hfirst, found, List.mem_singleton.2 ?_⟩
      rw [hfound]
    · rename_i error hfailed
      exact ⟨namesRefused_of_other (embed_other hfailed), hone⟩

theorem getElem?_slice {i : ℕ} {input : JsonValue}
    (h : (range.slice inputs)[i]? = some input) : inputs[range.start + i]? = some input := by
  rw [Range.slice, List.getElem?_take] at h
  split at h
  · rwa [List.getElem?_drop] at h
  · cases h

/-- An answer that is not accepted ends the run with an error, and nothing else is sent. -/
theorem embedChunks_stops (h : accepted w server n (range.slice inputs) = none)
    (ranges : List Range) (promptTokens : Option ℤ) :
    ∃ error, (embedChunks w server inputs n (range :: ranges) promptTokens).sent = [.error error] ∧
      NamesRefused inputs (embedChunks w server inputs n (range :: ranges) promptTokens).exchanges
        error := by
  rw [accepted] at h
  rw [embedChunks]
  dsimp only
  cases hembed : embed w server n (range.slice inputs) with
  | ok embedded =>
    rw [hembed] at h
    dsimp only at h ⊢
    by_cases hlength : embedded.1.length = (range.slice inputs).length
    · rw [if_pos hlength] at h
      cases h
    · rw [if_neg hlength]
      exact ⟨_, rfl, namesRefused_of_other fun _ h => by cases h⟩
  | error refusal =>
    cases refusal with
    | failed error => exact ⟨error, rfl, namesRefused_of_other (embed_other hembed)⟩
    | tooLong tooLong =>
      dsimp only
      by_cases hbatch : inputs.length > 1
      · rw [if_pos hbatch]
        by_cases hone : (range.slice inputs).length = 1
        · rw [if_pos hone]
          refine ⟨_, rfl, namesRefused_rejected fun i hi => ?_⟩
          cases hi
          obtain ⟨input, hinput⟩ := List.length_eq_one_iff.1 hone
          refine ⟨input, getElem?_slice (i := 0) (by rw [hinput]; rfl), tooLong, ?_⟩
          rw [hinput]
          exact List.mem_singleton.2 rfl
        · rw [if_neg hone]
          have hlocated : NamesRefused inputs
              (locate w server tooLong (n + 1) range.start (range.slice inputs)).1
              (locate w server tooLong (n + 1) range.start (range.slice inputs)).2 :=
            (locate_named tooLong fun _ _ hi => getElem?_slice hi).1
          exact ⟨_, rfl, hlocated.cons _⟩
      · rw [if_neg hbatch]
        exact ⟨_, rfl, namesRefused_rejected fun i hi => by cases hi⟩

/-- Otherwise the vectors of the chunks before the first that is not accepted are sent, and then an
error. -/
theorem embedChunks_refused (h : ¬ ∃ results, Answered w server inputs (ranges.zipIdx n) results)
    (promptTokens : Option ℤ) :
    ∃ (before : List Range) (range : Range) (behind : List Range) (results : List Embedded)
      (error : RuntimeError), ranges = before ++ range :: behind ∧
      Answered w server inputs (before.zipIdx n) results ∧
      accepted w server (n + before.length) (range.slice inputs) = none ∧
      (embedChunks w server inputs n ranges promptTokens).sent =
        sentVectors results ++ [Except.error error] ∧
      NamesRefused inputs (embedChunks w server inputs n ranges promptTokens).exchanges error := by
  induction ranges generalizing n promptTokens with
  | nil => exact absurd ⟨[], .nil⟩ h
  | cons range ranges ih =>
    cases haccepted : accepted w server n (range.slice inputs) with
    | none =>
      obtain ⟨error, hsent, hnames⟩ := embedChunks_stops haccepted ranges promptTokens
      exact ⟨[], range, ranges, [], error, rfl, .nil, haccepted, hsent, hnames⟩
    | some result =>
      have hrest : ¬ ∃ results, Answered w server inputs (ranges.zipIdx (n + 1)) results := by
        rintro ⟨results, hresults⟩
        refine h ⟨result :: results, ?_⟩
        rw [List.zipIdx_cons]
        exact .cons haccepted hresults
      obtain ⟨hembed, hlength⟩ := accepted_eq_some haccepted
      obtain ⟨before, other, behind, results, error, hranges, hanswered, hnone, hsent, hnames⟩ :=
        ih hrest (addTokens promptTokens result.2)
      refine ⟨range :: before, other, behind, result :: results, error, ?_, ?_, ?_, ?_, ?_⟩
      · rw [hranges, List.cons_append]
      · rw [List.zipIdx_cons]
        exact .cons haccepted hanswered
      · rw [List.length_cons, ← Nat.add_assoc, Nat.add_right_comm]
        exact hnone
      · simp only [embedChunks, hembed, if_pos hlength, hsent]
        rw [sentVectors, sentVectors, vectorsOf, vectorsOf, List.flatMap_cons, List.map_append,
          List.append_assoc]
      · simp only [embedChunks, hembed, if_pos hlength]
        exact hnames.cons _

theorem embedChunks_numbered (n : ℕ) (ranges : List Range) (promptTokens : Option ℤ) :
    Numbered w server n (embedChunks w server inputs n ranges promptTokens).exchanges := by
  induction ranges generalizing n promptTokens with
  | nil => exact numbered_nil n
  | cons range ranges ih =>
    have hone : Numbered w server n [⟨range.slice inputs, embed w server n (range.slice inputs)⟩] :=
      (numbered_nil (n + 1)).cons _
    rw [embedChunks]
    dsimp only
    split
    · split
      · exact (ih (n + 1) _).cons _
      · exact hone
    · split
      · split
        · exact hone
        · exact (@locate_named w server inputs _ _ _ _ fun _ _ hi => getElem?_slice hi).2.cons _
      · exact hone
    · exact hone

/-! ## The vector of an input -/

theorem Covers.le (h : Covers start ranges stop) : start ≤ stop := by
  induction ranges generalizing start with
  | nil => exact Nat.le_of_eq h
  | cons range ranges ih =>
    obtain ⟨rfl, hlt, hrest⟩ := h
    exact Nat.le_trans hlt.le (ih hrest)

theorem length_slice (h : range.stop ≤ inputs.length) :
    (range.slice inputs).length = range.stop - range.start := by
  rw [Range.slice, List.length_take, List.length_drop]
  omega

/-- The vectors of accepted answers are those given for the inputs from a place on. -/
theorem vectorsOf_given (hcovers : Covers start ranges stop) (hstop : stop ≤ inputs.length)
    (h : Answered w server inputs (ranges.zipIdx n) results) :
    (vectorsOf results).length = stop - start ∧
      ∀ k vector, (vectorsOf results)[k]? = some vector →
        ∃ j range, ranges[j]? = some range ∧ range.start ≤ start + k ∧ start + k < range.stop ∧
          Given w server (n + j) (range.slice inputs) (start + k - range.start) vector := by
  induction ranges generalizing n start results with
  | nil =>
    cases h
    cases hcovers
    exact ⟨by simp [vectorsOf], fun k vector hk => by cases hk⟩
  | cons range ranges ih =>
    obtain ⟨rfl, hlt, hrest⟩ := hcovers
    rw [List.zipIdx_cons] at h
    rcases h with _ | ⟨hfirst, hanswered⟩
    rename_i result results
    have hle := hrest.le
    have hwithin : range.stop ≤ inputs.length := Nat.le_trans hle hstop
    obtain ⟨hembed, hlength⟩ := accepted_eq_some hfirst
    rw [length_slice hwithin] at hlength
    obtain ⟨hcount, hgiven⟩ := ih hrest hanswered
    have hvectors : vectorsOf (result :: results) = result.1 ++ vectorsOf results := rfl
    rw [hvectors]
    refine ⟨by rw [List.length_append, hlength, hcount]; omega, fun k vector hk => ?_⟩
    rw [List.getElem?_append] at hk
    split at hk
    · rename_i hin
      refine ⟨0, range, rfl, by omega, by omega, ?_⟩
      rw [Nat.add_zero, Nat.add_sub_cancel_left]
      exact embed_given hembed hk
    · rename_i hout
      obtain ⟨j, other, hj, hfrom, hto, hvector⟩ := hgiven _ vector hk
      have hplace : range.stop + (k - result.1.length) = range.start + k := by omega
      rw [hplace] at hfrom hto hvector
      refine ⟨j + 1, other, hj, hfrom, hto, ?_⟩
      rwa [← Nat.add_assoc, Nat.add_right_comm]

end

/-! ## Token counts -/

theorem foldl_addTokens_none (counts : List (Option ℤ)) : counts.foldl addTokens none = none := by
  induction counts with
  | nil => rfl
  | cons count counts ih => exact ih

/-- A total is there exactly when every count is, and is then added up count by count. -/
theorem foldl_addTokens_some (counts : List ℤ) (sum : ℤ) :
    (counts.map some).foldl addTokens (some sum) = some (counts.foldl saturatingAddI64 sum) := by
  induction counts generalizing sum with
  | nil => rfl
  | cons count counts ih => exact ih (saturatingAddI64 sum count)

theorem foldl_addTokens_of_mem {counts : List (Option ℤ)} (h : none ∈ counts) (sum : Option ℤ) :
    counts.foldl addTokens sum = none := by
  induction counts generalizing sum with
  | nil => cases h
  | cons count counts ih =>
    rw [List.foldl_cons]
    rcases List.mem_cons.1 h with rfl | hmem
    · cases sum <;> exact foldl_addTokens_none counts
    · exact ih hmem _

/-- Counts that are not negative add up to their sum, or to the largest number there is. -/
theorem foldl_saturatingAddI64 {counts : List ℤ} (h : ∀ count ∈ counts, 0 ≤ count) {sum : ℤ}
    (hsum : 0 ≤ sum) (hmax : sum ≤ 2 ^ 63 - 1) :
    counts.foldl saturatingAddI64 sum = min (2 ^ 63 - 1) (sum + counts.sum) := by
  induction counts generalizing sum with
  | nil =>
    rw [List.foldl_nil, List.sum_nil]
    omega
  | cons count counts ih =>
    have hcount := h count (.head _)
    have hrest : 0 ≤ counts.sum := List.sum_nonneg fun c hc => h c (.tail _ hc)
    have hstep : saturatingAddI64 sum count = min (2 ^ 63 - 1) (sum + count) := by
      rw [saturatingAddI64, i64Max]
      omega
    rw [List.foldl_cons, hstep, ih (fun c hc => h c (.tail _ hc)) (by omega)
      (by omega), List.sum_cons]
    omega

/-- The inputs are cut into ranges that cover them. When every answer is accepted there is one
vector for each input, the one given for it, and then a `Done` with the tokens of all chunks, cut at
the ends of an `i64`; else the vectors of the chunks before are sent and then an error, which names
no input but one refused alone. -/
theorem embeddings_in_order (w : Outside) (server : EmbeddingServer) (payload : JsonValue)
    (inputs : List JsonValue) (hinputs : embedInputs payload = .ok inputs) :
    let ranges := chunked inputs server.window
    let run := invokeEmbed w server (.ok ()) payload
    (Covers 0 ranges inputs.length ∧ ∀ range ∈ ranges, Within (budget server.window) inputs range) ∧
    (∀ results, Answered w server inputs (ranges.zipIdx 0) results →
      (vectorsOf results).length = inputs.length ∧
      (∀ k vector, (vectorsOf results)[k]? = some vector →
        ∃ j range, ranges[j]? = some range ∧ range.start ≤ k ∧ k < range.stop ∧
          Given w server j (range.slice inputs) (k - range.start) vector) ∧
      ∃ promptTokens : Option ℤ, run.sent =
          sentVectors results ++ [Except.ok (CapabilityChunk.done (some { promptTokens }))] ∧
        (none ∈ results.map Prod.snd → promptTokens = none) ∧
        ∀ counts : List ℤ, results.map Prod.snd = counts.map some →
          promptTokens = some (counts.foldl saturatingAddI64 0) ∧
            ((∀ count ∈ counts, 0 ≤ count) → promptTokens = some (min (2 ^ 63 - 1) counts.sum))) ∧
    ((¬ ∃ results, Answered w server inputs (ranges.zipIdx 0) results) →
      ∃ (before : List Range) (range : Range) (behind : List Range) (results : List Embedded)
        (error : RuntimeError), ranges = before ++ range :: behind ∧
        Answered w server inputs (before.zipIdx 0) results ∧
        accepted w server before.length (range.slice inputs) = none ∧
        run.sent = sentVectors results ++ [Except.error error] ∧
        NamesRefused inputs run.exchanges error) ∧
    Numbered w server 0 run.exchanges := by
  intro ranges run
  have hrun : run = embedChunks w server inputs 0 ranges (some 0) := by
    simp only [run, invokeEmbed, hinputs]
    rfl
  have hranges := chunked_ranges inputs server.window
  refine ⟨hranges, fun results hresults => ?_, fun hnot => ?_, ?_⟩
  · obtain ⟨hcount, hgiven⟩ := vectorsOf_given hranges.1 (Nat.le_refl _) hresults
    have hsent := embedChunks_accepted hresults (some 0)
    rw [← hrun] at hsent
    refine ⟨hcount, fun k vector hk => ?_, _, hsent, fun hnone => ?_, fun counts hcounts => ?_⟩
    · have hvector := hgiven k vector hk
      simp only [Nat.zero_add] at hvector
      exact hvector
    · exact foldl_addTokens_of_mem hnone (some 0)
    · rw [hcounts, foldl_addTokens_some]
      refine ⟨rfl, fun hpos => ?_⟩
      rw [foldl_saturatingAddI64 hpos (by omega) (by omega), zero_add]
  · obtain ⟨before, range, behind, results, error, hcut, hanswered, hnone, hsent, hnames⟩ :=
      embedChunks_refused hnot (some 0)
    rw [Nat.zero_add] at hnone
    rw [hrun]
    exact ⟨before, range, behind, results, error, hcut, hanswered, hnone, hsent, hnames⟩
  · rw [hrun]
    exact embedChunks_numbered 0 ranges (some 0)

/-! ## Two large counts -/

def maxCount : ℤ := 2 ^ 63 - 1

def answerText : String :=
  "\x7b\"data\":[\x7b\"index\":0,\"embedding\":[1]\x7d]," ++
    "\"usage\":\x7b\"prompt_tokens\":9223372036854775807\x7d\x7d"

def answerBytes : Bytes := answerText.toByteArray.data.toList

def answerObject : JsonValue :=
  .object
    [("data", .array [.object [("index", .int 0), ("embedding", .array [.int 1])]]),
      ("usage", .object [("prompt_tokens", .int maxCount)])]

/-- The body for one plain input. -/
def bodyText : JsonValue → String
  | .object [("encoding_format", .string format), ("input", .array [.string input]),
      ("model", .string model)] =>
    "\x7b\"encoding_format\":\"" ++ format ++ "\",\"input\":[\"" ++ input ++ "\"],\"model\":\"" ++
      model ++ "\"\x7d"
  | _ => ""

/-- A server that reports as many tokens as it can for each request. -/
def largeCounts : Outside where
  fromSlice bytes := if bytes = answerBytes then some answerObject else none
  toVec body := .ok (bodyText body).toByteArray.data.toList
  asDouble n := n
  post _ _ := .answered ⟨200, [answerBytes], .closed⟩

def smallServer : EmbeddingServer := { model := "m", name := "m", window := 1 }

def twoInputs : List JsonValue := [.string "one", .string "two"]

theorem postCapped_largeCounts (n : ℕ) (body : Bytes) :
    postCapped largeCounts n body maxJsonBodyBytes = .ok answerBytes := by
  have hlength : ¬ answerBytes.length > maxJsonBodyBytes := by decide +kernel
  simp only [postCapped, largeCounts, cappedBody, if_true, if_neg hlength, List.nil_append]

theorem embed_largeCounts (n : ℕ) (input : JsonValue) :
    embed largeCounts smallServer n [input] = .ok ([[1]], some maxCount) := by
  have hread : parseEmbeddings largeCounts answerBytes = .ok ([[1]], some maxCount) := by
    have hvalue : largeCounts.fromSlice answerBytes = some answerObject := by
      simp only [largeCounts, if_true]
    have hrows : (dataRows answerObject).bind (orderRows largeCounts) = some [[1]] := by
      decide +kernel
    rw [parseEmbeddings, hvalue]
    dsimp only
    rw [hrows]
    rfl
  have hbody : embeddingsBody largeCounts smallServer.model [input] = .ok
      (bodyText (.object [("encoding_format", .string "float"), ("input", .array [input]),
        ("model", .string smallServer.model)])).toByteArray.data.toList := rfl
  rw [embed, hbody]
  simp only [postEmbeddings, postCapped_largeCounts, hread]

theorem answered_largeCounts :
    Answered largeCounts smallServer twoInputs ((chunked twoInputs smallServer.window).zipIdx 0)
      [([[1]], some maxCount), ([[1]], some maxCount)] := by
  have hranges : (chunked twoInputs smallServer.window).zipIdx 0 = [(⟨0, 1⟩, 0), (⟨1, 2⟩, 1)] := by
    decide +kernel
  rw [hranges]
  refine .cons ?_ (.cons ?_ .nil)
  · exact (by simp [accepted, Range.slice, twoInputs, embed_largeCounts])
  · exact (by simp [accepted, Range.slice, twoInputs, embed_largeCounts])

/-- Both chunks are accepted, and the `Done` has less than the sum of their counts. -/
theorem large_counts_cut :
    Answered largeCounts smallServer twoInputs ((chunked twoInputs smallServer.window).zipIdx 0)
        [([[1]], some maxCount), ([[1]], some maxCount)] ∧
      (invokeEmbed largeCounts smallServer (.ok ()) (.object [("input", .array twoInputs)])).sent =
        [.ok (.vector [1]), .ok (.vector [1]),
          .ok (.done (some { promptTokens := some maxCount }))] ∧
      maxCount < [maxCount, maxCount].sum := by
  refine ⟨answered_largeCounts, ?_, by decide⟩
  have hsent := embedChunks_accepted answered_largeCounts (some 0)
  exact hsent

/-- There a vector is sent for each input. -/
theorem two_vectors_sent :
    (invokeEmbed largeCounts smallServer (.ok ()) (.object [("input", .array twoInputs)])).sent =
      [.ok (.vector [1]), .ok (.vector [1]),
        .ok (.done (some
          { promptTokens := some (min (2 ^ 63 - 1) [maxCount, maxCount].sum) }))] := by
  have hinputs : embedInputs (.object [("input", .array twoInputs)]) = .ok twoInputs := rfl
  obtain ⟨-, haccepted, -, -⟩ :=
    embeddings_in_order largeCounts smallServer _ twoInputs hinputs
  obtain ⟨-, -, promptTokens, hsent, -, hcounts⟩ := haccepted _ answered_largeCounts
  have hpositive : ∀ count ∈ [maxCount, maxCount], 0 ≤ count := by decide
  have htotal := (hcounts [maxCount, maxCount] rfl).2 hpositive
  rw [hsent, htotal]
  rfl

end Hedos.Embeddings
