import Hedos.Capabilities.StopMatcher
import Mathlib.Data.Nat.Find

/-!
# Where a stop matcher stops

`StopMatcher::feed` looks for stop sequences in what it has been fed so far, so that a sequence
complete at the end of a chunk ends the text even if another one that begins earlier is not
complete yet.

* `IsFirst` is the place where the earliest stop sequence of a text begins;
* `CutsAt` is where a matcher fed chunk by chunk stops, and `run_cutsAt` that it does;
* what it emits depends on the chunks unless the earliest stop sequence of the text is complete as
  soon as any is (`stopMatcher_chunk_independent_iff`).
-/

namespace Hedos.Capabilities

namespace StopMatcher

/-! ## Where a text is cut off -/

/-- A stop sequence begins at the place, and none before it. -/
structure IsFirst (stops : List Text) (text : Text) (i : ℕ) : Prop where
  occurs : ∃ stop ∈ stops, stop <+: text.drop i
  least : ∀ stop ∈ stops, ∀ j < i, ¬ stop <+: text.drop j

variable {stops chunks : List Text} {text stop out : Text} {i : ℕ}

theorem IsFirst.unique {j : ℕ} (hi : IsFirst stops text i) (hj : IsFirst stops text j) : i = j := by
  obtain ⟨stop, hstop, hat⟩ := hi.occurs
  obtain ⟨other, hother, hbeside⟩ := hj.occurs
  have hle : i ≤ j := not_lt.1 fun hlt => hi.least other hother j hlt hbeside
  have hge : j ≤ i := not_lt.1 fun hlt => hj.least stop hstop i hlt hat
  omega

theorem exists_isFirst (h : Contains stops text) : ∃ i, IsFirst stops text i := by
  have hsome : ∃ i, ∃ stop ∈ stops, stop <+: text.drop i := by
    obtain ⟨stop, hstop, hwithin⟩ := h
    obtain ⟨i, hi⟩ := Search.infix_iff_exists_drop.1 hwithin
    exact ⟨i, stop, hstop, hi⟩
  classical
  exact ⟨Nat.find hsome, Nat.find_spec hsome,
    fun stop hstop j hj hat => Nat.find_min hsome hj ⟨stop, hstop, hat⟩⟩

/-- The text a matcher emits of `seen` and the chunks behind it, when no stop sequence stands in
`seen`: all of it, or what is before the earliest stop sequence of the first chunks with one. -/
inductive CutsAt (stops : List Text) : Text → List Text → Text → Prop
  | whole {seen : Text} {chunks : List Text} (hnone : ¬ Contains stops (seen ++ chunks.flatten)) :
    CutsAt stops seen chunks (seen ++ chunks.flatten)
  | stop {seen : Text} {done : List Text} {chunk : Text} {rest : List Text} {i : ℕ}
    (hnone : ¬ Contains stops (seen ++ done.flatten))
    (hfirst : IsFirst stops (seen ++ done.flatten ++ chunk) i) :
    CutsAt stops seen (done ++ chunk :: rest) ((seen ++ done.flatten ++ chunk).take i)

/-- Once stopped, nothing more comes. -/
theorem run_stopped {m : StopMatcher} (hactive : m.isActive = true) (hstopped : m.stopped = true)
    (chunks : List Text) : m.run chunks = some ([], m) := by
  induction chunks with
  | nil => simp [run, flush, hstopped]
  | cons chunk chunks ih => simp [run, feed, hactive, hstopped, ih]

theorem CutsAt.cons {stops : List Text} {seen chunk emitted : Text} {chunks : List Text}
    (h : CutsAt stops (seen ++ chunk) chunks emitted) :
    CutsAt stops seen (chunk :: chunks) emitted := by
  cases h with
  | whole hrest =>
    have hflat : seen ++ chunk ++ chunks.flatten = seen ++ (chunk :: chunks).flatten := by simp
    rw [hflat] at hrest ⊢
    exact .whole hrest
  | @stop done last rest i hbefore hfirst =>
    have hflat : seen ++ chunk ++ done.flatten = seen ++ (chunk :: done).flatten := by simp
    rw [hflat] at hbefore hfirst ⊢
    exact @CutsAt.stop _ _ (chunk :: done) _ _ _ hbefore hfirst

/-- The place in the buffer, seen from the start of the text. -/
theorem IsFirst.shift {emitted buffer : Text} (hsplit : text = emitted ++ buffer)
    (hlate : BeginsAfter stops text emitted) (hsome : ∃ stop ∈ stops, stop <+: buffer.drop i)
    (hfirst : ∀ stop ∈ stops, ∀ j < i, ¬ stop <+: buffer.drop j) :
    IsFirst stops text (emitted.length + i) := by
  refine ⟨?_, fun stop hstop j hj hat => ?_⟩
  · obtain ⟨stop, hstop, hat⟩ := hsome
    refine ⟨stop, hstop, ?_⟩
    rwa [hsplit, Search.drop_append_of_le (by omega), Nat.add_sub_cancel_left]
  · have hle : emitted.length ≤ j := hlate [] stop hstop j (by rwa [List.append_nil])
    rw [hsplit, Search.drop_append_of_le hle] at hat
    exact hfirst stop hstop (j - emitted.length) (by omega) hat

theorem exists_cutsAt {buffer seen emitted : Text} (hstops : stops ≠ [])
    (hsplit : seen = emitted ++ buffer) (hnone : ¬ Contains stops seen)
    (hlate : BeginsAfter stops seen emitted) (chunks : List Text) :
    ∃ rest m, run { stops, buffer } chunks = some (rest, m) ∧
      CutsAt stops seen chunks (emitted ++ rest) := by
  have hactive : ∀ buffer stopped, isActive ⟨stops, buffer, stopped⟩ = true := by
    simp [isActive, hstops]
  induction chunks generalizing buffer seen emitted with
  | nil =>
    refine ⟨buffer, { stops }, rfl, ?_⟩
    rw [← hsplit]
    simpa using @CutsAt.whole stops seen [] (by simpa using hnone)
  | cons chunk chunks ih =>
    have hwhole : seen ++ chunk = emitted ++ (buffer ++ chunk) := by
      rw [hsplit, List.append_assoc]
    cases hfound : earliestStop { stops, buffer := buffer ++ chunk } with
    | some position =>
      obtain ⟨i, rfl, hsome, hfirst⟩ := earliestStop_eq_some hfound
      have hlate' : BeginsAfter stops (seen ++ chunk) emitted := by
        intro more stop hstop i hi
        rw [List.append_assoc] at hi
        exact hlate (chunk ++ more) stop hstop i hi
      have hplace := IsFirst.shift hwhole hlate' hsome hfirst
      refine ⟨(buffer ++ chunk).take i, ⟨stops, [], true⟩, ?_, ?_⟩
      · simp [run, feed, hactive, hfound, splitAt_len_take, run_stopped]
      · have hcut := @CutsAt.stop stops seen [] chunk chunks _ (by simpa using hnone)
          (by simpa using hplace)
        have htake : (seen ++ chunk).take (emitted.length + i) =
            emitted ++ (buffer ++ chunk).take i := by
          rw [hwhole, List.take_length_add_append]
        simpa [htake] using hcut
    | none =>
      have hheld := Tracks.hold (m := { stops, buffer }) rfl hsplit hlate
        (earliestStop_eq_none hfound)
      cases hheld with
      | stopped hlast => cases hlast
      | open_ hopen hsplit' hnone' hlate' =>
        obtain ⟨rest, m, hrun, hcuts⟩ := ih hsplit' hnone' hlate'
        let kept := (buffer ++ chunk).length - Search.held (buffer ++ chunk) stops
        refine ⟨(buffer ++ chunk).take kept ++ rest, m, ?_, ?_⟩
        · simp only [run, feed, hactive, hfound, heldSuffixLen_eq, splitAt_held,
            Option.bind_eq_bind, Option.bind_some, Bool.not_true, Bool.false_eq_true, if_false]
          rw [hrun]
          rfl
        · rw [← List.append_assoc]
          exact hcuts.cons

/-- Everything a new matcher emits of the chunks. -/
def emitted (stops chunks : List Text) : Option Text := ((new stops).run chunks).map Prod.fst

theorem run_cutsAt (stops chunks : List Text) :
    ∃ text, emitted stops chunks = some text ∧ CutsAt (new stops).stops [] chunks text := by
  have hnone : ¬ Contains (new stops).stops [] := by
    rintro ⟨stop, hstop, hwithin⟩
    exact (mem_new_stops.1 hstop).2 (List.infix_nil.1 hwithin)
  rcases eq_or_ne (new stops).stops [] with hempty | hstops
  · have hinactive : (new stops).isActive = false := by simp [isActive, hempty]
    refine ⟨chunks.flatten, by simp [emitted, run_inactive hinactive rfl rfl], ?_⟩
    refine @CutsAt.whole _ [] chunks ?_
    rintro ⟨stop, hstop, -⟩
    simp [hempty] at hstop
  · have hlate : BeginsAfter (new stops).stops [] [] := fun _ _ _ _ _ => Nat.zero_le _
    have hsplit : ([] : Text) = [] ++ [] := rfl
    obtain ⟨rest, m, hrun, hcuts⟩ := exists_cutsAt hstops hsplit hnone hlate chunks
    have hnew : (new stops).run chunks = some (rest, m) := hrun
    exact ⟨rest, by simp [emitted, hnew], hcuts⟩

/-! ## Which texts come out the same -/

/-- When a stop sequence of the text is complete, one that begins where the earliest begins is. -/
def FirstCompletesFirst (stops : List Text) (text : Text) : Prop :=
  ∀ i, ∀ stop ∈ stops, stop <+: text.drop i →
    ∃ j, IsFirst stops text j ∧
      ∃ first ∈ stops, first <+: text.drop j ∧ j + first.length ≤ i + stop.length

theorem prefix_drop_append (h : stop <+: text.drop i) (more : Text) :
    stop <+: (text ++ more).drop i :=
  h.trans ((List.prefix_append text more).drop i)

/-- An occurrence that ends in the leading part stands in it. -/
theorem prefix_drop_of_le {more : Text} (h : stop <+: (text ++ more).drop i)
    (hend : i + stop.length ≤ text.length) : stop <+: text.drop i := by
  have hpart : text.drop i <+: (text ++ more).drop i := (List.prefix_append text more).drop i
  refine List.prefix_of_prefix_length_le h hpart ?_
  rw [List.length_drop]
  omega

theorem end_le_of_occurs (hne : stop ≠ []) (h : stop <+: text.drop i) :
    i + stop.length ≤ text.length := by
  have hlt := Search.lt_length_of_occurs hne h
  have hle := h.length_le
  rw [List.length_drop] at hle
  omega

/-- With a stop sequence in the first chunk, the text is cut off there. -/
theorem CutsAt.in_first {chunk : Text}
    (h : CutsAt stops [] (chunk :: chunks) out) (hsome : Contains stops chunk) :
    ∃ i, IsFirst stops chunk i ∧ out = chunk.take i := by
  generalize hall : chunk :: chunks = all at h
  cases h with
  | whole hnone =>
    refine absurd (hsome.mono ?_) hnone
    rw [← hall]
    exact (List.prefix_append _ _).isInfix
  | @stop done last rest i hbefore hfirst =>
    cases done with
    | nil =>
      obtain ⟨rfl, -⟩ := List.cons.inj hall
      exact ⟨i, hfirst, rfl⟩
    | cons head done =>
      obtain ⟨rfl, -⟩ := List.cons.inj hall
      refine absurd (hsome.mono ?_) hbefore
      exact (List.prefix_append _ _).isInfix

theorem CutsAt.of_not_contains
    (h : CutsAt stops [] chunks out) (hnone : ¬ Contains stops chunks.flatten) :
    out = chunks.flatten := by
  cases h with
  | whole => rfl
  | @stop done chunk rest i hbefore hfirst =>
    obtain ⟨stop, hstop, hat⟩ := hfirst.occurs
    refine absurd ⟨stop, hstop, ?_⟩ hnone
    have hflat : (done ++ chunk :: rest).flatten = done.flatten ++ chunk ++ rest.flatten := by simp
    rw [hflat]
    exact (Search.infix_iff_exists_drop.2 ⟨i, hat⟩).trans (List.prefix_append _ _).isInfix

theorem CutsAt.of_completes
    (h : CutsAt stops [] chunks out) (hne : ∀ stop ∈ stops, stop ≠ [])
    (hcompletes : FirstCompletesFirst stops chunks.flatten)
    (hi : IsFirst stops chunks.flatten i) : out = chunks.flatten.take i := by
  cases h with
  | whole hnone =>
    obtain ⟨stop, hstop, hat⟩ := hi.occurs
    exact absurd ⟨stop, hstop, Search.infix_iff_exists_drop.2 ⟨i, hat⟩⟩ hnone
  | @stop done chunk rest k hbefore hfirst =>
    simp only [List.nil_append] at hfirst ⊢
    set part := done.flatten ++ chunk
    have hflat : (done ++ chunk :: rest).flatten = part ++ rest.flatten := by simp [part]
    rw [hflat] at hcompletes hi ⊢
    obtain ⟨stop, hstop, hat⟩ := hfirst.occurs
    have hend := end_le_of_occurs (hne stop hstop) hat
    obtain ⟨j, hj, first, hmem, hthere, hle⟩ :=
      hcompletes k stop hstop (prefix_drop_append hat _)
    obtain rfl := hi.unique hj
    -- the earliest sequence of the whole text is complete in the part read
    have hplace : IsFirst stops part i :=
      ⟨⟨first, hmem, prefix_drop_of_le hthere (by omega)⟩,
        fun other hother j hj hat => hi.least other hother j hj (prefix_drop_append hat _)⟩
    rw [← hplace.unique hfirst]
    symm
    apply List.take_append_of_le_length
    exact (Nat.le_add_right _ _).trans
      (end_le_of_occurs (hne first hmem) (prefix_drop_of_le hthere (by omega)))

/-- Two ways to cut such a text come to the same. -/
theorem CutsAt.eq_of_completes {chunks' : List Text} {out' : Text}
    (h : CutsAt stops [] chunks out) (h' : CutsAt stops [] chunks' out')
    (hne : ∀ stop ∈ stops, stop ≠ []) (hcompletes : FirstCompletesFirst stops chunks.flatten)
    (hflat : chunks'.flatten = chunks.flatten) : out = out' := by
  by_cases hsome : Contains stops chunks.flatten
  · obtain ⟨i, hi⟩ := exists_isFirst hsome
    rw [h.of_completes hne hcompletes hi,
      h'.of_completes hne (by rwa [hflat]) (by rwa [hflat]), hflat]
  · rw [h.of_not_contains hsome, h'.of_not_contains (by rwa [hflat]), hflat]

end StopMatcher

/-- What comes out of the text is the same however it is cut, and as if it came in one piece. -/
def ChunkIndependent (stops : List Text) (text : Text) : Prop :=
  ∀ chunks chunks', chunks.flatten = text → chunks'.flatten = text →
    StopMatcher.emitted stops chunks = StopMatcher.emitted stops chunks' ∧
      StopMatcher.emitted stops chunks = StopMatcher.emitted stops [text]

/-- A text comes out the same however it is cut exactly when no stop sequence in it is complete
before one that begins where the earliest begins. -/
theorem stopMatcher_chunk_independent_iff (stops : List Text) (text : Text) :
    ChunkIndependent stops text ↔
      StopMatcher.FirstCompletesFirst (StopMatcher.new stops).stops text := by
  have hne : ∀ stop ∈ (StopMatcher.new stops).stops, stop ≠ [] := fun stop hstop =>
    (StopMatcher.mem_new_stops.1 hstop).2
  constructor
  · intro h i stop hstop hat
    have hend := StopMatcher.end_le_of_occurs (hne stop hstop) hat
    -- cut the text where the stop sequence ends
    set part := text.take (i + stop.length) with hpart
    set more := text.drop (i + stop.length)
    have hsplit : part ++ more = text := List.take_append_drop _ _
    have hlength : part.length = i + stop.length := by simp [hpart, hend]
    have hwide : stop <+: (part ++ more).drop i := by rwa [hsplit]
    have hin : stop <+: part.drop i := StopMatcher.prefix_drop_of_le hwide (by omega)
    have hsame := (h [part, more] [text] (by simpa using hsplit) (by simp)).1
    obtain ⟨one, hone, hwhole⟩ := StopMatcher.run_cutsAt stops [text]
    obtain ⟨two, htwo, hparts⟩ := StopMatcher.run_cutsAt stops [part, more]
    rw [hone, htwo, Option.some.injEq] at hsame
    obtain ⟨j, hj, rfl⟩ := hwhole.in_first ⟨stop, hstop, Search.infix_iff_exists_drop.2 ⟨i, hat⟩⟩
    obtain ⟨k, hk, rfl⟩ := hparts.in_first ⟨stop, hstop, Search.infix_iff_exists_drop.2 ⟨i, hin⟩⟩
    obtain ⟨first, hmem, hthere⟩ := hk.occurs
    have hfits := StopMatcher.end_le_of_occurs (hne first hmem) hthere
    obtain ⟨whole, hwholeMem, hwholeAt⟩ := hj.occurs
    have hroom := StopMatcher.end_le_of_occurs (hne whole hwholeMem) hwholeAt
    -- both cuts give a text of the same length, so they are at the same place
    have hlengths : min k part.length = min j text.length := by
      simpa only [List.length_take] using congrArg List.length hsame
    obtain rfl : k = j := by omega
    refine ⟨k, hj, first, hmem, ?_, by omega⟩
    have hwide := StopMatcher.prefix_drop_append hthere more
    rwa [hsplit] at hwide
  · intro h chunks chunks' hchunks hchunks'
    have hpiece : ∀ chunks, chunks.flatten = text →
        StopMatcher.emitted stops chunks = StopMatcher.emitted stops [text] := by
      intro chunks hchunks
      obtain ⟨out, hout, hcuts⟩ := StopMatcher.run_cutsAt stops chunks
      obtain ⟨out', hout', hcuts'⟩ := StopMatcher.run_cutsAt stops [text]
      rw [hout, hout', hcuts.eq_of_completes hcuts' hne (by rwa [hchunks]) (by simp [hchunks])]
    exact ⟨(hpiece chunks hchunks).trans (hpiece chunks' hchunks').symm, hpiece chunks hchunks⟩

/-- Two sequences that overlap: the chunk that completes the inner one comes before the end of the
outer one. -/
theorem stopMatcher_depends_on_chunks : ¬ ∀ stops text, ChunkIndependent stops text := by
  intro h
  have hsame := (h ["abcd".toList, "bc".toList] "abcd".toList ["abc".toList, "d".toList]
    ["abcd".toList] rfl rfl).1
  revert hsame
  decide +kernel

end Hedos.Capabilities
