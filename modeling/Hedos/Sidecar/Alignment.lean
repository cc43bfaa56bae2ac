import Hedos.Sidecar.JobPump

/-!
# Events and the frames they announce

A `preview` and an `image` announce one binary frame, a `result` the frames its bytes come in. The
pump takes the frame behind a preview or an image whatever it is; a control frame in its place is
lost, and the pump goes on behind it.

* `ReadsEvent` is how frames are meant to be read, `Gap` the frame that is lost;
* an end that is met in step is how the job ends, and every result is one that was announced;
* a job whose frames are out of step ends with an error, exactly when no `done` is read behind a gap
  (`aligned_iff`).
-/

namespace Hedos.Sidecar

open Hedos.Kernel (JsonValue)
open Relation (ReflTransGen)

/-! ## Frames in step -/

/-- How a control value ends a job, if it does. -/
def jobEnd (value : JsonValue) : Option (Except SidecarError Unit) :=
  match controlEvent value with
  | some "done" => some (.ok ())
  | some "cancelled" => some (.error .cancelled)
  | some "error" => some (.error (reportedError value.asObject))
  | _ => none

/-- A preview or an image, whose bytes are one frame. -/
def AnnouncesFrame (value : JsonValue) : Prop :=
  controlEvent value = some "preview" ∨ controlEvent value = some "image"

/-- The size that a result announces; a size out of range is none. -/
def announcedBytes (value : JsonValue) : Option ℕ :=
  ((intField value.asObject "bytes").filter fun bytes : ℤ =>
    1 ≤ bytes ∧ bytes ≤ maxResultBytes).map Int.toNat

/-- The frames that bring so many bytes, up to the one that completes them. -/
structure Bring (expected : ℕ) (chunks : List Bytes) : Prop where
  total : chunks.flatten.length = expected
  completes : chunks.getLast? ≠ some []

/-- An event is read, and the frames it announced with it. -/
inductive ReadsEvent : List JobFrame → List JobFrame → Prop
  | plain {value : JsonValue} {rest : List JobFrame} (hend : jobEnd value = none)
      (hframe : ¬ AnnouncesFrame value) (hresult : controlEvent value ≠ some "result") :
      ReadsEvent (.control value :: rest) rest
  | framed {value : JsonValue} {data : Bytes} {rest : List JobFrame} (h : AnnouncesFrame value) :
      ReadsEvent (.control value :: .binary data :: rest) rest
  | result {value : JsonValue} {expected : ℕ} {chunks : List Bytes} {rest : List JobFrame}
      (h : controlEvent value = some "result") (hbytes : announcedBytes value = some expected)
      (hchunks : Bring expected chunks) :
      ReadsEvent (.control value :: (chunks.map .binary ++ rest)) rest

/-- The frames start with one that is out of step. -/
inductive OutOfStep : List JobFrame → Prop
  | unannounced (data : Bytes) (rest : List JobFrame) : OutOfStep (.binary data :: rest)
  | unframed {value : JsonValue} {rest : List JobFrame} (h : AnnouncesFrame value)
      (hnone : ∀ data behind, rest ≠ .binary data :: behind) : OutOfStep (.control value :: rest)
  | short {value : JsonValue} {rest : List JobFrame} (h : controlEvent value = some "result")
      (hnone : ∀ expected chunks behind, announcedBytes value = some expected →
        Bring expected chunks → rest ≠ chunks.map .binary ++ behind) :
      OutOfStep (.control value :: rest)

/-- A control frame where the bytes of a preview or an image are due. -/
inductive Gap : List JobFrame → List JobFrame → Prop
  | mk {value : JsonValue} (h : AnnouncesFrame value) (lost : JsonValue) (rest : List JobFrame) :
      Gap (.control value :: .control lost :: rest) rest

/-- One round of the pump, over a gap or not. -/
def Passes (frames rest : List JobFrame) : Prop := ReadsEvent frames rest ∨ Gap frames rest

/-- A place in the frames where a result is announced, and what was framed for it. -/
inductive Carries : List JobFrame → Bytes × String → Prop
  | image {value : JsonValue} {data : Bytes} {rest : List JobFrame} (fileExtension : String)
      (h : controlEvent value = some "image") :
      Carries (.control value :: .binary data :: rest) (data, fileExtension)
  | result {value : JsonValue} {expected : ℕ} {chunks : List Bytes} {rest : List JobFrame}
      (fileExtension : String) (h : controlEvent value = some "result")
      (hbytes : announcedBytes value = some expected) (hchunks : Bring expected chunks) :
      Carries (.control value :: (chunks.map .binary ++ rest)) (chunks.flatten, fileExtension)

/-! ## The bytes of a result -/

variable {chunks : List Bytes} {expected : ℕ} {frames : List JobFrame}

theorem flatten_ne_nil_of_getLast? (hne : chunks ≠ [])
    (hlast : chunks.getLast? ≠ some []) : chunks.flatten ≠ [] := by
  intro hflat
  rw [List.flatten_eq_nil_iff] at hflat
  refine hlast ?_
  rw [List.getLast?_eq_some_getLast hne, hflat _ (List.getLast_mem hne)]

theorem getLast?_tail_ne {chunk : Bytes}
    (h : (chunk :: chunks).getLast? ≠ some []) : chunks.getLast? ≠ some [] := by
  cases chunks with
  | nil => simp
  | cons next chunks => rwa [List.getLast?_cons_cons] at h

variable (id : String)

/-- `result_bytes` takes the frames that bring what was announced, and nothing else. -/
theorem readResult_of_bring (rest : List JobFrame) {data : Bytes}
    (htotal : data.length + chunks.flatten.length = expected) (hlast : chunks.getLast? ≠ some []) :
    readResult id expected data (chunks.map .binary ++ rest) =
      (.ok (data ++ chunks.flatten), rest) := by
  induction chunks generalizing data with
  | nil =>
    have hle : expected ≤ data.length := by simp [← htotal]
    cases rest <;> simp [readResult, hle]
  | cons chunk chunks ih =>
    have hpos := List.length_pos_of_ne_nil
      (flatten_ne_nil_of_getLast? (List.cons_ne_nil chunk chunks) hlast)
    rw [List.flatten_cons, List.length_append] at htotal hpos
    rw [List.map_cons, List.cons_append, readResult, if_neg (by omega), if_neg (by omega),
      ih (by rw [List.length_append]; omega) (getLast?_tail_ne hlast)]
    simp

theorem bring_of_readResult {id : String} {data out : Bytes} {rest : List JobFrame}
    (hle : data.length ≤ expected) (h : readResult id expected data frames = (.ok out, rest)) :
    ∃ chunks : List Bytes, frames = chunks.map .binary ++ rest ∧ out = data ++ chunks.flatten ∧
      data.length + chunks.flatten.length = expected ∧ chunks.getLast? ≠ some [] := by
  induction frames generalizing data with
  | nil =>
    unfold readResult at h
    split at h
    · obtain ⟨hout, rfl⟩ := Prod.mk.inj h
      exact ⟨[], rfl, by simpa using (Except.ok.inj hout).symm, by simp; omega, by simp⟩
    · cases (Prod.mk.inj h).1
  | cons frame frames ih =>
    unfold readResult at h
    split at h
    · obtain ⟨hout, rfl⟩ := Prod.mk.inj h
      exact ⟨[], rfl, by simpa using (Except.ok.inj hout).symm, by simp; omega, by simp⟩
    · rename_i hmore
      cases frame with
      | control value => cases (Prod.mk.inj h).1
      | binary chunk =>
        simp only at h
        split at h
        · cases (Prod.mk.inj h).1
        · obtain ⟨chunks, rfl, rfl, htotal, hlast⟩ := ih (by rw [List.length_append]; omega) h
          rw [List.length_append] at htotal
          refine ⟨chunk :: chunks, rfl, by simp, ?_, ?_⟩
          · rw [List.flatten_cons, List.length_append]
            omega
          -- the last chunk is this one only if it brings what is missing
          · cases chunks with
            | nil =>
              intro hempty
              have hnil : chunk = [] := by simpa using hempty
              simp [hnil] at htotal
              omega
            | cons next chunks => rwa [List.getLast?_cons_cons]

theorem resultBytes_of_announced {value : JsonValue}
    (h : announcedBytes value = some expected) (frames : List JobFrame) :
    resultBytes id value.asObject frames = readResult id expected [] frames := by
  obtain ⟨bytes, hbytes, rfl⟩ := Option.map_eq_some_iff.1 h
  rw [resultBytes, hbytes]

theorem resultBytes_of_unannounced {value : JsonValue}
    (h : announcedBytes value = none) (frames : List JobFrame) :
    ∃ error, (resultBytes id value.asObject frames).1 = .error error := by
  rw [resultBytes, Option.map_eq_none_iff.1 h]
  exact ⟨_, rfl⟩

/-! ## A round of the pump -/

section

variable {id : String} {exitError : SidecarError} {rounds : ℕ} {value : JsonValue}
  {rest : List JobFrame}

/-- The results among some events. -/
def resultsOf (events : List JobRuntimeEvent) : List (Bytes × String) :=
  Pumped.results (events, .ok ())

/-- The events of a round, in front of what comes of the frames behind it. -/
def Pumped.before (events : List JobRuntimeEvent) (pumped : Pumped) : Pumped :=
  (events ++ pumped.1, pumped.2)

theorem results_before (events : List JobRuntimeEvent) (pumped : Pumped) :
    (pumped.before events).results = resultsOf events ++ pumped.results :=
  List.filterMap_append

attribute [local simp] pumpFrom in
theorem pumpFrom_end {outcome : Except SidecarError Unit} (h : jobEnd value = some outcome) :
    pumpFrom id exitError (rounds + 1) (.control value :: rest) = ([], outcome) := by
  unfold jobEnd at h
  split at h
  · rename_i hevent
    rw [pumpFrom, hevent]
    exact congrArg (Prod.mk []) (Option.some.inj h)
  · rename_i hevent
    rw [pumpFrom, hevent]
    exact congrArg (Prod.mk []) (Option.some.inj h)
  · rename_i hevent
    rw [pumpFrom, hevent]
    exact congrArg (Prod.mk []) (Option.some.inj h)
  · cases h

theorem pumpFrom_plain (hend : jobEnd value = none) (hframe : ¬ AnnouncesFrame value)
    (hresult : controlEvent value ≠ some "result") :
    ∃ events, pumpFrom id exitError (rounds + 1) (.control value :: rest) =
      (pumpFrom id exitError rounds rest).before events ∧ resultsOf events = [] := by
  unfold jobEnd at hend
  unfold AnnouncesFrame at hframe
  rw [pumpFrom]
  simp only
  split
  · exact ⟨[.started], rfl, rfl⟩
  · exact ⟨[_], rfl, rfl⟩
  · rename_i hevent
    exact absurd (.inl hevent) hframe
  · rename_i hevent
    exact absurd (.inr hevent) hframe
  · rename_i hevent
    exact absurd hevent hresult
  · split
    · exact ⟨[], rfl, rfl⟩
    · exact ⟨[_], rfl, rfl⟩
  · rename_i hevent
    rw [hevent] at hend
    cases hend
  · rename_i hevent
    rw [hevent] at hend
    cases hend
  · rename_i hevent
    rw [hevent] at hend
    cases hend
  · exact ⟨[], rfl, rfl⟩

theorem pumpFrom_framed (h : AnnouncesFrame value) (data : Bytes) :
    ∃ events, pumpFrom id exitError (rounds + 1) (.control value :: .binary data :: rest) =
      (pumpFrom id exitError rounds rest).before events ∧
      (resultsOf events = [] ∨ ∃ fileExtension, resultsOf events = [(data, fileExtension)] ∧
        controlEvent value = some "image") := by
  rcases h with h | h
  · exact ⟨[.preview data], by rw [pumpFrom, h]; rfl, .inl rfl⟩
  · exact ⟨[.result data _], by rw [pumpFrom, h]; rfl, .inr ⟨_, rfl, h⟩⟩

theorem pumpFrom_gap (h : AnnouncesFrame value) (lost : JsonValue) :
    pumpFrom id exitError (rounds + 1) (.control value :: .control lost :: rest) =
      pumpFrom id exitError rounds rest := by
  rcases h with h | h <;>
  · rw [pumpFrom, h]
    rfl

theorem pumpFrom_nil : pumpFrom id exitError rounds [] = ([], .error exitError) := by
  cases rounds <;> rfl

theorem pumpFrom_unframed (h : AnnouncesFrame value) :
    pumpFrom id exitError (rounds + 1) [.control value] = ([], .error exitError) := by
  have hnone : pumpFrom id exitError (rounds + 1) [.control value] =
      pumpFrom id exitError rounds [] := by
    rcases h with h | h <;>
    · rw [pumpFrom, h]
      rfl
  rw [hnone, pumpFrom_nil]

theorem pumpFrom_result (h : controlEvent value = some "result") {expected : ℕ}
    {chunks : List Bytes} (hbytes : announcedBytes value = some expected)
    (hchunks : Bring expected chunks) :
    ∃ fileExtension, pumpFrom id exitError (rounds + 1)
        (.control value :: (chunks.map .binary ++ rest)) =
      (pumpFrom id exitError rounds rest).before [.result chunks.flatten fileExtension] := by
  have hread : resultBytes id value.asObject (chunks.map .binary ++ rest) =
      (.ok chunks.flatten, rest) := by
    rw [resultBytes_of_announced id hbytes]
    exact readResult_of_bring id rest (by simpa using hchunks.total) hchunks.completes
  rw [pumpFrom, h]
  simp only [hread]
  exact ⟨_, rfl⟩

theorem pumpFrom_short (h : controlEvent value = some "result")
    (hnone : ∀ expected chunks behind, announcedBytes value = some expected →
      Bring expected chunks → rest ≠ chunks.map .binary ++ behind) :
    ∃ error, pumpFrom id exitError (rounds + 1) (.control value :: rest) = ([], .error error) := by
  have herror : ∃ error, (resultBytes id value.asObject rest).1 = .error error := by
    cases hbytes : announcedBytes value with
    | none => exact resultBytes_of_unannounced id hbytes rest
    | some expected =>
      rw [resultBytes_of_announced id hbytes]
      rcases hread : readResult id expected [] rest with ⟨error | out, behind⟩
      · exact ⟨error, rfl⟩
      · obtain ⟨chunks, hrest, -, htotal, hlast⟩ := bring_of_readResult (Nat.zero_le _) hread
        exact absurd hrest (hnone expected chunks behind hbytes ⟨by simpa using htotal, hlast⟩)
  obtain ⟨error, herror⟩ := herror
  rcases hread : resultBytes id value.asObject rest with ⟨answer, behind⟩
  rw [hread] at herror
  obtain rfl : answer = .error error := herror
  exact ⟨error, by rw [pumpFrom, h]; simp only [hread]⟩

end

/-! ## All rounds -/

theorem ReadsEvent.length_lt {rest : List JobFrame} (h : ReadsEvent frames rest) :
    rest.length < frames.length := by
  cases h with
  | plain => exact Nat.lt_succ_self _
  | framed => exact Nat.lt_succ_of_lt (Nat.lt_succ_self _)
  | result =>
    rw [List.length_cons, List.length_append]
    omega

theorem length_readResult_le (expected : ℕ) (data : Bytes) (frames : List JobFrame) :
    (readResult id expected data frames).2.length ≤ frames.length := by
  induction frames generalizing data with
  | nil =>
    unfold readResult
    split <;> simp
  | cons frame frames ih =>
    unfold readResult
    split
    · exact le_refl _
    · split
      · split
        · simp
        · exact (ih _).trans (Nat.le_succ _)
      · simp

theorem length_resultBytes_le (object : ControlObject) (frames : List JobFrame) :
    (resultBytes id object frames).2.length ≤ frames.length := by
  unfold resultBytes
  split
  · exact length_readResult_le id _ [] frames
  · exact le_refl _

/-- More rounds than frames change nothing. -/
theorem pumpFrom_succ (exitError : SidecarError) {rounds : ℕ} (h : frames.length < rounds) :
    pumpFrom id exitError rounds frames = pumpFrom id exitError (rounds + 1) frames := by
  induction rounds generalizing frames with
  | zero => exact absurd h (Nat.not_lt_zero _)
  | succ rounds ih =>
    cases frames with
    | nil => rfl
    | cons frame rest =>
      rw [List.length_cons] at h
      cases frame with
      | binary data => rfl
      | control value =>
        have hrest := ih (show rest.length < rounds by omega)
        have hframe : ∀ behind, behind.length ≤ rest.length →
            pumpFrom id exitError rounds behind = pumpFrom id exitError (rounds + 1) behind :=
          fun behind hbehind => ih (by omega)
        have hnext : (nextBinaryFrame rest).2.length ≤ rest.length := by
          cases rest with
          | nil => exact le_refl _
          | cons frame rest => cases frame <;> exact Nat.le_succ _
        have hresult := length_resultBytes_le id value.asObject rest
        rw [pumpFrom, pumpFrom]
        simp only
        split
        · rw [hrest]
        · rw [hrest]
        · rw [hframe _ hnext]
        · rw [hframe _ hnext]
        · split
          · rfl
          · rename_i data behind hbytes
            rw [hbytes] at hresult
            rw [hframe behind hresult]
        · rw [hrest]
        · rfl
        · rfl
        · rfl
        · rw [hrest]

theorem pumpFrom_eq_pumpJob (exitError : SidecarError) {rounds : ℕ} (h : frames.length < rounds) :
    pumpFrom id exitError rounds frames = pumpJob id exitError frames := by
  obtain ⟨more, rfl⟩ := Nat.exists_eq_add_of_lt h
  induction more with
  | zero => rfl
  | succ more ih =>
    rw [← ih (by omega)]
    exact (pumpFrom_succ id exitError (by omega)).symm

/-- The frames in front of the pump: none, an end, an event, a gap, or one out of step. -/
theorem front_cases (frames : List JobFrame) :
    frames = [] ∨ (∃ value rest outcome, frames = .control value :: rest ∧
      jobEnd value = some outcome) ∨ (∃ rest, ReadsEvent frames rest) ∨ OutOfStep frames := by
  cases frames with
  | nil => exact .inl rfl
  | cons frame rest =>
    refine .inr ?_
    cases frame with
    | binary data => exact .inr (.inr (.unannounced data rest))
    | control value =>
      cases hend : jobEnd value with
      | some outcome => exact .inl ⟨value, rest, outcome, rfl, hend⟩
      | none =>
        refine .inr ?_
        by_cases hframe : AnnouncesFrame value
        · by_cases hdata : ∃ data behind, rest = .binary data :: behind
          · obtain ⟨data, behind, rfl⟩ := hdata
            exact .inl ⟨behind, .framed hframe⟩
          · push Not at hdata
            exact .inr (.unframed hframe hdata)
        · by_cases hresult : controlEvent value = some "result"
          · by_cases hbring : ∃ expected chunks behind, announcedBytes value = some expected ∧
              Bring expected chunks ∧ rest = chunks.map .binary ++ behind
            · obtain ⟨expected, chunks, behind, hbytes, hchunks, rfl⟩ := hbring
              exact .inl ⟨behind, .result hresult hbytes hchunks⟩
            · push Not at hbring
              exact .inr (.short hresult hbring)
          · exact .inl ⟨rest, .plain hend hframe hresult⟩

section

variable (id : String) (exitError : SidecarError)

variable {rest : List JobFrame} {value : JsonValue}

/-- What an event in step sends, and that the pump goes on behind it. -/
theorem pumpJob_reads {frames : List JobFrame} (h : ReadsEvent frames rest) :
    ∃ events, pumpJob id exitError frames = (pumpJob id exitError rest).before events ∧
      (resultsOf events = [] ∨ ∃ result, resultsOf events = [result] ∧ Carries frames result) := by
  have hrest := pumpFrom_eq_pumpJob id exitError h.length_lt
  rw [← hrest, pumpJob]
  cases h with
  | plain hend hframe hresult =>
    obtain ⟨events, hevents, hnone⟩ := pumpFrom_plain hend hframe hresult
    exact ⟨events, hevents, .inl hnone⟩
  | framed hframe =>
    obtain ⟨events, hevents, hcarries⟩ := pumpFrom_framed hframe _
    refine ⟨events, hevents, hcarries.imp_right ?_⟩
    rintro ⟨fileExtension, hone, himage⟩
    exact ⟨_, hone, .image fileExtension himage⟩
  | result hresult hbytes hchunks =>
    obtain ⟨fileExtension, hevents⟩ := pumpFrom_result hresult hbytes hchunks
    exact ⟨_, hevents, .inr ⟨_, rfl, .result fileExtension hresult hbytes hchunks⟩⟩

theorem pumpJob_gap {frames : List JobFrame} (h : Gap frames rest) :
    pumpJob id exitError frames = pumpJob id exitError rest := by
  obtain ⟨hframe, lost, rest⟩ := h
  rw [pumpJob, pumpFrom_gap hframe]
  exact pumpFrom_eq_pumpJob id exitError (Nat.lt_succ_of_lt (Nat.lt_succ_self _))

theorem pumpJob_end {outcome : Except SidecarError Unit} (h : jobEnd value = some outcome) :
    pumpJob id exitError (.control value :: rest) = ([], outcome) := pumpFrom_end h

/-- Out of step, the pump gives up or goes on behind a gap. -/
theorem pumpJob_outOfStep {frames : List JobFrame} (h : OutOfStep frames) :
    (∃ rest, Gap frames rest) ∨ ∃ error, pumpJob id exitError frames = ([], .error error) := by
  cases h with
  | unannounced data rest => exact .inr ⟨_, rfl⟩
  | short hresult hnone => exact .inr (pumpFrom_short hresult hnone)
  | @unframed value rest hframe hnone =>
    cases rest with
    | nil => exact .inr ⟨exitError, pumpFrom_unframed hframe⟩
    | cons frame rest =>
      cases frame with
      | binary data => exact absurd rfl (hnone data rest)
      | control lost => exact .inl ⟨rest, .mk hframe lost rest⟩

theorem outcome_passes {frames : List JobFrame} (h : ReflTransGen Passes frames rest) :
    (pumpJob id exitError frames).2 = (pumpJob id exitError rest).2 := by
  induction h with
  | refl => rfl
  | tail _ hpasses ih =>
    rw [ih]
    rcases hpasses with hreads | hgap
    · obtain ⟨events, hevents, -⟩ := pumpJob_reads id exitError hreads
      rw [hevents]
      rfl
    · rw [pumpJob_gap id exitError hgap]

theorem outcome_reads {frames : List JobFrame} (h : ReflTransGen ReadsEvent frames rest) :
    (pumpJob id exitError frames).2 = (pumpJob id exitError rest).2 :=
  outcome_passes id exitError (h.lift (fun frames => frames) fun _ _ => .inl)

/-- The pump ends well only at a `done` it comes to. -/
theorem done_of_outcome_ok {frames : List JobFrame} (h : (pumpJob id exitError frames).2 = .ok ()) :
    ∃ value rest, ReflTransGen Passes frames (.control value :: rest) ∧
      jobEnd value = some (.ok ()) := by
  induction hn : frames.length using Nat.strong_induction_on generalizing frames with
  | _ n ih =>
    subst hn
    rcases front_cases frames with rfl | ⟨value, rest, outcome, rfl, hend⟩ | ⟨rest, hreads⟩ | hout
    · cases h
    · rw [pumpJob_end id exitError hend] at h
      exact ⟨value, rest, .refl, h ▸ hend⟩
    · rw [outcome_reads id exitError (.single hreads)] at h
      obtain ⟨value, behind, hbehind, hend⟩ := ih _ hreads.length_lt h rfl
      exact ⟨value, behind, .head (.inl hreads) hbehind, hend⟩
    · rcases pumpJob_outOfStep id exitError hout with ⟨rest, hgap⟩ | ⟨error, herror⟩
      · rw [outcome_passes id exitError (.single (.inr hgap))] at h
        have hlt : rest.length < frames.length := by
          cases hgap
          exact Nat.lt_succ_of_lt (Nat.lt_succ_self _)
        obtain ⟨value, behind, hbehind, hend⟩ := ih _ hlt h rfl
        exact ⟨value, behind, .head (.inr hgap) hbehind, hend⟩
      · rw [herror] at h
        cases h

theorem tails_sublist_of_suffix {frames : List JobFrame} (h : rest <:+ frames) :
    rest.tails.Sublist frames.tails := by
  obtain ⟨taken, rfl⟩ := h
  induction taken with
  | nil => exact .refl _
  | cons frame taken ih => exact ih.trans (List.sublist_cons_self _ _)

theorem Passes.suffix {frames : List JobFrame} (h : Passes frames rest) :
    ∃ frame taken, frames = frame :: (taken ++ rest) := by
  rcases h with hreads | hgap
  · cases hreads with
    | plain => exact ⟨_, [], rfl⟩
    | framed => exact ⟨_, [_], rfl⟩
    | result => exact ⟨_, _, rfl⟩
  · cases hgap
    exact ⟨_, [_], rfl⟩

/-- Each result was announced at a place of its own, and is what was framed there. -/
theorem results_carried (frames : List JobFrame) :
    ∃ places : List (List JobFrame), places.Sublist frames.tails ∧
      List.Forall₂ Carries places (pumpJob id exitError frames).results := by
  induction hn : frames.length using Nat.strong_induction_on generalizing frames with
  | _ n ih =>
    subst hn
    -- a round that goes on adds its result, if it has one, in front of the others
    have hround : ∀ {rest : List JobFrame} (events : List JobRuntimeEvent), Passes frames rest →
        pumpJob id exitError frames = (pumpJob id exitError rest).before events →
        (resultsOf events = [] ∨ ∃ result, resultsOf events = [result] ∧ Carries frames result) →
        ∃ places : List (List JobFrame), places.Sublist frames.tails ∧
          List.Forall₂ Carries places (pumpJob id exitError frames).results := by
      intro rest events hpasses hevents hcarries
      obtain ⟨frame, taken, rfl⟩ := hpasses.suffix
      have hlt : rest.length < (frame :: (taken ++ rest)).length := by
        rw [List.length_cons, List.length_append]
        omega
      obtain ⟨places, hplaces, hall⟩ := ih _ hlt rest rfl
      have hsub := hplaces.trans (tails_sublist_of_suffix (List.suffix_append taken rest))
      rw [hevents, results_before]
      rcases hcarries with hnone | ⟨result, hone, hcarries⟩
      · rw [hnone]
        exact ⟨places, hsub.trans (List.sublist_cons_self _ _), hall⟩
      · rw [hone]
        exact ⟨_ :: places, hsub.cons_cons _, .cons hcarries hall⟩
    have hnone : ∀ {outcome : Except SidecarError Unit},
        pumpJob id exitError frames = ([], outcome) →
        ∃ places : List (List JobFrame), places.Sublist frames.tails ∧
          List.Forall₂ Carries places (pumpJob id exitError frames).results := by
      intro outcome hpump
      rw [hpump]
      exact ⟨[], List.nil_sublist _, .nil⟩
    rcases front_cases frames with rfl | ⟨value, rest, outcome, rfl, hend⟩ | ⟨rest, hreads⟩ | hout
    · exact hnone rfl
    · exact hnone (pumpJob_end id exitError hend)
    · obtain ⟨events, hevents, hcarries⟩ := pumpJob_reads id exitError hreads
      exact hround events (.inl hreads) hevents hcarries
    · rcases pumpJob_outOfStep id exitError hout with ⟨rest, hgap⟩ | ⟨error, herror⟩
      · exact hround [] (.inr hgap) (pumpJob_gap id exitError hgap) (.inl rfl)
      · exact hnone herror

/-! ## Alignment -/

/-- Reading in step comes to a frame that is out of step. -/
def FallsOutOfStep (frames : List JobFrame) : Prop :=
  ∃ rest, ReflTransGen ReadsEvent frames rest ∧ OutOfStep rest

/-- No frame of a list ends a job. -/
def NoEnd (frames : List JobFrame) : Prop :=
  ∀ value, .control value ∈ frames → jobEnd value = none

/-- A job does with its frames what they say. -/
structure Aligned (frames : List JobFrame) : Prop where
  /-- The first end is how the job ends, if the frames are in step. -/
  ends : ∀ (front : List JobFrame) value rest outcome,
    frames = front ++ Frame.control value :: rest → NoEnd front →
    jobEnd value = some outcome → ¬ FallsOutOfStep frames →
    (pumpJob id exitError frames).2 = outcome
  outOfStep : FallsOutOfStep frames → ∃ error, (pumpJob id exitError frames).2 = .error error
  results : ∃ places : List (List JobFrame), places.Sublist frames.tails ∧
    List.Forall₂ Carries places (pumpJob id exitError frames).results

theorem jobEnd_of_announcesFrame (h : AnnouncesFrame value) : jobEnd value = none := by
  unfold jobEnd
  rcases h with h | h <;>
  · rw [h]
    rfl

theorem jobEnd_of_result (h : controlEvent value = some "result") :
    jobEnd value = none := by
  unfold jobEnd
  rw [h]
  rfl

/-- An event in step leaves the first end where it is. -/
theorem ReadsEvent.keeps_end {frames front behind : List JobFrame} (h : ReadsEvent frames rest)
    (hframes : frames = front ++ .control value :: behind) (hend : jobEnd value ≠ none) :
    ∃ front', front'.Sublist front ∧ rest = front' ++ .control value :: behind := by
  cases front with
  | nil =>
    rw [List.nil_append] at hframes
    cases h with
    | plain hnone =>
      obtain ⟨hvalue, -⟩ := List.cons.inj hframes
      exact absurd (Frame.control.inj hvalue ▸ hnone) hend
    | framed hframe =>
      obtain ⟨hvalue, -⟩ := List.cons.inj hframes
      exact absurd (Frame.control.inj hvalue ▸ jobEnd_of_announcesFrame hframe) hend
    | result hresult =>
      obtain ⟨hvalue, -⟩ := List.cons.inj hframes
      exact absurd (Frame.control.inj hvalue ▸ jobEnd_of_result hresult) hend
  | cons event front =>
    cases h with
    | plain =>
      obtain ⟨-, rfl⟩ := List.cons.inj hframes
      exact ⟨front, List.sublist_cons_self _ _, rfl⟩
    | framed =>
      obtain ⟨-, hrest⟩ := List.cons.inj hframes
      cases front with
      | nil => cases hrest
      | cons data front =>
        obtain ⟨-, rfl⟩ := List.cons.inj hrest
        exact ⟨front, (List.sublist_cons_self _ _).trans (List.sublist_cons_self _ _), rfl⟩
    | @result _ _ chunks _ _ _ _ =>
      obtain ⟨-, hrest⟩ := List.cons.inj hframes
      -- the end is no byte of the result
      rcases List.append_eq_append_iff.1 hrest with ⟨front', rfl, rfl⟩ | ⟨bytes, hbytes, hbehind⟩
      · exact ⟨front', (List.sublist_append_right _ _).trans (List.sublist_cons_self _ _), rfl⟩
      · cases bytes with
        | nil => exact ⟨[], List.nil_sublist _, hbehind.symm⟩
        | cons byte bytes =>
          obtain ⟨rfl, -⟩ := List.cons.inj hbehind
          have hmem : (.control value : JobFrame) ∈ chunks.map Frame.binary := by
            rw [hbytes]
            exact List.mem_append_right _ (.head _)
          obtain ⟨chunk, -, hchunk⟩ := List.mem_map.1 hmem
          cases hchunk

/-- Frames in step are read down to their first end. -/
theorem reads_first_end {frames front : List JobFrame}
    (hframes : frames = front ++ .control value :: rest) (hfront : NoEnd front)
    (hend : jobEnd value ≠ none) (hstep : ¬ FallsOutOfStep frames) :
    ReflTransGen ReadsEvent frames (.control value :: rest) := by
  induction hn : frames.length using Nat.strong_induction_on generalizing frames front with
  | _ n ih =>
    subst hn
    rcases front_cases frames with rfl | ⟨first, behind, outcome, rfl, hfirst⟩ | ⟨behind, hreads⟩ |
      hout
    · simp at hframes
    · cases front with
      | nil =>
        rw [List.nil_append] at hframes
        rw [hframes]
      | cons event front =>
        obtain ⟨rfl, -⟩ := List.cons.inj hframes
        rw [hfront first List.mem_cons_self] at hfirst
        cases hfirst
    · obtain ⟨front', hsub, hbehind⟩ := hreads.keeps_end hframes hend
      refine .head hreads (ih _ hreads.length_lt hbehind
        (fun value hvalue => hfront value (hsub.subset hvalue)) ?_ rfl)
      rintro ⟨last, hlast, hout⟩
      exact hstep ⟨last, .head hreads hlast, hout⟩
    · exact absurd ⟨frames, .refl, hout⟩ hstep

/-- A `done` stands where the pump comes to after the first gap. -/
def DoneBehindGap (frames : List JobFrame) : Prop :=
  ∃ gap behind value rest, ReflTransGen ReadsEvent frames gap ∧ Gap gap behind ∧
    ReflTransGen Passes behind (.control value :: rest) ∧ controlEvent value = some "done"

theorem Gap.outOfStep {frames : List JobFrame} (h : Gap frames rest) : OutOfStep frames := by
  obtain ⟨hframe, lost, rest⟩ := h
  exact .unframed hframe fun data behind hdata => by cases hdata

theorem jobEnd_eq_ok_iff :
    jobEnd value = some (.ok ()) ↔ controlEvent value = some "done" := by
  unfold jobEnd
  split <;> simp_all

/-- A job's frames and its end agree exactly when no `done` is read behind a gap. -/
theorem aligned_iff (frames : List JobFrame) :
    Aligned id exitError frames ↔ ¬ DoneBehindGap frames := by
  constructor
  · rintro h ⟨gap, behind, value, rest, hreads, hgap, hpasses, hdone⟩
    obtain ⟨error, herror⟩ := h.outOfStep ⟨gap, hreads, hgap.outOfStep⟩
    rw [outcome_reads id exitError hreads, outcome_passes id exitError (.head (.inr hgap) hpasses),
      pumpJob_end id exitError (jobEnd_eq_ok_iff.2 hdone)] at herror
    cases herror
  · intro h
    refine ⟨fun front value rest outcome hframes hfront hend hstep => ?_, ?_,
      results_carried id exitError frames⟩
    · have hreads := reads_first_end hframes hfront (by simp [hend]) hstep
      rw [outcome_reads id exitError hreads, pumpJob_end id exitError hend]
    · rintro ⟨rest, hreads, hout⟩
      rw [outcome_reads id exitError hreads]
      rcases pumpJob_outOfStep id exitError hout with ⟨behind, hgap⟩ | ⟨error, herror⟩
      · cases houtcome : (pumpJob id exitError rest).2 with
        | error error => exact ⟨error, rfl⟩
        | ok =>
          rw [pumpJob_gap id exitError hgap] at houtcome
          obtain ⟨value, last, hpasses, hend⟩ := done_of_outcome_ok id exitError houtcome
          exact absurd ⟨rest, behind, value, last, hreads, hgap, hpasses, jobEnd_eq_ok_iff.1 hend⟩ h
      · exact ⟨error, congrArg Prod.snd herror⟩

end

/-- A preview whose frame is missing costs the event behind it, and the job ends well. -/
theorem preview_without_frame_not_aligned :
    ¬ Aligned "runtime" .cancelled
      [.control (.object [("event", .string "preview")]),
        .control (.object [("event", .string "begin")]),
        .control (.object [("event", .string "done")])] := by
  intro h
  obtain ⟨error, herror⟩ := h.outOfStep ⟨_, .refl,
    .unframed (.inl rfl) fun data behind hdata => by cases hdata⟩
  cases herror

end Hedos.Sidecar
