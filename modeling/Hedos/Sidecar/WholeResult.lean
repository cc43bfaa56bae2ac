import Hedos.Sidecar.JobPump

/-!
# A finished piece arrives whole

* the frames a runtime writes for a piece, when each fits in a frame, come out of the decoder
  whatever the cut (`received_frames`), and the pump sends one `Result` with the piece's bytes
  for them (`pumpJob_song`, `pumpJob_picture`);
* a song is sent in slices that fit; a picture is sent in one frame, and the decoder refuses it
  when it does not (`received_oversized`).
-/

namespace Hedos.Sidecar

open Hedos.Kernel (JsonValue)

/-! ## Slices -/

theorem flatten_slices_take (chunk n : ℕ) (data : Bytes) :
    ((List.range n).map fun i => (data.drop (i * chunk)).take chunk).flatten =
      data.take (n * chunk) := by
  induction n with
  | zero => simp
  | succ n ih =>
    rw [List.range_succ, List.map_append, List.flatten_append, ih]
    simp only [List.map_cons, List.map_nil, List.flatten_cons, List.flatten_nil, List.append_nil]
    rw [Nat.succ_mul, List.take_add]

/-- The slices are the data. -/
theorem flatten_slices {chunk : ℕ} (hchunk : 0 < chunk) (data : Bytes) :
    (slices chunk data).flatten = data := by
  rw [slices, flatten_slices_take, List.take_of_length_le]
  have hdiv := Nat.div_add_mod (data.length + chunk - 1) chunk
  have hmod := Nat.mod_lt (data.length + chunk - 1) hchunk
  rw [Nat.mul_comm]
  omega

theorem length_le_of_mem_slices {chunk : ℕ} {data slice : Bytes} (h : slice ∈ slices chunk data) :
    slice.length ≤ chunk := by
  obtain ⟨i, -, rfl⟩ := List.mem_map.1 h
  exact List.length_take_le _ _

/-! ## Through the decoder -/

/-- The frames of the writes. -/
def Finished.frames (piece : Finished) (seconds : ℚ) : List JobFrame :=
  .control piece.announcement :: piece.payloads.map Frame.binary ++
    [Frame.control (doneEvent seconds)]

/-- The runtime's events are read as they were meant, and are small. -/
structure Wire.Reads (w : Wire) (value : JsonValue) : Prop where
  back : w.fromSlice (w.dumps value) = some value
  small : (w.dumps value).length + 1 ≤ maxFrameBytes

section

variable {w : Wire} {piece : Finished} {seconds : ℚ} {chunks : List Bytes}

theorem Wire.Reads.carried {value : JsonValue} (h : w.Reads value) :
    Carried w.json (.control value) ∧ wire w.json (.control value) = sendJson w value := by
  have hencode : encode w.json (.control value) = .ok (sendJson w value) := by
    have hsmall : ¬ (w.dumps value).length + 1 > maxFrameBytes := Nat.not_lt.2 h.small
    simp only [encode, Frame.payload, Wire.json, hsmall, if_false]
    rfl
  have hwire : wire w.json (.control value) = sendJson w value := by
    simp only [wire, hencode]
  refine ⟨⟨by rw [hencode, hwire], fun value' hvalue => ?_⟩, hwire⟩
  cases hvalue
  exact ⟨_, rfl, h.back⟩

variable {data : Bytes}

theorem carried_binary (h : data.length + 1 ≤ maxFrameBytes) :
    Carried w.json (.binary data) ∧ wire w.json (.binary data) = send 2 data := by
  have hencode : encode w.json (.binary data) = .ok (send 2 data) := by
    have hsmall : ¬ data.length + 1 > maxFrameBytes := Nat.not_lt.2 h
    simp only [encode, Frame.payload, hsmall, if_false]
    rfl
  have hwire : wire w.json (.binary data) = send 2 data := by
    simp only [wire, hencode]
  refine ⟨⟨by rw [hencode, hwire], fun value hvalue => ?_⟩, hwire⟩
  cases hvalue

/-- Once `appendAll` takes all the chunks, what it decoded is what is received. -/
theorem received_of_appendAll {json : Json JsonValue} :
    ∀ {chunks : List Bytes} {decoder decoder' : Decoder} {outputs : List (List JobFrame)},
      decoder.appendAll json chunks = (decoder', .ok outputs) →
      received json decoder chunks = outputs.flatten := by
  intro chunks
  induction chunks with
  | nil =>
    intro decoder decoder' outputs h
    cases h
    rfl
  | cons chunk chunks ih =>
    intro decoder decoder' outputs h
    rw [Decoder.appendAll] at h
    rw [received]
    cases happend : decoder.append json chunk with
    | mk next answer =>
      cases answer with
      | error error =>
        simp only [happend] at h
        cases h
      | ok frames =>
        simp only [happend] at h ⊢
        cases hrest : next.appendAll json chunks with
        | mk last answer =>
          rw [hrest] at h
          cases answer with
          | error error => cases h
          | ok rest =>
            cases h
            rw [ih hrest, List.flatten_cons]

/-- The frames of a piece come out of the decoder whatever the cut, if each fits. -/
theorem received_frames (hannounce : w.Reads piece.announcement)
    (hdone : w.Reads (doneEvent seconds))
    (hfit : ∀ payload ∈ piece.payloads, payload.length + 1 ≤ maxFrameBytes)
    (hcut : chunks.flatten = (piece.writes w seconds).flatten) :
    received w.json {} chunks = piece.frames seconds := by
  have hall : ∀ frame ∈ piece.frames seconds, Carried w.json frame := by
    intro frame hframe
    simp only [Finished.frames, List.cons_append, List.mem_cons, List.mem_append, List.mem_map,
      List.not_mem_nil, or_false] at hframe
    rcases hframe with rfl | ⟨payload, hpayload, rfl⟩ | rfl
    · exact hannounce.carried.1
    · exact (carried_binary (hfit payload hpayload)).1
    · exact hdone.carried.1
  have hwrites :
      (piece.writes w seconds).flatten = (piece.frames seconds).flatMap (wire w.json) := by
    have hmap : piece.payloads.map (send 2) =
        (piece.payloads.map Frame.binary).map (wire w.json) := by
      rw [List.map_map]
      refine List.map_congr_left fun payload hpayload => ?_
      exact (carried_binary (hfit payload hpayload)).2.symm
    rw [List.flatMap_def, Finished.writes, Finished.frames, hmap, ← hannounce.carried.2,
      ← hdone.carried.2]
    simp
  have hbytes : [] ++ chunks.flatten = (piece.frames seconds).flatMap (wire w.json) := by
    rw [List.nil_append, hcut, hwrites]
  obtain ⟨outputs, hrun, hout⟩ := Decoder.appendAll_frames hall (leftover_nil hall) hbytes
  rw [received_of_appendAll hrun, hout]

/-! ## Through the pump -/

variable (id : String)

theorem readResult_slices (rest : List JobFrame) :
    ∀ (payloads : List Bytes) (data : Bytes) (expected : ℕ),
      expected = data.length + payloads.flatten.length → (∀ payload ∈ payloads, payload ≠ []) →
      readResult id expected data (payloads.map Frame.binary ++ rest) =
        (.ok (data ++ payloads.flatten), rest) := by
  intro payloads
  induction payloads with
  | nil =>
    intro data expected hexpected _
    have hle : expected ≤ data.length := by simp [hexpected]
    cases rest with
    | nil => simp [readResult, hle]
    | cons frame rest => simp [readResult, hle]
  | cons payload payloads ih =>
    intro data expected hexpected hne
    have hpos := List.length_pos_of_ne_nil (hne payload (.head _))
    rw [List.flatten_cons, List.length_append] at hexpected
    rw [List.map_cons, List.cons_append, readResult, if_neg (by omega), if_neg (by omega),
      ih (data ++ payload) expected (by rw [List.length_append]; omega)
      fun p hp => hne p (.tail _ hp)]
    simp

theorem ne_nil_of_mem_slices {chunk : ℕ} (hchunk : 0 < chunk) {slice : Bytes}
    (h : slice ∈ slices chunk data) : slice ≠ [] := by
  obtain ⟨i, hi, rfl⟩ := List.mem_map.1 h
  rw [List.mem_range] at hi
  have hlt : i * chunk < data.length := by
    have hdiv := Nat.div_add_mod (data.length + chunk - 1) chunk
    have hle : chunk * (i + 1) ≤ chunk * ((data.length + chunk - 1) / chunk) :=
      Nat.mul_le_mul_left _ (by omega)
    rw [Nat.mul_add, Nat.mul_one, Nat.mul_comm] at hle
    omega
  intro hnil
  have hlen := congrArg List.length hnil
  rw [List.length_take, List.length_drop, List.length_nil] at hlen
  omega

/-- The pump ends well at the event behind a piece. -/
theorem pumpFrom_done (exitError : SidecarError) (rounds : ℕ) :
    pumpFrom id exitError (rounds + 1) [.control (doneEvent seconds)] = ([], .ok ()) := rfl

theorem pumpJob_picture (exitError : SidecarError) (data : Bytes) :
    pumpJob id exitError ((Finished.picture data).frames seconds) =
      ([.result data "png"], .ok ()) := rfl

/-- The bytes a song announces are read from its slices. -/
theorem resultBytes_song (hpos : data ≠ []) (hmax : data.length ≤ maxResultBytes)
    {payloads : List Bytes} (hdata : payloads.flatten = data)
    (hne : ∀ payload ∈ payloads, payload ≠ []) (object : ControlObject)
    (hfield : intField object "bytes" = some (data.length : ℤ)) (rest : List JobFrame) :
    resultBytes id object (payloads.map Frame.binary ++ rest) = (.ok data, rest) := by
  have hlength := List.length_pos_of_ne_nil hpos
  have hread := readResult_slices id rest payloads [] data.length (by simp [hdata]) hne
  have hrange : (decide (1 ≤ (data.length : ℤ) ∧ (data.length : ℤ) ≤ (maxResultBytes : ℤ))) =
      true := by
    rw [decide_eq_true_eq]
    omega
  rw [resultBytes, hfield, Option.filter_some, hrange]
  simp only [if_true, Int.toNat_natCast, hread, hdata, List.nil_append]

theorem pumpFrom_song (exitError : SidecarError) (hpos : data ≠ [])
    (hmax : data.length ≤ maxResultBytes) (format : AudioFormat) (sampleRate channels : ℤ)
    (length seconds : ℚ) {payloads : List Bytes} (hdata : payloads.flatten = data)
    (hne : ∀ payload ∈ payloads, payload ≠ []) (rounds : ℕ) :
    pumpFrom id exitError (rounds + 2)
        (.control (Finished.song data format sampleRate channels length).announcement ::
          (payloads.map Frame.binary ++ [Frame.control (doneEvent seconds)])) =
      ([.result data format.name], .ok ()) := by
  have hbytes := resultBytes_song id hpos hmax hdata hne
    (Finished.song data format sampleRate channels length).announcement.asObject rfl
    [.control (doneEvent seconds)]
  have hevent : controlEvent (Finished.song data format sampleRate channels length).announcement =
      some "result" := rfl
  have hformat : stringField (Finished.song data format sampleRate channels length
      ).announcement.asObject "format" = format.name := rfl
  have hname : format.name.isEmpty = false := by cases format <;> rfl
  rw [pumpFrom, hevent]
  simp only [hbytes, pumpFrom_done, hformat, hname, Bool.false_eq_true, if_false, Pumped.after]

theorem length_frames (piece : Finished) (seconds : ℚ) :
    (piece.frames seconds).length = piece.payloads.length + 2 := by
  simp [Finished.frames]

theorem pumpJob_song (exitError : SidecarError) (hpos : data ≠ [])
    (hmax : data.length ≤ maxResultBytes) (format : AudioFormat) (sampleRate channels : ℤ)
    (length : ℚ) :
    pumpJob id exitError ((Finished.song data format sampleRate channels length).frames seconds) =
      ([.result data format.name], .ok ()) := by
  have hchunk : 0 < resultChunk := by decide
  have hdata := flatten_slices hchunk data
  have hne : ∀ slice ∈ slices resultChunk data, slice ≠ [] :=
    fun slice hslice => ne_nil_of_mem_slices hchunk hslice
  rw [pumpJob, length_frames, Finished.frames, List.cons_append, Nat.add_right_comm]
  simp only [Finished.payloads]
  generalize slices resultChunk data = payloads at hdata hne ⊢
  exact pumpFrom_song id exitError hpos hmax format sampleRate channels length seconds hdata hne _

/-! ## A frame that is too large -/

section Oversized

variable {json : Json JsonValue} {frame : JobFrame} {big part : Bytes} {n : ℕ}

/-- The loop waits for the length of a frame that is too large, and refuses it. -/
theorem scan_oversized (json : Json JsonValue) (hdeclared : declaredLength big = some n)
    (hlarge : maxFrameBytes < n) (hpart : part <+: big) (before : Bytes) (acc : List JobFrame) :
    Decoder.scan json (before ++ part) before.length acc =
      if part.length < 4 then (⟨part⟩, .ok acc) else (⟨part⟩, .error (.oversizedFrame n)) := by
  rw [Decoder.scan]
  simp only [List.drop_left]
  by_cases hshort : part.length < 4
  · rw [declaredLength_of_length_lt hshort, if_pos hshort]
  · rw [declaredLength_append hpart (by omega), hdeclared, if_neg hshort]
    simp only
    rw [if_pos (by omega)]

/-- Nothing is received of a frame that is too large. -/
theorem received_oversized_rest (hdeclared : declaredLength big = some n)
    (hlarge : maxFrameBytes < n) : ∀ (chunks : List Bytes) (part : Bytes),
    part.length < 4 → part ++ chunks.flatten <+: big → received json ⟨part⟩ chunks = [] := by
  intro chunks
  induction chunks with
  | nil => intros; rfl
  | cons chunk chunks ih =>
    intro part hshort hcut
    rw [List.flatten_cons, ← List.append_assoc] at hcut
    have hscan := scan_oversized json hdeclared hlarge ((List.prefix_append _ _).trans hcut) [] []
    rw [received, Decoder.append]
    simp only [List.nil_append, List.length_nil] at hscan
    rw [hscan]
    by_cases hnow : (part ++ chunk).length < 4
    · rw [if_pos hnow]
      simp only [List.nil_append]
      exact ih _ hnow hcut
    · rw [if_neg hnow]

/-- Of a frame and one behind it that is too large, the first is received at most. -/
theorem received_oversized (hframe : Carried json frame)
    (hdeclared : declaredLength big = some n) (hlarge : maxFrameBytes < n) :
    ∀ (chunks : List Bytes) (part : Bytes), Lists.Leftover (wire json) part [frame] →
      part ++ chunks.flatten <+: wire json frame ++ big →
      received json ⟨part⟩ chunks = [] ∨ received json ⟨part⟩ chunks = [frame] := by
  intro chunks
  induction chunks with
  | nil => exact fun _ _ _ => .inl rfl
  | cons chunk chunks ih =>
    intro part hpart hcut
    rw [List.flatten_cons, ← List.append_assoc] at hcut
    have hnow : part ++ chunk <+: wire json frame ++ big :=
      (List.prefix_append _ _).trans hcut
    rw [received, Decoder.append]
    by_cases hshort : (part ++ chunk).length < (wire json frame).length
    · have hleft : Lists.Leftover (wire json) (part ++ chunk) [frame] :=
        ⟨List.prefix_of_prefix_length_le hnow (List.prefix_append _ _) hshort.le, hshort⟩
      have hscan := Decoder.scan_leftover (by simpa using hframe) hleft [] []
      simp only [List.nil_append, List.length_nil] at hscan
      rw [hscan]
      exact ih _ hleft hcut
    · obtain ⟨rest, hrest⟩ : wire json frame <+: part ++ chunk :=
        List.prefix_of_prefix_length_le (List.prefix_append _ _) hnow (by omega)
      rw [← hrest] at hnow hcut
      have hbig : rest <+: big := (List.prefix_append_right_inj _).1 hnow
      have hscan := scan_oversized json hdeclared hlarge hbig (wire json frame) [frame]
      have hfirst := Decoder.scan_frame hframe [] rest []
      simp only [List.nil_append, List.length_nil] at hfirst
      rw [← hrest, hfirst, hscan]
      by_cases hsmall : rest.length < 4
      · have hbehind : rest ++ chunks.flatten <+: big := by
          rw [List.append_assoc] at hcut
          exact (List.prefix_append_right_inj _).1 hcut
        rw [if_pos hsmall]
        simp only
        rw [received_oversized_rest hdeclared hlarge chunks rest hsmall hbehind]
        exact .inr rfl
      · rw [if_neg hsmall]
        exact .inl rfl

end Oversized

/-! ## Every size -/

/-- The pump sends one `Result`, with the bytes and the format of the piece. -/
def ArrivesWhole (w : Wire) (piece : Finished) (id : String) (exitError : SidecarError)
    (chunks : List Bytes) : Prop :=
  (pumpJob id exitError (received w.json {} chunks)).results = [(piece.data, piece.format)]

/-- Each payload of the piece fits in a frame. -/
def Finished.Fits (piece : Finished) : Prop :=
  ∀ payload ∈ piece.payloads, payload.length + 1 ≤ maxFrameBytes

theorem song_fits (data : Bytes) (format : AudioFormat) (sampleRate channels : ℤ) (length : ℚ) :
    (Finished.song data format sampleRate channels length).Fits := by
  intro payload hpayload
  have hle := length_le_of_mem_slices hpayload
  have hroom : resultChunk + 1 ≤ maxFrameBytes := by decide
  omega

theorem picture_fits_iff (data : Bytes) :
    (Finished.picture data).Fits ↔ data.length + 1 ≤ maxFrameBytes := by
  simp [Finished.Fits, Finished.payloads]

/-- A piece whose payloads fit arrives. -/
theorem arrivesWhole_of_fits (hpos : piece.data ≠ []) (hmax : piece.data.length ≤ maxResultBytes)
    (hannounce : w.Reads piece.announcement) (hdone : w.Reads (doneEvent seconds))
    (hcut : chunks.flatten = (piece.writes w seconds).flatten) (hfits : piece.Fits)
    (id : String) (exitError : SidecarError) : ArrivesWhole w piece id exitError chunks := by
  rw [ArrivesWhole, received_frames hannounce hdone hfits hcut]
  cases piece with
  | song data format sampleRate channels length =>
    simp only [Finished.data] at hpos hmax
    rw [pumpJob_song id exitError hpos hmax]
    rfl
  | picture data =>
    rw [pumpJob_picture]
    rfl

/-- Of a picture that is too large for a frame, the pump sends nothing. -/
theorem results_oversized_picture (hlarge : maxFrameBytes < data.length + 1)
    (hmax : data.length ≤ maxResultBytes) (hannounce : w.Reads (Finished.picture data).announcement)
    (hcut : chunks.flatten = ((Finished.picture data).writes w seconds).flatten) (id : String)
    (exitError : SidecarError) :
    (pumpJob id exitError (received w.json {} chunks)).results = [] := by
  obtain ⟨hcarried, hwire⟩ := hannounce.carried
  have hsize : (UInt32.ofNat (data.length + 1)).toNat = data.length + 1 := by
    rw [UInt32.toNat_ofNat']
    refine Nat.mod_eq_of_lt (lt_of_le_of_lt (Nat.succ_le_succ hmax) ?_)
    decide
  have hdeclared : declaredLength (send 2 data ++ sendJson w (doneEvent seconds)) =
      some (data.length + 1) := by
    rw [send, List.append_assoc, declaredLength_toLeBytes, hsize]
  have hbytes : [] ++ chunks.flatten <+:
      wire w.json (.control (Finished.picture data).announcement) ++
        (send 2 data ++ sendJson w (doneEvent seconds)) := by
    rw [List.nil_append, hcut, hwire]
    simp [Finished.writes, Finished.payloads]
  have hfirst := received_oversized hcarried hdeclared hlarge chunks []
    (leftover_nil (by simpa using hcarried)) hbytes
  -- the announcement alone is an image without its bytes
  rcases hfirst with hnone | hone
  · show (pumpJob id exitError (received w.json ⟨[]⟩ chunks)).results = []
    rw [hnone]
    rfl
  · show (pumpJob id exitError (received w.json ⟨[]⟩ chunks)).results = []
    rw [hone]
    rfl

/-- However the writes of a finished piece of up to `maxResultBytes` bytes are cut, the pump sends
one `Result` with its bytes and format exactly when it is a song, or a picture that leaves room
for the tag in a frame. -/
theorem finished_piece_arrives_iff (w : Wire) (piece : Finished) (seconds : ℚ)
    (hpos : 1 ≤ piece.data.length) (hmax : piece.data.length ≤ maxResultBytes)
    (hannounce : w.Reads piece.announcement) (hdone : w.Reads (doneEvent seconds))
    (chunks : List Bytes) (hcut : chunks.flatten = (piece.writes w seconds).flatten)
    (id : String) (exitError : SidecarError) :
    ArrivesWhole w piece id exitError chunks ↔
      ∀ data, piece = .picture data → data.length + 1 ≤ maxFrameBytes := by
  constructor
  · rintro harrives data rfl
    by_contra hlarge
    rw [ArrivesWhole, results_oversized_picture (Nat.lt_of_not_le hlarge) hmax hannounce hcut]
      at harrives
    cases harrives
  · intro hroom
    have hfits : piece.Fits := by
      cases piece with
      | song data format sampleRate channels length => exact song_fits _ _ _ _ _
      | picture data => exact (picture_fits_iff data).2 (hroom data rfl)
    exact arrivesWhole_of_fits (List.ne_nil_of_length_pos hpos) hmax hannounce hdone hcut hfits
      id exitError

end

def asciiBytes (text : String) : Bytes := text.toList.map fun c => UInt8.ofNat c.toNat

def imageText : Bytes :=
  asciiBytes "\x7b\"event\": \"image\", \"format\": \"png\", \"index\": 0, \"count\": 1\x7d"

def doneText : Bytes := asciiBytes "\x7b\"event\": \"done\", \"seconds\": 2.0\x7d"

/-- The two events of a picture that took two seconds, as the runtime writes them. -/
def pictureWire : Wire where
  dumps value := if controlEvent value = some "image" then imageText else doneText
  fromSlice bytes :=
    if bytes = imageText then some (Finished.picture []).announcement
    else if bytes = doneText then some (doneEvent 2)
    else none

/-- The two texts differ, and are small. -/
theorem pictureTexts : doneText ≠ imageText ∧ imageText.length + 1 ≤ maxFrameBytes ∧
    doneText.length + 1 ≤ maxFrameBytes := by
  unfold doneText imageText asciiBytes
  -- character lists evaluate faster than string literals
  repeat rw [String.toList_ofList]
  decide +kernel

theorem pictureWire_reads_image (data : Bytes) :
    pictureWire.Reads (Finished.picture data).announcement :=
  ⟨rfl, pictureTexts.2.1⟩

theorem pictureWire_reads_done : pictureWire.Reads (doneEvent 2) := by
  have hdumps : pictureWire.dumps (doneEvent 2) = doneText := by decide +kernel
  refine ⟨?_, ?_⟩
  · rw [hdumps]
    simp [pictureWire, pictureTexts.1]
  · rw [hdumps]
    exact pictureTexts.2.2

/-- A picture of three bytes, cut behind the tag of its bytes. -/
theorem small_picture_arrives :
    ArrivesWhole pictureWire (.picture [137, 80, 78]) "python-diffusers" .cancelled
      [sendJson pictureWire (Finished.picture []).announcement ++ [4, 0, 0, 0, 2],
        [137, 80, 78] ++ sendJson pictureWire (doneEvent 2)] := by
  have hcut : ([sendJson pictureWire (Finished.picture []).announcement ++ [4, 0, 0, 0, 2],
      [137, 80, 78] ++ sendJson pictureWire (doneEvent 2)] : List Bytes).flatten =
      ((Finished.picture [137, 80, 78]).writes pictureWire 2).flatten := by
    unfold pictureWire doneText imageText asciiBytes
    repeat rw [String.toList_ofList]
    decide +kernel
  refine (finished_piece_arrives_iff pictureWire (.picture [137, 80, 78]) 2 (by decide) (by decide)
    (pictureWire_reads_image _) pictureWire_reads_done _ hcut _ _).2 ?_
  rintro data ⟨⟩
  decide

/-- A picture of 16 MiB is a killed runtime. -/
theorem large_picture_is_lost : ∃ data : Bytes, 1 ≤ data.length ∧ data.length ≤ maxResultBytes ∧
    ¬ ArrivesWhole pictureWire (.picture data) "python-diffusers" .cancelled
      ((Finished.picture data).writes pictureWire 2) := by
  have hmax : maxFrameBytes ≤ maxResultBytes := by decide
  have hone : 1 ≤ maxFrameBytes := by decide
  refine ⟨List.replicate maxFrameBytes 0, ?_, ?_, fun harrives => ?_⟩
  · rw [List.length_replicate]
    exact hone
  · rw [List.length_replicate]
    exact hmax
  · have hlarge : maxFrameBytes < (List.replicate maxFrameBytes (0 : UInt8)).length + 1 := by
      rw [List.length_replicate]
      exact Nat.lt_succ_self _
    rw [ArrivesWhole, results_oversized_picture hlarge (by rw [List.length_replicate]; exact hmax)
      (pictureWire_reads_image _) rfl] at harrives
    cases harrives

end Hedos.Sidecar
