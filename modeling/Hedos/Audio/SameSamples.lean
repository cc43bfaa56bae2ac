import Hedos.Audio.Wav
import Mathlib.Tactic.Ring

/-!
# The two decoders of WAV files read alike

* a file is a list of chunks (`Chunk`, `wavOf`), and each walk takes one chunk off its front at a
  time (`walkPcm_chunk`, `walkTranscribed_chunk`);
* a frame of the data chunk is the samples of its channels (`frames`), and both ways to average
  them go frame by frame (`mix_eq`, `decoded_eq`);
* so the two agree on every file with more than a header (`wav_decoders_agree`).
-/

namespace Hedos.Audio

open Function

open Hedos.Sidecar (toLeBytes fromLeBytes fromLeBytes_shifts)

/-! ## Files -/

/-- A chunk as a file can have it. -/
structure Chunk where
  id : Bytes
  body : Bytes
  /-- The byte behind a body of odd length. -/
  pad : UInt8
  four : id.length = 4
  sized : body.length < 2 ^ 32

namespace Chunk

/-- The chunk as it stands in a file. -/
def bytes (chunk : Chunk) : Bytes :=
  chunk.id ++ (toLeBytes (UInt32.ofNat chunk.body.length) ++
    (chunk.body ++ if chunk.body.length % 2 = 1 then [chunk.pad] else []))

abbrev IsFormat (chunk : Chunk) : Prop := chunk.id = ascii "fmt " ∧ 16 ≤ chunk.body.length

abbrev IsData (chunk : Chunk) : Prop := chunk.id = ascii "data"

def rate (chunk : Chunk) : UInt32 := readU32 chunk.body 4

def channels (chunk : Chunk) : ℕ := (readU16 chunk.body 2).toNat

/-- The bytes of a sample. -/
def width (chunk : Chunk) : ℕ := if readU16 chunk.body 14 = 16 then 2 else 4

end Chunk

/-- A file of these chunks, whatever size it states. -/
def wavOf (riffSize : UInt32) (chunks : List Chunk) : Bytes :=
  ascii "RIFF" ++ (toLeBytes riffSize ++ (ascii "WAVE" ++ chunks.flatMap Chunk.bytes))

/-- One format chunk, and one data chunk somewhere behind it. -/
def OneOfEach (chunks : List Chunk) (format data : Chunk) : Prop :=
  ∃ before between behind, chunks = before ++ format :: (between ++ data :: behind) ∧
    format.IsFormat ∧ data.IsData ∧
    ∀ chunk ∈ before ++ (between ++ behind), ¬ chunk.IsFormat ∧ ¬ chunk.IsData

/-- Integers of 16 bits or floats of 32, in at least one channel, at a rate that is accepted. -/
structure Supported (format : Chunk) : Prop where
  encoding : (readU16 format.body 0 = 1 ∧ readU16 format.body 14 = 16) ∨
    (readU16 format.body 0 = 3 ∧ readU16 format.body 14 = 32)
  channels : 0 < format.channels
  positive : 0 < format.rate
  accepted : format.rate ≤ maxSampleRate

/-- The frames of a data chunk, each the bytes of the samples of its channels. -/
def frames (data : Bytes) (width channels : ℕ) : List (List Bytes) :=
  (List.range (data.length / (width * channels))).map fun frame =>
    (List.range channels).map fun channel =>
      (data.drop (frame * (width * channels) + channel * width)).take width

/-- Both decoders take the file at the same rate, and read sample `k` off the `k`-th frame. -/
def ReadAlike (wav : Bytes) (frames : List (List Bytes)) (rate : UInt32) : Prop :=
  ∃ pcm audio, pcmFromWav wav = some (pcm, rate) ∧ fromWavData wav = .ok audio ∧
    audio.sampleRate = rate.toNat ∧ pcm.length / 4 = frames.length ∧
    audio.samples.length = frames.length ∧
    ∃ own theirs : List Bytes → Float32,
      pcm = (frames.map own).flatMap floatBytes ∧ audio.samples = frames.map theirs

/-! ## Samples -/

section

variable {width channels : ℕ}

/-- How `mix` averages the samples of a frame. -/
def mixedFrame (channels : ℕ) (decode : Bytes → Float32) (slices : List Bytes) : Float32 :=
  slices.foldl (fun sum slice => sum + decode slice) 0 / channels.toFloat32

/-- How `downmixed` does. -/
def downmixedFrame (channels : ℕ) (decode : Bytes → Float32) (slices : List Bytes) : Float32 :=
  if channels ≤ 1 then decode (slices.headD [])
  else (slices.map decode).foldl (· + ·) 0 / channels.toFloat32

variable (decode : Bytes → Float32)

/-- The loop takes one frame at a time. -/
theorem mixFrom_eq (hframe : 0 < width * channels) (data : Bytes) :
    mixFrom width channels decode data =
      (frames data width channels).map (mixedFrame channels decode) := by
  -- by the length of what is left: each turn of the loop takes a frame off it
  induction hlength : data.length using Nat.strong_induction_on generalizing data with
  | _ n ih =>
    rw [mixFrom]
    by_cases hle : width * channels ≤ data.length
    · have hshorter : (data.drop (width * channels)).length < n := by
        rw [List.length_drop]
        omega
      have hcount : data.length / (width * channels) =
          (data.drop (width * channels)).length / (width * channels) + 1 := by
        rw [List.length_drop, Nat.div_eq_sub_div hframe hle]
      rw [if_pos ⟨hframe, hle⟩, ih _ hshorter _ rfl, frames, frames, hcount,
        List.range_succ_eq_map, List.map_cons, List.map_cons, List.map_map, List.map_map,
        List.map_map, mixedFrame, List.foldl_map]
      refine congrArg₂ List.cons ?_ (List.map_congr_left fun frame _ => ?_)
      · simp only [Nat.zero_mul, Nat.zero_add]
      · refine congrArg (mixedFrame channels decode) (List.map_congr_left fun channel _ => ?_)
        rw [List.drop_drop, Nat.succ_mul]
        congr 2
        omega
    · rw [if_neg fun h => hle h.2, frames, Nat.div_eq_of_lt (not_le.1 hle)]
      rfl

theorem mix_eq (hwidth : 0 < width) (hchannels : 0 < channels) (data : Bytes) :
    mix data width channels decode =
      (frames data width channels).map (mixedFrame channels decode) := by
  have hframe : 0 < width * channels := Nat.mul_pos hwidth hchannels
  rw [mix, if_neg hframe.ne', mixFrom_eq decode hframe]

/-- A decoded piece is found by its index. -/
theorem asChunks_getD {i : ℕ} {data : Bytes} (hi : i < data.length / width) :
    ((asChunks width data).map decode).getD i 0 = decode ((data.drop (i * width)).take width) := by
  rw [asChunks, List.map_map, List.getD_eq_getElem?_getD, List.getElem?_map, List.getElem?_range hi]
  rfl

theorem downmixed_eq (hchannels : 0 < channels) (data : Bytes) :
    downmixed ((asChunks width data).map decode) channels =
      (frames data width channels).map (downmixedFrame channels decode) := by
  have hlength : ((asChunks width data).map decode).length = data.length / width := by
    rw [List.length_map, asChunks, List.length_map, List.length_range]
  unfold downmixed
  by_cases hone : channels ≤ 1
  · have hsingle : channels = 1 := by omega
    subst hsingle
    rw [if_pos le_rfl, asChunks, frames, List.map_map, List.map_map, Nat.mul_one]
    refine List.map_congr_left fun frame _ => ?_
    rw [comp_apply, comp_apply, downmixedFrame, if_pos le_rfl]
    simp only [List.range_one, List.map_cons, List.headD_cons, Nat.zero_mul, Nat.add_zero]
  · rw [if_neg hone, hlength, Nat.div_div_eq_div_mul, frames, List.map_map]
    refine List.map_congr_left fun frame hframe => ?_
    rw [comp_apply, downmixedFrame, if_neg hone, List.map_map]
    refine congrArg (fun samples => List.foldl (· + ·) 0 samples / channels.toFloat32) ?_
    refine List.map_congr_left fun channel hchannel => ?_
    have hlt : frame * channels + channel < data.length / width := by
      have hframe' := List.mem_range.1 hframe
      have hchannel' := List.mem_range.1 hchannel
      rw [← Nat.div_div_eq_div_mul] at hframe'
      calc frame * channels + channel < frame * channels + channels := by omega
        _ = (frame + 1) * channels := (Nat.succ_mul frame channels).symm
        _ ≤ data.length / width / channels * channels := Nat.mul_le_mul_right _ hframe'
        _ ≤ data.length / width := Nat.div_mul_le_self _ _
    have hoffset : (frame * channels + channel) * width =
        frame * (width * channels) + channel * width := by ring
    rw [asChunks_getD decode hlt, comp_apply, hoffset]

end

/-! ## Chunk by chunk -/

section

variable {chunk : Chunk} {more : Bytes} {header : WavHeader} {found : Option WavFormat}

/-- What a walk reads at the front of a chunk. -/
structure Front (rest : Bytes) (chunk : Chunk) (more : Bytes) : Prop where
  id : rest.take 4 = chunk.id
  size : (readU32 rest 4).toNat = chunk.body.length
  whole : 8 + chunk.body.length ≤ rest.length
  body : (rest.drop 8).take chunk.body.length = chunk.body
  next : rest.drop (8 + chunk.body.length + chunk.body.length % 2) = more

theorem readU32_toLeBytes (a b c d : UInt8) (n : UInt32) (rest : Bytes) :
    readU32 ([a, b, c, d] ++ (toLeBytes n ++ rest)) 4 = n := fromLeBytes_shifts n

/-- A file that begins with a chunk is read as one. -/
theorem Chunk.front (chunk : Chunk) (more : Bytes) : Front (chunk.bytes ++ more) chunk more := by
  obtain ⟨a, b, c, d, hid⟩ : ∃ a b c d, chunk.id = [a, b, c, d] :=
    List.length_eq_four.1 chunk.four
  have hsized := chunk.sized
  generalize hpad : (if chunk.body.length % 2 = 1 then [chunk.pad] else []) = pad
  have hpadding : pad.length = chunk.body.length % 2 := by
    rw [← hpad]
    split <;> simp only [List.length_cons, List.length_nil] <;> omega
  have hrest : chunk.bytes ++ more = chunk.id ++
      (toLeBytes (UInt32.ofNat chunk.body.length) ++ (chunk.body ++ (pad ++ more))) := by
    rw [Chunk.bytes, hpad]
    simp only [List.append_assoc]
  rw [hrest, hid]
  constructor
  · exact hid.symm
  · rw [readU32_toLeBytes, UInt32.toNat_ofNat']
    exact Nat.mod_eq_of_lt hsized
  · simp only [List.length_append, List.length_cons, List.length_nil, toLeBytes]
    omega
  · show (chunk.body ++ (pad ++ more)).take chunk.body.length = chunk.body
    rw [List.take_left]
  · rw [Nat.add_assoc, ← List.drop_drop]
    show (chunk.body ++ (pad ++ more)).drop (chunk.body.length + chunk.body.length % 2) = more
    rw [← List.append_assoc, ← hpadding, ← List.length_append, List.drop_left]

/-- Each walk takes a chunk off the front. -/
theorem walkPcm_chunk :
    walkPcm (chunk.bytes ++ more) header = walkPcm more (header.read chunk.id chunk.body) := by
  have hfront := chunk.front more
  have hwhole := hfront.whole
  rw [walkPcm, if_neg (by omega)]
  dsimp only
  rw [hfront.size, if_neg (by omega), hfront.next, hfront.id, hfront.body]

theorem walkPcm_chunks (chunks : List Chunk) :
    walkPcm (chunks.flatMap Chunk.bytes) header =
      chunks.foldl (fun header chunk => header.read chunk.id chunk.body) header := by
  induction chunks generalizing header with
  | nil =>
    rw [List.flatMap_nil, walkPcm]
    rfl
  | cons chunk chunks ih => rw [List.flatMap_cons, walkPcm_chunk, ih, List.foldl_cons]

/-- A chunk of another kind changes nothing. -/
theorem read_other (h : ¬ chunk.IsFormat ∧ ¬ chunk.IsData) :
    header.read chunk.id chunk.body = header := by
  unfold WavHeader.read
  rw [if_neg h.1, if_neg h.2]

theorem foldl_others {chunks : List Chunk}
    (h : ∀ chunk ∈ chunks, ¬ chunk.IsFormat ∧ ¬ chunk.IsData) :
    chunks.foldl (fun header chunk => header.read chunk.id chunk.body) header = header := by
  induction chunks with
  | nil => rfl
  | cons chunk chunks ih =>
    rw [List.foldl_cons, read_other (h chunk (.head _))]
    exact ih fun other hother => h other (.tail _ hother)

/-- Up to the samples only the format is kept. -/
theorem walkTranscribed_chunk (hdata : ¬ chunk.IsData) :
    walkTranscribed (chunk.bytes ++ more) found =
      walkTranscribed more (if chunk.IsFormat then some (.read chunk.body) else found) := by
  have hfront := chunk.front more
  have hwhole := hfront.whole
  rw [walkTranscribed, if_neg (by omega)]
  dsimp only
  rw [hfront.size, if_neg (by omega), hfront.id, if_neg hdata, hfront.next, hfront.body]

theorem walkTranscribed_others {chunks : List Chunk}
    (h : ∀ chunk ∈ chunks, ¬ chunk.IsFormat ∧ ¬ chunk.IsData) :
    walkTranscribed (chunks.flatMap Chunk.bytes ++ more) found = walkTranscribed more found := by
  induction chunks with
  | nil => rfl
  | cons chunk chunks ih =>
    have hchunk := h chunk (.head _)
    rw [List.flatMap_cons, List.append_assoc, walkTranscribed_chunk hchunk.2, if_neg hchunk.1]
    exact ih fun other hother => h other (.tail _ hother)

/-- The chunk with the samples ends the walk. -/
theorem walkTranscribed_data (hdata : chunk.IsData) :
    walkTranscribed (chunk.bytes ++ more) found = readData found chunk.body := by
  have hfront := chunk.front more
  have hwhole := hfront.whole
  rw [walkTranscribed, if_neg (by omega)]
  dsimp only
  rw [hfront.size, if_neg (by omega), hfront.id, if_pos hdata, hfront.body]

end

/-! ## File by file -/

theorem Chunk.IsFormat.not_isData {chunk : Chunk} (h : chunk.IsFormat) : ¬ chunk.IsData := by
  rw [IsData, h.1]
  decide

theorem Chunk.IsData.not_isFormat {chunk : Chunk} (h : chunk.IsData) : ¬ chunk.IsFormat :=
  fun hformat => hformat.not_isData h

/-- How samples of 16 bits or floats are decoded for what is played. -/
def playedSample (format : Chunk) : Bytes → Float32 :=
  if readU16 format.body 14 = 16 then decodeInt16 else floatFromBytes

/-- How they are decoded for what is transcribed. -/
def transcribedSample (format : Chunk) : Bytes → Float32 :=
  if readU16 format.body 14 = 16 then fun bytes => (readU16 bytes 0).toInt16.toFloat32 / 32767
  else floatFromBytes

section

variable {chunks : List Chunk} {format data : Chunk}

/-- Of a file with one chunk of each kind, both are found. -/
theorem walkPcm_file (hone : OneOfEach chunks format data) :
    walkPcm (chunks.flatMap Chunk.bytes) {} =
      { format := readU16 format.body 0
        channels := readU16 format.body 2
        sampleRate := readU32 format.body 4
        bits := readU16 format.body 14
        samples := some data.body } := by
  obtain ⟨before, between, behind, rfl, hformat, hdata, hothers⟩ := hone
  have hbefore := fun chunk (h : chunk ∈ before) => hothers chunk (List.mem_append_left _ h)
  have hbetween := fun chunk (h : chunk ∈ between) =>
    hothers chunk (List.mem_append_right _ (List.mem_append_left _ h))
  have hbehind := fun chunk (h : chunk ∈ behind) =>
    hothers chunk (List.mem_append_right _ (List.mem_append_right _ h))
  rw [walkPcm_chunks, List.foldl_append, foldl_others hbefore, List.foldl_cons, List.foldl_append,
    foldl_others hbetween, List.foldl_cons, foldl_others hbehind, WavHeader.read,
    if_neg hdata.not_isFormat, if_pos hdata, WavHeader.read, if_pos hformat]

theorem walkTranscribed_file (hone : OneOfEach chunks format data) :
    walkTranscribed (chunks.flatMap Chunk.bytes) none =
      readData (some (.read format.body)) data.body := by
  obtain ⟨before, between, behind, rfl, hformat, hdata, hothers⟩ := hone
  have hbefore := fun chunk (h : chunk ∈ before) => hothers chunk (List.mem_append_left _ h)
  have hbetween := fun chunk (h : chunk ∈ between) =>
    hothers chunk (List.mem_append_right _ (List.mem_append_left _ h))
  rw [List.flatMap_append, walkTranscribed_others hbefore, List.flatMap_cons,
    walkTranscribed_chunk hformat.not_isData, if_pos hformat, List.flatMap_append,
    walkTranscribed_others hbetween, List.flatMap_cons, walkTranscribed_data hdata]

theorem Supported.width_pos (_h : Supported format) : 0 < format.width := by
  unfold Chunk.width
  split <;> decide

/-- A supported format is mixed frame by frame. -/
theorem mixed_file (h : Supported format) (samples : Bytes) :
    WavHeader.mixed
        { format := readU16 format.body 0
          channels := readU16 format.body 2
          sampleRate := readU32 format.body 4
          bits := readU16 format.body 14
          samples := some samples } samples =
      some ((frames samples format.width format.channels).map
        (mixedFrame format.channels (playedSample format))) := by
  rw [← mix_eq (playedSample format) h.width_pos h.channels]
  unfold WavHeader.mixed
  dsimp only
  rcases h.encoding with ⟨hone, hbits⟩ | ⟨hthree, hbits⟩
  · rw [if_pos ⟨hone, hbits⟩, Chunk.width, playedSample, if_pos hbits, if_pos hbits]
    rfl
  · have hnot : readU16 format.body 14 ≠ 16 := by
      rw [hbits]
      decide
    rw [if_neg fun hint => hnot hint.2, if_pos ⟨hthree, hbits⟩, Chunk.width, playedSample,
      if_neg hnot, if_neg hnot]
    rfl

/-- A supported format is transcribed frame by frame. -/
theorem readData_file (h : Supported format) (samples : Bytes) :
    readData (some (.read format.body)) samples =
      .ok ⟨(frames samples format.width format.channels).map
        (downmixedFrame format.channels (transcribedSample format)), format.rate.toNat⟩ := by
  have hpositive : (0 : ℤ) < (format.rate.toNat : ℤ) := by
    have hrate := UInt32.lt_iff_toNat_lt.1 h.positive
    exact_mod_cast hrate
  have hkept : (some (WavFormat.read format.body)).filter (fun format =>
      0 < format.channels && 0 < format.sampleRate) = some (.read format.body) := by
    apply Option.filter_some_pos
    rw [Bool.and_eq_true, decide_eq_true_eq, decide_eq_true_eq]
    exact ⟨h.channels, hpositive⟩
  rw [readData, hkept, ← downmixed_eq _ h.channels]
  dsimp only
  unfold decodeSamples
  rcases h.encoding with ⟨hone, hbits⟩ | ⟨hthree, hbits⟩
  · have hsixteen : (WavFormat.read format.body).bitsPerSample = 16 := congrArg UInt16.toNat hbits
    rw [if_pos ⟨hone, hsixteen⟩, Chunk.width, transcribedSample, if_pos hbits, if_pos hbits]
    rfl
  · have hthirty : (WavFormat.read format.body).bitsPerSample = 32 := congrArg UInt16.toNat hbits
    have hnot : readU16 format.body 14 ≠ 16 := by
      rw [hbits]
      decide
    rw [if_neg (by rw [hthirty]; simp), if_pos ⟨hthree, hthirty⟩, Chunk.width, transcribedSample,
      if_neg hnot, if_neg hnot]
    rfl

theorem length_flatMap_floatBytes (floats : List Float32) :
    (floats.flatMap floatBytes).length = floats.length * 4 := by
  induction floats with
  | nil => rfl
  | cons x floats ih =>
    rw [List.flatMap_cons, List.length_append, ih, List.length_cons]
    simp only [floatBytes, toLeBytes, List.length_cons, List.length_nil]
    omega

variable (riffSize : UInt32)

/-- What is transcribed of a file with one chunk of each kind. -/
theorem fromWavData_file (hone : OneOfEach chunks format data) (h : Supported format) :
    fromWavData (wavOf riffSize chunks) =
      .ok ⟨(frames data.body format.width format.channels).map
        (downmixedFrame format.channels (transcribedSample format)), format.rate.toNat⟩ := by
  have hlength : (wavOf riffSize chunks).length = 12 + (chunks.flatMap Chunk.bytes).length := by
    simp only [wavOf, List.length_append]
    show 4 + (4 + (4 + _)) = _
    omega
  rw [fromWavData, if_neg]
  · show walkTranscribed (chunks.flatMap Chunk.bytes) none = _
    rw [walkTranscribed_file hone, readData_file h]
  · rintro (hshort | hriff | hwave)
    · omega
    · exact hriff rfl
    · exact hwave rfl

/-- What is played of it. -/
theorem pcmFromWav_file (hone : OneOfEach chunks format data) (h : Supported format) :
    pcmFromWav (wavOf riffSize chunks) =
      if 44 < (wavOf riffSize chunks).length then
        some (((frames data.body format.width format.channels).map
          (mixedFrame format.channels (playedSample format))).flatMap floatBytes, format.rate)
      else none := by
  unfold pcmFromWav
  by_cases hlong : 44 < (wavOf riffSize chunks).length
  · rw [if_pos hlong, if_neg]
    · have hdrop : (wavOf riffSize chunks).drop 12 = chunks.flatMap Chunk.bytes := rfl
      rw [hdrop, walkPcm_file hone]
      dsimp only
      rw [Option.bind_some, if_neg, mixed_file h]
      · rfl
      · rintro (hzero | hlarge | hnone)
        · exact absurd hzero (UInt32.ne_of_lt h.positive).symm
        · exact absurd h.accepted (UInt32.not_le.2 hlarge)
        · have hchannels := h.channels
          rw [Chunk.channels, hnone] at hchannels
          exact absurd hchannels (by decide)
    · rintro (hshort | hriff | hwave)
      · omega
      · exact hriff rfl
      · exact hwave rfl
  · rw [if_neg hlong, if_pos (Or.inl (not_lt.1 hlong))]

/-- A file that has room for a header alone has no samples. -/
theorem data_eq_nil (hone : OneOfEach chunks format data)
    (hshort : ¬ 44 < (wavOf riffSize chunks).length) : data.body = [] := by
  obtain ⟨before, between, behind, rfl, hformat, hdata, hothers⟩ := hone
  have hsixteen := hformat.2
  have hfour := format.four
  have hfour' := data.four
  apply List.eq_nil_of_length_eq_zero
  simp only [wavOf, List.flatMap_append, List.flatMap_cons, List.length_append, Chunk.bytes,
    toLeBytes, List.length_cons, List.length_nil] at hshort
  have hriff : (ascii "RIFF").length = 4 := rfl
  have hwave : (ascii "WAVE").length = 4 := rfl
  omega

end

/-! ## Files that are written -/

section

variable (pcm : Bytes) (sampleRate : UInt32)

/-- The format that `wav_from_pcm` writes. -/
def formatChunk (sampleRate : UInt32) : Chunk where
  id := ascii "fmt "
  body := toLeBytes16 1 ++ toLeBytes16 1 ++ toLeBytes sampleRate ++
    toLeBytes (UInt32.ofNat (min (sampleRate.toNat * 2) u32Max)) ++ toLeBytes16 2 ++ toLeBytes16 16
  pad := 0
  four := rfl
  sized := by
    show 16 < 2 ^ 32
    norm_num

theorem length_formatChunk : (formatChunk sampleRate).body.length = 16 := rfl

/-- The samples that it writes. -/
def sampleBytes (pcm : Bytes) : Bytes :=
  (int16Samples pcm).flatMap fun sample => toLeBytes16 sample.toUInt16

theorem length_int16Samples : (int16Samples pcm).length = pcm.length / 4 := by
  rw [int16Samples, List.length_map, asChunks, List.length_map, List.length_range]

theorem length_sampleBytes : (sampleBytes pcm).length = pcm.length / 4 * 2 := by
  rw [← length_int16Samples, sampleBytes]
  induction int16Samples pcm with
  | nil => rfl
  | cons x samples ih =>
    rw [List.flatMap_cons, List.length_append, ih, List.length_cons]
    simp only [toLeBytes16, List.length_cons, List.length_nil]
    omega

/-- The chunk of the samples. -/
def dataChunk (hsize : pcm.length / 4 < 2 ^ 31) : Chunk where
  id := ascii "data"
  body := sampleBytes pcm
  pad := 0
  four := rfl
  sized := by
    rw [length_sampleBytes]
    omega

variable {pcm sampleRate}

/-- What is written is a file of these two chunks. -/
theorem wavFromPcm_eq (hsize : pcm.length / 4 < 2 ^ 31) :
    ∃ riffSize, wavFromPcm pcm sampleRate =
      wavOf riffSize [formatChunk sampleRate, dataChunk pcm hsize] := by
  have hcount := length_int16Samples pcm
  have hbody := length_sampleBytes pcm
  have hdata : min ((int16Samples pcm).length * 2) u32Max = (sampleBytes pcm).length := by
    rw [hcount, hbody, u32Max]
    omega
  have heven : (sampleBytes pcm).length % 2 = 0 := by omega
  refine ⟨UInt32.ofNat (min (36 + (sampleBytes pcm).length) u32Max), ?_⟩
  have hformat : (formatChunk sampleRate).bytes =
      ascii "fmt " ++ (toLeBytes 16 ++ (formatChunk sampleRate).body) := by
    rw [Chunk.bytes, length_formatChunk, if_neg (by norm_num), List.append_nil]
    rfl
  have hchunk : (dataChunk pcm hsize).bytes = ascii "data" ++
      (toLeBytes (UInt32.ofNat (sampleBytes pcm).length) ++ sampleBytes pcm) := by
    have hbody : (dataChunk pcm hsize).body = sampleBytes pcm := rfl
    rw [Chunk.bytes, hbody, heven, if_neg (by norm_num), List.append_nil]
    rfl
  unfold wavFromPcm wavOf
  dsimp only
  rw [hdata, List.flatMap_cons, List.flatMap_cons, List.flatMap_nil, hformat, hchunk, formatChunk]
  simp only [List.append_assoc, List.append_nil]
  rfl

theorem channels_formatChunk : (formatChunk sampleRate).channels = 1 := by
  have hone : readU16 (formatChunk sampleRate).body 2 = 1 := by
    show (1 : UInt8).toUInt16 ||| ((0 : UInt8).toUInt16 <<< 8) = 1
    decide
  rw [Chunk.channels, hone]
  rfl

theorem encoding_formatChunk : readU16 (formatChunk sampleRate).body 0 = 1 := by
  show (1 : UInt8).toUInt16 ||| ((0 : UInt8).toUInt16 <<< 8) = 1
  decide

theorem bits_formatChunk : readU16 (formatChunk sampleRate).body 14 = 16 := by
  show (16 : UInt8).toUInt16 ||| ((0 : UInt8).toUInt16 <<< 8) = 16
  decide

theorem width_formatChunk : (formatChunk sampleRate).width = 2 := by
  rw [Chunk.width, if_pos bits_formatChunk]

/-- What is written can be read, at a rate that is accepted. -/
theorem supported_formatChunk (hpositive : 0 < sampleRate)
    (haccepted : sampleRate ≤ maxSampleRate) : Supported (formatChunk sampleRate) := by
  have hrate : (formatChunk sampleRate).rate = sampleRate := fromLeBytes_shifts sampleRate
  refine ⟨.inl ⟨encoding_formatChunk, bits_formatChunk⟩, ?_, ?_, ?_⟩
  · rw [channels_formatChunk]
    exact Nat.one_pos
  · rwa [hrate]
  · rwa [hrate]

theorem oneOfEach_written (hsize : pcm.length / 4 < 2 ^ 31) :
    OneOfEach [formatChunk sampleRate, dataChunk pcm hsize] (formatChunk sampleRate)
      (dataChunk pcm hsize) := by
  refine ⟨[], [], [], rfl, ⟨rfl, ?_⟩, rfl, ?_⟩
  · show 16 ≤ 16
    exact le_rfl
  · intro chunk hchunk
    cases hchunk

end

/-! ## The law -/

/-- The two decoders read alike every file with more than a header, and what is written of any
sample; a header alone is refused by the one and has no samples for the other. -/
theorem wav_decoders_agree :
    (∀ riffSize chunks format data, OneOfEach chunks format data → Supported format →
      if 44 < (wavOf riffSize chunks).length then
        ReadAlike (wavOf riffSize chunks) (frames data.body format.width format.channels)
          format.rate
      else
        pcmFromWav (wavOf riffSize chunks) = none ∧
          fromWavData (wavOf riffSize chunks) = .ok ⟨[], format.rate.toNat⟩ ∧ data.body = []) ∧
    ∀ pcm sampleRate, 0 < pcm.length / 4 → pcm.length / 4 < 2 ^ 31 → 0 < sampleRate →
      sampleRate ≤ maxSampleRate →
      ∃ written, written.length = pcm.length / 4 ∧
        ReadAlike (wavFromPcm pcm sampleRate) written sampleRate := by
  have hlaw : ∀ riffSize chunks format data, OneOfEach chunks format data → Supported format →
      44 < (wavOf riffSize chunks).length →
      ReadAlike (wavOf riffSize chunks) (frames data.body format.width format.channels)
        format.rate := by
    intro riffSize chunks format data hone h hlong
    have hpcm := pcmFromWav_file riffSize hone h
    rw [if_pos hlong] at hpcm
    refine ⟨_, _, hpcm, fromWavData_file riffSize hone h, rfl, ?_, List.length_map _, _, _, rfl,
      rfl⟩
    rw [length_flatMap_floatBytes, List.length_map, Nat.mul_div_cancel _ (by norm_num)]
  constructor
  · intro riffSize chunks format data hone h
    split
    · rename_i hlong
      exact hlaw riffSize chunks format data hone h hlong
    · rename_i hshort
      have hnil := data_eq_nil riffSize hone hshort
      have hpcm := pcmFromWav_file riffSize hone h
      rw [if_neg hshort] at hpcm
      have haudio := fromWavData_file riffSize hone h
      have hframes : frames data.body format.width format.channels = [] := by
        rw [hnil, frames, List.length_nil, Nat.zero_div]
        rfl
      rw [hframes] at haudio
      exact ⟨hpcm, haudio, hnil⟩
  · intro pcm sampleRate hsome hsize hpositive haccepted
    obtain ⟨riffSize, hwritten⟩ := @wavFromPcm_eq pcm sampleRate hsize
    have hone := @oneOfEach_written pcm sampleRate hsize
    have h := supported_formatChunk hpositive haccepted
    have hrate : (formatChunk sampleRate).rate = sampleRate := fromLeBytes_shifts sampleRate
    have hlong : 44 < (wavOf riffSize [formatChunk sampleRate, dataChunk pcm hsize]).length := by
      by_contra hshort
      have hnil := data_eq_nil riffSize hone hshort
      have hlength := length_sampleBytes pcm
      rw [show sampleBytes pcm = [] from hnil, List.length_nil] at hlength
      omega
    have hread := hlaw riffSize _ _ _ hone h hlong
    rw [hrate, ← hwritten] at hread
    refine ⟨_, ?_, hread⟩
    rw [frames, List.length_map, List.length_range, width_formatChunk, channels_formatChunk]
    show (sampleBytes pcm).length / 2 = pcm.length / 4
    rw [length_sampleBytes, Nat.mul_div_cancel _ (by norm_num)]

def noSamples : Chunk := dataChunk [] (by norm_num)

/-- A header with no sample behind it is refused by one decoder and taken by the other. -/
theorem header_alone_refused :
    OneOfEach [formatChunk 8000, noSamples] (formatChunk 8000) noSamples ∧
      Supported (formatChunk 8000) ∧
      pcmFromWav (wavOf 36 [formatChunk 8000, noSamples]) = none ∧
      fromWavData (wavOf 36 [formatChunk 8000, noSamples]) = .ok ⟨[], 8000⟩ := by
  have hone : OneOfEach [formatChunk 8000, noSamples] (formatChunk 8000) noSamples :=
    oneOfEach_written _
  have h := @supported_formatChunk 8000 (by decide) (by decide)
  refine ⟨hone, h, ?_, ?_⟩
  · rw [pcmFromWav_file 36 hone h]
    rfl
  · rw [fromWavData_file 36 hone h]
    rfl

end Hedos.Audio
