import Hedos.Sidecar.FrameCodec

/-!
# WAV files

`wav_from_pcm` and `pcm_from_wav` of `src/runtime/src/audio.rs`, and the decoder of what is
transcribed, `TranscriptionAudio::from_wav_data` of `src/runtime/src/adapters/whisper/audio.rs`.

The two walks over the chunks are written over what is left of the file from the offset on. An
offset and a chunk's size are far below the end of a `usize`, so the checked sums of the source
are plain ones, and an index is only read where it is in bounds.
-/

namespace Hedos.Audio

open Hedos.Sidecar (toLeBytes fromLeBytes)

/-! ## Bytes -/

/-- A byte string literal. -/
def ascii (text : String) : Bytes := text.toList.map fun c => UInt8.ofNat c.toNat

/-- `u16::to_le_bytes`. -/
def toLeBytes16 (n : UInt16) : Bytes := [n.toUInt8, (n >>> 8).toUInt8]

/-- `u16::from_le_bytes` of the two bytes at the offset. -/
def readU16 (data : Bytes) (offset : ℕ) : UInt16 :=
  (data.getD offset 0).toUInt16 ||| ((data.getD (offset + 1) 0).toUInt16 <<< 8)

/-- `u32::from_le_bytes` of the four bytes at the offset. -/
def readU32 (data : Bytes) (offset : ℕ) : UInt32 :=
  fromLeBytes (data.getD offset 0) (data.getD (offset + 1) 0) (data.getD (offset + 2) 0)
    (data.getD (offset + 3) 0)

/-- The whole pieces of `n` bytes of `as_chunks`. -/
def asChunks (n : ℕ) (data : Bytes) : List Bytes :=
  (List.range (data.length / n)).map fun i => (data.drop (i * n)).take n

/-- `f32::to_le_bytes`. -/
def floatBytes (x : Float32) : Bytes := toLeBytes x.toBits

/-- `f32::from_le_bytes`. -/
def floatFromBytes (b : Bytes) : Float32 := Float32.ofBits (readU32 b 0)

/-! ## Writing -/

/-- The largest rate that is accepted when decoding. -/
def maxSampleRate : UInt32 := 4000000

def u32Max : ℕ := 2 ^ 32 - 1

/-- `f32::clamp`. -/
def clamp (x low high : Float32) : Float32 := if x < low then low else if x > high then high else x

/-- The floats of the stream as integers of 16 bits. -/
def int16Samples (pcm : Bytes) : List Int16 :=
  (asChunks 4 pcm).map fun chunk => (clamp (floatFromBytes chunk) (-1) 1 * 32767).toInt16

/-- A file of one channel of 16-bit samples. -/
def wavFromPcm (pcm : Bytes) (sampleRate : UInt32) : Bytes :=
  let samples := int16Samples pcm
  let dataSize := min (samples.length * 2) u32Max
  ascii "RIFF" ++ toLeBytes (UInt32.ofNat (min (36 + dataSize) u32Max)) ++ ascii "WAVE" ++
    ascii "fmt " ++ toLeBytes 16 ++ toLeBytes16 1 ++ toLeBytes16 1 ++ toLeBytes sampleRate ++
    toLeBytes (UInt32.ofNat (min (sampleRate.toNat * 2) u32Max)) ++ toLeBytes16 2 ++
    toLeBytes16 16 ++ ascii "data" ++ toLeBytes (UInt32.ofNat dataSize) ++
    samples.flatMap fun sample => toLeBytes16 sample.toUInt16

/-! ## Reading, for what is played -/

/-- What the walk has found so far. -/
structure WavHeader where
  format : UInt16 := 0
  channels : UInt16 := 1
  sampleRate : UInt32 := 0
  bits : UInt16 := 0
  samples : Option Bytes := none

/-- A chunk that is there whole; of two of a kind, the later one wins. -/
def WavHeader.read (header : WavHeader) (id body : Bytes) : WavHeader :=
  if id = ascii "fmt " ∧ 16 ≤ body.length then
    { header with
      format := readU16 body 0
      channels := readU16 body 2
      sampleRate := readU32 body 4
      bits := readU16 body 14 }
  else if id = ascii "data" then { header with samples := some body }
  else header

/-- The loop over the chunks; one cut off ends it. -/
def walkPcm (rest : Bytes) (header : WavHeader) : WavHeader :=
  if rest.length < 8 then header
  else
    let size := (readU32 rest 4).toNat
    if rest.length < 8 + size then header
    else
      walkPcm (rest.drop (8 + size + size % 2))
        (header.read (rest.take 4) ((rest.drop 8).take size))
termination_by rest.length
decreasing_by
  rw [List.length_drop]
  omega

/-- The loop of `mix`: a frame has a sample of each channel. -/
def mixFrom (width channels : ℕ) (decode : Bytes → Float32) (rest : Bytes) : List Float32 :=
  if 0 < width * channels ∧ width * channels ≤ rest.length then
    let sum := (List.range channels).foldl
      (fun sum channel => sum + decode ((rest.drop (channel * width)).take width)) 0
    (sum / channels.toFloat32) :: mixFrom width channels decode (rest.drop (width * channels))
  else []
termination_by rest.length
decreasing_by
  rw [List.length_drop]
  omega

def mix (data : Bytes) (width channels : ℕ) (decode : Bytes → Float32) : List Float32 :=
  if width * channels = 0 then [] else mixFrom width channels decode data

def decodeInt16 (b : Bytes) : Float32 := (readU16 b 0).toInt16.toFloat32 / 32768

def decodeInt8 (b : Bytes) : Float32 :=
  ((b.getD 0 0).toUInt32.toInt32 - 128).toFloat32 / 128

def decodeInt24 (b : Bytes) : Float32 :=
  let value := fromLeBytes (b.getD 0 0) (b.getD 1 0) (b.getD 2 0) 0
  -- the sign of a sample of 24 bits
  let value := if value &&& 0x800000 ≠ 0 then value ||| 0xff000000 else value
  value.toInt32.toFloat32 / 8388608

def decodeInt32 (b : Bytes) : Float32 := (readU32 b 0).toInt32.toFloat32 / 2147483648

/-- The samples averaged, for the encodings that are read. -/
def WavHeader.mixed (header : WavHeader) (samples : Bytes) : Option (List Float32) :=
  let channels := header.channels.toNat
  if header.format = 1 ∧ header.bits = 16 then some (mix samples 2 channels decodeInt16)
  else if header.format = 3 ∧ header.bits = 32 then some (mix samples 4 channels floatFromBytes)
  else if header.format = 1 ∧ header.bits = 8 then some (mix samples 1 channels decodeInt8)
  else if header.format = 1 ∧ header.bits = 24 then some (mix samples 3 channels decodeInt24)
  else if header.format = 1 ∧ header.bits = 32 then some (mix samples 4 channels decodeInt32)
  else none

/-- What is played of a file: the floats and their rate. -/
def pcmFromWav (wav : Bytes) : Option (Bytes × UInt32) :=
  if wav.length ≤ 44 ∨ wav.take 4 ≠ ascii "RIFF" ∨ (wav.drop 8).take 4 ≠ ascii "WAVE" then none
  else
    let header := walkPcm (wav.drop 12) {}
    header.samples.bind fun samples =>
      if header.sampleRate = 0 ∨ maxSampleRate < header.sampleRate ∨ header.channels = 0 then none
      else (header.mixed samples).map fun floats => (floats.flatMap floatBytes, header.sampleRate)

/-! ## Reading, for what is transcribed -/

inductive TranscriptionError
  | payloadInvalid (message : String)
deriving DecidableEq

structure TranscriptionAudio where
  samples : List Float32
  sampleRate : ℤ

structure WavFormat where
  audioFormat : UInt16
  channels : ℕ
  sampleRate : ℤ
  bitsPerSample : ℕ
deriving DecidableEq

def WavFormat.read (body : Bytes) : WavFormat :=
  { audioFormat := readU16 body 0
    channels := (readU16 body 2).toNat
    sampleRate := (readU32 body 4).toNat
    bitsPerSample := (readU16 body 14).toNat }

/-- The two encodings that are transcribed. -/
def decodeSamples (payload : Bytes) (format : WavFormat) :
    Except TranscriptionError (List Float32) :=
  if format.audioFormat = 1 ∧ format.bitsPerSample = 16 then
    .ok ((asChunks 2 payload).map fun bytes => (readU16 bytes 0).toInt16.toFloat32 / 32767)
  else if format.audioFormat = 3 ∧ format.bitsPerSample = 32 then
    .ok ((asChunks 4 payload).map floatFromBytes)
  else
    .error (.payloadInvalid ("unsupported wave encoding (format " ++
      toString format.audioFormat.toNat ++ ", " ++ toString format.bitsPerSample ++ "-bit)"))

/-- The samples of the channels averaged. -/
def downmixed (interleaved : List Float32) (channels : ℕ) : List Float32 :=
  if channels ≤ 1 then interleaved
  else
    (List.range (interleaved.length / channels)).map fun frame =>
      ((List.range channels).map fun channel =>
        interleaved.getD (frame * channels + channel) 0).foldl (· + ·) 0 / channels.toFloat32

def noDataChunk : TranscriptionError := .payloadInvalid "wave file has no data chunk"

/-- The chunk that holds the samples ends the walk. -/
def readData (format : Option WavFormat) (body : Bytes) :
    Except TranscriptionError TranscriptionAudio :=
  match format.filter fun format => 0 < format.channels && 0 < format.sampleRate with
  | none => .error (.payloadInvalid "wave data appears before fmt chunk")
  | some format => (decodeSamples body format).map fun interleaved =>
    ⟨downmixed interleaved format.channels, format.sampleRate⟩

/-- The loop over the chunks, up to the one with the samples. -/
def walkTranscribed (rest : Bytes) (format : Option WavFormat) :
    Except TranscriptionError TranscriptionAudio :=
  if rest.length < 8 then .error noDataChunk
  else
    let id := rest.take 4
    let size := (readU32 rest 4).toNat
    let body := (rest.drop 8).take size
    if rest.length < 8 + size then .error noDataChunk
    else if id = ascii "data" then readData format body
    else
      walkTranscribed (rest.drop (8 + size + size % 2))
        (if id = ascii "fmt " ∧ 16 ≤ size then some (.read body) else format)
termination_by rest.length
decreasing_by
  rw [List.length_drop]
  omega

/-- `TranscriptionAudio::from_wav_data`. -/
def fromWavData (data : Bytes) : Except TranscriptionError TranscriptionAudio :=
  if data.length < 12 ∨ data.take 4 ≠ ascii "RIFF" ∨ (data.drop 8).take 4 ≠ ascii "WAVE" then
    .error (.payloadInvalid "audio is not a RIFF WAVE file")
  else walkTranscribed (data.drop 12) none

end Hedos.Audio
