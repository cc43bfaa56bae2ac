import Hedos.Lib.ByteReader
import Hedos.Resolution.Identity

/-!
# The header of a GGUF file

`gguf_facts` of `kernel/src/resolution/gguf.rs`. A file is its bytes and the largest offset a seek
in it may reach; reading fails only where the bytes end. The sets and maps of the code are lists
read by membership and by key.
-/

namespace Hedos.Resolution.Gguf

open ByteReader

def maxKvPairs : ℕ := 512
def maxStringLen : ℕ := 2 ^ 16
def maxStringArrayLen : ℕ := 2 ^ 24
def maxTensors : ℕ := 2 ^ 16
def maxTensorName : ℕ := 64
def maxTensorDims : ℕ := 8
def defaultAlignment : ℕ := 32

def typeUint16 : ℕ := 2
def typeUint32 : ℕ := 4
def typeInt32 : ℕ := 5
def typeBool : ℕ := 7
def typeString : ℕ := 8
def typeArray : ℕ := 9
def typeUint64 : ℕ := 10
def typeInt64 : ℕ := 11

def u64Max : ℕ := 2 ^ 64 - 1
def i64Max : ℕ := 2 ^ 63 - 1

/-! ## Text -/

/-- A byte that goes on with a character. -/
def continues (byte : UInt8) : Bool := 0x80 ≤ byte && byte ≤ 0xBF

/-- The first two bytes of a character of three. -/
def leadsThree (a b : UInt8) : Bool :=
  a == 0xE0 && 0xA0 ≤ b && b ≤ 0xBF || 0xE1 ≤ a && a ≤ 0xEC && continues b ||
    a == 0xED && 0x80 ≤ b && b ≤ 0x9F || 0xEE ≤ a && a ≤ 0xEF && continues b

/-- The first two bytes of a character of four. -/
def leadsFour (a b : UInt8) : Bool :=
  a == 0xF0 && 0x90 ≤ b && b ≤ 0xBF || 0xF1 ≤ a && a ≤ 0xF3 && continues b ||
    a == 0xF4 && 0x80 ≤ b && b ≤ 0x8F

def replacement : Char := Char.ofNat 0xFFFD

/-- The character of these bytes, the first without its `lead`. -/
def scalar (lead : ℕ) (bytes : List UInt8) : Char :=
  Char.ofNat (bytes.foldl (fun value byte => value * 64 + (byte.toNat - 0x80)) lead)

/-- `String::from_utf8_lossy`: the longest start of a character that breaks off is replaced. -/
def utf8Lossy : Bytes → List Char
  | [] => []
  | a :: rest =>
    if a < 0x80 then Char.ofNat a.toNat :: utf8Lossy rest
    else
      match rest with
      | [] => [replacement]
      | b :: rest =>
        if 0xC2 ≤ a && a ≤ 0xDF && continues b then scalar (a.toNat - 0xC0) [b] :: utf8Lossy rest
        else if leadsThree a b then
          match rest with
          | [] => [replacement]
          | c :: rest =>
            if continues c then scalar (a.toNat - 0xE0) [b, c] :: utf8Lossy rest
            else replacement :: utf8Lossy (c :: rest)
        else if leadsFour a b then
          match rest with
          | [] => [replacement]
          | c :: rest =>
            if continues c then
              match rest with
              | [] => [replacement]
              | d :: rest =>
                if continues d then scalar (a.toNat - 0xF0) [b, c, d] :: utf8Lossy rest
                else replacement :: utf8Lossy (d :: rest)
            else replacement :: utf8Lossy (c :: rest)
        else replacement :: utf8Lossy (b :: rest)

def stripSuffix (text suffix : List Char) : Option (List Char) :=
  if suffix.isSuffixOf text then some (text.take (text.length - suffix.length)) else none

/-- Whether the key is the name under an architecture, and not nested deeper. -/
def isModelKey (key name : String) : Bool :=
  ((stripSuffix key.toList name.toList).bind (stripSuffix · ['.'])).any fun arch =>
    arch ≠ [] && !arch.contains '.'

/-! ## Reading values -/

def readU16 : Reader ℤ := do return leNat (← Reader.take 2)
def readU32 : Reader ℕ := do return leNat (← Reader.take 4)
def readI32 : Reader ℤ := do return (BitVec.ofNat 32 (leNat (← Reader.take 4))).toInt
def readU64 : Reader ℕ := do return leNat (← Reader.take 8)
def readI64 : Reader ℤ := do return (BitVec.ofNat 64 (leNat (← Reader.take 8))).toInt

def readString : Reader String := do
  let length ← readU64
  if length > maxStringLen then Reader.fail
  else return String.ofList (utf8Lossy (← Reader.take length))

/-- A relative seek; `seek_relative` does not look at where the file ends. -/
def skip (count : ℕ) : Reader Unit :=
  if count > i64Max then Reader.fail else Reader.skip count

def scalarWidth (valueType : ℕ) : Option ℕ :=
  if valueType = 0 ∨ valueType = 1 ∨ valueType = 7 then some 1
  else if valueType = 2 ∨ valueType = 3 then some 2
  else if valueType = 4 ∨ valueType = 5 ∨ valueType = 6 then some 4
  else if valueType = 10 ∨ valueType = 11 ∨ valueType = 12 then some 8
  else none

def readInteger (valueType : ℕ) : Reader ℤ :=
  if valueType = typeUint32 then do return (← readU32 : ℕ)
  else if valueType = typeInt32 then readI32
  else if valueType = typeUint64 then do return (min (← readU64) i64Max : ℕ)
  else if valueType = typeInt64 then readI64
  else Reader.fail

def skipString : Reader Unit := do
  let length ← readU64
  skip length

def skipArray : Reader Unit := do
  let elementType ← readU32
  let count ← readU64
  match scalarWidth elementType with
  | some width => if count * width > u64Max then Reader.fail else skip (count * width)
  | none =>
    if elementType ≠ typeString ∨ count > maxStringArrayLen then Reader.fail
    else skipString.replicate count

def skipValue (valueType : ℕ) : Reader Unit :=
  match scalarWidth valueType with
  | some width => skip width
  | none =>
    if valueType = typeString then skipString
    else if valueType = typeArray then skipArray
    else Reader.fail

/-! ## The pairs -/

abbrev Entries (α : Type) := List (String × α)

def Entries.insert {α : Type} (entries : Entries α) (key : String) (value : α) : Entries α :=
  (key, value) :: entries.filter (·.1 ≠ key)

def Entries.get {α : Type} (entries : Entries α) (key : String) : Option α :=
  (entries.find? (·.1 = key)).map Prod.snd

/-- What the pairs read so far say. -/
structure Header where
  architecture : Option String := none
  contextLengths : Entries ℤ := []
  poolings : Entries ℤ := []
  decisions : Entries String := []
  embeddingLengths : Entries ℤ := []
  /-- `none` for a key that is there but not one integer. -/
  attentionShape : Entries (Option ℤ) := []
  hasVisionEncoder : Bool := false
  encoderKeys : List String := []
  alignment : ℕ := defaultAlignment
  hasChatTemplate : Bool := false
  fileType : Option ℤ := none
  splitCount : Option ℤ := none

/-- The keys that give the shape of the attention. -/
def attentionKeys : List String :=
  ["block_count", "attention.head_count", "attention.head_count_kv", "attention.key_length",
    "attention.value_length"]

/-- Pass over a value. -/
def passOver (valueType : ℕ) (header : Header) : Reader Header := do
  skipValue valueType
  return header

/-- A value that may be an integer; one that is not, or could not be read, is passed over. -/
def integerOr (read : Reader ℤ) (valueType : ℕ) (found : ℤ → Header) (other : Header) :
    Reader Header := do
  match ← read.attempt with
  | some value => return found value
  | none => passOver valueType other

def readValue (header : Header) (key : String) (valueType : ℕ) : Reader Header :=
  if key = "general.architecture" then
    if valueType = typeString then do
      let value ← readString
      return { header with architecture := some value }
    else passOver valueType header
  else if key = "tokenizer.chat_template" then passOver valueType header
  else if key = "split.count" then
    integerOr (if valueType = typeUint16 then readU16 else readInteger valueType) valueType
      (fun value => { header with splitCount := some value }) header
  else if key = "general.file_type" then
    integerOr (readInteger valueType) valueType
      (fun value => { header with fileType := some value }) header
  else if ".context_length".toList.isSuffixOf key.toList then
    integerOr (readInteger valueType) valueType
      (fun value =>
        if value > 0 then { header with contextLengths := header.contextLengths.insert key value }
        else header) header
  else if isModelKey key "pooling_type" then
    integerOr (readInteger valueType) valueType
      (fun value => { header with poolings := header.poolings.insert key value }) header
  else if isModelKey key "embedding_length" || key = "general.alignment" then
    integerOr (readInteger valueType) valueType
      (fun value =>
        if key = "general.alignment" then
          { header with alignment := if value > 0 then value.toNat else defaultAlignment }
        else { header with embeddingLengths := header.embeddingLengths.insert key value }) header
  else if key = "clip.has_vision_encoder" ∧ valueType = typeBool then do
    let flag ← Reader.take 1
    return { header with hasVisionEncoder := flag ≠ [0] }
  else if isModelKey key "decision.type" ∧ valueType = typeString then do
    let value ← readString
    return { header with decisions := header.decisions.insert key value }
  else if isModelKey key "vision.block_count" || isModelKey key "audio.block_count" then
    passOver valueType { header with encoderKeys := header.encoderKeys.insert key }
  else if attentionKeys.any (isModelKey key) then
    integerOr (readInteger valueType) valueType
      (fun value => { header with
        attentionShape := header.attentionShape.insert key (some value) })
      { header with attentionShape := header.attentionShape.insert key none }
  else passOver valueType header

/-- A chat template is noted before its value is passed over. -/
def noted (header : Header) (key : String) : Header :=
  if key = "tokenizer.chat_template" then { header with hasChatTemplate := true } else header

def readKey : Reader (String × ℕ) := do
  let key ← readString
  let valueType ← readU32
  return (key, valueType)

/-- Pairs until one cannot be read: what they say, how many there were, and the position. -/
def readPairs : ℕ → Header → File → ℕ → (Header × ℕ) × ℕ
  | 0, header, _, pos => ((header, 0), pos)
  | left + 1, header, file, pos =>
    match readKey file pos with
    | (none, pos) => ((header, 0), pos)
    | (some (key, valueType), pos) =>
      match readValue (noted header key) key valueType file pos with
      | (none, pos) => ((noted header key, 0), pos)
      | (some header, pos) =>
        let rest := readPairs left header file pos
        ((rest.1.1, rest.1.2 + 1), rest.2)

/-! ## The tensors -/

structure TensorScan where
  classifierHead : Bool := false
  dimensions : List ℕ := []
  lastOffset : ℕ := 0
  dataReached : Bool := false

def ascii (text : String) : Bytes := text.toList.map fun c => UInt8.ofNat c.toNat

def readDimensions : ℕ → List ℕ → Reader (List ℕ)
  | 0, dimensions => return dimensions
  | left + 1, dimensions => do
    let dimension ← readU64
    readDimensions left (dimensions.insert dimension)

def readTensor (scan : TensorScan) : Reader TensorScan := do
  let length ← readU64
  if length ≥ maxTensorName then Reader.fail
  else
    let name ← Reader.take length
    let dims ← readU32
    if dims > maxTensorDims then Reader.fail
    else
      let dimensions ← readDimensions dims scan.dimensions
      -- the element type, then the offset into the data
      let _ ← readU32
      let offset ← readU64
      return { scan with
        classifierHead := scan.classifierHead ||
          [ascii "cls.weight", ascii "cls.output.weight"].contains name
        dimensions
        lastOffset := max scan.lastOffset offset }

def readTensors : ℕ → TensorScan → Reader TensorScan
  | 0, scan => return scan
  | left + 1, scan => do readTensors left (← readTensor scan)

/-- The next multiple of the alignment, when a 64-bit number holds it. -/
def alignUp (position alignment : ℕ) : Option ℕ :=
  let start := (position + alignment - 1) / alignment * alignment
  if start > u64Max then none else some start

def scanTensors (count alignment : ℕ) (file : File) (pos : ℕ) : Option TensorScan :=
  match readTensors (min count maxTensors) {} file pos with
  | (none, _) => none
  | (some scan, pos) => (alignUp pos alignment).map fun start =>
    { scan with
      dataReached := decide (start + scan.lastOffset ≤ u64Max ∧
        start + scan.lastOffset < file.bytes.length) }

/-! ## The facts -/

def fileTypeGuessed : ℤ := 1024

def fileTypeNames : List (ℤ × String) :=
  [(0, "F32"), (1, "F16"), (2, "Q4_0"), (3, "Q4_1"), (7, "Q8_0"), (8, "Q5_0"), (9, "Q5_1"),
    (10, "Q2_K"), (11, "Q3_K_S"), (12, "Q3_K_M"), (13, "Q3_K_L"), (14, "Q4_K_S"),
    (15, "Q4_K_M"), (16, "Q5_K_S"), (17, "Q5_K_M"), (18, "Q6_K"), (19, "IQ2_XXS"),
    (20, "IQ2_XS"), (21, "Q2_K_S"), (22, "IQ3_XS"), (23, "IQ3_XXS"), (24, "IQ1_S"),
    (25, "IQ4_NL"), (26, "IQ3_S"), (27, "IQ3_M"), (28, "IQ2_S"), (29, "IQ2_M"), (30, "IQ4_XS"),
    (31, "IQ1_M"), (32, "BF16"), (36, "TQ1_0"), (37, "TQ2_0"), (38, "MXFP4_MOE")]

/-- The name of a `general.file_type`, the guessed-type bit left out. -/
def fileTypeName (value : ℤ) : Option String :=
  let known := (BitVec.ofInt 64 value &&& ~~~(BitVec.ofInt 64 fileTypeGuessed)).toInt
  (fileTypeNames.find? (·.1 = known)).map Prod.snd

/-- `GgufPooling::from_llama`. -/
def poolingFromLlama (value : ℤ) : Option GgufPooling :=
  if value = 0 then some .none
  else if value = 1 then some .mean
  else if value = 2 then some .cls
  else if value = 3 then some .last
  else if value = 4 then some .rank
  else none

/-- The entry under the architecture. -/
def ownValue {α : Type} (architecture : Option String) (suffix : String) (values : Entries α) :
    Option α :=
  architecture.bind fun arch => values.get (arch ++ "." ++ suffix)

/-- The only entry. -/
def loneValue {α : Type} : Entries α → Option α
  | [(_, value)] => some value
  | _ => none

def checkedMul (a b : ℕ) : Option ℕ := if a * b > u64Max then none else some (a * b)
def checkedAdd (a b : ℕ) : Option ℕ := if a + b > u64Max then none else some (a + b)

def usable (value : Option ℤ) : Option ℕ := (value.map Int.toNat).filter (0 < ·)

/-- A missing key is one the header lacks only in a header read to its end. -/
def shapeOf (complete : Bool) : Option (Option ℤ) → Option (Option ℕ)
  | none => if complete then some none else none
  | some value => (usable value).map some

def kvBytesPerToken (complete : Bool) (layers heads kvHeads keyLength valueLength :
    Option (Option ℤ)) (embeddingLength : Option ℤ) : Option ℕ := do
  let layers ← (← shapeOf complete layers)
  let heads ← shapeOf complete heads
  let kvHeads ← (← shapeOf complete kvHeads).or heads
  let even := heads.bind fun heads => (usable embeddingLength).map (· / heads)
  let key ← (← shapeOf complete keyLength).or even
  let value ← (← shapeOf complete valueLength).or even
  let perLayer ← checkedMul layers kvHeads
  let width ← checkedAdd key value
  checkedMul (← checkedMul perLayer width) 2

structure Facts extends GgufFacts where
  splitCount : Option ℤ
  kvBytesPerToken : Option ℕ

/-- The magic bytes, a version, and the numbers of tensors and pairs. -/
def readStart : Reader (ℕ × ℕ) := do
  let magic ← Reader.take 4
  if magic ≠ ascii "GGUF" then Reader.fail
  else
    let version ← readU32
    if version < 2 then Reader.fail
    else
      let tensorCount ← readU64
      let kvCount ← readU64
      return (tensorCount, kvCount)

def bundledEncoders (header : Header) : Bool :=
  header.architecture.any fun arch => arch ≠ "clip" &&
    ["vision", "audio"].any fun encoder =>
      header.encoderKeys.contains (arch ++ "." ++ encoder ++ ".block_count")

/-- What the pairs and the tensors of a header say. -/
def factsOf (header : Header) (metadataComplete : Bool) (tensors : Option TensorScan) : Facts :=
  let shape name := ownValue header.architecture name header.attentionShape
  let embeddingLength := ownValue header.architecture "embedding_length" header.embeddingLengths
  { architecture := header.architecture
    contextLength :=
      (ownValue header.architecture "context_length" header.contextLengths).or
        (loneValue header.contextLengths)
    hasChatTemplate := header.hasChatTemplate
    quantization := header.fileType.bind fileTypeName
    pooling := (ownValue header.architecture "pooling_type" header.poolings).bind poolingFromLlama
    decision := ownValue header.architecture "decision.type" header.decisions
    embeddingLength
    hasVisionEncoder := header.hasVisionEncoder
    bundledEncoders := bundledEncoders header
    metadataComplete
    tensorDimensions := tensors.map TensorScan.dimensions
    tensorsPresent := tensors.any TensorScan.dataReached
    hasClassifierHead := tensors.any TensorScan.classifierHead
    splitCount := header.splitCount
    kvBytesPerToken := kvBytesPerToken metadataComplete (shape "block_count")
      (shape "attention.head_count") (shape "attention.head_count_kv")
      (shape "attention.key_length") (shape "attention.value_length") embeddingLength }

def ggufFacts (file : File) : Option Facts :=
  match readStart file 0 with
  | (none, _) => none
  | (some (tensorCount, kvCount), pos) =>
    let pairs := readPairs (min kvCount maxKvPairs) {} file pos
    let metadataComplete := decide (pairs.1.2 = kvCount)
    -- the tensor infos follow the last value
    let tensors :=
      if metadataComplete then scanTensors tensorCount pairs.1.1.alignment file pairs.2 else none
    some (factsOf pairs.1.1 metadataComplete tensors)

end Hedos.Resolution.Gguf
