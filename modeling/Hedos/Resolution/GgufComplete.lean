import Hedos.Resolution.Gguf

/-!
# When a GGUF header is read to its end

`metadata_complete` of `gguf_facts` (`kernel/src/resolution/gguf.rs`) against what the file holds.
The reader goes through 512 pairs, keys and kept texts of 64 KiB, and arrays of scalars or of at
most 2^24 strings (`Pair.InLimits`). The bytes at the end of a value are passed over by a seek
(`GoesThrough`); but for those of the last value they are known to be there, since a key is read
after them (`readPairs_exact`).
-/

namespace Hedos.Resolution.Gguf

open ByteReader

/-! ## What a header holds -/

/-- A string: its length and its bytes. -/
def StringText (text : Bytes) : Prop :=
  ∃ bytes : Bytes, bytes.length < 2 ^ 64 ∧ text = leBytes 8 bytes.length ++ bytes

/-- A value of a type, in full. -/
inductive Value : ℕ → Bytes → Prop
  | scalar {valueType width : ℕ} {text : Bytes} :
    scalarWidth valueType = some width → text.length = width → Value valueType text
  | string {text : Bytes} : StringText text → Value typeString text
  | array {elementType : ℕ} {elements : List Bytes} : elementType < 2 ^ 32 →
    elements.length < 2 ^ 64 → (∀ element ∈ elements, Value elementType element) →
    Value typeArray (leBytes 4 elementType ++ (leBytes 8 elements.length ++ elements.flatten))

/-- A pair: the bytes of its key, the type and the bytes of its value. -/
structure Pair where
  key : Bytes
  valueType : ℕ
  value : Bytes

namespace Pair

/-- The key as the reader has it. -/
def name (pair : Pair) : String := String.ofList (utf8Lossy pair.key)

/-- The key and the type. -/
def head (pair : Pair) : Bytes :=
  leBytes 8 pair.key.length ++ (pair.key ++ leBytes 4 pair.valueType)

def text (pair : Pair) : Bytes := pair.head ++ pair.value

structure Full (pair : Pair) : Prop where
  key : pair.key.length < 2 ^ 64
  valueType : pair.valueType < 2 ^ 32
  value : Value pair.valueType pair.value

end Pair

/-- The text under the key is kept. -/
def keepsText (key : String) (valueType : ℕ) : Prop :=
  valueType = typeString ∧
    (key = "general.architecture" ∨ isModelKey key "decision.type" = true)

/-- An array the reader passes over: of scalars, or of so many strings. -/
def ArrayInLimits (value : Bytes) : Prop :=
  (scalarWidth (leNat (value.take 4))).isSome ∨
    leNat (value.take 4) = typeString ∧ leNat ((value.drop 4).take 8) ≤ maxStringArrayLen

/-- What the reader makes of the value under a key. -/
def ValueInLimits (key : String) (valueType : ℕ) (value : Bytes) : Prop :=
  (keepsText key valueType → leNat (value.take 8) ≤ maxStringLen) ∧
    (valueType = typeArray → ArrayInLimits value)

def Pair.InLimits (pair : Pair) : Prop :=
  pair.key.length ≤ maxStringLen ∧ ValueInLimits pair.name pair.valueType pair.value

def textOf (pairs : List Pair) : Bytes := (pairs.map Pair.text).flatten

/-- The magic bytes, the version and the two numbers. -/
def startText (version tensorCount kvCount : ℕ) : Bytes :=
  ascii "GGUF" ++ (leBytes 4 version ++ (leBytes 8 tensorCount ++ leBytes 8 kvCount))

/-- The file starts as a GGUF of these numbers of tensors and pairs. -/
def Starts (file : File) (tensorCount kvCount : ℕ) : Prop :=
  ∃ version, 2 ≤ version ∧ version < 2 ^ 32 ∧ tensorCount < 2 ^ 64 ∧ kvCount < 2 ^ 64 ∧
    Has file 0 (startText version tensorCount kvCount)

/-- The position after the start. -/
def startLength : ℕ := 24

/-- The file has every pair in full. -/
def HasAll (file : File) (pairs : List Pair) : Prop := Has file startLength (textOf pairs)

/-- A string passed over: its length is read, and its bytes are the tail. -/
def StringHead (text : Bytes) (tail : Tail) : Prop :=
  tail.bytes.length < 2 ^ 64 ∧ text = leBytes 8 tail.bytes.length ∧ tail.tried = false

/-- A value passed over: the bytes that are read, and those at its end that a seek passes over.
`tried` is for a number, which the reader tries to read first. -/
inductive Sought (tried : Bool) : ℕ → Bytes → Tail → Prop
  | scalar {valueType width : ℕ} {tail : Tail} : scalarWidth valueType = some width →
    tail.bytes.length = width → tail.tried = tried → Sought tried valueType [] tail
  | string {text : Bytes} {tail : Tail} : StringHead text tail → Sought tried typeString text tail
  | scalars {elementType count width : ℕ} {tail : Tail} : elementType < 2 ^ 32 →
    count < 2 ^ 64 → scalarWidth elementType = some width → tail.bytes.length = count * width →
    tail.tried = false →
    Sought tried typeArray (leBytes 4 elementType ++ (leBytes 8 count ++ [])) tail
  | strings {count : ℕ} {text : Bytes} {tail : Tail} : count ≤ maxStringArrayLen →
    InRow StringHead count text tail →
    Sought tried typeArray (leBytes 4 typeString ++ (leBytes 8 count ++ text)) tail

def isInteger (valueType : ℕ) : Bool :=
  valueType = typeUint32 || valueType = typeInt32 || valueType = typeUint64 || valueType = typeInt64

/-- A key whose value may be a number, behind those looked at before. -/
def isNumberKey (key : String) : Bool :=
  key = "general.file_type" || ".context_length".toList.isSuffixOf key.toList ||
    isModelKey key "pooling_type" ||
    (isModelKey key "embedding_length" || key = "general.alignment") ||
    !(isModelKey key "vision.block_count" || isModelKey key "audio.block_count") &&
      attentionKeys.any (isModelKey key)

/-- The value under the key is read as a number. -/
def readsNumber (key : String) (valueType : ℕ) : Bool :=
  if key = "general.architecture" ∨ key = "tokenizer.chat_template" then false
  else if key = "split.count" then valueType = typeUint16 || isInteger valueType
  else isNumberKey key && isInteger valueType

/-- The value is the flag, which is kept. -/
def readsFlag (key : String) (valueType : ℕ) : Prop :=
  key = "clip.has_vision_encoder" ∧ valueType = typeBool

/-- How the reader goes through the value under a key: what it keeps it reads to the end. -/
structure GoesThrough (key : String) (valueType : ℕ) (text : Bytes) (tail : Tail) : Prop where
  kept : keepsText key valueType → tail = {} ∧ StringText text ∧ leNat (text.take 8) ≤ maxStringLen
  flag : readsFlag key valueType → tail = {} ∧ text.length = 1
  sought : ¬ keepsText key valueType → ¬ readsFlag key valueType →
    Sought (readsNumber key valueType) valueType text tail

/-- The file ends inside the bytes of the last value that a seek passes over, and may have the
position the seek leads to. -/
def EndsInSeek (file : File) (pos : ℕ) (pairs : List Pair) : Prop :=
  ∃ before last text tail, pairs = before ++ [last] ∧ last.value = text ++ tail.bytes ∧
    GoesThrough last.name last.valueType text tail ∧
    Has file pos (textOf before ++ (last.head ++ text)) ∧
    Cuts file (pos + (textOf before ++ (last.head ++ text)).length) tail.bytes ∧
    tail.next file (pos + (textOf before ++ (last.head ++ text)).length) ≤ file.maxOffset

/-! ## The readers of the header -/

theorem reads_u32 : Reads (fun text n => n < 2 ^ 32 ∧ text = leBytes 4 n) readU32 :=
  reads_number 4

theorem reads_u64 : Reads (fun text n => n < 2 ^ 64 ∧ text = leBytes 8 n) readU64 :=
  reads_number 8

theorem reads_string : Reads (fun text key => ∃ bytes : Bytes, bytes.length ≤ maxStringLen ∧
    text = leBytes 8 bytes.length ++ bytes ∧ key = String.ofList (utf8Lossy bytes)) readString := by
  refine (Reads.bind reads_u64 fun length => (Reads.bind (reads_take length) fun bytes =>
    Reads.pure (String.ofList (utf8Lossy bytes))).guard (length > maxStringLen)).congr
      fun text key => ?_
  constructor
  · rintro ⟨_, _, _, rfl, ⟨-, rfl⟩, hle, bytes, _, _, rfl, ⟨hlength, rfl⟩, rfl, rfl⟩
    subst hlength
    exact ⟨_, Nat.le_of_not_lt hle, by rw [List.append_nil], rfl⟩
  · rintro ⟨bytes, hle, rfl, rfl⟩
    refine ⟨_, _, bytes.length, rfl, ⟨?_, rfl⟩, Nat.not_lt.2 hle, bytes, [], _, by simp,
      ⟨rfl, rfl⟩, rfl, rfl⟩
    exact hle.trans_lt (by decide)

variable {n width count valueType pos : ℕ} {tail : Tail} {key : String} {pairs : List Pair}
  {a b s t : Bytes}

theorem takes_fail_of_long {α : Type} (h : i64Max < n) :
    Takes (fun text tail => text = [] ∧ tail.bytes.length = n ∧ tail.tried = false)
      (Reader.fail (α := α)) := by
  refine takes_passing fun file pos next _ => ⟨(fun ⟨a, ha⟩ => nomatch (Prod.mk.inj ha).1), ?_⟩
  rintro ⟨hle, -⟩
  have hbounded := file.bounded
  rw [passedTo, if_neg (by simp)] at hle
  unfold i64Max at h
  omega

theorem takes_skip_bytes (n : ℕ) : Takes (fun text tail => text = [] ∧ tail.bytes.length = n ∧
    tail.tried = false) (skip n) := by
  unfold skip
  split
  · rename_i h
    exact takes_fail_of_long h
  · exact takes_skip n

theorem takes_skipString : Takes StringHead skipString := by
  refine (Takes.bind reads_u64 takes_skip_bytes).congr fun text tail => ?_
  constructor
  · rintro ⟨_, _, length, rfl, ⟨hlt, rfl⟩, rfl, rfl, htried⟩
    exact ⟨hlt, List.append_nil _, htried⟩
  · rintro ⟨hlt, rfl, htried⟩
    exact ⟨_, [], _, (List.append_nil _).symm, ⟨hlt, rfl⟩, rfl, rfl, htried⟩

theorem stops_u64 : Stops readU64 := (stops_take (by decide)).bind _

theorem stops_skipString : Stops skipString := stops_u64.bind _

/-- Bytes of a multiple of the width fall into elements of it. -/
theorem exists_elements {bytes : Bytes} (h : bytes.length = count * width) :
    ∃ elements : List Bytes, elements.length = count ∧
      (∀ element ∈ elements, element.length = width) ∧ bytes = elements.flatten := by
  induction count generalizing bytes with
  | zero =>
    rw [Nat.zero_mul] at h
    exact ⟨[], rfl, by simp, List.length_eq_zero_iff.1 h⟩
  | succ count ih =>
    rw [Nat.succ_mul] at h
    have hrest : (bytes.drop width).length = count * width := by
      rw [List.length_drop]
      omega
    obtain ⟨elements, hcount, hall, hflatten⟩ := ih hrest
    refine ⟨bytes.take width :: elements, by rw [List.length_cons, hcount], ?_, ?_⟩
    · refine List.forall_mem_cons.2 ⟨?_, hall⟩
      rw [List.length_take]
      omega
    · rw [List.flatten_cons, ← hflatten, List.take_append_drop]

theorem length_flatten_of_width {elements : List Bytes}
    (h : ∀ element ∈ elements, element.length = width) :
    elements.flatten.length = elements.length * width := by
  induction elements with
  | nil => simp
  | cons element elements ih =>
    obtain ⟨helement, helements⟩ := List.forall_mem_cons.1 h
    rw [List.flatten_cons, List.length_append, helement, ih helements, List.length_cons,
      Nat.succ_mul, Nat.add_comm]

/-! ## Values -/

theorem value_scalar_iff (h : scalarWidth valueType = some width)
    {text : Bytes} : Value valueType text ↔ text.length = width := by
  constructor
  · intro hvalue
    cases hvalue with
    | scalar hwidth hlength =>
      rw [hwidth] at h
      rw [hlength, Option.some.inj h]
    | string => cases h
    | array => cases h
  · exact fun hlength => Value.scalar h hlength

theorem value_string_iff (h : valueType = typeString) {text : Bytes} :
    Value valueType text ↔ StringText text := by
  constructor
  · intro hvalue
    cases hvalue with
    | scalar hwidth hlength =>
      rw [h] at hwidth
      cases hwidth
    | string htext => exact htext
    | array => cases h
  · rintro htext
    rw [h]
    exact Value.string htext

theorem value_array (h : valueType = typeArray) {text : Bytes}
    (hvalue : Value valueType text) : ∃ (elementType : ℕ) (elements : List Bytes),
      elementType < 2 ^ 32 ∧ elements.length < 2 ^ 64 ∧
        (∀ element ∈ elements, Value elementType element) ∧
        text = leBytes 4 elementType ++ (leBytes 8 elements.length ++ elements.flatten) := by
  cases hvalue with
  | scalar hwidth hlength =>
    rw [h] at hwidth
    cases hwidth
  | string => cases h
  | array htype hcount hall => exact ⟨_, _, htype, hcount, hall, rfl⟩

theorem arrayInLimits_iff {elementType : ℕ} {rest : Bytes} (htype : elementType < 2 ^ 32)
    (hcount : count < 2 ^ 64) :
    ArrayInLimits (leBytes 4 elementType ++ (leBytes 8 count ++ rest)) ↔
      (scalarWidth elementType).isSome ∨ elementType = typeString ∧ count ≤ maxStringArrayLen := by
  unfold ArrayInLimits
  rw [List.take_left' (length_leBytes 4 _), List.drop_left' (length_leBytes 4 _),
    List.take_left' (length_leBytes 8 _), leNat_leBytes htype, leNat_leBytes hcount]

theorem scalarWidth_array : scalarWidth typeArray = none := rfl

/-- The elements of an array, passed over. -/
def Elements (elementType count : ℕ) (text : Bytes) (tail : Tail) : Prop :=
  (∃ width, scalarWidth elementType = some width ∧ text = [] ∧
      tail.bytes.length = count * width ∧ tail.tried = false) ∨
    elementType = typeString ∧ count ≤ maxStringArrayLen ∧ InRow StringHead count text tail

theorem takes_elements (elementType count : ℕ) :
    Takes (Elements elementType count) (match scalarWidth elementType with
      | some width => if count * width > u64Max then Reader.fail else skip (count * width)
      | none =>
        if elementType ≠ typeString ∨ count > maxStringArrayLen then Reader.fail
        else skipString.replicate count) := by
  cases hwidth : scalarWidth elementType with
  | some width =>
    have htakes : Takes (fun text tail => text = [] ∧ tail.bytes.length = count * width ∧
        tail.tried = false)
        (if count * width > u64Max then Reader.fail else skip (count * width)) := by
      split
      · exact takes_fail_of_long (lt_trans (by decide) ‹count * width > u64Max›)
      · exact takes_skip_bytes _
    refine htakes.congr fun text tail => ?_
    constructor
    · exact fun hpassed => Or.inl ⟨width, hwidth, hpassed⟩
    · rintro (⟨width', hwidth', hpassed⟩ | ⟨rfl, -, -⟩)
      · rw [hwidth] at hwidth'
        exact Option.some.inj hwidth' ▸ hpassed
      · cases hwidth
  | none =>
    refine ((Takes.replicate takes_skipString stops_skipString count).guard _).congr
      fun text tail => ?_
    rw [not_or, not_not, Nat.not_lt]
    constructor
    · rintro ⟨⟨htype, hcount⟩, helements⟩
      exact Or.inr ⟨htype, hcount, helements⟩
    · rintro (⟨width, hwidth', -⟩ | ⟨htype, hcount, helements⟩)
      · rw [hwidth] at hwidth'
        cases hwidth'
      · exact ⟨⟨htype, hcount⟩, helements⟩

theorem takes_skipArray (tried : Bool) : Takes (Sought tried typeArray) skipArray := by
  refine (Takes.bind reads_u32 fun elementType => Takes.bind reads_u64 fun count =>
    takes_elements elementType count).congr fun text tail => ?_
  constructor
  · rintro ⟨_, _, elementType, rfl, ⟨htype, rfl⟩, _, rest, count, rfl, ⟨hcount, rfl⟩, helements⟩
    rcases helements with ⟨width, hwidth, rfl, hlength, htried⟩ | ⟨rfl, hle, hrow⟩
    · exact .scalars htype hcount hwidth hlength htried
    · exact .strings hle hrow
  · intro h
    cases h with
    | scalar hwidth => cases hwidth
    | scalars htype hcount hwidth hlength htried =>
      exact ⟨_, _, _, rfl, ⟨htype, rfl⟩, _, _, _, rfl, ⟨hcount, rfl⟩,
        .inl ⟨_, hwidth, rfl, hlength, htried⟩⟩
    | strings hle hrow =>
      exact ⟨_, _, _, rfl, ⟨by decide, rfl⟩, _, _, _, rfl, ⟨hle.trans_lt (by decide), rfl⟩,
        .inr ⟨rfl, hle, hrow⟩⟩

theorem sought_scalar_iff (h : scalarWidth valueType = some width)
    {tried : Bool} {text : Bytes} : Sought tried valueType text tail ↔
      text = [] ∧ tail.bytes.length = width ∧ tail.tried = tried := by
  constructor
  · intro hsought
    cases hsought with
    | scalar hwidth hlength htried =>
      rw [hwidth] at h
      exact ⟨rfl, Option.some.inj h ▸ hlength, htried⟩
    | string => cases h
    | scalars => cases h
    | strings => cases h
  · rintro ⟨rfl, hlength, htried⟩
    exact .scalar h hlength htried

theorem takes_skipValue (valueType : ℕ) : Takes (Sought false valueType) (skipValue valueType) := by
  unfold skipValue
  split
  · rename_i width hwidth
    exact (takes_skip_bytes width).congr fun text tail => (sought_scalar_iff hwidth).symm
  · rename_i hwidth
    refine Takes.ite (fun hstring => ?_) fun hstring =>
      Takes.ite (fun harray => ?_) fun harray => ?_
    · subst hstring
      refine takes_skipString.congr fun text tail => ⟨.string, fun h => ?_⟩
      cases h with
      | scalar hsome => cases hsome
      | string htext => exact htext
    · subst harray
      exact takes_skipArray false
    · refine Takes.fail.congr fun text tail => ⟨False.elim, fun h => ?_⟩
      cases h with
      | scalar hsome =>
        rw [hwidth] at hsome
        cases hsome
      | string => exact hstring rfl
      | scalars => exact harray rfl
      | strings => exact harray rfl

theorem takes_passOver (valueType : ℕ) (header : Header) :
    Takes (Sought false valueType) (passOver valueType header) :=
  (takes_skipValue valueType).map fun _ => header

/-- So many strings, one after another, and the way through them. -/
theorem inRow_elements {text : Bytes}
    (h : InRow StringHead count text tail) : ∃ elements : List Bytes, elements.length = count ∧
      (∀ element ∈ elements, StringText element) ∧ text ++ tail.bytes = elements.flatten := by
  have hhead : ∀ {text : Bytes} {tail : Tail}, StringHead text tail →
      StringText (text ++ tail.bytes) := fun ⟨hlt, htext, _⟩ => ⟨_, hlt, by rw [htext]⟩
  induction count generalizing text tail with
  | zero =>
    obtain ⟨rfl, rfl⟩ := h
    exact ⟨[], rfl, by simp, rfl⟩
  | succ count ih =>
    cases count with
    | zero => exact ⟨[text ++ tail.bytes], rfl, by simpa using hhead h, by simp⟩
    | succ count =>
      obtain ⟨first, between, second, rfl, hfirst, hrest⟩ := h
      obtain ⟨elements, hcount, hall, hflatten⟩ := ih hrest
      refine ⟨(first ++ between.bytes) :: elements, by rw [List.length_cons, hcount],
        List.forall_mem_cons.2 ⟨hhead hfirst, hall⟩, ?_⟩
      rw [List.flatten_cons, ← hflatten]
      simp only [List.append_assoc]

theorem exists_inRow {elements : List Bytes} (h : ∀ element ∈ elements, StringText element) :
    ∃ text tail, elements.flatten = text ++ tail.bytes ∧
      InRow StringHead elements.length text tail := by
  induction elements with
  | nil => exact ⟨[], {}, rfl, rfl, rfl⟩
  | cons element elements ih =>
    obtain ⟨⟨bytes, hlt, rfl⟩, hrest⟩ := List.forall_mem_cons.1 h
    have hhead : StringHead (leBytes 8 bytes.length) ⟨bytes, false⟩ := ⟨hlt, rfl, rfl⟩
    cases elements with
    | nil => exact ⟨_, _, by simp, hhead⟩
    | cons next elements =>
      obtain ⟨text, tail, hflatten, hrow⟩ := ih hrest
      refine ⟨leBytes 8 bytes.length ++ (bytes ++ text), tail, ?_, _, _, _, rfl, hhead, hrow⟩
      rw [List.flatten_cons, hflatten]
      simp only [List.append_assoc]

/-- What is passed over is a value within the limits. -/
theorem Sought.value {tried : Bool} {text : Bytes}
    (h : Sought tried valueType text tail) : Value valueType (text ++ tail.bytes) ∧
      (valueType = typeArray → ArrayInLimits (text ++ tail.bytes)) := by
  cases h with
  | scalar hwidth hlength =>
    refine ⟨.scalar hwidth hlength, ?_⟩
    rintro rfl
    cases hwidth
  | string hhead =>
    obtain ⟨hlt, rfl, -⟩ := hhead
    exact ⟨.string ⟨_, hlt, rfl⟩, nofun⟩
  | scalars htype hcount hwidth hlength =>
    obtain ⟨elements, rfl, hall, hflatten⟩ := exists_elements hlength
    rw [List.append_nil, List.append_assoc, hflatten, arrayInLimits_iff htype hcount, hwidth]
    exact ⟨.array htype hcount fun element helement => .scalar hwidth (hall element helement),
      fun _ => .inl rfl⟩
  | strings hle hrow =>
    obtain ⟨elements, rfl, hall, hflatten⟩ := inRow_elements hrow
    have hlt := hle.trans_lt (show maxStringArrayLen < 2 ^ 64 by decide)
    rw [List.append_assoc, List.append_assoc, hflatten, arrayInLimits_iff (by decide) hlt]
    exact ⟨.array (by decide) hlt fun element helement => .string (hall element helement),
      fun _ => .inr ⟨rfl, hle⟩⟩

theorem exists_sought (tried : Bool) {value : Bytes}
    (h : Value valueType value) (hlimits : valueType = typeArray → ArrayInLimits value) :
    ∃ text tail, value = text ++ tail.bytes ∧ Sought tried valueType text tail := by
  cases h with
  | scalar hwidth hlength => exact ⟨[], ⟨value, tried⟩, rfl, .scalar hwidth hlength rfl⟩
  | string htext =>
    obtain ⟨bytes, hlt, rfl⟩ := htext
    exact ⟨_, ⟨bytes, false⟩, rfl, .string ⟨hlt, rfl, rfl⟩⟩
  | @array elementType elements htype hcount hall =>
    have hlimits := (arrayInLimits_iff htype hcount).1 (hlimits rfl)
    rcases hlimits with hsome | ⟨rfl, hle⟩
    · obtain ⟨width, hwidth⟩ := Option.isSome_iff_exists.1 hsome
      have hlength := length_flatten_of_width fun element helement =>
        (value_scalar_iff hwidth).1 (hall element helement)
      exact ⟨_, ⟨elements.flatten, false⟩, by simp, .scalars htype hcount hwidth hlength rfl⟩
    · obtain ⟨text, tail, hflatten, hrow⟩ :=
        exists_inRow fun element helement => (value_string_iff rfl).1 (hall element helement)
      exact ⟨_, tail, by rw [hflatten]; simp only [List.append_assoc], .strings hle hrow⟩

/-! ## The value under a key -/

/-- A number of the width of its type, or the bytes of its type passed over. -/
theorem takes_integerOr (hwidth : scalarWidth valueType = some width)
    (hle : width ≤ i64Max) (g : Bytes → ℤ) {read : Reader ℤ}
    (hread : read = (Reader.take width).bind fun text => Reader.pure (g text))
    (found : ℤ → Header) (other : Header) :
    Takes (Sought true valueType) (integerOr read valueType found other) := by
  have hskip : skipValue valueType = Reader.skip width := by
    unfold skipValue
    rw [hwidth]
    show skip width = _
    unfold skip
    rw [if_neg (by omega)]
  refine Takes.congr ?_ fun text tail => (sought_scalar_iff hwidth).symm
  rw [hread]
  unfold integerOr passOver
  rw [hskip]
  refine @takes_attempt _ _ width g found other _ ?_ ?_
  · exact fun _ => rfl
  · rfl

theorem takes_readInteger (valueType : ℕ) (found : ℤ → Header) (other : Header) :
    Takes (Sought (isInteger valueType) valueType)
      (integerOr (readInteger valueType) valueType found other) := by
  unfold readInteger
  refine if h : valueType = typeUint32 then ?_ else if h₁ : valueType = typeInt32 then ?_
    else if h₂ : valueType = typeUint64 then ?_ else if h₃ : valueType = typeInt64 then ?_ else ?_
  · subst h
    exact takes_integerOr rfl (by decide) (fun text => (leNat text : ℕ))
      (Reader.bind_assoc _ _ _) found other
  · subst h₁
    exact takes_integerOr rfl (by decide) _ rfl found other
  · subst h₂
    exact takes_integerOr rfl (by decide) (fun text => (min (leNat text) i64Max : ℕ))
      (Reader.bind_assoc _ _ _) found other
  · subst h₃
    exact takes_integerOr rfl (by decide) _ rfl found other
  · have hno : isInteger valueType = false := by simp [isInteger, h, h₁, h₂, h₃]
    rw [hno, if_neg h, if_neg h₁, if_neg h₂, if_neg h₃]
    exact takes_passOver valueType other

/-- A text kept is a string of at most so many bytes. -/
theorem takes_keptText (f : String → Header) :
    Takes (fun text tail => tail = {} ∧ StringText text ∧ leNat (text.take 8) ≤ maxStringLen)
      (readString.bind fun value => Reader.pure (f value)) := by
  refine (reads_string.takes.map f).congr fun text tail => and_congr_right fun _ => ?_
  constructor
  · rintro ⟨_, bytes, hle, rfl, -⟩
    have hlt : bytes.length < 2 ^ 64 := hle.trans_lt (by decide)
    rw [List.take_left' (length_leBytes 8 _), leNat_leBytes hlt]
    exact ⟨⟨bytes, hlt, rfl⟩, hle⟩
  · rintro ⟨⟨bytes, hlt, rfl⟩, hle⟩
    rw [List.take_left' (length_leBytes 8 _), leNat_leBytes hlt] at hle
    exact ⟨_, bytes, hle, rfl, rfl⟩

/-- A key does not end in two names neither of which ends in the other. -/
theorem not_both_suffixes {a b key : List Char} (hab : ¬ a <:+ b) (hba : ¬ b <:+ a)
    (ha : a <:+ key) : ¬ b <:+ key := by
  intro hb
  rcases List.suffix_or_suffix_of_suffix ha hb with h | h
  · exact hab h
  · exact hba h

theorem suffix_of_isModelKey {name : String} (h : isModelKey key name = true) :
    name.toList <:+ key.toList := by
  unfold isModelKey stripSuffix at h
  split at h
  · rename_i hsuffix
    exact List.isSuffixOf_iff_suffix.1 hsuffix
  · cases h

theorem suffix_of_eq {name : String} (h : key = name) : name.toList <:+ key.toList :=
  h ▸ List.suffix_rfl

/-- A value under a key is a value within the limits. -/
theorem GoesThrough.value {text : Bytes} (h : GoesThrough key valueType text tail) :
    Value valueType (text ++ tail.bytes) ∧ ValueInLimits key valueType (text ++ tail.bytes) := by
  by_cases hkeeps : keepsText key valueType
  · obtain ⟨rfl, htext, hle⟩ := h.kept hkeeps
    rw [List.append_nil]
    refine ⟨(value_string_iff hkeeps.1).2 htext, fun _ => hle, fun harray => ?_⟩
    cases hkeeps.1.symm.trans harray
  by_cases hflag : readsFlag key valueType
  · obtain ⟨rfl, hlength⟩ := h.flag hflag
    rw [List.append_nil, hflag.2]
    exact ⟨.scalar rfl hlength, (fun hkept => nomatch hkept.1), nofun⟩
  · obtain ⟨hvalue, harray⟩ := (h.sought hkeeps hflag).value
    exact ⟨hvalue, fun hkept => absurd hkept hkeeps, harray⟩

theorem exists_goesThrough {value : Bytes}
    (h : Value valueType value) (hlimits : ValueInLimits key valueType value) :
    ∃ text tail, value = text ++ tail.bytes ∧ GoesThrough key valueType text tail := by
  by_cases hkeeps : keepsText key valueType
  · have htext := (value_string_iff hkeeps.1).1 h
    exact ⟨value, {}, (List.append_nil _).symm, fun _ => ⟨rfl, htext, hlimits.1 hkeeps⟩,
      fun hflag => (by cases hkeeps.1.symm.trans hflag.2), fun hno => absurd hkeeps hno⟩
  by_cases hflag : readsFlag key valueType
  · have hlength := (value_scalar_iff (congrArg scalarWidth hflag.2)).1 h
    exact ⟨value, {}, (List.append_nil _).symm, fun hkept => absurd hkept hkeeps,
      fun _ => ⟨rfl, hlength⟩, fun _ hno => absurd hflag hno⟩
  · obtain ⟨text, tail, heq, hsought⟩ := exists_sought (readsNumber key valueType) h hlimits.2
    exact ⟨text, tail, heq, fun hkept => absurd hkept hkeeps, fun hyes => absurd hyes hflag,
      fun _ _ => hsought⟩

/-- A key that is none of the kept ones, whatever its type. -/
theorem not_keepsText (hname : key ≠ "general.architecture") {suffix : String}
    (hsuffix : suffix.toList <:+ key.toList) (hab : ¬ suffix.toList <:+ "decision.type".toList)
    (hba : ¬ "decision.type".toList <:+ suffix.toList) : ¬ keepsText key valueType := by
  rintro ⟨-, hkey | hkey⟩
  · exact hname hkey
  · exact not_both_suffixes hab hba hsuffix (suffix_of_isModelKey hkey)

theorem readsNumber_eq (hname : key ≠ "general.architecture")
    (htemplate : key ≠ "tokenizer.chat_template") (hsplit : key ≠ "split.count") :
    readsNumber key valueType = (isNumberKey key && isInteger valueType) := by
  rw [readsNumber, if_neg (not_or.2 ⟨hname, htemplate⟩), if_neg hsplit]

/-- How the reader goes through the value under a key, whichever branch reads it. -/
theorem takes_readValue (header : Header) (key : String) (valueType : ℕ) :
    Takes (GoesThrough key valueType) (readValue header key valueType) := by
  have hpassed : ∀ {r : Reader Header} {tried : Bool}, ¬ keepsText key valueType →
      ¬ readsFlag key valueType → readsNumber key valueType = tried →
      Takes (Sought tried valueType) r → Takes (GoesThrough key valueType) r := by
    rintro r _ hkeeps hflag rfl htakes
    exact htakes.congr fun text tail => ⟨fun h => ⟨fun hno => absurd hno hkeeps,
      fun hno => absurd hno hflag, fun _ _ => h⟩, fun h => h.sought hkeeps hflag⟩
  have hkept : ∀ {f : String → Header}, keepsText key valueType →
      Takes (GoesThrough key valueType) (readString.bind fun value => Reader.pure (f value)) :=
    fun hkeeps => (takes_keptText _).congr fun text tail => ⟨fun h => ⟨fun _ => h,
      fun hflag => (by cases hkeeps.1.symm.trans hflag.2), fun hno => absurd hkeeps hno⟩,
      fun h => h.kept hkeeps⟩
  -- a key with one of these names is neither kept nor the flag
  have hother : ∀ {suffix : String}, key ≠ "general.architecture" →
      suffix.toList <:+ key.toList → ¬ suffix.toList <:+ "decision.type".toList →
      ¬ "decision.type".toList <:+ suffix.toList →
      ¬ suffix.toList <:+ "clip.has_vision_encoder".toList → ∀ {r : Reader Header} {tried : Bool},
      readsNumber key valueType = tried → Takes (Sought tried valueType) r →
      Takes (GoesThrough key valueType) r :=
    fun hname hsuffix hab hba hclip _ _ => hpassed (not_keepsText hname hsuffix hab hba)
      fun hflag => hclip (hflag.1 ▸ hsuffix)
  unfold readValue
  refine Takes.ite (fun hkey => Takes.ite (fun hstring => ?_) fun hstring => ?_) fun hname => ?_
  · exact hkept ⟨hstring, Or.inl hkey⟩
  · exact hpassed (fun hkeeps => hstring hkeeps.1)
      (fun hflag => absurd (hkey.symm.trans hflag.1) (by decide))
      (if_pos (Or.inl hkey)) (takes_passOver _ _)
  refine Takes.ite (fun hkey => ?_) fun htemplate => Takes.ite (fun hkey => ?_) fun hsplit => ?_
  · exact hother hname (suffix_of_eq hkey) (by decide) (by decide) (by decide)
      (if_pos (Or.inr hkey)) (takes_passOver _ _)
  · have hnumber : readsNumber key valueType = (valueType = typeUint16 || isInteger valueType) := by
      rw [readsNumber, if_neg (not_or.2 ⟨hname, htemplate⟩), if_pos hkey]
    refine hother hname (suffix_of_eq hkey) (by decide) (by decide) (by decide) hnumber ?_
    by_cases htype : valueType = typeUint16
    · subst htype
      exact takes_integerOr rfl (by decide) _ rfl _ _
    · rw [if_neg htype, decide_eq_false htype, Bool.false_or]
      exact takes_readInteger _ _ _
  have hyes (h : isNumberKey key = true) : readsNumber key valueType = isInteger valueType := by
    rw [readsNumber_eq hname htemplate hsplit, h, Bool.true_and]
  have hno (h : isNumberKey key = false) : readsNumber key valueType = false := by
    rw [readsNumber_eq hname htemplate hsplit, h, Bool.false_and]
  refine Takes.ite (fun hkey => ?_) fun htype => Takes.ite (fun hkey => ?_) fun hcontext =>
    Takes.ite (fun hkey => ?_) fun hpooling => Takes.ite (fun hkey => ?_) fun hembedding => ?_
  · exact hother hname (suffix_of_eq hkey) (by decide) (by decide) (by decide)
      (hyes (by simp [isNumberKey, hkey])) (takes_readInteger _ _ _)
  · exact hother hname (List.isSuffixOf_iff_suffix.1 hkey) (by decide) (by decide) (by decide)
      (hyes (by rw [isNumberKey, hkey]; simp)) (takes_readInteger _ _ _)
  · exact hother hname (suffix_of_isModelKey hkey) (by decide) (by decide) (by decide)
      (hyes (by simp [isNumberKey, hkey])) (takes_readInteger _ _ _)
  · have hnumber := hyes (by
      rcases Bool.or_eq_true_iff.1 hkey with hkey | hkey
      · simp [isNumberKey, hkey]
      · simp [isNumberKey, of_decide_eq_true hkey])
    rcases Bool.or_eq_true_iff.1 hkey with hkey | hkey
    · exact hother hname (suffix_of_isModelKey hkey) (by decide) (by decide) (by decide) hnumber
        (takes_readInteger _ _ _)
    · exact hother hname (suffix_of_eq (of_decide_eq_true hkey)) (by decide) (by decide)
        (by decide) hnumber (takes_readInteger _ _ _)
  refine Takes.ite (fun hflag => ?_) fun hflag => Takes.ite (fun hdecision => ?_)
    fun hdecision => ?_
  · refine ((reads_take 1).takes.map _).congr fun text tail => ?_
    constructor
    · rintro ⟨htail, _, hlength, -⟩
      exact ⟨fun hkeeps => (by cases hkeeps.1.symm.trans hflag.2), fun _ => ⟨htail, hlength⟩,
        fun _ hno => absurd hflag hno⟩
    · intro h
      exact ⟨(h.flag hflag).1, text, (h.flag hflag).2, rfl⟩
  · exact hkept ⟨hdecision.2, Or.inr hdecision.1⟩
  -- no key after these is kept
  have hkeeps : ¬ keepsText key valueType := by
    rintro ⟨hstring, hkey | hkey⟩
    · exact hname hkey
    · exact hdecision ⟨hkey, hstring⟩
  rw [Bool.not_eq_true] at hcontext hpooling hembedding
  have hlast : isNumberKey key = (!(isModelKey key "vision.block_count" ||
      isModelKey key "audio.block_count") && attentionKeys.any (isModelKey key)) := by
    rw [isNumberKey, decide_eq_false htype, hcontext, hpooling, hembedding]
    simp only [Bool.false_or]
  refine Takes.ite (fun hkey => ?_) fun hencoder => Takes.ite (fun hkey => ?_) fun hkey => ?_
  · exact hpassed hkeeps hflag (hno (by rw [hlast, hkey]; rfl)) (takes_passOver _ _)
  · rw [Bool.not_eq_true] at hencoder
    exact hpassed hkeeps hflag (hyes (by rw [hlast, hencoder, hkey]; rfl)) (takes_readInteger _ _ _)
  · rw [Bool.not_eq_true] at hkey
    exact hpassed hkeeps hflag (hno (by rw [hlast, hkey, Bool.and_false])) (takes_passOver _ _)

/-! ## One pair after another -/

theorem reads_key : Reads (fun text result => ∃ key : Bytes, key.length ≤ maxStringLen ∧
    result.2 < 2 ^ 32 ∧ text = leBytes 8 key.length ++ (key ++ leBytes 4 result.2) ∧
      result.1 = String.ofList (utf8Lossy key)) readKey := by
  refine (Reads.bind reads_string fun key => Reads.bind reads_u32 fun valueType =>
    Reads.pure (key, valueType)).congr fun text result => ?_
  constructor
  · rintro ⟨_, _, _, rfl, ⟨key, hle, rfl, rfl⟩, _, _, valueType, rfl, ⟨hlt, rfl⟩, rfl, rfl⟩
    exact ⟨key, hle, hlt, by simp, rfl⟩
  · rintro ⟨key, hle, hlt, rfl, hname⟩
    refine ⟨_, leBytes 4 result.2, result.1, by rw [List.append_assoc], ⟨key, hle, rfl, hname⟩,
      leBytes 4 result.2, [], result.2, by simp, ⟨hlt, rfl⟩, rfl, rfl⟩

theorem stops_key : Stops readKey := (stops_u64.bind _).bind _

theorem readPairs_le (left : ℕ) (header : Header) (file : File) (pos : ℕ) :
    (readPairs left header file pos).1.2 ≤ left := by
  fun_induction readPairs left header file pos with
  | case1 => exact le_rfl
  | case2 => exact Nat.zero_le _
  | case3 => exact Nat.zero_le _
  | case4 left header file pos key valueType next hkey after last hvalue rest ih =>
    exact Nat.succ_le_succ ih

/-- A pair the reader takes. -/
def Taken (pair : Pair) : Prop := pair.Full ∧ pair.InLimits

/-- A pair whose value the reader goes through is read, and the position is after it. -/
theorem readPairs_step {pair : Pair} {file : File} {text : Bytes}
    (hlimits : pair.key.length ≤ maxStringLen) (htype : pair.valueType < 2 ^ 32)
    (hgoes : GoesThrough pair.name pair.valueType text tail) (hpos : pos ≤ file.bytes.length)
    (hhas : Has file pos (pair.head ++ text))
    (hover : tail.Over file (pos + (pair.head ++ text).length)) (header : Header) :
    ∃ header', ∀ left, (readPairs (left + 1) header file pos).1.2 =
      (readPairs left header' file (tail.next file (pos + (pair.head ++ text).length))).1.2 +
        1 := by
  obtain ⟨hhead, htext⟩ := has_append_iff.1 hhas
  rw [List.length_append, ← Nat.add_assoc] at hover ⊢
  have hkey := (reads_key file pos _ (pair.name, pair.valueType) hpos).2
    ⟨pair.head, ⟨pair.key, hlimits, htype, rfl, rfl⟩, hhead, rfl⟩
  obtain ⟨header', hvalue⟩ := (takes_readValue (noted header pair.name) pair.name pair.valueType
    file _ _ (hhead.le hpos)).2 ⟨text, tail, hgoes, htext, hover, rfl⟩
  refine ⟨header', fun left => ?_⟩
  rw [readPairs, hkey]
  simp only
  rw [hvalue]

/-- Pairs that are there are all read. -/
theorem readPairs_front (hpairs : ∀ pair ∈ pairs, Taken pair) (header : Header) {file : File}
    (hpos : pos ≤ file.bytes.length) (hhas : Has file pos (textOf pairs)) :
    ∃ header', ∀ left, (readPairs (left + pairs.length) header file pos).1.2 =
      (readPairs left header' file (pos + (textOf pairs).length)).1.2 + pairs.length := by
  induction pairs generalizing header pos with
  | nil => exact ⟨header, fun left => rfl⟩
  | cons pair pairs ih =>
    obtain ⟨⟨hfull, hlimits⟩, hrest⟩ := List.forall_mem_cons.1 hpairs
    obtain ⟨text, tail, hvalue, hgoes⟩ := exists_goesThrough hfull.value hlimits.2
    have htext : pair.text = (pair.head ++ text) ++ tail.bytes := by
      rw [Pair.text, hvalue, List.append_assoc]
    obtain ⟨hpair, hnext⟩ :=
      has_append_iff.1 (show Has file pos (pair.text ++ textOf pairs) from hhas)
    obtain ⟨hfront, htail⟩ := has_append_iff.1 (htext ▸ hpair)
    obtain ⟨header', hstep⟩ := readPairs_step hlimits.1 hfull.valueType hgoes hpos hfront
      (.inl htail) header
    rw [Tail.next_of_has (hfront.le hpos) htail, Nat.add_assoc, ← List.length_append,
      ← htext] at hstep
    obtain ⟨last, hlast⟩ := ih hrest header' (hpair.le hpos) hnext
    refine ⟨last, fun left => ?_⟩
    rw [List.length_cons, ← Nat.add_assoc, hstep, hlast,
      show textOf (pair :: pairs) = pair.text ++ textOf pairs from rfl, List.length_append,
      ← Nat.add_assoc pos]
    rfl

theorem readPairs_of_hasAll (hpairs : ∀ pair ∈ pairs, Taken pair)
    {file : File} (hpos : pos ≤ file.bytes.length) (hall : Has file pos (textOf pairs)) :
    (readPairs pairs.length {} file pos).1.2 = pairs.length := by
  obtain ⟨header, hread⟩ := readPairs_front hpairs {} hpos hall
  have hzero := hread 0
  rwa [Nat.zero_add, readPairs, Nat.zero_add] at hzero

/-- So are those whose end a seek passes over. -/
theorem readPairs_of_endsInSeek (hpairs : ∀ pair ∈ pairs, Taken pair)
    {file : File} (hpos : pos ≤ file.bytes.length) (hends : EndsInSeek file pos pairs) :
    (readPairs pairs.length {} file pos).1.2 = pairs.length := by
  obtain ⟨before, last, text, tail, rfl, -, hgoes, hhas, hcuts, hmax⟩ := hends
  obtain ⟨hbefore, hlast⟩ := List.forall_mem_append.1 hpairs
  obtain ⟨hfull, hlimits⟩ := List.forall_mem_singleton.1 hlast
  obtain ⟨hfront, hhead⟩ := has_append_iff.1 hhas
  rw [List.length_append, ← Nat.add_assoc] at hcuts hmax
  obtain ⟨header, hread⟩ := readPairs_front hbefore {} hpos hfront
  obtain ⟨header', hstep⟩ := readPairs_step hlimits.1 hfull.valueType hgoes (hfront.le hpos) hhead
    (.inr ⟨hcuts, hmax⟩) header
  rw [List.length_append, List.length_singleton, Nat.add_comm before.length, hread, hstep 0,
    readPairs]

/-- Pairs that were all read are there, but for an end of the last value. -/
theorem readPairs_exact (left : ℕ) (header : Header) (file : File) (pos : ℕ)
    (hpos : pos ≤ file.bytes.length) (h : (readPairs left header file pos).1.2 = left) :
    ∃ pairs : List Pair, pairs.length = left ∧ (∀ pair ∈ pairs, Taken pair) ∧
      (Has file pos (textOf pairs) ∨ EndsInSeek file pos pairs) := by
  induction left generalizing header pos with
  | zero => exact ⟨[], rfl, by simp, Or.inl ⟨_, rfl⟩⟩
  | succ left ih =>
    rw [readPairs] at h
    split at h
    · cases h
    · rename_i name valueType middle hkey
      split at h
      · cases h
      · rename_i header' next hvalue
        have hcount : (readPairs left header' file next).1.2 = left := Nat.succ.inj h
        obtain ⟨_, ⟨key, hle, hlt, rfl, rfl⟩, hhead, rfl⟩ :=
          (reads_key file pos middle (name, valueType) hpos).1 hkey
        obtain ⟨text, tail, hgoes, htext, hover, rfl⟩ := (takes_readValue _ _ valueType file _ next
          (hhead.le hpos)).1 ⟨header', hvalue⟩
        let pair : Pair := ⟨key, valueType, text ++ tail.bytes⟩
        have htaken : Taken pair :=
          ⟨⟨hle.trans_lt (by decide), hlt, hgoes.value.1⟩, hle, hgoes.value.2⟩
        have hfront : Has file pos (pair.head ++ text) := has_append_iff.2 ⟨hhead, htext⟩
        have hlength : pos + (pair.head ++ text).length = pos + pair.head.length + text.length := by
          rw [List.length_append, Nat.add_assoc]
        have hsplit : pair.text = (pair.head ++ text) ++ tail.bytes := (List.append_assoc ..).symm
        change tail.Over file (pos + pair.head.length + text.length) at hover
        change (readPairs left header' file
          (tail.next file (pos + pair.head.length + text.length))).1.2 = left at hcount
        rw [← hlength] at hover hcount
        rcases hover with hthere | ⟨hcuts, hmax⟩
        · have hpair : Has file pos pair.text := hsplit ▸ has_append_iff.2 ⟨hfront, hthere⟩
          rw [Tail.next_of_has (hfront.le hpos) hthere, Nat.add_assoc, ← List.length_append,
            ← hsplit] at hcount
          obtain ⟨pairs, rfl, hpairs, hrest⟩ := ih header' _ (hpair.le hpos) hcount
          refine ⟨pair :: pairs, rfl, List.forall_mem_cons.2 ⟨htaken, hpairs⟩, ?_⟩
          rcases hrest with hrest | ⟨before, last, text', tail', rfl, heq, hgoes', hhas, hcuts,
            hmax⟩
          · exact Or.inl (has_append_iff.2 ⟨hpair, hrest⟩)
          · have hcons : textOf (pair :: before) ++ (last.head ++ text') =
                pair.text ++ (textOf before ++ (last.head ++ text')) :=
              List.append_assoc pair.text _ _
            refine Or.inr ⟨pair :: before, last, text', tail', rfl, heq, hgoes', ?_⟩
            rw [hcons, List.length_append, ← Nat.add_assoc]
            exact ⟨has_append_iff.2 ⟨hpair, hhas⟩, hcuts, hmax⟩
        · -- a key would have been read after it
          cases left with
          | zero =>
            exact ⟨[pair], rfl, by simpa using htaken,
              Or.inr ⟨[], pair, text, tail, rfl, rfl, hgoes, hfront, hcuts, hmax⟩⟩
          | succ left =>
            have hstop := stops_key file _ (Tail.lt_next_of_cuts hcuts)
            rw [readPairs] at hcount
            split at hcount
            · cases hcount
            · rename_i hread
              rw [hread] at hstop
              cases hstop

/-! ## The whole header -/

theorem reads_start : Reads (fun text counts => ∃ version, 2 ≤ version ∧ version < 2 ^ 32 ∧
    counts.1 < 2 ^ 64 ∧ counts.2 < 2 ^ 64 ∧ text = startText version counts.1 counts.2)
    readStart := by
  refine (Reads.bind (reads_take 4) fun magic => (Reads.bind reads_u32 fun version =>
    (Reads.bind reads_u64 fun tensorCount => Reads.bind reads_u64 fun kvCount =>
      Reads.pure (tensorCount, kvCount)).guard (version < 2)).guard (magic ≠ ascii "GGUF")).congr
        fun text counts => ?_
  constructor
  · rintro ⟨_, _, _, rfl, ⟨-, rfl⟩, hmagic, _, _, version, rfl, ⟨hversion, rfl⟩, hle, _, _,
      tensorCount, rfl, ⟨htensors, rfl⟩, _, _, kvCount, rfl, ⟨hpairs, rfl⟩, rfl, rfl⟩
    rw [not_not] at hmagic
    refine ⟨version, Nat.le_of_not_lt hle, hversion, htensors, hpairs, ?_⟩
    rw [hmagic, List.append_nil]
    rfl
  · rintro ⟨version, hle, hversion, htensors, hpairs, rfl⟩
    refine ⟨ascii "GGUF", _, _, rfl, ⟨rfl, rfl⟩, fun h => h rfl, _, _, version, rfl,
      ⟨hversion, rfl⟩, Nat.not_lt.2 hle, _, _, counts.1, rfl, ⟨htensors, rfl⟩, _, [], counts.2,
      (List.append_nil _).symm, ⟨hpairs, rfl⟩, rfl, rfl⟩

theorem length_startText (version tensorCount kvCount : ℕ) :
    (startText version tensorCount kvCount).length = startLength := by
  simp [startText, startLength, ascii]

theorem readStart_iff {file : File} {tensorCount kvCount : ℕ} :
    readStart file 0 = (some (tensorCount, kvCount), startLength) ↔
      Starts file tensorCount kvCount := by
  rw [reads_start file 0 _ _ (Nat.zero_le _)]
  constructor
  · rintro ⟨_, ⟨version, hle, hversion, htensors, hpairs, rfl⟩, hhas, -⟩
    exact ⟨version, hle, hversion, htensors, hpairs, hhas⟩
  · rintro ⟨version, hle, hversion, htensors, hpairs, hhas⟩
    refine ⟨_, ⟨version, hle, hversion, htensors, hpairs, rfl⟩, hhas, ?_⟩
    rw [length_startText, Nat.zero_add]

theorem Starts.length_le {file : File} {tensorCount kvCount : ℕ}
    (h : Starts file tensorCount kvCount) : startLength ≤ file.bytes.length := by
  obtain ⟨version, -, -, -, -, hhas⟩ := h
  have hle := hhas.le (Nat.zero_le _)
  rwa [length_startText, Nat.zero_add] at hle

theorem ggufFacts_of_starts {file : File} {tensorCount kvCount : ℕ}
    (h : Starts file tensorCount kvCount) : ∃ facts, ggufFacts file = some facts ∧
      (facts.metadataComplete = true ↔
        (readPairs (min kvCount maxKvPairs) {} file startLength).1.2 = kvCount) := by
  unfold ggufFacts
  rw [readStart_iff.2 h]
  exact ⟨_, rfl, decide_eq_true_iff⟩

theorem ggufFacts_eq_none {file : File}
    (h : ∀ tensorCount kvCount, ¬ Starts file tensorCount kvCount) : ggufFacts file = none := by
  unfold ggufFacts
  split
  · rfl
  · rename_i tensorCount kvCount pos hread
    obtain ⟨_, ⟨version, -, -, -, -, rfl⟩, -, hpos⟩ :=
      (reads_start file 0 _ _ (Nat.zero_le _)).1 hread
    rw [length_startText, Nat.zero_add] at hpos
    exact absurd (readStart_iff.1 (hpos ▸ hread)) (h _ _)

theorem complete_le {file : File} {tensorCount kvCount : ℕ} (h : Starts file tensorCount kvCount)
    {facts : Facts} (hfacts : ggufFacts file = some facts)
    (hcomplete : facts.metadataComplete = true) : kvCount ≤ maxKvPairs := by
  obtain ⟨facts', hfacts', hiff⟩ := ggufFacts_of_starts h
  rw [hfacts, Option.some.injEq] at hfacts'
  have hcount := hiff.1 (hfacts' ▸ hcomplete)
  have hle := readPairs_le (min kvCount maxKvPairs) {} file startLength
  omega

/-! ## A file has its pairs in one way -/

theorem leBytes_inj {k m : ℕ} (hm : m < 256 ^ k) (hn : n < 256 ^ k)
    (h : leBytes k m = leBytes k n) : m = n := by
  rw [← leNat_leBytes hm, h, leNat_leBytes hn]

/-- A number in front of two texts that start alike is the same. -/
theorem number_inj {k m : ℕ} (hm : m < 256 ^ k) (hn : n < 256 ^ k)
    (h : leBytes k m ++ a = leBytes k n ++ b) : m = n ∧ a = b := by
  obtain ⟨hnumber, hrest⟩ := List.append_inj h (by rw [length_leBytes, length_leBytes])
  exact ⟨leBytes_inj hm hn hnumber, hrest⟩

theorem StringText.inj (ha : StringText a) (hb : StringText b) (h : a ++ s = b ++ t) : a = b := by
  obtain ⟨bytes, hlt, rfl⟩ := ha
  obtain ⟨bytes', hlt', rfl⟩ := hb
  rw [List.append_assoc, List.append_assoc] at h
  obtain ⟨hlength, hrest⟩ := number_inj (k := 8) hlt hlt' h
  rw [hlength, (List.append_inj hrest hlength).1]

/-- Lists of as many elements of a kind that start alike are the same. -/
theorem elements_inj {P : Bytes → Prop} {as bs : List Bytes}
    (h : ∀ a ∈ as, ∀ (b s t : Bytes), P b → a ++ s = b ++ t → a = b) (hbs : ∀ b ∈ bs, P b)
    (hlength : as.length = bs.length) (heq : as.flatten ++ s = bs.flatten ++ t) : as = bs := by
  induction as generalizing bs with
  | nil => rw [List.length_eq_zero_iff.1 hlength.symm]
  | cons a as ih =>
    obtain ⟨b, rest, rfl⟩ := List.exists_cons_of_length_eq_add_one hlength.symm
    obtain ⟨ha, has⟩ := List.forall_mem_cons.1 h
    obtain ⟨hb, hrest⟩ := List.forall_mem_cons.1 hbs
    rw [List.flatten_cons, List.flatten_cons, List.append_assoc, List.append_assoc] at heq
    have hab := ha b _ _ hb heq
    rw [hab] at heq ⊢
    rw [ih has hrest (Nat.succ.inj hlength) (List.append_cancel_left heq)]

theorem Value.inj (ha : Value valueType a)
    (hb : Value valueType b) (h : a ++ s = b ++ t) : a = b := by
  induction ha generalizing b s t with
  | scalar hwidth hlength =>
    have hlength' := (value_scalar_iff hwidth).1 hb
    exact (List.append_inj h (by rw [hlength, hlength'])).1
  | string htext => exact htext.inj ((value_string_iff rfl).1 hb) h
  | array htype hcount hall ih =>
    obtain ⟨elementType, elements, htype', hcount', hall', rfl⟩ := value_array rfl hb
    rw [List.append_assoc, List.append_assoc, List.append_assoc, List.append_assoc] at h
    obtain ⟨htypes, hrest⟩ := number_inj (k := 4) htype htype' h
    obtain ⟨hlength, hflatten⟩ := number_inj (k := 8) hcount hcount' hrest
    subst htypes
    rw [hlength, elements_inj (fun a ha b s t hb => ih a ha hb) hall' hlength hflatten]

theorem Pair.Full.inj {a b : Pair} (ha : a.Full) (hb : b.Full)
    (h : a.text ++ s = b.text ++ t) : a = b ∧ s = t := by
  obtain ⟨key, valueType, value⟩ := a
  obtain ⟨key', valueType', value'⟩ := b
  simp only [Pair.text, Pair.head, List.append_assoc] at h
  obtain ⟨hlength, hkeys⟩ := number_inj (k := 8) ha.key hb.key h
  obtain ⟨hkey, htypes⟩ := List.append_inj hkeys hlength
  obtain ⟨htype, hvalues⟩ := number_inj (k := 4) ha.valueType hb.valueType htypes
  simp only at htype
  subst hkey htype
  have hvalue := ha.value.inj hb.value hvalues
  simp only at hvalue
  subst hvalue
  exact ⟨rfl, List.append_cancel_left hvalues⟩

theorem pairs_inj {as bs : List Pair} (has : ∀ pair ∈ as, pair.Full) (hbs : ∀ pair ∈ bs, pair.Full)
    (hlength : as.length = bs.length) (h : textOf as ++ s = textOf bs ++ t) : as = bs := by
  induction as generalizing bs with
  | nil => rw [List.length_eq_zero_iff.1 hlength.symm]
  | cons a as ih =>
    obtain ⟨b, rest, rfl⟩ := List.exists_cons_of_length_eq_add_one hlength.symm
    obtain ⟨ha, has⟩ := List.forall_mem_cons.1 has
    obtain ⟨hb, hrest⟩ := List.forall_mem_cons.1 hbs
    rw [show textOf (a :: as) = a.text ++ textOf as from rfl,
      show textOf (b :: rest) = b.text ++ textOf rest from rfl, List.append_assoc,
      List.append_assoc] at h
    obtain ⟨hpair, hpairs⟩ := ha.inj hb h
    rw [hpair, ih has hrest (Nat.succ.inj hlength) hpairs]

/-- Pairs that end after the file start as it does. -/
theorem EndsInSeek.text {file : File} {pos : ℕ} {pairs : List Pair}
    (h : EndsInSeek file pos pairs) : ∃ more, textOf pairs = file.bytes.drop pos ++ more := by
  obtain ⟨before, last, text, tail, rfl, hvalue, -, ⟨after, hafter⟩, ⟨more, -, hmore⟩, -⟩ := h
  refine ⟨more, ?_⟩
  rw [← List.drop_drop, hafter, List.drop_left] at hmore
  rw [hafter, textOf, List.map_append, List.flatten_append]
  show textOf before ++ (last.text ++ []) = _
  rw [List.append_nil, Pair.text, hvalue, hmore]
  simp only [List.append_assoc]

/-! ## When the metadata is complete -/

variable {file : File} {tensorCount kvCount : ℕ} {facts : Facts}

/-- What was read to the end of the pairs. -/
theorem read_of_complete (hstarts : Starts file tensorCount kvCount)
    (hfacts : ggufFacts file = some facts) (hcomplete : facts.metadataComplete = true) :
    kvCount ≤ maxKvPairs ∧ ∃ pairs : List Pair, pairs.length = kvCount ∧
      (∀ pair ∈ pairs, Taken pair) ∧ (HasAll file pairs ∨ EndsInSeek file startLength pairs) := by
  obtain ⟨facts', hfacts', hiff⟩ := ggufFacts_of_starts hstarts
  have hle := complete_le hstarts hfacts hcomplete
  rw [hfacts, Option.some.injEq] at hfacts'
  have hcount := hiff.1 (hfacts' ▸ hcomplete)
  rw [Nat.min_eq_left hle] at hcount
  exact ⟨hle, readPairs_exact kvCount {} file startLength hstarts.length_le hcount⟩

/-- Pairs that are there, or end in bytes passed over, are all read. -/
theorem complete_of_read (hstarts : Starts file tensorCount pairs.length)
    (hfacts : ggufFacts file = some facts) (hle : pairs.length ≤ maxKvPairs)
    (htaken : ∀ pair ∈ pairs, Taken pair)
    (hends : HasAll file pairs ∨ EndsInSeek file startLength pairs) :
    facts.metadataComplete = true := by
  obtain ⟨facts', hfacts', hiff⟩ := ggufFacts_of_starts hstarts
  rw [hfacts, Option.some.injEq] at hfacts'
  rw [hfacts', hiff, Nat.min_eq_left hle]
  rcases hends with hall | hseek
  · exact readPairs_of_hasAll htaken hstarts.length_le hall
  · exact readPairs_of_endsInSeek htaken hstarts.length_le hseek

/-- A file with every pair in full has them read when each is within the limits. -/
theorem complete_iff_of_hasAll (hstarts : Starts file tensorCount pairs.length)
    (hfacts : ggufFacts file = some facts) (hfull : ∀ pair ∈ pairs, pair.Full)
    (hall : HasAll file pairs) : facts.metadataComplete = true ↔
      pairs.length ≤ maxKvPairs ∧ ∀ pair ∈ pairs, pair.InLimits := by
  constructor
  · intro hcomplete
    obtain ⟨hle, taken, hcount, htaken, hends⟩ := read_of_complete hstarts hfacts hcomplete
    refine ⟨hle, ?_⟩
    -- the pairs read are the pairs of the file, the last cut or not
    obtain ⟨after, hdrop⟩ := hall
    have hsame : pairs = taken := by
      rcases hends with ⟨after', hdrop'⟩ | hends
      · exact pairs_inj hfull (fun pair hpair => (htaken pair hpair).1) hcount.symm
          (hdrop.symm.trans hdrop')
      · obtain ⟨more, hmore⟩ := hends.text
        rw [hdrop, List.append_assoc] at hmore
        exact pairs_inj hfull (fun pair hpair => (htaken pair hpair).1) hcount.symm
          (hmore.symm.trans (List.append_nil _).symm)
    exact fun pair hpair => (htaken pair (hsame ▸ hpair)).2
  · rintro ⟨hle, hlimits⟩
    exact complete_of_read hstarts hfacts hle
      (fun pair hpair => ⟨hfull pair hpair, hlimits pair hpair⟩) (.inl hall)

/-- For every file: without the start of a GGUF there are no facts. With it the metadata is reported
complete exactly when there are at most so many pairs, each within what the reader takes, and the
file has them all, or it ends inside bytes of the last value that a seek passes over. -/
theorem complete_within_limits (file : File) :
    (ggufFacts file = none ∧ ∀ tensorCount kvCount, ¬ Starts file tensorCount kvCount) ∨
    ∃ facts tensorCount kvCount, ggufFacts file = some facts ∧ Starts file tensorCount kvCount ∧
      (∀ pairs : List Pair, pairs.length = kvCount → (∀ pair ∈ pairs, pair.Full) →
        HasAll file pairs → (facts.metadataComplete = true ↔
          kvCount ≤ maxKvPairs ∧ ∀ pair ∈ pairs, pair.InLimits)) ∧
      (facts.metadataComplete = true ↔ kvCount ≤ maxKvPairs ∧
        ∃ pairs : List Pair, pairs.length = kvCount ∧
          (∀ pair ∈ pairs, pair.Full ∧ pair.InLimits) ∧
          (HasAll file pairs ∨ EndsInSeek file startLength pairs)) := by
  by_cases h : ∃ tensorCount kvCount, Starts file tensorCount kvCount
  · obtain ⟨tensorCount, kvCount, hstarts⟩ := h
    obtain ⟨facts, hfacts, -⟩ := ggufFacts_of_starts hstarts
    refine Or.inr ⟨facts, tensorCount, kvCount, hfacts, hstarts, ?_, ?_, ?_⟩
    · rintro pairs rfl hfull hall
      exact complete_iff_of_hasAll hstarts hfacts hfull hall
    · exact read_of_complete hstarts hfacts
    · rintro ⟨hle, pairs, rfl, htaken, hends⟩
      exact complete_of_read hstarts hfacts hle htaken hends
  · refine Or.inl ⟨ggufFacts_eq_none ?_, ?_⟩
    · exact fun tensorCount kvCount hstarts => h ⟨_, _, hstarts⟩
    · exact fun tensorCount kvCount hstarts => h ⟨_, _, hstarts⟩

/-- The file of these pairs and nothing else. -/
def fileWith (pairs : List Pair)
    (h : (startText 3 0 pairs.length ++ textOf pairs).length < 2 ^ 63) : File :=
  ⟨_, _, le_rfl, h⟩

/-- The file has every pair in full, and the metadata is reported incomplete. -/
def FullIncomplete (file : File) (pairs : List Pair) : Prop :=
  Starts file 0 pairs.length ∧ (∀ pair ∈ pairs, pair.Full) ∧ HasAll file pairs ∧
    ∃ facts, ggufFacts file = some facts ∧ facts.metadataComplete = false

theorem fullIncomplete_of {h : (startText 3 0 pairs.length ++ textOf pairs).length < 2 ^ 63}
    (hcount : pairs.length < 2 ^ 64) (hfull : ∀ pair ∈ pairs, pair.Full)
    (hlimits : ¬ (pairs.length ≤ maxKvPairs ∧ ∀ pair ∈ pairs, pair.InLimits)) :
    FullIncomplete (fileWith pairs h) pairs := by
  have hstarts : Starts (fileWith pairs h) 0 pairs.length :=
    ⟨3, by decide, by decide, by decide, hcount, textOf pairs, rfl⟩
  have hall : HasAll (fileWith pairs h) pairs := by
    refine ⟨[], ?_⟩
    rw [List.append_nil]
    exact List.drop_left' (length_startText 3 0 pairs.length)
  obtain ⟨facts, hfacts, -⟩ := ggufFacts_of_starts hstarts
  refine ⟨hstarts, hfull, hall, facts, hfacts, ?_⟩
  rw [← complete_iff_of_hasAll hstarts hfacts hfull hall] at hlimits
  exact Bool.eq_false_iff.2 hlimits

/-- An empty key and one byte. -/
def smallPair : Pair := ⟨[], 0, [0]⟩

/-- A byte more than the reader takes of a key. -/
def longKey : Bytes := List.replicate 65537 97

theorem length_longKey : longKey.length = 65537 := List.length_replicate

def longPair : Pair := ⟨longKey, 0, [0]⟩

/-- An array of no arrays. -/
def nestedPair : Pair := ⟨[], typeArray, leBytes 4 typeArray ++ leBytes 8 0⟩

theorem Pair.length_text (pair : Pair) :
    pair.text.length = 12 + pair.key.length + pair.value.length := by
  simp only [Pair.text, Pair.head, List.length_append, length_leBytes]
  omega

theorem length_textOf_replicate (n : ℕ) (pair : Pair) :
    (textOf (List.replicate n pair)).length = n * pair.text.length := by
  rw [textOf, List.map_replicate, List.length_flatten, List.map_replicate, List.sum_replicate_nat]

theorem crowded_fits : (startText 3 0 (List.replicate 513 smallPair).length ++
    textOf (List.replicate 513 smallPair)).length < 2 ^ 63 := by
  rw [List.length_append, length_startText, length_textOf_replicate]
  decide

theorem long_fits : (startText 3 0 1 ++ textOf [longPair]).length < 2 ^ 63 := by
  have hkey : longPair.key.length = 65537 := length_longKey
  rw [List.length_append, length_startText, ← List.replicate_one, length_textOf_replicate,
    Pair.length_text, hkey]
  decide

theorem nested_fits : (startText 3 0 1 ++ textOf [nestedPair]).length < 2 ^ 63 := by
  rw [List.length_append, length_startText, ← List.replicate_one, length_textOf_replicate]
  decide

/-- A pair more than the reader goes through, a key longer than it takes, and an array of a kind it
does not pass over. -/
theorem full_but_incomplete :
    FullIncomplete (fileWith (List.replicate 513 smallPair) crowded_fits)
      (List.replicate 513 smallPair) ∧
    FullIncomplete (fileWith [longPair] long_fits) [longPair] ∧
    FullIncomplete (fileWith [nestedPair] nested_fits) [nestedPair] := by
  have hcount : (List.replicate 513 smallPair).length = 513 := List.length_replicate
  refine ⟨fullIncomplete_of (by rw [hcount]; decide) ?_ ?_, fullIncomplete_of (by decide) ?_ ?_,
    fullIncomplete_of (by decide) ?_ ?_⟩
  · intro pair hpair
    rw [List.eq_of_mem_replicate hpair]
    exact ⟨by decide, by decide, Value.scalar rfl rfl⟩
  · rintro ⟨hle, -⟩
    rw [hcount] at hle
    exact absurd hle (by decide)
  · refine List.forall_mem_singleton.2 ⟨?_, by decide, Value.scalar rfl rfl⟩
    show longKey.length < 2 ^ 64
    rw [length_longKey]
    decide
  · rintro ⟨-, hlimits⟩
    have hle : longKey.length ≤ maxStringLen := (hlimits longPair (.head _)).1
    rw [length_longKey] at hle
    exact absurd hle (by decide)
  · exact List.forall_mem_singleton.2 ⟨by decide, by decide,
      @Value.array typeArray [] (by decide) (by decide) fun _ h => nomatch h⟩
  · rintro ⟨-, hlimits⟩
    have harray := (hlimits nestedPair (.head _)).2.2 rfl
    exact absurd harray (by unfold ArrayInLimits; decide)

end Hedos.Resolution.Gguf
