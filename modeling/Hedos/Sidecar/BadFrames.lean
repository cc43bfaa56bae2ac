import Hedos.Sidecar.Supervisor

/-!
# The frames in front of a bad one

`Decoder::append` gives back the frames it completed, or the first error it meets; with an error
the frames it completed in the same call are lost. `ingest` hands on what it is given, and kills the
sidecar on an error.

* `front` is what stands at the start of some bytes, and `content` what is in them: the frames up to
  the first bad one, how many bytes they take and where it shows that the next is bad;
* `Decoder.delivered` is what is handed on of a stream that comes in chunks (`ingestAll_delivers`);
* all frames in front of the bad one are, exactly when a chunk ends between them and the place where
  the bad one shows (`delivered_all_iff`).
-/

namespace Hedos.Sidecar

variable {ν : Type}

/-! ## A stream of bytes -/

/-- What stands at the start of some bytes: a frame of so many bytes, or one that is known to be bad
after so many, unless there are too few to tell. -/
inductive Front (ν : Type)
  | short
  | whole (frame : Frame ν) (size : ℕ)
  | bad (error : FrameError) (shown : ℕ)

/-- How many bytes it takes to tell. -/
def Front.need : Front ν → ℕ
  | short => 0
  | whole _ size => size
  | bad _ shown => shown

/-- A body of the declared length that is all there. -/
def bodyFront (json : Json ν) (length : ℕ) (body : Bytes) : Front ν :=
  match decodeBody json (body.headD 0) body.tail with
  | .ok frame => .whole frame (4 + length)
  | .error error => .bad error (4 + length)

def front (json : Json ν) (bytes : Bytes) : Front ν :=
  match declaredLength bytes with
  | none => .short
  | some length =>
    if ¬(1 ≤ length ∧ length ≤ maxFrameBytes) then .bad (.oversizedFrame length) 4
    else if bytes.length < 4 + length then .short
    else bodyFront json length ((bytes.drop 4).take length)

section

variable {json : Json ν} {bytes more : Bytes}

theorem four_le_of_declaredLength {length : ℕ} (h : declaredLength bytes = some length) :
    4 ≤ bytes.length := by
  by_contra hshort
  rw [declaredLength_of_length_lt (by omega)] at h
  cases h

@[simp] theorem need_bodyFront (length : ℕ) (body : Bytes) :
    (bodyFront json length body).need = 4 + length := by
  unfold bodyFront
  split <;> rfl

theorem bodyFront_ne_short (length : ℕ) (body : Bytes) : bodyFront json length body ≠ .short := by
  unfold bodyFront
  split <;> simp

/-- What is told of the start of some bytes stays when more come. -/
theorem front_append (h : front json bytes ≠ .short) :
    front json (bytes ++ more) = front json bytes := by
  cases hlength : declaredLength bytes with
  | none => exact absurd (by simp only [front, hlength]) h
  | some length =>
    have hfour := four_le_of_declaredLength hlength
    have hsame : declaredLength (bytes ++ more) = some length := by
      rw [← declaredLength_append (List.prefix_append bytes more) hfour, hlength]
    simp only [front, hlength, hsame] at h ⊢
    split
    · rfl
    · rename_i hfits
      rw [if_neg hfits] at h
      by_cases hroom : bytes.length < 4 + length
      · exact absurd (if_pos hroom) h
      · have htake : ((bytes ++ more).drop 4).take length = (bytes.drop 4).take length := by
          rw [List.drop_append_of_le_length (by omega), List.take_append_of_le_length]
          rw [List.length_drop]
          omega
        rw [if_neg hroom, if_neg (by rw [List.length_append]; omega), htake]

/-- It takes no more bytes than there are. -/
theorem need_le (json : Json ν) (bytes : Bytes) : (front json bytes).need ≤ bytes.length := by
  cases hlength : declaredLength bytes with
  | none => simp [front, hlength, Front.need]
  | some length =>
    have hfour := four_le_of_declaredLength hlength
    simp only [front, hlength]
    split
    · exact hfour
    · split
      · exact Nat.zero_le _
      · rw [need_bodyFront]
        omega

/-- And as many are enough. -/
theorem front_of_need_le (h : front json (bytes ++ more) ≠ .short)
    (hneed : (front json (bytes ++ more)).need ≤ bytes.length) : front json bytes ≠ .short := by
  cases hlength : declaredLength (bytes ++ more) with
  | none => exact absurd (by simp only [front, hlength]) h
  | some length =>
    simp only [front, hlength] at h hneed
    split at h
    · rename_i hsize
      rw [if_pos hsize] at hneed
      have hsame : declaredLength bytes = some length := by
        rw [declaredLength_append (List.prefix_append bytes more) hneed, hlength]
      simp only [front, hsame, if_pos hsize]
      simp
    · rename_i hsize
      rw [if_neg hsize] at hneed
      split at h
      · exact absurd rfl h
      · rename_i hroom
        rw [if_neg hroom, need_bodyFront] at hneed
        have hsame : declaredLength bytes = some length := by
          rw [declaredLength_append (List.prefix_append bytes more) (by omega), hlength]
        simp only [front, hsame, if_neg hsize, if_neg (show ¬ bytes.length < 4 + length by omega)]
        exact bodyFront_ne_short _ _

theorem need_pos (h : front json bytes ≠ .short) : 0 < (front json bytes).need := by
  cases hlength : declaredLength bytes with
  | none => exact absurd (by simp only [front, hlength]) h
  | some length =>
    simp only [front, hlength] at h ⊢
    split
    · exact Nat.zero_lt_succ _
    · rename_i hsize
      rw [if_neg hsize] at h
      split
      · rename_i hroom
        exact absurd (if_pos hroom) h
      · rw [need_bodyFront]
        omega

end

/-- What is in a stream of bytes: the frames up to the first that is bad or not all there, the bytes
they take, and where it shows that the next one is bad. -/
structure Content (ν : Type) where
  frames : List (Frame ν) := []
  size : ℕ := 0
  shown : Option ℕ := none

def content (json : Json ν) (bytes : Bytes) : Content ν :=
  match _hfront : front json bytes with
  | .short => {}
  | .bad _ shown => { shown := some shown }
  | .whole frame size =>
    let rest := content json (bytes.drop size)
    { frames := frame :: rest.frames
      size := size + rest.size
      shown := rest.shown.map (size + ·) }
termination_by bytes.length
decreasing_by
  have hpos : 0 < (front json bytes).need := need_pos (by rw [_hfront]; simp)
  have hle := need_le json bytes
  rw [_hfront] at hpos hle
  simp only [Front.need] at hpos hle
  rw [List.length_drop]
  omega

section

variable {json : Json ν} {bytes more : Bytes}

theorem content_of_short (h : front json bytes = .short) : content json bytes = {} := by
  rw [content]
  split <;> simp_all

variable {shown consumed : ℕ} {buffer : Bytes}

theorem content_of_bad {error : FrameError} (h : front json bytes = .bad error shown) :
    content json bytes = { shown := some shown } := by
  rw [content]
  split <;> simp_all

theorem content_of_whole {frame : Frame ν} {size : ℕ} (h : front json bytes = .whole frame size) :
    content json bytes =
      { frames := frame :: (content json (bytes.drop size)).frames
        size := size + (content json (bytes.drop size)).size
        shown := (content json (bytes.drop size)).shown.map (size + ·) } := by
  rw [content]
  split
  · simp_all
  · simp_all
  · rename_i hfront
    rw [h] at hfront
    cases hfront
    rfl

theorem size_le (json : Json ν) (bytes : Bytes) : (content json bytes).size ≤ bytes.length := by
  induction bytes using content.induct json with
  | case1 bytes hfront => rw [content_of_short hfront]; exact Nat.zero_le _
  | case2 bytes error shown hfront => rw [content_of_bad hfront]; exact Nat.zero_le _
  | case3 bytes frame size hfront ih =>
    have hneed := need_le json bytes
    rw [hfront, Front.need] at hneed
    rw [content_of_whole hfront]
    rw [List.length_drop] at ih
    simp only
    omega

theorem shown_le (h : (content json bytes).shown = some shown) : shown ≤ bytes.length := by
  induction bytes using content.induct json generalizing shown with
  | case1 bytes hfront => simp [content_of_short hfront] at h
  | case2 bytes error place hfront =>
    have hneed := need_le json bytes
    rw [hfront, Front.need] at hneed
    rw [content_of_bad hfront] at h
    cases h
    exact hneed
  | case3 bytes frame size hfront ih =>
    have hneed := need_le json bytes
    rw [hfront, Front.need] at hneed
    rw [content_of_whole hfront] at h
    obtain ⟨place, hplace, rfl⟩ := Option.map_eq_some_iff.1 h
    have hrest := ih hplace
    rw [List.length_drop] at hrest
    omega

/-- What is behind the frames is too short to tell, unless it is bad. -/
theorem front_left (h : (content json bytes).shown = none) :
    front json (bytes.drop (content json bytes).size) = .short := by
  induction bytes using content.induct json with
  | case1 bytes hfront => simpa [content_of_short hfront] using hfront
  | case2 bytes error shown hfront => simp [content_of_bad hfront] at h
  | case3 bytes frame size hfront ih =>
    rw [content_of_whole hfront] at h ⊢
    rw [← List.drop_drop]
    exact ih (Option.map_eq_none_iff.1 h)

theorem content_append_of_shown (h : (content json bytes).shown = some shown) :
    content json (bytes ++ more) = content json bytes := by
  induction bytes using content.induct json generalizing shown with
  | case1 bytes hfront => simp [content_of_short hfront] at h
  | case2 bytes error place hfront =>
    have hsame : front json (bytes ++ more) = front json bytes := front_append (by simp [hfront])
    rw [content_of_bad hfront, content_of_bad (hsame.trans hfront)]
  | case3 bytes frame size hfront ih =>
    have hsame : front json (bytes ++ more) = front json bytes := front_append (by simp [hfront])
    have hneed := need_le json bytes
    rw [hfront, Front.need] at hneed
    rw [content_of_whole hfront] at h
    obtain ⟨place, hplace, -⟩ := Option.map_eq_some_iff.1 h
    rw [content_of_whole hfront, content_of_whole (hsame.trans hfront),
      List.drop_append_of_le_length hneed, ih hplace]

/-- More bytes are read behind the frames there are. -/
theorem content_append (h : (content json bytes).shown = none) :
    content json (bytes ++ more) =
      let left := bytes.drop (content json bytes).size
      { frames := (content json bytes).frames ++ (content json (left ++ more)).frames
        size := (content json bytes).size + (content json (left ++ more)).size
        shown := (content json (left ++ more)).shown.map ((content json bytes).size + ·) } := by
  induction bytes using content.induct json with
  | case1 bytes hfront => simp [content_of_short hfront]
  | case2 bytes error shown hfront => simp [content_of_bad hfront] at h
  | case3 bytes frame size hfront ih =>
    have hsame : front json (bytes ++ more) = front json bytes := front_append (by simp [hfront])
    have hneed := need_le json bytes
    rw [hfront, Front.need] at hneed
    rw [content_of_whole hfront] at h
    have hrest := ih (Option.map_eq_none_iff.1 h)
    rw [content_of_whole (hsame.trans hfront), content_of_whole hfront,
      List.drop_append_of_le_length hneed, hrest]
    simp only [List.drop_drop, List.cons_append, Option.map_map, Nat.add_assoc]
    congr 2

/-- What cannot be told yet takes more bytes. -/
theorem lt_need_of_short (hfront : front json bytes = .short)
    (h : front json (bytes ++ more) ≠ .short) :
    bytes.length < (front json (bytes ++ more)).need :=
  not_le.1 fun hle => front_of_need_le h hle hfront

/-- A bad frame that does not show in some bytes shows behind them. -/
theorem lt_shown_of_short (hfront : front json bytes = .short)
    (h : (content json (bytes ++ more)).shown = some shown) : bytes.length < shown := by
  have hneed : front json (bytes ++ more) ≠ .short →
      bytes.length < (front json (bytes ++ more)).need := lt_need_of_short hfront
  cases hwhole : front json (bytes ++ more) with
  | short => simp [content_of_short hwhole] at h
  | bad error place =>
    rw [content_of_bad hwhole] at h
    cases h
    simpa [hwhole, Front.need] using hneed
  | whole frame size =>
    rw [content_of_whole hwhole] at h
    obtain ⟨place, -, rfl⟩ := Option.map_eq_some_iff.1 h
    have hsize : bytes.length < size := by simpa [hwhole, Front.need] using hneed
    omega

/-- A frame that is not all there ends behind what is there. -/
theorem lt_size_of_short (hfront : front json bytes = .short)
    (h : (content json (bytes ++ more)).frames ≠ []) :
    bytes.length < (content json (bytes ++ more)).size := by
  have hneed : front json (bytes ++ more) ≠ .short →
      bytes.length < (front json (bytes ++ more)).need := lt_need_of_short hfront
  cases hwhole : front json (bytes ++ more) with
  | short => simp [content_of_short hwhole] at h
  | bad error place => simp [content_of_bad hwhole] at h
  | whole frame size =>
    have hsize : bytes.length < size := by simpa [hwhole, Front.need] using hneed
    rw [content_of_whole hwhole]
    simp only
    omega

theorem size_of_frames (h : (content json bytes).frames = []) : (content json bytes).size = 0 := by
  cases hfront : front json bytes with
  | short => rw [content_of_short hfront]
  | bad error shown => rw [content_of_bad hfront]
  | whole frame size => simp [content_of_whole hfront] at h

/-! ## The decoder -/

theorem Decoder.scan_short (h : front json (buffer.drop consumed) = .short) (acc : List (Frame ν)) :
    Decoder.scan json buffer consumed acc = (⟨buffer.drop consumed⟩, .ok acc) := by
  rw [Decoder.scan]
  simp only
  cases hlength : declaredLength (buffer.drop consumed) with
  | none => rfl
  | some length =>
    simp only [front, hlength, List.length_drop] at h
    simp only
    split at h
    · cases h
    · rename_i hsize
      split at h
      · rename_i hroom
        rw [if_neg hsize, if_pos hroom]
      · exact absurd h (bodyFront_ne_short _ _)

theorem Decoder.scan_bad {error : FrameError}
    (h : front json (buffer.drop consumed) = .bad error shown) (acc : List (Frame ν)) :
    ∃ decoder, Decoder.scan json buffer consumed acc = (decoder, .error error) := by
  rw [Decoder.scan]
  simp only
  cases hlength : declaredLength (buffer.drop consumed) with
  | none => simp [front, hlength] at h
  | some length =>
    simp only [front, hlength, List.length_drop] at h
    simp only
    split at h
    · rename_i hsize
      rw [if_pos hsize]
      cases h
      exact ⟨_, rfl⟩
    · rename_i hsize
      split at h
      · cases h
      · rename_i hroom
        rw [if_neg hsize, if_neg hroom]
        unfold bodyFront at h
        split at h
        · cases h
        · rename_i error' hbody
          cases h
          rw [hbody]
          cases error <;> exact ⟨_, rfl⟩

theorem Decoder.scan_whole {size : ℕ} {frame : Frame ν}
    (h : front json (buffer.drop consumed) = .whole frame size) (acc : List (Frame ν)) :
    Decoder.scan json buffer consumed acc =
      Decoder.scan json buffer (consumed + size) (acc ++ [frame]) := by
  rw [Decoder.scan]
  simp only
  cases hlength : declaredLength (buffer.drop consumed) with
  | none => simp [front, hlength] at h
  | some length =>
    simp only [front, hlength, List.length_drop] at h
    simp only
    split at h
    · cases h
    · rename_i hsize
      split at h
      · cases h
      · rename_i hroom
        rw [if_neg hsize, if_neg hroom]
        unfold bodyFront at h
        split at h
        · rename_i frame' hbody
          cases h
          rw [hbody]
        · cases h

/-- The loop of `append` reads what is in the bytes, unless one of the frames is bad. -/
theorem Decoder.scan_content (json : Json ν) (buffer : Bytes) (consumed : ℕ)
    (acc : List (Frame ν)) :
    let rest := content json (buffer.drop consumed)
    (rest.shown = none → Decoder.scan json buffer consumed acc =
        (⟨buffer.drop (consumed + rest.size)⟩, .ok (acc ++ rest.frames))) ∧
      (∀ shown, rest.shown = some shown →
        ∃ decoder error, Decoder.scan json buffer consumed acc = (decoder, .error error)) := by
  generalize hbytes : buffer.drop consumed = bytes
  induction bytes using content.induct json generalizing consumed acc with
  | case1 bytes hfront =>
    rw [← hbytes] at hfront
    rw [content_of_short (hbytes ▸ hfront), Decoder.scan_short hfront]
    simp
  | case2 bytes error shown hfront =>
    rw [← hbytes] at hfront
    obtain ⟨decoder, hscan⟩ := Decoder.scan_bad hfront acc
    rw [content_of_bad (hbytes ▸ hfront), hscan]
    simp
  | case3 bytes frame size hfront ih =>
    have hrest : buffer.drop (consumed + size) = bytes.drop size := by
      rw [← List.drop_drop, hbytes]
    obtain ⟨hgood, hbad⟩ := ih (consumed + size) (acc ++ [frame]) hrest
    have hscan := Decoder.scan_whole (hbytes ▸ hfront) acc
    rw [content_of_whole hfront, hscan]
    refine ⟨fun hnone => ?_, fun shown hshown => ?_⟩
    · rw [hgood (Option.map_eq_none_iff.1 hnone)]
      simp [Nat.add_assoc]
    · obtain ⟨place, hplace, -⟩ := Option.map_eq_some_iff.1 hshown
      exact hbad place hplace

theorem Decoder.append_content (json : Json ν) (decoder : Decoder) (data : Bytes) :
    let whole := content json (decoder.buffer ++ data)
    (whole.shown = none → decoder.append json data =
        (⟨(decoder.buffer ++ data).drop whole.size⟩, .ok whole.frames)) ∧
      (∀ shown, whole.shown = some shown →
        ∃ decoder' error, decoder.append json data = (decoder', .error error)) := by
  simpa [Decoder.append] using Decoder.scan_content json (decoder.buffer ++ data) 0 []

end

/-! ## A stream that comes in chunks -/

section

variable (json : Json ν)

/-- The frames handed on before the first error. -/
def Decoder.delivered (decoder : Decoder) : List Bytes → List (Frame ν)
  | [] => []
  | chunk :: chunks =>
    match decoder.append json chunk with
    | (_, .error _) => []
    | (decoder, .ok frames) => frames ++ decoder.delivered chunks

/-- Some chunk does not decode. -/
def Decoder.fails (decoder : Decoder) : List Bytes → Bool
  | [] => false
  | chunk :: chunks =>
    match decoder.append json chunk with
    | (_, .error _) => true
    | (decoder, .ok _) => decoder.fails chunks

/-- If there is a bad frame, then some chunks end behind the frames in front of it and before it
shows that it is bad. `read` is how much has been read before the chunks. -/
def CutBeforeBad (read : ℕ) (stream : Content ν) (chunks : List Bytes) : Prop :=
  ∀ shown, stream.shown = some shown →
    ∃ k, stream.size ≤ read + (chunks.take k).flatten.length ∧
      read + (chunks.take k).flatten.length < shown

variable {json}

theorem delivered_iff (json : Json ν) {buffer : Bytes} (hshort : front json buffer = .short)
    (chunks : List Bytes) :
    Decoder.delivered json ⟨buffer⟩ chunks = (content json (buffer ++ chunks.flatten)).frames ↔
      CutBeforeBad buffer.length (content json (buffer ++ chunks.flatten)) chunks := by
  induction chunks generalizing buffer with
  | nil => simp [Decoder.delivered, CutBeforeBad, content_of_short hshort]
  | cons chunk chunks ih =>
    have hflat : buffer ++ (chunk :: chunks).flatten = (buffer ++ chunk) ++ chunks.flatten := by
      simp
    obtain ⟨hgood, hbad⟩ := Decoder.append_content json ⟨buffer⟩ chunk
    rw [hflat]
    cases hshown : (content json (buffer ++ chunk)).shown with
    | none =>
      have happend := hgood hshown
      have hleft := front_left hshown
      have hrest := ih hleft
      simp only [Decoder.delivered, happend]
      rw [content_append hshown]
      simp only [List.append_cancel_left_eq]
      rw [hrest]
      set left := (buffer ++ chunk).drop (content json (buffer ++ chunk)).size with hleftDef
      have hsum : (content json (buffer ++ chunk)).size + left.length =
          buffer.length + chunk.length := by
        have hle := size_le json (buffer ++ chunk)
        rw [List.length_append] at hle
        rw [hleftDef, List.length_drop, List.length_append]
        omega
      constructor
      · intro h shown hmapped
        obtain ⟨place, hplace, rfl⟩ := Option.map_eq_some_iff.1 hmapped
        obtain ⟨k, hle, hlt⟩ := h place hplace
        refine ⟨k + 1, ?_, ?_⟩ <;>
          simp only [List.take_succ_cons, List.flatten_cons, List.length_append] <;> omega
      · intro h place hplace
        obtain ⟨k, hle, hlt⟩ := h _ (Option.map_eq_some_iff.2 ⟨place, hplace, rfl⟩)
        cases k with
        | zero =>
          -- where the decoder stood before this chunk does as well as where it stands now
          have hbehind := lt_shown_of_short hleft hplace
          refine ⟨0, ?_, ?_⟩ <;>
            simp only [List.take_zero, List.flatten_nil, List.length_nil] at hle hlt ⊢ <;> omega
        | succ k =>
          refine ⟨k, ?_, ?_⟩ <;>
            simp only [List.take_succ_cons, List.flatten_cons, List.length_append] at hle hlt <;>
            omega
    | some shown =>
      obtain ⟨decoder', error, happend⟩ := hbad shown hshown
      have hle := shown_le hshown
      simp only [Decoder.delivered, happend]
      rw [content_append_of_shown hshown]
      rw [List.length_append] at hle
      constructor
      · intro h place hplace
        have hsize := size_of_frames h.symm
        have hbehind := lt_shown_of_short hshort hplace
        exact ⟨0, by simp [hsize], by simpa using hbehind⟩
      · intro h
        obtain ⟨k, hstart, hlt⟩ := h shown hshown
        by_contra hne
        have hsize := lt_size_of_short hshort (Ne.symm hne)
        cases k with
        | zero =>
          simp only [List.take_zero, List.flatten_nil, List.length_nil] at hstart
          omega
        | succ k =>
          simp only [List.take_succ_cons, List.flatten_cons, List.length_append] at hlt
          omega

end

/-! ## What the supervisor hands on -/

namespace Supervisor

/-- Chunks from the reader of a generation, one after the other: at one that does not decode the
sidecar is killed, and those behind it find nothing under the id. -/
def ingestAll (json : Json ν) (s : Supervisor ν) (id : String) (generation : ℕ) :
    List Bytes → Supervisor ν
  | [] => s
  | chunk :: chunks =>
    match s.ingest json id generation chunk with
    | (s, true) => (s.kill id).ingestAll json id generation chunks
    | (s, false) => s.ingestAll json id generation chunks

variable (s : Supervisor ν)

theorem deliver_decoder (process : Process ν) (frame : Frame ν) (decoder : Decoder) :
    s.deliver { process with decoder } frame =
      ((s.deliver process frame).1, { (s.deliver process frame).2 with decoder }) := by
  simp only [deliver]
  cases process.waiter with
  | none => rfl
  | some w => by_cases hgone : s.receiverGone w <;> simp [hgone]

theorem deliverAll_decoder (process : Process ν) (frames : List (Frame ν)) (decoder : Decoder) :
    s.deliverAll { process with decoder } frames =
      ((s.deliverAll process frames).1, { (s.deliverAll process frames).2 with decoder }) := by
  induction frames generalizing s process with
  | nil => rfl
  | cons frame frames ih => simp only [deliverAll, deliver_decoder, ih]

theorem deliver_setProcess (id : String) (other : Option (Process ν))
    (process : Process ν) (frame : Frame ν) :
    (s.setProcess id other).deliver process frame =
      ((s.deliver process frame).1.setProcess id other, (s.deliver process frame).2) := by
  simp only [deliver]
  cases process.waiter with
  | none => rfl
  | some w =>
    have hsame : (s.setProcess id other).receiverGone w = s.receiverGone w := rfl
    simp only [hsame]
    split <;> rfl

theorem deliverAll_setProcess (id : String) (other : Option (Process ν))
    (process : Process ν) (frames : List (Frame ν)) :
    (s.setProcess id other).deliverAll process frames =
      ((s.deliverAll process frames).1.setProcess id other, (s.deliverAll process frames).2) := by
  induction frames generalizing s process with
  | nil => rfl
  | cons frame frames ih => simp only [deliverAll, deliver_setProcess, ih]

theorem deliverAll_append (process : Process ν) (done more : List (Frame ν)) :
    s.deliverAll process (done ++ more) =
      (s.deliverAll process done).1.deliverAll (s.deliverAll process done).2 more := by
  induction done generalizing s process with
  | nil => rfl
  | cons frame done ih => simp only [List.cons_append, deliverAll, ih]

theorem deliver_generation (process : Process ν) (frame : Frame ν) :
    (s.deliver process frame).2.generation = process.generation := by
  simp only [deliver]
  cases process.waiter with
  | none => rfl
  | some w => by_cases hgone : s.receiverGone w <;> simp [hgone]

theorem deliverAll_generation (process : Process ν) (frames : List (Frame ν)) :
    (s.deliverAll process frames).2.generation = process.generation := by
  induction frames generalizing s process with
  | nil => rfl
  | cons frame frames ih => rw [deliverAll, ih, deliver_generation]

theorem setProcess_setProcess (id : String) (first second : Option (Process ν)) :
    (s.setProcess id first).setProcess id second = s.setProcess id second := by
  simp [setProcess]

theorem kill_setProcess (id : String) (process : Process ν) :
    ((s.setProcess id (some process)).kill id).processes id = none := by
  simp [kill, setProcess, answer]

theorem ingestAll_unregistered (json : Json ν) {s : Supervisor ν} {id : String}
    (h : s.processes id = none) (generation : ℕ) (chunks : List Bytes) :
    s.ingestAll json id generation chunks = s := by
  induction chunks with
  | nil => rfl
  | cons chunk chunks ih => simpa only [ingestAll, ingest, h] using ih

/-- The frames handed to `deliver` are those of `Decoder.delivered`, and a sidecar with a chunk that
does not decode is killed behind them. -/
theorem ingestAll_delivers (json : Json ν) {s : Supervisor ν} {id : String} {process : Process ν}
    (h : s.processes id = some process) (chunks : List Bytes) :
    ∃ decoder,
      let frames := process.decoder.delivered json chunks
      let kept := (s.deliverAll process frames).1.setProcess id
        (some { (s.deliverAll process frames).2 with decoder })
      s.ingestAll json id process.generation chunks =
        if process.decoder.fails json chunks then kept.kill id else kept := by
  induction chunks generalizing s process with
  | nil =>
    refine ⟨process.decoder, ?_⟩
    simp only [Decoder.delivered, Decoder.fails, deliverAll, ingestAll, setProcess,
      Bool.false_eq_true, if_false]
    rw [← h, Function.update_eq_self]
  | cons chunk chunks ih =>
    cases happend : process.decoder.append json chunk with
    | mk decoder result =>
      cases result with
      | error error =>
        refine ⟨decoder, ?_⟩
        simp only [Decoder.delivered, Decoder.fails, happend, ingestAll, ingest, h, deliverAll,
          ne_eq, not_true_eq_false, if_false, if_true]
        exact ingestAll_unregistered json (kill_setProcess ..) _ _
      | ok frames =>
        obtain ⟨next, hnext⟩ : ∃ next : Process ν,
            next = { (s.deliverAll process frames).2 with decoder } := ⟨_, rfl⟩
        have hgeneration : next.generation = process.generation := by
          rw [hnext]
          exact deliverAll_generation ..
        have hingest : s.ingest json id process.generation chunk =
            ((s.deliverAll process frames).1.setProcess id (some next), false) := by
          simp only [ingest, h, ne_eq, not_true_eq_false, if_false, happend, deliverAll_decoder,
            hnext]
        obtain ⟨decoder', hrest⟩ :=
          @ih ((s.deliverAll process frames).1.setProcess id (some next)) next
            (by simp [setProcess])
        have hdecoder : next.decoder = decoder := by rw [hnext]
        refine ⟨decoder', ?_⟩
        simp only [hgeneration, hdecoder, deliverAll_setProcess, setProcess_setProcess] at hrest
        simp only [ingestAll, hingest, hrest, Decoder.delivered, Decoder.fails, happend,
          deliverAll_append]
        rw [hnext, deliverAll_decoder]

/-- A frame in two pieces, for one who waits, and a chunk that does not decode. -/
theorem ingestAll_delivers_two :
    let s : Supervisor Bool :=
      ({} : Supervisor Bool).setProcess "a" (some { generation := 1, waiter := some 5 })
    let chunks : List Bytes := [[2, 0, 0], [0, 2, 7], [0, 0, 0, 0], [1]]
    (∃ decoder,
      let frames := Decoder.delivered boolJson {} chunks
      let kept := (s.deliverAll { generation := 1, waiter := some 5 } frames).1.setProcess "a"
        (some { (s.deliverAll { generation := 1, waiter := some 5 } frames).2 with decoder })
      s.ingestAll boolJson "a" 1 chunks =
        if Decoder.fails boolJson {} chunks then kept.kill "a" else kept) ∧
    Decoder.fails boolJson {} chunks = true := by
  intro s chunks
  have hprocess : s.processes "a" = some { generation := 1, waiter := some 5 } := by
    simp [s, setProcess]
  refine ⟨ingestAll_delivers boolJson hprocess chunks, ?_⟩
  simp [chunks, Decoder.fails, Decoder.append, Decoder.scan, declaredLength, fromLeBytes,
    decodeBody, typeControl, typeBinary, maxFrameBytes]

end Supervisor

/-- Whatever the bytes, the frames in front of the first bad one are all handed on exactly when
there is no bad one or a chunk ends between them and the place where the bad one shows. -/
theorem delivered_all_iff (json : Json ν) (bytes : Bytes) (chunks : List Bytes)
    (h : chunks.flatten = bytes) :
    Decoder.delivered json {} chunks = (content json bytes).frames ↔
      CutBeforeBad 0 (content json bytes) chunks := by
  have hiff := delivered_iff json (show front json [] = .short from rfl) chunks
  simpa [h] using hiff

/-- The frame comes in a chunk of its own. -/
theorem frame_before_bad_one_delivered :
    [[2, 0, 0, 0, 2, 7], [0, 0, 0, 0]].flatten = ([2, 0, 0, 0, 2, 7, 0, 0, 0, 0] : Bytes) ∧
      (Decoder.delivered boolJson {} [[2, 0, 0, 0, 2, 7], [0, 0, 0, 0]] =
          (content boolJson [2, 0, 0, 0, 2, 7, 0, 0, 0, 0]).frames ↔
        CutBeforeBad 0 (content boolJson [2, 0, 0, 0, 2, 7, 0, 0, 0, 0])
          [[2, 0, 0, 0, 2, 7], [0, 0, 0, 0]]) :=
  ⟨rfl, delivered_all_iff boolJson [2, 0, 0, 0, 2, 7, 0, 0, 0, 0]
    [[2, 0, 0, 0, 2, 7], [0, 0, 0, 0]] rfl⟩

/-- A frame and a bad one in the same chunk: the frame is lost, though it is handed on when it comes
in a chunk of its own. -/
theorem bad_frame_takes_good_one :
    ¬ ∀ bytes chunks chunks', chunks.flatten = bytes → chunks'.flatten = bytes →
      Decoder.delivered boolJson {} chunks = Decoder.delivered boolJson {} chunks' := by
  intro h
  have hsame := h [2, 0, 0, 0, 2, 7, 0, 0, 0, 0] [[2, 0, 0, 0, 2, 7, 0, 0, 0, 0]]
    [[2, 0, 0, 0, 2, 7], [0, 0, 0, 0]] rfl rfl
  have hwhole : front boolJson [2, 0, 0, 0, 2, 7, 0, 0, 0, 0] = .whole (.binary [7]) 6 := rfl
  have hbad : content boolJson [0, 0, 0, 0] = { shown := some 4 } :=
    content_of_bad (show front boolJson [0, 0, 0, 0] = .bad (.oversizedFrame 0) 4 from rfl)
  have hcontent : content boolJson [2, 0, 0, 0, 2, 7, 0, 0, 0, 0] =
      ⟨[.binary [7]], 6, some 10⟩ := by
    rw [content_of_whole hwhole]
    simp only [List.drop_succ_cons, List.drop_zero, hbad]
    rfl
  have hone := delivered_iff boolJson (show front boolJson [] = .short from rfl)
    [[2, 0, 0, 0, 2, 7, 0, 0, 0, 0]]
  have htwo := delivered_iff boolJson (show front boolJson [] = .short from rfl)
    [[2, 0, 0, 0, 2, 7], [0, 0, 0, 0]]
  simp only [List.flatten_cons, List.flatten_nil, List.append_nil, List.nil_append,
    List.cons_append, List.length_nil, hcontent, CutBeforeBad, Option.some.injEq,
    forall_eq', Nat.zero_add] at hone htwo
  have hsplit := htwo.2 ⟨1, by decide, by decide⟩
  obtain ⟨k, hle, hlt⟩ := hone.1 (hsame.trans hsplit)
  cases k with
  | zero => exact absurd hle (by decide)
  | succ k => exact absurd hlt (by simp)

end Hedos.Sidecar
