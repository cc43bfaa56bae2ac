import Hedos.Discovery.Duplicates
import Hedos.Kernel.Calendar

/-!
# The ranges that are compared

`samples` (`kernel/src/discovery/duplicates.rs`) with the width of its integers: the head of a file
and blocks spread to its end, or all of a small file.

* no step of it overflows (`samplesChecked_eq`);
* the ranges lie in the file, one behind the other, up to its end; they are all of a small file, and
  between the blocks of another there is no room for more than a step (`sampling_plan`).
-/

namespace Hedos.Discovery

open Hedos.Kernel.Time (Overflow Checked)

/-! ## The plan in 64 bits -/

def u64 (n : ℕ) : Checked ℕ := if n < 2 ^ 64 then .ok n else .error .overflow

def u128 (n : ℕ) : Checked ℕ := if n < 2 ^ 128 then .ok n else .error .overflow

def subChecked (n m : ℕ) : Checked ℕ := if m ≤ n then .ok (n - m) else .error .overflow

/-- The rest of a small file, a block at a time. -/
def restFrom (size offset : ℕ) : Checked (List (ℕ × ℕ)) :=
  if offset < size then do
    let _ ← u64 (offset + blockBytes)
    let rest ← restFrom size (offset + blockBytes)
    return (offset, min blockBytes (size - offset)) :: rest
  else return []
termination_by size - offset
decreasing_by
  have hpos : 0 < blockBytes := by decide
  omega

/-- One of the blocks that are spread over a large file. -/
def blockChecked (span block : ℕ) : Checked (ℕ × ℕ) := do
  let product ← u128 (span * block)
  let step := product / (blocks - 1)
  -- `u64::try_from(step).unwrap_or(0)`
  let step := if step < 2 ^ 64 then step else 0
  let offset ← u64 (headBytes + step)
  return (offset, blockBytes)

def samplesChecked (size : ℕ) : Checked (List (ℕ × ℕ)) := do
  let rest ← (
    if size ≤ headBytes + blocks * blockBytes then restFrom size headBytes
    else do
      let past ← subChecked size headBytes
      let span ← subChecked past blockBytes
      (List.range blocks).mapM (blockChecked span))
  return (0, min size headBytes) :: rest

/-! ## No overflow -/

theorem u64_of_lt {n : ℕ} (h : n < 2 ^ 64) : u64 n = .ok n := if_pos h

variable {α : Type} {size : ℕ}

theorem ok_bind {β : Type} (a : α) (f : α → Checked β) : (Except.ok a >>= f) = f a := rfl

theorem pure_ok (a : α) : (pure a : Checked α) = .ok a := rfl

theorem restFrom_eq {offset : ℕ} (hsize : size + blockBytes < 2 ^ 64) :
    restFrom size offset =
      .ok ((List.range ((size - offset + blockBytes - 1) / blockBytes)).map fun block =>
        (offset + block * blockBytes, min blockBytes (size - (offset + block * blockBytes)))) := by
  fun_induction restFrom size offset with
  | case1 offset hlt ih =>
    have hblock : blockBytes = 65536 := rfl
    have hcount : (size - offset + blockBytes - 1) / blockBytes =
        (size - (offset + blockBytes) + blockBytes - 1) / blockBytes + 1 := by
      rw [hblock]
      omega
    rw [u64_of_lt (by omega), ih, hcount, List.range_succ_eq_map, List.map_cons, List.map_map]
    have hsame : ((fun block => (offset + block * blockBytes,
        min blockBytes (size - (offset + block * blockBytes)))) ∘ Nat.succ) = fun block =>
          (offset + blockBytes + block * blockBytes,
            min blockBytes (size - (offset + blockBytes + block * blockBytes))) := by
      funext block
      have hshift : offset + block.succ * blockBytes =
          offset + blockBytes + block * blockBytes := by
        rw [Nat.succ_mul]
        omega
      simp only [Function.comp_apply, hshift]
    rw [hsame]
    simp only [Nat.zero_mul, Nat.add_zero]
    rfl
  | case2 offset hlt =>
    have hnone : (size - offset + blockBytes - 1) / blockBytes = 0 := by
      rw [show size - offset = 0 by omega]
      rfl
    rw [hnone]
    rfl

theorem mapM_ok {β : Type} {f : α → Checked β} {g : α → β} {items : List α}
    (h : ∀ item ∈ items, f item = .ok (g item)) : items.mapM f = .ok (items.map g) := by
  induction items with
  | nil => rfl
  | cons item items ih =>
    rw [List.mapM_cons, h item (.head _), ih fun other hother => h other (.tail _ hother)]
    rfl

theorem headBytes_eq : headBytes = 8388608 := by decide

theorem blockBytes_eq : blockBytes = 65536 := by decide

theorem blocks_eq : blocks = 256 := rfl

theorem blockChecked_eq {span block : ℕ} (hspan : headBytes + span < 2 ^ 64)
    (hblock : block < blocks) :
    blockChecked span block = .ok (headBytes + span * block / (blocks - 1), blockBytes) := by
  rw [blocks_eq] at hblock
  have hproduct : span * block ≤ span * 255 := Nat.mul_le_mul_left _ (by omega)
  have hstep : span * block / (blocks - 1) ≤ span := by
    rw [blocks_eq]
    omega
  have hwide : u128 (span * block) = .ok (span * block) := if_pos (by omega)
  have hoffset : u64 (headBytes + span * block / (blocks - 1)) =
      .ok (headBytes + span * block / (blocks - 1)) := u64_of_lt (by omega)
  unfold blockChecked
  rw [hwide]
  show (do
    let offset ← u64 (headBytes + if span * block / (blocks - 1) < 2 ^ 64 then
      span * block / (blocks - 1) else 0)
    return (offset, blockBytes)) = _
  rw [if_pos (by omega), hoffset]
  rfl

/-- No step of the plan overflows, and the plan is the one in unbounded numbers. -/
theorem samplesChecked_eq (h : size < 2 ^ 64) : samplesChecked size = .ok (samples size) := by
  unfold samplesChecked samples
  have hhead := headBytes_eq
  have hblock := blockBytes_eq
  have hblocks := blocks_eq
  by_cases hsmall : size ≤ headBytes + blocks * blockBytes
  · have hfits : size + blockBytes < 2 ^ 64 := by
      rw [hblocks] at hsmall
      omega
    rw [if_pos hsmall, if_pos hsmall, restFrom_eq hfits]
    simp only [bind, Except.bind, pure, Except.pure]
  · have hlarge : headBytes + blockBytes ≤ size := by
      rw [hblocks] at hsmall
      omega
    have hpast : subChecked size headBytes = .ok (size - headBytes) := if_pos (by omega)
    have hspan : subChecked (size - headBytes) blockBytes = .ok (size - headBytes - blockBytes) :=
      if_pos (by omega)
    have hrest : (List.range blocks).mapM (blockChecked (size - headBytes - blockBytes)) =
        .ok ((List.range blocks).map fun block =>
          (headBytes + (size - headBytes - blockBytes) * block / (blocks - 1), blockBytes)) :=
      mapM_ok fun block hmem => blockChecked_eq (by omega) (List.mem_range.1 hmem)
    rw [if_neg hsmall, if_neg hsmall, hpast, ok_bind, hspan, ok_bind, hrest, ok_bind]
    exact pure_ok _

/-! ## What the plan covers -/

/-- The byte is in the range. -/
def Sampled (range : ℕ × ℕ) (byte : ℕ) : Prop := range.1 ≤ byte ∧ byte < range.1 + range.2

/-- How far the blocks of a large file stand apart. -/
def blockStep (size : ℕ) : ℕ := (size - headBytes - blockBytes) / (blocks - 1)

theorem samples_small (h : size ≤ headBytes + blocks * blockBytes) :
    samples size = (0, min size 8388608) ::
      (List.range ((size - 8388608 + 65536 - 1) / 65536)).map fun block =>
        (8388608 + block * 65536, min 65536 (size - (8388608 + block * 65536))) := by
  rw [samples, if_pos h, headBytes_eq, blockBytes_eq]

theorem samples_large (h : ¬ size ≤ headBytes + blocks * blockBytes) :
    25165824 < size ∧
      samples size = (0, 8388608) :: (List.range 256).map fun block =>
        (8388608 + (size - 8388608 - 65536) * block / 255, 65536) := by
  rw [headBytes_eq, blockBytes_eq, blocks_eq] at h
  have hsize : 25165824 < size := by omega
  refine ⟨hsize, ?_⟩
  rw [samples, headBytes_eq, blockBytes_eq, blocks_eq, if_neg h, Nat.min_eq_right (by omega)]

theorem samples_inside : ∀ range ∈ samples size, range.1 + range.2 ≤ size := by
  intro range hrange
  by_cases h : size ≤ headBytes + blocks * blockBytes
  · rw [samples_small h] at hrange
    rcases List.mem_cons.1 hrange with rfl | hrest
    · simp
    · obtain ⟨block, hblock, rfl⟩ := List.mem_map.1 hrest
      have hlt := List.mem_range.1 hblock
      simp only
      omega
  · obtain ⟨hsize, hplan⟩ := samples_large h
    rw [hplan] at hrange
    rcases List.mem_cons.1 hrange with rfl | hrest
    · simp only
      omega
    · obtain ⟨block, hblock, rfl⟩ := List.mem_map.1 hrest
      have hle : (size - 8388608 - 65536) * block ≤ (size - 8388608 - 65536) * 255 :=
        Nat.mul_le_mul_left _ (by have := List.mem_range.1 hblock; omega)
      simp only
      omega

theorem samples_increasing :
    (samples size).Pairwise fun before after =>
      before.1 + before.2 ≤ after.1 ∧ before.1 < after.1 := by
  by_cases h : size ≤ headBytes + blocks * blockBytes
  · rw [samples_small h, List.pairwise_cons, List.pairwise_map]
    refine ⟨fun range hrange => ?_, List.pairwise_lt_range.imp fun hlt => ?_⟩
    · obtain ⟨block, -, rfl⟩ := List.mem_map.1 hrange
      simp only
      omega
    · simp only
      omega
  · obtain ⟨hsize, hplan⟩ := samples_large h
    rw [hplan, List.pairwise_cons, List.pairwise_map]
    refine ⟨fun range hrange => ?_, List.pairwise_lt_range.imp fun {i j} hlt => ?_⟩
    · obtain ⟨block, -, rfl⟩ := List.mem_map.1 hrange
      simp only
      omega
    · have hnext : (size - 8388608 - 65536) * i + (size - 8388608 - 65536) ≤
          (size - 8388608 - 65536) * j := by
        rw [← Nat.mul_succ]
        exact Nat.mul_le_mul_left _ hlt
      simp only
      omega

theorem samples_last :
    ∃ range, (samples size).getLast? = some range ∧ range.1 + range.2 = size := by
  by_cases h : size ≤ headBytes + blocks * blockBytes
  · rw [samples_small h]
    rcases Nat.eq_zero_or_pos ((size - 8388608 + 65536 - 1) / 65536) with hzero | hpos
    · rw [hzero]
      refine ⟨(0, min size 8388608), rfl, ?_⟩
      show 0 + min size 8388608 = size
      omega
    · obtain ⟨count, hcount⟩ : ∃ n, (size - 8388608 + 65536 - 1) / 65536 = n + 1 :=
        ⟨_, (Nat.succ_pred_eq_of_pos hpos).symm⟩
      rw [hcount, List.range_succ, List.map_append, ← List.cons_append]
      refine ⟨_, List.getLast?_concat, ?_⟩
      simp only
      omega
  · obtain ⟨hsize, hplan⟩ := samples_large h
    rw [hplan, show 256 = 255 + 1 from rfl, List.range_succ, List.map_append, ← List.cons_append]
    refine ⟨_, List.getLast?_concat, ?_⟩
    simp only
    omega

theorem samples_cover {byte : ℕ} (h : size ≤ headBytes + blocks * blockBytes)
    (hbyte : byte < size) : ∃ range ∈ samples size, Sampled range byte := by
  rw [samples_small h]
  by_cases hhead : byte < 8388608
  · refine ⟨_, .head _, ?_⟩
    simp only [Sampled]
    omega
  · refine ⟨_, .tail _ (List.mem_map.2 ⟨(byte - 8388608) / 65536, List.mem_range.2 ?_, rfl⟩), ?_⟩
    · omega
    · simp only [Sampled]
      omega

/-- Between two blocks of a large file there is no room for more than a step. -/
theorem samples_dense {start length : ℕ} (h : ¬ size ≤ headBytes + blocks * blockBytes)
    (hlength : blockStep size < length) (hinside : start + length ≤ size) :
    ∃ range ∈ samples size, ∃ byte, start ≤ byte ∧ byte < start + length ∧ Sampled range byte := by
  obtain ⟨hsize, hplan⟩ := samples_large h
  rw [blockStep, headBytes_eq, blockBytes_eq, blocks_eq] at hlength
  rw [hplan]
  by_cases hhead : start < 8388608
  · refine ⟨_, .head _, start, le_rfl, by omega, ?_⟩
    simp only [Sampled]
    omega
  · have hblock (block byte : ℕ) (hlt : block < 256) (hstart : start ≤ byte)
        (hend : byte < start + length)
        (hin : 8388608 + (size - 8388608 - 65536) * block / 255 ≤ byte ∧
          byte < 8388608 + (size - 8388608 - 65536) * block / 255 + 65536) :
        ∃ range ∈ (0, 8388608) :: (List.range 256).map fun block =>
            (8388608 + (size - 8388608 - 65536) * block / 255, 65536),
          ∃ byte, start ≤ byte ∧ byte < start + length ∧ Sampled range byte :=
      ⟨_, .tail _ (List.mem_map.2 ⟨block, List.mem_range.2 hlt, rfl⟩), byte, hstart, hend, hin⟩
    by_cases hlast : 8388608 + (size - 8388608 - 65536) * 255 / 255 ≤ start
    · exact hblock 255 start (by decide) le_rfl (by omega) (by omega)
    · -- the first block behind the start of the run, and the one before it
      have hsome : ∃ block, start < 8388608 + (size - 8388608 - 65536) * block / 255 :=
        ⟨255, by omega⟩
      obtain ⟨next, hnext, hmin⟩ : ∃ next,
          start < 8388608 + (size - 8388608 - 65536) * next / 255 ∧ ∀ block < next,
            ¬ start < 8388608 + (size - 8388608 - 65536) * block / 255 :=
        ⟨Nat.find hsome, Nat.find_spec hsome, fun block hlt => Nat.find_min hsome hlt⟩
      have hle : next ≤ 255 := by
        by_contra hgt
        exact hmin 255 (by omega) (by omega)
      obtain ⟨block, rfl⟩ : ∃ block, next = block + 1 := by
        cases next with
        | zero => omega
        | succ block => exact ⟨block, rfl⟩
      have hbefore := hmin block (by omega)
      have hstep : (size - 8388608 - 65536) * (block + 1) =
          (size - 8388608 - 65536) * block + (size - 8388608 - 65536) := Nat.mul_succ _ _
      rw [hstep] at hnext
      by_cases hin : start < 8388608 + (size - 8388608 - 65536) * block / 255 + 65536
      · exact hblock block start (by omega) le_rfl (by omega) ⟨by omega, hin⟩
      · refine hblock (block + 1) (8388608 + (size - 8388608 - 65536) * (block + 1) / 255)
          (by omega) ?_ ?_ ⟨le_rfl, by omega⟩
        · rw [hstep]
          omega
        · rw [hstep]
          omega

/-- For every size of a file: the plan is made without overflow; its ranges lie in the file, one
behind the other, and the last ends where the file does; they cover a small file, and every longer
run of bytes than a step of a large one. -/
theorem sampling_plan (size : ℕ) (h : size < 2 ^ 64) :
    samplesChecked size = .ok (samples size) ∧
    (∀ range ∈ samples size, range.1 + range.2 ≤ size) ∧
    ((samples size).Pairwise fun before after =>
      before.1 + before.2 ≤ after.1 ∧ before.1 < after.1) ∧
    (∃ range, (samples size).getLast? = some range ∧ range.1 + range.2 = size) ∧
    (size ≤ headBytes + blocks * blockBytes →
      ∀ byte < size, ∃ range ∈ samples size, Sampled range byte) ∧
    (¬ size ≤ headBytes + blocks * blockBytes →
      ∀ start length, blockStep size < length → start + length ≤ size →
        ∃ range ∈ samples size, ∃ byte, start ≤ byte ∧ byte < start + length ∧
          Sampled range byte) :=
  ⟨samplesChecked_eq h, samples_inside, samples_increasing, samples_last,
    fun hsmall _ hbyte => samples_cover hsmall hbyte,
    fun hlarge _ _ hlength hinside => samples_dense hlarge hlength hinside⟩

theorem sampling_plan_largest :
    2 ^ 64 - 1 < 2 ^ 64 ∧ samplesChecked (2 ^ 64 - 1) = .ok (samples (2 ^ 64 - 1)) :=
  ⟨by decide, (sampling_plan (2 ^ 64 - 1) (by decide)).1⟩

end Hedos.Discovery
