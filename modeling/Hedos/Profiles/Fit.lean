import Mathlib.Data.Rat.Floor

/-!
# Whether a model fits a machine

The verdict of a footprint against a budget (`src/kernel/src/profiles/fit.rs`), the budget of an
engine on a machine and the spill from the cards into memory (`src/kernel/src/machine/mod.rs`).
The shares are exact rationals where the source has an `f64`.
-/

namespace Hedos.Profiles

/-! ## Verdicts -/

/-- How well a model is expected to run, from best to worst. -/
inductive FitVerdict
  | runsWell
  | tightFit
  | tooLarge
  deriving DecidableEq

def FitVerdict.rank : FitVerdict → ℕ
  | .runsWell => 0
  | .tightFit => 1
  | .tooLarge => 2

theorem FitVerdict.rank_injective : Function.Injective FitVerdict.rank := by
  intro a b h
  cases a <;> cases b <;> first | rfl | cases h

/-- The order of the constructors, as the source derives it. -/
instance : LinearOrder FitVerdict := LinearOrder.lift' FitVerdict.rank FitVerdict.rank_injective

theorem FitVerdict.le_iff {a b : FitVerdict} : a ≤ b ↔ a.rank ≤ b.rank := Iff.rfl

/-- What a memory figure measures: all of the machine's memory, or a share a model may use. -/
inductive Scale
  | system
  | accelerator
  deriving DecidableEq

/-- The shares of a budget up to which a model runs well, and up to which it fits. -/
def Scale.fractions : Scale → ℚ × ℚ
  | .system => (3 / 4, 19 / 20)
  | .accelerator => (9 / 10, 1)

structure FitAssessment where
  verdict : FitVerdict
  requiredBytes : ℤ
  deriving DecidableEq

/-- Weights need working memory beyond their footprint. -/
def memoryOverheadFactor : ℚ := 5 / 4

/-- A cast to an `i64` drops the fraction and saturates. -/
def asI64 (x : ℚ) : ℤ := max (-2 ^ 63) (min (2 ^ 63 - 1) (if 0 ≤ x then ⌊x⌋ else ⌈x⌉))

def requiredBytes (footprintBytes : ℤ) : ℤ := asI64 (footprintBytes * memoryOverheadFactor)

/-- The verdict of a share of a budget. -/
def Scale.verdict (scale : Scale) (share : ℚ) : FitVerdict :=
  if share < scale.fractions.1 then .runsWell
  else if share < scale.fractions.2 then .tightFit
  else .tooLarge

def assessIn (footprintBytes : Option ℤ) (budgetBytes : ℕ) (scale : Scale) :
    Option FitAssessment :=
  (footprintBytes.filter (0 < ·)).bind fun footprintBytes =>
    if budgetBytes = 0 then none
    else
      let required := requiredBytes footprintBytes
      some ⟨scale.verdict (required / budgetBytes), required⟩

/-! ## Machines -/

inductive Os
  | macos
  | linux
  | other
  deriving DecidableEq

inductive DeviceKind
  | unified
  | discrete
  deriving DecidableEq

structure Device where
  kind : DeviceKind
  memoryBytes : ℕ
  deriving DecidableEq

/-- A device smaller than this is not worth placing a model on. -/
def minDeviceBytes : ℕ := 2 ^ 30

def Device.usable (device : Device) : Bool := minDeviceBytes ≤ device.memoryBytes

inductive Engine
  | ollama
  | llamaCpp
  | mlx
  | torch
  | other
  deriving DecidableEq

inductive Placement
  | gpu
  | spill
  | cpu
  deriving DecidableEq

structure Budget where
  bytes : ℕ
  scale : Scale
  placement : Placement
  /-- Whether the engine runs what the cards cannot hold from system memory. -/
  spills : Bool
  deriving DecidableEq

structure Fit where
  assessment : FitAssessment
  placement : Placement
  budgetBytes : ℕ
  deriving DecidableEq

structure Machine where
  os : Os
  arch : String
  memoryBytes : ℕ
  devices : List Device
  deriving DecidableEq

/-- A sum of `u64`s, as it wraps. -/
def sumU64 (values : List ℕ) : ℕ := values.sum % 2 ^ 64

namespace Machine

def appleSilicon (m : Machine) : Bool := m.os = .macos && m.arch == "aarch64"

/-- The unified device, if there is one. -/
def unified (m : Machine) : Option Device :=
  m.devices.find? fun device => device.kind = .unified && 0 < device.memoryBytes

/-- The discrete cards that are big enough to place a model on. -/
def cards (m : Machine) : List Device :=
  m.devices.filter fun device => device.kind = .discrete && device.usable

def systemBudget (m : Machine) : Budget :=
  { bytes := m.memoryBytes
    scale := .system
    placement := if m.appleSilicon then .gpu else .cpu
    spills := false }

/-- What the cards give to an engine, when there are some. -/
def cardsBudget (engine : Engine) (cards : List ℕ) : Budget :=
  { bytes := if engine = .torch then cards.max?.getD 0 else sumU64 cards
    scale := .accelerator
    placement := .gpu
    -- a PyTorch pipeline runs on one card, the others split layers across every card
    spills := engine ≠ .torch }

/-- The memory an engine may give a model, or `none` when it cannot run here. -/
def budget (m : Machine) (engine : Engine) : Option Budget :=
  if engine = .mlx ∧ m.appleSilicon = false then none
  else if engine = .other then some { m.systemBudget with placement := .cpu }
  else
    match m.unified with
    | some device =>
      -- PyTorch's Metal backend allocates from all of memory
      if engine = .torch then some m.systemBudget
      else some ⟨device.memoryBytes, .accelerator, .gpu, false⟩
    | none =>
      let cards := m.cards.map (·.memoryBytes)
      if cards.isEmpty then some m.systemBudget else some (cardsBudget engine cards)

/-- A fit on the cards of an engine that spills, against all of memory where that reads better or
the cards cannot hold the model at all. -/
def spilled (m : Machine) (footprintBytes : Option ℤ) (onCards : Fit) : Fit :=
  let tooBigForCards : Bool := onCards.assessment.verdict = .tooLarge
  let inMemory := (assessIn footprintBytes m.memoryBytes .system).filter fun assessment =>
    tooBigForCards || decide (assessment.verdict < onCards.assessment.verdict)
  inMemory.elim onCards fun assessment => ⟨assessment, .spill, m.memoryBytes⟩

/-- How a model fits when an engine serves it, or `none` when its size is unknown or the engine
cannot run here. -/
def fit (m : Machine) (engine : Engine) (footprintBytes : Option ℤ) : Option Fit :=
  (m.budget engine).bind fun budget =>
    (assessIn footprintBytes budget.bytes budget.scale).map fun assessment =>
      let onCards : Fit := ⟨assessment, budget.placement, budget.bytes⟩
      if budget.spills = false ∨ assessment.verdict = .runsWell then onCards
      else m.spilled footprintBytes onCards

/-- How a model fits under an engine, or under all of memory when the engine cannot run here. -/
def fitOn (m : Machine) (engine : Engine) (footprintBytes : Option ℤ) : Option Fit :=
  (m.fit engine footprintBytes).or (m.fit .other footprintBytes)

end Machine

end Hedos.Profiles
