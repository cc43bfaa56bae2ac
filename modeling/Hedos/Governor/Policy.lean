import Mathlib.Data.Int.Notation
import Mathlib.Data.Nat.Notation

/-!
# Value types of the governor

Who asks for the GPU, the advisory memory verdict, a resident model and the eviction
policy (`runtime/src/governor/policy.rs`). The keep-warm windows are durations that no
decision below reads.
-/

namespace Hedos.Governor

/-- Who is asking to use the GPU: equality is by variant and by model id. -/
inductive GpuProducer
  | generation (id : String)
  | load (id : String)
  | unload (id : String)
  | job (id : String)
deriving DecidableEq

/-- Only two identical generations may hold the gate at once. -/
def GpuProducer.shares : GpuProducer → Bool
  | .generation _ => true
  | _ => false

/-- The advisory RAM pressure of admitting a model. -/
inductive RamVerdict
  | ok
  | tight
deriving DecidableEq

/-- A model the governor tracks as resident: loaded, or reserved and about to load. -/
structure ResidentModel where
  modelId : String
  name : String
  footprintMb : ℤ
  loadedAt : ℕ
deriving DecidableEq

/-- How the governor makes room when a model needs to load. -/
inductive EvictionPolicy
  | strictSingle
  | budgeted
deriving DecidableEq

end Hedos.Governor
