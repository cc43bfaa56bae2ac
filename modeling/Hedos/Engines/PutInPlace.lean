import Hedos.Lib.Crash
import Mathlib.Data.List.AList

/-!
# Putting an engine's build in place

`recover`, `put_in_place`, `Dropped` and `Commit` of `runtime/src/engines/fetch.rs`, with
`install_from` and `finish` of `runtime/src/engines/install.rs` around them, run under the
install lock.

The root directory holds builds by name and staging directories, each with the builds set
aside in it (`replaced/`) and the one unpacked (`build/`). A build is an opaque `β`; one that
a removal has begun to delete is a `part`. Every system call has its verdict: it works, fails,
or is where the process dies, and a removal may get part of the way first.
-/

namespace Hedos.Engines

open Crash

variable {β : Type}

/-! ## The root directory -/

inductive Build (β : Type)
  | whole (b : β)
  | part
deriving DecidableEq

structure Staging (β : Type) where
  replaced : AList fun _ : String => Build β
  unpacked : Option (Build β)

structure Root (β : Type) where
  homes : AList fun _ : String => Build β
  stagings : AList fun _ : String => Staging β

inductive InstallError
  | io (path : String)
  | stranded (kept reason : String)
  | stopped (engine : String)
  | failed
deriving DecidableEq

/-- What becomes of a system call. A removal that stops has left of the builds set aside in a
staging directory those in `left`, the ones marked `true` whole. -/
inductive Verdict
  | works
  | fails
  | crashes
  | stops (left : List (String × Bool)) (crash : Bool)
deriving DecidableEq

/-- The programs run under the install lock. -/
abbrev Locked (β : Type) := Prog (Root β) Verdict

namespace Root

def setStaging (r : Root β) (name : String) (f : Staging β → Staging β) : Root β :=
  match r.stagings.lookup name with
  | some s => { r with stagings := r.stagings.insert name (f s) }
  | none => r

/-- `rename(staging/replaced/name, root/name)`. -/
def putBack (staging name : String) (r : Root β) : Option (Root β) :=
  match (r.stagings.lookup staging).bind (·.replaced.lookup name), r.homes.lookup name with
  | some build, none =>
    some ({ r with homes := r.homes.insert name build }.setStaging staging fun s =>
      { s with replaced := s.replaced.erase name })
  | _, _ => none

/-- `rename(root/name, staging/replaced/name)`. -/
def setAside (staging name : String) (r : Root β) : Option (Root β) :=
  match r.stagings.lookup staging, r.homes.lookup name with
  | some _, some build =>
    some ({ r with homes := r.homes.erase name }.setStaging staging fun s =>
      { s with replaced := s.replaced.insert name build })
  | _, _ => none

/-- `rename(staging/build, root/name)`. -/
def moveIn (staging name : String) (r : Root β) : Option (Root β) :=
  match (r.stagings.lookup staging).bind (·.unpacked), r.homes.lookup name with
  | some build, none =>
    some ({ r with homes := r.homes.insert name build }.setStaging staging fun s =>
      { s with unpacked := none })
  | _, _ => none

/-- `create_dir` for a new staging directory. -/
def makeStaging (name : String) (r : Root β) : Option (Root β) :=
  match r.stagings.lookup name with
  | some _ => none
  | none =>
    some { r with stagings := r.stagings.insert name { replaced := ∅, unpacked := none } }

/-- What has been unpacked into the staging directory. -/
def setUnpacked (staging : String) (build : Build β) (r : Root β) : Option (Root β) :=
  some (r.setStaging staging fun s => { s with unpacked := some build })

end Root

/-- A staging directory a removal stopped in. -/
def Staging.damaged (left : List (String × Bool)) (s : Staging β) : Staging β where
  replaced := left.foldr (fun entry replaced =>
    match s.replaced.lookup entry.1 with
    | some build => replaced.insert entry.1 (if entry.2 then build else .part)
    | none => replaced) ∅
  unpacked := s.unpacked.map fun _ => .part

/-! ## System calls -/

/-- A call that does `f`, whole or not at all; the answer is whether it worked. -/
def attempt (f : Root β → Option (Root β)) : Locked β Bool :=
  Prog.call .works fun verdict r =>
    match verdict with
    | .works =>
      match f r with
      | some r' => (some true, r')
      | none => (some false, r)
    | .fails | .stops _ false => (some false, r)
    | .crashes | .stops _ true => (none, r)

/-- Reading a directory, or the next entry of one. -/
def readEntry : Locked β Bool := attempt some

/-- `remove_dir_all`: it works, or it does not and leaves the root as `stopped` says. -/
def removal (removed : Root β → Root β) (stopped : List (String × Bool) → Root β → Root β) :
    Locked β Bool :=
  Prog.call .works fun verdict r =>
    match verdict with
    | .works => (some true, removed r)
    | .fails => (some false, r)
    | .crashes => (none, r)
    | .stops left crash => (if crash then none else some false, stopped left r)

/-- `remove_dir_all` on a staging directory. -/
def removeStaging (name : String) : Locked β Bool :=
  removal (fun r => { r with stagings := r.stagings.erase name })
    fun left r => r.setStaging name (Staging.damaged left)

/-- `remove_entry` on a build. -/
def removeEntry (name : String) : Locked β Bool :=
  removal (fun r => { r with homes := r.homes.erase name })
    fun _ r => { r with homes := r.homes.insert name .part }

/-! ## Recovering -/

/-- The loop over the builds set aside in `staging`; the answer is whether one is kept, or
nothing when the directory could not be read on. -/
def restore (staging : String) : List String → Bool → Locked β (Option Bool)
  | [], kept => pure (some kept)
  | name :: rest, kept => do
    if !(← readEntry) then return none
    if ← Prog.read fun r => (r.homes.lookup name).isNone then
      let moved ← attempt (Root.putBack staging name)
      restore staging rest (kept || !moved)
    else restore staging rest kept

def recoverStagings : List String → Locked β (Except InstallError Unit)
  | [] => pure (.ok ())
  | staging :: rest => do
    if !(← readEntry) then return .error (.io "")
    if !(← readEntry) then return .error (.io (staging ++ "/replaced"))
    let builds ← Prog.read fun r =>
      ((r.stagings.lookup staging).map fun s => s.replaced.keys).getD []
    match ← restore staging builds false with
    | none => return .error (.io (staging ++ "/replaced"))
    | some true =>
      return .error (.stranded (staging ++ "/replaced")
        "a build an earlier install set aside could not be put back")
    | some false =>
      if ← removeStaging staging then recoverStagings rest
      else return .error (.io staging)

/-- Finishes what an install that did not end left in the root. -/
def recover : Locked β (Except InstallError Unit) := do
  if !(← readEntry) then return .error (.io "")
  let stagings ← Prog.read fun r => r.stagings.keys
  recoverStagings stagings

/-! ## Committing -/

/-- Where an install stands for the hand-off between `Dropped` and `Commit`. -/
inductive Stage
  | going
  | dropped
  | committing
  | landed (dir : String)
deriving DecidableEq

/-- `Dropped::drop`. -/
def Stage.drop : Stage → Stage
  | going => dropped
  | stage => stage

/-- `Commit::run`: the stage is locked while `commit` runs, so a drop comes before or after
it. An install nothing drops has no stage. -/
def commitRun (stage : Option Stage) (engine : String)
    (commit : Locked β (Except InstallError String)) :
    Locked β (Except InstallError String × Option Stage) :=
  match stage with
  | none => do return (← commit, none)
  | some .dropped => pure (.error (.stopped engine), some .dropped)
  | some _ => do
    match ← commit with
    | .ok dir => return (.ok dir, some (.landed dir))
    | .error e => return (.error e, some .committing)

/-- The moves of `put_in_place`: what is there is set aside, the new build is moved in, and
what was there is put back if it cannot be. -/
def moves (staging name : String) : Locked β (Except InstallError String) := do
  let replacing ← Prog.read fun r => (r.homes.lookup name).isSome
  if replacing then
    if !(← attempt some) then return .error (.io (staging ++ "/replaced"))
    if !(← attempt (Root.setAside staging name)) then return .error (.io name)
  if ← attempt (Root.moveIn staging name) then return .ok name
  if replacing then
    if !(← attempt (Root.putBack staging name)) then
      return .error (.stranded (staging ++ "/replaced/" ++ name) name)
  return .error (.io name)

/-- `put_in_place`: the record makes the unpacked build whole, then it is moved in. -/
def putInPlace (build : β) (engine staging name : String) (stage : Option Stage) :
    Locked β (Except InstallError String × Option Stage) := do
  if !(← attempt (Root.setUnpacked staging (.whole build))) then
    return (.error (.io (staging ++ "/build")), stage)
  commitRun stage engine (moves staging name)

/-! ## Installing -/

/-- When the future of an install is dropped, if it is. -/
inductive Drop
  | never
  | beforeCommit
  | later
deriving DecidableEq

/-- One install: the build it unpacks if it gets that far, the name of its directory and of
its staging directory, which builds it supersedes, and whether and when it is dropped. -/
structure Install (β : Type) where
  build : Option β
  engine : String
  name : String
  staging : String
  supersedes : String → Build β → Bool
  droppable : Bool
  drop : Drop

/-- The stage `Commit` finds: a drop before it has been noted by then. -/
def Install.stage (op : Install β) : Option Stage :=
  if op.droppable then some (if op.drop = .beforeCommit then Stage.going.drop else .going)
  else none

/-- The loop of `finish`: the other builds it supersedes are removed, as far as that works. -/
def retire (op : Install β) : List String → Locked β Unit
  | [] => pure ()
  | other :: rest => do
    let superseded ← Prog.read fun r =>
      other != op.name && (r.homes.lookup other).any (op.supersedes other)
    if superseded then
      let _ ← removeEntry other
      retire op rest
    else retire op rest

/-- `install_into` with `finish`. -/
def installInto (op : Install β) : Locked β (Except InstallError String) := do
  if !(← attempt (Root.setUnpacked op.staging .part)) then return .error .failed
  match op.build with
  | none => return .error .failed
  | some build =>
    let (result, _) ← putInPlace build op.engine op.staging op.name op.stage
    match result with
    | .error e => return .error e
    | .ok dir =>
      if !(← readEntry) then return .error (.io "")
      retire op (← Prog.read fun r => r.homes.keys)
      return .ok dir

/-- Whether the staging directory has to be kept. -/
def isStranded : Except InstallError String → Bool
  | .error (.stranded _ _) => true
  | _ => false

/-- `install_from`, under the lock; the future that was dropped does not clean up. -/
def installFrom (op : Install β) : Locked β (Except InstallError String) := do
  match ← recover with
  | .error e => return .error e
  | .ok () =>
    if !(← attempt (Root.makeStaging op.staging)) then return .error (.io op.staging)
    let result ← installInto op
    if op.drop = .never && !isStranded result then
      let _ ← removeStaging op.staging
      return result
    else return result

end Hedos.Engines
