import Mathlib.Data.List.Nodup
import Hedos.Environments.Prepare
import Hedos.Lib.Lists

/-!
# Builds do not overlap

When calls whose keys differ do not work on one directory, no process of a dropped call is left
where a build begins, and no two calls are in the middle of one `relink`, then every directory is
written by one build at a time, what holds the marker stays, and what a call returns is built
(`builds_sound`). The code sees to none of the three (`builds_overlap`).

* `CallOk` is what the disk holds for one call, `Apart` what keeps two calls apart;
* `Inv.set` is the step lemma: one call moves, and what it changes is its own.
-/

namespace Hedos.Environments

open Function

/-! ## The invariant -/

section

variable (machine : Machine)

/-- What is on disk for a call. -/
structure CallOk (s : State) (call : Call) : Prop where
  fresh : call.stage.isBuilding = true →
    s.marked (call.dir machine) = false ∧ call.dir machine ∉ s.orphans
  built : call.stage.isBuilt = true → (call.dir machine, call.lock) ∈ s.finished
  result : ∀ dir, call.stage = .returned (.ok dir) → dir = call.dir machine
  unlinking : call.stage = .unlinking → (s.current (call.dir machine).runtime).isSome = true
  linking : call.stage = .linking → s.current (call.dir machine).runtime = none
  relinked : call.stage ≠ .returned (.error .relink)

/-- Two calls at once. -/
structure Apart (call other : Call) : Prop where
  dirs : call.stage.isInside = true → other.stage.isInside = true →
    call.dir machine ≠ other.dir machine
  links : call.stage.isRelinking = true → other.stage.isRelinking = true →
    (call.dir machine).runtime ≠ (other.dir machine).runtime
  locks : machine.hash call.lock = machine.hash other.lock → call.lock = other.lock

structure Inv (s : State) : Prop where
  calls : ∀ (n : ℕ) call, s.calls[n]? = some call → CallOk machine s call
  apart : ∀ (m n : ℕ) call other, s.calls[m]? = some call → s.calls[n]? = some other → m ≠ n →
    Apart machine call other
  orphans : s.orphans.Nodup ∧ ∀ dir ∈ s.orphans, s.marked dir = false
  marked : ∀ dir, s.marked dir = true → ∃ lock, (dir, lock) ∈ s.finished
  finished : ∀ dir lock, (dir, lock) ∈ s.finished → machine.hash lock = dir.hash
  locks : ∀ (n : ℕ) call dir lock, s.calls[n]? = some call → (dir, lock) ∈ s.finished →
    machine.hash lock = machine.hash call.lock → lock = call.lock

end

section

variable {machine : Machine} {s s' t : State} {call other : Call} {n : ℕ} {stage : Stage}

theorem Apart.symm (h : Apart machine call other) : Apart machine other call :=
  ⟨fun ho hc => (h.dirs hc ho).symm, fun ho hc => (h.links hc ho).symm,
    fun hhash => (h.locks hhash.symm).symm⟩

/-- A call keeps what it has when nothing of it changes. -/
theorem CallOk.mono (h : CallOk machine s call)
    (hmarked : call.stage.isBuilding = true →
      s'.marked (call.dir machine) = s.marked (call.dir machine))
    (horphans : call.stage.isBuilding = true → call.dir machine ∈ s'.orphans →
      call.dir machine ∈ s.orphans)
    (hfinished : s.finished ⊆ s'.finished)
    (hcurrent : call.stage.isRelinking = true →
      s'.current (call.dir machine).runtime = s.current (call.dir machine).runtime) :
    CallOk machine s' call := by
  refine ⟨fun hb => ⟨?_, fun hin => (h.fresh hb).2 (horphans hb hin)⟩,
    fun hb => hfinished (h.built hb), h.result, fun hat => ?_, fun hat => ?_, h.relinked⟩
  · rw [hmarked hb]
    exact (h.fresh hb).1
  · rw [hcurrent (by rw [hat]; rfl)]
    exact h.unlinking hat
  · rw [hcurrent (by rw [hat]; rfl)]
    exact h.linking hat

/-- What the disk of another state keeps of this one, for a call at work on a directory. -/
structure Own (machine : Machine) (s s' : State) (call : Call) : Prop where
  marked : ∀ dir, dir ≠ call.dir machine → s'.marked dir = s.marked dir
  orphans : ∀ dir, dir ≠ call.dir machine → dir ∈ s'.orphans → dir ∈ s.orphans
  finished : s.finished ⊆ s'.finished
  current : ∀ runtime, runtime ≠ (call.dir machine).runtime → s'.current runtime = s.current runtime

/-- One call moves. What it changes of its directory or its link, no other call has. -/
theorem Inv.set (h : Inv machine s) (hcall : s.calls[n]? = some call) (hcalls : s'.calls = s.calls)
    (hok : CallOk machine s' { call with stage })
    (hown : Own machine s s' call)
    (hdisk : call.stage.isInside = true ∨
      (s'.marked = s.marked ∧ s'.orphans = s.orphans ∧ s'.current = s.current))
    (hlink : call.stage.isRelinking = true ∨ s'.current = s.current)
    (hinside : stage.isInside = true → call.stage.isInside = true ∨
      ∀ (m : ℕ) other, s.calls[m]? = some other → m ≠ n → other.stage.isInside = true →
        call.dir machine ≠ other.dir machine)
    (hrelinking : stage.isRelinking = true → call.stage.isRelinking = true ∨
      ∀ (m : ℕ) other, s.calls[m]? = some other → m ≠ n → other.stage.isRelinking = true →
        (call.dir machine).runtime ≠ (other.dir machine).runtime)
    (horphans : s'.orphans.Nodup ∧ ∀ dir ∈ s'.orphans, s'.marked dir = false)
    (hmarked : ∀ dir, s'.marked dir = true → ∃ lock, (dir, lock) ∈ s'.finished)
    (hfinished : ∀ entry ∈ s'.finished, entry ∈ s.finished ∨
      entry = (call.dir machine, call.lock)) :
    Inv machine (setStage s' n call stage) := by
  have happart : ∀ (m : ℕ) other, s.calls[m]? = some other → m ≠ n →
      Apart machine { call with stage } other := by
    intro m other hother hm
    have hold := h.apart n m call other hcall hother (Ne.symm hm)
    refine ⟨fun hc ho => ?_, fun hc ho => ?_, hold.locks⟩
    · rcases hinside hc with hin | hnone
      · exact hold.dirs hin ho
      · exact hnone m other hother hm ho
    · rcases hrelinking hc with hin | hnone
      · exact hold.links hin ho
      · exact hnone m other hother hm ho
  refine ⟨fun m c hc => ?_, fun m k c c' hc hc' hmk => ?_, horphans, hmarked,
    fun dir lock hin => ?_, fun m c dir lock hc hin hhash => ?_⟩
  · simp only [setStage, hcalls] at hc
    rcases Lists.getElem?_set_cases hc with ⟨rfl, rfl⟩ | ⟨hm, hold⟩
    · exact ⟨hok.fresh, hok.built, hok.result, hok.unlinking, hok.linking, hok.relinked⟩
    · have hok' := h.calls m c hold
      have hap := h.apart n m call c hcall hold hm
      have hbuilding : c.stage.isBuilding = true → c.stage.isInside = true := by
        cases c.stage <;> simp [Stage.isBuilding, Stage.isInside]
      refine hok'.mono (fun hb => ?_) (fun hb hin => ?_) hown.finished fun hr => ?_
      · rcases hdisk with hin | ⟨hsame, -⟩
        · exact hown.marked _ (hap.dirs hin (hbuilding hb)).symm
        · exact congrFun hsame _
      · rcases hdisk with hinside | ⟨-, hsame, -⟩
        · exact hown.orphans _ (hap.dirs hinside (hbuilding hb)).symm hin
        · exact hsame ▸ hin
      · rcases hlink with hin | hsame
        · exact hown.current _ (hap.links hin hr).symm
        · exact congrFun hsame _
  · simp only [setStage, hcalls] at hc hc'
    rcases Lists.getElem?_set_cases hc with ⟨rfl, rfl⟩ | ⟨hm, hold⟩
    · rcases Lists.getElem?_set_cases hc' with ⟨rfl, -⟩ | ⟨hk, hold'⟩
      · exact absurd rfl hmk
      · exact happart k c' hold' (Ne.symm hk)
    · rcases Lists.getElem?_set_cases hc' with ⟨rfl, rfl⟩ | ⟨-, hold'⟩
      · exact (happart m c hold (Ne.symm hm)).symm
      · exact h.apart m k c c' hold hold' hmk
  · rcases hfinished _ hin with hold | hnew
    · exact h.finished dir lock hold
    · rw [Prod.mk.injEq] at hnew
      rw [hnew.1, hnew.2]
      rfl
  · simp only [setStage, hcalls] at hc
    have hold : ∃ c', s.calls[m]? = some c' ∧ c'.lock = c.lock := by
      rcases Lists.getElem?_set_cases hc with ⟨rfl, rfl⟩ | ⟨-, hold⟩
      · exact ⟨call, hcall, rfl⟩
      · exact ⟨c, hold, rfl⟩
    obtain ⟨c', hc', hlock⟩ := hold
    rw [← hlock] at hhash ⊢
    rcases hfinished _ hin with hin | hnew
    · exact h.locks m c' dir lock hc' hin hhash
    · rw [Prod.mk.injEq] at hnew
      rw [hnew.2] at hhash ⊢
      by_cases hm : n = m
      · subst hm
        rw [Option.some.inj (hcall.symm.trans hc')]
      · exact (h.apart n m call c' hcall hc' hm).locks hhash

theorem Own.refl (machine : Machine) (s : State) (call : Call) : Own machine s s call :=
  ⟨fun _ _ => rfl, fun _ _ h => h, List.Subset.refl _, fun _ _ => rfl⟩

/-- One call moves, and changes nothing on disk. -/
theorem Inv.moves (h : Inv machine s) (hcall : s.calls[n]? = some call)
    (hok : CallOk machine s { call with stage })
    (hinside : stage.isInside = true → call.stage.isInside = true ∨
      ∀ (m : ℕ) other, s.calls[m]? = some other → m ≠ n → other.stage.isInside = true →
        call.dir machine ≠ other.dir machine)
    (hrelinking : stage.isRelinking = true → call.stage.isRelinking = true ∨
      ∀ (m : ℕ) other, s.calls[m]? = some other → m ≠ n → other.stage.isRelinking = true →
        (call.dir machine).runtime ≠ (other.dir machine).runtime) :
    Inv machine (setStage s n call stage) :=
  h.set hcall rfl hok (.refl machine s call) (.inr ⟨rfl, rfl, rfl⟩) (.inr rfl) hinside hrelinking
    h.orphans h.marked fun _ hin => .inl hin

/-! ## The condition -/

/-- The steps after which builds do not get into each other's way. -/
def isClear (machine : Machine) (s : State) : Action → Bool
  | .prepare _ lockfile =>
    -- no two lockfiles have one hash
    (s.calls.map Call.lock ++ s.finished.map Prod.snd).all fun lock =>
      machine.hash lock != machine.hash (machine.lockHere lockfile) ||
        lock == machine.lockHere lockfile
  | .go n =>
    (s.calls[n]?).all fun call =>
      -- `runtimes/current` is a link for the one runtime, or a directory for the other
      s.isPlain (call.dir machine).runtime &&
      match call.stage with
      -- no call with another key is at work on the directory
      | .waiting => s.calls.all fun other =>
          !other.stage.isInside || other.dir machine != call.dir machine ||
            other.key machine == call.key machine
      -- no process of a dropped call writes into the directory that is built
      | .checking => s.marked (call.dir machine) || !s.orphans.contains (call.dir machine)
      -- no call is in the middle of the same `relink`
      | .looking => s.calls.all fun other =>
          !other.stage.isRelinking || (other.dir machine).runtime != (call.dir machine).runtime
      | _ => true
  | _ => true

/-- A call that is clear to move finds its link and nothing else. -/
theorem linkThere_of_isClear (hcall : s.calls[n]? = some call)
    (hclear : isClear machine s (.go n) = true) :
    linkThere s (call.dir machine).runtime = (s.current (call.dir machine).runtime).isSome := by
  simp only [isClear, hcall, Option.all_some, Bool.and_eq_true] at hclear
  have hplain := hclear.1
  unfold linkThere
  cases hruntime : (call.dir machine).runtime with
  | runtimes =>
    rw [hruntime] at hplain
    simp only [State.isPlain, Bool.not_eq_true'] at hplain
    simp [hplain]
  | root | named => simp

theorem Inv.prepare (h : Inv machine s) {runtimeId : String} {lockfile : Lockfile}
    (hclear : isClear machine s (.prepare runtimeId lockfile) = true) :
    Inv machine
      { s with calls := s.calls ++ [{ runtimeId, lock := machine.lockHere lockfile }] } := by
  simp only [isClear, List.all_eq_true, List.mem_append, List.mem_map, Bool.or_eq_true, bne_iff_ne,
    beq_iff_eq] at hclear
  have hlock : ∀ lock, ((∃ call ∈ s.calls, call.lock = lock) ∨
      ∃ entry ∈ s.finished, entry.2 = lock) →
      machine.hash lock = machine.hash (machine.lockHere lockfile) →
        lock = machine.lockHere lockfile := by
    intro lock hin hhash
    rcases hclear lock hin with hne | heq
    · exact absurd hhash hne
    · exact heq
  have hnew : ∀ (m : ℕ) call, s.calls[m]? = some call →
      Apart machine call { runtimeId, lock := machine.lockHere lockfile } := by
    intro m call hcall
    refine ⟨by simp [Stage.isInside], by simp [Stage.isRelinking], fun hhash => ?_⟩
    exact hlock _ (.inl ⟨call, List.mem_of_getElem? hcall, rfl⟩) hhash
  refine ⟨fun n call hcall => ?_, fun m n call other hcall hother hmn => ?_, h.orphans, h.marked,
    h.finished, fun n call dir lock hcall hin hhash => ?_⟩
  · rcases Lists.getElem?_concat_cases hcall with hold | ⟨-, rfl⟩
    · have hok := h.calls n call hold
      exact ⟨hok.fresh, hok.built, hok.result, hok.unlinking, hok.linking, hok.relinked⟩
    · exact ⟨by simp [Stage.isBuilding], by simp [Stage.isBuilt], by simp, by simp, by simp,
        by simp⟩
  · rcases Lists.getElem?_concat_cases hcall with hc | ⟨hm, rfl⟩
    · rcases Lists.getElem?_concat_cases hother with ho | ⟨-, rfl⟩
      · exact h.apart m n call other hc ho hmn
      · exact hnew m call hc
    · rcases Lists.getElem?_concat_cases hother with ho | ⟨hn, -⟩
      · exact (hnew n other ho).symm
      · exact absurd (hm.trans hn.symm) hmn
  · rcases Lists.getElem?_concat_cases hcall with hold | ⟨-, rfl⟩
    · exact h.locks n call dir lock hold hin hhash
    · exact hlock lock (.inr ⟨(dir, lock), hin, rfl⟩) hhash

/-- A call at this stage asks nothing of the disk but what its build has left. -/
theorem CallOk.plain (hbuilding : stage.isBuilding = false) (hrelinking : stage.isRelinking = false)
    (hresult : ∀ dir, stage = .returned (.ok dir) → dir = call.dir machine)
    (hrelinked : stage ≠ .returned (.error .relink))
    (hbuilt : stage.isBuilt = true → (call.dir machine, call.lock) ∈ s.finished) :
    CallOk machine s { call with stage } := by
  refine ⟨fun h => ?_, hbuilt, hresult, fun h => ?_, fun h => ?_, hrelinked⟩
  · rw [show stage.isBuilding = true from h] at hbuilding
    cases hbuilding
  · rw [show stage = .unlinking from h] at hrelinking
    cases hrelinking
  · rw [show stage = .linking from h] at hrelinking
    cases hrelinking

theorem Inv.goOn_waiting (h : Inv machine s) (hcall : s.calls[n]? = some call)
    (hat : call.stage = .waiting) (hfree : isFree machine s call = true)
    (hclear : isClear machine s (.go n) = true) :
    Inv machine (setStage s n call .checking) := by
  simp only [isClear, hcall, Option.all_some, hat, Bool.and_eq_true, List.all_eq_true,
    Bool.or_eq_true, Bool.not_eq_true', bne_iff_ne, beq_iff_eq] at hclear
  simp only [isFree, List.all_eq_true, Bool.not_eq_true', Bool.and_eq_false_iff,
    beq_eq_false_iff_ne] at hfree
  refine h.moves hcall (.plain rfl rfl (by simp) (by simp) (by simp [Stage.isBuilt]))
    (fun _ => .inr fun m other hother _ hin hdir => ?_) (by simp [Stage.isRelinking])
  have hmem := List.mem_of_getElem? hother
  -- the lock keeps out the calls with the same key, the condition those with another
  rcases hclear.2 other hmem with (hout | hne) | hkey
  · rw [hin] at hout
    cases hout
  · exact hne hdir.symm
  · rcases hfree other hmem with hout | hne
    · rw [hin] at hout
      cases hout
    · exact hne hkey

theorem Inv.goOn_checking (h : Inv machine s) (hcall : s.calls[n]? = some call)
    (hat : call.stage = .checking) (hclear : isClear machine s (.go n) = true) :
    Inv machine
      (setStage s n call (if s.marked (call.dir machine) then .looking else .clearing)) := by
  simp only [isClear, hcall, Option.all_some, hat, Bool.and_eq_true, Bool.or_eq_true,
    Bool.not_eq_true'] at hclear
  have hinside : call.stage.isInside = true := by
    rw [hat]
    rfl
  cases hmarked : s.marked (call.dir machine) with
  | true =>
    obtain ⟨lock, hin⟩ := h.marked _ hmarked
    have hlock : lock = call.lock :=
      h.locks n call _ lock hcall hin (h.finished _ _ hin)
    rw [hlock] at hin
    refine h.moves hcall (.plain rfl rfl (by simp) (by simp) fun _ => hin) (fun _ => .inl hinside)
      (by simp [Stage.isRelinking])
  | false =>
    have hnone : call.dir machine ∉ s.orphans := by
      rcases hclear.2 with hyes | hnone
      · rw [hmarked] at hyes
        cases hyes
      · simpa using hnone
    refine h.moves hcall ⟨fun _ => ⟨hmarked, hnone⟩, ?_, ?_, ?_, ?_, ?_⟩ (fun _ => .inl hinside) ?_
    all_goals simp [Stage.isBuilt, Stage.isRelinking]

/-- The directory is removed, and nothing else holds its marker. -/
theorem Inv.goOn_clearing (h : Inv machine s) (hcall : s.calls[n]? = some call)
    (hat : call.stage = .clearing) :
    Inv machine (setStage
      { s with
        present := update s.present (call.dir machine) false
        marked := update s.marked (call.dir machine) false } n call .making) := by
  have hbuilding : call.stage.isBuilding = true := by
    rw [hat]
    rfl
  obtain ⟨hunmarked, hnone⟩ := (h.calls n call hcall).fresh hbuilding
  have hsame : update s.marked (call.dir machine) false = s.marked := by
    rw [← hunmarked, update_eq_self]
  rw [hsame]
  refine h.set hcall rfl ⟨fun _ => ⟨hunmarked, hnone⟩, ?_, ?_, ?_, ?_, ?_⟩
    ⟨fun _ _ => rfl, fun _ _ h => h, List.Subset.refl _, fun _ _ => rfl⟩ (.inr ⟨rfl, rfl, rfl⟩)
    (.inr rfl) (fun _ => .inl (by rw [hat]; rfl)) ?_ h.orphans h.marked fun _ hin => .inl hin
  all_goals simp [Stage.isBuilt, Stage.isRelinking]

theorem Inv.goOn_building (h : Inv machine s) (hcall : s.calls[n]? = some call)
    (hat : call.stage.isBuilding = true) (hinside : call.stage.isInside = true) (phase : Phase)
    (present : EnvDir → Bool) (currentIsDir : Bool) :
    Inv machine (setStage { s with present, currentIsDir } n call (.building phase)) := by
  refine h.set hcall rfl ⟨fun _ => (h.calls n call hcall).fresh hat, ?_, ?_, ?_, ?_, ?_⟩
    ⟨fun _ _ => rfl, fun _ _ h => h, List.Subset.refl _, fun _ _ => rfl⟩ (.inr ⟨rfl, rfl, rfl⟩)
    (.inr rfl) (fun _ => .inl hinside) ?_ h.orphans h.marked fun _ hin => .inl hin
  all_goals simp [Stage.isBuilt, Stage.isRelinking]

theorem Inv.goOn_finished (h : Inv machine s) (hcall : s.calls[n]? = some call)
    (hat : call.stage.isBuilding = true) (hinside : call.stage.isInside = true) :
    Inv machine (setStage { s with finished := (call.dir machine, call.lock) :: s.finished }
      n call .marking) := by
  refine h.set hcall rfl ⟨fun _ => (h.calls n call hcall).fresh hat, fun _ => List.mem_cons_self,
    ?_, ?_, ?_, ?_⟩ ⟨fun _ _ => rfl, fun _ _ h => h, List.subset_cons_self _ _, fun _ _ => rfl⟩
    (.inr ⟨rfl, rfl, rfl⟩) (.inr rfl) (fun _ => .inl hinside) ?_ h.orphans (fun dir hdir => ?_)
    fun entry hin => ?_
  · simp
  · simp
  · simp
  · simp
  · simp [Stage.isRelinking]
  · obtain ⟨lock, hin⟩ := h.marked dir hdir
    exact ⟨lock, .tail _ hin⟩
  · rcases List.mem_cons.1 hin with heq | hin
    · exact .inr heq
    · exact .inl hin

theorem Inv.goOn_marking (h : Inv machine s) (hcall : s.calls[n]? = some call)
    (hat : call.stage = .marking) :
    Inv machine (setStage
      { s with marked := update s.marked (call.dir machine) true } n call .looking) := by
  have hok := h.calls n call hcall
  have hbuilt := hok.built (by rw [hat]; rfl)
  obtain ⟨-, hnone⟩ := hok.fresh (by rw [hat]; rfl)
  have hinside : call.stage.isInside = true := by
    rw [hat]
    rfl
  refine h.set hcall rfl (.plain rfl rfl (by simp) (by simp) fun _ => hbuilt)
    ⟨fun dir hdir => update_of_ne hdir _ _, fun _ _ h => h, List.Subset.refl _,
      fun _ _ => rfl⟩ (.inl hinside) (.inr rfl) (fun _ => .inl hinside)
        (by simp [Stage.isRelinking])
    ⟨h.orphans.1, fun dir hdir => ?_⟩ (fun dir hdir => ?_) fun _ hin => .inl hin
  · have hne : dir ≠ call.dir machine := fun heq => hnone (heq ▸ hdir)
    simp only [update_of_ne hne]
    exact h.orphans.2 dir hdir
  · by_cases heq : dir = call.dir machine
    · exact ⟨call.lock, heq ▸ hbuilt⟩
    · simp only [update_of_ne heq] at hdir
      exact h.marked dir hdir

theorem Inv.goOn_looking (h : Inv machine s) (hcall : s.calls[n]? = some call)
    (hat : call.stage = .looking) (hclear : isClear machine s (.go n) = true) :
    Inv machine (setStage s n call
      (if linkThere s (call.dir machine).runtime then .unlinking else .linking)) := by
  rw [linkThere_of_isClear hcall hclear]
  simp only [isClear, hcall, Option.all_some, hat, Bool.and_eq_true, List.all_eq_true,
    Bool.or_eq_true, Bool.not_eq_true', bne_iff_ne] at hclear
  have hbuilt := (h.calls n call hcall).built (by rw [hat]; rfl)
  have hinside : call.stage.isInside = true := by
    rw [hat]
    rfl
  have halone : ∀ (m : ℕ) other, s.calls[m]? = some other → m ≠ n →
      other.stage.isRelinking = true →
        (call.dir machine).runtime ≠ (other.dir machine).runtime := by
    intro m other hother _ hre hsame
    rcases hclear.2 other (List.mem_of_getElem? hother) with hout | hne
    · rw [hre] at hout
      cases hout
    · exact hne hsame.symm
  cases hlink : s.current (call.dir machine).runtime with
  | some target =>
    refine h.moves hcall ⟨?_, fun _ => hbuilt, ?_, fun _ => ?_, ?_, ?_⟩ (fun _ => .inl hinside)
      fun _ => .inr halone
    · simp [Stage.isBuilding]
    · simp
    · show (s.current (call.dir machine).runtime).isSome = true
      rw [hlink]
      rfl
    · simp
    · simp
  | none =>
    refine h.moves hcall ⟨?_, fun _ => hbuilt, ?_, ?_, fun _ => hlink, ?_⟩ (fun _ => .inl hinside)
      fun _ => .inr halone
    all_goals simp [Stage.isBuilding]

/-- The link is changed by the call that is in the middle of its `relink`. -/
theorem Inv.relinks (h : Inv machine s) (hcall : s.calls[n]? = some call)
    (hat : call.stage.isRelinking = true) (target : Option EnvDir)
    (hnext : (stage = .linking ∧ target = none) ∨ stage = .returned (.ok (call.dir machine))) :
    Inv machine (setStage
      { s with current := update s.current (call.dir machine).runtime target }
      n call stage) := by
  have hinside : call.stage.isInside = true := by
    cases hstage : call.stage <;> simp_all [Stage.isRelinking, Stage.isInside]
  have hbuilt : (call.dir machine, call.lock) ∈ s.finished := by
    refine (h.calls n call hcall).built ?_
    cases hstage : call.stage <;> simp_all [Stage.isRelinking, Stage.isBuilt]
  refine h.set hcall rfl ?_ ⟨fun _ _ => rfl, fun _ _ h => h, List.Subset.refl _,
    fun runtime hne => update_of_ne hne _ _⟩ (.inl hinside) (.inl hat)
    (fun _ => .inl hinside) (fun _ => .inl hat) h.orphans h.marked fun _ hin => .inl hin
  rcases hnext with ⟨rfl, rfl⟩ | rfl
  · refine ⟨?_, fun _ => hbuilt, ?_, ?_, fun _ => update_self _ _ _, ?_⟩
    all_goals simp [Stage.isBuilding]
  · exact .plain rfl rfl (by rintro dir hdir; simpa using hdir.symm) (by simp) fun _ => hbuilt

/-- A call that ends with an error that is its own. -/
theorem Inv.ends (h : Inv machine s) (hcall : s.calls[n]? = some call) {failure : Failure}
    (hfailure : failure ≠ .relink) :
    Inv machine (setStage s n call (.returned (.error failure))) := by
  refine h.moves hcall (.plain rfl rfl (by simp) ?_ (by simp [Stage.isBuilt]))
    (by simp [Stage.isInside]) (by simp [Stage.isRelinking])
  simpa using hfailure

theorem Inv.goOn (h : Inv machine s) (hcall : s.calls[n]? = some call)
    (hclear : isClear machine s (.go n) = true) {next : Stage × State}
    (hgo : goOn machine s call = some next) : Inv machine (setStage next.2 n call next.1) := by
  have hok := h.calls n call hcall
  unfold Environments.goOn at hgo
  simp only at hgo
  split at hgo
  · rename_i hat
    split at hgo
    · rename_i hfree
      cases hgo
      exact h.goOn_waiting hcall hat hfree hclear
    · cases hgo
  · rename_i hat
    cases hgo
    exact h.goOn_checking hcall hat hclear
  · rename_i hat
    cases hgo
    exact h.goOn_clearing hcall hat
  · rename_i hat
    cases hgo
    exact h.goOn_building hcall (by rw [hat]; rfl) (by rw [hat]; rfl) .venv s.present _
  · rename_i hat
    cases hgo
    exact h.goOn_building hcall (by rw [hat]; rfl) (by rw [hat]; rfl) .offline _ s.currentIsDir
  · rename_i hat
    cases hgo
    exact h.goOn_finished hcall (by rw [hat]; rfl) (by rw [hat]; rfl)
  · rename_i hat
    split at hgo
    · cases hgo
      exact h.goOn_marking hcall hat
    · cases hgo
      exact h.ends hcall (by simp)
  · rename_i hat
    cases hgo
    exact h.goOn_looking hcall hat hclear
  · rename_i hat
    -- the link it saw is still there
    rw [if_pos (hok.unlinking hat)] at hgo
    cases hgo
    exact h.relinks hcall (by rw [hat]; rfl) none (.inl ⟨rfl, rfl⟩)
  · rename_i hat
    -- and the one it removed is not there again
    rw [linkThere_of_isClear hcall hclear, hok.linking hat] at hgo
    cases hgo
    exact h.relinks hcall (by rw [hat]; rfl) _ (.inr rfl)
  · cases hgo
  · cases hgo

theorem Inv.goWrong (h : Inv machine s) (hcall : s.calls[n]? = some call)
    (hwrong : goWrong call.stage = some stage) : Inv machine (setStage s n call stage) := by
  unfold Environments.goWrong at hwrong
  split at hwrong
  case h_7 hat =>
    cases hwrong
    exact h.goOn_building hcall (by rw [hat]; rfl) (by rw [hat]; rfl) .online s.present
      s.currentIsDir
  case h_9 => cases hwrong
  all_goals
    cases hwrong
    exact h.ends hcall (by simp)

/-- A dropped call leaves its process behind. -/
theorem Inv.drops (h : Inv machine s) (hcall : s.calls[n]? = some call) {phase : Phase}
    (hat : call.stage = .building phase) :
    Inv machine (setStage { s with orphans := call.dir machine :: s.orphans } n call .dropped) := by
  obtain ⟨hunmarked, hnone⟩ := (h.calls n call hcall).fresh (by rw [hat]; rfl)
  refine h.set hcall rfl (.plain rfl rfl (by simp) (by simp) (by simp [Stage.isBuilt]))
    ⟨fun _ _ => rfl, fun dir hne hin => ?_, List.Subset.refl _, fun _ _ => rfl⟩
    (.inl (by rw [hat]; rfl)) (.inr rfl) (by simp [Stage.isInside]) (by simp [Stage.isRelinking])
    ⟨List.nodup_cons.2 ⟨hnone, h.orphans.1⟩, fun dir hin => ?_⟩ h.marked fun _ hin => .inl hin
  · rcases List.mem_cons.1 hin with heq | hin
    · exact absurd heq hne
    · exact hin
  · rcases List.mem_cons.1 hin with rfl | hin
    · exact hunmarked
    · exact h.orphans.2 dir hin

theorem Inv.exits (h : Inv machine s) (dir : EnvDir) :
    Inv machine { s with orphans := s.orphans.erase dir } := by
  refine ⟨fun n call hcall => ?_, h.apart, ⟨h.orphans.1.erase dir, fun d hd => ?_⟩, h.marked,
    h.finished, h.locks⟩
  · exact (h.calls n call hcall).mono (fun _ => rfl) (fun _ hin => List.mem_of_mem_erase hin)
      (List.Subset.refl _) fun _ => rfl
  · exact h.orphans.2 d (List.mem_of_mem_erase hd)

theorem inv_step {action : Action} (h : Inv machine s) (hclear : isClear machine s action = true)
    (hstep : step machine s action = some t) : Inv machine t := by
  cases action with
  | prepare runtimeId lockfile =>
    cases hstep
    exact h.prepare hclear
  | go n =>
    simp only [step, Option.bind_eq_some_iff, Option.map_eq_some_iff] at hstep
    obtain ⟨call, hcall, next, hgo, rfl⟩ := hstep
    exact h.goOn hcall hclear hgo
  | fail n =>
    simp only [step, Option.bind_eq_some_iff, Option.map_eq_some_iff] at hstep
    obtain ⟨call, hcall, stage, hwrong, rfl⟩ := hstep
    exact h.goWrong hcall hwrong
  | drop n =>
    simp only [step, Option.bind_eq_some_iff] at hstep
    obtain ⟨call, hcall, hdrop⟩ := hstep
    split at hdrop
    · cases hdrop
      exact h.moves hcall (.plain rfl rfl (by simp) (by simp) (by simp [Stage.isBuilt]))
        (by simp [Stage.isInside]) (by simp [Stage.isRelinking])
    · rename_i phase hat
      cases hdrop
      exact h.drops hcall hat
    · cases hdrop
  | exit dir =>
    simp only [step, Option.ite_none_right_eq_some] at hstep
    obtain rfl := Option.some.inj hstep.2
    exact h.exits dir

end

/-! ## What the calls get -/

section

variable {machine : Machine} {s : State}

/-- No call has been made, and what holds the marker was built. -/
def State.IsInit (machine : Machine) (s : State) : Prop :=
  s.calls = [] ∧ s.orphans = [] ∧
    (∀ dir, s.marked dir = true → ∃ lock, (dir, lock) ∈ s.finished) ∧
    ∀ dir lock, (dir, lock) ∈ s.finished → machine.hash lock = dir.hash

theorem inv_init (h : s.IsInit machine) : Inv machine s := by
  obtain ⟨hcalls, horphans, hmarked, hfinished⟩ := h
  refine ⟨fun n call hcall => ?_, fun m n call other hcall => ?_, ?_, hmarked, hfinished,
    fun n call dir lock hcall => ?_⟩
  · simp [hcalls] at hcall
  · simp [hcalls] at hcall
  · simp [horphans]
  · simp [hcalls] at hcall

/-- The builds that write into the directory: those of calls, and those that dropped calls left. -/
def writers (machine : Machine) (s : State) (dir : EnvDir) : ℕ :=
  s.calls.countP (fun call => call.stage.isBuilding && call.dir machine == dir) +
    s.orphans.count dir

structure Sound (machine : Machine) (s : State) : Prop where
  single : ∀ dir, writers machine s dir ≤ 1
  /-- What holds the marker is not removed, and nothing is built there. -/
  kept : ∀ action t dir, step machine s action = some t → s.marked dir = true → t.marked dir = true
  unbuilt : ∀ dir, s.marked dir = true → writers machine s dir = 0
  returned : ∀ call ∈ s.calls, ∀ dir, call.stage = .returned (.ok dir) →
    dir = call.dir machine ∧ (dir, call.lock) ∈ s.finished
  /-- A build that fails leaves no marker. -/
  failed : ∀ (n : ℕ) call t, s.calls[n]? = some call → call.stage.isBuilding = true →
    step machine s (.fail n) = some t → t.marked (call.dir machine) = false
  relinked : ∀ call ∈ s.calls, call.stage ≠ .returned (.error .relink)

theorem isInside_of_isBuilding {stage : Stage} (h : stage.isBuilding = true) :
    stage.isInside = true := by
  cases stage <;> simp_all [Stage.isBuilding, Stage.isInside]

theorem Inv.single (h : Inv machine s) (dir : EnvDir) : writers machine s dir ≤ 1 := by
  have hcalls :
      s.calls.countP (fun call => call.stage.isBuilding && call.dir machine == dir) ≤ 1 := by
    refine Lists.countP_le_one fun m n call other hcall hother hc ho => ?_
    simp only [Bool.and_eq_true, beq_iff_eq] at hc ho
    by_contra hmn
    exact (h.apart m n call other hcall hother hmn).dirs (isInside_of_isBuilding hc.1)
      (isInside_of_isBuilding ho.1) (hc.2.trans ho.2.symm)
  have horphans : s.orphans.count dir ≤ 1 := List.nodup_iff_count_le_one.1 h.orphans.1 dir
  unfold writers
  by_cases hin : dir ∈ s.orphans
  · have hzero :
        s.calls.countP (fun call => call.stage.isBuilding && call.dir machine == dir) = 0 := by
      rw [List.countP_eq_zero]
      intro call hcall hc
      simp only [Bool.and_eq_true, beq_iff_eq] at hc
      obtain ⟨n, hn⟩ := List.getElem?_of_mem hcall
      exact ((h.calls n call hn).fresh hc.1).2 (hc.2 ▸ hin)
    omega
  · rw [List.count_eq_zero.2 hin]
    omega

theorem Inv.unbuilt (h : Inv machine s) {dir : EnvDir} (hmarked : s.marked dir = true) :
    writers machine s dir = 0 := by
  unfold writers
  rw [Nat.add_eq_zero_iff, List.countP_eq_zero, List.count_eq_zero]
  refine ⟨fun call hcall hc => ?_, fun hin => ?_⟩
  · simp only [Bool.and_eq_true, beq_iff_eq] at hc
    obtain ⟨n, hn⟩ := List.getElem?_of_mem hcall
    have hfresh := ((h.calls n call hn).fresh hc.1).1
    rw [hc.2, hmarked] at hfresh
    cases hfresh
  · rw [h.orphans.2 dir hin] at hmarked
    cases hmarked

/-- Only a call that found no marker removes one. -/
theorem Inv.kept (h : Inv machine s) {action : Action} {t : State} {dir : EnvDir}
    (hstep : step machine s action = some t) (hmarked : s.marked dir = true) :
    t.marked dir = true := by
  cases action with
  | prepare runtimeId lockfile =>
    cases hstep
    exact hmarked
  | go n =>
    simp only [step, Option.bind_eq_some_iff, Option.map_eq_some_iff] at hstep
    obtain ⟨call, hcall, next, hgo, rfl⟩ := hstep
    unfold Environments.goOn at hgo
    simp only at hgo
    split at hgo
    case h_1 | h_9 | h_10 =>
      split at hgo
      all_goals cases hgo
      all_goals exact hmarked
    case h_3 hat =>
      cases hgo
      have hfresh := ((h.calls n call hcall).fresh (by rw [hat]; rfl)).1
      have hne : dir ≠ call.dir machine := by
        rintro rfl
        rw [hmarked] at hfresh
        cases hfresh
      exact (update_of_ne hne _ _).trans hmarked
    case h_7 =>
      split at hgo
      · cases hgo
        by_cases hdir : dir = call.dir machine
        · rw [hdir]
          exact update_self _ _ _
        · exact (update_of_ne hdir _ _).trans hmarked
      · cases hgo
        exact hmarked
    all_goals cases hgo
    all_goals exact hmarked
  | fail n =>
    simp only [step, Option.bind_eq_some_iff, Option.map_eq_some_iff] at hstep
    obtain ⟨call, hcall, stage, hwrong, rfl⟩ := hstep
    exact hmarked
  | drop n =>
    simp only [step, Option.bind_eq_some_iff] at hstep
    obtain ⟨call, hcall, hdrop⟩ := hstep
    split at hdrop
    all_goals cases hdrop
    all_goals exact hmarked
  | exit other =>
    simp only [step, Option.ite_none_right_eq_some] at hstep
    obtain rfl := Option.some.inj hstep.2
    exact hmarked

/-- In every run whose steps are clear of each other, builds do not overlap, and what a call
returns is built. -/
theorem builds_sound
    (h : Transition.ReachableWhen (step machine) (fun s action => isClear machine s action = true)
      (State.IsInit machine) s) : Sound machine s := by
  have hinv : Inv machine s :=
    h.invariant (fun _ => inv_init) fun _ _ _ hs hclear hstep => inv_step hs hclear hstep
  refine ⟨hinv.single, fun _ _ _ => hinv.kept, fun _ => hinv.unbuilt, fun call hcall dir hat => ?_,
    fun n call t hcall hat hstep => ?_, fun call hcall => ?_⟩
  · obtain ⟨n, hn⟩ := List.getElem?_of_mem hcall
    have hok := hinv.calls n call hn
    obtain rfl := hok.result dir hat
    exact ⟨rfl, hok.built (by rw [hat]; rfl)⟩
  · simp only [step, hcall, Option.bind_some, Option.map_eq_some_iff] at hstep
    obtain ⟨stage, -, rfl⟩ := hstep
    exact ((hinv.calls n call hcall).fresh hat).1
  · obtain ⟨n, hn⟩ := List.getElem?_of_mem hcall
    exact (hinv.calls n call hn).relinked

end

/-! ## Three overlaps -/

def smallMachine : Machine where
  cpuOnly := false
  hash text := text

def oldLock : Lockfile := { text := "01" }

def newLock : Lockfile := { text := "02" }

/-- A call that is made and builds. -/
def builds (n : ℕ) : List Action := [.go n, .go n, .go n, .go n]

/-- And that returns. -/
def returns (n : ℕ) : List Action := [.go n, .go n, .go n, .go n, .go n]

/-- One call behind the other: the second finds the environment of the first. -/
theorem second_call_is_served :
    ∃ s, Transition.runWhen (step smallMachine) (isClear smallMachine) {}
        (([.prepare "python:mlx" oldLock] : List Action) ++ builds 0 ++ returns 0 ++
          ([.prepare "python:mlx" oldLock, .go 1, .go 1, .go 1, .go 1, .go 1] : List Action)) =
            some s ∧
      s.calls.map Call.stage =
        [.returned (.ok ⟨.named "python-mlx", "01"⟩), .returned (.ok ⟨.named "python-mlx", "01"⟩)] ∧
      Sound smallMachine s := by
  have hrun : (Transition.runWhen (step smallMachine) (isClear smallMachine) {}
      (([.prepare "python:mlx" oldLock] : List Action) ++ builds 0 ++ returns 0 ++
        ([.prepare "python:mlx" oldLock, .go 1, .go 1, .go 1, .go 1, .go 1] : List Action))).map
        (fun s => s.calls.map Call.stage) =
      some [.returned (.ok ⟨.named "python-mlx", "01"⟩),
        .returned (.ok ⟨.named "python-mlx", "01"⟩)] := by
    decide +kernel
  rw [Option.map_eq_some_iff] at hrun
  obtain ⟨s, hs, hend⟩ := hrun
  refine ⟨s, hs, hend, builds_sound (Transition.ReachableWhen.runWhen (.init ?_) hs)⟩
  exact ⟨rfl, rfl, by simp, by simp⟩

/-- Two ids with one directory name, a build whose call was dropped, and the link that the calls of
one runtime share. -/
theorem builds_overlap :
    (∃ s, Transition.run (step smallMachine) {}
        (([.prepare "python:mlx" oldLock, .prepare "python-mlx" oldLock] : List Action) ++
          builds 0 ++ builds 1) = some s ∧
        writers smallMachine s ⟨.named "python-mlx", "01"⟩ = 2) ∧
      (∃ s, Transition.run (step smallMachine) {}
        (([.prepare "python:mlx" oldLock] : List Action) ++ builds 0 ++
          ([.drop 0, .prepare "python:mlx" oldLock] : List Action) ++ builds 1) = some s ∧
        writers smallMachine s ⟨.named "python-mlx", "01"⟩ = 2) ∧
      ∃ s, Transition.run (step smallMachine) {}
          (([.prepare "python:mlx" oldLock, .prepare "python:mlx" newLock] : List Action) ++
            builds 0 ++ builds 1 ++
            ([.go 0, .go 0, .go 0, .go 1, .go 1, .go 1, .go 0, .go 1, .go 0, .go 1] :
              List Action)) = some s ∧
        s.calls.map Call.stage =
          [.returned (.ok ⟨.named "python-mlx", "01"⟩), .returned (.error .relink)] ∧
        s.marked ⟨.named "python-mlx", "02"⟩ = true := by
  refine ⟨?_, ?_, ?_⟩
  · rw [← Option.map_eq_some_iff]
    decide +kernel
  · rw [← Option.map_eq_some_iff]
    decide +kernel
  · have hrun : (Transition.run (step smallMachine) {}
        (([.prepare "python:mlx" oldLock, .prepare "python:mlx" newLock] : List Action) ++
          builds 0 ++ builds 1 ++
          ([.go 0, .go 0, .go 0, .go 1, .go 1, .go 1, .go 0, .go 1, .go 0, .go 1] :
            List Action))).map
          (fun s => (s.calls.map Call.stage, s.marked ⟨.named "python-mlx", "02"⟩)) =
        some ([.returned (.ok ⟨.named "python-mlx", "01"⟩), .returned (.error .relink)], true) := by
      decide +kernel
    rw [Option.map_eq_some_iff] at hrun
    obtain ⟨s, hs, hend⟩ := hrun
    rw [Prod.mk.injEq] at hend
    exact ⟨s, hs, hend⟩

end Hedos.Environments
