import Hedos.Lib.Lists
import Hedos.Lib.Transition

/-!
# Processes over one shared world

A process is a program: it performs one operation `E` on the shared world, gets an answer and
goes on from there, or ends. Any number of them run at once; a pool step is one operation of one
process, the launch of another, the death of one at any moment, or a move of the surroundings.

* `Prog`: programs as a monad, with `attempt` for what is done however a part of it ends;
* `Machine` and `Pool.step`: the processes and what they run on;
* `Contract`: what a process relies on between its own operations, the invariant all keep, and
  the condition under which an operation is taken;
* `wp`: what the world has to offer a process for it to keep its side of the contract to the
  end, with the rules `wp_bind`, `wp_mono`, `wp_attempt`, `wp_silent` and `wp_frame`;
* `Pool.Sound.step`: a pool of processes that keep the contract keeps the invariant, and what
  every process can rely on.
-/

namespace Programs

/-! ## Programs -/

/-- A program: it returns, fails, hangs, or performs an operation and goes on with the answer. -/
inductive Prog (E : Type) (R : E → Type) (ε α : Type)
  | ret (a : α)
  | fail (e : ε)
  | stall
  | call (op : E) (next : R op → Prog E R ε α)

namespace Prog

variable {E : Type} {R : E → Type} {ε α β : Type}

def bind : Prog E R ε α → (α → Prog E R ε β) → Prog E R ε β
  | ret a, f => f a
  | fail e, _ => fail e
  | stall, _ => stall
  | call op next, f => call op fun answer => (next answer).bind f

instance : Monad (Prog E R ε) where
  pure := ret
  bind := bind

/-- Perform one operation. -/
def ask (op : E) : Prog E R ε (R op) := call op ret

/-- Run the program and go on with how it ended. -/
def attempt : Prog E R ε α → Prog E R ε (Except ε α)
  | ret a => ret (.ok a)
  | fail e => ret (.error e)
  | stall => stall
  | call op next => call op fun answer => (next answer).attempt

/-- Return the outcome of an `attempt`, or fail with it. -/
def ofExcept : Except ε α → Prog E R ε α
  | .ok a => ret a
  | .error e => fail e

/-- Run `body`, then `after` however it ended. -/
def andThen (body : Prog E R ε α) (after : Prog E R ε Unit) : Prog E R ε α := do
  let outcome ← body.attempt
  after
  ofExcept outcome

end Prog

/-! ## Processes -/

/-- What the processes run on: an operation of process `i` reads and changes the world as the
input lets it, a command becomes a program, a process that dies leaves the world to `reap`. -/
structure Machine (E : Type) (R : E → Type) (ε α W I C V : Type) where
  exec : ℕ → (op : E) → I → W → R op × W
  program : C → Prog E R ε α
  launch : W → C → Option W
  reap : ℕ → W → W
  drift : W → V → Option W

inductive Action (I C V : Type)
  | launch (command : C)
  | move (process : ℕ) (input : I)
  | kill (process : ℕ)
  | drift (change : V)

variable {E : Type} {R : E → Type} {ε α β W I C V : Type}

/-- The world and the processes, each with the command it was launched for. -/
structure Pool (E : Type) (R : E → Type) (ε α W C : Type) where
  world : W
  procs : List (C × Prog E R ε α)

def Pool.step (machine : Machine E R ε α W I C V) (pool : Pool E R ε α W C) :
    Action I C V → Option (Pool E R ε α W C)
  | .launch command => (machine.launch pool.world command).map fun world =>
      ⟨world, pool.procs ++ [(command, machine.program command)]⟩
  | .move process input =>
    match pool.procs[process]? with
    | some (command, .call op next) =>
      let (answer, world) := machine.exec process op input pool.world
      some ⟨world, pool.procs.set process (command, next answer)⟩
    | _ => none
  | .kill process =>
    match pool.procs[process]? with
    | some (command, _) =>
      some ⟨machine.reap process pool.world, pool.procs.set process (command, .stall)⟩
    | none => none
  | .drift change => (machine.drift pool.world change).map fun world => { pool with world }

/-! ## The contract of one process with the others -/

/-- `rely i` is what the others may do to the world between two operations of process `i`,
`fresh i` says that no process `i` has run yet. -/
structure Contract (machine : Machine E R ε α W I C V) where
  inv : W → Prop
  rely : ℕ → W → W → Prop
  fresh : ℕ → W → Prop
  allows : ℕ → (op : E) → I → W → Bool
  spares : ℕ → W → Bool
  refl : ∀ i w, rely i w w
  trans : ∀ {i w w' w''}, rely i w w' → rely i w' w'' → rely i w w''
  fresh_rely : ∀ {i w w'}, rely i w w' → fresh i w → fresh i w'
  launched : ∀ {w w' command}, machine.launch w command = some w' → inv w →
    inv w' ∧ ∀ i, rely i w w'
  drifted : ∀ {w w' change}, machine.drift w change = some w' → inv w → inv w' ∧ ∀ i, rely i w w'
  reaped : ∀ {i w}, spares i w = true → inv w →
    inv (machine.reap i w) ∧ ∀ j, j ≠ i → rely j w (machine.reap i w)

section Wp

variable {machine : Machine E R ε α W I C V} (contract : Contract machine) (i : ℕ)

/-- From this world on, whatever the others do within the contract, process `i` keeps it with
every operation of the program, ends in `post` if it returns and in `fails` if it fails. -/
def wp {β : Type} : Prog E R ε β → (β → W → Prop) → (ε → W → Prop) → W → Prop
  | .ret a, post, _, w => post a w
  | .fail e, _, fails, w => fails e w
  | .stall, _, _, _ => True
  | .call op next, post, fails, w => ∀ w', contract.rely i w w' → contract.inv w' → ∀ input,
      contract.allows i op input w' = true →
      (∀ j, j ≠ i → contract.rely j w' (machine.exec i op input w').2) ∧
        contract.inv (machine.exec i op input w').2 ∧
        wp (next (machine.exec i op input w').1) post fails (machine.exec i op input w').2

variable {contract i}

variable {prog : Prog E R ε β} {post : β → W → Prop} {fails : ε → W → Prop} {w : W} {γ : Type}
  {f : β → Prog E R ε γ} {op : E}

theorem wp_mono {post' : β → W → Prop} {fails' : ε → W → Prop} (h : wp contract i prog post fails w)
    (hpost : ∀ a w, post a w → post' a w)
    (hfails : ∀ e w, fails e w → fails' e w) : wp contract i prog post' fails' w := by
  induction prog generalizing w with
  | ret a => exact hpost a w h
  | fail e => exact hfails e w h
  | stall => trivial
  | call op next ih =>
    intro w' hrely hinv input hallows
    obtain ⟨hothers, hinv', hnext⟩ := h w' hrely hinv input hallows
    exact ⟨hothers, hinv', ih _ hnext⟩

theorem wp_bind {post : γ → W → Prop}
    (h : wp contract i prog (fun a w => wp contract i (f a) post fails w) fails w) :
    wp contract i (prog >>= f) post fails w := by
  change wp contract i (prog.bind f) post fails w
  induction prog generalizing w with
  | ret a => exact h
  | fail e => exact h
  | stall => trivial
  | call op next ih =>
    intro w' hrely hinv input hallows
    obtain ⟨hothers, hinv', hnext⟩ := h w' hrely hinv input hallows
    exact ⟨hothers, hinv', ih _ hnext⟩

/-- The rule of sequencing, with what the first part leaves. -/
theorem wp_then {mid : β → W → Prop} {post : γ → W → Prop} (h : wp contract i prog mid fails w)
    (hf : ∀ a w, mid a w → wp contract i (f a) post fails w) :
    wp contract i (prog >>= f) post fails w :=
  wp_bind (wp_mono h hf fun _ _ h => h)

/-- Nothing happens where nothing is asked. -/
theorem wp_pure_then {a : β} {post : γ → W → Prop} (h : wp contract i (f a) post fails w) :
    wp contract i (pure a >>= f) post fails w := h

theorem wp_attempt {post : Except ε β → W → Prop}
    (h : wp contract i prog (fun a => post (.ok a)) (fun e => post (.error e)) w) :
    wp contract i prog.attempt post fails w := by
  induction prog generalizing w with
  | ret a => exact h
  | fail e => exact h
  | stall => trivial
  | call op next ih =>
    intro w' hrely hinv input hallows
    obtain ⟨hothers, hinv', hnext⟩ := h w' hrely hinv input hallows
    exact ⟨hothers, hinv', ih _ hnext⟩

/-- What holds however a part ends holds after it. -/
theorem wp_either {mid : W → Prop} (h : wp contract i prog (fun _ => mid) (fun _ => mid) w) :
    wp contract i prog.attempt (fun _ => mid) fails w :=
  wp_attempt h

/-- What is done last is done from wherever the body ended. -/
theorem wp_andThen {body : Prog E R ε β} {after : Prog E R ε Unit}
    (h : wp contract i body (fun a => wp contract i after (fun _ => post a) fails)
      (fun e => wp contract i after (fun _ => fails e) fails) w) :
    wp contract i (body.andThen after) post fails w :=
  wp_bind (wp_attempt (wp_mono h (fun _ _ h => wp_bind h) (fun _ _ h => wp_bind h)))

/-- The others may move between the last operation and the next. -/
theorem wp_stable {w' : W} (h : wp contract i prog post fails w) (hrely : contract.rely i w w')
    (hpost : ∀ a w w', contract.rely i w w' → post a w → post a w')
    (hfails : ∀ e w w', contract.rely i w w' → fails e w → fails e w') :
    wp contract i prog post fails w' := by
  cases prog with
  | ret a => exact hpost a w w' hrely h
  | fail e => exact hfails e w w' hrely h
  | stall => trivial
  | call op next => exact fun w'' hrely' => h w'' (contract.trans hrely hrely')

/-- What every process can rely on, whoever moves, is still there when the program ends. -/
theorem wp_frame {P : W → Prop} (h : wp contract i prog post fails w) (hp : P w)
    (hstable : ∀ j w w', contract.rely j w w' → P w → P w') :
    wp contract i prog (fun a w => post a w ∧ P w) (fun e w => fails e w ∧ P w) w := by
  induction prog generalizing w with
  | ret a => exact ⟨h, hp⟩
  | fail e => exact ⟨h, hp⟩
  | stall => trivial
  | call op next ih =>
    intro w' hrely hinv input hallows
    obtain ⟨hothers, hinv', hnext⟩ := h w' hrely hinv input hallows
    have hp' : P w' := hstable i w w' hrely hp
    exact ⟨hothers, hinv', ih _ hnext (hstable (i + 1) _ _ (hothers (i + 1) (by omega)) hp')⟩

/-! ### Operations nobody has to know about -/

variable (contract) in
/-- The operation changes nothing that any process relies on, its own included. -/
def Silent (op : E) : Prop :=
  ∀ i input w, contract.inv w → contract.inv (machine.exec i op input w).2 ∧
    ∀ j, contract.rely j w (machine.exec i op input w).2

variable (contract) in
/-- The program performs silent operations only, and never fails. -/
def Quiet : Prog E R ε β → Prop
  | .ret _ => True
  | .fail _ => False
  | .stall => True
  | .call op next => Silent contract op ∧ ∀ answer, Quiet (next answer)

theorem Quiet.bind (h : Quiet contract prog) (hf : ∀ a, Quiet contract (f a)) :
    Quiet contract (prog >>= f) := by
  change Quiet contract (prog.bind f)
  induction prog with
  | ret a => exact hf a
  | fail e => exact absurd h id
  | stall => trivial
  | call op next ih => exact ⟨h.1, fun answer => ih answer (h.2 answer)⟩

theorem Quiet.ask (h : Silent contract op) : Quiet contract (Prog.ask op : Prog E R ε _) :=
  ⟨h, fun _ => trivial⟩

/-- A quiet program leaves the world as the others left it. -/
theorem wp_quiet (h : Quiet contract prog) (w : W) :
    wp contract i prog (fun _ w' => contract.rely i w w') (fun _ _ => False) w := by
  suffices hfrom : ∀ start, contract.rely i start w →
      wp contract i prog (fun _ w' => contract.rely i start w') (fun _ _ => False) w from
    hfrom w (contract.refl i w)
  intro start hstart
  induction prog generalizing w with
  | ret a => exact hstart
  | fail e => exact h
  | stall => trivial
  | call op next ih =>
    intro w' hrely hinv input _
    obtain ⟨hinv', hsilent⟩ := h.1 i input w' hinv
    refine ⟨fun j _ => hsilent j, hinv', ih _ (h.2 _) _ ?_⟩
    exact contract.trans hstart (contract.trans hrely (hsilent i))

/-- A quiet part first: the rest starts where the others left the world. -/
theorem wp_quiet_then {post : γ → W → Prop} (h : Quiet contract prog)
    (hf : ∀ a w', contract.rely i w w' → wp contract i (f a) post fails w') :
    wp contract i (prog >>= f) post fails w :=
  wp_bind (wp_mono (wp_quiet h w) hf fun _ _ h => absurd h id)

/-- One operation: what it answers and what it leaves, from any world the others may leave. -/
theorem wp_ask {post : R op → W → Prop}
    (h : ∀ w', contract.rely i w w' → contract.inv w' → ∀ input,
      contract.allows i op input w' = true →
      (∀ j, j ≠ i → contract.rely j w' (machine.exec i op input w').2) ∧
        contract.inv (machine.exec i op input w').2 ∧
        post (machine.exec i op input w').1 (machine.exec i op input w').2) :
    wp contract i (Prog.ask op) post fails w := h

/-- One silent operation: its answer, in the world it was asked of. -/
theorem wp_silent (hop : Silent contract op) {post : R op → W → Prop}
    (h : ∀ w', contract.rely i w w' → contract.inv w' → ∀ input,
      contract.rely i w (machine.exec i op input w').2 →
      post (machine.exec i op input w').1 (machine.exec i op input w').2) :
    wp contract i (Prog.ask op) post fails w := by
  intro w' hrely hinv input _
  obtain ⟨hinv', hsilent⟩ := hop i input w' hinv
  refine ⟨fun j _ => hsilent j, hinv', h w' hrely hinv input ?_⟩
  exact contract.trans hrely (hsilent i)

end Wp

/-! ## Pools -/

section Pools

variable {machine : Machine E R ε α W I C V} (contract : Contract machine)

/-- The condition on a step: an operation that is allowed, a death that is spared. -/
def Pool.meets (allows : ℕ → (op : E) → I → W → Bool) (spares : ℕ → W → Bool)
    (pool : Pool E R ε α W C) : Action I C V → Bool
  | .launch _ => true
  | .move process input =>
    match pool.procs[process]? with
    | some (_, .call op _) => allows process op input pool.world
    | _ => true
  | .kill process => spares process pool.world
  | .drift _ => true

/-- Every process keeps its side of the contract from here on. -/
structure Pool.Sound (post : C → α → W → Prop) (pool : Pool E R ε α W C) : Prop where
  inv : contract.inv pool.world
  procs : ∀ i command prog, pool.procs[i]? = some (command, prog) →
    wp contract i prog (post command) (fun _ _ => True) pool.world
  fresh : ∀ i, pool.procs.length ≤ i → contract.fresh i pool.world

variable {contract} {post : C → α → W → Prop} {pool pool' : Pool E R ε α W C}

/-- Nothing a process relies on is lost when the world moves within the contract. -/
theorem Pool.Sound.mono (h : Pool.Sound contract post pool)
    (hpost : ∀ i command a w w', contract.rely i w w' → post command a w → post command a w')
    {w' : W} {i : ℕ} {command : C} {prog : Prog E R ε α}
    (hproc : pool.procs[i]? = some (command, prog)) (hrely : contract.rely i pool.world w') :
    wp contract i prog (post command) (fun _ _ => True) w' :=
  wp_stable (h.procs i command prog hproc) hrely (hpost i command) (fun _ _ _ _ h => h)

/-- Putting another program in the place of process `i`, which moved the world to `w'`. -/
theorem Pool.Sound.replace (h : Pool.Sound contract post pool)
    (hpost : ∀ i command a w w', contract.rely i w w' → post command a w → post command a w')
    {w' : W} {i : ℕ} {command : C} {old new : Prog E R ε α}
    (hproc : pool.procs[i]? = some (command, old)) (hinv : contract.inv w')
    (hothers : ∀ j, j ≠ i → contract.rely j pool.world w')
    (hnew : wp contract i new (post command) (fun _ _ => True) w') :
    Pool.Sound contract post ⟨w', pool.procs.set i (command, new)⟩ := by
  have hlt : i < pool.procs.length := (List.getElem?_eq_some_iff.1 hproc).1
  refine ⟨hinv, fun j other prog hj => ?_, fun j hj => ?_⟩
  · rcases Lists.getElem?_set_cases hj with ⟨rfl, hsame⟩ | ⟨hji, hj⟩
    · cases hsame
      exact hnew
    · exact h.mono hpost hj (hothers j (Ne.symm hji))
  · rw [List.length_set] at hj
    exact contract.fresh_rely (hothers j (by omega)) (h.fresh j hj)

/-- One step of the pool within the condition, which some process sees as a move of the others. -/
theorem Pool.Sound.step (h : Pool.Sound contract post pool)
    (hpost : ∀ i command a w w', contract.rely i w w' → post command a w → post command a w')
    (hprogram : ∀ i command w, contract.inv w → contract.fresh i w →
      wp contract i (machine.program command) (post command) (fun _ _ => True) w)
    {action : Action I C V}
    (hallows : pool.meets contract.allows contract.spares action = true)
    (hstep : pool.step machine action = some pool') :
    Pool.Sound contract post pool' ∧ ∃ j, contract.rely j pool.world pool'.world := by
  cases action with
  | launch command =>
    obtain ⟨world, hlaunch, rfl⟩ := Option.map_eq_some_iff.1 hstep
    obtain ⟨hinv, hrely⟩ := contract.launched hlaunch h.inv
    refine ⟨⟨hinv, fun i other prog hi => ?_, fun i hi => ?_⟩, 0, hrely 0⟩
    · rcases Lists.getElem?_concat_cases hi with hi | ⟨rfl, hlaunched⟩
      · exact h.mono hpost hi (hrely i)
      · cases hlaunched
        exact hprogram _ _ world hinv (contract.fresh_rely (hrely _) (h.fresh _ le_rfl))
    · rw [List.length_append, List.length_singleton] at hi
      exact contract.fresh_rely (hrely i) (h.fresh i (by omega))
  | move i input =>
    rw [Pool.step] at hstep
    rw [Pool.meets] at hallows
    cases hproc : pool.procs[i]? with
    | none => simp [hproc] at hstep
    | some proc =>
      obtain ⟨command, prog⟩ := proc
      cases prog with
      | ret a => simp [hproc] at hstep
      | fail e => simp [hproc] at hstep
      | stall => simp [hproc] at hstep
      | call op next =>
        simp only [hproc, Option.some.injEq] at hstep hallows
        subst hstep
        obtain ⟨hothers, hinv, hnext⟩ :=
          h.procs i command _ hproc pool.world (contract.refl i _) h.inv input hallows
        exact ⟨h.replace hpost hproc hinv hothers hnext, i + 1, hothers _ (by omega)⟩
  | kill i =>
    rw [Pool.step] at hstep
    cases hproc : pool.procs[i]? with
    | none => simp [hproc] at hstep
    | some proc =>
      simp only [hproc, Option.some.injEq] at hstep
      subst hstep
      obtain ⟨hinv, hothers⟩ := contract.reaped hallows h.inv
      exact ⟨h.replace hpost hproc hinv hothers trivial, i + 1, hothers _ (by omega)⟩
  | drift change =>
    obtain ⟨world, hdrift, rfl⟩ := Option.map_eq_some_iff.1 hstep
    obtain ⟨hinv, hrely⟩ := contract.drifted hdrift h.inv
    refine ⟨⟨hinv, fun i other prog hi => h.mono hpost hi (hrely i), fun i hi => ?_⟩, 0, hrely 0⟩
    exact contract.fresh_rely (hrely i) (h.fresh i hi)

end Pools

end Programs
