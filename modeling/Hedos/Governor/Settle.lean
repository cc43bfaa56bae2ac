import Hedos.Governor.Memory
import Mathlib.Data.List.Sort
import Mathlib.Data.String.Basic

/-!
# Making room

`settle_conflicts`, `admit` and `would_wait` of `runtime/src/governor/memory.rs`, with the leases a
conflict may be held by. While no other task changes the residents, what the loop picks round after
round is fixed from the start: the conflicts are an agenda (`mustGo`), and the loop walks it
(`settle_eq_walk`).

* under the budgeted policy the agenda is the shortest prefix of the eviction order that makes
  enough room (`settle_evicts_shortest_prefix`);
* `would_wait` looks at the head of the agenda, admission at all of it (`would_wait_predicts_iff`).

The residents are iterated in the order of their list, which may be any.
-/

namespace Hedos.Governor

/-- What the loop meets outside of the state mutex. -/
structure Surroundings where
  leases : String → ℕ
  /-- The leases of a model are released while the loop waits for them. -/
  drains : String → Bool
  /-- The model's unloader is there, and it unloads. -/
  unloads : String → Bool

namespace Surroundings

/-- Nobody else moves, and unloaders succeed. -/
def quiet (leases : String → ℕ) : Surroundings := ⟨leases, fun _ => false, fun _ => true⟩

/-- The loop waits for the leases of `id`, and nobody releases them. -/
def blocks (around : Surroundings) (id : String) : Bool :=
  around.leases id > 0 && !around.drains id

/-- Each of some models can be unloaded, once its leases are released. -/
def Progress (around : Surroundings) (models : List ResidentModel) : Prop :=
  ∀ r ∈ models, around.blocks r.modelId = false ∧ around.unloads r.modelId = true

end Surroundings

/-- How `settle_conflicts` ends, and what it has evicted. -/
inductive Settled
  | clear (evicted : List ResidentModel) (left : Memory)
  /-- In `drain`, on a lease that is not released. -/
  | waits (evicted : List ResidentModel) (conflict : ResidentModel)
  /-- At an unload that made no progress. -/
  | stuck (evicted : List ResidentModel) (conflict : ResidentModel) (left : Memory)
deriving DecidableEq

def Settled.after (conflict : ResidentModel) : Settled → Settled
  | clear evicted left => clear (conflict :: evicted) left
  | waits evicted held => waits (conflict :: evicted) held
  | stuck evicted held left => stuck (conflict :: evicted) held left

/-- How `admit` ends, its verdict apart. -/
inductive Admission
  | admitted (left : Memory)
  | waits (conflict : ResidentModel)
deriving DecidableEq

namespace Memory

def evictionConflict (g : Memory) (id : String) (footprintMb : Option ℤ) : Option ResidentModel :=
  (g.conflicts id footprintMb).head?

/-- `settle_conflicts`, for so many rounds. -/
def settleFrom (around : Surroundings) (id : String) (footprintMb : Option ℤ) :
    ℕ → Memory → Option Settled
  | 0, _ => none
  | rounds + 1, g =>
    match g.evictionConflict id footprintMb with
    | none => some (.clear [] g)
    | some conflict =>
      if around.blocks conflict.modelId then some (.waits [] conflict)
      else if around.unloads conflict.modelId then
        (settleFrom around id footprintMb rounds (g.remove conflict.modelId)).map (.after conflict)
      -- still resident and without a lease
      else some (.stuck [] conflict g)

/-- `settle_conflicts`. No run has more rounds than there are residents, and one to see it. -/
def settle (g : Memory) (around : Surroundings) (id : String) (footprintMb : Option ℤ) :
    Option Settled :=
  settleFrom around id footprintMb (g.residents.entries.length + 1) g

/-- `admit`, with what goes on around it. -/
def admitAround (g : Memory) (around : Surroundings) (id name : String) (footprintMb : Option ℤ) :
    Option Admission :=
  if g.stacksFreely footprintMb then some (.admitted (g.reserve id name footprintMb))
  else
    (g.settle around id footprintMb).map fun settled =>
      match settled with
      | .clear _ left => .admitted (left.reserve id name footprintMb)
      | .stuck _ _ left => .admitted (left.reserve id name footprintMb)
      | .waits _ conflict => .waits conflict

def wouldWait (g : Memory) (leases : String → ℕ) (id : String) (footprintMb : Option ℤ) : Bool :=
  if g.stacksFreely footprintMb then false
  else
    match g.evictionConflict id footprintMb with
    | some conflict => leases conflict.modelId > 0
    | none => false

/-! ## The agenda -/

def budget (g : Memory) : ℤ := g.ramBudgetMb.getD g.defaultBudgetMb

/-- What remains fits the budget with the incoming model. -/
def Fits (g : Memory) (id : String) (footprintMb : Option ℤ) : Prop :=
  g.occupied id + g.recorded footprintMb ≤ g.budget

instance (g : Memory) (id : String) (footprintMb : Option ℤ) : Decidable (g.Fits id footprintMb) :=
  inferInstanceAs (Decidable (_ ≤ _))

/-- The other residents, in the order they are evicted in. -/
def evictionOrder (g : Memory) (id : String) : List ResidentModel :=
  (g.residents.others id).insertionSort fun r r' => evictsBefore r r' = true

/-- What goes from the front of a list, until the rest takes up no more than `room`. -/
def overflow (room : ℤ) : List ResidentModel → List ResidentModel
  | [] => []
  | r :: rest =>
    if ((r :: rest).map ResidentModel.footprintMb).sum ≤ room then [] else r :: overflow room rest

/-- The residents that have to go for a model to come. -/
def mustGo (g : Memory) (id : String) (footprintMb : Option ℤ) : List ResidentModel :=
  match g.evictionPolicy with
  | .strictSingle => (g.residents.others id).filter fun r => r.footprintMb ≥ g.heavyThresholdMb
  | .budgeted => overflow (g.budget - g.recorded footprintMb) (g.evictionOrder id)

/-- What is left without some of the residents. -/
def removeAll (g : Memory) (gone : List ResidentModel) : Memory :=
  gone.foldl (fun g r => g.remove r.modelId) g

/-- The loop over an agenda. -/
def walk (around : Surroundings) (g : Memory) : List ResidentModel → Settled
  | [] => .clear [] g
  | conflict :: rest =>
    if around.blocks conflict.modelId then .waits [] conflict
    else if around.unloads conflict.modelId then
      (walk around (g.remove conflict.modelId) rest).after conflict
    else .stuck [] conflict g

/-! ## The order of eviction -/

variable {r r' : ResidentModel}

theorem evictsBefore_iff :
    evictsBefore r r' = true ↔
      r.loadedAt < r'.loadedAt ∨ r.loadedAt = r'.loadedAt ∧ r.modelId ≤ r'.modelId := by
  simp [evictsBefore]

instance : Std.Total fun r r' : ResidentModel => evictsBefore r r' = true where
  total r r' := by
    rw [evictsBefore_iff, evictsBefore_iff]
    rcases lt_trichotomy r.loadedAt r'.loadedAt with hlt | heq | hgt
    · exact .inl (.inl hlt)
    · exact (le_total r.modelId r'.modelId).imp (fun h => .inr ⟨heq, h⟩)
        fun h => .inr ⟨heq.symm, h⟩
    · exact .inr (.inl hgt)

instance : IsTrans ResidentModel fun r r' => evictsBefore r r' = true where
  trans r r' r'' h h' := by
    rw [evictsBefore_iff] at *
    rcases h with hlt | ⟨heq, hid⟩ <;> rcases h' with hlt' | ⟨heq', hid'⟩
    · exact .inl (hlt.trans hlt')
    · exact .inl (heq' ▸ hlt)
    · exact .inl (heq ▸ hlt')
    · exact .inr ⟨heq.trans heq', hid.trans hid'⟩

theorem modelId_eq_of_evictsBefore (h : evictsBefore r r' = true)
    (h' : evictsBefore r' r = true) : r.modelId = r'.modelId := by
  rw [evictsBefore_iff] at h h'
  rcases h with hlt | ⟨heq, hid⟩ <;> rcases h' with hlt' | ⟨heq', hid'⟩
  · omega
  · omega
  · omega
  · exact le_antisymm hid hid'

section

variable {g : Memory} {id : String} {footprintMb : Option ℤ}

variable {r : ResidentModel} {rest : List ResidentModel}

theorem eq_of_modelId {r' : ResidentModel} (hr : r ∈ g.residents.others id)
    (hr' : r' ∈ g.residents.others id) (h : r.modelId = r'.modelId) : r = r' :=
  List.inj_on_of_nodup_map (g.residents.nodup_others id) hr hr' h

theorem evictionOrder_perm (g : Memory) (id : String) :
    (g.evictionOrder id).Perm (g.residents.others id) := List.perm_insertionSort _ _

theorem evictionOrder_pairwise (g : Memory) (id : String) :
    (g.evictionOrder id).Pairwise fun r r' => evictsBefore r r' = true :=
  List.pairwise_insertionSort _ _

theorem sum_evictionOrder (g : Memory) (id : String) :
    ((g.evictionOrder id).map ResidentModel.footprintMb).sum = g.occupied id :=
  ((evictionOrder_perm g id).map _).sum_eq

theorem others_remove (g : Memory) (id removed : String) :
    (g.remove removed).residents.others id =
      (g.residents.others id).filter fun r => r.modelId ≠ removed := by
  simp only [remove, Residents.remove, Residents.others, List.filter_filter, Bool.and_comm]

/-- Without the first of a list of residents, its rest is left. -/
theorem filter_ne_head (h : ((r :: rest).map ResidentModel.modelId).Nodup) :
    (r :: rest).filter (fun r' => r'.modelId ≠ r.modelId) = rest := by
  rw [List.map_cons, List.nodup_cons] at h
  rw [List.filter_cons_of_neg (by simp), List.filter_eq_self]
  intro r' hr'
  have hne : r'.modelId ≠ r.modelId := fun hsame => h.1 (hsame ▸ List.mem_map_of_mem hr')
  simpa using hne

theorem evictionOrder_remove
    (h : g.evictionOrder id = r :: rest) : (g.remove r.modelId).evictionOrder id = rest := by
  have hperm : (r :: rest).Perm (g.residents.others id) := h ▸ evictionOrder_perm g id
  have hsorted : rest.Pairwise fun r r' => evictsBefore r r' = true :=
    (h ▸ evictionOrder_pairwise g id).of_cons
  have hnodup : ((r :: rest).map ResidentModel.modelId).Nodup :=
    (hperm.map _).nodup_iff.2 (g.residents.nodup_others id)
  have hleft : ((g.remove r.modelId).evictionOrder id).Perm rest := by
    refine (evictionOrder_perm _ id).trans ?_
    rw [others_remove]
    exact (hperm.symm.filter _).trans (.of_eq (filter_ne_head hnodup))
  refine hleft.eq_of_pairwise (fun a b ha hb hab hba => ?_) (evictionOrder_pairwise _ id) hsorted
  have hmem : ∀ {a}, a ∈ rest → a ∈ g.residents.others id :=
    fun ha => hperm.subset (.tail _ ha)
  exact eq_of_modelId (hmem (hleft.subset ha)) (hmem hb) (modelId_eq_of_evictsBefore hab hba)

/-! ## The loop walks its agenda -/

theorem evictsBefore_refl (r : ResidentModel) : evictsBefore r r = true :=
  evictsBefore_iff.2 (.inr ⟨rfl, le_refl _⟩)

/-- The resident that goes before all others is the first in order. -/
theorem head?_first (g : Memory) (id : String) :
    ((g.residents.others id).filter fun r =>
      (g.residents.others id).all (evictsBefore r)).head? = (g.evictionOrder id).head? := by
  have hperm := evictionOrder_perm g id
  cases horder : g.evictionOrder id with
  | nil =>
    rw [horder] at hperm
    rw [← hperm.nil_eq]
    rfl
  | cons r rest =>
    rw [horder] at hperm
    have hsorted := horder ▸ evictionOrder_pairwise g id
    have hr := hperm.subset (.head _)
    have hfirst : ∀ r' ∈ g.residents.others id, evictsBefore r r' = true := by
      intro r' hr'
      rcases List.mem_cons.1 (hperm.symm.subset hr') with rfl | hr'
      · exact evictsBefore_refl r'
      · exact List.rel_of_pairwise_cons hsorted hr'
    rw [List.head?_cons, List.head?_eq_some_iff]
    -- whoever else goes before all goes before `r`, so it is `r`
    have hall : ∀ r' ∈ (g.residents.others id).filter fun r =>
        (g.residents.others id).all (evictsBefore r), r' = r := by
      intro r' hr'
      obtain ⟨hmem, hbefore⟩ := List.mem_filter.1 hr'
      exact eq_of_modelId hmem hr
        (modelId_eq_of_evictsBefore (List.all_eq_true.1 hbefore r hr) (hfirst r' hmem))
    cases hfilter : (g.residents.others id).filter fun r =>
        (g.residents.others id).all (evictsBefore r) with
    | nil =>
      rw [List.filter_eq_nil_iff] at hfilter
      exact absurd (List.all_eq_true.2 hfirst) (hfilter r hr)
    | cons first others =>
      rw [hfilter] at hall
      exact ⟨others, by rw [hall first List.mem_cons_self]⟩

theorem evictionConflict_budgeted (hpol : g.evictionPolicy = .budgeted) :
    g.evictionConflict id footprintMb =
      if g.Fits id footprintMb then none else (g.evictionOrder id).head? := by
  by_cases hfits : g.Fits id footprintMb
  · have hnone : g.conflicts id footprintMb = [] := by
      rw [conflicts, hpol]
      exact if_pos hfits
    rw [evictionConflict, hnone, if_pos hfits, List.head?_nil]
  · have hfirst : g.conflicts id footprintMb = (g.residents.others id).filter fun r =>
        (g.residents.others id).all (evictsBefore r) := by
      rw [conflicts, hpol]
      exact if_neg hfits
    rw [evictionConflict, hfirst, if_neg hfits, head?_first]

theorem fits_iff : g.Fits id footprintMb ↔
    ((g.evictionOrder id).map ResidentModel.footprintMb).sum ≤
      g.budget - g.recorded footprintMb := by
  rw [sum_evictionOrder, Fits]
  omega

/-- The conflict a round finds heads the agenda. -/
theorem evictionConflict_eq_head? (g : Memory) (id : String) (footprintMb : Option ℤ) :
    g.evictionConflict id footprintMb = (g.mustGo id footprintMb).head? := by
  cases hpol : g.evictionPolicy with
  | strictSingle => rw [evictionConflict, conflicts, mustGo, hpol]
  | budgeted =>
    rw [evictionConflict_budgeted hpol, mustGo, hpol]
    simp only [fits_iff]
    cases g.evictionOrder id with
    | nil => simp [overflow]
    | cons r rest =>
      rw [overflow]
      split <;> rfl

/-- Without its head, the agenda goes on with its rest. -/
theorem mustGo_remove (h : g.mustGo id footprintMb = r :: rest) :
    (g.remove r.modelId).mustGo id footprintMb = rest := by
  cases hpol : g.evictionPolicy with
  | strictSingle =>
    have hmust : (g.residents.others id).filter (fun r => r.footprintMb ≥ g.heavyThresholdMb) =
        r :: rest := by rw [← h, mustGo, hpol]
    have hpol' : (g.remove r.modelId).evictionPolicy = .strictSingle := hpol
    have hnodup : ((r :: rest).map ResidentModel.modelId).Nodup := by
      rw [← hmust]
      exact (g.residents.nodup_others id).sublist (List.filter_sublist.map _)
    rw [mustGo, hpol']
    simp only [others_remove]
    rw [List.filter_comm, ← filter_ne_head hnodup, ← hmust]
    rfl
  | budgeted =>
    have hmust : overflow (g.budget - g.recorded footprintMb) (g.evictionOrder id) = r :: rest := by
      rw [← h, mustGo, hpol]
    have hpol' : (g.remove r.modelId).evictionPolicy = .budgeted := hpol
    have hroom : (g.remove r.modelId).budget - (g.remove r.modelId).recorded footprintMb =
        g.budget - g.recorded footprintMb := rfl
    rw [mustGo, hpol', hroom]
    cases horder : g.evictionOrder id with
    | nil =>
      rw [horder] at hmust
      cases hmust
    | cons first others =>
      rw [horder, overflow] at hmust
      split at hmust
      · cases hmust
      · obtain ⟨rfl, rfl⟩ := List.cons.inj hmust
        rw [evictionOrder_remove horder]

variable {around : Surroundings} {agenda gone : List ResidentModel}

theorem settleFrom_eq_walk {rounds : ℕ}
    (hagenda : g.mustGo id footprintMb = agenda) (hrounds : agenda.length < rounds) :
    settleFrom around id footprintMb rounds g = some (walk around g agenda) := by
  induction agenda generalizing g rounds with
  | nil =>
    obtain ⟨rounds, rfl⟩ := Nat.exists_eq_add_of_lt hrounds
    have hnone : g.evictionConflict id footprintMb = none := by
      rw [evictionConflict_eq_head?, hagenda, List.head?_nil]
    simp only [settleFrom, hnone, walk]
  | cons r rest ih =>
    cases rounds with
    | zero => exact absurd hrounds (Nat.not_lt_zero _)
    | succ rounds =>
      have hfound : g.evictionConflict id footprintMb = some r := by
        rw [evictionConflict_eq_head?, hagenda, List.head?_cons]
      have hrest := ih (mustGo_remove hagenda) (Nat.lt_of_succ_lt_succ hrounds)
      simp only [settleFrom, hfound, walk, hrest, Option.map_some]
      split_ifs <;> rfl

variable (room : ℤ) (leases : String → ℕ)

theorem overflow_front (order : List ResidentModel) : overflow room order <+: order := by
  induction order with
  | nil => exact List.prefix_refl _
  | cons r rest ih =>
    rw [overflow]
    split
    · exact List.nil_prefix
    · exact List.prefix_cons_inj r |>.mpr ih

theorem length_mustGo_le (g : Memory) (id : String) (footprintMb : Option ℤ) :
    (g.mustGo id footprintMb).length ≤ g.residents.entries.length := by
  have hothers : (g.residents.others id).length ≤ g.residents.entries.length :=
    List.length_filter_le _ _
  unfold mustGo
  split
  · exact (List.length_filter_le _ _).trans hothers
  · exact (overflow_front _ _).length_le.trans
      ((evictionOrder_perm g id).length_eq.trans_le hothers)

/-- The loop ends, having walked its agenda. -/
theorem settle_eq_walk (g : Memory) (around : Surroundings) (id : String) (footprintMb : Option ℤ) :
    g.settle around id footprintMb = some (walk around g (g.mustGo id footprintMb)) :=
  settleFrom_eq_walk rfl (Nat.lt_succ_of_le (length_mustGo_le g id footprintMb))

/-! ## Budgeted -/

theorem walk_progress (h : around.Progress agenda) (g : Memory) :
    walk around g agenda = .clear agenda (g.removeAll agenda) := by
  induction agenda generalizing g with
  | nil => rfl
  | cons r rest ih =>
    obtain ⟨⟨hblocks, hunloads⟩, hrest⟩ := List.forall_mem_cons.1 h
    rw [walk, hblocks, hunloads, if_neg Bool.false_ne_true, if_pos rfl, ih hrest]
    rfl

theorem removeAll_frame (gone : List ResidentModel) (g : Memory) :
    (g.removeAll gone).budget = g.budget ∧
      (g.removeAll gone).recorded footprintMb = g.recorded footprintMb := by
  induction gone generalizing g with
  | nil => exact ⟨rfl, rfl⟩
  | cons r rest ih => exact ih (g.remove r.modelId)

theorem evictionOrder_removeAll
    (h : g.evictionOrder id = gone ++ rest) : (g.removeAll gone).evictionOrder id = rest := by
  induction gone generalizing g with
  | nil => exact h
  | cons r gone ih => exact ih (evictionOrder_remove h)

/-- What is left after a prefix of the order fits exactly when the rest of the order does. -/
theorem fits_removeAll_iff (h : g.evictionOrder id = gone ++ rest) :
    (g.removeAll gone).Fits id footprintMb ↔
      (rest.map ResidentModel.footprintMb).sum ≤ g.budget - g.recorded footprintMb := by
  obtain ⟨hbudget, hrecorded⟩ := @removeAll_frame footprintMb gone g
  rw [fits_iff, evictionOrder_removeAll h, hbudget, hrecorded]

theorem overflow_enough (order : List ResidentModel) :
    ((order.drop (overflow room order).length).map ResidentModel.footprintMb).sum ≤ room ∨
      overflow room order = order := by
  induction order with
  | nil => exact .inr rfl
  | cons r rest ih =>
    rw [overflow]
    split
    · rename_i hroom
      exact .inl hroom
    · exact ih.imp_right fun hall => congrArg (r :: ·) hall

theorem overflow_shortest (order : List ResidentModel) {k : ℕ}
    (h : k < (overflow room order).length) :
    room < ((order.drop k).map ResidentModel.footprintMb).sum := by
  induction order generalizing k with
  | nil => exact absurd h (Nat.not_lt_zero _)
  | cons r rest ih =>
    rw [overflow] at h
    split at h
    · exact absurd h (Nat.not_lt_zero _)
    · rename_i hroom
      cases k with
      | zero => exact not_le.1 hroom
      | succ k => exact ih (Nat.lt_of_succ_lt_succ h)

/-- The loop evicts the shortest prefix of the order that makes enough room, or all others. -/
theorem settle_evicts_shortest_prefix (hpol : g.evictionPolicy = .budgeted)
    {around : Surroundings} (hprogress : around.Progress (g.residents.others id)) :
    ∃ evicted, g.settle around id footprintMb = some (.clear evicted (g.removeAll evicted)) ∧
      evicted <+: g.evictionOrder id ∧
      (∀ shorter, shorter <+: g.evictionOrder id → shorter.length < evicted.length →
        ¬ (g.removeAll shorter).Fits id footprintMb) ∧
      ((g.removeAll evicted).Fits id footprintMb ∨ evicted = g.evictionOrder id) := by
  have hmust : g.mustGo id footprintMb =
      overflow (g.budget - g.recorded footprintMb) (g.evictionOrder id) := by
    rw [mustGo, hpol]
  have hfront : g.mustGo id footprintMb <+: g.evictionOrder id := hmust ▸ overflow_front _ _
  refine ⟨g.mustGo id footprintMb, ?_, hfront, fun shorter hshorter hlt => ?_, ?_⟩
  · have hall : around.Progress (g.mustGo id footprintMb) := fun r hr =>
      hprogress r ((evictionOrder_perm g id).subset (hfront.subset hr))
    rw [settle_eq_walk, walk_progress hall]
  · obtain ⟨rest, horder⟩ := hshorter
    rw [fits_removeAll_iff horder.symm, not_le]
    rw [hmust] at hlt
    have hshort := overflow_shortest _ _ hlt
    rwa [← horder, List.drop_left] at hshort
  · have henough := overflow_enough (g.budget - g.recorded footprintMb) (g.evictionOrder id)
    rw [← hmust] at henough
    refine henough.imp_left fun hroom => ?_
    obtain ⟨rest, horder⟩ := hfront
    rw [fits_removeAll_iff horder.symm]
    rwa [← horder, List.drop_left] at hroom

/-! ## What is predicted -/

theorem walk_quiet_waits_iff (g : Memory) (agenda : List ResidentModel) :
    (∃ evicted conflict, walk (.quiet leases) g agenda = .waits evicted conflict) ↔
      ∃ r ∈ agenda, leases r.modelId > 0 := by
  induction agenda generalizing g with
  | nil => simp [walk]
  | cons r rest ih =>
    by_cases hleased : leases r.modelId > 0
    · have hblocks : (Surroundings.quiet leases).blocks r.modelId = true := by
        simpa [Surroundings.blocks, Surroundings.quiet] using hleased
      rw [walk, if_pos hblocks]
      exact iff_of_true ⟨[], r, rfl⟩ ⟨r, .head _, hleased⟩
    · have hblocks : ¬ (Surroundings.quiet leases).blocks r.modelId = true := by
        simpa [Surroundings.blocks, Surroundings.quiet] using hleased
      have hunloads : (Surroundings.quiet leases).unloads r.modelId = true := rfl
      rw [walk, if_neg hblocks, if_pos hunloads, List.exists_mem_cons_iff, or_iff_right hleased,
        ← ih (g.remove r.modelId)]
      cases walk (.quiet leases) (g.remove r.modelId) rest <;> simp [Settled.after]

/-- What admission has to evict; a model that stacks freely evicts nobody. -/
def toGo (g : Memory) (id : String) (footprintMb : Option ℤ) : List ResidentModel :=
  if g.stacksFreely footprintMb then [] else g.mustGo id footprintMb

theorem admit_quiet_waits_iff (g : Memory) (id name : String) (footprintMb : Option ℤ) :
    (∃ conflict, g.admitAround (.quiet leases) id name footprintMb = some (.waits conflict)) ↔
      ∃ r ∈ g.toGo id footprintMb, leases r.modelId > 0 := by
  unfold admitAround toGo
  split
  · simp
  · rw [settle_eq_walk, ← walk_quiet_waits_iff leases g]
    cases walk (.quiet leases) g (g.mustGo id footprintMb) <;> simp

theorem wouldWait_iff (g : Memory) (id : String) (footprintMb : Option ℤ) :
    g.wouldWait leases id footprintMb = true ↔
      ∃ first, (g.toGo id footprintMb).head? = some first ∧ leases first.modelId > 0 := by
  unfold wouldWait toGo
  split
  · simp
  · rw [evictionConflict_eq_head?]
    cases (g.mustGo id footprintMb).head? <;> simp

/-- `would_wait` predicts `admit` exactly when the first that has to go is leased, or none of those
that have to go is. -/
theorem would_wait_predicts_iff (g : Memory) (leases : String → ℕ) (id name : String)
    (footprintMb : Option ℤ) :
    (g.wouldWait leases id footprintMb = true ↔
        ∃ conflict, g.admitAround (.quiet leases) id name footprintMb = some (.waits conflict)) ↔
      ∀ first, (g.toGo id footprintMb).head? = some first → leases first.modelId = 0 →
        ∀ r ∈ g.toGo id footprintMb, leases r.modelId = 0 := by
  rw [wouldWait_iff, admit_quiet_waits_iff]
  cases g.toGo id footprintMb with
  | nil => simp
  | cons first rest =>
    simp only [List.head?_cons, Option.some.injEq, exists_eq_left', forall_eq', Nat.pos_iff_ne_zero]
    constructor
    · intro h hfree r hr
      by_contra hleased
      exact h.2 ⟨r, hr, hleased⟩ hfree
    · intro h
      constructor
      · exact fun hleased => ⟨first, .head _, hleased⟩
      · rintro ⟨r, hr, hleased⟩ hfree
        exact hleased (h hfree r hr)

end

/-! ## Two residents -/

/-- Two residents in a budget of ten. -/
def twoResidents : Memory :=
  { Memory.new 100 10 with
    residents := (Residents.empty.insert ⟨"a", "A", 5, 0⟩).insert ⟨"b", "B", 5, 1⟩
    evictionPolicy := .budgeted
    loadOrder := 2 }

theorem older_resident_makes_room :
    ∃ evicted, twoResidents.settle (.quiet fun _ => 0) "c" (some 5) =
        some (.clear evicted (twoResidents.removeAll evicted)) ∧
      evicted <+: twoResidents.evictionOrder "c" ∧
      (∀ shorter, shorter <+: twoResidents.evictionOrder "c" → shorter.length < evicted.length →
        ¬ (twoResidents.removeAll shorter).Fits "c" (some 5)) ∧
      ((twoResidents.removeAll evicted).Fits "c" (some 5) ∨
        evicted = twoResidents.evictionOrder "c") :=
  settle_evicts_shortest_prefix rfl fun _ _ => ⟨rfl, rfl⟩

/-- The first to go is free and the second is leased. -/
theorem second_conflict_not_predicted :
    twoResidents.wouldWait (fun id => if id = "b" then 1 else 0) "c" (some 10) = false ∧
      twoResidents.admitAround (.quiet fun id => if id = "b" then 1 else 0) "c" "C" (some 10) =
        some (.waits ⟨"b", "B", 5, 1⟩) := by
  decide +kernel

end Memory

end Hedos.Governor
