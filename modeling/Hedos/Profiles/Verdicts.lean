import Hedos.Profiles.Fit
import Mathlib.Algebra.Order.BigOperators.Group.List

/-!
# Verdicts are monotone

* the verdict of a footprint against a budget grows with the footprint and falls with the budget
  (`assessed_le_of_footprint`, `assessed_anti`);
* an engine that spills reads the better of two verdicts, the one of the cards and the one of all
  of memory (`rated_fit_eq_min`), so whatever grows on the machine cannot make it worse.

A verdict is compared in `WithTop FitVerdict`, where a model that has none is at the top.
-/

namespace Hedos.Profiles

/-! ## Statements -/

/-- The verdict of an assessment, worse than all of them when there is none. -/
def assessed (assessment : Option FitAssessment) : WithTop FitVerdict :=
  assessment.elim ⊤ fun assessment => assessment.verdict

/-- The verdict of a fit, worse than all of them when there is none. -/
def rated (fit : Option Fit) : WithTop FitVerdict :=
  fit.elim ⊤ fun fit => fit.assessment.verdict

/-- What is read of a larger model is no better than what is read of a smaller one. -/
def NeverBetter (small large : Option Fit) : Prop :=
  ∀ less ∈ small, ∀ more ∈ large, less.assessment.verdict ≤ more.assessment.verdict

/-- Ollama and llama.cpp split layers across every card. -/
def Engine.Splits (engine : Engine) : Prop := engine = .ollama ∨ engine = .llamaCpp

namespace Machine

/-- The memory of the usable cards together. -/
def cardBytes (m : Machine) : ℕ := (m.cards.map (·.memoryBytes)).sum

/-- The machine with a card more, with a card enlarged, or with more memory. -/
inductive Grows : Machine → Machine → Prop
  | addCard (m : Machine) {before after : List Device} {card : Device}
      (devices : m.devices = before ++ after) (discrete : card.kind = .discrete) :
      Grows m { m with devices := before ++ card :: after }
  | enlargeCard (m : Machine) {before after : List Device} {card : Device} {bytes : ℕ}
      (devices : m.devices = before ++ card :: after) (discrete : card.kind = .discrete)
      (larger : card.memoryBytes ≤ bytes) :
      Grows m { m with devices := before ++ { card with memoryBytes := bytes } :: after }
  | enlargeMemory (m : Machine) {bytes : ℕ} (larger : m.memoryBytes ≤ bytes) :
      Grows m { m with memoryBytes := bytes }

/-- The machine without its cards. -/
def withoutCards (m : Machine) : Machine :=
  { m with devices := m.devices.filter (·.kind ≠ .discrete) }

end Machine

/-! ## Against one budget -/

@[simp] theorem assessed_none : assessed none = ⊤ := rfl

@[simp] theorem assessed_some (assessment : FitAssessment) :
    assessed (some assessment) = assessment.verdict := rfl

@[simp] theorem rated_none : rated none = ⊤ := rfl

@[simp] theorem rated_some (fit : Fit) : rated (some fit) = fit.assessment.verdict := rfl

theorem NeverBetter.of_rated {small large : Option Fit} (h : rated small ≤ rated large) :
    NeverBetter small large := by
  rintro less rfl more rfl
  exact WithTop.coe_le_coe.1 h

theorem NeverBetter.none (large : Option Fit) : NeverBetter none large := by
  rintro less ⟨⟩

theorem Engine.Splits.ne {engine another : Engine} (h : engine.Splits) (hollama : another ≠ .ollama)
    (hllama : another ≠ .llamaCpp) : engine ≠ another := by
  rcases h with rfl | rfl
  · exact hollama.symm
  · exact hllama.symm

variable (scale : Scale) (footprint : Option ℤ)

theorem fractions_le : scale.fractions.1 ≤ scale.fractions.2 := by
  cases scale <;> norm_num [Scale.fractions]

theorem verdict_mono {small large : ℚ} (h : small ≤ large) :
    scale.verdict small ≤ scale.verdict large := by
  have hfractions := fractions_le scale
  unfold Scale.verdict
  -- a larger share passes no threshold that the smaller one does not
  by_cases hwell : small < scale.fractions.1
  · rw [if_pos hwell]
    exact FitVerdict.le_iff.2 (Nat.zero_le _)
  · rw [if_neg hwell, if_neg fun hlt => hwell (h.trans_lt hlt)]
    by_cases htight : small < scale.fractions.2
    · rw [if_pos htight]
      split <;> exact FitVerdict.le_iff.2 (by decide)
    · rw [if_neg htight, if_neg fun hlt => htight (h.trans_lt hlt)]

theorem asI64_mono {small large : ℚ} (h : small ≤ large) : asI64 small ≤ asI64 large := by
  unfold asI64
  apply max_le_max le_rfl
  apply min_le_min le_rfl
  by_cases hsmall : 0 ≤ small
  · rw [if_pos hsmall, if_pos (hsmall.trans h)]
    exact Int.floor_le_floor h
  · rw [if_neg hsmall]
    split
    · rename_i hlarge
      have hceil : ⌈small⌉ ≤ 0 := Int.ceil_le.2 (by push_cast; exact (not_le.1 hsmall).le)
      exact hceil.trans (Int.floor_nonneg.2 hlarge)
    · exact Int.ceil_le_ceil h

theorem requiredBytes_mono {small large : ℤ} (h : small ≤ large) :
    requiredBytes small ≤ requiredBytes large := by
  apply asI64_mono
  have hcast : (small : ℚ) ≤ large := Int.cast_le.2 h
  exact mul_le_mul_of_nonneg_right hcast (by norm_num [memoryOverheadFactor])

theorem requiredBytes_nonneg {footprint : ℤ} (h : 0 < footprint) : 0 ≤ requiredBytes footprint := by
  have hzero : requiredBytes 0 = 0 := by
    norm_num [requiredBytes, asI64]
  rw [← hzero]
  exact requiredBytes_mono h.le

theorem assessIn_zero (scale : Scale) : assessIn footprint 0 scale = none := by
  unfold assessIn
  cases footprint.filter (0 < ·) <;> rfl

/-- The assessment of a model of a known size against some memory. -/
theorem assessIn_of_pos {footprint : ℤ} {bytes : ℕ} (hfootprint : 0 < footprint)
    (hbytes : 0 < bytes) :
    assessIn (some footprint) bytes scale =
      some ⟨scale.verdict (requiredBytes footprint / bytes), requiredBytes footprint⟩ := by
  unfold assessIn
  rw [Option.filter_some_pos (by simpa using hfootprint), Option.bind_some, if_neg hbytes.ne']

theorem assessIn_of_nonpos {footprint : Option ℤ} (bytes : ℕ) (scale : Scale)
    (h : ∀ size ∈ footprint, size ≤ 0) : assessIn footprint bytes scale = none := by
  have hfilter : footprint.filter (0 < ·) = none := by
    rw [Option.filter_eq_none_iff]
    intro size hsize
    simpa using h size hsize
  rw [assessIn, hfilter, Option.bind_none]

/-- A size is known and positive, or it has no assessment. -/
theorem footprint_cases :
    (∃ size, footprint = some size ∧ 0 < size) ∨ ∀ size ∈ footprint, size ≤ 0 := by
  cases footprint with
  | none => exact .inr fun size hsize => by cases hsize
  | some size =>
    by_cases hsize : 0 < size
    · exact .inl ⟨size, rfl, hsize⟩
    · refine .inr fun other hother => ?_
      cases hother
      exact not_lt.1 hsize

theorem assessed_anti (scale : Scale) {small large : ℕ} (h : small ≤ large) :
    assessed (assessIn footprint large scale) ≤ assessed (assessIn footprint small scale) := by
  rcases footprint_cases footprint with ⟨size, rfl, hsize⟩ | hnone
  · rcases Nat.eq_zero_or_pos small with rfl | hsmall
    · rw [assessIn_zero]
      exact le_top
    · rw [assessIn_of_pos scale hsize hsmall, assessIn_of_pos scale hsize (hsmall.trans_le h)]
      apply WithTop.coe_le_coe.2
      apply verdict_mono
      have hneeded : (0 : ℚ) ≤ requiredBytes size := Int.cast_nonneg (requiredBytes_nonneg hsize)
      have hbytes : (0 : ℚ) < small := Nat.cast_pos.2 hsmall
      exact div_le_div_of_nonneg_left hneeded hbytes (Nat.cast_le.2 h)
  · rw [assessIn_of_nonpos large scale hnone, assessIn_of_nonpos small scale hnone]

theorem assessed_le_of_footprint (bytes : ℕ) (scale : Scale) {small large : ℤ} (hsmall : 0 < small)
    (h : small ≤ large) :
    assessed (assessIn (some small) bytes scale) ≤
      assessed (assessIn (some large) bytes scale) := by
  rcases Nat.eq_zero_or_pos bytes with rfl | hbytes
  · rw [assessIn_zero, assessIn_zero]
  · rw [assessIn_of_pos scale hsmall hbytes, assessIn_of_pos scale (hsmall.trans_le h) hbytes]
    apply WithTop.coe_le_coe.2
    apply verdict_mono
    have hneeded : (requiredBytes small : ℚ) ≤ requiredBytes large :=
      Int.cast_le.2 (requiredBytes_mono h)
    exact div_le_div_of_nonneg_right hneeded (Nat.cast_nonneg bytes)

/-! ## On a machine -/

namespace Machine

variable {m : Machine} {engine : Engine} {footprint : Option ℤ}

/-- A spill never reads worse than the cards, and reads the better of the two verdicts. -/
theorem verdict_spilled (m : Machine) (footprint : Option ℤ) (onCards : Fit) :
    ((m.spilled footprint onCards).assessment.verdict : WithTop FitVerdict) =
      min (onCards.assessment.verdict : WithTop FitVerdict)
        (assessed (assessIn footprint m.memoryBytes .system)) := by
  unfold spilled
  cases assessIn footprint m.memoryBytes .system with
  | none =>
    rw [assessed_none, min_top_right]
    rfl
  | some assessment =>
    dsimp only
    rw [assessed_some, ← WithTop.coe_min]
    by_cases hlarge : onCards.assessment.verdict = .tooLarge
    · -- past the cards altogether, memory is taken whatever it reads
      have hle : assessment.verdict ≤ onCards.assessment.verdict := by
        rw [hlarge]
        cases assessment.verdict <;> exact FitVerdict.le_iff.2 (by decide)
      rw [min_eq_right hle, Option.filter_some_pos (by simp [hlarge])]
      rfl
    · by_cases hlt : assessment.verdict < onCards.assessment.verdict
      · rw [min_eq_right hlt.le, Option.filter_some_pos (by simp [hlt])]
        rfl
      · rw [min_eq_left (not_lt.1 hlt), Option.filter_some_neg (by simp [hlt, hlarge])]
        rfl

/-- What a fit reads under a budget: what the budget reads, and for an engine that spills the
better of it and of what all of memory reads. -/
theorem rated_fit {budget : Budget} (hbudget : m.budget engine = some budget) :
    rated (m.fit engine footprint) =
      (assessIn footprint budget.bytes budget.scale).elim ⊤ fun assessment =>
        if budget.spills then
          min (assessment.verdict : WithTop FitVerdict)
            (assessed (assessIn footprint m.memoryBytes .system))
        else assessment.verdict := by
  unfold fit
  rw [hbudget, Option.bind_some]
  cases assessIn footprint budget.bytes budget.scale with
  | none => rfl
  | some assessment =>
    rw [Option.map_some, rated_some, Option.elim_some]
    by_cases hspills : budget.spills = true
    · rw [if_pos hspills]
      by_cases hwell : assessment.verdict = .runsWell
      · -- nothing reads better than running well
        rw [if_pos (Or.inr hwell)]
        refine (min_eq_left ?_).symm
        rw [hwell]
        cases assessIn footprint m.memoryBytes .system with
        | none => exact le_top
        | some assessment =>
          exact WithTop.coe_le_coe.2 (FitVerdict.le_iff.2 (Nat.zero_le _))
      · rw [if_neg (by simp [hspills, hwell])]
        exact m.verdict_spilled footprint _
    · rw [if_neg hspills, if_pos (Or.inl (by simpa using hspills))]

theorem rated_fit_of_no_budget (hbudget : m.budget engine = none) :
    rated (m.fit engine footprint) = ⊤ := by
  rw [fit, hbudget]
  rfl

variable {small large : ℤ} {m' : Machine}

/-- A larger model reads no better under an engine. -/
theorem rated_fit_mono (m : Machine) (engine : Engine) (hsmall : 0 < small) (h : small ≤ large) :
    rated (m.fit engine (some small)) ≤ rated (m.fit engine (some large)) := by
  cases hbudget : m.budget engine with
  | none => rw [rated_fit_of_no_budget hbudget, rated_fit_of_no_budget hbudget]
  | some budget =>
    rw [rated_fit hbudget, rated_fit hbudget]
    have hcards := assessed_le_of_footprint budget.bytes budget.scale hsmall h
    have hmemory := assessed_le_of_footprint m.memoryBytes .system hsmall h
    cases hl : assessIn (some large) budget.bytes budget.scale with
    | none => exact le_top
    | some needed =>
      cases hs : assessIn (some small) budget.bytes budget.scale with
      | none =>
        rw [hl, hs] at hcards
        exact absurd hcards (by simp)
      | some less =>
        rw [hl, hs] at hcards
        rw [Option.elim_some, Option.elim_some]
        split
        · exact min_le_min hcards hmemory
        · exact hcards

/-- A known size has a fit whenever a larger one has, and the other way. -/
theorem isSome_fit (m : Machine) (engine : Engine) (hsmall : 0 < small) (h : small ≤ large) :
    (m.fit engine (some small)).isSome = (m.fit engine (some large)).isSome := by
  unfold fit
  cases m.budget engine with
  | none => rfl
  | some budget =>
    rw [Option.bind_some, Option.bind_some, Option.isSome_map, Option.isSome_map]
    rcases Nat.eq_zero_or_pos budget.bytes with hbytes | hbytes
    · rw [hbytes, assessIn_zero, assessIn_zero]
    · rw [assessIn_of_pos _ hsmall hbytes, assessIn_of_pos _ (hsmall.trans_le h) hbytes]
      rfl

/-- An engine that can run one size can run the other, so both are read under the same one. -/
theorem rated_fitOn_mono (m : Machine) (engine : Engine) (hsmall : 0 < small) (h : small ≤ large) :
    rated (m.fitOn engine (some small)) ≤ rated (m.fitOn engine (some large)) := by
  have hsome := m.isSome_fit engine hsmall h
  have hengine := m.rated_fit_mono engine hsmall h
  unfold fitOn
  cases hs : m.fit engine (some small) with
  | none =>
    rw [hs, Option.isSome_none, Eq.comm, Option.isSome_eq_false_iff, Option.isNone_iff_eq_none]
      at hsome
    rw [hsome, Option.none_or, Option.none_or]
    exact m.rated_fit_mono .other hsmall h
  | some less =>
    rw [hs, Option.isSome_some, Eq.comm, Option.isSome_iff_exists] at hsome
    obtain ⟨more, hmore⟩ := hsome
    rw [hs, hmore] at hengine
    rw [hmore, Option.some_or, Option.some_or]
    exact hengine

theorem fit_of_nonpos (m : Machine) (engine : Engine) {size : ℤ} (h : size ≤ 0) :
    m.fit engine (some size) = none := by
  have hnone : ∀ other ∈ some size, other ≤ 0 := by
    intro other hother
    cases hother
    exact h
  unfold fit
  cases m.budget engine with
  | none => rfl
  | some budget =>
    rw [Option.bind_some, assessIn_of_nonpos _ _ hnone]
    rfl

theorem fit_neverBetter (m : Machine) (engine : Engine) (h : small ≤ large) :
    NeverBetter (m.fit engine (some small)) (m.fit engine (some large)) := by
  rcases lt_or_ge 0 small with hsmall | hsmall
  · exact NeverBetter.of_rated (m.rated_fit_mono engine hsmall h)
  · rw [m.fit_of_nonpos engine hsmall]
    exact NeverBetter.none _

theorem fitOn_neverBetter (m : Machine) (engine : Engine) (h : small ≤ large) :
    NeverBetter (m.fitOn engine (some small)) (m.fitOn engine (some large)) := by
  rcases lt_or_ge 0 small with hsmall | hsmall
  · exact NeverBetter.of_rated (m.rated_fitOn_mono engine hsmall h)
  · rw [fitOn, m.fit_of_nonpos engine hsmall, m.fit_of_nonpos .other hsmall]
    exact NeverBetter.none _

/-! ## Engines that split a model across the cards -/

theorem budget_of_splits (hengine : engine.Splits) (hunified : m.unified = none) :
    m.budget engine =
      some (if m.cards = [] then m.systemBudget
        else cardsBudget engine (m.cards.map (·.memoryBytes))) := by
  unfold budget
  rw [if_neg fun h => hengine.ne (by decide) (by decide) h.1,
    if_neg (hengine.ne (by decide) (by decide)), hunified]
  dsimp only
  by_cases hcards : m.cards = []
  · rw [hcards]
    rfl
  · rw [if_neg (by simpa using hcards), if_neg hcards]

theorem cardBytes_pos (hcards : m.cards ≠ []) : 0 < m.cardBytes := by
  obtain ⟨card, hcard⟩ := List.exists_mem_of_ne_nil m.cards hcards
  have husable : minDeviceBytes ≤ card.memoryBytes := by
    have hfilter := (List.mem_filter.1 hcard).2
    simp only [Bool.and_eq_true, Device.usable, decide_eq_true_eq] at hfilter
    exact hfilter.2
  have hle : card.memoryBytes ≤ m.cardBytes :=
    List.le_sum_of_mem (List.mem_map_of_mem hcard)
  have hpos : 0 < minDeviceBytes := by decide
  omega

/-- Such an engine reads the better of what the cards read and of what all of memory reads. -/
theorem rated_fit_eq_min (hengine : engine.Splits) (hunified : m.unified = none)
    (hsum : m.cardBytes < 2 ^ 64) :
    rated (m.fit engine footprint) =
      min (assessed (assessIn footprint m.cardBytes .accelerator))
        (assessed (assessIn footprint m.memoryBytes .system)) := by
  rw [rated_fit (budget_of_splits hengine hunified)]
  by_cases hcards : m.cards = []
  · have hnone : m.cardBytes = 0 := by rw [cardBytes, hcards]; rfl
    rw [if_pos hcards, hnone, assessIn_zero, assessed_none, min_top_left]
    rfl
  · rw [if_neg hcards]
    have hne : engine ≠ .torch := hengine.ne (by decide) (by decide)
    have hbudget : cardsBudget engine (m.cards.map (·.memoryBytes)) =
        ⟨m.cardBytes, .accelerator, .gpu, true⟩ := by
      have hbytes : sumU64 (m.cards.map (·.memoryBytes)) = m.cardBytes := Nat.mod_eq_of_lt hsum
      rw [cardsBudget, if_neg hne, hbytes, decide_eq_true hne]
    rw [hbudget]
    rcases footprint_cases footprint with ⟨size, rfl, hsize⟩ | hnone
    · rw [assessIn_of_pos _ hsize (cardBytes_pos hcards)]
      rfl
    · rw [assessIn_of_nonpos _ _ hnone, assessIn_of_nonpos _ _ hnone]
      rfl

theorem budget_other (m : Machine) :
    m.budget .other = some { m.systemBudget with placement := .cpu } := by
  rw [budget, if_neg (by simp), if_pos rfl]

/-- Such an engine can run wherever something is known of memory, so there is no other to ask. -/
theorem rated_fitOn (hengine : engine.Splits) (hunified : m.unified = none)
    (hsum : m.cardBytes < 2 ^ 64) :
    rated (m.fitOn engine footprint) = rated (m.fit engine footprint) := by
  unfold fitOn
  cases hfit : m.fit engine footprint with
  | some fit => rfl
  | none =>
    have hmin := @rated_fit_eq_min m engine footprint hengine hunified hsum
    rw [hfit, rated_none] at hmin
    rw [Option.none_or, rated_none, ← top_le_iff, hmin, rated_fit (budget_other m)]
    apply min_le_right

theorem Grows.unified_eq_none (h : m.Grows m') (hunified : m.unified = none) :
    m'.unified = none := by
  unfold unified at hunified ⊢
  rw [List.find?_eq_none] at hunified ⊢
  cases h with
  | @addCard before after card devices discrete =>
    intro device hdevice
    rw [devices] at hunified
    rcases List.mem_append.1 hdevice with hbefore | hafter
    · exact hunified device (List.mem_append_left _ hbefore)
    · rcases List.mem_cons.1 hafter with rfl | hafter
      · simp [discrete]
      · exact hunified device (List.mem_append_right _ hafter)
  | @enlargeCard before after card bytes devices discrete larger =>
    intro device hdevice
    rw [devices] at hunified
    rcases List.mem_append.1 hdevice with hbefore | hafter
    · exact hunified device (List.mem_append_left _ hbefore)
    · rcases List.mem_cons.1 hafter with rfl | hafter
      · simp [discrete]
      · exact hunified device (List.mem_append_right _ (.tail _ hafter))
  | enlargeMemory larger => exact hunified

theorem Grows.cardBytes_le (h : m.Grows m') : m.cardBytes ≤ m'.cardBytes := by
  unfold cardBytes cards
  cases h with
  | @addCard before after card devices discrete =>
    rw [devices]
    dsimp only
    rw [List.filter_append, List.filter_append, List.filter_cons]
    split <;> simp only [List.map_append, List.map_cons, List.sum_append, List.sum_cons] <;> omega
  | @enlargeCard before after card bytes devices discrete larger =>
    rw [devices]
    dsimp only
    rw [List.filter_append, List.filter_append, List.filter_cons, List.filter_cons]
    -- a card that is big enough stays so, and one that is not counts for nothing
    have husable : card.usable = true →
        Device.usable { card with memoryBytes := bytes } = true := by
      simp only [Device.usable, decide_eq_true_eq]
      omega
    by_cases hcard : card.usable = true
    · have hcounted := husable hcard
      rw [discrete] at hcounted
      rw [if_pos (by simp [discrete, hcard]), if_pos (by simp [discrete, hcounted])]
      simp only [List.map_append, List.map_cons, List.sum_append, List.sum_cons]
      omega
    · rw [if_neg (by simp [hcard])]
      split <;> simp only [List.map_append, List.map_cons, List.sum_append, List.sum_cons] <;> omega
  | enlargeMemory larger => exact le_rfl

theorem Grows.memoryBytes_le (h : m.Grows m') : m.memoryBytes ≤ m'.memoryBytes := by
  cases h with
  | addCard devices discrete => exact le_rfl
  | enlargeCard devices discrete larger => exact le_rfl
  | enlargeMemory larger => exact larger

theorem withoutCards_unified (hunified : m.unified = none) : m.withoutCards.unified = none := by
  unfold unified at hunified ⊢
  rw [List.find?_eq_none] at hunified ⊢
  intro device hdevice
  exact hunified device (List.mem_filter.1 hdevice).1

theorem withoutCards_cardBytes (m : Machine) : m.withoutCards.cardBytes = 0 := by
  have hcards : m.withoutCards.cards = [] := by
    unfold cards withoutCards
    rw [List.filter_filter, List.filter_eq_nil_iff]
    intro device _
    by_cases hkind : device.kind = .discrete <;> simp [hkind]
  rw [cardBytes, hcards]
  rfl

/-- A machine that has more to give reads no worse. -/
theorem rated_fit_anti (hengine : engine.Splits) (hunified : m.unified = none)
    (hunified' : m'.unified = none) (hcards : m.cardBytes ≤ m'.cardBytes)
    (hmemory : m.memoryBytes ≤ m'.memoryBytes) (hsum : m'.cardBytes < 2 ^ 64) :
    rated (m'.fit engine footprint) ≤ rated (m.fit engine footprint) ∧
      rated (m'.fitOn engine footprint) ≤ rated (m.fitOn engine footprint) := by
  have hsum' : m.cardBytes < 2 ^ 64 := hcards.trans_lt hsum
  rw [rated_fitOn hengine hunified hsum', rated_fitOn hengine hunified' hsum, and_self,
    rated_fit_eq_min hengine hunified hsum', rated_fit_eq_min hengine hunified' hsum]
  exact min_le_min (assessed_anti footprint .accelerator hcards)
    (assessed_anti footprint .system hmemory)

end Machine

/-! ## The law -/

/-- A machine reads a larger model no better, and for engines that split a model across the cards
a machine that has more, or that has cards at all, reads no model worse. -/
theorem fit_verdicts_monotone (m : Machine) (engine : Engine) :
    (∀ small large : ℤ, small ≤ large →
      NeverBetter (m.fit engine (some small)) (m.fit engine (some large)) ∧
        NeverBetter (m.fitOn engine (some small)) (m.fitOn engine (some large))) ∧
    (engine.Splits → m.unified = none → ∀ footprint : Option ℤ,
      (∀ m', m.Grows m' → m'.cardBytes < 2 ^ 64 →
        rated (m'.fit engine footprint) ≤ rated (m.fit engine footprint) ∧
          rated (m'.fitOn engine footprint) ≤ rated (m.fitOn engine footprint)) ∧
      (m.cardBytes < 2 ^ 64 →
        rated (m.fit engine footprint) ≤ rated (m.withoutCards.fit engine footprint) ∧
          rated (m.fitOn engine footprint) ≤ rated (m.withoutCards.fitOn engine footprint))) := by
  constructor
  · intro small large h
    exact ⟨m.fit_neverBetter engine h, m.fitOn_neverBetter engine h⟩
  · intro hengine hunified footprint
    constructor
    · intro m' hgrows hsum
      apply Machine.rated_fit_anti hengine hunified (hgrows.unified_eq_none hunified)
        hgrows.cardBytes_le hgrows.memoryBytes_le hsum
    · intro hsum
      have hcards : m.withoutCards.cardBytes ≤ m.cardBytes := by
        rw [m.withoutCards_cardBytes]
        exact Nat.zero_le _
      exact Machine.rated_fit_anti hengine (Machine.withoutCards_unified hunified) hunified hcards
        le_rfl hsum

/-- A machine of 16 GiB, and the same machine with a card of 8 GiB. -/
def plainMachine : Machine := ⟨.linux, "x86_64", 2 ^ 34, []⟩

/-- The card helps a model that memory alone takes, and one that it cannot hold itself. -/
theorem fit_verdicts_monotone_card :
    NeverBetter (plainMachine.fitOn .mlx (some (2 ^ 30)))
        (plainMachine.fitOn .mlx (some (2 ^ 33))) ∧
      rated (Machine.fit { plainMachine with devices := [⟨.discrete, 2 ^ 33⟩] } .ollama
        (some (2 ^ 33))) ≤ rated (plainMachine.fit .ollama (some (2 ^ 33))) := by
  have hgrows : plainMachine.Grows { plainMachine with devices := [⟨.discrete, 2 ^ 33⟩] } :=
    @Machine.Grows.addCard plainMachine [] [] ⟨.discrete, 2 ^ 33⟩ rfl rfl
  have hlaw := (fit_verdicts_monotone plainMachine .ollama).2 (.inl rfl) rfl (some (2 ^ 33))
  exact ⟨((fit_verdicts_monotone plainMachine .mlx).1 _ _ (by norm_num)).2,
    (hlaw.1 _ hgrows (by decide)).1⟩

end Hedos.Profiles
