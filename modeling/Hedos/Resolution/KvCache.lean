import Hedos.Resolution.Gguf

/-!
# The KV cache of one token

`kv_bytes_per_token` of `kernel/src/resolution/gguf.rs` computes with machine words; here its result
is compared with the product of the factors over the naturals.

* `Attention.factors`: the factors a header states or leaves to be derived;
* `Factors.product_eq_some`: the checked product is the product where nothing overflows;
* `sized_iff`: when the size of every header is right.
-/

namespace Hedos.Resolution.Gguf

/-- What a header says about the attention of a model. A value is `none` when the header lacks its
key, and `some none` when what stands there is not one integer. -/
structure Attention where
  complete : Bool
  layers : Option (Option ℤ) := none
  heads : Option (Option ℤ) := none
  kvHeads : Option (Option ℤ) := none
  keyLength : Option (Option ℤ) := none
  valueLength : Option (Option ℤ) := none
  embeddingLength : Option ℤ := none

def Attention.kvBytes (attention : Attention) : Option ℕ :=
  kvBytesPerToken attention.complete attention.layers attention.heads attention.kvHeads
    attention.keyLength attention.valueLength attention.embeddingLength

/-! ## The factors -/

structure Factors where
  layers : ℕ
  kvHeads : ℕ
  key : ℕ
  value : ℕ

/-- The embedding split evenly between the heads. -/
def Attention.even (attention : Attention) : Option ℕ := do
  let heads ← (← shapeOf attention.complete attention.heads)
  let width ← usable attention.embeddingLength
  return width / heads

/-- The factors of the size, each under its key or where the header says nothing there. -/
def Attention.factors (attention : Attention) : Option Factors := do
  let layers ← (← shapeOf attention.complete attention.layers)
  let heads ← shapeOf attention.complete attention.heads
  let kvHeads ← (← shapeOf attention.complete attention.kvHeads).or heads
  let key ← (← shapeOf attention.complete attention.keyLength).or attention.even
  let value ← (← shapeOf attention.complete attention.valueLength).or attention.even
  return { layers, kvHeads, key, value }

namespace Factors

variable (factors : Factors)

/-- Every layer keeps a key and a value for each KV head, two bytes a number. -/
def bytes : ℕ := 2 * factors.layers * factors.kvHeads * (factors.key + factors.value)

/-- No step of the product leaves the machine words. -/
def Fits : Prop :=
  factors.layers * factors.kvHeads ≤ u64Max ∧ factors.key + factors.value ≤ u64Max ∧
    factors.layers * factors.kvHeads * (factors.key + factors.value) ≤ u64Max ∧
    factors.bytes ≤ u64Max

def Positive : Prop :=
  0 < factors.layers ∧ 0 < factors.kvHeads ∧ 0 < factors.key ∧ 0 < factors.value

def product : Option ℕ := do
  let perLayer ← checkedMul factors.layers factors.kvHeads
  let width ← checkedAdd factors.key factors.value
  checkedMul (← checkedMul perLayer width) 2

end Factors

variable {n : ℕ} {factors : Factors}

theorem checkedMul_eq_some {a b : ℕ} : checkedMul a b = some n ↔ a * b ≤ u64Max ∧ n = a * b := by
  unfold checkedMul
  split
  · rename_i hover
    exact iff_of_false (by simp) fun h => absurd h.1 (by omega)
  · rename_i hfits
    simp only [Option.some.injEq]
    constructor
    · rintro rfl
      exact ⟨by omega, rfl⟩
    · exact fun h => h.2.symm

theorem checkedAdd_eq_some {a b : ℕ} : checkedAdd a b = some n ↔ a + b ≤ u64Max ∧ n = a + b := by
  unfold checkedAdd
  split
  · rename_i hover
    exact iff_of_false (by simp) fun h => absurd h.1 (by omega)
  · rename_i hfits
    simp only [Option.some.injEq]
    constructor
    · rintro rfl
      exact ⟨by omega, rfl⟩
    · exact fun h => h.2.symm

theorem Factors.product_eq_some : factors.product = some n ↔ factors.Fits ∧ n = factors.bytes := by
  have hbytes : factors.layers * factors.kvHeads * (factors.key + factors.value) * 2
      = factors.bytes := by
    rw [Factors.bytes]
    ring
  simp only [Factors.product, Option.bind_eq_bind, Option.bind_eq_some_iff, checkedMul_eq_some,
    checkedAdd_eq_some, Factors.Fits, ← hbytes]
  constructor
  · rintro ⟨perLayer, ⟨hlayers, rfl⟩, width, ⟨hwidth, rfl⟩, all, ⟨hall, rfl⟩, htwice, rfl⟩
    exact ⟨⟨hlayers, hwidth, hall, htwice⟩, rfl⟩
  · rintro ⟨⟨hlayers, hwidth, hall, htwice⟩, rfl⟩
    exact ⟨_, ⟨hlayers, rfl⟩, _, ⟨hwidth, rfl⟩, _, ⟨hall, rfl⟩, htwice, rfl⟩

theorem kvBytes_eq (attention : Attention) :
    attention.kvBytes = attention.factors.bind Factors.product := by
  have heven : ∀ heads, shapeOf attention.complete attention.heads = some heads →
      (heads.bind fun heads => (usable attention.embeddingLength).map (· / heads))
        = attention.even := by
    intro heads hheads
    rw [Attention.even, hheads]
    cases heads with
    | none => rfl
    | some heads =>
      cases usable attention.embeddingLength <;> simp
  unfold Attention.kvBytes kvBytesPerToken Attention.factors
  cases hheads : shapeOf attention.complete attention.heads with
  | none =>
    cases shapeOf attention.complete attention.layers with
    | none => rfl
    | some layers => cases layers <;> rfl
  | some heads =>
    dsimp only [Option.bind_eq_bind, Option.bind_some]
    rw [heven heads hheads]
    simp only [Option.bind_assoc, Option.bind_some, Factors.product, Option.bind_eq_bind,
      Option.pure_def]

/-! ## Where a factor comes from -/

theorem usable_pos {value : Option ℤ} (h : usable value = some n) : 0 < n := by
  have hfilter := (Option.filter_eq_some_iff.1 h).2
  exact of_decide_eq_true hfilter

theorem shapeOf_pos {complete : Bool} {stated : Option (Option ℤ)}
    (h : shapeOf complete stated = some (some n)) : 0 < n := by
  cases stated with
  | none =>
    rw [shapeOf] at h
    split at h <;> cases h
  | some value =>
    obtain ⟨read, hread, hsome⟩ := Option.map_eq_some_iff.1 h
    cases hsome
    exact usable_pos hread

/-- A length is stated and positive, or the key is missing and the length derived. -/
theorem length_cases {complete : Bool} {stated : Option (Option ℤ)} {read even : Option ℕ}
    (h : shapeOf complete stated = some read) (hor : read.or even = some n) :
    (stated = none ∧ even = some n) ∨ (stated ≠ none ∧ 0 < n) := by
  cases stated with
  | none =>
    rw [shapeOf] at h
    split at h
    · cases h
      exact Or.inl ⟨rfl, hor⟩
    · cases h
  | some value =>
    obtain ⟨given, hgiven, rfl⟩ := Option.map_eq_some_iff.1 h
    cases hor
    exact Or.inr ⟨by simp, usable_pos hgiven⟩

/-- A length that was left to be derived. -/
def Derived (stated : Option (Option ℤ)) (attention : Attention) (n : ℕ) : Prop :=
  stated = none ∧ attention.even = some n

theorem factors_cases {attention : Attention} (h : attention.factors = some factors) :
    0 < factors.layers ∧ 0 < factors.kvHeads ∧
      (Derived attention.keyLength attention factors.key ∨
        attention.keyLength ≠ none ∧ 0 < factors.key) ∧
      (Derived attention.valueLength attention factors.value ∨
        attention.valueLength ≠ none ∧ 0 < factors.value) := by
  simp only [Attention.factors, Option.bind_eq_bind, Option.bind_eq_some_iff] at h
  obtain ⟨_, hlayers, layers, rfl, heads, hheads, kvRead, hkvRead, kvHeads, hkv, keyRead, hkeyRead,
    key, hkey, valueRead, hvalueRead, value, hvalue, hfactors⟩ := h
  cases hfactors
  refine ⟨shapeOf_pos hlayers, ?_, length_cases hkeyRead hkey, length_cases hvalueRead hvalue⟩
  rcases Option.or_eq_some_iff.1 hkv with rfl | ⟨rfl, rfl⟩
  · exact shapeOf_pos hkvRead
  · exact shapeOf_pos hheads

/-! ## When the size is right -/

/-- The heads are no more than the embedding is wide. -/
def Attention.HeadsFit (attention : Attention) : Prop :=
  ∀ heads width, shapeOf attention.complete attention.heads = some (some heads) →
    usable attention.embeddingLength = some width → heads ≤ width

theorem even_pos_iff {attention : Attention} (h : attention.even = some n) :
    0 < n ↔ attention.HeadsFit := by
  simp only [Attention.even, Option.bind_eq_bind, Option.bind_eq_some_iff] at h
  obtain ⟨_, hheads, heads, rfl, width, hwidth, hn⟩ := h
  cases hn
  rw [Nat.div_pos_iff]
  constructor
  · rintro ⟨_, hle⟩ heads' width' hheads' hwidth'
    rw [hheads] at hheads'
    rw [hwidth] at hwidth'
    cases hheads'
    cases hwidth'
    exact hle
  · exact fun hfit => ⟨shapeOf_pos hheads, hfit heads width hheads hwidth⟩

/-- A size is that of positive factors, multiplied exactly; and there is none where a factor is
missing or a product overflows. -/
def Sized (attention : Attention) : Prop :=
  (∀ n, attention.kvBytes = some n →
    ∃ factors, attention.factors = some factors ∧ factors.Positive ∧ 0 < n ∧ n = factors.bytes) ∧
  ((∀ factors, attention.factors = some factors → ¬ factors.Fits) → attention.kvBytes = none)

theorem Factors.Positive.bytes_pos (h : factors.Positive) : 0 < factors.bytes := by
  obtain ⟨hlayers, hheads, hkey, _⟩ := h
  unfold Factors.bytes
  positivity

/-- The size of a header is right exactly when no length that could be multiplied was derived from
more heads than the embedding is wide. -/
theorem sized_iff (attention : Attention) :
    Sized attention ↔
      ∀ factors, attention.factors = some factors → factors.Fits →
        (attention.keyLength = none ∨ attention.valueLength = none) → attention.HeadsFit := by
  have hsome : ∀ n, attention.kvBytes = some n ↔
      ∃ factors, attention.factors = some factors ∧ factors.Fits ∧ n = factors.bytes := by
    intro n
    simp only [kvBytes_eq, Option.bind_eq_some_iff, Factors.product_eq_some]
  constructor
  · rintro ⟨hsized, _⟩ factors hfactors hfits hmissing
    obtain ⟨read, hread, hpositive, _⟩ := hsized _ ((hsome _).2 ⟨factors, hfactors, hfits, rfl⟩)
    rw [hfactors] at hread
    cases hread
    obtain ⟨_, _, hkey, hvalue⟩ := factors_cases hfactors
    rcases hmissing with hnone | hnone
    · rcases hkey with hderived | ⟨hstated, _⟩
      · exact (even_pos_iff hderived.2).1 hpositive.2.2.1
      · exact absurd hnone hstated
    · rcases hvalue with hderived | ⟨hstated, _⟩
      · exact (even_pos_iff hderived.2).1 hpositive.2.2.2
      · exact absurd hnone hstated
  · intro hfit
    refine ⟨fun n hn => ?_, fun hover => ?_⟩
    · obtain ⟨factors, hfactors, hfits, rfl⟩ := (hsome n).1 hn
      obtain ⟨hlayers, hheads, hkey, hvalue⟩ := factors_cases hfactors
      have hpositive : factors.Positive := by
        refine ⟨hlayers, hheads, ?_, ?_⟩
        · rcases hkey with hderived | ⟨_, hpos⟩
          · exact (even_pos_iff hderived.2).2 (hfit factors hfactors hfits (Or.inl hderived.1))
          · exact hpos
        · rcases hvalue with hderived | ⟨_, hpos⟩
          · exact (even_pos_iff hderived.2).2 (hfit factors hfactors hfits (Or.inr hderived.1))
          · exact hpos
      exact ⟨factors, hfactors, hpositive, hpositive.bytes_pos, rfl⟩
    · cases hkv : attention.kvBytes with
      | none => rfl
      | some n =>
        obtain ⟨factors, hfactors, hfits, _⟩ := (hsome n).1 hkv
        exact absurd hfits (hover factors hfactors)

/-- One layer, and four heads for an embedding two wide. -/
def crowded : Attention where
  complete := true
  layers := some (some 1)
  heads := some (some 4)
  embeddingLength := some 2

/-- A cache of no bytes at all. -/
theorem crowded_is_free : ¬ Sized crowded := by
  rintro ⟨hsized, _⟩
  obtain ⟨_, _, _, hpos, _⟩ := hsized 0 (by decide)
  exact absurd hpos (by decide)

end Hedos.Resolution.Gguf
