import Mathlib
import Hedos.Kernel.Time
import Hedos.Lib.Digits
import Hedos.Lib.Lists

/-!
# Release versions

`kernel/src/upgrade.rs`: `Version::parse`, how a version is displayed and how two are ordered.

* `cmp` is a total order whose equality is equality, on every version since it
  compares keys one after another (`cmp_eq`);
* on what `parse` gives it is the precedence of semantic versioning, `Precedes`
  (`version_order`): an identifier of digits has no zero in front, so a longer one is larger.

An identifier is made of ASCII characters, so its length in bytes is its number of characters.
-/

namespace Hedos.Kernel.Upgrade

open Hedos.Kernel.Time (splitOnce)
open Std

/-! ## Versions -/

structure Version where
  major : ℕ
  minor : ℕ
  patch : ℕ
  /-- Empty for a release. -/
  pre : List Text
deriving DecidableEq

def isNumeric (text : Text) : Bool := !text.isEmpty && text.all Char.isDigit

def startsWithZero (text : Text) : Bool := text.head? == some '0'

/-- A number with a zero in front is refused, and one that is no `u64`. -/
def number (text : Text) : Option ℕ :=
  if !isNumeric text || (decide (1 < text.length) && startsWithZero text) then none
  else (some (Nat.ofDigitChars 10 text 0)).filter (· < 2 ^ 64)

def wellFormed (identifier : Text) : Bool :=
  !identifier.isEmpty && identifier.all fun c => c.isAlphanum || c == '-'

/-- An identifier of a pre-release. -/
def validPre (identifier : Text) : Bool :=
  wellFormed identifier &&
    !(isNumeric identifier && decide (1 < identifier.length) && startsWithZero identifier)

/-- `strip_prefix('v')`, the whole text where there is none. -/
def stripV : Text → Text
  | 'v' :: text => text
  | text => text

/-- The text before the build metadata, which has to be well formed. -/
def withoutBuild (text : Text) : Option Text :=
  match splitOnce '+' text with
  | some (core, build) => if (build.splitOn '.').all wellFormed then some core else none
  | none => some text

def parsePre : Option Text → Option (List Text)
  | some pre =>
    let identifiers := pre.splitOn '.'
    if identifiers.all validPre then some identifiers else none
  | none => some []

def parse (text : Text) : Option Version := do
  let text ← withoutBuild (stripV (Upstream.trim text))
  let (core, pre) := match splitOnce '-' text with
    | some (core, pre) => (core, some pre)
    | none => (text, none)
  let numbers := (core.splitOn '.').map number
  let major ← numbers[0]?.join
  let minor ← numbers[1]?.join
  let patch ← numbers[2]?.join
  if numbers[3]?.isSome then none
  else
    let pre ← parsePre pre
    some { major, minor, patch, pre }

def display (v : Version) : Text :=
  Nat.toDigits 10 v.major ++ '.' :: (Nat.toDigits 10 v.minor ++ '.' :: Nat.toDigits 10 v.patch) ++
    if v.pre.isEmpty then [] else '-' :: ['.'].intercalate v.pre

def compareIdentifier (a b : Text) : Ordering :=
  match isNumeric a, isNumeric b with
  | true, true => (compare a.length b.length).then (compare a b)
  | true, false => .lt
  | false, true => .gt
  | false, false => compare a b

/-- The first difference of two identifiers in one place, else the lengths. -/
def comparePre (left right : List Text) : Ordering :=
  ((List.zipWith compareIdentifier left right).find? (· != .eq)).getD
    (compare left.length right.length)

def Version.cmp (a b : Version) : Ordering :=
  ((compare a.major b.major).then ((compare a.minor b.minor).then (compare a.patch b.patch))).then
    (match a.pre.isEmpty, b.pre.isEmpty with
    | true, true => .eq
    | true, false => .gt
    | false, true => .lt
    | false, false => comparePre a.pre b.pre)

example : parse " v1.20.3-rc.1-x+build.7 ".toList =
    some ⟨1, 20, 3, ["rc".toList, "1-x".toList]⟩ := by decide +kernel

/-! ## Precedence -/

/-- Numbers by value and below words, words by their characters. -/
inductive IdentifierBelow (a b : Text) : Prop
  | numbers (ha : isNumeric a = true) (hb : isNumeric b = true)
      (h : Nat.ofDigitChars 10 a 0 < Nat.ofDigitChars 10 b 0)
  | numberWord (ha : isNumeric a = true) (hb : isNumeric b = false)
  | words (ha : isNumeric a = false) (hb : isNumeric b = false) (h : a < b)

/-- The first different identifier decides, and a list is below its extensions. -/
abbrev PreBelow : List Text → List Text → Prop := List.Lex IdentifierBelow

/-- The three numbers decide, from the major on; then a pre-release is below its release, and two
pre-releases are in the order of their identifiers. -/
def Precedes (a b : Version) : Prop :=
  toLex (a.major, toLex (a.minor, a.patch)) < toLex (b.major, toLex (b.minor, b.patch)) ∨
    (a.major = b.major ∧ a.minor = b.minor ∧ a.patch = b.patch ∧ a.pre ≠ [] ∧
      (b.pre = [] ∨ PreBelow a.pre b.pre))

/-! ## A total order -/

section Order

/-- Numbers before words, then by length, which is 0 for all words. -/
def rank (identifier : Text) : ℕ := if isNumeric identifier then 0 else 1

def digitCount (identifier : Text) : ℕ := if isNumeric identifier then identifier.length else 0

theorem compareIdentifier_eq :
    compareIdentifier =
      compareLex (compareOn rank) (compareLex (compareOn digitCount) compare) := by
  funext a b
  unfold compareIdentifier compareLex compareOn rank digitCount
  cases isNumeric a <;> cases isNumeric b <;> rfl

instance : TransCmp compareIdentifier := by
  rw [compareIdentifier_eq]
  infer_instance

instance : LawfulEqCmp compareIdentifier where
  compare_self := ReflCmp.compare_self
  eq_of_compare h := by
    rw [compareIdentifier_eq, compareLex_eq_eq, compareLex_eq_eq] at h
    exact LawfulEqCmp.eq_of_compare h.2.2

theorem comparePre_eq : comparePre = List.compareLex compareIdentifier := by
  funext left right
  induction left generalizing right with
  | nil => cases right <;> rfl
  | cons a left ih =>
    cases right with
    | nil => rfl
    | cons b right =>
      rw [List.compareLex_cons_cons, ← ih right]
      unfold comparePre
      rw [List.zipWith_cons_cons]
      cases compareIdentifier a b with
      | eq =>
        rw [List.find?_cons_of_neg (by decide), List.length_cons, List.length_cons,
          Ordering.eq_then]
        congr 1
        exact Digits.compare_add_right _ _ 1
      | lt | gt => rw [List.find?_cons_of_pos (by decide)]; rfl

/-- 1 for a release. -/
def releaseRank (v : Version) : ℕ := if v.pre.isEmpty then 1 else 0

theorem cmp_eq :
    Version.cmp = compareLex (compareLex (compareOn Version.major)
      (compareLex (compareOn Version.minor) (compareOn Version.patch)))
        (compareLex (compareOn releaseRank) fun a b => comparePre a.pre b.pre) := by
  funext a b
  obtain ⟨_, _, _, prea⟩ := a
  obtain ⟨_, _, _, preb⟩ := b
  unfold Version.cmp compareLex compareOn releaseRank
  cases prea <;> cases preb <;> rfl

instance : TransCmp Version.cmp := by
  have hpre : TransCmp fun a b : Version => comparePre a.pre b.pre := by
    rw [comparePre_eq]
    exact {
      eq_swap := @fun a b =>
        @OrientedCmp.eq_swap _ (List.compareLex compareIdentifier) _ a.pre b.pre
      isLE_trans := @fun a b c =>
        @TransCmp.isLE_trans _ (List.compareLex compareIdentifier) _ a.pre b.pre c.pre }
  rw [cmp_eq]
  infer_instance

instance : LawfulEqCmp Version.cmp where
  compare_self := ReflCmp.compare_self
  eq_of_compare {a b} h := by
    rw [cmp_eq, compareLex_eq_eq, compareLex_eq_eq, compareLex_eq_eq, compareLex_eq_eq,
      comparePre_eq] at h
    obtain ⟨⟨hmajor, hminor, hpatch⟩, -, hpre⟩ := h
    obtain ⟨_, _, _, _⟩ := a
    obtain ⟨_, _, _, _⟩ := b
    congr 1
    · exact Nat.compare_eq_eq.1 hmajor
    · exact Nat.compare_eq_eq.1 hminor
    · exact Nat.compare_eq_eq.1 hpatch
    · exact LawfulEqCmp.eq_of_compare hpre

end Order

/-! ## Precedence -/

/-- What a parsed version is made of. -/
structure Version.Valid (v : Version) : Prop where
  major : v.major < 2 ^ 64
  minor : v.minor < 2 ^ 64
  patch : v.patch < 2 ^ 64
  pre : ∀ identifier ∈ v.pre, validPre identifier = true

variable {a b text : Text} {n : ℕ} {identifiers : List Text} {v : Version} {c : Char}

theorem all_isDigit (h : isNumeric a = true) : a.all Char.isDigit = true := by
  rw [isNumeric, Bool.and_eq_true] at h
  exact h.2

/-- The length of a number of one digit is no longer than that of any. -/
theorem head_ne_zero (ha : isNumeric a = true) (hb : isNumeric b = true)
    (hpre : validPre b = true) (h : a.length < b.length) : b.head? ≠ some '0' := by
  intro hzero
  have hpos : 0 < a.length := by
    cases a with
    | nil => simp [isNumeric] at ha
    | cons => simp
  have hlong : 1 < b.length := by omega
  simp [validPre, hb, startsWithZero, hzero, hlong] at hpre

theorem compare_numbers (ha : isNumeric a = true) (hb : isNumeric b = true)
    (hprea : validPre a = true) (hpreb : validPre b = true) :
    (compare a.length b.length).then (compare a b) = compare (Digits.value a) (Digits.value b) := by
  have hdigitsa := all_isDigit ha
  have hdigitsb := all_isDigit hb
  rcases Nat.lt_trichotomy a.length b.length with h | h | h
  · have hlt := Digits.value_lt_of_length_lt hdigitsa hdigitsb (head_ne_zero ha hb hpreb h) h
    rw [Nat.compare_eq_lt.2 h, Ordering.lt_then, Nat.compare_eq_lt.2 hlt]
  · rw [Nat.compare_eq_eq.2 h, Ordering.eq_then, Digits.compare_value hdigitsa hdigitsb h]
  · have hlt := Digits.value_lt_of_length_lt hdigitsb hdigitsa (head_ne_zero hb ha hprea h) h
    rw [Nat.compare_eq_gt.2 h, Ordering.gt_then, Nat.compare_eq_gt.2 hlt]

theorem compareIdentifier_lt_iff (ha : validPre a = true) (hb : validPre b = true) :
    compareIdentifier a b = .lt ↔ IdentifierBelow a b := by
  unfold compareIdentifier
  cases hna : isNumeric a <;> cases hnb : isNumeric b
  · have hwords : compare a b = .lt ↔ a < b :=
      (Lists.compareLex_lt_iff fun _ _ _ _ => compare_lt_iff_lt).trans (List.lt_iff_lex_lt a b).symm
    simp only [hwords]
    exact ⟨.words hna hnb, fun h => by cases h <;> simp_all⟩
  · exact ⟨fun h => by simp at h, fun h => by cases h <;> simp_all⟩
  · exact ⟨fun _ => .numberWord hna hnb, fun _ => rfl⟩
  · rw [compare_numbers hna hnb ha hb, Nat.compare_eq_lt]
    exact ⟨.numbers hna hnb, fun h => by cases h <;> simp_all⟩

/-- The first different identifier decides. -/
theorem comparePre_lt_iff {left right : List Text} (hleft : ∀ a ∈ left, validPre a = true)
    (hright : ∀ b ∈ right, validPre b = true) :
    comparePre left right = .lt ↔ PreBelow left right := by
  rw [comparePre_eq]
  exact Lists.compareLex_lt_iff fun a ha b hb => compareIdentifier_lt_iff (hleft a ha) (hright b hb)

theorem cmp_lt_iff {a b : Version} (ha : a.Valid) (hb : b.Valid) :
    a.cmp b = .lt ↔ Precedes a b := by
  have hpre := comparePre_lt_iff ha.pre hb.pre
  obtain ⟨_, _, _, prea⟩ := a
  obtain ⟨_, _, _, preb⟩ := b
  unfold Version.cmp Precedes
  simp only [Ordering.then_eq_lt, Ordering.then_eq_eq, Nat.compare_eq_lt, Nat.compare_eq_eq,
    Prod.Lex.toLex_lt_toLex, and_assoc]
  have hrest : (match prea.isEmpty, preb.isEmpty with
      | true, true => Ordering.eq
      | true, false => .gt
      | false, true => .lt
      | false, false => comparePre prea preb) = .lt ↔
        prea ≠ [] ∧ (preb = [] ∨ PreBelow prea preb) := by
    cases prea with
    | nil => cases preb <;> simp
    | cons a prea =>
      cases preb with
      | nil => simp
      | cons b preb => simpa using hpre
  rw [hrest]

/-! ## Parsing -/

theorem isNumeric_toDigits (n : ℕ) : isNumeric (Nat.toDigits 10 n) = true := by
  rw [isNumeric, Bool.and_eq_true, Bool.not_eq_true', List.isEmpty_eq_false_iff, List.all_eq_true]
  exact ⟨Nat.toDigits_ne_nil, fun c hc => Nat.isDigit_of_mem_toDigits (by decide) (by decide) hc⟩

/-- No number is written with a zero in front. -/
theorem length_of_startsWithZero (h : startsWithZero (Nat.toDigits 10 n) = true) :
    (Nat.toDigits 10 n).length ≤ 1 := by
  have hvalue : Digits.value (Nat.toDigits 10 n) = n := Nat.ofDigitChars_ten_toDigits
  have hdigits := all_isDigit (isNumeric_toDigits n)
  have hle := fun k => @Nat.length_toDigits_le_iff 10 n k (by decide)
  cases htext : Nat.toDigits 10 n with
  | nil => simp
  | cons c rest =>
    rw [htext] at h hvalue hdigits hle
    obtain rfl : c = '0' := by simpa [startsWithZero] using h
    rw [Digits.value_cons, Nat.sub_self, Nat.zero_mul, Nat.zero_add] at hvalue
    rw [List.all_cons, Bool.and_eq_true] at hdigits
    have hlt := Digits.value_lt hdigits.2
    by_contra hlong
    have hpos : 0 < rest.length := by
      rw [List.length_cons] at hlong
      omega
    have hshort := (hle rest.length hpos).2 (hvalue ▸ hlt)
    rw [List.length_cons] at hshort
    omega

theorem number_toDigits (h : n < 2 ^ 64) : number (Nat.toDigits 10 n) = some n := by
  have hzero : (decide (1 < (Nat.toDigits 10 n).length) && startsWithZero (Nat.toDigits 10 n)) =
      false := by
    rw [Bool.and_eq_false_iff, decide_eq_false_iff_not]
    by_cases hstarts : startsWithZero (Nat.toDigits 10 n) = true
    · exact .inl (Nat.not_lt.2 (length_of_startsWithZero hstarts))
    · exact .inr (Bool.eq_false_iff.2 hstarts)
  rw [number, isNumeric_toDigits, hzero, if_neg (by decide), Nat.ofDigitChars_ten_toDigits,
    Option.filter_some, if_pos (by simpa using h)]

theorem lt_of_number (h : number text = some n) : n < 2 ^ 64 := by
  unfold number at h
  split at h
  · cases h
  · simpa using (Option.filter_eq_some_iff.1 h).2

theorem valid_of_parsePre {pre : Option Text} (h : parsePre pre = some identifiers) :
    ∀ identifier ∈ identifiers, validPre identifier = true := by
  cases pre with
  | none =>
    cases h
    simp
  | some pre =>
    simp only [parsePre] at h
    split at h
    · rename_i hall
      cases h
      exact List.all_eq_true.1 hall
    · cases h

theorem valid_of_parse (h : parse text = some v) : v.Valid := by
  unfold parse at h
  obtain ⟨text, -, h⟩ := Option.bind_eq_some_iff.1 h
  generalize hsplit : (match splitOnce '-' text with
    | some (core, pre) => (core, some pre)
    | none => (text, none)) = parts at h
  obtain ⟨core, pre⟩ := parts
  obtain ⟨major, hmajor, h⟩ := Option.bind_eq_some_iff.1 h
  obtain ⟨minor, hminor, h⟩ := Option.bind_eq_some_iff.1 h
  obtain ⟨patch, hpatch, h⟩ := Option.bind_eq_some_iff.1 h
  split at h
  · cases h
  · obtain ⟨identifiers, hpre, h⟩ := Option.bind_eq_some_iff.1 h
    cases h
    have hnumber : ∀ {i n : ℕ}, ((core.splitOn '.').map number)[i]?.join = some n → n < 2 ^ 64 := by
      intro i n hn
      rw [List.getElem?_map, Option.join_eq_some_iff, Option.map_eq_some_iff] at hn
      obtain ⟨text, -, hn⟩ := hn
      exact lt_of_number hn
    exact ⟨hnumber hmajor, hnumber hminor, hnumber hpatch, valid_of_parsePre hpre⟩

def isDisplayed (c : Char) : Bool := c.isAlphanum || c == '-' || c == '.'

theorem isWhitespace_isDisplayed (h : isDisplayed c = true) : Upstream.isWhitespace c = false := by
  have hrange : 45 ≤ c.toNat ∧ c.toNat ≤ 122 := by
    simp only [isDisplayed, Char.isAlphanum, Char.isAlpha, Char.isUpper, Char.isLower, Char.isDigit,
      Bool.or_eq_true, Bool.and_eq_true, decide_eq_true_eq, beq_iff_eq, ge_iff_le,
      UInt32.le_iff_toNat_le] at h
    rcases h with (((h | h) | h) | rfl) | rfl
    · exact ⟨Nat.le_trans (by decide) h.1, Nat.le_trans h.2 (by decide)⟩
    · exact ⟨Nat.le_trans (by decide) h.1, Nat.le_trans h.2 (by decide)⟩
    · exact ⟨Nat.le_trans (by decide) h.1, Nat.le_trans h.2 (by decide)⟩
    · decide
    · decide
  simp only [Upstream.isWhitespace, Bool.or_eq_false_iff, Bool.and_eq_false_iff,
    decide_eq_false_iff_not, beq_eq_false_iff_ne]
  omega

theorem dropWhile_of_isDisplayed (h : ∀ c ∈ text, isDisplayed c = true) :
    text.dropWhile Upstream.isWhitespace = text := by
  cases text with
  | nil => rfl
  | cons c text =>
    rw [List.dropWhile_cons_of_neg]
    simp [isWhitespace_isDisplayed (h c (by simp))]

theorem trim_of_isDisplayed (h : ∀ c ∈ text, isDisplayed c = true) : Upstream.trim text = text := by
  rw [Upstream.trim, dropWhile_of_isDisplayed h,
    dropWhile_of_isDisplayed fun c hc => h c (List.mem_reverse.1 hc), List.reverse_reverse]

theorem isDigit_of_mem_toDigits (h : c ∈ Nat.toDigits 10 n) : c.isDigit = true :=
  Nat.isDigit_of_mem_toDigits (by decide) (by decide) h

/-- The three numbers of a version. -/
def coreText (v : Version) : Text :=
  Nat.toDigits 10 v.major ++ '.' :: (Nat.toDigits 10 v.minor ++ '.' :: Nat.toDigits 10 v.patch)

theorem mem_coreText (h : c ∈ coreText v) : c.isDigit = true ∨ c = '.' := by
  simp only [coreText, List.mem_append, List.mem_cons] at h
  rcases h with h | rfl | h | rfl | h
  · exact .inl (isDigit_of_mem_toDigits h)
  · exact .inr rfl
  · exact .inl (isDigit_of_mem_toDigits h)
  · exact .inr rfl
  · exact .inl (isDigit_of_mem_toDigits h)

theorem coreText_parts (v : Version) :
    (coreText v).splitOn '.' =
      [Nat.toDigits 10 v.major, Nat.toDigits 10 v.minor, Nat.toDigits 10 v.patch] := by
  have hdot : ∀ n, '.' ∉ Nat.toDigits 10 n := fun n h => by
    have hdigit := isDigit_of_mem_toDigits h
    revert hdigit
    decide
  rw [coreText, List.splitOn_append_cons_self_of_not_mem (hdot _),
    List.splitOn_append_cons_self_of_not_mem (hdot _), List.splitOn_eq_singleton (hdot _)]

theorem isDisplayed_of_validPre {identifier : Text} (h : validPre identifier = true)
    (hc : c ∈ identifier) : c.isAlphanum = true ∨ c = '-' := by
  rw [validPre, Bool.and_eq_true, wellFormed, Bool.and_eq_true, List.all_eq_true] at h
  simpa using h.1.2 c hc

/-- The characters of the pre-release. -/
theorem mem_intercalate (h : ∀ identifier ∈ identifiers, validPre identifier = true)
    (hc : c ∈ ['.'].intercalate identifiers) : c.isAlphanum = true ∨ c = '-' ∨ c = '.' := by
  induction identifiers with
  | nil => simp at hc
  | cons identifier identifiers ih =>
    have hfirst : c ∈ identifier → c.isAlphanum = true ∨ c = '-' ∨ c = '.' := fun hin =>
      (isDisplayed_of_validPre (h identifier (by simp)) hin).imp_right .inl
    have hrest := fun hin => ih (fun other hother => h other (.tail _ hother)) hin
    cases identifiers with
    | nil => exact hfirst (by simpa using hc)
    | cons other identifiers =>
      rw [List.intercalate_cons_cons, List.mem_append, List.mem_append, List.mem_singleton] at hc
      rcases hc with (hc | rfl) | hc
      · exact hfirst hc
      · exact .inr (.inr rfl)
      · exact hrest hc

theorem parsePre_intercalate (hne : identifiers ≠ [])
    (h : ∀ identifier ∈ identifiers, validPre identifier = true) :
    parsePre (some (['.'].intercalate identifiers)) = some identifiers := by
  have hdot : ∀ identifier ∈ identifiers, '.' ∉ identifier := fun identifier hin hmem => by
    have halpha := isDisplayed_of_validPre (h identifier hin) hmem
    revert halpha
    decide
  rw [parsePre, List.splitOn_intercalate '.' hdot hne]
  exact if_pos (List.all_eq_true.2 h)

theorem mem_display (h : v.Valid) (hc : c ∈ display v) : isDisplayed c = true ∧ c ≠ '+' := by
  have hshown : c.isAlphanum = true ∨ c = '-' ∨ c = '.' := by
    rcases List.mem_append.1 hc with hc | hc
    · exact (mem_coreText hc).imp (fun hdigit => by simp [Char.isAlphanum, hdigit]) .inr
    · split at hc
      · cases hc
      · rcases List.mem_cons.1 hc with rfl | hc
        · exact .inr (.inl rfl)
        · exact mem_intercalate h.pre hc
  rcases hshown with halpha | rfl | rfl
  · refine ⟨by simp [isDisplayed, halpha], ?_⟩
    rintro rfl
    revert halpha
    decide
  · decide
  · decide

/-- The number in front is no `v`. -/
theorem stripV_display (v : Version) : stripV (display v) = display v := by
  have hfirst : ∀ c ∈ (Nat.toDigits 10 v.major).head?, c ≠ 'v' := by
    intro c hc
    have hdigit := isDigit_of_mem_toDigits (List.mem_of_mem_head? hc)
    rintro rfl
    revert hdigit
    decide
  unfold display
  cases hmajor : Nat.toDigits 10 v.major with
  | nil => exact absurd hmajor Nat.toDigits_ne_nil
  | cons c rest =>
    rw [hmajor] at hfirst
    unfold stripV
    split
    · rename_i heq
      exact absurd (List.cons.inj heq).1 (hfirst c rfl)
    · rfl

theorem splitOnce_display (v : Version) :
    splitOnce '-' (display v) =
      if v.pre.isEmpty then none else some (coreText v, ['.'].intercalate v.pre) := by
  have hdash : '-' ∉ coreText v := fun hmem => by
    rcases mem_coreText hmem with hdigit | heq
    · revert hdigit
      decide
    · cases heq
  show splitOnce '-' (coreText v ++ _) = _
  split
  · rw [List.append_nil, Kernel.Time.splitOnce_eq_none hdash]
  · exact Kernel.Time.splitOnce_append hdash _

/-- A version reads back from what it is displayed as. -/
theorem parse_display (h : v.Valid) : parse (display v) = some v := by
  have hplus : '+' ∉ display v := fun hmem => (mem_display h hmem).2 rfl
  have hcore := coreText_parts v
  unfold parse
  rw [trim_of_isDisplayed fun c hc => (mem_display h hc).1, stripV_display, withoutBuild,
    Kernel.Time.splitOnce_eq_none hplus]
  simp only [Option.bind_eq_bind, Option.bind_some]
  rw [splitOnce_display]
  by_cases hpre : v.pre = []
  · have hdisplay : display v = coreText v := by simp [display, coreText, hpre]
    rw [hpre, List.isEmpty_nil, if_pos rfl, hdisplay]
    simp only [hcore, List.map_cons, List.map_nil, number_toDigits h.major, number_toDigits h.minor,
      number_toDigits h.patch, List.getElem?_cons_zero, List.getElem?_cons_succ, Option.join_some,
      Option.bind_some, parsePre]
    simp [← hpre]
  · rw [if_neg (by simpa using hpre)]
    simp only [hcore, List.map_cons, List.map_nil, number_toDigits h.major, number_toDigits h.minor,
      number_toDigits h.patch, List.getElem?_cons_zero, List.getElem?_cons_succ, Option.join_some,
      Option.bind_some, parsePre_intercalate hpre h.pre]
    rfl

/-- A version that was parsed. -/
def ParsedVersion : Type := {v : Version // ∃ text, parse text = some v}

/-- On the versions that were parsed, which are the valid ones, `cmp` is a total order, is the
precedence, and the display parses back. -/
theorem version_order :
    (∀ a b : ParsedVersion, a.1.cmp b.1 = .eq ↔ a = b) ∧
    (∀ a b : ParsedVersion, b.1.cmp a.1 = (a.1.cmp b.1).swap) ∧
    (∀ a b c : ParsedVersion, (a.1.cmp b.1).isLE = true → (b.1.cmp c.1).isLE = true →
      (a.1.cmp c.1).isLE = true) ∧
    (∀ a b : ParsedVersion, a.1.cmp b.1 = .lt ↔ Precedes a.1 b.1) ∧
    (∀ v : ParsedVersion, parse (display v.1) = some v.1) ∧
    ∀ v : Version, v.Valid ↔ ∃ parsed : ParsedVersion, parsed.1 = v := by
  refine ⟨fun a b => ?_, fun a b => ?_, fun a b c => TransCmp.isLE_trans, fun a b => ?_,
    fun v => ?_, fun v => ⟨fun hv => ⟨⟨v, display v, parse_display hv⟩, rfl⟩, ?_⟩⟩
  · rw [LawfulEqCmp.compare_eq_iff_eq]
    exact Subtype.ext_iff.symm
  · exact OrientedCmp.eq_swap
  · obtain ⟨_, ha⟩ := a.2
    obtain ⟨_, hb⟩ := b.2
    exact cmp_lt_iff (valid_of_parse ha) (valid_of_parse hb)
  · obtain ⟨_, hv⟩ := v.2
    exact parse_display (valid_of_parse hv)
  · rintro ⟨parsed, rfl⟩
    obtain ⟨_, hv⟩ := parsed.2
    exact valid_of_parse hv

def rc9 : ParsedVersion :=
  ⟨⟨1, 0, 0, ["rc".toList, "9".toList]⟩, "1.0.0-rc.9".toList, by decide +kernel⟩

def rc10 : ParsedVersion :=
  ⟨⟨1, 0, 0, ["rc".toList, "10".toList]⟩, "v1.0.0-rc.10".toList, by decide +kernel⟩

/-- The longer number is the larger one. -/
theorem version_order_rc : rc9.1.cmp rc10.1 = .lt ∧ Precedes rc9.1 rc10.1 := by
  have hlt : rc9.1.cmp rc10.1 = .lt := by decide
  exact ⟨hlt, (version_order.2.2.2.1 rc9 rc10).1 hlt⟩

end Hedos.Kernel.Upgrade
