import Mathlib.Data.List.Infix

/-!
# Replacing placeholders in one pass

`Expands` says what one pass over a text makes of it: a key that stands at the place reached is
replaced by its value and passed over, any other symbol is kept. The value is not looked at again.

When no two keys overlap (`Apart`) and no key is there twice, the pass has one result
(`Expands.unique`), every occurrence of a key is replaced wherever it stands
(`Expands.append_key`), and what is made of a text depends on the values of the keys that occur
in it alone (`Expands.congr`).
-/

namespace Placeholders

variable {α : Type*}

/-- Keys with their values. -/
abbrev Entries (α : Type*) := List (List α × List α)

inductive Expands (entries : Entries α) : List α → List α → Prop
  | nil : Expands entries [] []
  | key {key value text made : List α} (mem : (key, value) ∈ entries)
      (rest : Expands entries text made) : Expands entries (key ++ text) (value ++ made)
  | keep {a : α} {text made : List α} (free : ∀ entry ∈ entries, ¬ entry.1 <+: a :: text)
      (rest : Expands entries text made) : Expands entries (a :: text) (a :: made)

/-- No key stands in another, or begins where another has not ended. -/
def Apart (keys : List (List α)) : Prop :=
  ∀ key ∈ keys, ∀ other ∈ keys, ∀ d < key.length,
    (key.drop d <+: other ∨ other <+: key.drop d) → d = 0 ∧ key = other

instance [DecidableEq α] (keys : List (List α)) : Decidable (Apart keys) :=
  inferInstanceAs (Decidable (∀ key ∈ keys, ∀ other ∈ keys, ∀ d < key.length, _))

/-- Keys that never overlap, each of them there once. -/
structure Separate (entries : Entries α) : Prop where
  apart : Apart (entries.map Prod.fst)
  nonempty : ∀ entry ∈ entries, entry.1 ≠ []
  once : ∀ entry ∈ entries, ∀ other ∈ entries, entry.1 = other.1 → entry = other

section

variable {entries : Entries α} {text made : List α}

/-- Of two keys at one place, each is the other. -/
theorem Separate.eq_of_prefix (h : Separate entries) {entry other : List α × List α}
    (hentry : entry ∈ entries) (hother : other ∈ entries) (hp : entry.1 <+: text)
    (hp' : other.1 <+: text) : entry = other := by
  have hpos : 0 < entry.1.length := List.length_pos_iff.2 (h.nonempty entry hentry)
  have hsame := h.apart _ (List.mem_map_of_mem hentry) _ (List.mem_map_of_mem hother) 0 hpos
    (List.prefix_or_prefix_of_prefix hp hp')
  exact h.once entry hentry other hother hsame.2

theorem Expands.unique (h : Separate entries) {another : List α} (hmade : Expands entries text made)
    (hanother : Expands entries text another) : made = another := by
  induction hmade generalizing another with
  | nil =>
    generalize hnil : ([] : List α) = whole at hanother
    cases hanother with
    | nil => rfl
    | key mem rest =>
      have hkey := (List.append_eq_nil_iff.1 hnil.symm).1
      exact absurd hkey (h.nonempty _ mem)
    | keep free rest => cases hnil
  | @key key value text made mem rest ih =>
    generalize hwhole : key ++ text = whole at hanother
    cases hanother with
    | nil => exact absurd (List.append_eq_nil_iff.1 hwhole).1 (h.nonempty _ mem)
    | @key key' value' text' made' mem' rest' =>
      have heq := h.eq_of_prefix mem mem' ⟨text, rfl⟩ ⟨text', hwhole.symm⟩
      rw [Prod.mk.injEq] at heq
      obtain ⟨rfl, rfl⟩ := heq
      obtain rfl := List.append_cancel_left hwhole
      rw [ih rest']
    | @keep a text' made' free rest' => exact absurd ⟨text, hwhole⟩ (free _ mem)
  | @keep a text made free rest ih =>
    generalize hwhole : a :: text = whole at hanother
    cases hanother with
    | nil => cases hwhole
    | @key key' value' text' made' mem' rest' => exact absurd ⟨text', hwhole.symm⟩ (free _ mem')
    | keep free' rest' =>
      cases hwhole
      rw [ih rest']

/-- What stands before a key is read as if the text ended there. -/
theorem Expands.append_key (h : Separate entries) {key value behind made' : List α}
    (hbefore : Expands entries text made) (hkey : (key, value) ∈ entries)
    (hbehind : Expands entries behind made') :
    Expands entries (text ++ (key ++ behind)) (made ++ (value ++ made')) := by
  induction hbefore with
  | nil =>
    show Expands entries (key ++ behind) (value ++ made')
    exact Expands.key hkey hbehind
  | @key own value' text made mem rest ih =>
    rw [List.append_assoc, List.append_assoc]
    exact Expands.key mem ih
  | @keep a text made free rest ih =>
    refine Expands.keep (fun entry hentry hprefix => ?_) ih
    replace hprefix : entry.1 <+: (a :: text) ++ (key ++ behind) := hprefix
    -- a key that is no prefix of what stands before would reach into the one behind it
    rcases Nat.lt_or_ge (a :: text).length entry.1.length with hlt | hle
    · have hdrop : entry.1.drop (a :: text).length <+: key ++ behind := by
        have hdropped := hprefix.drop (a :: text).length
        rwa [List.drop_left] at hdropped
      have hboth := List.prefix_or_prefix_of_prefix hdrop (List.prefix_append key behind)
      have hsame := h.apart _ (List.mem_map_of_mem hentry) _ (List.mem_map_of_mem hkey) _ hlt hboth
      rw [List.length_cons] at hsame
      omega
    · apply free entry hentry
      exact List.prefix_of_prefix_length_le hprefix (List.prefix_append _ _) hle

/-- The values of the keys that do not occur in a text make no difference to it. -/
theorem Expands.congr {others : Entries α} (hmade : Expands entries text made)
    (hkeys : others.map Prod.fst = entries.map Prod.fst)
    (hvalues : ∀ entry ∈ entries, entry.1 <:+: text → entry ∈ others) :
    Expands others text made := by
  induction hmade with
  | nil => exact .nil
  | @key key value text made mem rest ih =>
    refine .key (hvalues _ mem ⟨[], text, rfl⟩) (ih fun entry hentry hin => ?_)
    exact hvalues entry hentry (hin.trans (List.suffix_append key text).isInfix)
  | @keep a text made free rest ih =>
    refine .keep (fun entry hentry hprefix => ?_) (ih fun entry hentry hin => ?_)
    · have hmem : entry.1 ∈ entries.map Prod.fst := hkeys ▸ List.mem_map_of_mem hentry
      obtain ⟨own, hown, heq⟩ := List.mem_map.1 hmem
      exact free own hown (heq ▸ hprefix)
    · exact hvalues entry hentry (hin.trans (List.suffix_cons a text).isInfix)

end

end Placeholders
