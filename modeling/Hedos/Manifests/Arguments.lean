import Hedos.Manifests.Command

/-!
# What a payload can do to a command

* one pass over a piece replaces each placeholder once (`expandPlaceholders_expands`), and the
  placeholders of a command never overlap (`separate_replacementsOf`);
* two payloads give the same arguments wherever the piece does not hold the prompt
  (`substitution_injection_free`).
-/

namespace Hedos.Manifests

open Hedos.Kernel (JsonValue)
open Hedos.Capabilities (len)
open Hedos.Resolution (Record)
open Placeholders (Entries Expands Separate)

/-! ## One pass -/

section

variable {replacements : Replacements}

theorem expandFrom_drop (skip : ℕ) (text : Text) :
    expandFrom replacements skip text = expandFrom replacements 0 (text.drop skip) := by
  induction skip generalizing text with
  | zero => rfl
  | succ skip ih =>
    cases text with
    | nil => rfl
    | cons c rest => exact ih rest

theorem mem_byLength {entry : Text × Text} :
    entry ∈ replacements.byLength ↔ entry ∈ replacements.entries :=
  (List.perm_insertionSort _ _).mem_iff

theorem expandPlaceholders_expands (token : Text) :
    Expands replacements.entries token (expandPlaceholders token replacements) := by
  -- by the length of the token: a key that is matched leaves a shorter one
  induction hlength : token.length using Nat.strong_induction_on generalizing token with
  | _ n ih =>
    unfold expandPlaceholders
    cases token with
    | nil => exact .nil
    | cons c rest =>
      rw [expandFrom]
      cases hfind : replacements.byLength.find? fun entry => entry.1.isPrefixOf (c :: rest) with
      | none =>
        have hfree : ∀ entry ∈ replacements.entries, ¬ entry.1 <+: c :: rest := by
          intro entry hentry hprefix
          have hnot := List.find?_eq_none.1 hfind entry (mem_byLength.2 hentry)
          exact hnot (List.isPrefixOf_iff_prefix.2 hprefix)
        refine .keep hfree (ih rest.length ?_ rest rfl)
        rw [← hlength, List.length_cons]
        omega
      | some entry =>
        obtain ⟨key, value⟩ := entry
        have hmem := mem_byLength.1 (List.mem_of_find?_eq_some hfind)
        have hpos : 0 < key.length := List.length_pos_iff.2 (replacements.nonempty _ hmem)
        have hmatched := List.find?_some hfind
        dsimp only at hmatched
        obtain ⟨tail, htail⟩ := List.isPrefixOf_iff_prefix.1 hmatched
        have hrest : rest.drop (key.length - 1) = tail := by
          have hdrop : (c :: rest).drop (key.length - 1 + 1) = tail := by
            rw [Nat.sub_add_cancel hpos, ← htail, List.drop_left]
          exact hdrop
        dsimp only
        rw [expandFrom_drop, hrest, ← htail]
        refine .key hmem (ih tail.length ?_ tail rfl)
        rw [← hlength, ← htail, List.length_append]
        omega

end

/-! ## The placeholders of a command -/

theorem placeholderKeys_apart (hasBin hasPython : Bool) :
    Placeholders.Apart (placeholderKeys hasBin hasPython) := by
  cases hasBin <;> cases hasPython <;> decide +kernel

theorem placeholderKeys_nodup (hasBin hasPython : Bool) :
    (placeholderKeys hasBin hasPython).Nodup := by
  cases hasBin <;> cases hasPython <;> decide

section

variable (snapshot prompt workdir outputs : String) (envDir bin : Option String)

theorem separate_replacementsOf :
    Separate (replacementsOf snapshot prompt workdir outputs envDir bin).entries := by
  have hkeys := replacementEntries_keys snapshot prompt workdir outputs envDir bin
  refine ⟨?_, (replacementsOf snapshot prompt workdir outputs envDir bin).nonempty, ?_⟩
  · show Placeholders.Apart ((replacementEntries _ _ _ _ _ _).map Prod.fst)
    rw [hkeys]
    exact placeholderKeys_apart _ _
  · intro entry hentry other hother hsame
    have hnodup : ((replacementEntries snapshot prompt workdir outputs envDir bin).map
        Prod.fst).Nodup := by
      rw [hkeys]
      exact placeholderKeys_nodup _ _
    exact List.inj_on_of_nodup_map hnodup hentry hother hsame

/-- Another prompt changes the value of the prompt's placeholder alone. -/
theorem mem_replacementEntries_of_ne {other : String} {entry : Text × Text}
    (hentry : entry ∈ replacementEntries snapshot prompt workdir outputs envDir bin)
    (hkey : entry.1 ≠ promptKey) :
    entry ∈ replacementEntries snapshot other workdir outputs envDir bin := by
  simp only [replacementEntries, List.mem_append, List.mem_cons] at hentry ⊢
  rcases hentry with ((hbin | rfl | rfl | rfl | hnil) | henv) | hworkdir
  · exact .inl (.inl (.inl hbin))
  · exact .inl (.inl (.inr (.inl rfl)))
  · exact .inl (.inl (.inr (.inr (.inl rfl))))
  · exact absurd rfl hkey
  · cases hnil
  · exact .inl (.inr henv)
  · exact .inr hworkdir

/-- A piece that does not hold the prompt's placeholder is expanded without the prompt. -/
theorem expandPlaceholders_prompt {other : String} {piece : Text} (h : ¬ promptKey <:+: piece) :
    expandPlaceholders piece (replacementsOf snapshot prompt workdir outputs envDir bin) =
      expandPlaceholders piece (replacementsOf snapshot other workdir outputs envDir bin) := by
  have hsame : Expands (replacementsOf snapshot other workdir outputs envDir bin).entries piece
      (expandPlaceholders piece (replacementsOf snapshot prompt workdir outputs envDir bin)) := by
    apply (expandPlaceholders_expands piece).congr
    · exact (replacementEntries_keys _ _ _ _ _ _).trans (replacementEntries_keys _ _ _ _ _ _).symm
    · intro entry hentry hin
      exact mem_replacementEntries_of_ne _ _ _ _ _ _ hentry fun hkey => h (hkey ▸ hin)
  exact hsame.unique (separate_replacementsOf _ _ _ _ _ _) (expandPlaceholders_expands piece)

end

/-! ## Two payloads -/

/-- Each placeholder of a piece is replaced once, from left to right and wherever it stands, and
its value stands in the argument as it is. -/
structure ReplacedOnce (entries : Entries Char) (piece argument : Text) : Prop where
  leftToRight : Expands entries piece argument
  only : ∀ other, Expands entries piece other → other = argument
  everywhere : ∀ before key value behind, (key, value) ∈ entries →
    piece = before ++ (key ++ behind) → ∃ made made', Expands entries before made ∧
      Expands entries behind made' ∧ argument = made ++ (value ++ made')

theorem replacedOnce_expandPlaceholders {replacements : Replacements}
    (h : Separate replacements.entries) (piece : Text) :
    ReplacedOnce replacements.entries piece (expandPlaceholders piece replacements) := by
  have hpiece := @expandPlaceholders_expands replacements piece
  refine ⟨hpiece, fun other hother => hother.unique h hpiece, ?_⟩
  rintro before key value behind hkey rfl
  have hbefore := @expandPlaceholders_expands replacements before
  have hbehind := @expandPlaceholders_expands replacements behind
  exact ⟨_, _, hbefore, hbehind, hpiece.unique h (hbefore.append_key h hkey hbehind)⟩

/-- A prompt that looks like a placeholder stays as it is. -/
example : expandPlaceholders "-p=\x7bprompt\x7d".toList
    (replacementsOf "m" "\x7bmodel\x7d x" "w" "o" none none) = "-p=\x7bmodel\x7d x".toList := by
  decide +kernel

section

variable {host : PathHost} {command : String} {record : Record} {payload : JsonValue}
variable {workdir outputs : String} {envDir bin : Option String}

/-- What the placeholders of a command stand for in a run. -/
def runReplacements (host : PathHost) (record : Record) (payload : JsonValue)
    (workdir outputs : String) (envDir bin : Option String) : Replacements :=
  replacementsOf (SidecarModelPaths.resolve host record).snapshot (promptText payload) workdir
    outputs envDir bin

theorem substituted_eq_ok {arguments : List String}
    (h : substituted host command record payload workdir outputs envDir bin = .ok arguments) :
    arguments = (pieces command).map fun piece => String.ofList
      (expandPlaceholders piece
        (runReplacements host record payload workdir outputs envDir bin)) := by
  unfold substituted at h
  dsimp only at h
  split at h
  · cases h
  · split at h
    · cases h
    · injection h with h
      exact h.symm

/-- Whether a command is refused, and how, has nothing to do with the payload. -/
theorem substituted_eq_error_iff {error : ManifestError} :
    substituted host command record payload workdir outputs envDir bin = .error error ↔
      if pythonKey <:+: command.toList ∧ envDir = none then
        error = .failed "the command uses \x7bpython\x7d but the manifest declares no [env]"
      else pieces command = [] ∧ error = .failed "the manifest command is empty" := by
  unfold substituted
  dsimp only
  rw [List.isEmpty_map]
  split
  · rw [Except.error.injEq, eq_comm]
  · by_cases hnil : pieces command = []
    · rw [hnil, List.isEmpty_nil, if_pos rfl, Except.error.injEq, eq_comm, eq_self, true_and]
    · rw [if_neg (by simpa using hnil)]
      constructor
      · rintro ⟨⟩
      · intro h
        exact absurd h.1 hnil

end

/-- A command is refused for a `{python}` without an environment or for having no piece, and
for nothing else. Two payloads give the same number of arguments, and the same argument wherever
the piece of the command does not hold the prompt. -/
theorem substitution_injection_free (host : PathHost) (command : String) (record : Record)
    (workdir outputs : String) (envDir bin : Option String) (payload another : JsonValue) :
    (∀ error : ManifestError,
      substituted host command record payload workdir outputs envDir bin = .error error ↔
        if pythonKey <:+: command.toList ∧ envDir = none then
          error = .failed "the command uses \x7bpython\x7d but the manifest declares no [env]"
        else pieces command = [] ∧ error = .failed "the manifest command is empty") ∧
    (∀ error : ManifestError,
      substituted host command record payload workdir outputs envDir bin = .error error ↔
      substituted host command record another workdir outputs envDir bin = .error error) ∧
    ∀ arguments : List String,
      substituted host command record payload workdir outputs envDir bin = .ok arguments →
      arguments.length = (pieces command).length ∧
      List.Forall₂ (fun piece argument => ReplacedOnce
        (runReplacements host record payload workdir outputs envDir bin).entries piece
        argument.toList) (pieces command) arguments ∧
      ∀ others : List String,
        substituted host command record another workdir outputs envDir bin = .ok others →
        others.length = arguments.length ∧
        ∀ (i : ℕ) (piece : Text), (pieces command)[i]? = some piece → ¬ promptKey <:+: piece →
          arguments[i]? = others[i]? := by
  refine ⟨fun error => substituted_eq_error_iff, fun error => ?_, fun arguments hok => ?_⟩
  · rw [substituted_eq_error_iff, substituted_eq_error_iff]
  obtain rfl := substituted_eq_ok hok
  refine ⟨List.length_map _, ?_, fun others hothers => ?_⟩
  · rw [List.forall₂_map_right_iff, List.forall₂_same]
    intro piece _
    rw [String.toList_ofList]
    exact replacedOnce_expandPlaceholders (separate_replacementsOf _ _ _ _ _ _) piece
  · obtain rfl := substituted_eq_ok hothers
    refine ⟨by rw [List.length_map, List.length_map], fun i piece hpiece hprompt => ?_⟩
    rw [List.getElem?_map, List.getElem?_map, hpiece, Option.map_some, Option.map_some]
    exact congrArg (fun argument => some (String.ofList argument))
      (expandPlaceholders_prompt _ _ _ _ _ _ hprompt)

end Hedos.Manifests
