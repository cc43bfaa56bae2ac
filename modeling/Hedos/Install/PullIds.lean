import Mathlib
import Hedos.Install.PullClients

/-!
# The ids of pull jobs

`reference_slug` and `PullStore::create` (`kernel/src/install/pulls.rs`): the readable half of a
job's id, and the id that `create` claims.

* a slug is made of lowercase letters, digits and single dashes inside (`referenceSlug_isSlug`);
* `create` returns an id it has claimed while no job had it, whatever other processes do; one that
  no job had at the start, unless they delete jobs (`pull_ids`).
-/

namespace Hedos.Install

open Programs

/-! ## Slugs -/

/-- Lowercase letters, digits and single dashes between them, and not too many. -/
structure IsSlug (text : List Char) : Prop where
  ne_nil : text ≠ []
  characters : ∀ c ∈ text, c.isLower = true ∨ c.isDigit = true ∨ c = '-'
  length_le : text.length ≤ slugLimit
  head : text.head? ≠ some '-'
  last : text.getLast? ≠ some '-'
  single : text.IsChain fun a b => ¬ (a = '-' ∧ b = '-')

/-- What holds of a slug while it is put together. -/
structure Slugging (slug : List Char) : Prop where
  characters : ∀ c ∈ slug, c.isLower = true ∨ c.isDigit = true ∨ c = '-'
  length_le : slug.length ≤ slugLimit
  single : slug.IsChain fun a b => ¬ (a = '-' ∧ b = '-')

theorem slug_character {c : Char} (h : c.isAlphanum = true) :
    c.toLower.isLower = true ∨ c.toLower.isDigit = true := by
  simp only [Char.isAlphanum, Char.isAlpha, Char.isUpper, Char.isLower, Char.isDigit,
    Bool.or_eq_true, Bool.and_eq_true, decide_eq_true_eq, ge_iff_le] at h ⊢
  unfold Char.toLower
  split
  · -- an uppercase letter is moved by 32
    rename_i hupper
    have hle : (65 : UInt32).toNat ≤ c.val.toNat := UInt32.le_iff_toNat_le.1 hupper.1
    have hge : c.val.toNat ≤ (90 : UInt32).toNat := UInt32.le_iff_toNat_le.1 hupper.2
    have hsum : (c.val + 32).toNat = c.val.toNat + 32 := by
      rw [UInt32.toNat_add]
      simp only [UInt32.reduceToNat] at hle hge ⊢
      omega
    refine Or.inl ⟨UInt32.le_iff_toNat_le.2 ?_, UInt32.le_iff_toNat_le.2 ?_⟩
    · show (97 : UInt32).toNat ≤ (c.val + 32).toNat
      simp only [UInt32.reduceToNat] at hle ⊢
      omega
    · show (c.val + 32).toNat ≤ (122 : UInt32).toNat
      simp only [UInt32.reduceToNat] at hge ⊢
      omega
  · rename_i hupper
    rcases h with (hcapital | hlower) | hdigit
    · exact absurd hcapital hupper
    · exact Or.inl hlower
    · exact Or.inr hdigit

theorem not_dash_toLower {c : Char} (h : c.isAlphanum = true) : c.toLower ≠ '-' := by
  intro hdash
  have hchar := slug_character h
  rw [hdash] at hchar
  revert hchar
  decide

variable {slug : List Char} {w : World}

theorem Slugging.step (h : Slugging slug) (hroom : slug.length < slugLimit) (character : Char) :
    Slugging (if character.isAlphanum then character.toLower :: slug
      else if slug.head? = some '-' then slug else '-' :: slug) := by
  split
  · rename_i hkept
    refine ⟨fun c hc => ?_, hroom, ?_⟩
    · rcases List.mem_cons.1 hc with rfl | hold
      · exact (slug_character hkept).imp_right Or.inl
      · exact h.characters c hold
    · refine List.isChain_cons.2 ⟨fun next _ hboth => not_dash_toLower hkept hboth.1, h.single⟩
  · split
    · exact h
    · rename_i hhead
      refine ⟨fun c hc => ?_, hroom, ?_⟩
      · rcases List.mem_cons.1 hc with rfl | hold
        · exact Or.inr (Or.inr rfl)
        · exact h.characters c hold
      · refine List.isChain_cons.2 ⟨fun next hnext hboth => hhead ?_, h.single⟩
        rw [Option.mem_def.1 hnext, hboth.2]

theorem slugFrom_slugging (reference : List Char) (h : Slugging slug)
    (hroom : slug.length < slugLimit) : Slugging (slugFrom reference slug) := by
  induction reference generalizing slug with
  | nil => exact h
  | cons character reference ih =>
    rw [slugFrom]
    have hstep := h.step hroom character
    generalize (if character.isAlphanum then character.toLower :: slug
      else if slug.head? = some '-' then slug else '-' :: slug) = next at hstep
    split
    · exact hstep
    · rename_i hshort
      exact ih hstep (by omega)

theorem Slugging.suffix {rest : List Char} (h : Slugging slug) (hrest : rest <:+ slug) :
    Slugging rest where
  characters c hc := h.characters c (hrest.subset hc)
  length_le := hrest.length_le.trans h.length_le
  single := h.single.suffix hrest

theorem Slugging.reverse (h : Slugging slug) : Slugging slug.reverse where
  characters c hc := h.characters c (List.mem_reverse.1 hc)
  length_le := by rw [List.length_reverse]; exact h.length_le
  single := List.isChain_reverse.2 (h.single.imp fun _ _ hboth hflip => hboth ⟨hflip.2, hflip.1⟩)

theorem isSlug_model : IsSlug ['m', 'o', 'd', 'e', 'l'] where
  ne_nil := by decide
  characters c hc := Or.inl (List.all_eq_true.1 rfl c hc)
  length_le := by decide
  head := by decide
  last := by decide
  single := by decide

theorem head_dropWhile (slug : List Char) : (slug.dropWhile (· = '-')).head? ≠ some '-' := by
  intro h
  have hhead := List.head?_dropWhile_not (fun c => decide (c = '-')) slug
  rw [h] at hhead
  simp at hhead

/-- The slug of any reference. -/
theorem referenceSlug_isSlug (reference : String) : IsSlug (referenceSlug reference).toList := by
  have hempty : Slugging [] := ⟨by simp, by decide, by simp⟩
  have hslug := slugFrom_slugging reference.toList hempty (by decide)
  unfold referenceSlug
  generalize slugFrom reference.toList [] = dashed at hslug
  dsimp only
  generalize htrimmed : (dashed.dropWhile (· = '-')).reverse.dropWhile (· = '-') = trimmed
  have hback : Slugging (dashed.dropWhile (· = '-')).reverse :=
    (hslug.suffix (List.dropWhile_suffix _)).reverse
  have hsuffix : trimmed <:+ (dashed.dropWhile (· = '-')).reverse :=
    htrimmed ▸ List.dropWhile_suffix _
  have hkept := hback.suffix hsuffix
  split
  · have hmodel : "model".toList = ['m', 'o', 'd', 'e', 'l'] := by simp
    rw [hmodel]
    exact isSlug_model
  · rename_i hne
    rw [String.toList_ofList]
    have hsome : trimmed ≠ [] := by simpa using hne
    refine ⟨hsome, hkept.characters, hkept.length_le, ?_, ?_, hkept.single⟩
    · rw [← htrimmed]
      exact head_dropWhile _
    · -- the end of what is left is the end that was trimmed first
      obtain ⟨front, hfront⟩ := hsuffix
      have hlast : (dashed.dropWhile (· = '-')).reverse.getLast? = trimmed.getLast? := by
        rw [← hfront, List.getLast?_append_of_ne_nil _ hsome]
      rw [← hlast, List.getLast?_reverse]
      exact head_dropWhile _

/-! ## Creating a job -/

/-- A program of process `i` returns; other processes act between its operations, as `between`
lets them. The list says what was performed, what it met, and in which world. -/
inductive Returns (i : ℕ) (between : World → World → Prop) {α : Type} :
    Act α → World → List (Op × Input × World) → α → Prop
  | ret (a : α) (w : World) : Returns i between (.ret a) w [] a
  | call {op : Op} {next : op.Answer → Act α} {w now : World} {input : Input}
      {performed : List (Op × Input × World)} {a : α} (hbetween : between w now)
      (hnext : Returns i between (next (exec i op input now).1) (exec i op input now).2
        performed a) :
      Returns i between (.call op next) w ((op, input, now) :: performed) a

/-- Other processes delete no job. -/
def KeepsJobs (between : World → World → Prop) : Prop :=
  ∀ w now, between w now → ∀ id, now.store.find id = none → w.store.find id = none

/-- `job` got its id while no job had it and nothing else stood in the way. -/
def Claimed (performed : List (Op × Input × World)) (job : PullJob) : Prop :=
  ∃ input now, (.create job.id job, input, now) ∈ performed ∧ input.refused = false ∧
    now.store.find job.id = none

theorem exec_create (i : ℕ) (id : String) (job : PullJob) (input : Input) (w : World) :
    exec i (.create id job) input w = w.create id job input.refused := rfl

theorem World.create_refused {path : String} {job : PullJob} {refused : Bool}
    (h : ¬ (refused = false ∧ w.store.find path = none)) :
    w.create path job refused = (false, w) := dif_neg h

theorem World.create_taken {path : String} {job : PullJob} {refused : Bool}
    (h : refused = false ∧ w.store.find path = none) :
    w.create path job refused = (true, { w with store := w.store.add path job h.2 }) := dif_pos h

theorem createAt_new {i : ℕ} {between : World → World → Prop} {plan : InstallPlan} {clock : ℤ}
    {ids : List String} {performed : List (Op × Input × World)} {dir : PullJobDir}
    (h : Returns i between (createAt plan clock ids) w performed dir) :
    dir.path = dir.job.id ∧ dir.path ∈ ids ∧ Claimed performed dir.job ∧
      (KeepsJobs between → w.store.find dir.path = none) := by
  induction ids generalizing w performed with
  | nil => cases h
  | cons id ids ih =>
    rw [createAt] at h
    cases h with
    | @call _ _ _ now input performed _ hbetween hnext =>
      rw [exec_create] at hnext
      by_cases hfree : input.refused = false ∧ now.store.find id = none
      · rw [World.create_taken hfree] at hnext
        cases hnext with
        | call _ hrest =>
          cases hrest
          refine ⟨rfl, .head _, ⟨input, now, .head _, hfree⟩, ?_⟩
          exact fun hkeeps => hkeeps w now hbetween id hfree.2
      · rw [World.create_refused hfree] at hnext
        obtain ⟨hpath, hmem, ⟨met, found, hperformed, hclaimed⟩, hnew⟩ := ih hnext
        refine ⟨hpath, .tail _ hmem, ⟨met, found, ?_, hclaimed⟩, ?_⟩
        · exact .tail _ hperformed
        · exact fun hkeeps => hkeeps w now hbetween _ (hnew hkeeps)

/-- For every reference the slug is one; and whatever other processes do meanwhile, `create` returns
the id of a directory it has claimed while no job had it, so one that was in no store it began
with, unless another process has deleted that job since. -/
theorem pull_ids (reference : String) :
    IsSlug (referenceSlug reference).toList ∧
    ∀ (i : ℕ) (between : World → World → Prop) (plan : InstallPlan) (clock : ℤ) (w : World)
      (performed : List (Op × Input × World)) (dir : PullJobDir),
      Returns i between (create plan clock) w performed dir →
        dir.path = dir.job.id ∧
        dir.path ∈ candidateIds (toString clock ++ "-" ++ referenceSlug plan.reference) ∧
        Claimed performed dir.job ∧
        (KeepsJobs between → w.store.find dir.path = none) :=
  ⟨referenceSlug_isSlug reference, fun _ _ _ _ _ _ _ h => createAt_new h⟩

/-- A store with the job that was started at 7. -/
def pulledAtSeven : PullStore where
  jobs := [⟨"7-model", ⟨"7-model", "hf", "", 7⟩, { record := .missing }⟩]
  distinct := List.nodup_singleton _

theorem pull_ids_second :
    ∃ performed, Claimed performed ⟨"7-model-2", "hf", "", 7⟩ ∧
      (World.opened pulledAtSeven [] 7).store.find "7-model-2" = none := by
  have hids : candidateIds (toString (7 : ℤ) ++ "-" ++ referenceSlug "")
      = "7-model" :: "7-model-2" :: (candidateIds "7-model").drop 2 := by
    have hbase : toString (7 : ℤ) ++ "-" ++ referenceSlug "" = "7-model" := rfl
    rw [hbase]
    rfl
  have hrun : ∃ performed, Returns 0 (fun w now => now = w) (create ⟨"hf", ""⟩ 7)
      (World.opened pulledAtSeven [] 7) performed
      ⟨"7-model-2", ⟨"7-model-2", "hf", "", 7⟩⟩ := by
    rw [create, hids]
    exact ⟨[(_, ({} : Input), _), (_, {}, _), (_, {}, _)], .call rfl (.call rfl (.call rfl
      (.ret _ _)))⟩
  obtain ⟨performed, hrun⟩ := hrun
  obtain ⟨_, _, hclaimed, hnew⟩ := (pull_ids "").2 0 _ ⟨"hf", ""⟩ 7 _ _ _ hrun
  exact ⟨performed, hclaimed, hnew fun w now hsame id hid => hsame ▸ hid⟩

end Hedos.Install
