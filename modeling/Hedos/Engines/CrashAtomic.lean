import Hedos.Engines.PutInPlace

/-!
# Engine installs are crash-atomic

* `Possible r name` is what a recovery of the root `r` can leave under `name`: the build that
  is there, or one set aside when there is none;
* `Recovers r r'` says that `r'` can end only as `r` could: the calls of a recovery keep it,
  whichever of them fails or is the last one (`recover_wp`);
* an install from `r` leaves a root that ends as `r` could, or one where the new build is in
  place and no other is gone but those it supersedes (`Ends`, `installFrom_wp`);
* so that an install cut off anywhere is finished by the next recovery with the build it had
  or the new one (`install_crash_atomic`).
-/

namespace Hedos.Engines

open Crash

variable {β : Type}

/-! ## What a recovery can leave -/

/-- `build` is set aside under `name`. -/
def Aside (r : Root β) (name : String) (build : Build β) : Prop :=
  ∃ staging s, r.stagings.lookup staging = some s ∧ s.replaced.lookup name = some build

/-- What can stand under `name` once the staging directories are gone. -/
def Possible (r : Root β) (name : String) (o : Option (Build β)) : Prop :=
  match r.homes.lookup name with
  | some build => o = some build
  | none => (∃ build, Aside r name build ∧ o = some build) ∨
    ((∀ build, ¬ Aside r name build) ∧ o = none)

/-- `r'` can only end as `r` could. -/
def EndsLike (r r' : Root β) : Prop :=
  ∀ name o, Possible r' name o → Possible r name o

/-- And has no staging directory that `r` has not. -/
structure Recovers (r r' : Root β) : Prop where
  possible : EndsLike r r'
  stagings : ∀ staging ∈ r'.stagings, staging ∈ r.stagings

/-- Every build set aside in `staging` has something in its place, but those in `todo`. -/
def Pending (r : Root β) (staging : String) (todo : List String) : Prop :=
  ∀ s, r.stagings.lookup staging = some s → ∀ name ∈ s.replaced, name ∈ r.homes ∨ name ∈ todo

section

variable {r r' r'' : Root β} {staging name : String} {build : Build β} {o : Option (Build β)}

theorem possible_of_home (h : r.homes.lookup name = some build) :
    Possible r name o ↔ o = some build := by
  simp [Possible, h]

theorem possible_of_absent (h : r.homes.lookup name = none) :
    Possible r name o ↔ (∃ build, Aside r name build ∧ o = some build) ∨
      ((∀ build, ¬ Aside r name build) ∧ o = none) := by
  simp [Possible, h]

theorem Recovers.refl (r : Root β) : Recovers r r :=
  ⟨fun _ _ h => h, fun _ h => h⟩

theorem Recovers.trans (h : Recovers r r') (h' : Recovers r' r'') : Recovers r r'' :=
  ⟨fun name o ho => h.possible name o (h'.possible name o ho),
    fun staging hs => h.stagings staging (h'.stagings staging hs)⟩

/-- Without a staging directory a name ends as it is. -/
theorem possible_of_no_staging (h : r.stagings = ∅) :
    Possible r name o ↔ o = r.homes.lookup name := by
  have hnone : ∀ build, ¬ Aside r name build := by
    rintro build ⟨staging, s, hs, -⟩
    rw [h, AList.lookup_empty] at hs
    cases hs
  cases hhome : r.homes.lookup name with
  | some build => exact possible_of_home hhome
  | none => simp [possible_of_absent hhome, hnone]

/-- A name with the same home and the same builds set aside ends the same way. -/
theorem possible_congr (hhome : r'.homes.lookup name = r.homes.lookup name)
    (haside : r.homes.lookup name = none → ∀ build, Aside r' name build ↔ Aside r name build) :
    Possible r' name o ↔ Possible r name o := by
  cases hname : r.homes.lookup name with
  | some build => rw [possible_of_home hname, possible_of_home (by rw [hhome, hname])]
  | none =>
    rw [possible_of_absent hname, possible_of_absent (by rw [hhome, hname])]
    simp only [haside hname]

/-! ## The moves -/

theorem lookup_setStaging (r : Root β) (f : Staging β → Staging β) (x : String) :
    (r.setStaging staging f).stagings.lookup x =
      if x = staging then (r.stagings.lookup x).map f else r.stagings.lookup x := by
  rw [Root.setStaging]
  by_cases hx : x = staging
  · subst hx
    cases hs : r.stagings.lookup x <;> simp [hs]
  · cases hs : r.stagings.lookup staging <;> simp [hx, AList.lookup_insert_ne]

@[simp] theorem homes_setStaging (r : Root β) (f : Staging β → Staging β) :
    (r.setStaging staging f).homes = r.homes := by
  rw [Root.setStaging]
  split <;> rfl

theorem mem_setStaging (r : Root β) (f : Staging β → Staging β) (x : String) :
    x ∈ (r.setStaging staging f).stagings ↔ x ∈ r.stagings := by
  rw [← AList.lookup_isSome, ← AList.lookup_isSome, lookup_setStaging]
  split <;> simp

/-- What is set aside is set aside still when `f` keeps it. -/
theorem aside_setStaging {f : Staging β → Staging β}
    (hf : ∀ s, r.stagings.lookup staging = some s →
      (f s).replaced.lookup name = s.replaced.lookup name) (build : Build β) :
    Aside (r.setStaging staging f) name build ↔ Aside r name build := by
  constructor
  · rintro ⟨x, s, hs, hbuild⟩
    rw [lookup_setStaging] at hs
    split at hs
    · rename_i hx
      subst hx
      obtain ⟨s₀, hs₀, rfl⟩ := Option.map_eq_some_iff.1 hs
      exact ⟨x, s₀, hs₀, by rw [← hf s₀ hs₀, hbuild]⟩
    · exact ⟨x, s, hs, hbuild⟩
  · rintro ⟨x, s, hs, hbuild⟩
    by_cases hx : x = staging
    · subst hx
      exact ⟨x, f s, by rw [lookup_setStaging, if_pos rfl, hs, Option.map_some],
        by rw [hf s hs, hbuild]⟩
    · exact ⟨x, s, by rw [lookup_setStaging, if_neg hx, hs], hbuild⟩

theorem putBack_eq_some (h : Root.putBack staging name r = some r') :
    ∃ s build, r.stagings.lookup staging = some s ∧ s.replaced.lookup name = some build ∧
      r.homes.lookup name = none ∧
      r' = { r with homes := r.homes.insert name build }.setStaging staging fun s =>
        { s with replaced := s.replaced.erase name } := by
  rw [Root.putBack] at h
  split at h
  · rename_i build hbuild hhome
    obtain ⟨s, hs, hreplaced⟩ := Option.bind_eq_some_iff.1 hbuild
    exact ⟨s, build, hs, hreplaced, hhome, (Option.some.inj h).symm⟩
  · cases h

theorem recovers_putBack (h : Root.putBack staging name r = some r') : Recovers r r' := by
  obtain ⟨s, build, hs, hbuild, hhome, rfl⟩ := putBack_eq_some h
  refine ⟨fun m o ho => ?_, fun x hx => ?_⟩
  · by_cases hm : m = name
    · subst hm
      rw [possible_of_home (by simp : _ = some build)] at ho
      rw [possible_of_absent hhome]
      exact .inl ⟨build, ⟨staging, s, hs, hbuild⟩, ho⟩
    · refine (possible_congr ?_ ?_).1 ho
      · simp [AList.lookup_insert_ne hm]
      · intro _ b
        refine aside_setStaging (r := { r with homes := r.homes.insert name build }) ?_ b
        intro s₀ _
        exact AList.lookup_erase_ne hm
  · rwa [mem_setStaging] at hx

theorem pending_putBack {todo : List String} (h : Root.putBack staging name r = some r')
    (hpending : Pending r staging (name :: todo)) : Pending r' staging todo := by
  obtain ⟨s, build, hs, hbuild, hhome, rfl⟩ := putBack_eq_some h
  intro s' hs' m hm
  rw [lookup_setStaging, if_pos rfl, hs, Option.map_some, Option.some.injEq] at hs'
  subst hs'
  rw [AList.mem_erase] at hm
  rcases hpending s hs m hm.2 with hin | hin
  · exact .inl (by simp [hin])
  · exact .inr ((List.mem_cons.1 hin).resolve_left hm.1)

/-- A staging directory whose builds all have something in their place can be removed. -/
theorem recovers_erase (h : Pending r staging []) :
    Recovers r { r with stagings := r.stagings.erase staging } := by
  refine ⟨fun m o ho => ?_, fun x hx => (AList.mem_erase.1 hx).2⟩
  refine (possible_congr ?_ fun hm build => ?_).1 ho
  · rfl
  constructor
  · rintro ⟨x, s, hs, hbuild⟩
    have hne : x ≠ staging := by
      rintro rfl
      rw [AList.lookup_erase] at hs
      cases hs
    exact ⟨x, s, by rwa [AList.lookup_erase_ne hne] at hs, hbuild⟩
  · rintro ⟨x, s, hs, hbuild⟩
    have hne : x ≠ staging := by
      rintro rfl
      have hin := h s hs m (AList.lookup_isSome.1 (by rw [hbuild]; rfl))
      rw [AList.lookup_eq_none] at hm
      simp [hm] at hin
    exact ⟨x, s, by rwa [AList.lookup_erase_ne hne], hbuild⟩

theorem mem_damaged {left : List (String × Bool)} {s : Staging β}
    (h : name ∈ (s.damaged left).replaced) : name ∈ s.replaced := by
  rw [Staging.damaged] at h
  induction left with
  | nil => simp at h
  | cons entry rest ih =>
    rw [List.foldr_cons] at h
    split at h
    · rename_i build hbuild
      rcases (AList.mem_insert _).1 h with rfl | h
      · exact AList.lookup_isSome.1 (by rw [hbuild]; rfl)
      · exact ih h
    · exact ih h

/-- And stopping in its removal changes nothing either. -/
theorem recovers_damaged (left : List (String × Bool)) (h : Pending r staging []) :
    Recovers r (r.setStaging staging (Staging.damaged left)) := by
  refine ⟨fun m o ho => ?_, fun x hx => by rwa [mem_setStaging] at hx⟩
  refine (possible_congr (by rw [homes_setStaging]) fun hm build => ?_).1 ho
  refine aside_setStaging (fun s hs => ?_) build
  have habsent : m ∉ s.replaced := by
    intro hin
    rw [AList.lookup_eq_none] at hm
    simpa [hm] using h s hs m hin
  rw [AList.lookup_eq_none.2 habsent, AList.lookup_eq_none]
  exact fun hin => habsent (mem_damaged hin)

end

/-! ## Recovering -/

section

variable {r : Root β} {staging : String} {post : Bool → Root β → Prop} {cut : Root β → Prop}

theorem wp_attempt {f : Root β → Option (Root β)} (hworks : ∀ r', f r = some r' → post true r')
    (hfails : post false r) (hcut : cut r) : wp (attempt f) post cut r := by
  refine wp_call (fun verdict a r' h => ?_) (fun verdict r' h => ?_)
  · split at h
    · split at h
      · cases h
        exact hworks _ ‹_›
      · cases h
        exact hfails
    all_goals
      cases h
      try exact hfails
  · split at h
    · split at h <;> cases h
    all_goals
      cases h
      try exact hcut

theorem wp_readEntry (h : ∀ a, post a r) (hcut : cut r) : wp readEntry post cut r :=
  wp_attempt (fun r' hr' => by cases hr'; exact h true) (h false) hcut

theorem wp_removal {removed : Root β → Root β}
    {stopped : List (String × Bool) → Root β → Root β} (hworks : post true (removed r))
    (hfails : post false r) (hstops : ∀ left, post false (stopped left r)) (hcut : cut r)
    (hstopsCut : ∀ left, cut (stopped left r)) : wp (removal removed stopped) post cut r := by
  refine wp_call (fun verdict a r' h => ?_) (fun verdict r' h => ?_)
  · cases verdict with
    | works => cases h; exact hworks
    | fails => cases h; exact hfails
    | crashes => cases h
    | stops left crash =>
      cases crash
      · cases h; exact hstops left
      · cases h
  · cases verdict with
    | works => cases h
    | fails => cases h
    | crashes => cases h; exact hcut
    | stops left crash =>
      cases crash
      · cases h
      · cases h; exact hstopsCut left

theorem restore_wp (r₀ : Root β) (todo : List String) :
    ∀ (r : Root β) (kept : Bool), Recovers r₀ r →
      (kept = false → Pending r staging todo) →
      wp (restore staging todo kept)
        (fun answer r' => Recovers r₀ r' ∧ (answer = some false → Pending r' staging []))
        (Recovers r₀) r := by
  induction todo with
  | nil =>
    intro r kept hr hpending
    exact wp_pure ⟨hr, fun hkept => hpending (Option.some.inj hkept)⟩
  | cons name rest ih =>
    intro r kept hr hpending
    rw [restore]
    refine wp_bind (wp_readEntry (fun entry => ?_) hr)
    cases entry with
    | false => exact wp_pure ⟨hr, nofun⟩
    | true =>
      refine wp_bind (wp_read ?_)
      cases hhome : r.homes.lookup name with
      | none =>
        refine wp_bind (wp_attempt (fun r' hr' => ?_) ?_ hr)
        · refine ih r' _ (hr.trans (recovers_putBack hr')) fun hkept => ?_
          exact pending_putBack hr' (hpending (by simpa using hkept))
        · exact ih r _ hr fun hkept => by simp at hkept
      | some build =>
        refine ih r kept hr fun hkept s hs m hm => ?_
        rcases hpending hkept s hs m hm with hin | hin
        · exact .inl hin
        rcases List.mem_cons.1 hin with rfl | hin
        · exact .inl (AList.lookup_isSome.1 (by rw [hhome]; rfl))
        · exact .inr hin

/-- A recovery of the staging directories in `todo`, with no other there. -/
theorem recoverStagings_wp (r₀ : Root β) (todo : List String) :
    ∀ r : Root β, Recovers r₀ r → (∀ x ∈ r.stagings, x ∈ todo) →
      wp (recoverStagings todo)
        (fun result r' => Recovers r₀ r' ∧ (result = .ok () → r'.stagings = ∅))
        (Recovers r₀) r := by
  induction todo with
  | nil =>
    intro r hr htodo
    refine wp_pure ⟨hr, fun _ => ?_⟩
    apply AList.ext
    rw [AList.empty_entries, ← List.map_eq_nil_iff (f := Sigma.fst), List.eq_nil_iff_forall_not_mem]
    exact fun x hx => by simpa using htodo x hx
  | cons staging rest ih =>
    intro r hr htodo
    rw [recoverStagings]
    refine wp_bind (wp_readEntry (fun entry => ?_) hr)
    cases entry with
    | false => exact wp_pure ⟨hr, nofun⟩
    | true =>
    refine wp_bind (wp_readEntry (fun entry => ?_) hr)
    cases entry with
    | false => exact wp_pure ⟨hr, nofun⟩
    | true =>
    refine wp_bind (wp_read (wp_bind ?_))
    have hpending : Pending r staging
        (((r.stagings.lookup staging).map fun s => s.replaced.keys).getD []) := by
      intro s hs m hm
      rw [hs]
      exact .inr hm
    refine wp_mono (restore_wp r _ r false (Recovers.refl r) fun _ => hpending) ?_
      fun r' hr' => hr.trans hr'
    rintro answer r' ⟨hr', hcleared⟩
    have hrr' := hr.trans hr'
    cases answer with
    | none => exact wp_pure ⟨hrr', nofun⟩
    | some kept =>
      cases kept with
      | true => exact wp_pure ⟨hrr', nofun⟩
      | false =>
        have hnone := hcleared rfl
        refine wp_bind (wp_removal ?_ ?_ (fun left => ?_) hrr'
          fun left => hrr'.trans (recovers_damaged left hnone))
        · refine ih _ (hrr'.trans (recovers_erase hnone)) fun x hx => ?_
          rw [AList.mem_erase] at hx
          exact (List.mem_cons.1 (htodo x (hr'.stagings x hx.2))).resolve_left hx.1
        · exact wp_pure ⟨hrr', nofun⟩
        · exact wp_pure ⟨hrr'.trans (recovers_damaged left hnone), nofun⟩

/-- A recovery leaves a root that ends as it could, and with no staging directory if it
succeeds. -/
theorem recover_wp (r : Root β) :
    wp recover (fun result r' => Recovers r r' ∧ (result = .ok () → r'.stagings = ∅))
      (Recovers r) r := by
  rw [recover]
  refine wp_bind (wp_readEntry (fun entry => ?_) (Recovers.refl r))
  cases entry with
  | false => exact wp_pure ⟨Recovers.refl r, nofun⟩
  | true => exact wp_bind (wp_read (recoverStagings_wp r _ r (Recovers.refl r) fun x hx => hx))

/-- Without a staging directory a recovery does nothing. -/
theorem recover_wp_of_no_staging (h : r.stagings = ∅) :
    wp recover (fun _ r' => r' = r) (fun r' => r' = r) r := by
  rw [recover]
  refine wp_bind (wp_readEntry (fun entry => ?_) rfl)
  cases entry with
  | false => exact wp_pure rfl
  | true =>
    refine wp_bind (wp_read ?_)
    rw [h, AList.keys_empty]
    exact wp_pure rfl

theorem recover_of_no_staging (h : r.stagings = ∅) : recover r [] = .done (.ok ()) r [] := by
  obtain ⟨homes, stagings⟩ := r
  simp only at h
  subst h
  rfl

end

/-! ## Installing -/

/-- Every set-aside build has something in its place. -/
def Settled (r : Root β) : Prop :=
  ∀ name build, Aside r name build → name ∈ r.homes

/-- The new build is in place, and every other is as it could be in `r`, but for those it
supersedes, of which a removal may have left a part. -/
structure Landed (op : Install β) (r r' : Root β) : Prop where
  committed : op.stage ≠ some .dropped
  installed : ∃ b, op.build = some b ∧ ∀ o, Possible r' op.name o → o = some (.whole b)
  others : ∀ name, name ≠ op.name → ∀ o, Possible r' name o → Possible r name o ∨
    ((o = none ∨ o = some .part) ∧ ∃ x, Possible r name (some x) ∧ op.supersedes name x)

/-- What an install from `r` leaves. -/
def Ends (op : Install β) (r r' : Root β) : Prop :=
  EndsLike r r' ∨ Landed op r r'

section

variable {r r' r'' : Root β} {op : Install β} {staging name : String} {build : Build β}
  {o : Option (Build β)}

theorem Settled.possible (h : Settled r) : Possible r name o ↔ o = r.homes.lookup name := by
  cases hhome : r.homes.lookup name with
  | some build => exact possible_of_home hhome
  | none =>
    have hnone : ∀ build, ¬ Aside r name build := fun build haside =>
      AList.lookup_eq_none.1 hhome (h name build haside)
    simp [possible_of_absent hhome, hnone]

theorem Settled.pending (h : Settled r) : Pending r staging [] := by
  intro s hs m hm
  obtain ⟨build, hbuild⟩ := Option.isSome_iff_exists.1 (AList.lookup_isSome.2 hm)
  exact .inl (h m build ⟨staging, s, hs, hbuild⟩)

theorem Ends.of_endsLike (h : EndsLike r r') (hends : Ends op r' r'') : Ends op r r'' := by
  rcases hends with hends | hends
  · exact .inl fun m o ho => h m o (hends m o ho)
  · refine .inr ⟨hends.committed, hends.installed, fun m hm o ho => ?_⟩
    rcases hends.others m hm o ho with ho | ⟨ho, x, hx, hsuper⟩
    · exact .inl (h m o ho)
    · exact .inr ⟨ho, x, h m _ hx, hsuper⟩

theorem Ends.recovers (hends : Ends op r r') (h : Recovers r' r'') : Ends op r r'' := by
  rcases hends with hends | hends
  · exact .inl fun m o ho => hends m o (h.possible m o ho)
  · refine .inr ⟨hends.committed, ?_, fun m hm o ho => hends.others m hm o (h.possible m o ho)⟩
    obtain ⟨b, hb, hin⟩ := hends.installed
    exact ⟨b, hb, fun o ho => hin o (h.possible _ o ho)⟩

theorem aside_setUnpacked (r : Root β) (staging : String) (b : Option (Build β)) (m : String)
    (x : Build β) :
    Aside (r.setStaging staging fun s => { s with unpacked := b }) m x ↔ Aside r m x := by
  refine aside_setStaging ?_ x
  intro s _
  rfl

theorem setAside_eq_some (h : Root.setAside staging name r = some r') :
    ∃ build, r.homes.lookup name = some build ∧
      (∀ m, m ≠ name → r'.homes.lookup m = r.homes.lookup m) ∧ r'.homes.lookup name = none ∧
      (∀ m x, Aside r' m x → Aside r m x ∨ m = name ∧ x = build) ∧
      (∃ x, Aside r' name x) ∧
      r'.stagings.lookup staging = (r.stagings.lookup staging).map fun s =>
        { s with replaced := s.replaced.insert name build } := by
  rw [Root.setAside] at h
  split at h
  · rename_i s build hs hhome
    cases h
    refine ⟨build, hhome, fun m hm => ?_, ?_, ?_, ?_, ?_⟩
    · rw [homes_setStaging]
      exact AList.lookup_erase_ne hm
    · rw [homes_setStaging]
      exact AList.lookup_erase _ _
    · rintro m x ⟨y, t, ht, hx⟩
      rw [lookup_setStaging] at ht
      split at ht
      · obtain ⟨t₀, ht₀, rfl⟩ := Option.map_eq_some_iff.1 ht
        by_cases hm : m = name
        · subst hm
          rw [AList.lookup_insert, Option.some.injEq] at hx
          exact .inr ⟨rfl, hx.symm⟩
        · rw [AList.lookup_insert_ne hm] at hx
          exact .inl ⟨y, t₀, ht₀, hx⟩
      · exact .inl ⟨y, t, ht, hx⟩
    · exact ⟨build, staging, _, by rw [lookup_setStaging, if_pos rfl, hs, Option.map_some],
        AList.lookup_insert _⟩
    · rw [lookup_setStaging, if_pos rfl]
  · cases h

theorem moveIn_eq_some (h : Root.moveIn staging name r = some r') :
    ∃ s build, r.stagings.lookup staging = some s ∧ s.unpacked = some build ∧
      (∀ m, m ≠ name → r'.homes.lookup m = r.homes.lookup m) ∧
      r'.homes.lookup name = some build ∧ ∀ m x, Aside r' m x ↔ Aside r m x := by
  rw [Root.moveIn] at h
  split at h
  · rename_i build hbuild hhome
    obtain ⟨s, hs, hunpacked⟩ := Option.bind_eq_some_iff.1 hbuild
    cases h
    refine ⟨s, build, hs, hunpacked, fun m hm => ?_, ?_, fun m x => ?_⟩
    · rw [homes_setStaging]
      exact AList.lookup_insert_ne hm
    · rw [homes_setStaging]
      exact AList.lookup_insert _
    · exact aside_setUnpacked _ _ none m x
  · cases h

theorem aside_putBack (h : Root.putBack staging name r = some r') {m : String} {x : Build β}
    (hx : Aside r' m x) : Aside r m x := by
  obtain ⟨s, build, hs, hbuild, hhome, rfl⟩ := putBack_eq_some h
  obtain ⟨y, t, ht, hx⟩ := hx
  rw [lookup_setStaging] at ht
  split at ht
  · obtain ⟨t₀, ht₀, rfl⟩ := Option.map_eq_some_iff.1 ht
    refine ⟨y, t₀, ht₀, ?_⟩
    by_cases hm : m = name
    · subst hm
      rw [AList.lookup_erase] at hx
      cases hx
    · rwa [AList.lookup_erase_ne hm] at hx
  · exact ⟨y, t, ht, hx⟩

theorem settled_of_bare (h : ∀ m x, ¬ Aside r m x) : Settled r :=
  fun m x hx => (h m x hx).elim

/-- A build set aside alone comes back if nothing else does. -/
theorem endsLike_setAside (hbare : ∀ m x, ¬ Aside r m x)
    (h : Root.setAside staging name r = some r') : EndsLike r r' := by
  obtain ⟨build, hhome, hothers, hnone, haside, ⟨y, hy⟩, -⟩ := setAside_eq_some h
  intro m o ho
  rw [(settled_of_bare hbare).possible]
  by_cases hm : m = name
  · subst hm
    rw [possible_of_absent hnone] at ho
    rcases ho with ⟨x, hx, rfl⟩ | ⟨hall, -⟩
    · rcases haside m x hx with hx | ⟨-, rfl⟩
      · exact (hbare m x hx).elim
      · exact hhome.symm
    · exact (hall y hy).elim
  · have hnone' : ∀ x, ¬ Aside r' m x := by
      intro x hx
      rcases haside m x hx with hx | ⟨hx, -⟩
      · exact hbare m x hx
      · exact hm hx
    rw [← hothers m hm]
    cases hhome' : r'.homes.lookup m with
    | some x => exact (possible_of_home hhome').1 ho
    | none => simpa [possible_of_absent hhome', hnone'] using ho

/-- The build `b` has taken the name, and only what it replaced is set aside. -/
structure InPlace (b : β) (name : String) (r r' : Root β) : Prop where
  here : r'.homes.lookup name = some (.whole b)
  others : ∀ m, m ≠ name → r'.homes.lookup m = r.homes.lookup m
  aside : ∀ m x, Aside r' m x → m = name

variable {b : β}

/-- How the moves end, from a root with nothing set aside. -/
theorem moves_wp (hbare : ∀ m x, ¬ Aside r m x)
    (hunpacked : ∀ s, r.stagings.lookup staging = some s → s.unpacked = some (.whole b)) :
    wp (moves staging name)
      (fun result r' => (∃ dir, result = .ok dir ∧ InPlace b name r r') ∨
        ∃ e, result = .error e ∧ EndsLike r r' ∧ (isStranded result = false → Settled r'))
      (EndsLike r) r := by
  have hkeeps : EndsLike r r := fun _ _ ho => ho
  have hsettled := settled_of_bare hbare
  rw [moves]
  refine wp_bind (wp_read ?_)
  cases hhome : r.homes.lookup name with
  | none =>
    refine wp_bind (wp_attempt (fun r' hr' => ?_) ?_ hkeeps)
    · obtain ⟨s, build, hs, hbuild, hothers, hhere, haside⟩ := moveIn_eq_some hr'
      rw [hunpacked s hs, Option.some.injEq] at hbuild
      subst hbuild
      refine wp_pure (.inl ⟨name, rfl, hhere, hothers, fun m x hx => ?_⟩)
      exact (hbare m x ((haside m x).1 hx)).elim
    · exact wp_pure (.inr ⟨_, rfl, hkeeps, fun _ => hsettled⟩)
  | some old =>
    refine wp_bind (wp_attempt (fun r₁ hr₁ => ?_) ?_ hkeeps)
    · cases hr₁
      refine wp_bind (wp_attempt (fun r₁ hr₁ => ?_) ?_ hkeeps)
      · obtain ⟨build, -, hothers, -, haside, -, hstaging⟩ := setAside_eq_some hr₁
        have hkeeps₁ := endsLike_setAside hbare hr₁
        have honly : ∀ m x, Aside r₁ m x → m = name := by
          intro m x hx
          rcases haside m x hx with hx | ⟨rfl, -⟩
          · exact (hbare m x hx).elim
          · rfl
        refine wp_bind (wp_attempt (fun r₂ hr₂ => ?_) ?_ hkeeps₁)
        · obtain ⟨s, build', hs, hbuild, hothers₂, hhere, haside₂⟩ := moveIn_eq_some hr₂
          rw [hstaging] at hs
          obtain ⟨s₀, hs₀, rfl⟩ := Option.map_eq_some_iff.1 hs
          have hwhole : build' = .whole b := by
            have hs₀' := hunpacked s₀ hs₀
            simp only at hbuild
            rw [hbuild, Option.some.injEq] at hs₀'
            exact hs₀'
          subst hwhole
          refine wp_pure (.inl ⟨name, rfl, hhere, fun m hm => ?_, fun m x hx => ?_⟩)
          · rw [hothers₂ m hm, hothers m hm]
          · exact honly m x ((haside₂ m x).1 hx)
        · refine wp_bind (wp_attempt (fun r₂ hr₂ => ?_) ?_ hkeeps₁)
          · refine wp_pure (.inr ⟨_, rfl, fun m o ho => ?_, fun _ m x hx => ?_⟩)
            · exact hkeeps₁ m o ((recovers_putBack hr₂).possible m o ho)
            · rw [honly m x (aside_putBack hr₂ hx)]
              obtain ⟨s, build, -, -, -, rfl⟩ := putBack_eq_some hr₂
              simp
          · exact wp_pure (.inr ⟨_, rfl, hkeeps₁, nofun⟩)
      · exact wp_pure (.inr ⟨_, rfl, hkeeps, fun _ => hsettled⟩)
    · exact wp_pure (.inr ⟨_, rfl, hkeeps, fun _ => hsettled⟩)

theorem setUnpacked_spec (h : Root.setUnpacked staging build r = some r') :
    EndsLike r r' ∧ r'.homes = r.homes ∧ (∀ m x, Aside r' m x ↔ Aside r m x) ∧
      ∀ s, r'.stagings.lookup staging = some s → s.unpacked = some build := by
  cases h
  have haside := fun m x => aside_setUnpacked r staging (some build) m x
  refine ⟨fun m o ho => ?_, by rw [homes_setStaging], haside, fun s hs => ?_⟩
  · refine (possible_congr ?_ fun _ x => haside m x).1 ho
    rw [homes_setStaging]
  · rw [lookup_setStaging, if_pos rfl] at hs
    obtain ⟨s₀, -, rfl⟩ := Option.map_eq_some_iff.1 hs
    rfl

/-- How `put_in_place` ends, from a root with nothing set aside. -/
def Placed (b : β) (name : String) (stage : Option Stage) (r : Root β)
    (result : Except InstallError String) (r' : Root β) : Prop :=
  (∃ dir, result = .ok dir ∧ stage ≠ some .dropped ∧ InPlace b name r r') ∨
    ∃ e, result = .error e ∧ EndsLike r r' ∧ (isStranded result = false → Settled r')

theorem putInPlace_wp {engine : String} {stage : Option Stage} (hbare : ∀ m x, ¬ Aside r m x) :
    wp (putInPlace b engine staging name stage)
      (fun answer => Placed b name stage r answer.1) (EndsLike r) r := by
  have hkeeps : EndsLike r r := fun _ _ ho => ho
  rw [putInPlace]
  refine wp_bind (wp_attempt (fun r₁ hr₁ => ?_) ?_ hkeeps)
  · obtain ⟨hkeeps₁, hhomes, haside, hunpacked⟩ := setUnpacked_spec hr₁
    have hbare₁ : ∀ m x, ¬ Aside r₁ m x := fun m x hx => hbare m x ((haside m x).1 hx)
    have hmoves : stage ≠ some .dropped →
        wp (moves staging name) (fun result => Placed b name stage r result) (EndsLike r) r₁ := by
      intro hstage
      refine wp_mono (moves_wp hbare₁ hunpacked) ?_ fun r' hr' m o ho => hkeeps₁ m o (hr' m o ho)
      rintro result r' (⟨dir, hok, hin⟩ | ⟨e, herr, hkeeps', hsettled⟩)
      · refine .inl ⟨dir, hok, hstage, hin.here, fun m hm => ?_, hin.aside⟩
        rw [hin.others m hm, hhomes]
      · exact .inr ⟨e, herr, fun m o ho => hkeeps₁ m o (hkeeps' m o ho), hsettled⟩
    cases stage with
    | none => exact wp_bind (wp_mono (hmoves (by simp)) (fun _ _ h => wp_pure h) fun _ h => h)
    | some stage =>
      cases stage with
      | dropped =>
        exact wp_pure (.inr ⟨_, rfl, hkeeps₁, fun _ => settled_of_bare hbare₁⟩)
      | going | committing | landed =>
        refine wp_bind (wp_mono (hmoves (by simp)) (fun result r' h => ?_) fun _ h => h)
        cases result with
        | ok dir => exact wp_pure h
        | error e => exact wp_pure h
  · exact wp_pure (.inr ⟨_, rfl, hkeeps, fun _ => settled_of_bare hbare⟩)

/-- The build `b` has taken the name, and builds it supersedes may be gone, or in parts. -/
structure Retired (op : Install β) (b : β) (r r' : Root β) : Prop where
  here : r'.homes.lookup op.name = some (.whole b)
  others : ∀ m, m ≠ op.name → r'.homes.lookup m = r.homes.lookup m ∨
    ((r'.homes.lookup m = none ∨ r'.homes.lookup m = some .part) ∧
      ∃ x, r.homes.lookup m = some x ∧ op.supersedes m x)
  aside : ∀ m x, Aside r' m x → m = op.name

/-- A superseded build that is removed, or of which a part is left. -/
theorem Retired.remove {other : String} {old : Build β} (h : Retired op b r r')
    (hne : other ≠ op.name) (hold : r'.homes.lookup other = some old)
    (hsuper : op.supersedes other old) (homes : AList fun _ : String => Build β)
    (hsame : ∀ m, m ≠ other → homes.lookup m = r'.homes.lookup m)
    (hgone : homes.lookup other = none ∨ homes.lookup other = some .part) :
    Retired op b r { r' with homes := homes } := by
  refine ⟨?_, fun m hm => ?_, h.aside⟩
  · rw [hsame _ hne.symm, h.here]
  · by_cases hmo : m = other
    · subst hmo
      refine .inr ⟨hgone, ?_⟩
      rcases h.others m hm with hkept | ⟨-, hwas⟩
      · exact ⟨old, by rw [← hkept, hold], hsuper⟩
      · exact hwas
    · simp only [hsame m hmo]
      exact h.others m hm

theorem retire_wp (others : List String) :
    ∀ r' : Root β, Retired op b r r' →
      wp (retire op others) (fun _ => Retired op b r) (Retired op b r) r' := by
  induction others with
  | nil => exact fun r' h => wp_pure h
  | cons other rest ih =>
    intro r' h
    rw [retire]
    refine wp_bind (wp_read ?_)
    cases hsuper : other != op.name && (r'.homes.lookup other).any (op.supersedes other) with
    | false => exact ih r' h
    | true =>
      rw [Bool.and_eq_true, bne_iff_ne] at hsuper
      obtain ⟨old, hold, hsupersedes⟩ := (Option.any_eq_true _ _).1 hsuper.2
      have hremoved := h.remove hsuper.1 hold hsupersedes (r'.homes.erase other)
        (fun m hm => AList.lookup_erase_ne hm) (.inl (AList.lookup_erase _ _))
      have hstopped := h.remove hsuper.1 hold hsupersedes (r'.homes.insert other .part)
        (fun m hm => AList.lookup_insert_ne hm) (.inr (AList.lookup_insert _))
      exact wp_bind (wp_removal (ih _ hremoved) (ih r' h) (fun _ => ih _ hstopped) h
        fun _ => hstopped)

theorem Retired.settled (h : Retired op b r r') : Settled r' := by
  intro m x hx
  rw [h.aside m x hx]
  exact AList.lookup_isSome.1 (by rw [h.here]; rfl)

theorem Retired.landed (hbare : ∀ m x, ¬ Aside r m x) (hbuild : op.build = some b)
    (hstage : op.stage ≠ some .dropped) (h : Retired op b r r') : Landed op r r' := by
  refine ⟨hstage, ⟨b, hbuild, fun o ho => ?_⟩, fun m hm o ho => ?_⟩
  · rw [h.settled.possible.1 ho, h.here]
  · rw [h.settled.possible] at ho
    subst ho
    rcases h.others m hm with hkept | ⟨hgone, x, hx, hsuper⟩
    · exact .inl ((settled_of_bare hbare).possible.2 hkept)
    · exact .inr ⟨hgone, x, (settled_of_bare hbare).possible.2 hx.symm, hsuper⟩

theorem installInto_wp (hbare : ∀ m x, ¬ Aside r m x) :
    wp (installInto op)
      (fun result r' => Ends op r r' ∧ (isStranded result = false → Settled r'))
      (Ends op r) r := by
  have hkeeps : EndsLike r r := fun _ _ ho => ho
  have hsettled := settled_of_bare hbare
  rw [installInto]
  refine wp_bind (wp_attempt (fun r₁ hr₁ => ?_) ?_ (.inl hkeeps))
  · obtain ⟨hkeeps₁, hhomes, haside, -⟩ := setUnpacked_spec hr₁
    have hbare₁ : ∀ m x, ¬ Aside r₁ m x := fun m x hx => hbare m x ((haside m x).1 hx)
    cases hbuild : op.build with
    | none => exact wp_pure ⟨.inl hkeeps₁, fun _ => settled_of_bare hbare₁⟩
    | some b =>
      refine wp_bind (wp_mono (putInPlace_wp hbare₁) ?_
        fun r' hr' => .inl fun m o ho => hkeeps₁ m o (hr' m o ho))
      rintro ⟨result, stage⟩ r' (⟨dir, hok, hstage, hin⟩ | ⟨e, herr, hkeeps', hsettled'⟩)
      · have hretired : Retired op b r₁ r' :=
          ⟨hin.here, fun m hm => .inl (hin.others m hm), hin.aside⟩
        have hends : ∀ r', Retired op b r₁ r' → Ends op r r' := fun r' hr' =>
          Ends.of_endsLike hkeeps₁ (.inr (hr'.landed hbare₁ hbuild hstage))
        simp only at hok
        subst hok
        refine wp_bind (wp_readEntry (fun entry => ?_) (hends r' hretired))
        cases entry with
        | false => exact wp_pure ⟨hends r' hretired, fun _ => hretired.settled⟩
        | true =>
          refine wp_bind (wp_read (wp_bind (wp_mono (retire_wp _ r' hretired)
            (fun _ r'' h => ?_) hends)))
          exact wp_pure ⟨hends r'' h, fun _ => h.settled⟩
      · simp only at herr hsettled'
        subst herr
        exact wp_pure ⟨.inl fun m o ho => hkeeps₁ m o (hkeeps' m o ho), hsettled'⟩
  · exact wp_pure ⟨.inl hkeeps, fun _ => hsettled⟩

theorem makeStaging_spec (hnone : r.stagings = ∅) (h : Root.makeStaging staging r = some r') :
    EndsLike r r' ∧ ∀ m x, ¬ Aside r' m x := by
  rw [Root.makeStaging, hnone, AList.lookup_empty, Option.some.injEq] at h
  have hbare : ∀ m x, ¬ Aside r' m x := by
    rintro m x ⟨y, s, hs, hx⟩
    rw [← h] at hs
    simp only at hs
    by_cases hy : y = staging
    · subst hy
      rw [AList.lookup_insert, Option.some.injEq] at hs
      subst hs
      cases hx
    · rw [AList.lookup_insert_ne hy] at hs
      cases hs
  refine ⟨fun m o ho => ?_, hbare⟩
  rw [possible_of_no_staging hnone, (settled_of_bare hbare).possible.1 ho, ← h]

/-- What an install leaves, wherever it ends. -/
theorem installFrom_wp (op : Install β) (r : Root β) :
    wp (installFrom op) (fun _ => Ends op r) (Ends op r) r := by
  rw [installFrom]
  refine wp_bind (wp_mono (recover_wp r) ?_ fun r' hr' => .inl hr'.possible)
  rintro result r₁ ⟨hr₁, hnone⟩
  cases result with
  | error e => exact wp_pure (.inl hr₁.possible)
  | ok u =>
    refine wp_bind (wp_attempt (fun r₂ hr₂ => ?_) (wp_pure (.inl hr₁.possible)) (.inl hr₁.possible))
    obtain ⟨hkeeps₂, hbare⟩ := makeStaging_spec (hnone rfl) hr₂
    have hkeeps : EndsLike r r₂ := fun m o ho => hr₁.possible m o (hkeeps₂ m o ho)
    refine wp_bind (wp_mono (installInto_wp hbare) ?_ fun r' hr' => Ends.of_endsLike hkeeps hr')
    rintro result r₃ ⟨hends, hsettled⟩
    have hends₃ := Ends.of_endsLike hkeeps hends
    cases hclean : op.drop = .never && !isStranded result with
    | false => exact wp_pure hends₃
    | true =>
      rw [Bool.and_eq_true, Bool.not_eq_true'] at hclean
      have hpending : Pending r₃ op.staging [] := (hsettled hclean.2).pending
      refine wp_bind (wp_removal (wp_pure ?_) (wp_pure hends₃) (fun left => wp_pure ?_) hends₃
        fun left => ?_)
      · exact hends₃.recovers (recovers_erase hpending)
      · exact hends₃.recovers (recovers_damaged left hpending)
      · exact hends₃.recovers (recovers_damaged left hpending)

/-- An install dropped before it commits moves nothing. -/
theorem putInPlace_dropped_wp (b : β) (engine : String) :
    wp (putInPlace b engine staging name (some Stage.going.drop))
      (fun _ r' => r'.homes = r.homes ∧ ∀ m x, Aside r' m x ↔ Aside r m x)
      (fun r' => r'.homes = r.homes ∧ ∀ m x, Aside r' m x ↔ Aside r m x) r := by
  have hsame : r.homes = r.homes ∧ ∀ m x, Aside r m x ↔ Aside r m x :=
    ⟨rfl, fun _ _ => Iff.rfl⟩
  rw [putInPlace]
  refine wp_bind (wp_attempt (fun r₁ hr₁ => ?_) (wp_pure hsame) hsame)
  obtain ⟨-, hhomes, haside, -⟩ := setUnpacked_spec hr₁
  exact wp_pure ⟨hhomes, haside⟩

end

/-! ## Crash atomicity -/

/-- What is run on the root: an install or a recovery. -/
inductive Action (β : Type)
  | install (op : Install β)
  | recover

/-- The root an action leaves, whether it ends or is cut off. -/
def Action.leaves : Action β → List Verdict → Root β → Root β
  | install op, verdicts, r => (installFrom op r verdicts).state
  | recover, verdicts, r => (Engines.recover r verdicts).state

/-- The root a sequence of actions leaves. -/
def after (r : Root β) (actions : List (Action β × List Verdict)) : Root β :=
  actions.foldl (fun r action => action.1.leaves action.2 r) r

theorem Ends.interrupted {op : Install β} {r r' : Root β} (h : Ends op r r')
    (interrupted : List (List Verdict)) :
    Ends op r (after r' (interrupted.map fun verdicts => (.recover, verdicts))) := by
  induction interrupted generalizing r' with
  | nil => exact h
  | cons verdicts rest ih =>
    refine ih (h.recovers ?_)
    have hwp : wp recover (fun _ => Recovers r') (Recovers r') r' :=
      wp_mono (recover_wp r') (fun _ _ hr => hr.1) fun _ hr => hr
    exact hwp.state verdicts

/-- Whatever the root held and whatever was run on it before: when an install has ended, or was
cut off at any call, and any number of recoveries after it were too, a recovery that succeeds
leaves every name as it could be before the install, or else the new build in place of its
name and every other name as before, but for the builds the new one supersedes. No staging
directory is left, recovering again does nothing, and an install dropped before it commits
moves nothing. -/
theorem install_crash_atomic (found : Root β) (earlier : List (Action β × List Verdict))
    (op : Install β) (verdicts : List Verdict) (interrupted : List (List Verdict))
    (finishing rest : List Verdict) (last : Root β)
    (hrecover : recover (after (after found (earlier ++ [(Action.install op, verdicts)]))
      (interrupted.map fun verdicts => (.recover, verdicts))) finishing =
        .done (.ok ()) last rest) :
    last.stagings = ∅ ∧
    ((∀ name, Possible (after found earlier) name (last.homes.lookup name)) ∨
      op.stage ≠ some .dropped ∧
      (∃ b, op.build = some b ∧ last.homes.lookup op.name = some (.whole b)) ∧
      ∀ name, name ≠ op.name → Possible (after found earlier) name (last.homes.lookup name) ∨
        ((last.homes.lookup name = none ∨ last.homes.lookup name = some .part) ∧
          ∃ x, Possible (after found earlier) name (some x) ∧ op.supersedes name x)) ∧
    (∀ again, (recover last again).state = last) ∧
    recover last [] = .done (.ok ()) last [] ∧
    ∀ (r : Root β) (b : β) (engine staging name : String) (verdicts : List Verdict),
      let r' := (putInPlace b engine staging name (some Stage.going.drop) r verdicts).state
      r'.homes = r.homes ∧ ∀ m x, Aside r' m x ↔ Aside r m x := by
  have hcut : after found (earlier ++ [(Action.install op, verdicts)]) =
      (installFrom op (after found earlier) verdicts).state := by
    rw [after, List.foldl_append]
    rfl
  rw [hcut] at hrecover
  have hinstall := (installFrom_wp op (after found earlier)).state verdicts
  have hends := hinstall.interrupted interrupted
  obtain ⟨hlast, hnone⟩ := (recover_wp _).done hrecover
  have hstagings := hnone rfl
  have hpossible : ∀ name, Possible last name (last.homes.lookup name) :=
    fun name => (possible_of_no_staging hstagings).2 rfl
  refine ⟨hstagings, ?_, fun again => (recover_wp_of_no_staging hstagings).state again,
    recover_of_no_staging hstagings, fun r b engine staging name verdicts => ?_⟩
  · rcases hends.recovers hlast with hkeeps | hlanded
    · exact .inl fun name => hkeeps name _ (hpossible name)
    · obtain ⟨b, hb, hin⟩ := hlanded.installed
      exact .inr ⟨hlanded.committed, ⟨b, hb, hin _ (hpossible _)⟩,
        fun name hname => hlanded.others name hname _ (hpossible name)⟩
  · exact (putInPlace_dropped_wp b engine).state verdicts

/-- A root with one build in it. -/
def oneBuild : Root Nat where
  homes := AList.singleton "b1-metal" (.whole 1)
  stagings := ∅

/-- An install of the build `2` under `name`, every other build being of the same source. -/
def requested (name : String) : Install Nat where
  build := some 2
  engine := "llama.cpp"
  name := name
  staging := ".staging-1"
  supersedes := fun _ _ => true
  droppable := true
  drop := .never

/-- Cut off between the two renames, and then once more in a recovery, the name is empty and
gets its build back. -/
theorem reinstall_cut_off_is_undone :
    let verdicts := List.replicate 6 Verdict.works ++ [Verdict.crashes]
    let cut := after oneBuild [(.install (requested "b1-metal"), verdicts)]
    cut.homes.lookup "b1-metal" = none ∧
      ∃ last rest, recover (after cut [(.recover, [.fails])]) [] = .done (.ok ()) last rest ∧
        last.stagings = ∅ ∧ last.homes.lookup "b1-metal" = some (.whole 1) := by
  intro verdicts cut
  refine ⟨by decide +kernel, _, _, rfl, ?_, by decide +kernel⟩
  exact (install_crash_atomic oneBuild [] (requested "b1-metal") verdicts [[.fails]] [] [] _
    rfl).1

/-- An install that completes has removed a build of another name. -/
theorem newer_build_removes_older :
    let cut := after oneBuild [(.install (requested "b2-metal"), [])]
    oneBuild.homes.lookup "b1-metal" = some (.whole 1) ∧
      ∃ last rest, recover cut [] = .done (.ok ()) last rest ∧
        last.homes.lookup "b2-metal" = some (.whole 2) ∧
        last.homes.lookup "b1-metal" = none := by
  intro cut
  exact ⟨by decide +kernel, _, _, rfl, by decide +kernel, by decide +kernel⟩

end Hedos.Engines
