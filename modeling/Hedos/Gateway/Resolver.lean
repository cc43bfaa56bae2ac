import Hedos.Discovery.Service
import Hedos.Gateway.Streams

/-!
# Calling a listed model by its name

`resolve` of `gateway/src/resolver.rs`, `GatewayScopes` (`scopes.rs`), `wire_id` of
`kernel/src/records/model_record.rs` and the names `GET /v1/models` gives
(`gateway/src/handlers/models.rs`).

A name is looked for as an id first and then tier by tier, so a listed name finds its record when
it names no other record in an earlier tier or in its own; otherwise it finds the record of an
earlier tier, or is ambiguous between those of the tier it is found in (`resolve_wireId_iff`).
-/

namespace Hedos.Gateway

open Hedos.Kernel (ModelState ModelRecord)
open Hedos.Discovery (Record Details Capability)

variable {ν : Type}

/-! ## Names -/

/-- The alias if there is one that is not empty, otherwise the name. -/
def displayName (record : Record ν) : String :=
  match record.details.displayAlias with
  | some name => if name ≠ "" then name else record.details.name
  | none => record.details.name

def wireId (record : Record ν) : String := displayName record

def latestTag : List Char := ":latest".toList

/-- Lowercased, without a trailing `:latest`; `str::to_lowercase` is a parameter. -/
def normalizedTag (toLowercase : String → String) (name : String) : String :=
  let lowered := toLowercase name
  if latestTag <:+ lowered.toList then
    String.ofList (lowered.toList.take (lowered.toList.length - latestTag.length))
  else lowered

/-! ## Scopes -/

/-- The models and capabilities a client may use; `none` is no restriction. -/
structure GatewayScopes where
  models : Option (List String) := none
  capabilities : Option (List String) := none
deriving DecidableEq

namespace GatewayScopes

def permitsModel (scopes : GatewayScopes) (modelId : String) : Bool :=
  match scopes.models with
  | none => true
  | some models => models.any (· == modelId)

def filter (scopes : GatewayScopes) (shelf : List (Record ν)) : List (Record ν) :=
  shelf.filter fun record => scopes.permitsModel record.id

end GatewayScopes

/-! ## Listings -/

def readyModels (shelf : List (Record ν)) : List (Record ν) :=
  shelf.filter fun record => record.state == .ready

/-- The ids of `GET /v1/models`. -/
def openAIModels (scopes : GatewayScopes) (shelf : List (Record ν)) : List String :=
  (scopes.filter (readyModels shelf)).map wireId

/-! ## Resolving -/

def ambiguous (requested : String) (candidates : List (Record ν)) : GatewayError where
  kind := .badRequest
  message := requested ++ " matches more than one model — use an id: " ++
    ", ".intercalate ((candidates.map ModelRecord.id).mergeSort fun a b => decide (a ≤ b))
  code := none

def noMatch (requested : String) : GatewayError where
  kind := .notFound
  message := "no ready model matches " ++ requested
  code := none

/-- The first tier with a candidate decides. -/
def firstTier (requested : String) : List (List (Record ν)) → Except GatewayError (Record ν)
  | [] => .error (noMatch requested)
  | candidates :: tiers =>
    if 1 < candidates.length then .error (ambiguous requested candidates)
    else
      match candidates.head? with
      | some first => .ok first
      | none => firstTier requested tiers

/-- The records a request may be for. -/
def candidatesOf (shelf : List (Record ν)) (scopes : GatewayScopes) : List (Record ν) :=
  (shelf.filter fun record => scopes.permitsModel record.id).filter fun record =>
    record.state == .ready

def resolve (toLowercase : String → String) (requested : String) (shelf : List (Record ν))
    (scopes : GatewayScopes) : Except GatewayError (Record ν) :=
  let ready := candidatesOf shelf scopes
  match ready.find? (·.id == requested) with
  | some exact => .ok exact
  | none =>
    firstTier requested
      [ready.filter (·.details.displayAlias == some requested),
        ready.filter (·.details.name == requested),
        ready.filter (eqIgnoreAsciiCase ·.details.name.toList requested.toList),
        ready.filter fun record =>
          normalizedTag toLowercase record.details.name == normalizedTag toLowercase requested]

/-! ## What a listed name finds -/

/-- A record is listed by its alias, or else by its name. -/
theorem wireId_cases (record : Record ν) :
    record.details.displayAlias = some (wireId record) ∨ record.details.name = wireId record := by
  unfold wireId displayName
  split
  · rename_i name hname
    split
    · exact .inl hname
    · exact .inr rfl
  · exact .inr rfl

/-- A tier with candidates decides: it gives one of them, or tells them apart by their ids. -/
theorem firstTier_cons {candidates : List (Record ν)} (hne : candidates ≠ []) (requested : String)
    (tiers : List (List (Record ν))) :
    firstTier requested (candidates :: tiers) = .error (ambiguous requested candidates) ∧
        1 < candidates.length ∨
      ∃ record, candidates = [record] ∧ firstTier requested (candidates :: tiers) = .ok record := by
  unfold firstTier
  match candidates with
  | [] => exact absurd rfl hne
  | [record] => exact .inr ⟨record, rfl, rfl⟩
  | first :: second :: rest =>
    have hlength : 1 < (first :: second :: rest).length := by simp
    exact .inl ⟨if_pos hlength, hlength⟩

@[simp] theorem firstTier_nil (requested : String) (tiers : List (List (Record ν))) :
    firstTier requested ([] :: tiers) = firstTier requested tiers := rfl

section

variable {front back : List (Record ν)} {record : Record ν} {p : Record ν → Bool}
variable (requested : String)

/-- A tier with the record finds it exactly when no other record is in the tier. -/
theorem firstTier_eq_ok_iff (hrecord : p record) (tiers : List (List (Record ν))) :
    firstTier requested ((front ++ record :: back).filter p :: tiers) = .ok record ↔
      ∀ other ∈ front ++ back, ¬ p other := by
  have hfilter : (front ++ record :: back).filter p =
      front.filter p ++ record :: back.filter p := by
    rw [List.filter_append, List.filter_cons_of_pos hrecord]
  have hne : (front ++ record :: back).filter p ≠ [] := by simp [hfilter]
  have hothers : (∀ other ∈ front ++ back, ¬ p other) ↔
      front.filter p = [] ∧ back.filter p = [] := by
    rw [← List.filter_eq_nil_iff, List.filter_append, List.append_eq_nil_iff]
  rw [hothers]
  constructor
  · intro h
    rcases firstTier_cons hne requested tiers with ⟨herror, -⟩ | ⟨only, honly, -⟩
    · rw [h] at herror
      cases herror
    · have hlength := congrArg List.length (hfilter.symm.trans honly)
      simp only [List.length_append, List.length_cons, List.length_nil] at hlength
      exact ⟨List.length_eq_zero_iff.1 (by omega), List.length_eq_zero_iff.1 (by omega)⟩
  · rintro ⟨hfront, hback⟩
    rw [hfilter, hfront, hback]
    rfl

/-- A tier with a record is never passed by. -/
theorem firstTier_error (hrecord : p record) (tiers : List (List (Record ν))) {error : GatewayError}
    (h : firstTier requested ((front ++ record :: back).filter p :: tiers) = .error error) :
    error.kind = .badRequest := by
  have hne : (front ++ record :: back).filter p ≠ [] :=
    List.ne_nil_of_mem (List.mem_filter.2 ⟨by simp, hrecord⟩)
  rcases firstTier_cons hne requested tiers with ⟨herror, -⟩ | ⟨only, -, hok⟩
  · rw [herror] at h
    rw [← Except.error.inj h]
    rfl
  · rw [hok] at h
    cases h

/-- A record with no alias of that name is not found when another has it as its alias. -/
theorem firstTier_other (hrecord : ¬ p record)
    (tiers : List (List (Record ν))) (hother : ∃ other ∈ front ++ back, p other) :
    firstTier requested ((front ++ record :: back).filter p :: tiers) ≠ .ok record ∧
      ∀ error, firstTier requested ((front ++ record :: back).filter p :: tiers) = .error error →
        error.kind = .badRequest := by
  obtain ⟨other, hmem, hp⟩ := hother
  have hne : (front ++ record :: back).filter p ≠ [] := by
    refine List.ne_nil_of_mem (List.mem_filter.2 ⟨?_, hp⟩)
    rcases List.mem_append.1 hmem with hmem | hmem
    · exact List.mem_append_left _ hmem
    · exact List.mem_append_right _ (.tail _ hmem)
  rcases firstTier_cons hne requested tiers with ⟨herror, -⟩ | ⟨only, honly, hok⟩
  · rw [herror]
    exact ⟨nofun, fun error h => by rw [← Except.error.inj h]; rfl⟩
  · rw [hok]
    refine ⟨fun h => hrecord ?_, nofun⟩
    obtain rfl := Except.ok.inj h
    have hmem : only ∈ (front ++ only :: back).filter p := by rw [honly]; exact .head _
    exact (List.mem_filter.1 hmem).2

end

/-- The records of a tier, when the tier of a listed name is ambiguous: those with the alias, or,
where there are none, those with the name. -/
def AmbiguousTier (candidates : List (Record ν)) (requested : String) (tier : List (Record ν)) :
    Prop :=
  1 < tier.length ∧
    (tier = candidates.filter (·.details.displayAlias == some requested) ∨
      candidates.filter (·.details.displayAlias == some requested) = [] ∧
        tier = candidates.filter (·.details.name == requested))

/-- A listed name finds its record, one with that id, or one with that alias when its own record is
listed by its name; or it is ambiguous. -/
theorem resolve_wireId_cases (toLowercase : String → String) {scopes : GatewayScopes}
    {shelf : List (Record ν)} {record : Record ν} (h : record ∈ candidatesOf shelf scopes) :
    resolve toLowercase (wireId record) shelf scopes = .ok record ∨
      (∃ other ∈ candidatesOf shelf scopes,
        resolve toLowercase (wireId record) shelf scopes = .ok other ∧
          (other.id = wireId record ∨
            record.details.displayAlias ≠ some (wireId record) ∧
              other.details.displayAlias = some (wireId record))) ∨
      ∃ tier, AmbiguousTier (candidatesOf shelf scopes) (wireId record) tier ∧
        resolve toLowercase (wireId record) shelf scopes =
          .error (ambiguous (wireId record) tier) := by
  unfold resolve
  simp only
  cases hid : (candidatesOf shelf scopes).find? (·.id == wireId record) with
  | some exact =>
    exact .inr (.inl ⟨exact, List.mem_of_find?_eq_some hid, rfl,
      .inl (by simpa using List.find?_some hid)⟩)
  | none =>
    simp only
    by_cases halias : (candidatesOf shelf scopes).filter
        (·.details.displayAlias == some (wireId record)) = []
    · -- no alias, so the record is listed by its name and is in the second tier
      have hnot : ¬ record.details.displayAlias = some (wireId record) := by
        simpa using List.filter_eq_nil_iff.1 halias record h
      have hname := (wireId_cases record).resolve_left hnot
      have hmem : record ∈ (candidatesOf shelf scopes).filter
          (·.details.name == wireId record) := List.mem_filter.2 ⟨h, by simpa using hname⟩
      rw [halias, firstTier_nil]
      rcases firstTier_cons (List.ne_nil_of_mem hmem) (wireId record) _ with
        ⟨herror, hlength⟩ | ⟨only, honly, hok⟩
      · exact .inr (.inr ⟨_, ⟨hlength, .inr ⟨halias, rfl⟩⟩, herror⟩)
      · rw [honly, List.mem_singleton] at hmem
        exact .inl (by rw [hok, hmem])
    · rcases firstTier_cons halias (wireId record) _ with ⟨herror, hlength⟩ | ⟨only, honly, hok⟩
      · exact .inr (.inr ⟨_, ⟨hlength, .inl rfl⟩, herror⟩)
      · have hmem := List.mem_filter.1 (honly ▸ List.mem_singleton_self only)
        rw [hok]
        by_cases hrecord : record.details.displayAlias = some (wireId record)
        · have hsame : record ∈ [only] := honly ▸ List.mem_filter.2 ⟨h, by simpa using hrecord⟩
          exact .inl (by rw [List.mem_singleton.1 hsame])
        · exact .inr (.inl ⟨only, hmem.1, rfl, .inr ⟨hrecord, by simpa using hmem.2⟩⟩)

/-- The record at some place of those a request may be for is found by its listed name exactly when
it is the first with that id, or no record has that id, no other has it as its alias and, unless the
record is listed by its alias, no other has it as its name. Otherwise an earlier tier finds another
record, or the name is refused as ambiguous with the ids of its tier. -/
theorem resolve_wireId_iff (toLowercase : String → String) {scopes : GatewayScopes}
    {shelf front back : List (Record ν)} {record : Record ν}
    (h : candidatesOf shelf scopes = front ++ record :: back) :
    (resolve toLowercase (wireId record) shelf scopes = .ok record ↔
      (candidatesOf shelf scopes).find? (·.id == wireId record) = some record ∨
        (∀ other ∈ candidatesOf shelf scopes, other.id ≠ wireId record) ∧
          ∀ other ∈ front ++ back, other.details.displayAlias ≠ some (wireId record) ∧
            (record.details.displayAlias = some (wireId record) ∨
              other.details.name ≠ wireId record)) ∧
      (∀ error, resolve toLowercase (wireId record) shelf scopes = .error error →
        error.kind = .badRequest) ∧
      (resolve toLowercase (wireId record) shelf scopes ≠ .ok record →
        (∃ other ∈ candidatesOf shelf scopes,
          resolve toLowercase (wireId record) shelf scopes = .ok other ∧
            (other.id = wireId record ∨
              record.details.displayAlias ≠ some (wireId record) ∧
                other.details.displayAlias = some (wireId record))) ∨
        ∃ tier, AmbiguousTier (candidatesOf shelf scopes) (wireId record) tier ∧
          resolve toLowercase (wireId record) shelf scopes =
            .error (ambiguous (wireId record) tier)) := by
  rw [← and_assoc]
  refine ⟨?_, (resolve_wireId_cases toLowercase (by rw [h]; simp)).resolve_left⟩
  unfold resolve
  simp only
  cases hid : (candidatesOf shelf scopes).find? (·.id == wireId record) with
  | some exact =>
    have hexact : exact.id = wireId record := by simpa using List.find?_some hid
    refine ⟨⟨fun hok => .inl (by rw [Except.ok.inj hok]), ?_⟩, nofun⟩
    rintro (hsome | ⟨hnone, -⟩)
    · rw [Option.some.inj hsome]
    · exact absurd hexact (hnone exact (List.mem_of_find?_eq_some hid))
  | none =>
    have hnone : ∀ other ∈ candidatesOf shelf scopes, other.id ≠ wireId record := by
      intro other hother
      simpa using List.find?_eq_none.1 hid other hother
    simp only [h]
    by_cases hrecord : record.details.displayAlias = some (wireId record)
    · have hp : (record.details.displayAlias == some (wireId record)) = true := by
        simpa using hrecord
      refine ⟨?_, fun error => firstTier_error (wireId record) hp _⟩
      rw [firstTier_eq_ok_iff (wireId record) hp]
      constructor
      · intro hothers
        exact .inr ⟨h ▸ hnone, fun other hother =>
          ⟨by simpa using hothers other hother, .inl hrecord⟩⟩
      · rintro (hsome | ⟨-, hothers⟩) other hother
        · cases hsome
        · simpa using (hothers other hother).1
    · have hname : record.details.name = wireId record := (wireId_cases record).resolve_left hrecord
      have hp : ¬ (record.details.displayAlias == some (wireId record)) = true := by
        simpa using hrecord
      by_cases halias : ∃ other ∈ front ++ back,
          (other.details.displayAlias == some (wireId record)) = true
      · obtain ⟨hne, herror⟩ := firstTier_other (wireId record) hp _ halias
        refine ⟨⟨fun hok => absurd hok hne, ?_⟩, herror⟩
        obtain ⟨other, hother, hequal⟩ := halias
        rintro (hsome | ⟨-, hothers⟩)
        · cases hsome
        · exact absurd (by simpa using hequal) (hothers other hother).1
      · push Not at halias
        have hempty : (front ++ record :: back).filter
            (·.details.displayAlias == some (wireId record)) = [] := by
          refine List.filter_eq_nil_iff.2 fun other hother => ?_
          rcases List.mem_append.1 hother with hother | hother
          · exact halias other (List.mem_append_left _ hother)
          · rcases List.mem_cons.1 hother with rfl | hother
            · exact hp
            · exact halias other (List.mem_append_right _ hother)
        have hp' : (record.details.name == wireId record) = true := by simpa using hname
        rw [hempty]
        simp only [firstTier_nil]
        refine ⟨?_, fun error => firstTier_error (wireId record) hp' _⟩
        rw [firstTier_eq_ok_iff (wireId record) hp']
        constructor
        · intro hothers
          exact .inr ⟨h ▸ hnone, fun other hother =>
            ⟨by simpa using halias other hother, .inr (by simpa using hothers other hother)⟩⟩
        · rintro (hsome | ⟨-, hothers⟩) other hother
          · cases hsome
          · simpa using (hothers other hother).2.resolve_left hrecord

/-! ## A name that two models share -/

def sampleDetails (name path : String) : Details ℕ where
  name := name
  modality := ⟨"text"⟩
  capabilities := [⟨"chat"⟩]
  source := { kind := .ollama, path := path }
  registeredAt := 0

def sampleRecord (id name path : String) : Record ℕ where
  id := id
  state := .ready
  footprintBytes := none
  legacyFootprintMb := none
  details := sampleDetails name path

/-- Models with different names are found. -/
theorem resolve_wireId_of_two :
    resolve id "qwen3" [sampleRecord "a" "llama3" "/a", sampleRecord "b" "qwen3" "/b"] {} =
      .ok (sampleRecord "b" "qwen3" "/b") :=
  (@resolve_wireId_iff ℕ id {} _ [sampleRecord "a" "llama3" "/a"] []
    (sampleRecord "b" "qwen3" "/b") rfl).1.2 (.inr (by decide))

/-- Models that share a name are not, though both are listed by it. -/
theorem resolve_shared_name :
    openAIModels {} [sampleRecord "a" "llama3" "/a", sampleRecord "b" "llama3" "/b"] =
        ["llama3", "llama3"] ∧
      resolve id (wireId (sampleRecord "a" "llama3" "/a"))
          [sampleRecord "a" "llama3" "/a", sampleRecord "b" "llama3" "/b"] {} ≠
        .ok (sampleRecord "a" "llama3" "/a") := by
  refine ⟨rfl, fun h => ?_⟩
  have herror : resolve id (wireId (sampleRecord "a" "llama3" "/a"))
      [sampleRecord "a" "llama3" "/a", sampleRecord "b" "llama3" "/b"] {} =
        .error (ambiguous "llama3" [sampleRecord "a" "llama3" "/a",
          sampleRecord "b" "llama3" "/b"]) := rfl
  rw [herror] at h
  cases h

end Hedos.Gateway
