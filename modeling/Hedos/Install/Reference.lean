import Mathlib
import Hedos.Kernel.Time

/-!
# Typed references to Hugging Face repos

`kernel/src/install/reference.rs`: `hugging_face_repo` and what it reads a reference with.

* `segments` are the parts of the path a reference is read as, once a scheme, a host in front and a
  query are dropped;
* a longer path is accepted from a reference that names a host anywhere, and the organisation may
  be a host itself; where neither is so, longer paths come from links only and what is returned is
  read again as itself (`read_soundly_iff`).

The lower case of a text is a parameter.
-/

namespace Hedos.Install.Reference

open Hedos.Kernel.Time (trimEndMatches)

/-! ## Reading a reference -/

def huggingFaceHosts : List Text :=
  ["huggingface.co/", "www.huggingface.co/", "hf.co/"].map String.toList

def huggingFaceSubpaths : List Text :=
  ["tree", "blob", "resolve", "commit", "commits", "discussions", "blame", "raw"].map String.toList

def huggingFaceReservedRoots : List Text :=
  ["datasets", "spaces", "collections", "models", "blog", "docs", "papers", "tasks", "posts",
    "pricing", "settings", "organizations", "learn", "chat"].map String.toList

/-- The text behind a beginning, in any ASCII case; the beginnings are ASCII. -/
def afterAsciiPrefix (text beginning : Text) : Option Text :=
  if (text.take beginning.length).map Char.toLower = beginning.map Char.toLower then
    some (text.drop beginning.length)
  else none

def cleaned (raw : Text) : Option Text :=
  let text := Upstream.trim raw
  if text = [] ∨ text.any Upstream.isWhitespace then none
  else
    -- each scheme is looked for in what the one before left
    let text := ["https://", "http://"].foldl
      (fun text scheme => (afterAsciiPrefix text scheme.toList).getD text) text
    let text := text.takeWhile fun c => c != '?' && c != '#'
    let text := trimEndMatches '/' text
    if text = [] then none else some text

def stripped (text : Text) (hosts : List Text) : Text :=
  (hosts.findSome? (afterAsciiPrefix text)).getD text

def isHuggingFaceLink (raw : Text) : Bool :=
  (cleaned raw).any fun text => huggingFaceHosts.any fun host => (afterAsciiPrefix text host).isSome

variable (toLowercase : Text → Text)

/-- The reference names a host somewhere. -/
def fromHfHost (raw : Text) : Prop :=
  "hf.co".toList <:+: toLowercase raw ∨ "huggingface.co".toList <:+: toLowercase raw

instance (raw : Text) : Decidable (fromHfHost toLowercase raw) :=
  inferInstanceAs (Decidable (_ ∨ _))

/-- What is behind the name may stand there. -/
def restOk (raw : Text) : List Text → Prop
  | [] => True
  | next :: _ =>
    fromHfHost toLowercase raw ∧ (next = [] ∨ toLowercase next ∈ huggingFaceSubpaths)

instance (raw : Text) : (rest : List Text) → Decidable (restOk toLowercase raw rest)
  | [] => inferInstanceAs (Decidable True)
  | _ :: _ => inferInstanceAs (Decidable (_ ∧ _))

def huggingFaceRepo (raw : Text) : Option Text := do
  let text := stripped (← cleaned raw) huggingFaceHosts
  if "://".toList <:+: text ∨ ':' ∈ text then none
  else
    match text.splitOn '/' with
    | org :: name :: rest =>
      if org = [] ∨ name = [] ∨ toLowercase org ∈ huggingFaceReservedRoots then none
      else if restOk toLowercase raw rest then some (org ++ '/' :: name)
      else none
    | _ => none

/-! ## Sound references -/

/-- The path a reference is read as. -/
def path (raw : Text) : Option Text := (cleaned raw).map fun text => stripped text huggingFaceHosts

def segments (raw : Text) : List Text := (path raw).elim [] (·.splitOn '/')

/-- A longer path comes from a link, and what is returned is read as itself. -/
structure ReadSoundly (raw : Text) : Prop where
  long_is_link : ∀ repo, huggingFaceRepo toLowercase raw = some repo →
    2 < (segments raw).length → isHuggingFaceLink raw = true
  reread : ∀ repo, huggingFaceRepo toLowercase raw = some repo →
    huggingFaceRepo toLowercase repo = some repo

/-- The path begins with an organisation and a name that may be those of a repo. -/
structure Parts (raw org name : Text) (rest : List Text) : Prop where
  path : ∃ text, path raw = some text ∧ ':' ∉ text ∧ text.splitOn '/' = org :: name :: rest
  some_org : org ≠ []
  some_name : name ≠ []
  free : toLowercase org ∉ huggingFaceReservedRoots

/-- An organisation that is called as a host is. -/
def isHost (org : Text) : Prop := (org ++ ['/']).map Char.toLower ∈ huggingFaceHosts

/-- A longer path to a known page, of a reference that names a host, but not in front. -/
def NamesHostElsewhere (raw : Text) : Prop :=
  isHuggingFaceLink raw = false ∧ fromHfHost toLowercase raw ∧
    ∃ org name next rest, Parts toLowercase raw org name (next :: rest) ∧
      (next = [] ∨ toLowercase next ∈ huggingFaceSubpaths)

def HostAsOrganisation (raw : Text) : Prop :=
  ∃ org name rest, Parts toLowercase raw org name rest ∧ restOk toLowercase raw rest ∧ isHost org

variable {toLowercase} {raw org name text : Text}

theorem huggingFaceRepo_eq_some {repo : Text} :
    huggingFaceRepo toLowercase raw = some repo ↔
      ∃ org name rest, Parts toLowercase raw org name rest ∧ restOk toLowercase raw rest ∧
        repo = org ++ '/' :: name := by
  have hscheme (text : Text) : "://".toList <:+: text → ':' ∈ text := fun h =>
    h.subset (by simp)
  constructor
  · intro h
    obtain ⟨text, hcleaned, htext⟩ := Option.bind_eq_some_iff.1 h
    have hpath : path raw = some (stripped text huggingFaceHosts) := by rw [path, hcleaned]; rfl
    dsimp only at htext
    split at htext
    · cases htext
    · rename_i hcolon
      split at htext
      · rename_i org name rest hsplit
        split at htext
        · cases htext
        · rename_i hparts
          split at htext
          · rename_i hrest
            simp only [not_or] at hparts hcolon
            exact ⟨org, name, rest, ⟨⟨_, hpath, hcolon.2, hsplit⟩, hparts.1, hparts.2.1,
              hparts.2.2⟩, hrest, (Option.some.inj htext).symm⟩
          · cases htext
      · cases htext
  · rintro ⟨org, name, rest, ⟨⟨text, hpath, hcolon, hsplit⟩, horg, hname, hfree⟩, hrest, rfl⟩
    obtain ⟨whole, hcleaned, rfl⟩ := Option.map_eq_some_iff.1 hpath
    refine Option.bind_eq_some_iff.2 ⟨whole, hcleaned, ?_⟩
    dsimp only
    rw [if_neg (not_or.2 ⟨fun h => hcolon (hscheme _ h), hcolon⟩)]
    rw [hsplit]
    dsimp only
    rw [if_neg (by simp [horg, hname, hfree]), if_pos hrest]

/-! ## What is left of a reference -/

/-- A letter's lower case is no other character. -/
theorem toLower_eq_iff {c d : Char} (h : d.val.toNat < 97) (hsame : d.toLower = d) :
    c.toLower = d ↔ c = d := by
  constructor
  · intro heq
    unfold Char.toLower at heq
    split at heq
    · rename_i hupper
      have hle : (65 : UInt32).toNat ≤ c.val.toNat := UInt32.le_iff_toNat_le.1 hupper.1
      have hge : c.val.toNat ≤ (90 : UInt32).toNat := UInt32.le_iff_toNat_le.1 hupper.2
      have hval : c.val + 32 = d.val := congrArg Char.val heq
      have hnat := congrArg UInt32.toNat hval
      rw [UInt32.toNat_add] at hnat
      simp only [UInt32.reduceToNat] at hle hge hnat
      omega
    · exact heq
  · rintro rfl
    exact hsame

theorem toLower_slash {c : Char} : c.toLower = '/' ↔ c = '/' :=
  toLower_eq_iff (by decide) (by decide)

theorem toLower_colon {c : Char} : c.toLower = ':' ↔ c = ':' :=
  toLower_eq_iff (by decide) (by decide)

/-- What a text is made of that has been cleaned. -/
def Plain (text : Text) : Prop :=
  ∀ c ∈ text, Upstream.isWhitespace c = false ∧ c ≠ '?' ∧ c ≠ '#'

theorem afterAsciiPrefix_suffix {beginning rest : Text}
    (h : afterAsciiPrefix text beginning = some rest) : rest <:+ text := by
  unfold afterAsciiPrefix at h
  split at h
  · cases h
    exact List.drop_suffix _ _
  · cases h

theorem getD_afterAsciiPrefix_suffix (text beginning : Text) :
    (afterAsciiPrefix text beginning).getD text <:+ text := by
  cases h : afterAsciiPrefix text beginning with
  | none => exact List.suffix_rfl
  | some rest => exact afterAsciiPrefix_suffix h

theorem cleaned_plain (h : cleaned raw = some text) : Plain text := by
  unfold cleaned at h
  dsimp only at h
  split at h
  · cases h
  · rename_i hraw
    have hblank : ∀ c ∈ Upstream.trim raw, Upstream.isWhitespace c = false := by
      intro c hc
      have hnone := (not_or.1 hraw).2
      simp only [List.any_eq_true, not_exists, not_and] at hnone
      exact Bool.eq_false_iff.2 (hnone c hc)
    split at h
    · cases h
    · cases h
      intro c hc
      -- the text is what stays of a beginning of the end of the reference
      have hkept := (List.dropWhile_suffix _).subset (List.mem_reverse.1 hc)
      have hquery := List.mem_takeWhile_imp (List.mem_reverse.1 hkept)
      have hstart := (List.takeWhile_prefix _).subset (List.mem_reverse.1 hkept)
      have hscheme := (getD_afterAsciiPrefix_suffix _ _).subset
        ((getD_afterAsciiPrefix_suffix _ _).subset hstart)
      rw [Bool.and_eq_true, bne_iff_ne, bne_iff_ne] at hquery
      exact ⟨hblank c hscheme, hquery⟩

theorem path_plain (h : path raw = some text) : Plain text := by
  obtain ⟨whole, hcleaned, rfl⟩ := Option.map_eq_some_iff.1 h
  unfold stripped
  cases hhost : huggingFaceHosts.findSome? (afterAsciiPrefix whole) with
  | none => exact cleaned_plain hcleaned
  | some rest =>
    obtain ⟨host, _, hafter⟩ := List.exists_of_findSome?_eq_some hhost
    exact fun c hc => cleaned_plain hcleaned c ((afterAsciiPrefix_suffix hafter).subset hc)

/-! ## Reading a repo again -/

theorem dropWhile_of_forall {p : Char → Bool} {text : Text} (h : ∀ c ∈ text, p c = false) :
    text.dropWhile p = text := by
  cases text with
  | nil => rfl
  | cons c text => rw [List.dropWhile_cons_of_neg (by simp [h c List.mem_cons_self])]

theorem afterAsciiPrefix_colon {beginning : Text} (hbeginning : ':' ∈ beginning)
    (h : ':' ∉ text) : afterAsciiPrefix text beginning = none := by
  refine if_neg fun hsame => h ?_
  have hmem : ':' ∈ beginning.map Char.toLower := List.mem_map.2 ⟨':', hbeginning, by decide⟩
  rw [← hsame] at hmem
  obtain ⟨c, hc, hcolon⟩ := List.mem_map.1 hmem
  exact toLower_colon.1 hcolon ▸ (List.take_subset _ _) hc

/-- A text with nothing to clean away. -/
theorem cleaned_of_plain (hplain : Plain text) (hcolon : ':' ∉ text)
    (hlast : ∃ c, text.getLast? = some c ∧ c ≠ '/') : cleaned text = some text := by
  obtain ⟨last, hlast, hslash⟩ := hlast
  have hne : text ≠ [] := by rintro rfl; cases hlast
  have htrim : Upstream.trim text = text := by
    rw [Upstream.trim, dropWhile_of_forall fun c hc => (hplain c hc).1,
      dropWhile_of_forall fun c hc => (hplain c (List.mem_reverse.1 hc)).1, List.reverse_reverse]
  have hblank : ¬ (text = [] ∨ text.any Upstream.isWhitespace = true) := by
    rintro (hnil | hany)
    · exact hne hnil
    · obtain ⟨c, hc, hblank⟩ := List.any_eq_true.1 hany
      rw [(hplain c hc).1] at hblank
      cases hblank
  have hquery : (text.takeWhile fun c => c != '?' && c != '#') = text := by
    refine List.takeWhile_eq_self_iff.2 fun c hc => ?_
    rw [Bool.and_eq_true, bne_iff_ne, bne_iff_ne]
    exact (hplain c hc).2
  have hend : trimEndMatches '/' text = text := by
    obtain ⟨front, rfl⟩ := List.getLast?_eq_some_iff.1 hlast
    rw [trimEndMatches, List.reverse_append, List.reverse_singleton, List.singleton_append,
      List.dropWhile_cons_of_neg (by simpa using hslash), List.reverse_cons, List.reverse_reverse]
  unfold cleaned
  dsimp only
  rw [htrim, if_neg hblank, List.foldl_cons, List.foldl_cons, List.foldl_nil,
    afterAsciiPrefix_colon (by simp) hcolon, Option.getD_none,
    afterAsciiPrefix_colon (by simp) hcolon, Option.getD_none, hquery, hend, if_neg hne]

/-- Every host ends with its only slash, and is in lower case. -/
theorem hosts_end : ∀ host ∈ huggingFaceHosts, host.map Char.toLower = host ∧
    ∃ called, host = called ++ ['/'] ∧ '/' ∉ called := by
  have hall : ∀ host ∈ huggingFaceHosts, host.map Char.toLower = host ∧
      host = host.dropLast ++ ['/'] ∧ '/' ∉ host.dropLast := by
    simp only [huggingFaceHosts, List.map_cons, List.map_nil, String.toList]
    decide +kernel
  exact fun host hhost => ⟨(hall host hhost).1, _, (hall host hhost).2⟩

theorem slash_not_mem {part : Text} (h : part ∈ text.splitOn '/') : '/' ∉ part := by
  induction text generalizing part with
  | nil =>
    rw [List.splitOn_nil, List.mem_singleton] at h
    simp [h]
  | cons c text ih =>
    rw [List.splitOn_cons_eq_if_modifyHead] at h
    split at h
    · rcases List.mem_cons.1 h with rfl | h
      · simp
      · exact ih h
    · rename_i hc
      cases hparts : text.splitOn '/' with
      | nil => exact absurd hparts (List.splitOn_ne_nil _ _)
      | cons first parts =>
        rw [hparts] at h ih
        rcases List.mem_cons.1 h with rfl | h
        · intro hmem
          rcases List.mem_cons.1 hmem with rfl | hmem
          · exact hc (beq_self_eq_true _)
          · exact ih (.head _) hmem
        · exact ih (.tail _ h)

/-- Where two texts are the same up to their first slash. -/
theorem before_slash {a b c d : Text} (ha : '/' ∉ a) (hb : '/' ∉ b)
    (h : a ++ '/' :: c = b ++ '/' :: d) : a = b ∧ c = d := by
  have hsplit := congrArg (·.splitOn '/') h
  simp only [List.splitOn_append_cons_self_of_not_mem ha,
    List.splitOn_append_cons_self_of_not_mem hb] at hsplit
  obtain rfl := (List.cons.inj hsplit).1
  exact ⟨rfl, List.tail_eq_of_cons_eq (List.append_cancel_left h)⟩

/-- A host is taken off a repo only where it is the organisation. -/
theorem afterAsciiPrefix_host {host rest : Text} (hhost : host ∈ huggingFaceHosts)
    (horg : '/' ∉ org) :
    afterAsciiPrefix (org ++ '/' :: name) host = some rest ↔
      (org ++ ['/']).map Char.toLower = host ∧ rest = name := by
  obtain ⟨hlower, called, rfl, hcalled⟩ := hosts_end host hhost
  have hlength : (called ++ ['/']).length = called.length + 1 := by simp
  unfold afterAsciiPrefix
  rw [hlower]
  constructor
  · intro h
    split at h
    · rename_i hsame
      obtain ⟨front, last, hfront, htaken, hlast⟩ := List.map_eq_append_iff.1 hsame
      obtain ⟨slash, rfl, hslash⟩ := List.map_eq_singleton_iff.1 hlast
      obtain rfl := toLower_slash.1 hslash
      have hfree : '/' ∉ front := fun hmem =>
        hcalled (htaken ▸ List.mem_map.2 ⟨'/', hmem, by decide⟩)
      have hwhole := List.take_append_drop (called ++ ['/']).length (org ++ '/' :: name)
      rw [hfront, List.append_assoc, List.singleton_append] at hwhole
      obtain ⟨rfl, hname⟩ := before_slash hfree horg hwhole
      refine ⟨?_, ?_⟩
      · rw [List.map_append, htaken]
        rfl
      · rw [← Option.some.inj h, hname]
    · cases h
  · rintro ⟨hsame, rfl⟩
    have hshort : org.length = called.length := by
      have hlengths := congrArg List.length hsame
      simpa using hlengths
    have htake : (org ++ '/' :: rest).take (called ++ ['/']).length = org ++ ['/'] := by
      rw [hlength, ← hshort, List.append_cons, List.take_left' (by simp)]
    have hdrop : (org ++ '/' :: rest).drop (called ++ ['/']).length = rest := by
      rw [hlength, ← hshort, List.append_cons, List.drop_left' (by simp)]
    rw [htake, hdrop, if_pos hsame]

theorem stripped_repo (horg : '/' ∉ org) :
    stripped (org ++ '/' :: name) huggingFaceHosts = name ∧ isHost org ∨
      stripped (org ++ '/' :: name) huggingFaceHosts = org ++ '/' :: name ∧ ¬ isHost org := by
  unfold stripped
  cases hfound : huggingFaceHosts.findSome? (afterAsciiPrefix (org ++ '/' :: name)) with
  | some rest =>
    obtain ⟨host, hhost, hafter⟩ := List.exists_of_findSome?_eq_some hfound
    obtain ⟨hsame, rfl⟩ := (afterAsciiPrefix_host hhost horg).1 hafter
    refine Or.inl ⟨rfl, ?_⟩
    rw [isHost, hsame]
    exact hhost
  | none =>
    refine Or.inr ⟨rfl, fun hhost => ?_⟩
    have hnone := List.findSome?_eq_none_iff.1 hfound _ hhost
    rw [(afterAsciiPrefix_host hhost horg).2 ⟨rfl, rfl⟩] at hnone
    cases hnone

/-- An organisation and a name that were read once are read again unless the organisation is a
host. -/
theorem reread_iff {rest : List Text} (h : Parts toLowercase raw org name rest) :
    huggingFaceRepo toLowercase (org ++ '/' :: name) = some (org ++ '/' :: name) ↔
      ¬ isHost org := by
  obtain ⟨⟨text, hpath, hcolon, hsplit⟩, horg, hname, hfree⟩ := h
  have htext : text = org ++ '/' :: ['/'].intercalate (name :: rest) := by
    rw [← @List.intercalate_splitOn _ text _ _ '/', hsplit]
    rfl
  have horgSlash : '/' ∉ org := slash_not_mem (hsplit ▸ List.mem_cons_self)
  have hnameSlash : '/' ∉ name :=
    slash_not_mem (hsplit ▸ List.mem_cons_of_mem _ (.head _))
  have hname' : name ⊆ ['/'].intercalate (name :: rest) := by
    cases rest with
    | nil => simp
    | cons next rest =>
      rw [List.intercalate_cons_cons, List.append_assoc]
      exact List.subset_append_left _ _
  have hsub : org ++ '/' :: name ⊆ text := by
    rw [htext]
    exact List.append_subset.2 ⟨List.subset_append_left _ _, fun c hc =>
      List.mem_append_right _ ((List.cons_subset_cons '/' hname') hc)⟩
  have hplain : Plain (org ++ '/' :: name) := fun c hc => path_plain hpath c (hsub hc)
  have hlast : ∃ c, (org ++ '/' :: name).getLast? = some c ∧ c ≠ '/' := by
    obtain ⟨front, c, rfl⟩ := (List.eq_nil_or_concat name).resolve_left hname
    refine ⟨c, ?_, fun hc => hnameSlash (by simp [hc])⟩
    rw [List.concat_eq_append, List.append_cons, ← List.append_assoc, List.getLast?_concat]
  have hcleaned := cleaned_of_plain hplain (fun h => hcolon (hsub h)) hlast
  rw [huggingFaceRepo_eq_some]
  rcases @stripped_repo _ name horgSlash with ⟨hstripped, hhost⟩ | ⟨hstripped, hhost⟩
  · refine iff_of_false ?_ (not_not.2 hhost)
    rintro ⟨org', name', rest', ⟨⟨_, hagain, _, hsplit'⟩, _⟩, _⟩
    rw [path, hcleaned, Option.map_some, hstripped] at hagain
    rw [← Option.some.inj hagain, List.splitOn_eq_singleton hnameSlash] at hsplit'
    cases hsplit'
  · refine iff_of_true ⟨org, name, [], ⟨⟨_, ?_, fun h => hcolon (hsub h), ?_⟩, horg, hname, hfree⟩,
      trivial, rfl⟩ hhost
    · rw [path, hcleaned, Option.map_some, hstripped]
    · rw [List.splitOn_append_cons_self_of_not_mem horgSlash, List.splitOn_eq_singleton hnameSlash]

/-- For every reference: a longer path comes from a link, and what is returned is read as itself,
exactly when no host is named elsewhere than in front, and none is the organisation. -/
theorem read_soundly_iff (toLowercase : Text → Text) (raw : Text) :
    ReadSoundly toLowercase raw ↔
      ¬ NamesHostElsewhere toLowercase raw ∧ ¬ HostAsOrganisation toLowercase raw := by
  constructor
  · rintro ⟨hlong, hreread⟩
    constructor
    · rintro ⟨hlink, hhost, org, name, next, rest, hparts, hnext⟩
      have hread : huggingFaceRepo toLowercase raw = some (org ++ '/' :: name) :=
        huggingFaceRepo_eq_some.2 ⟨org, name, next :: rest, hparts, ⟨hhost, hnext⟩, rfl⟩
      obtain ⟨text, hpath, _, hsplit⟩ := hparts.path
      have hthree : 2 < (segments raw).length := by
        rw [segments, hpath, Option.elim_some, hsplit]
        simp
      rw [hlong _ hread hthree] at hlink
      cases hlink
    · rintro ⟨org, name, rest, hparts, hrest, hhost⟩
      have hread : huggingFaceRepo toLowercase raw = some (org ++ '/' :: name) :=
        huggingFaceRepo_eq_some.2 ⟨org, name, rest, hparts, hrest, rfl⟩
      exact (reread_iff hparts).1 (hreread _ hread) hhost
  · rintro ⟨helsewhere, horganisation⟩
    refine ⟨fun repo hread hthree => ?_, fun repo hread => ?_⟩
    · obtain ⟨org, name, rest, hparts, hrest, rfl⟩ := huggingFaceRepo_eq_some.1 hread
      cases rest with
      | nil =>
        obtain ⟨text, hpath, _, hsplit⟩ := hparts.path
        rw [segments, hpath, Option.elim_some, hsplit] at hthree
        exact absurd hthree (by simp)
      | cons next rest =>
        by_contra hlink
        exact helsewhere ⟨Bool.eq_false_iff.2 hlink, hrest.1, org, name, next, rest, hparts,
          hrest.2⟩
    · obtain ⟨org, name, rest, hparts, hrest, rfl⟩ := huggingFaceRepo_eq_some.1 hread
      exact (reread_iff hparts).2 fun hhost =>
        horganisation ⟨org, name, rest, hparts, hrest, hhost⟩

/-- An organisation whose repo has the host's name in its own is taken for a link. -/
theorem mirror_is_no_link :
    ¬ ReadSoundly (List.map Char.toLower) "acme/hf.co-mirror/tree/main".toList := by
  rintro ⟨hlong, _⟩
  have hlink := hlong "acme/hf.co-mirror".toList (by decide +kernel) (by decide +kernel)
  revert hlink
  decide +kernel

end Hedos.Install.Reference
