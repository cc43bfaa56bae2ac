import Hedos.Lib.Primitives
import Mathlib.Data.Prod.Lex
import Mathlib.Data.Char
import Mathlib.Order.Interval.Finset.Nat

/-!
# Sharded GGUF names

`kernel/src/discovery/gguf_shards.rs`: `parse` and `shard_filename` of names like
`model-00001-of-00005.gguf`, and `group`, which puts the files of one directory, base and total
together.

A name is its characters; what the code measures in bytes are ASCII parts, of a byte a character.
Paths are of any type, with the two readings the code makes of them.
-/

namespace Hedos.Discovery.GgufShards

/-! ## Names -/

structure ShardName where
  base : Text
  index : ℕ
  total : ℕ
deriving DecidableEq

/-- What is before and behind the last occurrence of `sep`, as `rfind` finds it. -/
def splitLast (sep : Text) : Text → Option (Text × Text)
  | [] => if sep = [] then some ([], []) else none
  | c :: text =>
    match splitLast sep text with
    | some (before, behind) => some (c :: before, behind)
    | none => if sep.isPrefixOf (c :: text) then some ([], (c :: text).drop sep.length) else none

def fiveDigitNumber (field : Text) : Option ℕ :=
  if field.length = 5 ∧ field.all Char.isDigit then some (Nat.ofDigitChars 10 field 0) else none

def parse (filename : Text) : Option ShardName := do
  let cut := filename.length - ".gguf".length
  if (filename.drop cut).map Char.toLower ≠ ".gguf".toList then none
  else
    let stem := filename.take cut
    let (head, totalField) ← splitLast "-of-".toList stem
    let total ← fiveDigitNumber totalField
    if total = 0 then none
    else
      let (base, indexField) ← splitLast ['-'] head
      let index ← fiveDigitNumber indexField
      if index = 0 ∨ total < index then none
      else if base = [] then none
      else some { base, index, total }

/-- `{:05}`. -/
def fiveDigits (n : ℕ) : Text := (Nat.toDigits 10 n).leftpad 5 '0'

def shardFilename (base : Text) (index total : ℕ) : Text :=
  base ++ '-' :: fiveDigits index ++ "-of-".toList ++ fiveDigits total ++ ".gguf".toList

/-! ## Grouping -/

variable {π : Type}

structure Member (π : Type) where
  index : ℕ
  path : π
  bytes : ℤ
deriving DecidableEq

structure ShardGroup (π : Type) where
  base : Text
  total : ℕ
  /-- Sorted by index. -/
  members : List (Member π)
deriving DecidableEq

def ShardGroup.complete (group : ShardGroup π) : Bool := group.members.length == group.total

/-- The directory, the base and the total. -/
abbrev Key := Text × Text × ℕ

/-- How a path reads: `file_name` with `to_str`, and `parent` with `to_string_lossy`. -/
structure Paths (π : Type) where
  fileName : π → Option Text
  directory : π → Text

/-- The bucket a file goes to and its index there; `none` is a loose file. -/
def Paths.shard (paths : Paths π) (path : π) : Option (Key × ℕ) := do
  let name ← paths.fileName path
  let shard ← parse name
  some ((paths.directory path, shard.base, shard.total), shard.index)

abbrev Buckets (π : Type) := List (Key × List (Member π))

/-- `entry(key).or_default().push(member)`. -/
def push (key : Key) (member : Member π) : Buckets π → Buckets π
  | [] => [(key, [member])]
  | (k, members) :: buckets =>
    if k = key then (k, members ++ [member]) :: buckets
    else (k, members) :: push key member buckets

def place (paths : Paths π) (state : Buckets π × List π) (file : π × ℤ) : Buckets π × List π :=
  match paths.shard file.1 with
  | some (key, index) => (push key ⟨index, file.1, file.2⟩ state.1, state.2)
  | none => (state.1, state.2 ++ [file.1])

/-- The members whose index was not seen before. -/
def firstOfIndex : List ℕ → List (Member π) → List (Member π)
  | _, [] => []
  | seen, member :: members =>
    if member.index ∈ seen then firstOfIndex seen members
    else member :: firstOfIndex (member.index :: seen) members

def groupOf (bucket : Key × List (Member π)) : ShardGroup π where
  base := bucket.1.2.1
  total := bucket.1.2.2
  members := (firstOfIndex [] bucket.2).insertionSort fun a b => a.index ≤ b.index

/-- The order of a `BTreeMap`'s keys. -/
def keyLe (a b : Key × List (Member π)) : Prop :=
  toLex (a.1.1, toLex (a.1.2.1, a.1.2.2)) ≤ toLex (b.1.1, toLex (b.1.2.1, b.1.2.2))

instance : DecidableRel (@keyLe π) := fun _ _ => inferInstanceAs (Decidable (_ ≤ _))

def group (paths : Paths π) (files : List (π × ℤ)) : List (ShardGroup π) × List π :=
  let (buckets, loose) := files.foldl (place paths) ([], [])
  ((buckets.insertionSort keyLe).map groupOf, loose)

example : parse "a-00002-of-00007-00001-of-00005.GGUF".toList =
    some ⟨"a-00002-of-00007".toList, 1, 5⟩ := by decide

/-! ## What is written is read -/

section Names

variable {sep text before behind : Text} {n : ℕ}

/-- A separator that does not come again later is the last one. -/
theorem splitLast_append (before : Text) (h : splitLast sep (sep ++ behind) = some ([], behind)) :
    splitLast sep (before ++ sep ++ behind) = some (before, behind) := by
  induction before with
  | nil => exact h
  | cons c before ih => rw [List.cons_append, List.cons_append, splitLast, ih]

theorem splitLast_eq_none (hsep : sep ≠ []) {c : Char} (hc : c ∈ sep) (h : c ∉ text) :
    splitLast sep text = none := by
  induction text with
  | nil => simp [splitLast, hsep]
  | cons d text ih =>
    have htext : c ∉ text := fun hin => h (List.mem_cons_of_mem d hin)
    have hprefix : sep.isPrefixOf (d :: text) = false := by
      rw [← Bool.not_eq_true, List.isPrefixOf_iff_prefix]
      intro hbegins
      exact h (hbegins.subset hc)
    simp [splitLast, ih htext, hprefix]

theorem isDigit_of_mem_fiveDigits {c : Char} (h : c ∈ fiveDigits n) : c.isDigit = true := by
  rw [fiveDigits, List.leftpad, List.mem_append] at h
  rcases h with h | h
  · rw [List.eq_of_mem_replicate h]
    decide
  · exact Nat.isDigit_of_mem_toDigits (by decide) (by decide) h

theorem length_fiveDigits (h : n ≤ 99999) : (fiveDigits n).length = 5 := by
  have hlen : (Nat.toDigits 10 n).length ≤ 5 := by
    rw [Nat.length_toDigits_le_iff]
    · omega
    · omega
    · omega
  rw [fiveDigits, List.length_leftpad]
  omega

theorem fiveDigitNumber_fiveDigits (h : n ≤ 99999) : fiveDigitNumber (fiveDigits n) = some n := by
  have hzeros (k : ℕ) (text : Text) :
      Nat.ofDigitChars 10 (List.replicate k '0' ++ text) 0 = Nat.ofDigitChars 10 text 0 := by
    induction k with
    | zero => rfl
    | succ k ih =>
      rw [List.replicate_succ, List.cons_append, Nat.ofDigitChars_cons]
      simpa using ih
  have hvalue : Nat.ofDigitChars 10 (fiveDigits n) 0 = n := by
    rw [fiveDigits, List.leftpad, hzeros]
    exact Nat.ofDigitChars_toDigits (by decide) (by decide)
  rw [fiveDigitNumber, if_pos, hvalue]
  exact ⟨length_fiveDigits h, List.all_eq_true.2 fun c hc => isDigit_of_mem_fiveDigits hc⟩


/-- A name that was built is parsed back, whatever its base looks like. -/
theorem parse_shardFilename_eq {base : Text} {index total : ℕ} (hbase : base ≠ [])
    (hindex : 1 ≤ index) (hle : index ≤ total) (htotal : total ≤ 99999) :
    parse (shardFilename base index total) = some ⟨base, index, total⟩ := by
  have hcut : (shardFilename base index total).length - ".gguf".length =
      (base ++ '-' :: fiveDigits index ++ "-of-".toList ++ fiveDigits total).length := by
    have hlength : ".gguf".length = 5 := by decide
    simp [shardFilename, hlength]
    omega
  have hdigits (n : ℕ) : '-' ∉ fiveDigits n := fun h => by
    have := isDigit_of_mem_fiveDigits h
    exact absurd this (by decide)
  have hof : splitLast "-of-".toList
      ((base ++ '-' :: fiveDigits index) ++ "-of-".toList ++ fiveDigits total) =
        some (base ++ '-' :: fiveDigits index, fiveDigits total) := by
    apply splitLast_append
    -- Behind the dash of `-of-` come an `o`, an `f`, a dash before digits, and digits.
    have hnone : splitLast "-of-".toList (fiveDigits total) = none :=
      splitLast_eq_none (by decide) (by decide : '-' ∈ _) (hdigits total)
    have hlast : splitLast "-of-".toList ('-' :: fiveDigits total) = none := by
      have hnot : ("-of-".toList).isPrefixOf ('-' :: fiveDigits total) = false := by
        rw [← Bool.not_eq_true, List.isPrefixOf_iff_prefix]
        intro hprefix
        have hmem : 'o' ∈ fiveDigits total := by
          obtain ⟨rest, hrest⟩ := hprefix
          have hsep : "-of-".toList = ['-', 'o', 'f', '-'] := by decide
          rw [hsep] at hrest
          rw [← (List.cons.inj hrest).2]
          simp
        exact absurd (isDigit_of_mem_fiveDigits hmem) (by decide)
      rw [splitLast, hnone, hnot]
      rfl
    show splitLast "-of-".toList ('-' :: 'o' :: 'f' :: '-' :: fiveDigits total) = _
    have hf : splitLast "-of-".toList ('f' :: '-' :: fiveDigits total) = none := by
      rw [splitLast, hlast]
      rfl
    have ho : splitLast "-of-".toList ('o' :: 'f' :: '-' :: fiveDigits total) = none := by
      rw [splitLast, hf]
      rfl
    rw [splitLast, ho]
    rfl
  have hdash : splitLast ['-'] (base ++ ['-'] ++ fiveDigits index) =
      some (base, fiveDigits index) := by
    apply splitLast_append
    have hnone : splitLast ['-'] (fiveDigits index) = none :=
      splitLast_eq_none (by decide) (by decide : '-' ∈ _) (hdigits index)
    show splitLast ['-'] ('-' :: fiveDigits index) = _
    rw [splitLast, hnone]
    rfl
  have hdash' : splitLast ['-'] (base ++ '-' :: fiveDigits index) =
      some (base, fiveDigits index) := by simpa using hdash
  have hname : shardFilename base index total =
      (base ++ '-' :: fiveDigits index ++ "-of-".toList ++ fiveDigits total) ++ ".gguf".toList :=
    rfl
  simp only [parse]
  rw [hcut, hname, List.take_left, List.drop_left, hof]
  simp only [Option.bind_eq_bind, Option.bind_some, fiveDigitNumber_fiveDigits htotal]
  rw [hdash']
  simp only [Option.bind_some, fiveDigitNumber_fiveDigits (hle.trans htotal)]
  rw [if_neg (by decide), if_neg (by omega), if_neg (by omega), if_neg hbase]

end Names

/-! ## Every file has one place -/

section Group

variable {π : Type} {paths : Paths π} {key : Key} {member : Member π} {buckets : Buckets π}
  {files : List (π × ℤ)}

def Member.file (member : Member π) : π × ℤ := (member.path, member.bytes)

/-- The loose files, in the order they came in. -/
def looseFiles (paths : Paths π) (files : List (π × ℤ)) : List (π × ℤ) :=
  files.filter fun file => (paths.shard file.1).isNone

/-- What grouping makes of the files. -/
structure Grouped (paths : Paths π) (files : List (π × ℤ)) (groups : List (ShardGroup π))
    (loose : List π) : Prop where
  /-- Groups and loose files together are the files, but for those whose index a group has. -/
  partition : ∃ repeated : List (π × ℤ),
    (groups.flatMap (fun g => g.members.map Member.file) ++ repeated ++
      looseFiles paths files).Perm files ∧
    ∀ file ∈ repeated, ∃ g ∈ groups, ∃ m ∈ g.members,
      (paths.shard file.1).isSome = true ∧ paths.shard m.path = paths.shard file.1
  loose : loose = (looseFiles paths files).map Prod.fst
  /-- The members of a group are of one directory, base and total, those of two groups are not. -/
  keys : ∃ keys : List Key, keys.Nodup ∧ List.Forall₂ (fun key (g : ShardGroup π) =>
    g.base = key.2.1 ∧ g.total = key.2.2 ∧
      ∀ m ∈ g.members, paths.shard m.path = some (key, m.index)) keys groups
  indices : ∀ g ∈ groups, (g.members.map Member.index).Pairwise (· < ·) ∧
    ∀ m ∈ g.members, 1 ≤ m.index ∧ m.index ≤ g.total
  complete : ∀ g ∈ groups, g.complete = true ↔
    ∀ index, 1 ≤ index → index ≤ g.total → ∃ m ∈ g.members, m.index = index

theorem parse_range {name : Text} {shard : ShardName} (h : parse name = some shard) :
    1 ≤ shard.index ∧ shard.index ≤ shard.total := by
  simp only [parse, Option.bind_eq_bind] at h
  split at h
  · cases h
  · simp only [Option.bind_eq_some_iff] at h
    obtain ⟨⟨head, field⟩, -, total, -, h⟩ := h
    split at h
    · cases h
    · simp only [Option.bind_eq_some_iff] at h
      obtain ⟨⟨base, field'⟩, -, index, -, h⟩ := h
      split at h
      · cases h
      · split at h
        · cases h
        · cases h
          show 1 ≤ index ∧ index ≤ total
          omega

theorem shard_range {path : π} {index : ℕ} (h : paths.shard path = some (key, index)) :
    1 ≤ index ∧ index ≤ key.2.2 := by
  simp only [Paths.shard, Option.bind_eq_bind, Option.bind_eq_some_iff] at h
  obtain ⟨name, -, shard, hparse, h⟩ := h
  cases h
  exact parse_range hparse

theorem push_perm (key : Key) (member : Member π) (buckets : Buckets π) :
    ((push key member buckets).flatMap Prod.snd).Perm (member :: buckets.flatMap Prod.snd) := by
  induction buckets with
  | nil => simp [push]
  | cons bucket buckets ih =>
    obtain ⟨k, members⟩ := bucket
    rw [push]
    split
    · simp only [List.flatMap_cons, List.append_assoc]
      exact List.perm_middle
    · simp only [List.flatMap_cons]
      exact (List.Perm.append_left members ih).trans List.perm_middle

theorem push_keys (key : Key) (member : Member π) (buckets : Buckets π) :
    (push key member buckets).map Prod.fst =
      if key ∈ buckets.map Prod.fst then buckets.map Prod.fst
      else buckets.map Prod.fst ++ [key] := by
  induction buckets with
  | nil => simp [push]
  | cons bucket buckets ih =>
    obtain ⟨k, members⟩ := bucket
    rw [push]
    by_cases hk : k = key
    · simp [hk]
    · have hk' : key ≠ k := Ne.symm hk
      simp only [hk, if_false, List.map_cons, ih, List.mem_cons, hk', false_or]
      split <;> rfl

theorem mem_push {k : Key} {members : List (Member π)} (h : (k, members) ∈ push key member buckets)
    {m : Member π} (hm : m ∈ members) :
    (k = key ∧ m = member) ∨ ∃ before, (k, before) ∈ buckets ∧ m ∈ before := by
  induction buckets with
  | nil =>
    obtain ⟨rfl, rfl⟩ : k = key ∧ members = [member] := by simpa [push] using h
    exact Or.inl ⟨rfl, by simpa using hm⟩
  | cons bucket buckets ih =>
    obtain ⟨k', before⟩ := bucket
    rw [push] at h
    split at h
    · rename_i heq
      rcases List.mem_cons.1 h with h | h
      · cases h
        rcases List.mem_append.1 hm with hm | hm
        · exact Or.inr ⟨before, by simp, hm⟩
        · exact Or.inl ⟨heq, by simpa using hm⟩
      · exact Or.inr ⟨members, by simp [h], hm⟩
    · rcases List.mem_cons.1 h with h | h
      · cases h
        exact Or.inr ⟨members, by simp, hm⟩
      · rcases ih h with h | ⟨before', h, hm⟩
        · exact Or.inl h
        · exact Or.inr ⟨before', by simp [h], hm⟩

/-- What the buckets and the loose paths are after the files. -/
structure Placed (paths : Paths π) (files : List (π × ℤ)) (state : Buckets π × List π) : Prop where
  nodup : (state.1.map Prod.fst).Nodup
  shard : ∀ k members, (k, members) ∈ state.1 → ∀ m ∈ members,
    paths.shard m.path = some (k, m.index)
  loose : state.2 = (looseFiles paths files).map Prod.fst
  perm : ((state.1.flatMap Prod.snd).map Member.file ++ looseFiles paths files).Perm files

theorem placed_foldl (paths : Paths π) (files : List (π × ℤ)) :
    Placed paths files (files.foldl (place paths) ([], [])) := by
  induction files using List.reverseRecOn with
  | nil => exact ⟨List.nodup_nil, by simp, rfl, by simp [looseFiles]⟩
  | append_singleton files file ih =>
    rw [List.foldl_append, List.foldl_cons, List.foldl_nil]
    generalize files.foldl (place paths) ([], []) = state at ih
    obtain ⟨hnodup, hshard, hloose, hperm⟩ := ih
    cases hfile : paths.shard file.1 with
    | none =>
      have hfiles : looseFiles paths (files ++ [file]) = looseFiles paths files ++ [file] := by
        simp [looseFiles, hfile]
      have hplace : place paths state file = (state.1, state.2 ++ [file.1]) := by
        simp [place, hfile]
      rw [hplace]
      refine ⟨hnodup, hshard, ?_, ?_⟩
      · rw [hfiles, hloose]
        simp
      · rw [hfiles, ← List.append_assoc]
        exact hperm.append_right [file]
    | some shard =>
      obtain ⟨key, index⟩ := shard
      have hfiles : looseFiles paths (files ++ [file]) = looseFiles paths files := by
        simp [looseFiles, hfile]
      have hplace : place paths state file =
          (push key ⟨index, file.1, file.2⟩ state.1, state.2) := by
        simp [place, hfile]
      rw [hplace]
      refine ⟨?_, fun k members hmem m hm => ?_, by rw [hfiles, hloose], ?_⟩
      · rw [push_keys]
        split
        · exact hnodup
        · rename_i hkey
          exact List.nodup_append.2 ⟨hnodup, List.nodup_singleton _, fun a ha b hb heq =>
            hkey (by rw [← List.mem_singleton.1 hb, ← heq]; exact ha)⟩
      · rcases mem_push hmem hm with ⟨rfl, rfl⟩ | ⟨before, hbefore, hm⟩
        · exact hfile
        · exact hshard k before hbefore m hm
      · rw [hfiles]
        have hpush := (push_perm key ⟨index, file.1, file.2⟩ state.1).map Member.file
        refine (hpush.append_right _).trans ?_
        rw [List.map_cons, List.cons_append]
        exact ((hperm.cons file).trans (List.perm_append_singleton file files).symm)

/-- The members that `firstOfIndex` leaves out. -/
def laterOfIndex : List ℕ → List (Member π) → List (Member π)
  | _, [] => []
  | seen, member :: members =>
    if member.index ∈ seen then member :: laterOfIndex seen members
    else laterOfIndex (member.index :: seen) members

variable (seen : List ℕ)

theorem firstOfIndex_perm (members : List (Member π)) :
    (firstOfIndex seen members ++ laterOfIndex seen members).Perm members := by
  induction members generalizing seen with
  | nil => exact .refl _
  | cons member members ih =>
    rw [firstOfIndex, laterOfIndex]
    split
    · exact List.perm_middle.trans ((ih seen).cons member)
    · exact (ih (member.index :: seen)).cons member

theorem firstOfIndex_subset (members : List (Member π)) :
    firstOfIndex seen members ⊆ members := fun _ hm =>
  (firstOfIndex_perm seen members).subset (List.mem_append_left _ hm)

/-- What is left out has an index that was there before. -/
theorem index_of_laterOfIndex {seen : List ℕ} {members : List (Member π)} {m : Member π}
    (h : m ∈ laterOfIndex seen members) :
    m.index ∈ seen ∨ ∃ first ∈ firstOfIndex seen members, first.index = m.index := by
  induction members generalizing seen with
  | nil => cases h
  | cons member members ih =>
    rw [laterOfIndex] at h
    rw [firstOfIndex]
    split at h
    · rename_i hseen
      rw [if_pos hseen]
      rcases List.mem_cons.1 h with rfl | h
      · exact Or.inl hseen
      · exact ih h
    · rename_i hseen
      rw [if_neg hseen]
      rcases ih h with hin | ⟨first, hfirst, heq⟩
      · rcases List.mem_cons.1 hin with heq | hin
        · exact Or.inr ⟨member, List.mem_cons_self .., heq.symm⟩
        · exact Or.inl hin
      · exact Or.inr ⟨first, .tail _ hfirst, heq⟩

theorem firstOfIndex_nodup (members : List (Member π)) :
    ((firstOfIndex seen members).map Member.index).Nodup ∧
      ∀ m ∈ firstOfIndex seen members, m.index ∉ seen := by
  induction members generalizing seen with
  | nil => exact ⟨List.nodup_nil, fun _ h => by cases h⟩
  | cons member members ih =>
    rw [firstOfIndex]
    split
    · exact ih seen
    · rename_i hseen
      obtain ⟨hnodup, hnew⟩ := ih (member.index :: seen)
      constructor
      · rw [List.map_cons, List.nodup_cons]
        refine ⟨fun hin => ?_, hnodup⟩
        obtain ⟨m, hm, heq⟩ := List.mem_map.1 hin
        exact hnew m hm (by rw [heq]; exact .head _ ..)
      · intro m hm
        rcases List.mem_cons.1 hm with rfl | hm
        · exact hseen
        · exact fun hin => hnew m hm (.tail _ hin)

theorem groupOf_perm (bucket : Key × List (Member π)) :
    (groupOf bucket).members.Perm (firstOfIndex [] bucket.2) :=
  List.perm_insertionSort _ _

theorem groupOf_increasing (bucket : Key × List (Member π)) :
    ((groupOf bucket).members.map Member.index).Pairwise (· < ·) := by
  have hsorted : (groupOf bucket).members.Pairwise fun a b => a.index ≤ b.index := by
    have : Std.Total fun a b : Member π => a.index ≤ b.index := ⟨fun a b => le_total _ _⟩
    have : IsTrans (Member π) fun a b => a.index ≤ b.index := ⟨fun _ _ _ => le_trans⟩
    exact List.pairwise_insertionSort _ _
  have hnodup : ((groupOf bucket).members.map Member.index).Nodup :=
    ((groupOf_perm bucket).map Member.index).nodup_iff.2 (firstOfIndex_nodup [] bucket.2).1
  rw [List.pairwise_map]
  rw [List.nodup_iff_pairwise_ne, List.pairwise_map] at hnodup
  exact (hsorted.and hnodup).imp fun h => lt_of_le_of_ne h.1 h.2

/-- As many indices below the total as the total says are all of them. -/
theorem complete_iff {g : ShardGroup π} (hnodup : (g.members.map Member.index).Nodup)
    (hrange : ∀ m ∈ g.members, 1 ≤ m.index ∧ m.index ≤ g.total) :
    g.complete = true ↔
      ∀ index, 1 ≤ index → index ≤ g.total → ∃ m ∈ g.members, m.index = index := by
  have hcard : (g.members.map Member.index).toFinset.card = g.members.length := by
    rw [List.toFinset_card_of_nodup hnodup, List.length_map]
  have hsub : (g.members.map Member.index).toFinset ⊆ Finset.Icc 1 g.total := by
    intro index hindex
    obtain ⟨m, hm, rfl⟩ := List.mem_map.1 (List.mem_toFinset.1 hindex)
    exact Finset.mem_Icc.2 (hrange m hm)
  have htotal : (Finset.Icc 1 g.total).card = g.total := by simp
  rw [ShardGroup.complete, beq_iff_eq]
  constructor
  · intro hlen index hle hge
    have heq := Finset.eq_of_subset_of_card_le hsub (by rw [hcard, htotal, hlen])
    have hin : index ∈ (g.members.map Member.index).toFinset := by
      rw [heq]
      exact Finset.mem_Icc.2 ⟨hle, hge⟩
    exact List.mem_map.1 (List.mem_toFinset.1 hin)
  · intro hall
    have heq : (g.members.map Member.index).toFinset = Finset.Icc 1 g.total := by
      refine Finset.Subset.antisymm hsub fun index hindex => ?_
      obtain ⟨hle, hge⟩ := Finset.mem_Icc.1 hindex
      exact List.mem_toFinset.2 (List.mem_map.2 (hall index hle hge))
    rw [← hcard, heq, htotal]

theorem grouped (paths : Paths π) (files : List (π × ℤ)) :
    Grouped paths files (group paths files).1 (group paths files).2 := by
  obtain ⟨hnodup, hshard, hloose, hperm⟩ := placed_foldl paths files
  simp only [group]
  generalize files.foldl (place paths) ([], []) = state at *
  have hsort : (state.1.insertionSort keyLe).Perm state.1 := List.perm_insertionSort _ _
  have hmember {bucket : Key × List (Member π)} (hbucket : bucket ∈ state.1.insertionSort keyLe)
      {m : Member π} (hm : m ∈ (groupOf bucket).members) :
      paths.shard m.path = some (bucket.1, m.index) :=
    hshard bucket.1 bucket.2 (hsort.subset hbucket) m
      (firstOfIndex_subset [] _ ((groupOf_perm bucket).subset hm))
  have hindices : ∀ g ∈ (state.1.insertionSort keyLe).map groupOf,
      (g.members.map Member.index).Pairwise (· < ·) ∧
        ∀ m ∈ g.members, 1 ≤ m.index ∧ m.index ≤ g.total := by
    intro g hg
    obtain ⟨bucket, hbucket, rfl⟩ := List.mem_map.1 hg
    exact ⟨groupOf_increasing bucket, fun m hm => shard_range (hmember hbucket hm)⟩
  refine ⟨⟨(state.1.flatMap fun bucket => laterOfIndex [] bucket.2).map Member.file, ?_, ?_⟩,
    hloose, ⟨(state.1.insertionSort keyLe).map Prod.fst, ?_, ?_⟩, hindices, fun g hg => ?_⟩
  · -- The members and those left out, bucket by bucket, are what the buckets hold.
    refine List.Perm.trans (List.Perm.append_right _ ?_) hperm
    rw [List.flatMap_map, ← List.map_flatMap, ← List.map_append]
    refine List.Perm.map _ ?_
    have hgroups : ((state.1.insertionSort keyLe).flatMap fun bucket =>
        (groupOf bucket).members).Perm (state.1.flatMap fun bucket => firstOfIndex [] bucket.2) :=
      (List.Perm.flatMap_left _ fun bucket _ => groupOf_perm bucket).trans
        (List.Perm.flatMap_right _ hsort)
    refine (hgroups.append_right _).trans ((List.flatMap_append_perm _ _ _).trans ?_)
    exact List.Perm.flatMap_left _ fun bucket _ => firstOfIndex_perm [] bucket.2
  · intro file hfile
    obtain ⟨m, hm, rfl⟩ := List.mem_map.1 hfile
    obtain ⟨bucket, hbucket, hm⟩ := List.mem_flatMap.1 hm
    rcases index_of_laterOfIndex hm with hseen | ⟨first, hfirst, hindex⟩
    · cases hseen
    · have hin := hsort.symm.subset hbucket
      have hlater := hshard bucket.1 bucket.2 hbucket m
        ((firstOfIndex_perm [] bucket.2).subset (List.mem_append_right _ hm))
      refine ⟨groupOf bucket, List.mem_map_of_mem hin, first,
        (groupOf_perm bucket).symm.subset hfirst, ?_, ?_⟩
      · rw [Member.file, hlater]
        rfl
      · rw [Member.file, hlater, ← hindex]
        exact hmember hin ((groupOf_perm bucket).symm.subset hfirst)
  · exact (hsort.map Prod.fst).nodup_iff.2 hnodup
  · rw [List.forall₂_map_left_iff, List.forall₂_map_right_iff, List.forall₂_same]
    exact fun bucket hbucket => ⟨rfl, rfl, fun m hm => hmember hbucket hm⟩
  · obtain ⟨hincreasing, hrange⟩ := hindices g hg
    exact complete_iff (hincreasing.imp fun h => ne_of_lt h) hrange

/-- Names are parsed back, and every list of files is grouped with each file in one place. -/
theorem gguf_shards_name_and_group (paths : Paths π) :
    (∀ (base : Text) (index total : ℕ), base ≠ [] → 1 ≤ index → index ≤ total → total ≤ 99999 →
      parse (shardFilename base index total) = some ⟨base, index, total⟩) ∧
    ∀ files : List (π × ℤ), Grouped paths files (group paths files).1 (group paths files).2 :=
  ⟨fun _ _ _ hbase hindex hle htotal => parse_shardFilename_eq hbase hindex hle htotal,
    grouped paths⟩

end Group

/-- A directory and a name. -/
def sampleShardPaths : Paths (Text × Text) where
  fileName path := some path.2
  directory path := path.1

theorem gguf_shards_named_back :
    parse (shardFilename "m-00001-of-00002".toList 2 3) =
      some ⟨"m-00001-of-00002".toList, 2, 3⟩ :=
  (gguf_shards_name_and_group sampleShardPaths).1 _ 2 3 (by decide) (by decide) (by decide)
    (by decide)

end Hedos.Discovery.GgufShards
