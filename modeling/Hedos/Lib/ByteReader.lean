import Mathlib.Data.List.Basic
import Mathlib.Tactic.Ring

/-!
# Reading a file of bytes through a position

A reader takes bytes at a position and moves it on. Taking bytes that are not there fails and
leaves the position at the end; passing over bytes only moves the position, which may so come to
lie past the end without a failure.

* `Reads`: a reader that takes exactly the texts of a language, each with its value;
* `Takes`: a reader that takes exactly the texts of a language and passes over the `Tail` of each,
  which the file may end inside;
* `Stops`: a reader that fails past the end, so that nothing before it was cut.

`Takes.bind`, `Takes.seq` and `Takes.replicate` put readers together.
-/

namespace ByteReader

/-- The bytes of a file, and the largest offset a position in it may have. -/
structure File where
  bytes : List UInt8
  maxOffset : ℕ
  fits : bytes.length ≤ maxOffset
  bounded : maxOffset < 2 ^ 63

/-- What is read at a position, or nothing, and the position after it. -/
def Reader (α : Type) := File → ℕ → Option α × ℕ

namespace Reader

variable {α β : Type}

def pure (a : α) : Reader α := fun _ pos => (some a, pos)

def bind (r : Reader α) (f : α → Reader β) : Reader β := fun file pos =>
  match r file pos with
  | (some a, next) => f a file next
  | (none, next) => (none, next)

instance : Monad Reader where
  pure := pure
  bind := bind

def fail : Reader α := fun _ pos => (none, pos)

/-- Go on whether or not something was read. -/
def attempt (r : Reader α) : Reader (Option α) := fun file pos =>
  (some (r file pos).1, (r file pos).2)

/-- The next bytes. -/
def take (n : ℕ) : Reader (List UInt8) := fun file pos =>
  if n = 0 ∨ pos + n ≤ file.bytes.length then (some ((file.bytes.drop pos).take n), pos + n)
  else (none, max pos file.bytes.length)

/-- Pass over bytes, there or not. -/
def skip (n : ℕ) : Reader Unit := fun file pos =>
  if n = 0 ∨ pos + n ≤ file.maxOffset then (some (), pos + n) else (none, pos)

/-- Read one thing after another and keep none. -/
def replicate (r : Reader Unit) : ℕ → Reader Unit
  | 0 => pure ()
  | n + 1 => bind r fun _ => replicate r n

end Reader

/-! ## Little-endian numbers -/

/-- The low bytes of a number, the lowest first. -/
def leBytes : ℕ → ℕ → List UInt8
  | 0, _ => []
  | k + 1, n => UInt8.ofNat (n % 256) :: leBytes k (n / 256)

def leNat : List UInt8 → ℕ
  | [] => 0
  | byte :: bytes => byte.toNat + 256 * leNat bytes

@[simp] theorem length_leBytes (k n : ℕ) : (leBytes k n).length = k := by
  induction k generalizing n with
  | zero => rfl
  | succ k ih => rw [leBytes, List.length_cons, ih]

variable {α β : Type} {n : ℕ} {text : List UInt8}
variable {G : List UInt8 → α → Prop} {r : Reader α} {f : α → Reader β}

theorem leNat_leBytes {k : ℕ} (h : n < 256 ^ k) : leNat (leBytes k n) = n := by
  induction k generalizing n with
  | zero =>
    rw [pow_zero, Nat.lt_one_iff] at h
    rw [h]
    rfl
  | succ k ih =>
    have hdiv : n / 256 < 256 ^ k := by
      rw [pow_succ] at h
      omega
    have hbyte : (UInt8.ofNat (n % 256)).toNat = n % 256 := by
      rw [UInt8.toNat_ofNat']
      omega
    rw [leBytes, leNat, ih hdiv, hbyte]
    omega

theorem leBytes_leNat (bytes : List UInt8) : leBytes bytes.length (leNat bytes) = bytes := by
  induction bytes with
  | nil => rfl
  | cons byte bytes ih =>
    have hbyte := byte.toNat_lt
    have hlow : (byte.toNat + 256 * leNat bytes) % 256 = byte.toNat := by omega
    have hhigh : (byte.toNat + 256 * leNat bytes) / 256 = leNat bytes := by omega
    rw [List.length_cons, leNat, leBytes, hlow, hhigh, ih, UInt8.ofNat_toNat]

theorem leNat_lt (bytes : List UInt8) : leNat bytes < 256 ^ bytes.length := by
  induction bytes with
  | nil => decide
  | cons byte bytes ih =>
    have hbyte := byte.toNat_lt
    rw [leNat, List.length_cons, pow_succ]
    omega

/-! ## Readers and the texts they take -/

variable {file : File} {pos : ℕ}

/-- The file has the text at the position. -/
def Has (file : File) (pos : ℕ) (text : List UInt8) : Prop :=
  ∃ after, file.bytes.drop pos = text ++ after

/-- The file ends inside the text. -/
def Cuts (file : File) (pos : ℕ) (text : List UInt8) : Prop :=
  ∃ more, more ≠ [] ∧ text = file.bytes.drop pos ++ more

/-- The position after so many bytes are passed over. `tried` says that the reader tries to take
them first, which leaves it at the end of the file when they are not there. -/
def passedTo (file : File) (pos n : ℕ) (tried : Bool) : ℕ :=
  if tried ∧ file.bytes.length < pos + n then file.bytes.length + n else pos + n

/-- The bytes behind a text that a reader passes over. -/
structure Tail where
  bytes : List UInt8 := []
  tried : Bool := false

namespace Tail

/-- The position after the tail. -/
def next (tail : Tail) (file : File) (pos : ℕ) : ℕ :=
  passedTo file pos tail.bytes.length tail.tried

/-- The tail is there, or the file ends inside it and may have the position after it. -/
def Over (tail : Tail) (file : File) (pos : ℕ) : Prop :=
  Has file pos tail.bytes ∨ Cuts file pos tail.bytes ∧ tail.next file pos ≤ file.maxOffset

end Tail

variable {V W : List UInt8 → Tail → Prop}

/-- The texts of the language are taken, each with its value, and nothing else is. -/
def Reads (G : List UInt8 → α → Prop) (r : Reader α) : Prop :=
  ∀ (file : File) (pos next : ℕ) (a : α), pos ≤ file.bytes.length →
    (r file pos = (some a, next) ↔ ∃ text, G text a ∧ Has file pos text ∧ next = pos + text.length)

/-- The texts of the language are taken and their tails passed over, and nothing else is. -/
def Takes (V : List UInt8 → Tail → Prop) (r : Reader α) : Prop :=
  ∀ (file : File) (pos next : ℕ), pos ≤ file.bytes.length →
    ((∃ a, r file pos = (some a, next)) ↔ ∃ text tail, V text tail ∧ Has file pos text ∧
      tail.Over file (pos + text.length) ∧ next = tail.next file (pos + text.length))

/-- Nothing is read past the end. -/
def Stops (r : Reader α) : Prop :=
  ∀ (file : File) (pos : ℕ), file.bytes.length < pos → (r file pos).1 = none

theorem has_nil (file : File) (pos : ℕ) : Has file pos [] := ⟨_, rfl⟩

theorem Has.le (hpos : pos ≤ file.bytes.length) (h : Has file pos text) :
    pos + text.length ≤ file.bytes.length := by
  obtain ⟨after, h⟩ := h
  have hlength := congrArg List.length h
  rw [List.length_drop, List.length_append] at hlength
  omega

theorem has_append_iff {first second : List UInt8} : Has file pos (first ++ second) ↔
    Has file pos first ∧ Has file (pos + first.length) second := by
  unfold Has
  constructor
  · rintro ⟨after, hafter⟩
    refine ⟨⟨second ++ after, by rw [hafter, List.append_assoc]⟩, after, ?_⟩
    rw [← List.drop_drop, hafter, List.append_assoc, List.drop_left]
  · rintro ⟨⟨after, hafter⟩, rest, hrest⟩
    rw [← List.drop_drop, hafter, List.drop_left] at hrest
    exact ⟨rest, by rw [hafter, hrest, List.append_assoc]⟩

theorem Cuts.lt (h : Cuts file pos text) :
    0 < text.length ∧ file.bytes.length < pos + text.length := by
  obtain ⟨more, hmore, rfl⟩ := h
  have hpos := List.length_pos_of_ne_nil hmore
  rw [List.length_append, List.length_drop]
  omega

namespace Tail

variable {tail : Tail}

theorem next_of_has (hpos : pos ≤ file.bytes.length) (h : Has file pos tail.bytes) :
    tail.next file pos = pos + tail.bytes.length := by
  have hle := h.le hpos
  exact if_neg (by omega)

theorem lt_next_of_cuts (h : Cuts file pos tail.bytes) :
    file.bytes.length < tail.next file pos := by
  have hlt := h.lt
  unfold next passedTo
  split <;> omega

theorem over_nil (file : File) (pos : ℕ) : Over {} file pos := Or.inl (has_nil file pos)

theorem Over.le (hpos : pos ≤ file.bytes.length) (h : tail.Over file pos) :
    tail.next file pos ≤ file.maxOffset := by
  rcases h with h | h
  · rw [next_of_has hpos h]
    exact (h.le hpos).trans file.fits
  · exact h.2

end Tail

theorem Reads.congr {H : List UInt8 → α → Prop} (h : Reads G r)
    (hiff : ∀ text a, G text a ↔ H text a) : Reads H r := by
  have heq : G = H := funext fun text => funext fun a => propext (hiff text a)
  exact heq ▸ h

theorem Takes.congr (h : Takes V r) (hiff : ∀ text tail, V text tail ↔ W text tail) :
    Takes W r := by
  have heq : V = W := funext fun text => funext fun tail => propext (hiff text tail)
  exact heq ▸ h

theorem Reads.pure (a : α) : Reads (fun text b => text = [] ∧ b = a) (Reader.pure a) := by
  intro file pos next b _
  constructor
  · intro h
    obtain ⟨hb, rfl⟩ := Prod.mk.inj h
    exact ⟨[], ⟨rfl, (Option.some.inj hb).symm⟩, has_nil _ _, rfl⟩
  · rintro ⟨_, ⟨rfl, rfl⟩, -, rfl⟩
    rfl

theorem Reads.fail : Reads (fun _ _ => False) (Reader.fail (α := α)) :=
  fun _ _ _ _ _ => ⟨(fun h => nomatch (Prod.mk.inj h).1), fun ⟨_, h, _⟩ => h.elim⟩

/-- A reader that is not used when the condition holds. -/
theorem Reads.guard (h : Reads G r) (p : Prop)
    [Decidable p] : Reads (fun text a => ¬ p ∧ G text a) (if p then Reader.fail else r) := by
  by_cases hp : p
  · rw [if_pos hp]
    exact Reads.fail.congr fun text a => ⟨False.elim, fun hpG => hpG.1 hp⟩
  · rw [if_neg hp]
    exact h.congr fun text a => ⟨fun hG => ⟨hp, hG⟩, And.right⟩

theorem Reads.takes (h : Reads G r) :
    Takes (fun text tail => tail = {} ∧ ∃ a, G text a) r := by
  intro file pos next hpos
  constructor
  · rintro ⟨a, hread⟩
    obtain ⟨text, ha, hhas, rfl⟩ := (h file pos next a hpos).1 hread
    exact ⟨text, {}, ⟨rfl, a, ha⟩, hhas, Tail.over_nil _ _, rfl⟩
  · rintro ⟨text, _, ⟨rfl, a, ha⟩, hhas, -, rfl⟩
    exact ⟨a, (h file pos _ a hpos).2 ⟨text, ha, hhas, rfl⟩⟩

theorem Reader.bind_eq_some {b : β} {next : ℕ} :
    r.bind f file pos = (some b, next) ↔
      ∃ a middle, r file pos = (some a, middle) ∧ f a file middle = (some b, next) := by
  unfold Reader.bind
  cases hread : r file pos with
  | mk result middle =>
    cases result with
    | none => simp
    | some a => simp

theorem Reads.bind {H : α → List UInt8 → β → Prop} (hr : Reads G r) (hf : ∀ a, Reads (H a) (f a)) :
    Reads (fun text b => ∃ first second a, text = first ++ second ∧ G first a ∧ H a second b)
      (r.bind f) := by
  intro file pos next b hpos
  rw [Reader.bind_eq_some]
  constructor
  · rintro ⟨a, middle, hfirst, hsecond⟩
    obtain ⟨first, ha, hhas, rfl⟩ := (hr file pos middle a hpos).1 hfirst
    obtain ⟨second, hb, hrest, rfl⟩ := (hf a file _ next b (hhas.le hpos)).1 hsecond
    refine ⟨first ++ second, ⟨first, second, a, rfl, ha, hb⟩, has_append_iff.2 ⟨hhas, hrest⟩, ?_⟩
    rw [List.length_append, Nat.add_assoc]
  · rintro ⟨_, ⟨first, second, a, rfl, ha, hb⟩, hhas, rfl⟩
    obtain ⟨hfirst, hsecond⟩ := has_append_iff.1 hhas
    refine ⟨a, _, (hr file pos _ a hpos).2 ⟨first, ha, hfirst, rfl⟩,
      (hf a file _ _ b (hfirst.le hpos)).2 ⟨second, hb, hsecond, ?_⟩⟩
    rw [List.length_append, Nat.add_assoc]

theorem Takes.bind {V : α → List UInt8 → Tail → Prop} (hr : Reads G r)
    (hf : ∀ a, Takes (V a) (f a)) :
    Takes (fun text tail => ∃ first second a, text = first ++ second ∧ G first a ∧
      V a second tail) (r.bind f) := by
  intro file pos next hpos
  constructor
  · rintro ⟨b, hread⟩
    obtain ⟨a, middle, hfirst, hsecond⟩ := Reader.bind_eq_some.1 hread
    obtain ⟨first, ha, hhas, rfl⟩ := (hr file pos middle a hpos).1 hfirst
    obtain ⟨second, tail, hb, hrest, hover, rfl⟩ := (hf a file _ next (hhas.le hpos)).1 ⟨b, hsecond⟩
    refine ⟨first ++ second, tail, ⟨first, second, a, rfl, ha, hb⟩,
      has_append_iff.2 ⟨hhas, hrest⟩, ?_⟩
    rw [List.length_append, ← Nat.add_assoc]
    exact ⟨hover, rfl⟩
  · rintro ⟨_, tail, ⟨first, second, a, rfl, ha, hb⟩, hhas, hover, rfl⟩
    obtain ⟨hfirst, hsecond⟩ := has_append_iff.1 hhas
    rw [List.length_append, ← Nat.add_assoc] at hover ⊢
    obtain ⟨b, hread⟩ := (hf a file _ _ (hfirst.le hpos)).2 ⟨second, tail, hb, hsecond, hover, rfl⟩
    exact ⟨b, Reader.bind_eq_some.2 ⟨a, _, (hr file pos _ a hpos).2 ⟨first, ha, hfirst, rfl⟩,
      hread⟩⟩

/-- A reader that stops past the end sees to it that the one before it was not cut. -/
theorem Takes.seq (hr : Takes V r) (hf : ∀ a, Takes W (f a)) (hstops : ∀ a, Stops (f a)) :
    Takes (fun text tail => ∃ first between second, text = first ++ (between.bytes ++ second) ∧
      V first between ∧ W second tail) (r.bind f) := by
  intro file pos next hpos
  constructor
  · rintro ⟨b, hread⟩
    obtain ⟨a, middle, hfirst, hsecond⟩ := Reader.bind_eq_some.1 hread
    obtain ⟨first, between, hV, hhas, hover, rfl⟩ := (hr file pos middle hpos).1 ⟨a, hfirst⟩
    have hle := hhas.le hpos
    rcases hover with hthere | ⟨hcuts, -⟩
    · rw [Tail.next_of_has hle hthere] at hsecond
      obtain ⟨second, tail, hW, hrest, hover, rfl⟩ :=
        (hf a file _ next (hthere.le hle)).1 ⟨b, hsecond⟩
      refine ⟨_, tail, ⟨first, between, second, rfl, hV, hW⟩,
        has_append_iff.2 ⟨hhas, has_append_iff.2 ⟨hthere, hrest⟩⟩, ?_⟩
      rw [List.length_append, List.length_append, ← Nat.add_assoc, ← Nat.add_assoc]
      exact ⟨hover, rfl⟩
    · have hnone := hstops a file _ (Tail.lt_next_of_cuts hcuts)
      rw [hsecond] at hnone
      cases hnone
  · rintro ⟨_, tail, ⟨first, between, second, rfl, hV, hW⟩, hhas, hover, rfl⟩
    obtain ⟨hfirst, hrest⟩ := has_append_iff.1 hhas
    obtain ⟨hthere, hsecond⟩ := has_append_iff.1 hrest
    have hle := hfirst.le hpos
    rw [List.length_append, List.length_append, ← Nat.add_assoc, ← Nat.add_assoc] at hover ⊢
    obtain ⟨a, hread⟩ := (hr file pos _ hpos).2 ⟨first, between, hV, hfirst, Or.inl hthere, rfl⟩
    rw [Tail.next_of_has hle hthere] at hread
    obtain ⟨b, hnext⟩ :=
      (hf a file _ _ (hthere.le hle)).2 ⟨second, tail, hW, hsecond, hover, rfl⟩
    exact ⟨b, Reader.bind_eq_some.2 ⟨a, _, hread, hnext⟩⟩

theorem Takes.map (hr : Takes V r) (f : α → β) :
    Takes V (r.bind fun a => Reader.pure (f a)) := by
  intro file pos next hpos
  rw [← hr file pos next hpos]
  constructor
  · rintro ⟨b, hread⟩
    obtain ⟨a, middle, hfirst, hpure⟩ := Reader.bind_eq_some.1 hread
    obtain ⟨-, rfl⟩ := Prod.mk.inj hpure
    exact ⟨a, hfirst⟩
  · rintro ⟨a, ha⟩
    exact ⟨f a, Reader.bind_eq_some.2 ⟨a, _, ha, rfl⟩⟩

theorem Takes.fail : Takes (fun _ _ => False) (Reader.fail (α := α)) :=
  fun _ _ _ _ => ⟨(fun ⟨_, h⟩ => nomatch (Prod.mk.inj h).1), fun ⟨_, _, h, _⟩ => h.elim⟩

theorem Takes.ite {s : Reader α} {p : Prop} [Decidable p]
    (hr : p → Takes V r) (hs : ¬ p → Takes V s) : Takes V (if p then r else s) := by
  by_cases hp : p
  · rw [if_pos hp]
    exact hr hp
  · rw [if_neg hp]
    exact hs hp

theorem Takes.guard (h : Takes V r) (p : Prop) [Decidable p] :
    Takes (fun text tail => ¬ p ∧ V text tail) (if p then Reader.fail else r) := by
  by_cases hp : p
  · rw [if_pos hp]
    exact Takes.fail.congr fun text tail => ⟨False.elim, fun hpV => hpV.1 hp⟩
  · rw [if_neg hp]
    exact h.congr fun text tail => ⟨fun hV => ⟨hp, hV⟩, And.right⟩

theorem Stops.bind (h : Stops r) (f : α → Reader β) : Stops (r.bind f) := by
  intro file pos hpos
  have hnone := h file pos hpos
  unfold Reader.bind
  cases hread : r file pos with
  | mk result middle =>
    rw [hread] at hnone
    cases hnone
    rfl

theorem stops_take (h : n ≠ 0) : Stops (Reader.take n) := by
  intro file pos hpos
  unfold Reader.take
  rw [if_neg (by omega)]

/-! ## The readers of bytes -/

theorem reads_take (n : ℕ) : Reads (fun text a => text.length = n ∧ a = text) (Reader.take n) := by
  intro file pos next a hpos
  constructor
  · intro hread
    unfold Reader.take at hread
    split at hread
    · rename_i hle
      obtain ⟨ha, rfl⟩ := Prod.mk.inj hread
      have hlength : ((file.bytes.drop pos).take n).length = n := by
        rw [List.length_take, List.length_drop]
        omega
      refine ⟨_, ⟨hlength, (Option.some.inj ha).symm⟩, ⟨(file.bytes.drop pos).drop n, ?_⟩, ?_⟩
      · exact (List.take_append_drop n _).symm
      · rw [hlength]
    · cases (Prod.mk.inj hread).1
  · rintro ⟨_, ⟨rfl, rfl⟩, hhas, rfl⟩
    have hle := hhas.le hpos
    obtain ⟨after, hafter⟩ := hhas
    unfold Reader.take
    rw [if_pos (Or.inr hle), hafter, List.take_left]

/-- A number of so many bytes. -/
theorem reads_number (k : ℕ) : Reads (fun text n => n < 256 ^ k ∧ text = leBytes k n)
    ((Reader.take k).bind fun text => Reader.pure (leNat text)) := by
  refine (Reads.bind (reads_take k) fun text => Reads.pure (leNat text)).congr fun text n => ?_
  constructor
  · rintro ⟨first, second, a, rfl, ⟨rfl, rfl⟩, rfl, rfl⟩
    exact ⟨leNat_lt a, by rw [List.append_nil, leBytes_leNat]⟩
  · rintro ⟨hn, rfl⟩
    exact ⟨leBytes k n, [], _, by simp, ⟨length_leBytes k n, rfl⟩, rfl, (leNat_leBytes hn).symm⟩

/-- Bytes passed over are there, or the file ends inside them. -/
theorem passed_over (hpos : pos ≤ file.bytes.length) (n : ℕ) :
    ∃ text : List UInt8, text.length = n ∧ (Has file pos text ∨ Cuts file pos text) := by
  have hdrop : (file.bytes.drop pos).length = file.bytes.length - pos := List.length_drop
  rcases Nat.lt_or_ge file.bytes.length (pos + n) with hlt | hle
  · refine ⟨file.bytes.drop pos ++ List.replicate (n - (file.bytes.length - pos)) 0, ?_,
      Or.inr ⟨_, ?_, rfl⟩⟩
    · rw [List.length_append, List.length_replicate, hdrop]
      omega
    · intro hnil
      have hzero := congrArg List.length hnil
      rw [List.length_replicate, List.length_nil] at hzero
      omega
  · refine ⟨(file.bytes.drop pos).take n, ?_, Or.inl ⟨_, (List.take_append_drop n _).symm⟩⟩
    rw [List.length_take, hdrop]
    omega

theorem Reader.bind_assoc {γ : Type} (r : Reader α) (f : α → Reader β) (g : β → Reader γ) :
    (r.bind f).bind g = r.bind fun a => (f a).bind g := by
  funext file pos
  unfold Reader.bind
  cases r file pos with
  | mk result next =>
    cases result with
    | none => rfl
    | some a => rfl

/-- A reader that takes nothing and passes over so many bytes. -/
theorem takes_passing {tried : Bool}
    (h : ∀ (file : File) (pos next : ℕ), pos ≤ file.bytes.length →
      ((∃ a, r file pos = (some a, next)) ↔
        passedTo file pos n tried ≤ file.maxOffset ∧ next = passedTo file pos n tried)) :
    Takes (fun text tail => text = [] ∧ tail.bytes.length = n ∧ tail.tried = tried) r := by
  intro file pos next hpos
  rw [h file pos next hpos]
  constructor
  · rintro ⟨hle, rfl⟩
    obtain ⟨bytes, rfl, hends⟩ := passed_over hpos n
    exact ⟨[], ⟨bytes, tried⟩, ⟨rfl, rfl, rfl⟩, has_nil _ _,
      hends.imp_right fun hcuts => ⟨hcuts, hle⟩, rfl⟩
  · rintro ⟨_, tail, ⟨rfl, rfl, rfl⟩, -, hover, rfl⟩
    exact ⟨hover.le hpos, rfl⟩

theorem takes_skip (n : ℕ) : Takes (fun text tail => text = [] ∧ tail.bytes.length = n ∧
    tail.tried = false) (Reader.skip n) := by
  refine takes_passing fun file pos next hpos => ?_
  have hfits := file.fits
  have hnext : passedTo file pos n false = pos + n := if_neg (by simp)
  unfold Reader.skip
  rw [hnext]
  constructor
  · rintro ⟨a, hread⟩
    split at hread
    · exact ⟨by omega, (Prod.mk.inj hread).2.symm⟩
    · cases (Prod.mk.inj hread).1
  · rintro ⟨hle, rfl⟩
    exact ⟨(), if_pos (Or.inr hle)⟩

/-- Bytes that could not be taken are passed over, from the end of the file. -/
theorem takes_attempt {n : ℕ} {g : List UInt8 → α} {f : α → β} {b : β}
    {next : Option α → Reader β} (hsome : ∀ a, next (some a) = Reader.pure (f a))
    (hnone : next none = (Reader.skip n).bind fun _ => Reader.pure b) :
    Takes (fun text tail => text = [] ∧ tail.bytes.length = n ∧ tail.tried = true)
      (((Reader.take n).bind fun text => Reader.pure (g text)).attempt.bind next) := by
  refine takes_passing fun file pos last hpos => ?_
  have hfits := file.fits
  by_cases hle : n = 0 ∨ pos + n ≤ file.bytes.length
  · have hread : (((Reader.take n).bind fun text => Reader.pure (g text)).attempt.bind next)
        file pos = (some (f (g ((file.bytes.drop pos).take n))), pos + n) := by
      simp only [Reader.bind, Reader.attempt, Reader.take, if_pos hle, hsome, Reader.pure]
    have hnext : passedTo file pos n true = pos + n := if_neg (by omega)
    rw [hread, hnext]
    constructor
    · rintro ⟨a, ha⟩
      exact ⟨by omega, (Prod.mk.inj ha).2.symm⟩
    · rintro ⟨-, rfl⟩
      exact ⟨_, rfl⟩
  · -- the position is at the end, and the bytes passed over lie after it
    have hread : (((Reader.take n).bind fun text => Reader.pure (g text)).attempt.bind next)
        file pos = ((Reader.skip n).bind fun _ => Reader.pure b) file file.bytes.length := by
      simp only [Reader.bind, Reader.attempt, Reader.take, if_neg hle, hnone]
      rw [Nat.max_eq_right hpos]
    have hnext : passedTo file pos n true = file.bytes.length + n := if_pos ⟨rfl, by omega⟩
    rw [hread, hnext]
    constructor
    · rintro ⟨a, ha⟩
      obtain ⟨_, middle, hskip, hpure⟩ := Reader.bind_eq_some.1 ha
      obtain ⟨-, rfl⟩ := Prod.mk.inj hpure
      unfold Reader.skip at hskip
      split at hskip
      · exact ⟨by omega, (Prod.mk.inj hskip).2.symm⟩
      · cases (Prod.mk.inj hskip).1
    · rintro ⟨hmax, rfl⟩
      exact ⟨b, Reader.bind_eq_some.2 ⟨(), _, if_pos (Or.inr hmax), rfl⟩⟩

theorem Takes.pure (a : α) : Takes (fun text tail => text = [] ∧ tail = {}) (Reader.pure a) :=
  (Reads.pure a).takes.congr fun _ _ =>
    ⟨fun ⟨htail, _, htext, _⟩ => ⟨htext, htail⟩, fun ⟨htext, htail⟩ => ⟨htail, a, htext, rfl⟩⟩

/-- So many texts, one after another: all are there but the tail of the last. -/
def InRow (V : List UInt8 → Tail → Prop) : ℕ → List UInt8 → Tail → Prop
  | 0, text, tail => text = [] ∧ tail = {}
  | 1, text, tail => V text tail
  | n + 2, text, tail => ∃ first between second, text = first ++ (between.bytes ++ second) ∧
      V first between ∧ InRow V (n + 1) second tail

/-- One text after another, each with something after it that would not have been read past the
end. -/
theorem Takes.replicate {r : Reader Unit} (h : Takes V r) (hstops : Stops r) (n : ℕ) :
    Takes (InRow V n) (r.replicate n) := by
  induction n with
  | zero => exact Takes.pure ()
  | succ n ih =>
    cases n with
    | zero => exact h.map fun _ => ()
    | succ n => exact h.seq (fun _ => ih) fun _ => hstops.bind _

end ByteReader
