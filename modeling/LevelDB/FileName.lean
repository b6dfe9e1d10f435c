import Mathlib.Algebra.Ring.Nat
import Mathlib.Data.List.Basic

/-!
# File names

The names of the database's files, as lists of characters. A failed assertion is `none`.

* `startsWith_descriptorFileName` — the assertion of `SetCurrentFile` on the prefix holds;
* `currentFileName_ne`, `tempFileName_ne` — the temporary file, a manifest and `CURRENT` are three
  different files;
* `sixDigits_injective`, `fileNames_injective` — no two of the names are the same.
-/

set_option autoImplicit false

namespace LevelDB

abbrev FileName : Type := List Char

/-- `%06llu`. -/
def sixDigits (number : Nat) : FileName :=
  List.leftpad 6 '0' (Nat.toDigits 10 number)

/-- What `snprintf` leaves in a buffer of 100 characters. -/
def buffered (text : FileName) : FileName := text.take 99

def makeFileName (dbname : FileName) (number : Nat) (suffix : FileName) : FileName :=
  dbname ++ buffered ('/' :: (sixDigits number ++ '.' :: suffix))

def logFileName (dbname : FileName) (number : Nat) : Option FileName :=
  if number > 0 then some (makeFileName dbname number ['l', 'o', 'g']) else none

def descriptorFileName (dbname : FileName) (number : Nat) : Option FileName :=
  if number > 0 then
    some (dbname ++
      buffered (['/', 'M', 'A', 'N', 'I', 'F', 'E', 'S', 'T', '-'] ++ sixDigits number))
  else none

def tempFileName (dbname : FileName) (number : Nat) : Option FileName :=
  if number > 0 then some (makeFileName dbname number ['d', 'b', 't', 'm', 'p']) else none

def currentFileName (dbname : FileName) : FileName :=
  dbname ++ ['/', 'C', 'U', 'R', 'R', 'E', 'N', 'T']

theorem startsWith_descriptorFileName {dbname name : FileName} {number : Nat}
    (h : descriptorFileName dbname number = some name) : (dbname ++ ['/']) <+: name := by
  unfold descriptorFileName at h
  split at h
  · cases h
    exact (List.prefix_append_right_inj dbname).mpr ⟨_, rfl⟩
  · cases h

theorem descriptorFileName_ne_nil {dbname name : FileName} {number : Nat}
    (h : descriptorFileName dbname number = some name) : name ≠ [] := by
  rintro rfl
  have hprefix := startsWith_descriptorFileName h
  simp at hprefix

theorem sixDigits_isDigit {number : Nat} {c : Char} (h : c ∈ sixDigits number) : c.isDigit := by
  unfold sixDigits List.leftpad at h
  rcases List.mem_append.mp h with h | h
  · rw [(List.mem_replicate.mp h).2]
    decide
  · exact Nat.isDigit_of_mem_toDigits (by decide) (by decide) h

theorem sixDigits_eq_cons (number : Nat) :
    ∃ c rest, sixDigits number = c :: rest ∧ c.isDigit = true := by
  cases h : sixDigits number with
  | nil =>
    have hlength := congrArg List.length h
    unfold sixDigits at hlength
    rw [List.length_leftpad] at hlength
    simp at hlength
  | cons c rest =>
    exact ⟨c, rest, rfl, sixDigits_isDigit (h ▸ List.mem_cons_self)⟩

/-- What follows the database name in a manifest's name is one line. -/
theorem descriptorFileName_eq (dbname : FileName) {number : Nat} (hpos : 0 < number) :
    ∃ name, descriptorFileName dbname number = some (dbname ++ '/' :: name) ∧ '\n' ∉ name := by
  refine ⟨(['M', 'A', 'N', 'I', 'F', 'E', 'S', 'T', '-'] ++ sixDigits number).take 98,
    if_pos hpos, fun hmem => ?_⟩
  rcases List.mem_append.mp (List.mem_of_mem_take hmem) with h | h
  · exact absurd h (by decide)
  · exact absurd (sixDigits_isDigit h) (by decide)

/-- A manifest is not `CURRENT`. -/
theorem currentFileName_ne {dbname name : FileName} {number : Nat}
    (h : descriptorFileName dbname number = some name) : name ≠ currentFileName dbname := by
  unfold descriptorFileName at h
  split at h
  · cases h
    intro heq
    have heq := List.append_cancel_left heq
    cases heq
  · cases h

/-- The temporary file is neither the manifest nor `CURRENT`. -/
theorem tempFileName_ne {dbname tmp name : FileName} {number : Nat}
    (htmp : tempFileName dbname number = some tmp)
    (hname : descriptorFileName dbname number = some name) :
    tmp ≠ name ∧ tmp ≠ currentFileName dbname := by
  unfold tempFileName makeFileName at htmp
  unfold descriptorFileName at hname
  obtain ⟨c, rest, hdigits, hc⟩ := sixDigits_eq_cons number
  split at htmp
  · rename_i hpos
    rw [if_pos hpos] at hname
    cases htmp
    cases hname
    constructor
    · intro heq
      have heq := List.append_cancel_left heq
      rw [hdigits] at heq
      obtain rfl : c = 'M' := Option.some.inj (congrArg (fun l : FileName => l[1]?) heq)
      cases hc
    · intro heq
      have heq := List.append_cancel_left heq
      rw [hdigits] at heq
      obtain rfl : c = 'C' := Option.some.inj (congrArg (fun l : FileName => l[1]?) heq)
      cases hc
  · cases htmp


/-! ## No two names are the same -/

/-- Padding stays injective where it stops: the digits with their zeros give the number back. -/
theorem sixDigits_injective {n m : Nat} (h : sixDigits n = sixDigits m) : n = m := by
  have hvalue : ∀ number : Nat, Nat.ofDigitChars 10 (sixDigits number) 0 = number := by
    intro number
    unfold sixDigits List.leftpad
    rw [Nat.ofDigitChars_append, Nat.ofDigitChars_replicate_zero, Nat.mul_zero,
      Nat.ofDigitChars_ten_toDigits]
  rw [← hvalue n, h, hvalue m]

/-- A 64-bit number has at most twenty digits. -/
theorem sixDigits_length_le {n : Nat} (h : n < 2 ^ 64) : (sixDigits n).length ≤ 20 := by
  unfold sixDigits
  rw [List.length_leftpad]
  have hdigits : (Nat.toDigits 10 n).length ≤ 20 :=
    (Nat.length_toDigits_le_iff (by decide) (by decide)).mpr (by omega)
  omega

/-- What follows the digits does not matter. -/
theorem sixDigits_append_inj {n m : Nat} {s s' : FileName}
    (h : sixDigits n ++ '.' :: s = sixDigits m ++ '.' :: s') : n = m ∧ s = s' := by
  have hdigits : ∀ (number : Nat) (s : FileName),
      (sixDigits number ++ '.' :: s).takeWhile Char.isDigit = sixDigits number := by
    intro number s
    rw [List.takeWhile_append_of_pos fun c hc => sixDigits_isDigit hc]
    exact List.append_nil _
  have hsame : sixDigits n = sixDigits m := by
    rw [← hdigits n s, h, hdigits m s']
  rw [hsame] at h
  exact ⟨sixDigits_injective hsame, (List.cons.inj (List.append_cancel_left h)).2⟩

theorem sixDigits_append_ne {n : Nat} {s rest : FileName} {c : Char} (hc : c.isDigit = false) :
    sixDigits n ++ s ≠ c :: rest := by
  obtain ⟨d, digits, hdigits, hd⟩ := sixDigits_eq_cons n
  rw [hdigits]
  intro h
  rw [(List.cons.inj h).1, hc] at hd
  cases hd

/-- The functions that make file names. -/
inductive FileKind
  | log
  | temp
  | descriptor
  | current
  deriving DecidableEq

namespace FileKind

def name (k : FileKind) (dbname : FileName) (number : Nat) : Option FileName :=
  match k with
  | log => logFileName dbname number
  | temp => tempFileName dbname number
  | descriptor => descriptorFileName dbname number
  | current => some (currentFileName dbname)

/-- What follows the database name when nothing is cut off. -/
def text (k : FileKind) (number : Nat) : FileName :=
  match k with
  | log => '/' :: (sixDigits number ++ ['.', 'l', 'o', 'g'])
  | temp => '/' :: (sixDigits number ++ ['.', 'd', 'b', 't', 'm', 'p'])
  | descriptor => ['/', 'M', 'A', 'N', 'I', 'F', 'E', 'S', 'T', '-'] ++ sixDigits number
  | current => ['/', 'C', 'U', 'R', 'R', 'E', 'N', 'T']

variable {n m : Nat}

theorem text_length_lt (k : FileKind) (hn : n < 2 ^ 64) : (k.text n).length < 100 := by
  have hdigits := sixDigits_length_le hn
  cases k <;> simp [text] <;> omega

/-- The buffer is never too short. -/
theorem name_eq (k : FileKind) (dbname : FileName) (hpos : 0 < n) (hn : n < 2 ^ 64) :
    k.name dbname n = some (dbname ++ k.text n) := by
  have hfits : buffered (k.text n) = k.text n :=
    List.take_of_length_le (Nat.le_of_lt_succ (k.text_length_lt hn))
  cases k with
  | log =>
    show logFileName dbname n = _
    unfold logFileName makeFileName
    rw [if_pos hpos]
    exact congrArg (fun text => some (dbname ++ text)) hfits
  | temp =>
    show tempFileName dbname n = _
    unfold tempFileName makeFileName
    rw [if_pos hpos]
    exact congrArg (fun text => some (dbname ++ text)) hfits
  | descriptor =>
    show descriptorFileName dbname n = _
    unfold descriptorFileName
    rw [if_pos hpos]
    exact congrArg (fun text => some (dbname ++ text)) hfits
  | current => rfl

theorem text_inj : ∀ {k k' : FileKind}, k.text n = k'.text m → k = k' ∧ (k ≠ current → n = m)
  | log, log, h => ⟨rfl, fun _ => (sixDigits_append_inj (List.cons.inj h).2).1⟩
  | log, temp, h => absurd (sixDigits_append_inj (List.cons.inj h).2).2 (by decide)
  | log, descriptor, h => absurd (List.cons.inj h).2 (sixDigits_append_ne (by decide))
  | log, current, h => absurd (List.cons.inj h).2 (sixDigits_append_ne (by decide))
  | temp, log, h => absurd (sixDigits_append_inj (List.cons.inj h).2).2 (by decide)
  | temp, temp, h => ⟨rfl, fun _ => (sixDigits_append_inj (List.cons.inj h).2).1⟩
  | temp, descriptor, h => absurd (List.cons.inj h).2 (sixDigits_append_ne (by decide))
  | temp, current, h => absurd (List.cons.inj h).2 (sixDigits_append_ne (by decide))
  | descriptor, log, h => absurd (List.cons.inj h.symm).2 (sixDigits_append_ne (by decide))
  | descriptor, temp, h => absurd (List.cons.inj h.symm).2 (sixDigits_append_ne (by decide))
  | descriptor, descriptor, h => ⟨rfl, fun _ => sixDigits_injective (List.append_cancel_left h)⟩
  | descriptor, current, h => by cases h
  | current, log, h => absurd (List.cons.inj h.symm).2 (sixDigits_append_ne (by decide))
  | current, temp, h => absurd (List.cons.inj h.symm).2 (sixDigits_append_ne (by decide))
  | current, descriptor, h => by cases h
  | current, current, _ => ⟨rfl, fun hne => absurd rfl hne⟩

end FileKind

/-- **File names never collide**, for any two 64-bit numbers from 1 on: the buffer of 100 characters
holds what is written into it, names of one database are equal only if one function made them and,
except for `CURRENT`, of one number. -/
theorem fileNames_injective (dbname : FileName) {n m : Nat} (hn : 1 ≤ n) (hn' : n < 2 ^ 64)
    (hm : 1 ≤ m) (hm' : m < 2 ^ 64) :
    (∀ k : FileKind, (k.text n).length < 100 ∧ k.name dbname n = some (dbname ++ k.text n)) ∧
      (∀ k k' : FileKind, k.name dbname n = k'.name dbname m →
        k = k' ∧ (k ≠ .current → n = m)) ∧
      (sixDigits n = sixDigits m → n = m) := by
  refine ⟨fun k => ⟨k.text_length_lt hn', k.name_eq dbname hn hn'⟩, fun k k' h => ?_,
    sixDigits_injective⟩
  rw [k.name_eq dbname hn hn', k'.name_eq dbname hm hm'] at h
  exact FileKind.text_inj (List.append_cancel_left (Option.some.inj h))

/-- Logs on both sides of the width where padding stops. -/
theorem fileNames_injective_width :
    logFileName ['d', 'b'] 999999 ≠ logFileName ['d', 'b'] 1000000 := by
  intro h
  obtain ⟨-, hinj, -⟩ := fileNames_injective ['d', 'b'] (n := 999999) (m := 1000000)
    (by decide) (by decide) (by decide) (by decide)
  exact absurd ((hinj .log .log h).2 (by decide)) (by decide)

end LevelDB
