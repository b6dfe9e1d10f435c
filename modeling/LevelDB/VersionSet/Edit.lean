import LevelDB.Lib.Ordered
import Mathlib.Algebra.Group.Int.Defs
import Mathlib.Algebra.Ring.Nat

/-!
# Version edits

`FileMetaData` describes one table file, `VersionEdit` a change of the set of files together with
the counters it records. `K` is the type of internal keys and `N` the number of levels
(`config::kNumLevels`).
-/

set_option autoImplicit false

namespace LevelDB

variable {K : Type} {N : Nat}

structure FileMetaData (K : Type) where
  number : Nat
  fileSize : Nat := 0
  smallest : K
  largest : K
  allowedSeeks : Int := 2 ^ 30
  deriving DecidableEq

/-- The order of `std::pair<int, uint64_t>`, by which the deleted files of an edit are kept. -/
def byLevelThenNumber (a b : Fin N × Nat) : Prop :=
  a.1 < b.1 ∨ a.1 = b.1 ∧ a.2 < b.2

instance : DecidableRel (@byLevelThenNumber N) := fun a b =>
  inferInstanceAs (Decidable (a.1 < b.1 ∨ a.1 = b.1 ∧ a.2 < b.2))

instance : IsStrictOrder (Fin N × Nat) byLevelThenNumber where
  irrefl a h := by
    rcases h with h | ⟨_, h⟩
    · exact absurd h (by omega)
    · exact absurd h (by omega)
  trans a b c hab hbc := by
    unfold byLevelThenNumber at hab hbc ⊢
    omega

structure VersionEdit (K : Type) (N : Nat) where
  comparator : String := ""
  logNumber : Nat := 0
  prevLogNumber : Nat := 0
  nextFileNumber : Nat := 0
  lastSequence : Nat := 0
  hasComparator : Bool := false
  hasLogNumber : Bool := false
  hasPrevLogNumber : Bool := false
  hasNextFileNumber : Bool := false
  hasLastSequence : Bool := false
  compactPointers : List (Fin N × K) := []
  deletedFiles : Ordered.SortedSet (@byLevelThenNumber N) := .empty
  newFiles : List (Fin N × FileMetaData K) := []

namespace VersionEdit

/-- `Clear` as written: the compaction pointers stay. -/
def clear (edit : VersionEdit K N) : VersionEdit K N :=
  { edit with
    comparator := "", logNumber := 0, prevLogNumber := 0, lastSequence := 0, nextFileNumber := 0
    hasLastSequence := false, hasLogNumber := false, hasPrevLogNumber := false
    hasNextFileNumber := false, hasComparator := false
    deletedFiles := .empty, newFiles := [] }

def setComparatorName (edit : VersionEdit K N) (name : String) : VersionEdit K N :=
  { edit with hasComparator := true, comparator := name }

def setLogNumber (edit : VersionEdit K N) (num : Nat) : VersionEdit K N :=
  { edit with hasLogNumber := true, logNumber := num }

def setPrevLogNumber (edit : VersionEdit K N) (num : Nat) : VersionEdit K N :=
  { edit with hasPrevLogNumber := true, prevLogNumber := num }

def setNextFile (edit : VersionEdit K N) (num : Nat) : VersionEdit K N :=
  { edit with hasNextFileNumber := true, nextFileNumber := num }

def setLastSequence (edit : VersionEdit K N) (seq : Nat) : VersionEdit K N :=
  { edit with hasLastSequence := true, lastSequence := seq }

def setCompactPointer (edit : VersionEdit K N) (level : Fin N) (key : K) : VersionEdit K N :=
  { edit with compactPointers := edit.compactPointers ++ [(level, key)] }

def addFile (edit : VersionEdit K N) (level : Fin N) (file fileSize : Nat) (smallest largest : K) :
    VersionEdit K N :=
  { edit with
    newFiles := edit.newFiles ++ [(level, { number := file, fileSize, smallest, largest })] }

def removeFile (edit : VersionEdit K N) (level : Fin N) (file : Nat) : VersionEdit K N :=
  { edit with deletedFiles := edit.deletedFiles.insert (level, file) }

/-- The files an edit adds at a level, in the order of `newFiles`. -/
def newAt (edit : VersionEdit K N) (level : Fin N) : List (FileMetaData K) :=
  (edit.newFiles.filter (fun p => p.1 == level)).map Prod.snd

/-- The numbers an edit deletes at a level. -/
def deletedAt (edit : VersionEdit K N) (level : Fin N) : List Nat :=
  (edit.deletedFiles.toList.filter (fun p => p.1 == level)).map Prod.snd

end VersionEdit

end LevelDB
