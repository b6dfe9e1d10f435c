import LevelDB.Lib.RefCounted
import LevelDB.VersionSet.Get
import LevelDB.VersionSet.LogAndApply

/-!
# The state of the database

`Db` holds the variables of `DBImpl` that its threads share, the memtables behind the pointers
`mem_` and `imm_`, and the files. `DbConfig` holds the options and, as functions, the parts that
are not in this repository; what is assumed of these is stated one by one (`RecordsFirst`,
`ReusesLast`, `AnswersReads`, `NewestFirst`, `KeepsLive`, `IteratesAll`).

* `maybeScheduleCompaction_eq` — only the job queue changes.
-/

set_option autoImplicit false

namespace LevelDB

/-- The options, and the parts of the database that are not in this repository. -/
structure DbConfig (U V R : Type) (N : Nat) where
  version : VersionConfig (InternalKey U) R N
  writeBufferSize : Nat
  l0SlowdownWritesTrigger : Nat
  l0StopWritesTrigger : Nat
  /-- `MemTable::ApproximateMemoryUsage`. -/
  approximateMemoryUsage : List (Entry U V) → Nat
  /-- `MemTable::NewIterator`: the entries in the order of the iterator. -/
  newIterator : List (Entry U V) → List (Entry U V)
  /-- `MemTable::Get`: nothing for the key, or what the entry found says. -/
  memTableGet : List (Entry U V) → LookupKey U → Option (Option V)
  /-- `TableCache::Get` with `SaveValue` on a table file. -/
  tableCacheGet : Option (List (Entry U V)) → LookupKey U → Status × SaverState V
  /-- The files that `Version::ForEachOverlapping` offers, in order. -/
  forEachOverlapping : Version (InternalKey U) N → LookupKey U →
    List (Fin N × FileMetaData (InternalKey U))
  pickLevelForMemTableOutput : Version (InternalKey U) N → U → U → Fin N
  /-- The background error after `RecordBackgroundError`. -/
  recordBackgroundError : Status → Status → Status
  /-- `VersionSet::ReuseFileNumber`: the next file number afterwards. -/
  reuseFileNumber : Nat → Nat → Nat
  /-- The table files that `RemoveObsoleteFiles` removes, given the versions in use and the pending
  outputs. -/
  obsolete : List (Version (InternalKey U) N) → Finset Nat → Nat → Bool
  /-- The bytes of a user key, for messages. -/
  keyText : U → String

/-- The entries of a memtable, in the order in which they were added. -/
abbrev MemTable (U V : Type) : Type := List (Entry U V)

/-- What one `AddRecord` on the log file appends. -/
structure LogRecord (U V : Type) where
  sequence : Nat
  ops : List (BatchOp U V)
  deriving DecidableEq

structure Db (U V R : Type) (N : Nat) where
  shuttingDown : Bool := false
  mem : Nat
  imm : Option Nat := none
  hasImm : Bool := false
  /-- `logfile_` with the writer `log_` on it, by the number of the file. -/
  logfile : Option Nat
  logfileNumber : Nat
  versions : VersionSet (InternalKey U) N
  pendingOutputs : Finset Nat := ∅
  backgroundCompactionScheduled : Bool := false
  bgError : Status := .OK
  /-- The memtables that have not been deleted, with their `refs_`, by their addresses. -/
  memtables : RefCounted.Heap (MemTable U V)
  nextMem : Nat
  logs : Nat → Option (List (LogRecord U V))
  tables : Nat → Option (List (Entry U V))
  /-- The manifests and `CURRENT`. -/
  disk : Disk R
  /-- The calls of `BGWork` handed to `Env::Schedule` and not yet started. -/
  jobQueue : Nat := 0
  /-- What `versions_->NeedsCompaction()` returns. -/
  needsCompaction : Bool := false

variable {U V R : Type} {N : Nat}

/-- Some level of the version lists a file with this number. -/
def Version.Lists (v : Version (InternalKey U) N) (number : Nat) : Prop :=
  ∃ level, ∃ f ∈ v.files level, f.number = number

def Version.numLevelFiles (v : Version (InternalKey U) N) (level : Nat) : Nat :=
  if h : level < N then (v.files ⟨level, h⟩).length else 0

/-! ## What is assumed of the parts that are not here -/

namespace DbConfig

variable (cfg : DbConfig U V R N)

abbrev ok (s : Status) : Bool := cfg.version.ok s

/-- The first error stays. -/
def RecordsFirst : Prop :=
  ∀ e s, cfg.recordBackgroundError e s = if e = .OK then s else e

/-- The number that was drawn last is given back. -/
def ReusesLast : Prop := ∀ n, cfg.reuseFileNumber (n + 1) n = n

/-- Lookups in a memtable and in a table answer for the entries up to the snapshot. -/
structure AnswersReads : Prop where
  memNone : ∀ es k, cfg.memTableGet es k = none → ∀ e ∈ es, ¬ e.Visible k
  memSome : ∀ es k r, cfg.memTableGet es k = some r →
    ∃ e, Layered.Newest Entry.number (Entry.Visible k) {e | e ∈ es} e ∧ r = e.outcome
  table : ∀ es k,
    ((∀ e ∈ es, ¬ e.Visible k) ∧ cfg.tableCacheGet (some es) k = (.OK, .notFound)) ∨
      ∃ e, Layered.Newest Entry.number (Entry.Visible k) {e | e ∈ es} e ∧
        cfg.tableCacheGet (some es) k =
          (.OK, match e.outcome with
            | some v => .found v
            | none => .deleted)

/-- `ForEachOverlapping` offers listed files only, all of them that hold the key, newest first. -/
structure NewestFirst (tables : Nat → Option (List (Entry U V)))
    (v : Version (InternalKey U) N) (k : LookupKey U) : Prop where
  listed : ∀ p ∈ cfg.forEachOverlapping v k, v.Lists p.2.number
  covers : ∀ n, v.Lists n → ∀ es, tables n = some es → ∀ e ∈ es, e.Visible k →
    ∃ p ∈ cfg.forEachOverlapping v k, p.2.number = n
  newest : (cfg.forEachOverlapping v k).Pairwise fun p q =>
    ∀ es es', tables p.2.number = some es → tables q.2.number = some es' →
      ∀ e ∈ es, e.Visible k → ∀ e' ∈ es', e'.Visible k → e'.number < e.number

/-- `RemoveObsoleteFiles` keeps what a version in use lists and what is being written. -/
def KeepsLive : Prop :=
  ∀ live pending number, cfg.obsolete live pending number = true →
    number ∉ pending ∧ ∀ v ∈ live, ¬ v.Lists number

/-- The iterator of a memtable visits all entries. -/
def IteratesAll : Prop := ∀ es, (cfg.newIterator es).Perm es

end DbConfig

namespace Db

variable (db : Db U V R N)

/-- The entries of a memtable, none if it has been deleted. -/
def entries (m : Nat) : List (Entry U V) := (db.memtables.content m).getD []

/-- `MemTable::Unref`. -/
def unrefMemTable (m : Nat) : Option (Db U V R N) :=
  (db.memtables.unref m).map fun memtables => { db with memtables }

/-! ## Scheduling -/

def maybeScheduleCompaction (cfg : DbConfig U V R N) : Db U V R N :=
  if db.backgroundCompactionScheduled then db
  else if db.shuttingDown then db
  else if ¬ cfg.ok db.bgError then db
  else if db.imm = none ∧ ¬ db.needsCompaction then db
  else { db with backgroundCompactionScheduled := true, jobQueue := db.jobQueue + 1 }

def recordBackgroundError (cfg : DbConfig U V R N) (s : Status) : Db U V R N :=
  { db with bgError := cfg.recordBackgroundError db.bgError s }

theorem maybeScheduleCompaction_eq (cfg : DbConfig U V R N) :
    db.maybeScheduleCompaction cfg = db ∨ db.backgroundCompactionScheduled = false ∧
      db.maybeScheduleCompaction cfg =
        { db with backgroundCompactionScheduled := true, jobQueue := db.jobQueue + 1 } := by
  unfold maybeScheduleCompaction
  split
  · exact Or.inl rfl
  · rename_i hscheduled
    split
    · exact Or.inl rfl
    · split
      · exact Or.inl rfl
      · split
        · exact Or.inl rfl
        · exact Or.inr ⟨by simpa using hscheduled, rfl⟩

end Db

end LevelDB
