import LevelDB.Db.State

/-!
# Building a table and flushing a memtable

`BuildTable`, and `CompactMemtable` with `WriteLevel0Table` in the parts into which the mutex cuts
them: `flushBegin` draws the file number, `flushBuild` runs with the mutex released, `flushBuilt`
goes up to the write of `LogAndApply`, `applyWrite` runs with the mutex released, and `flushFinish`
ends the call. `BuildTable` never sets `meta->file_size`, which stays 0.

* `buildTable_eq_some` — what `BuildTable` returns, and that it touches its own file only;
* `level0Edit_eq` — so the edit of a flush adds no file;
* `flushBegin_eq_some`, `flushBuild_eq_some`, `flushBuilt_cases`, `applyBegin_eq_some`,
  `applyWrite_eq_some`, `applyFinish_ok`, `dropImm_eq_some` — the other parts.
-/

set_option autoImplicit false

namespace LevelDB

variable {U V R : Type} {N : Nat}

/-- The outcomes of the steps of `BuildTable`. -/
structure BuildOutcomes (U V : Type) where
  newFile : Status := .OK
  opened : Bool := true
  finish : Status := .OK
  /-- What is in the file after a `Finish` that failed. -/
  left : List (Entry U V) := []
  sync : Status := .OK
  close : Status := .OK
  /-- The status of the iterator that the table cache opens on the file. -/
  check : Status := .OK
  /-- `iter->status()` at the end. -/
  iter : Status := .OK
  remove : Status := .OK

/-- The `FileMetaData` that `BuildTable` fills in; the keys are set when there is an entry. -/
structure TableMeta (U : Type) where
  number : Nat
  fileSize : Nat := 0
  smallest : Option (InternalKey U) := none
  largest : Option (InternalKey U) := none

structure Built (U V : Type) where
  s : Status
  fileMeta : TableMeta U
  tables : Nat → Option (List (Entry U V))

/-- The table that is being written: `imm_`, the version it goes on top of, and its number. -/
structure Flush (U : Type) (N : Nat) where
  mem : Nat
  base : Version (InternalKey U) N
  number : Nat

/-- What follows `WriteLevel0Table`. -/
inductive FlushNext (U : Type) (N : Nat)
  | logs (i : Install (InternalKey U) N)
  | fails (s : Status)

section Model

variable (ok : Status → Bool)

/-- `Finish`, `Sync`, `Close` and the check of the table, each after the one before succeeded. -/
def BuildOutcomes.chain (o : BuildOutcomes U V) : Status :=
  let s := o.finish
  let s := if ok s then o.sync else s
  let s := if ok s then o.close else s
  if ok s then o.check else s

/-- The end of `BuildTable`: the error of the iterator, and whether the file is kept. The status of
`RemoveFile` is not looked at. -/
def buildEnd (tables : Nat → Option (List (Entry U V))) (fileMeta : TableMeta U) (s : Status)
    (o : BuildOutcomes U V) : Built U V :=
  let s := if ok o.iter then s else o.iter
  if ok s ∧ fileMeta.fileSize > 0 then { s, fileMeta, tables }
  else
    { s, fileMeta,
      tables := if o.remove = .OK then Function.update tables fileMeta.number none else tables }

def buildTable (tables : Nat → Option (List (Entry U V))) (number : Nat)
    (iter : List (Entry U V)) (o : BuildOutcomes U V) : Option (Built U V) :=
  match iter with
  | [] => some (buildEnd ok tables { number } .OK o)
  | first :: rest =>
    if ok o.newFile then
      if o.opened then
        some (buildEnd ok
          (Function.update tables number
            (some (if o.finish = .OK then first :: rest else o.left)))
          { number, smallest := some first.key, largest := some (rest.getLastD first).key }
          (o.chain ok) o)
      else none
    else some { s := o.newFile, fileMeta := { number }, tables }

variable (cfg : DbConfig U V R N)

def flushBegin (db : Db U V R N) : Option (Db U V R N × Flush U N) :=
  db.imm.map fun m =>
    ({ db with
        versions := db.versions.newFileNumber.2
        pendingOutputs := insert db.versions.newFileNumber.1 db.pendingOutputs },
      { mem := m, base := db.versions.current, number := db.versions.newFileNumber.1 })

/-- `BuildTable`, called with the mutex released. -/
def flushBuild (db : Db U V R N) (f : Flush U N) (o : BuildOutcomes U V) :
    Option (Db U V R N × Built U V) := do
  let entries ← db.memtables.content f.mem
  let built ← buildTable cfg.ok db.tables f.number (cfg.newIterator entries) o
  pure ({ db with tables := built.tables }, built)

/-- The edit that `WriteLevel0Table` fills in. -/
def level0Edit (base : Version (InternalKey U) N) (fileMeta : TableMeta U) (s : Status) :
    Option (VersionEdit (InternalKey U) N) :=
  if cfg.ok s ∧ fileMeta.fileSize > 0 then
    fileMeta.smallest.bind fun smallest => fileMeta.largest.map fun largest =>
      ({} : VersionEdit (InternalKey U) N).addFile
        (cfg.pickLevelForMemTableOutput base smallest.userKey largest.userKey)
        fileMeta.number fileMeta.fileSize smallest largest
  else some {}

/-- `LogAndApply` up to the point where it releases the mutex. -/
def applyBegin [Std.TransCmp cfg.version.icmp] (db : Db U V R N)
    (edit : VersionEdit (InternalKey U) N) (o : ApplyOutcomes) :
    Option (Db U V R N × Install (InternalKey U) N) :=
  (logAndApplyBegin cfg.version db.versions db.disk edit o).map fun r =>
    ({ db with versions := r.1, disk := r.2.1 }, r.2.2)

/-- The part of `LogAndApply` that runs with the mutex released. -/
def applyWrite (db : Db U V R N) (i : Install (InternalKey U) N) (o : ApplyOutcomes) :
    Option (Db U V R N × Install (InternalKey U) N) :=
  (logAndApplyWrite cfg.version db.versions db.disk i o).map fun r =>
    ({ db with disk := r.1 }, r.2)

/-- The end of `LogAndApply`; with a new version `NeedsCompaction` may change to `needs`. -/
def applyFinish (db : Db U V R N) (i : Install (InternalKey U) N) (o : ApplyOutcomes)
    (needs : Bool) : Db U V R N :=
  { db with
    versions := (logAndApplyFinish cfg.version db.versions db.disk i o).1
    disk := (logAndApplyFinish cfg.version db.versions db.disk i o).2
    needsCompaction := if cfg.ok i.s then needs else db.needsCompaction }

/-- A flush fails once the database is being deleted. -/
def checkShutdown (s : Status) (shuttingDown : Bool) : Status :=
  if cfg.ok s ∧ shuttingDown then .IOError "Delete DB during memtable compaction" "" else s

/-- From the return of `BuildTable` to the release of the mutex in `LogAndApply`, or to the error;
`shuttingDown` is what `CompactMemtable` reads from `shutting_down_`. -/
def flushBuilt [Std.TransCmp cfg.version.icmp] (db : Db U V R N) (f : Flush U N)
    (fileMeta : TableMeta U) (s : Status) (shuttingDown : Bool) (o : ApplyOutcomes) :
    Option (Db U V R N × FlushNext U N) := do
  let edit ← level0Edit cfg f.base fileMeta s
  let db := { db with pendingOutputs := db.pendingOutputs.erase fileMeta.number }
  if cfg.ok (checkShutdown cfg s shuttingDown) then
    let r ← applyBegin cfg db ((edit.setPrevLogNumber 0).setLogNumber db.logfileNumber) o
    pure (r.1, .logs r.2)
  else pure (db, .fails (checkShutdown cfg s shuttingDown))

/-- `RemoveObsoleteFiles`; `others` are the versions in use besides the current one. -/
def removeObsoleteFiles (db : Db U V R N) (others : List (Version (InternalKey U) N)) :
    Db U V R N :=
  { db with
    tables := fun number =>
      if cfg.obsolete (db.versions.current :: others) db.pendingOutputs number then none
      else db.tables number }

/-- `imm_` is given up for the table. -/
def dropImm (db : Db U V R N) : Option (Db U V R N) := do
  let m ← db.imm
  let db ← db.unrefMemTable m
  pure { db with imm := none, hasImm := false }

/-- From the return of `LogAndApply` to the end of `CompactMemtable`. -/
def flushFinish (db : Db U V R N) (i : Install (InternalKey U) N) (o : ApplyOutcomes)
    (needs : Bool) (others : List (Version (InternalKey U) N)) : Option (Db U V R N) :=
  if cfg.ok i.s then
    (dropImm (applyFinish cfg db i o needs)).map fun db => removeObsoleteFiles cfg db others
  else some ((applyFinish cfg db i o needs).recordBackgroundError cfg i.s)

end Model

/-! ## BuildTable -/

section Build

variable {ok : Status → Bool} {tables : Nat → Option (List (Entry U V))} {number : Nat}
  {iter : List (Entry U V)} {o : BuildOutcomes U V} {b : Built U V}

/-- The status that `BuildTable` returns for an iterator with entries. -/
def BuildOutcomes.status (ok : Status → Bool) (o : BuildOutcomes U V) : Status :=
  if ok o.newFile then if ok o.iter then o.chain ok else o.iter else o.newFile

theorem buildEnd_fields (fileMeta : TableMeta U) (s : Status) :
    (buildEnd ok tables fileMeta s o).fileMeta = fileMeta ∧
      (buildEnd ok tables fileMeta s o).s = (if ok o.iter then s else o.iter) ∧
      ∀ n ≠ fileMeta.number, (buildEnd ok tables fileMeta s o).tables n = tables n := by
  unfold buildEnd
  generalize (if ok o.iter then s else o.iter) = status
  dsimp only
  split
  · exact ⟨rfl, rfl, fun _ _ => rfl⟩
  · refine ⟨rfl, rfl, fun n hn => ?_⟩
    dsimp only
    split
    · exact Function.update_of_ne hn _ _
    · rfl

/-- **`BuildTable`** writes and removes its own file only, and leaves `file_size` at 0. -/
theorem buildTable_eq_some (h : buildTable ok tables number iter o = some b) :
    b.fileMeta.number = number ∧ b.fileMeta.fileSize = 0 ∧ ∀ n ≠ number, b.tables n = tables n := by
  unfold buildTable at h
  split at h
  · cases h
    obtain ⟨hmeta, -, htables⟩ :=
      @buildEnd_fields U V ok tables o { number := number } .OK
    rw [hmeta]
    exact ⟨rfl, rfl, htables⟩
  · split at h
    · split at h
      · cases h
        obtain ⟨hmeta, -, htables⟩ := @buildEnd_fields U V ok _ o _ _
        rw [hmeta]
        exact ⟨rfl, rfl, fun n hn => (htables n hn).trans (Function.update_of_ne hn _ _)⟩
      · cases h
    · cases h
      exact ⟨rfl, rfl, fun _ _ => rfl⟩

theorem buildTable_status (h : buildTable ok tables number iter o = some b) (hiter : iter ≠ []) :
    b.s = o.status ok := by
  unfold BuildOutcomes.status
  unfold buildTable at h
  split at h
  · exact absurd rfl hiter
  · split at h
    · rename_i hnew
      rw [if_pos hnew]
      split at h
      · cases h
        exact buildEnd_fields _ _ |>.2.1
      · cases h
    · rename_i hnew
      rw [if_neg hnew]
      cases h
      rfl

end Build

/-! ## The other parts -/

section Parts

variable {cfg : DbConfig U V R N} {db db' : Db U V R N} {i i' : Install (InternalKey U) N}
  {o : ApplyOutcomes}

/-- **The edit of a flush adds no file**, since the size of the table is never known. -/
theorem level0Edit_eq (base : Version (InternalKey U) N) {fileMeta : TableMeta U} (s : Status)
    (hsize : fileMeta.fileSize = 0) : level0Edit cfg base fileMeta s = some {} := by
  unfold level0Edit
  rw [if_neg (by omega)]

/-- What a flush gives to `LogAndApply`. -/
def flushLogEdit (logfileNumber : Nat) : VersionEdit (InternalKey U) N :=
  (({} : VersionEdit (InternalKey U) N).setPrevLogNumber 0).setLogNumber logfileNumber

theorem flushBegin_eq_some {f : Flush U N} (h : flushBegin db = some (db', f)) :
    ∃ m, db.imm = some m ∧
      f = { mem := m, base := db.versions.current, number := db.versions.nextFileNumber } ∧
      db' = { db with
        versions := db.versions.newFileNumber.2
        pendingOutputs := insert db.versions.nextFileNumber db.pendingOutputs } := by
  obtain ⟨m, himm, h⟩ := Option.map_eq_some_iff.mp h
  cases h
  exact ⟨m, himm, rfl, rfl⟩

theorem flushBuild_eq_some {f : Flush U N} {o : BuildOutcomes U V} {built : Built U V}
    (h : flushBuild cfg db f o = some (db', built)) :
    ∃ entries, db.memtables.content f.mem = some entries ∧
      buildTable cfg.ok db.tables f.number (cfg.newIterator entries) o = some built ∧
      db' = { db with tables := built.tables } := by
  obtain ⟨entries, hentries, h⟩ := Option.bind_eq_some_iff.mp h
  obtain ⟨built', htable, h⟩ := Option.bind_eq_some_iff.mp h
  cases h
  exact ⟨entries, hentries, htable, rfl⟩

theorem applyWrite_eq_some (h : applyWrite cfg db i o = some (db', i')) :
    i'.edit = i.edit ∧ i'.v = i.v ∧ ∃ disk, db' = { db with disk } := by
  obtain ⟨⟨disk, i₁⟩, hwrite, h⟩ := Option.map_eq_some_iff.mp h
  cases h
  obtain ⟨⟨hedit, hv, -⟩, -⟩ := logAndApplyWrite_eq_some hwrite
  exact ⟨hedit, hv, disk, rfl⟩

theorem applyFinish_ok (h : cfg.ok i.s = true) (needs : Bool) :
    applyFinish cfg db i o needs =
      { db with
        versions := { db.versions with
          current := i.v, logNumber := i.edit.logNumber, prevLogNumber := i.edit.prevLogNumber }
        needsCompaction := needs } := by
  unfold applyFinish
  rw [logAndApplyFinish_ok h, if_pos h]

theorem applyFinish_error (h : cfg.ok i.s = false) (needs : Bool) :
    ∃ descriptor disk, applyFinish cfg db i o needs =
      { db with versions := { db.versions with descriptor }, disk } := by
  unfold applyFinish
  rw [if_neg (by simp [h])]
  by_cases hnew : i.newManifestFile = []
  · rw [logAndApplyFinish_open h hnew]
    exact ⟨db.versions.descriptor, db.disk, rfl⟩
  · rw [logAndApplyFinish_new h hnew]
    exact ⟨none, _, rfl⟩

theorem dropImm_eq_some (h : dropImm db = some db') :
    ∃ m memtables, db.imm = some m ∧ db.memtables.unref m = some memtables ∧
      db' = { db with memtables, imm := none, hasImm := false } := by
  obtain ⟨m, himm, h⟩ := Option.bind_eq_some_iff.mp h
  obtain ⟨db₁, hdrop, h⟩ := Option.bind_eq_some_iff.mp h
  obtain ⟨memtables, hunref, rfl⟩ := Option.map_eq_some_iff.mp hdrop
  cases h
  exact ⟨m, memtables, himm, hunref, rfl⟩

variable [Std.TransCmp cfg.version.icmp]

/-- **The locked first part of `LogAndApply`**, seen from the database. -/
theorem applyBegin_eq_some {edit : VersionEdit (InternalKey U) N}
    (h : applyBegin cfg db edit o = some (db', i)) :
    i.edit.lastSequence = db.versions.lastSequence ∧
      (∀ level, ∀ f ∈ i.v.files level,
        f ∈ db.versions.current.files level ∨ ∃ g ∈ edit.newAt level, f = g.adopted) ∧
      ∃ compactPointer descriptor disk, db' = { db with
        versions := { db.versions with compactPointer, descriptor }, disk } := by
  obtain ⟨⟨vs, disk, i₁⟩, hbegin, h⟩ := Option.map_eq_some_iff.mp h
  cases h
  obtain ⟨hfill, -, hends⟩ := logAndApplyBegin_eq_some hbegin
  refine ⟨(filled_of_fillEdit hfill).lastSequence,
    fun level f hf => logAndApplyBegin_files hbegin hf, ?_⟩
  rcases hends with ⟨m, hm, rfl, rfl, -, -⟩ | ⟨hnull, -, ⟨-, -, rfl, rfl⟩ | ⟨-, -, -, rfl, rfl⟩⟩
  · exact ⟨_, db.versions.descriptor, _, rfl⟩
  · exact ⟨_, db.versions.descriptor, _, rfl⟩
  · exact ⟨_, some _, _, rfl⟩

/-- **From `BuildTable` to the record of the edit** or to the error. -/
inductive FlushBuilt (cfg : DbConfig U V R N) [Std.TransCmp cfg.version.icmp] (db : Db U V R N)
    (f : Flush U N) (fileMeta : TableMeta U) (s : Status) (shuttingDown : Bool)
    (o : ApplyOutcomes) : Db U V R N → FlushNext U N → Prop
  | logs {edit : VersionEdit (InternalKey U) N} {db' : Db U V R N} {i : Install (InternalKey U) N}
      (hedit : level0Edit cfg f.base fileMeta s = some edit)
      (hok : cfg.ok (checkShutdown cfg s shuttingDown) = true)
      (hbegin : applyBegin cfg { db with pendingOutputs := db.pendingOutputs.erase fileMeta.number }
        ((edit.setPrevLogNumber 0).setLogNumber db.logfileNumber) o = some (db', i)) :
      FlushBuilt cfg db f fileMeta s shuttingDown o db' (.logs i)
  | fails (hfail : cfg.ok (checkShutdown cfg s shuttingDown) = false) :
      FlushBuilt cfg db f fileMeta s shuttingDown o
        { db with pendingOutputs := db.pendingOutputs.erase fileMeta.number }
        (.fails (checkShutdown cfg s shuttingDown))

section Built

variable {f : Flush U N} {fileMeta : TableMeta U} {s : Status} {shuttingDown : Bool}
  {next : FlushNext U N}

theorem flushBuilt_cases (h : flushBuilt cfg db f fileMeta s shuttingDown o = some (db', next)) :
    FlushBuilt cfg db f fileMeta s shuttingDown o db' next := by
  unfold flushBuilt at h
  obtain ⟨edit, hedit, h⟩ := Option.bind_eq_some_iff.mp h
  dsimp only at h
  split at h
  · rename_i hok
    obtain ⟨⟨db₁, i⟩, hbegin, h⟩ := Option.bind_eq_some_iff.mp h
    cases h
    exact .logs hedit hok hbegin
  · rename_i hfail
    cases h
    exact .fails (by simpa using hfail)

/-- The part between touches the version set, the pending outputs and the manifests only, and in the
version set neither the current version nor the counters. -/
theorem flushBuilt_db (h : flushBuilt cfg db f fileMeta s shuttingDown o = some (db', next)) :
    ∃ compactPointer descriptor pendingOutputs disk, db' = { db with
      versions := { db.versions with compactPointer, descriptor }, pendingOutputs, disk } := by
  cases flushBuilt_cases h with
  | logs hedit hok hbegin =>
    obtain ⟨-, -, compactPointer, descriptor, disk, rfl⟩ := applyBegin_eq_some hbegin
    exact ⟨_, _, _, _, rfl⟩
  | fails => exact ⟨db.versions.compactPointer, db.versions.descriptor, _, db.disk, rfl⟩

/-- The edit of a flush records the last sequence number. -/
theorem flushBuilt_logs (h : flushBuilt cfg db f fileMeta s shuttingDown o = some (db', .logs i)) :
    i.edit.lastSequence = db.versions.lastSequence := by
  cases flushBuilt_cases h with
  | logs hedit hok hbegin => exact (applyBegin_eq_some hbegin).1

theorem flushBuilt_eq_some (hsize : fileMeta.fileSize = 0)
    (h : flushBuilt cfg db f fileMeta s shuttingDown o = some (db', next)) :
    (∃ i, next = .logs i ∧
      cfg.ok (checkShutdown cfg s shuttingDown) = true ∧
      applyBegin cfg { db with pendingOutputs := db.pendingOutputs.erase fileMeta.number }
        (flushLogEdit db.logfileNumber) o = some (db', i)) ∨
      next = .fails (checkShutdown cfg s shuttingDown) ∧
        cfg.ok (checkShutdown cfg s shuttingDown) = false ∧
        db' = { db with pendingOutputs := db.pendingOutputs.erase fileMeta.number } := by
  cases flushBuilt_cases h with
  | logs hedit hok hbegin =>
    rw [level0Edit_eq f.base s hsize] at hedit
    cases hedit
    exact Or.inl ⟨_, rfl, hok, hbegin⟩
  | fails hfail => exact Or.inr ⟨rfl, hfail, rfl⟩

end Built

end Parts

end LevelDB
