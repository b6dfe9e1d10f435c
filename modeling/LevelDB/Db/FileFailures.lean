import LevelDB.Db.BuildTable
import LevelDB.Db.CompactMemTable
import LevelDB.Db.Room

/-!
# Failures of file operations, with the status and the environment as written

`Status::ok` answers true for every status, and `PosixEnv::NewWritableFile` returns the OK status
with a null file when the file cannot be opened. `FileReport` says what a call met and did.

* `takesError_iff` — so a call does what it should only if nothing fails in it;
* `buildReport_failed`, `applyReport_failed` — when something fails in `BuildTable` and in
  `LogAndApply`;
* `failures_taken_iff` — for these and `MakeRoomForWrite`.
-/

set_option autoImplicit false

namespace LevelDB

variable {U V R K : Type} {N : Nat}

/-- `PosixEnv::NewWritableFile`, for the file descriptor that `::open` returned. -/
def posixNewWritableFile (fd : Int) : Status × Option Int :=
  if fd < 0 then (.OK, none) else (.OK, some fd)

/-- What a call met and did: whether a file operation in it failed, whether it installed a null file
or handed one on, and the status that it returned, if it did not stop at a null pointer before. -/
structure FileReport where
  failed : Prop
  nullFile : Prop
  status : Option Status

/-- No failure is taken for success. -/
def FileReport.TakesError (ok : Status → Bool) (r : FileReport) : Prop :=
  (r.failed → ∃ s, r.status = some s ∧ ok s = false) ∧ ¬ r.nullFile

/-- A null file comes from an operation that failed. -/
theorem takesError_iff {r : FileReport} (hnull : r.nullFile → r.failed) :
    r.TakesError Status.ok ↔ ¬ r.failed := by
  constructor
  · rintro ⟨htaken, -⟩ hfailed
    obtain ⟨s, -, hs⟩ := htaken hfailed
    cases hs
  · intro hgood
    exact ⟨fun hfailed => absurd hfailed hgood, fun h => hgood (hnull h)⟩

/-! ## The three calls -/

/-- The pass of the loop in which `MakeRoomForWrite` creates a log file. -/
def CreatesLog (cfg : DbConfig U V R N) (db : Db U V R N) (room : Room) : Prop :=
  cfg.ok db.bgError = false ∧ ¬ Slowed cfg db room ∧ NoRoom cfg db room ∧ ¬ Blocked cfg db

def CreateOutcome.posix (fd : Int) : CreateOutcome where
  status := (posixNewWritableFile fd).1
  opened := (posixNewWritableFile fd).2.isSome

def roomReport (cfg : DbConfig U V R N) (fd : Int) (db : Db U V R N) (room : Room) :
    FileReport where
  failed := CreatesLog cfg db room ∧ (posixNewWritableFile fd).2 = none
  nullFile := ∃ db' e, makeRoom cfg (.posix fd) db room = some (db', e) ∧
    db.logfile ≠ none ∧ db'.logfile = none
  status :=
    match makeRoom cfg (.posix fd) db room with
    | some (_, .returns s) => some s
    | _ => none

def BuildOutcomes.posix (fd : Int) (o : BuildOutcomes U V) : BuildOutcomes U V :=
  { o with
    newFile := (posixNewWritableFile fd).1, opened := (posixNewWritableFile fd).2.isSome }

def buildReport (ok : Status → Bool) (tables : Nat → Option (List (Entry U V))) (number : Nat)
    (iter : List (Entry U V)) (fd : Int) (o : BuildOutcomes U V) : FileReport where
  failed := (iter ≠ [] ∧ (posixNewWritableFile fd).2 = none) ∨
    ∃ b calls, tracedBuild ok tables number iter (o.posix fd) = some (b, calls) ∧
      ∃ c ∈ calls, c.2 ≠ .OK
  nullFile := iter ≠ [] ∧ ok (posixNewWritableFile fd).1 = true ∧
    (posixNewWritableFile fd).2 = none
  status := (buildTable ok tables number iter (o.posix fd)).map Built.s

def FileOp.failed : FileOp R → Prop
  | newWritableFile _ opened status => opened = false ∨ status ≠ .OK
  | addRecord _ _ status => status ≠ .OK
  | sync _ status => status ≠ .OK
  | writeStringToFileSync _ _ _ status => status ≠ .OK
  | renameFile _ _ status => status ≠ .OK
  | removeFile _ status => status ≠ .OK

def ApplyOutcomes.posix (fd : Int) (o : ApplyOutcomes) : ApplyOutcomes :=
  { o with
    newFile := (posixNewWritableFile fd).1, opened := (posixNewWritableFile fd).2.isSome }

/-- `LogAndApply` passes its assertions. -/
def PassesAssertions (cfg : VersionConfig K R N) [Std.TransCmp cfg.icmp] (vs : VersionSet K N)
    (edit : VersionEdit K N) : Prop :=
  (vs.descriptor ≠ none ∨ 0 < vs.manifestFileNumber) ∧
    ∃ e v, fillEdit vs edit = some e ∧ (callBuilder cfg.icmp vs e).saveTo = some v

/-- `LogAndApply` comes to the creation of a manifest. -/
def CreatesManifest (cfg : VersionConfig K R N) [Std.TransCmp cfg.icmp] (vs : VersionSet K N)
    (edit : VersionEdit K N) : Prop :=
  vs.descriptor = none ∧ PassesAssertions cfg vs edit

def applyReport (cfg : VersionConfig K R N) [Std.TransCmp cfg.icmp] (vs : VersionSet K N)
    (disk : Disk R) (edit : VersionEdit K N) (fd : Int) (o : ApplyOutcomes) : FileReport where
  failed := (CreatesManifest cfg vs edit ∧ (posixNewWritableFile fd).2 = none) ∨
    ∃ r, logAndApply cfg vs disk edit (o.posix fd) = some r ∧
      ∃ op ∈ r.disk.trace.drop disk.trace.length, op.failed
  nullFile := CreatesManifest cfg vs edit ∧ cfg.ok (posixNewWritableFile fd).1 = true ∧
    (posixNewWritableFile fd).2 = none
  status := (logAndApply cfg vs disk edit (o.posix fd)).map Applied.status

/-! ## When nothing fails -/

/-- Every file operation of `BuildTable` goes well, its `RemoveFile` included. -/
def BuildOutcomes.AllWell (o : BuildOutcomes U V) (iter : List (Entry U V)) (fd : Int) : Prop :=
  o.remove = .OK ∧
    (iter ≠ [] → 0 ≤ fd ∧ o.finish = .OK ∧ o.sync = .OK ∧ o.close = .OK ∧ o.check = .OK)

/-- Every file operation of `LogAndApply` goes well; without a manifest it creates one. -/
def ApplyOutcomes.AllWell (o : ApplyOutcomes) (vs : VersionSet K N) (fd : Int) : Prop :=
  o.record = .OK ∧ o.sync = .OK ∧
    (vs.descriptor = none →
      0 ≤ fd ∧ o.snapshot = .OK ∧ o.setCurrent.write = .OK ∧ o.setCurrent.rename = .OK)

theorem posixNewWritableFile_none {fd : Int} : (posixNewWritableFile fd).2 = none ↔ fd < 0 := by
  unfold posixNewWritableFile
  split
  · rename_i hfd
    exact iff_of_true rfl hfd
  · rename_i hfd
    exact iff_of_false (Option.some_ne_none fd) hfd

theorem posixNewWritableFile_status (fd : Int) : (posixNewWritableFile fd).1 = .OK := by
  unfold posixNewWritableFile
  split
  · rfl
  · rfl

theorem posixNewWritableFile_isSome {fd : Int} (h : 0 ≤ fd) :
    (posixNewWritableFile fd).2.isSome = true := by
  unfold posixNewWritableFile
  rw [if_neg (by omega)]
  rfl

section AsWritten

/-- The guard of the loop lets every call of `MakeRoomForWrite` go, before it creates a file. -/
theorem makeRoom_asWritten {cfg : DbConfig U V R N} (hok : cfg.ok = Status.ok) (o : CreateOutcome)
    (db : Db U V R N) (room : Room) :
    makeRoom cfg o db room = some (db, .returns db.bgError) := by
  have hpass : roomPass cfg o db room = some (db, .exit (.returns db.bgError)) := by
    unfold roomPass
    rw [if_pos (by rw [hok]; rfl)]
  unfold makeRoom roomLoop
  rw [hpass]

/-- Every step of `BuildTable` runs, whatever the one before returned. -/
theorem buildReport_failed {tables : Nat → Option (List (Entry U V))} {number : Nat}
    {iter : List (Entry U V)} {fd : Int} {o : BuildOutcomes U V} :
    (buildReport Status.ok tables number iter fd o).failed ↔ ¬ o.AllWell iter fd := by
  show ((iter ≠ [] ∧ (posixNewWritableFile fd).2 = none) ∨ _) ↔ _
  rw [posixNewWritableFile_none]
  unfold BuildOutcomes.AllWell
  cases iter with
  | nil =>
    rw [tracedBuild_nil]
    constructor
    · rintro (⟨hne, -⟩ | ⟨b, calls, heq, c, hc, hfail⟩)
      · exact absurd rfl hne
      · cases heq
        rw [List.mem_singleton.mp hc] at hfail
        exact fun h => hfail h.1
    · intro hnot
      refine Or.inr ⟨_, _, rfl, _, List.mem_singleton.mpr rfl, fun hremove => hnot ⟨hremove, ?_⟩⟩
      exact fun hne => absurd rfl hne
  | cons first rest =>
    by_cases hfd : fd < 0
    · refine iff_of_true (Or.inl ⟨List.cons_ne_nil _ _, hfd⟩) fun h => ?_
      have hpos := (h.2 (List.cons_ne_nil _ _)).1
      omega
    · obtain ⟨left, hbuild⟩ := @tracedBuild_created U V Status.ok tables number (o.posix fd) first
        rest rfl (posixNewWritableFile_isSome (by omega))
      rw [hbuild]
      have hnew : (o.posix fd).newFile = .OK := posixNewWritableFile_status fd
      have hcalls : (∃ c ∈ (BuildCall.newWritableFile, (o.posix fd).newFile) ::
          (((o.posix fd).tracedChain Status.ok).2 ++ [(.removeFile, (o.posix fd).remove)]),
          c.2 ≠ .OK) ↔
          o.finish ≠ .OK ∨ o.sync ≠ .OK ∨ o.close ≠ .OK ∨ o.check ≠ .OK ∨ o.remove ≠ .OK := by
        rw [hnew]
        simp [BuildOutcomes.tracedChain, CallTrace.andThen, Status.ok, BuildOutcomes.posix]
      constructor
      · rintro (⟨-, hneg⟩ | ⟨b, calls, heq, hfail⟩)
        · exact absurd hneg hfd
        · cases heq
          have hfail := hcalls.mp hfail
          intro h
          obtain ⟨-, hfinish, hsync, hclose, hcheck⟩ := h.2 (List.cons_ne_nil _ _)
          simp [hfinish, hsync, hclose, hcheck, h.1] at hfail
      · intro hnot
        refine Or.inr ⟨_, _, rfl, hcalls.mpr ?_⟩
        by_contra hall
        simp only [not_or, ne_eq, not_not] at hall
        obtain ⟨hfinish, hsync, hclose, hcheck, hremove⟩ := hall
        exact hnot ⟨hremove, fun _ => ⟨by omega, hfinish, hsync, hclose, hcheck⟩⟩

section Apply

variable {cfg : VersionConfig K R N} [Std.TransCmp cfg.icmp] {vs : VersionSet K N}
  {disk : Disk R} {edit : VersionEdit K N} {o : ApplyOutcomes} {r : Applied K R N} {fd : Int}

/-- The operations of `SetCurrentFile`: the rename follows the write in any case. -/
theorem setCurrent_ops_asWritten (c : CurrentOutcomes) (dbname manifest tmp : FileName) :
    (∃ op ∈ (c.ops Status.ok dbname manifest tmp : List (FileOp R)), op.failed) ↔
      c.write ≠ .OK ∨ c.rename ≠ .OK := by
  simp [CurrentOutcomes.ops, Status.ok, FileOp.failed]

/-- Every step of `LogAndApply` runs, whatever the one before returned. -/
theorem logAndApply_asWritten (hok : cfg.ok = Status.ok)
    (h : logAndApply cfg vs disk edit o = some r) :
    ∃ ops, r.disk = disk.performAll ops ∧ (vs.descriptor = none → o.opened = true) ∧
      ((∃ op ∈ ops, op.failed) ↔ o.record ≠ .OK ∨ o.sync ≠ .OK ∨ vs.descriptor = none ∧
        (o.newFile ≠ .OK ∨ o.snapshot ≠ .OK ∨ o.setCurrent.write ≠ .OK ∨
          o.setCurrent.rename ≠ .OK)) := by
  unfold logAndApply at h
  obtain ⟨⟨vs₁, disk₁, i⟩, hbegin, h⟩ := Option.bind_eq_some_iff.mp h
  obtain ⟨⟨disk₂, i'⟩, hwrite, h⟩ := Option.bind_eq_some_iff.mp h
  cases h
  have htrue : ∀ s, cfg.ok s = true := fun s => by rw [hok]; rfl
  rw [logAndApplyFinish_ok (htrue _)]
  obtain ⟨-, -, hbegin⟩ := logAndApplyBegin_eq_some hbegin
  obtain ⟨-, hwrite⟩ := logAndApplyWrite_eq_some hwrite
  simp only [htrue, reduceCtorEq, false_and, false_or, true_and] at hbegin hwrite
  obtain ⟨m, hm, hwrite⟩ := hwrite
  rcases hbegin with ⟨m', hm', rfl, rfl, hnew, -⟩ | ⟨hnull, hname, hopened, -, rfl, rfl⟩
  · -- a manifest is open
    rcases hwrite with ⟨-, -, rfl⟩ | ⟨hne, -⟩
    · refine ⟨_, rfl, (fun hnone => by simp [hm'] at hnone), ?_⟩
      simp [FileOp.failed, hm']
    · exact absurd hnew hne
  · rcases hwrite with ⟨hnew, -⟩ | ⟨-, manifest, tmp, -, -, -, rfl⟩
    · exact absurd hnew (descriptorFileName_ne_nil hname)
    · rw [← Disk.performAll_append]
      refine ⟨_, rfl, fun _ => hopened, ?_⟩
      have hset := @setCurrent_ops_asWritten R o.setCurrent cfg.dbname manifest tmp
      rw [← hok] at hset
      simp only [List.mem_append, or_and_right, exists_or, hset]
      simp only [hnull, List.mem_cons, List.not_mem_nil, or_false, exists_eq_or_imp, exists_eq_left,
        FileOp.failed, reduceCtorEq, false_or, true_and]
      grind

theorem passesAssertions_of_logAndApply (h : logAndApply cfg vs disk edit o = some r) :
    PassesAssertions cfg vs edit := by
  unfold logAndApply at h
  obtain ⟨⟨vs₁, disk₁, i⟩, hbegin, -⟩ := Option.bind_eq_some_iff.mp h
  obtain ⟨hfill, ⟨v, hsave, -⟩, hbegin⟩ := logAndApplyBegin_eq_some hbegin
  refine ⟨?_, i.edit, v, hfill, hsave⟩
  rcases hbegin with ⟨m, hm, -⟩ | ⟨-, hname, -⟩
  · exact Or.inl (by rw [hm]; exact Option.some_ne_none m)
  · right
    unfold descriptorFileName at hname
    split at hname
    · rename_i hpos
      exact hpos
    · cases hname

theorem applyReport_failed (hok : cfg.ok = Status.ok) :
    (applyReport cfg vs disk edit fd o).failed ↔
      PassesAssertions cfg vs edit ∧ ¬ o.AllWell vs fd := by
  have hpassed : ∀ {r}, logAndApply cfg vs disk edit (o.posix fd) = some r →
      ((∃ op ∈ r.disk.trace.drop disk.trace.length, op.failed) ↔ ¬ o.AllWell vs fd) := by
    intro r hr
    obtain ⟨ops, hdisk, hopened, hfailed⟩ := logAndApply_asWritten hok hr
    rw [hdisk, Disk.performAll_trace, List.drop_left, hfailed]
    have hnew : (o.posix fd).newFile = .OK := posixNewWritableFile_status fd
    rw [hnew]
    unfold ApplyOutcomes.AllWell
    have hfd : vs.descriptor = none → 0 ≤ fd := by
      intro hnone
      by_contra hneg
      have hsome := hopened hnone
      rw [show (o.posix fd).opened = (posixNewWritableFile fd).2.isSome from rfl,
        posixNewWritableFile_none.mpr (by omega)] at hsome
      cases hsome
    show (o.record ≠ .OK ∨ o.sync ≠ .OK ∨ vs.descriptor = none ∧ (Status.OK ≠ .OK ∨
      o.snapshot ≠ .OK ∨ o.setCurrent.write ≠ .OK ∨ o.setCurrent.rename ≠ .OK)) ↔ _
    grind
  show ((CreatesManifest cfg vs edit ∧ (posixNewWritableFile fd).2 = none) ∨ _) ↔ _
  rw [posixNewWritableFile_none]
  constructor
  · rintro (⟨⟨hnull, hpasses⟩, hneg⟩ | ⟨r, hr, hfail⟩)
    · refine ⟨hpasses, fun hwell => ?_⟩
      have hpos := (hwell.2.2 hnull).1
      omega
    · exact ⟨passesAssertions_of_logAndApply hr, (hpassed hr).mp hfail⟩
  · rintro ⟨hpasses, hnot⟩
    by_cases hcreates : vs.descriptor = none ∧ fd < 0
    · exact Or.inl ⟨⟨hcreates.1, hpasses⟩, hcreates.2⟩
    · obtain ⟨hmanifest, e, v, hfill, hsave⟩ := hpasses
      obtain ⟨r, hr⟩ := logAndApply_isSome disk (o.posix fd) hfill hsave (by
        by_cases hnull : vs.descriptor = none
        · refine Or.inr ⟨hmanifest.resolve_left fun hne => hne hnull, fun _ => ?_⟩
          exact posixNewWritableFile_isSome (not_lt.mp fun hneg => hcreates ⟨hnull, hneg⟩)
        · exact Or.inl hnull)
      exact Or.inr ⟨r, hr, (hpassed hr).mpr hnot⟩

end Apply

/-- **No failure is taken for success, as the code is written,** exactly when no file operation that
the call makes fails; `MakeRoomForWrite` makes none. -/
theorem failures_taken_iff {cfg : DbConfig U V R N} [Std.TransCmp cfg.version.icmp]
    (hok : cfg.ok = Status.ok) :
    (∀ fd db room, (roomReport cfg fd db room).TakesError cfg.ok) ∧
      (∀ tables number (iter : List (Entry U V)) fd o,
        (buildReport cfg.ok tables number iter fd o).TakesError cfg.ok ↔ o.AllWell iter fd) ∧
      (∀ vs disk edit fd o, (applyReport cfg.version vs disk edit fd o).TakesError cfg.ok ↔
        (PassesAssertions cfg.version vs edit → o.AllWell vs fd)) := by
  refine ⟨fun fd db room => ⟨?_, ?_⟩, fun tables number iter fd o => ?_,
    fun vs disk edit fd o => ?_⟩
  · rintro ⟨⟨herror, -⟩, -⟩
    rw [hok] at herror
    cases herror
  · rintro ⟨db', e, hmake, hset, hnull⟩
    rw [makeRoom_asWritten hok] at hmake
    cases hmake
    exact hset hnull
  · rw [hok, takesError_iff fun hnull => Or.inl ⟨hnull.1, hnull.2.2⟩, buildReport_failed, not_not]
  · rw [hok, takesError_iff fun hnull => Or.inl ⟨hnull.1, hnull.2.2⟩, applyReport_failed hok,
      not_and, not_not]

end AsWritten

/-! ## A failure that is taken for success -/

/-- The small database with `Status::ok` as written. -/
def writtenDb : DbConfig Nat Nat (VersionEdit (InternalKey Nat) 2) 2 :=
  { natDb with version := { natDb.version with ok := Status.ok } }

instance : Std.TransCmp writtenDb.version.icmp := inferInstanceAs (Std.TransCmp natInternalCompare)

/-- A version set without an open manifest. -/
def unopenedVersions : VersionSet (InternalKey Nat) 2 :=
  { flushDb.versions with descriptor := none }

theorem flushVersions_passes : PassesAssertions writtenDb.version flushDb.versions {} :=
  ⟨Or.inl (Option.some_ne_none _), _, _, rfl, rfl⟩

theorem unopenedVersions_passes : PassesAssertions writtenDb.version unopenedVersions {} :=
  ⟨Or.inr Nat.two_pos, _, _, rfl, rfl⟩

/-- A table with one entry, a record for the open manifest and a new manifest: every operation goes
well. -/
theorem failures_taken_iff_well :
    (buildReport writtenDb.ok (fun _ => none) 5 [(⟨⟨7, 1, .value⟩, 70⟩ : Entry Nat Nat)] 3
        {}).TakesError writtenDb.ok ∧
      (PassesAssertions writtenDb.version flushDb.versions {} ∧
        (applyReport writtenDb.version flushDb.versions flushDb.disk {} 3 {}).TakesError
          writtenDb.ok) ∧
      PassesAssertions writtenDb.version unopenedVersions {} ∧
        (applyReport writtenDb.version unopenedVersions flushDb.disk {} 3 {}).TakesError
          writtenDb.ok := by
  obtain ⟨-, hbuild, happly⟩ := @failures_taken_iff Nat Nat _ 2 writtenDb _ rfl
  have hfd : (0 : Int) ≤ 3 := by decide
  have hwell : ∀ vs : VersionSet (InternalKey Nat) 2, ({} : ApplyOutcomes).AllWell vs 3 :=
    fun _ => ⟨rfl, rfl, fun _ => ⟨hfd, rfl, rfl, rfl⟩⟩
  refine ⟨?_, ⟨flushVersions_passes, ?_⟩, unopenedVersions_passes, ?_⟩
  · exact (hbuild _ 5 _ 3 {}).mpr ⟨rfl, fun _ => ⟨hfd, rfl, rfl, rfl, rfl⟩⟩
  · exact (happly _ _ _ 3 {}).mpr fun _ => hwell _
  · exact (happly _ _ _ 3 {}).mpr fun _ => hwell _

/-- The file cannot be opened, and `BuildTable` hands a null file to the table builder. -/
theorem failed_open_passes_for_success :
    (posixNewWritableFile (-1)).1 = .OK ∧
      ¬ (buildReport writtenDb.ok (fun _ => none) 5 [(⟨⟨7, 1, .value⟩, 70⟩ : Entry Nat Nat)] (-1)
        {}).TakesError writtenDb.ok :=
  ⟨rfl, fun htaken => htaken.2 ⟨List.cons_ne_nil _ _, rfl, rfl⟩⟩

end LevelDB
