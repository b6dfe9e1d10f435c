import LevelDB.Db.System

/-!
# The steps of reads and background jobs

What the steps of `Get` and of the background jobs do to the system, one lemma for each.

* `Scheduled` — a change of the scheduling variables only, which keeps the number of jobs that are
  handed out and not accounted for;
* `JobStarts`, `JobEnds` — all that the start and the end of a job can do;
* `OtherStep` — all that the steps other than those of `Write` can do.
-/

set_option autoImplicit false

namespace LevelDB

variable {U V R W : Type} {N : Nat}

/-! ## Scheduling -/

/-- Only the scheduling variables change, and a job is queued exactly when
`background_compaction_scheduled_` is set. -/
def Scheduled (db db' : Db U V R N) : Prop :=
  ∃ jobQueue scheduled needs,
    db' = { db with
      jobQueue := jobQueue, backgroundCompactionScheduled := scheduled, needsCompaction := needs } ∧
    jobQueue + (if db.backgroundCompactionScheduled then 1 else 0) =
      db.jobQueue + if scheduled then 1 else 0

section Scheduling

variable {cfg : DbConfig U V R N} {db db' : Db U V R N}

theorem scheduled_maybeScheduleCompaction :
    Scheduled db (db.maybeScheduleCompaction cfg) := by
  rcases db.maybeScheduleCompaction_eq cfg with heq | ⟨hnot, heq⟩
  · rw [heq]
    exact ⟨_, _, _, rfl, rfl⟩
  · rw [heq]
    refine ⟨db.jobQueue + 1, true, db.needsCompaction, rfl, ?_⟩
    simp [hnot]

theorem scheduled_chargeStats (stats : Option (GetStats U N)) (updated needs : Bool) :
    Scheduled db (System.chargeStats cfg db stats updated needs) := by
  unfold System.chargeStats
  split
  · obtain ⟨jobQueue, scheduled, needs', heq, hcount⟩ :=
      @scheduled_maybeScheduleCompaction U V R N cfg { db with needsCompaction := needs }
    exact ⟨jobQueue, scheduled, needs', heq, hcount⟩
  · exact ⟨_, _, _, rfl, rfl⟩

end Scheduling

section Steps

variable {cfg : DbConfig U V R N} {s t : System U V R W N}

/-! ## Get -/

theorem getCall_eq_some {key : U} {snapshot : Option Nat} (h : s.getCall key snapshot = some t) :
    ∃ h₁ h₂, s.db.memtables.ref s.db.mem = some h₁ ∧ h₁.refOpt s.db.imm = some h₂ ∧
      t = { s with
        db := { s.db with memtables := h₂ }
        gets := s.gets ++ [{
          lookup := { userKey := key, sequence := snapshot.getD s.db.versions.lastSequence }
          mem := s.db.mem, imm := s.db.imm, current := s.db.versions.current }] } := by
  unfold System.getCall at h
  obtain ⟨h₁, href, h⟩ := Option.bind_eq_some_iff.mp h
  obtain ⟨h₂, himm, h⟩ := Option.bind_eq_some_iff.mp h
  cases h
  exact ⟨h₁, h₂, href, himm, rfl⟩

theorem getRead_eq_some {i : Nat} (h : s.getRead cfg i = some t) :
    ∃ g pc, s.gets[i]? = some g ∧ System.readPc cfg s.db g = some pc ∧
      t = { s with gets := s.gets.set i { g with pc } } := by
  unfold System.getRead at h
  obtain ⟨g, hg, h⟩ := Option.bind_eq_some_iff.mp h
  obtain ⟨pc, hpc, rfl⟩ := Option.map_eq_some_iff.mp h
  exact ⟨g, pc, hg, hpc, rfl⟩

theorem getFinish_eq_some {i : Nat} {updated needs : Bool}
    (h : s.getFinish cfg i updated needs = some t) :
    ∃ g result stats memtables db, s.gets[i]? = some g ∧ g.pc = .relocking result stats ∧
      System.unrefCaptured s.db.memtables g = some memtables ∧ Scheduled s.db db ∧
      t = { s with
        db := { db with memtables }, gets := s.gets.set i { g with pc := .returned result } } := by
  unfold System.getFinish at h
  obtain ⟨g, hg, h⟩ := Option.bind_eq_some_iff.mp h
  split at h
  · rename_i result stats hpc
    obtain ⟨memtables, hunref, rfl⟩ := Option.map_eq_some_iff.mp h
    exact ⟨g, result, stats, memtables, _, hg, hpc, hunref,
      scheduled_chargeStats stats updated needs, rfl⟩
  · cases h

/-! ## Background jobs -/

/-- The end of a job changes the scheduling variables and signals the waiting writers. -/
theorem endBackground_eq (cfg : DbConfig U V R N) (s : System U V R W N) :
    ∃ db, Scheduled { s.db with backgroundCompactionScheduled := false } db ∧
      s.endBackground cfg = { s with db }.signalAll :=
  ⟨_, scheduled_maybeScheduleCompaction, rfl⟩

theorem endBackground_jobs : (s.endBackground cfg).jobs = s.jobs := by
  obtain ⟨db, -, heq⟩ := endBackground_eq cfg s
  rw [heq]
  rfl

theorem endBackground_versions : (s.endBackground cfg).db.versions = s.db.versions := by
  obtain ⟨db, ⟨jobQueue, scheduled, needs, rfl, -⟩, heq⟩ := endBackground_eq cfg s
  rw [heq]
  rfl

theorem endJob_versions {k : Nat} {db : Db U V R N} :
    (s.endJob cfg k db).db.versions = db.versions := endBackground_versions

variable [Std.TransCmp cfg.version.icmp]

/-- All that the start of a job can do. -/
inductive JobStarts (cfg : DbConfig U V R N) [Std.TransCmp cfg.version.icmp]
    (s : System U V R W N) : System U V R W N → Prop
  | ends : JobStarts cfg s (s.endBackground cfg)
  | flushes {db : Db U V R N} {f : Flush U N} (hbegin : flushBegin s.db = some (db, f)) :
      JobStarts cfg s { s with db, jobs := s.jobs ++ [.building f] }
  | moves {db : Db U V R N} {i : Install (InternalKey U) N} {o : ApplyOutcomes}
      {level next : Fin N} {f : FileMetaData (InternalKey U)}
      (hf : f ∈ s.db.versions.current.files level)
      (hbegin : applyBegin cfg s.db (System.moveEdit level next f) o = some (db, i)) :
      JobStarts cfg s { s with db, jobs := s.jobs ++ [.logging false i o] }

theorem jobStart_eq_some {pick : Option (Fin N × Nat)} {o : ApplyOutcomes}
    (h : s.jobStart cfg pick o = some t) :
    0 < s.db.jobQueue ∧ s.db.backgroundCompactionScheduled = true ∧
      JobStarts cfg { s with db := { s.db with jobQueue := s.db.jobQueue - 1 } } t := by
  unfold System.jobStart at h
  split at h
  · rename_i hqueued
    refine ⟨hqueued.1, hqueued.2, ?_⟩
    dsimp only at h
    split at h
    · cases h
      exact .ends
    · unfold System.backgroundCompaction at h
      split at h
      · obtain ⟨⟨db, f⟩, hbegin, rfl⟩ := Option.map_eq_some_iff.mp h
        exact .flushes hbegin
      · split at h
        · cases h
          exact .ends
        · rename_i level index
          unfold System.moveBegin at h
          split at h
          · obtain ⟨f, hf, h⟩ := Option.bind_eq_some_iff.mp h
            obtain ⟨⟨db, i⟩, hbegin, rfl⟩ := Option.map_eq_some_iff.mp h
            exact .moves (List.mem_of_getElem? hf) hbegin
          · cases h
  · cases h

omit [Std.TransCmp cfg.version.icmp] in
theorem jobBuild_eq_some {k : Nat} {o : BuildOutcomes U V} (h : s.jobBuild cfg k o = some t) :
    ∃ f entries built, s.jobs[k]? = some (.building f) ∧
      s.db.memtables.content f.mem = some entries ∧
      buildTable cfg.ok s.db.tables f.number (cfg.newIterator entries) o = some built ∧
      t = { s with
        db := { s.db with tables := built.tables }
        jobs := s.jobs.set k (.built f built.fileMeta built.s) } := by
  unfold System.jobBuild at h
  split at h
  · rename_i f hk
    obtain ⟨⟨db, built⟩, hbuild, rfl⟩ := Option.map_eq_some_iff.mp h
    obtain ⟨entries, hentries, htable, rfl⟩ := flushBuild_eq_some hbuild
    exact ⟨f, entries, built, hk, hentries, htable, rfl⟩
  · cases h

theorem jobBuilt_eq_some {k : Nat} {o : ApplyOutcomes} (h : s.jobBuilt cfg k o = some t) :
    ∃ f fileMeta status db next, s.jobs[k]? = some (.built f fileMeta status) ∧
      flushBuilt cfg s.db f fileMeta status s.db.shuttingDown o = some (db, next) ∧
      ((∃ i, next = .logs i ∧
          t = { s with db, jobs := s.jobs.set k (.logging true i o) }) ∨
        ∃ error, next = .fails error ∧
          t = s.endJob cfg k (db.recordBackgroundError cfg error)) := by
  unfold System.jobBuilt at h
  split at h
  · rename_i f fileMeta status hk
    obtain ⟨⟨db, next⟩, hbuilt, h⟩ := Option.map_eq_some_iff.mp h
    refine ⟨f, fileMeta, status, db, next, hk, hbuilt, ?_⟩
    cases next with
    | logs i => exact Or.inl ⟨i, rfl, h.symm⟩
    | fails error => exact Or.inr ⟨error, rfl, h.symm⟩
  · cases h

omit [Std.TransCmp cfg.version.icmp] in
theorem jobWrite_eq_some {k : Nat} (h : s.jobWrite cfg k = some t) :
    ∃ isFlush i o db i', s.jobs[k]? = some (.logging isFlush i o) ∧
      applyWrite cfg s.db i o = some (db, i') ∧
      t = { s with db, jobs := s.jobs.set k (.logged isFlush i' o) } := by
  unfold System.jobWrite at h
  split at h
  · rename_i isFlush i o hk
    obtain ⟨⟨db, i'⟩, hwrite, rfl⟩ := Option.map_eq_some_iff.mp h
    exact ⟨isFlush, i, o, db, i', hk, hwrite, rfl⟩
  · cases h

/-- The version of `i` is the current one, with the log numbers of its edit. -/
def Db.install (db : Db U V R N) (i : Install (InternalKey U) N) (needs : Bool) : Db U V R N :=
  { db with
    versions := { db.versions with
      current := i.v, logNumber := i.edit.logNumber, prevLogNumber := i.edit.prevLogNumber }
    needsCompaction := needs }

/-- All that the end of a job can do to the database: a flush gives up `imm_` for its table, a
trivial move installs its version only, and a failed one records the error. -/
inductive JobEnds (cfg : DbConfig U V R N) (s : System U V R W N)
    (i : Install (InternalKey U) N) : Db U V R N → Prop
  | flushed {m : Nat} {memtables : RefCounted.Heap (MemTable U V)} {needs : Bool}
      (himm : s.db.imm = some m) (hunref : s.db.memtables.unref m = some memtables) :
      JobEnds cfg s i (removeObsoleteFiles cfg
        { s.db.install i needs with memtables, imm := none, hasImm := false } s.heldVersions)
  | moved {needs : Bool} : JobEnds cfg s i (s.db.install i needs)
  | fails {descriptor : Option FileName} {disk : Disk R} :
      JobEnds cfg s i ({ s.db with
        versions := { s.db.versions with descriptor }, disk }.recordBackgroundError cfg i.s)

omit [Std.TransCmp cfg.version.icmp] in
theorem jobEnds_error {i : Install (InternalKey U) N} {o : ApplyOutcomes} {needs : Bool}
    (hfail : ¬ cfg.ok i.s = true) :
    JobEnds cfg s i ((applyFinish cfg s.db i o needs).recordBackgroundError cfg i.s) := by
  obtain ⟨descriptor, disk, heq⟩ :=
    @applyFinish_error U V R N cfg s.db i o (by simpa using hfail) needs
  rw [heq]
  exact .fails

omit [Std.TransCmp cfg.version.icmp] in
theorem jobFinish_eq_some {k : Nat} {needs : Bool} (h : s.jobFinish cfg k needs = some t) :
    ∃ isFlush i o db, s.jobs[k]? = some (.logged isFlush i o) ∧ JobEnds cfg s i db ∧
      t = s.endJob cfg k db := by
  unfold System.jobFinish at h
  split at h
  · rename_i i o hk
    obtain ⟨db, hfinish, rfl⟩ := Option.map_eq_some_iff.mp h
    refine ⟨true, i, o, db, hk, ?_, rfl⟩
    unfold flushFinish at hfinish
    split at hfinish
    · rename_i hok
      obtain ⟨db₁, hdrop, rfl⟩ := Option.map_eq_some_iff.mp hfinish
      rw [applyFinish_ok hok] at hdrop
      obtain ⟨m, memtables, himm, hunref, rfl⟩ := dropImm_eq_some hdrop
      exact .flushed himm hunref
    · rename_i hfail
      cases hfinish
      exact jobEnds_error hfail
  · rename_i i o hk
    cases h
    refine ⟨false, i, o, _, hk, ?_, rfl⟩
    unfold System.moveFinish
    split
    · rename_i hok
      rw [applyFinish_ok hok]
      exact .moved
    · rename_i hfail
      exact jobEnds_error hfail
  · cases h

/-! ## All steps but those of `Write` -/

omit [Std.TransCmp cfg.version.icmp] in
theorem Label.write_or_other (l : Label U V W N) :
    (∃ w act, l = .write w act) ∨ ∀ w act, l ≠ .write w act := by
  cases l with
  | write w act => exact Or.inl ⟨w, act, rfl⟩
  | _ => exact Or.inr fun _ _ heq => by cases heq

/-- All that the steps of readers, of background jobs and of the destructor can do. -/
inductive OtherStep (cfg : DbConfig U V R N) (s : System U V R W N) :
    Label U V W N → System U V R W N → Prop
  | calls {key : U} {snapshot : Option Nat} {h₁ h₂ : RefCounted.Heap (MemTable U V)}
      (href : s.db.memtables.ref s.db.mem = some h₁) (himm : h₁.refOpt s.db.imm = some h₂) :
      OtherStep cfg s (.getCall key snapshot) { s with
        db := { s.db with memtables := h₂ }
        gets := s.gets ++ [{
          lookup := { userKey := key, sequence := snapshot.getD s.db.versions.lastSequence }
          mem := s.db.mem, imm := s.db.imm, current := s.db.versions.current }] }
  | reads {i : Nat} {g : GetCall U V N} {pc : GetPc U V N} (hg : s.gets[i]? = some g)
      (hpc : System.readPc cfg s.db g = some pc) :
      OtherStep cfg s (.getRead i) { s with gets := s.gets.set i { g with pc } }
  | returns {i : Nat} {updated needs : Bool} {g : GetCall U V N} {result : GetResult V}
      {stats : Option (GetStats U N)} {memtables : RefCounted.Heap (MemTable U V)}
      {jobQueue : Nat} {scheduled needsCompaction : Bool} (hg : s.gets[i]? = some g)
      (hpc : g.pc = .relocking result stats)
      (hunref : System.unrefCaptured s.db.memtables g = some memtables)
      (hcharged : System.chargeStats cfg s.db stats updated needs = { s.db with
        jobQueue, backgroundCompactionScheduled := scheduled, needsCompaction })
      (hscheduled : Scheduled s.db { s.db with
        jobQueue, backgroundCompactionScheduled := scheduled, needsCompaction }) :
      OtherStep cfg s (.getFinish i updated needs) { s with
        db := { s.db with
          memtables, jobQueue, backgroundCompactionScheduled := scheduled, needsCompaction }
        gets := s.gets.set i { g with pc := .returned result } }
  | idles {pick : Option (Fin N × Nat)} {o : ApplyOutcomes} (hqueued : 0 < s.db.jobQueue) :
      OtherStep cfg s (.jobStart pick o)
        ({ s with db := { s.db with jobQueue := s.db.jobQueue - 1 } }.endBackground cfg)
  | flushes {pick : Option (Fin N × Nat)} {o : ApplyOutcomes} {m : Nat}
      (hqueued : 0 < s.db.jobQueue) (himm : s.db.imm = some m) :
      OtherStep cfg s (.jobStart pick o) { s with
        db := { s.db with
          jobQueue := s.db.jobQueue - 1
          versions := s.db.versions.newFileNumber.2
          pendingOutputs := insert s.db.versions.nextFileNumber s.db.pendingOutputs }
        jobs := s.jobs ++ [.building {
          mem := m, base := s.db.versions.current, number := s.db.versions.nextFileNumber }] }
  | moves {pick : Option (Fin N × Nat)} {o o' : ApplyOutcomes} {i : Install (InternalKey U) N}
      {compactPointer : Fin N → Option (InternalKey U)} {descriptor : Option FileName}
      {disk : Disk R} (hqueued : 0 < s.db.jobQueue)
      (hlast : i.edit.lastSequence = s.db.versions.lastSequence) :
      OtherStep cfg s (.jobStart pick o) { s with
        db := { s.db with
          jobQueue := s.db.jobQueue - 1
          versions := { s.db.versions with compactPointer, descriptor }
          disk }
        jobs := s.jobs ++ [.logging false i o'] }
  | builds {k : Nat} {o : BuildOutcomes U V} {f : Flush U N} {entries : List (Entry U V)}
      {built : Built U V} (hk : s.jobs[k]? = some (.building f))
      (hentries : s.db.memtables.content f.mem = some entries)
      (htable : buildTable cfg.ok s.db.tables f.number (cfg.newIterator entries) o = some built) :
      OtherStep cfg s (.jobBuild k o) { s with
        db := { s.db with tables := built.tables }
        jobs := s.jobs.set k (.built f built.fileMeta built.s) }
  | logs {k : Nat} {o : ApplyOutcomes} {f : Flush U N} {fileMeta : TableMeta U} {status : Status}
      {i : Install (InternalKey U) N} {compactPointer : Fin N → Option (InternalKey U)}
      {descriptor : Option FileName} {pendingOutputs : Finset Nat} {disk : Disk R}
      (hk : s.jobs[k]? = some (.built f fileMeta status))
      (hlast : i.edit.lastSequence = s.db.versions.lastSequence) :
      OtherStep cfg s (.jobBuilt k o) { s with
        db := { s.db with
          versions := { s.db.versions with compactPointer, descriptor }, pendingOutputs, disk }
        jobs := s.jobs.set k (.logging true i o) }
  | buildFails {k : Nat} {o : ApplyOutcomes} {f : Flush U N} {fileMeta : TableMeta U}
      {status error : Status} {compactPointer : Fin N → Option (InternalKey U)}
      {descriptor : Option FileName} {pendingOutputs : Finset Nat} {disk : Disk R}
      (hk : s.jobs[k]? = some (.built f fileMeta status)) :
      OtherStep cfg s (.jobBuilt k o) (s.endJob cfg k ({ s.db with
        versions := { s.db.versions with compactPointer, descriptor }
        pendingOutputs, disk }.recordBackgroundError cfg error))
  | writes {k : Nat} {isFlush : Bool} {i i' : Install (InternalKey U) N} {o : ApplyOutcomes}
      {disk : Disk R} (hk : s.jobs[k]? = some (.logging isFlush i o)) (hedit : i'.edit = i.edit)
      (hversion : i'.v = i.v) :
      OtherStep cfg s (.jobWrite k) { s with
        db := { s.db with disk }, jobs := s.jobs.set k (.logged isFlush i' o) }
  | finishes {k : Nat} {needs isFlush : Bool} {i : Install (InternalKey U) N} {o : ApplyOutcomes}
      {db : Db U V R N} (hk : s.jobs[k]? = some (.logged isFlush i o))
      (hdb : JobEnds cfg s i db) : OtherStep cfg s (.jobFinish k needs) (s.endJob cfg k db)
  | shutsDown : OtherStep cfg s .shutDown { s with db := { s.db with shuttingDown := true } }

variable [DecidableEq W] {calls : W → WriteRequest U V}

/-- **Every step that is not one of `Write`.** -/
theorem otherStep_of_step {l : Label U V W N} (hl : ∀ w act, l ≠ .write w act)
    (h : System.step cfg calls s l = some t) : OtherStep cfg s l t := by
  cases l with
  | write w act => exact absurd rfl (hl w act)
  | getCall key snapshot =>
    obtain ⟨h₁, h₂, href, himm, rfl⟩ := getCall_eq_some h
    exact .calls href himm
  | getRead i =>
    obtain ⟨g, pc, hg, hpc, rfl⟩ := getRead_eq_some h
    exact .reads hg hpc
  | getFinish i updated needs =>
    obtain ⟨g, hg, h⟩ := Option.bind_eq_some_iff.mp h
    split at h
    · rename_i result stats hpc
      obtain ⟨memtables, hunref, rfl⟩ := Option.map_eq_some_iff.mp h
      have hscheduled := @scheduled_chargeStats U V R N cfg s.db stats updated needs
      obtain ⟨jobQueue, scheduled, needsCompaction, heq, hcount⟩ := hscheduled
      rw [heq]
      exact .returns hg hpc hunref heq ⟨_, _, _, rfl, hcount⟩
    · cases h
  | jobStart pick o =>
    obtain ⟨hqueued, -, hstarts⟩ := jobStart_eq_some h
    cases hstarts with
    | ends => exact .idles hqueued
    | flushes hbegin =>
      obtain ⟨m, himm, rfl, rfl⟩ := flushBegin_eq_some hbegin
      exact .flushes hqueued himm
    | moves hf hbegin =>
      obtain ⟨hlast, -, compactPointer, descriptor, disk, rfl⟩ := applyBegin_eq_some hbegin
      exact .moves hqueued hlast
  | jobBuild k o =>
    obtain ⟨f, entries, built, hk, hentries, htable, rfl⟩ := jobBuild_eq_some h
    exact .builds hk hentries htable
  | jobBuilt k o =>
    obtain ⟨f, fileMeta, status, db, next, hk, hbuilt, hnext⟩ := jobBuilt_eq_some h
    obtain ⟨compactPointer, descriptor, pendingOutputs, disk, rfl⟩ := flushBuilt_db hbuilt
    rcases hnext with ⟨i, rfl, rfl⟩ | ⟨error, -, rfl⟩
    · exact .logs hk (flushBuilt_logs hbuilt)
    · exact .buildFails hk
  | jobWrite k =>
    obtain ⟨isFlush, i, o, db, i', hk, hwrite, rfl⟩ := jobWrite_eq_some h
    obtain ⟨hedit, hversion, disk, rfl⟩ := applyWrite_eq_some hwrite
    exact .writes hk hedit hversion
  | jobFinish k needs =>
    obtain ⟨isFlush, i, o, db, hk, hdb, rfl⟩ := jobFinish_eq_some h
    exact .finishes hk hdb
  | shutDown =>
    cases h
    exact .shutsDown

end Steps

end LevelDB
