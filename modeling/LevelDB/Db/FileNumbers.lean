import LevelDB.Db.Logs
import LevelDB.Db.Reachable

/-!
# File numbers

Log files and tables draw their numbers from `next_file_number_`; a number whose log file could not
be created is given back.

* `NumbersOk` — `log_number_ ≤ logfile_number_ < next_file_number_` and `prev_log_number_` is 0;
* `FilesApart` — the numbers of logs, tables and pending tables are apart and below the next one;
* `numbersOk_of_run` — every run keeps both, keeps no number twice, and the assertions on log
  numbers hold.
-/

set_option autoImplicit false

namespace LevelDB

variable {U V R W : Type} {N : Nat}

/-- The numbers that log files and tables were given and kept, in this order. A step that makes a
new memtable has opened a log file. -/
def recordNumbers (h : List Nat) (s : System U V R W N) (l : Label U V W N)
    (t : System U V R W N) : List Nat :=
  match l with
  | .write _ _ => if t.db.nextMem = s.db.nextMem then h else h ++ [t.db.logfileNumber]
  | .jobStart _ _ =>
    match t.jobs[s.jobs.length]? with
    | some (.building f) => h ++ [f.number]
    | _ => h
  | _ => h

/-- The number that a flush writes is pending, and an edit that is being logged records log numbers
in order. -/
inductive JobNumbers (db : Db U V R N) : Job U N → Prop
  | building {f : Flush U N} (hpending : f.number ∈ db.pendingOutputs) :
      JobNumbers db (.building f)
  | built {f : Flush U N} {fileMeta : TableMeta U} {status : Status} :
      JobNumbers db (.built f fileMeta status)
  | logging {isFlush : Bool} {i : Install (InternalKey U) N} {o : ApplyOutcomes}
      (hlog : i.edit.logNumber ≤ db.logfileNumber) (hprev : i.edit.prevLogNumber = 0) :
      JobNumbers db (.logging isFlush i o)
  | logged {isFlush : Bool} {i : Install (InternalKey U) N} {o : ApplyOutcomes}
      (hlog : i.edit.logNumber ≤ db.logfileNumber) (hprev : i.edit.prevLogNumber = 0) :
      JobNumbers db (.logged isFlush i o)

structure NumbersOk (s : System U V R W N) : Prop where
  logNumber : s.db.versions.logNumber ≤ s.db.logfileNumber
  logfileNumber : s.db.logfileNumber < s.db.versions.nextFileNumber
  prevLogNumber : s.db.versions.prevLogNumber = 0
  jobs : ∀ j ∈ s.jobs, JobNumbers s.db j

/-- No number belongs to a log file and a table, or to a table on disk and one that is still to be
written, and all are below the next number. -/
structure FilesApart (s : System U V R W N) : Prop where
  logs : ∀ n, s.db.logs n ≠ none →
    n < s.db.versions.nextFileNumber ∧ s.db.tables n = none ∧ n ∉ s.db.pendingOutputs
  tables : ∀ n, s.db.tables n ≠ none → n < s.db.versions.nextFileNumber
  pending : ∀ n ∈ s.db.pendingOutputs, n < s.db.versions.nextFileNumber
  building : ∀ f, Job.building f ∈ s.jobs → s.db.tables f.number = none

/-- The assertions on log numbers in `LogAndApply`, for the edits of a flush and of a trivial move,
and the one in `MakeRoomForWrite`. -/
structure LogAssertions (db : Db U V R N) : Prop where
  flush : ∀ edit : VersionEdit (InternalKey U) N,
    (withLogNumber db.versions
      ((edit.setPrevLogNumber 0).setLogNumber db.logfileNumber)).isSome
  move : ∀ (level next : Fin N) (f : FileMetaData (InternalKey U)),
    (withLogNumber db.versions (System.moveEdit level next f)).isSome
  makeRoom : db.versions.prevLogNumber = 0

section Numbers

variable {cfg : DbConfig U V R N} {calls : W → WriteRequest U V} {s t : System U V R W N} {w : W}
  {db : Db U V R N}

theorem NumbersOk.assertions (h : NumbersOk s) : LogAssertions s.db where
  flush edit := by
    have hset : ((edit.setPrevLogNumber 0).setLogNumber s.db.logfileNumber).hasLogNumber = true :=
      rfl
    unfold withLogNumber
    rw [if_pos hset, if_pos ⟨h.logNumber, h.logfileNumber⟩]
    rfl
  move level next f := by
    have hnone : ¬ (System.moveEdit level next f).hasLogNumber = true := Bool.false_ne_true
    unfold withLogNumber
    rw [if_neg hnone]
    rfl
  makeRoom := h.prevLogNumber

/-! ## Steps of a call of Write -/

/-- What a step of a call of `Write` does to the numbers: nothing, or it draws one for a log. -/
inductive WriteNumbers (db db' : Db U V R N) : Prop
  | same (hlogfile : db'.logfileNumber = db.logfileNumber)
      (hnext : db'.versions.nextFileNumber = db.versions.nextFileNumber)
      (hmem : db'.nextMem = db.nextMem) (hlogs : ∀ n, db'.logs n = none ↔ db.logs n = none)
  | draws (hlogfile : db'.logfileNumber = db.versions.nextFileNumber)
      (hnext : db'.versions.nextFileNumber = db.versions.nextFileNumber + 1)
      (hmem : db'.nextMem = db.nextMem + 1)
      (hlogs : ∀ n ≠ db.versions.nextFileNumber, db'.logs n = none ↔ db.logs n = none)

theorem RoomEffect.numbers (hreuses : cfg.ReusesLast) {o : CreateOutcome} {db' : Db U V R N}
    (h : RoomEffect cfg o db db') :
    WriteNumbers db db' ∧ db'.pendingOutputs = db.pendingOutputs ∧
      db'.versions.logNumber = db.versions.logNumber ∧
      db'.versions.prevLogNumber = db.versions.prevLogNumber ∧ db'.tables = db.tables := by
  cases h with
  | same => exact ⟨.same rfl rfl rfl fun _ => Iff.rfl, rfl, rfl, rfl, rfl⟩
  | reused => exact ⟨.same rfl (hreuses _) rfl fun _ => Iff.rfl, rfl, rfl, rfl, rfl⟩
  | switched =>
    obtain ⟨jobQueue, scheduled, heq⟩ :=
      @switchMemTable_eq U V R N cfg o db db.versions.nextFileNumber
    rw [heq]
    refine ⟨.draws rfl rfl rfl fun n hn => ?_, rfl, rfl, rfl, rfl⟩
    dsimp only
    split
    · rw [Function.update_of_ne hn]
    · exact Iff.rfl

theorem WriteDb.numbers (hreuses : cfg.ReusesLast) (h : WriteDb cfg s w db) :
    WriteNumbers s.db db ∧ db.pendingOutputs = s.db.pendingOutputs ∧
      db.versions.logNumber = s.db.versions.logNumber ∧
      db.versions.prevLogNumber = s.db.versions.prevLogNumber ∧ db.tables = s.db.tables := by
  cases h with
  | room heffect => exact heffect.numbers hreuses
  | logged hlogs => exact ⟨.same rfl rfl rfl hlogs, rfl, rfl, rfl, rfl⟩
  | inserted => exact ⟨.same rfl rfl rfl fun _ => Iff.rfl, rfl, rfl, rfl, rfl⟩
  | sequenced => exact ⟨.same rfl rfl rfl fun _ => Iff.rfl, rfl, rfl, rfl, rfl⟩

theorem WriteNumbers.grow {db db' : Db U V R N} (h : WriteNumbers db db')
    (hbelow : db.logfileNumber < db.versions.nextFileNumber) :
    db.logfileNumber ≤ db'.logfileNumber ∧
      db'.logfileNumber < db'.versions.nextFileNumber ∧
      db.versions.nextFileNumber ≤ db'.versions.nextFileNumber := by
  cases h with
  | same hlogfile hnext => omega
  | draws hlogfile hnext => omega

theorem JobNumbers.mono {db db' : Db U V R N} {j : Job U N} (h : JobNumbers db j)
    (hpending : db'.pendingOutputs = db.pendingOutputs)
    (hlogfile : db.logfileNumber ≤ db'.logfileNumber) : JobNumbers db' j := by
  cases h with
  | building hf =>
    rw [← hpending] at hf
    exact .building hf
  | built => exact .built
  | logging hlog hprev => exact .logging (le_trans hlog hlogfile) hprev
  | logged hlog hprev => exact .logged (le_trans hlog hlogfile) hprev

theorem NumbersOk.write (h : NumbersOk s) (hreuses : cfg.ReusesLast) (hdb : WriteDb cfg s w t.db)
    (hjobs : t.jobs = s.jobs) : NumbersOk t := by
  obtain ⟨hnumbers, hpending, hlog, hprev, -⟩ := hdb.numbers hreuses
  obtain ⟨hgrow, hbelow, -⟩ := hnumbers.grow h.logfileNumber
  refine ⟨?_, hbelow, hprev.trans h.prevLogNumber, fun j hj => ?_⟩
  · rw [hlog]
    exact le_trans h.logNumber hgrow
  · rw [hjobs] at hj
    exact (h.jobs j hj).mono hpending hgrow

theorem FilesApart.write (h : FilesApart s) (hreuses : cfg.ReusesLast) (hdb : WriteDb cfg s w t.db)
    (hjobs : t.jobs = s.jobs) : FilesApart t := by
  obtain ⟨hnumbers, hpending, -, -, htables⟩ := hdb.numbers hreuses
  have hnext : s.db.versions.nextFileNumber ≤ t.db.versions.nextFileNumber := by
    cases hnumbers with
    | same _ hnext => omega
    | draws _ hnext => omega
  refine ⟨fun n hn => ?_, fun n hn => ?_, fun n hn => ?_, fun f hf => ?_⟩
  · rw [htables, hpending]
    by_cases hold : s.db.logs n = none
    · -- a new log file has the number that was drawn
      cases hnumbers with
      | same _ _ _ hlogs => exact absurd ((hlogs n).mpr hold) hn
      | draws _ hnew _ hlogs =>
        have hdrawn : n = s.db.versions.nextFileNumber := by
          by_contra hne
          exact hn ((hlogs n hne).mpr hold)
        refine ⟨by omega, ?_, fun hmem => ?_⟩
        · by_contra htable
          exact absurd (h.tables n htable) (by omega)
        · exact absurd (h.pending n hmem) (by omega)
    · obtain ⟨hlt, hrest⟩ := h.logs n hold
      exact ⟨by omega, hrest⟩
  · rw [htables] at hn
    exact lt_of_lt_of_le (h.tables n hn) hnext
  · rw [hpending] at hn
    exact lt_of_lt_of_le (h.pending n hn) hnext
  · rw [hjobs] at hf
    rw [htables]
    exact h.building f hf

/-! ## Steps of jobs -/

theorem NumbersOk.endBackground {u : System U V R W N} (h : NumbersOk u) :
    NumbersOk (u.endBackground cfg) := by
  obtain ⟨db, ⟨jobQueue, scheduled, needs, rfl, -⟩, heq⟩ := endBackground_eq cfg u
  rw [heq]
  refine ⟨h.logNumber, h.logfileNumber, h.prevLogNumber, fun j hj => ?_⟩
  exact (h.jobs j hj).mono rfl (le_refl _)

theorem FilesApart.endBackground {u : System U V R W N} (h : FilesApart u) :
    FilesApart (u.endBackground cfg) := by
  obtain ⟨db, ⟨jobQueue, scheduled, needs, rfl, -⟩, heq⟩ := endBackground_eq cfg u
  rw [heq]
  exact ⟨h.logs, h.tables, h.pending, h.building⟩

/-- The database at the end of a flush or of a trivial move. -/
structure FinishNumbers (db db' : Db U V R N) (i : Install (InternalKey U) N) : Prop where
  numbers : db'.versions.logNumber = db.versions.logNumber ∧
      db'.versions.prevLogNumber = db.versions.prevLogNumber ∨
    db'.versions.logNumber = i.edit.logNumber ∧
      db'.versions.prevLogNumber = i.edit.prevLogNumber
  next : db'.versions.nextFileNumber = db.versions.nextFileNumber
  pending : db'.pendingOutputs = db.pendingOutputs
  logfileNumber : db'.logfileNumber = db.logfileNumber
  logs : db'.logs = db.logs
  tables : ∀ n, db'.tables n = db.tables n ∨ db'.tables n = none

theorem JobEnds.numbers {i : Install (InternalKey U) N} (h : JobEnds cfg s i db) :
    FinishNumbers s.db db i := by
  cases h with
  | flushed =>
    refine ⟨Or.inr ⟨rfl, rfl⟩, rfl, rfl, rfl, rfl, fun n => ?_⟩
    unfold removeObsoleteFiles
    dsimp only
    split
    · exact Or.inr rfl
    · exact Or.inl rfl
  | moved => exact ⟨Or.inr ⟨rfl, rfl⟩, rfl, rfl, rfl, rfl, fun _ => Or.inl rfl⟩
  | fails => exact ⟨Or.inl ⟨rfl, rfl⟩, rfl, rfl, rfl, rfl, fun _ => Or.inl rfl⟩

variable [Std.TransCmp cfg.version.icmp]

theorem applyBegin_filled {db' : Db U V R N} {edit : VersionEdit (InternalKey U) N}
    {o : ApplyOutcomes} {i : Install (InternalKey U) N}
    (hbegin : applyBegin cfg db edit o = some (db', i)) : Filled db.versions edit i.edit := by
  obtain ⟨⟨vs, disk, i₁⟩, happly, heq⟩ := Option.map_eq_some_iff.mp hbegin
  cases heq
  exact filled_of_fillEdit (logAndApplyBegin_eq_some happly).1

/-- A flush records the number of the current log file, and that no earlier one is needed. -/
theorem flushBuilt_numbers {db' : Db U V R N} {f : Flush U N} {fileMeta : TableMeta U}
    {status : Status} {shuttingDown : Bool} {o : ApplyOutcomes} {i : Install (InternalKey U) N}
    (hbuilt : flushBuilt cfg db f fileMeta status shuttingDown o = some (db', .logs i)) :
    i.edit.logNumber = db.logfileNumber ∧ i.edit.prevLogNumber = 0 := by
  cases flushBuilt_cases hbuilt with
  | logs hedit hok hbegin =>
    have hfilled := applyBegin_filled hbegin
    exact ⟨hfilled.logNumber, hfilled.prevLogNumber⟩

/-- What `WriteLevel0Table` leaves pending. -/
theorem flushBuilt_pending {db' : Db U V R N} {f : Flush U N} {fileMeta : TableMeta U}
    {status : Status} {shuttingDown : Bool} {o : ApplyOutcomes} {next : FlushNext U N}
    (hbuilt : flushBuilt cfg db f fileMeta status shuttingDown o = some (db', next)) :
    ∀ n ∈ db'.pendingOutputs, n ∈ db.pendingOutputs := by
  intro n hn
  cases flushBuilt_cases hbuilt with
  | logs hedit hok hbegin =>
    obtain ⟨-, -, compactPointer, descriptor, disk, rfl⟩ := applyBegin_eq_some hbegin
    exact Finset.mem_of_mem_erase hn
  | fails => exact Finset.mem_of_mem_erase hn

theorem NumbersOk.jobStart (h : NumbersOk s) {pick : Option (Fin N × Nat)} {o : ApplyOutcomes}
    (hstart : s.jobStart cfg pick o = some t) : NumbersOk t := by
  obtain ⟨-, -, hstarts⟩ := jobStart_eq_some hstart
  have hbegun : NumbersOk { s with db := { s.db with jobQueue := s.db.jobQueue - 1 } } :=
    ⟨h.logNumber, h.logfileNumber, h.prevLogNumber,
      fun j hj => (h.jobs j hj).mono rfl (le_refl _)⟩
  cases hstarts with
  | ends => exact hbegun.endBackground
  | flushes hbegin =>
    obtain ⟨m, -, rfl, rfl⟩ := flushBegin_eq_some hbegin
    refine ⟨h.logNumber, Nat.lt_succ_of_lt h.logfileNumber, h.prevLogNumber, fun j hj => ?_⟩
    rcases List.mem_append.mp hj with hj | hj
    · have hjob := h.jobs j hj
      cases hjob with
      | building hf => exact .building (Finset.mem_insert_of_mem hf)
      | built => exact .built
      | logging hlog hprev => exact .logging hlog hprev
      | logged hlog hprev => exact .logged hlog hprev
    · rw [List.mem_singleton.mp hj]
      exact .building (Finset.mem_insert_self _ _)
  | moves hf hbegin =>
    have hfilled := applyBegin_filled hbegin
    have hlog := hfilled.logNumber
    have hprev := hfilled.prevLogNumber
    obtain ⟨-, -, compactPointer, descriptor, disk, rfl⟩ := applyBegin_eq_some hbegin
    refine ⟨h.logNumber, h.logfileNumber, h.prevLogNumber, fun j hj => ?_⟩
    rcases List.mem_append.mp hj with hj | hj
    · exact (h.jobs j hj).mono rfl (le_refl _)
    · rw [List.mem_singleton.mp hj]
      -- the edit of a move has no log numbers of its own
      exact .logging (le_trans (le_of_eq hlog) h.logNumber) (hprev.trans h.prevLogNumber)

theorem FilesApart.jobStart (h : FilesApart s) {pick : Option (Fin N × Nat)} {o : ApplyOutcomes}
    (hstart : s.jobStart cfg pick o = some t) : FilesApart t := by
  obtain ⟨-, -, hstarts⟩ := jobStart_eq_some hstart
  have hbegun : FilesApart { s with db := { s.db with jobQueue := s.db.jobQueue - 1 } } :=
    ⟨h.logs, h.tables, h.pending, h.building⟩
  have hfresh : s.db.tables s.db.versions.nextFileNumber = none := by
    by_contra htable
    exact Nat.lt_irrefl _ (h.tables _ htable)
  cases hstarts with
  | ends => exact hbegun.endBackground
  | flushes hbegin =>
    obtain ⟨m, -, rfl, rfl⟩ := flushBegin_eq_some hbegin
    refine ⟨fun n hn => ?_, fun n hn => Nat.lt_succ_of_lt (h.tables n hn), fun n hn => ?_,
      fun f hf => ?_⟩
    · obtain ⟨hlt, htable, hpending⟩ := h.logs n hn
      refine ⟨Nat.lt_succ_of_lt hlt, htable, fun hmem => ?_⟩
      rcases Finset.mem_insert.mp hmem with hmem | hmem
      · exact Nat.lt_irrefl _ (lt_of_lt_of_eq hlt hmem.symm)
      · exact hpending hmem
    · rcases Finset.mem_insert.mp hn with hn | hn
      · rw [hn]
        exact Nat.lt_succ_self _
      · exact Nat.lt_succ_of_lt (h.pending n hn)
    · rcases List.mem_append.mp hf with hf | hf
      · exact h.building f hf
      · obtain rfl := Job.building.inj (List.mem_singleton.mp hf)
        exact hfresh
  | moves _ hbegin =>
    obtain ⟨-, -, compactPointer, descriptor, disk, rfl⟩ := applyBegin_eq_some hbegin
    refine ⟨h.logs, h.tables, h.pending, fun f hf => ?_⟩
    rcases List.mem_append.mp hf with hf | hf
    · exact h.building f hf
    · cases List.mem_singleton.mp hf

omit [Std.TransCmp cfg.version.icmp] in
/-- A table file is written under a number that is pending. -/
theorem numbersOk_jobBuild (h : NumbersOk s) (hone : OneJob s) {k : Nat}
    {o : BuildOutcomes U V} (hstep : s.jobBuild cfg k o = some t) :
    NumbersOk t ∧ (FilesApart s → FilesApart t) := by
  obtain ⟨f, entries, built, hk, -, htable, rfl⟩ := jobBuild_eq_some hstep
  obtain ⟨-, -, htables⟩ := buildTable_eq_some htable
  have hpending : f.number ∈ s.db.pendingOutputs := by
    have hjob := h.jobs _ (List.mem_of_getElem? hk)
    cases hjob with
    | building hf => exact hf
  refine ⟨⟨h.logNumber, h.logfileNumber, h.prevLogNumber, fun j hj => ?_⟩,
    fun hapart => ⟨fun n hn => ?_, fun n hn => ?_, hapart.pending, fun f' hf => ?_⟩⟩
  · rw [hone.mem_set hk hj]
    exact .built
  · obtain ⟨hlt, hnone, hnot⟩ := hapart.logs n hn
    have hne : n ≠ f.number := by
      rintro rfl
      exact hnot hpending
    exact ⟨hlt, (htables n hne).trans hnone, hnot⟩
  · by_cases hne : n = f.number
    · rw [hne]
      exact hapart.pending _ hpending
    · exact hapart.tables n fun hnone => hn ((htables n hne).trans hnone)
  · cases hone.mem_set hk hf

theorem numbersOk_jobBuilt (h : NumbersOk s) (hone : OneJob s) {k : Nat} {o : ApplyOutcomes}
    (hstep : s.jobBuilt cfg k o = some t) : NumbersOk t ∧ (FilesApart s → FilesApart t) := by
  obtain ⟨f, fileMeta, status, db, next, hk, hbuilt, hnext⟩ := jobBuilt_eq_some hstep
  have hpending := flushBuilt_pending hbuilt
  rcases hnext with ⟨i, rfl, rfl⟩ | ⟨error, -, rfl⟩
  · obtain ⟨hlog, hprev⟩ := flushBuilt_numbers hbuilt
    obtain ⟨compactPointer, descriptor, pendingOutputs, disk, rfl⟩ := flushBuilt_db hbuilt
    refine ⟨⟨h.logNumber, h.logfileNumber, h.prevLogNumber, fun j hj => ?_⟩,
      fun hapart => ⟨fun n hn => ?_, hapart.tables, fun n hn => hapart.pending n (hpending n hn),
        fun f' hf => ?_⟩⟩
    · rw [hone.mem_set hk hj]
      exact .logging (le_of_eq hlog) hprev
    · obtain ⟨hlt, hnone, hnot⟩ := hapart.logs n hn
      exact ⟨hlt, hnone, fun hmem => hnot (hpending n hmem)⟩
    · cases hone.mem_set hk hf
  · obtain ⟨compactPointer, descriptor, pendingOutputs, disk, rfl⟩ := flushBuilt_db hbuilt
    unfold System.endJob
    rw [hone.eraseIdx hk]
    refine ⟨NumbersOk.endBackground ⟨h.logNumber, h.logfileNumber, h.prevLogNumber,
      fun j hj => absurd hj List.not_mem_nil⟩, fun hapart => FilesApart.endBackground
        ⟨fun n hn => ?_, hapart.tables, fun n hn => hapart.pending n (hpending n hn),
          fun f hf => absurd hf List.not_mem_nil⟩⟩
    obtain ⟨hlt, hnone, hnot⟩ := hapart.logs n hn
    exact ⟨hlt, hnone, fun hmem => hnot (hpending n hmem)⟩

omit [Std.TransCmp cfg.version.icmp] in
theorem numbersOk_jobWrite (h : NumbersOk s) (hone : OneJob s) {k : Nat}
    (hstep : s.jobWrite cfg k = some t) : NumbersOk t ∧ (FilesApart s → FilesApart t) := by
  obtain ⟨isFlush, i, o, db, i', hk, hwrite, rfl⟩ := jobWrite_eq_some hstep
  obtain ⟨hedit, -, disk, rfl⟩ := applyWrite_eq_some hwrite
  refine ⟨⟨h.logNumber, h.logfileNumber, h.prevLogNumber, fun j hj => ?_⟩,
    fun hapart => ⟨hapart.logs, hapart.tables, hapart.pending, fun f hf => ?_⟩⟩
  · have hjob := h.jobs _ (List.mem_of_getElem? hk)
    rw [hone.mem_set hk hj]
    cases hjob with
    | logging hlog hprev =>
      rw [← hedit] at hlog hprev
      exact .logged hlog hprev
  · cases hone.mem_set hk hf

omit [Std.TransCmp cfg.version.icmp] in
/-- What `LogAndApply` installs was recorded in order. -/
theorem numbersOk_jobFinish (h : NumbersOk s) (hone : OneJob s) {k : Nat} {needs : Bool}
    (hstep : s.jobFinish cfg k needs = some t) : NumbersOk t ∧ (FilesApart s → FilesApart t) := by
  obtain ⟨isFlush, i, o, db, hk, hdb, rfl⟩ := jobFinish_eq_some hstep
  have hfinish := hdb.numbers
  have hjob := h.jobs _ (List.mem_of_getElem? hk)
  unfold System.endJob
  rw [hone.eraseIdx hk]
  cases hjob with
  | logged hlog hprev =>
    refine ⟨NumbersOk.endBackground ⟨?_, ?_, ?_, fun j hj => absurd hj List.not_mem_nil⟩,
      fun hapart => FilesApart.endBackground ⟨fun n hn => ?_, fun n hn => ?_, fun n hn => ?_,
        fun f hf => absurd hf List.not_mem_nil⟩⟩
    · show db.versions.logNumber ≤ db.logfileNumber
      rw [hfinish.logfileNumber]
      rcases hfinish.numbers with ⟨heq, -⟩ | ⟨heq, -⟩
      · rw [heq]
        exact h.logNumber
      · rw [heq]
        exact hlog
    · show db.logfileNumber < db.versions.nextFileNumber
      rw [hfinish.logfileNumber, hfinish.next]
      exact h.logfileNumber
    · show db.versions.prevLogNumber = 0
      rcases hfinish.numbers with ⟨-, heq⟩ | ⟨-, heq⟩
      · exact heq.trans h.prevLogNumber
      · exact heq.trans hprev
    · have hn : db.logs n ≠ none := hn
      rw [hfinish.logs] at hn
      obtain ⟨hlt, hnone, hnot⟩ := hapart.logs n hn
      show n < db.versions.nextFileNumber ∧ db.tables n = none ∧ n ∉ db.pendingOutputs
      rw [hfinish.next, hfinish.pending]
      refine ⟨hlt, ?_, hnot⟩
      rcases hfinish.tables n with heq | heq
      · exact heq.trans hnone
      · exact heq
    · show n < db.versions.nextFileNumber
      rw [hfinish.next]
      rcases hfinish.tables n with heq | heq
      · exact hapart.tables n fun hnone => hn (heq.trans hnone)
      · exact absurd heq hn
    · have hn : n ∈ db.pendingOutputs := hn
      rw [hfinish.pending] at hn
      show n < db.versions.nextFileNumber
      rw [hfinish.next]
      exact hapart.pending n hn

/-! ## Every step -/

variable [DecidableEq W]

/-- **Every step keeps the file numbers in order.** -/
theorem numbersOk_of_step (h : NumbersOk s) (hq : QueueOk s) (hone : OneJob s)
    (hreuses : cfg.ReusesLast) {l : Label U V W N} (hstep : System.step cfg calls s l = some t) :
    NumbersOk t ∧ (FilesApart s → FilesApart t) := by
  cases l with
  | write w act =>
    obtain ⟨hdb, -, hjobs⟩ := (writeStep_of_write hq hstep).db
    exact ⟨h.write hreuses hdb hjobs, fun hapart => hapart.write hreuses hdb hjobs⟩
  | getCall key snapshot =>
    obtain ⟨h₁, h₂, -, -, rfl⟩ := getCall_eq_some hstep
    exact ⟨⟨h.logNumber, h.logfileNumber, h.prevLogNumber,
      fun j hj => (h.jobs j hj).mono rfl (le_refl _)⟩,
      fun hapart => ⟨hapart.logs, hapart.tables, hapart.pending, hapart.building⟩⟩
  | getRead i =>
    obtain ⟨g, pc, -, -, rfl⟩ := getRead_eq_some hstep
    exact ⟨⟨h.logNumber, h.logfileNumber, h.prevLogNumber, h.jobs⟩,
      fun hapart => ⟨hapart.logs, hapart.tables, hapart.pending, hapart.building⟩⟩
  | getFinish i updated needs =>
    obtain ⟨g, result, stats, memtables, db, -, -, -, hscheduled, rfl⟩ := getFinish_eq_some hstep
    obtain ⟨jobQueue, scheduled, needs', rfl, -⟩ := hscheduled
    exact ⟨⟨h.logNumber, h.logfileNumber, h.prevLogNumber,
      fun j hj => (h.jobs j hj).mono rfl (le_refl _)⟩,
      fun hapart => ⟨hapart.logs, hapart.tables, hapart.pending, hapart.building⟩⟩
  | jobStart pick o => exact ⟨h.jobStart hstep, fun hapart => hapart.jobStart hstep⟩
  | jobBuild k o => exact numbersOk_jobBuild h hone hstep
  | jobBuilt k o => exact numbersOk_jobBuilt h hone hstep
  | jobWrite k => exact numbersOk_jobWrite h hone hstep
  | jobFinish k needs => exact numbersOk_jobFinish h hone hstep
  | shutDown =>
    cases hstep
    exact ⟨⟨h.logNumber, h.logfileNumber, h.prevLogNumber,
      fun j hj => (h.jobs j hj).mono rfl (le_refl _)⟩,
      fun hapart => ⟨hapart.logs, hapart.tables, hapart.pending, hapart.building⟩⟩

/-- Numbers are not handed out again. -/
theorem nextFileNumber_le_of_step (hq : QueueOk s) (hreuses : cfg.ReusesLast) {l : Label U V W N}
    (hstep : System.step cfg calls s l = some t) :
    s.db.versions.nextFileNumber ≤ t.db.versions.nextFileNumber := by
  rcases l.write_or_other with ⟨w, act, rfl⟩ | hl
  · exact ((writeStep_of_write hq hstep).db.1.files hreuses).1
  cases otherStep_of_step hl hstep with
  | idles => rw [endBackground_versions]
  | flushes => exact Nat.le_succ _
  | buildFails =>
    rw [endJob_versions]
    exact le_refl _
  | finishes _ hdb =>
    rw [endJob_versions]
    exact le_of_eq hdb.numbers.next.symm
  | _ => exact le_refl _

/-- A step keeps no number, or the one that comes next. -/
theorem recordNumbers_step (hq : QueueOk s) (hreuses : cfg.ReusesLast) (h : List Nat)
    {l : Label U V W N} (hstep : System.step cfg calls s l = some t) :
    recordNumbers h s l t = h ∨
      recordNumbers h s l t = h ++ [s.db.versions.nextFileNumber] ∧
        t.db.versions.nextFileNumber = s.db.versions.nextFileNumber + 1 := by
  cases l with
  | write w act =>
    unfold recordNumbers
    dsimp only
    obtain ⟨hnumbers, -⟩ := (writeStep_of_write hq hstep).db.1.numbers hreuses
    cases hnumbers with
    | same _ _ hmem => exact Or.inl (if_pos hmem)
    | draws hlogfile hnext hmem =>
      rw [if_neg (by omega), hlogfile]
      exact Or.inr ⟨rfl, hnext⟩
  | jobStart pick o =>
    obtain ⟨-, -, hstarts⟩ := jobStart_eq_some hstep
    cases hstarts with
    | ends =>
      refine Or.inl ?_
      unfold recordNumbers
      dsimp only
      rw [endBackground_jobs, List.getElem?_eq_none (le_refl _)]
    | flushes hbegin =>
      obtain ⟨m, -, rfl, rfl⟩ := flushBegin_eq_some hbegin
      refine Or.inr ⟨?_, rfl⟩
      unfold recordNumbers
      dsimp only
      rw [List.getElem?_concat_length]
    | moves =>
      refine Or.inl ?_
      unfold recordNumbers
      dsimp only
      rw [List.getElem?_concat_length]
  | _ => exact Or.inl rfl

/-- **The file numbers.** From a database with `log_number_ ≤ logfile_number_ < next_file_number_`
and `prev_log_number_ = 0`, every run keeps these; the log file and the tables keep no number twice;
logs, tables and pending tables stay apart if they were; and the assertions on log numbers hold. -/
theorem numbersOk_of_run (hreuses : cfg.ReusesLast) (hopened : Opened s)
    (hlog : s.db.versions.logNumber ≤ s.db.logfileNumber)
    (hlogfile : s.db.logfileNumber < s.db.versions.nextFileNumber)
    (hprev : s.db.versions.prevLogNumber = 0) {h : List Nat}
    (run : Transition.Reaches (Transition.tracked (System.step cfg calls) recordNumbers)
      (s, [s.db.logfileNumber]) (t, h)) :
    (t.db.versions.logNumber ≤ t.db.logfileNumber ∧
        t.db.logfileNumber < t.db.versions.nextFileNumber) ∧
      (h.Nodup ∧ ∀ n ∈ h, n < t.db.versions.nextFileNumber) ∧
      (FilesApart s → FilesApart t) ∧ LogAssertions t.db := by
  have hstart : NumbersOk s := by
    refine ⟨hlog, hlogfile, hprev, ?_⟩
    rw [hopened.jobs]
    exact fun j hj => absurd hj List.not_mem_nil
  obtain ⟨ho, hok, hapart, hnodup, hbelow⟩ := run.invariant
    (I := fun x => Orderly x.1 ∧ NumbersOk x.1 ∧ (FilesApart s → FilesApart x.1) ∧
      x.2.Nodup ∧ ∀ n ∈ x.2, n < x.1.db.versions.nextFileNumber)
    (fun {x y l} ⟨ho, hok, hapart, hnodup, hbelow⟩ _ hstep => by
      obtain ⟨hstep, hrecord⟩ := Transition.tracked_eq_some.mp hstep
      obtain ⟨hok', hapart'⟩ := numbersOk_of_step hok ho.queue ho.oneJob hreuses hstep
      have hnext := nextFileNumber_le_of_step ho.queue hreuses hstep
      refine ⟨ho.step hstep, hok', fun h => hapart' (hapart h), ?_⟩
      rw [hrecord]
      rcases recordNumbers_step ho.queue hreuses x.2 hstep with heq | ⟨heq, hdrawn⟩
      · rw [heq]
        exact ⟨hnodup, fun n hn => lt_of_lt_of_le (hbelow n hn) hnext⟩
      · rw [heq, hdrawn]
        refine ⟨?_, fun n hn => ?_⟩
        · rw [List.nodup_append]
          refine ⟨hnodup, List.nodup_singleton _, fun a ha b hb hab => ?_⟩
          rw [List.mem_singleton.mp hb] at hab
          exact Nat.lt_irrefl _ (lt_of_lt_of_eq (hbelow a ha) hab.symm)
        · rcases List.mem_append.mp hn with hn | hn
          · exact Nat.lt_succ_of_lt (hbelow n hn)
          · rw [List.mem_singleton.mp hn]
            exact Nat.lt_succ_self _)
    ⟨hopened.orderly, hstart, id, List.nodup_singleton _, fun n hn => by
      rw [List.mem_singleton.mp hn]
      exact hlogfile⟩
  exact ⟨⟨hok.logNumber, hok.logfileNumber⟩, ⟨hnodup, hbelow⟩, hapart, hok.assertions⟩

end Numbers

theorem queuedSystem_logs {n : Nat} (hn : n ≠ 4) : queuedSystem.db.logs n = none := by
  show flushDb.logs n = none
  unfold flushDb
  dsimp only
  split
  · exact absurd rfl hn
  · rfl

theorem queuedSystem_filesApart : FilesApart queuedSystem where
  logs n hn := by
    by_cases h : n = 4
    · subst h
      exact ⟨by decide, rfl, Finset.notMem_empty 4⟩
    · exact absurd (queuedSystem_logs h) hn
  tables _ hn := absurd rfl hn
  pending n hn := absurd hn (Finset.notMem_empty n)
  building f hf := absurd hf List.not_mem_nil

/-- After the flush of `imm_` and a failed sync, one call cannot create a log file, and the next one
gets its number. -/
theorem numbersOk_of_run_reused :
    ∃ t h, Transition.exec (Transition.tracked (System.step natDb fullCalls) recordNumbers)
        (flushes ++ syncFails 0 ++ writeFive 1 ++
          [.write 2 (.call { status := .IOError "create" "", opened := false } 1),
            .write 3 (.call {} 1)]) (queuedSystem, [4]) = some (t, h) ∧
      h = [4, 5, 6] ∧ t.db.logfileNumber = 6 ∧
      (t.db.versions.logNumber ≤ t.db.logfileNumber ∧
        t.db.logfileNumber < t.db.versions.nextFileNumber) ∧
      (h.Nodup ∧ ∀ n ∈ h, n < t.db.versions.nextFileNumber) ∧
      FilesApart t ∧ LogAssertions t.db := by
  obtain ⟨t, h, ht, hh, hnumber⟩ : ∃ t h,
      Transition.exec (Transition.tracked (System.step natDb fullCalls) recordNumbers)
        (flushes ++ syncFails 0 ++ writeFive 1 ++
          [.write 2 (.call { status := .IOError "create" "", opened := false } 1),
            .write 3 (.call {} 1)]) (queuedSystem, [4]) = some (t, h) ∧
      h = [4, 5, 6] ∧ t.db.logfileNumber = 6 := ⟨_, _, rfl, rfl, rfl⟩
  obtain ⟨hlog, hnodup, hapart, hassert⟩ := numbersOk_of_run natDb_reuses
    queuedSystem_opened (by decide) (by decide) rfl (Transition.Run.of_exec ht)
  exact ⟨t, h, ht, hh, hnumber, hlog, hnodup, hapart queuedSystem_filesApart, hassert⟩

end LevelDB
