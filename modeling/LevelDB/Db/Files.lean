import LevelDB.Db.OneJob
import LevelDB.Db.References

/-!
# The table files of the versions in use

A version is in use while it is the current one or while a call of `Get` that captured it has not
returned.

* `FilesOk` — at most one background job is queued or running; the files that the versions in use
  list are on disk, and a running flush writes none of them;
* `keepsFiles_of_step` — so no step touches the tables of a version in use, and the current version
  comes to list no file that it did not list before;
* `FilesOk.step` — every step of every thread keeps this.
-/

set_option autoImplicit false

namespace LevelDB

variable {U V R W : Type} {N : Nat}

/-- The versions in use. -/
def System.live (s : System U V R W N) : List (Version (InternalKey U) N) :=
  s.db.versions.current :: s.heldVersions

/-- What the running job relies on: a flush writes a file that no version in use lists, its table
has no size, and a version that waits to be installed lists files of the current one only. -/
inductive JobOk (s : System U V R W N) : Job U N → Prop
  | building {f : Flush U N} (hbelow : f.number < s.db.versions.nextFileNumber)
      (hnew : ∀ v ∈ s.live, ¬ v.Lists f.number) : JobOk s (.building f)
  | built {f : Flush U N} {fileMeta : TableMeta U} {status : Status}
      (hsize : fileMeta.fileSize = 0) : JobOk s (.built f fileMeta status)
  | logging {isFlush : Bool} {i : Install (InternalKey U) N} {o : ApplyOutcomes}
      (hlists : ∀ n, i.v.Lists n → s.db.versions.current.Lists n) :
      JobOk s (.logging isFlush i o)
  | logged {isFlush : Bool} {i : Install (InternalKey U) N} {o : ApplyOutcomes}
      (hlists : ∀ n, i.v.Lists n → s.db.versions.current.Lists n) :
      JobOk s (.logged isFlush i o)

structure FilesOk (s : System U V R W N) : Prop where
  count : s.db.jobQueue + s.jobs.length = s.db.scheduledJobs
  below : ∀ v ∈ s.live, ∀ n, v.Lists n → n < s.db.versions.nextFileNumber
  onDisk : ∀ v ∈ s.live, ∀ n, v.Lists n → s.db.tables n ≠ none
  job : ∀ j ∈ s.jobs, JobOk s j

/-- What every step does to the files of the versions in use. -/
structure KeepsFiles (s t : System U V R W N) : Prop where
  next : s.db.versions.nextFileNumber ≤ t.db.versions.nextFileNumber
  current : ∀ n, t.db.versions.current.Lists n → s.db.versions.current.Lists n
  held : ∀ v ∈ t.heldVersions, v ∈ s.live
  tables : ∀ v ∈ t.live, ∀ n, v.Lists n → t.db.tables n = s.db.tables n

section Keep

variable {s t : System U V R W N}

theorem KeepsFiles.lists (h : KeepsFiles s t) {v : Version (InternalKey U) N} (hv : v ∈ t.live)
    {n : Nat} (hn : v.Lists n) : ∃ v' ∈ s.live, v'.Lists n := by
  rcases List.mem_cons.mp hv with rfl | hv
  · exact ⟨_, List.mem_cons_self, h.current n hn⟩
  · exact ⟨v, h.held v hv, hn⟩

theorem FilesOk.oneJob (h : FilesOk s) : OneJob s := h.count

theorem FilesOk.keep (h : FilesOk s) (hkeeps : KeepsFiles s t) (hcount : OneJob t)
    (hjob : ∀ j ∈ t.jobs, JobOk t j) : FilesOk t where
  count := hcount
  below v hv n hn := by
    obtain ⟨v', hv', hn'⟩ := hkeeps.lists hv hn
    exact Nat.lt_of_lt_of_le (h.below v' hv' n hn') hkeeps.next
  onDisk v hv n hn := by
    obtain ⟨v', hv', hn'⟩ := hkeeps.lists hv hn
    rw [hkeeps.tables v hv n hn]
    exact h.onDisk v' hv' n hn'
  job := hjob

/-- A job keeps what it relies on as long as the current version lists the same files. -/
theorem JobOk.keep {j : Job U N} (h : JobOk s j) (hkeeps : KeepsFiles s t)
    (hcurrent : t.db.versions.current = s.db.versions.current) : JobOk t j := by
  cases h with
  | building hbelow hnew =>
    refine .building (Nat.lt_of_lt_of_le hbelow hkeeps.next) fun v hv hn => ?_
    obtain ⟨v', hv', hn'⟩ := hkeeps.lists hv hn
    exact hnew v' hv' hn'
  | built hsize => exact .built hsize
  | logging hlists => exact .logging (by rw [hcurrent]; exact hlists)
  | logged hlists => exact .logged (by rw [hcurrent]; exact hlists)

theorem KeepsFiles.of_same (hnext : s.db.versions.nextFileNumber ≤ t.db.versions.nextFileNumber)
    (hcurrent : t.db.versions.current = s.db.versions.current) (hgets : t.gets = s.gets)
    (htables : t.db.tables = s.db.tables) : KeepsFiles s t where
  next := hnext
  current n hn := by rw [hcurrent] at hn; exact hn
  held v hv := by
    unfold System.heldVersions at hv
    rw [hgets] at hv
    exact List.mem_cons_of_mem _ hv
  tables v hv n hn := by rw [htables]

end Keep

section Step

variable {cfg : DbConfig U V R N} {s t : System U V R W N} {db : Db U V R N}

/-- What a stretch of `MakeRoomForWrite` does to the files. -/
theorem RoomEffect.files {o : CreateOutcome} {db' : Db U V R N} (hreuses : cfg.ReusesLast)
    (h : RoomEffect cfg o db db') :
    db.versions.nextFileNumber ≤ db'.versions.nextFileNumber ∧
      db'.versions.current = db.versions.current ∧ db'.tables = db.tables := by
  cases h with
  | same => exact ⟨le_refl _, rfl, rfl⟩
  | reused => exact ⟨le_of_eq (hreuses _).symm, rfl, rfl⟩
  | switched =>
    unfold switchMemTable
    obtain ⟨jobQueue, scheduled, needs, heq, -⟩ :=
      @scheduled_maybeScheduleCompaction U V R N cfg _
    rw [heq]
    exact ⟨Nat.le_succ _, rfl, rfl⟩

theorem WriteDb.files {w : W} (hreuses : cfg.ReusesLast) (h : WriteDb cfg s w db) :
    s.db.versions.nextFileNumber ≤ db.versions.nextFileNumber ∧
      db.versions.current = s.db.versions.current ∧ db.tables = s.db.tables := by
  cases h with
  | room heffect => exact heffect.files hreuses
  | logged => exact ⟨le_refl _, rfl, rfl⟩
  | inserted => exact ⟨le_refl _, rfl, rfl⟩
  | sequenced => exact ⟨le_refl _, rfl, rfl⟩

/-! ## Get -/

theorem keepsFiles_getCall {key : U} {snapshot : Option Nat}
    (h : s.getCall key snapshot = some t) : KeepsFiles s t := by
  obtain ⟨h₁, h₂, -, -, rfl⟩ := getCall_eq_some h
  refine ⟨le_refl _, fun _ hn => hn, fun v hv => ?_, fun _ _ _ _ => rfl⟩
  obtain ⟨g, hg, rfl⟩ := List.mem_map.mp hv
  obtain ⟨hg, hactive⟩ := List.mem_filter.mp hg
  rcases List.mem_append.mp hg with hg | hg
  · exact List.mem_cons_of_mem _ (List.mem_map_of_mem (List.mem_filter.mpr ⟨hg, hactive⟩))
  · rw [List.mem_singleton.mp hg]
    exact List.mem_cons_self

/-- A call that goes on or ends holds no other version. -/
theorem held_of_set {i : Nat} {g c : GetCall U V N} (hg : s.gets[i]? = some g)
    (hcurrent : c.current = g.current) (hactive : c.active = true → g.active = true)
    {u : System U V R W N} (hgets : u.gets = s.gets.set i c) :
    ∀ v ∈ u.heldVersions, v ∈ s.heldVersions := by
  intro v hv
  unfold System.heldVersions at hv
  rw [hgets] at hv
  obtain ⟨x, hx, rfl⟩ := List.mem_map.mp hv
  obtain ⟨hx, hxactive⟩ := List.mem_filter.mp hx
  rcases List.mem_or_eq_of_mem_set hx with hx | rfl
  · exact List.mem_map_of_mem (List.mem_filter.mpr ⟨hx, hxactive⟩)
  · rw [hcurrent]
    exact List.mem_map_of_mem
      (List.mem_filter.mpr ⟨List.mem_of_getElem? hg, hactive hxactive⟩)

/-! ## Background jobs -/

theorem KeepsFiles.endBackground {u : System U V R W N} (h : KeepsFiles s u) :
    KeepsFiles s (u.endBackground cfg) := by
  obtain ⟨db, ⟨jobQueue, scheduled, needs, rfl, -⟩, heq⟩ := endBackground_eq cfg u
  rw [heq]
  exact ⟨h.next, h.current, h.held, h.tables⟩

theorem JobEnds.files (hkeeps : cfg.KeepsLive) {i : Install (InternalKey U) N}
    (h : JobEnds cfg s i db) :
    db.versions.nextFileNumber = s.db.versions.nextFileNumber ∧
      (db.versions.current = s.db.versions.current ∨ db.versions.current = i.v) ∧
      ∀ v ∈ db.versions.current :: s.heldVersions, ∀ n, v.Lists n →
        db.tables n = s.db.tables n := by
  cases h with
  | flushed =>
    refine ⟨rfl, Or.inr rfl, fun v hv n hn => if_neg fun hobsolete => ?_⟩
    exact (hkeeps _ _ _ hobsolete).2 v hv hn
  | moved => exact ⟨rfl, Or.inr rfl, fun _ _ _ _ => rfl⟩
  | fails => exact ⟨rfl, Or.inl rfl, fun _ _ _ _ => rfl⟩

/-- The version that a job builds lists files of the current one only. -/
theorem applyBegin_lists [Std.TransCmp cfg.version.icmp] {edit : VersionEdit (InternalKey U) N}
    {o : ApplyOutcomes} {i : Install (InternalKey U) N} {db' : Db U V R N}
    (h : applyBegin cfg db edit o = some (db', i))
    (hedit : ∀ level, ∀ f ∈ edit.newAt level, db.versions.current.Lists f.number) {n : Nat}
    (hn : i.v.Lists n) : db.versions.current.Lists n := by
  obtain ⟨level, f, hf, rfl⟩ := hn
  obtain ⟨-, hfiles, -⟩ := applyBegin_eq_some h
  rcases hfiles level f hf with hf | ⟨g, hg, rfl⟩
  · exact ⟨level, f, hf, rfl⟩
  · rw [FileMetaData.adopted_number]
    exact hedit level g hg

theorem moveEdit_newAt {level next l : Fin N} {f g : FileMetaData (InternalKey U)}
    (hg : g ∈ (System.moveEdit level next f).newAt l) : g.number = f.number := by
  unfold VersionEdit.newAt System.moveEdit at hg
  obtain ⟨p, hp, rfl⟩ := List.mem_map.mp hg
  rw [List.mem_singleton.mp (List.mem_filter.mp hp).1]

/-! ## Every step -/

theorem FilesOk.of_same_jobs (h : FilesOk s) (hone : OneJob t) (hkeeps : KeepsFiles s t)
    (hcurrent : t.db.versions.current = s.db.versions.current) (hjobs : t.jobs = s.jobs) :
    KeepsFiles s t ∧ FilesOk t := by
  refine ⟨hkeeps, h.keep hkeeps hone fun j hj => ?_⟩
  rw [hjobs] at hj
  exact (h.job j hj).keep hkeeps hcurrent

/-- The running job goes on. -/
theorem FilesOk.of_job {k : Nat} {j j' : Job U N} (h : FilesOk s) (hone : OneJob t)
    (hk : s.jobs[k]? = some j) (hkeeps : KeepsFiles s t) (hjobs : t.jobs = s.jobs.set k j')
    (hjob : JobOk t j') : KeepsFiles s t ∧ FilesOk t := by
  refine ⟨hkeeps, h.keep hkeeps hone fun x hx => ?_⟩
  rw [hjobs] at hx
  rw [h.oneJob.mem_set hk hx]
  exact hjob

/-- A queued job starts to run. -/
theorem FilesOk.of_start {j : Job U N} (h : FilesOk s) (hone : OneJob t) (hnone : s.jobs = [])
    (hkeeps : KeepsFiles s t) (hjobs : t.jobs = s.jobs ++ [j]) (hjob : JobOk t j) :
    KeepsFiles s t ∧ FilesOk t := by
  refine ⟨hkeeps, h.keep hkeeps hone fun x hx => ?_⟩
  rw [hjobs, hnone] at hx
  rw [List.mem_singleton.mp hx]
  exact hjob

/-- The running job ends, or one that was queued ends at once. -/
theorem FilesOk.of_end {u : System U V R W N} (h : FilesOk s)
    (hone : OneJob (u.endBackground cfg)) (hkeeps : KeepsFiles s u) (hjobs : u.jobs = []) :
    KeepsFiles s (u.endBackground cfg) ∧ FilesOk (u.endBackground cfg) := by
  refine ⟨hkeeps.endBackground, h.keep hkeeps.endBackground hone fun j hj => ?_⟩
  rw [endBackground_jobs, hjobs] at hj
  exact absurd hj List.not_mem_nil

/-- A flush writes its own file. -/
theorem FilesOk.build (h : FilesOk s) (hone : OneJob t) {k : Nat} {o : BuildOutcomes U V}
    (hstep : s.jobBuild cfg k o = some t) : KeepsFiles s t ∧ FilesOk t := by
  obtain ⟨f, entries, built, hk, -, htable, rfl⟩ := jobBuild_eq_some hstep
  obtain ⟨-, hsize, htables⟩ := buildTable_eq_some htable
  have hjob := h.job _ (List.mem_of_getElem? hk)
  cases hjob with
  | building hbelow hnew =>
    refine h.of_job hone hk ⟨le_refl _, fun _ hn => hn, fun v hv => List.mem_cons_of_mem _ hv,
      fun v hv n hn => ?_⟩ rfl (.built hsize)
    exact htables n fun heq => hnew v hv (by rw [← heq]; exact hn)

theorem FilesOk.logWrite (h : FilesOk s) (hone : OneJob t) {k : Nat}
    (hstep : s.jobWrite cfg k = some t) : KeepsFiles s t ∧ FilesOk t := by
  obtain ⟨isFlush, i, o, db, i', hk, hwrite, rfl⟩ := jobWrite_eq_some hstep
  obtain ⟨-, hv, disk, rfl⟩ := applyWrite_eq_some hwrite
  have hjob := h.job _ (List.mem_of_getElem? hk)
  cases hjob with
  | logging hlists =>
    exact h.of_job hone hk (.of_same (le_refl _) rfl rfl rfl) rfl
      (.logged (by rw [hv]; exact hlists))

theorem FilesOk.finish (h : FilesOk s) (hone : OneJob t) (hkeeps : cfg.KeepsLive) {k : Nat}
    {needs : Bool} (hstep : s.jobFinish cfg k needs = some t) : KeepsFiles s t ∧ FilesOk t := by
  obtain ⟨isFlush, i, o, db, hk, hdb, rfl⟩ := jobFinish_eq_some hstep
  obtain ⟨hnext, hcurrent, htables⟩ := hdb.files hkeeps
  have hlists : ∀ n, i.v.Lists n → s.db.versions.current.Lists n := by
    have hjob := h.job _ (List.mem_of_getElem? hk)
    cases hjob with
    | logged hlists => exact hlists
  refine h.of_end (u := { s with db, jobs := s.jobs.eraseIdx k }) hone
    ⟨le_of_eq hnext.symm, fun n hn => ?_, fun v hv => List.mem_cons_of_mem _ hv, htables⟩
    (h.oneJob.eraseIdx hk)
  rcases hcurrent with hcurrent | hcurrent
  · rw [← hcurrent]
    exact hn
  · refine hlists n ?_
    rw [← hcurrent]
    exact hn

variable [Std.TransCmp cfg.version.icmp]

theorem FilesOk.start (h : FilesOk s) (hone : OneJob t) {pick : Option (Fin N × Nat)}
    {o : ApplyOutcomes} (hstart : s.jobStart cfg pick o = some t) :
    KeepsFiles s t ∧ FilesOk t := by
  obtain ⟨hqueued, -, hstarts⟩ := jobStart_eq_some hstart
  have hnone := (h.oneJob.starts hqueued).1
  cases hstarts with
  | ends => exact h.of_end hone (.of_same (le_refl _) rfl rfl rfl) hnone
  | @flushes db f hbegin =>
    obtain ⟨m, -, rfl, rfl⟩ := flushBegin_eq_some hbegin
    exact h.of_start hone hnone (.of_same (Nat.le_succ _) rfl rfl rfl) rfl
      (.building (Nat.lt_succ_self _) fun v hv hn => Nat.lt_irrefl _ (h.below v hv _ hn))
  | @moves db i o level next f hf hbegin =>
    have hlists : ∀ n, i.v.Lists n → s.db.versions.current.Lists n := fun n hn =>
      applyBegin_lists hbegin (fun l g hg => ⟨level, f, hf, (moveEdit_newAt hg).symm⟩) hn
    obtain ⟨-, -, compactPointer, descriptor, disk, rfl⟩ := applyBegin_eq_some hbegin
    exact h.of_start hone hnone (.of_same (le_refl _) rfl rfl rfl) rfl (.logging hlists)

theorem FilesOk.afterBuild (h : FilesOk s) (hone : OneJob t) {k : Nat} {o : ApplyOutcomes}
    (hstep : s.jobBuilt cfg k o = some t) : KeepsFiles s t ∧ FilesOk t := by
  obtain ⟨f, fileMeta, status, db, next, hk, hbuilt, hnext⟩ := jobBuilt_eq_some hstep
  have hjob := h.job _ (List.mem_of_getElem? hk)
  cases hjob with
  | built hsize =>
    rcases flushBuilt_eq_some hsize hbuilt with ⟨i, rfl, -, hbegin⟩ | ⟨rfl, -, rfl⟩
    · rcases hnext with ⟨i', heq, rfl⟩ | ⟨error, heq, -⟩
      · cases heq
        have hlists : ∀ n, i.v.Lists n → s.db.versions.current.Lists n := fun n hn =>
          applyBegin_lists hbegin (fun _ g hg => absurd hg List.not_mem_nil) hn
        obtain ⟨-, -, compactPointer, descriptor, disk, rfl⟩ := applyBegin_eq_some hbegin
        exact h.of_job hone hk (.of_same (le_refl _) rfl rfl rfl) rfl (.logging hlists)
      · cases heq
    · rcases hnext with ⟨i', heq, -⟩ | ⟨error, heq, rfl⟩
      · cases heq
      · exact h.of_end hone (.of_same (le_refl _) rfl rfl rfl) (h.oneJob.eraseIdx hk)

variable [DecidableEq W] {calls : W → WriteRequest U V}

theorem FilesOk.step_keeps (h : FilesOk s) (hq : QueueOk s) (hreuses : cfg.ReusesLast)
    (hkeeps : cfg.KeepsLive) {l : Label U V W N} (hstep : System.step cfg calls s l = some t) :
    KeepsFiles s t ∧ FilesOk t := by
  have hone := h.oneJob.step hq hstep
  cases l with
  | write w act =>
    obtain ⟨hdb, hgets, hjobs⟩ := (writeStep_of_write hq hstep).db
    obtain ⟨hnext, hcurrent, htables⟩ := hdb.files hreuses
    exact h.of_same_jobs hone (.of_same hnext hcurrent hgets htables) hcurrent hjobs
  | getCall key snapshot =>
    have hcall := keepsFiles_getCall hstep
    obtain ⟨h₁, h₂, -, -, rfl⟩ := getCall_eq_some hstep
    exact h.of_same_jobs hone hcall rfl rfl
  | getRead i =>
    obtain ⟨g, pc, hg, hpc, rfl⟩ := getRead_eq_some hstep
    have hheld := held_of_set (c := { g with pc }) hg rfl (fun _ => (readPc_active hpc).1)
      (u := { s with gets := s.gets.set i { g with pc } }) rfl
    exact h.of_same_jobs hone ⟨le_refl _, fun _ hn => hn,
      fun v hv => List.mem_cons_of_mem _ (hheld v hv), fun _ _ _ _ => rfl⟩ rfl rfl
  | getFinish i updated needs =>
    obtain ⟨g, result, stats, memtables, db, hg, -, -, hscheduled, rfl⟩ := getFinish_eq_some hstep
    obtain ⟨jobQueue, scheduled, needs', rfl, -⟩ := hscheduled
    have hheld : ∀ s' : System U V R W N,
        s'.gets = s.gets.set i { g with pc := .returned result } →
          ∀ v ∈ s'.heldVersions, v ∈ s.heldVersions :=
      fun s' => held_of_set (c := { g with pc := .returned result }) hg rfl nofun
    exact h.of_same_jobs hone ⟨le_refl _, fun _ hn => hn,
      fun v hv => List.mem_cons_of_mem _ (hheld _ rfl v hv), fun _ _ _ _ => rfl⟩ rfl rfl
  | jobStart pick o => exact h.start hone hstep
  | jobBuild k o => exact h.build hone hstep
  | jobBuilt k o => exact h.afterBuild hone hstep
  | jobWrite k => exact h.logWrite hone hstep
  | jobFinish k needs => exact h.finish hone hkeeps hstep
  | shutDown =>
    cases hstep
    exact h.of_same_jobs hone (.of_same (le_refl _) rfl rfl rfl) rfl rfl

/-- **No step touches the tables of a version in use.** -/
theorem keepsFiles_of_step (h : FilesOk s) (hq : QueueOk s) (hreuses : cfg.ReusesLast)
    (hkeeps : cfg.KeepsLive) {l : Label U V W N} (hstep : System.step cfg calls s l = some t) :
    KeepsFiles s t := (h.step_keeps hq hreuses hkeeps hstep).1

theorem FilesOk.step (h : FilesOk s) (hq : QueueOk s) (hreuses : cfg.ReusesLast)
    (hkeeps : cfg.KeepsLive) {l : Label U V W N} (hstep : System.step cfg calls s l = some t) :
    FilesOk t := (h.step_keeps hq hreuses hkeeps hstep).2

end Step

end LevelDB
