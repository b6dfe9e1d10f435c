import LevelDB.Db.Reachable

/-!
# Installing versions

`LogAndApply` builds the new version on top of the current one, releases the mutex, and makes it
current later.

* `current_of_step` — only the end of `LogAndApply` changes the current version;
* `basesOk_of_run` — one call of `LogAndApply` at most is in progress, and the current version is
  still the one that its `Builder` started from, and that the level of a flush was picked for.
-/

set_option autoImplicit false

namespace LevelDB

variable {U V R W : Type} {N : Nat}

/-- The versions that were current when the last call of `LogAndApply` made its `Builder`, and when
`CompactMemtable` took the `base` for `PickLevelForMemtableOutput`. -/
structure ApplyBases (U : Type) (N : Nat) where
  builder : Option (Version (InternalKey U) N) := none
  pick : Option (Version (InternalKey U) N) := none

/-- What a step notes: the bases when it calls `LogAndApply`. -/
def ApplyBases.record (h : ApplyBases U N) (s : System U V R W N) (l : Label U V W N)
    (t : System U V R W N) : ApplyBases U N :=
  match l with
  | .jobStart _ _ =>
    match t.jobs[s.jobs.length]? with
    | some (.logging _ _ _) => { builder := some s.db.versions.current }
    | _ => h
  | .jobBuilt k _ =>
    match s.jobs[k]?, t.jobs[k]? with
    | some (.built f _ _), some (.logging _ _ _) =>
      { builder := some s.db.versions.current, pick := some f.base }
    | _, _ => h
  | _ => h

/-- The call of `LogAndApply` that is in progress, with the tag of `CompactMemtable`. -/
def Job.applying : Job U N → Option (Bool × Install (InternalKey U) N)
  | logging isFlush i _ => some (isFlush, i)
  | logged isFlush i _ => some (isFlush, i)
  | _ => none

/-- The version to be installed is the current one with the edit applied to it. -/
structure Based (cfg : DbConfig U V R N) [Std.TransCmp cfg.version.icmp] (h : ApplyBases U N)
    (current : Version (InternalKey U) N) (isFlush : Bool) (i : Install (InternalKey U) N) :
    Prop where
  builder : h.builder = some current
  pick : isFlush = true → h.pick = some current
  version : ∃ pointers v,
    ((Builder.new cfg.version.icmp pointers current).apply i.edit).saveTo = some v ∧
      i.v = finalize cfg.version v

/-- What a job was started with is still current. -/
inductive JobBased (cfg : DbConfig U V R N) [Std.TransCmp cfg.version.icmp] (h : ApplyBases U N)
    (current : Version (InternalKey U) N) : Job U N → Prop
  | building {f : Flush U N} (hbase : f.base = current) : JobBased cfg h current (.building f)
  | built {f : Flush U N} {fileMeta : TableMeta U} {status : Status} (hbase : f.base = current) :
      JobBased cfg h current (.built f fileMeta status)
  | logging {isFlush : Bool} {i : Install (InternalKey U) N} {o : ApplyOutcomes}
      (hbased : Based cfg h current isFlush i) : JobBased cfg h current (.logging isFlush i o)
  | logged {isFlush : Bool} {i : Install (InternalKey U) N} {o : ApplyOutcomes}
      (hbased : Based cfg h current isFlush i) : JobBased cfg h current (.logged isFlush i o)

/-- No two calls of `LogAndApply` are in progress, and no edit is lost. -/
structure BasesOk (cfg : DbConfig U V R N) [Std.TransCmp cfg.version.icmp] (h : ApplyBases U N)
    (s : System U V R W N) : Prop where
  one : ∀ (k k' : Nat) a a', (s.jobs[k]?).bind Job.applying = some a →
    (s.jobs[k']?).bind Job.applying = some a' → k = k'
  based : ∀ (k : Nat) isFlush i, (s.jobs[k]?).bind Job.applying = some (isFlush, i) →
    Based cfg h s.db.versions.current isFlush i

section Bases

variable {cfg : DbConfig U V R N} [Std.TransCmp cfg.version.icmp] {calls : W → WriteRequest U V}
  {s t : System U V R W N} {h : ApplyBases U N}

theorem applyBegin_version {db db' : Db U V R N} {edit : VersionEdit (InternalKey U) N}
    {o : ApplyOutcomes} {i : Install (InternalKey U) N}
    (hbegin : applyBegin cfg db edit o = some (db', i)) :
    ∃ pointers v,
      ((Builder.new cfg.version.icmp pointers db.versions.current).apply i.edit).saveTo = some v ∧
        i.v = finalize cfg.version v := by
  obtain ⟨⟨vs, disk, i₁⟩, happly, heq⟩ := Option.map_eq_some_iff.mp hbegin
  cases heq
  obtain ⟨-, ⟨v, hsave, hv⟩, -⟩ := logAndApplyBegin_eq_some happly
  exact ⟨db.versions.compactPointer, v, hsave, hv⟩

theorem flushBuilt_version {db db' : Db U V R N} {f : Flush U N} {fileMeta : TableMeta U}
    {status : Status} {shuttingDown : Bool} {o : ApplyOutcomes} {i : Install (InternalKey U) N}
    (hbuilt : flushBuilt cfg db f fileMeta status shuttingDown o = some (db', .logs i)) :
    ∃ pointers v,
      ((Builder.new cfg.version.icmp pointers db.versions.current).apply i.edit).saveTo = some v ∧
        i.v = finalize cfg.version v := by
  cases flushBuilt_cases hbuilt with
  | logs hedit hok hbegin =>
    have hversion := applyBegin_version hbegin
    exact hversion

omit [Std.TransCmp cfg.version.icmp] in
theorem WriteDb.current {w : W} {db : Db U V R N} (h : WriteDb cfg s w db) :
    db.versions.current = s.db.versions.current := by
  cases h with
  | @room o db heffect =>
    cases heffect with
    | same => rfl
    | reused => rfl
    | switched =>
      obtain ⟨jobQueue, scheduled, heq⟩ :=
        @switchMemTable_eq U V R N cfg o s.db s.db.versions.nextFileNumber
      rw [heq]
      rfl
  | logged => rfl
  | inserted => rfl
  | sequenced => rfl

variable [DecidableEq W]

/-- **Only the end of `LogAndApply`** changes the current version. -/
theorem current_of_step (hq : QueueOk s) {l : Label U V W N}
    (hl : ∀ k needs, l ≠ .jobFinish k needs) (hstep : System.step cfg calls s l = some t) :
    t.db.versions.current = s.db.versions.current := by
  rcases l.write_or_other with ⟨w, act, rfl⟩ | hother
  · exact (writeStep_of_write hq hstep).db.1.current
  cases otherStep_of_step hother hstep with
  | idles => rw [endBackground_versions]
  | buildFails =>
    rw [endJob_versions]
    rfl
  | @finishes k needs => exact absurd rfl (hl k needs)
  | _ => rfl

/-! ## What the job was started with -/

omit [DecidableEq W] in
/-- The job that a queued one becomes, or none. -/
theorem jobsBased_start (hone : OneJob s) {pick : Option (Fin N × Nat)} {o : ApplyOutcomes}
    (hstart : s.jobStart cfg pick o = some t) :
    ∀ j ∈ t.jobs, JobBased cfg (h.record s (.jobStart pick o) t) t.db.versions.current j := by
  obtain ⟨hqueued, -, hstarts⟩ := jobStart_eq_some hstart
  have hnone := (hone.starts hqueued).1
  intro j hj
  cases hstarts with
  | ends =>
    rw [endBackground_jobs] at hj
    have hj : j ∈ s.jobs := hj
    rw [hnone] at hj
    exact absurd hj List.not_mem_nil
  | flushes hbegin =>
    obtain ⟨m, -, rfl, rfl⟩ := flushBegin_eq_some hbegin
    dsimp only at hj
    rw [hnone] at hj
    rw [List.mem_singleton.mp hj]
    exact .building rfl
  | @moves db i o' level next f hf hbegin =>
    have hversion := applyBegin_version hbegin
    obtain ⟨-, -, compactPointer, descriptor, disk, rfl⟩ := applyBegin_eq_some hbegin
    dsimp only at hj
    have hrecord : ∀ u : System U V R W N, u.jobs = s.jobs ++ [.logging false i o'] →
        h.record s (.jobStart pick o) u = { builder := some s.db.versions.current } := by
      intro u hu
      unfold ApplyBases.record
      rw [hu, List.getElem?_concat_length]
    rw [hnone] at hj
    rw [List.mem_singleton.mp hj, hrecord _ rfl]
    exact .logging ⟨rfl, nofun, hversion⟩

omit [DecidableEq W] in
theorem jobsBased_built (hone : OneJob s)
    (hjobs : ∀ j ∈ s.jobs, JobBased cfg h s.db.versions.current j) {k : Nat} {o : ApplyOutcomes}
    (hbuilt : s.jobBuilt cfg k o = some t) :
    ∀ j ∈ t.jobs, JobBased cfg (h.record s (.jobBuilt k o) t) t.db.versions.current j := by
  obtain ⟨f, fileMeta, status, db, next, hk, hflush, hnext⟩ := jobBuilt_eq_some hbuilt
  intro j hj
  rcases hnext with ⟨i, rfl, rfl⟩ | ⟨error, -, rfl⟩
  · have hjob := hjobs _ (List.mem_of_getElem? hk)
    cases hjob with
    | built hbase =>
      have hrecord : ∀ u : System U V R W N, u.jobs = s.jobs.set k (.logging true i o) →
          h.record s (.jobBuilt k o) u =
            { builder := some s.db.versions.current, pick := some f.base } := by
        intro u hu
        unfold ApplyBases.record
        obtain ⟨honly, rfl, -⟩ := hone.only hk
        rw [hu, honly]
        rfl
      have hversion := flushBuilt_version hflush
      obtain ⟨compactPointer, descriptor, pendingOutputs, disk, rfl⟩ := flushBuilt_db hflush
      rw [hone.mem_set hk hj, hrecord _ rfl, hbase]
      exact .logging ⟨rfl, fun _ => rfl, hversion⟩
  · rw [hone.endJob_jobs hk] at hj
    exact absurd hj List.not_mem_nil

theorem JobBased.step (hq : QueueOk s) (hone : OneJob s)
    (hjobs : ∀ j ∈ s.jobs, JobBased cfg h s.db.versions.current j) {l : Label U V W N}
    (hstep : System.step cfg calls s l = some t) :
    ∀ j ∈ t.jobs, JobBased cfg (h.record s l t) t.db.versions.current j := by
  cases l with
  | jobStart pick o => exact jobsBased_start hone hstep
  | jobBuilt k o => exact jobsBased_built hone hjobs hstep
  | jobFinish k needs =>
    obtain ⟨isFlush, i, o, db, hk, -, rfl⟩ := jobFinish_eq_some hstep
    intro j hj
    rw [hone.endJob_jobs hk] at hj
    exact absurd hj List.not_mem_nil
  | jobBuild k o =>
    have hcurrent := current_of_step hq (fun _ _ heq => by cases heq) hstep
    obtain ⟨f, entries, built, hk, -, -, rfl⟩ := jobBuild_eq_some hstep
    intro j hj
    rw [hcurrent]
    have hjob := hjobs _ (List.mem_of_getElem? hk)
    rw [hone.mem_set hk hj]
    cases hjob with
    | building hbase => exact .built hbase
  | jobWrite k =>
    have hcurrent := current_of_step hq (fun _ _ heq => by cases heq) hstep
    obtain ⟨isFlush, i, o, db, i', hk, hwrite, rfl⟩ := jobWrite_eq_some hstep
    obtain ⟨hedit, hv, -⟩ := applyWrite_eq_some hwrite
    intro j hj
    rw [hcurrent]
    have hjob := hjobs _ (List.mem_of_getElem? hk)
    rw [hone.mem_set hk hj]
    cases hjob with
    | logging hbased =>
      refine .logged ⟨hbased.builder, hbased.pick, ?_⟩
      rw [hedit, hv]
      exact hbased.version
  | write w act =>
    obtain ⟨hdb, -, hsame⟩ := (writeStep_of_write hq hstep).db
    rw [hsame, hdb.current]
    exact hjobs
  | getCall key snapshot =>
    obtain ⟨h₁, h₂, -, -, rfl⟩ := getCall_eq_some hstep
    exact hjobs
  | getRead i =>
    obtain ⟨g, pc, -, -, rfl⟩ := getRead_eq_some hstep
    exact hjobs
  | getFinish i updated needs =>
    obtain ⟨g, result, stats, memtables, db, -, -, -, hscheduled, rfl⟩ := getFinish_eq_some hstep
    obtain ⟨jobQueue, scheduled, needs', rfl, -⟩ := hscheduled
    exact hjobs
  | shutDown =>
    cases hstep
    exact hjobs

/-- **No version edit is lost.** In every run at most one call of `LogAndApply` is in progress;
until it installs its version, the current version is the one that its `Builder` started from, and
in a flush the one that the level was picked for; what it installs is that version with its edit. -/
theorem basesOk_of_run (hopened : Opened s)
    (run : Transition.Reaches
      (Transition.tracked (System.step cfg calls) ApplyBases.record) (s, {}) (t, h)) :
    BasesOk cfg h t := by
  obtain ⟨ho, hjobs⟩ := run.invariant
    (I := fun x => Orderly x.1 ∧ ∀ j ∈ x.1.jobs, JobBased cfg x.2 x.1.db.versions.current j)
    (fun {x y l} ⟨ho, hjobs⟩ _ hstep => by
      obtain ⟨hstep, hrecord⟩ := Transition.tracked_eq_some.mp hstep
      rw [hrecord]
      exact ⟨ho.step hstep, JobBased.step ho.queue ho.oneJob hjobs hstep⟩)
    ⟨hopened.orderly, by
      rw [hopened.jobs]
      exact fun j hj => absurd hj List.not_mem_nil⟩
  have hjob : ∀ (k : Nat) a, (t.jobs[k]?).bind Job.applying = some a →
      k = 0 ∧ ∃ j ∈ t.jobs, j.applying = some a := by
    intro k a ha
    obtain ⟨j, hk, ha⟩ := Option.bind_eq_some_iff.mp ha
    exact ⟨(ho.oneJob.only hk).2.1, j, List.mem_of_getElem? hk, ha⟩
  refine ⟨fun k k' a a' ha ha' => ?_, fun k isFlush i ha => ?_⟩
  · rw [(hjob k a ha).1, (hjob k' a' ha').1]
  · obtain ⟨-, j, hj, ha⟩ := hjob k _ ha
    have hbased := hjobs j hj
    cases hbased with
    | building => cases ha
    | built => cases ha
    | logging hbased =>
      cases ha
      exact hbased
    | logged hbased =>
      cases ha
      exact hbased

end Bases

/-- The flush of `imm_`, while a call writes and another one reads. -/
theorem basesOk_of_run_flush :
    ∃ t h, Transition.exec (Transition.tracked (System.step natDb flushCalls) ApplyBases.record)
        [.jobStart none {}, .write 0 (.call {} 1), .jobBuild 0 {}, .getCall 7 none, .jobBuilt 0 {},
          .write 0 (.append .OK), .jobWrite 0] (queuedSystem, {}) = some (t, h) ∧
      ((t.jobs[0]?).bind Job.applying).isSome ∧ BasesOk natDb h t := by
  obtain ⟨t, h, ht, happlying⟩ : ∃ t h,
      Transition.exec (Transition.tracked (System.step natDb flushCalls) ApplyBases.record)
        [.jobStart none {}, .write 0 (.call {} 1), .jobBuild 0 {}, .getCall 7 none, .jobBuilt 0 {},
          .write 0 (.append .OK), .jobWrite 0] (queuedSystem, {}) = some (t, h) ∧
      ((t.jobs[0]?).bind Job.applying).isSome := ⟨_, _, rfl, rfl⟩
  exact ⟨t, h, ht, happlying, basesOk_of_run queuedSystem_opened
    (Transition.Run.of_exec ht)⟩

end LevelDB
