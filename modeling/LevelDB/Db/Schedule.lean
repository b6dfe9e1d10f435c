import LevelDB.Db.Reachable

/-!
# Scheduling background work

`background_compaction_scheduled_` stands for the one job that is queued or running.

* `errorFrom_of_step` — the background error changes by `RecordBackgroundError` only;
* `WorkScheduled` — whenever there is work to do, a job is scheduled;
* `scheduled_of_reaches` — both hold in every reachable state.
-/

set_option autoImplicit false

namespace LevelDB

variable {U V R W : Type} {N : Nat}

/-- There is something to do in the background, and nothing that forbids it. -/
structure Db.HasWork (cfg : DbConfig U V R N) (db : Db U V R N) : Prop where
  open_ : db.shuttingDown = false
  noError : cfg.ok db.bgError = true
  work : db.imm ≠ none ∨ db.needsCompaction = true

def Db.WorkScheduled (cfg : DbConfig U V R N) (db : Db U V R N) : Prop :=
  db.HasWork cfg → db.backgroundCompactionScheduled = true

section Schedule

variable {cfg : DbConfig U V R N} {db db' : Db U V R N}

/-- After `MaybeScheduleCompaction` no work is left without a job. -/
theorem workScheduled_maybeScheduleCompaction (db : Db U V R N) :
    (db.maybeScheduleCompaction cfg).WorkScheduled cfg := by
  unfold Db.maybeScheduleCompaction
  intro hwork
  split at hwork
  · rename_i hscheduled
    rw [if_pos hscheduled]
    exact hscheduled
  · rename_i hscheduled
    rw [if_neg hscheduled]
    split at hwork
    · rename_i hshutting
      have hopen := hwork.open_
      rw [hshutting] at hopen
      cases hopen
    · rename_i hshutting
      rw [if_neg hshutting]
      split at hwork
      · rename_i herror
        exact absurd hwork.noError herror
      · rename_i herror
        rw [if_neg herror]
        split at hwork
        · rename_i hidle
          rcases hwork.work with himm | hneeds
          · exact absurd hidle.1 himm
          · exact absurd hneeds hidle.2
        · rename_i hidle
          rw [if_neg hidle]

theorem RoomEffect.workScheduled {o : CreateOutcome} (h : RoomEffect cfg o db db')
    (hwork : db.WorkScheduled cfg) : db'.WorkScheduled cfg := by
  cases h with
  | same => exact hwork
  | reused => exact fun hw => hwork ⟨hw.open_, hw.noError, hw.work⟩
  | switched => exact workScheduled_maybeScheduleCompaction _

/-- Once an error is recorded there is one from then on. -/
theorem ok_of_record (hok : cfg.ok = Status.isOK) (hrecords : cfg.RecordsFirst) {e status : Status}
    (h : cfg.ok (cfg.recordBackgroundError e status) = true) : cfg.ok e = true := by
  rw [hok] at h ⊢
  rw [hrecords e status] at h
  by_cases he : e = .OK
  · rw [he]
    rfl
  · rw [if_neg he] at h
    exact h

variable {calls : W → WriteRequest U V} {s t : System U V R W N} {w : W}

/-- The background error stays, or a status is recorded. -/
def ErrorFrom (cfg : DbConfig U V R N) (db db' : Db U V R N) : Prop :=
  db'.bgError = db.bgError ∨
    ∃ status, db'.bgError = cfg.recordBackgroundError db.bgError status

theorem WriteDb.errorFrom (h : WriteDb cfg s w db) : ErrorFrom cfg s.db db := by
  cases h with
  | @room o db heffect =>
    left
    cases heffect with
    | same => rfl
    | reused => rfl
    | switched =>
      obtain ⟨jobQueue, scheduled, heq⟩ :=
        @switchMemTable_eq U V R N cfg o s.db s.db.versions.nextFileNumber
      rw [heq]
  | logged => exact Or.inl rfl
  | inserted => exact Or.inl rfl
  | @sequenced g status bgError syncError hpc herror =>
    cases syncError
    · exact Or.inl herror
    · exact Or.inr ⟨status, herror⟩

theorem errorFrom_endBackground (h : ErrorFrom cfg s.db t.db) :
    ErrorFrom cfg s.db (t.endBackground cfg).db := by
  obtain ⟨db, ⟨jobQueue, scheduled, needs, rfl, -⟩, heq⟩ := endBackground_eq cfg t
  rw [heq]
  exact h

variable [DecidableEq W] [Std.TransCmp cfg.version.icmp]

theorem errorFrom_of_step (hq : QueueOk s) {l : Label U V W N}
    (h : System.step cfg calls s l = some t) : ErrorFrom cfg s.db t.db := by
  rcases l.write_or_other with ⟨w, act, rfl⟩ | hl
  · exact (writeStep_of_write hq h).db.1.errorFrom
  cases otherStep_of_step hl h with
  | idles => exact errorFrom_endBackground (Or.inl rfl)
  | @buildFails k o f fileMeta status error =>
    exact errorFrom_endBackground (Or.inr ⟨error, rfl⟩)
  | @finishes k needs isFlush i o db hk hdb =>
    refine errorFrom_endBackground ?_
    cases hdb with
    | flushed => exact Or.inl rfl
    | moved => exact Or.inl rfl
    | fails => exact Or.inr ⟨i.s, rfl⟩
  | _ => exact Or.inl rfl

/-! ## Work is scheduled -/

omit [DecidableEq W] [Std.TransCmp cfg.version.icmp] in
theorem workScheduled_endBackground (t : System U V R W N) :
    (t.endBackground cfg).db.WorkScheduled cfg := by
  have hwork := @workScheduled_maybeScheduleCompaction U V R N cfg
    { t.db with backgroundCompactionScheduled := false }
  exact hwork

omit [DecidableEq W] [Std.TransCmp cfg.version.icmp] in
/-- The running job goes on, or a queued one starts. -/
theorem OneJob.workScheduled (h : OneJob t) (hjobs : 0 < t.jobs.length) :
    t.db.WorkScheduled cfg :=
  fun _ => h.scheduled (by omega)

omit [DecidableEq W] [Std.TransCmp cfg.version.icmp] in
theorem length_concat_pos (jobs : List (Job U N)) (j : Job U N) : 0 < (jobs ++ [j]).length := by
  rw [List.length_append, List.length_singleton]
  exact Nat.succ_pos _

omit [DecidableEq W] [Std.TransCmp cfg.version.icmp] in
theorem length_set_pos {jobs : List (Job U N)} {k : Nat} {j : Job U N} (j' : Job U N)
    (hk : jobs[k]? = some j) : 0 < (jobs.set k j').length := by
  have hlength := (List.getElem?_eq_some_iff.mp hk).1
  rw [List.length_set]
  omega

omit [DecidableEq W] [Std.TransCmp cfg.version.icmp] in
theorem WriteDb.workScheduled (hok : cfg.ok = Status.isOK) (hrecords : cfg.RecordsFirst)
    (h : WriteDb cfg s w db) (hwork : s.db.WorkScheduled cfg) : db.WorkScheduled cfg := by
  cases h with
  | room heffect => exact heffect.workScheduled hwork
  | logged => exact fun hw => hwork ⟨hw.open_, hw.noError, hw.work⟩
  | inserted => exact fun hw => hwork ⟨hw.open_, hw.noError, hw.work⟩
  | @sequenced g status bgError syncError hpc herror =>
    refine fun hw => hwork ⟨hw.open_, ?_, hw.work⟩
    have hnew : cfg.ok bgError = true := hw.noError
    cases syncError
    · rw [herror] at hnew
      exact hnew
    · rw [herror] at hnew
      exact ok_of_record hok hrecords hnew

theorem workScheduled_of_step (hok : cfg.ok = Status.isOK) (hrecords : cfg.RecordsFirst)
    (hq : QueueOk s) (hone : OneJob t) (hwork : s.db.WorkScheduled cfg) {l : Label U V W N}
    (h : System.step cfg calls s l = some t) : t.db.WorkScheduled cfg := by
  rcases l.write_or_other with ⟨w, act, rfl⟩ | hl
  · exact (writeStep_of_write hq h).db.1.workScheduled hok hrecords hwork
  cases otherStep_of_step hl h with
  | calls => exact fun hw => hwork ⟨hw.open_, hw.noError, hw.work⟩
  | reads => exact hwork
  | @returns i updated needs g result stats _ _ _ _ _ _ _ hcharged =>
    have hcharge : (System.chargeStats cfg s.db stats updated needs).WorkScheduled cfg := by
      unfold System.chargeStats
      split
      · exact workScheduled_maybeScheduleCompaction _
      · exact hwork
    rw [hcharged] at hcharge
    exact fun hw => hcharge ⟨hw.open_, hw.noError, hw.work⟩
  | idles => exact workScheduled_endBackground _
  | flushes => exact hone.workScheduled (length_concat_pos _ _)
  | moves => exact hone.workScheduled (length_concat_pos _ _)
  | builds hk => exact hone.workScheduled (length_set_pos _ hk)
  | logs hk => exact hone.workScheduled (length_set_pos _ hk)
  | buildFails => exact workScheduled_endBackground _
  | writes hk => exact hone.workScheduled (length_set_pos _ hk)
  | finishes => exact workScheduled_endBackground _
  | shutsDown =>
    intro hw
    have hopen := hw.open_
    cases hopen

/-- **The flag stands for the one job, and no work is left without it.** -/
theorem scheduled_of_reaches (hok : cfg.ok = Status.isOK) (hrecords : cfg.RecordsFirst)
    (hopened : Opened s) (hwork : s.db.WorkScheduled cfg)
    (run : Transition.Reaches (System.step cfg calls) s t) :
    (t.db.backgroundCompactionScheduled = true ↔ t.db.jobQueue + t.jobs.length = 1) ∧
      t.db.jobQueue + t.jobs.length ≤ 1 ∧ t.db.WorkScheduled cfg := by
  obtain ⟨ho, hwork⟩ := run.invariant (I := fun u => Orderly u ∧ u.db.WorkScheduled cfg)
    (fun ⟨ho, h⟩ _ hstep => ⟨ho.step hstep, workScheduled_of_step hok hrecords ho.queue
      (ho.step hstep).oneJob h hstep⟩) ⟨hopened.orderly, hwork⟩
  have hcount := ho.oneJob
  unfold OneJob Db.scheduledJobs at hcount
  refine ⟨?_, ?_, hwork⟩
  · rw [hcount]
    cases t.db.backgroundCompactionScheduled
    · simp
    · simp
  · split at hcount
    · omega
    · omega

end Schedule

theorem queuedSystem_workScheduled : queuedSystem.db.WorkScheduled natDb := fun _ => rfl

/-- While the job writes the table, a call puts two keys. -/
theorem scheduled_of_reaches_flush :
    ∃ t, Transition.exec (System.step natDb flushCalls) [.jobStart none {}, .write 0 (.call {} 1),
        .jobBuild 0 {}, .write 0 (.append .OK)] queuedSystem = some t ∧
      (t.db.backgroundCompactionScheduled = true ↔ t.db.jobQueue + t.jobs.length = 1) ∧
        t.db.jobQueue + t.jobs.length ≤ 1 ∧ t.db.WorkScheduled natDb := by
  obtain ⟨t, ht⟩ : ∃ t, Transition.exec (System.step natDb flushCalls) [.jobStart none {},
      .write 0 (.call {} 1), .jobBuild 0 {}, .write 0 (.append .OK)] queuedSystem = some t :=
    ⟨_, rfl⟩
  exact ⟨t, ht, scheduled_of_reaches rfl natDb_records queuedSystem_opened
    queuedSystem_workScheduled (Transition.Run.of_exec ht)⟩

end LevelDB
