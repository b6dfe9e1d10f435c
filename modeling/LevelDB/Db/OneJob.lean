import LevelDB.Db.Queue

/-!
# One background job at a time

`background_compaction_scheduled_` stands for a single job, from the moment it is given to
`Env::Schedule` until it ends.

* `OneJob` — as many jobs are queued or running as the flag says;
* `OneJob.only` — so a running job is the only one, and none is queued;
* `OneJob.step` — every step of every thread keeps this;
* `JobComes`, `jobs_of_step` — where a job can be after a step.
-/

set_option autoImplicit false

namespace LevelDB

variable {U V R W : Type} {N : Nat}

def Db.scheduledJobs (db : Db U V R N) : Nat := if db.backgroundCompactionScheduled then 1 else 0

def OneJob (s : System U V R W N) : Prop :=
  s.db.jobQueue + s.jobs.length = s.db.scheduledJobs

theorem Db.scheduledJobs_le (db : Db U V R N) : db.scheduledJobs ≤ 1 := by
  unfold Db.scheduledJobs
  split
  · omega
  · omega

section Only

variable {s t : System U V R W N}

/-- While a job runs it is the only one, and none is queued. -/
theorem OneJob.only (h : OneJob s) {k : Nat} {j : Job U N} (hk : s.jobs[k]? = some j) :
    s.jobs = [j] ∧ k = 0 ∧ s.db.jobQueue = 0 := by
  unfold OneJob at h
  have hflag := s.db.scheduledJobs_le
  cases hjobs : s.jobs with
  | nil =>
    rw [hjobs] at hk
    cases hk
  | cons j' rest =>
    cases rest with
    | cons j'' rest =>
      rw [hjobs, List.length_cons, List.length_cons] at h
      omega
    | nil =>
      rw [hjobs] at hk h
      have hlt : k < 1 := (List.getElem?_eq_some_iff.mp hk).1
      obtain rfl : k = 0 := by omega
      obtain rfl := Option.some.inj hk
      rw [List.length_singleton] at h
      exact ⟨rfl, rfl, by omega⟩

/-- What the running job becomes is the only job. -/
theorem OneJob.mem_set (h : OneJob s) {k : Nat} {j j' x : Job U N} (hk : s.jobs[k]? = some j)
    (hx : x ∈ s.jobs.set k j') : x = j' := by
  obtain ⟨honly, rfl, -⟩ := h.only hk
  rw [honly] at hx
  exact List.mem_singleton.mp hx

theorem OneJob.eraseIdx (h : OneJob s) {k : Nat} {j : Job U N} (hk : s.jobs[k]? = some j) :
    s.jobs.eraseIdx k = [] := by
  obtain ⟨honly, rfl, -⟩ := h.only hk
  rw [honly]
  rfl

/-- A job that is queued or running has the flag set. -/
theorem OneJob.scheduled (h : OneJob s) (hjobs : 0 < s.db.jobQueue + s.jobs.length) :
    s.db.backgroundCompactionScheduled = true := by
  unfold OneJob Db.scheduledJobs at h
  split at h
  · assumption
  · omega

/-- When a queued job starts it was the only one. -/
theorem OneJob.starts (h : OneJob s) (hqueued : 0 < s.db.jobQueue) :
    s.jobs = [] ∧ s.db.jobQueue = 1 ∧ s.db.scheduledJobs = 1 := by
  unfold OneJob at h
  have hflag := s.db.scheduledJobs_le
  exact ⟨List.length_eq_zero_iff.mp (by omega), by omega, by omega⟩

/-! ## Keeping the number of jobs -/

theorem OneJob.of_same_jobs (h : OneJob s)
    (hcount : t.db.jobQueue + s.db.scheduledJobs = s.db.jobQueue + t.db.scheduledJobs)
    (hjobs : t.jobs = s.jobs) : OneJob t := by
  unfold OneJob at h ⊢
  rw [hjobs]
  omega

/-- The running job goes on. -/
theorem OneJob.of_job (h : OneJob s) {k : Nat} {j : Job U N}
    (hqueue : t.db.jobQueue = s.db.jobQueue)
    (hscheduled : t.db.backgroundCompactionScheduled = s.db.backgroundCompactionScheduled)
    (hjobs : t.jobs = s.jobs.set k j) : OneJob t := by
  unfold OneJob Db.scheduledJobs at h ⊢
  rw [hjobs, List.length_set, hqueue, hscheduled]
  exact h

/-- A queued job starts to run. -/
theorem OneJob.of_start (h : OneJob s) (hqueued : 0 < s.db.jobQueue) {j : Job U N}
    (hqueue : t.db.jobQueue = s.db.jobQueue - 1)
    (hscheduled : t.db.backgroundCompactionScheduled = s.db.backgroundCompactionScheduled)
    (hjobs : t.jobs = s.jobs ++ [j]) : OneJob t := by
  unfold OneJob Db.scheduledJobs at h ⊢
  rw [hjobs, List.length_append, List.length_singleton, hqueue, hscheduled]
  omega

end Only

section Step

variable {cfg : DbConfig U V R N} {s t : System U V R W N} {db : Db U V R N}

theorem Scheduled.count {db' : Db U V R N} (h : Scheduled db db') :
    db'.jobQueue + db.scheduledJobs = db.jobQueue + db'.scheduledJobs := by
  obtain ⟨jobQueue, scheduled, needs, rfl, hcount⟩ := h
  exact hcount

/-- The last job ends. -/
theorem oneJob_endBackground (hqueue : s.db.jobQueue = 0) (hjobs : s.jobs = []) :
    OneJob (s.endBackground cfg) := by
  unfold OneJob
  rw [endBackground_jobs, hjobs]
  obtain ⟨db, hscheduled, heq⟩ := endBackground_eq cfg s
  have hcount : db.jobQueue + 0 = s.db.jobQueue + db.scheduledJobs := hscheduled.count
  rw [heq]
  show db.jobQueue + 0 = db.scheduledJobs
  rw [hcount, hqueue, Nat.zero_add]

theorem OneJob.endJob_jobs (h : OneJob s) {k : Nat} {j : Job U N} (hk : s.jobs[k]? = some j)
    (db : Db U V R N) : (s.endJob cfg k db).jobs = [] :=
  endBackground_jobs.trans (h.eraseIdx hk)

theorem OneJob.endJob (h : OneJob s) {k : Nat} {j : Job U N} (hk : s.jobs[k]? = some j)
    (hqueue : db.jobQueue = s.db.jobQueue) : OneJob (s.endJob cfg k db) :=
  oneJob_endBackground (hqueue.trans (h.only hk).2.2) (h.eraseIdx hk)

theorem RoomEffect.count {o : CreateOutcome} {db' : Db U V R N} (h : RoomEffect cfg o db db') :
    db'.jobQueue + db.scheduledJobs = db.jobQueue + db'.scheduledJobs := by
  cases h with
  | same => rfl
  | reused => rfl
  | switched =>
    unfold switchMemTable
    exact scheduled_maybeScheduleCompaction.count

theorem WriteDb.count {w : W} (h : WriteDb cfg s w db) :
    db.jobQueue + s.db.scheduledJobs = s.db.jobQueue + db.scheduledJobs := by
  cases h with
  | room heffect => exact heffect.count
  | logged => rfl
  | inserted => rfl
  | sequenced => rfl

theorem JobEnds.jobQueue {i : Install (InternalKey U) N} (h : JobEnds cfg s i db) :
    db.jobQueue = s.db.jobQueue := by
  cases h with
  | flushed => rfl
  | moved => rfl
  | fails => rfl

variable [DecidableEq W] [Std.TransCmp cfg.version.icmp] {calls : W → WriteRequest U V}

/-- **Every step keeps one job for the flag and none without it.** -/
theorem OneJob.step (h : OneJob s) (hq : QueueOk s) {l : Label U V W N}
    (hstep : System.step cfg calls s l = some t) : OneJob t := by
  rcases l.write_or_other with ⟨w, act, rfl⟩ | hl
  · obtain ⟨hdb, -, hjobs⟩ := (writeStep_of_write hq hstep).db
    exact h.of_same_jobs hdb.count hjobs
  cases otherStep_of_step hl hstep with
  | calls => exact h.of_same_jobs rfl rfl
  | reads => exact h.of_same_jobs rfl rfl
  | returns _ _ _ _ hscheduled => exact h.of_same_jobs hscheduled.count rfl
  | idles hqueued =>
    obtain ⟨hnone, hone, -⟩ := h.starts hqueued
    exact oneJob_endBackground (by rw [hone]) hnone
  | flushes hqueued => exact h.of_start hqueued rfl rfl rfl
  | moves hqueued => exact h.of_start hqueued rfl rfl rfl
  | builds => exact h.of_job rfl rfl rfl
  | logs => exact h.of_job rfl rfl rfl
  | buildFails hk => exact h.endJob hk rfl
  | writes => exact h.of_job rfl rfl rfl
  | finishes hk hdb => exact h.endJob hk hdb.jobQueue
  | shutsDown => exact h.of_same_jobs rfl rfl

/-- Where a job comes from in one step. -/
inductive JobComes (s : System U V R W N) : Job U N → Prop
  | stays {j : Job U N} (hj : j ∈ s.jobs) : JobComes s j
  | begins {f : Flush U N} (himm : s.db.imm = some f.mem) : JobComes s (.building f)
  | moves {i : Install (InternalKey U) N} {o : ApplyOutcomes} : JobComes s (.logging false i o)
  | builds {f : Flush U N} {fileMeta : TableMeta U} {status : Status}
      (hj : Job.building f ∈ s.jobs) : JobComes s (.built f fileMeta status)
  | logs {f : Flush U N} {fileMeta : TableMeta U} {status : Status}
      {i : Install (InternalKey U) N} {o : ApplyOutcomes}
      (hj : Job.built f fileMeta status ∈ s.jobs) : JobComes s (.logging true i o)
  | writes {isFlush : Bool} {i i' : Install (InternalKey U) N} {o : ApplyOutcomes}
      (hj : Job.logging isFlush i o ∈ s.jobs) : JobComes s (.logged isFlush i' o)

/-- **The jobs after a step.** -/
theorem jobs_of_step (h : OneJob s) (hq : QueueOk s) {l : Label U V W N}
    (hstep : System.step cfg calls s l = some t) : ∀ j ∈ t.jobs, JobComes s j := by
  intro j hj
  rcases l.write_or_other with ⟨w, act, rfl⟩ | hl
  · rw [(writeStep_of_write hq hstep).db.2.2] at hj
    exact .stays hj
  cases otherStep_of_step hl hstep with
  | calls => exact .stays hj
  | reads => exact .stays hj
  | returns => exact .stays hj
  | idles =>
    rw [endBackground_jobs] at hj
    exact .stays hj
  | flushes _ himm =>
    rcases List.mem_append.mp hj with hj | hj
    · exact .stays hj
    · rw [List.mem_singleton.mp hj]
      exact .begins himm
  | moves =>
    rcases List.mem_append.mp hj with hj | hj
    · exact .stays hj
    · rw [List.mem_singleton.mp hj]
      exact .moves
  | builds hk =>
    rw [h.mem_set hk hj]
    exact .builds (List.mem_of_getElem? hk)
  | logs hk =>
    rw [h.mem_set hk hj]
    exact .logs (List.mem_of_getElem? hk)
  | buildFails hk =>
    rw [h.endJob_jobs hk] at hj
    exact absurd hj List.not_mem_nil
  | writes hk =>
    rw [h.mem_set hk hj]
    exact .writes (List.mem_of_getElem? hk)
  | finishes hk =>
    rw [h.endJob_jobs hk] at hj
    exact absurd hj List.not_mem_nil
  | shutsDown => exact .stays hj

end Step

end LevelDB
