import LevelDB.Db.BackgroundError

/-!
# Waiting for the background work

A writer waits inside `MakeRoomForWrite` only while `bg_error_` is set, and then no new job is
scheduled.

* `makeRoom_waits` — when a stretch of the loop ends in a wait;
* `helped_of_run` — as long as `background_compaction_scheduled_` is set then, a job that will
  signal the waiting writer is queued or running;
* `waits_without_job` — otherwise a writer may wait with no job at all.
-/

set_option autoImplicit false

namespace LevelDB

variable {U V R W : Type} {N : Nat}

/-- The loop comes to one of its waits: at once, or after a switch to a memtable that is full from
the start. -/
def ComesToWait (cfg : DbConfig U V R N) (o : CreateOutcome) (db : Db U V R N) (room : Room) :
    Prop :=
  cfg.ok db.bgError = false ∧ ¬ Slowed cfg db room ∧ NoRoom cfg db room ∧
    (Blocked cfg db ∨
      cfg.ok o.status = true ∧ cfg.writeBufferSize < cfg.approximateMemoryUsage [])

/-- A call that comes to wait while the database is open finds `background_compaction_scheduled_`
set. -/
def System.WaitsScheduled (cfg : DbConfig U V R N) (calls : W → WriteRequest U V)
    (s : System U V R W N) (l : Label U V W N) : Prop :=
  ∀ w act, l = .write w act → ∀ s₁ room o size, EntersRoom calls s w act s₁ room o size →
    s.db.shuttingDown = false → ComesToWait cfg o s.db room →
      s.db.backgroundCompactionScheduled = true

/-- While the database is open, a writer waits for a signal only if a job is queued or running. -/
def WaitersHelped (s : System U V R W N) : Prop :=
  s.db.shuttingDown = false → ∀ w room, s.writes w = .roomWaiting room false →
    0 < s.db.jobQueue + s.jobs.length

/-- The same, with the flag that stands for the job. -/
def WaitersScheduled (s : System U V R W N) : Prop :=
  s.db.shuttingDown = false → ∀ w room, s.writes w = .roomWaiting room false →
    s.db.backgroundCompactionScheduled = true

section Waits

variable {cfg : DbConfig U V R N} {calls : W → WriteRequest U V} {s t : System U V R W N} {w : W}
  {o : CreateOutcome} {db db' : Db U V R N} {room room' : Room} {exit : RoomExit}

/-- After a switch the memtable is empty. -/
theorem noRoom_switchMemTable {n : Nat}
    (h : NoRoom cfg (switchMemTable cfg o db n) { room with force := false, s := o.status }) :
    cfg.writeBufferSize < cfg.approximateMemoryUsage [] := by
  rcases h with h | h
  · cases h
  · obtain ⟨jobQueue, scheduled, heq⟩ := @switchMemTable_eq U V R N cfg o db n
    rw [heq] at h
    unfold Db.entries at h
    dsimp only at h
    rw [RefCounted.Heap.content_alloc_self] at h
    exact h

theorem PassEnds.of_waits (h : PassEnds cfg o db room db' (.exit (.waits room'))) :
    cfg.ok db.bgError = false ∧ ¬ Slowed cfg db room ∧ NoRoom cfg db room ∧ Blocked cfg db := by
  cases h with
  | blocked herror hslowed hroom hblocked => exact ⟨herror, hslowed, hroom, hblocked⟩

/-- **A stretch of the loop that ends in a wait** comes to wait. -/
theorem makeRoom_waits (h : makeRoom cfg o db room = some (db', .waits room')) :
    ComesToWait cfg o db room := by
  rcases makeRoom_ends h with hpass | ⟨room₁, hpass, hsecond⟩
  · obtain ⟨herror, hslowed, hroom, hblocked⟩ := hpass.of_waits
    exact ⟨herror, hslowed, hroom, Or.inl hblocked⟩
  · obtain ⟨-, -, hfull, -⟩ := hsecond.of_waits
    cases hpass with
    | switched herror hslowed hroom _ _ hcreated =>
      exact ⟨herror, hslowed, hroom, Or.inr ⟨hcreated, noRoom_switchMemTable hfull⟩⟩

theorem RoomEffect.keepsSchedule (h : RoomEffect cfg o db db') :
    (db.backgroundCompactionScheduled = true → db'.backgroundCompactionScheduled = true) ∧
      db'.shuttingDown = db.shuttingDown := by
  cases h with
  | same => exact ⟨id, rfl⟩
  | reused => exact ⟨id, rfl⟩
  | switched =>
    unfold switchMemTable
    refine ⟨fun hscheduled => ?_, ?_⟩
    · unfold Db.maybeScheduleCompaction
      rw [if_pos hscheduled]
      exact hscheduled
    · rcases Db.maybeScheduleCompaction_eq _ cfg with heq | ⟨-, heq⟩
      · rw [heq]
      · rw [heq]

/-! ## Every step -/

/-- What a step of a reader or of a job does to the waiting writers: all are signalled, or the flag
stays set. -/
def SignalsOrKeeps (s t : System U V R W N) : Prop :=
  (∀ w room, t.writes w ≠ .roomWaiting room false) ∨
    t.writes = s.writes ∧ (t.db.shuttingDown = false → s.db.shuttingDown = false) ∧
      (s.db.backgroundCompactionScheduled = true → t.db.backgroundCompactionScheduled = true)

theorem signalsOrKeeps_endBackground (u : System U V R W N) :
    SignalsOrKeeps s (u.endBackground cfg) := by
  refine Or.inl fun w room hw => ?_
  have hw : (u.writes w).signalRoom = .roomWaiting room false := hw
  cases hpc : u.writes w with
  | roomWaiting room' b =>
    rw [hpc] at hw
    cases hw
  | _ =>
    rw [hpc] at hw
    cases hw

theorem chargeStats_scheduled (db : Db U V R N) (stats : Option (GetStats U N))
    (updated needs : Bool) (h : db.backgroundCompactionScheduled = true) :
    (System.chargeStats cfg db stats updated needs).backgroundCompactionScheduled = true := by
  unfold System.chargeStats
  split
  · unfold Db.maybeScheduleCompaction
    rw [if_pos h]
    exact h
  · exact h

variable [DecidableEq W]

omit [DecidableEq W] in
theorem WaitersScheduled.of_signals (h : WaitersScheduled s) (hsignals : SignalsOrKeeps s t) :
    WaitersScheduled t := by
  intro hopen w room hw
  rcases hsignals with hnone | ⟨hwrites, hopens, hkeeps⟩
  · exact absurd hw (hnone w room)
  · rw [hwrites] at hw
    exact hkeeps (h (hopens hopen) w room hw)

/-- Where a call waits for the background work it is the only active one. -/
theorem WaitersScheduled.write (h : WaitersScheduled s) (hq : QueueOk s) {act : WriteAct}
    (hwaits : System.WaitsScheduled cfg calls s (.write w act))
    (hstep : WriteStep cfg calls s w act t) : WaitersScheduled t := by
  intro hopen x room hx
  by_cases hxw : x = w
  · subst hxw
    cases hstep with
    | joins =>
      rw [setWrite_self] at hx
      cases hx
    | waits =>
      rw [setWrite_self] at hx
      cases hx
    | @rooms act s₁ t room₁ o size db e henters hmake hthen =>
      obtain ⟨hscheduled, hshutting⟩ := (makeRoom_effect hmake).keepsSchedule
      obtain ⟨hdb, -⟩ := hthen.keeps
      have hdb : t.db = db := hdb
      rw [hdb] at hopen ⊢
      cases hthen with
      | waits room =>
        exact hscheduled (hwaits x act rfl s₁ room₁ o size henters (hshutting.symm.trans hopen)
          (makeRoom_waits hmake))
      | sleeps =>
        rw [setWrite_self] at hx
        cases hx
      | leads =>
        rw [setWrite_self] at hx
        cases hx
      | returns =>
        rw [leave_self] at hx
        cases hx
    | appends hpc happend =>
      have hgroup := group?_logAppend happend
      rw [hx] at hgroup
      cases hgroup
    | syncs hpc hsync =>
      have hgroup := group?_logSync hsync
      rw [hx] at hgroup
      cases hgroup
    | inserts hpc hinsert =>
      have hgroup := group?_memInsert hinsert
      rw [hx] at hgroup
      cases hgroup
    | ends hpc hend =>
      have hgroup := group?_insertEnd hend
      rw [hx] at hgroup
      cases hgroup
    | finishes =>
      rw [leave_self] at hx
      cases hx
  · have hothers := hstep.others hxw
    have hactive : (s.writes x).phase = .active := by
      rw [← WriteCall.phase_unsignalled, ← hothers, hx]
      rfl
    have hunique : (s.writes w).phase ≠ .active := fun hw => hxw (hq.unique hactive hw)
    cases hstep with
    | joins =>
      rw [setWrite_ne hxw] at hx
      exact h hopen x room hx
    | waits =>
      rw [setWrite_ne hxw] at hx
      exact h hopen x room hx
    | rooms henters => exact absurd hactive (henters.alone hq hxw)
    | appends hpc => exact absurd (by rw [hpc]; rfl) hunique
    | syncs hpc => exact absurd (by rw [hpc]; rfl) hunique
    | inserts hpc => exact absurd (by rw [hpc]; rfl) hunique
    | ends hpc => exact absurd (by rw [hpc]; rfl) hunique
    | finishes hpc => exact absurd (by rw [hpc]; rfl) hunique

variable [Std.TransCmp cfg.version.icmp]

theorem signalsOrKeeps_of_step {l : Label U V W N} (hl : ∀ w act, l ≠ .write w act)
    (h : System.step cfg calls s l = some t) : SignalsOrKeeps s t := by
  cases otherStep_of_step hl h with
  | @returns i updated needs g result stats memtables jobQueue scheduled needs' _ _ _ hcharged =>
    have hflag := @chargeStats_scheduled U V R N cfg s.db stats updated needs
    rw [hcharged] at hflag
    exact Or.inr ⟨rfl, id, hflag⟩
  | idles => exact signalsOrKeeps_endBackground _
  | buildFails => exact signalsOrKeeps_endBackground _
  | finishes => exact signalsOrKeeps_endBackground _
  | shutsDown => exact Or.inr ⟨rfl, nofun, id⟩
  | _ => exact Or.inr ⟨rfl, id, id⟩

theorem WaitersScheduled.step (h : WaitersScheduled s) (hq : QueueOk s) {l : Label U V W N}
    (hwaits : System.WaitsScheduled cfg calls s l)
    (hstep : System.step cfg calls s l = some t) : WaitersScheduled t := by
  rcases l.write_or_other with ⟨w, act, rfl⟩ | hl
  · exact h.write hq hwaits (writeStep_of_write hq hstep)
  · exact h.of_signals (signalsOrKeeps_of_step hl hstep)

/-- **Help is on the way** for every waiting writer, in every run in which a call that comes to wait
finds `background_compaction_scheduled_` set. -/
theorem helped_of_run (hopened : Opened s)
    (run : Transition.Run (System.step cfg calls) (System.WaitsScheduled cfg calls) s t) :
    WaitersHelped t := by
  have hstart : WaitersScheduled s := by
    intro _ w room hw
    rw [hopened.writes] at hw
    cases hw
  obtain ⟨ho, hwaiters⟩ := run.invariant (I := fun u => Orderly u ∧ WaitersScheduled u)
    (fun ⟨ho, h⟩ hwaits hstep => ⟨ho.step hstep, h.step ho.queue hwaits hstep⟩)
    ⟨hopened.orderly, hstart⟩
  intro hopen w room hw
  have hcount := ho.oneJob
  unfold OneJob Db.scheduledJobs at hcount
  rw [if_pos (hwaiters hopen w room hw)] at hcount
  omega

end Waits

/-! ## A full memtable -/

/-- While the flush runs, a call with a full memtable waits for it. -/
theorem helped_of_run_flush :
    ∃ t, Transition.exec (fun s l => if s.db.backgroundCompactionScheduled then
        System.step natDb fullCalls s l else none)
        ([.jobStart none {}] ++ syncFails 0 ++ writeFive 1 ++ [.write 2 (.call {} 1)])
        queuedSystem = some t ∧
      t.writes 2 = .roomWaiting (Room.new false) false ∧ WaitersHelped t := by
  obtain ⟨t, ht, hwaits⟩ : ∃ t, Transition.exec (fun s l =>
      if s.db.backgroundCompactionScheduled then System.step natDb fullCalls s l else none)
      ([.jobStart none {}] ++ syncFails 0 ++ writeFive 1 ++ [.write 2 (.call {} 1)])
      queuedSystem = some t ∧ t.writes 2 = .roomWaiting (Room.new false) false := ⟨_, rfl, rfl⟩
  refine ⟨t, ht, hwaits, helped_of_run queuedSystem_opened
    (Transition.Run.of_checked ?_ ht)⟩
  intro s l hscheduled _ _ _ _ _ _ _ _ _ _
  exact hscheduled

/-- **A writer waits with no job at all.** After the flush a sync fails; then a memtable is filled,
a second call switches to a new one and fills it, and a third call waits for `imm_`. -/
theorem waits_without_job :
    ∃ t, Transition.exec (System.step natDb fullCalls)
        (flushes ++ syncFails 0 ++ writeFive 1 ++ writeFive 2 ++ [.write 3 (.call {} 1)])
        queuedSystem = some t ∧
      t.db.shuttingDown = false ∧ t.writes 3 = .roomWaiting (Room.new false) false ∧
      t.db.jobQueue = 0 ∧ t.jobs.length = 0 ∧ ¬ WaitersHelped t := by
  obtain ⟨t, ht, hopen, hwaits, hqueue, hjobs⟩ : ∃ t, Transition.exec (System.step natDb fullCalls)
      (flushes ++ syncFails 0 ++ writeFive 1 ++ writeFive 2 ++ [.write 3 (.call {} 1)])
      queuedSystem = some t ∧ t.db.shuttingDown = false ∧
      t.writes 3 = .roomWaiting (Room.new false) false ∧
      t.db.jobQueue = 0 ∧ t.jobs.length = 0 := ⟨_, rfl, rfl, rfl, rfl, rfl⟩
  refine ⟨t, ht, hopen, hwaits, hqueue, hjobs, fun hhelped => ?_⟩
  have hjob := hhelped hopen 3 _ hwaits
  omega

end LevelDB
