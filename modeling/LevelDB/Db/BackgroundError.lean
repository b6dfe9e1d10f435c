import LevelDB.Db.Logs
import LevelDB.Db.Schedule

/-!
# Writes after a background error

The first guard of `MakeRoomForWrite` leaves the loop when `bg_error_` is ok, so with an error the
loop goes on.

* `makeRoom_refuses` — when it returns the error or sleeps all the same;
* `stopped_of_run` — in a run whose passes of the loop are all of this kind no call that comes to it
  writes anything, and each returns the error;
* `write_after_error` — in other runs a call does write, and returns OK.
-/

set_option autoImplicit false

namespace LevelDB

variable {U V R W : Type} {N : Nat}

/-- With the background error `e`, a pass that sleeps, or that tries to create a log file and fails
with the same status. -/
def Refuses (cfg : DbConfig U V R N) (e : Status) (o : CreateOutcome) (db : Db U V R N)
    (room : Room) : Prop :=
  Slowed cfg db room ∨ NoRoom cfg db room ∧ ¬ Blocked cfg db ∧ o.status = e

/-- Every stretch of `MakeRoomForWrite` that the step runs is of this kind. -/
def System.Refuses (cfg : DbConfig U V R N) (calls : W → WriteRequest U V) (e : Status)
    (s : System U V R W N) (l : Label U V W N) : Prop :=
  ∀ w act, l = .write w act → ∀ s₁ room o size, EntersRoom calls s w act s₁ room o size →
    LevelDB.Refuses cfg e o s.db room

/-- What a call has done since: it has formed no group, it does not wait for the background work,
and if it came to `MakeRoomForWrite` it returned the error. -/
structure CallStopped (e : Status) (before now : WriteCall U V W) : Prop where
  group : ∀ g, now.group? = some g → before.group? = some g
  returned : ∀ status, now = .returned status →
    status = e ∨ before = .returned status ∨ before.group?.isSome
  waits : ∀ room b, now = .roomWaiting room b → ∃ b', before = .roomWaiting room b'

/-- What has been written since `s` belongs to a group that was being written in `s`. -/
structure WrittenOnly (s t : System U V R W N) : Prop where
  appended : ∀ g ∈ t.appended, g ∈ s.appended ∨ ∃ w, (s.writes w).group? = some g
  logs : ∀ n records, t.db.logs n = some records → ∀ r ∈ records,
    (∃ before, s.db.logs n = some before ∧ r ∈ before) ∨
      ∃ w g, (s.writes w).group? = some g ∧ r = g.record
  entries : ∀ m, ∀ x ∈ t.db.entries m,
    x ∈ s.db.entries m ∨ ∃ w g, (s.writes w).group? = some g ∧ x ∈ g.entries

/-- Writes have stopped since `s`, where `bg_error_` was `e`. -/
structure Stopped (e : Status) (s t : System U V R W N) : Prop where
  error : t.db.bgError = e
  mem : t.db.mem = s.db.mem
  imm : t.db.imm = s.db.imm ∨ t.db.imm = none
  logfile : t.db.logfile = s.db.logfile ∧ t.db.logfileNumber = s.db.logfileNumber
  calls : ∀ w, CallStopped e (s.writes w) (t.writes w)
  written : WrittenOnly s t

section Stop

variable {cfg : DbConfig U V R N} {calls : W → WriteRequest U V} {s t u : System U V R W N} {w : W}
  {e : Status} {o : CreateOutcome} {db db' : Db U V R N} {room : Room} {exit : RoomExit}

/-- **A pass that refuses** returns the error or sleeps. -/
theorem makeRoom_refuses (herror : cfg.ok e = false) (hdb : db.bgError = e)
    (h : Refuses cfg e o db room) (hmake : makeRoom cfg o db room = some (db', exit)) :
    (db' = db ∧ ∃ room', exit = .sleeps room') ∨
      (db' = reuseNumber cfg db ∧ exit = .returns e) := by
  rcases makeRoom_ends hmake with hpass | ⟨room', hpass, -⟩
  · cases hpass with
    | noError hok =>
      rw [hdb, herror] at hok
      cases hok
    | slowed => exact Or.inl ⟨rfl, _, rfl⟩
    | hasRoom _ hslowed hroom =>
      rcases h with h | ⟨h, -, -⟩
      · exact absurd h hslowed
      · exact absurd h hroom
    | blocked _ hslowed _ hblocked =>
      rcases h with h | ⟨-, h, -⟩
      · exact absurd h hslowed
      · exact absurd hblocked h
    | notCreated _ hslowed _ _ _ hfail =>
      rcases h with h | ⟨-, -, h⟩
      · exact absurd h hslowed
      · rw [h]
        exact Or.inr ⟨rfl, rfl⟩
  · cases hpass with
    | switched _ hslowed _ _ _ hcreated =>
      rcases h with h | ⟨-, -, h⟩
      · exact absurd h hslowed
      · rw [h, herror] at hcreated
        cases hcreated

/-! ## What a step keeps -/

theorem CallStopped.refl (e : Status) (pc : WriteCall U V W) : CallStopped e pc pc where
  group _ hg := hg
  returned _ hpc := Or.inr (Or.inl hpc)
  waits _ b hpc := ⟨b, hpc⟩

theorem CallStopped.unsignalled {before now now' : WriteCall U V W} (h : CallStopped e before now)
    (hpc : now'.unsignalled = now.unsignalled) : CallStopped e before now' where
  group g hg := by
    refine h.group g ?_
    rw [← WriteCall.group?_unsignalled, ← hpc, WriteCall.group?_unsignalled, hg]
  returned status hnow := by
    subst hnow
    refine h.returned status ?_
    cases now with
    | returned => exact hpc.symm
    | _ => cases hpc
  waits room b hnow := by
    subst hnow
    cases now with
    | roomWaiting room' b' =>
      cases hpc
      exact h.waits room b' rfl
    | _ => cases hpc

/-- A call that is queued, sleeping or outside again. -/
theorem CallStopped.of_quiet {before now : WriteCall U V W} (hgroup : now.group? = none)
    (hreturned : ∀ status, now = .returned status → status = e)
    (hwaits : ∀ room b, now ≠ .roomWaiting room b) : CallStopped e before now where
  group g hg := by
    rw [hgroup] at hg
    cases hg
  returned status hnow := Or.inl (hreturned status hnow)
  waits room b hnow := absurd hnow (hwaits room b)

/-- A call goes on with its group. -/
theorem CallStopped.of_group {before now now' : WriteCall U V W} {g : Group U V W}
    (h : CallStopped e before now) (hnow : now.group? = some g) (hnow' : now'.group? = some g) :
    CallStopped e before now' where
  group g' hg' := by
    obtain rfl := Option.some.inj (hnow'.symm.trans hg')
    exact h.group _ hnow
  returned status heq := by
    rw [heq] at hnow'
    cases hnow'
  waits room b heq := by
    rw [heq] at hnow'
    cases hnow'

theorem WrittenOnly.of_same (h : WrittenOnly s t) (happended : u.appended = t.appended)
    (hlogs : u.db.logs = t.db.logs)
    (hcontent : ∀ m, u.db.memtables.content m = t.db.memtables.content m ∨
      u.db.memtables.content m = none) : WrittenOnly s u where
  appended g hg := by
    rw [happended] at hg
    exact h.appended g hg
  logs n records hrecords := by
    rw [hlogs] at hrecords
    exact h.logs n records hrecords
  entries m x hx := by
    unfold Db.entries at hx
    rcases hcontent m with heq | heq
    · rw [heq] at hx
      exact h.entries m x hx
    · rw [heq] at hx
      exact absurd hx List.not_mem_nil

theorem CallStopped.roomThen [DecidableEq W] {size : Nat} {before : WriteCall U V W}
    (herror : cfg.ok e = false)
    (hends : (∃ room', exit = .sleeps room') ∨ exit = .returns e)
    (hthen : RoomThen cfg calls s w size exit t) : CallStopped e before (t.writes w) := by
  cases hthen with
  | sleeps room =>
    rw [setWrite_self]
    exact .of_quiet rfl (fun _ heq => by cases heq) fun _ _ heq => by cases heq
  | waits room =>
    rcases hends with ⟨room', heq⟩ | heq
    · cases heq
    · cases heq
  | leads hok =>
    rcases hends with ⟨room', heq⟩ | heq
    · cases heq
    · cases heq
      rw [herror] at hok
      cases hok
  | returns =>
    rcases hends with ⟨room', heq⟩ | heq
    · cases heq
    · cases heq
      rw [leave_self]
      refine .of_quiet rfl (fun status hstatus => ?_) fun _ _ heq => by cases heq
      exact (WriteCall.returned.inj hstatus).symm

/-- The records and entries that a group in flight adds. -/
theorem WrittenOnly.append (h : WrittenOnly s t) {g : Group U V W}
    (hg : (s.writes w).group? = some g) {n : Nat} {records : List (LogRecord U V)}
    (hn : t.db.logs n = some records)
    (happended : u.appended = t.appended ++ [g])
    (hlogs : u.db.logs = Function.update t.db.logs n (some (records ++ [g.record])))
    (hmemtables : u.db.memtables = t.db.memtables) : WrittenOnly s u where
  appended g' hg' := by
    rw [happended] at hg'
    rcases List.mem_append.mp hg' with hg' | hg'
    · exact h.appended g' hg'
    · rw [List.mem_singleton.mp hg']
      exact Or.inr ⟨w, hg⟩
  logs n' records' hrecords r hr := by
    rw [hlogs] at hrecords
    by_cases heq : n' = n
    · subst heq
      rw [Function.update_self] at hrecords
      obtain rfl := Option.some.inj hrecords
      rcases List.mem_append.mp hr with hr | hr
      · exact h.logs n' records hn r hr
      · rw [List.mem_singleton.mp hr]
        exact Or.inr ⟨w, g, hg, rfl⟩
    · rw [Function.update_of_ne heq] at hrecords
      exact h.logs n' records' hrecords r hr
  entries m x hx := by
    unfold Db.entries at hx
    rw [hmemtables] at hx
    exact h.entries m x hx

theorem WrittenOnly.insert (h : WrittenOnly s t) {g : Group U V W}
    (hg : (s.writes w).group? = some g) {m : Nat} {x : Entry U V} (hx : x ∈ g.entries)
    (happended : u.appended = t.appended) (hlogs : u.db.logs = t.db.logs)
    (hmod : t.db.memtables.modify (· ++ [x]) m = some u.db.memtables) : WrittenOnly s u where
  appended g' hg' := by
    rw [happended] at hg'
    exact h.appended g' hg'
  logs n records hrecords := by
    rw [hlogs] at hrecords
    exact h.logs n records hrecords
  entries m' y hy := by
    unfold Db.entries at hy
    by_cases heq : m' = m
    · subst heq
      rw [RefCounted.Heap.content_modify_self hmod] at hy
      cases hes : t.db.memtables.content m' with
      | none =>
        rw [hes] at hy
        exact absurd hy List.not_mem_nil
      | some es =>
        rw [hes] at hy
        rcases List.mem_append.mp hy with hy | hy
        · refine h.entries m' y ?_
          unfold Db.entries
          rw [hes]
          exact hy
        · rw [List.mem_singleton.mp hy]
          exact Or.inr ⟨w, g, hg, hx⟩
    · rw [RefCounted.Heap.content_modify_ne hmod heq] at hy
      exact h.entries m' y hy

/-! ## Every step -/

/-- A step of one call. -/
theorem Stopped.of_self (h : Stopped e s t)
    (hothers : ∀ x ≠ w, (u.writes x).unsignalled = (t.writes x).unsignalled)
    (herror : u.db.bgError = e) (hmem : u.db.mem = t.db.mem) (himm : u.db.imm = t.db.imm)
    (hlogfile : u.db.logfile = t.db.logfile ∧ u.db.logfileNumber = t.db.logfileNumber)
    (hself : CallStopped e (s.writes w) (u.writes w)) (hwritten : WrittenOnly s u) :
    Stopped e s u where
  error := herror
  mem := hmem.trans h.mem
  imm := by
    rw [himm]
    exact h.imm
  logfile := ⟨hlogfile.1.trans h.logfile.1, hlogfile.2.trans h.logfile.2⟩
  calls x := by
    by_cases hx : x = w
    · subst hx
      exact hself
    · exact (h.calls x).unsignalled (hothers x hx)
  written := hwritten

variable [DecidableEq W]

theorem Stopped.write (hok : cfg.ok = Status.isOK) (hrecords : cfg.RecordsFirst) (he : e ≠ .OK)
    (hgroups : GroupsOk t) (h : Stopped e s t) {act : WriteAct}
    (hrefuses : System.Refuses cfg calls e t (.write w act))
    (hstep : WriteStep cfg calls t w act u) : Stopped e s u := by
  have herror : cfg.ok e = false := by
    rw [hok]
    exact Status.isOK_eq_false_iff.mpr he
  have hothers : ∀ x ≠ w, (u.writes x).unsignalled = (t.writes x).unsignalled :=
    fun x hx => hstep.others hx
  have hcontent : ∀ m, t.db.memtables.content m = t.db.memtables.content m ∨
      t.db.memtables.content m = none := fun m => Or.inl rfl
  cases hstep with
  | joins =>
    refine h.of_self hothers h.error rfl rfl ⟨rfl, rfl⟩ ?_ (h.written.of_same rfl rfl hcontent)
    rw [setWrite_self]
    exact .of_quiet rfl (fun _ heq => by cases heq) fun _ _ heq => by cases heq
  | waits =>
    refine h.of_self hothers h.error rfl rfl ⟨rfl, rfl⟩ ?_ (h.written.of_same rfl rfl hcontent)
    rw [setWrite_self]
    exact .of_quiet rfl (fun _ heq => by cases heq) fun _ _ heq => by cases heq
  | @rooms act s₁ u room o size db exit henters hmake hthen =>
    have hends := makeRoom_refuses herror h.error (hrefuses w act rfl s₁ room o size henters) hmake
    obtain ⟨hdb, -, -, happended, -⟩ := hthen.keeps
    obtain ⟨-, -, happended', -⟩ := henters.keeps
    have happended : u.appended = t.appended := happended.trans happended'
    have hself : CallStopped e (s.writes w) (u.writes w) :=
      CallStopped.roomThen herror (hends.imp And.right And.right) hthen
    have hdb : u.db = db := hdb
    have hkeeps : db.bgError = t.db.bgError ∧ db.mem = t.db.mem ∧ db.imm = t.db.imm ∧
        db.logfile = t.db.logfile ∧ db.logfileNumber = t.db.logfileNumber ∧
        db.logs = t.db.logs ∧ db.memtables = t.db.memtables := by
      rcases hends with ⟨rfl, -⟩ | ⟨rfl, -⟩
      · exact ⟨rfl, rfl, rfl, rfl, rfl, rfl, rfl⟩
      · exact ⟨rfl, rfl, rfl, rfl, rfl, rfl, rfl⟩
    rw [← hdb] at hkeeps
    obtain ⟨hbgError, hmem, himm, hlogfile, hnumber, hlogs, hmemtables⟩ := hkeeps
    exact h.of_self hothers (hbgError.trans h.error) hmem himm ⟨hlogfile, hnumber⟩ hself
      (h.written.of_same happended hlogs fun m => Or.inl (by rw [hmemtables]))
  | @appends u g status hpc happend =>
    have hbefore : (t.writes w).group? = some g := by
      rw [hpc]
      rfl
    have hself := (h.calls w).of_group hbefore (group?_logAppend happend)
    have hgroup := (h.calls w).group g hbefore
    obtain ⟨n, -, happend⟩ := Option.bind_eq_some_iff.mp happend
    obtain ⟨records, hn, rfl⟩ := Option.map_eq_some_iff.mp happend
    refine h.of_self hothers h.error rfl rfl ⟨rfl, rfl⟩ hself ?_
    by_cases hstatus : status = .OK
    · exact h.written.append hgroup hn (if_pos hstatus) (if_pos hstatus) rfl
    · exact h.written.of_same (if_neg hstatus) (if_neg hstatus) hcontent
  | @syncs u g status hpc hsync =>
    have hself := (h.calls w).of_group (by rw [hpc]; rfl) (group?_logSync hsync)
    obtain ⟨n, -, rfl⟩ := Option.map_eq_some_iff.mp hsync
    exact h.of_self hothers h.error rfl rfl ⟨rfl, rfl⟩ hself (h.written.of_same rfl rfl hcontent)
  | @inserts u g m x rest hpc hinsert =>
    have hbefore : (t.writes w).group? = some g := by
      rw [hpc]
      rfl
    have hself := (h.calls w).of_group hbefore (group?_memInsert hinsert)
    obtain ⟨memtables, hmod, rfl⟩ := Option.map_eq_some_iff.mp hinsert
    have hx : x ∈ g.entries := ((hgroups w).inserts g m (x :: rest) hpc).2.mem List.mem_cons_self
    exact h.of_self hothers h.error rfl rfl ⟨rfl, rfl⟩ hself
      (h.written.insert ((h.calls w).group g hbefore) hx rfl rfl hmod)
  | @ends u g m rest status hpc hend =>
    have hself := (h.calls w).of_group (by rw [hpc]; rfl) (group?_insertEnd hend)
    unfold System.insertEnd at hend
    split at hend
    · cases hend
    · cases hend
      exact h.of_self hothers h.error rfl rfl ⟨rfl, rfl⟩ hself (h.written.of_same rfl rfl hcontent)
  | @finishes g status syncError rest hpc hwriters =>
    have hgroup := (h.calls w).group g (by rw [hpc]; rfl)
    have hself : CallStopped e (s.writes w)
        ((((if syncError then t.recordError cfg status else t).setLastSequence
          g.lastSequence).leave w rest status).writes w) := by
      rw [leave_self]
      refine ⟨(fun _ heq => by cases heq), fun status' _ => Or.inr (Or.inr ?_),
        fun _ _ heq => by cases heq⟩
      rw [hgroup]
      rfl
    have hrecord : cfg.recordBackgroundError t.db.bgError status = t.db.bgError := by
      rw [hrecords, h.error, if_neg he]
    obtain ⟨writes, heq⟩ := finish_keeps cfg t w g status syncError rest
    rw [heq] at hself hothers ⊢
    refine h.of_self hothers ?_ rfl rfl ⟨rfl, rfl⟩ hself (h.written.of_same rfl rfl hcontent)
    show (if syncError then _ else _) = e
    rw [hrecord, h.error, ite_self]

variable [Std.TransCmp cfg.version.icmp]

theorem Stopped.step (hok : cfg.ok = Status.isOK) (hrecords : cfg.RecordsFirst) (he : e ≠ .OK)
    (hc : Consistent t) (h : Stopped e s t) {l : Label U V W N}
    (hrefuses : System.Refuses cfg calls e t l)
    (hstep : System.step cfg calls t l = some u) : Stopped e s u := by
  rcases l.write_or_other with ⟨w, act, rfl⟩ | hl
  · exact h.write hok hrecords he hc.groups hrefuses (writeStep_of_write hc.queue hstep)
  · have hlog := keepsLog_of_step hl hstep
    have hno := noInserts_of_step hl hstep
    have hsame := sameQueue_of_step hl hstep
    refine ⟨?_, hlog.mem.trans h.mem, ?_, ⟨hlog.logfile.trans h.logfile.1,
      hlog.logfileNumber.trans h.logfile.2⟩, fun x => (h.calls x).unsignalled (hsame.unsignalled x),
      h.written.of_same hsame.appended hlog.logs hno.content⟩
    · rcases errorFrom_of_step hc.queue hstep with heq | ⟨status, heq⟩
      · rw [heq, h.error]
      · rw [heq, hrecords, h.error, if_neg he]
    · rcases hno.imm with heq | heq
      · rw [heq]
        exact h.imm
      · exact Or.inr heq

/-- **Writes stop after a background error** in every run whose passes of the loop all sleep, or
fail to create a log file with the same error. -/
theorem stopped_of_run (hok : cfg.ok = Status.isOK) (hrecords : cfg.RecordsFirst)
    (hreuses : cfg.ReusesLast) (hkeeps : cfg.KeepsLive) (hopened : Opened s)
    (reach : Transition.Reaches (System.step cfg calls) s t) (he : t.db.bgError ≠ .OK)
    (run : Transition.Run (System.step cfg calls) (System.Refuses cfg calls t.db.bgError) t u) :
    Stopped t.db.bgError t u := by
  have hc : Consistent t := consistent_of_reaches hreuses hkeeps hopened.consistent reach
  have hstart : Stopped t.db.bgError t t :=
    ⟨rfl, rfl, Or.inl rfl, ⟨rfl, rfl⟩, fun w => .refl _ _,
      ⟨fun g hg => Or.inl hg, fun n records hn r hr => Or.inl ⟨records, hn, hr⟩,
        fun m x hx => Or.inl hx⟩⟩
  exact (run.invariant (I := fun v => Consistent v ∧ Stopped t.db.bgError t v)
    (fun ⟨hc, h⟩ hrefuses hstep => ⟨hc.step hreuses hkeeps hstep,
      h.step hok hrecords he hc hrefuses hstep⟩) ⟨hc, hstart⟩).2

end Stop

/-! ## A failed sync -/

/-- Call 0 asks for a sync, and call 2 has a null batch. -/
def errorCalls (w : Nat) : WriteRequest Nat Nat :=
  { updates := if w = 2 then none else some [{ type := .value, key := w, value := w }]
    sync := w == 0 }

/-- The flush of `imm_`, and a call whose sync fails. -/
def failedSync : List (Label Nat Nat Nat 2) :=
  flushes ++ syncFails 0

theorem failedSync_runs :
    ∃ s, Transition.exec (System.step natDb errorCalls) failedSync queuedSystem = some s ∧
      s.db.bgError = .IOError "sync" "" :=
  ⟨_, rfl, rfl⟩

/-- Afterwards a call with a null batch is refused when the log file cannot be created. -/
theorem stopped_of_run_refused :
    ∃ s t, Transition.exec (System.step natDb errorCalls) failedSync queuedSystem = some s ∧
      s.db.bgError = .IOError "sync" "" ∧
      System.step natDb errorCalls s
        (.write 2 (.call { status := .IOError "sync" "", opened := false } 1)) = some t ∧
      t.writes 2 = .returned (.IOError "sync" "") ∧ Stopped (.IOError "sync" "") s t := by
  obtain ⟨s, hs, herror⟩ := failedSync_runs
  obtain ⟨t, ht, hreturned⟩ : ∃ t, System.step natDb errorCalls s
      (.write 2 (.call { status := .IOError "sync" "", opened := false } 1)) = some t ∧
      t.writes 2 = .returned (.IOError "sync" "") := by
    cases hs
    exact ⟨_, rfl, rfl⟩
  have hunblocked : ¬ Blocked natDb s.db := by
    cases hs
    rintro (himm | hstop)
    · exact himm rfl
    · exact absurd hstop (by decide)
  have hrefuses : System.Refuses natDb errorCalls s.db.bgError s
      (.write 2 (.call { status := .IOError "sync" "", opened := false } 1)) := by
    intro w act hl s₁ room o size henters
    cases hl
    rw [herror]
    cases henters with
    | called => exact Or.inr ⟨Or.inl rfl, hunblocked, rfl⟩
  refine ⟨s, t, hs, herror, ht, hreturned, ?_⟩
  rw [← herror]
  exact stopped_of_run rfl natDb_records natDb_reuses natDb_keepsLive queuedSystem_opened
    (Transition.Run.of_exec hs) (by rw [herror]; nofun) (.tail .refl hrefuses ht)

/-- **After a failed sync another call writes** its batch and returns OK. -/
theorem write_after_error :
    ∃ s t, Transition.exec (System.step natDb errorCalls) failedSync queuedSystem = some s ∧
      s.db.bgError = .IOError "sync" "" ∧
      Transition.exec (System.step natDb errorCalls) [.write 1 (.call {} 1),
        .write 1 (.append .OK), .write 1 .insert, .write 1 (.insertEnd .OK), .write 1 .finish] s =
          some t ∧
      s.writes 1 = .idle ∧ t.writes 1 = .returned .OK ∧
      t.appended.length = s.appended.length + 1 ∧ ¬ Stopped (.IOError "sync" "") s t := by
  obtain ⟨s, hs, herror⟩ := failedSync_runs
  have hidle : s.writes 1 = .idle := by
    cases hs
    rfl
  obtain ⟨t, ht, hreturned, happended⟩ : ∃ t, Transition.exec (System.step natDb errorCalls)
      [.write 1 (.call {} 1), .write 1 (.append .OK), .write 1 .insert,
        .write 1 (.insertEnd .OK), .write 1 .finish] s = some t ∧
      t.writes 1 = .returned .OK ∧ t.appended.length = s.appended.length + 1 := by
    cases hs
    exact ⟨_, rfl, rfl, rfl⟩
  refine ⟨s, t, hs, herror, ht, hidle, hreturned, happended, fun hstopped => ?_⟩
  rcases (hstopped.calls 1).returned .OK hreturned with h | h | h
  · cases h
  · rw [hidle] at h
    cases h
  · rw [hidle] at h
    cases h

end LevelDB
