import LevelDB.Db.Commits
import LevelDB.Db.FileNumbers

/-!
# The records in the log files

A record goes to the log file with the highest number, so that the files in the order of their
numbers hold the records in the order in which they were appended.

* `Db.logRecords` — the records of all log files, in this order;
* `LogOrder` — they are those at the start and those of the groups that were appended;
* `LogExact` — as long as no `Sync` fails, the groups that were appended are those that are visible
  and at most one in progress;
* `LogOrder.step`, `LogExact.step` — every step keeps this.
-/

set_option autoImplicit false

namespace LevelDB

variable {U V R W : Type} {N : Nat}

/-- The records of all log files up to the current one, in the order of the file numbers. -/
def Db.logRecords (db : Db U V R N) : List (LogRecord U V) :=
  (List.range (db.logfileNumber + 1)).flatMap fun n => (db.logs n).getD []

/-- `Sync` succeeds, and `InsertInto` inserts all entries of its batch. -/
def Label.followsLog : Label U V W N → Bool
  | .write _ (.sync status) => status == .OK
  | .write _ (.insertEnd status) => status == .OK
  | _ => true

/-- The current log file is the last one, and behind `old` come the records of the groups. -/
structure LogOrder (old : List (LogRecord U V)) (s : System U V R W N) : Prop where
  below : s.db.logfileNumber < s.db.versions.nextFileNumber
  last : ∀ n, s.db.logs n ≠ none → n ≤ s.db.logfileNumber
  logfile : ∀ n, s.db.logfile = some n → n = s.db.logfileNumber
  records : s.db.logRecords = old ++ s.appended.map Group.record

/-- What was appended has been committed, but for a group that is still being inserted. -/
structure LogExact (commits : List (Commit U V W)) (s : System U V R W N) : Prop where
  busy : ∀ w g, (s.writes w).recorded? = some g → s.appended = commits.map Prod.snd ++ [g]
  idle : (∀ w, (s.writes w).recorded? = none) → s.appended = commits.map Prod.snd

section Step

variable {cfg : DbConfig U V R N} {calls : W → WriteRequest U V} {s t : System U V R W N} {w : W}
  {old : List (LogRecord U V)} {commits : List (Commit U V W)}

/-! ## The order of the records -/

/-- Files without records do not count. -/
theorem flatMap_range_of_empty {X : Type} {f : Nat → List X} {a : Nat} : ∀ {b : Nat}, a ≤ b →
    (∀ n, a ≤ n → n < b → f n = []) → (List.range b).flatMap f = (List.range a).flatMap f
  | 0, hle, _ => by rw [Nat.le_zero.mp hle]
  | b + 1, hle, hempty => by
    rcases Nat.lt_or_eq_of_le hle with hlt | rfl
    · have hle := Nat.le_of_lt_succ hlt
      rw [List.range_succ, List.flatMap_append, List.flatMap_singleton,
        hempty b hle (Nat.lt_succ_self b), List.append_nil]
      exact flatMap_range_of_empty hle fun n hn hlt => hempty n hn (Nat.lt_succ_of_lt hlt)
    · rfl

theorem flatMap_range_congr {X : Type} {f g : Nat → List X} {n : Nat} (h : ∀ k < n, f k = g k) :
    (List.range n).flatMap f = (List.range n).flatMap g :=
  List.flatMap_congr fun k hk => h k (List.mem_range.mp hk)

/-- A new log file is the last one, and empty. -/
theorem logRecords_switch {db : Db U V R N} (hbelow : db.logfileNumber < db.versions.nextFileNumber)
    (hlast : ∀ n, db.logs n ≠ none → n ≤ db.logfileNumber) (o : CreateOutcome) :
    (switchMemTable cfg o db db.versions.nextFileNumber).logRecords = db.logRecords := by
  obtain ⟨jobQueue, scheduled, heq⟩ :=
    @switchMemTable_eq U V R N cfg o db db.versions.nextFileNumber
  rw [heq]
  have hnone : ∀ n, db.logfileNumber + 1 ≤ n → (db.logs n).getD [] = [] := by
    intro n hn
    cases hlog : db.logs n with
    | none => rfl
    | some records =>
      have hle := hlast n (by rw [hlog]; nofun)
      omega
  show (List.range (db.versions.nextFileNumber + 1)).flatMap (fun n =>
    ((if o.opened then Function.update db.logs db.versions.nextFileNumber (some []) else db.logs)
      n).getD []) = _
  have hsame : ∀ n, ((if o.opened then
      Function.update db.logs db.versions.nextFileNumber (some []) else db.logs) n).getD [] =
        (db.logs n).getD [] := by
    intro n
    split
    · by_cases hn : n = db.versions.nextFileNumber
      · rw [hn, Function.update_self, hnone _ hbelow]
        rfl
      · rw [Function.update_of_ne hn]
    · rfl
  rw [flatMap_range_congr fun n _ => hsame n]
  exact flatMap_range_of_empty (Nat.succ_le_succ (Nat.le_of_lt hbelow)) fun n hn _ => hnone n hn

/-- A record that is appended to the last log file is the last one. -/
theorem logRecords_append {db : Db U V R N} {records : List (LogRecord U V)}
    (h : db.logs db.logfileNumber = some records) (r : LogRecord U V) :
    ({ db with logs := Function.update db.logs db.logfileNumber (some (records ++ [r])) } :
      Db U V R N).logRecords = db.logRecords ++ [r] := by
  show (List.range (db.logfileNumber + 1)).flatMap (fun n =>
    (Function.update db.logs db.logfileNumber (some (records ++ [r])) n).getD []) = _
  unfold Db.logRecords
  rw [List.range_succ, List.flatMap_append, List.flatMap_append, List.flatMap_singleton,
    List.flatMap_singleton, Function.update_self, h, List.append_assoc]
  refine congrArg₂ _ (flatMap_range_congr fun n hn => ?_) rfl
  rw [Function.update_of_ne (Nat.ne_of_lt hn)]

theorem LogOrder.keep (h : LogOrder old s) (hkeeps : KeepsLog s.db t.db)
    (hnext : s.db.versions.nextFileNumber ≤ t.db.versions.nextFileNumber)
    (happended : t.appended = s.appended) : LogOrder old t where
  below := by
    rw [hkeeps.logfileNumber]
    exact Nat.lt_of_lt_of_le h.below hnext
  last := by
    rw [hkeeps.logs, hkeeps.logfileNumber]
    exact h.last
  logfile := by
    rw [hkeeps.logfile, hkeeps.logfileNumber]
    exact h.logfile
  records := by
    unfold Db.logRecords
    rw [hkeeps.logs, hkeeps.logfileNumber, happended]
    exact h.records

/-- A stretch of `MakeRoomForWrite` keeps the records. -/
theorem LogOrder.room (h : LogOrder old s) (hreuses : cfg.ReusesLast) {o : CreateOutcome}
    {db : Db U V R N} (heffect : RoomEffect cfg o s.db db) (hdb : t.db = db)
    (happended : t.appended = s.appended) : LogOrder old t := by
  subst hdb
  generalize hdb : t.db = db at heffect
  cases heffect with
  | same => exact h.keep (by rw [hdb]; exact .refl _) (by rw [hdb]) happended
  | reused =>
    refine h.keep (by rw [hdb]; exact ⟨rfl, rfl, rfl, rfl, rfl⟩) ?_ happended
    rw [hdb]
    exact le_of_eq (hreuses _).symm
  | switched =>
    have hrecords := @logRecords_switch U V R N cfg s.db h.below h.last o
    obtain ⟨jobQueue, scheduled, heq⟩ :=
      @switchMemTable_eq U V R N cfg o s.db s.db.versions.nextFileNumber
    rw [heq] at hrecords hdb
    refine ⟨?_, fun n hn => ?_, fun n hn => ?_, ?_⟩
    · rw [hdb]
      exact Nat.lt_succ_self _
    · rw [hdb] at hn ⊢
      show n ≤ s.db.versions.nextFileNumber
      by_contra hlt
      have hlt := Nat.lt_of_not_le hlt
      have hn : (if o.opened then
          Function.update s.db.logs s.db.versions.nextFileNumber (some [])
        else s.db.logs) n ≠ none := hn
      have hold : s.db.logs n ≠ none := by
        split at hn
        · rw [Function.update_of_ne (Nat.ne_of_gt hlt)] at hn
          exact hn
        · exact hn
      have hle := h.last n hold
      have hbelow := h.below
      omega
    · rw [hdb] at hn ⊢
      have hn : (if o.opened then some s.db.versions.nextFileNumber else none) = some n := hn
      split at hn
      · exact (Option.some.inj hn).symm
      · cases hn
    · rw [hdb, hrecords, happended]
      exact h.records

variable [DecidableEq W]

/-- **`AddRecord` appends the record of the group behind all others.** -/
theorem LogOrder.append (h : LogOrder old s) {g : Group U V W} {status : Status}
    (happend : s.logAppend cfg calls w g status = some t) : LogOrder old t := by
  obtain ⟨n, hn, happend⟩ := Option.bind_eq_some_iff.mp happend
  obtain ⟨records, hrecords, rfl⟩ := Option.map_eq_some_iff.mp happend
  obtain rfl := h.logfile n hn
  by_cases hstatus : status = .OK
  · subst hstatus
    refine ⟨h.below, fun n' hn' => ?_, h.logfile, ?_⟩
    · have hn' : Function.update s.db.logs s.db.logfileNumber (some (records ++ [g.record])) n' ≠
          none := hn'
      by_cases heq : n' = s.db.logfileNumber
      · exact le_of_eq heq
      · rw [Function.update_of_ne heq] at hn'
        exact h.last n' hn'
    · show Db.logRecords { s.db with
        logs := Function.update s.db.logs s.db.logfileNumber (some (records ++ [g.record])) } =
          old ++ (s.appended ++ [g]).map Group.record
      rw [logRecords_append hrecords, h.records, List.map_append, List.append_assoc]
      rfl
  · refine h.keep ⟨rfl, rfl, rfl, rfl, if_neg hstatus⟩ (le_refl _) (if_neg hstatus)

theorem LogOrder.write (h : LogOrder old s) (hreuses : cfg.ReusesLast) {act : WriteAct}
    (hstep : WriteStep cfg calls s w act t) : LogOrder old t := by
  cases hstep with
  | joins => exact h.keep (.refl _) (le_refl _) rfl
  | waits => exact h.keep (.refl _) (le_refl _) rfl
  | rooms henters hmake hthen =>
    exact h.room hreuses (makeRoom_effect hmake) hthen.keeps.1
      (hthen.keeps.2.2.2.1.trans henters.keeps.2.2.1)
  | appends hpc happend => exact h.append happend
  | syncs hpc hsync =>
    obtain ⟨n, -, rfl⟩ := Option.map_eq_some_iff.mp hsync
    exact h.keep (.refl _) (le_refl _) rfl
  | inserts hpc hinsert =>
    obtain ⟨memtables, -, rfl⟩ := Option.map_eq_some_iff.mp hinsert
    exact h.keep ⟨rfl, rfl, rfl, rfl, rfl⟩ (le_refl _) rfl
  | ends hpc hend =>
    unfold System.insertEnd at hend
    split at hend
    · cases hend
    · cases hend
      exact h.keep (.refl _) (le_refl _) rfl
  | @finishes g status syncError rest hpc hwriters =>
    obtain ⟨writes, heq⟩ := finish_keeps cfg s w g status syncError rest
    rw [heq]
    exact h.keep ⟨rfl, rfl, rfl, rfl, rfl⟩ (le_refl _) rfl

theorem LogOrder.step [Std.TransCmp cfg.version.icmp] (h : LogOrder old s) (hq : QueueOk s)
    (hreuses : cfg.ReusesLast) {l : Label U V W N} (hstep : System.step cfg calls s l = some t) :
    LogOrder old t := by
  rcases l.write_or_other with ⟨w, act, rfl⟩ | hl
  · exact h.write hreuses (writeStep_of_write hq hstep)
  · exact h.keep (keepsLog_of_step hl hstep) (nextFileNumber_le_of_step hq hreuses hstep)
      (sameQueue_of_step hl hstep).appended

/-! ## The groups that were appended -/

omit [DecidableEq W] in
theorem QueueOk.recorded?_others (hq : QueueOk s) (hw : (s.writes w).phase = .active) {x : W}
    (hx : x ≠ w) : (s.writes x).recorded? = none := by
  refine WriteCall.recorded?_none ?_
  cases hg : (s.writes x).group? with
  | none => rfl
  | some g => exact absurd (hq.unique (WriteCall.active_of_group hg) hw) hx

omit [DecidableEq W] in
theorem LogExact.of_same (h : LogExact commits s) (happended : t.appended = s.appended)
    (hsame : ∀ x, (t.writes x).recorded? = (s.writes x).recorded?) : LogExact commits t where
  busy x g hg := by
    rw [happended]
    exact h.busy x g ((hsame x).symm.trans hg)
  idle hnone := by
    rw [happended]
    exact h.idle fun x => (hsame x).symm.trans (hnone x)

omit [DecidableEq W] in
/-- The step of a call that had no record in the log and has none. -/
theorem LogExact.of_self (h : LogExact commits s) (happended : t.appended = s.appended)
    (hothers : ∀ x ≠ w, (t.writes x).unsignalled = (s.writes x).unsignalled)
    (hself : (t.writes w).recorded? = (s.writes w).recorded?) : LogExact commits t := by
  refine h.of_same happended fun x => ?_
  by_cases hx : x = w
  · rw [hx, hself]
  · rw [← WriteCall.recorded?_unsignalled, hothers x hx, WriteCall.recorded?_unsignalled]

omit [DecidableEq W] in
/-- No group has a record in the log that is not committed. -/
theorem LogExact.of_idle {groups : List (Group U V W)} (hgroups : groups = commits.map Prod.snd)
    (happended : t.appended = groups) (hnone : ∀ x, (t.writes x).recorded? = none) :
    LogExact commits t where
  busy x g hg := by
    rw [hnone x] at hg
    cases hg
  idle _ := happended.trans hgroups

theorem LogExact.rooms (h : LogExact commits s) {act : WriteAct} {s₁ : System U V R W N}
    {room : Room} {o : CreateOutcome} {size : Nat} {db : Db U V R N} {e : RoomExit}
    (henters : EntersRoom calls s w act s₁ room o size)
    (hthen : RoomThen cfg calls { s₁ with db } w size e t) : LogExact commits t := by
  have hbefore : (s.writes w).recorded? = none := by
    cases henters with
    | called hpc => rw [hpc]; rfl
    | woken hpc => rw [hpc]; rfl
    | slept hpc => rw [hpc]; rfl
    | waited hpc => rw [hpc]; rfl
  have hafter : (t.writes w).recorded? = none := by
    cases hthen with
    | returns => rw [leave_self]; rfl
    | _ => rw [setWrite_self]; rfl
  refine h.of_self (hthen.keeps.2.2.2.1.trans henters.keeps.2.2.1) (fun x hx => ?_)
    (hafter.trans hbefore.symm)
  rw [hthen.others hx]
  exact congrArg (fun writes => (writes x).unsignalled) henters.writes.1

/-- A group has its record in the log once `AddRecord` has returned OK. -/
theorem recorded?_logAppend (hok : cfg.ok = Status.isOK) {g : Group U V W} {status : Status}
    (h : s.logAppend cfg calls w g status = some t) :
    (t.writes w).recorded? = if status = .OK then some g else none := by
  obtain ⟨n, -, h⟩ := Option.bind_eq_some_iff.mp h
  obtain ⟨records, -, rfl⟩ := Option.map_eq_some_iff.mp h
  rw [setWrite_self, hok]
  by_cases hstatus : status = .OK
  · rw [if_pos (Status.isOK_iff.mpr hstatus), if_pos hstatus]
    split
    · rfl
    · rfl
  · rw [if_neg fun hisOK => hstatus (Status.isOK_iff.mp hisOK), if_neg hstatus]
    exact if_neg hstatus

theorem LogExact.write (h : LogExact commits s) (hok : cfg.ok = Status.isOK) (hq : QueueOk s)
    {act : WriteAct} (hfollows : (Label.write w act : Label U V W N).followsLog = true)
    (hstep : WriteStep cfg calls s w act t) :
    LogExact (recordCommits commits s (.write w act : Label U V W N) t) t := by
  have hothers : ∀ x ≠ w, (t.writes x).unsignalled = (s.writes x).unsignalled :=
    fun x hx => hstep.others hx
  have hsame : act ≠ .finish → LogExact commits t →
      LogExact (recordCommits commits s (.write w act : Label U V W N) t) t := by
    intro hact hc
    unfold recordCommits
    rw [committing_of_ne fun x heq => hact (by cases heq; rfl), List.append_nil]
    exact hc
  -- while the call is active, only it can have a group
  have halone : (s.writes w).phase = .active → ∀ x ≠ w, (t.writes x).recorded? = none := by
    intro hactive x hx
    rw [← WriteCall.recorded?_unsignalled, hothers x hx, WriteCall.recorded?_unsignalled]
    exact hq.recorded?_others hactive hx
  have hidle : (s.writes w).phase = .active → (s.writes w).recorded? = none →
      s.appended = commits.map Prod.snd := by
    refine fun hactive hnone => h.idle fun x => ?_
    by_cases hx : x = w
    · rw [hx, hnone]
    · exact hq.recorded?_others hactive hx
  cases hstep with
  | joins hpc =>
    refine hsame nofun (h.of_self rfl hothers ?_)
    rw [setWrite_self, hpc]
    rfl
  | waits hpc =>
    refine hsame nofun (h.of_self rfl hothers ?_)
    rw [setWrite_self, hpc]
    rfl
  | rooms henters hmake hthen =>
    refine hsame ?_ (h.rooms henters hthen)
    cases henters with
    | _ => nofun
  | @appends t g status hpc happend =>
    have hactive : (s.writes w).phase = .active := by rw [hpc]; rfl
    have hbefore := hidle hactive (by rw [hpc]; rfl)
    have halone := halone hactive
    have hself := recorded?_logAppend hok happend
    have happended : t.appended = if status = .OK then s.appended ++ [g] else s.appended := by
      obtain ⟨n, -, happend⟩ := Option.bind_eq_some_iff.mp happend
      obtain ⟨records, -, rfl⟩ := Option.map_eq_some_iff.mp happend
      rfl
    refine hsame nofun ?_
    by_cases hstatus : status = .OK
    · rw [if_pos hstatus] at hself happended
      refine ⟨fun x g' hg' => ?_, fun hnone => ?_⟩
      · by_cases hx : x = w
        · rw [hx, hself] at hg'
          rw [← Option.some.inj hg', ← hbefore, happended]
        · rw [halone x hx] at hg'
          cases hg'
      · rw [hnone w] at hself
        cases hself
    · rw [if_neg hstatus] at hself happended
      refine .of_idle hbefore happended fun x => ?_
      by_cases hx : x = w
      · rw [hx, hself]
      · exact halone x hx
  | @syncs t g status hpc hsync =>
    obtain ⟨n, -, rfl⟩ := Option.map_eq_some_iff.mp hsync
    obtain rfl : status = .OK := by simpa [Label.followsLog] using hfollows
    refine hsame nofun (h.of_self rfl hothers ?_)
    rw [setWrite_self, hpc, hok, if_pos (Status.isOK_iff.mpr rfl)]
    rfl
  | @inserts t g m e rest hpc hinsert =>
    obtain ⟨memtables, -, rfl⟩ := Option.map_eq_some_iff.mp hinsert
    refine hsame nofun (h.of_self rfl hothers ?_)
    rw [setWrite_self, hpc]
    rfl
  | @ends t g m rest status hpc hend =>
    obtain rfl : status = .OK := by simpa [Label.followsLog] using hfollows
    unfold System.insertEnd at hend
    split at hend
    · cases hend
    · cases hend
      refine hsame nofun (h.of_self rfl hothers ?_)
      rw [setWrite_self, hpc]
      rfl
  | @finishes g status syncError rest hpc hwriters =>
    have hactive : (s.writes w).phase = .active := by rw [hpc]; rfl
    have halone := halone hactive
    have happended : (((if syncError then s.recordError cfg status else s).setLastSequence
        g.lastSequence).leave w rest status).appended = s.appended := by
      obtain ⟨writes, heq⟩ := finish_keeps cfg s w g status syncError rest
      rw [heq]
    have hnone : ∀ x, ((((if syncError then s.recordError cfg status else s).setLastSequence
        g.lastSequence).leave w rest status).writes x).recorded? = none := by
      intro x
      by_cases hx : x = w
      · rw [hx, leave_self]
        rfl
      · exact halone x hx
    refine .of_idle ?_ happended hnone
    unfold recordCommits System.committing
    dsimp only
    rw [hpc]
    by_cases hstatus : status = .OK
    · subst hstatus
      rw [h.busy w g (by rw [hpc]; rfl), List.map_append]
      rfl
    · rw [show (WriteCall.relocking g status syncError : WriteCall U V W).placing? = none from
        if_neg hstatus, hidle hactive (by rw [hpc]; exact if_neg hstatus)]
      exact congrArg _ (List.append_nil _).symm

theorem LogExact.step [Std.TransCmp cfg.version.icmp] (h : LogExact commits s)
    (hok : cfg.ok = Status.isOK) (hq : QueueOk s) {l : Label U V W N}
    (hfollows : l.followsLog = true) (hstep : System.step cfg calls s l = some t) :
    LogExact (recordCommits commits s l t) t := by
  rcases l.write_or_other with ⟨w, act, rfl⟩ | hl
  · exact h.write hok hq hfollows (writeStep_of_write hq hstep)
  · have hsame := sameQueue_of_step hl hstep
    unfold recordCommits
    rw [committing_of_ne fun x => hl x .finish, List.append_nil]
    refine h.of_same hsame.appended fun x => ?_
    rw [← WriteCall.recorded?_unsignalled, hsame.unsignalled, WriteCall.recorded?_unsignalled]

/-! ## The start, and the group in progress -/

omit [DecidableEq W] in
theorem Opened.logOrder (hopened : Opened s)
    (hbelow : s.db.logfileNumber < s.db.versions.nextFileNumber)
    (hlast : ∀ n, s.db.logs n ≠ none → n ≤ s.db.logfileNumber)
    (hlogfile : ∀ n, s.db.logfile = some n → n = s.db.logfileNumber) :
    LogOrder s.db.logRecords s := by
  refine ⟨hbelow, hlast, hlogfile, ?_⟩
  rw [hopened.appended]
  exact (List.append_nil _).symm

omit [DecidableEq W] in
theorem Opened.logExact (hopened : Opened s) : LogExact [] s := by
  refine ⟨fun w g hg => ?_, fun _ => hopened.appended⟩
  rw [hopened.writes] at hg
  cases hg

omit [DecidableEq W] in
/-- Behind the groups that are committed there is at most one. -/
theorem LogExact.pending (h : LogExact commits s) :
    ∃ pending, s.appended = commits.map Prod.snd ++ pending ∧ pending.length ≤ 1 ∧
      ((∀ w, (s.writes w).group? = none) → pending = []) := by
  by_cases hbusy : ∃ w g, (s.writes w).recorded? = some g
  · obtain ⟨w, g, hg⟩ := hbusy
    refine ⟨[g], h.busy w g hg, le_refl _, fun hnone => ?_⟩
    rw [WriteCall.recorded?_none (hnone w)] at hg
    cases hg
  · refine ⟨[], ?_, Nat.zero_le _, fun _ => rfl⟩
    rw [List.append_nil]
    refine h.idle fun w => ?_
    cases hw : (s.writes w).recorded? with
    | none => rfl
    | some g => exact absurd ⟨w, g, hw⟩ hbusy

end Step

end LevelDB
