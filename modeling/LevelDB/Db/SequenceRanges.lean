import LevelDB.Db.Logs
import LevelDB.Lib.Consecutive

/-!
# The sequence numbers of the write groups

`last_sequence_` is read when a group is built and set when its leader takes the mutex again, also
when its record could not be written.

* `GroupHistory` — the groups in the order in which they were built, and those that failed;
* `RangesOk` — their ranges of sequence numbers follow one another;
* `LoggedOk` — the records in the log files are in the same order;
* `RangesOk.step`, `LoggedOk.step` — every step of every thread keeps this.
-/

set_option autoImplicit false

namespace LevelDB

variable {U V R W : Type} {N : Nat}

/-! ## History -/

structure GroupHistory (U V W : Type) where
  /-- The groups in the order in which `BuildBatchGroup` built them. -/
  groups : List (Group U V W) := []
  /-- The groups whose `AddRecord` or `Sync` failed. -/
  failed : List (Group U V W) := []

/-- The group that a call has just built. -/
def WriteCall.built : WriteCall U V W → List (Group U V W)
  | appending g => [g]
  | _ => []

/-- The group that a step of its leader fails to write. -/
def WriteCall.fails : WriteCall U V W → WriteAct → List (Group U V W)
  | appending g, .append status => if status = .OK then [] else [g]
  | syncing g, .sync status => if status = .OK then [] else [g]
  | _, _ => []

def GroupHistory.record (h : GroupHistory U V W) (s : System U V R W N) (l : Label U V W N)
    (t : System U V R W N) : GroupHistory U V W :=
  match l with
  | .write w act =>
    { groups := h.groups ++ (t.writes w).built
      failed := h.failed ++ (s.writes w).fails act }
  | _ => h

theorem GroupHistory.record_write (h : GroupHistory U V W) (s t : System U V R W N) (w : W)
    (act : WriteAct) : h.record s (.write w act) t =
      { groups := h.groups ++ (t.writes w).built, failed := h.failed ++ (s.writes w).fails act } :=
  rfl

/-- The groups have taken the numbers after `n`; those of the group in progress are not yet counted
in `last_sequence_`. -/
structure RangesOk (n : Nat) (h : GroupHistory U V W) (s : System U V R W N) : Prop where
  idle : (∀ w, (s.writes w).group? = none) → Counter.Consecutive Group.sequence Group.lastSequence n
    h.groups s.db.versions.lastSequence
  busy : ∀ w g, (s.writes w).group? = some g → ∃ before, h.groups = before ++ [g] ∧
    Counter.Consecutive Group.sequence Group.lastSequence n before s.db.versions.lastSequence
  counts : ∀ g ∈ h.groups, g.lastSequence + 1 = g.sequence + g.ops.length

/-- The records are in the order of the groups; `logs` are the log files at the start. -/
structure LoggedOk (logs : Nat → Option (List (LogRecord U V))) (h : GroupHistory U V W)
    (s : System U V R W N) : Prop where
  appended : s.appended.Sublist h.groups
  appending : ∀ w g, s.writes w = .appending g → ∃ before, h.groups = before ++ [g] ∧
    s.appended.Sublist before
  logs : ∀ n records, s.db.logs n = some records → ∃ (old : List (LogRecord U V))
    (gs : List (Group U V W)), records = old ++ gs.map Group.record ∧ gs.Sublist s.appended ∧
      (old = [] ∨ logs n = some old)

theorem WriteCall.group?_of_built {pc : WriteCall U V W} {g : Group U V W} (hg : g ∈ pc.built) :
    pc.group? = some g := by
  cases pc with
  | appending g' =>
    rw [List.mem_singleton.mp hg]
    rfl
  | _ => cases hg

/-- A signal does not concern a call that has a group. -/
theorem WriteCall.eq_of_group {pc pc' : WriteCall U V W} (hpc : pc'.unsignalled = pc.unsignalled)
    {g : Group U V W} (hg : pc'.group? = some g) : pc = pc' := by
  cases pc' with
  | idle => cases hg
  | waiting => cases hg
  | sleeping => cases hg
  | roomWaiting => cases hg
  | returned => cases hg
  | _ =>
    cases pc with
    | waiting => cases hpc
    | roomWaiting => cases hpc
    | _ => exact hpc.symm

section Step

variable {cfg : DbConfig U V R N} {calls : W → WriteRequest U V} {s t : System U V R W N} {w : W}
  {h h' : GroupHistory U V W} {n : Nat} {logs : Nat → Option (List (LogRecord U V))}

/-! ## Ranges -/

/-- All groups, with the one in progress. -/
theorem RangesOk.consecutive (hr : RangesOk n h s) (hgroups : GroupsOk s) :
    ∃ m, Counter.Consecutive Group.sequence Group.lastSequence n h.groups m := by
  by_cases hbusy : ∃ w g, (s.writes w).group? = some g
  · obtain ⟨w, g, hg⟩ := hbusy
    obtain ⟨before, heq, hbefore⟩ := hr.busy w g hg
    obtain ⟨hsequence, hlast⟩ := (hgroups w).group g hg
    rw [heq]
    exact ⟨_, .snoc hbefore hsequence (by omega)⟩
  · refine ⟨_, hr.idle fun w => ?_⟩
    cases hg : (s.writes w).group? with
    | none => rfl
    | some g => exact absurd ⟨w, g, hg⟩ hbusy

/-- A group is over or in progress. -/
theorem RangesOk.over_or_current (hr : RangesOk n h s) {g : Group U V W} (hg : g ∈ h.groups) :
    g.lastSequence ≤ s.db.versions.lastSequence ∨ ∃ w, (s.writes w).group? = some g := by
  by_cases hbusy : ∃ w g', (s.writes w).group? = some g'
  · obtain ⟨w, g', hg'⟩ := hbusy
    obtain ⟨before, heq, hbefore⟩ := hr.busy w g' hg'
    rw [heq] at hg
    rcases List.mem_append.mp hg with hg | hg
    · exact Or.inl (hbefore.mem hg).2
    · rw [List.mem_singleton.mp hg]
      exact Or.inr ⟨w, hg'⟩
  · refine Or.inl ((hr.idle fun w => ?_).mem hg).2
    cases hw : (s.writes w).group? with
    | none => rfl
    | some g' => exact absurd ⟨w, g', hw⟩ hbusy

/-- The entries of a group have its numbers. -/
theorem RangesOk.entries (hr : RangesOk n h s) {g : Group U V W} (hg : g ∈ h.groups)
    {e : Entry U V} (he : e ∈ g.entries) : g.sequence ≤ e.number ∧ e.number ≤ g.lastSequence := by
  have hbounds := batchEntries_bounds he
  have hcount := hr.counts g hg
  show g.sequence ≤ e.key.sequence ∧ e.key.sequence ≤ g.lastSequence
  omega

/-- The group in progress stays, or there is none. -/
theorem RangesOk.of_same (hr : RangesOk n h s) (hgroups : h'.groups = h.groups)
    (hcalls : ∀ x, (t.writes x).group? = (s.writes x).group?)
    (hlast : t.db.versions.lastSequence = s.db.versions.lastSequence) : RangesOk n h' t where
  idle hnone := by
    rw [hgroups, hlast]
    exact hr.idle fun x => (hcalls x).symm.trans (hnone x)
  busy x g hg := by
    rw [hgroups, hlast]
    exact hr.busy x g ((hcalls x).symm.trans hg)
  counts := by
    rw [hgroups]
    exact hr.counts

/-- A group is built. -/
theorem RangesOk.build (hr : RangesOk n h s) {g : Group U V W} (hg : GroupOk t.db g)
    (hgroups : h'.groups = h.groups ++ [g]) (hnone : ∀ x, (s.writes x).group? = none)
    (hself : (t.writes w).group? = some g) (hothers : ∀ x ≠ w, (t.writes x).group? = none)
    (hlast : t.db.versions.lastSequence = s.db.versions.lastSequence) : RangesOk n h' t where
  idle hidle := by
    rw [hidle w] at hself
    cases hself
  busy x g' hg' := by
    by_cases hx : x = w
    · subst hx
      obtain rfl := Option.some.inj (hself.symm.trans hg')
      refine ⟨h.groups, hgroups, ?_⟩
      rw [hlast]
      exact hr.idle hnone
    · rw [hothers x hx] at hg'
      cases hg'
  counts g' hg' := by
    rw [hgroups] at hg'
    rcases List.mem_append.mp hg' with hg' | hg'
    · exact hr.counts g' hg'
    · rw [List.mem_singleton.mp hg', hg.sequence, hg.last]
      omega

/-- The leader sets `last_sequence_`, whether the group was written or not. -/
theorem RangesOk.finish (hr : RangesOk n h s) {g : Group U V W} (hg : GroupOk s.db g)
    (hgroups : h'.groups = h.groups) (hself : (s.writes w).group? = some g)
    (hnone : ∀ x, (t.writes x).group? = none)
    (hlast : t.db.versions.lastSequence = g.lastSequence) : RangesOk n h' t where
  idle _ := by
    obtain ⟨before, heq, hbefore⟩ := hr.busy w g hself
    obtain ⟨hsequence, hcount⟩ := hg
    rw [hgroups, hlast, heq]
    exact .snoc hbefore hsequence (by omega)
  busy x g' hg' := by
    rw [hnone x] at hg'
    cases hg'
  counts := by
    rw [hgroups]
    exact hr.counts

/-! ## Steps of a call of Write -/

variable [DecidableEq W]

/-- What a step of a call does to the group in progress. -/
inductive GroupStep (s t : System U V R W N) (w : W) : Prop
  | stays (hcalls : ∀ x, (t.writes x).group? = (s.writes x).group?)
      (hbuilt : (t.writes w).built = [])
      (hlast : t.db.versions.lastSequence = s.db.versions.lastSequence)
  | builds {g : Group U V W} (hnone : ∀ x, (s.writes x).group? = none)
      (hself : t.writes w = .appending g) (hothers : ∀ x ≠ w, (t.writes x).group? = none)
      (hlast : t.db.versions.lastSequence = s.db.versions.lastSequence)
  | finishes {g : Group U V W} {status : Status} {syncError : Bool}
      (hself : s.writes w = .relocking g status syncError)
      (hnone : ∀ x, (t.writes x).group? = none)
      (hlast : t.db.versions.lastSequence = g.lastSequence)

theorem built_logAppend {g : Group U V W} {status : Status}
    (hstep : s.logAppend cfg calls w g status = some t) : (t.writes w).built = [] := by
  obtain ⟨n, -, hstep⟩ := Option.bind_eq_some_iff.mp hstep
  obtain ⟨records, -, rfl⟩ := Option.map_eq_some_iff.mp hstep
  rw [setWrite_self]
  split
  · split
    · rfl
    · rfl
  · rfl

theorem built_logSync {g : Group U V W} {status : Status}
    (hstep : s.logSync cfg w g status = some t) : (t.writes w).built = [] := by
  obtain ⟨n, -, rfl⟩ := Option.map_eq_some_iff.mp hstep
  rw [setWrite_self]
  split
  · rfl
  · rfl

theorem WriteStep.groupStep {act : WriteAct} (hstep : WriteStep cfg calls s w act t)
    (hq : QueueOk s) : GroupStep s t w := by
  have hothers : ∀ x ≠ w, (t.writes x).group? = (s.writes x).group? :=
    fun x hx => hstep.group?_others hx
  have hcalls : (t.writes w).group? = (s.writes w).group? →
      ∀ x, (t.writes x).group? = (s.writes x).group? := by
    intro hself x
    by_cases hx : x = w
    · rw [hx, hself]
    · exact hothers x hx
  cases hstep with
  | joins hpc =>
    refine .stays (hcalls ?_) (by rw [setWrite_self]; rfl) rfl
    rw [setWrite_self, hpc]
    rfl
  | waits hpc =>
    refine .stays (hcalls ?_) (by rw [setWrite_self]; rfl) rfl
    rw [setWrite_self, hpc]
    rfl
  | @rooms act s₁ t room o size db e henters hmake hthen =>
    have hnone := henters.no_group hq
    have hlast : t.db.versions.lastSequence = s.db.versions.lastSequence := by
      rw [hthen.keeps.1]
      exact (makeRoom_effect hmake).lastSequence
    cases hthen with
    | sleeps room =>
      refine .stays (hcalls ?_) (by rw [setWrite_self]; rfl) hlast
      rw [setWrite_self, hnone w]
      rfl
    | waits room =>
      refine .stays (hcalls ?_) (by rw [setWrite_self]; rfl) hlast
      rw [setWrite_self, hnone w]
      rfl
    | leads =>
      exact .builds hnone (setWrite_self _) (fun x hx => (hothers x hx).trans (hnone x)) hlast
    | returns =>
      refine .stays (hcalls ?_) (by rw [leave_self]; rfl) hlast
      rw [leave_self, hnone w]
      rfl
  | appends hpc happend =>
    have hgroup := group?_logAppend happend
    have hbuilt := built_logAppend happend
    obtain ⟨n, -, happend⟩ := Option.bind_eq_some_iff.mp happend
    obtain ⟨records, -, rfl⟩ := Option.map_eq_some_iff.mp happend
    exact .stays (hcalls (by rw [hgroup, hpc]; rfl)) hbuilt rfl
  | syncs hpc hsync =>
    have hgroup := group?_logSync hsync
    have hbuilt := built_logSync hsync
    obtain ⟨n, -, rfl⟩ := Option.map_eq_some_iff.mp hsync
    exact .stays (hcalls (by rw [hgroup, hpc]; rfl)) hbuilt rfl
  | inserts hpc hinsert =>
    have hgroup := group?_memInsert hinsert
    obtain ⟨memtables, -, rfl⟩ := Option.map_eq_some_iff.mp hinsert
    exact .stays (hcalls (by rw [hgroup, hpc]; rfl)) (by rw [setWrite_self]; rfl) rfl
  | ends hpc hend =>
    have hgroup := group?_insertEnd hend
    unfold System.insertEnd at hend
    split at hend
    · cases hend
    · cases hend
      exact .stays (hcalls (by rw [hgroup, hpc]; rfl)) (by rw [setWrite_self]; rfl) rfl
  | @finishes g status syncError rest hpc hwriters =>
    refine .finishes hpc (fun x => ?_) (by rw [leave_eq]; rfl)
    by_cases hx : x = w
    · rw [hx, leave_self]
      rfl
    · rw [hothers x hx]
      cases hg : (s.writes x).group? with
      | none => rfl
      | some g' => exact absurd (hq.unique (WriteCall.active_of_group hg) (by rw [hpc]; rfl)) hx

theorem RangesOk.write (hr : RangesOk n h s) (hq : QueueOk s) (hgroups : GroupsOk s)
    {act : WriteAct} (hstep : WriteStep cfg calls s w act t) :
    RangesOk n (h.record s (.write w act) t) t := by
  have hrecord : (h.record s (.write w act) t).groups = h.groups ++ (t.writes w).built := rfl
  cases hstep.groupStep hq with
  | stays hcalls hbuilt hlast =>
    rw [hbuilt, List.append_nil] at hrecord
    exact hr.of_same hrecord hcalls hlast
  | builds hnone hself hothers hlast =>
    have hgroup := (hgroups.write hq hstep w).group _ (by rw [hself]; rfl)
    rw [hself] at hrecord
    exact hr.build hgroup hrecord hnone (by rw [hself]; rfl) hothers hlast
  | finishes hself hnone hlast =>
    have hgroup := (hgroups w).group _ (by rw [hself]; rfl)
    have hbuilt : (t.writes w).built = [] := by
      have hw := hnone w
      cases hpc : t.writes w with
      | appending g =>
        rw [hpc] at hw
        cases hw
      | _ => rfl
    rw [hbuilt, List.append_nil] at hrecord
    exact hr.finish hgroup hrecord (by rw [hself]; rfl) hnone hlast

/-! ## Records -/

omit [DecidableEq W] in
/-- Log files stay or are created, and the groups and their records stay. -/
theorem LoggedOk.of_kept (hl : LoggedOk logs h s) (happended : t.appended = s.appended)
    (hlogs : ∀ n records, t.db.logs n = some records → records = [] ∨ s.db.logs n = some records)
    (hgroups : h.groups.Sublist h'.groups)
    (happending : ∀ w g, t.writes w = .appending g → ∃ before, h'.groups = before ++ [g] ∧
      s.appended.Sublist before) : LoggedOk logs h' t where
  appended := by
    rw [happended]
    exact hl.appended.trans hgroups
  appending w g hg := by
    rw [happended]
    exact happending w g hg
  logs n records hrecords := by
    rw [happended]
    rcases hlogs n records hrecords with rfl | hold
    · exact ⟨[], [], rfl, List.nil_sublist _, Or.inl rfl⟩
    · exact hl.logs n records hold

omit [DecidableEq W] in
theorem RoomEffect.log_kept {o : CreateOutcome} {db db' : Db U V R N}
    (heffect : RoomEffect cfg o db db') {n : Nat} {records : List (LogRecord U V)}
    (hrecords : db'.logs n = some records) :
    records = [] ∨ db.logs n = some records := by
  cases heffect with
  | same => exact Or.inr hrecords
  | reused => exact Or.inr hrecords
  | switched =>
    obtain ⟨jobQueue, scheduled, heq⟩ :=
      @switchMemTable_eq U V R N cfg o db db.versions.nextFileNumber
    rw [heq] at hrecords
    dsimp only at hrecords
    split at hrecords
    · by_cases hn : n = db.versions.nextFileNumber
      · rw [hn, Function.update_self] at hrecords
        exact Or.inl (Option.some.inj hrecords).symm
      · rw [Function.update_of_ne hn] at hrecords
        exact Or.inr hrecords
    · exact Or.inr hrecords

/-- `AddRecord` adds the record of the newest group. -/
theorem LoggedOk.append (hl : LoggedOk logs h s) {g : Group U V W} {status : Status}
    (hpc : s.writes w = .appending g) (hgroups : h'.groups = h.groups)
    (hstep : s.logAppend cfg calls w g status = some t)
    (hnone : ∀ x g', t.writes x ≠ .appending g') : LoggedOk logs h' t := by
  obtain ⟨n, -, hstep⟩ := Option.bind_eq_some_iff.mp hstep
  obtain ⟨records, hn, rfl⟩ := Option.map_eq_some_iff.mp hstep
  by_cases hstatus : status = .OK
  · refine ⟨?_, fun x g' hg' => absurd hg' (hnone x g'), fun n' records' hrecords => ?_⟩
    · show (if status = .OK then s.appended ++ [g] else s.appended).Sublist h'.groups
      obtain ⟨before, heq, hbefore⟩ := hl.appending w g hpc
      rw [if_pos hstatus, hgroups, heq]
      exact hbefore.append (List.Sublist.refl _)
    · have hrecords : (if status = .OK then
          Function.update s.db.logs n (some (records ++ [g.record])) else s.db.logs) n' =
          some records' := hrecords
      show ∃ (old : List (LogRecord U V)) (gs : List (Group U V W)), _ ∧
        gs.Sublist (if status = .OK then s.appended ++ [g] else s.appended) ∧ _
      rw [if_pos hstatus] at hrecords ⊢
      by_cases hn' : n' = n
      · obtain ⟨old, gs, hold, hgs, hfrom⟩ := hl.logs n records hn
        rw [hn', Function.update_self] at hrecords
        refine ⟨old, gs ++ [g], ?_, hgs.append (List.Sublist.refl _), by rw [hn']; exact hfrom⟩
        rw [← Option.some.inj hrecords, hold, List.map_append, List.append_assoc]
        rfl
      · rw [Function.update_of_ne hn'] at hrecords
        obtain ⟨old, gs, hold, hgs, hfrom⟩ := hl.logs n' records' hrecords
        exact ⟨old, gs, hold, hgs.trans (List.sublist_append_left _ _), hfrom⟩
  · refine hl.of_kept (if_neg hstatus) (fun n' records' hrecords => Or.inr ?_)
      (by rw [hgroups]) fun x g' hg' => absurd hg' (hnone x g')
    have hrecords : (if status = .OK then
        Function.update s.db.logs n (some (records ++ [g.record])) else s.db.logs) n' =
        some records' := hrecords
    rwa [if_neg hstatus] at hrecords

theorem LoggedOk.write (hl : LoggedOk logs h s) (hq : QueueOk s) {act : WriteAct}
    (hstep : WriteStep cfg calls s w act t) : LoggedOk logs (h.record s (.write w act) t) t := by
  have hqueue := hstep.queueOk hq
  have hothers : ∀ x ≠ w, ∀ g, t.writes x = .appending g → s.writes x = .appending g :=
    fun x hx g hg => (WriteCall.eq_of_group (hstep.others hx) (by rw [hg]; rfl)).trans hg
  have hgroups : h.groups.Sublist (h.record s (.write w act) t).groups :=
    List.sublist_append_left _ _
  have happending : ∀ x g, t.writes x = .appending g →
      ∃ before, (h.record s (.write w act) t).groups = before ++ [g] ∧
        s.appended.Sublist before := by
    intro x g hg
    have hrecord : (h.record s (.write w act) t).groups = h.groups ++ (t.writes w).built := rfl
    by_cases hx : x = w
    · subst hx
      rw [hg] at hrecord
      exact ⟨h.groups, hrecord, hl.appended⟩
    · have hbuilt : (t.writes w).built = [] := by
        cases hpc : t.writes w with
        | appending g' =>
          exact absurd (hqueue.unique (by rw [hg]; rfl) (by rw [hpc]; rfl)) hx
        | _ => rfl
      rw [hbuilt, List.append_nil] at hrecord
      rw [hrecord]
      exact hl.appending x g (hothers x hx g hg)
  have hsame : t.appended = s.appended → t.db.logs = s.db.logs →
      LoggedOk logs (h.record s (.write w act) t) t := fun happended hlogs =>
    hl.of_kept happended (fun n records hrecords => Or.inr (by rw [← hlogs, hrecords])) hgroups
      happending
  cases hstep with
  | joins => exact hsame rfl rfl
  | waits => exact hsame rfl rfl
  | @rooms act s₁ t room o size db e henters hmake hthen =>
    obtain ⟨hdb, -, -, happended, -⟩ := hthen.keeps
    refine hl.of_kept (happended.trans henters.keeps.2.2.1) (fun n records hrecords => ?_) hgroups
      happending
    rw [hdb] at hrecords
    exact (makeRoom_effect hmake).log_kept hrecords
  | @appends t g status hpc happend =>
    have hbuilt := built_logAppend happend
    have hrecord : (h.record s (.write w (.append status)) t).groups = h.groups := by
      show h.groups ++ (t.writes w).built = h.groups
      rw [hbuilt, List.append_nil]
    refine hl.append hpc hrecord happend fun x g' hg' => ?_
    by_cases hx : x = w
    · subst hx
      rw [hg'] at hbuilt
      cases hbuilt
    · exact hx (hq.unique (by rw [hothers x hx g' hg']; rfl) (by rw [hpc]; rfl))
  | syncs hpc hsync =>
    obtain ⟨n, -, rfl⟩ := Option.map_eq_some_iff.mp hsync
    exact hsame rfl rfl
  | inserts hpc hinsert =>
    obtain ⟨memtables, -, rfl⟩ := Option.map_eq_some_iff.mp hinsert
    exact hsame rfl rfl
  | ends hpc hend =>
    unfold System.insertEnd at hend
    split at hend
    · cases hend
    · cases hend
      exact hsame rfl rfl
  | @finishes g status syncError rest hpc hwriters =>
    obtain ⟨writes, heq⟩ := finish_keeps cfg s w g status syncError rest
    exact hsame (by rw [heq]) (by rw [heq])

variable [Std.TransCmp cfg.version.icmp]

omit [DecidableEq W] in
theorem record_of_not_write {l : Label U V W N} (hl : ∀ w act, l ≠ .write w act) :
    h.record s l t = h := by
  cases l with
  | write w act => exact absurd rfl (hl w act)
  | _ => rfl

/-- **Every step keeps the ranges in order.** -/
theorem RangesOk.step (hr : RangesOk n h s) (hq : QueueOk s) (hgroups : GroupsOk s)
    {l : Label U V W N} (hstep : System.step cfg calls s l = some t) :
    RangesOk n (h.record s l t) t := by
  rcases l.write_or_other with ⟨w, act, rfl⟩ | hl
  · exact hr.write hq hgroups (writeStep_of_write hq hstep)
  · have hsame := sameQueue_of_step hl hstep
    exact hr.of_same (by rw [record_of_not_write hl])
      (fun x => WriteCall.group?_congr (hsame.unsignalled x))
      (noInserts_of_step hl hstep).lastSequence

/-- **Every step keeps the records in the order of the groups.** -/
theorem LoggedOk.step (hl : LoggedOk logs h s) (hq : QueueOk s) {l : Label U V W N}
    (hstep : System.step cfg calls s l = some t) : LoggedOk logs (h.record s l t) t := by
  rcases l.write_or_other with ⟨w, act, rfl⟩ | hwrite
  · exact hl.write hq (writeStep_of_write hq hstep)
  · have hsame := sameQueue_of_step hwrite hstep
    have hlogs := (keepsLog_of_step hwrite hstep).logs
    rw [record_of_not_write hwrite]
    refine hl.of_kept hsame.appended (fun n records hrecords => Or.inr ?_) (List.Sublist.refl _)
      fun x g hg => hl.appending x g ?_
    · rw [← hlogs, hrecords]
    · exact (WriteCall.eq_of_group (hsame.unsignalled x) (by rw [hg]; rfl)).trans hg

end Step

end LevelDB
