import LevelDB.Db.FileNumbers

/-!
# Log files and memtables

A log file is created together with a memtable, and no log number that an edit records passes one
whose records are still in `mem_`.

* `LogHistory` — which memtable was created with each log file, which log file each group went to,
  and which memtables have been flushed;
* `imm_of_step` — only the end of a flush gives `imm_` up;
* `logsPaired_of_run` — the pairing in every run.
-/

set_option autoImplicit false

namespace LevelDB

variable {U V R W : Type} {N : Nat}

structure LogHistory (W : Type) where
  /-- The memtable that was created with a log file. -/
  memOf : Nat → Option Nat
  /-- The log file that the group of a call was last appended to. -/
  logOf : W → Option Nat := fun _ => none
  /-- The memtables that were `imm_` when a flush completed. -/
  flushed : List Nat := []

/-- The log file of the group after an `AddRecord`. -/
def WriteAct.logged [DecidableEq W] (act : WriteAct) (w : W) (logfile : Option Nat)
    (logOf : W → Option Nat) : W → Option Nat :=
  match act with
  | .append _ => Function.update logOf w logfile
  | _ => logOf

def LogHistory.record [DecidableEq W] (h : LogHistory W) (s : System U V R W N)
    (l : Label U V W N) (t : System U V R W N) : LogHistory W :=
  match l with
  | .write w act =>
    { h with
      memOf :=
        if t.db.nextMem = s.db.nextMem then h.memOf
        else Function.update h.memOf t.db.logfileNumber (some t.db.mem)
      logOf := act.logged w s.db.logfile h.logOf }
  | .jobFinish _ _ =>
    { h with
      flushed :=
        match s.db.imm, t.db.imm with
        | some m, none => h.flushed ++ [m]
        | _, _ => h.flushed }
  | _ => h

/-- The records in log files that are not the current one are those of `imm_` and of memtables that
have been flushed. -/
structure LogsOk (h : LogHistory W) (s : System U V R W N) : Prop where
  paired : h.memOf s.db.logfileNumber = some s.db.mem
  logfile : ∀ n, s.db.logfile = some n → n = s.db.logfileNumber
  older : ∀ n records, s.db.logs n = some records → records ≠ [] → n ≠ s.db.logfileNumber →
    ∃ m, h.memOf n = some m ∧ (s.db.imm = some m ∨ m ∈ h.flushed)
  flushed : ∀ m ∈ h.flushed, m < s.db.nextMem ∧ m ≠ s.db.mem
  hasImm : s.db.hasImm = true ↔ s.db.imm ≠ none

/-- The group that has been appended to the log and is not yet in the memtable. -/
def WriteCall.logged? : WriteCall U V W → Option (Group U V W)
  | syncing g => some g
  | inserting g _ _ => some g
  | _ => none

/-- The memtable that a job is writing to a table. -/
def Job.flushing? : Job U N → Option Nat
  | building f => some f.mem
  | built f _ _ => some f.mem
  | _ => none

/-- The running calls and jobs agree with the pairing. -/
structure PairsOk (h : LogHistory W) (s : System U V R W N) : Prop where
  logs : LogsOk h s
  calls : ∀ w g, (s.writes w).logged? = some g → h.logOf w = some s.db.logfileNumber
  jobs : ∀ j ∈ s.jobs, ∀ m, j.flushing? = some m → s.db.imm = some m

structure LogsPaired (h : LogHistory W) (s : System U V R W N) : Prop where
  /-- The log file that a group went to was created with the memtable that its entries go to. -/
  writes : ∀ w g m rest, s.writes w = .inserting g m rest →
    ∃ n, h.logOf w = some n ∧ h.memOf n = some m
  hasImm : s.db.hasImm = true ↔ s.db.imm ≠ none
  /-- What a flush is about to pass to `SetLogNumber` leaves out no record of `mem_`. -/
  retires : ∀ f fileMeta status, Job.built f fileMeta status ∈ s.jobs →
    ∀ n < s.db.logfileNumber, ∀ records, s.db.logs n = some records → records ≠ [] →
      ∃ m, h.memOf n = some m ∧ (m = f.mem ∨ m ∈ h.flushed) ∧ m ≠ s.db.mem

section Pairs

variable {cfg : DbConfig U V R N} {calls : W → WriteRequest U V} {s t : System U V R W N} {w : W}
  {h : LogHistory W}

@[simp] theorem WriteCall.logged?_unsignalled (pc : WriteCall U V W) :
    pc.unsignalled.logged? = pc.logged? := by
  cases pc <;> rfl

theorem WriteCall.group?_of_logged {pc : WriteCall U V W} {g : Group U V W}
    (hg : pc.logged? = some g) : pc.group? = some g := by
  cases pc with
  | syncing => exact hg
  | inserting => exact hg
  | _ => cases hg

/-- The pairing, as it is stated for the program. -/
theorem PairsOk.paired (hpairs : PairsOk h s) (hgroups : GroupsOk s) (hrefs : ReferencesOk s) :
    LogsPaired h s where
  writes w g m rest hpc := by
    obtain ⟨rfl, -⟩ := (hgroups w).inserts g m rest hpc
    exact ⟨_, hpairs.calls w g (by rw [hpc]; rfl), hpairs.logs.paired⟩
  hasImm := hpairs.logs.hasImm
  retires f fileMeta status hjob n hn records hrecords hne := by
    obtain ⟨m, hm, hwhere⟩ := hpairs.logs.older n records hrecords hne (Nat.ne_of_lt hn)
    have himm := hpairs.jobs _ hjob f.mem rfl
    refine ⟨m, hm, ?_, ?_⟩
    · rcases hwhere with heq | hflushed
      · exact Or.inl (Option.some.inj (heq.symm.trans himm))
      · exact Or.inr hflushed
    · rcases hwhere with heq | hflushed
      · rintro rfl
        exact hrefs.apart heq
      · exact (hpairs.logs.flushed m hflushed).2

/-! ## Steps of a call of Write -/

theorem LogsOk.of_same (hlogs : LogsOk h s) {h' : LogHistory W} (hmemOf : h'.memOf = h.memOf)
    (hflushed : h'.flushed = h.flushed) (hkeeps : KeepsLog s.db t.db)
    (himm : t.db.imm = s.db.imm) (hhas : t.db.hasImm = s.db.hasImm) : LogsOk h' t where
  paired := by
    rw [hmemOf, hkeeps.logfileNumber, hkeeps.mem]
    exact hlogs.paired
  logfile n hn := by
    rw [hkeeps.logfile] at hn
    rw [hkeeps.logfileNumber]
    exact hlogs.logfile n hn
  older n records hn hne hnot := by
    rw [hkeeps.logs] at hn
    rw [hkeeps.logfileNumber] at hnot
    rw [hmemOf, hflushed, himm]
    exact hlogs.older n records hn hne hnot
  flushed m hm := by
    rw [hflushed] at hm
    rw [hkeeps.nextMem, hkeeps.mem]
    exact hlogs.flushed m hm
  hasImm := by
    rw [hhas, himm]
    exact hlogs.hasImm

/-- A record goes to the current log file. -/
theorem LogsOk.append (hlogs : LogsOk h s) {h' : LogHistory W} (hmemOf : h'.memOf = h.memOf)
    (hflushed : h'.flushed = h.flushed) {n : Nat} (hn : s.db.logfile = some n)
    {logs : Nat → Option (List (LogRecord U V))} (hlog : ∀ n' ≠ n, logs n' = s.db.logs n')
    (hdb : t.db = { s.db with logs }) : LogsOk h' t := by
  obtain rfl := hlogs.logfile n hn
  refine ⟨?_, ?_, fun n' records hrecords hne hnot => ?_, ?_, ?_⟩
  · rw [hmemOf, hdb]
    exact hlogs.paired
  · rw [hdb]
    exact hlogs.logfile
  · rw [hdb] at hrecords hnot ⊢
    rw [hmemOf, hflushed]
    exact hlogs.older n' records ((hlog n' hnot).symm.trans hrecords) hne hnot
  · rw [hflushed, hdb]
    exact hlogs.flushed
  · rw [hdb]
    exact hlogs.hasImm

/-- A switch pairs the new log file with the new memtable. -/
theorem LogsOk.switch (hlogs : LogsOk h s) (hrefs : ReferencesOk s) {o : CreateOutcome}
    {h' : LogHistory W} {number : Nat} (himm : s.db.imm = none)
    (hdb : t.db = switchMemTable cfg o s.db number)
    (hmemOf : h'.memOf = Function.update h.memOf number (some s.db.nextMem))
    (hflushed : h'.flushed = h.flushed) : LogsOk h' t := by
  obtain ⟨jobQueue, scheduled, heq⟩ := @switchMemTable_eq U V R N cfg o s.db number
  rw [heq] at hdb
  have hmem : s.db.mem < s.db.nextMem := hrefs.fresh _ s.mem_holders
  refine ⟨?_, fun n hn => ?_, fun n records hrecords hne hnot => ?_, fun m hm => ?_, ?_⟩
  · rw [hmemOf, hdb]
    exact Function.update_self _ _ _
  · rw [hdb] at hn ⊢
    dsimp only at hn ⊢
    split at hn
    · exact (Option.some.inj hn).symm
    · cases hn
  · rw [hdb] at hrecords hnot ⊢
    rw [hmemOf, hflushed]
    have hnot : n ≠ number := hnot
    rw [Function.update_of_ne hnot]
    have hrecords : s.db.logs n = some records := by
      dsimp only at hrecords
      split at hrecords
      · rwa [Function.update_of_ne hnot] at hrecords
      · exact hrecords
    by_cases hcurrent : n = s.db.logfileNumber
    · -- the log file that was the current one goes with the memtable that becomes `imm_`
      rw [hcurrent]
      exact ⟨s.db.mem, hlogs.paired, Or.inl rfl⟩
    · obtain ⟨m, hm, hwhere⟩ := hlogs.older n records hrecords hne hcurrent
      rcases hwhere with hwhere | hwhere
      · rw [himm] at hwhere
        cases hwhere
      · exact ⟨m, hm, Or.inr hwhere⟩
  · rw [hflushed] at hm
    obtain ⟨hlt, -⟩ := hlogs.flushed m hm
    rw [hdb]
    exact ⟨Nat.lt_succ_of_lt hlt, Nat.ne_of_lt hlt⟩
  · rw [hdb]
    exact iff_of_true rfl (Option.some_ne_none _)

variable [DecidableEq W]

theorem RoomThen.not_logged {size : Nat} {e : RoomExit} (hthen : RoomThen cfg calls s w size e t) :
    (t.writes w).logged? = none := by
  cases hthen with
  | sleeps room =>
    rw [setWrite_self]
    rfl
  | waits room =>
    rw [setWrite_self]
    rfl
  | leads =>
    rw [setWrite_self]
    rfl
  | returns =>
    rw [leave_self]
    rfl

theorem WriteAct.logged_ne {act : WriteAct} {x : W} (hx : x ≠ w) (logfile : Option Nat)
    (logOf : W → Option Nat) : act.logged w logfile logOf x = logOf x := by
  unfold WriteAct.logged
  split
  · exact Function.update_of_ne hx _ _
  · rfl

omit [DecidableEq W] in
theorem WriteDb.imm {db : Db U V R N} (hdb : WriteDb cfg s w db) :
    db.imm = s.db.imm ∨ s.db.imm = none := by
  cases hdb with
  | room heffect =>
    cases heffect with
    | same => exact Or.inl rfl
    | reused => exact Or.inl rfl
    | switched himm => exact Or.inr himm
  | logged => exact Or.inl rfl
  | inserted => exact Or.inl rfl
  | sequenced => exact Or.inl rfl

/-- The other calls and the jobs are not concerned. -/
theorem PairsOk.of_self (hpairs : PairsOk h s) {act : WriteAct} {h' : LogHistory W}
    (hstep : WriteStep cfg calls s w act t) (hlogs : LogsOk h' t)
    (hlogOf : h'.logOf = act.logged w s.db.logfile h.logOf)
    (hothers : t.db.logfileNumber = s.db.logfileNumber ∨ ∀ x ≠ w, (s.writes x).phase ≠ .active)
    (hself : ∀ g, (t.writes w).logged? = some g → h'.logOf w = some t.db.logfileNumber) :
    PairsOk h' t where
  logs := hlogs
  calls x g hg := by
    by_cases hx : x = w
    · subst hx
      exact hself g hg
    · have hbefore : (s.writes x).logged? = some g := by
        rw [← WriteCall.logged?_unsignalled, ← hstep.others hx, WriteCall.logged?_unsignalled, hg]
      rw [hlogOf, WriteAct.logged_ne hx, hpairs.calls x g hbefore]
      rcases hothers with heq | halone
      · rw [heq]
      · exact absurd (WriteCall.active_of_group (WriteCall.group?_of_logged hbefore)) (halone x hx)
  jobs j hj m hm := by
    obtain ⟨hdb, -, hjobs⟩ := hstep.db
    rw [hjobs] at hj
    have himm := hpairs.jobs j hj m hm
    rcases hdb.imm with heq | hnone
    · exact heq.trans himm
    · rw [hnone] at himm
      cases himm

theorem PairsOk.write (hpairs : PairsOk h s) (hq : QueueOk s) (hrefs : ReferencesOk s)
    {act : WriteAct} (hstep : WriteStep cfg calls s w act t) :
    PairsOk (h.record s (.write w act) t) t := by
  have hunique : (s.writes w).phase = .active → ∀ x ≠ w, (s.writes x).phase ≠ .active :=
    fun hw x hx hactive => hx (hq.unique hactive hw)
  have hwhole := hstep
  cases hstep with
  | joins =>
    refine hpairs.of_self hwhole (hpairs.logs.of_same (if_pos rfl) rfl (.refl s.db) rfl rfl) rfl
      (Or.inl rfl) fun g hg => ?_
    rw [setWrite_self] at hg
    cases hg
  | waits =>
    refine hpairs.of_self hwhole (hpairs.logs.of_same (if_pos rfl) rfl (.refl s.db) rfl rfl) rfl
      (Or.inl rfl) fun g hg => ?_
    rw [setWrite_self] at hg
    cases hg
  | @rooms act s₁ t room o size db e henters hmake hthen =>
    have hdb : t.db = db := hthen.keeps.1
    refine hpairs.of_self hwhole ?_ rfl (Or.inr fun x hx => henters.alone hq hx) fun g hg => ?_
    · have heffect := makeRoom_effect hmake
      rw [← hdb] at heffect
      generalize ht : t.db = db' at heffect
      cases heffect with
      | same =>
        have hmem : t.db.nextMem = s.db.nextMem := by rw [ht]
        refine hpairs.logs.of_same (if_pos hmem) rfl ?_ (by rw [ht]) (by rw [ht])
        rw [ht]
        exact .refl s.db
      | reused =>
        have hmem : t.db.nextMem = s.db.nextMem := by
          rw [ht]
          rfl
        refine hpairs.logs.of_same (if_pos hmem) rfl ?_ (by rw [ht]; rfl) (by rw [ht]; rfl)
        rw [ht]
        exact ⟨rfl, rfl, rfl, rfl, rfl⟩
      | switched himm =>
        obtain ⟨jobQueue, scheduled, heq⟩ :=
          @switchMemTable_eq U V R N cfg o s.db s.db.versions.nextFileNumber
        have hnext : t.db.nextMem = s.db.nextMem + 1 ∧ t.db.mem = s.db.nextMem ∧
            t.db.logfileNumber = s.db.versions.nextFileNumber := by
          rw [ht, heq]
          exact ⟨rfl, rfl, rfl⟩
        refine hpairs.logs.switch hrefs himm ht ?_ rfl
        have hne : ¬ t.db.nextMem = s.db.nextMem := by omega
        show (if t.db.nextMem = s.db.nextMem then _ else _) = _
        rw [if_neg hne, hnext.2.1, hnext.2.2]
    · rw [hthen.not_logged] at hg
      cases hg
  | @appends t g status hpc happend =>
    have hactive := hunique (by rw [hpc]; rfl)
    obtain ⟨n, hn, happend⟩ := Option.bind_eq_some_iff.mp happend
    obtain ⟨records, hrecords, rfl⟩ := Option.map_eq_some_iff.mp happend
    refine hpairs.of_self hwhole ?_ rfl (Or.inr hactive) fun g' _ => ?_
    · refine hpairs.logs.append (if_pos rfl) rfl hn (fun n' hn' => ?_) rfl
      split
      · exact Function.update_of_ne hn' _ _
      · rfl
    · show Function.update h.logOf w s.db.logfile w = some s.db.logfileNumber
      rw [Function.update_self, hn, hpairs.logs.logfile n hn]
  | @syncs t g status hpc hsync =>
    have hactive := hunique (by rw [hpc]; rfl)
    obtain ⟨n, -, rfl⟩ := Option.map_eq_some_iff.mp hsync
    refine hpairs.of_self hwhole (hpairs.logs.of_same (if_pos rfl) rfl (.refl s.db) rfl rfl) rfl
      (Or.inr hactive) fun g' _ => ?_
    exact hpairs.calls w g (by rw [hpc]; rfl)
  | @inserts t g m e rest hpc hinsert =>
    have hactive := hunique (by rw [hpc]; rfl)
    obtain ⟨memtables, -, rfl⟩ := Option.map_eq_some_iff.mp hinsert
    refine hpairs.of_self hwhole (hpairs.logs.of_same (if_pos rfl) rfl ⟨rfl, rfl, rfl, rfl, rfl⟩
      rfl rfl) rfl (Or.inr hactive) fun g' _ => ?_
    exact hpairs.calls w g (by rw [hpc]; rfl)
  | @ends t g m rest status hpc hend =>
    have hactive := hunique (by rw [hpc]; rfl)
    unfold System.insertEnd at hend
    split at hend
    · cases hend
    · cases hend
      refine hpairs.of_self hwhole (hpairs.logs.of_same (if_pos rfl) rfl (.refl s.db) rfl rfl) rfl
        (Or.inr hactive) fun g' hg' => ?_
      rw [setWrite_self] at hg'
      cases hg'
  | @finishes g status syncError rest hpc hwriters =>
    have hactive := hunique (by rw [hpc]; rfl)
    obtain ⟨writes, heq⟩ := finish_keeps cfg s w g status syncError rest
    have hself : ((((if syncError then s.recordError cfg status else s).setLastSequence
        g.lastSequence).leave w rest status).writes w).logged? = none := by
      rw [leave_self]
      rfl
    rw [heq] at hself hwhole ⊢
    refine hpairs.of_self hwhole (hpairs.logs.of_same (if_pos rfl) rfl ⟨rfl, rfl, rfl, rfl, rfl⟩
      rfl rfl) rfl (Or.inr hactive) fun g' hg' => ?_
    rw [hself] at hg'
    cases hg'

/-! ## Steps of readers and jobs -/

omit [DecidableEq W] in
theorem imm_endBackground (u : System U V R W N) :
    (u.endBackground cfg).db.imm = u.db.imm ∧ (u.endBackground cfg).db.hasImm = u.db.hasImm := by
  obtain ⟨db, ⟨jobQueue, scheduled, needs, rfl, -⟩, heq⟩ := endBackground_eq cfg u
  rw [heq]
  exact ⟨rfl, rfl⟩

omit [DecidableEq W] in
/-- The end of a job leaves `imm_` alone or gives it up. -/
theorem imm_jobFinish {k : Nat} {needs : Bool} (hstep : s.jobFinish cfg k needs = some t) :
    t.db.imm = s.db.imm ∧ t.db.hasImm = s.db.hasImm ∨
      t.db.imm = none ∧ t.db.hasImm = false := by
  obtain ⟨isFlush, i, o, db, -, hdb, rfl⟩ := jobFinish_eq_some hstep
  unfold System.endJob
  rw [(imm_endBackground _).1, (imm_endBackground _).2]
  cases hdb with
  | flushed => exact Or.inr ⟨rfl, rfl⟩
  | moved => exact Or.inl ⟨rfl, rfl⟩
  | fails => exact Or.inl ⟨rfl, rfl⟩

variable [Std.TransCmp cfg.version.icmp]

/-- **Only the end of a flush gives `imm_` up.** -/
theorem imm_of_step {l : Label U V W N} (hl : ∀ w act, l ≠ .write w act)
    (hfinish : ∀ k needs, l ≠ .jobFinish k needs) (hstep : System.step cfg calls s l = some t) :
    t.db.imm = s.db.imm ∧ t.db.hasImm = s.db.hasImm := by
  cases otherStep_of_step hl hstep with
  | idles => exact imm_endBackground _
  | buildFails => exact imm_endBackground _
  | @finishes k needs => exact absurd rfl (hfinish k needs)
  | _ => exact ⟨rfl, rfl⟩

/-- `imm_` is never overwritten. -/
theorem imm_kept (hq : QueueOk s) {l : Label U V W N} (hstep : System.step cfg calls s l = some t)
    {m : Nat} (himm : s.db.imm = some m) : t.db.imm = some m ∨ t.db.imm = none := by
  cases l with
  | write w act =>
    rcases (writeStep_of_write hq hstep).db.1.imm with heq | hnone
    · exact Or.inl (heq.trans himm)
    · rw [hnone] at himm
      cases himm
  | jobFinish k needs =>
    rcases imm_jobFinish hstep with ⟨heq, -⟩ | ⟨hnone, -⟩
    · exact Or.inl (heq.trans himm)
    · exact Or.inr hnone
  | _ => exact Or.inl ((imm_of_step (fun _ _ heq => by cases heq) (fun _ _ heq => by cases heq)
    hstep).1.trans himm)

/-- As long as a job runs, `imm_` is what it was. -/
theorem imm_of_running (hone : OneJob s) (hq : QueueOk s) {l : Label U V W N}
    (hstep : System.step cfg calls s l = some t) {j : Job U N} (hj : j ∈ t.jobs) {m : Nat}
    (himm : s.db.imm = some m) : t.db.imm = some m := by
  rcases l.write_or_other with ⟨w, act, rfl⟩ | hl
  · rcases (writeStep_of_write hq hstep).db.1.imm with heq | hnone
    · exact heq.trans himm
    · rw [hnone] at himm
      cases himm
  by_cases hfinish : ∃ k needs, l = .jobFinish k needs
  · obtain ⟨k, needs, rfl⟩ := hfinish
    obtain ⟨isFlush, i, o, db, hk, -, rfl⟩ := jobFinish_eq_some hstep
    rw [hone.endJob_jobs hk] at hj
    exact absurd hj List.not_mem_nil
  · exact (imm_of_step hl (fun k needs heq => hfinish ⟨k, needs, heq⟩) hstep).1.trans himm

/-- The memtable that a job writes to a table is `imm_` as long as the job runs. -/
theorem flushing_of_step (hone : OneJob s) (hq : QueueOk s)
    (hjobs : ∀ j ∈ s.jobs, ∀ m, j.flushing? = some m → s.db.imm = some m)
    {l : Label U V W N} (hstep : System.step cfg calls s l = some t) :
    ∀ j ∈ t.jobs, ∀ m, j.flushing? = some m → t.db.imm = some m := by
  intro j hj m hm
  refine imm_of_running hone hq hstep hj ?_
  cases jobs_of_step hone hq hstep j hj with
  | stays hj => exact hjobs j hj m hm
  | begins himm =>
    cases hm
    exact himm
  | moves => cases hm
  | builds hbuilding => exact hjobs _ hbuilding m hm
  | logs => cases hm
  | writes => cases hm

omit [DecidableEq W] in
/-- At the end of a flush the records of `imm_` have been flushed. -/
theorem LogsOk.finish (hlogs : LogsOk h s) (hrefs : ReferencesOk s) {h' : LogHistory W}
    (hmemOf : h'.memOf = h.memOf)
    (hflushed : h'.flushed = match s.db.imm, t.db.imm with
      | some m, none => h.flushed ++ [m]
      | _, _ => h.flushed)
    (hkeeps : KeepsLog s.db t.db)
    (himm : t.db.imm = s.db.imm ∧ t.db.hasImm = s.db.hasImm ∨
      t.db.imm = none ∧ t.db.hasImm = false) : LogsOk h' t := by
  cases hold : s.db.imm with
  | none =>
    have hnone : t.db.imm = none := by
      rcases himm with ⟨heq, -⟩ | ⟨heq, -⟩
      · exact heq.trans hold
      · exact heq
    rw [hold, hnone] at hflushed
    refine hlogs.of_same hmemOf hflushed hkeeps (hnone.trans hold.symm) ?_
    rcases himm with ⟨-, heq⟩ | ⟨-, heq⟩
    · exact heq
    · have hhas : s.db.hasImm = false := by
        rw [← Bool.not_eq_true, hlogs.hasImm]
        exact fun hne => hne hold
      exact heq.trans hhas.symm
  | some m =>
    rcases himm with ⟨heq, hhas⟩ | ⟨heq, hhas⟩
    · rw [heq, hold] at hflushed
      exact hlogs.of_same hmemOf hflushed hkeeps heq hhas
    · rw [hold, heq] at hflushed
      refine ⟨?_, ?_, fun n records hn hne hnot => ?_, fun m' hm' => ?_, ?_⟩
      · rw [hmemOf, hkeeps.logfileNumber, hkeeps.mem]
        exact hlogs.paired
      · rw [hkeeps.logfile, hkeeps.logfileNumber]
        exact hlogs.logfile
      · rw [hkeeps.logs] at hn
        rw [hkeeps.logfileNumber] at hnot
        obtain ⟨m', hm', hwhere⟩ := hlogs.older n records hn hne hnot
        rw [hmemOf, hflushed]
        refine ⟨m', hm', Or.inr ?_⟩
        rcases hwhere with hwhere | hwhere
        · rw [hold] at hwhere
          rw [Option.some.inj hwhere]
          exact List.mem_append_right _ (List.mem_singleton.mpr rfl)
        · exact List.mem_append_left _ hwhere
      · rw [hflushed] at hm'
        rw [hkeeps.nextMem, hkeeps.mem]
        rcases List.mem_append.mp hm' with hm' | hm'
        · exact hlogs.flushed m' hm'
        · rw [List.mem_singleton.mp hm']
          refine ⟨hrefs.fresh m (System.imm_holders hold), ?_⟩
          rintro rfl
          exact hrefs.apart hold
      · rw [hhas, heq]
        exact iff_of_false Bool.false_ne_true fun hne => hne rfl

theorem PairsOk.step (hpairs : PairsOk h s) (ho : Orderly s) {l : Label U V W N}
    (hstep : System.step cfg calls s l = some t) : PairsOk (h.record s l t) t := by
  rcases l.write_or_other with ⟨w, act, rfl⟩ | hl
  · exact hpairs.write ho.queue ho.references (writeStep_of_write ho.queue hstep)
  have hkeeps := keepsLog_of_step hl hstep
  have hlogOf : (h.record s l t).logOf = h.logOf := by
    cases l with
    | write w act => exact absurd rfl (hl w act)
    | _ => rfl
  refine ⟨?_, fun w g hg => ?_, flushing_of_step ho.oneJob ho.queue hpairs.jobs hstep⟩
  · by_cases hfinish : ∃ k needs, l = .jobFinish k needs
    · obtain ⟨k, needs, rfl⟩ := hfinish
      exact hpairs.logs.finish ho.references rfl rfl hkeeps (imm_jobFinish hstep)
    · have hfinish : ∀ k needs, l ≠ .jobFinish k needs := fun k needs heq => hfinish ⟨k, needs, heq⟩
      obtain ⟨himm, hhas⟩ := imm_of_step hl hfinish hstep
      have hrecord : h.record s l t = h := by
        cases l with
        | write w act => exact absurd rfl (hl w act)
        | jobFinish k needs => exact absurd rfl (hfinish k needs)
        | _ => rfl
      rw [hrecord]
      exact hpairs.logs.of_same rfl rfl hkeeps himm hhas
  · rw [← WriteCall.logged?_unsignalled, (sameQueue_of_step hl hstep).unsignalled,
      WriteCall.logged?_unsignalled] at hg
    rw [hlogOf, hkeeps.logfileNumber]
    exact hpairs.calls w g hg

/-- **Logs are retired only when their data is elsewhere.** From a database whose logs are paired
with its memtables (`LogsOk`), in every state of every run: a group goes to the log file that was
created with the memtable its entries go to; `has_imm_` tells whether `imm_` is set, and no step
overwrites `imm_`; a flush records the number of the current log file, and the records in earlier
log files are of the memtable that it writes or of one flushed before. -/
theorem logsPaired_of_run (hopened : Opened s) {h₀ : LogHistory W} (hlogs : LogsOk h₀ s)
    (run : Transition.Reaches (Transition.tracked (System.step cfg calls) LogHistory.record)
      (s, h₀) (t, h)) :
    LogsPaired h t ∧
      (∀ l u m, System.step cfg calls t l = some u → t.db.imm = some m →
        u.db.imm = some m ∨ u.db.imm = none) ∧
      ∀ k o u i, System.step cfg calls t (.jobBuilt k o) = some u →
        u.jobs[k]? = some (.logging true i o) → i.edit.logNumber = t.db.logfileNumber := by
  have hstart : PairsOk h₀ s := by
    refine ⟨hlogs, fun w g hg => ?_, ?_⟩
    · rw [hopened.writes] at hg
      cases hg
    · rw [hopened.jobs]
      exact fun j hj => absurd hj List.not_mem_nil
  obtain ⟨ho, hpairs⟩ := run.invariant (I := fun x => Orderly x.1 ∧ PairsOk x.2 x.1)
    (fun {x y l} ⟨ho, hpairs⟩ _ hstep => by
      obtain ⟨hstep, hrecord⟩ := Transition.tracked_eq_some.mp hstep
      rw [hrecord]
      exact ⟨ho.step hstep, hpairs.step ho hstep⟩) ⟨hopened.orderly, hstart⟩
  refine ⟨hpairs.paired ho.groups ho.references, fun l u m hstep => imm_kept ho.queue hstep,
    fun k o u i hstep hjob => ?_⟩
  obtain ⟨f, fileMeta, status, db, next, hk, hbuilt, hnext⟩ := jobBuilt_eq_some hstep
  have hmem := List.mem_of_getElem? hjob
  rcases hnext with ⟨i', rfl, rfl⟩ | ⟨error, -, rfl⟩
  · cases ho.oneJob.mem_set hk hmem
    exact (flushBuilt_numbers hbuilt).1
  · rw [ho.oneJob.endJob_jobs hk] at hmem
    cases hmem

end Pairs

/-- The log file 4 goes with the memtable 1. -/
def queuedHistory : LogHistory Nat := { memOf := fun n => if n = 4 then some 1 else none }

theorem queuedSystem_logsOk : LogsOk queuedHistory queuedSystem where
  paired := rfl
  logfile n hn := (Option.some.inj hn).symm
  older n records hrecords hne hnot := by
    rw [queuedSystem_logs hnot] at hrecords
    cases hrecords
  flushed m hm := absurd hm List.not_mem_nil
  hasImm := iff_of_true rfl (Option.some_ne_none 0)

/-- A call writes while the table of `imm_` is built. -/
theorem logsPaired_of_run_flush :
    ∃ t h, Transition.exec (Transition.tracked (System.step natDb flushCalls) LogHistory.record)
        [.jobStart none {}, .write 0 (.call {} 1), .write 0 (.append .OK), .jobBuild 0 {}]
        (queuedSystem, queuedHistory) = some (t, h) ∧
      h.logOf 0 = some 4 ∧ t.jobs.length = 1 ∧ LogsPaired h t := by
  obtain ⟨t, h, ht, hlogOf, hjobs⟩ : ∃ t h,
      Transition.exec (Transition.tracked (System.step natDb flushCalls) LogHistory.record)
        [.jobStart none {}, .write 0 (.call {} 1), .write 0 (.append .OK), .jobBuild 0 {}]
        (queuedSystem, queuedHistory) = some (t, h) ∧
      h.logOf 0 = some 4 ∧ t.jobs.length = 1 := ⟨_, _, rfl, rfl, rfl⟩
  exact ⟨t, h, ht, hlogOf, hjobs, (logsPaired_of_run queuedSystem_opened
    queuedSystem_logsOk (Transition.Run.of_exec ht)).1⟩

end LevelDB
