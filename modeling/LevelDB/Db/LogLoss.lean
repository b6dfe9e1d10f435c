import LevelDB.Db.AtomicMap

/-!
# What a power cut leaves of the log

A record is safe once the log file has been synced behind it. Without a background error no log file
is switched, so what a power cut leaves of the log files is a prefix of the records in the order of
the commits.

* `recordSafe`, `LogsLeft` — the records that are safe, and what a power cut leaves;
* `SafeLog` — the groups up to a point are safe, and all that were committed by a call with `sync`
  lie before it;
* `SafeLog.step` — every step keeps this;
* `synced_writes_survive` — what is left is the log of a prefix of the commits.
-/

set_option autoImplicit false

namespace LevelDB

variable {U V R W : Type} {N : Nat}

/-- `Sync` makes all records of the current log file safe. -/
def recordSafe (safe : Nat → List (LogRecord U V)) (s : System U V R W N) :
    Label U V W N → Nat → List (LogRecord U V)
  | .write _ (.sync status) =>
    match s.db.logfile with
    | some n =>
      if status = .OK then Function.update safe n ((s.db.logs n).getD []) else safe
    | none => safe
  | _ => safe

/-- The commits, and the records that are safe. -/
abbrev SafetyHistory (U V W : Type) : Type := List (Commit U V W) × (Nat → List (LogRecord U V))

def recordSafety (h : SafetyHistory U V W) (s : System U V R W N) (l : Label U V W N)
    (t : System U V R W N) : SafetyHistory U V W :=
  (recordCommits h.1 s l t, recordSafe h.2 s l)

/-- The records of the log files when the database is opened: all are safe. -/
def Db.openedLogs (db : Db U V R N) (n : Nat) : List (LogRecord U V) := (db.logs n).getD []

/-- What a power cut may leave of the log files: of each one a prefix with all safe records. -/
def LogsLeft (safe : Nat → List (LogRecord U V)) (db : Db U V R N)
    (left : Nat → List (LogRecord U V)) : Prop :=
  ∀ n, safe n <+: left n ∧ left n <+: db.openedLogs n

/-- The records that are left, in the order of the log files. -/
def Db.recordsLeft (db : Db U V R N) (left : Nat → List (LogRecord U V)) :
    List (LogRecord U V) :=
  (List.range (db.logfileNumber + 1)).flatMap left

/-- **The first `k` groups are safe**, behind the records `base` of the log file `number` of the
start; what the calls with `sync` have committed is among them. -/
structure SafeLog (calls : W → WriteRequest U V) (start : Db U V R N) (k : Nat)
    (h : SafetyHistory U V W) (s : System U V R W N) : Prop where
  number : s.db.logfileNumber = start.logfileNumber
  current : s.db.openedLogs start.logfileNumber =
    start.openedLogs start.logfileNumber ++ s.appended.map Group.record
  others : ∀ n ≠ start.logfileNumber, s.db.openedLogs n = start.openedLogs n
  safe : h.2 = Function.update start.openedLogs start.logfileNumber
    (start.openedLogs start.logfileNumber ++ (s.appended.take k).map Group.record)
  le : k ≤ s.appended.length
  committed : ∀ i c, h.1[i]? = some c → (calls c.1).sync = true → i < k
  synced : ∀ w g, (s.writes w).placing? = some g → (calls w).sync = true → k = s.appended.length

section Step

variable {cfg : DbConfig U V R N} {calls : W → WriteRequest U V} {s t : System U V R W N} {w : W}
  {start : Db U V R N} {k : Nat} {h : SafetyHistory U V W}

/-- A step that leaves the log as it is, and lets no call with `sync` pass its `Sync`. -/
theorem SafeLog.keep (hsafe : SafeLog calls start k h s) (hkeeps : KeepsLog s.db t.db)
    (happended : t.appended = s.appended)
    (hplacing : ∀ x g, (t.writes x).placing? = some g → (s.writes x).placing? ≠ none) :
    SafeLog calls start k h t where
  number := hkeeps.logfileNumber.trans hsafe.number
  current := by
    unfold Db.openedLogs
    rw [hkeeps.logs, happended]
    exact hsafe.current
  others n hn := by
    unfold Db.openedLogs
    rw [hkeeps.logs]
    exact hsafe.others n hn
  safe := by
    rw [happended]
    exact hsafe.safe
  le := by
    rw [happended]
    exact hsafe.le
  committed := hsafe.committed
  synced x g hg hsync := by
    obtain ⟨g', hg'⟩ := Option.ne_none_iff_exists'.mp (hplacing x g hg)
    rw [happended]
    exact hsafe.synced x g' hg' hsync

variable [DecidableEq W]

/-- The step of one call, which is not past its `Sync` or was before. -/
theorem SafeLog.keep_of_self (hsafe : SafeLog calls start k h s) (hkeeps : KeepsLog s.db t.db)
    (happended : t.appended = s.appended)
    (hothers : ∀ x ≠ w, (t.writes x).unsignalled = (s.writes x).unsignalled)
    (hself : ∀ g, (t.writes w).placing? = some g → (s.writes w).placing? ≠ none) :
    SafeLog calls start k h t := by
  refine hsafe.keep hkeeps happended fun x g hg => ?_
  by_cases hx : x = w
  · exact hx ▸ hself g (hx ▸ hg)
  · rw [← WriteCall.placing?_unsignalled, hothers x hx, WriteCall.placing?_unsignalled] at hg
    rw [hg]
    nofun

/-- The record of a group comes behind all others, and is not safe. -/
theorem SafeLog.append (hok : cfg.ok = Status.isOK) (hsafe : SafeLog calls start k h s)
    (hlogfile : ∀ n, s.db.logfile = some n → n = s.db.logfileNumber) (hq : QueueOk s)
    {g : Group U V W} {status : Status} (hpc : s.writes w = .appending g)
    (happend : s.logAppend cfg calls w g status = some t) : SafeLog calls start k h t := by
  have hactive : (s.writes w).phase = .active := by rw [hpc]; rfl
  obtain ⟨n, hn, happend⟩ := Option.bind_eq_some_iff.mp happend
  obtain ⟨records, hrecords, rfl⟩ := Option.map_eq_some_iff.mp happend
  obtain rfl := (hlogfile n hn).trans hsafe.number
  by_cases hstatus : status = .OK
  · subst hstatus
    have hopened : s.db.openedLogs start.logfileNumber = records := by
      unfold Db.openedLogs
      rw [hrecords]
      rfl
    refine ⟨hsafe.number, ?_, fun n hn => ?_, ?_, ?_, hsafe.committed, fun x g' hg' hsync => ?_⟩
    · show (Function.update s.db.logs start.logfileNumber (some (records ++ [g.record]))
        start.logfileNumber).getD [] = _ ++ (s.appended ++ [g]).map Group.record
      rw [Function.update_self, List.map_append, ← List.append_assoc, ← hsafe.current, hopened]
      rfl
    · show (Function.update s.db.logs start.logfileNumber (some (records ++ [g.record]))
        n).getD [] = _
      rw [Function.update_of_ne hn]
      exact hsafe.others n hn
    · show h.2 = Function.update start.openedLogs start.logfileNumber
        (_ ++ ((s.appended ++ [g]).take k).map Group.record)
      rw [List.take_append_of_le_length hsafe.le]
      exact hsafe.safe
    · show k ≤ (s.appended ++ [g]).length
      rw [List.length_append]
      exact Nat.le_add_right_of_le hsafe.le
    · -- with `sync` the group is not past its `Sync`, and no other group is in progress
      by_cases hx : x = w
      · subst hx
        rw [setWrite_self, hok, if_pos (Status.isOK_iff.mpr rfl), if_pos hsync] at hg'
        cases hg'
      · rw [setWrite_ne hx] at hg'
        exact absurd (hq.unique (WriteCall.active_of_group (WriteCall.group?_of_placing hg'))
          hactive) hx
  · refine hsafe.keep_of_self ⟨rfl, rfl, rfl, rfl, if_neg hstatus⟩ (if_neg hstatus)
      (fun x hx => by rw [setWrite_ne hx]) fun g' hg' => ?_
    rw [setWrite_self, hok, if_neg fun hisOK => hstatus (Status.isOK_iff.mp hisOK)] at hg'
    have hg' : (if status = .OK then some g else none) = some g' := hg'
    rw [if_neg hstatus] at hg'
    cases hg'

/-- **A successful `Sync` makes all groups safe.** -/
theorem SafeLog.sync (hsafe : SafeLog calls start k h s)
    (hlogfile : ∀ n, s.db.logfile = some n → n = s.db.logfileNumber) {g : Group U V W}
    (hsync : s.logSync cfg w g .OK = some t) :
    SafeLog calls start s.appended.length
      (recordSafety h s (.write w (.sync .OK) : Label U V W N) t) t := by
  obtain ⟨n, hn, rfl⟩ := Option.map_eq_some_iff.mp hsync
  obtain rfl := (hlogfile n hn).trans hsafe.number
  refine ⟨hsafe.number, hsafe.current, hsafe.others, ?_, le_refl _, fun i c hc hcsync => ?_,
    fun x g' _ _ => rfl⟩
  · show recordSafe h.2 s (.write w (.sync .OK)) = Function.update start.openedLogs
      start.logfileNumber (_ ++ (s.appended.take s.appended.length).map Group.record)
    unfold recordSafe
    dsimp only
    rw [hn, List.take_length, ← hsafe.current, hsafe.safe]
    dsimp only
    rw [if_pos rfl, Function.update_idem]
    rfl
  · have hc : (recordCommits h.1 s (.write w (.sync .OK) : Label U V W N) s)[i]? = some c := hc
    unfold recordCommits at hc
    rw [committing_of_ne (fun x heq => by cases heq), List.append_nil] at hc
    exact Nat.lt_of_lt_of_le (hsafe.committed i c hc hcsync) hsafe.le

omit [DecidableEq W] in
theorem recordSafety_of_ne {l : Label U V W N} (hfinish : ∀ x, l ≠ .write x .finish)
    (hsync : ∀ x status, l ≠ .write x (.sync status)) : recordSafety h s l t = h := by
  unfold recordSafety recordCommits
  rw [committing_of_ne hfinish, List.append_nil]
  refine Prod.ext rfl ?_
  unfold recordSafe
  split
  · exact absurd rfl (hsync _ _)
  · rfl

/-- **A leader returns**, which may commit its group. -/
theorem SafeLog.finish (hsafe : SafeLog calls start k h s) (hexact : LogExact h.1 s)
    {g : Group U V W} {status : Status} {syncError : Bool}
    (hpc : s.writes w = .relocking g status syncError)
    (hkeeps : KeepsLog s.db t.db) (happended : t.appended = s.appended)
    (hothers : ∀ x ≠ w, (t.writes x).unsignalled = (s.writes x).unsignalled)
    (hself : (t.writes w).placing? = none) :
    SafeLog calls start k (recordSafety h s (.write w .finish : Label U V W N) t) t := by
  have hkept := hsafe.keep_of_self hkeeps happended hothers fun g' hg' => by
    rw [hself] at hg'
    cases hg'
  refine ⟨hkept.number, hkept.current, hkept.others, hkept.safe, hkept.le, fun i c hc hsync => ?_,
    hkept.synced⟩
  have hc : (h.1 ++ s.committing (.write w .finish : Label U V W N))[i]? = some c := hc
  by_cases hi : i < h.1.length
  · rw [List.getElem?_append_left hi] at hc
    exact hsafe.committed i c hc hsync
  · -- the group that is committed now was synced behind all others
    rw [List.getElem?_append_right (Nat.le_of_not_lt hi)] at hc
    have hmem := List.mem_of_getElem? hc
    obtain ⟨g', hg', rfl⟩ := List.mem_map.mp hmem
    have hplacing : (s.writes w).placing? = some g' := Option.mem_toList.mp hg'
    have hrecorded : (s.writes w).recorded? = some g' := by
      rw [hpc] at hplacing ⊢
      exact hplacing
    rw [hsafe.synced w g' hplacing hsync, hexact.busy w g' hrecorded, List.length_append,
      List.length_map]
    have hlength : (s.committing (.write w .finish : Label U V W N)).length ≤ 1 := by
      show ((s.writes w).placing?.toList.map _).length ≤ 1
      rw [hplacing]
      exact le_refl _
    have hlt := (List.getElem?_eq_some_iff.mp hc).1
    show i < h.1.length + 1
    omega

/-- **Every step keeps it**, as long as no `Sync` fails and there is no background error. -/
theorem SafeLog.step [Std.TransCmp cfg.version.icmp] (hok : cfg.ok = Status.isOK)
    (hrecords : cfg.RecordsFirst) (hsafe : SafeLog calls start k h s) (hexact : LogExact h.1 s)
    (hlogfile : ∀ n, s.db.logfile = some n → n = s.db.logfileNumber) (hq : QueueOk s)
    {l : Label U V W N} (hfollows : l.followsLog = true)
    (hstep : System.step cfg calls s l = some t) (hgood : cfg.ok t.db.bgError = true) :
    ∃ k', SafeLog calls start k' (recordSafety h s l t) t := by
  have hgood := good_of_step hok hrecords hq hstep hgood
  rcases l.write_or_other with ⟨w, act, rfl⟩ | hl
  · have hwrite := writeStep_of_write hq hstep
    have hothers : ∀ x ≠ w, (t.writes x).unsignalled = (s.writes x).unsignalled :=
      fun x hx => hwrite.others hx
    have hsame : act ≠ .finish → (∀ status, act ≠ .sync status) → SafeLog calls start k h t →
        ∃ k', SafeLog calls start k' (recordSafety h s (.write w act : Label U V W N) t) t := by
      intro hfinish hsync hkept
      rw [recordSafety_of_ne (fun x heq => hfinish (by cases heq; rfl))
        (fun x status heq => hsync status (by cases heq; rfl))]
      exact ⟨k, hkept⟩
    cases hwrite with
    | joins hpc =>
      refine hsame (by simp) (by simp) (hsafe.keep_of_self (.refl _) rfl hothers fun g hg => ?_)
      rw [setWrite_self] at hg
      cases hg
    | waits hpc =>
      refine hsame (by simp) (by simp) (hsafe.keep_of_self (.refl _) rfl hothers fun g hg => ?_)
      rw [setWrite_self] at hg
      cases hg
    | @rooms act s₁ t room o size db e henters hmake hthen =>
      rw [makeRoom_good hgood] at hmake
      obtain ⟨rfl, rfl⟩ := Prod.mk.inj (Option.some.inj hmake)
      have hkeeps : KeepsLog s.db t.db := by
        rw [hthen.keeps.1]
        exact .refl _
      have hnone : (t.writes w).placing? = none := by
        cases hthen with
        | leads => rw [setWrite_self]; rfl
        | returns => rw [leave_self]; rfl
      have hkept := hsafe.keep_of_self hkeeps (hthen.keeps.2.2.2.1.trans henters.keeps.2.2.1)
        hothers fun g hg => by
          rw [hnone] at hg
          cases hg
      cases henters with
      | _ => exact hsame (by simp) (by simp) hkept
    | appends hpc happend =>
      exact hsame (by simp) (by simp) (hsafe.append hok hlogfile hq hpc happend)
    | @syncs t g status hpc hsync =>
      obtain rfl : status = .OK := by simpa [Label.followsLog] using hfollows
      exact ⟨_, hsafe.sync hlogfile hsync⟩
    | inserts hpc hinsert =>
      obtain ⟨memtables, -, rfl⟩ := Option.map_eq_some_iff.mp hinsert
      refine hsame (by simp) (by simp)
          (hsafe.keep_of_self ⟨rfl, rfl, rfl, rfl, rfl⟩ rfl hothers ?_)
      rw [hpc]
      exact fun _ _ => Option.some_ne_none _
    | ends hpc hend =>
      unfold System.insertEnd at hend
      split at hend
      · cases hend
      · cases hend
        refine hsame (by simp) (by simp)
          (hsafe.keep_of_self ⟨rfl, rfl, rfl, rfl, rfl⟩ rfl hothers ?_)
        rw [hpc]
        exact fun _ _ => Option.some_ne_none _
    | @finishes g status syncError rest hpc hwriters =>
      obtain ⟨writes, heq⟩ := finish_keeps cfg s w g status syncError rest
      refine ⟨k, hsafe.finish hexact hpc ?_ ?_ hothers ?_⟩
      · rw [heq]
        exact ⟨rfl, rfl, rfl, rfl, rfl⟩
      · rw [heq]
      · rw [leave_self]
        rfl
  · have hsame := sameQueue_of_step hl hstep
    rw [recordSafety_of_ne (fun x => hl x .finish) fun x status => hl x (.sync status)]
    refine ⟨k, hsafe.keep (keepsLog_of_step hl hstep) hsame.appended fun x g hg => ?_⟩
    rw [← WriteCall.placing?_unsignalled, hsame.unsignalled, WriteCall.placing?_unsignalled] at hg
    rw [hg]
    exact Option.some_ne_none g

/-! ## Every run -/

omit [DecidableEq W] in
theorem SafeLog.opened (hopened : Opened s) :
    SafeLog calls s.db 0 (([], s.db.openedLogs) : SafetyHistory U V W) s where
  number := rfl
  current := by
    rw [hopened.appended]
    exact (List.append_nil _).symm
  others _ _ := rfl
  safe := by
    rw [hopened.appended]
    show s.db.openedLogs = Function.update s.db.openedLogs _ (s.db.openedLogs _ ++ [])
    rw [List.append_nil, Function.update_eq_self]
  le := Nat.zero_le _
  committed i c hc := by cases hc
  synced w g hg := by
    rw [hopened.writes] at hg
    cases hg

omit [DecidableEq W] in
/-- What is left of the log files holds the records of the first groups, at least of those that are
safe. -/
theorem SafeLog.left (hsafe : SafeLog calls start k h s) {left : Nat → List (LogRecord U V)}
    (hleft : LogsLeft h.2 s.db left) :
    ∃ j, k ≤ j ∧ s.db.recordsLeft left =
      start.logRecords ++ (s.appended.take j).map Group.record := by
  have hothers : ∀ n < start.logfileNumber, left n = start.openedLogs n := by
    intro n hn
    obtain ⟨hge, hle⟩ := hleft n
    rw [hsafe.safe, Function.update_of_ne (Nat.ne_of_lt hn)] at hge
    rw [hsafe.others n (Nat.ne_of_lt hn)] at hle
    exact hle.eq_of_length_le hge.length_le
  obtain ⟨hge, hle⟩ := hleft start.logfileNumber
  rw [hsafe.safe, Function.update_self] at hge
  rw [hsafe.current] at hle
  have hbase : (start.openedLogs start.logfileNumber).length ≤ (left start.logfileNumber).length :=
    ((List.prefix_append _ _).trans hge).length_le
  refine ⟨(left start.logfileNumber).length - (start.openedLogs start.logfileNumber).length, ?_, ?_⟩
  · have hlength := hge.length_le
    rw [List.length_append, List.length_map, List.length_take, Nat.min_eq_left hsafe.le] at hlength
    omega
  · have hcurrent : left start.logfileNumber = start.openedLogs start.logfileNumber ++
        (s.appended.take ((left start.logfileNumber).length -
          (start.openedLogs start.logfileNumber).length)).map Group.record := by
      have htake := List.prefix_iff_eq_take.mp hle
      rw [List.take_append, List.take_of_length_le hbase, ← List.map_take] at htake
      exact htake
    show (List.range (s.db.logfileNumber + 1)).flatMap left =
      (List.range (start.logfileNumber + 1)).flatMap start.openedLogs ++ _
    rw [hsafe.number, List.range_succ, List.flatMap_append, List.flatMap_append,
      List.flatMap_singleton, List.flatMap_singleton, flatMap_range_congr hothers,
      List.append_assoc, ← hcurrent]

/-- **A power cut leaves the log of a prefix of the commits.** In every run in which no `Sync` has
failed and there is no background error, whatever records are lost that have not been synced: those
that are left are the records of the start, then those of the first groups that were committed, and
at most one more, of the group in progress behind all of them. Replaying them gives what the groups
make of the replay of the start's records. Every call with `sync` that has returned OK is among the
groups. -/
theorem synced_writes_survive [Std.TransCmp cfg.version.icmp] (hok : cfg.ok = Status.isOK)
    (hrecords : cfg.RecordsFirst) (hreuses : cfg.ReusesLast) (hopened : Opened s)
    (hbelow : s.db.logfileNumber < s.db.versions.nextFileNumber)
    (hlast : ∀ n, s.db.logs n ≠ none → n ≤ s.db.logfileNumber)
    (hlogfile : ∀ n, s.db.logfile = some n → n = s.db.logfileNumber)
    {commits : List (Commit U V W)} {safe left : Nat → List (LogRecord U V)}
    (run : Transition.Run (Transition.tracked (System.step cfg calls) recordSafety)
      (fun _ l => l.followsLog = true) (s, ([], s.db.openedLogs)) (t, (commits, safe)))
    (hgood : cfg.ok t.db.bgError = true) (hleft : LogsLeft safe t.db left) :
    ∃ survived pending, t.db.recordsLeft left =
        s.db.logRecords ++ (survived.map Prod.snd).map Group.record ++ pending ∧
      survived <+: commits ∧ pending.length ≤ 1 ∧ (pending ≠ [] → survived = commits) ∧
      (∀ [DecidableEq U] (m : U → Option V), applyRecords m (t.db.recordsLeft left) =
        applyRecords (applyCommits (applyRecords m s.db.logRecords) survived) pending) ∧
      ∀ w, (calls w).sync = true → (calls w).updates.isSome → t.writes w = .returned .OK →
        w ∈ survived.map Prod.fst := by
  obtain ⟨-, hcommits, -, hexact, hsafe⟩ := run.invariant
    (I := fun x => QueueOk x.1 ∧ CommitsOk calls x.2.1 x.1 ∧ LogOrder s.db.logRecords x.1 ∧
      LogExact x.2.1 x.1 ∧ (cfg.ok x.1.db.bgError = true → ∃ k, SafeLog calls s.db k x.2 x.1))
    (fun {x y l} ⟨hq, hc, ho, he, hs⟩ hmeets hstep => by
      obtain ⟨hstep, hrecord⟩ := Transition.tracked_eq_some.mp hstep
      rw [hrecord]
      refine ⟨hq.step hstep, hc.step hok hq hstep, ho.step hq hreuses hstep,
        he.step hok hq hmeets hstep, fun hgood => ?_⟩
      obtain ⟨k, hs⟩ := hs (good_of_step hok hrecords hq hstep hgood)
      exact hs.step hok hrecords he ho.logfile hq hmeets hstep hgood)
    ⟨hopened.consistent.queue, hopened.commitsOk, hopened.logOrder hbelow hlast hlogfile,
      hopened.logExact, fun _ => ⟨0, .opened hopened⟩⟩
  obtain ⟨k, hsafe⟩ := hsafe hgood
  obtain ⟨j, hle, hrecordsLeft⟩ := hsafe.left hleft
  obtain ⟨pending, happended, hpending, -⟩ := hexact.pending
  have hsplit : t.db.recordsLeft left =
      s.db.logRecords ++ ((commits.take j).map Prod.snd).map Group.record ++
        (pending.take (j - commits.length)).map Group.record := by
    have happended : t.appended = commits.map Prod.snd ++ pending := happended
    rw [hrecordsLeft, happended, List.take_append, List.length_map, List.map_append,
      ← List.append_assoc, ← List.map_take]
  refine ⟨commits.take j, (pending.take (j - commits.length)).map Group.record, hsplit,
    List.take_prefix j commits, ?_, fun hne => ?_, fun m => ?_,
    fun w hsync hupdates hreturned => ?_⟩
  · rw [List.length_map, List.length_take]
    exact Nat.le_trans (Nat.min_le_right _ _) hpending
  · refine List.take_of_length_le ?_
    by_contra hlt
    refine hne ?_
    rw [Nat.sub_eq_zero_of_le (Nat.le_of_lt (Nat.lt_of_not_le hlt))]
    rfl
  · rw [hsplit, applyRecords_append, applyRecords_append, applyRecords_commits]
  · obtain ⟨c, hc, rfl⟩ := List.mem_map.mp ((hcommits.returned w hupdates).mp hreturned)
    obtain ⟨i, hi⟩ := List.mem_iff_getElem?.mp hc
    have hlt := Nat.lt_of_lt_of_le (hsafe.committed i c hi hsync) hle
    refine List.mem_map.mpr ⟨c, List.mem_of_getElem? (i := i) ?_, rfl⟩
    rw [List.getElem?_take_of_lt hlt]
    exact hi

end Step

/-! ## A synced write and one that is not -/

/-- Call 0 asks for `sync`, the others do not. -/
def syncCalls (w : Nat) : WriteRequest Nat Nat := WriteRequest.put (w == 0) 7 (71 + w)

def syncRun : List (Label Nat Nat Nat 2) :=
  [.write 0 (.call {} 1), .write 0 (.append .OK), .write 0 (.sync .OK), .write 0 .insert,
    .write 0 (.insertEnd .OK), .write 0 .finish, .write 1 (.call {} 1), .write 1 (.append .OK),
    .write 1 .insert, .write 1 (.insertEnd .OK), .write 1 .finish]

/-- Both calls have returned OK, and the record of the second one is lost. -/
theorem synced_writes_survive_lost :
    ∃ t commits safe, Transition.exec (fun x l => if Label.followsLog l then
        Transition.tracked (System.step natDb syncCalls) recordSafety x l else none) syncRun
        (tableSystem, ([], tableSystem.db.openedLogs)) = some (t, (commits, safe)) ∧
      t.writes 0 = .returned .OK ∧ t.writes 1 = .returned .OK ∧ commits.length = 2 ∧
      LogsLeft safe t.db safe ∧ ∃ survived pending, t.db.recordsLeft safe =
          tableSystem.db.logRecords ++ (survived.map Prod.snd).map Group.record ++ pending ∧
        survived <+: commits ∧ pending.length ≤ 1 ∧ (pending ≠ [] → survived = commits) ∧
        (∀ [DecidableEq Nat] (m : Nat → Option Nat), applyRecords m (t.db.recordsLeft safe) =
          applyRecords (applyCommits (applyRecords m tableSystem.db.logRecords) survived)
            pending) ∧
        ∀ w, (syncCalls w).sync = true → (syncCalls w).updates.isSome →
          t.writes w = .returned .OK → w ∈ survived.map Prod.fst := by
  let first : LogRecord Nat Nat := { sequence := 2, ops := [⟨.value, 7, 71⟩] }
  let second : LogRecord Nat Nat := { sequence := 3, ops := [⟨.value, 7, 72⟩] }
  obtain ⟨t, commits, safe, ht, h₀, h₁, hlength, hgood, hsafe, hlogs⟩ : ∃ t commits safe,
      Transition.exec (fun x l => if Label.followsLog l then
        Transition.tracked (System.step natDb syncCalls) recordSafety x l else none) syncRun
        (tableSystem, ([], tableSystem.db.openedLogs)) = some (t, (commits, safe)) ∧
      t.writes 0 = .returned .OK ∧ t.writes 1 = .returned .OK ∧ commits.length = 2 ∧
      natDb.ok t.db.bgError = true ∧ safe = Function.update tableSystem.db.openedLogs 4 [first] ∧
      t.db.logs = Function.update (Function.update tableSystem.db.logs 4 (some [first])) 4
        (some [first, second]) :=
    ⟨_, _, _, rfl, rfl, rfl, rfl, rfl, rfl, rfl⟩
  have hleft : LogsLeft safe t.db safe := by
    intro n
    refine ⟨List.prefix_rfl, ?_⟩
    unfold Db.openedLogs
    rw [hsafe, hlogs]
    by_cases hn : n = 4
    · rw [hn, Function.update_self, Function.update_self]
      exact ⟨[second], rfl⟩
    · rw [Function.update_of_ne hn, Function.update_of_ne hn, Function.update_of_ne hn]
      exact List.prefix_rfl
  exact ⟨t, commits, safe, ht, h₀, h₁, hlength, hleft,
    synced_writes_survive rfl natDb_records natDb_reuses tableSystem_opened tableSystem_below
      tableSystem_last tableSystem_logfile
      (Transition.Run.of_checked (fun _ _ h => h) ht) hgood hleft⟩

end LevelDB
