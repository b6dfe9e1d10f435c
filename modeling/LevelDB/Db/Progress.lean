import LevelDB.Db.Discipline
import LevelDB.Db.ExactlyOnce
import LevelDB.Db.Logs
import LevelDB.Db.Retained
import LevelDB.Lib.Ranking
import Mathlib.Algebra.Ring.Nat

/-!
# Every call returns

Without a background error no call waits in `MakeRoomForWrite`, and the front of the queue has been
signalled. So whatever the scheduler does, the calls that have started return after a number of
steps that is known in advance.

* `System.left` — the rank: what the calls in the queue and the calls of `Get` have left to do;
* `lowers_of_step` — their own steps lower it, and the steps of background jobs leave it;
* `exists_step` — as long as a call has not returned, one of them has a step to take;
* `calls_return` — both, in every run.
-/

set_option autoImplicit false

namespace LevelDB

variable {U V R W : Type} {N : Nat}

/-! ## The rank -/

/-- No call starts, and a writer in the queue wakes up only after a signal. -/
def System.goesOn (s : System U V R W N) : Label U V W N → Bool
  | .write _ (.call _ _) => false
  | .write w (.wake _ _) =>
    match s.writes w with
    | .waiting signalled => signalled
    | _ => true
  | .getCall _ _ => false
  | _ => true

/-- A step of a call of `Write` or `Get`. -/
def Label.ofCalls : Label U V W N → Bool
  | .write _ _ => true
  | .getRead _ => true
  | .getFinish _ _ _ => true
  | _ => false

/-- How many steps a call of `Write` has left at most, when the batches of its group have `n`
operations; one of them is the signal for the next call. -/
def WriteCall.left (n : Nat) : WriteCall U V W → Nat
  | .idle => 0
  | .waiting false => n + 6
  | .waiting true => n + 7
  | .sleeping _ => n + 7
  | .roomWaiting _ _ => n + 7
  | .appending g => g.ops.length + 5
  | .syncing g => g.ops.length + 4
  | .inserting _ _ rest => rest.length + 3
  | .relocking _ _ _ => 2
  | .returned _ => 0

/-- The operations that the calls ask for. -/
def batchOps (calls : W → WriteRequest U V) (writers : List W) : List (BatchOp U V) :=
  writers.flatMap fun w => (calls w).batch

/-- A call may take the batches of all calls behind it into its group. -/
def queueLeft (calls : W → WriteRequest U V) (writes : W → WriteCall U V W) : List W → Nat
  | [] => 0
  | w :: rest =>
    (writes w).left (batchOps calls (w :: rest)).length + queueLeft calls writes rest

def GetCall.left (cfg : DbConfig U V R N) (g : GetCall U V N) : Nat :=
  g.pc.left (cfg.forEachOverlapping g.current g.lookup).length

/-- What all calls have left. -/
def System.left (cfg : DbConfig U V R N) (calls : W → WriteRequest U V)
    (s : System U V R W N) : Nat :=
  queueLeft calls s.writes s.writers + (s.gets.map (GetCall.left cfg)).sum

/-- No call is in progress. -/
structure System.Quiet (s : System U V R W N) : Prop where
  writes : ∀ w, s.writes w = .idle ∨ ∃ status, s.writes w = .returned status
  gets : ∀ g ∈ s.gets, g.active = false

namespace WriteCall

theorem left_signal (pc : WriteCall U V W) (n : Nat) : pc.signal.left n ≤ pc.left n + 1 := by
  cases pc with
  | waiting b =>
    cases b
    · exact le_refl _
    · exact Nat.le_succ _
  | _ => exact Nat.le_succ _

theorem left_signalRoom (pc : WriteCall U V W) (n : Nat) : pc.signalRoom.left n = pc.left n := by
  cases pc <;> rfl

end WriteCall

section Rank

variable {calls : W → WriteRequest U V} {writes writes' : W → WriteCall U V W} {w : W}
  {writers rest : List W}

theorem queueLeft_congr (h : ∀ w ∈ writers, ∀ n, (writes' w).left n = (writes w).left n) :
    queueLeft calls writes' writers = queueLeft calls writes writers := by
  induction writers with
  | nil => rfl
  | cons x rest ih =>
    unfold queueLeft
    rw [h x List.mem_cons_self, ih fun w hw => h w (List.mem_cons_of_mem _ hw)]

/-- A step of one call in the queue. -/
theorem queueLeft_lt (hnodup : writers.Nodup) (hw : w ∈ writers)
    (hothers : ∀ x ∈ writers, x ≠ w → writes' x = writes x)
    (hlt : ∀ n, (writes' w).left n < (writes w).left n) :
    queueLeft calls writes' writers < queueLeft calls writes writers := by
  induction writers with
  | nil => exact absurd hw List.not_mem_nil
  | cons x rest ih =>
    obtain ⟨hx, hnodup⟩ := List.nodup_cons.mp hnodup
    unfold queueLeft
    by_cases heq : x = w
    · subst heq
      have hrest := @queueLeft_congr U V W calls writes writes' rest fun y hy n => by
        rw [hothers y (List.mem_cons_of_mem _ hy) fun heq => hx (heq ▸ hy)]
      have hself := hlt (batchOps calls (x :: rest)).length
      omega
    · have hin : w ∈ rest := (List.mem_cons.mp hw).resolve_left (Ne.symm heq)
      have hless := ih hnodup hin fun y hy => hothers y (List.mem_cons_of_mem _ hy)
      rw [hothers x List.mem_cons_self heq]
      omega

/-- A step of the front of the queue. -/
theorem queueLeft_front (hw : w ∉ rest) (hothers : ∀ x ∈ rest, x ≠ w → writes' x = writes x)
    (hlt : (writes' w).left (batchOps calls (w :: rest)).length <
      (writes w).left (batchOps calls (w :: rest)).length) :
    queueLeft calls writes' (w :: rest) < queueLeft calls writes (w :: rest) := by
  have hrest := @queueLeft_congr U V W calls writes writes' rest fun y hy n => by
    rw [hothers y hy fun heq => hw (heq ▸ hy)]
  unfold queueLeft
  omega

/-- A signal to the front of the queue. -/
theorem queueLeft_signal [DecidableEq W] (s : System U V R W N) (hnodup : s.writers.Nodup) :
    queueLeft calls s.signalFront.writes s.writers ≤ queueLeft calls s.writes s.writers + 1 := by
  unfold System.signalFront System.setWrite
  cases hwriters : s.writers with
  | nil => exact Nat.zero_le _
  | cons x rest =>
    rw [hwriters] at hnodup
    obtain ⟨hx, -⟩ := List.nodup_cons.mp hnodup
    have hrest := @queueLeft_congr U V W calls s.writes
      (Function.update s.writes x (s.writes x).signal) rest fun y hy n => by
        have hne : y ≠ x := fun heq => hx (heq ▸ hy)
        rw [Function.update_of_ne hne]
    have hself := (s.writes x).left_signal (batchOps calls (x :: rest)).length
    unfold queueLeft
    dsimp only
    rw [hrest, Function.update_self]
    omega

theorem sum_set_lt {X : Type} {f : X → Nat} {l : List X} {i : Nat} {a b : X} (h : l[i]? = some a)
    (hlt : f b < f a) : ((l.set i b).map f).sum < (l.map f).sum := by
  induction l generalizing i with
  | nil => cases h
  | cons x l ih =>
    cases i with
    | zero =>
      obtain rfl := Option.some.inj h
      simp only [List.set_cons_zero, List.map_cons, List.sum_cons]
      omega
    | succ i =>
      have hless := ih (i := i) h
      simp only [List.set_cons_succ, List.map_cons, List.sum_cons]
      omega

end Rank

/-! ## What a step does to the rank -/

section Step

variable {cfg : DbConfig U V R N} {calls : W → WriteRequest U V} {s t : System U V R W N} {w : W}

theorem left_congr (hwriters : t.writers = s.writers) (hgets : t.gets = s.gets)
    (hwrites : ∀ x n, (t.writes x).left n = (s.writes x).left n) :
    t.left cfg calls = s.left cfg calls := by
  unfold System.left
  rw [hwriters, hgets, queueLeft_congr fun x _ => hwrites x]

/-- A step of one call in the queue. -/
theorem left_lt_of_self (hq : QueueOk s) (hw : w ∈ s.writers) (hwriters : t.writers = s.writers)
    (hgets : t.gets = s.gets) (hothers : ∀ x ≠ w, t.writes x = s.writes x)
    (hlt : ∀ n, (t.writes w).left n < (s.writes w).left n) :
    t.left cfg calls < s.left cfg calls := by
  have hless := @queueLeft_lt U V W calls s.writes t.writes w s.writers hq.nodup hw
    (fun x _ => hothers x) hlt
  unfold System.left
  rw [hwriters, hgets]
  omega

theorem length_batchEntries : ∀ (n : Nat) (ops : List (BatchOp U V)),
    (batchEntries n ops).length = ops.length
  | _, [] => rfl
  | n, _ :: ops => congrArg Nat.succ (length_batchEntries (n + 1) ops)

theorem Group.length_entries (g : Group U V W) : g.entries.length = g.ops.length :=
  length_batchEntries g.sequence g.ops

theorem goesOn_wake {o : CreateOutcome} {size : Nat} {b : Bool} (hpc : s.writes w = .waiting b)
    (h : s.goesOn (.write w (.wake o size)) = true) : b = true := by
  have h : (match s.writes w with
    | .waiting signalled => signalled
    | _ => true) = true := h
  rw [hpc] at h
  exact h

theorem batchOps_take_le (writers : List W) (size : Nat) :
    (batchOps calls (writers.take size)).length ≤ (batchOps calls writers).length := by
  have hsplit : batchOps calls writers =
      batchOps calls (writers.take size) ++ batchOps calls (writers.drop size) := by
    unfold batchOps
    rw [← List.flatMap_append, List.take_append_drop]
  rw [hsplit, List.length_append]
  exact Nat.le_add_right _ _

variable [DecidableEq W]

/-- The front leaves the queue and signals the next call. -/
theorem left_leave {rest : List W} (hnodup : s.writers.Nodup) (hwriters : s.writers = w :: rest)
    (hleft : ∀ n, 2 ≤ (s.writes w).left n) (status : Status) :
    (s.leave w rest status).left cfg calls < s.left cfg calls := by
  rw [hwriters] at hnodup
  obtain ⟨hw, hnodup⟩ := List.nodup_cons.mp hnodup
  have hsignal : queueLeft calls
      ({ s with writers := rest } : System U V R W N).signalFront.writes rest ≤
        queueLeft calls s.writes rest + 1 := queueLeft_signal { s with writers := rest } hnodup
  have hself := hleft (batchOps calls (w :: rest)).length
  have hqueue : queueLeft calls (s.leave w rest status).writes rest =
      queueLeft calls ({ s with writers := rest } : System U V R W N).signalFront.writes rest := by
    refine queueLeft_congr fun x hx n => ?_
    have hne : x ≠ w := fun heq => hw (heq ▸ hx)
    unfold System.leave
    rw [setWrite_ne hne]
  have hsum : queueLeft calls (s.leave w rest status).writes rest <
      queueLeft calls s.writes (w :: rest) := by
    rw [hqueue]
    refine Nat.lt_of_le_of_lt hsignal ?_
    show _ < (s.writes w).left (batchOps calls (w :: rest)).length + queueLeft calls s.writes rest
    omega
  unfold System.left
  rw [hwriters, leave_eq]
  dsimp only
  omega

omit [DecidableEq W] in
/-- How a call comes to the loop when no call starts. -/
theorem EntersRoom.goes {act : WriteAct} {s₁ : System U V R W N} {room : Room} {o : CreateOutcome}
    {size : Nat} (h : EntersRoom calls s w act s₁ room o size) (hq : QueueOk s)
    (hgoes : s.goesOn (.write w act) = true) :
    s₁ = s ∧ (∃ rest, s.writers = w :: rest) ∧ ∀ n, (s.writes w).left n = n + 7 := by
  cases h with
  | called => cases hgoes
  | @woken o size b rest hpc hfront =>
    obtain rfl := goesOn_wake hpc hgoes
    exact ⟨rfl, ⟨rest, hfront⟩, fun n => by rw [hpc]; rfl⟩
  | slept hpc => exact ⟨rfl, hq.cons (by rw [hpc]; rfl), fun n => by rw [hpc]; rfl⟩
  | waited hpc => exact ⟨rfl, hq.cons (by rw [hpc]; rfl), fun n => by rw [hpc]; rfl⟩

/-- **A step of a call of `Write` lowers the rank.** -/
theorem left_lt_of_write (hq : QueueOk s) (hgood : cfg.ok s.db.bgError = true) {act : WriteAct}
    (hgoes : s.goesOn (.write w act) = true) (hstep : WriteStep cfg calls s w act t) :
    t.left cfg calls < s.left cfg calls := by
  have hactive : ∀ {pc : WriteCall U V W}, s.writes w = pc → pc.phase = .active →
      w ∈ s.writers := by
    rintro pc rfl hphase
    obtain ⟨rest, hrest⟩ := hq.cons hphase
    rw [hrest]
    exact List.mem_cons_self
  cases hstep with
  | joins => cases hgoes
  | @waits o size b hpc hfront =>
    obtain rfl := goesOn_wake hpc hgoes
    have hmem : w ∈ s.writers := by
      rw [hq.member, hpc]
      exact nofun
    refine left_lt_of_self hq hmem rfl rfl (fun x hx => setWrite_ne hx _) fun n => ?_
    rw [setWrite_self, hpc]
    exact Nat.lt_succ_self _
  | @rooms act s₁ t room o size db e henters hmake hthen =>
    obtain ⟨rfl, ⟨rest, hrest⟩, hleft⟩ := henters.goes hq hgoes
    rw [makeRoom_good hgood] at hmake
    obtain ⟨rfl, rfl⟩ := Prod.mk.inj (Option.some.inj hmake)
    cases hthen with
    | @leads _ _ hbatch hsize =>
      -- the group takes at most the batches of the queue
      have hw : w ∉ rest := (List.nodup_cons.mp (hrest ▸ hq.nodup)).1
      have hops := @batchOps_take_le U V W calls s₁.writers size
      have hless : queueLeft calls (s₁.setWrite w (.appending (s₁.buildGroup calls size))).writes
          (w :: rest) < queueLeft calls s₁.writes (w :: rest) := by
        refine queueLeft_front hw (fun x _ hx => setWrite_ne hx _) ?_
        rw [setWrite_self, hleft, ← hrest]
        show (batchOps calls (s₁.writers.take size)).length + 5 < _
        omega
      rw [← hrest] at hless
      unfold System.left
      exact Nat.add_lt_add_right hless _
    | @returns _ rest' hwriters hnot =>
      exact left_leave hq.nodup hwriters (fun n => by rw [hleft]; omega) _
  | @appends t g status hpc happend =>
    obtain ⟨n, -, happend⟩ := Option.bind_eq_some_iff.mp happend
    obtain ⟨records, -, rfl⟩ := Option.map_eq_some_iff.mp happend
    refine left_lt_of_self hq (hactive hpc rfl) rfl rfl (fun x hx => setWrite_ne hx _) fun n => ?_
    rw [setWrite_self, hpc]
    split
    · split
      · exact Nat.lt_succ_self _
      · show g.entries.length + 3 < g.ops.length + 5
        rw [g.length_entries]
        omega
    · show 2 < g.ops.length + 5
      omega
  | @syncs t g status hpc hsync =>
    obtain ⟨n, -, rfl⟩ := Option.map_eq_some_iff.mp hsync
    refine left_lt_of_self hq (hactive hpc rfl) rfl rfl (fun x hx => setWrite_ne hx _) fun n => ?_
    rw [setWrite_self, hpc]
    split
    · show g.entries.length + 3 < g.ops.length + 4
      rw [g.length_entries]
      omega
    · show 2 < g.ops.length + 4
      omega
  | inserts hpc hinsert =>
    obtain ⟨memtables, -, rfl⟩ := Option.map_eq_some_iff.mp hinsert
    refine left_lt_of_self hq (hactive hpc rfl) rfl rfl (fun x hx => setWrite_ne hx _) fun n => ?_
    rw [setWrite_self, hpc]
    exact Nat.lt_succ_self _
  | ends hpc hend =>
    unfold System.insertEnd at hend
    split at hend
    · cases hend
    · cases hend
      refine left_lt_of_self hq (hactive hpc rfl) rfl rfl (fun x hx => setWrite_ne hx _)
        fun n => ?_
      rw [setWrite_self, hpc]
      exact Nat.lt_of_lt_of_le (Nat.lt_succ_self 2) (Nat.le_add_left _ _)
  | @finishes g status syncError rest hpc hwriters =>
    -- what a failed `Sync` signals does not matter to the queue
    have hsame : ((if syncError then s.recordError cfg status else s).setLastSequence
        g.lastSequence).left cfg calls = s.left cfg calls := by
      refine left_congr ?_ ?_ fun x n => ?_
      · exact (writers_groupEnd cfg g.lastSequence status syncError hwriters).trans hwriters.symm
      · cases syncError <;> rfl
      · cases syncError
        · rfl
        · exact (s.writes x).left_signalRoom n
    rw [← hsame]
    have hwriters := writers_groupEnd cfg g.lastSequence status syncError hwriters
    refine left_leave ?_ hwriters (fun n => ?_) status
    · rw [hwriters, ← ‹s.writers = w :: rest›]
      exact hq.nodup
    · cases syncError
      · show 2 ≤ (s.writes w).left n
        rw [hpc]
        exact le_refl _
      · show 2 ≤ ((s.writes w).signalRoom).left n
        rw [hpc]
        exact le_refl _

variable [Std.TransCmp cfg.version.icmp]

/-- **Its own steps lower the rank, and the steps of background jobs leave it.** -/
theorem lowers_of_step (hq : QueueOk s) (hgood : cfg.ok s.db.bgError = true)
    {l : Label U V W N} (hgoes : s.goesOn l = true) (hstep : System.step cfg calls s l = some t) :
    Transition.Lowers Label.ofCalls (System.left cfg calls) s l t := by
  rcases l.write_or_other with ⟨w, act, rfl⟩ | hl
  · exact left_lt_of_write hq hgood hgoes (writeStep_of_write hq hstep)
  have hsame := sameQueue_of_step hl hstep
  have hwrites : ∀ x n, (t.writes x).left n = (s.writes x).left n := by
    intro x n
    rcases hsame.writes with heq | heq
    · rw [heq]
    · rw [heq]
      exact (s.writes x).left_signalRoom n
  have hqueue : queueLeft calls t.writes t.writers = queueLeft calls s.writes s.writers := by
    rw [hsame.writers]
    exact queueLeft_congr fun x _ => hwrites x
  cases otherStep_of_step hl hstep with
  | calls => cases hgoes
  | @reads i g pc hg hpc =>
    have hless := sum_set_lt (f := GetCall.left cfg) (b := { g with pc }) hg (left_readPc hpc)
    show _ + _ < _ + _
    rw [hqueue]
    exact Nat.add_lt_add_left hless _
  | @returns i updated needs g result stats memtables jobQueue scheduled needsCompaction hg hpc =>
    have hless := sum_set_lt (f := GetCall.left cfg) (b := { g with pc := .returned result }) hg (by
      unfold GetCall.left
      rw [hpc]
      exact Nat.zero_lt_one)
    show _ + _ < _ + _
    rw [hqueue]
    exact Nat.add_lt_add_left hless _
  | _ => exact le_of_eq (left_congr hsame.writers rfl hwrites)

/-! ## A step to take -/

/-- What the calls rely on: no call is in `MakeRoomForWrite` and the log is open as long as there is
no error, and a call of `Get` looks into `imm_` only if it captured one. -/
structure CallsReady (cfg : DbConfig U V R N) (s : System U V R W N) : Prop where
  rooms : ∀ w room, (s.writes w).room? = some room → cfg.ok s.db.bgError = false
  log : cfg.ok s.db.bgError = true → ∃ n, s.db.logfile = some n ∧ s.db.logs n ≠ none
  imm : ∀ g ∈ s.gets, g.pc = .inImm → g.imm ≠ none

omit [DecidableEq W] [Std.TransCmp cfg.version.icmp] in
/-- A call comes into the loop of `MakeRoomForWrite` to stay under an error only. -/
theorem makeRoom_error {o : CreateOutcome} {db db' : Db U V R N} {room : Room} {e : RoomExit}
    (h : makeRoom cfg o db room = some (db', e)) (he : ∀ status, e ≠ .returns status) :
    cfg.ok db.bgError = false := by
  cases herror : cfg.ok db.bgError with
  | false => rfl
  | true =>
    rw [makeRoom_good herror] at h
    obtain ⟨-, rfl⟩ := Prod.mk.inj (Option.some.inj h)
    exact absurd rfl (he _)

omit [DecidableEq W] [Std.TransCmp cfg.version.icmp] in
/-- `Get` looks into `imm_` only if it captured one. -/
theorem readPc_inImm {db : Db U V R N} {g : GetCall U V N}
    (h : System.readPc cfg db g = some .inImm) : g.imm ≠ none := by
  unfold System.readPc at h
  split at h
  · obtain ⟨es, -, h⟩ := Option.map_eq_some_iff.mp h
    cases himm : g.imm with
    | some m => exact nofun
    | none =>
      rw [himm] at h
      cases hget : cfg.memTableGet es g.lookup with
      | some r =>
        rw [hget] at h
        cases h
      | none =>
        rw [hget] at h
        cases h
  · obtain ⟨m, -, h⟩ := Option.bind_eq_some_iff.mp h
    obtain ⟨es, -, h⟩ := Option.map_eq_some_iff.mp h
    cases hget : cfg.memTableGet es g.lookup with
    | some r =>
      rw [hget] at h
      cases h
    | none =>
      rw [hget] at h
      cases h
  · cases h
  · obtain h := Option.some.inj h
    unfold System.searchFile at h
    dsimp only at h
    split at h
    · cases h
    · cases h
  · cases h

omit [Std.TransCmp cfg.version.icmp] in
theorem CallsReady.of_self (h : CallsReady cfg s)
    (herror : cfg.ok t.db.bgError = true → cfg.ok s.db.bgError = true)
    (hothers : ∀ x ≠ w, (t.writes x).unsignalled = (s.writes x).unsignalled)
    (hself : ∀ room, (t.writes w).room? = some room → cfg.ok t.db.bgError = false)
    (hlog : cfg.ok t.db.bgError = true → ∃ n, t.db.logfile = some n ∧ t.db.logs n ≠ none)
    (hgets : t.gets = s.gets) : CallsReady cfg t := by
  refine ⟨fun x room hroom => ?_, hlog, hgets ▸ h.imm⟩
  by_cases hx : x = w
  · exact hself room (hx ▸ hroom)
  · rw [← WriteCall.room?_unsignalled, hothers x hx, WriteCall.room?_unsignalled] at hroom
    have hold := h.rooms x room hroom
    cases hgood : cfg.ok t.db.bgError with
    | false => rfl
    | true =>
      rw [herror hgood] at hold
      cases hold

omit [Std.TransCmp cfg.version.icmp] in
theorem CallsReady.write (h : CallsReady cfg s) (hok : cfg.ok = Status.isOK)
    (hrecords : cfg.RecordsFirst) {act : WriteAct} (hstep : WriteStep cfg calls s w act t) :
    CallsReady cfg t := by
  have herror := good_of_errorFrom hok hrecords hstep.db.1.errorFrom
  have hothers : ∀ x ≠ w, (t.writes x).unsignalled = (s.writes x).unsignalled :=
    fun x hx => hstep.others hx
  have hgets := hstep.db.2.1
  cases hstep with
  | joins hpc =>
    refine h.of_self herror hothers (fun room hroom => ?_) h.log hgets
    rw [setWrite_self] at hroom
    cases hroom
  | waits hpc =>
    refine h.of_self herror hothers (fun room hroom => ?_) h.log hgets
    rw [setWrite_self] at hroom
    cases hroom
  | @rooms act s₁ t room o size db e henters hmake hthen =>
    have hdb := hthen.keeps.1
    have hfails : (∀ status, e ≠ .returns status) → cfg.ok t.db.bgError = false := by
      intro he
      have hold := makeRoom_error hmake he
      cases hgood : cfg.ok t.db.bgError with
      | false => rfl
      | true =>
        rw [herror hgood] at hold
        cases hold
    refine h.of_self herror hothers (fun room' hroom => ?_) (fun hgood => ?_) hgets
    · cases hthen with
      | sleeps => exact hfails nofun
      | waits => exact hfails nofun
      | leads =>
        rw [setWrite_self] at hroom
        cases hroom
      | returns =>
        rw [leave_self] at hroom
        cases hroom
    · rw [makeRoom_good (herror hgood)] at hmake
      obtain ⟨rfl, -⟩ := Prod.mk.inj (Option.some.inj hmake)
      rw [hdb]
      exact h.log (herror hgood)
  | @appends t g status hpc happend =>
    obtain ⟨n, hn, happend⟩ := Option.bind_eq_some_iff.mp happend
    obtain ⟨records, hrecords, rfl⟩ := Option.map_eq_some_iff.mp happend
    refine h.of_self herror hothers (fun room hroom => ?_) (fun _ => ⟨n, hn, ?_⟩) hgets
    · rw [setWrite_self] at hroom
      split at hroom
      · split at hroom
        · cases hroom
        · cases hroom
      · cases hroom
    · show (if status = .OK then Function.update s.db.logs n (some (records ++ [g.record]))
        else s.db.logs) n ≠ none
      split
      · rw [Function.update_self]
        exact nofun
      · rw [hrecords]
        exact nofun
  | @syncs t g status hpc hsync =>
    obtain ⟨n, -, rfl⟩ := Option.map_eq_some_iff.mp hsync
    refine h.of_self herror hothers (fun room hroom => ?_) h.log hgets
    rw [setWrite_self] at hroom
    split at hroom
    · cases hroom
    · cases hroom
  | inserts hpc hinsert =>
    obtain ⟨memtables, -, rfl⟩ := Option.map_eq_some_iff.mp hinsert
    refine h.of_self herror hothers (fun room hroom => ?_) h.log hgets
    rw [setWrite_self] at hroom
    cases hroom
  | ends hpc hend =>
    unfold System.insertEnd at hend
    split at hend
    · cases hend
    · cases hend
      refine h.of_self herror hothers (fun room hroom => ?_) h.log hgets
      rw [setWrite_self] at hroom
      cases hroom
  | @finishes g status syncError rest hpc hwriters =>
    refine h.of_self herror hothers (fun room hroom => ?_) (fun hgood => ?_) hgets
    · rw [leave_self] at hroom
      cases hroom
    · obtain ⟨writes, heq⟩ := finish_keeps cfg s w g status syncError rest
      have hlog := h.log (herror hgood)
      rw [heq]
      exact hlog

theorem CallsReady.step (h : CallsReady cfg s) (hok : cfg.ok = Status.isOK)
    (hrecords : cfg.RecordsFirst) (hq : QueueOk s) {l : Label U V W N}
    (hstep : System.step cfg calls s l = some t) : CallsReady cfg t := by
  rcases l.write_or_other with ⟨w, act, rfl⟩ | hl
  · exact h.write hok hrecords (writeStep_of_write hq hstep)
  have herror := good_of_errorFrom hok hrecords (errorFrom_of_step hq hstep)
  have hsame := sameQueue_of_step hl hstep
  have hlog := keepsLog_of_step hl hstep
  refine ⟨fun x room hroom => ?_, fun hgood => ?_, ?_⟩
  · rw [← WriteCall.room?_unsignalled, hsame.unsignalled, WriteCall.room?_unsignalled] at hroom
    have hold := h.rooms x room hroom
    cases hgood : cfg.ok t.db.bgError with
    | false => rfl
    | true =>
      rw [herror hgood] at hold
      cases hold
  · rw [hlog.logfile, hlog.logs]
    exact h.log (herror hgood)
  · cases otherStep_of_step hl hstep with
    | calls =>
      intro g hg hpc
      rcases List.mem_append.mp hg with hg | hg
      · exact h.imm g hg hpc
      · rw [List.mem_singleton.mp hg] at hpc
        cases hpc
    | @reads i g pc hg hpc =>
      intro g' hg' hpc'
      rcases List.mem_or_eq_of_mem_set hg' with hg' | rfl
      · exact h.imm g' hg' hpc'
      · have hpc' : pc = .inImm := hpc'
        rw [hpc'] at hpc
        show g.imm ≠ none
        exact readPc_inImm hpc
    | returns =>
      intro g' hg' hpc'
      rcases List.mem_or_eq_of_mem_set hg' with hg' | rfl
      · exact h.imm g' hg' hpc'
      · cases hpc'
    | _ => exact h.imm

omit [Std.TransCmp cfg.version.icmp] in
theorem logAppend_isSome {n : Nat} {records : List (LogRecord U V)} (hn : s.db.logfile = some n)
    (hrecords : s.db.logs n = some records) (g : Group U V W) (status : Status) :
    ∃ t, s.logAppend cfg calls w g status = some t := by
  unfold System.logAppend
  rw [hn, Option.bind_some, hrecords, Option.map_some]
  exact ⟨_, rfl⟩

omit [Std.TransCmp cfg.version.icmp] in
theorem logSync_isSome {n : Nat} (hn : s.db.logfile = some n) (g : Group U V W)
    (status : Status) : ∃ t, s.logSync cfg w g status = some t := by
  unfold System.logSync
  rw [hn, Option.map_some]
  exact ⟨_, rfl⟩

omit [Std.TransCmp cfg.version.icmp] in
theorem insertEnd_isSome (g : Group U V W) (status : Status) :
    ∃ t, s.insertEnd w g [] status = some t :=
  ⟨_, if_neg fun h => h.2 rfl⟩

omit [Std.TransCmp cfg.version.icmp] in
theorem memInsert_isSome (hrefs : ReferencesOk s) (g : Group U V W) (e : Entry U V)
    (rest : List (Entry U V)) : ∃ t, s.memInsert w g s.db.mem e rest = some t := by
  obtain ⟨cell, hcell, -⟩ := hrefs.exact.cell s.mem_holders
  unfold System.memInsert RefCounted.Heap.modify
  rw [hcell, Option.map_some, Option.map_some]
  exact ⟨_, rfl⟩

omit [Std.TransCmp cfg.version.icmp] in
/-- Without an error the front of the queue goes on from a wakeup to the log or to the end. -/
theorem wake_isSome (hq : QueueOk s) (hgood : cfg.ok s.db.bgError = true) {rest : List W}
    (hwriters : s.writers = w :: rest) {b : Bool} (hpc : s.writes w = .waiting b)
    (o : CreateOutcome) : ∃ t, s.write cfg calls w (.wake o 1) = some t := by
  unfold System.write System.checkFront
  simp only [hpc, hq.notDone w, hwriters, if_true]
  unfold System.runRoom System.afterRoom
  simp only [makeRoom_good hgood]
  split
  · exact ⟨_, if_pos Nat.zero_lt_one⟩
  · exact ⟨_, finishWrite_front hwriters _⟩

omit [Std.TransCmp cfg.version.icmp] in
theorem writeFinish_isSome {rest : List W} (hwriters : s.writers = w :: rest) (g : Group U V W)
    (status : Status) (syncError : Bool) :
    ∃ t, s.writeFinish cfg w g status syncError = some t :=
  ⟨_, finishWrite_front (writers_groupEnd cfg g.lastSequence status syncError hwriters) status⟩

omit [Std.TransCmp cfg.version.icmp] in
/-- **The front of the queue has a step to take.** -/
theorem exists_write (hc : Consistent s) (hfront : FrontSignalled s) (hready : CallsReady cfg s)
    (hgood : cfg.ok s.db.bgError = true) {rest : List W} (hwriters : s.writers = w :: rest) :
    ∃ act t, s.goesOn (.write w act) = true ∧ s.write cfg calls w act = some t := by
  obtain ⟨n, hn, hlogs⟩ := hready.log hgood
  obtain ⟨records, hrecords⟩ := Option.ne_none_iff_exists'.mp hlogs
  have hroom : ∀ room, (s.writes w).room? ≠ some room := by
    intro room hroom
    have herror := hready.rooms w room hroom
    rw [hgood] at herror
    cases herror
  rcases hfront w rest hwriters with hactive | hpc
  · cases hpc : s.writes w with
    | idle =>
      rw [hpc] at hactive
      cases hactive
    | waiting b =>
      rw [hpc] at hactive
      cases hactive
    | returned status =>
      rw [hpc] at hactive
      cases hactive
    | sleeping room => exact absurd (by rw [hpc]; rfl) (hroom room)
    | roomWaiting room b => exact absurd (by rw [hpc]; rfl) (hroom room)
    | appending g =>
      obtain ⟨t, ht⟩ := @logAppend_isSome U V R W N cfg calls s w _ n records hn hrecords g .OK
      exact ⟨.append .OK, t, rfl, by unfold System.write; simp only [hpc, ht]⟩
    | syncing g =>
      obtain ⟨t, ht⟩ := @logSync_isSome U V R W N cfg s w _ n hn g .OK
      exact ⟨.sync .OK, t, rfl, by unfold System.write; simp only [hpc, ht]⟩
    | inserting g m entries =>
      cases entries with
      | nil =>
        obtain ⟨t, ht⟩ := @insertEnd_isSome U V R W N s w _ g .OK
        exact ⟨.insertEnd .OK, t, rfl, by unfold System.write; simp only [hpc, ht]⟩
      | cons e entries =>
        obtain ⟨rfl, -⟩ := (hc.groups w).inserts g m (e :: entries) hpc
        obtain ⟨t, ht⟩ := @memInsert_isSome U V R W N s w _ hc.references g e entries
        exact ⟨.insert, t, rfl, by unfold System.write; simp only [hpc, ht]⟩
    | relocking g status syncError =>
      obtain ⟨t, ht⟩ := @writeFinish_isSome U V R W N cfg s w _ rest hwriters g status syncError
      exact ⟨.finish, t, rfl, by unfold System.write; simp only [hpc, ht]⟩
  · obtain ⟨t, ht⟩ :=
      @wake_isSome U V R W N cfg calls s w _ hc.queue hgood rest hwriters true hpc {}
    refine ⟨.wake {} 1, t, ?_, ht⟩
    unfold System.goesOn
    simp only [hpc]

/-- A call of `Get` in progress has a step to take. -/
theorem exists_get (hrefs : ReferencesOk s) (hready : CallsReady cfg s) {g : GetCall U V N}
    (hg : g ∈ s.gets) (hactive : g.active = true) :
    ∃ l t, Label.ofCalls l = true ∧ s.goesOn l = true ∧ System.step cfg calls s l = some t := by
  obtain ⟨i, hi⟩ := List.getElem?_of_mem hg
  have hreturned : ∀ result, g.pc ≠ .returned result := by
    intro result hpc
    unfold GetCall.active at hactive
    rw [hpc] at hactive
    cases hactive
  by_cases hlock : ∃ result stats, g.pc = .relocking result stats
  · obtain ⟨result, stats, hpc⟩ := hlock
    obtain ⟨t, ht⟩ := @ReferencesOk.getFinish_isSome U V R W N cfg s i g result stats hrefs hi hpc
      false false
    exact ⟨.getFinish i false false, t, rfl, rfl, ht⟩
  · obtain ⟨t, ht⟩ := @ReferencesOk.getRead_isSome U V R W N cfg s i g hrefs hi (hready.imm g hg)
      (fun result stats hpc => hlock ⟨result, stats, hpc⟩) hreturned
    exact ⟨.getRead i, t, rfl, rfl, ht⟩

/-- **As long as a call has not returned, one of them has a step to take.** -/
theorem exists_step (hc : Consistent s) (hfront : FrontSignalled s) (hready : CallsReady cfg s)
    (hgood : cfg.ok s.db.bgError = true) :
    s.Quiet ∨ ∃ l t, Label.ofCalls l = true ∧ s.goesOn l = true ∧
      System.step cfg calls s l = some t := by
  cases hwriters : s.writers with
  | cons w rest =>
    obtain ⟨act, t, hgoes, ht⟩ :=
      @exists_write U V R W N cfg calls s w _ hc hfront hready hgood rest hwriters
    exact Or.inr ⟨.write w act, t, rfl, hgoes, ht⟩
  | nil =>
    by_cases hgets : ∀ g ∈ s.gets, g.active = false
    · refine Or.inl ⟨fun w => ?_, hgets⟩
      have hout : (s.writes w).phase = .outside := by
        by_contra hphase
        have hmem := (hc.queue.member w).mpr hphase
        rw [hwriters] at hmem
        cases hmem
      cases hpc : s.writes w with
      | idle => exact Or.inl rfl
      | returned status => exact Or.inr ⟨status, rfl⟩
      | _ =>
        rw [hpc] at hout
        cases hout
    · obtain ⟨g, hg, hactive⟩ := by simpa only [not_forall] using hgets
      exact Or.inr (exists_get hc.references hready hg (by simpa using hactive))

/-! ## Every run -/

/-- **Every call returns.** From every state that a run reaches, and in every run that goes on from
there in which no call starts, writers in the queue wake up after a signal only and no step is taken
under a background error, whatever background jobs do: the calls take at most `left` steps, and as
long as there is no error, all of them have returned or one of them has a step to take. -/
theorem calls_return (hok : cfg.ok = Status.isOK) (hrecords : cfg.RecordsFirst)
    (hreuses : cfg.ReusesLast) (hkeeps : cfg.KeepsLive) (hopened : Opened s)
    (hlog : ∃ n, s.db.logfile = some n ∧ s.db.logs n ≠ none)
    (run : Transition.Reaches (System.step cfg calls) s t) {u : System U V R W N} {n : Nat}
    (run' : Transition.Run
      (Transition.tracked (System.step cfg calls) (Transition.countOwn Label.ofCalls))
      (fun x l => x.1.goesOn l = true ∧ cfg.ok x.1.db.bgError = true) (t, 0) (u, n)) :
    n + u.left cfg calls ≤ t.left cfg calls ∧
      (cfg.ok u.db.bgError = true → u.Quiet ∨ ∃ l v, Label.ofCalls l = true ∧ u.goesOn l = true ∧
        System.step cfg calls u l = some v) := by
  have hstep : ∀ {x y : System U V R W N} {l : Label U V W N},
      Consistent x ∧ FrontSignalled x ∧ CallsReady cfg x → System.step cfg calls x l = some y →
      Consistent y ∧ FrontSignalled y ∧ CallsReady cfg y :=
    fun ⟨hc, hfront, hready⟩ h => ⟨hc.step hreuses hkeeps h, hfront.step hc.queue h,
      hready.step hok hrecords hc.queue h⟩
  have hstart : Consistent s ∧ FrontSignalled s ∧ CallsReady cfg s := by
    refine ⟨hopened.consistent, fun w rest hw => ?_, fun w room hroom => ?_, fun _ => hlog, ?_⟩
    · rw [hopened.writers] at hw
      cases hw
    · rw [hopened.writes] at hroom
      cases hroom
    · rw [hopened.gets]
      exact fun g hg => absurd hg List.not_mem_nil
  have hlowers : ∀ {x y : System U V R W N} {l : Label U V W N},
      Consistent x ∧ FrontSignalled x ∧ CallsReady cfg x →
      x.goesOn l = true ∧ cfg.ok x.db.bgError = true → System.step cfg calls x l = some y →
      Transition.Lowers Label.ofCalls (System.left cfg calls) x l y :=
    fun h hmeets hxy => lowers_of_step h.1.queue hmeets.2 hmeets.1 hxy
  have hmiddle := run.invariant (I := fun x => Consistent x ∧ FrontSignalled x ∧ CallsReady cfg x)
    (fun h _ => hstep h) hstart
  obtain ⟨⟨hc, hfront, hready⟩, hle⟩ := Transition.Run.count_le
    (P := fun x l => System.goesOn x l = true ∧ cfg.ok x.db.bgError = true)
    (I := fun x => Consistent x ∧ FrontSignalled x ∧ CallsReady cfg x)
    (fun h _ => hstep h) hlowers hmiddle run'
  exact ⟨hle, exists_step hc hfront hready⟩

end Step

/-- Two calls of `Write` and one of `Get` are in progress when the flush of `imm_` starts. -/
theorem calls_return_flush :
    ∃ t u n, Transition.exec (System.step natDb flushCalls)
        [.write 0 (.call {} 1), .write 1 (.call {} 1), .getCall 7 none] queuedSystem = some t ∧
      Transition.exec (fun x l => if x.1.goesOn l && natDb.ok x.1.db.bgError then
          Transition.tracked (System.step natDb flushCalls) (Transition.countOwn Label.ofCalls) x l
        else none)
        [.write 0 (.append .OK), .jobStart none {}, .getRead 0, .write 0 .insert] (t, 0) =
          some (u, n) ∧
      n = 3 ∧ t.left natDb flushCalls = 19 ∧ n + u.left natDb flushCalls ≤ t.left natDb flushCalls ∧
      (u.Quiet ∨ ∃ l v, Label.ofCalls l = true ∧ u.goesOn l = true ∧
        System.step natDb flushCalls u l = some v) := by
  obtain ⟨t, u, n, ht, hu, hn, hleft, hgood⟩ : ∃ t u n, Transition.exec
        (System.step natDb flushCalls)
        [.write 0 (.call {} 1), .write 1 (.call {} 1), .getCall 7 none] queuedSystem = some t ∧
      Transition.exec (fun x l => if x.1.goesOn l && natDb.ok x.1.db.bgError then
          Transition.tracked (System.step natDb flushCalls) (Transition.countOwn Label.ofCalls) x l
        else none)
        [.write 0 (.append .OK), .jobStart none {}, .getRead 0, .write 0 .insert] (t, 0) =
          some (u, n) ∧
      n = 3 ∧ t.left natDb flushCalls = 19 ∧ natDb.ok u.db.bgError = true :=
    ⟨_, _, _, rfl, rfl, rfl, rfl, rfl⟩
  have run := Transition.Run.of_checked
    (P := fun (x : System Nat Nat (VersionEdit (InternalKey Nat) 2) Nat 2 × Nat) l =>
      x.1.goesOn l = true ∧ natDb.ok x.1.db.bgError = true)
    (fun _ _ h => (Bool.and_eq_true _ _).mp h) hu
  obtain ⟨hle, hstep⟩ := calls_return rfl natDb_records natDb_reuses natDb_keepsLive
    queuedSystem_opened ⟨4, rfl, nofun⟩ (Transition.Run.of_exec ht) run
  exact ⟨t, u, n, ht, hu, hn, hleft, hle, hstep hgood⟩

end LevelDB
