import LevelDB.Db.Reachable

/-!
# How often a batch is written

A group is led by the front of the queue and takes the batches of the calls behind it as well. But
the loop at the end of `Write` takes only the leader off the queue, because nobody sets
`last_writer`: the other calls of the group come to the front later and write their batches again.

* `buildGroup_carries` — a group carries the batches of its members;
* `appliedOnce_of_run` — when no group takes more than its leader's batch and everything succeeds,
  each batch is appended to the log once and inserted once;
* `batch_applied_twice` — with a group of two, a batch is written twice.
-/

set_option autoImplicit false

namespace LevelDB

variable {U V R W : Type} {N : Nat}

/-- The log files, appends, syncs and insertions of a step succeed. -/
def Label.succeeds (cfg : DbConfig U V R N) : Label U V W N → Bool
  | .write _ (.call o _) => cfg.ok o.status
  | .write _ (.wake o _) => cfg.ok o.status
  | .write _ (.resume o _) => cfg.ok o.status
  | .write _ (.append status) => status = .OK
  | .write _ (.sync status) => status = .OK
  | .write _ (.insertEnd status) => status = .OK
  | _ => true

/-- A group that is built in this step has the batch of its leader only. -/
def System.takesOne (s : System U V R W N) : Label U V W N → Bool
  | .write _ (.call _ size) => size ≤ 1 ∨ s.writers.length ≤ 1
  | .write _ (.wake _ size) => size ≤ 1 ∨ s.writers.length ≤ 1
  | .write _ (.resume _ size) => size ≤ 1 ∨ s.writers.length ≤ 1
  | _ => true

def WriteRequest.batch (r : WriteRequest U V) : List (BatchOp U V) := r.updates.getD []

/-- How often the batch of a call is in the groups of a list. -/
def timesIn [DecidableEq W] (w : W) (groups : List (Group U V W)) : Nat :=
  (groups.flatMap Group.members).count w

/-- The batch of the call was appended to the log once and inserted into the memtable once. -/
def AppliedOnce [DecidableEq W] (s : System U V R W N) (w : W) : Prop :=
  timesIn w s.appended = 1 ∧ timesIn w s.inserted = 1

/-- The group carries the batches of its members. -/
def Group.Carries (calls : W → WriteRequest U V) (g : Group U V W) : Prop :=
  g.ops = g.members.flatMap fun w => (calls w).batch

theorem buildGroup_carries {calls : W → WriteRequest U V} {s : System U V R W N} (size : Nat) :
    (s.buildGroup calls size).Carries calls := rfl

/-! ## Runs in which every group has one member -/

/-- The status that `MakeRoomForWrite` has so far. -/
def RoomExit.status : RoomExit → Status
  | returns status => status
  | sleeps room => room.s
  | waits room => room.s

namespace WriteCall

def room? : WriteCall U V W → Option Room
  | sleeping room => some room
  | roomWaiting room _ => some room
  | _ => none

@[simp] theorem room?_unsignalled (pc : WriteCall U V W) : pc.unsignalled.room? = pc.room? := by
  cases pc <;> rfl

/-- How often the batch of a call has been appended and inserted, by where the call is. -/
def written : WriteCall U V W → Nat × Nat
  | syncing _ => (1, 0)
  | inserting _ _ _ => (1, 0)
  | relocking _ _ _ => (1, 1)
  | returned _ => (1, 1)
  | _ => (0, 0)

@[simp] theorem written_unsignalled (pc : WriteCall U V W) :
    pc.unsignalled.written = pc.written := by
  cases pc <;> rfl

end WriteCall

section Once

variable [DecidableEq W] {cfg : DbConfig U V R N} {calls : W → WriteRequest U V}
  {s t : System U V R W N} {w : W}

/-- Groups have one member, no status of `MakeRoomForWrite` is an error, and each batch has been
written as often as its call has come. -/
structure OnceOk (cfg : DbConfig U V R N) (calls : W → WriteRequest U V)
    (s : System U V R W N) : Prop where
  rooms : ∀ w room, (s.writes w).room? = some room → cfg.ok room.s = true
  alone : ∀ w g, (s.writes w).group? = some g → g.members = [w]
  counts : ∀ w, (calls w).updates.isSome →
    (timesIn w s.appended, timesIn w s.inserted) = (s.writes w).written

theorem timesIn_append {groups : List (Group U V W)} {g : Group U V W} (hg : g.members = [w])
    (x : W) : timesIn x (groups ++ [g]) = timesIn x groups + if x = w then 1 else 0 := by
  unfold timesIn
  rw [List.flatMap_append, List.count_append, List.flatMap_singleton, hg, List.count_singleton]
  by_cases hx : x = w
  · simp [hx]
  · simp [hx, Ne.symm hx]

omit [DecidableEq W] in
theorem makeRoom_status {o : CreateOutcome} {db db' : Db U V R N} {room : Room} {e : RoomExit}
    (hroom : cfg.ok room.s = true) (hcreate : cfg.ok o.status = true)
    (h : makeRoom cfg o db room = some (db', e)) : cfg.ok e.status = true := by
  have hends : ∀ {db db' : Db U V R N} {room : Room}, cfg.ok room.s = true →
      PassEnds cfg o db room db' (.exit e) → cfg.ok e.status = true := by
    intro db db' room hroom hpass
    cases hpass with
    | noError hok => exact hok
    | slowed => exact hroom
    | hasRoom => exact hroom
    | blocked => exact hroom
    | notCreated _ _ _ _ _ hfail =>
      rw [hcreate] at hfail
      cases hfail
  rcases makeRoom_ends h with hpass | ⟨room', hagain, hpass⟩
  · exact hends hroom hpass
  · refine hends ?_ hpass
    cases hagain with
    | switched _ _ _ _ _ hcreated => exact hcreated

omit [DecidableEq W] in
/-- The group that is built has one member. -/
theorem EntersRoom.takesOne {act : WriteAct} {s₁ : System U V R W N} {room : Room}
    {o : CreateOutcome} {size : Nat} (h : EntersRoom calls s w act s₁ room o size)
    (hq : QueueOk s) (htakes : s.takesOne (.write w act : Label U V W N) = true)
    (hsize : 0 < size) :
    s₁.writers.take size = [w] := by
  have hcases : size ≤ 1 ∨ s.writers.length ≤ 1 := by
    cases h with
    | called => exact of_decide_eq_true htakes
    | woken => exact of_decide_eq_true htakes
    | slept => exact of_decide_eq_true htakes
    | waited => exact of_decide_eq_true htakes
  obtain ⟨rest, rfl, hwriters⟩ := h.shape hq
  show (w :: rest).take size = [w]
  have hrest : size ≤ 1 ∨ rest = [] := by
    rcases hwriters with ⟨-, hrest⟩ | hwriters
    · exact Or.inr hrest
    · rcases hcases with hone | hlength
      · exact Or.inl hone
      · rw [hwriters, List.length_cons] at hlength
        exact Or.inr (List.length_eq_zero_iff.mp (by omega))
  rcases hrest with hone | rfl
  · obtain rfl : size = 1 := by omega
    rfl
  · exact List.take_of_length_le hsize

omit [DecidableEq W] in
theorem EntersRoom.status {act : WriteAct} {s₁ : System U V R W N} {room : Room}
    {o : CreateOutcome} {size : Nat} (h : EntersRoom calls s w act s₁ room o size)
    (hok : cfg.ok .OK = true)
    (hrooms : ∀ room, (s.writes w).room? = some room → cfg.ok room.s = true)
    (hsucceeds : (.write w act : Label U V W N).succeeds cfg = true) :
    cfg.ok room.s = true ∧ cfg.ok o.status = true ∧ (s.writes w).written = (0, 0) := by
  cases h with
  | called hpc => exact ⟨hok, hsucceeds, by rw [hpc]; rfl⟩
  | woken hpc => exact ⟨hok, hsucceeds, by rw [hpc]; rfl⟩
  | slept hpc => exact ⟨hrooms room (by rw [hpc]; rfl), hsucceeds, by rw [hpc]; rfl⟩
  | waited hpc => exact ⟨hrooms room (by rw [hpc]; rfl), hsucceeds, by rw [hpc]; rfl⟩

/-- The other calls keep what they have; the call that takes the step is looked at alone. -/
theorem OnceOk.of_self (h : OnceOk cfg calls s)
    (hothers : ∀ x ≠ w, (t.writes x).unsignalled = (s.writes x).unsignalled)
    (htimes : ∀ x ≠ w, timesIn x t.appended = timesIn x s.appended ∧
      timesIn x t.inserted = timesIn x s.inserted)
    (hroom : ∀ room, (t.writes w).room? = some room → cfg.ok room.s = true)
    (hgroup : ∀ g, (t.writes w).group? = some g → g.members = [w])
    (hcounts : (calls w).updates.isSome →
      (timesIn w t.appended, timesIn w t.inserted) = (t.writes w).written) :
    OnceOk cfg calls t where
  rooms x room hx := by
    by_cases hxw : x = w
    · subst hxw
      exact hroom room hx
    · rw [← WriteCall.room?_unsignalled, hothers x hxw, WriteCall.room?_unsignalled] at hx
      exact h.rooms x room hx
  alone x g hx := by
    by_cases hxw : x = w
    · subst hxw
      exact hgroup g hx
    · exact h.alone x g ((WriteCall.group?_congr (hothers x hxw)).symm.trans hx)
  counts x hx := by
    by_cases hxw : x = w
    · subst hxw
      exact hcounts hx
    · rw [(htimes x hxw).1, (htimes x hxw).2, h.counts x hx, ← WriteCall.written_unsignalled,
        ← hothers x hxw, WriteCall.written_unsignalled]

theorem OnceOk.write {act : WriteAct} (h : OnceOk cfg calls s) (hok : cfg.ok .OK = true)
    (hq : QueueOk s) (hsucceeds : (.write w act : Label U V W N).succeeds cfg = true)
    (htakes : s.takesOne (.write w act : Label U V W N) = true)
    (hstep : WriteStep cfg calls s w act t) : OnceOk cfg calls t := by
  have hothers : ∀ x ≠ w, (t.writes x).unsignalled = (s.writes x).unsignalled :=
    fun x hx => hstep.others hx
  cases hstep with
  | joins hpc =>
    refine h.of_self hothers (fun x hx => ⟨rfl, rfl⟩) ?_ ?_ fun hbatch => ?_
    · rw [setWrite_self]
      nofun
    · rw [setWrite_self]
      nofun
    · rw [setWrite_self]
      exact (h.counts w hbatch).trans (by rw [hpc]; rfl)
  | waits hpc =>
    refine h.of_self hothers (fun x hx => ⟨rfl, rfl⟩) ?_ ?_ fun hbatch => ?_
    · rw [setWrite_self]
      nofun
    · rw [setWrite_self]
      nofun
    · rw [setWrite_self]
      exact (h.counts w hbatch).trans (by rw [hpc]; rfl)
  | @rooms act s₁ t room o size db e henters hmake hthen =>
    obtain ⟨hroom, hcreate, hwritten⟩ := henters.status hok (h.rooms w) hsucceeds
    have hstatus := makeRoom_status hroom hcreate hmake
    obtain ⟨-, -, -, happended, hinserted⟩ := hthen.keeps
    obtain ⟨-, -, happended', hinserted'⟩ := henters.keeps
    have happended : t.appended = s.appended := happended.trans happended'
    have hinserted : t.inserted = s.inserted := hinserted.trans hinserted'
    have hcounts : (calls w).updates.isSome →
        (timesIn w t.appended, timesIn w t.inserted) = (0, 0) := by
      intro hbatch
      rw [happended, hinserted, h.counts w hbatch, hwritten]
    refine h.of_self hothers (fun x hx => by rw [happended, hinserted]; exact ⟨rfl, rfl⟩) ?_ ?_ ?_
    · intro room' hroom'
      cases hthen with
      | sleeps room =>
        rw [setWrite_self] at hroom'
        exact Option.some.inj hroom' ▸ hstatus
      | waits room =>
        rw [setWrite_self] at hroom'
        exact Option.some.inj hroom' ▸ hstatus
      | leads =>
        rw [setWrite_self] at hroom'
        cases hroom'
      | returns =>
        rw [leave_self] at hroom'
        cases hroom'
    · intro g hg
      cases hthen with
      | sleeps room =>
        rw [setWrite_self] at hg
        cases hg
      | waits room =>
        rw [setWrite_self] at hg
        cases hg
      | leads _ _ hsize =>
        rw [setWrite_self] at hg
        cases hg
        exact henters.takesOne hq htakes hsize
      | returns =>
        rw [leave_self] at hg
        cases hg
    · intro hbatch
      rw [hcounts hbatch]
      cases hthen with
      | sleeps room => rw [setWrite_self]; rfl
      | waits room => rw [setWrite_self]; rfl
      | leads => rw [setWrite_self]; rfl
      | returns _ hnot => exact absurd ⟨hstatus, hbatch⟩ hnot
  | @appends t g status hpc happend =>
    obtain rfl : status = .OK := of_decide_eq_true hsucceeds
    have hgroup := group?_logAppend happend
    have hg : g.members = [w] := h.alone w g (by rw [hpc]; rfl)
    obtain ⟨n, -, happend⟩ := Option.bind_eq_some_iff.mp happend
    obtain ⟨records, -, rfl⟩ := Option.map_eq_some_iff.mp happend
    refine h.of_self hothers (fun x hx => ⟨?_, rfl⟩) (fun room hroom => ?_)
      (fun g' hg' => Option.some.inj (hgroup.symm.trans hg') ▸ hg) fun hbatch => ?_
    · show timesIn x (s.appended ++ [g]) = timesIn x s.appended
      rw [timesIn_append hg, if_neg hx, Nat.add_zero]
    · rw [setWrite_self, if_pos hok] at hroom
      cases hsync : (calls w).sync with
      | true =>
        rw [hsync] at hroom
        cases hroom
      | false =>
        rw [hsync] at hroom
        cases hroom
    · have hbefore := h.counts w hbatch
      rw [hpc] at hbefore
      obtain ⟨happended, hinserted⟩ := Prod.mk.inj hbefore
      have hafter : (timesIn w (s.appended ++ [g]), timesIn w s.inserted) = (1, 0) := by
        rw [timesIn_append hg, happended, hinserted, if_pos rfl]
      rw [setWrite_self, if_pos hok]
      cases (calls w).sync with
      | true => exact hafter
      | false => exact hafter
  | @syncs t g status hpc hsync =>
    obtain rfl : status = .OK := of_decide_eq_true hsucceeds
    have hgroup := group?_logSync hsync
    have hg : g.members = [w] := h.alone w g (by rw [hpc]; rfl)
    obtain ⟨n, -, rfl⟩ := Option.map_eq_some_iff.mp hsync
    refine h.of_self hothers (fun x hx => ⟨rfl, rfl⟩) (fun room hroom => ?_)
      (fun g' hg' => Option.some.inj (hgroup.symm.trans hg') ▸ hg) fun hbatch => ?_
    · rw [setWrite_self, if_pos hok] at hroom
      cases hroom
    · rw [setWrite_self, if_pos hok]
      exact (h.counts w hbatch).trans (by rw [hpc]; rfl)
  | @inserts t g m e rest hpc hinsert =>
    have hgroup := group?_memInsert hinsert
    have hg : g.members = [w] := h.alone w g (by rw [hpc]; rfl)
    obtain ⟨memtables, -, rfl⟩ := Option.map_eq_some_iff.mp hinsert
    refine h.of_self hothers (fun x hx => ⟨rfl, rfl⟩) (fun room hroom => ?_)
      (fun g' hg' => Option.some.inj (hgroup.symm.trans hg') ▸ hg) fun hbatch => ?_
    · rw [setWrite_self] at hroom
      cases hroom
    · rw [setWrite_self]
      exact (h.counts w hbatch).trans (by rw [hpc]; rfl)
  | @ends t g m rest status hpc hend =>
    obtain rfl : status = .OK := of_decide_eq_true hsucceeds
    have hgroup := group?_insertEnd hend
    have hg : g.members = [w] := h.alone w g (by rw [hpc]; rfl)
    unfold System.insertEnd at hend
    split at hend
    · cases hend
    · cases hend
      refine h.of_self hothers (fun x hx => ⟨rfl, ?_⟩) (fun room hroom => ?_)
        (fun g' hg' => Option.some.inj (hgroup.symm.trans hg') ▸ hg) fun hbatch => ?_
      · show timesIn x (s.inserted ++ [g]) = timesIn x s.inserted
        rw [timesIn_append hg, if_neg hx, Nat.add_zero]
      · rw [setWrite_self] at hroom
        cases hroom
      · have hbefore := h.counts w hbatch
        rw [hpc] at hbefore
        obtain ⟨happended, hinserted⟩ := Prod.mk.inj hbefore
        have hafter : (timesIn w s.appended, timesIn w (s.inserted ++ [g])) = (1, 1) := by
          rw [timesIn_append hg, happended, hinserted, if_pos rfl]
        rw [setWrite_self]
        exact hafter
  | @finishes g status syncError rest hpc hwriters =>
    obtain ⟨writes, heq⟩ := finish_keeps cfg s w g status syncError rest
    refine h.of_self hothers (fun x hx => ?_) (fun room hroom => ?_) (fun g' hg' => ?_)
      fun hbatch => ?_
    · rw [heq]
      exact ⟨rfl, rfl⟩
    · rw [leave_self] at hroom
      cases hroom
    · rw [leave_self] at hg'
      cases hg'
    · rw [leave_self, heq]
      exact (h.counts w hbatch).trans (by rw [hpc]; rfl)

variable [Std.TransCmp cfg.version.icmp]

theorem OnceOk.step (h : OnceOk cfg calls s) (hok : cfg.ok .OK = true) (hq : QueueOk s)
    {l : Label U V W N} (hsucceeds : l.succeeds cfg = true) (htakes : s.takesOne l = true)
    (hstep : System.step cfg calls s l = some t) : OnceOk cfg calls t := by
  rcases l.write_or_other with ⟨w, act, rfl⟩ | hl
  · exact h.write hok hq hsucceeds htakes (writeStep_of_write hq hstep)
  · have hsame := sameQueue_of_step hl hstep
    refine ⟨fun w room hroom => h.rooms w room ?_, fun w g hg => h.alone w g ?_,
      fun w hbatch => ?_⟩
    · rw [← WriteCall.room?_unsignalled, hsame.unsignalled, WriteCall.room?_unsignalled] at hroom
      exact hroom
    · exact (WriteCall.group?_congr (hsame.unsignalled w)).symm.trans hg
    · rw [hsame.appended, hsame.inserted, h.counts w hbatch, ← WriteCall.written_unsignalled,
        ← hsame.unsignalled, WriteCall.written_unsignalled]

/-- **Each batch is written once**, in every run whose log files, appends, syncs and insertions
succeed and whose groups take no more than the batch of their leader. -/
theorem appliedOnce_of_run (hok : cfg.ok .OK = true) (hopened : Opened s)
    (run : Transition.Run (System.step cfg calls)
      (fun s l => l.succeeds cfg = true ∧ s.takesOne l = true) s t)
    {status : Status} (hreturned : t.writes w = .returned status)
    (hbatch : (calls w).updates.isSome) : AppliedOnce t w := by
  have hstart : OnceOk cfg calls s := by
    refine ⟨fun w room hroom => ?_, fun w g hg => ?_, fun w _ => ?_⟩
    · rw [hopened.writes] at hroom
      cases hroom
    · rw [hopened.writes] at hg
      cases hg
    · rw [hopened.appended, hopened.inserted, hopened.writes]
      rfl
  have honce := (run.invariant (I := fun u => QueueOk u ∧ OnceOk cfg calls u)
    (fun ⟨hq, h⟩ hmeets hstep => ⟨hq.step hstep, h.step hok hq hmeets.1 hmeets.2 hstep⟩)
    ⟨hopened.consistent.queue, hstart⟩).2
  have hcounts := honce.counts w hbatch
  rw [hreturned] at hcounts
  exact Prod.mk.inj hcounts

end Once

/-! ## Two groups of one, and a group of two -/

/-- Call 2 joins the queue while call 1 writes, and then leads a group of its own. -/
def queuedRun : List (Label Nat Nat Nat 2) :=
  [.write 1 (.call {} 1), .write 2 (.call {} 1), .write 1 (.append .OK), .write 1 .insert,
    .write 1 .insert, .write 1 (.insertEnd .OK), .write 1 .finish, .write 2 (.wake {} 1),
    .write 2 (.append .OK), .write 2 .insert, .write 2 .insert, .write 2 (.insertEnd .OK),
    .write 2 .finish]

def ownBatchOnly (s : System Nat Nat (VersionEdit (InternalKey Nat) 2) Nat 2)
    (l : Label Nat Nat Nat 2) : Bool := l.succeeds natDb && s.takesOne l

theorem appliedOnce_of_run_queued :
    ∃ t, Transition.exec (fun s l => if ownBatchOnly s l then System.step natDb flushCalls s l
        else none) queuedRun flushSystem = some t ∧ AppliedOnce t 1 ∧ AppliedOnce t 2 := by
  obtain ⟨t, ht, hfirst, hsecond⟩ : ∃ t, Transition.exec (fun s l => if ownBatchOnly s l then
      System.step natDb flushCalls s l else none) queuedRun flushSystem = some t ∧
      t.writes 1 = .returned .OK ∧ t.writes 2 = .returned .OK := ⟨_, rfl, rfl, rfl⟩
  have run := Transition.Run.of_checked
    (fun s l h => (Bool.and_eq_true_iff.mp h : l.succeeds natDb = true ∧ s.takesOne l = true)) ht
  exact ⟨t, ht, appliedOnce_of_run rfl flushSystem_opened run hfirst rfl,
    appliedOnce_of_run rfl flushSystem_opened run hsecond rfl⟩

/-- While call 1 writes, the calls 2 and 3 join the queue; call 2 then leads a group of both, and
call 3 comes to the front after it. -/
def pairRun : List (Label Nat Nat Nat 2) :=
  [.write 1 (.call {} 1), .write 2 (.call {} 1), .write 3 (.call {} 1), .write 1 (.append .OK),
    .write 1 .insert, .write 1 .insert, .write 1 (.insertEnd .OK), .write 1 .finish,
    .write 2 (.wake {} 2), .write 2 (.append .OK), .write 2 .insert, .write 2 .insert,
    .write 2 .insert, .write 2 .insert, .write 2 (.insertEnd .OK), .write 2 .finish,
    .write 3 (.wake {} 1), .write 3 (.append .OK), .write 3 .insert, .write 3 .insert,
    .write 3 (.insertEnd .OK), .write 3 .finish]

/-- Everything succeeds, and when call 3 returns its batch has been appended twice. -/
theorem batch_applied_twice :
    (∀ l ∈ pairRun, l.succeeds natDb = true) ∧
      ∃ t, Transition.exec (System.step natDb flushCalls) pairRun flushSystem = some t ∧
        t.writes 3 = .returned .OK ∧ timesIn 3 t.appended = 2 ∧ timesIn 3 t.inserted = 2 ∧
        ¬ AppliedOnce t 3 := by
  refine ⟨by decide, ?_⟩
  obtain ⟨t, ht, hreturned, happended, hinserted⟩ :
      ∃ t, Transition.exec (System.step natDb flushCalls) pairRun flushSystem = some t ∧
        t.writes 3 = .returned .OK ∧ timesIn 3 t.appended = 2 ∧ timesIn 3 t.inserted = 2 :=
    ⟨_, rfl, rfl, rfl, rfl⟩
  refine ⟨t, ht, hreturned, happended, hinserted, fun hone => ?_⟩
  rw [hone.1] at happended
  cases happended

end LevelDB
