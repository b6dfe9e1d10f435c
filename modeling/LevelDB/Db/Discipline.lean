import LevelDB.Db.Reachable

/-!
# The discipline of the queue

A call that finds itself at the front of the queue goes on; the others wait to be signalled.

* `WriteStep.queue` — a step of a call adds it at the back of the queue or takes it off the front;
* `FrontSignalled.step` — the call at the front is active or has been signalled;
* `queueDiscipline_of_run` — so at most one call is active, calls leave in the order in which they
  arrived, the loop that takes writers off the queue finds its own call in front, and no wakeup is
  lost.
-/

set_option autoImplicit false

namespace LevelDB

variable {U V R W : Type} {N : Nat}

/-! ## Arrivals and departures -/

/-- The call that joins the queue in a step. -/
def WriteAct.arrived (w : W) : WriteAct → List W
  | .call _ _ => [w]
  | _ => []

/-- The call that has returned after a step of its own. -/
def WriteCall.departed (w : W) : WriteCall U V W → List W
  | .returned _ => [w]
  | _ => []

structure QueueHistory (W : Type) where
  arrivals : List W := []
  departures : List W := []

/-- The calls of `Write` in the order in which they start, and in the order in which they return. -/
def QueueHistory.record (h : QueueHistory W) (_ : System U V R W N) (l : Label U V W N)
    (t : System U V R W N) : QueueHistory W :=
  match l with
  | .write w act =>
    { arrivals := h.arrivals ++ act.arrived w
      departures := h.departures ++ (t.writes w).departed w }
  | _ => h

/-- The front of the queue is past the loop that waits for the front, or has been signalled. -/
def FrontSignalled (s : System U V R W N) : Prop :=
  ∀ w rest, s.writers = w :: rest → (s.writes w).phase = .active ∨ s.writes w = .waiting true

/-- A call `w` comes to the loop that takes the writers off the queue, with this status. -/
inductive ComesToPop (cfg : DbConfig U V R N) (calls : W → WriteRequest U V)
    (s : System U V R W N) (w : W) : System U V R W N → Status → Prop
  | room {act : WriteAct} {s₁ : System U V R W N} {room : Room} {o : CreateOutcome} {size : Nat}
      {db : Db U V R N} {status : Status} (henters : EntersRoom calls s w act s₁ room o size)
      (hmake : makeRoom cfg o s.db room = some (db, .returns status))
      (hnot : ¬ (cfg.ok status = true ∧ (calls w).updates.isSome)) :
      ComesToPop cfg calls s w { s₁ with db } status
  | written {g : Group U V W} {status : Status} {syncError : Bool}
      (hpc : s.writes w = .relocking g status syncError) :
      ComesToPop cfg calls s w
        ((if syncError then s.recordError cfg status else s).setLastSequence g.lastSequence) status

structure QueueDiscipline [DecidableEq W] (cfg : DbConfig U V R N) (calls : W → WriteRequest U V)
    (s : System U V R W N) : Prop where
  /-- At most one call is past the wait loop and has not left the queue. -/
  unique : ∀ w w', (s.writes w).phase = .active → (s.writes w').phase = .active → w = w'
  front : ∀ w, (s.writes w).phase = .active → s.writers.head? = some w
  /-- The loop finds its own call at the front and takes that one only. -/
  pops : ∀ w s₁ status, ComesToPop cfg calls s w s₁ status →
    ∃ rest, s₁.writers = w :: rest ∧ s₁.finishWrite w status = some (s₁.leave w rest status)
  signalled : ∀ w rest, s.writers = w :: rest → (∀ x, (s.writes x).phase ≠ .active) →
    s.writes w = .waiting true

section Discipline

variable [DecidableEq W] {cfg : DbConfig U V R N} {calls : W → WriteRequest U V}
  {s s₁ t : System U V R W N} {w : W}

omit [DecidableEq W] in
theorem EntersRoom.queue {act : WriteAct} {room : Room} {o : CreateOutcome} {size : Nat}
    (h : EntersRoom calls s w act s₁ room o size) :
    s₁.writers = s.writers ++ act.arrived w := by
  cases h with
  | called hpc hempty =>
    rw [hempty]
    rfl
  | woken => exact (List.append_nil _).symm
  | slept => exact (List.append_nil _).symm
  | waited => exact (List.append_nil _).symm

theorem RoomThen.queue {size : Nat} {e : RoomExit} (h : RoomThen cfg calls s w size e t) :
    s.writers = (t.writes w).departed w ++ t.writers := by
  cases h with
  | sleeps room =>
    rw [setWrite_self]
    rfl
  | waits room =>
    rw [setWrite_self]
    rfl
  | leads =>
    rw [setWrite_self]
    rfl
  | returns hwriters =>
    rw [leave_self, leave_eq]
    exact hwriters

/-- **A step of a call** adds it at the back of the queue or takes it off the front. -/
theorem WriteStep.queue {act : WriteAct} (h : WriteStep cfg calls s w act t) :
    s.writers ++ act.arrived w = (t.writes w).departed w ++ t.writers := by
  cases h with
  | joins =>
    rw [setWrite_self]
    rfl
  | waits =>
    rw [setWrite_self]
    exact List.append_nil _
  | rooms henters hmake hthen => exact henters.queue.symm.trans hthen.queue
  | appends hpc happend =>
    obtain ⟨n, -, happend⟩ := Option.bind_eq_some_iff.mp happend
    obtain ⟨records, -, rfl⟩ := Option.map_eq_some_iff.mp happend
    rw [setWrite_self]
    refine (List.append_nil _).trans ?_
    split
    · split
      · rfl
      · rfl
    · rfl
  | syncs hpc hsync =>
    obtain ⟨n, -, rfl⟩ := Option.map_eq_some_iff.mp hsync
    rw [setWrite_self]
    refine (List.append_nil _).trans ?_
    split
    · rfl
    · rfl
  | inserts hpc hinsert =>
    obtain ⟨memtables, -, rfl⟩ := Option.map_eq_some_iff.mp hinsert
    rw [setWrite_self]
    exact List.append_nil _
  | ends hpc hend =>
    unfold System.insertEnd at hend
    split at hend
    · cases hend
    · cases hend
      rw [setWrite_self]
      exact List.append_nil _
  | finishes hpc hwriters =>
    rw [leave_self, leave_eq]
    exact (List.append_nil _).trans hwriters

/-! ## The front is signalled -/

omit [DecidableEq W] in
/-- Behind the front every call waits. -/
theorem QueueOk.waiting (hq : QueueOk s) {rest : List W} (hwriters : s.writers = w :: rest) {x : W}
    (hx : x ∈ rest) : x ≠ w ∧ ∃ b, s.writes x = .waiting b := by
  have hnodup := hq.nodup
  rw [hwriters] at hnodup
  have hne : x ≠ w := by
    rintro rfl
    exact (List.nodup_cons.mp hnodup).1 hx
  refine ⟨hne, ?_⟩
  have hqueued : (s.writes x).phase ≠ .outside := by
    rw [← hq.member, hwriters]
    exact List.mem_cons_of_mem w hx
  have hactive : (s.writes x).phase ≠ .active := by
    intro hactive
    have hfront := hq.front x hactive
    rw [hwriters] at hfront
    exact hne (Option.some.inj hfront).symm
  cases hpc : s.writes x with
  | waiting b => exact ⟨b, rfl⟩
  | idle =>
    rw [hpc] at hqueued
    exact absurd rfl hqueued
  | returned =>
    rw [hpc] at hqueued
    exact absurd rfl hqueued
  | _ =>
    rw [hpc] at hactive
    exact absurd rfl hactive

/-- The call that leaves the queue hands it over. -/
theorem frontSignalled_leave {rest : List W} {status : Status}
    (hrest : ∀ x ∈ rest, x ≠ w ∧ ∃ b, s.writes x = .waiting b) :
    FrontSignalled (s.leave w rest status) := by
  intro x rest' hwriters
  rw [leave_eq] at hwriters
  have hwriters : rest = x :: rest' := hwriters
  subst hwriters
  obtain ⟨hne, b, hb⟩ := hrest x List.mem_cons_self
  refine Or.inr ?_
  unfold System.leave System.signalFront
  rw [setWrite_ne hne]
  dsimp only
  rw [setWrite_self, hb]
  rfl

omit [DecidableEq W] in
theorem FrontSignalled.congr (h : FrontSignalled s) (hwriters : t.writers = s.writers)
    (hsame : ∀ x, (t.writes x).phase = (s.writes x).phase)
    (hsignalled : ∀ x, s.writes x = .waiting true → t.writes x = .waiting true) :
    FrontSignalled t := by
  intro x rest hx
  rw [hwriters] at hx
  rcases h x rest hx with h | h
  · exact Or.inl ((hsame x).trans h)
  · exact Or.inr (hsignalled x h)

omit [DecidableEq W] in
/-- The active call is the front. -/
theorem FrontSignalled.of_active (hq : QueueOk t) (hw : (t.writes w).phase = .active) :
    FrontSignalled t := by
  intro x rest hx
  have hfront := hq.front w hw
  rw [hx] at hfront
  obtain rfl := Option.some.inj hfront
  exact Or.inl hw

theorem FrontSignalled.roomThen {rest : List W} {size : Nat} {e : RoomExit} (hq : QueueOk t)
    (hwriters : s.writers = w :: rest)
    (hrest : ∀ x ∈ rest, x ≠ w ∧ ∃ b, s.writes x = .waiting b)
    (h : RoomThen cfg calls s w size e t) : FrontSignalled t := by
  cases h with
  | sleeps room => exact .of_active hq (by rw [setWrite_self]; rfl)
  | waits room => exact .of_active hq (by rw [setWrite_self]; rfl)
  | leads => exact .of_active hq (by rw [setWrite_self]; rfl)
  | returns hwriters' =>
    obtain rfl := (List.cons.inj (hwriters.symm.trans hwriters')).2
    exact frontSignalled_leave hrest

theorem FrontSignalled.write {act : WriteAct} (h : FrontSignalled s) (hq : QueueOk s)
    (hstep : WriteStep cfg calls s w act t) : FrontSignalled t := by
  have hqt : QueueOk t := hstep.queueOk hq
  cases hstep with
  | @joins o size hpc hwriters =>
    intro x rest hx
    obtain ⟨front, others, hfront⟩ := List.exists_cons_of_ne_nil hwriters
    have hx : s.writers ++ [w] = x :: rest := hx
    rw [hfront, List.cons_append] at hx
    obtain ⟨rfl, -⟩ := List.cons.inj hx
    have hne : front ≠ w := by
      rintro rfl
      have hmem : front ∈ s.writers := by
        rw [hfront]
        exact List.mem_cons_self
      rw [hq.member, hpc] at hmem
      exact hmem rfl
    rw [setWrite_ne hne]
    exact h front others hfront
  | @waits o size b hpc hnot =>
    intro x rest hx
    have hwriters : s.writers = x :: rest := hx
    have hne : x ≠ w := by
      rintro rfl
      rw [hwriters] at hnot
      exact hnot rfl
    rw [setWrite_ne hne]
    exact h x rest hwriters
  | @rooms act s₁ t room o size db e henters hmake hthen =>
    obtain ⟨rest, rfl, hs⟩ := henters.shape hq
    refine FrontSignalled.roomThen hqt rfl (fun x hx => ?_) hthen
    rcases hs with ⟨-, rfl⟩ | hs
    · exact absurd hx List.not_mem_nil
    · exact hq.waiting hs hx
  | appends hpc happend =>
    exact .of_active hqt (WriteCall.active_of_group (group?_logAppend happend))
  | syncs hpc hsync => exact .of_active hqt (WriteCall.active_of_group (group?_logSync hsync))
  | inserts hpc hinsert =>
    exact .of_active hqt (WriteCall.active_of_group (group?_memInsert hinsert))
  | ends hpc hend => exact .of_active hqt (WriteCall.active_of_group (group?_insertEnd hend))
  | @finishes g status syncError rest hpc hwriters =>
    refine frontSignalled_leave fun x hx => ?_
    obtain ⟨hne, b, hb⟩ := hq.waiting hwriters hx
    refine ⟨hne, b, ?_⟩
    cases syncError
    · exact hb
    · show (s.writes x).signalRoom = .waiting b
      rw [hb]
      rfl

/-! ## The loop that takes writers off the queue -/

/-- The loop finds its own call in front. -/
theorem ComesToPop.front (hq : QueueOk s) {status : Status}
    (h : ComesToPop cfg calls s w s₁ status) :
    ∃ rest, s₁.writers = w :: rest ∧ s₁.finishWrite w status = some (s₁.leave w rest status) := by
  cases h with
  | room henters =>
    obtain ⟨rest, rfl, -⟩ := henters.shape hq
    exact ⟨rest, rfl, finishWrite_front rfl status⟩
  | @written g status syncError hpc =>
    obtain ⟨rest, hrest⟩ := hq.cons (w := w) (by rw [hpc]; rfl)
    have hwriters := writers_groupEnd cfg g.lastSequence status syncError hrest
    exact ⟨rest, hwriters, finishWrite_front hwriters status⟩

/-! ## Every run -/

variable [Std.TransCmp cfg.version.icmp]

theorem FrontSignalled.step (h : FrontSignalled s) (hq : QueueOk s) {l : Label U V W N}
    (hstep : System.step cfg calls s l = some t) : FrontSignalled t := by
  rcases l.write_or_other with ⟨w, act, rfl⟩ | hl
  · exact h.write hq (writeStep_of_write hq hstep)
  · have hsame := sameQueue_of_step hl hstep
    refine h.congr hsame.writers hsame.phase fun x hx => ?_
    rcases hsame.writes with hw | hw
    · rw [hw, hx]
    · rw [hw]
      dsimp only
      rw [hx]
      rfl

/-- Those who arrived have departed, in the same order, or are in the queue. -/
theorem arrivals_step {h : QueueHistory W} (hh : h.arrivals = h.departures ++ s.writers)
    (hq : QueueOk s) {l : Label U V W N} (hstep : System.step cfg calls s l = some t) :
    (h.record s l t).arrivals = (h.record s l t).departures ++ t.writers := by
  rcases l.write_or_other with ⟨w, act, rfl⟩ | hl
  · show h.arrivals ++ act.arrived w = h.departures ++ (t.writes w).departed w ++ t.writers
    rw [hh, List.append_assoc, List.append_assoc, (writeStep_of_write hq hstep).queue]
  · have hsame := sameQueue_of_step hl hstep
    have hrecord : h.record s l t = h := by
      cases l with
      | write w act => exact absurd rfl (hl w act)
      | _ => rfl
    rw [hrecord, hsame.writers, hh]

/-- **The discipline of the queue**, in every run: at most one call is active, calls leave in the
order in which they arrived, and when no call is active the front has been signalled. -/
theorem queueDiscipline_of_run (hopened : Opened s) {h : QueueHistory W}
    (run : Transition.Reaches
      (Transition.tracked (System.step cfg calls) QueueHistory.record) (s, {}) (t, h)) :
    QueueDiscipline cfg calls t ∧ h.arrivals = h.departures ++ t.writers := by
  have hstart : FrontSignalled s := by
    intro w rest hw
    rw [hopened.writers] at hw
    cases hw
  obtain ⟨hq, hfront, hh⟩ := run.invariant
    (I := fun x => QueueOk x.1 ∧ FrontSignalled x.1 ∧ x.2.arrivals = x.2.departures ++ x.1.writers)
    (fun {x y l} ⟨hq, hfront, hh⟩ _ hstep => by
      obtain ⟨hstep, hrecord⟩ := Transition.tracked_eq_some.mp hstep
      rw [hrecord]
      exact ⟨hq.step hstep, hfront.step hq hstep, arrivals_step hh hq hstep⟩)
    ⟨hopened.consistent.queue, hstart, by rw [hopened.writers]; rfl⟩
  refine ⟨⟨fun w w' => hq.unique, hq.front, fun w s₁ status hpop => hpop.front hq,
    fun w rest hwriters halone => ?_⟩, hh⟩
  rcases hfront w rest hwriters with hactive | hsignalled
  · exact absurd hactive (halone w)
  · exact hsignalled

end Discipline

/-- Call 2 joins while call 1 writes, and is signalled when it leaves. -/
theorem queueDiscipline_of_run_two :
    ∃ t h, Transition.exec (Transition.tracked (System.step natDb flushCalls) QueueHistory.record)
        [.write 1 (.call {} 1), .write 2 (.call {} 1), .write 1 (.append .OK), .write 1 .insert,
          .write 1 .insert, .write 1 (.insertEnd .OK), .write 1 .finish] (flushSystem, {}) =
        some (t, h) ∧ h.arrivals = [1, 2] ∧ h.departures = [1] ∧ t.writes 2 = .waiting true ∧
      QueueDiscipline natDb flushCalls t ∧ h.arrivals = h.departures ++ t.writers := by
  obtain ⟨t, h, ht, harrivals, hdepartures, hsignalled⟩ : ∃ t h,
      Transition.exec (Transition.tracked (System.step natDb flushCalls) QueueHistory.record)
        [.write 1 (.call {} 1), .write 2 (.call {} 1), .write 1 (.append .OK), .write 1 .insert,
          .write 1 .insert, .write 1 (.insertEnd .OK), .write 1 .finish] (flushSystem, {}) =
        some (t, h) ∧ h.arrivals = [1, 2] ∧ h.departures = [1] ∧ t.writes 2 = .waiting true :=
    ⟨_, _, rfl, rfl, rfl, rfl⟩
  exact ⟨t, h, ht, harrivals, hdepartures, hsignalled,
    queueDiscipline_of_run flushSystem_opened (Transition.Run.of_exec ht)⟩

end LevelDB
