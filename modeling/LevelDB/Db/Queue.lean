import LevelDB.Db.Steps

/-!
# The queue of writers

The calls of `Write` that are past the loop that waits for the front of the queue are active.

* `QueueOk` — at most one call is active, it is the front of the queue, and no call is done before
  it leaves the queue itself;
* `writeStep_of_write` — under this invariant, all that a step of a call of `Write` can do;
* `QueueOk.step` — every step of every thread keeps it.
-/

set_option autoImplicit false

namespace LevelDB

variable {U V R W : Type} {N : Nat}

inductive Phase
  | outside
  | queued
  | active
  deriving DecidableEq

namespace WriteCall

def phase : WriteCall U V W → Phase
  | idle => .outside
  | waiting _ => .queued
  | returned _ => .outside
  | _ => .active

@[simp] theorem phase_signal (pc : WriteCall U V W) : pc.signal.phase = pc.phase := by
  cases pc <;> rfl

@[simp] theorem phase_signalRoom (pc : WriteCall U V W) : pc.signalRoom.phase = pc.phase := by
  cases pc <;> rfl

/-- Where a call is, without the flag that it was signalled. -/
def unsignalled : WriteCall U V W → WriteCall U V W
  | waiting _ => .waiting false
  | roomWaiting room _ => .roomWaiting room false
  | pc => pc

@[simp] theorem unsignalled_signal (pc : WriteCall U V W) :
    pc.signal.unsignalled = pc.unsignalled := by
  cases pc <;> rfl

@[simp] theorem unsignalled_signalRoom (pc : WriteCall U V W) :
    pc.signalRoom.unsignalled = pc.unsignalled := by
  cases pc <;> rfl

@[simp] theorem phase_unsignalled (pc : WriteCall U V W) : pc.unsignalled.phase = pc.phase := by
  cases pc <;> rfl

end WriteCall

/-- The queue holds the calls that have neither started nor returned, an active call is its front,
and no call has been finished by another one. -/
structure QueueOk (s : System U V R W N) : Prop where
  nodup : s.writers.Nodup
  member : ∀ w, w ∈ s.writers ↔ (s.writes w).phase ≠ .outside
  front : ∀ w, (s.writes w).phase = .active → s.writers.head? = some w
  notDone : ∀ w, s.done w = none

theorem QueueOk.unique {s : System U V R W N} (h : QueueOk s) {w w' : W}
    (hw : (s.writes w).phase = .active) (hw' : (s.writes w').phase = .active) : w = w' :=
  Option.some.inj ((h.front w hw).symm.trans (h.front w' hw'))

theorem QueueOk.congr {s t : System U V R W N} (h : QueueOk s) (hwriters : t.writers = s.writers)
    (hdone : t.done = s.done) (hphase : ∀ w, (t.writes w).phase = (s.writes w).phase) :
    QueueOk t where
  nodup := by rw [hwriters]; exact h.nodup
  member w := by rw [hwriters, hphase]; exact h.member w
  front w hw := by rw [hwriters]; exact h.front w (by rw [← hphase]; exact hw)
  notDone w := by rw [hdone]; exact h.notDone w

theorem QueueOk.cons {s : System U V R W N} (h : QueueOk s) {w : W}
    (hw : (s.writes w).phase = .active) : ∃ rest, s.writers = w :: rest := by
  have hfront := h.front w hw
  cases hwriters : s.writers with
  | nil =>
    rw [hwriters] at hfront
    cases hfront
  | cons x rest =>
    rw [hwriters] at hfront
    obtain rfl := Option.some.inj hfront
    exact ⟨rest, rfl⟩

section Step

variable [DecidableEq W] {cfg : DbConfig U V R N} {calls : W → WriteRequest U V}
  {s s₁ t : System U V R W N} {w : W}

/-! ## Leaving the queue -/

theorem signalFront_eq : s.signalFront = { s with writes := s.signalFront.writes } := by
  unfold System.signalFront System.setWrite
  split
  · rfl
  · rfl

theorem signalFront_unsignalled (x : W) :
    (s.signalFront.writes x).unsignalled = (s.writes x).unsignalled := by
  unfold System.signalFront System.setWrite
  split
  · rfl
  · rename_i front rest hwriters
    dsimp only
    by_cases hx : x = front
    · subst hx
      rw [Function.update_self, WriteCall.unsignalled_signal]
    · rw [Function.update_of_ne hx]

/-- The front of the queue leaves it, and the next call is signalled. -/
def System.leave (s : System U V R W N) (w : W) (rest : List W) (status : Status) :
    System U V R W N :=
  { s with writers := rest }.signalFront.setWrite w (.returned status)

/-- The loop at the end of `Write` takes the front only. -/
theorem finishWrite_front {rest : List W} (h : s.writers = w :: rest) (status : Status) :
    s.finishWrite w status = some (s.leave w rest status) := by
  unfold System.finishWrite
  rw [h]
  unfold System.popWriters
  simp only [ne_eq, not_true_eq_false, if_false, if_true]
  rfl

theorem leave_eq (rest : List W) (status : Status) :
    s.leave w rest status =
      { s with writers := rest, writes := (s.leave w rest status).writes } := by
  unfold System.leave System.setWrite
  rw [signalFront_eq]

theorem leave_self (rest : List W) (status : Status) :
    (s.leave w rest status).writes w = .returned status :=
  Function.update_self w _ _

theorem leave_unsignalled {x : W} (hx : x ≠ w) (rest : List W) (status : Status) :
    ((s.leave w rest status).writes x).unsignalled = (s.writes x).unsignalled := by
  unfold System.leave System.setWrite
  dsimp only
  rw [Function.update_of_ne hx]
  exact signalFront_unsignalled x

theorem leave_phase {x : W} (hx : x ≠ w) (rest : List W) (status : Status) :
    ((s.leave w rest status).writes x).phase = (s.writes x).phase := by
  rw [← WriteCall.phase_unsignalled, leave_unsignalled hx, WriteCall.phase_unsignalled]

/-! ## The steps of a call of Write -/

omit [DecidableEq W] in
/-- What a leader does before it takes its group off the queue leaves the queue alone. -/
theorem writers_groupEnd (cfg : DbConfig U V R N) (last : Nat) (status : Status) (syncError : Bool)
    {rest : List W} (h : s.writers = w :: rest) :
    ((if syncError then s.recordError cfg status else s).setLastSequence last).writers =
      w :: rest := by
  cases syncError
  · exact h
  · exact h

/-- How a call comes to the loop of `MakeRoomForWrite`: as `s₁`, with these local variables. -/
inductive EntersRoom (calls : W → WriteRequest U V) (s : System U V R W N) (w : W) :
    WriteAct → System U V R W N → Room → CreateOutcome → Nat → Prop
  | called {o : CreateOutcome} {size : Nat} (hpc : s.writes w = .idle) (hempty : s.writers = []) :
      EntersRoom calls s w (.call o size) { s with writers := [w] }
        (Room.new (calls w).updates.isNone) o size
  | woken {o : CreateOutcome} {size : Nat} {b : Bool} {rest : List W}
      (hpc : s.writes w = .waiting b) (hfront : s.writers = w :: rest) :
      EntersRoom calls s w (.wake o size) s (Room.new (calls w).updates.isNone) o size
  | slept {o : CreateOutcome} {size : Nat} {room : Room} (hpc : s.writes w = .sleeping room) :
      EntersRoom calls s w (.resume o size) s room o size
  | waited {o : CreateOutcome} {size : Nat} {room : Room} {b : Bool}
      (hpc : s.writes w = .roomWaiting room b) :
      EntersRoom calls s w (.resume o size) s room o size

/-- What follows the loop of `MakeRoomForWrite`. -/
inductive RoomThen (cfg : DbConfig U V R N) (calls : W → WriteRequest U V)
    (s : System U V R W N) (w : W) (size : Nat) : RoomExit → System U V R W N → Prop
  | sleeps (room : Room) :
      RoomThen cfg calls s w size (.sleeps room) (s.setWrite w (.sleeping room))
  | waits (room : Room) :
      RoomThen cfg calls s w size (.waits room) (s.setWrite w (.roomWaiting room false))
  | leads {status : Status} (hok : cfg.ok status = true) (hbatch : (calls w).updates.isSome)
      (hsize : 0 < size) :
      RoomThen cfg calls s w size (.returns status)
        (s.setWrite w (.appending (s.buildGroup calls size)))
  | returns {status : Status} {rest : List W} (hwriters : s.writers = w :: rest)
      (hnot : ¬ (cfg.ok status = true ∧ (calls w).updates.isSome)) :
      RoomThen cfg calls s w size (.returns status) (s.leave w rest status)

/-- All that a step of a call of `Write` can do. -/
inductive WriteStep (cfg : DbConfig U V R N) (calls : W → WriteRequest U V)
    (s : System U V R W N) (w : W) : WriteAct → System U V R W N → Prop
  | joins {o : CreateOutcome} {size : Nat} (hpc : s.writes w = .idle) (hwriters : s.writers ≠ []) :
      WriteStep cfg calls s w (.call o size)
        ({ s with writers := s.writers ++ [w] }.setWrite w (.waiting false))
  | waits {o : CreateOutcome} {size : Nat} {b : Bool} (hpc : s.writes w = .waiting b)
      (hfront : s.writers.head? ≠ some w) :
      WriteStep cfg calls s w (.wake o size) (s.setWrite w (.waiting false))
  | rooms {act : WriteAct} {s₁ t : System U V R W N} {room : Room} {o : CreateOutcome} {size : Nat}
      {db : Db U V R N} {e : RoomExit} (henters : EntersRoom calls s w act s₁ room o size)
      (hmake : makeRoom cfg o s.db room = some (db, e))
      (hthen : RoomThen cfg calls { s₁ with db } w size e t) :
      WriteStep cfg calls s w act t
  | appends {t : System U V R W N} {g : Group U V W} {status : Status}
      (hpc : s.writes w = .appending g) (happend : s.logAppend cfg calls w g status = some t) :
      WriteStep cfg calls s w (.append status) t
  | syncs {t : System U V R W N} {g : Group U V W} {status : Status}
      (hpc : s.writes w = .syncing g) (hsync : s.logSync cfg w g status = some t) :
      WriteStep cfg calls s w (.sync status) t
  | inserts {t : System U V R W N} {g : Group U V W} {m : Nat} {e : Entry U V}
      {rest : List (Entry U V)} (hpc : s.writes w = .inserting g m (e :: rest))
      (hinsert : s.memInsert w g m e rest = some t) : WriteStep cfg calls s w .insert t
  | ends {t : System U V R W N} {g : Group U V W} {m : Nat} {rest : List (Entry U V)}
      {status : Status} (hpc : s.writes w = .inserting g m rest)
      (hend : s.insertEnd w g rest status = some t) :
      WriteStep cfg calls s w (.insertEnd status) t
  | finishes {g : Group U V W} {status : Status} {syncError : Bool} {rest : List W}
      (hpc : s.writes w = .relocking g status syncError) (hwriters : s.writers = w :: rest) :
      WriteStep cfg calls s w .finish
        (((if syncError then s.recordError cfg status else s).setLastSequence
          g.lastSequence).leave w rest status)

omit [DecidableEq W] in
theorem EntersRoom.shape {act : WriteAct} {room : Room} {o : CreateOutcome} {size : Nat}
    (hq : QueueOk s) (h : EntersRoom calls s w act s₁ room o size) :
    ∃ rest, s₁ = { s with writers := w :: rest } ∧
      (s.writers = [] ∧ rest = [] ∨ s.writers = w :: rest) := by
  cases h with
  | called hpc hempty => exact ⟨[], rfl, Or.inl ⟨hempty, rfl⟩⟩
  | woken hpc hfront => exact ⟨_, by rw [← hfront], Or.inr hfront⟩
  | slept hpc =>
    obtain ⟨rest, hrest⟩ := hq.cons (w := w) (by rw [hpc]; rfl)
    exact ⟨rest, by rw [← hrest], Or.inr hrest⟩
  | waited hpc =>
    obtain ⟨rest, hrest⟩ := hq.cons (w := w) (by rw [hpc]; rfl)
    exact ⟨rest, by rw [← hrest], Or.inr hrest⟩

theorem roomThen_of_runRoom {room : Room} {o : CreateOutcome} {size : Nat} {rest : List W}
    (hwriters : s.writers = w :: rest) (h : s.runRoom cfg calls w room o size = some t) :
    ∃ db e, makeRoom cfg o s.db room = some (db, e) ∧
      RoomThen cfg calls { s with db } w size e t := by
  unfold System.runRoom at h
  split at h
  · cases h
  · rename_i db room' hmake
    cases h
    exact ⟨db, _, hmake, .sleeps room'⟩
  · rename_i db room' hmake
    cases h
    exact ⟨db, _, hmake, .waits room'⟩
  · rename_i db status hmake
    refine ⟨db, _, hmake, ?_⟩
    unfold System.afterRoom at h
    split at h
    · rename_i hlead
      split at h
      · rename_i hsize
        cases h
        exact .leads hlead.1 hlead.2 hsize
      · cases h
    · rename_i hnot
      have hwriters' : ({ s with db } : System U V R W N).writers = w :: rest := hwriters
      rw [finishWrite_front hwriters' status] at h
      cases h
      exact .returns hwriters' hnot

theorem writeStep_of_checkFront {act : WriteAct} {o : CreateOutcome} {size : Nat}
    (h : s₁.checkFront cfg calls w o size = some t) (hdone : s₁.done w = none) (hdb : s₁.db = s.db)
    (henters : ∀ rest, s₁.writers = w :: rest →
      EntersRoom calls s w act s₁ (Room.new (calls w).updates.isNone) o size)
    (hwaits : ∀ front rest, s₁.writers = front :: rest → front ≠ w →
      WriteStep cfg calls s w act (s₁.setWrite w (.waiting false))) :
    WriteStep cfg calls s w act t := by
  unfold System.checkFront at h
  rw [hdone] at h
  dsimp only at h
  split at h
  · cases h
  · rename_i front rest hwriters
    split at h
    · rename_i hfront
      subst hfront
      obtain ⟨db, e, hmake, hthen⟩ := roomThen_of_runRoom hwriters h
      rw [hdb] at hmake
      exact .rooms (henters rest hwriters) hmake hthen
    · rename_i hfront
      cases h
      exact hwaits front rest hwriters hfront

/-- **All that a step of a call of `Write` can do.** -/
theorem writeStep_of_write (hq : QueueOk s) {act : WriteAct}
    (h : s.write cfg calls w act = some t) : WriteStep cfg calls s w act t := by
  unfold System.write at h
  split at h
  · rename_i o size hpc
    refine writeStep_of_checkFront h (hq.notDone w) rfl (fun rest hwriters => ?_)
      (fun front rest hwriters hfront => ?_)
    · have hempty : s.writers = [] := by
        cases hs : s.writers with
        | nil => rfl
        | cons x l =>
          have hwriters : s.writers ++ [w] = w :: rest := hwriters
          rw [hs, List.cons_append, List.cons.injEq] at hwriters
          have hmem : w ∈ s.writers := by
            rw [hs, hwriters.1]
            exact List.mem_cons_self
          rw [hq.member, hpc] at hmem
          exact absurd rfl hmem
      have hcalled := @EntersRoom.called U V R W N calls s w o size hpc hempty
      rw [hempty]
      exact hcalled
    · refine .joins hpc fun hempty => ?_
      have hwriters : s.writers ++ [w] = front :: rest := hwriters
      rw [hempty] at hwriters
      exact hfront (List.cons.inj hwriters).1.symm
  · rename_i o size b hpc
    refine writeStep_of_checkFront h (hq.notDone w) rfl
      (fun rest hwriters => .woken hpc hwriters)
      (fun front rest hwriters hfront => .waits hpc ?_)
    rw [hwriters]
    exact fun hhead => hfront (Option.some.inj hhead)
  · rename_i o size room hpc
    obtain ⟨rest, hrest⟩ := hq.cons (w := w) (by rw [hpc]; rfl)
    obtain ⟨db, e, hmake, hthen⟩ := roomThen_of_runRoom hrest h
    exact .rooms (.slept hpc) hmake hthen
  · rename_i o size room b hpc
    obtain ⟨rest, hrest⟩ := hq.cons (w := w) (by rw [hpc]; rfl)
    obtain ⟨db, e, hmake, hthen⟩ := roomThen_of_runRoom hrest h
    exact .rooms (.waited hpc) hmake hthen
  · rename_i g status hpc
    exact .appends hpc h
  · rename_i g status hpc
    exact .syncs hpc h
  · rename_i g m e rest hpc
    exact .inserts hpc h
  · rename_i g m rest status hpc
    exact .ends hpc h
  · rename_i g status syncError hpc
    obtain ⟨rest, hrest⟩ := hq.cons (w := w) (by rw [hpc]; rfl)
    have hwriters := writers_groupEnd cfg g.lastSequence status syncError hrest
    unfold System.writeFinish at h
    rw [finishWrite_front hwriters] at h
    cases h
    exact .finishes hpc hrest
  · cases h

omit [DecidableEq W] in
theorem EntersRoom.keeps {act : WriteAct} {room : Room} {o : CreateOutcome} {size : Nat}
    (h : EntersRoom calls s w act s₁ room o size) :
    s₁.gets = s.gets ∧ s₁.jobs = s.jobs ∧ s₁.appended = s.appended ∧ s₁.inserted = s.inserted := by
  cases h with
  | _ => exact ⟨rfl, rfl, rfl, rfl⟩

theorem RoomThen.keeps {size : Nat} {e : RoomExit} (h : RoomThen cfg calls s w size e t) :
    t.db = s.db ∧ t.gets = s.gets ∧ t.jobs = s.jobs ∧ t.appended = s.appended ∧
      t.inserted = s.inserted := by
  cases h with
  | returns =>
    rw [leave_eq]
    exact ⟨rfl, rfl, rfl, rfl, rfl⟩
  | _ => exact ⟨rfl, rfl, rfl, rfl, rfl⟩

/-- The end of a group: the shared variables, and what is kept. -/
theorem finish_keeps (cfg : DbConfig U V R N) (s : System U V R W N) (w : W) (g : Group U V W)
    (status : Status) (syncError : Bool) (rest : List W) :
    ∃ writes, ((if syncError then s.recordError cfg status else s).setLastSequence
        g.lastSequence).leave w rest status =
      { s with
        db := { s.db with
          bgError :=
            if syncError then cfg.recordBackgroundError s.db.bgError status else s.db.bgError
          versions := { s.db.versions with lastSequence := g.lastSequence } }
        writers := rest, writes := writes } := by
  rw [leave_eq]
  cases syncError
  · exact ⟨_, rfl⟩
  · exact ⟨_, rfl⟩

/-- What a step of a call of `Write` can do to the shared variables. -/
inductive WriteDb (cfg : DbConfig U V R N) (s : System U V R W N) (w : W) : Db U V R N → Prop
  | room {o : CreateOutcome} {db : Db U V R N} (heffect : RoomEffect cfg o s.db db) :
      WriteDb cfg s w db
  | logged {logs : Nat → Option (List (LogRecord U V))}
      (hlogs : ∀ n, logs n = none ↔ s.db.logs n = none) : WriteDb cfg s w { s.db with logs }
  | inserted {g : Group U V W} {m : Nat} {e : Entry U V} {rest : List (Entry U V)}
      {memtables : RefCounted.Heap (MemTable U V)} (hpc : s.writes w = .inserting g m (e :: rest))
      (hmod : s.db.memtables.modify (· ++ [e]) m = some memtables) :
      WriteDb cfg s w { s.db with memtables }
  | sequenced {g : Group U V W} {status bgError : Status} {syncError : Bool}
      (hpc : s.writes w = .relocking g status syncError)
      (herror : bgError =
        if syncError then cfg.recordBackgroundError s.db.bgError status else s.db.bgError) :
      WriteDb cfg s w { s.db with
        bgError, versions := { s.db.versions with lastSequence := g.lastSequence } }

theorem WriteStep.db {act : WriteAct} (h : WriteStep cfg calls s w act t) :
    WriteDb cfg s w t.db ∧ t.gets = s.gets ∧ t.jobs = s.jobs := by
  cases h with
  | joins => exact ⟨.room (o := {}) .same, rfl, rfl⟩
  | waits => exact ⟨.room (o := {}) .same, rfl, rfl⟩
  | rooms henters hmake hthen =>
    obtain ⟨hdb, hgets, hjobs, -, -⟩ := hthen.keeps
    obtain ⟨hgets', hjobs', -, -⟩ := henters.keeps
    rw [hdb, hgets, hjobs]
    exact ⟨.room (makeRoom_effect hmake), hgets', hjobs'⟩
  | appends hpc happend =>
    obtain ⟨n, -, happend⟩ := Option.bind_eq_some_iff.mp happend
    obtain ⟨records, hn, rfl⟩ := Option.map_eq_some_iff.mp happend
    refine ⟨.logged fun n' => ?_, rfl, rfl⟩
    split
    · by_cases heq : n' = n
      · rw [heq, Function.update_self, hn]
        exact iff_of_false nofun nofun
      · rw [Function.update_of_ne heq]
    · exact Iff.rfl
  | syncs hpc hsync =>
    obtain ⟨n, -, rfl⟩ := Option.map_eq_some_iff.mp hsync
    exact ⟨.room (o := {}) .same, rfl, rfl⟩
  | inserts hpc hinsert =>
    obtain ⟨memtables, hmod, rfl⟩ := Option.map_eq_some_iff.mp hinsert
    exact ⟨.inserted hpc hmod, rfl, rfl⟩
  | ends hpc hend =>
    unfold System.insertEnd at hend
    split at hend
    · cases hend
    · cases hend
      exact ⟨.room (o := {}) .same, rfl, rfl⟩
  | @finishes g status syncError rest hpc hwriters =>
    obtain ⟨writes, heq⟩ := finish_keeps cfg s w g status syncError rest
    rw [heq]
    exact ⟨.sequenced hpc rfl, rfl, rfl⟩

omit [DecidableEq W] in
theorem EntersRoom.writes {act : WriteAct} {room : Room} {o : CreateOutcome} {size : Nat}
    (h : EntersRoom calls s w act s₁ room o size) : s₁.writes = s.writes ∧ s₁.done = s.done := by
  cases h with
  | _ => exact ⟨rfl, rfl⟩

theorem setWrite_self (pc : WriteCall U V W) : (s.setWrite w pc).writes w = pc :=
  Function.update_self w _ _

theorem setWrite_ne {x : W} (hx : x ≠ w) (pc : WriteCall U V W) :
    (s.setWrite w pc).writes x = s.writes x :=
  Function.update_of_ne hx _ _

theorem RoomThen.others {size : Nat} {e : RoomExit} (h : RoomThen cfg calls s w size e t) {x : W}
    (hx : x ≠ w) : (t.writes x).unsignalled = (s.writes x).unsignalled := by
  cases h with
  | returns => exact leave_unsignalled hx _ _
  | _ => rw [setWrite_ne hx]

/-- **A step of a call moves no other call**; at most it signals it. -/
theorem WriteStep.others {act : WriteAct} (h : WriteStep cfg calls s w act t) {x : W}
    (hx : x ≠ w) : (t.writes x).unsignalled = (s.writes x).unsignalled := by
  cases h with
  | joins => rw [setWrite_ne hx]
  | waits => rw [setWrite_ne hx]
  | rooms henters hmake hthen =>
    rw [hthen.others hx]
    exact congrArg (fun writes => (writes x).unsignalled) henters.writes.1
  | appends hpc happend =>
    obtain ⟨n, -, happend⟩ := Option.bind_eq_some_iff.mp happend
    obtain ⟨records, -, rfl⟩ := Option.map_eq_some_iff.mp happend
    rw [setWrite_ne hx]
  | syncs hpc hsync =>
    obtain ⟨n, -, rfl⟩ := Option.map_eq_some_iff.mp hsync
    rw [setWrite_ne hx]
  | inserts hpc hinsert =>
    obtain ⟨memtables, -, rfl⟩ := Option.map_eq_some_iff.mp hinsert
    rw [setWrite_ne hx]
  | ends hpc hend =>
    unfold System.insertEnd at hend
    split at hend
    · cases hend
    · cases hend
      rw [setWrite_ne hx]
  | @finishes g status syncError rest hpc hwriters =>
    rw [leave_unsignalled hx]
    cases syncError
    · rfl
    · exact WriteCall.unsignalled_signalRoom (s.writes x)

/-! ## Every step keeps the invariant -/

theorem setWrite_phase {pc : WriteCall U V W} (h : pc.phase = (s.writes w).phase) (x : W) :
    ((s.setWrite w pc).writes x).phase = (s.writes x).phase := by
  unfold System.setWrite
  by_cases hx : x = w
  · subst hx
    rw [← h]
    exact congrArg WriteCall.phase (Function.update_self x _ _)
  · exact congrArg WriteCall.phase (Function.update_of_ne hx _ _)

omit [DecidableEq W] in
/-- The front of the queue, or a call that finds the queue empty, becomes active. -/
theorem QueueOk.activate (h : QueueOk s) {rest : List W} (hwriters : t.writers = w :: rest)
    (hs : s.writers = [] ∧ rest = [] ∨ s.writers = w :: rest) (hdone : t.done = s.done)
    (hactive : (t.writes w).phase = .active)
    (hsame : ∀ x ≠ w, (t.writes x).phase = (s.writes x).phase) : QueueOk t where
  nodup := by
    rw [hwriters]
    rcases hs with ⟨-, rfl⟩ | hs
    · exact List.nodup_singleton w
    · rw [← hs]
      exact h.nodup
  member x := by
    rw [hwriters]
    by_cases hx : x = w
    · subst hx
      rw [hactive]
      simp
    · rw [hsame x hx, ← h.member]
      rcases hs with ⟨hs, rfl⟩ | hs
      · rw [hs]
        simp [hx]
      · rw [hs]
  front x hphase := by
    rw [hwriters]
    by_cases hx : x = w
    · rw [hx]
      rfl
    · rw [hsame x hx] at hphase
      have hfront := h.front x hphase
      rcases hs with ⟨hs, -⟩ | hs
      · rw [hs] at hfront
        cases hfront
      · rw [hs] at hfront
        exact absurd (Option.some.inj hfront).symm hx
  notDone x := by rw [hdone]; exact h.notDone x

omit [DecidableEq W] in
theorem QueueOk.leave (h : QueueOk s) {rest : List W} (hs : s.writers = w :: rest)
    (hwriters : t.writers = rest) (hdone : t.done = s.done)
    (houtside : (t.writes w).phase = .outside)
    (hsame : ∀ x ≠ w, (t.writes x).phase = (s.writes x).phase) : QueueOk t where
  nodup := by
    have hnodup := h.nodup
    rw [hs] at hnodup
    rw [hwriters]
    exact (List.nodup_cons.mp hnodup).2
  member x := by
    have hnodup := h.nodup
    rw [hs] at hnodup
    rw [hwriters]
    by_cases hx : x = w
    · subst hx
      rw [houtside]
      exact iff_of_false (List.nodup_cons.mp hnodup).1 (fun hne => hne rfl)
    · rw [hsame x hx, ← h.member, hs]
      simp [hx]
  front x hphase := by
    by_cases hx : x = w
    · subst hx
      rw [houtside] at hphase
      cases hphase
    · rw [hsame x hx] at hphase
      have hfront := h.front x hphase
      rw [hs] at hfront
      exact absurd (Option.some.inj hfront).symm hx
  notDone x := by rw [hdone]; exact h.notDone x

theorem QueueOk.roomThen (h : QueueOk s) {rest : List W} {size : Nat} {e : RoomExit}
    (hwriters : s₁.writers = w :: rest)
    (hs : s.writers = [] ∧ rest = [] ∨ s.writers = w :: rest) (hdone : s₁.done = s.done)
    (hwrites : s₁.writes = s.writes) (hthen : RoomThen cfg calls s₁ w size e t) : QueueOk t := by
  have hsame : ∀ (pc : WriteCall U V W), ∀ x ≠ w,
      ((s₁.setWrite w pc).writes x).phase = (s.writes x).phase := by
    intro pc x hx
    rw [setWrite_ne hx, hwrites]
  have hactive : ∀ pc : WriteCall U V W, pc.phase = .active → QueueOk (s₁.setWrite w pc) :=
    fun pc hpc => h.activate hwriters hs hdone (by rw [setWrite_self, hpc]) (hsame pc)
  cases hthen with
  | sleeps room => exact hactive _ rfl
  | waits room => exact hactive _ rfl
  | leads => exact hactive _ rfl
  | @returns status rest' hwriters' =>
    -- the call is active for a moment before it leaves
    have hmoment := hactive (.sleeping (Room.new false)) rfl
    obtain rfl : rest = rest' := (List.cons.inj (hwriters.symm.trans hwriters')).2
    refine hmoment.leave hwriters (by rw [leave_eq]) (by rw [leave_eq]; rfl)
      (by rw [leave_self]; rfl) fun x hx => ?_
    rw [leave_phase hx, setWrite_ne hx]

theorem WriteStep.queueOk {act : WriteAct} (h : QueueOk s)
    (hstep : WriteStep cfg calls s w act t) : QueueOk t := by
  cases hstep with
  | @joins o size hpc hwriters =>
    have hnot : w ∉ s.writers := by
      rw [h.member, hpc]
      exact fun hne => hne rfl
    refine ⟨?_, fun x => ?_, fun x hx => ?_, h.notDone⟩
    · show (s.writers ++ [w]).Nodup
      rw [List.nodup_append]
      refine ⟨h.nodup, List.nodup_singleton w, ?_⟩
      rintro a ha b hb rfl
      exact hnot (List.mem_singleton.mp hb ▸ ha)
    · show x ∈ s.writers ++ [w] ↔ _
      by_cases hx : x = w
      · subst hx
        rw [setWrite_self]
        simp [WriteCall.phase]
      · rw [setWrite_ne hx, List.mem_append, ← h.member]
        simp [hx]
    · have hxw : x ≠ w := by
        rintro rfl
        rw [setWrite_self] at hx
        cases hx
      rw [setWrite_ne hxw] at hx
      show (s.writers ++ [w]).head? = some x
      rw [List.head?_append_of_ne_nil _ hwriters]
      exact h.front x hx
  | waits hpc hfront => exact h.congr rfl rfl (setWrite_phase (by rw [hpc]; rfl))
  | @rooms act s₁ t room o size db e henters hmake hthen =>
    obtain ⟨rest, rfl, hs⟩ := henters.shape h
    have hwriters : ({ s with db, writers := w :: rest } : System U V R W N).writers = w :: rest :=
      rfl
    exact h.roomThen hwriters hs rfl rfl hthen
  | appends hpc happend =>
    obtain ⟨n, -, happend⟩ := Option.bind_eq_some_iff.mp happend
    obtain ⟨records, -, rfl⟩ := Option.map_eq_some_iff.mp happend
    refine h.congr rfl rfl (setWrite_phase ?_)
    rw [hpc]
    split
    · split
      · rfl
      · rfl
    · rfl
  | syncs hpc hsync =>
    obtain ⟨n, -, rfl⟩ := Option.map_eq_some_iff.mp hsync
    refine h.congr rfl rfl (setWrite_phase ?_)
    rw [hpc]
    split
    · rfl
    · rfl
  | inserts hpc hinsert =>
    obtain ⟨memtables, -, rfl⟩ := Option.map_eq_some_iff.mp hinsert
    exact h.congr rfl rfl (setWrite_phase (by rw [hpc]; rfl))
  | ends hpc hend =>
    unfold System.insertEnd at hend
    split at hend
    · cases hend
    · cases hend
      exact h.congr rfl rfl (setWrite_phase (by rw [hpc]; rfl))
  | @finishes g status syncError rest hpc hwriters =>
    have hmiddle : QueueOk ((if syncError then s.recordError cfg status else s).setLastSequence
        g.lastSequence) := by
      cases syncError
      · exact h.congr rfl rfl fun _ => rfl
      · exact h.congr rfl rfl fun x => WriteCall.phase_signalRoom (s.writes x)
    have hrest : ((if syncError then s.recordError cfg status else s).setLastSequence
        g.lastSequence).writers = w :: rest := by
      cases syncError
      · exact hwriters
      · exact hwriters
    exact hmiddle.leave hrest (by rw [leave_eq]) (by rw [leave_eq]) (by rw [leave_self]; rfl)
      fun x hx => leave_phase hx rest status

/-- What a step that is not one of a call of `Write` leaves of the queue. -/
structure SameQueue (s t : System U V R W N) : Prop where
  writers : t.writers = s.writers
  done : t.done = s.done
  writes : t.writes = s.writes ∨ t.writes = fun w => (s.writes w).signalRoom
  appended : t.appended = s.appended
  inserted : t.inserted = s.inserted

omit [DecidableEq W] in
theorem sameQueue_endBackground {s₁ : System U V R W N} (h : s₁.writers = s.writers)
    (hdone : s₁.done = s.done) (hwrites : s₁.writes = s.writes)
    (happended : s₁.appended = s.appended) (hinserted : s₁.inserted = s.inserted) :
    SameQueue s (s₁.endBackground cfg) :=
  ⟨h, hdone, Or.inr (by rw [← hwrites]; rfl), happended, hinserted⟩

variable [Std.TransCmp cfg.version.icmp]

theorem sameQueue_of_step {l : Label U V W N} (hl : ∀ w act, l ≠ .write w act)
    (h : System.step cfg calls s l = some t) : SameQueue s t := by
  have hsame : ∀ {t : System U V R W N}, t.writers = s.writers → t.done = s.done →
      t.writes = s.writes → t.appended = s.appended → t.inserted = s.inserted → SameQueue s t :=
    fun h₁ h₂ h₃ h₄ h₅ => ⟨h₁, h₂, Or.inl h₃, h₄, h₅⟩
  cases otherStep_of_step hl h with
  | idles => exact sameQueue_endBackground rfl rfl rfl rfl rfl
  | buildFails => exact sameQueue_endBackground rfl rfl rfl rfl rfl
  | finishes => exact sameQueue_endBackground rfl rfl rfl rfl rfl
  | _ => exact hsame rfl rfl rfl rfl rfl

omit [DecidableEq W] in
theorem SameQueue.unsignalled (h : SameQueue s t) (x : W) :
    (t.writes x).unsignalled = (s.writes x).unsignalled := by
  rcases h.writes with hw | hw
  · rw [hw]
  · rw [hw, WriteCall.unsignalled_signalRoom]

omit [DecidableEq W] in
theorem SameQueue.phase (h : SameQueue s t) (x : W) :
    (t.writes x).phase = (s.writes x).phase := by
  rw [← WriteCall.phase_unsignalled, h.unsignalled, WriteCall.phase_unsignalled]

/-- **Every step keeps the queue in order.** -/
theorem QueueOk.step (hq : QueueOk s) {l : Label U V W N}
    (h : System.step cfg calls s l = some t) : QueueOk t := by
  rcases l.write_or_other with ⟨w, act, rfl⟩ | hl
  · exact (writeStep_of_write hq h).queueOk hq
  · have hsame := sameQueue_of_step hl h
    exact hq.congr hsame.writers hsame.done hsame.phase

end Step

end LevelDB
