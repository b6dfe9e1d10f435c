import LevelDB.Db.CompactMemTable
import LevelDB.Db.Room

/-!
# What MakeRoomForWrite promises

The whole loop of a call, pass by pass. While the call sleeps or waits, other threads change the
shared variables.

* `RoomAt` — the states in which a call comes to the guard of its loop, with the switches it made;
* `RoomOk` — what holds there, kept by every pass and by the other threads;
* `roomContract_iff` — the guard leaves the loop when there is no error, whether or not there is
  room, so the promise is kept only if the error and the room agree.
-/

set_option autoImplicit false

namespace LevelDB

variable {U V R : Type} {N : Nat}

/-- The local variables with which the call goes on after it slept or waited. -/
def RoomExit.resumed : RoomExit → Option Room
  | .sleeps room => some room
  | .waits room => some room
  | .returns _ => none

/-- What other threads leave alone in the meantime: only the writer at the front of the queue
replaces `mem_`. -/
structure LeavesRoom (db db' : Db U V R N) : Prop where
  mem : db'.mem = db.mem
  nextMem : db.nextMem ≤ db'.nextMem

/-- A call that was made in `db₀` is at the guard of its loop; `made` lists, for every switch so
far, the memtable that became `imm_` and the new one. -/
inductive RoomAt (cfg : DbConfig U V R N) (force : Bool) (db₀ : Db U V R N) :
    Db U V R N → Room → List (Nat × Nat) → Prop
  | entry : RoomAt cfg force db₀ db₀ (Room.new force) []
  | switched {db db' : Db U V R N} {room room' : Room} {made : List (Nat × Nat)}
      {o : CreateOutcome} (run : RoomAt cfg force db₀ db room made)
      (hpass : roomPass cfg o db room = some (db', .again room')) :
      RoomAt cfg force db₀ db' room' (made ++ [(db.mem, db'.mem)])
  | resumed {db db₁ db' : Db U V R N} {room room' : Room} {made : List (Nat × Nat)}
      {o : CreateOutcome} {e : RoomExit} (run : RoomAt cfg force db₀ db room made)
      (hpass : roomPass cfg o db room = some (db₁, .exit e)) (hexit : e.resumed = some room')
      (hothers : LeavesRoom db₁ db') :
      RoomAt cfg force db₀ db' room' made

/-- The promise for a call that returns `s` in `db`: with OK there is no error, `mem_` has room, and
a forced switch has been made; without, there is an error or the log file was not created. -/
structure RoomContract (cfg : DbConfig U V R N) (force : Bool) (db₀ : Db U V R N)
    (o : CreateOutcome) (made : List (Nat × Nat)) (db : Db U V R N) (s : Status) : Prop where
  noError : s = .OK → db.bgError = .OK
  room : s = .OK → cfg.approximateMemoryUsage (db.entries db.mem) ≤ cfg.writeBufferSize
  forced : s = .OK → force = true →
    db.mem ≠ db₀.mem ∧ (∃ new, (db₀.mem, new) ∈ made) ∧ ∃ old, (old, db.mem) ∈ made
  error : s ≠ .OK → db.bgError ≠ .OK ∨ o.status ≠ .OK

/-- The invariant of the loop. -/
structure RoomOk (force : Bool) (db₀ db : Db U V R N) (room : Room) (made : List (Nat × Nat)) :
    Prop where
  s : room.s = .OK
  force : room.force = true ↔ force = true ∧ made = []
  fresh : db₀.mem < db.nextMem
  same : made = [] → db.mem = db₀.mem
  changed : made ≠ [] →
    db.mem ≠ db₀.mem ∧ (∃ new, (db₀.mem, new) ∈ made) ∧ ∃ old, (old, db.mem) ∈ made

section Loop

variable {cfg : DbConfig U V R N} {force : Bool} {db₀ db db' : Db U V R N} {room room' : Room}
  {made : List (Nat × Nat)} {o : CreateOutcome} {s : Status}

theorem not_noRoom : ¬ NoRoom cfg db room ↔
    room.force = false ∧ cfg.approximateMemoryUsage (db.entries db.mem) ≤ cfg.writeBufferSize := by
  unfold NoRoom
  rw [not_or, Nat.not_lt, Bool.not_eq_true]

theorem RoomOk.switched (hok : cfg.ok = Status.isOK) (h : RoomOk force db₀ db room made)
    (hpass : PassEnds cfg o db room db' (.again room')) :
    RoomOk force db₀ db' room' (made ++ [(db.mem, db'.mem)]) := by
  cases hpass with
  | switched herror hslowed hroom hblocked hprev hcreated =>
    obtain ⟨jobQueue, scheduled, heq⟩ :=
      @switchMemTable_eq U V R N cfg o db db.versions.nextFileNumber
    rw [hok] at hcreated
    rw [heq]
    have hne : db.nextMem ≠ db₀.mem := Nat.ne_of_gt h.fresh
    refine ⟨Status.isOK_iff.mp hcreated, by simp, Nat.lt_succ_of_lt h.fresh, by simp, fun _ =>
      ⟨hne, ?_, _, List.mem_append_right _ (List.mem_singleton.mpr rfl)⟩⟩
    -- the first switch of the call is the one that gives up the memtable of the entry
    by_cases hmade : made = []
    · exact ⟨_, List.mem_append_right _ (List.mem_singleton.mpr (by rw [h.same hmade]))⟩
    · obtain ⟨-, ⟨new, hnew⟩, -⟩ := h.changed hmade
      exact ⟨new, List.mem_append_left _ hnew⟩

theorem RoomOk.resumed (h : RoomOk force db₀ db room made) {db₁ : Db U V R N} {e : RoomExit}
    (hpass : PassEnds cfg o db room db₁ (.exit e)) (hexit : e.resumed = some room')
    (hothers : LeavesRoom db₁ db') : RoomOk force db₀ db' room' made := by
  have hkeep : ∀ room', room'.s = room.s → room'.force = room.force → LeavesRoom db db' →
      RoomOk force db₀ db' room' made := by
    intro room' hs hforce hothers
    refine ⟨hs.trans h.s, by rw [hforce]; exact h.force, ?_, ?_, ?_⟩
    · exact Nat.lt_of_lt_of_le h.fresh hothers.nextMem
    · rw [hothers.mem]
      exact h.same
    · rw [hothers.mem]
      exact h.changed
  cases hpass with
  | slowed =>
    cases hexit
    exact hkeep _ rfl rfl hothers
  | blocked =>
    cases hexit
    exact hkeep _ rfl rfl hothers
  | noError => cases hexit
  | hasRoom => cases hexit
  | notCreated => cases hexit

/-- **The invariant holds** whenever the call comes to the guard. -/
theorem RoomAt.ok (hok : cfg.ok = Status.isOK) (hfresh : db₀.mem < db₀.nextMem)
    (run : RoomAt cfg force db₀ db room made) : RoomOk force db₀ db room made := by
  induction run with
  | entry => exact ⟨rfl, by simp [Room.new], hfresh, fun _ => rfl, fun hne => absurd rfl hne⟩
  | switched _ hpass ih => exact ih.switched hok (roomPass_ends hpass)
  | resumed _ hpass hexit hothers ih => exact ih.resumed (roomPass_ends hpass) hexit hothers

/-- **When `MakeRoomForWrite` keeps its promise.** The call returns in the pass that begins in `db`:
either there is no error and `mem_` has room, a forced switch being over, or there is an error and
no room, so that the call returns because the log file is not created. -/
theorem roomContract_iff (hok : cfg.ok = Status.isOK) (hfresh : db₀.mem < db₀.nextMem)
    (run : RoomAt cfg force db₀ db room made)
    (h : roomPass cfg o db room = some (db', .exit (.returns s))) :
    RoomContract cfg force db₀ o made db' s ↔
      (db.bgError = .OK ∧ ¬ NoRoom cfg db room) ∨ (db.bgError ≠ .OK ∧ NoRoom cfg db room) := by
  have hroom := run.ok hok hfresh
  have hpass := roomPass_ends h
  have herror : cfg.ok db.bgError = false → db.bgError ≠ .OK := by
    rw [hok]
    exact Status.isOK_eq_false_iff.mp
  cases hpass with
  | noError hgood =>
    rw [hok] at hgood
    have hgood : db.bgError = .OK := Status.isOK_iff.mp hgood
    constructor
    · intro hcontract
      refine Or.inl ⟨hgood, not_noRoom.mpr ⟨?_, hcontract.room hgood⟩⟩
      cases hforce : room.force with
      | false => rfl
      | true =>
        obtain ⟨hforced, hmade⟩ := hroom.force.mp hforce
        exact absurd (hroom.same hmade) (hcontract.forced hgood hforced).1
    · rintro (⟨-, hhas⟩ | ⟨hbad, -⟩)
      · obtain ⟨hforce, husage⟩ := not_noRoom.mp hhas
        refine ⟨fun _ => hgood, fun _ => husage, fun _ hforced => hroom.changed fun hmade => ?_,
          fun hbad => absurd hgood hbad⟩
        rw [hroom.force.mpr ⟨hforced, hmade⟩] at hforce
        cases hforce
      · exact absurd hgood hbad
  | hasRoom hbad hslowed hhas =>
    refine iff_of_false (fun hcontract => ?_) ?_
    · exact herror hbad (hcontract.noError hroom.s)
    · rintro (⟨hgood, -⟩ | ⟨-, hfull⟩)
      · exact herror hbad hgood
      · exact hhas hfull
  | notCreated hbad hslowed hfull hblocked hprev hfail =>
    rw [hok] at hfail
    have hfail : o.status ≠ .OK := Status.isOK_eq_false_iff.mp hfail
    exact iff_of_true ⟨fun hs => absurd hs hfail, fun hs => absurd hs hfail,
      fun hs => absurd hs hfail, fun _ => Or.inr hfail⟩ (Or.inr ⟨herror hbad, hfull⟩)

end Loop

/-! ## Forced calls -/

/-- A forced call waits here for the flush of `imm_`; there has been a background error. -/
def errorDb : Db Nat Nat (VersionEdit (InternalKey Nat) 2) 2 :=
  { flushDb with bgError := .IOError "sync" "" }

/-- The flush is over. -/
def flushedDb : Db Nat Nat (VersionEdit (InternalKey Nat) 2) 2 :=
  { errorDb with imm := none, hasImm := false }

/-- The call has waited. -/
theorem roomAt_flushed : RoomAt natDb true errorDb flushedDb (Room.new true) [] := by
  have hwaits : roomPass natDb {} errorDb (Room.new true) =
      some (errorDb, .exit (.waits (Room.new true))) := rfl
  exact .resumed .entry hwaits rfl ⟨rfl, le_refl _⟩

/-- After the wait the log file is not created, and the promise is kept; or `mem_` is switched, and
the call returns OK in spite of the error. -/
theorem roomContract_iff_waited :
    (∃ db s, roomPass natDb { status := .IOError "log" "" } flushedDb (Room.new true) =
        some (db, .exit (.returns s)) ∧
      RoomContract natDb true errorDb { status := .IOError "log" "" } [] db s) ∧
    ∃ db room made db' s, RoomAt natDb true errorDb db room made ∧ made ≠ [] ∧
      roomPass natDb {} db room = some (db', .exit (.returns s)) ∧
      ¬ RoomContract natDb true errorDb {} made db' s := by
  have herror : flushedDb.bgError ≠ .OK := Status.isOK_eq_false_iff.mp rfl
  constructor
  · refine ⟨_, _, rfl, (roomContract_iff rfl (by decide) roomAt_flushed rfl).mpr (Or.inr ?_)⟩
    exact ⟨herror, Or.inl rfl⟩
  · obtain ⟨db, room, hagain, hpass, hbad, hroom⟩ : ∃ db room,
        roomPass natDb {} flushedDb (Room.new true) = some (db, .again room) ∧
        roomPass natDb {} db room = some (db, .exit (.returns .OK)) ∧
        db.bgError = .IOError "sync" "" ∧ ¬ NoRoom natDb db room :=
      ⟨_, _, rfl, rfl, rfl, not_noRoom.mpr ⟨rfl, by decide⟩⟩
    have run := RoomAt.switched roomAt_flushed hagain
    refine ⟨db, room, _, db, .OK, run, List.cons_ne_nil _ _, hpass, fun hcontract => ?_⟩
    rcases (roomContract_iff rfl (by decide) run hpass).mp hcontract with ⟨hgood, -⟩ | ⟨-, hfull⟩
    · rw [hbad] at hgood
      cases hgood
    · exact hroom hfull

/-- A forced call returns OK at once: nothing was switched. -/
theorem forced_call_keeps_memtable :
    RoomAt natDb true flushDb flushDb (Room.new true) [] ∧
      roomPass natDb {} flushDb (Room.new true) = some (flushDb, .exit (.returns .OK)) ∧
      ¬ RoomContract natDb true flushDb {} [] flushDb .OK :=
  ⟨.entry, rfl, fun hcontract => (hcontract.forced rfl rfl).1 rfl⟩

end LevelDB
