import LevelDB.Db.CompactMemTable
import LevelDB.Db.Room

/-!
# The work of one call of MakeRoomForWrite

A call may sleep or wait any number of times while other threads change `imm_`, the background error
and the number of files at level 0. They leave `mem_` alone, which only the writer at the front of
the queue touches: once the call has switched, it tests a memtable that is empty.

* `RoomCall` — the passes of one call, with the log files it created and kept and with its sleeps;
* `RoomBound` — the invariant, which ties the two flags to what the call has done;
* `roomCall_bounded` — at most one switch and at most one sleep.
-/

set_option autoImplicit false

namespace LevelDB

variable {U V R : Type} {N : Nat}

/-- Other threads ran while the mutex was released. -/
structure KeepsMem (db db' : Db U V R N) : Prop where
  mem : db'.mem = db.mem
  content : db'.memtables.content db.mem = db.memtables.content db.mem

/-- A call that was made in `db₀` is at the guard of its loop; `logs` are the numbers of the log
files that it created for its switches, and `sleeps` counts its sleeps. -/
inductive RoomCall (cfg : DbConfig U V R N) (force : Bool) (db₀ : Db U V R N) :
    Db U V R N → Room → List Nat → Nat → Prop
  | entry : RoomCall cfg force db₀ db₀ (Room.new force) [] 0
  | switched {db db' : Db U V R N} {room room' : Room} {logs : List Nat} {sleeps : Nat}
      {o : CreateOutcome} (run : RoomCall cfg force db₀ db room logs sleeps)
      (hpass : roomPass cfg o db room = some (db', .again room')) :
      RoomCall cfg force db₀ db' room' (logs ++ [db'.logfileNumber]) sleeps
  | slept {db db₁ db' : Db U V R N} {room room' : Room} {logs : List Nat} {sleeps : Nat}
      {o : CreateOutcome} (run : RoomCall cfg force db₀ db room logs sleeps)
      (hpass : roomPass cfg o db room = some (db₁, .exit (.sleeps room')))
      (hothers : KeepsMem db₁ db') :
      RoomCall cfg force db₀ db' room' logs (sleeps + 1)
  | waited {db db₁ db' : Db U V R N} {room room' : Room} {logs : List Nat} {sleeps : Nat}
      {o : CreateOutcome} (run : RoomCall cfg force db₀ db room logs sleeps)
      (hpass : roomPass cfg o db room = some (db₁, .exit (.waits room')))
      (hothers : KeepsMem db₁ db') :
      RoomCall cfg force db₀ db' room' logs sleeps

/-- The invariant of the loop: a sleep is paid for with `allow_delay`, which a forced call does not
have, and after a switch nothing is forced and `mem_` is empty. -/
structure RoomBound (force : Bool) (db : Db U V R N) (room : Room) (logs : List Nat)
    (sleeps : Nat) : Prop where
  delay : sleeps + room.allowDelay.toNat ≤ 1
  forced : force = true → sleeps + room.allowDelay.toNat = 0
  once : logs = [] ∨
    logs.length = 1 ∧ room.force = false ∧ db.memtables.content db.mem = some []

section Bound

variable {cfg : DbConfig U V R N} {force : Bool} {db₀ db db' : Db U V R N} {room room' : Room}
  {logs : List Nat} {sleeps : Nat} {o : CreateOutcome}

theorem RoomBound.others (h : RoomBound force db room logs sleeps) (hothers : KeepsMem db db') :
    RoomBound force db' room logs sleeps := by
  refine ⟨h.delay, h.forced, h.once.imp_right ?_⟩
  rintro ⟨hlength, hforce, hempty⟩
  refine ⟨hlength, hforce, ?_⟩
  rw [hothers.mem, hothers.content]
  exact hempty

/-- A call that has switched finds room. -/
theorem RoomBound.not_noRoom (husage : cfg.approximateMemoryUsage [] ≤ cfg.writeBufferSize)
    (h : RoomBound force db room logs sleeps) (hroom : NoRoom cfg db room) : logs = [] := by
  refine h.once.resolve_right ?_
  rintro ⟨-, hforce, hempty⟩
  rcases hroom with hroom | hfull
  · rw [hforce] at hroom
    cases hroom
  · unfold Db.entries at hfull
    rw [hempty] at hfull
    exact absurd husage (Nat.not_le.mpr hfull)

theorem RoomBound.switched (husage : cfg.approximateMemoryUsage [] ≤ cfg.writeBufferSize)
    (h : RoomBound force db room logs sleeps) (hpass : PassEnds cfg o db room db' (.again room')) :
    RoomBound force db' room' (logs ++ [db'.logfileNumber]) sleeps := by
  cases hpass with
  | switched herror hslowed hroom hblocked hprev hcreated =>
    obtain rfl : logs = [] := h.not_noRoom husage hroom
    obtain ⟨jobQueue, scheduled, heq⟩ :=
      @switchMemTable_eq U V R N cfg o db db.versions.nextFileNumber
    refine ⟨h.delay, h.forced, Or.inr ⟨rfl, rfl, ?_⟩⟩
    rw [heq]
    exact RefCounted.Heap.content_alloc_self _

/-- A pass that sleeps gives up `allow_delay`. -/
theorem RoomBound.slept (h : RoomBound force db room logs sleeps) {db₁ : Db U V R N}
    (hpass : PassEnds cfg o db room db₁ (.exit (.sleeps room'))) (hothers : KeepsMem db₁ db') :
    RoomBound force db' room' logs (sleeps + 1) := by
  cases hpass with
  | slowed herror hslowed =>
    obtain ⟨hdelay, hforced, honce⟩ := h.others hothers
    rw [hslowed.1] at hdelay hforced
    exact ⟨hdelay, hforced, honce⟩

theorem RoomBound.waited (h : RoomBound force db room logs sleeps) {db₁ : Db U V R N}
    (hpass : PassEnds cfg o db room db₁ (.exit (.waits room'))) (hothers : KeepsMem db₁ db') :
    RoomBound force db' room' logs sleeps := by
  cases hpass with
  | blocked => exact h.others hothers

/-- **The invariant holds** whenever the call comes to its guard. -/
theorem RoomCall.bound (husage : cfg.approximateMemoryUsage [] ≤ cfg.writeBufferSize)
    (run : RoomCall cfg force db₀ db room logs sleeps) : RoomBound force db room logs sleeps := by
  induction run with
  | entry =>
    refine ⟨?_, fun hforce => ?_, Or.inl rfl⟩
    · cases force <;> decide
    · rw [hforce]
      rfl
  | switched _ hpass ih => exact ih.switched husage (roomPass_ends hpass)
  | slept _ hpass hothers ih => exact ih.slept (roomPass_ends hpass) hothers
  | waited _ hpass hothers ih => exact ih.waited (roomPass_ends hpass) hothers

/-- **One call of `MakeRoomForWrite` does bounded work.** If a new memtable is within
`write_buffer_size`, a call switches the memtable, for a log file that it creates and keeps, at most
once, and it sleeps at most once, and never when it was forced; whatever the state it is called in
and whatever other threads do while it sleeps and waits. -/
theorem roomCall_bounded (husage : cfg.approximateMemoryUsage [] ≤ cfg.writeBufferSize)
    (run : RoomCall cfg force db₀ db room logs sleeps) :
    logs.length ≤ 1 ∧ sleeps ≤ 1 ∧ (force = true → sleeps = 0) := by
  have hbound := run.bound husage
  refine ⟨?_, Nat.le_of_add_right_le hbound.delay, fun hforce =>
    Nat.eq_zero_of_add_eq_zero_right (hbound.forced hforce)⟩
  rcases hbound.once with rfl | ⟨hlength, -⟩
  · exact Nat.zero_le 1
  · exact Nat.le_of_eq hlength

end Bound

/-- A call that is not forced sleeps once and then switches. -/
theorem roomCall_bounded_busy :
    let file : FileMetaData (InternalKey Nat) :=
      { number := 3, smallest := ⟨1, 1, .value⟩, largest := ⟨1, 1, .value⟩ }
    let busy : Version (InternalKey Nat) 2 :=
      { files := fun level => if level = 0 then List.replicate 8 file else [] }
    let db : Db Nat Nat (VersionEdit (InternalKey Nat) 2) 2 :=
      { flushDb with
        imm := none
        bgError := .IOError "" ""
        memtables := flushDb.memtables.alloc 1 (List.replicate 5 ⟨⟨7, 1, .value⟩, 70⟩) }
    ∃ db' room logs, RoomCall natDb false
        { db with versions := { db.versions with current := busy } } db' room logs 1 ∧
      logs = [5] ∧ logs.length ≤ 1 := by
  intro file busy db
  have hslept : RoomCall natDb false { db with versions := { db.versions with current := busy } }
      db { force := false, allowDelay := false, s := .OK } [] 1 :=
    .slept (o := {}) .entry rfl ⟨rfl, rfl⟩
  have hswitched := RoomCall.switched (o := {}) hslept rfl
  exact ⟨_, _, _, hswitched, rfl, (roomCall_bounded (by decide) hswitched).1⟩

end LevelDB
