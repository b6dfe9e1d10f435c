import LevelDB.Db.State

/-!
# MakeRoomForWrite

The loop of `MakeRoomForWrite` from one point at which the mutex is taken to the next one at which
it is released: the loop returns, goes to sleep, or waits for the background work. The first guard
is as in the source, which leaves the loop when the background error is ok.

* `makeRoom_ends` — what such a stretch does: nothing, a failed creation of a log file, or one
  memtable switch.
-/

set_option autoImplicit false

namespace LevelDB

variable {U V R : Type} {N : Nat}

/-- The local variables of `MakeRoomForWrite`. -/
structure Room where
  force : Bool
  allowDelay : Bool
  s : Status
  deriving DecidableEq

/-- Where the mutex is released next. -/
inductive RoomExit
  | returns (status : Status)
  | sleeps (room : Room)
  | waits (room : Room)

inductive RoomPass
  | exit (e : RoomExit)
  | again (room : Room)

/-- The outcome of `NewWritableFile` for a log file: its status and whether it yields a file. -/
structure CreateOutcome where
  status : Status := .OK
  opened : Bool := true

section Model

variable (cfg : DbConfig U V R N) (o : CreateOutcome)

def Room.new (force : Bool) : Room := { force, allowDelay := !force, s := .OK }

/-- The assignments of a memtable switch, for a log file with this number. -/
def switchMemTable (db : Db U V R N) (number : Nat) : Db U V R N :=
  Db.maybeScheduleCompaction
    { db with
      versions := db.versions.newFileNumber.2
      logs := if o.opened then Function.update db.logs number (some []) else db.logs
      logfile := if o.opened then some number else none
      logfileNumber := number
      imm := some db.mem
      hasImm := true
      mem := db.nextMem
      memtables := db.memtables.alloc db.nextMem []
      nextMem := db.nextMem + 1 } cfg

/-- The log file was not created, and its number is given back. -/
def reuseNumber (db : Db U V R N) : Db U V R N :=
  { db with
    versions := { db.versions with
      nextFileNumber :=
        cfg.reuseFileNumber (db.versions.nextFileNumber + 1) db.versions.nextFileNumber } }

/-- The last branch of the loop, with its assertion and the one of `LogFileName`. -/
def trySwitch (db : Db U V R N) (room : Room) : Option (Db U V R N × RoomPass) :=
  if db.versions.prevLogNumber = 0 then
    (logFileName cfg.version.dbname db.versions.nextFileNumber).map fun _ =>
      if cfg.ok o.status then
        (switchMemTable cfg o db db.versions.nextFileNumber,
          .again { room with force := false, s := o.status })
      else (reuseNumber cfg db, .exit (.returns o.status))
  else none

/-- `mem_` has no room: wait for `imm_`, wait for level 0, or switch. -/
def roomFull (db : Db U V R N) (room : Room) : Option (Db U V R N × RoomPass) :=
  if db.imm ≠ none then some (db, .exit (.waits room))
  else if cfg.l0StopWritesTrigger ≤ db.versions.current.numLevelFiles 0 then
    some (db, .exit (.waits room))
  else trySwitch cfg o db room

/-- One pass of the loop. -/
def roomPass (db : Db U V R N) (room : Room) : Option (Db U V R N × RoomPass) :=
  if cfg.ok db.bgError then some (db, .exit (.returns db.bgError))
  else if room.allowDelay ∧
      cfg.l0SlowdownWritesTrigger ≤ db.versions.current.numLevelFiles 0 then
    some (db, .exit (.sleeps { room with allowDelay := false }))
  else
    match db.memtables.content db.mem with
    | none => none
    | some entries =>
      if ¬ room.force ∧ cfg.approximateMemoryUsage entries ≤ cfg.writeBufferSize then
        some (db, .exit (.returns room.s))
      else roomFull cfg o db room

def roomLoop : Nat → Db U V R N → Room → Option (Db U V R N × RoomExit)
  | 0, _, _ => none
  | fuel + 1, db, room =>
    match roomPass cfg o db room with
    | none => none
    | some (db, .exit e) => some (db, e)
    | some (db, .again room) => roomLoop fuel db room

/-- The loop up to the next release of the mutex; a second pass follows only a switch, and no switch
follows that. -/
def makeRoom (db : Db U V R N) (room : Room) : Option (Db U V R N × RoomExit) :=
  roomLoop cfg o 2 db room

end Model

/-! ## What a stretch of the loop does -/

section Ends

variable {cfg : DbConfig U V R N} {o : CreateOutcome} {db db' : Db U V R N} {room room' : Room}
  {e : RoomExit} {n : Nat}

/-- The memtable has no room for this call: it is full, or the caller asked for a switch. -/
def NoRoom (cfg : DbConfig U V R N) (db : Db U V R N) (room : Room) : Prop :=
  room.force = true ∨ cfg.writeBufferSize < cfg.approximateMemoryUsage (db.entries db.mem)

def Slowed (cfg : DbConfig U V R N) (db : Db U V R N) (room : Room) : Prop :=
  room.allowDelay = true ∧
    cfg.l0SlowdownWritesTrigger ≤ db.versions.current.numLevelFiles 0

/-- The writer has to wait for the background work. -/
def Blocked (cfg : DbConfig U V R N) (db : Db U V R N) : Prop :=
  db.imm ≠ none ∨ cfg.l0StopWritesTrigger ≤ db.versions.current.numLevelFiles 0

theorem switchMemTable_eq :
    ∃ jobQueue scheduled, switchMemTable cfg o db n =
      { db with
        versions := db.versions.newFileNumber.2
        logs := if o.opened then Function.update db.logs n (some []) else db.logs
        logfile := if o.opened then some n else none
        logfileNumber := n
        imm := some db.mem
        hasImm := true
        mem := db.nextMem
        memtables := db.memtables.alloc db.nextMem []
        nextMem := db.nextMem + 1
        jobQueue := jobQueue
        backgroundCompactionScheduled := scheduled } := by
  unfold switchMemTable
  rcases Db.maybeScheduleCompaction_eq _ cfg with heq | ⟨-, heq⟩
  · rw [heq]
    exact ⟨_, _, rfl⟩
  · rw [heq]
    exact ⟨_, _, rfl⟩

theorem switchMemTable_imm_ne : (switchMemTable cfg o db n).imm ≠ none := by
  obtain ⟨jobQueue, scheduled, heq⟩ := @switchMemTable_eq U V R N cfg o db n
  rw [heq]
  exact Option.some_ne_none _

/-- The cases of one pass. -/
inductive PassEnds (cfg : DbConfig U V R N) (o : CreateOutcome) (db : Db U V R N) (room : Room) :
    Db U V R N → RoomPass → Prop
  | noError (hok : cfg.ok db.bgError = true) :
      PassEnds cfg o db room db (.exit (.returns db.bgError))
  | slowed (herror : cfg.ok db.bgError = false) (hslowed : Slowed cfg db room) :
      PassEnds cfg o db room db (.exit (.sleeps { room with allowDelay := false }))
  | hasRoom (herror : cfg.ok db.bgError = false) (hslowed : ¬ Slowed cfg db room)
      (hroom : ¬ NoRoom cfg db room) :
      PassEnds cfg o db room db (.exit (.returns room.s))
  | blocked (herror : cfg.ok db.bgError = false) (hslowed : ¬ Slowed cfg db room)
      (hroom : NoRoom cfg db room) (hblocked : Blocked cfg db) :
      PassEnds cfg o db room db (.exit (.waits room))
  | notCreated (herror : cfg.ok db.bgError = false) (hslowed : ¬ Slowed cfg db room)
      (hroom : NoRoom cfg db room) (hblocked : ¬ Blocked cfg db)
      (hprev : db.versions.prevLogNumber = 0) (hfail : cfg.ok o.status = false) :
      PassEnds cfg o db room (reuseNumber cfg db) (.exit (.returns o.status))
  | switched (herror : cfg.ok db.bgError = false) (hslowed : ¬ Slowed cfg db room)
      (hroom : NoRoom cfg db room) (hblocked : ¬ Blocked cfg db)
      (hprev : db.versions.prevLogNumber = 0) (hcreated : cfg.ok o.status = true) :
      PassEnds cfg o db room (switchMemTable cfg o db db.versions.nextFileNumber)
        (.again { room with force := false, s := o.status })

theorem trySwitch_ends {p : RoomPass} (herror : cfg.ok db.bgError = false)
    (hslowed : ¬ Slowed cfg db room) (hroom : NoRoom cfg db room) (hblocked : ¬ Blocked cfg db)
    (h : trySwitch cfg o db room = some (db', p)) : PassEnds cfg o db room db' p := by
  unfold trySwitch at h
  split at h
  · rename_i hprev
    obtain ⟨name, -, h⟩ := Option.map_eq_some_iff.mp h
    split at h
    · rename_i hcreated
      cases h
      exact .switched herror hslowed hroom hblocked hprev hcreated
    · rename_i hfail
      cases h
      exact .notCreated herror hslowed hroom hblocked hprev (by simpa using hfail)
  · cases h

theorem roomPass_ends {p : RoomPass} (h : roomPass cfg o db room = some (db', p)) :
    PassEnds cfg o db room db' p := by
  unfold roomPass at h
  split at h
  · rename_i hok
    cases h
    exact .noError hok
  · rename_i herror
    have herror : cfg.ok db.bgError = false := by simpa using herror
    split at h
    · rename_i hslowed
      cases h
      exact .slowed herror hslowed
    · rename_i hslowed
      split at h
      · cases h
      · rename_i entries hentries
        have hmem : db.entries db.mem = entries := by
          unfold Db.entries
          rw [hentries]
          rfl
        split at h
        · rename_i hroom
          cases h
          refine .hasRoom herror hslowed ?_
          unfold NoRoom
          rw [hmem]
          rintro (hforce | hfull)
          · exact hroom.1 hforce
          · omega
        · rename_i hroom
          have hroom : NoRoom cfg db room := by
            unfold NoRoom
            rw [hmem]
            by_contra hnot
            rw [not_or, Nat.not_lt] at hnot
            exact hroom hnot
          unfold roomFull at h
          split at h
          · rename_i himm
            cases h
            exact .blocked herror hslowed hroom (Or.inl himm)
          · rename_i himm
            split at h
            · rename_i hstop
              cases h
              exact .blocked herror hslowed hroom (Or.inr hstop)
            · rename_i hstop
              refine trySwitch_ends herror hslowed hroom ?_ h
              rintro (hb | hb)
              · exact himm hb
              · exact hstop hb

/-- With `imm_` set a pass leaves the shared variables alone. -/
theorem PassEnds.eq_of_imm {p : RoomPass} (h : PassEnds cfg o db room db' p)
    (himm : db.imm ≠ none) : db' = db ∧ ∀ room', p ≠ .again room' := by
  cases h with
  | notCreated _ _ _ hblocked => exact absurd (Or.inl himm) hblocked
  | switched _ _ _ hblocked => exact absurd (Or.inl himm) hblocked
  | _ => exact ⟨rfl, fun _ => nofun⟩

theorem PassEnds.imm_of_again (h : PassEnds cfg o db room db' (.again room')) : db'.imm ≠ none := by
  cases h
  exact switchMemTable_imm_ne

/-- **A stretch of the loop** is one pass, or a switch and one more pass that changes nothing. -/
theorem makeRoom_ends (h : makeRoom cfg o db room = some (db', e)) :
    PassEnds cfg o db room db' (.exit e) ∨
      ∃ room', PassEnds cfg o db room db' (.again room') ∧
        PassEnds cfg o db' room' db' (.exit e) := by
  unfold makeRoom roomLoop at h
  split at h
  · cases h
  · rename_i hpass
    cases h
    exact Or.inl (roomPass_ends hpass)
  · rename_i db₁ room₁ hpass
    have hfirst := roomPass_ends hpass
    unfold roomLoop at h
    split at h
    · cases h
    · rename_i hpass
      cases h
      have hsecond := roomPass_ends hpass
      obtain ⟨rfl, -⟩ := hsecond.eq_of_imm hfirst.imm_of_again
      exact Or.inr ⟨room₁, hfirst, hsecond⟩
    · rename_i hpass
      exact absurd rfl (((roomPass_ends hpass).eq_of_imm hfirst.imm_of_again).2 _)

/-- What a stretch of the loop does to the shared variables. -/
inductive RoomEffect (cfg : DbConfig U V R N) (o : CreateOutcome) (db : Db U V R N) :
    Db U V R N → Prop
  | same : RoomEffect cfg o db db
  | reused (hprev : db.versions.prevLogNumber = 0) : RoomEffect cfg o db (reuseNumber cfg db)
  | switched (himm : db.imm = none) (hprev : db.versions.prevLogNumber = 0) :
      RoomEffect cfg o db (switchMemTable cfg o db db.versions.nextFileNumber)

theorem imm_eq_none_of_not_blocked (h : ¬ Blocked cfg db) : db.imm = none := by
  by_contra himm
  exact h (Or.inl himm)

theorem PassEnds.effect {p : RoomPass} (h : PassEnds cfg o db room db' p) :
    RoomEffect cfg o db db' := by
  cases h with
  | notCreated _ _ _ _ hprev => exact .reused hprev
  | switched _ _ _ hblocked hprev => exact .switched (imm_eq_none_of_not_blocked hblocked) hprev
  | _ => exact .same

theorem makeRoom_effect (h : makeRoom cfg o db room = some (db', e)) :
    RoomEffect cfg o db db' := by
  rcases makeRoom_ends h with h | ⟨_, h, -⟩
  · exact h.effect
  · exact h.effect

end Ends

end LevelDB
