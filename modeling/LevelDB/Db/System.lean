import LevelDB.Db.Flush
import LevelDB.Db.Room
import LevelDB.Lib.Transition

/-!
# The database with its threads

Any number of calls of `Write` and `Get` and of background jobs run together. A step is what one
thread does from one point at which the mutex is taken to the next one at which it is released, or
one operation done without the mutex. A waiting thread may wake up without a signal.

A call of `Write` is an element of `W`; `calls` gives its arguments. What the environment decides is
in the labels: the outcomes of file operations, how many writers `BuildBatchGroup` takes, whether
`UpdateStats` asks for a compaction, which file `PickCompaction` picks for a trivial move, and what
`NeedsCompaction` returns with a new version. Other compactions (`DoCompactionWork`) are not here.

`appended` and `inserted` are no variables of the program: they list the groups whose record was
appended to the log and those whose entries were all inserted into the memtable.
-/

set_option autoImplicit false

namespace LevelDB

/-! ## Local states -/

structure WriteRequest (U V : Type) where
  /-- `none` is a null batch. -/
  updates : Option (List (BatchOp U V))
  sync : Bool := false

/-- A write group: the writers whose batches are written, the batch with its sequence number, and
the variable `last_sequence` of the leader. -/
structure Group (U V W : Type) where
  members : List W
  sequence : Nat
  ops : List (BatchOp U V)
  lastSequence : Nat

/-- Where a call of `Write` is. -/
inductive WriteCall (U V W : Type)
  | idle
  | waiting (signalled : Bool)
  | sleeping (room : Room)
  | roomWaiting (room : Room) (signalled : Bool)
  | appending (g : Group U V W)
  | syncing (g : Group U V W)
  | inserting (g : Group U V W) (mem : Nat) (rest : List (Entry U V))
  | relocking (g : Group U V W) (status : Status) (syncError : Bool)
  | returned (status : Status)

inductive GetPc (U V : Type) (N : Nat)
  | inMem
  | inImm
  | inTables (rest : List (Fin N × FileMetaData (InternalKey U))) (state : MatchState U V N)
  | relocking (result : GetResult V) (stats : Option (GetStats U N))
  | returned (result : GetResult V)

/-- A call of `Get`, with what it captured under the mutex. -/
structure GetCall (U V : Type) (N : Nat) where
  lookup : LookupKey U
  mem : Nat
  imm : Option Nat
  current : Version (InternalKey U) N
  pc : GetPc U V N := .inMem

/-- Where a background job is; `isFlush` tells `CompactMemtable` from a trivial move. -/
inductive Job (U : Type) (N : Nat)
  | building (f : Flush U N)
  | built (f : Flush U N) (fileMeta : TableMeta U) (s : Status)
  | logging (isFlush : Bool) (i : Install (InternalKey U) N) (o : ApplyOutcomes)
  | logged (isFlush : Bool) (i : Install (InternalKey U) N) (o : ApplyOutcomes)

structure System (U V R W : Type) (N : Nat) where
  db : Db U V R N
  writers : List W := []
  writes : W → WriteCall U V W := fun _ => .idle
  /-- `done` and `status` of a writer: `none` while it is not done. -/
  done : W → Option Status := fun _ => none
  gets : List (GetCall U V N) := []
  jobs : List (Job U N) := []
  appended : List (Group U V W) := []
  inserted : List (Group U V W) := []

/-- The steps of a call of `Write`. -/
inductive WriteAct
  | call (o : CreateOutcome) (size : Nat)
  | wake (o : CreateOutcome) (size : Nat)
  | resume (o : CreateOutcome) (size : Nat)
  | append (status : Status)
  | sync (status : Status)
  | insert
  | insertEnd (status : Status)
  | finish

inductive Label (U V W : Type) (N : Nat)
  | write (w : W) (act : WriteAct)
  | getCall (key : U) (snapshot : Option Nat)
  | getRead (i : Nat)
  | getFinish (i : Nat) (updated needs : Bool)
  | jobStart (pick : Option (Fin N × Nat)) (o : ApplyOutcomes)
  | jobBuild (k : Nat) (o : BuildOutcomes U V)
  | jobBuilt (k : Nat) (o : ApplyOutcomes)
  | jobWrite (k : Nat)
  | jobFinish (k : Nat) (needs : Bool)
  | shutDown

variable {U V R W : Type} {N : Nat}

def Group.entries (g : Group U V W) : List (Entry U V) := batchEntries g.sequence g.ops

def Group.record (g : Group U V W) : LogRecord U V := { sequence := g.sequence, ops := g.ops }

/-- The call has not returned. -/
def GetCall.active (g : GetCall U V N) : Bool :=
  match g.pc with
  | .returned _ => false
  | _ => true

namespace WriteCall

/-- `cv.Signal()` of a writer. -/
def signal : WriteCall U V W → WriteCall U V W
  | waiting _ => waiting true
  | pc => pc

/-- `background_work_finished_signal_.SignalAll()`, for one thread. -/
def signalRoom : WriteCall U V W → WriteCall U V W
  | roomWaiting room _ => roomWaiting room true
  | pc => pc

end WriteCall

namespace System

def signalAll (s : System U V R W N) : System U V R W N :=
  { s with writes := fun w => (s.writes w).signalRoom }

/-! ## Write -/

section Write

variable [DecidableEq W] (cfg : DbConfig U V R N) (calls : W → WriteRequest U V)
  (s : System U V R W N) (w : W)

def setWrite (pc : WriteCall U V W) : System U V R W N :=
  { s with writes := Function.update s.writes w pc }

/-- The loop that takes the finished writers off the queue, up to `lastWriter`. -/
def popWriters (lastWriter : W) (status : Status) :
    List W → System U V R W N → Option (System U V R W N)
  | [], _ => none
  | ready :: rest, s =>
    let s := if ready ≠ w then
        { s with
          done := Function.update s.done ready (some status)
          writes := Function.update s.writes ready (s.writes ready).signal }
      else s
    if ready = lastWriter then some { s with writers := rest }
    else popWriters lastWriter status rest s

/-- Signal the writer that is now at the front. -/
def signalFront : System U V R W N :=
  match s.writers with
  | [] => s
  | front :: _ => s.setWrite front (s.writes front).signal

/-- The end of `Write`; `last_writer` is the call itself, as no one else sets it. -/
def finishWrite (status : Status) : Option (System U V R W N) :=
  (popWriters w w status s.writers s).map fun s => s.signalFront.setWrite w (.returned status)

/-- `BuildBatchGroup` with `SetSequence` and the new `last_sequence`: the batches of the first
`size` writers. -/
def buildGroup (size : Nat) : Group U V W :=
  let ops := (s.writers.take size).flatMap fun w => ((calls w).updates).getD []
  { members := s.writers.take size
    sequence := s.db.versions.lastSequence + 1
    ops
    lastSequence := s.db.versions.lastSequence + ops.length }

/-- From the return of `MakeRoomForWrite`. -/
def afterRoom (status : Status) (size : Nat) : Option (System U V R W N) :=
  if cfg.ok status ∧ (calls w).updates.isSome then
    if 0 < size then some (s.setWrite w (.appending (s.buildGroup calls size))) else none
  else s.finishWrite w status

/-- `MakeRoomForWrite` from the loop on. -/
def runRoom (room : Room) (o : CreateOutcome) (size : Nat) : Option (System U V R W N) :=
  match makeRoom cfg o s.db room with
  | none => none
  | some (db, .sleeps room) => some ({ s with db }.setWrite w (.sleeping room))
  | some (db, .waits room) => some ({ s with db }.setWrite w (.roomWaiting room false))
  | some (db, .returns status) => { s with db }.afterRoom cfg calls w status size

/-- The loop that waits for the front of the queue, and what follows it. -/
def checkFront (o : CreateOutcome) (size : Nat) : Option (System U V R W N) :=
  match s.done w with
  | some status => some (s.setWrite w (.returned status))
  | none =>
    match s.writers with
    | [] => none
    | front :: _ =>
      if front = w then s.runRoom cfg calls w (Room.new (calls w).updates.isNone) o size
      else some (s.setWrite w (.waiting false))

/-- `log_->AddRecord`. -/
def logAppend (g : Group U V W) (status : Status) : Option (System U V R W N) :=
  s.db.logfile.bind fun n => (s.db.logs n).map fun records =>
    { s with
      db := { s.db with
        logs := if status = Status.OK then Function.update s.db.logs n (some (records ++ [g.record]))
          else s.db.logs }
      appended := if status = Status.OK then s.appended ++ [g] else s.appended }.setWrite w
      (if cfg.ok status then
        if (calls w).sync then .syncing g else .inserting g s.db.mem g.entries
      else .relocking g status false)

/-- `logfile_->Sync()`. -/
def logSync (g : Group U V W) (status : Status) : Option (System U V R W N) :=
  s.db.logfile.map fun _ => s.setWrite w
    (if cfg.ok status then .inserting g s.db.mem g.entries else .relocking g status true)

/-- One entry of `InsertInto`. -/
def memInsert (g : Group U V W) (m : Nat) (e : Entry U V) (rest : List (Entry U V)) :
    Option (System U V R W N) :=
  (s.db.memtables.modify (· ++ [e]) m).map fun memtables =>
    { s with db := { s.db with memtables } }.setWrite w (.inserting g m rest)

/-- The return of `InsertInto`, which is OK only when all entries are in. -/
def insertEnd (g : Group U V W) (rest : List (Entry U V)) (status : Status) :
    Option (System U V R W N) :=
  if status = Status.OK ∧ rest ≠ [] then none
  else some ({ s with
    inserted := if status = Status.OK then s.inserted ++ [g] else s.inserted }.setWrite w
      (.relocking g status false))

def recordError (status : Status) : System U V R W N :=
  { s with db := s.db.recordBackgroundError cfg status }.signalAll

def setLastSequence (lastSequence : Nat) : System U V R W N :=
  { s with db := { s.db with versions := { s.db.versions with lastSequence } } }

/-- From the end of the unlocked part on. -/
def writeFinish (g : Group U V W) (status : Status) (syncError : Bool) :
    Option (System U V R W N) :=
  ((if syncError then s.recordError cfg status else s).setLastSequence g.lastSequence).finishWrite
    w status

def write (act : WriteAct) : Option (System U V R W N) :=
  match s.writes w, act with
  | .idle, .call o size => { s with writers := s.writers ++ [w] }.checkFront cfg calls w o size
  | .waiting _, .wake o size => s.checkFront cfg calls w o size
  | .sleeping room, .resume o size => s.runRoom cfg calls w room o size
  | .roomWaiting room _, .resume o size => s.runRoom cfg calls w room o size
  | .appending g, .append status => s.logAppend cfg calls w g status
  | .syncing g, .sync status => s.logSync cfg w g status
  | .inserting g m (e :: rest), .insert => s.memInsert w g m e rest
  | .inserting g _ rest, .insertEnd status => s.insertEnd w g rest status
  | .relocking g status syncError, .finish => s.writeFinish cfg w g status syncError
  | _, _ => none

end Write

/-! ## Get -/

section Get

variable (cfg : DbConfig U V R N) (s : System U V R W N)

/-- `Get` up to the release of the mutex. -/
def getCall (key : U) (snapshot : Option Nat) : Option (System U V R W N) := do
  let memtables ← s.db.memtables.ref s.db.mem
  let memtables ← memtables.refOpt s.db.imm
  some { s with
    db := { s.db with memtables }
    gets := s.gets ++ [{
      lookup := { userKey := key, sequence := snapshot.getD s.db.versions.lastSequence }
      mem := s.db.mem, imm := s.db.imm, current := s.db.versions.current }] }

/-- The search goes on in the tables of the captured version. -/
def searchTables (g : GetCall U V N) : GetPc U V N :=
  .inTables (cfg.forEachOverlapping g.current g.lookup) {}

/-- One call of `State::Match`. -/
def searchFile (db : Db U V R N) (g : GetCall U V N) (level : Fin N)
    (f : FileMetaData (InternalKey U)) (rest : List (Fin N × FileMetaData (InternalKey U)))
    (state : MatchState U V N) : GetPc U V N :=
  let answer := cfg.tableCacheGet (db.tables f.number) g.lookup
  let r := matchFile cfg.ok cfg.keyText g.lookup.userKey state level f answer.1 answer.2
  if r.1 then .inTables rest r.2 else .relocking r.2.result (some r.2.stats)

/-- One lookup of the part of `Get` without the mutex. -/
def readPc (db : Db U V R N) (g : GetCall U V N) : Option (GetPc U V N) :=
  match g.pc with
  | .inMem => (db.memtables.content g.mem).map fun es =>
    match cfg.memTableGet es g.lookup, g.imm with
    | some r, _ => .relocking (GetResult.ofAnswer r) none
    | none, some _ => .inImm
    | none, none => searchTables cfg g
  | .inImm => g.imm.bind fun m => (db.memtables.content m).map fun es =>
    match cfg.memTableGet es g.lookup with
    | some r => .relocking (GetResult.ofAnswer r) none
    | none => searchTables cfg g
  | .inTables [] state => some (.relocking state.result (some state.stats))
  | .inTables ((level, f) :: rest) state => some (searchFile cfg db g level f rest state)
  | _ => none

def getRead (i : Nat) : Option (System U V R W N) :=
  s.gets[i]?.bind fun g => (readPc cfg s.db g).map fun pc =>
    { s with gets := s.gets.set i { g with pc } }

/-- `UpdateStats` asks for a compaction. -/
def chargeStats (db : Db U V R N) (stats : Option (GetStats U N)) (updated needs : Bool) :
    Db U V R N :=
  if stats.isSome ∧ updated then { db with needsCompaction := needs }.maybeScheduleCompaction cfg
  else db

def unrefCaptured (memtables : RefCounted.Heap (MemTable U V)) (g : GetCall U V N) :
    Option (RefCounted.Heap (MemTable U V)) :=
  (memtables.unref g.mem).bind fun memtables => memtables.unrefOpt g.imm

def getFinish (i : Nat) (updated needs : Bool) : Option (System U V R W N) :=
  s.gets[i]?.bind fun g =>
    match g.pc with
    | .relocking result stats => (unrefCaptured s.db.memtables g).map fun memtables =>
      { s with
        db := { chargeStats cfg s.db stats updated needs with memtables }
        gets := s.gets.set i { g with pc := .returned result } }
    | _ => none

end Get

/-! ## Background jobs -/

section Jobs

variable (cfg : DbConfig U V R N) (s : System U V R W N)

/-- The end of `BackgroundCall`. -/
def endBackground : System U V R W N :=
  { s with
    db := { s.db with backgroundCompactionScheduled := false }.maybeScheduleCompaction cfg }.signalAll

/-- The edit of a trivial move. -/
def moveEdit (level next : Fin N) (f : FileMetaData (InternalKey U)) :
    VersionEdit (InternalKey U) N :=
  (({} : VersionEdit (InternalKey U) N).removeFile level f.number).addFile next f.number f.fileSize
    f.smallest f.largest

/-- A trivial move of the picked file, up to the release of the mutex. -/
def moveBegin [Std.TransCmp cfg.version.icmp] (level : Fin N) (index : Nat) (o : ApplyOutcomes) :
    Option (System U V R W N) :=
  if h : level.val + 1 < N then
    (s.db.versions.current.files level)[index]?.bind fun f =>
      (applyBegin cfg s.db (moveEdit level ⟨level.val + 1, h⟩ f) o).map fun r =>
        { s with db := r.1, jobs := s.jobs ++ [.logging false r.2 o] }
  else none

/-- The compaction that `PickCompaction` picks, if any, is a trivial move. -/
def backgroundCompaction [Std.TransCmp cfg.version.icmp] (pick : Option (Fin N × Nat))
    (o : ApplyOutcomes) : Option (System U V R W N) :=
  if s.db.imm ≠ none then
    (flushBegin s.db).map fun r => { s with db := r.1, jobs := s.jobs ++ [.building r.2] }
  else
    match pick with
    | none => some (s.endBackground cfg)
    | some (level, index) => s.moveBegin cfg level index o

/-- `BackgroundCall` up to the first release of the mutex, for a job given to `Env::Schedule`. -/
def jobStart [Std.TransCmp cfg.version.icmp] (pick : Option (Fin N × Nat)) (o : ApplyOutcomes) :
    Option (System U V R W N) :=
  if 0 < s.db.jobQueue ∧ s.db.backgroundCompactionScheduled then
    let s := { s with db := { s.db with jobQueue := s.db.jobQueue - 1 } }
    if s.db.shuttingDown ∨ ¬ cfg.ok s.db.bgError then some (s.endBackground cfg)
    else s.backgroundCompaction cfg pick o
  else none

def jobBuild (k : Nat) (o : BuildOutcomes U V) : Option (System U V R W N) :=
  match s.jobs[k]? with
  | some (.building f) => (flushBuild cfg s.db f o).map fun r =>
    { s with db := r.1, jobs := s.jobs.set k (.built f r.2.fileMeta r.2.s) }
  | _ => none

/-- The job is over. -/
def endJob (k : Nat) (db : Db U V R N) : System U V R W N :=
  { s with db, jobs := s.jobs.eraseIdx k }.endBackground cfg

def jobBuilt [Std.TransCmp cfg.version.icmp] (k : Nat) (o : ApplyOutcomes) :
    Option (System U V R W N) :=
  match s.jobs[k]? with
  | some (.built f fileMeta status) =>
    (flushBuilt cfg s.db f fileMeta status s.db.shuttingDown o).map fun r =>
      match r.2 with
      | .logs i => { s with db := r.1, jobs := s.jobs.set k (.logging true i o) }
      | .fails status => s.endJob cfg k (r.1.recordBackgroundError cfg status)
  | _ => none

def jobWrite (k : Nat) : Option (System U V R W N) :=
  match s.jobs[k]? with
  | some (.logging isFlush i o) => (applyWrite cfg s.db i o).map fun r =>
    { s with db := r.1, jobs := s.jobs.set k (.logged isFlush r.2 o) }
  | _ => none

/-- The versions that calls of `Get` hold. -/
def heldVersions : List (Version (InternalKey U) N) :=
  (s.gets.filter GetCall.active).map GetCall.current

/-- The end of a trivial move. -/
def moveFinish (db : Db U V R N) (i : Install (InternalKey U) N) (o : ApplyOutcomes)
    (needs : Bool) : Db U V R N :=
  if cfg.ok i.s then applyFinish cfg db i o needs
  else (applyFinish cfg db i o needs).recordBackgroundError cfg i.s

def jobFinish (k : Nat) (needs : Bool) : Option (System U V R W N) :=
  match s.jobs[k]? with
  | some (.logged true i o) =>
    (flushFinish cfg s.db i o needs s.heldVersions).map fun db => s.endJob cfg k db
  | some (.logged false i o) => some (s.endJob cfg k (moveFinish cfg s.db i o needs))
  | _ => none

end Jobs

/-- One step of one thread. -/
def step [DecidableEq W] (cfg : DbConfig U V R N) [Std.TransCmp cfg.version.icmp]
    (calls : W → WriteRequest U V) (s : System U V R W N) :
    Label U V W N → Option (System U V R W N)
  | .write w act => s.write cfg calls w act
  | .getCall key snapshot => s.getCall key snapshot
  | .getRead i => s.getRead cfg i
  | .getFinish i updated needs => s.getFinish cfg i updated needs
  | .jobStart pick o => s.jobStart cfg pick o
  | .jobBuild k o => s.jobBuild cfg k o
  | .jobBuilt k o => s.jobBuilt cfg k o
  | .jobWrite k => s.jobWrite cfg k
  | .jobFinish k needs => s.jobFinish cfg k needs
  | .shutDown => some { s with db := { s.db with shuttingDown := true } }

end System

end LevelDB
