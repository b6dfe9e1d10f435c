import LevelDB.Db.Groups

/-!
# The log file

* `keepsLog_of_step` — readers and background jobs leave the log files and `mem_` alone.
-/

set_option autoImplicit false

namespace LevelDB

variable {U V R W : Type} {N : Nat}

/-- The log files, the current one and the current memtable stay. -/
structure KeepsLog (db db' : Db U V R N) : Prop where
  mem : db'.mem = db.mem
  nextMem : db'.nextMem = db.nextMem
  logfile : db'.logfile = db.logfile
  logfileNumber : db'.logfileNumber = db.logfileNumber
  logs : db'.logs = db.logs

section Logs

variable {cfg : DbConfig U V R N} {calls : W → WriteRequest U V} {s t : System U V R W N} {w : W}

theorem KeepsLog.refl (db : Db U V R N) : KeepsLog db db := ⟨rfl, rfl, rfl, rfl, rfl⟩

theorem KeepsLog.endBackground {db : Db U V R N} (h : KeepsLog db s.db) :
    KeepsLog db (s.endBackground cfg).db := by
  obtain ⟨db', ⟨jobQueue, scheduled, needs, rfl, -⟩, heq⟩ := endBackground_eq cfg s
  rw [heq]
  exact ⟨h.mem, h.nextMem, h.logfile, h.logfileNumber, h.logs⟩

theorem JobEnds.keepsLog {i : Install (InternalKey U) N} {db : Db U V R N}
    (h : JobEnds cfg s i db) : KeepsLog s.db db := by
  cases h with
  | flushed => exact ⟨rfl, rfl, rfl, rfl, rfl⟩
  | moved => exact ⟨rfl, rfl, rfl, rfl, rfl⟩
  | fails => exact ⟨rfl, rfl, rfl, rfl, rfl⟩

variable [DecidableEq W] [Std.TransCmp cfg.version.icmp]

/-- **Readers and background jobs leave the log alone.** -/
theorem keepsLog_of_step {l : Label U V W N} (hl : ∀ w act, l ≠ .write w act)
    (h : System.step cfg calls s l = some t) : KeepsLog s.db t.db := by
  cases otherStep_of_step hl h with
  | reads => exact .refl s.db
  | idles => exact KeepsLog.endBackground ⟨rfl, rfl, rfl, rfl, rfl⟩
  | buildFails => exact KeepsLog.endBackground ⟨rfl, rfl, rfl, rfl, rfl⟩
  | finishes _ hdb => exact KeepsLog.endBackground hdb.keepsLog
  | _ => exact ⟨rfl, rfl, rfl, rfl, rfl⟩

end Logs

end LevelDB
