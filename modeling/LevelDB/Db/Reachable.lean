import LevelDB.Db.Files
import LevelDB.Db.Groups

/-!
# Reachable states

`Opened` is a database that no call uses yet. `Orderly` collects what its threads keep by
themselves, `Consistent` also what rests on the numbers and files that the code outside this
repository handles.

* `Orderly.step` — every step keeps the state orderly;
* `consistent_of_reaches` — every reachable state is consistent.
-/

set_option autoImplicit false

namespace LevelDB

variable {U V R W : Type} {N : Nat}

/-- No call has been made and no job is running; the memtables and the listed files are there. -/
structure Opened (s : System U V R W N) : Prop where
  writers : s.writers = []
  writes : ∀ w, s.writes w = .idle
  done : ∀ w, s.done w = none
  gets : s.gets = []
  jobs : s.jobs = []
  appended : s.appended = []
  inserted : s.inserted = []
  queued : s.db.jobQueue = s.db.scheduledJobs
  exact : s.db.memtables.Exact (s.db.mem :: s.db.imm.toList)
  fresh : ∀ a ∈ s.db.mem :: s.db.imm.toList, a < s.db.nextMem
  apart : s.db.imm ≠ some s.db.mem
  below : ∀ n, s.db.versions.current.Lists n → n < s.db.versions.nextFileNumber
  onDisk : ∀ n, s.db.versions.current.Lists n → s.db.tables n ≠ none

/-- What every step keeps, whatever the code outside this repository does. -/
structure Orderly (s : System U V R W N) : Prop where
  queue : QueueOk s
  references : ReferencesOk s
  oneJob : OneJob s
  groups : GroupsOk s

structure Consistent (s : System U V R W N) : Prop where
  queue : QueueOk s
  references : ReferencesOk s
  files : FilesOk s
  groups : GroupsOk s

section

variable {cfg : DbConfig U V R N} {calls : W → WriteRequest U V} {s t : System U V R W N}

theorem Consistent.orderly (h : Consistent s) : Orderly s :=
  ⟨h.queue, h.references, h.files.oneJob, h.groups⟩

theorem Opened.consistent (h : Opened s) : Consistent s := by
  have hholders : s.holders = s.db.mem :: s.db.imm.toList := by
    unfold System.holders
    rw [h.gets, List.flatMap_nil, List.append_nil]
  have hlive : s.live = [s.db.versions.current] := by
    unfold System.live System.heldVersions
    rw [h.gets]
    rfl
  refine ⟨⟨?_, fun w => ?_, fun w hw => ?_, h.done⟩, ⟨?_, ?_, h.apart⟩, ⟨?_, ?_, ?_, ?_⟩,
    fun w => ?_⟩
  · rw [h.writers]
    exact List.nodup_nil
  · rw [h.writers, h.writes]
    exact iff_of_false List.not_mem_nil fun hne => hne rfl
  · rw [h.writes] at hw
    cases hw
  · rw [hholders]
    exact h.exact
  · rw [hholders]
    exact h.fresh
  · rw [h.jobs, h.queued]
    rfl
  · rw [hlive]
    intro v hv
    rw [List.mem_singleton.mp hv]
    exact h.below
  · rw [hlive]
    intro v hv
    rw [List.mem_singleton.mp hv]
    exact h.onDisk
  · rw [h.jobs]
    exact fun j hj => absurd hj List.not_mem_nil
  · rw [h.writes]
    exact .of_none rfl

theorem Opened.orderly (h : Opened s) : Orderly s := h.consistent.orderly

variable [DecidableEq W] [Std.TransCmp cfg.version.icmp]

theorem Orderly.step (h : Orderly s) {l : Label U V W N}
    (hstep : System.step cfg calls s l = some t) : Orderly t where
  queue := h.queue.step hstep
  references := h.references.step h.queue hstep
  oneJob := h.oneJob.step h.queue hstep
  groups := h.groups.step h.queue hstep

theorem Consistent.step (h : Consistent s) (hreuses : cfg.ReusesLast) (hkeeps : cfg.KeepsLive)
    {l : Label U V W N} (hstep : System.step cfg calls s l = some t) : Consistent t where
  queue := h.queue.step hstep
  references := h.references.step h.queue hstep
  files := h.files.step h.queue hreuses hkeeps hstep
  groups := h.groups.step h.queue hstep

/-- **Every reachable state is consistent.** -/
theorem consistent_of_reaches (hreuses : cfg.ReusesLast) (hkeeps : cfg.KeepsLive)
    (h : Consistent s) (run : Transition.Reaches (System.step cfg calls) s t) : Consistent t :=
  run.invariant (fun h _ hstep => h.step hreuses hkeeps hstep) h

end

/-! ## A small database -/

/-- The database with one entry in `imm_`, before any call. -/
def flushSystem : System Nat Nat (VersionEdit (InternalKey Nat) 2) Nat 2 := { db := flushDb }

/-- Every call puts two keys, without `sync`. -/
def flushCalls (w : Nat) : WriteRequest Nat Nat :=
  { updates := some
      [{ type := .value, key := w, value := w }, { type := .value, key := 7, value := w }] }

theorem flushSystem_opened : Opened flushSystem where
  writers := rfl
  writes _ := rfl
  done _ := rfl
  gets := rfl
  jobs := rfl
  appended := rfl
  inserted := rfl
  queued := rfl
  exact a := by
    match a with
    | 0 => rfl
    | 1 => rfl
    | a + 2 =>
      have hcount : List.count (a + 2) (flushSystem.db.mem :: flushSystem.db.imm.toList) = 0 := by
        refine List.count_eq_zero.mpr ?_
        show a + 2 ∉ [1, 0]
        simp
      rw [hcount]
      rfl
  fresh a ha := by
    have ha : a ∈ [1, 0] := ha
    show a < 2
    simp at ha
    omega
  apart := nofun
  below n hn := absurd hn (flushDb_notListed n)
  onDisk n hn := absurd hn (flushDb_notListed n)

/-- The same database with the job for `imm_` handed out. -/
def queuedSystem : System Nat Nat (VersionEdit (InternalKey Nat) 2) Nat 2 :=
  { db := { flushDb with backgroundCompactionScheduled := true, jobQueue := 1 } }

theorem queuedSystem_opened : Opened queuedSystem where
  writers := rfl
  writes _ := rfl
  done _ := rfl
  gets := rfl
  jobs := rfl
  appended := rfl
  inserted := rfl
  queued := rfl
  exact := flushSystem_opened.exact
  fresh := flushSystem_opened.fresh
  apart := flushSystem_opened.apart
  below := flushSystem_opened.below
  onDisk := flushSystem_opened.onDisk

/-- Every call puts five keys, which fill a memtable; call 0 asks for a sync. -/
def fullCalls (w : Nat) : WriteRequest Nat Nat :=
  { updates := some ((List.range 5).map fun key => { type := .value, key := key, value := w })
    sync := w == 0 }

/-- A call that writes five entries. -/
def writeFive (w : Nat) : List (Label Nat Nat Nat 2) :=
  [.write w (.call {} 1), .write w (.append .OK), .write w .insert, .write w .insert,
    .write w .insert, .write w .insert, .write w .insert, .write w (.insertEnd .OK),
    .write w .finish]

/-- A call whose sync fails. -/
def syncFails (w : Nat) : List (Label Nat Nat Nat 2) :=
  [.write w (.call {} 1), .write w (.append .OK), .write w (.sync (.IOError "sync" "")),
    .write w .finish]

/-- The flush of `imm_` from beginning to end. -/
def flushes : List (Label Nat Nat Nat 2) :=
  [.jobStart none {}, .jobBuild 0 {}, .jobBuilt 0 {}, .jobWrite 0, .jobFinish 0 false]

end LevelDB
