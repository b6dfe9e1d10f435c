import LevelDB.Db.CompactMemTable

/-!
# A flush that fails

A call of `CompactMemtable` may fail while it builds the table, when it sees that the database is
being deleted, and in every step of `LogAndApply`.

* `FlushRun` — how a call runs, with the status that `LogAndApply` returned if the call came to it;
* `Retained` — what a flush that has not succeeded leaves as it was, kept by each part of the call;
* `failedFlush_retains` — a call that fails has lost nothing, and its error is recorded.
-/

set_option autoImplicit false

namespace LevelDB

variable {U V R : Type} {N : Nat}

/-- What other threads leave alone while `CompactMemtable` has released the mutex. They may write to
`mem_` and its log, read, and record errors. -/
structure LeavesImm (db db' : Db U V R N) : Prop where
  imm : db'.imm = db.imm
  entries : ∀ m, db.imm = some m → db'.memtables.content m = db.memtables.content m
  hasImm : db'.hasImm = db.hasImm
  current : db'.versions.current = db.versions.current
  logNumber : db'.versions.logNumber = db.versions.logNumber
  prevLogNumber : db'.versions.prevLogNumber = db.versions.prevLogNumber
  pendingOutputs : db'.pendingOutputs = db.pendingOutputs

theorem LeavesImm.refl (db : Db U V R N) : LeavesImm db db :=
  ⟨rfl, fun _ _ => rfl, rfl, rfl, rfl, rfl, rfl⟩

/-- The memtable `m`, the version and the log numbers are those of `db₀`; the pending outputs are
`pending`. -/
structure Retained (db₀ : Db U V R N) (m : Nat) (pending : Finset Nat) (db : Db U V R N) : Prop where
  imm : db.imm = some m
  entries : db.memtables.content m = db₀.memtables.content m
  hasImm : db.hasImm = db₀.hasImm
  current : db.versions.current = db₀.versions.current
  logNumber : db.versions.logNumber = db₀.versions.logNumber
  prevLogNumber : db.versions.prevLogNumber = db₀.versions.prevLogNumber
  pendingOutputs : db.pendingOutputs = pending

section Run

variable (cfg : DbConfig U V R N) [Std.TransCmp cfg.version.icmp] (db : Db U V R N)
  (o : FlushOutcomes U V) (others : Nat → Db U V R N → Db U V R N)
  (live : List (Version (InternalKey U) N))

/-- How a call runs: it fails before `LogAndApply`, or it ends with the status of `LogAndApply`. -/
inductive FlushRun : Option Status → Db U V R N → Prop
  | fails {db₁ db₂ db₃ : Db U V R N} {f : Flush U N} {built : Built U V} {s : Status}
      (hbegin : flushBegin db = some (db₁, f))
      (hbuild : flushBuild cfg (others 0 db₁) f o.build = some (db₂, built))
      (hbuilt : flushBuilt cfg (others 1 db₂) f built.fileMeta built.s o.shuttingDown o.apply =
        some (db₃, .fails s)) :
      FlushRun none (db₃.recordBackgroundError cfg s)
  | applies {db₁ db₂ db₃ db₄ db' : Db U V R N} {f : Flush U N} {built : Built U V}
      {i i' : Install (InternalKey U) N}
      (hbegin : flushBegin db = some (db₁, f))
      (hbuild : flushBuild cfg (others 0 db₁) f o.build = some (db₂, built))
      (hbuilt : flushBuilt cfg (others 1 db₂) f built.fileMeta built.s o.shuttingDown o.apply =
        some (db₃, .logs i))
      (hwrite : applyWrite cfg (others 2 db₃) i o.apply = some (db₄, i'))
      (hfinish : flushFinish cfg (others 3 db₄) i' o.apply o.needs live = some db') :
      FlushRun (some i'.s) db'

end Run

section Parts

variable {cfg : DbConfig U V R N} {db db₀ db' : Db U V R N} {m : Nat} {pending : Finset Nat}

theorem Retained.others (h : Retained db₀ m pending db) (hothers : LeavesImm db db') :
    Retained db₀ m pending db' where
  imm := hothers.imm.trans h.imm
  entries := (hothers.entries m h.imm).trans h.entries
  hasImm := hothers.hasImm.trans h.hasImm
  current := hothers.current.trans h.current
  logNumber := hothers.logNumber.trans h.logNumber
  prevLogNumber := hothers.prevLogNumber.trans h.prevLogNumber
  pendingOutputs := hothers.pendingOutputs.trans h.pendingOutputs

theorem retained_flushBegin {f : Flush U N} (himm : db.imm = some m)
    (h : flushBegin db = some (db', f)) :
    Retained db m (insert db.versions.nextFileNumber db.pendingOutputs) db' ∧
      f.number = db.versions.nextFileNumber := by
  obtain ⟨m', -, rfl, rfl⟩ := flushBegin_eq_some h
  exact ⟨⟨himm, rfl, rfl, rfl, rfl, rfl, rfl⟩, rfl⟩

theorem Retained.flushBuild {f : Flush U N} {o : BuildOutcomes U V} {built : Built U V}
    (hr : Retained db₀ m pending db) (h : flushBuild cfg db f o = some (db', built)) :
    Retained db₀ m pending db' ∧ built.fileMeta.number = f.number := by
  obtain ⟨entries, -, htable, rfl⟩ := flushBuild_eq_some h
  exact ⟨⟨hr.imm, hr.entries, hr.hasImm, hr.current, hr.logNumber, hr.prevLogNumber,
    hr.pendingOutputs⟩, (buildTable_eq_some htable).1⟩

theorem Retained.applyWrite {o : ApplyOutcomes} {i i' : Install (InternalKey U) N}
    (hr : Retained db₀ m pending db) (h : applyWrite cfg db i o = some (db', i')) :
    Retained db₀ m pending db' := by
  obtain ⟨-, -, disk, rfl⟩ := applyWrite_eq_some h
  exact ⟨hr.imm, hr.entries, hr.hasImm, hr.current, hr.logNumber, hr.prevLogNumber,
    hr.pendingOutputs⟩

/-- The number of the table is no longer pending. -/
theorem Retained.flushBuilt [Std.TransCmp cfg.version.icmp] {f : Flush U N}
    {fileMeta : TableMeta U} {s : Status} {shuttingDown : Bool} {o : ApplyOutcomes}
    {next : FlushNext U N} (hr : Retained db₀ m pending db)
    (h : flushBuilt cfg db f fileMeta s shuttingDown o = some (db', next)) :
    Retained db₀ m (pending.erase fileMeta.number) db' := by
  have herase : db.pendingOutputs.erase fileMeta.number = pending.erase fileMeta.number := by
    rw [hr.pendingOutputs]
  cases flushBuilt_cases h with
  | logs hedit hok hbegin =>
    obtain ⟨-, -, compactPointer, descriptor, disk, rfl⟩ := applyBegin_eq_some hbegin
    exact ⟨hr.imm, hr.entries, hr.hasImm, hr.current, hr.logNumber, hr.prevLogNumber, herase⟩
  | fails =>
    exact ⟨hr.imm, hr.entries, hr.hasImm, hr.current, hr.logNumber, hr.prevLogNumber, herase⟩

theorem Retained.recordBackgroundError (hr : Retained db₀ m pending db) (s : Status) :
    Retained db₀ m pending (db.recordBackgroundError cfg s) :=
  ⟨hr.imm, hr.entries, hr.hasImm, hr.current, hr.logNumber, hr.prevLogNumber, hr.pendingOutputs⟩

/-- The end of a call in which `LogAndApply` failed. -/
theorem Retained.flushFinish {i : Install (InternalKey U) N} {o : ApplyOutcomes} {needs : Bool}
    {live : List (Version (InternalKey U) N)} (hr : Retained db₀ m pending db)
    (hfail : cfg.ok i.s = false) (h : flushFinish cfg db i o needs live = some db') :
    Retained db₀ m pending db' ∧ db'.bgError = cfg.recordBackgroundError db.bgError i.s := by
  unfold LevelDB.flushFinish at h
  rw [if_neg (by simp [hfail])] at h
  cases h
  obtain ⟨descriptor, disk, heq⟩ := @applyFinish_error U V R N cfg db i o hfail needs
  rw [heq]
  exact ⟨⟨hr.imm, hr.entries, hr.hasImm, hr.current, hr.logNumber, hr.prevLogNumber,
    hr.pendingOutputs⟩, rfl⟩

/-- An error is recorded even if there was one before. -/
theorem recorded_ne_ok (hrecords : cfg.RecordsFirst) {e s : Status} (hs : s ≠ .OK) :
    cfg.recordBackgroundError e s ≠ .OK := by
  rw [hrecords]
  by_cases he : e = .OK
  · rw [if_pos he]
    exact hs
  · rw [if_neg he]
    exact he

end Parts

section Flush

variable {cfg : DbConfig U V R N} [Std.TransCmp cfg.version.icmp] {db db' : Db U V R N} {m : Nat}
  {o : FlushOutcomes U V} {others : Nat → Db U V R N → Db U V R N}
  {live : List (Version (InternalKey U) N)}

theorem flushRun_of_compactMemtable (h : compactMemtable cfg db o others live = some db') :
    ∃ applied, FlushRun cfg db o others live applied db' := by
  unfold compactMemtable at h
  obtain ⟨⟨db₁, f⟩, hbegin, h⟩ := Option.bind_eq_some_iff.mp h
  obtain ⟨⟨db₂, built⟩, hbuild, h⟩ := Option.bind_eq_some_iff.mp h
  obtain ⟨⟨db₃, next⟩, hbuilt, h⟩ := Option.bind_eq_some_iff.mp h
  cases next with
  | fails s =>
    cases h
    exact ⟨none, .fails hbegin hbuild hbuilt⟩
  | logs i =>
    obtain ⟨⟨db₄, i'⟩, hwrite, hfinish⟩ := Option.bind_eq_some_iff.mp h
    exact ⟨some i'.s, .applies hbegin hbuild hbuilt hwrite hfinish⟩

/-- From the beginning to the record of the edit or the error. -/
theorem retained_flushBuilt (hothers : ∀ k d, LeavesImm d (others k d)) (himm : db.imm = some m)
    {db₁ db₂ db₃ : Db U V R N} {f : Flush U N} {built : Built U V} {next : FlushNext U N}
    (hbegin : flushBegin db = some (db₁, f))
    (hbuild : flushBuild cfg (others 0 db₁) f o.build = some (db₂, built))
    (hbuilt : flushBuilt cfg (others 1 db₂) f built.fileMeta built.s o.shuttingDown o.apply =
      some (db₃, next)) :
    Retained db m (db.pendingOutputs.erase db.versions.nextFileNumber) db₃ := by
  obtain ⟨hr₁, hnumber⟩ := retained_flushBegin himm hbegin
  obtain ⟨hr₂, hbuilt'⟩ := (hr₁.others (hothers 0 db₁)).flushBuild hbuild
  have hr₃ := (hr₂.others (hothers 1 db₂)).flushBuilt hbuilt
  rw [hbuilt', hnumber, Finset.erase_insert_eq_erase] at hr₃
  exact hr₃

/-- **A failed flush keeps everything.** `imm_` is given up only after `LogAndApply` returned OK;
otherwise it is still there with its entries, the version and the log numbers are as before, the
number that was drawn is no longer pending, and a background error is recorded. -/
theorem failedFlush_retains (hok : cfg.ok = Status.isOK) (hrecords : cfg.RecordsFirst)
    (hothers : ∀ k d, LeavesImm d (others k d)) (himm : db.imm = some m)
    (h : compactMemtable cfg db o others live = some db') :
    ∃ applied, FlushRun cfg db o others live applied db' ∧
      (db'.imm = none → applied = some .OK) ∧
      (db'.imm ≠ none →
        Retained db m (db.pendingOutputs.erase db.versions.nextFileNumber) db' ∧
          db'.bgError ≠ .OK) := by
  obtain ⟨applied, hrun⟩ := flushRun_of_compactMemtable h
  refine ⟨applied, hrun, ?_⟩
  cases hrun with
  | @fails db₁ db₂ db₃ f built s hbegin hbuild hbuilt =>
    have hr : Retained db m _ (db₃.recordBackgroundError cfg s) :=
      (retained_flushBuilt hothers himm hbegin hbuild hbuilt).recordBackgroundError s
    have hs : s ≠ .OK := by
      cases flushBuilt_cases hbuilt with
      | fails hfail =>
        rw [hok] at hfail
        simpa using hfail
    refine ⟨fun hnone => ?_, fun _ => ⟨hr, recorded_ne_ok hrecords hs⟩⟩
    rw [hr.imm] at hnone
    cases hnone
  | @applies db₁ db₂ db₃ db₄ db' f built i i' hbegin hbuild hbuilt hwrite hfinish =>
    have hr := (((retained_flushBuilt hothers himm hbegin hbuild hbuilt).others
      (hothers 2 db₃)).applyWrite hwrite).others (hothers 3 db₄)
    cases hgood : cfg.ok i'.s with
    | true =>
      have hnone : db'.imm = none := by
        unfold flushFinish at hfinish
        rw [if_pos hgood] at hfinish
        obtain ⟨db₅, hdrop, rfl⟩ := Option.map_eq_some_iff.mp hfinish
        obtain ⟨m', memtables, -, -, rfl⟩ := dropImm_eq_some hdrop
        rfl
      rw [hok] at hgood
      exact ⟨fun _ => congrArg some (Status.isOK_iff.mp hgood), fun hne => absurd hnone hne⟩
    | false =>
      obtain ⟨hr', herror⟩ := hr.flushFinish hgood hfinish
      rw [hok] at hgood
      refine ⟨fun hnone => ?_, fun _ => ⟨hr', ?_⟩⟩
      · rw [hr'.imm] at hnone
        cases hnone
      · rw [herror]
        exact recorded_ne_ok hrecords (Status.isOK_eq_false_iff.mp hgood)

end Flush

/-- The record of the edit fails, and `imm_` stays. -/
theorem failedFlush_retains_record :
    ∃ db', compactMemtable natDb flushDb { apply := { record := .IOError "record" "" } }
        (fun _ d => d) [] = some db' ∧
      Retained flushDb 0 (flushDb.pendingOutputs.erase 5) db' ∧ db'.bgError ≠ .OK := by
  obtain ⟨db', hdb', hset⟩ : ∃ db', compactMemtable natDb flushDb
      { apply := { record := .IOError "record" "" } } (fun _ d => d) [] = some db' ∧
      db'.imm ≠ none := ⟨_, rfl, Option.some_ne_none 0⟩
  obtain ⟨applied, -, -, hkept⟩ := failedFlush_retains rfl natDb_records
    (fun _ d => LeavesImm.refl d) rfl hdb'
  exact ⟨db', hdb', hkept hset⟩

end LevelDB
