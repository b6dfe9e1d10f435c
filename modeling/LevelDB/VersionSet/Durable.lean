import LevelDB.VersionSet.LogAndApply

/-!
# When an installed version is durable

`LogAndApply` may make a version current only when the record of its edit has been appended to the
manifest and the manifest synced after that, and may point `CURRENT` at a new manifest only after
that sync. The code calls `Sync` at the right place but drops the status that it returns.

* `logAndApply_durable_iff` — so a call keeps the promise exactly when the sync succeeded or the
  call failed for another reason.
-/

set_option autoImplicit false

namespace LevelDB

variable {K R : Type} {N : Nat}

/-- The operations append `record` to the manifest and sync it successfully later; `CURRENT` is
switched to a new manifest after that sync and not before. -/
def Durable (manifest current : FileName) (record : R) (isNew : Prop) (ops : List (FileOp R)) :
    Prop :=
  ∃ before between after,
    ops = before ++ .addRecord manifest record .OK :: between ++ .sync manifest .OK :: after ∧
      (isNew → (∀ src status, .renameFile src current status ∉ before ++ between) ∧
        ∃ src, .renameFile src current .OK ∈ after)

/-- If the call returned OK, the version it made current is durable. -/
def InstallsDurably (cfg : VersionConfig K R N) (vs : VersionSet K N) (disk : Disk R)
    (r : Applied K R N) : Prop :=
  r.status = .OK → ∃ manifest ops, r.vs.descriptor = some manifest ∧
    r.disk.trace = disk.trace ++ ops ∧
    Durable manifest (currentFileName cfg.dbname) (cfg.encodeTo r.edit) (vs.descriptor = none) ops

/-- All file operations succeed whose statuses `LogAndApply` looks at. -/
def ApplyOutcomes.CheckedSucceed (o : ApplyOutcomes) (vs : VersionSet K N) : Prop :=
  if vs.descriptor = none then o.CreationSucceeds else o.record = .OK

theorem Durable.sync_mem {manifest current : FileName} {record : R} {isNew : Prop}
    {ops : List (FileOp R)} (h : Durable manifest current record isNew ops) :
    .sync manifest .OK ∈ ops := by
  obtain ⟨before, between, after, rfl, -⟩ := h
  simp

/-- A call that installs durably has synced a manifest. -/
theorem InstallsDurably.synced {cfg : VersionConfig K R N} {vs : VersionSet K N} {disk : Disk R}
    {r : Applied K R N} (h : InstallsDurably cfg vs disk r) (hstatus : r.status = .OK)
    {ops : List (FileOp R)} (hdisk : r.disk = disk.performAll ops) :
    ∃ manifest, .sync manifest .OK ∈ ops := by
  obtain ⟨manifest, ops', -, htrace, hops⟩ := h hstatus
  rw [hdisk, Disk.performAll_trace] at htrace
  obtain rfl := List.append_cancel_left htrace
  exact ⟨manifest, hops.sync_mem⟩

/-- **The exact condition** under which a call of `LogAndApply` installs durable versions only. -/
theorem logAndApply_durable_iff (cfg : VersionConfig K R N) [Std.TransCmp cfg.icmp]
    (hok : cfg.ok = Status.isOK) (vs : VersionSet K N) (disk : Disk R) (edit : VersionEdit K N)
    (o : ApplyOutcomes) {r : Applied K R N} (h : logAndApply cfg vs disk edit o = some r) :
    InstallsDurably cfg vs disk r ↔ o.sync = .OK ∨ ¬ o.CheckedSucceed vs := by
  obtain ⟨e, v, -, -, hend⟩ := callEnds_of_logAndApply hok h
  unfold ApplyOutcomes.CheckedSucceed
  cases hend with
  | @recorded m hopen hrecord =>
    rw [hopen, if_neg (by simp)]
    constructor
    · intro hdurable
      obtain ⟨manifest, hsync⟩ := hdurable.synced rfl rfl
      simp only [List.mem_cons, reduceCtorEq, FileOp.sync.injEq, List.not_mem_nil, or_false,
        false_or] at hsync
      exact Or.inl hsync.2.symm
    · rintro (hsync | hfail) -
      · refine ⟨m, _, hopen, Disk.performAll_trace _ disk, [], [], [], ?_, ?_⟩
        · rw [hsync]
          rfl
        · intro hnone
          rw [hopen] at hnone
          cases hnone
      · exact absurd hrecord hfail
  | @recordFailed m hopen hrecord =>
    rw [hopen, if_neg (by simp)]
    constructor
    · exact fun _ => Or.inr hrecord
    · exact fun _ hstatus => absurd hstatus hrecord
  | @created m tmp hnull hm htmp hsucceed =>
    rw [if_pos hnull]
    constructor
    · intro hdurable
      obtain ⟨manifest, hsync⟩ := hdurable.synced rfl rfl
      simp only [List.mem_cons, reduceCtorEq, FileOp.sync.injEq, List.not_mem_nil, or_false,
        false_or] at hsync
      exact Or.inl hsync.2.symm
    · rintro (hsync | hfail) -
      · refine ⟨m, _, rfl, Disk.performAll_trace _ disk,
          [.newWritableFile m true .OK,
            .addRecord m (cfg.encodeTo (snapshotEdit cfg (pointed cfg vs e))) .OK], [],
          [.writeStringToFileSync tmp (m.drop (cfg.dbname.length + 1) ++ ['\n'])
              o.setCurrent.left .OK,
            .renameFile tmp (currentFileName cfg.dbname) .OK], ?_, ?_⟩
        · rw [hsync]
          rfl
        · exact fun _ => ⟨by simp, tmp, by simp⟩
      · exact absurd hsucceed hfail
  | createFailed hnull hfail hstatus =>
    rw [if_pos hnull]
    constructor
    · exact fun _ => Or.inr hfail
    · exact fun _ hok => absurd hok hstatus

/-! ## A sync that fails -/

def FileOp.isGoodSync : FileOp R → Bool
  | .sync _ status => status == .OK
  | _ => false

/-- Without a successful sync on record nothing that was installed is durable. -/
theorem not_installsDurably {cfg : VersionConfig K R N} {vs : VersionSet K N} {disk : Disk R}
    {r : Applied K R N} (hstatus : r.status = .OK)
    (hnone : r.disk.trace.any FileOp.isGoodSync = false) : ¬ InstallsDurably cfg vs disk r := by
  intro hdurable
  obtain ⟨manifest, ops, -, htrace, hops⟩ := hdurable hstatus
  have hmem : .sync manifest .OK ∈ r.disk.trace := by
    rw [htrace]
    exact List.mem_append_right _ hops.sync_mem
  have hgood := List.any_eq_false.mp hnone _ hmem
  exact hgood rfl

theorem logAndApply_durable_iff_open :
    ∃ r, logAndApply natConfig openVersionSet { files := fun _ => none } flushEdit {} = some r ∧
      InstallsDurably natConfig openVersionSet { files := fun _ => none } r :=
  ⟨_, rfl, (logAndApply_durable_iff natConfig rfl openVersionSet _ flushEdit {} rfl).mpr
    (Or.inl rfl)⟩

/-- The manifest's sync fails, and the call returns OK with the new version current. -/
theorem failed_sync_installs :
    ∃ r, logAndApply natConfig openVersionSet { files := fun _ => none } flushEdit
        { sync := .IOError "sync" "" } = some r ∧
      r.status = .OK ∧ (r.vs.current.files 0).map FileMetaData.number = [4] ∧
      ¬ InstallsDurably natConfig openVersionSet { files := fun _ => none } r :=
  ⟨_, rfl, rfl, rfl, not_installsDurably rfl rfl⟩

end LevelDB
