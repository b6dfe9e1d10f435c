import LevelDB.VersionSet.LogAndApply

/-!
# A call of LogAndApply that fails

A failed call installs nothing, yet it is not without a trace. `Builder::Apply` writes the
compaction pointers of the edit through the builder's pointer into the version set before any file
operation can fail, and nothing takes them back.

* `disk_of_failed` — the file operations of a failed call: what it creates it asks to have removed;
* `VersionLinks.unlink_created` — deleting a version that was never appended leaves the list alone;
* `leftByFailure_of_logAndApply` — all that a failed call leaves behind.
-/

set_option autoImplicit false

namespace LevelDB

variable {K R : Type} {N : Nat}

/-! ## The list of versions -/

/-- `next_` and `prev_` of the versions, which are numbered; `none` is the head
`dummy_versions_`. -/
structure VersionLinks where
  next : Option Nat → Option Nat
  prev : Option Nat → Option Nat

namespace VersionLinks

/-- The constructor of `Version` links a version to itself. -/
def create (links : VersionLinks) (v : Nat) : VersionLinks where
  next := Function.update links.next (some v) (some v)
  prev := Function.update links.prev (some v) (some v)

/-- The part of `AppendVersion` that links `v` in before the head. -/
def append (links : VersionLinks) (v : Nat) : VersionLinks :=
  let last := links.prev none
  { next := Function.update (Function.update links.next (some v) none) last (some v)
    prev := Function.update (Function.update links.prev (some v) last) none (some v) }

/-- Take `v` out of the list in which it is linked. -/
def unlink (links : VersionLinks) (v : Nat) : VersionLinks where
  next := Function.update links.next (links.prev (some v)) (links.next (some v))
  prev := Function.update links.prev (links.next (some v)) (links.prev (some v))

/-- The links of all versions but `v`, and of the head. -/
def SameBut (v : Nat) (links links' : VersionLinks) : Prop :=
  ∀ u, u ≠ some v → links'.next u = links.next u ∧ links'.prev u = links.prev u

theorem unlink_created (links : VersionLinks) (v : Nat) :
    SameBut v links ((links.create v).unlink v) := by
  intro u hu
  unfold create unlink
  simp only [Function.update_self, Function.update_of_ne hu, and_self]

end VersionLinks

/-- The versions as objects: `current_`, and how they are linked. -/
structure VersionObjects where
  current : Nat
  links : VersionLinks

/-- What a call does to the object `v` that it creates; `destroy` is the destructor of `Version`. -/
def VersionObjects.install (destroy : VersionLinks → Nat → VersionLinks) (objects : VersionObjects)
    (v : Nat) (ok : Bool) : VersionObjects :=
  if ok then { current := v, links := (objects.links.create v).append v }
  else { objects with links := destroy (objects.links.create v) v }

/-- The last compaction pointer of an edit at a level. -/
def VersionEdit.pointerAt (edit : VersionEdit K N) (level : Fin N) : Option K :=
  ((edit.compactPointers.filter (fun p => p.1 == level)).map Prod.snd).getLast?

section Calls

variable {cfg : VersionConfig K R N} [Std.TransCmp cfg.icmp]

theorem pointed_compactPointer {vs : VersionSet K N} {edit e : VersionEdit K N}
    (hfill : fillEdit vs edit = some e) (level : Fin N) :
    (pointed cfg vs e).compactPointer level =
      (edit.pointerAt level).or (vs.compactPointer level) := by
  show ((Builder.new cfg.icmp vs.compactPointer vs.current).apply e).compactPointer level = _
  rw [Builder.apply_compactPointer, foldl_update_some, (filled_of_fillEdit hfill).compactPointers]
  rfl

/-! ## The file operations -/

theorem switchCurrent_ops_not_new {o : CurrentOutcomes} {dbname manifest tmp m : FileName}
    {opened : Bool} {status : Status} :
    .newWritableFile m opened status ∉
      (o.ops Status.isOK dbname manifest tmp : List (FileOp R)) := by
  unfold CurrentOutcomes.ops
  by_cases hwrite : o.write = .OK
  · by_cases hstatus : o.status Status.isOK = .OK <;> simp [hwrite, hstatus]
  · by_cases hstatus : o.status Status.isOK = .OK <;> simp [hwrite, hstatus]

/-- **The file operations of a failed call.** -/
theorem disk_of_failed (hok : cfg.ok = Status.isOK) {vs : VersionSet K N} {disk : Disk R}
    {edit : VersionEdit K N} {o : ApplyOutcomes} {r : Applied K R N}
    (h : logAndApply cfg vs disk edit o = some r) (hfail : r.status ≠ .OK) :
    (∃ m, vs.descriptor = some m ∧
        r.disk = disk.performAll [.addRecord m (cfg.encodeTo r.edit) o.record]) ∨
      (vs.descriptor = none ∧ ∃ m ops,
        descriptorFileName cfg.dbname vs.manifestFileNumber = some m ∧
        (∀ name opened status, .newWritableFile name opened status ∉ ops) ∧
        r.disk = disk.performAll (.newWritableFile m o.opened o.newFile :: ops ++
          [.removeFile m o.removeManifest])) := by
  unfold logAndApply at h
  obtain ⟨⟨vs₁, disk₁, i₁⟩, hbegin, h⟩ := Option.bind_eq_some_iff.mp h
  obtain ⟨⟨disk₂, i₂⟩, hwrite, h⟩ := Option.bind_eq_some_iff.mp h
  obtain rfl := Option.some.inj h
  obtain ⟨-, -, hbegin⟩ := logAndApplyBegin_eq_some hbegin
  obtain ⟨⟨hedit, -, hnew⟩, hwrite⟩ := logAndApplyWrite_eq_some hwrite
  have hbad : cfg.ok i₂.s = false := by
    rw [hok]
    exact Status.isOK_eq_false_iff.mpr hfail
  rcases hbegin with ⟨m, hm, rfl, rfl, hempty, hs⟩ | ⟨hnull, hname, hbegin⟩
  · rw [logAndApplyFinish_open hbad (hnew.trans hempty)]
    rcases hwrite with ⟨hnot, -⟩ | ⟨-, m', hm', hwrite⟩
    · rw [hok, hs] at hnot
      cases hnot
    obtain rfl : m = m' := Option.some.inj (hm.symm.trans hm')
    rcases hwrite with ⟨-, -, rfl⟩ | ⟨hgood, -, hs₂, -⟩ | ⟨-, hne, -⟩
    · exact Or.inl ⟨m, hm, by rw [hedit]⟩
    · rw [hs₂, hgood] at hbad
      cases hbad
    · exact absurd hempty hne
  · have hne : i₂.newManifestFile ≠ [] := by
      rw [hnew]
      exact descriptorFileName_ne_nil hname
    rw [logAndApplyFinish_new hbad hne, hnew]
    refine Or.inr ⟨hnull, i₁.newManifestFile, ?_⟩
    rcases hbegin with ⟨hnot, hs, -, hdisk₁⟩ | ⟨-, hopened, -, hvs₁, hdisk₁⟩
    · rcases hwrite with ⟨-, -, rfl⟩ | ⟨hgood, -⟩
      · refine ⟨[], hname, fun _ _ _ => List.not_mem_nil, ?_⟩
        rw [hdisk₁]
        rfl
      · rw [hs, hnot] at hgood
        cases hgood
    · generalize cfg.encodeTo (snapshotEdit cfg vs₁) = snapshot at hdisk₁
      rw [hopened]
      rcases hwrite with ⟨-, -, rfl⟩ | ⟨-, m, hm, hwrite⟩
      · refine ⟨[.addRecord i₁.newManifestFile snapshot o.snapshot], hname, by simp, ?_⟩
        rw [hdisk₁]
        rfl
      · rw [hvs₁] at hm
        cases hm
        rcases hwrite with ⟨-, -, rfl⟩ | ⟨-, hempty, -⟩ | ⟨-, -, manifest, tmp, -, -, -, rfl⟩
        · refine ⟨[.addRecord i₁.newManifestFile snapshot o.snapshot,
            .addRecord i₁.newManifestFile (cfg.encodeTo i₁.edit) o.record], hname, by simp, ?_⟩
          rw [hdisk₁]
          rfl
        · exact absurd hempty (descriptorFileName_ne_nil hname)
        · refine ⟨[.addRecord i₁.newManifestFile snapshot o.snapshot,
            .addRecord i₁.newManifestFile (cfg.encodeTo i₁.edit) o.record,
            .sync i₁.newManifestFile o.sync] ++ o.setCurrent.ops cfg.ok cfg.dbname manifest tmp,
            hname, ?_, ?_⟩
          · rw [hok]
            simp [switchCurrent_ops_not_new]
          · rw [hdisk₁, ← Disk.performAll_append]
            exact (Disk.performAll_append disk _
              [.removeFile i₁.newManifestFile o.removeManifest]).symm

/-! ## What is left -/

/-- **What a failed call leaves behind**: the compaction pointers of the edit, and of a manifest
that it created no more than a failed removal leaves. -/
structure LeftByFailure (vs : VersionSet K N) (disk : Disk R) (edit : VersionEdit K N)
    (o : ApplyOutcomes) (r : Applied K R N) : Prop where
  current : r.vs.current = vs.current
  logNumber : r.vs.logNumber = vs.logNumber
  prevLogNumber : r.vs.prevLogNumber = vs.prevLogNumber
  descriptor : r.vs.descriptor = vs.descriptor
  compactPointer : ∀ level,
    r.vs.compactPointer level = (edit.pointerAt level).or (vs.compactPointer level)
  removed : ∃ ops, r.disk = disk.performAll ops ∧
    ∀ m opened status, .newWritableFile m opened status ∈ ops →
      ops.getLast? = some (.removeFile m o.removeManifest) ∧
        (o.removeManifest = .OK → r.disk.files m = none)

theorem vs_of_failed (hok : cfg.ok = Status.isOK) {vs : VersionSet K N} {disk : Disk R}
    {edit : VersionEdit K N} {o : ApplyOutcomes} {r : Applied K R N}
    (h : logAndApply cfg vs disk edit o = some r) (hfail : r.status ≠ .OK) :
    ∃ e, fillEdit vs edit = some e ∧ r.vs = pointed cfg vs e := by
  obtain ⟨e, v, hfill, -, hend⟩ := callEnds_of_logAndApply hok h
  refine ⟨e, hfill, ?_⟩
  cases hend with
  | recorded => exact absurd rfl hfail
  | recordFailed => rfl
  | created => exact absurd rfl hfail
  | createFailed => rfl

theorem removed_of_performAll (disk : Disk R) (m : FileName) (ops : List (FileOp R)) :
    (disk.performAll (ops ++ [.removeFile m .OK])).files m = none := by
  rw [Disk.performAll_append]
  show Function.update (disk.performAll ops).files m none m = none
  rw [Function.update_self]

/-- **A failed call changes the compaction pointers only**, and no link between the versions that
were there before. -/
theorem leftByFailure_of_logAndApply (hok : cfg.ok = Status.isOK)
    {destroy : VersionLinks → Nat → VersionLinks}
    (hdestroy : ∀ links v, VersionLinks.SameBut v (links.unlink v) (destroy links v))
    {vs : VersionSet K N} {disk : Disk R} {edit : VersionEdit K N} {o : ApplyOutcomes}
    {r : Applied K R N} (h : logAndApply cfg vs disk edit o = some r) (hfail : r.status ≠ .OK)
    (objects : VersionObjects) (v : Nat) :
    LeftByFailure vs disk edit o r ∧
      (objects.install destroy v (cfg.ok r.status)).current = objects.current ∧
      VersionLinks.SameBut v objects.links
        (objects.install destroy v (cfg.ok r.status)).links := by
  have hbad : cfg.ok r.status = false := by
    rw [hok]
    exact Status.isOK_eq_false_iff.mpr hfail
  refine ⟨?_, ?_⟩
  · obtain ⟨e, hfill, hvs⟩ := vs_of_failed hok h hfail
    refine ⟨by rw [hvs]; rfl, by rw [hvs]; rfl, by rw [hvs]; rfl, by rw [hvs]; rfl, ?_, ?_⟩
    · intro level
      rw [hvs, pointed_compactPointer hfill]
    · rcases disk_of_failed hok h hfail with ⟨m, -, hdisk⟩ | ⟨-, m, ops, -, hnew, hdisk⟩
      · exact ⟨_, hdisk, by simp⟩
      · refine ⟨_, hdisk, ?_⟩
        intro name opened status hmem
        have hname : name = m := by
          rw [List.mem_append, List.mem_cons] at hmem
          rcases hmem with (heq | hmem) | hmem
          · cases heq
            rfl
          · exact absurd hmem (hnew name opened status)
          · simp at hmem
        subst hname
        refine ⟨List.getLast?_concat, ?_⟩
        intro hremoved
        rw [hdisk, hremoved]
        exact removed_of_performAll disk name _
  · unfold VersionObjects.install
    rw [hbad]
    refine ⟨rfl, ?_⟩
    intro u hu
    obtain ⟨hnext, hprev⟩ := hdestroy (objects.links.create v) v u hu
    obtain ⟨hnext', hprev'⟩ := objects.links.unlink_created v u hu
    exact ⟨hnext.trans hnext', hprev.trans hprev'⟩

end Calls

/-! ## A record that cannot be appended -/

theorem leftByFailure_of_logAndApply_pointer :
    ∃ r, logAndApply natConfig openVersionSet { files := fun _ => none } pointerEdit
        { record := .IOError "append" "" } = some r ∧
      LeftByFailure openVersionSet { files := fun _ => none } pointerEdit
        { record := .IOError "append" "" } r := by
  obtain ⟨r, hcall, hstatus⟩ : ∃ r, logAndApply natConfig openVersionSet
      { files := fun _ => none } pointerEdit { record := .IOError "append" "" } = some r ∧
        r.status = .IOError "append" "" := ⟨_, rfl, rfl⟩
  have hfail : r.status ≠ .OK := by
    rw [hstatus]
    nofun
  have hunlink : ∀ (links : VersionLinks) v,
      VersionLinks.SameBut v (links.unlink v) (links.unlink v) := fun _ _ _ _ => ⟨rfl, rfl⟩
  let links : VersionLinks := { next := fun _ => none, prev := fun _ => none }
  exact ⟨r, hcall,
    (leftByFailure_of_logAndApply rfl hunlink hcall hfail { current := 0, links } 1).1⟩

/-- The pointer of a failed edit stays, and so does a manifest that could not be removed. -/
theorem failed_calls_leave_traces :
    (∃ r, logAndApply natConfig openVersionSet { files := fun _ => none } pointerEdit
        { record := .IOError "append" "" } = some r ∧ r.status ≠ .OK ∧
      openVersionSet.compactPointer 0 = none ∧ r.vs.compactPointer 0 = some 7) ∧
    ∃ r m, logAndApply natConfig { openVersionSet with descriptor := none }
        { files := fun _ => none } flushEdit
        { snapshot := .IOError "append" "", removeManifest := .IOError "unlink" "" } = some r ∧
      r.status ≠ .OK ∧ descriptorFileName ['d', 'b'] 2 = some m ∧
      (r.disk.files m).isSome = true :=
  ⟨⟨_, rfl, by nofun, rfl, rfl⟩, _, _, rfl, by nofun, rfl, rfl⟩

end LevelDB
