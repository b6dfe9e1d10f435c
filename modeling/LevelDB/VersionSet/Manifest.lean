import LevelDB.VersionSet.LogAndApply
import Mathlib.Data.List.Nodup

/-!
# The manifest replays to the current version

`LogAndApply` builds the current version edit by edit; recovery reads the manifest that `CURRENT`
names and applies its snapshot and all edits after it to one builder over an empty version.
`Mirrors` relates that builder to the current version, up to the seek allowance, which the
manifest does not record.

* `Mirrors.apply` — an edit preserves the relation;
* `mirrors_snapshot` — a snapshot establishes it;
* `replayManifest_current` — after every run of calls one of which succeeded, the replay gives the
  files and log numbers of the version set.
-/

set_option autoImplicit false

namespace LevelDB

variable {K R : Type} {N : Nat}

/-- What a manifest records of a file. -/
def FileMetaData.recorded (f : FileMetaData K) : FileMetaData K := { f with allowedSeeks := 0 }

@[simp] theorem FileMetaData.recorded_number (f : FileMetaData K) :
    f.recorded.number = f.number := by
  unfold recorded
  rfl

@[simp] theorem FileMetaData.adopted_recorded (f : FileMetaData K) :
    f.adopted.recorded = f.recorded := by
  unfold recorded adopted
  rfl

/-- The order of files looks at what is recorded only. -/
theorem bySmallestKey_recorded {icmp : K → K → Ordering} {f g : FileMetaData K} :
    bySmallestKey icmp f.recorded g.recorded ↔ bySmallestKey icmp f g := by
  rw [bySmallestKey_iff, bySmallestKey_iff]
  unfold FileMetaData.recorded
  exact Iff.rfl

theorem pairwise_recorded {icmp : K → K → Ordering} {l : List (FileMetaData K)} :
    (l.map FileMetaData.recorded).Pairwise (bySmallestKey icmp) ↔
      l.Pairwise (bySmallestKey icmp) := by
  rw [List.pairwise_map]
  exact List.Pairwise.iff fun _ _ => bySmallestKey_recorded

theorem noOverlap_recorded {icmp : K → K → Ordering} {level : Fin N}
    {l : List (FileMetaData K)} :
    NoOverlap icmp level (l.map FileMetaData.recorded) ↔ NoOverlap icmp level l := by
  unfold NoOverlap
  rw [List.isChain_map]
  exact Iff.rfl

/-! ## The snapshot -/

/-- The entry that `AddFile` makes of a file. -/
def FileMetaData.entry (f : FileMetaData K) : FileMetaData K :=
  { number := f.number, fileSize := f.fileSize, smallest := f.smallest, largest := f.largest }

theorem FileMetaData.entry_number (f : FileMetaData K) : f.entry.number = f.number := by
  unfold entry
  rfl

theorem FileMetaData.entry_recorded (f : FileMetaData K) : f.entry.recorded = f.recorded := by
  unfold recorded entry
  rfl

section Snapshot

variable (vs : VersionSet K N)

theorem saveFiles_newAt (level l : Fin N) (edit : VersionEdit K N) :
    (saveFiles vs edit l).newAt level = edit.newAt level ++
      if l = level then (vs.current.files l).map FileMetaData.entry else [] := by
  unfold saveFiles
  generalize vs.current.files l = fs
  induction fs generalizing edit with
  | nil => simp
  | cons f fs ih =>
    rw [List.foldl_cons, ih]
    by_cases hl : l = level
    · simp [VersionEdit.newAt, VersionEdit.addFile, hl, FileMetaData.entry]
    · simp [VersionEdit.newAt, VersionEdit.addFile, hl]

theorem foldl_saveFiles_newAt (level : Fin N) :
    ∀ (ls : List (Fin N)) (edit : VersionEdit K N), ls.Nodup →
      (ls.foldl (saveFiles vs) edit).newAt level = edit.newAt level ++
        if level ∈ ls then (vs.current.files level).map FileMetaData.entry else []
  | [], edit, _ => by simp
  | l :: ls, edit, hnodup => by
    obtain ⟨hnot, hnodup⟩ := List.nodup_cons.mp hnodup
    rw [List.foldl_cons, foldl_saveFiles_newAt level ls _ hnodup, saveFiles_newAt]
    by_cases hl : l = level
    · subst hl
      simp [hnot]
    · simp [hl, Ne.symm hl]

theorem foldl_savePointer_newFiles (ls : List (Fin N)) (edit : VersionEdit K N) :
    (ls.foldl (savePointer vs) edit).newFiles = edit.newFiles := by
  induction ls generalizing edit with
  | nil => rfl
  | cons l ls ih =>
    have hstep : (savePointer vs edit l).newFiles = edit.newFiles := by
      unfold savePointer
      cases vs.compactPointer l with
      | none => rfl
      | some key => rfl
    exact (ih _).trans hstep

/-- A snapshot adds the files of the current version. -/
theorem snapshotEdit_newAt (cfg : VersionConfig K R N) (level : Fin N) :
    (snapshotEdit cfg vs).newAt level = (vs.current.files level).map FileMetaData.entry := by
  unfold snapshotEdit
  dsimp only
  rw [foldl_saveFiles_newAt vs level _ _ (List.nodup_finRange N), if_pos (List.mem_finRange level)]
  unfold VersionEdit.newAt
  rw [foldl_savePointer_newFiles]
  rfl

end Snapshot

/-! ## The replaying builder and the current version -/

section Mirrors

variable {icmp : K → K → Ordering}

/-- The builder over an empty version has, up to the seek allowance, the files of `v`, and all
numbers it has come across are in `held`. -/
structure Mirrors (b : Builder icmp N) (v : Version K N) (held : Fin N → List Nat) : Prop where
  base_empty : ∀ level, b.base.files level = []
  added_held : ∀ level, ∀ f ∈ (b.levels level).addedFiles.toList, f.number ∈ held level
  mem : ∀ level x, x ∈ (b.survivors level).map FileMetaData.recorded ↔
    x ∈ (v.files level).map FileMetaData.recorded

theorem Mirrors.apart {b : Builder icmp N} {v : Version K N} {held : Fin N → List Nat}
    (h : Mirrors b v held) (level : Fin N) : b.Apart level := by
  intro a _ f hf
  rw [h.base_empty level] at hf
  cases hf

theorem Mirrors.fresh {b : Builder icmp N} {v : Version K N} {held : Fin N → List Nat}
    (h : Mirrors b v held) {level : Fin N} {fs : List (FileMetaData K)}
    (hnodup : (held level ++ fs.map FileMetaData.number).Nodup) : b.Fresh level fs := by
  obtain ⟨_, hfs, hdisjoint⟩ := List.nodup_append.mp hnodup
  refine ⟨hfs, ?_⟩
  intro g hg f hf
  rcases hf with hf | hf
  · exact hdisjoint _ (h.added_held level f hf) _ (List.mem_map.mpr ⟨g, hg, rfl⟩)
  · rw [h.base_empty level] at hf
    cases hf

/-- Membership after an edit, in terms of what is recorded. -/
theorem mem_recorded_apply [Std.TransCmp icmp] {b : Builder icmp N} {edit : VersionEdit K N}
    {level : Fin N} (hfresh : b.Fresh level (edit.newAt level)) (x : FileMetaData K) :
    x ∈ ((b.apply edit).survivors level).map FileMetaData.recorded ↔
      (x ∈ (b.survivors level).map FileMetaData.recorded ∧ x.number ∉ edit.deletedAt level) ∨
        x ∈ (edit.newAt level).map FileMetaData.recorded := by
  simp only [List.mem_map, Builder.mem_survivors_apply hfresh]
  constructor
  · rintro ⟨f, ⟨hf, hdel⟩ | ⟨g, hg, rfl⟩, rfl⟩
    · exact Or.inl ⟨⟨f, hf, rfl⟩, by rwa [FileMetaData.recorded_number]⟩
    · exact Or.inr ⟨g, hg, (FileMetaData.adopted_recorded g).symm⟩
  · rintro (⟨⟨f, hf, rfl⟩, hdel⟩ | ⟨g, hg, rfl⟩)
    · rw [FileMetaData.recorded_number] at hdel
      exact ⟨f, Or.inl ⟨hf, hdel⟩, rfl⟩
    · exact ⟨g.adopted, Or.inr ⟨g, hg, rfl⟩, FileMetaData.adopted_recorded g⟩

/-- A sorted version whose file numbers are distinct at each level and lie in `held`. -/
structure Owned (icmp : K → K → Ordering) (v : Version K N) (held : Fin N → List Nat) : Prop where
  sorted : v.Sorted icmp
  held : ∀ level, ∀ f ∈ v.files level, f.number ∈ held level
  distinct : ∀ level, ∀ f ∈ v.files level, ∀ g ∈ v.files level, f.number = g.number → f = g

variable [Std.TransCmp icmp] {v : Version K N} {held : Fin N → List Nat}

omit [Std.TransCmp icmp] in
theorem Owned.fresh (h : Owned icmp v held) (cp : Fin N → Option K) {level : Fin N}
    {fs : List (FileMetaData K)}
    (hnodup : (held level ++ fs.map FileMetaData.number).Nodup) :
    (Builder.new icmp cp v).Fresh level fs := by
  obtain ⟨_, hfs, hdisjoint⟩ := List.nodup_append.mp hnodup
  refine ⟨hfs, ?_⟩
  intro g hg f hf
  rcases hf with hf | hf
  · cases hf
  · exact hdisjoint _ (h.held level f hf) _ (List.mem_map.mpr ⟨g, hg, rfl⟩)

/-- The numbers that are held after an edit. -/
def heldAfter (held : Fin N → List Nat) (edit : VersionEdit K N) : Fin N → List Nat :=
  fun level => held level ++ (edit.newAt level).map FileMetaData.number

/-- The version that a call builds is owned again. -/
theorem Owned.apply (h : Owned icmp v held) (cp : Fin N → Option K) {edit : VersionEdit K N}
    (hnodup : ∀ level, (heldAfter held edit level).Nodup) {v' : Version K N}
    (hv' : v'.files = ((Builder.new icmp cp v).apply edit).survivors) :
    Owned icmp v' (heldAfter held edit) := by
  have hfresh := fun level => h.fresh cp (hnodup level)
  have hmem : ∀ level f, f ∈ v'.files level ↔
      (f ∈ v.files level ∧ f.number ∉ edit.deletedAt level) ∨
        ∃ g ∈ edit.newAt level, f = g.adopted := by
    intro level f
    rw [hv', Builder.mem_survivors_apply (hfresh level), Builder.new_survivors]
  refine ⟨?_, ?_, ?_⟩
  · intro level
    rw [hv']
    refine Builder.survivors_pairwise ((Builder.new_apart cp v level).apply (hfresh level)) ?_
    rw [Builder.apply_base]
    exact h.sorted level
  · intro level f hf
    rcases (hmem level f).mp hf with ⟨hf, _⟩ | ⟨g, hg, rfl⟩
    · exact List.mem_append_left _ (h.held level f hf)
    · rw [FileMetaData.adopted_number]
      exact List.mem_append_right _ (List.mem_map.mpr ⟨g, hg, rfl⟩)
  · intro level f hf g hg heq
    rcases (hmem level f).mp hf with ⟨hf, _⟩ | ⟨f', hf', rfl⟩
    · rcases (hmem level g).mp hg with ⟨hg, _⟩ | ⟨g', hg', rfl⟩
      · exact h.distinct level f hf g hg heq
      · rw [FileMetaData.adopted_number] at heq
        exact absurd heq ((hfresh level).2 g' hg' f (Or.inr hf))
    · rcases (hmem level g).mp hg with ⟨hg, _⟩ | ⟨g', hg', rfl⟩
      · rw [FileMetaData.adopted_number] at heq
        exact absurd heq.symm ((hfresh level).2 f' hf' g (Or.inr hg))
      · rw [FileMetaData.adopted_number, FileMetaData.adopted_number] at heq
        rw [List.inj_on_of_nodup_map (hfresh level).1 hf' hg' heq]

/-- **An edit preserves the relation** between the replaying builder and the current version. -/
theorem Mirrors.apply {b : Builder icmp N} (h : Mirrors b v held) (hv : Owned icmp v held)
    (cp : Fin N → Option K) {edit : VersionEdit K N}
    (hnodup : ∀ level, (heldAfter held edit level).Nodup) {v' : Version K N}
    (hv' : v'.files = ((Builder.new icmp cp v).apply edit).survivors) :
    Mirrors (b.apply edit) v' (heldAfter held edit) := by
  have hfresh := fun level => h.fresh (hnodup level)
  refine ⟨?_, ?_, ?_⟩
  · intro level
    rw [Builder.apply_base]
    exact h.base_empty level
  · intro level f hf
    rcases (Builder.mem_addedFiles_apply (hfresh level) f).mp hf with hf | ⟨g, hg, rfl⟩
    · exact List.mem_append_left _ (h.added_held level f hf)
    · rw [FileMetaData.adopted_number]
      exact List.mem_append_right _ (List.mem_map.mpr ⟨g, hg, rfl⟩)
  · intro level x
    rw [hv', mem_recorded_apply (hfresh level), mem_recorded_apply (hv.fresh cp (hnodup level)),
      h.mem level, Builder.new_survivors]

/-- **A snapshot establishes the relation.** -/
theorem mirrors_snapshot (cfg : VersionConfig K R N) (cp : Fin N → Option K)
    {vs : VersionSet K N} (h : Owned icmp vs.current held) :
    Mirrors ((Builder.new icmp cp {}).apply (snapshotEdit cfg vs)) vs.current held := by
  have hnumbers : ∀ level, ((snapshotEdit cfg vs).newAt level).map FileMetaData.number =
      (vs.current.files level).map FileMetaData.number := by
    intro level
    rw [snapshotEdit_newAt, List.map_map]
    exact List.map_congr_left fun f _ => f.entry_number
  have hfresh : ∀ level,
      (Builder.new icmp cp {}).Fresh level ((snapshotEdit cfg vs).newAt level) := by
    intro level
    refine ⟨?_, ?_⟩
    · rw [hnumbers level]
      exact List.Nodup.map_on (h.distinct level) (h.sorted level).nodup
    · intro g _ f hf
      rcases hf with hf | hf
      · cases hf
      · cases hf
  refine ⟨?_, ?_, ?_⟩
  · intro level
    rw [Builder.apply_base]
    rfl
  · intro level f hf
    rcases (Builder.mem_addedFiles_apply (hfresh level) f).mp hf with hf | ⟨g, hg, rfl⟩
    · cases hf
    · have hnumber := List.mem_map_of_mem (f := FileMetaData.number) hg
      rw [hnumbers level] at hnumber
      obtain ⟨f, hf, heq⟩ := List.mem_map.mp hnumber
      rw [FileMetaData.adopted_number, ← heq]
      exact h.held level f hf
  · intro level x
    have hrecorded : ((snapshotEdit cfg vs).newAt level).map FileMetaData.recorded =
        (vs.current.files level).map FileMetaData.recorded := by
      rw [snapshotEdit_newAt, List.map_map]
      exact List.map_congr_left fun f _ => f.entry_recorded
    rw [mem_recorded_apply (hfresh level), hrecorded]
    constructor
    · rintro (⟨hx, _⟩ | hx)
      · obtain ⟨f, hf, rfl⟩ := List.mem_map.mp hx
        rw [Builder.new_survivors] at hf
        cases hf
      · exact hx
    · exact Or.inr

/-- The replaying builder saves the files of the version it mirrors. -/
theorem Mirrors.saveTo {b : Builder icmp N} (h : Mirrors b v held) (hv : Owned icmp v held)
    (hpass : ∀ level, NoOverlap icmp level (v.files level)) :
    ∃ saved, b.saveTo = some saved ∧ ∀ level,
      (saved.files level).map FileMetaData.recorded = (v.files level).map FileMetaData.recorded := by
  have hlists : ∀ level, (b.survivors level).map FileMetaData.recorded =
      (v.files level).map FileMetaData.recorded := by
    intro level
    refine (pairwise_recorded.mpr ?_).eq_of_mem_iff (pairwise_recorded.mpr (hv.sorted level))
      (h.mem level)
    refine Builder.survivors_pairwise (h.apart level) ?_
    rw [h.base_empty level]
    exact List.Pairwise.nil
  refine ⟨{ files := b.survivors }, Builder.saveTo_eq_some.mpr ⟨?_, rfl⟩, hlists⟩
  intro level
  rw [← noOverlap_recorded, hlists level, noOverlap_recorded]
  exact hpass level

end Mirrors

/-! ## Runs of calls -/

section Runs

variable (cfg : VersionConfig K R N) [Std.TransCmp cfg.icmp]

/-- `edits` are the edits of the calls that returned OK in a run of calls from `vs₀`. Between the
calls the rest of the program draws file numbers and advances the last sequence number. -/
inductive CallsFrom (vs₀ : VersionSet K N) (disk₀ : Disk R) :
    List (VersionEdit K N) → VersionSet K N → Disk R → Prop
  | start : CallsFrom vs₀ disk₀ [] vs₀ disk₀
  | returnedOK {edits : List (VersionEdit K N)} {vs : VersionSet K N} {disk : Disk R}
      {edit : VersionEdit K N} {o : ApplyOutcomes} {r : Applied K R N}
      (hrun : CallsFrom vs₀ disk₀ edits vs disk)
      (hcall : logAndApply cfg vs disk edit o = some r) (hstatus : r.status = .OK) :
      CallsFrom vs₀ disk₀ (edits ++ [edit]) r.vs r.disk
  | returnedError {edits : List (VersionEdit K N)} {vs : VersionSet K N} {disk : Disk R}
      {edit : VersionEdit K N} {o : ApplyOutcomes} {r : Applied K R N}
      (hrun : CallsFrom vs₀ disk₀ edits vs disk)
      (hcall : logAndApply cfg vs disk edit o = some r) (hstatus : r.status ≠ .OK) :
      CallsFrom vs₀ disk₀ edits r.vs r.disk
  | counters {edits : List (VersionEdit K N)} {vs : VersionSet K N} {disk : Disk R}
      (nextFileNumber lastSequence : Nat) (hrun : CallsFrom vs₀ disk₀ edits vs disk) :
      CallsFrom vs₀ disk₀ edits { vs with nextFileNumber, lastSequence } disk

/-- The name of the manifest in the file `CURRENT`, whose contents end in a newline. -/
def manifestInUse (dbname : FileName) (disk : Disk R) : Option FileName :=
  match disk.files (currentFileName dbname) with
  | some (.text data) =>
    if data.getLast? = some '\n' then some (dbname ++ '/' :: data.dropLast) else none
  | _ => none

/-- What recovery reads: the edits of the manifest in use, and the version that one builder over
an empty version makes of them. -/
def replayManifest (decodeFrom : R → Option (VersionEdit K N)) (disk : Disk R) :
    Option (List (VersionEdit K N) × Version K N) := do
  let name ← manifestInUse cfg.dbname disk
  match disk.files name with
  | some (.records rs) =>
    let edits ← rs.mapM decodeFrom
    let saved ← ((Builder.new cfg.icmp (fun _ => none) {}).applyAll edits).saveTo
    pure (edits, saved)
  | _ => none

def lastLogNumber (edits : List (VersionEdit K N)) : Option Nat :=
  (edits.reverse.find? VersionEdit.hasLogNumber).map VersionEdit.logNumber

def lastPrevLogNumber (edits : List (VersionEdit K N)) : Option Nat :=
  (edits.reverse.find? VersionEdit.hasPrevLogNumber).map VersionEdit.prevLogNumber

/-- The manifest in use replays to the version set: the same files at every level, up to the seek
allowance, and the same log numbers. -/
def ReplaysTo (decodeFrom : R → Option (VersionEdit K N)) (disk : Disk R)
    (vs : VersionSet K N) : Prop :=
  ∃ edits saved, replayManifest cfg decodeFrom disk = some (edits, saved) ∧
    (∀ level, (saved.files level).map FileMetaData.recorded =
      (vs.current.files level).map FileMetaData.recorded) ∧
    lastLogNumber edits = some vs.logNumber ∧ lastPrevLogNumber edits = some vs.prevLogNumber

/-- The manifest that is open is the one in use, and it holds the records of `edits`. -/
structure InUse (vs : VersionSet K N) (disk : Disk R) (m : FileName)
    (edits : List (VersionEdit K N)) : Prop where
  openFile : vs.descriptor = some m
  named : descriptorFileName cfg.dbname vs.manifestFileNumber = some m
  current : disk.files (currentFileName cfg.dbname) =
    some (.text (m.drop (cfg.dbname.length + 1) ++ ['\n']))
  records : disk.files m = some (.records (edits.map cfg.encodeTo))

variable {cfg}

omit [Std.TransCmp cfg.icmp] in
theorem InUse.manifestInUse {vs : VersionSet K N} {disk : Disk R} {m : FileName}
    {edits : List (VersionEdit K N)} (h : InUse cfg vs disk m edits) :
    manifestInUse cfg.dbname disk = some m := by
  obtain ⟨rest, hrest⟩ := startsWith_descriptorFileName h.named
  unfold LevelDB.manifestInUse
  rw [h.current]
  dsimp only
  rw [if_pos (by simp), List.dropLast_concat, ← hrest]
  simp

omit [Std.TransCmp cfg.icmp] in
/-- A record appended to the manifest in use. -/
theorem InUse.append {vs vs' : VersionSet K N} {disk : Disk R} {m : FileName}
    {edits : List (VersionEdit K N)} (h : InUse cfg vs disk m edits) (e : VersionEdit K N)
    (sync : Status) (hdesc : vs'.descriptor = vs.descriptor)
    (hnumber : vs'.manifestFileNumber = vs.manifestFileNumber) :
    InUse cfg vs' (disk.performAll [.addRecord m (cfg.encodeTo e) .OK, .sync m sync]) m
      (edits ++ [e]) := by
  have hne := currentFileName_ne h.named
  refine ⟨hdesc.trans h.openFile, ?_, ?_, ?_⟩
  · rw [hnumber]
    exact h.named
  · simp [Disk.performAll, Disk.perform, FileOp.effect, Function.update_of_ne hne.symm, h.current]
  · simp [Disk.performAll, Disk.perform, FileOp.effect, h.records, FileData.append]

omit [Std.TransCmp cfg.icmp] in
/-- A failed append leaves the manifest in use as it was. -/
theorem InUse.failedAppend {vs vs' : VersionSet K N} {disk : Disk R} {m : FileName}
    {edits : List (VersionEdit K N)} (h : InUse cfg vs disk m edits) (record : R)
    {status : Status} (hstatus : status ≠ .OK) (hdesc : vs'.descriptor = vs.descriptor)
    (hnumber : vs'.manifestFileNumber = vs.manifestFileNumber) :
    InUse cfg vs' (disk.performAll [.addRecord m record status]) m edits := by
  have hfiles : (disk.performAll [.addRecord m record status]).files = disk.files := by
    simp [Disk.performAll, Disk.perform, FileOp.effect, hstatus]
  refine ⟨hdesc.trans h.openFile, ?_, ?_, ?_⟩
  · rw [hnumber]
    exact h.named
  · rw [hfiles]
    exact h.current
  · rw [hfiles]
    exact h.records

omit [Std.TransCmp cfg.icmp] in
/-- A manifest that has just been created and installed. -/
theorem inUse_created {vs vs' : VersionSet K N} (disk : Disk R) {m tmp : FileName}
    (hdesc : vs'.descriptor = some m) (hnumber : vs'.manifestFileNumber = vs.manifestFileNumber)
    (hm : descriptorFileName cfg.dbname vs.manifestFileNumber = some m)
    (htmp : tempFileName cfg.dbname vs.manifestFileNumber = some tmp)
    (snapshot e : VersionEdit K N) (sync : Status) (left : Option (List Char)) :
    InUse cfg vs' (disk.performAll
      [.newWritableFile m true .OK, .addRecord m (cfg.encodeTo snapshot) .OK,
        .addRecord m (cfg.encodeTo e) .OK, .sync m sync,
        .writeStringToFileSync tmp (m.drop (cfg.dbname.length + 1) ++ ['\n']) left .OK,
        .renameFile tmp (currentFileName cfg.dbname) .OK]) m [snapshot, e] := by
  obtain ⟨htm, htc⟩ := tempFileName_ne htmp hm
  have hmc := currentFileName_ne hm
  refine ⟨hdesc, by rw [hnumber]; exact hm, ?_, ?_⟩
  · simp [Disk.performAll, Disk.perform, FileOp.effect, Function.update_of_ne htc.symm]
  · simp [Disk.performAll, Disk.perform, FileOp.effect, FileData.append,
      Function.update_of_ne htm.symm, Function.update_of_ne hmc]

/-! ### The invariant of a run -/

/-- The numbers of the starting version and of the files added since. -/
def heldBy (v₀ : Version K N) (edits : List (VersionEdit K N)) : Fin N → List Nat :=
  fun level => (v₀.files level ++ edits.flatMap (fun e => e.newAt level)).map FileMetaData.number

theorem heldBy_append (v₀ : Version K N) (edits : List (VersionEdit K N))
    (edit : VersionEdit K N) :
    heldBy v₀ (edits ++ [edit]) = heldAfter (heldBy v₀ edits) edit := by
  funext level
  simp [heldBy, heldAfter]

theorem Filled.heldAfter {vs : VersionSet K N} {edit filled : VersionEdit K N}
    (h : Filled vs edit filled) (held : Fin N → List Nat) :
    heldAfter held filled = LevelDB.heldAfter held edit := by
  funext level
  unfold LevelDB.heldAfter
  rw [h.newAt]

variable (cfg) in
/-- After a successful call the manifest in use mirrors the current version. -/
structure Current (held : Fin N → List Nat) (vs : VersionSet K N) (disk : Disk R)
    (m : FileName) (recs : List (VersionEdit K N)) (last : VersionEdit K N) : Prop where
  inUse : InUse cfg vs disk m (recs ++ [last])
  mirrors : Mirrors ((Builder.new cfg.icmp (fun _ => none) {}).applyAll (recs ++ [last]))
    vs.current held
  noOverlap : ∀ level, NoOverlap cfg.icmp level (vs.current.files level)
  hasLogNumber : last.hasLogNumber = true
  hasPrevLogNumber : last.hasPrevLogNumber = true
  logNumber : last.logNumber = vs.logNumber
  prevLogNumber : last.prevLogNumber = vs.prevLogNumber

variable (cfg) in
/-- **The invariant of a run**: no call has succeeded and no manifest is open, or the manifest in
use mirrors the current version. -/
structure RunInvariant (v₀ : Version K N) (edits : List (VersionEdit K N)) (vs : VersionSet K N)
    (disk : Disk R) : Prop where
  owned : Owned cfg.icmp vs.current (heldBy v₀ edits)
  manifest : (edits = [] ∧ vs.descriptor = none) ∨
    ∃ m recs last, Current cfg (heldBy v₀ edits) vs disk m recs last

theorem Builder.applyAll_append (b : Builder cfg.icmp N) (es : List (VersionEdit K N))
    (e : VersionEdit K N) : b.applyAll (es ++ [e]) = (b.applyAll es).apply e := by
  unfold Builder.applyAll
  rw [List.foldl_append]
  rfl

/-- The version that a call installs is built from the files of the current one. -/
theorem installed_files {vs : VersionSet K N} {e : VersionEdit K N} {v : Version K N}
    (hsave : (callBuilder cfg.icmp vs e).saveTo = some v) :
    (installed cfg vs e v).current.files =
        ((Builder.new cfg.icmp vs.compactPointer vs.current).apply e).survivors ∧
      ∀ level, NoOverlap cfg.icmp level ((installed cfg vs e v).current.files level) := by
  obtain ⟨hpass, rfl⟩ := Builder.saveTo_eq_some.mp hsave
  exact ⟨rfl, hpass⟩

/-- **A call that returns OK** keeps the invariant. -/
theorem RunInvariant.returnedOK (hok : cfg.ok = Status.isOK) {v₀ : Version K N}
    {edits : List (VersionEdit K N)} {vs : VersionSet K N} {disk : Disk R}
    (h : RunInvariant cfg v₀ edits vs disk) {edit : VersionEdit K N}
    (hnodup : ∀ level, (heldBy v₀ (edits ++ [edit]) level).Nodup) {o : ApplyOutcomes}
    {r : Applied K R N} (hcall : logAndApply cfg vs disk edit o = some r)
    (hstatus : r.status = .OK) : RunInvariant cfg v₀ (edits ++ [edit]) r.vs r.disk := by
  obtain ⟨e, v, hfill, hsave, hend⟩ := callEnds_of_logAndApply hok hcall
  have hfilled := filled_of_fillEdit hfill
  obtain ⟨hfiles, hpass⟩ := installed_files hsave
  have hheld : heldBy v₀ (edits ++ [edit]) = heldAfter (heldBy v₀ edits) e := by
    rw [heldBy_append, hfilled.heldAfter]
  rw [hheld] at hnodup
  have howned : Owned cfg.icmp (installed cfg vs e v).current (heldBy v₀ (edits ++ [edit])) := by
    rw [hheld]
    exact h.owned.apply vs.compactPointer hnodup hfiles
  cases hend with
  | @recorded m hopen hrecord =>
    rcases h.manifest with ⟨-, hnull⟩ | ⟨m', recs, last, hcurrent⟩
    · rw [hnull] at hopen
      cases hopen
    · obtain rfl : m = m' := Option.some.inj (hopen.symm.trans hcurrent.inUse.openFile)
      refine ⟨howned, Or.inr ⟨m, recs ++ [last], e, ?_⟩⟩
      refine ⟨hcurrent.inUse.append e o.sync rfl rfl, ?_, hpass, hfilled.hasLogNumber,
        hfilled.hasPrevLogNumber, rfl, rfl⟩
      rw [Builder.applyAll_append, hheld]
      exact hcurrent.mirrors.apply h.owned vs.compactPointer hnodup hfiles
  | recordFailed hopen hrecord => exact absurd hstatus hrecord
  | @created m tmp hnull hm htmp hsucceed =>
    refine ⟨howned, Or.inr ⟨m, [snapshotEdit cfg (pointed cfg vs e)], e, ?_⟩⟩
    refine ⟨?_, ?_, hpass, hfilled.hasLogNumber, hfilled.hasPrevLogNumber, rfl, rfl⟩
    · refine inUse_created disk ?_ ?_ hm htmp _ e o.sync o.setCurrent.left
      · rfl
      · rfl
    · have hpointed : Owned cfg.icmp (pointed cfg vs e).current (heldBy v₀ edits) := h.owned
      rw [Builder.applyAll_append, hheld]
      exact (mirrors_snapshot cfg (fun _ => none) hpointed).apply h.owned vs.compactPointer hnodup
        hfiles
  | createFailed hnull hfail hbad => exact absurd hstatus hbad

/-- **A call that returns an error** keeps the invariant. -/
theorem RunInvariant.returnedError (hok : cfg.ok = Status.isOK) {v₀ : Version K N}
    {edits : List (VersionEdit K N)} {vs : VersionSet K N} {disk : Disk R}
    (h : RunInvariant cfg v₀ edits vs disk) {edit : VersionEdit K N} {o : ApplyOutcomes}
    {r : Applied K R N} (hcall : logAndApply cfg vs disk edit o = some r)
    (hstatus : r.status ≠ .OK) : RunInvariant cfg v₀ edits r.vs r.disk := by
  obtain ⟨e, v, -, -, hend⟩ := callEnds_of_logAndApply hok hcall
  cases hend with
  | recorded hopen hrecord => exact absurd rfl hstatus
  | @recordFailed m hopen hrecord =>
    rcases h.manifest with ⟨-, hnull⟩ | ⟨m', recs, last, hcurrent⟩
    · rw [hnull] at hopen
      cases hopen
    · obtain rfl : m = m' := Option.some.inj (hopen.symm.trans hcurrent.inUse.openFile)
      exact ⟨h.owned, Or.inr ⟨m, recs, last, hcurrent.inUse.failedAppend _ hrecord rfl rfl,
        hcurrent.mirrors, hcurrent.noOverlap, hcurrent.hasLogNumber, hcurrent.hasPrevLogNumber,
        hcurrent.logNumber, hcurrent.prevLogNumber⟩⟩
  | created hnull hm htmp hsucceed => exact absurd rfl hstatus
  | createFailed hnull hfail hbad =>
    rcases h.manifest with ⟨hnone, -⟩ | ⟨m', recs, last, hcurrent⟩
    · exact ⟨h.owned, Or.inl ⟨hnone, hnull⟩⟩
    · rw [hcurrent.inUse.openFile] at hnull
      cases hnull

theorem RunInvariant.counters {v₀ : Version K N} {edits : List (VersionEdit K N)}
    {vs : VersionSet K N} {disk : Disk R} (h : RunInvariant cfg v₀ edits vs disk)
    (nextFileNumber lastSequence : Nat) :
    RunInvariant cfg v₀ edits { vs with nextFileNumber, lastSequence } disk := by
  refine ⟨h.owned, ?_⟩
  rcases h.manifest with hnone | ⟨m, recs, last, hcurrent⟩
  · exact Or.inl hnone
  · exact Or.inr ⟨m, recs, last, ⟨hcurrent.inUse.openFile, hcurrent.inUse.named,
      hcurrent.inUse.current, hcurrent.inUse.records⟩, hcurrent.mirrors, hcurrent.noOverlap,
      hcurrent.hasLogNumber, hcurrent.hasPrevLogNumber, hcurrent.logNumber,
      hcurrent.prevLogNumber⟩

theorem runInvariant_of_callsFrom (hok : cfg.ok = Status.isOK) {vs₀ : VersionSet K N}
    {disk₀ : Disk R} (hnull : vs₀.descriptor = none) (hsorted : vs₀.current.Sorted cfg.icmp)
    {edits : List (VersionEdit K N)} {vs : VersionSet K N} {disk : Disk R}
    (hrun : CallsFrom cfg vs₀ disk₀ edits vs disk) (honce : AddedOnce vs₀.current edits) :
    RunInvariant cfg vs₀.current edits vs disk := by
  induction hrun with
  | start =>
    refine ⟨⟨hsorted, ?_, ?_⟩, Or.inl ⟨rfl, hnull⟩⟩
    · intro level f hf
      exact List.mem_map.mpr ⟨f, List.mem_append_left _ hf, rfl⟩
    · intro level f hf g hg heq
      exact List.inj_on_of_nodup_map (honce level) (List.mem_append_left _ hf)
        (List.mem_append_left _ hg) heq
  | @returnedOK edits vs disk edit o r hrun hcall hstatus ih =>
    have hprefix : AddedOnce vs₀.current edits := by
      intro level
      refine (honce level).sublist (List.Sublist.map _ ?_)
      rw [List.flatMap_append]
      exact List.Sublist.append_left (List.sublist_append_left _ _) _
    exact (ih hprefix).returnedOK hok honce hcall hstatus
  | returnedError hrun hcall hstatus ih => exact (ih honce).returnedError hok hcall hstatus
  | counters nextFileNumber lastSequence hrun ih =>
    exact (ih honce).counters nextFileNumber lastSequence

/-- **The manifest replays to the current version** after every run of calls, however the calls
fail, as soon as one of them has returned OK. -/
theorem replayManifest_current (cfg : VersionConfig K R N) [Std.TransCmp cfg.icmp]
    (hok : cfg.ok = Status.isOK) (decodeFrom : R → Option (VersionEdit K N))
    (hround : ∀ e, decodeFrom (cfg.encodeTo e) = some e) (vs₀ : VersionSet K N) (disk₀ : Disk R)
    (hnull : vs₀.descriptor = none) (hsorted : vs₀.current.Sorted cfg.icmp)
    {edits : List (VersionEdit K N)} {vs : VersionSet K N} {disk : Disk R}
    (hrun : CallsFrom cfg vs₀ disk₀ edits vs disk) (honce : AddedOnce vs₀.current edits)
    (hsome : edits ≠ []) : ReplaysTo cfg decodeFrom disk vs := by
  obtain ⟨howned, hmanifest⟩ := runInvariant_of_callsFrom hok hnull hsorted hrun honce
  rcases hmanifest with ⟨hnone, -⟩ | ⟨m, recs, last, hcurrent⟩
  · exact absurd hnone hsome
  · obtain ⟨saved, hsaved, hfiles⟩ := hcurrent.mirrors.saveTo howned hcurrent.noOverlap
    refine ⟨recs ++ [last], saved, ?_, hfiles, ?_, ?_⟩
    · have hdecode : ((recs ++ [last]).map cfg.encodeTo).mapM decodeFrom =
          some (recs ++ [last]) := by
        have hcomp : decodeFrom ∘ cfg.encodeTo = fun e => some (id e) := funext hround
        rw [List.mapM_map, hcomp]
        exact List.mapM_pure.trans (by rw [List.map_id]; rfl)
      unfold replayManifest
      rw [hcurrent.inUse.manifestInUse]
      simp only [Option.bind_eq_bind, Option.bind_some, hcurrent.inUse.records, hdecode, hsaved]
      rfl
    · unfold lastLogNumber
      rw [List.reverse_append]
      simp [hcurrent.hasLogNumber, hcurrent.logNumber]
    · unfold lastPrevLogNumber
      rw [List.reverse_append]
      simp [hcurrent.hasPrevLogNumber, hcurrent.prevLogNumber]

end Runs

/-! ## Two runs -/

/-- The database before its first call, when no manifest is open. -/
def newVersionSet (start : Version Nat 2) : VersionSet Nat 2 :=
  { openVersionSet with descriptor := none, current := start }

theorem replayManifest_current_one :
    ∃ r, logAndApply natConfig (newVersionSet {}) { files := fun _ => none } flushEdit {} =
        some r ∧ ReplaysTo natConfig some r.disk r.vs := by
  obtain ⟨r, hcall, hstatus⟩ : ∃ r, logAndApply natConfig (newVersionSet {})
      { files := fun _ => none } flushEdit {} = some r ∧ r.status = .OK := ⟨_, rfl, rfl⟩
  have hrun : CallsFrom natConfig (newVersionSet {}) { files := fun _ => none } [flushEdit]
      r.vs r.disk := .returnedOK .start hcall hstatus
  exact ⟨r, hcall, replayManifest_current natConfig rfl some (fun _ => rfl) (newVersionSet {})
    { files := fun _ => none } rfl (fun _ => List.Pairwise.nil) hrun
    (by unfold AddedOnce; decide) (List.cons_ne_nil _ _)⟩

/-- A replay that finds another number of files than the current version has. -/
theorem not_replaysTo {cfg : VersionConfig K R N} [Std.TransCmp cfg.icmp]
    {decodeFrom : R → Option (VersionEdit K N)} {disk : Disk R} {vs : VersionSet K N}
    (level : Fin N) {n : Nat}
    (hreplay : (replayManifest cfg decodeFrom disk).map (fun p => (p.2.files level).length) =
      some n)
    (hne : n ≠ (vs.current.files level).length) : ¬ ReplaysTo cfg decodeFrom disk vs := by
  rintro ⟨edits, saved, hsaved, hfiles, -⟩
  rw [hsaved] at hreplay
  have hlength := congrArg List.length (hfiles level)
  rw [List.length_map, List.length_map] at hlength
  exact hne ((Option.some.inj hreplay).symm.trans hlength)

/-- A starting version that lists file 4 at level 0, and a call that adds the pair again: the
current version lists the file twice, the replay once. -/
theorem readded_file_breaks_replay :
    ∃ start, ((Builder.new compare (fun _ => none) {}).applyAll [flushEdit]).saveTo = some start ∧
      (∀ level, ((flushEdit.newAt level).map FileMetaData.number).Nodup) ∧
      ∃ vs disk, CallsFrom natConfig (newVersionSet start) { files := fun _ => none } [flushEdit]
          vs disk ∧ ¬ ReplaysTo natConfig some disk vs := by
  refine ⟨_, rfl, by decide, _, _, .returnedOK (o := {}) .start rfl rfl, ?_⟩
  exact not_replaysTo (n := 1) 0 rfl (by decide)

end LevelDB
