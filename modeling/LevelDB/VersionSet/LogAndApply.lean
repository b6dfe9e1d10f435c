import LevelDB.Env
import LevelDB.VersionSet.Compose

/-!
# LogAndApply

`VersionSet::LogAndApply` in three parts, as the mutex cuts it: `logAndApplyBegin` builds the new
version and, if no manifest is open, creates one with a snapshot; `logAndApplyWrite` runs with the
mutex released and writes the record; `logAndApplyFinish` installs the version or cleans up.
`none` is a failed assertion or the use of a null pointer.

* `logAndApplyBegin_eq_some`, `logAndApplyWrite_eq_some` — what each part does, for any reading of
  `Status::ok`;
* `logAndApply_isSome` — when a call passes its assertions;
* `callEnds_of_logAndApply` — the four ways in which a call ends when a status is ok exactly if it
  is the OK status.
-/

set_option autoImplicit false

namespace LevelDB

variable {K R : Type} {N : Nat}

/-- What a `VersionSet` is constructed with, and the parts of it that are not in this repository. -/
structure VersionConfig (K R : Type) (N : Nat) where
  icmp : K → K → Ordering
  /-- `Status::ok`. -/
  ok : Status → Bool
  dbname : FileName
  /-- `icmp_.user_comparator()->Name()`. -/
  comparatorName : String
  /-- `VersionEdit::EncodeTo`. -/
  encodeTo : VersionEdit K N → R
  l0CompactionTrigger : Nat
  /-- `TotalFileSize`, as the `uint64_t` in which `Finalize` keeps it. -/
  totalFileSize : List (FileMetaData K) → Nat
  maxByteForLevel : Fin N → Rat

structure VersionSet (K : Type) (N : Nat) where
  nextFileNumber : Nat
  manifestFileNumber : Nat
  lastSequence : Nat
  logNumber : Nat
  prevLogNumber : Nat
  /-- `descriptor_file_` with the writer `descriptor_log_` on it: both are null or neither is. -/
  descriptor : Option FileName
  current : Version K N
  compactPointer : Fin N → Option K

/-- The outcomes of the file operations of `LogAndApply`. -/
structure ApplyOutcomes where
  newFile : Status := .OK
  opened : Bool := true
  snapshot : Status := .OK
  record : Status := .OK
  sync : Status := .OK
  setCurrent : CurrentOutcomes := {}
  removeManifest : Status := .OK

/-- The local variables of `LogAndApply` that live across the unlocked part. -/
structure Install (K : Type) (N : Nat) where
  edit : VersionEdit K N
  v : Version K N
  newManifestFile : FileName
  s : Status

def VersionSet.newFileNumber (vs : VersionSet K N) : Nat × VersionSet K N :=
  (vs.nextFileNumber, { vs with nextFileNumber := vs.nextFileNumber + 1 })

/-- `descriptor_log_->AddRecord(record)`. -/
def addRecord (descriptor : Option FileName) (disk : Disk R) (record : R) (status : Status) :
    Option (Disk R) :=
  descriptor.map fun name => disk.perform (.addRecord name record status)

/-- `descriptor_file_->Sync()`. -/
def syncFile (descriptor : Option FileName) (disk : Disk R) (status : Status) :
    Option (Disk R) :=
  descriptor.map fun name => disk.perform (.sync name status)

section Model

variable (cfg : VersionConfig K R N)

/-- The score of a level: the files of level 0, or the bytes of another level, over the limit. -/
def levelScore (v : Version K N) (level : Fin N) : Rat :=
  if level.val = 0 then ((v.files level).length : Rat) / (cfg.l0CompactionTrigger : Rat)
  else (cfg.totalFileSize (v.files level) : Rat) / cfg.maxByteForLevel level

/-- `Finalize`: the level with the best score among all but the last, the first one on a tie. -/
def finalize (v : Version K N) : Version K N :=
  let score := levelScore cfg v
  let best := (List.finRange N).dropLast.foldl (fun (best : Int × Rat) level =>
    if score level > best.2 then ((level.val : Int), score level) else best) (-1, -1)
  { v with compactionLevel := best.1, compactionScore := best.2 }

def savePointer (vs : VersionSet K N) (edit : VersionEdit K N) (level : Fin N) :
    VersionEdit K N :=
  match vs.compactPointer level with
  | some key => edit.setCompactPointer level key
  | none => edit

def saveFiles (vs : VersionSet K N) (edit : VersionEdit K N) (level : Fin N) : VersionEdit K N :=
  (vs.current.files level).foldl
    (fun edit f => edit.addFile level f.number f.fileSize f.smallest f.largest) edit

/-- The edit that `WriteSnapshot` records. -/
def snapshotEdit (vs : VersionSet K N) : VersionEdit K N :=
  let edit := ({} : VersionEdit K N).setComparatorName cfg.comparatorName
  let edit := (List.finRange N).foldl (savePointer vs) edit
  (List.finRange N).foldl (saveFiles vs) edit

def writeSnapshot (vs : VersionSet K N) (disk : Disk R) (status : Status) :
    Option (Status × Disk R) := do
  let disk ← addRecord vs.descriptor disk (cfg.encodeTo (snapshotEdit cfg vs)) status
  pure (status, disk)

/-- The assertions on the log number of an edit, or the number the edit inherits. -/
def withLogNumber (vs : VersionSet K N) (edit : VersionEdit K N) : Option (VersionEdit K N) :=
  if edit.hasLogNumber then
    if vs.logNumber ≤ edit.logNumber ∧ edit.logNumber < vs.nextFileNumber then some edit else none
  else some (edit.setLogNumber vs.logNumber)

def withPrevLogNumber (vs : VersionSet K N) (edit : VersionEdit K N) : VersionEdit K N :=
  if edit.hasPrevLogNumber then edit else edit.setPrevLogNumber vs.prevLogNumber

/-- The fields of the edit that `LogAndApply` checks and fills in. -/
def fillEdit (vs : VersionSet K N) (edit : VersionEdit K N) : Option (VersionEdit K N) := do
  let edit ← withLogNumber vs edit
  let edit := withPrevLogNumber vs edit
  let edit := edit.setNextFile vs.nextFileNumber
  pure (edit.setLastSequence vs.lastSequence)

def logAndApplyBegin [Std.TransCmp cfg.icmp] (vs : VersionSet K N) (disk : Disk R)
    (edit : VersionEdit K N) (o : ApplyOutcomes) :
    Option (VersionSet K N × Disk R × Install K N) := do
  let edit ← fillEdit vs edit
  let builder := (Builder.new cfg.icmp vs.compactPointer vs.current).apply edit
  let v ← builder.saveTo
  let vs := { vs with compactPointer := builder.compactPointer }
  let v := finalize cfg v
  match vs.descriptor with
  | some _ => pure (vs, disk, { edit, v, newManifestFile := [], s := .OK })
  | none =>
    let newManifestFile ← descriptorFileName cfg.dbname vs.manifestFileNumber
    let edit := edit.setNextFile vs.nextFileNumber
    let disk := disk.perform (.newWritableFile newManifestFile o.opened o.newFile)
    if cfg.ok o.newFile then
      let vs := { vs with descriptor := if o.opened then some newManifestFile else none }
      let (s, disk) ← writeSnapshot cfg vs disk o.snapshot
      pure (vs, disk, { edit, v, newManifestFile, s })
    else pure (vs, disk, { edit, v, newManifestFile, s := o.newFile })

/-- Append the record and sync; the status of `Sync` is not looked at. -/
def writeRecord (vs : VersionSet K N) (disk : Disk R) (i : Install K N) (o : ApplyOutcomes) :
    Option (Disk R × Install K N) := do
  let disk ← addRecord vs.descriptor disk (cfg.encodeTo i.edit) o.record
  if cfg.ok o.record then
    let disk ← syncFile vs.descriptor disk o.sync
    pure (disk, { i with s := o.record })
  else pure (disk, { i with s := o.record })

/-- Install a new manifest. -/
def switchCurrent (vs : VersionSet K N) (disk : Disk R) (i : Install K N) (o : ApplyOutcomes) :
    Option (Disk R × Install K N) :=
  if cfg.ok i.s ∧ i.newManifestFile ≠ [] then do
    let (s, disk) ← setCurrentFile cfg.ok disk cfg.dbname vs.manifestFileNumber o.setCurrent
    pure (disk, { i with s })
  else some (disk, i)

/-- The part of `LogAndApply` that runs with the mutex released. -/
def logAndApplyWrite (vs : VersionSet K N) (disk : Disk R) (i : Install K N)
    (o : ApplyOutcomes) : Option (Disk R × Install K N) :=
  if cfg.ok i.s then do
    let (disk, i) ← writeRecord cfg vs disk i o
    switchCurrent cfg vs disk i o
  else switchCurrent cfg vs disk i o

/-- `AppendVersion`: make `v` current. -/
def appendVersion (vs : VersionSet K N) (v : Version K N) : VersionSet K N :=
  { vs with current := v }

def logAndApplyFinish (vs : VersionSet K N) (disk : Disk R) (i : Install K N)
    (o : ApplyOutcomes) : VersionSet K N × Disk R :=
  if cfg.ok i.s then
    ({ appendVersion vs i.v with
        logNumber := i.edit.logNumber, prevLogNumber := i.edit.prevLogNumber }, disk)
  else if i.newManifestFile ≠ [] then
    ({ vs with descriptor := none },
      disk.perform (.removeFile i.newManifestFile o.removeManifest))
  else (vs, disk)

/-- What a call of `LogAndApply` ends with; `edit` is its in-out parameter. -/
structure Applied (K R : Type) (N : Nat) where
  vs : VersionSet K N
  disk : Disk R
  edit : VersionEdit K N
  status : Status

/-- A call of `LogAndApply` with no other step between its parts. -/
def logAndApply [Std.TransCmp cfg.icmp] (vs : VersionSet K N) (disk : Disk R)
    (edit : VersionEdit K N) (o : ApplyOutcomes) : Option (Applied K R N) := do
  let (vs, disk, i) ← logAndApplyBegin cfg vs disk edit o
  let (disk, i) ← logAndApplyWrite cfg vs disk i o
  let finished := logAndApplyFinish cfg vs disk i o
  pure { vs := finished.1, disk := finished.2, edit := i.edit, status := i.s }

/-! ## What each part does -/

variable {cfg}

theorem withLogNumber_eq_some {vs : VersionSet K N} {edit filled : VersionEdit K N}
    (h : withLogNumber vs edit = some filled) :
    filled = edit ∧ edit.hasLogNumber = true ∧ vs.logNumber ≤ edit.logNumber ∧
        edit.logNumber < vs.nextFileNumber ∨
      filled = edit.setLogNumber vs.logNumber ∧ edit.hasLogNumber = false := by
  unfold withLogNumber at h
  split at h
  · rename_i hlog
    split at h
    · rename_i hbounds
      cases h
      exact Or.inl ⟨rfl, hlog, hbounds⟩
    · cases h
  · rename_i hlog
    cases h
    exact Or.inr ⟨rfl, by simpa using hlog⟩

/-- What the filled edit keeps and what it records. -/
structure Filled (vs : VersionSet K N) (edit filled : VersionEdit K N) : Prop where
  newFiles : filled.newFiles = edit.newFiles
  deletedFiles : filled.deletedFiles = edit.deletedFiles
  compactPointers : filled.compactPointers = edit.compactPointers
  hasLogNumber : filled.hasLogNumber = true
  hasPrevLogNumber : filled.hasPrevLogNumber = true
  logNumber : filled.logNumber = if edit.hasLogNumber then edit.logNumber else vs.logNumber
  prevLogNumber :
    filled.prevLogNumber = if edit.hasPrevLogNumber then edit.prevLogNumber else vs.prevLogNumber
  logNumber_bounds : edit.hasLogNumber = true →
    vs.logNumber ≤ edit.logNumber ∧ edit.logNumber < vs.nextFileNumber
  lastSequence : filled.lastSequence = vs.lastSequence
  setNextFile : filled.setNextFile vs.nextFileNumber = filled

theorem filled_of_fillEdit {vs : VersionSet K N} {edit filled : VersionEdit K N}
    (h : fillEdit vs edit = some filled) : Filled vs edit filled := by
  unfold fillEdit at h
  obtain ⟨e, he, hfilled⟩ := Option.bind_eq_some_iff.mp h
  cases hfilled
  unfold withPrevLogNumber
  rcases withLogNumber_eq_some he with ⟨rfl, hlog, hbounds⟩ | ⟨rfl, hlog⟩
  · split
    · rename_i hprev
      exact ⟨rfl, rfl, rfl, hlog, hprev, by rw [if_pos hlog]; rfl, by rw [if_pos hprev]; rfl,
        fun _ => hbounds, rfl, rfl⟩
    · rename_i hprev
      exact ⟨rfl, rfl, rfl, hlog, rfl, by rw [if_pos hlog]; rfl, by rw [if_neg hprev]; rfl,
        fun _ => hbounds, rfl, rfl⟩
  · split
    · rename_i hprev
      have hprev' : edit.hasPrevLogNumber = true := hprev
      exact ⟨rfl, rfl, rfl, rfl, hprev, by rw [hlog]; rfl, by rw [if_pos hprev']; rfl,
        fun h => (Bool.false_ne_true (hlog.symm.trans h)).elim, rfl, rfl⟩
    · rename_i hprev
      have hprev' : ¬ edit.hasPrevLogNumber = true := hprev
      exact ⟨rfl, rfl, rfl, rfl, rfl, by rw [hlog]; rfl, by rw [if_neg hprev']; rfl,
        fun h => (Bool.false_ne_true (hlog.symm.trans h)).elim, rfl, rfl⟩

theorem Filled.newAt {vs : VersionSet K N} {edit filled : VersionEdit K N}
    (h : Filled vs edit filled) (level : Fin N) : filled.newAt level = edit.newAt level := by
  unfold VersionEdit.newAt
  rw [h.newFiles]

/-- The builder of a call, after the edit. -/
def callBuilder (icmp : K → K → Ordering) [Std.TransCmp icmp] (vs : VersionSet K N)
    (edit : VersionEdit K N) : Builder icmp N :=
  (Builder.new icmp vs.compactPointer vs.current).apply edit

/-- **The locked first part** with a manifest open, with a manifest that cannot be created, and
with a new manifest. -/
theorem logAndApplyBegin_eq_some [Std.TransCmp cfg.icmp] {vs vs' : VersionSet K N}
    {disk disk' : Disk R} {edit : VersionEdit K N} {o : ApplyOutcomes} {i : Install K N}
    (h : logAndApplyBegin cfg vs disk edit o = some (vs', disk', i)) :
    fillEdit vs edit = some i.edit ∧
      (∃ v, (callBuilder cfg.icmp vs i.edit).saveTo = some v ∧ i.v = finalize cfg v) ∧
      ((∃ m, vs.descriptor = some m ∧
          vs' = { vs with compactPointer := (callBuilder cfg.icmp vs i.edit).compactPointer } ∧
          disk' = disk ∧ i.newManifestFile = [] ∧ i.s = .OK) ∨
        (vs.descriptor = none ∧
          descriptorFileName cfg.dbname vs.manifestFileNumber = some i.newManifestFile ∧
          ((cfg.ok o.newFile = false ∧ i.s = o.newFile ∧
              vs' = { vs with compactPointer := (callBuilder cfg.icmp vs i.edit).compactPointer } ∧
              disk' = disk.performAll [.newWritableFile i.newManifestFile o.opened o.newFile]) ∨
            (cfg.ok o.newFile = true ∧ o.opened = true ∧ i.s = o.snapshot ∧
              vs' = { vs with
                compactPointer := (callBuilder cfg.icmp vs i.edit).compactPointer
                descriptor := some i.newManifestFile } ∧
              disk' = disk.performAll [.newWritableFile i.newManifestFile true o.newFile,
                .addRecord i.newManifestFile (cfg.encodeTo (snapshotEdit cfg vs'))
                  o.snapshot])))) := by
  unfold logAndApplyBegin at h
  obtain ⟨filled, hfill, h⟩ := Option.bind_eq_some_iff.mp h
  obtain ⟨v, hsave, h⟩ := Option.bind_eq_some_iff.mp h
  have hnext := (filled_of_fillEdit hfill).setNextFile
  dsimp only at h
  split at h
  · rename_i m hm
    cases h
    exact ⟨hfill, ⟨v, hsave, rfl⟩, Or.inl ⟨m, hm, rfl, rfl, rfl, rfl⟩⟩
  · rename_i hnone
    obtain ⟨name, hname, h⟩ := Option.bind_eq_some_iff.mp h
    rw [hnext] at h
    split at h
    · rename_i hok
      obtain ⟨⟨s, disk₂⟩, hsnap, h⟩ := Option.bind_eq_some_iff.mp h
      cases h
      unfold writeSnapshot addRecord at hsnap
      obtain ⟨disk₃, hadd, hsnap⟩ := Option.bind_eq_some_iff.mp hsnap
      cases hsnap
      cases hopened : o.opened with
      | false =>
        rw [hopened] at hadd
        cases hadd
      | true =>
        rw [hopened] at hadd
        cases hadd
        exact ⟨hfill, ⟨v, hsave, rfl⟩,
          Or.inr ⟨hnone, hname, Or.inr ⟨hok, rfl, rfl, rfl, rfl⟩⟩⟩
    · rename_i hok
      cases h
      exact ⟨hfill, ⟨v, hsave, rfl⟩,
        Or.inr ⟨hnone, hname, Or.inl ⟨by simpa using hok, rfl, rfl, rfl⟩⟩⟩

/-- The version that is built lists files of the current version and files that the edit adds. -/
theorem logAndApplyBegin_files [Std.TransCmp cfg.icmp] {vs vs' : VersionSet K N}
    {disk disk' : Disk R} {edit : VersionEdit K N} {o : ApplyOutcomes} {i : Install K N}
    (h : logAndApplyBegin cfg vs disk edit o = some (vs', disk', i)) {level : Fin N}
    {f : FileMetaData K} (hf : f ∈ i.v.files level) :
    f ∈ vs.current.files level ∨ ∃ g ∈ edit.newAt level, f = g.adopted := by
  obtain ⟨hfill, ⟨v, hsave, hv⟩, -⟩ := logAndApplyBegin_eq_some h
  obtain ⟨-, rfl⟩ := Builder.saveTo_eq_some.mp hsave
  rw [hv] at hf
  rw [← (filled_of_fillEdit hfill).newAt]
  exact Builder.mem_of_mem_survivors_apply hf

/-- An edit that neither adds nor deletes leaves the files as they are. -/
theorem logAndApplyBegin_same_files [Std.TransCmp cfg.icmp] {vs vs' : VersionSet K N}
    {disk disk' : Disk R} {edit : VersionEdit K N} {o : ApplyOutcomes} {i : Install K N}
    (h : logAndApplyBegin cfg vs disk edit o = some (vs', disk', i)) (hnew : edit.newFiles = [])
    (hdel : edit.deletedFiles = .empty) (level : Fin N) (f : FileMetaData K) :
    f ∈ i.v.files level ↔ f ∈ vs.current.files level := by
  obtain ⟨hfill, ⟨v, hsave, hv⟩, -⟩ := logAndApplyBegin_eq_some h
  obtain ⟨-, rfl⟩ := Builder.saveTo_eq_some.mp hsave
  have hfilled := filled_of_fillEdit hfill
  have hnone : i.edit.newAt level = [] := by
    unfold VersionEdit.newAt
    rw [hfilled.newFiles, hnew]
    rfl
  have hkept : i.edit.deletedAt level = [] := by
    unfold VersionEdit.deletedAt
    rw [hfilled.deletedFiles, hdel]
    rfl
  have hsurvive : ∀ b : Builder cfg.icmp N, f ∈ (b.apply i.edit).survivors level ↔
      f ∈ b.survivors level := by
    intro b
    rw [Builder.mem_survivors_apply (by rw [hnone]; exact ⟨List.nodup_nil, nofun⟩), hnone, hkept]
    simp
  rw [hv]
  show f ∈ (callBuilder cfg.icmp vs i.edit).survivors level ↔ _
  unfold callBuilder
  rw [hsurvive, Builder.new_survivors]

theorem writeRecord_eq_some {vs : VersionSet K N} {disk disk' : Disk R} {i i' : Install K N}
    {o : ApplyOutcomes} (h : writeRecord cfg vs disk i o = some (disk', i')) :
    i' = { i with s := o.record } ∧ ∃ m, vs.descriptor = some m ∧
      disk' = disk.performAll (.addRecord m (cfg.encodeTo i.edit) o.record ::
        if cfg.ok o.record then [.sync m o.sync] else []) := by
  unfold writeRecord addRecord syncFile at h
  cases hm : vs.descriptor with
  | none =>
    rw [hm] at h
    cases h
  | some m =>
    rw [hm] at h
    cases hok : cfg.ok o.record with
    | false =>
      simp only [hok] at h
      cases h
      exact ⟨rfl, m, rfl, rfl⟩
    | true =>
      simp only [hok] at h
      cases h
      exact ⟨rfl, m, rfl, rfl⟩

theorem switchCurrent_eq_some {vs : VersionSet K N} {disk disk' : Disk R} {i i' : Install K N}
    {o : ApplyOutcomes} (h : switchCurrent cfg vs disk i o = some (disk', i')) :
    (¬ (cfg.ok i.s = true ∧ i.newManifestFile ≠ []) ∧ i' = i ∧ disk' = disk) ∨
      (cfg.ok i.s = true ∧ i.newManifestFile ≠ [] ∧
        ∃ manifest tmp, descriptorFileName cfg.dbname vs.manifestFileNumber = some manifest ∧
          tempFileName cfg.dbname vs.manifestFileNumber = some tmp ∧
          i' = { i with s := o.setCurrent.status cfg.ok } ∧
          disk' = disk.performAll (o.setCurrent.ops cfg.ok cfg.dbname manifest tmp)) := by
  unfold switchCurrent at h
  split at h
  · rename_i hcond
    obtain ⟨⟨s, disk₁⟩, hset, h⟩ := Option.bind_eq_some_iff.mp h
    cases h
    obtain ⟨manifest, tmp, hmanifest, htmp, rfl, rfl⟩ := setCurrentFile_eq_some cfg.ok hset
    exact Or.inr ⟨hcond.1, hcond.2, manifest, tmp, hmanifest, htmp, rfl, rfl⟩
  · rename_i hcond
    cases h
    exact Or.inl ⟨hcond, rfl, rfl⟩

/-- **The unlocked part**: skipped after an error; else the record is appended and, if that went
well, the manifest is synced and a new manifest installed. -/
theorem logAndApplyWrite_eq_some {vs : VersionSet K N} {disk disk' : Disk R}
    {i i' : Install K N} {o : ApplyOutcomes}
    (h : logAndApplyWrite cfg vs disk i o = some (disk', i')) :
    (i'.edit = i.edit ∧ i'.v = i.v ∧ i'.newManifestFile = i.newManifestFile) ∧
      ((cfg.ok i.s = false ∧ i'.s = i.s ∧ disk' = disk) ∨
        (cfg.ok i.s = true ∧ ∃ m, vs.descriptor = some m ∧
          ((cfg.ok o.record = false ∧ i'.s = o.record ∧
              disk' = disk.performAll [.addRecord m (cfg.encodeTo i.edit) o.record]) ∨
            (cfg.ok o.record = true ∧ i.newManifestFile = [] ∧ i'.s = o.record ∧
              disk' = disk.performAll
                [.addRecord m (cfg.encodeTo i.edit) o.record, .sync m o.sync]) ∨
            (cfg.ok o.record = true ∧ i.newManifestFile ≠ [] ∧
              ∃ manifest tmp, descriptorFileName cfg.dbname vs.manifestFileNumber = some manifest ∧
                tempFileName cfg.dbname vs.manifestFileNumber = some tmp ∧
                i'.s = o.setCurrent.status cfg.ok ∧
                disk' = disk.performAll
                  ([.addRecord m (cfg.encodeTo i.edit) o.record, .sync m o.sync] ++
                    o.setCurrent.ops cfg.ok cfg.dbname manifest tmp))))) := by
  unfold logAndApplyWrite at h
  split at h
  · rename_i hs
    obtain ⟨⟨disk₁, i₁⟩, hwrite, h⟩ := Option.bind_eq_some_iff.mp h
    obtain ⟨rfl, m, hm, rfl⟩ := writeRecord_eq_some hwrite
    rcases switchCurrent_eq_some h with ⟨hcond, rfl, rfl⟩ |
        ⟨hrecord, hnew, manifest, tmp, hmanifest, htmp, rfl, rfl⟩
    · cases hrecord : cfg.ok o.record with
      | false => exact ⟨⟨rfl, rfl, rfl⟩, Or.inr ⟨hs, m, hm, Or.inl ⟨rfl, rfl, rfl⟩⟩⟩
      | true =>
        have hnew : i.newManifestFile = [] := by
          by_contra hne
          exact hcond ⟨hrecord, hne⟩
        exact ⟨⟨rfl, rfl, rfl⟩, Or.inr ⟨hs, m, hm, Or.inr (Or.inl ⟨rfl, hnew, rfl, rfl⟩)⟩⟩
    · have hrecord : cfg.ok o.record = true := hrecord
      refine ⟨⟨rfl, rfl, rfl⟩, Or.inr ⟨hs, m, hm, Or.inr (Or.inr ⟨hrecord, hnew, manifest, tmp,
        hmanifest, htmp, rfl, ?_⟩)⟩⟩
      rw [if_pos hrecord, Disk.performAll_append]
  · rename_i hs
    rcases switchCurrent_eq_some h with ⟨-, rfl, rfl⟩ | ⟨hok, -⟩
    · exact ⟨⟨rfl, rfl, rfl⟩, Or.inl ⟨by simpa using hs, rfl, rfl⟩⟩
    · exact absurd hok hs

theorem logAndApplyFinish_ok {vs : VersionSet K N} {disk : Disk R} {i : Install K N}
    {o : ApplyOutcomes} (h : cfg.ok i.s = true) :
    logAndApplyFinish cfg vs disk i o =
      ({ vs with current := i.v, logNumber := i.edit.logNumber,
                 prevLogNumber := i.edit.prevLogNumber }, disk) := by
  unfold logAndApplyFinish
  rw [if_pos h]
  rfl

theorem logAndApplyFinish_open {vs : VersionSet K N} {disk : Disk R} {i : Install K N}
    {o : ApplyOutcomes} (h : cfg.ok i.s = false) (hnew : i.newManifestFile = []) :
    logAndApplyFinish cfg vs disk i o = (vs, disk) := by
  unfold logAndApplyFinish
  rw [if_neg (by simp [h]), if_neg (by simp [hnew])]

theorem logAndApplyFinish_new {vs : VersionSet K N} {disk : Disk R} {i : Install K N}
    {o : ApplyOutcomes} (h : cfg.ok i.s = false) (hnew : i.newManifestFile ≠ []) :
    logAndApplyFinish cfg vs disk i o =
      ({ vs with descriptor := none },
        disk.perform (.removeFile i.newManifestFile o.removeManifest)) := by
  unfold logAndApplyFinish
  rw [if_neg (by simp [h]), if_pos hnew]

/-! ## A call returns -/

/-- The unlocked part passes its assertions. -/
theorem logAndApplyWrite_isSome {vs : VersionSet K N} {disk : Disk R} {i : Install K N}
    {o : ApplyOutcomes} (hopen : cfg.ok i.s = true → ∃ m, vs.descriptor = some m)
    (hnumber : i.newManifestFile ≠ [] → 0 < vs.manifestFileNumber) :
    ∃ p, logAndApplyWrite cfg vs disk i o = some p := by
  have hswitch : ∀ (disk : Disk R) (j : Install K N), j.newManifestFile = i.newManifestFile →
      ∃ p, switchCurrent cfg vs disk j o = some p := by
    intro disk j hj
    unfold switchCurrent
    split
    · rename_i hcond
      rw [hj] at hcond
      have hpos := hnumber hcond.2
      obtain ⟨manifest, hmanifest⟩ : ∃ m, descriptorFileName cfg.dbname vs.manifestFileNumber =
          some m := ⟨_, if_pos hpos⟩
      obtain ⟨tmp, htmp⟩ : ∃ t, tempFileName cfg.dbname vs.manifestFileNumber = some t :=
        ⟨_, if_pos hpos⟩
      rw [setCurrentFile_eq cfg.ok disk hmanifest htmp o.setCurrent]
      exact ⟨_, rfl⟩
    · exact ⟨_, rfl⟩
  unfold logAndApplyWrite
  split
  · rename_i hs
    obtain ⟨m, hm⟩ := hopen hs
    obtain ⟨q, hq, hsame⟩ : ∃ q, writeRecord cfg vs disk i o = some q ∧
        q.2.newManifestFile = i.newManifestFile := by
      unfold writeRecord addRecord syncFile
      rw [hm]
      by_cases hrecord : cfg.ok o.record = true
      · exact ⟨_, if_pos hrecord, rfl⟩
      · exact ⟨_, if_neg hrecord, rfl⟩
    rw [hq]
    exact hswitch q.1 q.2 hsame
  · exact hswitch disk i rfl

theorem logAndApplyBegin_isSome [Std.TransCmp cfg.icmp] {vs : VersionSet K N} (disk : Disk R)
    {edit e : VersionEdit K N} {v : Version K N} (o : ApplyOutcomes)
    (hfill : fillEdit vs edit = some e) (hsave : (callBuilder cfg.icmp vs e).saveTo = some v)
    (hmanifest : vs.descriptor ≠ none ∨
      0 < vs.manifestFileNumber ∧ (cfg.ok o.newFile = true → o.opened = true)) :
    ∃ b, logAndApplyBegin cfg vs disk edit o = some b := by
  unfold callBuilder at hsave
  unfold logAndApplyBegin
  rw [hfill]
  dsimp only [Option.bind_eq_bind, Option.bind_some]
  rw [hsave]
  dsimp only [Option.bind_some]
  cases hdescriptor : vs.descriptor with
  | some m => exact ⟨_, rfl⟩
  | none =>
    obtain ⟨hpos, hopened⟩ := hmanifest.resolve_left fun hne => hne hdescriptor
    obtain ⟨name, hname⟩ : ∃ m, descriptorFileName cfg.dbname vs.manifestFileNumber = some m :=
      ⟨_, if_pos hpos⟩
    dsimp only
    rw [hname]
    dsimp only [Option.bind_some]
    split
    · rename_i hok
      rw [hopened hok]
      exact ⟨_, rfl⟩
    · exact ⟨_, rfl⟩

/-- **A call passes its assertions** when the edit can be filled in and applied, and either a
manifest is open or one can be named and a file that was created is not null. -/
theorem logAndApply_isSome [Std.TransCmp cfg.icmp] {vs : VersionSet K N} (disk : Disk R)
    {edit e : VersionEdit K N} {v : Version K N} (o : ApplyOutcomes)
    (hfill : fillEdit vs edit = some e) (hsave : (callBuilder cfg.icmp vs e).saveTo = some v)
    (hmanifest : vs.descriptor ≠ none ∨
      0 < vs.manifestFileNumber ∧ (cfg.ok o.newFile = true → o.opened = true)) :
    ∃ r, logAndApply cfg vs disk edit o = some r := by
  obtain ⟨⟨vs₁, disk₁, i⟩, hbegin⟩ := logAndApplyBegin_isSome disk o hfill hsave hmanifest
  obtain ⟨p, hwrite⟩ : ∃ p, logAndApplyWrite cfg vs₁ disk₁ i o = some p := by
    obtain ⟨-, -, hends⟩ := logAndApplyBegin_eq_some hbegin
    rcases hends with ⟨m, hm, rfl, -, hempty, -⟩ | ⟨hnull, -, hends⟩
    · exact logAndApplyWrite_isSome (fun _ => ⟨m, hm⟩) (fun hne => absurd hempty hne)
    · obtain ⟨hpos, -⟩ := hmanifest.resolve_left fun hne => hne hnull
      rcases hends with ⟨hbad, hs, rfl, -⟩ | ⟨-, -, -, rfl, -⟩
      · refine logAndApplyWrite_isSome (fun hok => ?_) (fun _ => hpos)
        rw [hs, hbad] at hok
        cases hok
      · exact logAndApplyWrite_isSome (fun _ => ⟨_, rfl⟩) (fun _ => hpos)
  unfold logAndApply
  rw [hbegin]
  dsimp only [Option.bind_eq_bind, Option.bind_some]
  rw [hwrite]
  exact ⟨_, rfl⟩

end Model

/-! ## The four ends of a call -/

/-- Every file operation that creates and installs a new manifest succeeds, but for its sync. -/
def ApplyOutcomes.CreationSucceeds (o : ApplyOutcomes) : Prop :=
  o.newFile = .OK ∧ o.snapshot = .OK ∧ o.record = .OK ∧ o.setCurrent.write = .OK ∧
    o.setCurrent.rename = .OK

instance (o : ApplyOutcomes) : Decidable o.CreationSucceeds := by
  unfold ApplyOutcomes.CreationSucceeds
  infer_instance

section Calls

variable (cfg : VersionConfig K R N) [Std.TransCmp cfg.icmp]

/-- `Apply` has written the compaction pointers of the edit. -/
def pointed (vs : VersionSet K N) (e : VersionEdit K N) : VersionSet K N :=
  { vs with compactPointer := (callBuilder cfg.icmp vs e).compactPointer }

/-- The version set in which `v` has been installed by the edit `e`. -/
def installed (vs : VersionSet K N) (e : VersionEdit K N) (v : Version K N) : VersionSet K N :=
  { pointed cfg vs e with
    current := finalize cfg v, logNumber := e.logNumber, prevLogNumber := e.prevLogNumber }

/-- How a call ends that has filled in its edit to `e` and built `v`. -/
inductive CallEnds (vs : VersionSet K N) (disk : Disk R) (o : ApplyOutcomes)
    (e : VersionEdit K N) (v : Version K N) : Applied K R N → Prop
  | recorded {m : FileName} (hopen : vs.descriptor = some m) (hrecord : o.record = .OK) :
      CallEnds vs disk o e v
        { vs := installed cfg vs e v
          disk := disk.performAll [.addRecord m (cfg.encodeTo e) .OK, .sync m o.sync]
          edit := e, status := .OK }
  | recordFailed {m : FileName} (hopen : vs.descriptor = some m) (hrecord : o.record ≠ .OK) :
      CallEnds vs disk o e v
        { vs := pointed cfg vs e
          disk := disk.performAll [.addRecord m (cfg.encodeTo e) o.record]
          edit := e, status := o.record }
  | created {m tmp : FileName} (hnull : vs.descriptor = none)
      (hm : descriptorFileName cfg.dbname vs.manifestFileNumber = some m)
      (htmp : tempFileName cfg.dbname vs.manifestFileNumber = some tmp)
      (hsucceed : o.CreationSucceeds) :
      CallEnds vs disk o e v
        { vs := { installed cfg vs e v with descriptor := some m }
          disk := disk.performAll
            [.newWritableFile m true .OK,
              .addRecord m (cfg.encodeTo (snapshotEdit cfg (pointed cfg vs e))) .OK,
              .addRecord m (cfg.encodeTo e) .OK, .sync m o.sync,
              .writeStringToFileSync tmp (m.drop (cfg.dbname.length + 1) ++ ['\n'])
                o.setCurrent.left .OK,
              .renameFile tmp (currentFileName cfg.dbname) .OK]
          edit := e, status := .OK }
  | createFailed {disk' : Disk R} {status : Status} (hnull : vs.descriptor = none)
      (hfail : ¬ o.CreationSucceeds) (hstatus : status ≠ .OK) :
      CallEnds vs disk o e v { vs := pointed cfg vs e, disk := disk', edit := e, status }

variable {cfg}

/-- **The ends of a call** when a status is ok exactly if it is the OK status. -/
theorem callEnds_of_logAndApply (hok : cfg.ok = Status.isOK) {vs : VersionSet K N}
    {disk : Disk R} {edit : VersionEdit K N} {o : ApplyOutcomes} {r : Applied K R N}
    (h : logAndApply cfg vs disk edit o = some r) :
    ∃ e v, fillEdit vs edit = some e ∧ (callBuilder cfg.icmp vs e).saveTo = some v ∧
      CallEnds cfg vs disk o e v r := by
  unfold logAndApply at h
  obtain ⟨⟨vs₁, disk₁, i₁⟩, hbegin, h⟩ := Option.bind_eq_some_iff.mp h
  obtain ⟨⟨disk₂, i₂⟩, hwrite, h⟩ := Option.bind_eq_some_iff.mp h
  obtain rfl := Option.some.inj h
  obtain ⟨hfill, ⟨v, hsave, hv⟩, hbegin⟩ := logAndApplyBegin_eq_some hbegin
  obtain ⟨⟨hedit, hv', hnew⟩, hwrite⟩ := logAndApplyWrite_eq_some hwrite
  rw [← hedit] at hfill hsave hbegin hwrite
  rw [hv] at hv'
  refine ⟨i₂.edit, v, hfill, hsave, ?_⟩
  rw [hok] at hbegin hwrite
  rcases hbegin with ⟨m, hm, rfl, rfl, hempty, hs⟩ | ⟨hnull, hname, hbegin⟩
  · -- a manifest is open
    rw [hempty] at hnew
    rcases hwrite with ⟨hbad, -⟩ | ⟨-, m', hm', hwrite⟩
    · rw [hs] at hbad
      cases hbad
    · obtain rfl : m = m' := Option.some.inj (hm.symm.trans hm')
      rcases hwrite with ⟨hbad, hs₂, rfl⟩ | ⟨hgood, -, hs₂, rfl⟩ | ⟨-, hne, -⟩
      · rw [logAndApplyFinish_open (by rw [hok, hs₂]; exact hbad) hnew, hs₂]
        exact .recordFailed hm (by simpa using hbad)
      · have hrecord : o.record = .OK := by simpa using hgood
        rw [logAndApplyFinish_ok (by rw [hok, hs₂]; exact hgood), hs₂, hrecord, hv']
        exact .recorded hm hrecord
      · exact absurd hempty hne
  · -- a manifest has to be created
    have hne : i₂.newManifestFile ≠ [] := by
      rw [hnew]
      exact descriptorFileName_ne_nil hname
    have hfailed : ∀ {vs' : VersionSet K N},
        { vs' with descriptor := none } = pointed cfg vs i₂.edit → i₂.s ≠ .OK →
        ¬ o.CreationSucceeds →
        CallEnds cfg vs disk o i₂.edit v
          { vs := (logAndApplyFinish cfg vs' disk₂ i₂ o).1
            disk := (logAndApplyFinish cfg vs' disk₂ i₂ o).2, edit := i₂.edit, status := i₂.s } := by
      intro vs' hvs' hs hnot
      rw [logAndApplyFinish_new (by rw [hok]; simpa using hs) hne]
      dsimp only
      rw [hvs']
      exact .createFailed hnull hnot hs
    rcases hbegin with ⟨hbad, hs, rfl, rfl⟩ | ⟨hfile, hopened, hs, rfl, rfl⟩
    · rcases hwrite with ⟨-, hs₂, rfl⟩ | ⟨hgood, -⟩
      · refine hfailed ?_ ?_ ?_
        · unfold pointed
          rw [hnull]
        · rw [hs₂, hs]
          simpa using hbad
        · rintro ⟨hnew, -⟩
          simp [hnew] at hbad
      · rw [hs] at hgood
        rw [hgood] at hbad
        cases hbad
    · have hnone : { pointed cfg vs i₂.edit with descriptor := none } = pointed cfg vs i₂.edit := by
        unfold pointed
        rw [hnull]
      rcases hwrite with ⟨hbad, hs₂, rfl⟩ | ⟨hgood, m, hm, hwrite⟩
      · refine hfailed hnone ?_ ?_
        · rw [hs₂]
          simpa using hbad
        · rintro ⟨-, hsnap, -⟩
          rw [hs, hsnap] at hbad
          cases hbad
      · cases hm
        rcases hwrite with ⟨hbad, hs₂, rfl⟩ | ⟨-, hempty, -⟩ |
            ⟨hrecord, -, manifest, tmp, hmanifest, htmp, hs₂, rfl⟩
        · refine hfailed hnone ?_ ?_
          · rw [hs₂]
            simpa using hbad
          · rintro ⟨-, -, hrec, -⟩
            rw [hrec] at hbad
            cases hbad
        · exact absurd hempty (descriptorFileName_ne_nil hname)
        · obtain rfl : manifest = i₁.newManifestFile :=
            Option.some.inj (hmanifest.symm.trans hname)
          by_cases hset : o.setCurrent.status Status.isOK = .OK
          · obtain ⟨hw, hr⟩ := o.setCurrent.status_isOK.mp hset
            rw [hs] at hgood
            have hfile : o.newFile = .OK := by simpa using hfile
            have hsnap : o.snapshot = .OK := by simpa using hgood
            have hrecord : o.record = .OK := by simpa using hrecord
            rw [logAndApplyFinish_ok (by rw [hok, hs₂, hset]; rfl), hs₂, hset, hv',
              CurrentOutcomes.ops_isOK _ hw hr, hfile, hsnap, hrecord]
            have hend : CallEnds cfg vs disk o i₂.edit v _ :=
              .created hnull hname htmp ⟨hfile, hsnap, hrecord, hw, hr⟩
            rw [← Disk.performAll_append]
            exact hend
          · refine hfailed hnone ?_ ?_
            · rw [hs₂]
              exact hset
            · rintro ⟨-, -, -, hw, hr⟩
              exact hset (o.setCurrent.status_isOK.mpr ⟨hw, hr⟩)

end Calls

/-! ## A small database -/

/-- Natural numbers as keys, two levels, and records that are the edits themselves. -/
def natConfig : VersionConfig Nat (VersionEdit Nat 2) 2 where
  icmp := compare
  ok := Status.isOK
  dbname := ['d', 'b']
  comparatorName := "nat"
  encodeTo := id
  l0CompactionTrigger := 4
  totalFileSize files := (files.map FileMetaData.fileSize).sum
  maxByteForLevel _ := 10485760

instance : Std.TransCmp natConfig.icmp :=
  inferInstanceAs (Std.TransCmp (compare : Nat → Nat → Ordering))

/-- An empty database whose manifest, number 2, is open. -/
def openVersionSet : VersionSet Nat 2 where
  nextFileNumber := 5
  manifestFileNumber := 2
  lastSequence := 0
  logNumber := 3
  prevLogNumber := 0
  descriptor := descriptorFileName ['d', 'b'] 2
  current := {}
  compactPointer _ := none

/-- The edit of a flushed table with number 4. -/
def flushEdit : VersionEdit Nat 2 := ({} : VersionEdit Nat 2).addFile 0 4 100 1 9

/-- An edit that moves the compaction pointer of level 0 and adds a table. -/
def pointerEdit : VersionEdit Nat 2 := flushEdit.setCompactPointer 0 7

end LevelDB
