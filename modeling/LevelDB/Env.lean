import LevelDB.FileName
import LevelDB.Status
import Mathlib.Logic.Function.Basic

/-!
# The environment

The named files of the database and the operations on them. Every operation carries its outcome:
the status that the environment returns and, where a failure may leave something behind, what it
leaves. The operations are kept in order, with their outcomes, beside the files.

* `Disk.perform` — one file operation;
* `setCurrentFile` — `SetCurrentFile`, whose operations `setCurrentFile_eq` lists;
* `setCurrentFile_atomic` — what a stop after any of them leaves.
-/

set_option autoImplicit false

namespace LevelDB

/-- A manifest holds records of type `R`, the other files of this model hold text. -/
inductive FileData (R : Type)
  | text (data : List Char)
  | records (rs : List R)

inductive FileOp (R : Type)
  | newWritableFile (name : FileName) (opened : Bool) (status : Status)
  | addRecord (name : FileName) (record : R) (status : Status)
  | sync (name : FileName) (status : Status)
  | writeStringToFileSync (name : FileName) (data : List Char) (left : Option (List Char))
      (status : Status)
  | renameFile (src target : FileName) (status : Status)
  | removeFile (name : FileName) (status : Status)
  deriving DecidableEq

structure Disk (R : Type) where
  files : FileName → Option (FileData R)
  trace : List (FileOp R) := []

variable {R : Type}

namespace FileData

def append (record : R) : FileData R → FileData R
  | text data => text data
  | records rs => records (rs ++ [record])

end FileData

namespace FileOp

/-- What an operation does to the files. A failed append leaves no readable record, a failed write
leaves what its outcome says, a failed rename or removal changes nothing. -/
def effect (files : FileName → Option (FileData R)) : FileOp R → FileName → Option (FileData R)
  | newWritableFile name opened _ =>
    if opened then Function.update files name (some (.records [])) else files
  | addRecord name record status =>
    if status = .OK then Function.update files name ((files name).map (FileData.append record))
    else files
  | sync _ _ => files
  | writeStringToFileSync name data left status =>
    Function.update files name
      (if status = .OK then some (.text data) else left.map FileData.text)
  | renameFile src target status =>
    if status = .OK then Function.update (Function.update files target (files src)) src none
    else files
  | removeFile name status => if status = .OK then Function.update files name none else files

end FileOp

namespace Disk

def perform (disk : Disk R) (op : FileOp R) : Disk R where
  files := op.effect disk.files
  trace := disk.trace ++ [op]

def performAll (disk : Disk R) (ops : List (FileOp R)) : Disk R := ops.foldl perform disk

@[simp] theorem perform_trace (disk : Disk R) (op : FileOp R) :
    (disk.perform op).trace = disk.trace ++ [op] := rfl

@[simp] theorem performAll_trace (ops : List (FileOp R)) (disk : Disk R) :
    (disk.performAll ops).trace = disk.trace ++ ops := by
  induction ops generalizing disk with
  | nil => exact (List.append_nil _).symm
  | cons op ops ih =>
    show (performAll (disk.perform op) ops).trace = _
    rw [ih, perform_trace, List.append_assoc]
    rfl

theorem performAll_append (disk : Disk R) (ops₁ ops₂ : List (FileOp R)) :
    disk.performAll (ops₁ ++ ops₂) = (disk.performAll ops₁).performAll ops₂ :=
  List.foldl_append

end Disk

/-! ## SetCurrentFile -/

/-- The outcomes of the operations of `SetCurrentFile`. -/
structure CurrentOutcomes where
  write : Status := .OK
  left : Option (List Char) := none
  rename : Status := .OK
  remove : Status := .OK

section SetCurrentFile

variable (ok : Status → Bool)

/-- `SetCurrentFile`; the assertion on the prefix fails as `none`. -/
def setCurrentFile (disk : Disk R) (dbname : FileName) (descriptorNumber : Nat)
    (o : CurrentOutcomes) : Option (Status × Disk R) := do
  let manifest ← descriptorFileName dbname descriptorNumber
  guard ((dbname ++ ['/']) <+: manifest)
  let contents := manifest.drop (dbname.length + 1)
  let tmp ← tempFileName dbname descriptorNumber
  let disk := disk.perform (.writeStringToFileSync tmp (contents ++ ['\n']) o.left o.write)
  let (s, disk) :=
    if ok o.write then (o.rename, disk.perform (.renameFile tmp (currentFileName dbname) o.rename))
    else (o.write, disk)
  if ok s then pure (s, disk) else pure (s, disk.perform (.removeFile tmp o.remove))

/-- The status that `SetCurrentFile` returns. -/
def CurrentOutcomes.status (o : CurrentOutcomes) : Status :=
  if ok o.write then o.rename else o.write

/-- The operations of `SetCurrentFile`, in order. -/
def CurrentOutcomes.ops (o : CurrentOutcomes) (dbname manifest tmp : FileName) :
    List (FileOp R) :=
  [.writeStringToFileSync tmp (manifest.drop (dbname.length + 1) ++ ['\n']) o.left o.write] ++
    (if ok o.write then [.renameFile tmp (currentFileName dbname) o.rename] else []) ++
    (if ok (o.status ok) then [] else [.removeFile tmp o.remove])

/-- **`SetCurrentFile` passes its assertions** and performs these operations. -/
theorem setCurrentFile_eq (disk : Disk R) {dbname manifest tmp : FileName} {number : Nat}
    (hmanifest : descriptorFileName dbname number = some manifest)
    (htmp : tempFileName dbname number = some tmp) (o : CurrentOutcomes) :
    setCurrentFile ok disk dbname number o =
      some (o.status ok, disk.performAll (o.ops ok dbname manifest tmp)) := by
  have hstarts := startsWith_descriptorFileName hmanifest
  unfold setCurrentFile CurrentOutcomes.ops CurrentOutcomes.status guard
  rw [hmanifest, htmp]
  cases hwrite : ok o.write with
  | false => simp [hstarts, hwrite, Disk.performAll]
  | true =>
    cases hrename : ok o.rename <;> simp [hstarts, hrename, Disk.performAll]

theorem setCurrentFile_eq_some {disk disk' : Disk R} {dbname : FileName} {number : Nat}
    {o : CurrentOutcomes} {s : Status}
    (h : setCurrentFile ok disk dbname number o = some (s, disk')) :
    ∃ manifest tmp, descriptorFileName dbname number = some manifest ∧
      tempFileName dbname number = some tmp ∧ s = o.status ok ∧
      disk' = disk.performAll (o.ops ok dbname manifest tmp) := by
  by_cases hpos : number > 0
  · obtain ⟨manifest, hmanifest⟩ : ∃ m, descriptorFileName dbname number = some m := by
      unfold descriptorFileName
      rw [if_pos hpos]
      exact ⟨_, rfl⟩
    obtain ⟨tmp, htmp⟩ : ∃ t, tempFileName dbname number = some t := by
      unfold tempFileName
      rw [if_pos hpos]
      exact ⟨_, rfl⟩
    rw [setCurrentFile_eq ok disk hmanifest htmp o] at h
    cases h
    exact ⟨manifest, tmp, hmanifest, htmp, rfl, rfl⟩
  · unfold setCurrentFile descriptorFileName at h
    rw [if_neg hpos] at h
    cases h

theorem CurrentOutcomes.status_isOK (o : CurrentOutcomes) :
    o.status Status.isOK = .OK ↔ o.write = .OK ∧ o.rename = .OK := by
  unfold CurrentOutcomes.status
  by_cases hwrite : o.write = .OK
  · simp [hwrite]
  · simp [hwrite]

/-- The operations when all goes well. -/
theorem CurrentOutcomes.ops_isOK (o : CurrentOutcomes) (hwrite : o.write = .OK)
    (hrename : o.rename = .OK) (dbname manifest tmp : FileName) :
    (o.ops Status.isOK dbname manifest tmp : List (FileOp R)) =
      [.writeStringToFileSync tmp (manifest.drop (dbname.length + 1) ++ ['\n']) o.left .OK,
        .renameFile tmp (currentFileName dbname) .OK] := by
  have hstatus := o.status_isOK.mpr ⟨hwrite, hrename⟩
  unfold CurrentOutcomes.ops
  rw [hstatus, hwrite, hrename]
  rfl

/-! ### Every prefix of the operations -/

/-- The operation leaves the file alone. -/
def FileOp.Spares (f : FileName) (op : FileOp R) : Prop :=
  ∀ files, op.effect files f = files f

theorem Disk.performAll_spares {f : FileName} :
    ∀ {ops : List (FileOp R)} (disk : Disk R), (∀ op ∈ ops, op.Spares f) →
      (disk.performAll ops).files f = disk.files f
  | [], _, _ => rfl
  | op :: ops, disk, h => by
    have hrest := performAll_spares (disk.perform op)
      fun op' hop' => h op' (List.mem_cons_of_mem op hop')
    exact hrest.trans (h op List.mem_cons_self disk.files)

theorem FileOp.write_spares {f tmp : FileName} (h : f ≠ tmp) (data : List Char)
    (left : Option (List Char)) (status : Status) :
    (writeStringToFileSync tmp data left status : FileOp R).Spares f :=
  fun _ => Function.update_of_ne h _ _

theorem FileOp.remove_spares {f tmp : FileName} (h : f ≠ tmp) (status : Status) :
    (removeFile tmp status : FileOp R).Spares f := by
  intro files
  show (if status = .OK then Function.update files tmp none else files) f = files f
  split
  · exact Function.update_of_ne h _ _
  · rfl

theorem FileOp.rename_spares {f src target : FileName} {status : Status}
    (h : status ≠ .OK ∨ f ≠ src ∧ f ≠ target) :
    (renameFile src target status : FileOp R).Spares f := by
  intro files
  show (if status = .OK then Function.update (Function.update files target (files src)) src none
    else files) f = files f
  split
  · rename_i hok
    obtain ⟨hsrc, htarget⟩ := h.resolve_left (not_not_intro hok)
    rw [Function.update_of_ne hsrc, Function.update_of_ne htarget]
  · rfl

/-- What a stop may leave: `CURRENT` is old or new, and only the temporary file is touched. -/
structure Switched (disk disk' : Disk R) (current tmp : FileName) (line : List Char) : Prop where
  oldOrNew : disk'.files current = disk.files current ∨ disk'.files current = some (.text line)
  others : ∀ f, f ≠ current → f ≠ tmp → disk'.files f = disk.files f

/-- `CURRENT` is touched only when all goes well. -/
theorem CurrentOutcomes.ops_spares {o : CurrentOutcomes} {dbname manifest tmp f : FileName}
    (htmp : f ≠ tmp) (hcurrent : f ≠ currentFileName dbname ∨ o.status Status.isOK ≠ .OK) :
    ∀ op ∈ (o.ops Status.isOK dbname manifest tmp : List (FileOp R)), op.Spares f := by
  intro op hop
  rcases List.mem_append.mp hop with hop | hop
  · rcases List.mem_append.mp hop with hop | hop
    · rw [List.mem_singleton.mp hop]
      exact FileOp.write_spares htmp _ _ _
    · split at hop
      · rename_i hwrite
        rw [List.mem_singleton.mp hop]
        refine FileOp.rename_spares (hcurrent.elim (fun h => Or.inr ⟨htmp, h⟩) fun h => Or.inl ?_)
        exact fun hrename => h (o.status_isOK.mpr ⟨Status.isOK_iff.mp hwrite, hrename⟩)
      · cases hop
  · split at hop
    · cases hop
    · rw [List.mem_singleton.mp hop]
      exact FileOp.remove_spares htmp _

/-- The temporary file that was written is `CURRENT` after the rename. -/
theorem Disk.current_performAll (disk : Disk R) {tmp current : FileName} (hne : tmp ≠ current)
    (line : List Char) (left : Option (List Char)) :
    (disk.performAll [.writeStringToFileSync tmp line left .OK,
      .renameFile tmp current .OK]).files current = some (.text line) := by
  have hwritten : (disk.perform (.writeStringToFileSync tmp line left .OK)).files tmp =
      some (.text line) := Function.update_self _ _ _
  refine Eq.trans (Function.update_of_ne hne.symm _ _) ?_
  rw [Function.update_self]
  exact hwritten

/-- **`SetCurrentFile` switches atomically.** For every database name, number and outcome of the
writes and of the rename its assertions pass, and after any prefix of its operations `CURRENT` is as
before or holds one line that names the manifest; with OK it holds that line, otherwise it is as
before and the temporary file is gone. -/
theorem setCurrentFile_atomic (disk : Disk R) (dbname : FileName) {number : Nat}
    (hnumber : 1 ≤ number) (o : CurrentOutcomes) (hremove : o.remove = .OK) :
    ∃ name tmp s ops, descriptorFileName dbname number = some (dbname ++ '/' :: name) ∧
      '\n' ∉ name ∧ tempFileName dbname number = some tmp ∧
      setCurrentFile Status.isOK disk dbname number o = some (s, disk.performAll ops) ∧
      (∀ k, Switched disk (disk.performAll (ops.take k)) (currentFileName dbname) tmp
        (name ++ ['\n'])) ∧
      (s = .OK → (disk.performAll ops).files (currentFileName dbname) =
        some (.text (name ++ ['\n']))) ∧
      (s ≠ .OK → (disk.performAll ops).files (currentFileName dbname) =
        disk.files (currentFileName dbname) ∧ (disk.performAll ops).files tmp = none) := by
  obtain ⟨name, hmanifest, hline⟩ := descriptorFileName_eq dbname hnumber
  obtain ⟨tmp, htmp⟩ : ∃ tmp, tempFileName dbname number = some tmp := by
    unfold tempFileName
    exact ⟨_, if_pos hnumber⟩
  obtain ⟨-, hne⟩ := tempFileName_ne htmp hmanifest
  have hstrip : (dbname ++ '/' :: name).drop (dbname.length + 1) = name := by
    rw [List.drop_append, List.drop_of_length_le (Nat.le_succ _), List.nil_append,
      Nat.add_sub_cancel_left]
    rfl
  have hrun := setCurrentFile_eq Status.isOK disk hmanifest htmp o
  refine ⟨name, tmp, o.status Status.isOK, _, hmanifest, hline, htmp, hrun, fun k => ⟨?_, ?_⟩,
    fun hok => ?_, fun hfail => ⟨?_, ?_⟩⟩
  · by_cases hok : o.status Status.isOK = .OK
    · obtain ⟨hwrite, hrename⟩ := o.status_isOK.mp hok
      rw [o.ops_isOK hwrite hrename, hstrip]
      match k with
      | 0 => exact Or.inl rfl
      | 1 => exact Or.inl (FileOp.write_spares hne.symm _ _ _ disk.files)
      | k + 2 =>
        rw [List.take_of_length_le (Nat.le_add_left 2 k)]
        exact Or.inr (disk.current_performAll hne _ _)
    · exact Or.inl (disk.performAll_spares fun op hop =>
        CurrentOutcomes.ops_spares hne.symm (Or.inr hok) op (List.mem_of_mem_take hop))
  · intro f hcurrent htemp
    exact disk.performAll_spares fun op hop =>
      CurrentOutcomes.ops_spares htemp (Or.inl hcurrent) op (List.mem_of_mem_take hop)
  · obtain ⟨hwrite, hrename⟩ := o.status_isOK.mp hok
    rw [o.ops_isOK hwrite hrename, hstrip]
    exact disk.current_performAll hne _ _
  · exact disk.performAll_spares (CurrentOutcomes.ops_spares hne.symm (Or.inr hfail))
  · have hlast : ¬ (o.status Status.isOK).isOK = true := fun h => hfail (Status.isOK_iff.mp h)
    unfold CurrentOutcomes.ops
    rw [if_neg hlast, Disk.performAll_append, hremove]
    exact Function.update_self _ _ _

/-- A database whose name ends in a slash: the rename fails, and `CURRENT` stays. -/
theorem setCurrentFile_atomic_failed :
    let disk : Disk Unit :=
      { files := Function.update (fun _ => none) (currentFileName ['d', '/']) (some (.text ['M'])) }
    ∃ s disk', setCurrentFile Status.isOK disk ['d', '/'] 7 { rename := .IOError "" "" } =
        some (s, disk') ∧ s ≠ .OK ∧
      disk'.files (currentFileName ['d', '/']) = disk.files (currentFileName ['d', '/']) := by
  intro disk
  obtain ⟨name, tmp, s, ops, -, -, -, hrun, -, -, hfail⟩ :=
    @setCurrentFile_atomic _ disk ['d', '/'] 7 (by decide) { rename := .IOError "" "" } rfl
  have hs : s = .IOError "" "" := by
    have hstatus : (setCurrentFile Status.isOK disk ['d', '/'] 7
        { rename := .IOError "" "" }).map Prod.fst = some (.IOError "" "") := rfl
    rw [hrun] at hstatus
    exact Option.some.inj hstatus
  have hne : s ≠ .OK := by
    rw [hs]
    decide
  exact ⟨s, _, hrun, hne, (hfail hne).1⟩

end SetCurrentFile

end LevelDB
