import LevelDB.VersionSet.FailedApply
import LevelDB.VersionSet.Manifest

/-!
# A stop in the middle of LogAndApply

The process may stop after any file operation of a call, and when the power is cut, records may be
lost that were appended to a file since its last successful `Sync`. Recovery then reads the manifest
that `CURRENT` names.

* `FileOp.settle`, `PowerCut` — what is safe on the disk, and what a power cut leaves;
* `SafeBut.settle` — which operations keep all files but one safe;
* `stopsCleanly_of_logAndApply` — what a stop in a call leaves of the manifest in use;
* `betweenCalls_of_run` — what holds between the calls of a run;
* `powerCut_recovers` — recovery finds the version set before or after the call in progress.
-/

set_option autoImplicit false

namespace LevelDB

/-! ## What is safe on the disk -/

section Safe

variable {R : Type}

/-- What is safe after an operation on the files `written`: a record only after a `Sync`; names, and
texts that `WriteStringToFileSync` writes, at once. -/
def FileOp.settle (written safe : FileName → Option (FileData R)) :
    FileOp R → FileName → Option (FileData R)
  | addRecord _ _ _ => safe
  | sync name status =>
    if status = .OK then Function.update safe name (written name) else safe
  | op => op.effect safe

def Disk.settleAll (disk : Disk R) (safe : FileName → Option (FileData R)) :
    List (FileOp R) → FileName → Option (FileData R)
  | [] => safe
  | op :: ops => settleAll (disk.perform op) (op.settle disk.files safe) ops

/-- What is left of a file: all of it, or at least the records that are safe. -/
def FileData.Remains (safe written left : Option (FileData R)) : Prop :=
  left = written ∨ ∃ rs₀ rs rs', safe = some (.records rs₀) ∧ written = some (.records rs) ∧
    left = some (.records rs') ∧ rs₀ <+: rs' ∧ rs' <+: rs

/-- What a power cut may leave of the files. -/
def PowerCut (safe : FileName → Option (FileData R)) (disk left : Disk R) : Prop :=
  ∀ f, FileData.Remains (safe f) (disk.files f) (left.files f)

/-- All files but `m` are safe. -/
def SafeBut (m : Option FileName) (safe written : FileName → Option (FileData R)) : Prop :=
  ∀ f, some f ≠ m → safe f = written f

/-- The operation brings no record into another file than `m`. -/
def FileOp.Steady (m : Option FileName) : FileOp R → Prop
  | addRecord name _ status => some name = m ∨ status ≠ .OK
  | sync _ status => status = .OK
  | renameFile src _ _ => some src ≠ m
  | _ => True

variable {disk left : Disk R} {safe written : FileName → Option (FileData R)}
  {m : Option FileName} {f : FileName}

theorem FileData.Remains.eq_of_safe {a left : Option (FileData R)}
    (h : FileData.Remains a a left) : left = a := by
  rcases h with h | ⟨rs₀, rs, rs', rfl, hrs, rfl, hsafe, hwritten⟩
  · exact h
  · cases hrs
    rw [hsafe.eq_of_length_le hwritten.length_le]

theorem settleAll_append :
    ∀ (ops₁ ops₂ : List (FileOp R)) (disk : Disk R) (safe : FileName → Option (FileData R)),
      disk.settleAll safe (ops₁ ++ ops₂) =
        (disk.performAll ops₁).settleAll (disk.settleAll safe ops₁) ops₂
  | [], _, _, _ => rfl
  | op :: ops₁, ops₂, disk, _ => settleAll_append ops₁ ops₂ (disk.perform op) _

theorem FileOp.settle_of_spares {op : FileOp R} (h : op.Spares f) (hsafe : safe f = written f) :
    op.settle written safe f = op.effect written f := by
  rw [h written]
  cases op with
  | addRecord => exact hsafe
  | sync name status =>
    show (if status = .OK then Function.update safe name (written name) else safe) f = _
    split
    · by_cases hname : f = name
      · rw [hname, Function.update_self]
      · rw [Function.update_of_ne hname]
        exact hsafe
    · exact hsafe
  | _ => exact (h safe).trans hsafe

/-- A file that the operations leave alone stays as safe as it was. -/
theorem settleAll_of_spares : ∀ {ops : List (FileOp R)} (disk : Disk R)
    (safe : FileName → Option (FileData R)), (∀ op ∈ ops, op.Spares f) → safe f = disk.files f →
      disk.settleAll safe ops f = (disk.performAll ops).files f
  | [], _, _, _, hsafe => hsafe
  | op :: _, disk, _, hops, hsafe =>
    settleAll_of_spares (disk.perform op) _ (fun op' hop => hops op' (List.mem_cons_of_mem op hop))
      (FileOp.settle_of_spares (hops op List.mem_cons_self) hsafe)

/-- **A steady operation** leaves all files but `m` safe. -/
theorem SafeBut.settle (h : SafeBut m safe written) {op : FileOp R} (hop : op.Steady m) :
    SafeBut m (op.settle written safe) (op.effect written) := by
  intro f hf
  have hupdate : ∀ (name : FileName) {a b : Option (FileData R)}, (name = f → a = b) →
      Function.update safe name a f = Function.update written name b f := by
    intro name a b hab
    by_cases hname : f = name
    · subst hname
      rw [Function.update_self, Function.update_self, hab rfl]
    · rw [Function.update_of_ne hname, Function.update_of_ne hname]
      exact h f hf
  cases op with
  | newWritableFile name opened status =>
    unfold FileOp.settle FileOp.effect
    dsimp only
    split
    · exact hupdate name fun _ => rfl
    · exact h f hf
  | addRecord name record status =>
    refine (h f hf).trans (Eq.symm ?_)
    unfold FileOp.effect
    dsimp only
    split
    · rename_i hstatus
      have hname : some name = m := hop.resolve_right (not_not_intro hstatus)
      have hne : f ≠ name := by
        rintro rfl
        exact hf hname
      exact Function.update_of_ne hne _ _
    · rfl
  | sync name status =>
    obtain rfl : status = .OK := hop
    show Function.update safe name (written name) f = written f
    by_cases hname : f = name
    · rw [hname, Function.update_self]
    · rw [Function.update_of_ne hname]
      exact h f hf
  | writeStringToFileSync name data left status => exact hupdate name fun _ => rfl
  | renameFile src target status =>
    unfold FileOp.settle FileOp.effect
    dsimp only
    split
    · by_cases hsrc : f = src
      · rw [hsrc, Function.update_self, Function.update_self]
      · rw [Function.update_of_ne hsrc, Function.update_of_ne hsrc]
        exact hupdate target fun _ => h src hop
    · exact h f hf
  | removeFile name status =>
    unfold FileOp.settle FileOp.effect
    dsimp only
    split
    · exact hupdate name fun _ => rfl
    · exact h f hf

theorem SafeBut.settleAll : ∀ {ops : List (FileOp R)} (disk : Disk R)
    (safe : FileName → Option (FileData R)), (∀ op ∈ ops, op.Steady m) →
      SafeBut m safe disk.files →
      SafeBut m (disk.settleAll safe ops) (disk.performAll ops).files
  | [], _, _, _, h => h
  | op :: _, disk, _, hops, h =>
    SafeBut.settleAll (disk.perform op) _ (fun op' hop => hops op' (List.mem_cons_of_mem op hop))
      (h.settle (hops op List.mem_cons_self))

theorem PowerCut.eq_of_safe (h : PowerCut safe disk left) (hsafe : safe f = disk.files f) :
    left.files f = disk.files f := by
  have hremains := h f
  rw [hsafe] at hremains
  exact hremains.eq_of_safe

/-- **What the operations leave alone** is left by a power cut in the middle of them. -/
theorem PowerCut.eq_of_spares {ops : List (FileOp R)} (hops : ∀ op ∈ ops, op.Spares f)
    (hsafe : safe f = disk.files f)
    (h : PowerCut (disk.settleAll safe ops) (disk.performAll ops) left) :
    left.files f = disk.files f :=
  (h.eq_of_safe (settleAll_of_spares disk safe hops hsafe)).trans
    (disk.performAll_spares hops)

/-- A successful `Sync` makes its file safe. -/
theorem SafeBut.sync {m : FileName} (h : SafeBut (some m) safe written) :
    SafeBut none ((FileOp.sync m .OK).settle written safe) written := by
  intro f _
  show Function.update safe m (written m) f = written f
  by_cases hf : f = m
  · rw [hf, Function.update_self]
  · rw [Function.update_of_ne hf]
    exact h f fun heq => hf (Option.some.inj heq)

theorem SafeBut.weaken (h : SafeBut none safe written) : SafeBut m safe written :=
  fun f _ => h f nofun

/-- A stop with nothing lost. -/
theorem PowerCut.stop (safe : FileName → Option (FileData R)) (disk : Disk R) :
    PowerCut safe disk disk := fun _ => Or.inl rfl

end Safe

/-! ## The operations of a call -/

section Operations

variable {R : Type}

/-- An operation of a creation of the manifest `m` that does not switch `CURRENT` to it. -/
def FileOp.Creates (m tmp current : FileName) : FileOp R → Prop
  | newWritableFile name _ _ => name = m
  | addRecord name _ _ => name = m
  | sync name _ => name = m
  | writeStringToFileSync name _ _ _ => name = tmp
  | renameFile src target status => src = tmp ∧ target = current ∧ status ≠ .OK
  | removeFile name _ => name = m ∨ name = tmp

variable {m tmp current f : FileName} {op : FileOp R}

theorem FileOp.Creates.spares (h : op.Creates m tmp current) (hm : f ≠ m) (htmp : f ≠ tmp) :
    op.Spares f := by
  intro files
  cases op with
  | newWritableFile name opened status =>
    obtain rfl : name = m := h
    show (if opened then Function.update files name _ else files) f = files f
    split
    · exact Function.update_of_ne hm _ _
    · rfl
  | addRecord name record status =>
    obtain rfl : name = m := h
    show (if status = .OK then Function.update files name _ else files) f = files f
    split
    · exact Function.update_of_ne hm _ _
    · rfl
  | sync => rfl
  | writeStringToFileSync name data left status =>
    obtain rfl : name = tmp := h
    exact FileOp.write_spares htmp data left status files
  | renameFile src target status => exact FileOp.rename_spares (Or.inl h.2.2) files
  | removeFile name status =>
    refine FileOp.remove_spares ?_ status files
    rcases h with rfl | rfl
    · exact hm
    · exact htmp

theorem FileOp.Creates.steady (h : op.Creates m tmp current) (hne : tmp ≠ m)
    (hsync : ∀ name status, op = .sync name status → status = .OK) : op.Steady (some m) := by
  cases op with
  | addRecord name record status => exact Or.inl (congrArg some h)
  | sync name status => exact hsync name status rfl
  | renameFile src target status =>
    intro heq
    exact hne (h.1.symm.trans (Option.some.inj heq))
  | _ => trivial

/-- No `Sync` has failed. -/
def SyncsSucceed (ops : List (FileOp R)) : Prop :=
  ∀ name status, .sync name status ∈ ops → status = .OK

theorem CurrentOutcomes.ops_creates {o : CurrentOutcomes} {dbname : FileName}
    (hfail : o.status Status.isOK ≠ .OK) :
    ∀ op ∈ (o.ops Status.isOK dbname m tmp : List (FileOp R)),
      op.Creates m tmp (currentFileName dbname) := by
  intro op hop
  rcases List.mem_append.mp hop with hop | hop
  · rcases List.mem_append.mp hop with hop | hop
    · rw [List.mem_singleton.mp hop]
      rfl
    · split at hop
      · rename_i hwrite
        rw [List.mem_singleton.mp hop]
        refine ⟨rfl, rfl, fun hrename => ?_⟩
        exact hfail (o.status_isOK.mpr ⟨Status.isOK_iff.mp hwrite, hrename⟩)
      · cases hop
  · split at hop
    · cases hop
    · rw [List.mem_singleton.mp hop]
      exact Or.inr rfl

end Operations

section Calls

variable {K R : Type} {N : Nat} {cfg : VersionConfig K R N} [Std.TransCmp cfg.icmp]

/-- **A call that fails to create a manifest** leaves `CURRENT` and all other manifests alone. -/
theorem ops_of_failed_creation (hok : cfg.ok = Status.isOK) {vs : VersionSet K N} {disk : Disk R}
    {edit : VersionEdit K N} {o : ApplyOutcomes} {r : Applied K R N}
    (h : logAndApply cfg vs disk edit o = some r) (hnull : vs.descriptor = none)
    (hfail : r.status ≠ .OK) :
    ∃ m tmp ops, descriptorFileName cfg.dbname vs.manifestFileNumber = some m ∧
      tempFileName cfg.dbname vs.manifestFileNumber = some tmp ∧ r.disk = disk.performAll ops ∧
      ∀ op ∈ ops, op.Creates m tmp (currentFileName cfg.dbname) := by
  unfold logAndApply at h
  obtain ⟨⟨vs₁, disk₁, i₁⟩, hbegin, h⟩ := Option.bind_eq_some_iff.mp h
  obtain ⟨⟨disk₂, i₂⟩, hwrite, h⟩ := Option.bind_eq_some_iff.mp h
  obtain rfl := Option.some.inj h
  obtain ⟨-, -, hbegin⟩ := logAndApplyBegin_eq_some hbegin
  obtain ⟨⟨-, -, hnew⟩, hwrite⟩ := logAndApplyWrite_eq_some hwrite
  have hbad : cfg.ok i₂.s = false := by
    rw [hok]
    exact Status.isOK_eq_false_iff.mpr hfail
  rcases hbegin with ⟨m, hm, -⟩ | ⟨-, hname, hbegin⟩
  · rw [hnull] at hm
    cases hm
  have hne : i₂.newManifestFile ≠ [] := by
    rw [hnew]
    exact descriptorFileName_ne_nil hname
  obtain ⟨tmp, htmp⟩ : ∃ tmp, tempFileName cfg.dbname vs.manifestFileNumber = some tmp := by
    unfold descriptorFileName at hname
    unfold tempFileName
    split at hname
    · rename_i hpos
      exact ⟨_, if_pos hpos⟩
    · cases hname
  rw [logAndApplyFinish_new hbad hne, hnew]
  -- the operations so far, and the removal
  have hends : ∀ ops : List (FileOp R), disk₂ = disk.performAll ops →
      (∀ op ∈ ops, op.Creates i₁.newManifestFile tmp (currentFileName cfg.dbname)) →
      ∃ m tmp ops, descriptorFileName cfg.dbname vs.manifestFileNumber = some m ∧
        tempFileName cfg.dbname vs.manifestFileNumber = some tmp ∧
        disk₂.perform (.removeFile i₁.newManifestFile o.removeManifest) = disk.performAll ops ∧
        ∀ op ∈ ops, op.Creates m tmp (currentFileName cfg.dbname) := by
    rintro ops rfl hops
    refine ⟨_, tmp, ops ++ [.removeFile i₁.newManifestFile o.removeManifest], hname, htmp, ?_, ?_⟩
    · rw [Disk.performAll_append]
      rfl
    · intro op hop
      rcases List.mem_append.mp hop with hop | hop
      · exact hops op hop
      · rw [List.mem_singleton.mp hop]
        exact Or.inl rfl
  rcases hbegin with ⟨hnot, hs, -, rfl⟩ | ⟨-, hopened, hs, hvs₁, rfl⟩
  · rcases hwrite with ⟨-, -, rfl⟩ | ⟨hgood, -⟩
    · exact hends _ rfl (by simp [FileOp.Creates])
    · rw [hs, hnot] at hgood
      cases hgood
  · rcases hwrite with ⟨-, -, rfl⟩ | ⟨-, m, hm, hwrite⟩
    · exact hends _ rfl (by simp [FileOp.Creates])
    · rw [hvs₁] at hm
      obtain rfl := Option.some.inj hm
      rcases hwrite with ⟨-, -, rfl⟩ | ⟨-, hempty, -⟩ |
          ⟨-, -, manifest, tmp', hmanifest, htmp', hs₂, rfl⟩
      · exact hends _ (Disk.performAll_append _ _ _).symm (by simp [FileOp.Creates])
      · exact absurd hempty (descriptorFileName_ne_nil hname)
      · rw [hvs₁] at hmanifest htmp'
        obtain rfl := Option.some.inj (hmanifest.symm.trans hname)
        obtain rfl := Option.some.inj (htmp'.symm.trans htmp)
        refine hends _ (Disk.performAll_append _ _ _).symm (List.forall_mem_append.mpr
          ⟨by simp [FileOp.Creates], List.forall_mem_append.mpr ⟨by simp [FileOp.Creates], ?_⟩⟩)
        rw [hok]
        refine CurrentOutcomes.ops_creates ?_
        rw [← hok, ← hs₂]
        exact hfail

/-! ## What recovery finds -/

/-- Recovery finds the same manifest. -/
structure SameManifest (dbname : FileName) (disk left : Disk R) : Prop where
  current : left.files (currentFileName dbname) = disk.files (currentFileName dbname)
  inUse : ∀ m, manifestInUse dbname disk = some m → left.files m = disk.files m

omit [Std.TransCmp cfg.icmp] in
theorem manifestInUse_congr {dbname : FileName} {disk left : Disk R}
    (h : left.files (currentFileName dbname) = disk.files (currentFileName dbname)) :
    manifestInUse dbname left = manifestInUse dbname disk := by
  unfold manifestInUse
  rw [h]

theorem replayManifest_congr {decodeFrom : R → Option (VersionEdit K N)} {disk left : Disk R}
    (h : SameManifest cfg.dbname disk left) :
    replayManifest cfg decodeFrom left = replayManifest cfg decodeFrom disk := by
  unfold replayManifest
  rw [manifestInUse_congr h.current]
  cases hm : manifestInUse cfg.dbname disk with
  | none => rfl
  | some m =>
    dsimp only [Option.bind_eq_bind, Option.bind_some]
    rw [h.inUse m hm]

/-- The file that the next call creates, when no manifest is open. -/
def VersionSet.pending (cfg : VersionConfig K R N) (vs : VersionSet K N) : Option FileName :=
  if vs.descriptor = none then descriptorFileName cfg.dbname vs.manifestFileNumber else none

/-- The manifest in use is the open one or, when none is open, none of the files that are written
to create one. -/
structure ManifestApart (cfg : VersionConfig K R N) (vs : VersionSet K N) (disk : Disk R) :
    Prop where
  opened : ∀ m, vs.descriptor = some m → manifestInUse cfg.dbname disk = some m ∧
    descriptorFileName cfg.dbname vs.manifestFileNumber = some m ∧
    ∃ rs, disk.files m = some (.records rs)
  closed : vs.descriptor = none → ∀ m, manifestInUse cfg.dbname disk = some m →
    descriptorFileName cfg.dbname vs.manifestFileNumber ≠ some m ∧
    tempFileName cfg.dbname vs.manifestFileNumber ≠ some m

/-- What a stop in a call leaves: the manifest as the call found it, or as it returns it with OK;
`finished` when the call has returned. -/
def StopLeaves (dbname : FileName) (disk : Disk R) (r : Applied K R N) (finished : Bool)
    (left : Disk R) : Prop :=
  (SameManifest dbname disk left ∧ ¬ (r.status = .OK ∧ finished = true)) ∨
    (r.status = .OK ∧ SameManifest dbname r.disk left)

/-- What a call does to the files. -/
structure StopsCleanly (cfg : VersionConfig K R N) (safe : FileName → Option (FileData R))
    (disk : Disk R) (r : Applied K R N) (ops : List (FileOp R)) : Prop where
  performed : r.disk = disk.performAll ops
  settles : SyncsSucceed ops →
    SafeBut (r.vs.pending cfg) (disk.settleAll safe ops) (disk.performAll ops).files
  leaves : ∀ k ≤ ops.length, ∀ left,
    PowerCut (disk.settleAll safe (ops.take k)) (disk.performAll (ops.take k)) left →
    SyncsSucceed ops ∨ left.files = (disk.performAll (ops.take k)).files →
    StopLeaves cfg.dbname disk r (decide (k = ops.length)) left

variable {vs : VersionSet K N} {disk : Disk R} {safe : FileName → Option (FileData R)}

omit [Std.TransCmp cfg.icmp] in
/-- Operations that leave `CURRENT` and the manifest in use alone. -/
theorem sameManifest_of_spares {ops : List (FileOp R)} {left : Disk R}
    (hcurrent : ∀ op ∈ ops, op.Spares (currentFileName cfg.dbname))
    (hinUse : ∀ m, manifestInUse cfg.dbname disk = some m → ∀ op ∈ ops, op.Spares m)
    (hsafe : safe (currentFileName cfg.dbname) = disk.files (currentFileName cfg.dbname))
    (hsafe' : ∀ m, manifestInUse cfg.dbname disk = some m → safe m = disk.files m)
    (hcut : PowerCut (disk.settleAll safe ops) (disk.performAll ops) left) :
    SameManifest cfg.dbname disk left :=
  ⟨hcut.eq_of_spares hcurrent hsafe, fun m hm => hcut.eq_of_spares (hinUse m hm) (hsafe' m hm)⟩

omit [Std.TransCmp cfg.icmp] in
/-- **A call that leaves the manifest in use alone** until it returns an error. -/
theorem stopsCleanly_of_failed {r : Applied K R N} {ops : List (FileOp R)}
    (hperformed : r.disk = disk.performAll ops) (hfail : r.status ≠ .OK)
    (hpending : r.vs.pending cfg = vs.pending cfg)
    (hsafe : SafeBut (vs.pending cfg) safe disk.files)
    (hcurrent : some (currentFileName cfg.dbname) ≠ vs.pending cfg ∧
      ∀ op ∈ ops, op.Spares (currentFileName cfg.dbname))
    (hinUse : ∀ m, manifestInUse cfg.dbname disk = some m →
      some m ≠ vs.pending cfg ∧ ∀ op ∈ ops, op.Spares m)
    (hsteady : SyncsSucceed ops → ∀ op ∈ ops, op.Steady (vs.pending cfg)) :
    StopsCleanly cfg safe disk r ops := by
  refine ⟨hperformed, fun hsync => ?_, fun k _ left hcut _ => Or.inl ⟨?_, fun h => hfail h.1⟩⟩
  · rw [hpending]
    exact hsafe.settleAll disk safe (hsteady hsync)
  · have htake : ∀ {f : FileName}, (∀ op ∈ ops, op.Spares f) → ∀ op ∈ ops.take k, op.Spares f :=
      fun h op hop => h op (List.mem_of_mem_take hop)
    exact sameManifest_of_spares (htake hcurrent.2) (fun m hm => htake (hinUse m hm).2)
      (hsafe _ hcurrent.1) (fun m hm => hsafe m (hinUse m hm).1) hcut

omit [Std.TransCmp cfg.icmp] in
/-- **A call that appends its record** to the open manifest. -/
theorem stopsCleanly_of_recorded {r : Applied K R N} {m : FileName} {record : R} {sync : Status}
    (hperformed : r.disk = disk.performAll [.addRecord m record .OK, .sync m sync])
    (hstatus : r.status = .OK) (hpending : r.vs.pending cfg = none)
    (hsafe : SafeBut none safe disk.files) (hne : m ≠ currentFileName cfg.dbname)
    (hinUse : manifestInUse cfg.dbname disk = some m)
    (hrecords : ∃ rs, disk.files m = some (.records rs)) :
    StopsCleanly cfg safe disk r [.addRecord m record .OK, .sync m sync] := by
  obtain ⟨rs, hrecords⟩ := hrecords
  have hcurrent : (disk.performAll [.addRecord m record .OK]).files (currentFileName cfg.dbname) =
      disk.files (currentFileName cfg.dbname) := Function.update_of_ne hne.symm _ _
  have hwritten : (disk.performAll [.addRecord m record .OK]).files m =
      some (.records (rs ++ [record])) := by
    refine (Function.update_self _ _ _).trans ?_
    rw [hrecords]
    rfl
  have hfiles : r.disk.files = (disk.performAll [.addRecord m record .OK]).files := by
    rw [hperformed]
    rfl
  have hafter : ∀ {left : Disk R},
      left.files (currentFileName cfg.dbname) = r.disk.files (currentFileName cfg.dbname) →
      left.files m = r.disk.files m → SameManifest cfg.dbname r.disk left := by
    intro left hleft hm
    refine ⟨hleft, fun m' hm' => ?_⟩
    have hname : manifestInUse cfg.dbname r.disk = some m :=
      (manifestInUse_congr (by rw [hfiles, hcurrent])).trans hinUse
    obtain rfl := Option.some.inj (hname.symm.trans hm')
    exact hm
  have hsettles : sync = .OK → SafeBut none (disk.settleAll safe
      [.addRecord m record .OK, .sync m sync])
      (disk.performAll [.addRecord m record .OK]).files := by
    rintro rfl
    have happended : SafeBut (some m) (disk.settleAll safe [.addRecord m record .OK])
        (disk.performAll [.addRecord m record .OK]).files :=
      hsafe.weaken.settleAll disk safe fun op hop => by
        rw [List.mem_singleton.mp hop]
        exact Or.inl rfl
    exact happended.sync
  refine ⟨hperformed, fun hsync => ?_, fun k hk left hcut hleft => ?_⟩
  · rw [hpending]
    exact hsettles (hsync m sync (by simp))
  match k, hk with
  | 0, _ =>
    refine Or.inl ⟨⟨?_, fun m' _ => ?_⟩, by simp⟩
    · exact hcut.eq_of_safe (hsafe _ nofun)
    · exact hcut.eq_of_safe (hsafe m' nofun)
  | 1, _ =>
    -- the record has been appended but is not safe yet
    have hleft : left.files (currentFileName cfg.dbname) =
        disk.files (currentFileName cfg.dbname) :=
      (hcut.eq_of_safe ((hsafe _ nofun).trans hcurrent.symm)).trans hcurrent
    have hremains := hcut m
    have hremains : FileData.Remains (safe m) ((disk.performAll [.addRecord m record .OK]).files m)
        (left.files m) := hremains
    rw [hsafe m nofun, hrecords, hwritten] at hremains
    have hends : left.files m = some (.records rs) ∨
        left.files m = some (.records (rs ++ [record])) := by
      rcases hremains with hall | ⟨rs₀, rs₁, rs', hrs₀, hrs₁, hrest, hfirst, hlast⟩
      · exact Or.inr hall
      · cases hrs₀
        cases hrs₁
        rw [hrest]
        rcases List.prefix_concat_iff.mp hlast with rfl | hlast
        · exact Or.inr rfl
        · rw [hfirst.eq_of_length_le hlast.length_le]
          exact Or.inl rfl
    rcases hends with hend | hend
    · refine Or.inl ⟨⟨hleft, fun m' hm' => ?_⟩, by simp⟩
      obtain rfl := Option.some.inj (hinUse.symm.trans hm')
      rw [hend, hrecords]
    · exact Or.inr ⟨hstatus, hafter (by rw [hleft, hfiles, hcurrent])
        (by rw [hend, hfiles, hwritten])⟩
  | 2, _ =>
    refine Or.inr ⟨hstatus, ?_⟩
    have hsame : left.files = r.disk.files := by
      rcases hleft with hsync | hleft
      · funext f
        rw [hfiles]
        exact hcut.eq_of_safe (hsettles (hsync m sync (by simp)) f nofun)
      · rw [hleft, hperformed]
        rfl
    exact hafter (by rw [hsame]) (by rw [hsame])

/-- The operations that bring the records into a new manifest. -/
def createdOps (m : FileName) (snapshot record : R) : List (FileOp R) :=
  [.newWritableFile m true .OK, .addRecord m snapshot .OK, .addRecord m record .OK]

/-- The operations that switch `CURRENT` to it. -/
def switchedOps (tmp current : FileName) (line : List Char) (remains : Option (List Char)) :
    List (FileOp R) :=
  [.writeStringToFileSync tmp line remains .OK, .renameFile tmp current .OK]

omit [Std.TransCmp cfg.icmp] in
/-- **A call that creates a manifest** and switches `CURRENT` to it. -/
theorem stopsCleanly_of_created {r : Applied K R N} {m tmp : FileName} {snapshot record : R}
    {sync : Status} {line : List Char} {remains : Option (List Char)}
    (hperformed : r.disk = disk.performAll (createdOps m snapshot record ++ .sync m sync ::
      switchedOps tmp (currentFileName cfg.dbname) line remains))
    (hstatus : r.status = .OK) (hpending : r.vs.pending cfg = none)
    (hsafe : SafeBut (some m) safe disk.files) (hmc : m ≠ currentFileName cfg.dbname)
    (htc : tmp ≠ currentFileName cfg.dbname)
    (hinUse : ∀ m', manifestInUse cfg.dbname disk = some m' → m' ≠ m ∧ m' ≠ tmp) :
    StopsCleanly cfg safe disk r (createdOps m snapshot record ++ .sync m sync ::
      switchedOps tmp (currentFileName cfg.dbname) line remains) := by
  have hsettles : sync = .OK → SafeBut none (disk.settleAll safe (createdOps m snapshot record ++
      .sync m sync :: switchedOps tmp (currentFileName cfg.dbname) line remains)) r.disk.files := by
    rintro rfl
    have hcreated : ∀ op ∈ createdOps m snapshot record, op.Steady (some m) := by
      simp [createdOps, FileOp.Steady]
    have hswitched : ∀ op ∈ (switchedOps tmp (currentFileName cfg.dbname) line remains :
        List (FileOp R)), op.Steady none := by
      simp [switchedOps, FileOp.Steady]
    rw [hperformed, settleAll_append, Disk.performAll_append]
    exact SafeBut.settleAll ((disk.performAll (createdOps m snapshot record)).perform
      (.sync m .OK)) _ hswitched (hsafe.settleAll disk safe hcreated).sync
  refine ⟨hperformed, fun hsync => ?_, fun k hk left hcut hleft => ?_⟩
  · rw [hpending, ← hperformed]
    exact hsettles (hsync m sync (by simp))
  by_cases hlast : k = 6
  · subst hlast
    have hsame : left.files = r.disk.files := by
      rcases hleft with hsync | hleft
      · funext f
        have hsettled := hsettles (hsync m sync (by simp)) f nofun
        rw [hperformed] at hsettled ⊢
        exact hcut.eq_of_safe hsettled
      · rw [hleft, hperformed]
        rfl
    exact Or.inr ⟨hstatus, by rw [hsame], fun m' _ => by rw [hsame]⟩
  · -- all operations but the last leave `CURRENT` and the old manifest alone
    let creating : List (FileOp R) := createdOps m snapshot record ++
      [.sync m sync, .writeStringToFileSync tmp line remains .OK]
    have hcreates : ∀ op ∈ creating, op.Creates m tmp (currentFileName cfg.dbname) := by
      simp [creating, createdOps, FileOp.Creates]
    have hk : k ≤ creating.length := Nat.le_of_lt_succ (Nat.lt_of_le_of_ne hk hlast)
    have htake : (creating ++ [FileOp.renameFile tmp (currentFileName cfg.dbname) .OK]).take k =
        creating.take k := List.take_append_of_le_length hk
    have hcut : PowerCut (disk.settleAll safe (creating.take k))
        (disk.performAll (creating.take k)) left := htake ▸ hcut
    have hspares : ∀ {f : FileName}, f ≠ m → f ≠ tmp → ∀ op ∈ creating.take k, op.Spares f :=
      fun hm htmp op hop => (hcreates op (List.mem_of_mem_take hop)).spares hm htmp
    refine Or.inl ⟨sameManifest_of_spares (hspares hmc.symm htc.symm)
      (fun m' hm' => hspares (hinUse m' hm').1 (hinUse m' hm').2)
      (hsafe _ fun heq => hmc (Option.some.inj heq).symm)
      (fun m' hm' => hsafe m' fun heq => (hinUse m' hm').1 (Option.some.inj heq)) hcut, ?_⟩
    rintro ⟨-, hfinished⟩
    exact hlast (of_decide_eq_true hfinished)

/-- **A call of `LogAndApply` stops cleanly.** -/
theorem stopsCleanly_of_logAndApply (hok : cfg.ok = Status.isOK) {edit : VersionEdit K N}
    {o : ApplyOutcomes} {r : Applied K R N} (hcall : logAndApply cfg vs disk edit o = some r)
    (hapart : ManifestApart cfg vs disk) (hsafe : SafeBut (vs.pending cfg) safe disk.files) :
    ∃ ops, StopsCleanly cfg safe disk r ops := by
  obtain ⟨e, v, hfill, hsave, hend⟩ := callEnds_of_logAndApply hok hcall
  have hopen : ∀ {m}, vs.descriptor = some m → vs.pending cfg = none := by
    intro m hm
    unfold VersionSet.pending
    rw [hm]
    rfl
  cases hend with
  | @recorded m hm hrecord =>
    obtain ⟨hinUse, hname, hrecords⟩ := hapart.opened m hm
    have hpending := hopen hm
    rw [hpending] at hsafe
    exact ⟨_, stopsCleanly_of_recorded rfl rfl hpending hsafe (currentFileName_ne hname) hinUse
      hrecords⟩
  | @recordFailed m hm hrecord =>
    have hspares : ∀ f, ∀ op ∈ [FileOp.addRecord m (cfg.encodeTo e) o.record],
        op.Spares f := by
      intro f op hop files
      rw [List.mem_singleton.mp hop]
      show (if o.record = .OK then _ else files) f = files f
      rw [if_neg hrecord]
    have hnone : ∀ f : FileName, some f ≠ vs.pending cfg := by
      rw [hopen hm]
      exact nofun
    refine ⟨_, stopsCleanly_of_failed rfl hrecord rfl hsafe ⟨hnone _, hspares _⟩
      (fun m' _ => ⟨hnone m', hspares m'⟩) fun _ op hop => ?_⟩
    rw [List.mem_singleton.mp hop]
    exact Or.inr hrecord
  | @created m tmp hnull hm htmp hsucceed =>
    have hpending : vs.pending cfg = some m := (if_pos hnull).trans hm
    rw [hpending] at hsafe
    refine ⟨_, stopsCleanly_of_created rfl rfl (if_neg nofun) hsafe (currentFileName_ne hm)
      (tempFileName_ne htmp hm).2 fun m' hm' => ?_⟩
    obtain ⟨hne, hne'⟩ := hapart.closed hnull m' hm'
    exact ⟨fun heq => hne (heq ▸ hm), fun heq => hne' (heq ▸ htmp)⟩
  | @createFailed disk' status hnull hfail hbad =>
    obtain ⟨m, tmp, ops, hm, htmp, hperformed, hcreates⟩ :=
      ops_of_failed_creation hok hcall hnull hbad
    have hpending : vs.pending cfg = some m := (if_pos hnull).trans hm
    have hsome : ∀ {f : FileName}, f ≠ m → some f ≠ vs.pending cfg := by
      intro f hf
      rw [hpending]
      exact fun heq => hf (Option.some.inj heq)
    have hmc := (currentFileName_ne hm).symm
    obtain ⟨htm, htc⟩ := tempFileName_ne htmp hm
    refine ⟨ops, stopsCleanly_of_failed hperformed hbad rfl hsafe
      ⟨hsome hmc, fun op hop => (hcreates op hop).spares hmc htc.symm⟩ (fun m' hm' => ?_)
      fun hsync op hop => ?_⟩
    · obtain ⟨hne, hne'⟩ := hapart.closed hnull m' hm'
      have hm'ne : m' ≠ m := fun heq => hne (heq ▸ hm)
      have hm'tmp : m' ≠ tmp := fun heq => hne' (heq ▸ htmp)
      exact ⟨hsome hm'ne, fun op hop => (hcreates op hop).spares hm'ne hm'tmp⟩
    · show op.Steady (vs.pending cfg)
      rw [hpending]
      exact (hcreates op hop).steady htm fun name status heq => hsync name status (heq ▸ hop)

/-! ## Runs of calls -/

/-- What recovery finds after the calls with the edits `edits` have returned OK: the version set, or
before the first of them what it found in `disk₀`. -/
def Recovers (cfg : VersionConfig K R N) [Std.TransCmp cfg.icmp]
    (decodeFrom : R → Option (VersionEdit K N)) (disk₀ : Disk R) (vs : VersionSet K N)
    (disk : Disk R) : List (VersionEdit K N) → Prop
  | [] => replayManifest cfg decodeFrom disk = replayManifest cfg decodeFrom disk₀
  | _ :: _ => ReplaysTo cfg decodeFrom disk vs

variable {decodeFrom : R → Option (VersionEdit K N)} {vs₀ : VersionSet K N} {disk₀ : Disk R}
  {edits : List (VersionEdit K N)}

theorem Recovers.of_replaysTo (h : ReplaysTo cfg decodeFrom disk vs)
    (hsome : edits ≠ []) : Recovers cfg decodeFrom disk₀ vs disk edits := by
  cases edits with
  | nil => exact absurd rfl hsome
  | cons => exact h

theorem Recovers.congr {left : Disk R} (h : Recovers cfg decodeFrom disk₀ vs disk edits)
    (hsame : SameManifest cfg.dbname disk left) : Recovers cfg decodeFrom disk₀ vs left edits := by
  have hreplay : replayManifest cfg decodeFrom left = replayManifest cfg decodeFrom disk :=
    replayManifest_congr hsame
  cases edits with
  | nil => exact hreplay.trans h
  | cons =>
    unfold Recovers ReplaysTo at h ⊢
    rw [hreplay]
    exact h

/-- The manifest of a run replays to the current version. -/
theorem RunInvariant.replaysTo (hround : ∀ e, decodeFrom (cfg.encodeTo e) = some e)
    (h : RunInvariant cfg vs₀.current edits vs disk) (hsome : edits ≠ []) :
    ReplaysTo cfg decodeFrom disk vs := by
  rcases h.manifest with ⟨hnone, -⟩ | ⟨m, recs, last, hcurrent⟩
  · exact absurd hnone hsome
  obtain ⟨saved, hsaved, hfiles⟩ := hcurrent.mirrors.saveTo h.owned hcurrent.noOverlap
  have hdecode : ((recs ++ [last]).map cfg.encodeTo).mapM decodeFrom = some (recs ++ [last]) := by
    have hcomp : decodeFrom ∘ cfg.encodeTo = fun e => some (id e) := funext hround
    rw [List.mapM_map, hcomp]
    exact List.mapM_pure.trans (by rw [List.map_id]; rfl)
  refine ⟨recs ++ [last], saved, ?_, hfiles, ?_, ?_⟩
  · unfold replayManifest
    rw [hcurrent.inUse.manifestInUse]
    simp only [Option.bind_eq_bind, Option.bind_some, hcurrent.inUse.records, hdecode, hsaved]
    rfl
  · unfold lastLogNumber
    rw [List.reverse_append]
    simp [hcurrent.hasLogNumber, hcurrent.logNumber]
  · unfold lastPrevLogNumber
    rw [List.reverse_append]
    simp [hcurrent.hasPrevLogNumber, hcurrent.prevLogNumber]

/-- What holds between the calls; `since` are the file operations since `disk₀`. -/
structure BetweenCalls (cfg : VersionConfig K R N) [Std.TransCmp cfg.icmp]
    (decodeFrom : R → Option (VersionEdit K N)) (vs₀ : VersionSet K N) (disk₀ : Disk R)
    (edits : List (VersionEdit K N)) (vs : VersionSet K N) (disk : Disk R)
    (since : List (FileOp R)) : Prop where
  run : RunInvariant cfg vs₀.current edits vs disk
  performed : disk = disk₀.performAll since
  apart : ManifestApart cfg vs disk
  settles : SyncsSucceed since →
    SafeBut (vs.pending cfg) (disk₀.settleAll disk₀.files since) disk.files
  recovers : Recovers cfg decodeFrom disk₀ vs disk edits

theorem ManifestApart.of_current {held : Fin N → List Nat} {m : FileName}
    {recs : List (VersionEdit K N)} {last : VersionEdit K N}
    (h : Current cfg held vs disk m recs last) : ManifestApart cfg vs disk := by
  refine ⟨fun m' hm' => ?_, fun hnull => ?_⟩
  · obtain rfl := Option.some.inj (h.inUse.openFile.symm.trans hm')
    exact ⟨h.inUse.manifestInUse, h.inUse.named, _, h.inUse.records⟩
  · rw [h.inUse.openFile] at hnull
    cases hnull

/-- The operations of the next call. -/
theorem BetweenCalls.stops {since : List (FileOp R)} (hok : cfg.ok = Status.isOK)
    (h : BetweenCalls cfg decodeFrom vs₀ disk₀ edits vs disk since) {edit : VersionEdit K N}
    {o : ApplyOutcomes} {r : Applied K R N} (hcall : logAndApply cfg vs disk edit o = some r) :
    ∃ safe ops, StopsCleanly cfg safe disk r ops ∧
      (SyncsSucceed since → safe = disk₀.settleAll disk₀.files since) := by
  by_cases hsync : SyncsSucceed since
  · obtain ⟨ops, hstops⟩ := stopsCleanly_of_logAndApply hok hcall h.apart (h.settles hsync)
    exact ⟨_, ops, hstops, fun _ => rfl⟩
  · obtain ⟨ops, hstops⟩ := stopsCleanly_of_logAndApply hok hcall h.apart fun _ _ => rfl
    exact ⟨_, ops, hstops, fun h => absurd h hsync⟩

omit [Std.TransCmp cfg.icmp] in
/-- Recovery finds the manifest that was there before a call that fails. -/
theorem StopsCleanly.sameManifest {r : Applied K R N} {ops : List (FileOp R)}
    (h : StopsCleanly cfg safe disk r ops) (hfail : r.status ≠ .OK) :
    SameManifest cfg.dbname disk r.disk := by
  have hall := h.leaves ops.length (le_refl _) r.disk
  rw [List.take_length, ← h.performed] at hall
  rcases hall (PowerCut.stop _ _) (Or.inr rfl) with ⟨hsame, -⟩ | ⟨hstatus, -⟩
  · exact hsame
  · exact absurd hstatus hfail

/-- **A call that returns.** -/
theorem BetweenCalls.returned {since : List (FileOp R)} (hok : cfg.ok = Status.isOK)
    (hround : ∀ e, decodeFrom (cfg.encodeTo e) = some e)
    (h : BetweenCalls cfg decodeFrom vs₀ disk₀ edits vs disk since) {edit : VersionEdit K N}
    {o : ApplyOutcomes} {r : Applied K R N} (hcall : logAndApply cfg vs disk edit o = some r)
    {edits' : List (VersionEdit K N)} (hrun : RunInvariant cfg vs₀.current edits' r.vs r.disk)
    (hedits : edits' = [] → edits = [] ∧ r.status ≠ .OK) :
    ∃ since', BetweenCalls cfg decodeFrom vs₀ disk₀ edits' r.vs r.disk since' := by
  obtain ⟨safe, ops, hstops, hsafe⟩ := h.stops hok hcall
  have hperformed : r.disk = disk₀.performAll (since ++ ops) := by
    rw [hstops.performed, h.performed, Disk.performAll_append]
  have hsettles : SyncsSucceed (since ++ ops) → SafeBut (r.vs.pending cfg)
      (disk₀.settleAll disk₀.files (since ++ ops)) r.disk.files := by
    intro hsync
    have hsince : SyncsSucceed since :=
      fun name status hmem => hsync name status (List.mem_append_left _ hmem)
    rw [settleAll_append, ← h.performed, ← hsafe hsince, hstops.performed]
    exact hstops.settles fun name status hmem => hsync name status (List.mem_append_right _ hmem)
  refine ⟨since ++ ops, hrun, hperformed, ?_, hsettles, ?_⟩
  · rcases hrun.manifest with ⟨hnone, -⟩ | ⟨m, recs, last, hcurrent⟩
    · -- no manifest has been installed yet
      obtain ⟨-, hfail⟩ := hedits hnone
      obtain ⟨e, -, hvs⟩ := vs_of_failed hok hcall hfail
      have hsame := manifestInUse_congr (hstops.sameManifest hfail).current
      refine ⟨fun m hm => ?_, fun hnull m hm => ?_⟩
      · rcases hrun.manifest with ⟨-, hnull⟩ | ⟨m', recs, last, hcurrent⟩
        · rw [hnull] at hm
          cases hm
        · exact (ManifestApart.of_current hcurrent).opened m hm
      · rw [hvs] at hnull ⊢
        exact h.apart.closed hnull m (hsame ▸ hm)
    · exact .of_current hcurrent
  · by_cases hnone : edits' = []
    · obtain ⟨hempty, hfail⟩ := hedits hnone
      have hrecovers := h.recovers.congr (hstops.sameManifest hfail)
      rw [hempty] at hrecovers
      rw [hnone]
      exact hrecovers
    · exact .of_replaysTo (hrun.replaysTo hround hnone) hnone

theorem BetweenCalls.counters {since : List (FileOp R)}
    (h : BetweenCalls cfg decodeFrom vs₀ disk₀ edits vs disk since)
    (nextFileNumber lastSequence : Nat) :
    BetweenCalls cfg decodeFrom vs₀ disk₀ edits { vs with nextFileNumber, lastSequence } disk
      since := by
  refine ⟨h.run.counters nextFileNumber lastSequence, h.performed,
    ⟨h.apart.opened, h.apart.closed⟩, h.settles, ?_⟩
  have hrecovers := h.recovers
  cases edits with
  | nil => exact hrecovers
  | cons => exact hrecovers

theorem AddedOnce.of_append {base : Version K N} {edit : VersionEdit K N}
    (h : AddedOnce base (edits ++ [edit])) : AddedOnce base edits := by
  intro level
  refine (h level).sublist (List.Sublist.map _ ?_)
  rw [List.flatMap_append]
  exact List.Sublist.append_left (List.sublist_append_left _ _) _

/-- **Every run** keeps it. -/
theorem betweenCalls_of_run (hok : cfg.ok = Status.isOK)
    (hround : ∀ e, decodeFrom (cfg.encodeTo e) = some e) (hnull : vs₀.descriptor = none)
    (hsorted : vs₀.current.Sorted cfg.icmp) (hapart : ManifestApart cfg vs₀ disk₀)
    (hrun : CallsFrom cfg vs₀ disk₀ edits vs disk) (honce : AddedOnce vs₀.current edits) :
    ∃ since, BetweenCalls cfg decodeFrom vs₀ disk₀ edits vs disk since := by
  have hinvariant := fun {edits vs disk} => @runInvariant_of_callsFrom K R N cfg _ hok vs₀ disk₀
    hnull hsorted edits vs disk
  induction hrun with
  | start => exact ⟨[], hinvariant .start honce, rfl, hapart, fun _ _ _ => rfl, rfl⟩
  | returnedOK hrun hcall hstatus ih =>
    obtain ⟨since, h⟩ := ih honce.of_append
    refine h.returned hok hround hcall (hinvariant (.returnedOK hrun hcall hstatus) honce) ?_
    exact fun hnone => absurd hnone (by simp)
  | returnedError hrun hcall hstatus ih =>
    obtain ⟨since, h⟩ := ih honce
    exact h.returned hok hround hcall (hinvariant (.returnedError hrun hcall hstatus) honce)
      fun hnone => ⟨hnone, hstatus⟩
  | counters nextFileNumber lastSequence hrun ih =>
    obtain ⟨since, h⟩ := ih honce
    exact ⟨since, h.counters nextFileNumber lastSequence⟩

/-- Wherever the call stops that makes `r` of the version set `vs`, recovery finds the one or the
other: `r` only if the call returns OK, and not `vs` once it has. -/
def AllOrNothing (cfg : VersionConfig K R N) [Std.TransCmp cfg.icmp]
    (decodeFrom : R → Option (VersionEdit K N)) (disk₀ : Disk R) (edits : List (VersionEdit K N))
    (vs : VersionSet K N) (disk : Disk R) (edit : VersionEdit K N) (r : Applied K R N) : Prop :=
  ∃ since ops, disk = disk₀.performAll since ∧ r.disk = disk.performAll ops ∧
    ∀ k ≤ ops.length, ∀ left,
      left = disk.performAll (ops.take k) ∨ SyncsSucceed (since ++ ops) ∧
        PowerCut (disk₀.settleAll disk₀.files (since ++ ops.take k))
          (disk.performAll (ops.take k)) left →
      (Recovers cfg decodeFrom disk₀ vs left edits ∧ ¬ (r.status = .OK ∧ k = ops.length)) ∨
        (r.status = .OK ∧ Recovers cfg decodeFrom disk₀ r.vs left (edits ++ [edit]))

/-- **Recovery finds the version set before or after the call** that was in progress, in every run
of calls that use no file number twice at a level, however they fail: when the process stops after
any file operation and, as long as no `Sync` fails, also when the power is cut there and records are
lost that were not synced. -/
theorem powerCut_recovers (cfg : VersionConfig K R N) [Std.TransCmp cfg.icmp]
    (hok : cfg.ok = Status.isOK) (decodeFrom : R → Option (VersionEdit K N))
    (hround : ∀ e, decodeFrom (cfg.encodeTo e) = some e) (vs₀ : VersionSet K N) (disk₀ : Disk R)
    (hnull : vs₀.descriptor = none) (hsorted : vs₀.current.Sorted cfg.icmp)
    (hapart : ManifestApart cfg vs₀ disk₀) {edits : List (VersionEdit K N)} {vs : VersionSet K N}
    {disk : Disk R} (hrun : CallsFrom cfg vs₀ disk₀ edits vs disk) {edit : VersionEdit K N}
    (honce : AddedOnce vs₀.current (edits ++ [edit])) {o : ApplyOutcomes} {r : Applied K R N}
    (hcall : logAndApply cfg vs disk edit o = some r) :
    AllOrNothing cfg decodeFrom disk₀ edits vs disk edit r := by
  obtain ⟨since, h⟩ := betweenCalls_of_run hok hround hnull hsorted hapart hrun honce.of_append
  obtain ⟨safe, ops, hstops, hsafe⟩ := h.stops hok hcall
  refine ⟨since, ops, h.performed, hstops.performed, fun k hk left hleft => ?_⟩
  have hends : StopLeaves cfg.dbname disk r (decide (k = ops.length)) left := by
    rcases hleft with rfl | ⟨hsync, hcut⟩
    · exact hstops.leaves k hk _ (PowerCut.stop _ _) (Or.inr rfl)
    · have hsince : SyncsSucceed since :=
        fun name status hmem => hsync name status (List.mem_append_left _ hmem)
      rw [settleAll_append, ← h.performed, ← hsafe hsince] at hcut
      exact hstops.leaves k hk left hcut
        (Or.inl fun name status hmem => hsync name status (List.mem_append_right _ hmem))
  rcases hends with ⟨hsame, hnot⟩ | ⟨hstatus, hsame⟩
  · exact Or.inl ⟨h.recovers.congr hsame, by simpa using hnot⟩
  · refine Or.inr ⟨hstatus, ?_⟩
    have hnext := runInvariant_of_callsFrom hok hnull hsorted (.returnedOK hrun hcall hstatus) honce
    have hsome : edits ++ [edit] ≠ [] := by simp
    exact (Recovers.of_replaysTo (hnext.replaysTo hround hsome) hsome).congr hsame

end Calls

/-! ## A manifest that could not be installed at first -/

/-- The disk of a database that has just been opened: `CURRENT` names manifest 1. -/
def openedDisk : Disk (VersionEdit Nat 2) where
  files := Function.update (Function.update (fun _ => none)
    (currentFileName ['d', 'b']) (some (.text "MANIFEST-000001\n".toList)))
    "db/MANIFEST-000001".toList (some (.records [{}]))

theorem powerCut_recovers_second :
    ∃ r₁ r₂ r, logAndApply natConfig (newVersionSet {}) openedDisk flushEdit
        { setCurrent := { rename := .IOError "rename" "" } } = some r₁ ∧ r₁.status ≠ .OK ∧
      logAndApply natConfig r₁.vs r₁.disk flushEdit {} = some r₂ ∧ r₂.status = .OK ∧
      logAndApply natConfig r₂.vs r₂.disk {} {} = some r ∧ r.status = .OK ∧
      AllOrNothing natConfig some openedDisk [flushEdit] r₂.vs r₂.disk {} r := by
  obtain ⟨r₁, r₂, r, h₁, hfail, h₂, hgood, h, hstatus⟩ : ∃ r₁ r₂ r,
      logAndApply natConfig (newVersionSet {}) openedDisk flushEdit
        { setCurrent := { rename := .IOError "rename" "" } } = some r₁ ∧
      r₁.status = .IOError "rename" "" ∧
      logAndApply natConfig r₁.vs r₁.disk flushEdit {} = some r₂ ∧ r₂.status = .OK ∧
      logAndApply natConfig r₂.vs r₂.disk {} {} = some r ∧ r.status = .OK :=
    ⟨_, _, _, rfl, rfl, rfl, rfl, rfl, rfl⟩
  have hfail : r₁.status ≠ .OK := by
    rw [hfail]
    nofun
  have hrun : CallsFrom natConfig (newVersionSet {}) openedDisk [flushEdit] r₂.vs r₂.disk :=
    .returnedOK (.returnedError .start h₁ hfail) h₂ hgood
  have hinUse : manifestInUse ['d', 'b'] openedDisk = some "db/MANIFEST-000001".toList := rfl
  have hapart : ManifestApart natConfig (newVersionSet {}) openedDisk := by
    refine ⟨nofun, fun _ m hm => ?_⟩
    obtain rfl := Option.some.inj (hinUse.symm.trans hm)
    exact ⟨by decide, by decide⟩
  exact ⟨r₁, r₂, r, h₁, hfail, h₂, hgood, h, hstatus,
    powerCut_recovers natConfig rfl some (fun _ => rfl) (newVersionSet {}) openedDisk rfl
      (fun _ => List.Pairwise.nil) hapart hrun (by unfold AddedOnce; decide) h⟩

end LevelDB
