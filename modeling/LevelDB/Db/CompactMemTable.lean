import LevelDB.Db.BuildTable
import LevelDB.Db.NatDb
import LevelDB.VersionSet.Durable

/-!
# What a flush keeps

`compactMemtable` is a whole call of `CompactMemtable`. Between its parts the mutex is free, and
`others` is whatever the other threads do to the shared variables then; they leave alone what
`LeavesFlush` lists.

When the call drops `imm_`, its entries should be in a table that the current version lists. But
`BuildTable` never learns the size of its file, so it removes the file and the edit adds nothing.

* `compactMemtable_keeps_iff` — so the entries are kept exactly when the call fails, or when the
  current version listed a table with these entries before.
-/

set_option autoImplicit false

namespace LevelDB

variable {U V R : Type} {N : Nat}

/-- The outcomes of the steps of `CompactMemtable`, and what it reads from `shutting_down_`. -/
structure FlushOutcomes (U V : Type) where
  build : BuildOutcomes U V := {}
  shuttingDown : Bool := false
  apply : ApplyOutcomes := {}
  /-- What `NeedsCompaction` returns with the new version. -/
  needs : Bool := false

/-- What other threads leave alone while a memtable is being flushed. -/
structure LeavesFlush (db db' : Db U V R N) : Prop where
  imm : db'.imm = db.imm
  entries : ∀ m, db.imm = some m → db'.memtables.content m = db.memtables.content m
  current : db'.versions.current = db.versions.current
  descriptor : db'.versions.descriptor = db.versions.descriptor
  tables : db'.tables = db.tables

theorem LeavesFlush.refl (db : Db U V R N) : LeavesFlush db db :=
  ⟨rfl, fun _ _ => rfl, rfl, rfl, rfl⟩

section Model

variable (cfg : DbConfig U V R N) [Std.TransCmp cfg.version.icmp]

/-- `CompactMemtable`; `live` are the versions in use besides the current one. -/
def compactMemtable (db : Db U V R N) (o : FlushOutcomes U V)
    (others : Nat → Db U V R N → Db U V R N) (live : List (Version (InternalKey U) N)) :
    Option (Db U V R N) := do
  let (db, f) ← flushBegin db
  let (db, built) ← flushBuild cfg (others 0 db) f o.build
  let (db, next) ← flushBuilt cfg (others 1 db) f built.fileMeta built.s o.shuttingDown o.apply
  match next with
  | .fails s => some (db.recordBackgroundError cfg s)
  | .logs i => do
    let (db, i) ← applyWrite cfg (others 2 db) i o.apply
    flushFinish cfg (others 3 db) i o.apply o.needs live

end Model

/-- Some table that the current version lists, and that is on disk, holds exactly these entries. -/
def Db.HoldsTable (db : Db U V R N) (es : List (Entry U V)) : Prop :=
  ∃ level, ∃ f ∈ db.versions.current.files level, ∃ t, db.tables f.number = some t ∧ t.Perm es

/-- The entries of `imm_` are not lost: if it is gone, a table holds them. -/
def FlushKeeps (es : List (Entry U V)) (db : Db U V R N) : Prop :=
  db.imm = none → db.HoldsTable es

/-- Every step succeeds whose status is looked at, and no deletion of the database is seen. -/
def FlushOutcomes.Succeed (o : FlushOutcomes U V) (vs : VersionSet (InternalKey U) N) : Prop :=
  (o.build.newFile = .OK ∧ o.build.finish = .OK ∧ o.build.sync = .OK ∧ o.build.close = .OK ∧
    o.build.check = .OK ∧ o.build.iter = .OK) ∧ o.shuttingDown = false ∧
    o.apply.CheckedSucceed vs

section Installed

variable {K : Type} {vcfg : VersionConfig K R N} [Std.TransCmp vcfg.icmp]

/-- `LogAndApply` returns OK exactly when every checked step succeeds, whatever happens in between
to the rest of the version set. -/
theorem install_isOK_iff (hok : vcfg.ok = Status.isOK) {vs vs₁ vs₂ : VersionSet K N}
    {disk disk₁ disk₂ disk₃ : Disk R} {edit : VersionEdit K N} {o : ApplyOutcomes}
    {i i' : Install K N} (hbegin : logAndApplyBegin vcfg vs disk edit o = some (vs₁, disk₁, i))
    (hwrite : logAndApplyWrite vcfg vs₂ disk₂ i o = some (disk₃, i')) :
    vcfg.ok i'.s = true ↔ o.CheckedSucceed vs := by
  obtain ⟨-, -, hbegin⟩ := logAndApplyBegin_eq_some hbegin
  obtain ⟨-, hwrite⟩ := logAndApplyWrite_eq_some hwrite
  rw [hok] at hbegin hwrite ⊢
  unfold ApplyOutcomes.CheckedSucceed ApplyOutcomes.CreationSucceeds
  rcases hbegin with ⟨m, hm, -, -, hnew, hs⟩ | ⟨hnull, hname, hbegin⟩
  · rw [if_neg (by simp [hm])]
    rcases hwrite with ⟨hbad, -⟩ | ⟨-, m', -, ⟨hbad, hs', -⟩ | ⟨hgood, -, hs', -⟩ | ⟨-, hne, -⟩⟩
    · rw [hs] at hbad
      cases hbad
    · rw [hs']
      exact Status.isOK_iff
    · rw [hs']
      exact Status.isOK_iff
    · exact absurd hnew hne
  · rw [if_pos hnull]
    have hne := descriptorFileName_ne_nil hname
    rcases hbegin with ⟨hbad, hs, -, -⟩ | ⟨hgood, -, hs, -, -⟩
    · rcases hwrite with ⟨-, hs', -⟩ | ⟨hcontra, -⟩
      · rw [hs', hs, hbad]
        simp only [Status.isOK_eq_false_iff] at hbad
        simp [hbad]
      · rw [hs, hbad] at hcontra
        cases hcontra
    · simp only [Status.isOK_iff] at hgood
      rw [hs] at hwrite
      rcases hwrite with ⟨hbad, hs', -⟩ | ⟨hsnap, m', -, hwrite⟩
      · rw [hs', hbad]
        simp only [Status.isOK_eq_false_iff] at hbad
        simp [hbad]
      · simp only [Status.isOK_iff] at hsnap
        rcases hwrite with ⟨hbad, hs', -⟩ | ⟨-, hempty, -⟩ | ⟨hrecord, -, -, -, -, -, hs', -⟩
        · rw [hs', hbad]
          simp only [Status.isOK_eq_false_iff] at hbad
          simp [hbad]
        · exact absurd hempty hne
        · simp only [Status.isOK_iff] at hrecord
          rw [hs', Status.isOK_iff, CurrentOutcomes.status_isOK]
          simp [hgood, hsnap, hrecord]

end Installed

/-! ## The parts, seen from the memtable that is flushed -/

section Parts

variable {cfg : DbConfig U V R N} {db db₀ db' : Db U V R N} {m : Nat} {es : List (Entry U V)}

theorem checkShutdown_isOK (hok : cfg.ok = Status.isOK) (s : Status) (shuttingDown : Bool) :
    cfg.ok (checkShutdown cfg s shuttingDown) = true ↔ s = .OK ∧ shuttingDown = false := by
  unfold checkShutdown
  rw [hok]
  by_cases hs : s = .OK
  · cases shuttingDown
    · simp [hs]
    · simp [hs]
  · simp [hs]

/-- Until it is over, a flush that began in `db₀` keeps the memtable, the current version, and every
table but the one with the number that it drew. -/
structure Unflushed (db₀ : Db U V R N) (m : Nat) (es : List (Entry U V)) (db : Db U V R N) :
    Prop where
  imm : db.imm = some m
  content : db.memtables.content m = some es
  current : db.versions.current = db₀.versions.current
  tables : ∀ n ≠ db₀.versions.nextFileNumber, db.tables n = db₀.tables n

theorem Unflushed.others (h : Unflushed db₀ m es db) (hothers : LeavesFlush db db') :
    Unflushed db₀ m es db' where
  imm := hothers.imm.trans h.imm
  content := (hothers.entries m h.imm).trans h.content
  current := hothers.current.trans h.current
  tables n hn := by rw [hothers.tables, h.tables n hn]

theorem Unflushed.flushBegin {f : Flush U N} (himm : db.imm = some m)
    (hes : db.memtables.content m = some es) (h : flushBegin db = some (db', f)) :
    Unflushed db m es db' ∧ db'.versions.descriptor = db.versions.descriptor ∧ f.mem = m ∧
      f.number = db.versions.nextFileNumber := by
  unfold LevelDB.flushBegin at h
  rw [himm] at h
  cases h
  exact ⟨⟨rfl, hes, rfl, fun _ _ => rfl⟩, rfl, rfl, rfl⟩

/-- The table of a flush has a number that no listed table has: the others are left alone. -/
theorem Unflushed.flushBuild {f : Flush U N} {o : BuildOutcomes U V} {built : Built U V}
    (hall : cfg.IteratesAll) (hne : es ≠ []) (hun : Unflushed db₀ m es db) (hmem : f.mem = m)
    (hnumber : f.number = db₀.versions.nextFileNumber)
    (h : flushBuild cfg db f o = some (db', built)) :
    Unflushed db₀ m es db' ∧ db'.versions.descriptor = db.versions.descriptor ∧
      built.s = o.status cfg.ok ∧ built.fileMeta.fileSize = 0 := by
  obtain ⟨entries, hentries, h⟩ := Option.bind_eq_some_iff.mp h
  rw [hmem, hun.content] at hentries
  obtain rfl := Option.some.inj hentries
  obtain ⟨built', hbuild, h⟩ := Option.bind_eq_some_iff.mp h
  cases h
  obtain ⟨-, hsize, htables⟩ := buildTable_eq_some hbuild
  have hiter : cfg.newIterator es ≠ [] := by
    intro hnil
    have hperm := hall es
    rw [hnil] at hperm
    exact hne hperm.nil_eq.symm
  refine ⟨⟨hun.imm, hun.content, hun.current, fun n hn => ?_⟩, rfl,
    buildTable_status hbuild hiter, hsize⟩
  exact (htables n (by rw [hnumber]; exact hn)).trans (hun.tables n hn)

theorem Unflushed.applyBegin [Std.TransCmp cfg.version.icmp]
    {edit : VersionEdit (InternalKey U) N} {o : ApplyOutcomes} {i : Install (InternalKey U) N}
    (hun : Unflushed db₀ m es db) (h : applyBegin cfg db edit o = some (db', i)) :
    Unflushed db₀ m es db' := by
  obtain ⟨-, -, compactPointer, descriptor, disk, rfl⟩ := applyBegin_eq_some h
  exact ⟨hun.imm, hun.content, hun.current, hun.tables⟩

theorem Unflushed.applyWrite {o : ApplyOutcomes} {i i' : Install (InternalKey U) N}
    (hun : Unflushed db₀ m es db) (h : applyWrite cfg db i o = some (db', i')) :
    Unflushed db₀ m es db' := by
  obtain ⟨-, -, disk, rfl⟩ := applyWrite_eq_some h
  exact ⟨hun.imm, hun.content, hun.current, hun.tables⟩

/-- A flush that returns an error keeps `imm_`. -/
theorem flushFinish_error {i : Install (InternalKey U) N} {o : ApplyOutcomes} {needs : Bool}
    {live : List (Version (InternalKey U) N)} (hfail : cfg.ok i.s = false)
    (h : flushFinish cfg db i o needs live = some db') : db'.imm = db.imm := by
  unfold flushFinish at h
  rw [if_neg (by simp [hfail])] at h
  cases h
  obtain ⟨descriptor, disk, heq⟩ := @applyFinish_error U V R N cfg db i o hfail needs
  rw [heq]
  rfl

/-- A flush that succeeds drops `imm_`, and the tables that its version lists stay. -/
theorem flushFinish_ok (hkeeps : cfg.KeepsLive) {i : Install (InternalKey U) N} {o : ApplyOutcomes}
    {needs : Bool} {live : List (Version (InternalKey U) N)} (hgood : cfg.ok i.s = true)
    (h : flushFinish cfg db i o needs live = some db') :
    db'.imm = none ∧ db'.versions.current = i.v ∧
      ∀ level, ∀ f ∈ i.v.files level, db'.tables f.number = db.tables f.number := by
  unfold flushFinish at h
  rw [if_pos hgood] at h
  obtain ⟨db₁, hdrop, rfl⟩ := Option.map_eq_some_iff.mp h
  obtain ⟨m, memtables, himm, hunref, rfl⟩ := dropImm_eq_some hdrop
  rw [applyFinish_ok hgood]
  refine ⟨rfl, rfl, fun level f hf => ?_⟩
  refine if_neg fun hobsolete => ?_
  exact (hkeeps _ _ _ hobsolete).2 i.v List.mem_cons_self ⟨level, f, hf, rfl⟩

end Parts

/-! ## The flush -/

section Flush

variable {cfg : DbConfig U V R N} [Std.TransCmp cfg.version.icmp] {db db₀ db' : Db U V R N}
  {m : Nat} {es : List (Entry U V)} {others : Nat → Db U V R N → Db U V R N}
  {live : List (Version (InternalKey U) N)}

/-- The flush is over: a step failed and `imm_` is still there, or every step succeeded, `imm_` is
gone, and the files and their tables are as they were. -/
def FlushEnds (succeed : Prop) (db₀ db' : Db U V R N) : Prop :=
  (¬ succeed ∧ db'.imm ≠ none) ∨
    (succeed ∧ db'.imm = none ∧
      (∀ level f, f ∈ db'.versions.current.files level ↔ f ∈ db₀.versions.current.files level) ∧
      ∀ level, ∀ f ∈ db₀.versions.current.files level, db'.tables f.number = db₀.tables f.number)

/-- From the record of the edit to the end. -/
theorem flushEnds_of_logs (hok : cfg.ok = Status.isOK) (hkeeps : cfg.KeepsLive)
    (hothers : ∀ k d, LeavesFlush d (others k d))
    (hfresh : ¬ db₀.versions.current.Lists db₀.versions.nextFileNumber)
    (hun : Unflushed db₀ m es db) {logfileNumber : Nat} {o : ApplyOutcomes} {needs : Bool}
    {db₁ db₂ : Db U V R N} {i i' : Install (InternalKey U) N}
    (hbegin : applyBegin cfg db (flushLogEdit logfileNumber) o = some (db₁, i))
    (hwrite : applyWrite cfg (others 2 db₁) i o = some (db₂, i'))
    (hfinish : flushFinish cfg (others 3 db₂) i' o needs live = some db') :
    FlushEnds (o.CheckedSucceed db.versions) db₀ db' := by
  have hun' := (((hun.applyBegin hbegin).others (hothers 2 _)).applyWrite hwrite).others
    (hothers 3 _)
  obtain ⟨-, hv, -⟩ := applyWrite_eq_some hwrite
  obtain ⟨r, hlog, hr⟩ := Option.map_eq_some_iff.mp hbegin
  cases hr
  obtain ⟨w, hlog', hw⟩ := Option.map_eq_some_iff.mp hwrite
  cases hw
  have hinstall := install_isOK_iff hok hlog hlog'
  cases hs : cfg.ok w.2.s with
  | false =>
    refine Or.inl ⟨fun hsucceed => ?_, ?_⟩
    · have hgood : cfg.ok w.2.s = true := hinstall.mpr hsucceed
      rw [hgood] at hs
      cases hs
    · rw [flushFinish_error hs hfinish, hun'.imm]
      exact Option.some_ne_none m
  | true =>
    obtain ⟨himm, hcurrent, htables⟩ := flushFinish_ok hkeeps hs hfinish
    have hfiles : ∀ level f, f ∈ db'.versions.current.files level ↔
        f ∈ db₀.versions.current.files level := by
      intro level f
      rw [hcurrent, hv, logAndApplyBegin_same_files hlog rfl rfl, hun.current]
    refine Or.inr ⟨hinstall.mp hs, himm, hfiles, fun level f hf => ?_⟩
    have hv : f ∈ w.2.v.files level := by
      rw [← hcurrent]
      exact (hfiles level f).mpr hf
    rw [htables level f hv]
    refine hun'.tables _ fun hnumber => ?_
    exact hfresh ⟨level, f, hf, hnumber⟩

variable {o : FlushOutcomes U V}

/-- **How a flush ends.** -/
theorem compactMemtable_ends (hok : cfg.ok = Status.isOK) (hall : cfg.IteratesAll)
    (hkeeps : cfg.KeepsLive) (hothers : ∀ k d, LeavesFlush d (others k d))
    (himm : db.imm = some m) (hes : db.memtables.content m = some es) (hne : es ≠ [])
    (hfresh : ¬ db.versions.current.Lists db.versions.nextFileNumber)
    (h : compactMemtable cfg db o others live = some db') :
    FlushEnds (o.Succeed db.versions) db db' := by
  unfold compactMemtable at h
  obtain ⟨⟨db₁, f⟩, hbegin, h⟩ := Option.bind_eq_some_iff.mp h
  obtain ⟨⟨db₂, built⟩, hbuild, h⟩ := Option.bind_eq_some_iff.mp h
  obtain ⟨⟨db₃, next⟩, hbuilt, h⟩ := Option.bind_eq_some_iff.mp h
  obtain ⟨hun₁, hdesc₁, hmem, hnumber⟩ := Unflushed.flushBegin himm hes hbegin
  obtain ⟨hun₂, hdesc₂, hstatus, hsize⟩ :=
    (hun₁.others (hothers 0 db₁)).flushBuild hall hne hmem hnumber hbuild
  have hun₃ := hun₂.others (hothers 1 db₂)
  have hdesc₃ : (others 1 db₂).versions.descriptor = db.versions.descriptor := by
    rw [(hothers 1 db₂).descriptor, hdesc₂, (hothers 0 db₁).descriptor, hdesc₁]
  have hshutdown : cfg.ok (checkShutdown cfg built.s o.shuttingDown) = true ↔
      (o.build.newFile = .OK ∧ o.build.finish = .OK ∧ o.build.sync = .OK ∧ o.build.close = .OK ∧
        o.build.check = .OK ∧ o.build.iter = .OK) ∧ o.shuttingDown = false := by
    rw [checkShutdown_isOK hok, hstatus, hok, ← BuildOutcomes.status_isOK, Status.isOK_iff]
  rcases flushBuilt_eq_some hsize hbuilt with ⟨i, rfl, hgood, happly⟩ | ⟨rfl, hbad, rfl⟩
  · obtain ⟨⟨db₄, i'⟩, hwrite, hfinish⟩ := Option.bind_eq_some_iff.mp h
    have hun₄ : Unflushed db m es { others 1 db₂ with
        pendingOutputs := (others 1 db₂).pendingOutputs.erase built.fileMeta.number } :=
      ⟨hun₃.imm, hun₃.content, hun₃.current, hun₃.tables⟩
    have hsucceed : o.Succeed db.versions ↔
        o.apply.CheckedSucceed (others 1 db₂).versions := by
      unfold FlushOutcomes.Succeed ApplyOutcomes.CheckedSucceed
      rw [← and_assoc, ← hshutdown, hdesc₃]
      exact and_iff_right hgood
    have hend := flushEnds_of_logs hok hkeeps hothers hfresh hun₄ happly hwrite hfinish
    unfold FlushEnds at hend ⊢
    rw [hsucceed]
    exact hend
  · cases h
    left
    refine ⟨fun hsucceed => ?_, ?_⟩
    · rw [hshutdown.mpr ⟨hsucceed.1, hsucceed.2.1⟩] at hbad
      cases hbad
    · show (others 1 db₂).imm ≠ none
      rw [hun₃.imm]
      exact Option.some_ne_none m

/-- **When a flush keeps the entries of `imm_`**: if it fails, or if the current version listed a
table with these entries before. -/
theorem compactMemtable_keeps_iff (hok : cfg.ok = Status.isOK) (hall : cfg.IteratesAll)
    (hkeeps : cfg.KeepsLive) (hothers : ∀ k d, LeavesFlush d (others k d))
    (himm : db.imm = some m) (hes : db.memtables.content m = some es) (hne : es ≠ [])
    (hfresh : ¬ db.versions.current.Lists db.versions.nextFileNumber)
    (h : compactMemtable cfg db o others live = some db') :
    FlushKeeps es db' ↔ ¬ o.Succeed db.versions ∨ db.HoldsTable es := by
  rcases compactMemtable_ends hok hall hkeeps hothers himm hes hne hfresh h with
      ⟨hfail, hset⟩ | ⟨hsucceed, hnull, hfiles, htables⟩
  · exact iff_of_true (fun hnull => absurd hnull hset) (Or.inl hfail)
  · have hholds : db'.HoldsTable es ↔ db.HoldsTable es := by
      constructor
      · rintro ⟨level, f, hf, t, ht, hperm⟩
        have hf := (hfiles level f).mp hf
        exact ⟨level, f, hf, t, by rw [← htables level f hf]; exact ht, hperm⟩
      · rintro ⟨level, f, hf, t, ht, hperm⟩
        exact ⟨level, f, (hfiles level f).mpr hf, t, by rw [htables level f hf]; exact ht, hperm⟩
    unfold FlushKeeps
    rw [hholds]
    constructor
    · exact fun hkept => Or.inr (hkept hnull)
    · rintro (hfail | hkept) -
      · exact absurd hsucceed hfail
      · exact hkept

end Flush

/-! ## A flush that loses an entry -/

/-- An empty database with an open manifest, one entry in `imm_` and an empty `mem_`. -/
def flushDb : Db Nat Nat (VersionEdit (InternalKey Nat) 2) 2 where
  mem := 1
  imm := some 0
  hasImm := true
  logfile := some 4
  logfileNumber := 4
  versions :=
    { nextFileNumber := 5
      manifestFileNumber := 2
      lastSequence := 1
      logNumber := 3
      prevLogNumber := 0
      descriptor := descriptorFileName ['d', 'b'] 2
      current := {}
      compactPointer := fun _ => none }
  memtables
    | 0 => some { content := [⟨⟨7, 1, .value⟩, 70⟩], refs := 1 }
    | 1 => some { content := [], refs := 1 }
    | _ => none
  nextMem := 2
  logs
    | 4 => some []
    | _ => none
  tables _ := none
  disk := { files := fun _ => none }

theorem flushDb_notListed (n : Nat) : ¬ flushDb.versions.current.Lists n := by
  rintro ⟨level, f, hf, -⟩
  cases hf

/-- With a failed `Sync` of the table the flush keeps `imm_`. -/
theorem compactMemtable_keeps_iff_failed :
    ∃ db', compactMemtable natDb flushDb { build := { sync := .IOError "sync" "" } }
      (fun _ d => d) []
        = some db' ∧ FlushKeeps [⟨⟨7, 1, .value⟩, 70⟩] db' := by
  obtain ⟨db', hdb'⟩ : ∃ db', compactMemtable natDb flushDb
      { build := { sync := .IOError "sync" "" } } (fun _ d => d) [] = some db' := ⟨_, rfl⟩
  refine ⟨db', hdb', (compactMemtable_keeps_iff rfl natDb_iterates natDb_keepsLive
    (fun _ d => LeavesFlush.refl d) rfl rfl (by simp) (flushDb_notListed 5) hdb').mpr
    (Or.inl ?_)⟩
  rintro ⟨⟨-, -, hsync, -⟩, -⟩
  cases hsync

/-- Every step succeeds, `imm_` is dropped, and no table holds its entry. -/
theorem flush_loses_entry :
    ∃ db', compactMemtable natDb flushDb {} (fun _ d => d) [] = some db' ∧ db'.imm = none ∧
      ¬ FlushKeeps [⟨⟨7, 1, .value⟩, 70⟩] db' := by
  obtain ⟨db', hdb', himm⟩ : ∃ db', compactMemtable natDb flushDb {} (fun _ d => d) [] = some db' ∧
      db'.imm = none := ⟨_, rfl, rfl⟩
  refine ⟨db', hdb', himm, fun hkept => ?_⟩
  obtain ⟨level, f, hf, -⟩ := hkept himm
  rcases compactMemtable_ends rfl natDb_iterates natDb_keepsLive (fun _ d => LeavesFlush.refl d) rfl
      rfl (by simp) (flushDb_notListed 5) hdb' with ⟨-, hset⟩ | ⟨-, -, hfiles, -⟩
  · exact hset himm
  · exact absurd ((hfiles level f).mp hf) List.not_mem_nil

end LevelDB
