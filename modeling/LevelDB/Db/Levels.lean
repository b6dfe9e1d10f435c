import LevelDB.Db.Installs
import LevelDB.Db.Retained
import LevelDB.Db.TrivialMove
import LevelDB.VersionSet.Overlap
import Mathlib.Algebra.BigOperators.Fin
import Mathlib.Algebra.Order.BigOperators.Group.Finset

/-!
# The levels over whole runs

A flush leaves the files of the version as they are, and a trivial move brings one of them one level
down. Whatever file `PickCompaction` picks, the assertion of `MaybeAddFile` keeps the levels above
the first one apart.

* `LevelsOk` — sorted levels, disjoint above level 0, and every file number at one level only;
* `Descends` — the same files, none of them at a level above its old one;
* `LevelsOk.moved`, `Moved.depth` — a move keeps the first, and raises the sum of the levels by one;
* `levels_of_run` — hence both hold of every version in use, and the moves come to an end.
-/

set_option autoImplicit false

namespace LevelDB

variable {U V R W : Type} {N : Nat}

/-! ## One version -/

/-- The same table file, whatever seeks are left to it. -/
structure FileMetaData.SameTable (f g : FileMetaData (InternalKey U)) : Prop where
  number : g.number = f.number
  fileSize : g.fileSize = f.fileSize
  smallest : g.smallest = f.smallest
  largest : g.largest = f.largest

structure LevelsOk (icmp : InternalKey U → InternalKey U → Ordering)
    (v : Version (InternalKey U) N) : Prop where
  wellFormed : v.WellFormed icmp
  sorted : v.Sorted icmp
  once : ∀ l l', l ≠ l' → ∀ f ∈ v.files l, ∀ g ∈ v.files l', f.number ≠ g.number

/-- The versions list the same files, those of `v'` at the same levels or further down. -/
structure Descends (v v' : Version (InternalKey U) N) : Prop where
  kept : ∀ l, ∀ f ∈ v.files l, ∃ l', l ≤ l' ∧ ∃ g ∈ v'.files l', f.SameTable g
  only : ∀ l', ∀ g ∈ v'.files l', ∃ l, l ≤ l' ∧ ∃ f ∈ v.files l, f.SameTable g

namespace Version

variable (v : Version (InternalKey U) N)

/-- The sum of the levels of all files. -/
def depth : Nat := ∑ l, l.val * (v.files l).length

def numFiles : Nat := ∑ l, (v.files l).length

variable {v} in
theorem depth_congr {v' : Version (InternalKey U) N} (h : v'.files = v.files) :
    v'.depth = v.depth := by
  unfold depth
  rw [h]

variable {v} in
theorem numFiles_congr {v' : Version (InternalKey U) N} (h : v'.files = v.files) :
    v'.numFiles = v.numFiles := by
  unfold numFiles
  rw [h]

theorem depth_le : v.depth ≤ (N - 1) * v.numFiles := by
  unfold depth numFiles
  rw [Finset.mul_sum]
  exact Finset.sum_le_sum fun l _ => Nat.mul_le_mul_right _ (by omega)

end Version

namespace FileMetaData.SameTable

variable {f g h : FileMetaData (InternalKey U)}

theorem refl (f : FileMetaData (InternalKey U)) : f.SameTable f := ⟨rfl, rfl, rfl, rfl⟩

theorem trans (hfg : f.SameTable g) (hgh : g.SameTable h) : f.SameTable h :=
  ⟨hgh.number.trans hfg.number, hgh.fileSize.trans hfg.fileSize, hgh.smallest.trans hfg.smallest,
    hgh.largest.trans hfg.largest⟩

theorem adopted (f : FileMetaData (InternalKey U)) : f.SameTable f.adopted := by
  refine ⟨f.adopted_number, ?_, f.adopted_smallest, f.adopted_largest⟩
  unfold FileMetaData.adopted
  rfl

end FileMetaData.SameTable

theorem Descends.refl (v : Version (InternalKey U) N) : Descends v v :=
  ⟨fun l f hf => ⟨l, le_refl l, f, hf, .refl f⟩, fun l f hf => ⟨l, le_refl l, f, hf, .refl f⟩⟩

theorem Descends.trans {v₁ v₂ v₃ : Version (InternalKey U) N} (h : Descends v₁ v₂)
    (h' : Descends v₂ v₃) : Descends v₁ v₃ where
  kept l f hf := by
    obtain ⟨l₂, hle, g, hg, hsame⟩ := h.kept l f hf
    obtain ⟨l₃, hle', g', hg', hsame'⟩ := h'.kept l₂ g hg
    exact ⟨l₃, hle.trans hle', g', hg', hsame.trans hsame'⟩
  only l g hg := by
    obtain ⟨l₂, hle, f, hf, hsame⟩ := h'.only l g hg
    obtain ⟨l₁, hle', f', hf', hsame'⟩ := h.only l₂ f hf
    exact ⟨l₁, hle'.trans hle, f', hf', hsame'.trans hsame⟩

section Move

variable {icmp : InternalKey U → InternalKey U → Ordering} {v v' : Version (InternalKey U) N}
  {level next : Fin N} {f : FileMetaData (InternalKey U)}

/-- What is listed after the move was there before, or is the moved file. -/
theorem Moved.origin (h : Moved v v' level next f) {l : Fin N} {g : FileMetaData (InternalKey U)}
    (hg : g ∈ v'.files l) :
    g ∈ v.files l ∧ (l = level → g.number ≠ f.number) ∨ l = next ∧ g = f.adopted := by
  by_cases hlevel : l = level
  · subst hlevel
    rw [h.removed] at hg
    obtain ⟨hg, hne⟩ := List.mem_filter.mp hg
    exact Or.inl ⟨hg, fun _ => of_decide_eq_true hne⟩
  by_cases hnext : l = next
  · subst hnext
    obtain ⟨before, after, hfiles, hadded⟩ := h.added
    rw [hadded, List.mem_append, List.mem_cons] at hg
    rw [hfiles, List.mem_append]
    rcases hg with hg | rfl | hg
    · exact Or.inl ⟨Or.inl hg, fun heq => absurd heq hlevel⟩
    · exact Or.inr ⟨rfl, rfl⟩
    · exact Or.inl ⟨Or.inr hg, fun heq => absurd heq hlevel⟩
  · rw [h.other l hlevel hnext] at hg
    exact Or.inl ⟨hg, fun heq => absurd heq hlevel⟩

theorem Moved.mem_next (h : Moved v v' level next f) : f.adopted ∈ v'.files next := by
  obtain ⟨before, after, -, hadded⟩ := h.added
  rw [hadded]
  exact List.mem_append_right _ List.mem_cons_self

/-- The other files stay where they are. -/
theorem Moved.mem_of_ne (h : Moved v v' level next f) {l : Fin N}
    {g : FileMetaData (InternalKey U)} (hg : g ∈ v.files l) (hne : g.number ≠ f.number) :
    g ∈ v'.files l := by
  by_cases hlevel : l = level
  · subst hlevel
    rw [h.removed]
    exact List.mem_filter.mpr ⟨hg, decide_eq_true hne⟩
  by_cases hnext : l = next
  · subst hnext
    obtain ⟨before, after, hfiles, hadded⟩ := h.added
    rw [hfiles, List.mem_append] at hg
    rw [hadded, List.mem_append, List.mem_cons]
    exact hg.imp_right Or.inr
  · rw [h.other l hlevel hnext]
    exact hg

/-- **A move brings the file down** and leaves the others. -/
theorem Moved.descends (h : Moved v v' level next f) (hv : LevelsOk icmp v)
    (hf : f ∈ v.files level) (hadjacent : next.val = level.val + 1) : Descends v v' where
  kept l g hg := by
    by_cases hnumber : g.number = f.number
    · have hlevel : l = level := by
        by_contra hne
        exact hv.once l level hne g hg f hf hnumber
      subst hlevel
      obtain rfl : g = f := List.inj_on_of_nodup_map (hv.wellFormed.numbers l) hg hf hnumber
      exact ⟨next, Fin.le_def.mpr (by omega), g.adopted, h.mem_next, .adopted g⟩
    · exact ⟨l, le_refl l, g, h.mem_of_ne hg hnumber, .refl g⟩
  only l g hg := by
    rcases h.origin hg with ⟨hold, -⟩ | ⟨rfl, rfl⟩
    · exact ⟨l, le_refl l, g, hold, .refl g⟩
    · exact ⟨level, Fin.le_def.mpr (by omega), f, hf, .adopted f⟩

theorem Moved.length_level (h : Moved v v' level next f) (hv : LevelsOk icmp v)
    (hf : f ∈ v.files level) : (v.files level).length = (v'.files level).length + 1 := by
  have hmoved : (v.files level).filter (fun g => !decide (g.number ≠ f.number)) = [f] := by
    refine filter_eq_singleton (hv.wellFormed.nodup level) hf (by simp) fun g hg hne => ?_
    have hnumber : g.number ≠ f.number := fun heq =>
      hne (List.inj_on_of_nodup_map (hv.wellFormed.numbers level) hg hf heq)
    simp [hnumber]
  rw [List.length_eq_length_filter_add fun g => decide (g.number ≠ f.number), hmoved, h.removed]
  rfl

theorem Moved.length_next (h : Moved v v' level next f) :
    (v'.files next).length = (v.files next).length + 1 := by
  obtain ⟨before, after, hfiles, hadded⟩ := h.added
  rw [hadded, hfiles, List.length_append, List.length_cons, List.length_append, Nat.add_assoc]

/-- The sum over the levels of `w` per file, where one file goes from one level to another. -/
theorem Moved.sum_levels (h : Moved v v' level next f) (hv : LevelsOk icmp v)
    (hf : f ∈ v.files level) (hne : level ≠ next) (w : Fin N → Nat) :
    ∑ l, w l * (v'.files l).length + w level = ∑ l, w l * (v.files l).length + w next := by
  have hpoint : ∀ l, w l * (v'.files l).length + (if l = level then w level else 0) =
      w l * (v.files l).length + (if l = next then w next else 0) := by
    intro l
    by_cases hlevel : l = level
    · subst hlevel
      rw [if_pos rfl, if_neg hne, h.length_level hv hf, Nat.mul_add_one, Nat.add_zero]
    by_cases hnext : l = next
    · subst hnext
      rw [if_neg hlevel, if_pos rfl, h.length_next, Nat.mul_add_one, Nat.add_zero]
    · rw [if_neg hlevel, if_neg hnext, h.other l hlevel hnext]
  have hsum := Finset.sum_congr (rfl : (Finset.univ : Finset (Fin N)) = _) fun l _ => hpoint l
  rw [Finset.sum_add_distrib, Finset.sum_add_distrib, Finset.sum_ite_eq' Finset.univ level,
    Finset.sum_ite_eq' Finset.univ next, if_pos (Finset.mem_univ _),
    if_pos (Finset.mem_univ _)] at hsum
  exact hsum

/-- **A move raises the sum of the levels by one.** -/
theorem Moved.depth (h : Moved v v' level next f) (hv : LevelsOk icmp v)
    (hf : f ∈ v.files level) (hadjacent : next.val = level.val + 1) :
    v'.depth = v.depth + 1 ∧ v'.numFiles = v.numFiles := by
  have hne : level ≠ next := by
    rintro rfl
    omega
  have hdepth := h.sum_levels hv hf hne Fin.val
  have hcount := h.sum_levels hv hf hne fun _ => 1
  simp only [Nat.one_mul, Nat.add_right_cancel_iff] at hcount
  refine ⟨?_, hcount⟩
  unfold Version.depth
  omega

/-- A number still names one file of a level. -/
theorem Moved.numbers_nodup (h : Moved v v' level next f) (hv : LevelsOk icmp v)
    (hf : f ∈ v.files level) (hne : level ≠ next) (l : Fin N) :
    ((v'.files l).map FileMetaData.number).Nodup := by
  by_cases hlevel : l = level
  · subst hlevel
    rw [h.removed]
    exact (hv.wellFormed.numbers l).sublist (List.filter_sublist.map _)
  by_cases hnext : l = next
  · subst hnext
    obtain ⟨before, after, hfiles, hadded⟩ := h.added
    have hfresh : f.number ∉ (v.files l).map FileMetaData.number := by
      intro hmem
      obtain ⟨g, hg, hnumber⟩ := List.mem_map.mp hmem
      exact hv.once l level hne.symm g hg f hf hnumber
    have hnumbers := hv.wellFormed.numbers l
    rw [hfiles, List.map_append] at hfresh hnumbers
    rw [hadded, List.map_append, List.map_cons, FileMetaData.adopted_number, List.nodup_middle]
    exact List.nodup_cons.mpr ⟨hfresh, hnumbers⟩
  · rw [h.other l hlevel hnext]
    exact hv.wellFormed.numbers l

/-- A number is still listed at one level only. -/
theorem Moved.once (h : Moved v v' level next f) (hv : LevelsOk icmp v) (hf : f ∈ v.files level)
    {l l' : Fin N} (hne : l ≠ l') {g g' : FileMetaData (InternalKey U)} (hg : g ∈ v'.files l)
    (hg' : g' ∈ v'.files l') : g.number ≠ g'.number := by
  -- a file other than the moved one has another number
  have hother : ∀ {l : Fin N} {g : FileMetaData (InternalKey U)}, g ∈ v.files l →
      (l = level → g.number ≠ f.number) → g.number ≠ f.adopted.number := by
    intro l g hg hlevel
    rw [FileMetaData.adopted_number]
    by_cases hl : l = level
    · exact hlevel hl
    · exact hv.once l level hl g hg f hf
  rcases h.origin hg with ⟨hg, hlevel⟩ | ⟨rfl, rfl⟩
  · rcases h.origin hg' with ⟨hg', -⟩ | ⟨rfl, rfl⟩
    · exact hv.once l l' hne g hg g' hg'
    · exact hother hg hlevel
  · rcases h.origin hg' with ⟨hg', hlevel'⟩ | ⟨rfl, -⟩
    · exact (hother hg' hlevel').symm
    · exact absurd rfl hne

/-! ## The build of a move -/

variable [Std.TransCmp icmp] {cp : Fin N → Option (InternalKey U)}
  {e : VersionEdit (InternalKey U) N}

/-- Neighbours that are apart, in order and with their bounds in order, are all apart. -/
theorem pairwise_of_noOverlap {l : Fin N} {files : List (FileMetaData (InternalKey U))}
    (hl : l.val > 0) (hapart : NoOverlap icmp l files)
    (hbounds : ∀ g ∈ files, icmp g.smallest g.largest ≠ .gt)
    (hsorted : files.Pairwise (bySmallestKey icmp)) :
    files.Pairwise fun f g => icmp f.largest g.smallest = .lt := by
  have hranged : ∀ g ∈ files, g.WellRanged icmp :=
    fun g hg => Ordering.isLE_iff_ne_gt.mpr (hbounds g hg)
  have hstart : files.Pairwise fun f g => (icmp f.smallest g.smallest).isLE = true :=
    hsorted.imp fun hlt => isLE_of_not_bySmallestKey (Std.Asymm.asymm _ _ hlt)
  have hpairs := (isChain_iff_pairwise_apart hranged hstart).mp (hapart hl)
  refine (hpairs.and hstart).imp_of_mem fun {f g} _ hg hfg => ?_
  exact (rangesApart_iff (hranged g hg) hfg.2).mp hfg.1

omit [Std.TransCmp icmp] in
theorem LevelsOk.addedOnce_move (hv : LevelsOk icmp v) (he : Moves e level next f)
    (hf : f ∈ v.files level) (hne : level ≠ next) : AddedOnce v [e] := by
  intro l
  have hnew : [e].flatMap (fun e => e.newAt l) =
      if next = l then [{ f with allowedSeeks := 2 ^ 30 }] else [] := by
    rw [List.flatMap_singleton, he.newAt, newAt_moveEdit]
  rw [hnew]
  split
  · rename_i hnext
    subst hnext
    rw [List.map_append, List.nodup_append]
    refine ⟨hv.wellFormed.numbers next, List.nodup_singleton _, fun n hn n' hn' => ?_⟩
    obtain ⟨g, hg, rfl⟩ := List.mem_map.mp hn
    rw [List.map_singleton, List.mem_singleton] at hn'
    rw [hn']
    exact hv.once next level hne.symm g hg f hf
  · rw [List.append_nil]
    exact hv.wellFormed.numbers l

/-- **A move keeps the levels**, whichever file was picked, if `MaybeAddFile` finds no overlap. -/
theorem LevelsOk.move (hv : LevelsOk icmp v) (he : Moves e level next f)
    (hf : f ∈ v.files level) (hne : level ≠ next)
    (hsave : ((Builder.new icmp cp v).apply e).saveTo = some v') :
    Moved v v' level next f ∧ LevelsOk icmp v' := by
  have hsorted : v'.Sorted icmp :=
    applyAll_saveTo_sorted hv.sorted (hv.addedOnce_move he hf hne) hsave
  obtain ⟨hapart, rfl⟩ := Builder.saveTo_eq_some.mp hsave
  have hmoved : Moved v { files := ((Builder.new icmp cp v).apply e).survivors } level next f :=
    ⟨survivors_level he hne,
      ⟨_, _, List.takeWhile_append_dropWhile.symm, survivors_next he hne⟩,
      fun l hlevel hnext => survivors_other he hlevel hnext⟩
  have hbounds : ∀ l, ∀ g ∈ ((Builder.new icmp cp v).apply e).survivors l,
      icmp g.smallest g.largest ≠ .gt := by
    intro l g hg
    rcases hmoved.origin hg with ⟨hold, -⟩ | ⟨-, rfl⟩
    · exact hv.wellFormed.bounds l g hold
    · rw [FileMetaData.adopted_smallest, FileMetaData.adopted_largest]
      exact hv.wellFormed.bounds level f hf
  exact ⟨hmoved, ⟨hbounds, hmoved.numbers_nodup hv hf hne, fun l hl =>
    pairwise_of_noOverlap hl (hapart l) (hbounds l) (hsorted l)⟩, hsorted,
    fun l l' hll g hg g' hg' => hmoved.once hv hf hll hg hg'⟩

/-- An edit without files leaves those of the version. -/
theorem saveTo_unchanged (hnew : ∀ l, e.newAt l = []) (hdeleted : ∀ l, e.deletedAt l = [])
    (hsave : ((Builder.new icmp cp v).apply e).saveTo = some v') : v'.files = v.files := by
  obtain ⟨-, rfl⟩ := Builder.saveTo_eq_some.mp hsave
  funext l
  show ((Builder.new icmp cp v).apply e).survivors l = v.files l
  unfold Builder.survivors
  rw [Builder.apply_levels, Builder.apply_base, hnew, hdeleted]
  exact Builder.new_survivors cp v l

end Move

/-! ## What a job installs -/

/-- What a call of `LogAndApply` is about to install: after a flush the same files, after a trivial
move those with one of them one level further down. -/
inductive Arranges (icmp : InternalKey U → InternalKey U → Ordering)
    (v : Version (InternalKey U) N) : Bool → Version (InternalKey U) N → Prop
  | same {v' : Version (InternalKey U) N} (hfiles : v'.files = v.files) : Arranges icmp v true v'
  | moved {v' : Version (InternalKey U) N} {level next : Fin N} {f : FileMetaData (InternalKey U)}
      (hf : f ∈ v.files level) (hadjacent : next.val = level.val + 1)
      (hmoved : Moved v v' level next f) (hlevels : LevelsOk icmp v') : Arranges icmp v false v'

inductive JobArranges (icmp : InternalKey U → InternalKey U → Ordering)
    (v : Version (InternalKey U) N) : Job U N → Prop
  | building {f : Flush U N} : JobArranges icmp v (.building f)
  | built {f : Flush U N} {fileMeta : TableMeta U} {status : Status}
      (hsize : fileMeta.fileSize = 0) : JobArranges icmp v (.built f fileMeta status)
  | logging {isFlush : Bool} {i : Install (InternalKey U) N} {o : ApplyOutcomes}
      (harranges : Arranges icmp v isFlush i.v) : JobArranges icmp v (.logging isFlush i o)
  | logged {isFlush : Bool} {i : Install (InternalKey U) N} {o : ApplyOutcomes}
      (harranges : Arranges icmp v isFlush i.v) : JobArranges icmp v (.logged isFlush i o)

section Step

variable {cfg : DbConfig U V R N} [Std.TransCmp cfg.version.icmp] {calls : W → WriteRequest U V}
  {s t : System U V R W N}

theorem applyBegin_fills {db db' : Db U V R N} {edit : VersionEdit (InternalKey U) N}
    {o : ApplyOutcomes} {i : Install (InternalKey U) N}
    (hbegin : applyBegin cfg db edit o = some (db', i)) :
    fillEdit db.versions edit = some i.edit := by
  obtain ⟨⟨vs, disk, i₁⟩, happly, heq⟩ := Option.map_eq_some_iff.mp hbegin
  cases heq
  exact (logAndApplyBegin_eq_some happly).1

theorem arranges_flush {db db' : Db U V R N} {o : ApplyOutcomes} {number : Nat}
    {i : Install (InternalKey U) N}
    (hbegin : applyBegin cfg db (flushLogEdit number) o = some (db', i)) :
    Arranges cfg.version.icmp db.versions.current true i.v := by
  obtain ⟨cp, v, hsave, hv⟩ := applyBegin_version hbegin
  have hfilled := filled_of_fillEdit (applyBegin_fills hbegin)
  have hfiles : v.files = db.versions.current.files := by
    refine saveTo_unchanged (fun l => ?_) (fun l => ?_) hsave
    · rw [hfilled.newAt]
      rfl
    · unfold VersionEdit.deletedAt
      rw [hfilled.deletedFiles]
      rfl
  rw [hv]
  exact .same hfiles

theorem arranges_move {db db' : Db U V R N} {o : ApplyOutcomes} {level next : Fin N}
    {f : FileMetaData (InternalKey U)} {i : Install (InternalKey U) N}
    (hlevels : LevelsOk cfg.version.icmp db.versions.current)
    (hf : f ∈ db.versions.current.files level) (hadjacent : next.val = level.val + 1)
    (hbegin : applyBegin cfg db (System.moveEdit level next f) o = some (db', i)) :
    Arranges cfg.version.icmp db.versions.current false i.v := by
  obtain ⟨cp, v, hsave, hv⟩ := applyBegin_version hbegin
  have hne : level ≠ next := by
    rintro rfl
    omega
  obtain ⟨hmoved, hv'⟩ :=
    hlevels.move (moves_of_fillEdit (applyBegin_fills hbegin)) hf hne hsave
  rw [hv]
  exact .moved hf hadjacent ⟨hmoved.removed, hmoved.added, hmoved.other⟩
    ⟨⟨hv'.wellFormed.bounds, hv'.wellFormed.numbers, hv'.wellFormed.disjoint⟩, hv'.sorted,
      hv'.once⟩

/-- The start of a trivial move. -/
theorem moveBegin_eq_some {level : Fin N} {index : Nat} {o : ApplyOutcomes}
    (h : s.moveBegin cfg level index o = some t) :
    ∃ next f db i, next.val = level.val + 1 ∧ f ∈ s.db.versions.current.files level ∧
      applyBegin cfg s.db (System.moveEdit level next f) o = some (db, i) ∧
      t = { s with db, jobs := s.jobs ++ [.logging false i o] } := by
  unfold System.moveBegin at h
  split at h
  · rename_i hlevel
    obtain ⟨f, hf, h⟩ := Option.bind_eq_some_iff.mp h
    obtain ⟨⟨db, i⟩, hbegin, rfl⟩ := Option.map_eq_some_iff.mp h
    exact ⟨⟨level.val + 1, hlevel⟩, f, db, i, rfl, List.mem_of_getElem? hf, hbegin, rfl⟩
  · cases h

/-- What a job that starts is about to install. -/
theorem jobArranges_start (hone : OneJob s)
    (hlevels : LevelsOk cfg.version.icmp s.db.versions.current) {pick : Option (Fin N × Nat)}
    {o : ApplyOutcomes} (hstart : s.jobStart cfg pick o = some t) :
    ∀ j ∈ t.jobs, JobArranges cfg.version.icmp s.db.versions.current j := by
  have hnone := (hone.starts (jobStart_eq_some hstart).1).1
  have hends : ∀ u : System U V R W N, u.jobs = s.jobs → ∀ j ∈ (u.endBackground cfg).jobs,
      JobArranges cfg.version.icmp s.db.versions.current j := by
    intro u hu j hj
    rw [endBackground_jobs, hu, hnone] at hj
    exact absurd hj List.not_mem_nil
  unfold System.jobStart at hstart
  split at hstart
  · dsimp only at hstart
    split at hstart
    · cases hstart
      exact hends _ rfl
    · unfold System.backgroundCompaction at hstart
      split at hstart
      · obtain ⟨⟨db, f⟩, -, rfl⟩ := Option.map_eq_some_iff.mp hstart
        intro j hj
        dsimp only at hj
        rw [hnone] at hj
        rw [List.mem_singleton.mp hj]
        exact .building
      · split at hstart
        · cases hstart
          exact hends _ rfl
        · obtain ⟨next, f, db, i, hadjacent, hf, hbegin, rfl⟩ := moveBegin_eq_some hstart
          have harranges := fun hlevels => arranges_move hlevels hf hadjacent hbegin
          intro j hj
          dsimp only at hj
          rw [hnone] at hj
          rw [List.mem_singleton.mp hj]
          exact .logging (harranges hlevels)
  · cases hstart

theorem jobArranges_built (hone : OneJob s)
    (hjobs : ∀ j ∈ s.jobs, JobArranges cfg.version.icmp s.db.versions.current j) {k : Nat}
    {o : ApplyOutcomes} (hbuilt : s.jobBuilt cfg k o = some t) :
    ∀ j ∈ t.jobs, JobArranges cfg.version.icmp s.db.versions.current j := by
  obtain ⟨f, fileMeta, status, db, next, hk, hflush, hnext⟩ := jobBuilt_eq_some hbuilt
  intro j hj
  have hjob := hjobs _ (List.mem_of_getElem? hk)
  cases hjob with
  | built hsize =>
    rcases flushBuilt_eq_some hsize hflush with ⟨i, rfl, -, hbegin⟩ | ⟨rfl, -, -⟩
    · rcases hnext with ⟨i', heq, rfl⟩ | ⟨error, heq, -⟩
      · cases heq
        have harranges := arranges_flush hbegin
        rw [hone.mem_set hk hj]
        exact .logging harranges
      · cases heq
    · rcases hnext with ⟨i', heq, -⟩ | ⟨error, -, rfl⟩
      · cases heq
      · rw [hone.endJob_jobs hk] at hj
        exact absurd hj List.not_mem_nil

omit [Std.TransCmp cfg.version.icmp] in
/-- The end of a job installs its version, if its status is OK. -/
theorem jobFinish_current {k : Nat} {needs : Bool} (h : s.jobFinish cfg k needs = some t) :
    ∃ isFlush i o, s.jobs[k]? = some (.logged isFlush i o) ∧
      t.db.versions.current = if cfg.ok i.s then i.v else s.db.versions.current := by
  unfold System.jobFinish at h
  split at h
  · rename_i i o hk
    obtain ⟨db, hfinish, rfl⟩ := Option.map_eq_some_iff.mp h
    refine ⟨true, i, o, hk, ?_⟩
    rw [endJob_versions]
    unfold flushFinish at hfinish
    split at hfinish
    · rename_i hok
      obtain ⟨db₁, hdrop, rfl⟩ := Option.map_eq_some_iff.mp hfinish
      rw [applyFinish_ok hok] at hdrop
      obtain ⟨m, memtables, -, -, rfl⟩ := dropImm_eq_some hdrop
      rw [if_pos hok]
      rfl
    · rename_i hfail
      cases hfinish
      rw [if_neg hfail]
      obtain ⟨descriptor, disk, heq⟩ :=
        @applyFinish_error U V R N cfg s.db i o (by simpa using hfail) needs
      rw [heq]
      rfl
  · rename_i i o hk
    cases h
    refine ⟨false, i, o, hk, ?_⟩
    rw [endJob_versions]
    unfold System.moveFinish
    split
    · rename_i hok
      rw [applyFinish_ok hok]
    · rename_i hfail
      obtain ⟨descriptor, disk, heq⟩ :=
        @applyFinish_error U V R N cfg s.db i o (by simpa using hfail) needs
      rw [heq]
      rfl
  · cases h

variable [DecidableEq W]

/-- **What a job is about to install** stays next to the current version. -/
theorem jobArranges_step (ho : Orderly s)
    (hlevels : LevelsOk cfg.version.icmp s.db.versions.current)
    (hjobs : ∀ j ∈ s.jobs, JobArranges cfg.version.icmp s.db.versions.current j)
    {l : Label U V W N} (hl : ∀ k needs, l ≠ .jobFinish k needs)
    (hstep : System.step cfg calls s l = some t) :
    ∀ j ∈ t.jobs, JobArranges cfg.version.icmp s.db.versions.current j := by
  have hone := ho.oneJob
  rcases l.write_or_other with ⟨w, act, rfl⟩ | hother
  · rw [(writeStep_of_write ho.queue hstep).db.2.2]
    exact hjobs
  cases l with
  | jobStart pick o => exact jobArranges_start hone hlevels hstep
  | jobBuilt k o => exact jobArranges_built hone hjobs hstep
  | jobFinish k needs => exact absurd rfl (hl k needs)
  | jobBuild k o =>
    obtain ⟨f, entries, built, hk, -, htable, rfl⟩ := jobBuild_eq_some hstep
    intro j hj
    rw [hone.mem_set hk hj]
    exact .built (buildTable_eq_some htable).2.1
  | jobWrite k =>
    obtain ⟨isFlush, i, o, db, i', hk, hwrite, rfl⟩ := jobWrite_eq_some hstep
    obtain ⟨-, hv, -⟩ := applyWrite_eq_some hwrite
    intro j hj
    have hjob := hjobs _ (List.mem_of_getElem? hk)
    rw [hone.mem_set hk hj]
    cases hjob with
    | logging harranges => exact .logged (by rw [hv]; exact harranges)
  | _ =>
    cases otherStep_of_step hother hstep with
    | _ => exact hjobs

/-! ## Every run -/

/-- How many trivial moves have been installed. -/
def recordMoves (cfg : DbConfig U V R N) (moves : Nat) (s : System U V R W N) :
    Label U V W N → System U V R W N → Nat
  | .jobFinish k _, _ =>
    match s.jobs[k]? with
    | some (.logged false i _) => if cfg.ok i.s then moves + 1 else moves
    | _ => moves
  | _, _ => moves

/-- A version as it may come of `start`. -/
structure Settled (icmp : InternalKey U → InternalKey U → Ordering)
    (start v : Version (InternalKey U) N) : Prop where
  levels : LevelsOk icmp v
  descends : Descends start v

omit [DecidableEq W] [Std.TransCmp cfg.version.icmp] in
theorem Settled.of_files {icmp : InternalKey U → InternalKey U → Ordering}
    {start v v' : Version (InternalKey U) N} (h : Settled icmp start v)
    (hfiles : v'.files = v.files) : Settled icmp start v' := by
  obtain ⟨⟨⟨hbounds, hnumbers, hdisjoint⟩, hsorted, honce⟩, hkept, honly⟩ := h
  unfold Version.Sorted at hsorted
  rw [← hfiles] at hbounds hnumbers hdisjoint hsorted honce hkept honly
  exact ⟨⟨⟨hbounds, hnumbers, hdisjoint⟩, hsorted, honce⟩, hkept, honly⟩

/-- **The invariant**, with the moves that were installed since `start`. -/
structure LevelsKept (cfg : DbConfig U V R N) (start : Version (InternalKey U) N) (moves : Nat)
    (s : System U V R W N) : Prop where
  orderly : Orderly s
  current : Settled cfg.version.icmp start s.db.versions.current
  gets : ∀ g ∈ s.gets, Settled cfg.version.icmp start g.current
  jobs : ∀ j ∈ s.jobs, JobArranges cfg.version.icmp s.db.versions.current j
  depth : s.db.versions.current.depth = start.depth + moves
  numFiles : s.db.versions.current.numFiles = start.numFiles

omit [DecidableEq W] [Std.TransCmp cfg.version.icmp] in
theorem recordMoves_of_ne {moves : Nat} {l : Label U V W N}
    (hl : ∀ k needs, l ≠ .jobFinish k needs) :
    recordMoves cfg moves s l t = moves := by
  cases l with
  | jobFinish k needs => exact absurd rfl (hl k needs)
  | _ => rfl

/-- The versions that calls of `Get` have captured. -/
theorem LevelsKept.gets_step {start : Version (InternalKey U) N} {moves : Nat}
    (h : LevelsKept cfg start moves s) {l : Label U V W N}
    (hstep : System.step cfg calls s l = some t) :
    ∀ g ∈ t.gets, Settled cfg.version.icmp start g.current := by
  intro g hg
  rcases gets_cases h.orderly.queue hstep with
    hgets | ⟨key, snapshot, -, hgets⟩ | ⟨i, g', pc, -, hi, -, hgets⟩
  · exact h.gets g (hgets ▸ hg)
  · rw [hgets] at hg
    rcases List.mem_append.mp hg with hg | hg
    · exact h.gets g hg
    · rw [List.mem_singleton.mp hg]
      exact h.current
  · rw [hgets] at hg
    rcases List.mem_or_eq_of_mem_set hg with hg | rfl
    · exact h.gets g hg
    · exact h.gets g' (List.mem_of_getElem? hi)

theorem LevelsKept.step {start : Version (InternalKey U) N} {moves : Nat}
    (h : LevelsKept cfg start moves s) {l : Label U V W N}
    (hstep : System.step cfg calls s l = some t) :
    LevelsKept cfg start (recordMoves cfg moves s l t) t := by
  have hgets := h.gets_step hstep
  by_cases hl : ∀ k needs, l ≠ .jobFinish k needs
  · have hjobs := jobArranges_step h.orderly h.current.levels h.jobs hl hstep
    have hcurrent := current_of_step h.orderly.queue hl hstep
    rw [recordMoves_of_ne hl]
    rw [← hcurrent] at hjobs
    refine ⟨h.orderly.step hstep, ?_, hgets, hjobs, ?_, ?_⟩
    · rw [hcurrent]
      exact h.current
    · rw [hcurrent]
      exact h.depth
    · rw [hcurrent]
      exact h.numFiles
  · simp only [not_forall, not_not] at hl
    obtain ⟨k, needs, rfl⟩ := hl
    obtain ⟨isFlush, i, o, hk, hcurrent⟩ := jobFinish_current hstep
    have hjobs : t.jobs = [] := by
      obtain ⟨-, -, -, db, -, -, rfl⟩ := jobFinish_eq_some hstep
      exact h.orderly.oneJob.endJob_jobs hk db
    have hkept : ∀ moves', Settled cfg.version.icmp start t.db.versions.current →
        t.db.versions.current.depth = start.depth + moves' →
        t.db.versions.current.numFiles = start.numFiles → LevelsKept cfg start moves' t :=
      fun moves' hcurrent hdepth hnum => ⟨h.orderly.step hstep, hcurrent, hgets,
        fun j hj => absurd (hjobs ▸ hj) List.not_mem_nil, hdepth, hnum⟩
    have hrecord : recordMoves cfg moves s (.jobFinish k needs) t =
        if isFlush = false ∧ cfg.ok i.s then moves + 1 else moves := by
      simp only [recordMoves, hk]
      cases isFlush with
      | true => rfl
      | false => simp
    rw [hrecord]
    by_cases hok : cfg.ok i.s = true
    · rw [if_pos hok] at hcurrent
      have hjob := h.jobs _ (List.mem_of_getElem? hk)
      cases hjob with
      | logged harranges =>
        cases harranges with
        | same hfiles =>
          rw [if_neg (by simp)]
          rw [← hcurrent] at hfiles
          exact hkept moves (h.current.of_files hfiles)
            ((Version.depth_congr hfiles).trans h.depth)
            ((Version.numFiles_congr hfiles).trans h.numFiles)
        | moved hf hadjacent hmoved hlevels =>
          rw [if_pos ⟨rfl, hok⟩]
          rw [← hcurrent] at hmoved hlevels
          obtain ⟨hdepth, hnum⟩ := hmoved.depth h.current.levels hf hadjacent
          refine hkept (moves + 1) ⟨hlevels, h.current.descends.trans
            (hmoved.descends h.current.levels hf hadjacent)⟩ ?_ (hnum.trans h.numFiles)
          rw [hdepth, h.depth, Nat.add_assoc]
    · rw [if_neg hok] at hcurrent
      rw [if_neg fun hand => hok hand.2]
      refine hkept moves ?_ ?_ ?_
      · rw [hcurrent]
        exact h.current
      · rw [hcurrent]
        exact h.depth
      · rw [hcurrent]
        exact h.numFiles

/-- **The levels over whole runs.** From a version whose levels are in order, in every interleaving
and whatever `PickCompaction` picks: every version in use has sorted levels, disjoint ones above
level 0, and each file number at one level; it lists the files of the start, each at its old level
or further down. Each trivial move that is installed raises the sum of the levels by one, so that
there are only so many. -/
theorem levels_of_run (hopened : Opened s)
    (hlevels : LevelsOk cfg.version.icmp s.db.versions.current) {moves : Nat}
    (run : Transition.Reaches (Transition.tracked (System.step cfg calls) (recordMoves cfg))
      (s, 0) (t, moves)) :
    (∀ v ∈ t.live, LevelsOk cfg.version.icmp v ∧ Descends s.db.versions.current v) ∧
      t.db.versions.current.depth = s.db.versions.current.depth + moves ∧
      moves ≤ (N - 1) * s.db.versions.current.numFiles := by
  have h : LevelsKept cfg s.db.versions.current moves t := by
    refine run.invariant (I := fun x => LevelsKept cfg s.db.versions.current x.2 x.1)
      (fun {x y l} hkept _ hstep => ?_) ⟨hopened.orderly, ⟨hlevels, .refl _⟩, ?_, ?_, rfl, rfl⟩
    · obtain ⟨hstep, hrecord⟩ := Transition.tracked_eq_some.mp hstep
      rw [hrecord]
      exact hkept.step hstep
    · rw [hopened.gets]
      exact fun g hg => absurd hg List.not_mem_nil
    · rw [hopened.jobs]
      exact fun j hj => absurd hj List.not_mem_nil
  refine ⟨fun v hv => ?_, h.depth, ?_⟩
  · rcases List.mem_cons.mp hv with rfl | hv
    · exact ⟨h.current.levels, h.current.descends⟩
    · obtain ⟨g, hg, rfl⟩ := List.mem_map.mp hv
      have hsettled := h.gets g (List.mem_of_mem_filter hg)
      exact ⟨hsettled.levels, hsettled.descends⟩
  · have hle := t.db.versions.current.depth_le
    rw [h.depth, h.numFiles] at hle
    exact Nat.le_trans (Nat.le_add_left _ _) hle

end Step

/-! ## A file goes down -/

theorem tableSystem_levels :
    LevelsOk natDb.version.icmp tableSystem.db.versions.current := by
  refine ⟨⟨by decide, by decide, by decide⟩, ?_, by decide⟩
  unfold Version.Sorted
  decide

/-- The table of level 0 is moved while a call of `Get` holds the version before. -/
theorem levels_of_run_move :
    ∃ t moves, Transition.exec
        (Transition.tracked (System.step natDb flushCalls) (recordMoves natDb))
        [.getCall 7 none, .jobStart (some (0, 0)) {}, .jobWrite 0, .jobFinish 0 false]
        (tableSystem, 0) = some (t, moves) ∧
      t.live.map (fun v => (v.files 0).length) = [0, 1] ∧ moves = 1 ∧
      (∀ v ∈ t.live, LevelsOk natDb.version.icmp v ∧
        Descends tableSystem.db.versions.current v) ∧
      t.db.versions.current.depth = tableSystem.db.versions.current.depth + moves ∧
      moves ≤ (2 - 1) * tableSystem.db.versions.current.numFiles := by
  obtain ⟨t, moves, ht, hlive, hmoves⟩ : ∃ t moves, Transition.exec
        (Transition.tracked (System.step natDb flushCalls) (recordMoves natDb))
        [.getCall 7 none, .jobStart (some (0, 0)) {}, .jobWrite 0, .jobFinish 0 false]
        (tableSystem, 0) = some (t, moves) ∧
      t.live.map (fun v => (v.files 0).length) = [0, 1] ∧ moves = 1 := ⟨_, _, rfl, rfl, rfl⟩
  exact ⟨t, moves, ht, hlive, hmoves,
    levels_of_run tableSystem_opened tableSystem_levels (Transition.Run.of_exec ht)⟩

end LevelDB
