import LevelDB.VersionSet.Edit
import Mathlib.Data.Finset.Basic
import Mathlib.Data.List.FinRange
import Mathlib.Data.List.Chain

/-!
# The version builder

`VersionSet::Builder` collects, level by level, the deleted numbers and the added files of a
sequence of edits over a base version; `saveTo` merges them into a new version. A failed overlap
assertion of `maybeAddFile` is `none`.

* `LevelState.visited` — the files in the order in which `saveTo` meets them, and
  `LevelState.survivors`, those of them that are not deleted;
* `saveLevel_eq_some` — `saveTo` succeeds at a level exactly when the survivors, in this order, do
  not overlap, and then it lists them;
* `mem_survivors_apply` — what one more edit does to the survivors.
-/

set_option autoImplicit false

namespace LevelDB

variable {K : Type} {N : Nat}

/-- `BySmallestKey`: ties are broken by file number. -/
def bySmallestKey (icmp : K → K → Ordering) (f1 f2 : FileMetaData K) : Prop :=
  let r := icmp f1.smallest f2.smallest
  if r ≠ .eq then r = .lt else f1.number < f2.number

instance (icmp : K → K → Ordering) : DecidableRel (bySmallestKey icmp) := fun f1 f2 =>
  inferInstanceAs (Decidable (if icmp f1.smallest f2.smallest ≠ .eq then
    icmp f1.smallest f2.smallest = .lt else f1.number < f2.number))

theorem bySmallestKey_iff {icmp : K → K → Ordering} {f1 f2 : FileMetaData K} :
    bySmallestKey icmp f1 f2 ↔ icmp f1.smallest f2.smallest = .lt ∨
      icmp f1.smallest f2.smallest = .eq ∧ f1.number < f2.number := by
  unfold bySmallestKey
  cases icmp f1.smallest f2.smallest <;> simp

section Order

variable (icmp : K → K → Ordering) [Std.TransCmp icmp]

instance : IsStrictOrder (FileMetaData K) (bySmallestKey icmp) where
  irrefl f h := by
    rcases bySmallestKey_iff.mp h with h | ⟨_, h⟩
    · have hself : icmp f.smallest f.smallest = .eq := Std.ReflCmp.compare_self
      rw [hself] at h
      cases h
    · exact absurd h (Nat.lt_irrefl _)
  trans f g h hfg hgh := by
    rw [bySmallestKey_iff] at hfg hgh ⊢
    rcases hfg with hfg | ⟨hfg, hn⟩
    · left
      rcases hgh with hgh | ⟨hgh, _⟩
      · exact Std.TransCmp.lt_trans hfg hgh
      · exact Std.TransCmp.lt_of_lt_of_eq hfg hgh
    · rcases hgh with hgh | ⟨hgh, hn'⟩
      · exact Or.inl (Std.TransCmp.lt_of_eq_of_lt hfg hgh)
      · exact Or.inr ⟨Std.TransCmp.eq_trans hfg hgh, Nat.lt_trans hn hn'⟩

/-- Files that the order does not separate have the same number. -/
theorem number_eq_of_equivalent {f g : FileMetaData K}
    (h : Ordered.Equivalent (bySmallestKey icmp) f g) : f.number = g.number := by
  obtain ⟨hfg, hgf⟩ := h
  rw [bySmallestKey_iff] at hfg hgf
  have hswap : icmp g.smallest f.smallest = (icmp f.smallest g.smallest).swap :=
    Std.OrientedCmp.eq_swap
  rw [hswap] at hgf
  cases hcmp : icmp f.smallest g.smallest with
  | lt => exact absurd (Or.inl hcmp) hfg
  | gt => simp [hcmp] at hgf
  | eq =>
    simp only [hcmp, Ordering.swap_eq, true_and, reduceCtorEq, false_or] at hfg hgf
    omega

end Order

/-! ## The model -/

/-- The files of a version, level by level, and its compaction score. -/
structure Version (K : Type) (N : Nat) where
  files : Fin N → List (FileMetaData K) := fun _ => []
  compactionScore : Rat := -1
  compactionLevel : Int := -1

structure LevelState (icmp : K → K → Ordering) where
  deletedFiles : Finset Nat
  addedFiles : Ordered.SortedSet (bySmallestKey icmp)

structure Builder (icmp : K → K → Ordering) (N : Nat) where
  /-- `vset_->compact_pointer_`, which `apply` writes. -/
  compactPointer : Fin N → Option K
  base : Version K N
  levels : Fin N → LevelState icmp

/-- The conversion of the quotient to a 32-bit `int`, and the lower bound of 100. -/
def seeksFor (fileSize : Nat) : Int :=
  let seeks := ((fileSize / 16384 : Nat) : Int).bmod (2 ^ 32)
  if seeks < 100 then 100 else seeks

/-- The file object an edit's entry is turned into. -/
def FileMetaData.adopted (f : FileMetaData K) : FileMetaData K :=
  { f with allowedSeeks := seeksFor f.fileSize }

@[simp] theorem FileMetaData.adopted_number (f : FileMetaData K) :
    f.adopted.number = f.number := by
  unfold adopted
  rfl

@[simp] theorem FileMetaData.adopted_smallest (f : FileMetaData K) :
    f.adopted.smallest = f.smallest := by
  unfold adopted
  rfl

@[simp] theorem FileMetaData.adopted_largest (f : FileMetaData K) :
    f.adopted.largest = f.largest := by
  unfold adopted
  rfl

section Model

variable {icmp : K → K → Ordering}

namespace LevelState

def delete (st : LevelState icmp) (number : Nat) : LevelState icmp :=
  { st with deletedFiles := Insert.insert number st.deletedFiles }

def add [Std.TransCmp icmp] (st : LevelState icmp) (f : FileMetaData K) : LevelState icmp :=
  { deletedFiles := st.deletedFiles.erase f.number
    addedFiles := st.addedFiles.insert f.adopted }

/-- `MaybeAddFile`: a deleted file is skipped; above level 0 the file before must end below. -/
def maybeAddFile (st : LevelState icmp) (level : Fin N) (files : List (FileMetaData K))
    (f : FileMetaData K) : Option (List (FileMetaData K)) :=
  if f.number ∈ st.deletedFiles then some files
  else match files.getLast? with
    | some last =>
      if level.val > 0 then
        if icmp last.largest f.smallest = .lt then some (files ++ [f]) else none
      else some (files ++ [f])
    | none => some (files ++ [f])

/-- The loop of `SaveTo` over the added files of one level: before each of them the base files up
to its upper bound; the remaining base files last. -/
def saveLevel (st : LevelState icmp) (level : Fin N) :
    List (FileMetaData K) → List (FileMetaData K) → List (FileMetaData K) →
      Option (List (FileMetaData K))
  | [], baseIter, files => baseIter.foldlM (st.maybeAddFile level) files
  | addedFile :: addedFiles, baseIter, files => do
    let smaller := baseIter.takeWhile (fun b => !decide (bySmallestKey icmp addedFile b))
    let files ← smaller.foldlM (st.maybeAddFile level) files
    let files ← st.maybeAddFile level files addedFile
    let rest := baseIter.dropWhile (fun b => !decide (bySmallestKey icmp addedFile b))
    st.saveLevel level addedFiles rest files

end LevelState

namespace Builder

def new (icmp : K → K → Ordering) (compactPointer : Fin N → Option K) (base : Version K N) :
    Builder icmp N where
  compactPointer := compactPointer
  base := base
  levels _ := { deletedFiles := ∅, addedFiles := .empty }

def setCompactPointer (b : Builder icmp N) (p : Fin N × K) : Builder icmp N :=
  { b with compactPointer := Function.update b.compactPointer p.1 (some p.2) }

def deleteFile (b : Builder icmp N) (d : Fin N × Nat) : Builder icmp N :=
  { b with levels := Function.update b.levels d.1 ((b.levels d.1).delete d.2) }

def addFile [Std.TransCmp icmp] (b : Builder icmp N) (p : Fin N × FileMetaData K) :
    Builder icmp N :=
  { b with levels := Function.update b.levels p.1 ((b.levels p.1).add p.2) }

def apply [Std.TransCmp icmp] (b : Builder icmp N) (edit : VersionEdit K N) : Builder icmp N :=
  let b := edit.compactPointers.foldl setCompactPointer b
  let b := edit.deletedFiles.toList.foldl deleteFile b
  edit.newFiles.foldl addFile b

/-- `SaveTo` into an empty version, level after level. -/
def saveTo (b : Builder icmp N) : Option (Version K N) :=
  (List.finRange N).foldlM (fun v level => do
    let files ← (b.levels level).saveLevel level (b.levels level).addedFiles.toList
      (b.base.files level) (v.files level)
    pure { v with files := Function.update v.files level files }) {}

end Builder

/-! ## Saving -/

/-- Above level 0 each file of the list ends below the start of the next one. -/
def NoOverlap (icmp : K → K → Ordering) (level : Fin N) (files : List (FileMetaData K)) : Prop :=
  level.val > 0 → files.IsChain (fun f g => icmp f.largest g.smallest = .lt)

theorem noOverlap_nil (level : Fin N) : NoOverlap icmp level [] := fun _ => List.IsChain.nil

theorem NoOverlap.left {level : Fin N} {l₁ l₂ : List (FileMetaData K)}
    (h : NoOverlap icmp level (l₁ ++ l₂)) : NoOverlap icmp level l₁ :=
  fun hl => (h hl).left_of_append

namespace LevelState

/-- The files of one level in the order in which `saveTo` meets them. -/
def visited (st : LevelState icmp) (base : List (FileMetaData K)) : List (FileMetaData K) :=
  Ordered.upperMerge (bySmallestKey icmp) st.addedFiles.toList base

def kept (st : LevelState icmp) (l : List (FileMetaData K)) : List (FileMetaData K) :=
  l.filter (fun f => f.number ∉ st.deletedFiles)

/-- The files that are not deleted, in the order in which `saveTo` meets them. -/
def survivors (st : LevelState icmp) (base : List (FileMetaData K)) : List (FileMetaData K) :=
  st.kept (st.visited base)

theorem mem_survivors {st : LevelState icmp} {base : List (FileMetaData K)}
    {f : FileMetaData K} :
    f ∈ st.survivors base ↔
      (f ∈ st.addedFiles.toList ∨ f ∈ base) ∧ f.number ∉ st.deletedFiles := by
  unfold survivors kept visited
  rw [List.mem_filter, Ordered.mem_upperMerge, decide_eq_true_iff]

theorem maybeAddFile_deleted {st : LevelState icmp} (level : Fin N)
    (files : List (FileMetaData K)) {f : FileMetaData K} (h : f.number ∈ st.deletedFiles) :
    st.maybeAddFile level files f = some files := by
  unfold maybeAddFile
  rw [if_pos h]

/-- A kept file is appended exactly when it does not overlap the files before it. -/
theorem maybeAddFile_kept {st : LevelState icmp} {level : Fin N}
    {files : List (FileMetaData K)} {f : FileMetaData K} (h : f.number ∉ st.deletedFiles)
    (hfiles : NoOverlap icmp level files) (v : List (FileMetaData K)) :
    st.maybeAddFile level files f = some v ↔
      NoOverlap icmp level (files ++ [f]) ∧ v = files ++ [f] := by
  have hchain : NoOverlap icmp level (files ++ [f]) ↔
      (level.val > 0 → ∀ last ∈ files.getLast?, icmp last.largest f.smallest = .lt) := by
    unfold NoOverlap
    constructor
    · intro hc hl last hlast
      exact (List.isChain_append.mp (hc hl)).2.2 last hlast f rfl
    · intro hc hl
      refine List.isChain_append.mpr ⟨hfiles hl, List.isChain_singleton _, ?_⟩
      intro last hlast g hg
      cases hg
      exact hc hl last hlast
  unfold maybeAddFile
  rw [if_neg h, hchain]
  cases files.getLast? with
  | none => simp [eq_comm]
  | some last =>
    by_cases hl : level.val > 0
    · by_cases hlt : icmp last.largest f.smallest = .lt
      · simp [hl, hlt, eq_comm]
      · simp [hl, hlt]
    · simp [hl, eq_comm]

/-- **What a run of `maybeAddFile` does**: the kept files are appended, provided that the whole
list then does not overlap. -/
theorem foldlM_maybeAddFile {st : LevelState icmp} {level : Fin N} :
    ∀ (l : List (FileMetaData K)) {files : List (FileMetaData K)} (v : List (FileMetaData K)),
      NoOverlap icmp level files →
      (l.foldlM (st.maybeAddFile level) files = some v ↔
        NoOverlap icmp level (files ++ st.kept l) ∧ v = files ++ st.kept l)
  | [], files, v, hfiles => by
    simp [kept, hfiles, eq_comm]
  | f :: l, files, v, hfiles => by
    by_cases hdel : f.number ∈ st.deletedFiles
    · have hkept : st.kept (f :: l) = st.kept l := List.filter_cons_of_neg (by simpa using hdel)
      rw [List.foldlM_cons, maybeAddFile_deleted level files hdel, hkept]
      exact foldlM_maybeAddFile l v hfiles
    · have hkept : files ++ st.kept (f :: l) = (files ++ [f]) ++ st.kept l := by
        rw [List.append_assoc]
        exact congrArg (files ++ ·) (List.filter_cons_of_pos (by simpa using hdel))
      rw [List.foldlM_cons, hkept]
      constructor
      · intro h
        cases hstep : st.maybeAddFile level files f with
        | none => rw [hstep] at h; cases h
        | some w =>
          obtain ⟨hw, rfl⟩ := (maybeAddFile_kept hdel hfiles w).mp hstep
          rw [hstep] at h
          exact (foldlM_maybeAddFile l v hw).mp h
      · rintro ⟨hall, rfl⟩
        rw [(maybeAddFile_kept hdel hfiles _).mpr ⟨hall.left, rfl⟩]
        exact (foldlM_maybeAddFile l _ hall.left).mpr ⟨hall, rfl⟩

theorem saveLevel_eq_foldlM (st : LevelState icmp) (level : Fin N) :
    ∀ added base files : List (FileMetaData K),
      st.saveLevel level added base files =
        (Ordered.upperMerge (bySmallestKey icmp) added base).foldlM (st.maybeAddFile level) files
  | [], _, _ => rfl
  | f :: added, base, files => by
    unfold saveLevel Ordered.upperMerge
    rw [List.foldlM_append]
    refine bind_congr fun smaller => ?_
    rw [List.foldlM_cons]
    exact bind_congr fun files => saveLevel_eq_foldlM st level added _ files

/-- **Saving one level**: it succeeds exactly when the survivors do not overlap. -/
theorem saveLevel_eq_some {st : LevelState icmp} {level : Fin N}
    {base v : List (FileMetaData K)} :
    st.saveLevel level st.addedFiles.toList base [] = some v ↔
      NoOverlap icmp level (st.survivors base) ∧ v = st.survivors base := by
  rw [saveLevel_eq_foldlM]
  exact foldlM_maybeAddFile _ v (noOverlap_nil level)

end LevelState

namespace Builder

/-- The files of a level that the builder would save. -/
def survivors (b : Builder icmp N) (level : Fin N) : List (FileMetaData K) :=
  (b.levels level).survivors (b.base.files level)

/-- Saving a level and then the levels `ls` saves `level :: ls`. -/
theorem files_cons {S : Type} {level : Fin N} {ls : List (Fin N)} (hnot : level ∉ ls)
    (saved files : Fin N → S) :
    (fun l => if l ∈ ls then saved l else Function.update files level (saved level) l) =
      fun l => if l ∈ level :: ls then saved l else files l := by
  funext l
  by_cases hl : l = level
  · subst hl
    simp [hnot]
  · simp [hl]

theorem saveLevels_eq_some {b : Builder icmp N} :
    ∀ {ls : List (Fin N)} {v w : Version K N}, ls.Nodup → (∀ level ∈ ls, v.files level = []) →
      (ls.foldlM (fun v level => do
          let files ← (b.levels level).saveLevel level (b.levels level).addedFiles.toList
            (b.base.files level) (v.files level)
          pure { v with files := Function.update v.files level files }) v = some w ↔
        (∀ level ∈ ls, NoOverlap icmp level (b.survivors level)) ∧
          w = { v with files := fun level =>
            if level ∈ ls then b.survivors level else v.files level })
  | [], v, w, _, _ => by
    rw [List.foldlM_nil]
    constructor
    · intro h
      cases h
      exact ⟨fun _ hl => absurd hl List.not_mem_nil, rfl⟩
    · rintro ⟨-, rfl⟩
      rfl
  | level :: ls, v, w, hnodup, hv => by
    obtain ⟨hnot, hnodup⟩ := List.nodup_cons.mp hnodup
    have hsave : ∀ files, (b.levels level).saveLevel level (b.levels level).addedFiles.toList
        (b.base.files level) [] = some files ↔
          NoOverlap icmp level (b.survivors level) ∧ files = b.survivors level :=
      fun _ => LevelState.saveLevel_eq_some
    have hfresh : ∀ l ∈ ls, (Function.update v.files level (b.survivors level)) l = [] := by
      intro l hl
      rw [Function.update_of_ne (by rintro rfl; exact hnot hl)]
      exact hv l (List.mem_cons_of_mem level hl)
    have hfiles := files_cons hnot b.survivors v.files
    rw [List.foldlM_cons, hv level List.mem_cons_self]
    constructor
    · intro h
      cases hcase : (b.levels level).saveLevel level (b.levels level).addedFiles.toList
          (b.base.files level) [] with
      | none => rw [hcase] at h; cases h
      | some files =>
        obtain ⟨hlevel, rfl⟩ := (hsave files).mp hcase
        rw [hcase] at h
        obtain ⟨hrest, rfl⟩ := (saveLevels_eq_some hnodup hfresh).mp h
        refine ⟨?_, ?_⟩
        · intro l hl
          rcases List.mem_cons.mp hl with rfl | hl
          · exact hlevel
          · exact hrest l hl
        · exact congrArg (fun files => { v with files := files }) hfiles
    · rintro ⟨hall, rfl⟩
      rw [(hsave _).mpr ⟨hall level List.mem_cons_self, rfl⟩]
      refine (saveLevels_eq_some hnodup hfresh).mpr
        ⟨fun l hl => hall l (List.mem_cons_of_mem level hl), ?_⟩
      exact congrArg (fun files => { v with files := files }) hfiles.symm

/-- **`saveTo`**: it passes its assertions exactly when the survivors of no level overlap, and it
saves the survivors. -/
theorem saveTo_eq_some {b : Builder icmp N} {v : Version K N} :
    b.saveTo = some v ↔
      (∀ level, NoOverlap icmp level (b.survivors level)) ∧ v = { files := b.survivors } := by
  unfold saveTo
  rw [saveLevels_eq_some (List.nodup_finRange N) (fun _ _ => rfl)]
  simp [List.mem_finRange]

end Builder

/-! ## Applying an edit -/

section Apply

/-- Updates of single levels act on one level as the updates made there. -/
theorem foldl_update {S X : Type} (step : S → X → S) (level : Fin N) :
    ∀ (l : List (Fin N × X)) (levels : Fin N → S),
      l.foldl (fun s p => Function.update s p.1 (step (s p.1) p.2)) levels level =
        ((l.filter (fun p => p.1 == level)).map Prod.snd).foldl step (levels level)
  | [], _ => rfl
  | p :: l, levels => by
    rw [List.foldl_cons, foldl_update step level l]
    by_cases hp : p.1 = level
    · subst hp
      simp
    · simp [hp, Function.update_of_ne (Ne.symm hp)]

/-- Of the values that are set at a level the last one stays. -/
theorem foldl_update_some (level : Fin N) (l : List (Fin N × K)) (pointer : Fin N → Option K) :
    l.foldl (fun cp (p : Fin N × K) => Function.update cp p.1 (some p.2)) pointer level =
      (((l.filter (fun p => p.1 == level)).map Prod.snd).getLast?).or (pointer level) := by
  rw [foldl_update (fun _ key => some key) level l pointer]
  generalize (l.filter (fun p => p.1 == level)).map Prod.snd = keys
  induction keys using List.reverseRecOn with
  | nil => rfl
  | append_singleton keys key _ =>
    rw [List.foldl_append, List.getLast?_concat]
    rfl

namespace LevelState

theorem mem_deletedFiles_foldl_delete (n : Nat) :
    ∀ (ds : List Nat) (st : LevelState icmp),
      n ∈ (ds.foldl delete st).deletedFiles ↔ n ∈ st.deletedFiles ∨ n ∈ ds
  | [], st => by simp
  | d :: ds, st => by
    rw [List.foldl_cons, mem_deletedFiles_foldl_delete n ds]
    simp only [delete, Finset.mem_insert, List.mem_cons]
    grind

theorem addedFiles_foldl_delete (ds : List Nat) (st : LevelState icmp) :
    (ds.foldl delete st).addedFiles = st.addedFiles := by
  induction ds generalizing st with
  | nil => rfl
  | cons d ds ih => exact ih _

end LevelState

namespace Builder

theorem foldl_setCompactPointer (l : List (Fin N × K)) (b : Builder icmp N) :
    l.foldl setCompactPointer b = { b with
      compactPointer := l.foldl (fun cp (p : Fin N × K) => Function.update cp p.1 (some p.2))
        b.compactPointer } := by
  induction l generalizing b with
  | nil => rfl
  | cons p l ih => exact ih _

theorem foldl_deleteFile (l : List (Fin N × Nat)) (b : Builder icmp N) :
    l.foldl deleteFile b = { b with
      levels := l.foldl (fun s p => Function.update s p.1 ((s p.1).delete p.2)) b.levels } := by
  induction l generalizing b with
  | nil => rfl
  | cons p l ih => exact ih _

/-- No added file shares its number with a base file. -/
def Apart (b : Builder icmp N) (level : Fin N) : Prop :=
  ∀ a ∈ (b.levels level).addedFiles.toList, ∀ f ∈ b.base.files level, a.number ≠ f.number

theorem new_apart (cp : Fin N → Option K) (v : Version K N) (level : Fin N) :
    (new icmp cp v).Apart level :=
  fun _ ha => absurd ha List.not_mem_nil

theorem new_survivors (cp : Fin N → Option K) (v : Version K N) (level : Fin N) :
    (new icmp cp v).survivors level = v.files level :=
  List.filter_eq_self.mpr fun _ _ => rfl

end Builder

variable [Std.TransCmp icmp]

namespace LevelState

theorem mem_deletedFiles_foldl_add (n : Nat) :
    ∀ (fs : List (FileMetaData K)) (st : LevelState icmp),
      n ∈ (fs.foldl add st).deletedFiles ↔ n ∈ st.deletedFiles ∧ n ∉ fs.map FileMetaData.number
  | [], st => by simp
  | f :: fs, st => by
    rw [List.foldl_cons, mem_deletedFiles_foldl_add n fs]
    simp only [add, Finset.mem_erase, List.map_cons, List.mem_cons]
    grind

theorem mem_of_mem_foldl_add (f : FileMetaData K) :
    ∀ (fs : List (FileMetaData K)) (st : LevelState icmp),
      f ∈ (fs.foldl add st).addedFiles.toList →
        f ∈ st.addedFiles.toList ∨ ∃ g ∈ fs, f = g.adopted
  | [], _, h => Or.inl h
  | g :: fs, st, h => by
    rcases mem_of_mem_foldl_add f fs (st.add g) h with h | ⟨g', hg', rfl⟩
    · rcases Ordered.mem_of_mem_insert h with rfl | h
      · exact Or.inr ⟨g, List.mem_cons_self, rfl⟩
      · exact Or.inl h
    · exact Or.inr ⟨g', List.mem_cons_of_mem g hg', rfl⟩

/-- Files whose numbers are new at the level are all inserted. -/
theorem mem_addedFiles_foldl_add (f : FileMetaData K) :
    ∀ (fs : List (FileMetaData K)) (st : LevelState icmp),
      (fs.map FileMetaData.number).Nodup →
      (∀ g ∈ fs, ∀ a ∈ st.addedFiles.toList, a.number ≠ g.number) →
      (f ∈ (fs.foldl add st).addedFiles.toList ↔
        f ∈ st.addedFiles.toList ∨ ∃ g ∈ fs, f = g.adopted)
  | [], st, _, _ => by simp
  | g :: fs, st, hnodup, hnew => by
    obtain ⟨hg, hnodup⟩ := List.nodup_cons.mp hnodup
    have hins : ∀ x, x ∈ (st.add g).addedFiles.toList ↔
        x = g.adopted ∨ x ∈ st.addedFiles.toList := by
      intro x
      refine Ordered.mem_insert fun a ha heq => ?_
      have hnumber := number_eq_of_equivalent icmp heq
      rw [FileMetaData.adopted_number] at hnumber
      exact hnew g List.mem_cons_self a ha hnumber.symm
    have hnew' : ∀ h ∈ fs, ∀ a ∈ (st.add g).addedFiles.toList, a.number ≠ h.number := by
      intro h hh a ha
      rcases (hins a).mp ha with rfl | ha
      · intro heq
        rw [FileMetaData.adopted_number] at heq
        exact hg (List.mem_map.mpr ⟨h, hh, heq.symm⟩)
      · exact hnew h (List.mem_cons_of_mem g hh) a ha
    rw [List.foldl_cons, mem_addedFiles_foldl_add f fs _ hnodup hnew', hins]
    simp only [List.mem_cons, exists_eq_or_imp]
    grind

end LevelState

namespace Builder

theorem foldl_addFile (l : List (Fin N × FileMetaData K)) (b : Builder icmp N) :
    l.foldl addFile b = { b with
      levels := l.foldl (fun s (p : Fin N × FileMetaData K) =>
        Function.update s p.1 ((s p.1).add p.2)) b.levels } := by
  induction l generalizing b with
  | nil => rfl
  | cons p l ih => exact ih _

@[simp] theorem apply_base (b : Builder icmp N) (edit : VersionEdit K N) :
    (b.apply edit).base = b.base := by
  unfold apply
  rw [foldl_addFile, foldl_deleteFile, foldl_setCompactPointer]

/-- The compaction pointers after an edit depend on those before it only. -/
theorem apply_compactPointer (b : Builder icmp N) (edit : VersionEdit K N) :
    (b.apply edit).compactPointer =
      edit.compactPointers.foldl (fun cp (p : Fin N × K) => Function.update cp p.1 (some p.2))
        b.compactPointer := by
  unfold apply
  rw [foldl_addFile, foldl_deleteFile, foldl_setCompactPointer]

theorem apply_levels (b : Builder icmp N) (edit : VersionEdit K N) (level : Fin N) :
    (b.apply edit).levels level =
      (edit.newAt level).foldl LevelState.add
        ((edit.deletedAt level).foldl LevelState.delete (b.levels level)) := by
  unfold apply
  rw [foldl_addFile, foldl_deleteFile, foldl_setCompactPointer]
  dsimp only
  rw [foldl_update LevelState.add, foldl_update LevelState.delete]
  rfl

/-- Every file that is saved was in the base or is added by the edit. -/
theorem mem_of_mem_survivors_apply {cp : Fin N → Option K} {v : Version K N}
    {edit : VersionEdit K N} {level : Fin N} {f : FileMetaData K}
    (h : f ∈ ((new icmp cp v).apply edit).survivors level) :
    f ∈ v.files level ∨ ∃ g ∈ edit.newAt level, f = g.adopted := by
  unfold survivors at h
  obtain ⟨h | h, -⟩ := LevelState.mem_survivors.mp h
  · rw [apply_levels] at h
    rcases LevelState.mem_of_mem_foldl_add f _ _ h with h | h
    · rw [LevelState.addedFiles_foldl_delete] at h
      exact absurd h List.not_mem_nil
    · exact Or.inr h
  · rw [apply_base] at h
    exact Or.inl h

/-! ### Levels whose file numbers are used once -/

/-- The numbers of `fs` are distinct and not those of files the builder has at the level. -/
def Fresh (b : Builder icmp N) (level : Fin N) (fs : List (FileMetaData K)) : Prop :=
  (fs.map FileMetaData.number).Nodup ∧
    ∀ g ∈ fs, ∀ f, f ∈ (b.levels level).addedFiles.toList ∨ f ∈ b.base.files level →
      f.number ≠ g.number

theorem mem_addedFiles_apply {b : Builder icmp N} {edit : VersionEdit K N} {level : Fin N}
    (hfresh : b.Fresh level (edit.newAt level)) (f : FileMetaData K) :
    f ∈ ((b.apply edit).levels level).addedFiles.toList ↔
      f ∈ (b.levels level).addedFiles.toList ∨ ∃ g ∈ edit.newAt level, f = g.adopted := by
  rw [apply_levels, LevelState.mem_addedFiles_foldl_add f _ _ hfresh.1,
    LevelState.addedFiles_foldl_delete]
  intro g hg a ha
  rw [LevelState.addedFiles_foldl_delete] at ha
  exact hfresh.2 g hg a (Or.inl ha)

theorem mem_deletedFiles_apply (b : Builder icmp N) (edit : VersionEdit K N) (level : Fin N)
    (n : Nat) :
    n ∈ ((b.apply edit).levels level).deletedFiles ↔
      (n ∈ (b.levels level).deletedFiles ∨ n ∈ edit.deletedAt level) ∧
        n ∉ (edit.newAt level).map FileMetaData.number := by
  rw [apply_levels, LevelState.mem_deletedFiles_foldl_add,
    LevelState.mem_deletedFiles_foldl_delete]

theorem Apart.apply {b : Builder icmp N} {edit : VersionEdit K N} {level : Fin N}
    (h : b.Apart level) (hfresh : b.Fresh level (edit.newAt level)) :
    (b.apply edit).Apart level := by
  intro a ha f hf
  rw [apply_base] at hf
  rcases (mem_addedFiles_apply hfresh a).mp ha with ha | ⟨g, hg, rfl⟩
  · exact h a ha f hf
  · rw [FileMetaData.adopted_number]
    exact (hfresh.2 g hg f (Or.inr hf)).symm

/-- **One more edit**: it removes the survivors it deletes and contributes the files it adds. -/
theorem mem_survivors_apply {b : Builder icmp N} {edit : VersionEdit K N} {level : Fin N}
    (hfresh : b.Fresh level (edit.newAt level)) (f : FileMetaData K) :
    f ∈ (b.apply edit).survivors level ↔
      (f ∈ b.survivors level ∧ f.number ∉ edit.deletedAt level) ∨
        ∃ g ∈ edit.newAt level, f = g.adopted := by
  unfold survivors
  rw [LevelState.mem_survivors, LevelState.mem_survivors, mem_addedFiles_apply hfresh,
    mem_deletedFiles_apply, apply_base]
  constructor
  · rintro ⟨hf, hdel⟩
    by_cases hnew : f.number ∈ (edit.newAt level).map FileMetaData.number
    · right
      rcases hf with (hf | hf) | hf
      · obtain ⟨g, hg, hnumber⟩ := List.mem_map.mp hnew
        exact absurd hnumber.symm (hfresh.2 g hg f (Or.inl hf))
      · exact hf
      · obtain ⟨g, hg, hnumber⟩ := List.mem_map.mp hnew
        exact absurd hnumber.symm (hfresh.2 g hg f (Or.inr hf))
    · rcases hf with (hf | ⟨g, hg, rfl⟩) | hf
      · exact Or.inl ⟨⟨Or.inl hf, fun h => hdel ⟨Or.inl h, hnew⟩⟩, fun h => hdel ⟨Or.inr h, hnew⟩⟩
      · exact Or.inr ⟨g, hg, rfl⟩
      · exact Or.inl ⟨⟨Or.inr hf, fun h => hdel ⟨Or.inl h, hnew⟩⟩, fun h => hdel ⟨Or.inr h, hnew⟩⟩
  · rintro (⟨⟨hf, hdel⟩, hdel'⟩ | ⟨g, hg, rfl⟩)
    · refine ⟨?_, fun h => h.1.elim hdel hdel'⟩
      rcases hf with hf | hf
      · exact Or.inl (Or.inl hf)
      · exact Or.inr hf
    · refine ⟨Or.inl (Or.inr ⟨g, hg, rfl⟩), fun h => h.2 ?_⟩
      exact List.mem_map.mpr ⟨g, hg, (FileMetaData.adopted_number g).symm⟩

theorem survivors_pairwise {b : Builder icmp N} {level : Fin N} (h : b.Apart level)
    (hbase : (b.base.files level).Pairwise (bySmallestKey icmp)) :
    (b.survivors level).Pairwise (bySmallestKey icmp) := by
  refine List.Pairwise.filter _ ?_
  refine Ordered.upperMerge_pairwise (b.levels level).addedFiles.sorted hbase ?_
  intro a ha f hf heq
  exact h a ha f hf (number_eq_of_equivalent icmp heq)

end Builder

end Apply

end Model

end LevelDB
