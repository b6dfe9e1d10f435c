import LevelDB.Lib.RefCounted
import LevelDB.VersionSet.Compose

/-!
# The builder with its file objects

`Builder::Apply` makes a `FileMetaData` object for every added file, `MaybeAddFile` takes a
reference for the version that is saved, and the destructor gives up those of the builder. Here the
builder works on pointers, and the objects live in a heap with their counts; reading or counting a
deleted object is `none`.

* `Builder.plain`, `plain_apply` — without its heap this builder is `LevelDB.Builder`;
* `Applied` — what the edits have made, kept by every `addFile` (`Applied.addFile`);
* `saveTo_eq`, `unrefAll_eq` — what `SaveTo` and the destructor do to the heap.
-/

set_option autoImplicit false

namespace LevelDB

namespace Counted

variable {K : Type} {N : Nat}

/-- `FileMetaData*`: the address, and the fields of the object, none of which changes. -/
structure FilePtr (K : Type) where
  addr : Nat
  file : FileMetaData K

/-- The objects behind the pointers; `next` is a free address, and `deleted` lists the objects that
have been deleted, in order. -/
structure FileHeap (K : Type) where
  objects : RefCounted.Heap (FileMetaData K)
  next : Nat
  deleted : List Nat := []

/-- `BySmallestKey` looks at the objects. -/
def bySmallestKey (icmp : K → K → Ordering) (p q : FilePtr K) : Prop :=
  LevelDB.bySmallestKey icmp p.file q.file

instance (icmp : K → K → Ordering) : DecidableRel (bySmallestKey icmp) := fun p q =>
  inferInstanceAs (Decidable (LevelDB.bySmallestKey icmp p.file q.file))

instance (icmp : K → K → Ordering) [Std.TransCmp icmp] :
    IsStrictOrder (FilePtr K) (bySmallestKey icmp) where
  irrefl p := irrefl_of (LevelDB.bySmallestKey icmp) p.file
  trans p q r := trans_of (LevelDB.bySmallestKey icmp) (a := p.file) (b := q.file) (c := r.file)

structure Version (K : Type) (N : Nat) where
  files : Fin N → List (FilePtr K) := fun _ => []
  refs : Nat := 0

structure LevelState (icmp : K → K → Ordering) where
  deletedFiles : Finset Nat
  addedFiles : Ordered.SortedSet (bySmallestKey icmp)

structure Builder (icmp : K → K → Ordering) (N : Nat) where
  compactPointer : Fin N → Option K
  base : Version K N
  levels : Fin N → LevelState icmp

section Model

variable {icmp : K → K → Ordering}

namespace FileHeap

variable (heap : FileHeap K)

/-- `f->refs`, `none` once the object is deleted. -/
def refs (p : FilePtr K) : Option Nat := (heap.objects p.addr).map RefCounted.Cell.refs

/-- `new FileMetaData(f)` and `refs = 1`. -/
def new (f : FileMetaData K) : FilePtr K × FileHeap K :=
  ({ addr := heap.next, file := f },
    { heap with objects := heap.objects.alloc heap.next f, next := heap.next + 1 })

/-- `f->refs++`. -/
def ref (p : FilePtr K) : Option (FileHeap K) :=
  (heap.objects.ref p.addr).map fun objects => { heap with objects }

/-- `f->refs--`, and `delete f` if that was the last reference. -/
def unref (p : FilePtr K) : Option (FileHeap K) :=
  (heap.objects.unref p.addr).map fun objects => { heap with
    objects
    deleted := if (objects p.addr).isSome then heap.deleted else heap.deleted ++ [p.addr] }

end FileHeap

namespace LevelState

def delete (st : LevelState icmp) (number : Nat) : LevelState icmp :=
  { st with deletedFiles := Insert.insert number st.deletedFiles }

def add [Std.TransCmp icmp] (st : LevelState icmp) (f : FilePtr K) : LevelState icmp :=
  { deletedFiles := st.deletedFiles.erase f.file.number
    addedFiles := st.addedFiles.insert f }

/-- `f->refs++` and `files->push_back(f)`. -/
def push (s : FileHeap K × List (FilePtr K)) (f : FilePtr K) :
    Option (FileHeap K × List (FilePtr K)) :=
  (s.1.ref f).map fun heap => (heap, s.2 ++ [f])

/-- `MaybeAddFile`. -/
def maybeAddFile (st : LevelState icmp) (level : Fin N) (s : FileHeap K × List (FilePtr K))
    (f : FilePtr K) : Option (FileHeap K × List (FilePtr K)) :=
  if f.file.number ∈ st.deletedFiles then some s
  else match s.2.getLast? with
    | some last =>
      if level.val > 0 then
        if icmp last.file.largest f.file.smallest = .lt then push s f else none
      else push s f
    | none => push s f

/-- The loop of `SaveTo` over the added files of one level. -/
def saveLevel (st : LevelState icmp) (level : Fin N) :
    List (FilePtr K) → List (FilePtr K) → FileHeap K × List (FilePtr K) →
      Option (FileHeap K × List (FilePtr K))
  | [], baseIter, s => baseIter.foldlM (st.maybeAddFile level) s
  | addedFile :: addedFiles, baseIter, s => do
    let smaller := baseIter.takeWhile (fun b => !decide (bySmallestKey icmp addedFile b))
    let s ← smaller.foldlM (st.maybeAddFile level) s
    let s ← st.maybeAddFile level s addedFile
    let rest := baseIter.dropWhile (fun b => !decide (bySmallestKey icmp addedFile b))
    st.saveLevel level addedFiles rest s

end LevelState

namespace Builder

/-- The constructor takes a reference to the base version. -/
def new (icmp : K → K → Ordering) (compactPointer : Fin N → Option K) (base : Version K N) :
    Builder icmp N where
  compactPointer := compactPointer
  base := { base with refs := base.refs + 1 }
  levels _ := { deletedFiles := ∅, addedFiles := .empty }

def setCompactPointer (b : Builder icmp N) (p : Fin N × K) : Builder icmp N :=
  { b with compactPointer := Function.update b.compactPointer p.1 (some p.2) }

def deleteFile (b : Builder icmp N) (d : Fin N × Nat) : Builder icmp N :=
  { b with levels := Function.update b.levels d.1 ((b.levels d.1).delete d.2) }

def addFile [Std.TransCmp icmp] (s : FileHeap K × Builder icmp N) (p : Fin N × FileMetaData K) :
    FileHeap K × Builder icmp N :=
  let f := s.1.new p.2.adopted
  (f.2, { s.2 with levels := Function.update s.2.levels p.1 ((s.2.levels p.1).add f.1) })

def apply [Std.TransCmp icmp] (s : FileHeap K × Builder icmp N) (edit : VersionEdit K N) :
    FileHeap K × Builder icmp N :=
  let b := edit.compactPointers.foldl setCompactPointer s.2
  let b := edit.deletedFiles.toList.foldl deleteFile b
  edit.newFiles.foldl addFile (s.1, b)

/-- One pass of the loop of `SaveTo`. -/
def saveStep (b : Builder icmp N) (s : FileHeap K × Version K N) (level : Fin N) :
    Option (FileHeap K × Version K N) :=
  ((b.levels level).saveLevel level (b.levels level).addedFiles.toList (b.base.files level)
    (s.1, s.2.files level)).map fun saved =>
      (saved.1, { s.2 with files := Function.update s.2.files level saved.2 })

/-- `SaveTo` into an empty version. -/
def saveTo (b : Builder icmp N) (heap : FileHeap K) : Option (FileHeap K × Version K N) :=
  (List.finRange N).foldlM b.saveStep (heap, {})

/-- The loops of the destructor. -/
def unrefAdded (b : Builder icmp N) (heap : FileHeap K) : Option (FileHeap K) :=
  (List.finRange N).foldlM (fun heap level =>
    (b.levels level).addedFiles.toList.foldlM FileHeap.unref heap) heap

/-- `~Builder`; `unrefVersion` is `Version::Unref`. -/
def destroy (unrefVersion : Version K N → FileHeap K → Version K N × FileHeap K)
    (b : Builder icmp N) (heap : FileHeap K) : Option (Version K N × FileHeap K) :=
  (b.unrefAdded heap).map fun heap => unrefVersion b.base heap

end Builder

variable (icmp) in
/-- A builder on `base` applies the edits, saves the version and is destroyed: the base version, the
saved one and the heap. -/
def build [Std.TransCmp icmp] (unrefVersion : Version K N → FileHeap K → Version K N × FileHeap K)
    (compactPointer : Fin N → Option K) (base : Version K N) (edits : List (VersionEdit K N))
    (heap : FileHeap K) : Option (Version K N × Version K N × FileHeap K) := do
  let s := edits.foldl Builder.apply (heap, Builder.new icmp compactPointer base)
  let saved ← s.2.saveTo s.1
  let left ← s.2.destroy unrefVersion saved.1
  pure (left.1, saved.2, left.2)

/-! ## Without the heap -/

def LevelState.plain (st : LevelState icmp) : LevelDB.LevelState icmp where
  deletedFiles := st.deletedFiles
  addedFiles := ⟨st.addedFiles.toList.map FilePtr.file, List.pairwise_map.mpr st.addedFiles.sorted⟩

def Version.plain (v : Version K N) : LevelDB.Version K N where
  files level := (v.files level).map FilePtr.file

def Builder.plain (b : Builder icmp N) : LevelDB.Builder icmp N where
  compactPointer := b.compactPointer
  base := b.base.plain
  levels level := (b.levels level).plain

theorem Builder.plain_update (b : Builder icmp N) (level : Fin N) (st : LevelState icmp) :
    ({ b with levels := Function.update b.levels level st } : Builder icmp N).plain =
      { b.plain with levels := Function.update b.plain.levels level st.plain } := by
  have hlevels : (fun l => (Function.update b.levels level st l).plain) =
      Function.update b.plain.levels level st.plain := by
    funext l
    by_cases hl : l = level
    · subst hl
      rw [Function.update_self, Function.update_self]
    · rw [Function.update_of_ne hl, Function.update_of_ne hl]
      rfl
  unfold plain
  rw [hlevels]
  rfl

variable [Std.TransCmp icmp]

theorem LevelState.plain_add (st : LevelState icmp) (addr : Nat) (f : FileMetaData K) :
    (st.add ⟨addr, f.adopted⟩).plain = st.plain.add f := by
  have hinsert : (Ordered.insert (bySmallestKey icmp) ⟨addr, f.adopted⟩
      st.addedFiles.toList).map FilePtr.file =
        Ordered.insert (LevelDB.bySmallestKey icmp) f.adopted
          (st.addedFiles.toList.map FilePtr.file) :=
    Ordered.map_insert FilePtr.file (fun _ _ => Iff.rfl) ⟨addr, f.adopted⟩ st.addedFiles.toList
  unfold plain LevelDB.LevelState.add add
  rw [LevelDB.LevelState.mk.injEq, FileMetaData.adopted_number]
  exact ⟨rfl, Ordered.SortedSet.ext hinsert⟩

namespace Builder

omit [Std.TransCmp icmp] in
theorem plain_deleteFile (b : Builder icmp N) (d : Fin N × Nat) :
    (b.deleteFile d).plain = b.plain.deleteFile d :=
  plain_update b d.1 ((b.levels d.1).delete d.2)

theorem plain_addFile (s : FileHeap K × Builder icmp N) (p : Fin N × FileMetaData K) :
    (addFile s p).2.plain = s.2.plain.addFile p := by
  unfold addFile LevelDB.Builder.addFile
  refine (plain_update s.2 p.1 _).trans ?_
  rw [show ((s.2.levels p.1).add (s.1.new p.2.adopted).1).plain =
    (s.2.levels p.1).plain.add p.2 from LevelState.plain_add _ _ _]
  rfl

/-- **Without its heap the counted builder is the builder.** -/
theorem plain_apply (s : FileHeap K × Builder icmp N) (edit : VersionEdit K N) :
    (apply s edit).2.plain = s.2.plain.apply edit := by
  unfold apply LevelDB.Builder.apply
  have hpointers : ∀ (l : List (Fin N × K)) (b : Builder icmp N),
      (l.foldl setCompactPointer b).plain = l.foldl LevelDB.Builder.setCompactPointer b.plain :=
    fun l b => (List.foldl_hom plain fun _ _ => rfl).symm
  have hdeleted : ∀ (l : List (Fin N × Nat)) (b : Builder icmp N),
      (l.foldl deleteFile b).plain = l.foldl LevelDB.Builder.deleteFile b.plain :=
    fun l b => (List.foldl_hom plain fun b d => (plain_deleteFile b d).symm).symm
  have hadded : ∀ (l : List (Fin N × FileMetaData K)) (s : FileHeap K × Builder icmp N),
      (l.foldl addFile s).2.plain = l.foldl LevelDB.Builder.addFile s.2.plain :=
    fun l s => (List.foldl_hom (fun s : FileHeap K × Builder icmp N => s.2.plain)
      fun s p => (plain_addFile s p).symm).symm
  dsimp only
  rw [hadded, hdeleted, hpointers]

end Builder

/-! ## The edits -/

/-- The pointers in the added sets, level after level. -/
def Builder.addedPtrs (b : Builder icmp N) : List (FilePtr K) :=
  (List.finRange N).flatMap fun level => (b.levels level).addedFiles.toList

/-- The base version and the added sets stay. -/
structure Builder.SameFiles (b b' : Builder icmp N) : Prop where
  base : b'.base = b.base
  added : ∀ level, (b'.levels level).addedFiles = (b.levels level).addedFiles

namespace Builder

omit [Std.TransCmp icmp] in
theorem sameFiles_setCompactPointer (b : Builder icmp N) (p : Fin N × K) :
    b.SameFiles (b.setCompactPointer p) := ⟨rfl, fun _ => rfl⟩

omit [Std.TransCmp icmp] in
theorem sameFiles_deleteFile (b : Builder icmp N) (d : Fin N × Nat) :
    b.SameFiles (b.deleteFile d) := by
  refine ⟨rfl, fun level => ?_⟩
  show (Function.update b.levels d.1 ((b.levels d.1).delete d.2) level).addedFiles = _
  by_cases hlevel : level = d.1
  · subst hlevel
    rw [Function.update_self]
    rfl
  · rw [Function.update_of_ne hlevel]

omit [Std.TransCmp icmp] in
theorem sameFiles_foldl {X : Type} {step : Builder icmp N → X → Builder icmp N}
    (hstep : ∀ (b : Builder icmp N) x, b.SameFiles (step b x)) :
    ∀ (xs : List X) (b : Builder icmp N), b.SameFiles (xs.foldl step b)
  | [], _ => ⟨rfl, fun _ => rfl⟩
  | x :: xs, b => by
    have hfirst := hstep b x
    have hrest := sameFiles_foldl hstep xs (step b x)
    exact ⟨hrest.base.trans hfirst.base,
      fun level => (hrest.added level).trans (hfirst.added level)⟩

end Builder

/-- A builder on `base` has added the files `l`, beginning with the heap `heap₀` in which `holders`
are the references of everyone else: the objects lie one behind the other, each has one reference,
and the added sets hold them all. -/
structure Applied (heap₀ : FileHeap K) (base : Version K N) (holders : List Nat)
    (l : List (Fin N × FileMetaData K)) (s : FileHeap K × Builder icmp N) : Prop where
  exact : s.1.objects.Exact (s.2.addedPtrs.map FilePtr.addr ++ holders)
  made : (s.2.addedPtrs.map FilePtr.addr).Perm (List.range' heap₀.next l.length)
  next : s.1.next = heap₀.next + l.length
  deleted : s.1.deleted = heap₀.deleted
  base : s.2.base = base
  added : ∀ level p, p ∈ (s.2.levels level).addedFiles.toList ↔
    ∃ i g, l[i]? = some (level, g) ∧ p = ⟨heap₀.next + i, g.adopted⟩

/-- The pairs of level and number are all different. -/
def PairsOnce (l : List (Fin N × FileMetaData K)) : Prop :=
  (l.map fun p => (p.1, p.2.number)).Nodup

omit [Std.TransCmp icmp] in
theorem flatMap_update_perm {S A : Type} (g : S → List A) (f : Fin N → S) {level : Fin N} {x : S}
    {a : A} (hx : (g x).Perm (a :: g (f level))) :
    ∀ {ls : List (Fin N)}, ls.Nodup → level ∈ ls →
      (ls.flatMap fun l => g (Function.update f level x l)).Perm (a :: ls.flatMap fun l => g (f l))
  | l :: ls, hnodup, hmem => by
    obtain ⟨hnot, hnodup⟩ := List.nodup_cons.mp hnodup
    rw [List.flatMap_cons, List.flatMap_cons]
    by_cases hl : l = level
    · subst hl
      have hrest : (ls.flatMap fun l' => g (Function.update f l x l')) =
          ls.flatMap fun l' => g (f l') := by
        refine List.flatMap_congr fun l' hl' => ?_
        rw [Function.update_of_ne (by rintro rfl; exact hnot hl')]
      rw [Function.update_self, hrest]
      exact hx.append_right _
    · have hmem : level ∈ ls := (List.mem_cons.mp hmem).resolve_left (Ne.symm hl)
      rw [Function.update_of_ne hl]
      exact ((flatMap_update_perm g f hx hnodup hmem).append_left _).trans List.perm_middle

namespace Applied

variable {heap₀ : FileHeap K} {base : Version K N} {holders : List Nat}
  {l : List (Fin N × FileMetaData K)} {s : FileHeap K × Builder icmp N}

omit [Std.TransCmp icmp] in
theorem congr {b : Builder icmp N} (h : Applied heap₀ base holders l s)
    (hsame : s.2.SameFiles b) : Applied heap₀ base holders l (s.1, b) := by
  have hptrs : b.addedPtrs = s.2.addedPtrs := by
    unfold Builder.addedPtrs
    exact List.flatMap_congr fun level _ => by rw [hsame.added]
  refine ⟨?_, ?_, h.next, h.deleted, hsame.base.trans h.base, fun level p => ?_⟩
  · rw [hptrs]
    exact h.exact
  · rw [hptrs]
    exact h.made
  · rw [hsame.added]
    exact h.added level p

/-- **One more file**: its object is new, and the added set of its level takes it. -/
theorem addFile {x : Fin N × FileMetaData K} (h : Applied heap₀ base holders l s)
    (hfresh : ∀ a ∈ holders, a < heap₀.next) (honce : PairsOnce (l ++ [x])) :
    Applied heap₀ base holders (l ++ [x]) (Builder.addFile s x) := by
  obtain ⟨level, f⟩ := x
  obtain ⟨p, hp⟩ : ∃ p : FilePtr K, p = ⟨heap₀.next + l.length, f.adopted⟩ := ⟨_, rfl⟩
  have hnew : (s.1.new f.adopted).1 = p := by
    rw [hp, ← h.next]
    rfl
  have haddr : p.addr = s.1.next := by
    rw [hp]
    exact h.next.symm
  -- no file of the level has its number
  have hother : ∀ q ∈ (s.2.levels level).addedFiles.toList,
      ¬ Ordered.Equivalent (bySmallestKey icmp) p q := by
    intro q hq heq
    obtain ⟨i, g, hi, rfl⟩ := (h.added level q).mp hq
    have hnumber : f.number = g.number := by
      have hequal : p.file.number = g.adopted.number := number_eq_of_equivalent icmp heq
      rw [hp] at hequal
      rwa [FileMetaData.adopted_number, FileMetaData.adopted_number] at hequal
    unfold PairsOnce at honce
    rw [List.map_append, List.nodup_append] at honce
    refine honce.2.2 (level, g.number) (List.mem_map.mpr ⟨_, List.mem_of_getElem? hi, rfl⟩)
      (level, f.number) (List.mem_singleton.mpr rfl) ?_
    rw [hnumber]
  have hptrs : (Builder.addFile s (level, f)).2.addedPtrs.Perm (p :: s.2.addedPtrs) := by
    refine flatMap_update_perm (fun st : LevelState icmp => st.addedFiles.toList) s.2.levels ?_
      (List.nodup_finRange N) (List.mem_finRange level)
    rw [hnew]
    exact Ordered.insert_perm hother
  have hfree : p.addr ∉ s.2.addedPtrs.map FilePtr.addr ++ holders := by
    rw [haddr, h.next]
    intro hmem
    rcases List.mem_append.mp hmem with hmem | hmem
    · obtain ⟨-, hlt⟩ := List.mem_range'_1.mp (h.made.mem_iff.mp hmem)
      omega
    · have hlt := hfresh _ hmem
      omega
  refine ⟨?_, ?_, ?_, h.deleted, h.base, fun level' q => ?_⟩
  · have halloc := h.exact.alloc hfree f.adopted
    rw [haddr] at halloc
    refine halloc.perm ?_
    rw [← haddr]
    exact ((hptrs.map FilePtr.addr).symm.append_right holders)
  · rw [List.length_append, List.length_singleton, List.range'_1_concat]
    refine (hptrs.map FilePtr.addr).trans ?_
    rw [List.map_cons, haddr, h.next]
    exact (h.made.cons _).trans (List.perm_append_singleton _ _).symm
  · rw [List.length_append, List.length_singleton, ← Nat.add_assoc, ← h.next]
    rfl
  · have hconcat : (∃ i g, (l ++ [(level, f)])[i]? = some (level', g) ∧
        q = ⟨heap₀.next + i, g.adopted⟩) ↔
          (∃ i g, l[i]? = some (level', g) ∧ q = ⟨heap₀.next + i, g.adopted⟩) ∨
            level = level' ∧ q = p := by
      constructor
      · rintro ⟨i, g, hi, rfl⟩
        rcases Nat.lt_or_ge i l.length with hlt | hge
        · rw [List.getElem?_append_left hlt] at hi
          exact Or.inl ⟨i, g, hi, rfl⟩
        · have hlt := (List.getElem?_eq_some_iff.mp hi).1
          rw [List.length_append, List.length_singleton] at hlt
          obtain rfl : i = l.length := by omega
          rw [List.getElem?_concat_length] at hi
          cases hi
          exact Or.inr ⟨rfl, hp.symm⟩
      · rintro (⟨i, g, hi, rfl⟩ | ⟨rfl, rfl⟩)
        · refine ⟨i, g, ?_, rfl⟩
          rw [List.getElem?_append_left (List.getElem?_eq_some_iff.mp hi).1]
          exact hi
        · exact ⟨l.length, f, List.getElem?_concat_length, hp⟩
    rw [hconcat, ← h.added level' q]
    unfold Builder.addFile
    dsimp only
    rw [hnew]
    by_cases hlevel : level = level'
    · subst hlevel
      rw [Function.update_self]
      refine (Ordered.mem_insert hother).trans ?_
      grind
    · rw [Function.update_of_ne (Ne.symm hlevel)]
      simp [hlevel]

theorem addFiles (hfresh : ∀ a ∈ holders, a < heap₀.next) :
    ∀ (xs l : List (Fin N × FileMetaData K)) {s : FileHeap K × Builder icmp N},
      Applied heap₀ base holders l s → PairsOnce (l ++ xs) →
      Applied heap₀ base holders (l ++ xs) (xs.foldl Builder.addFile s)
  | [], l, s, h, _ => by
    rw [List.append_nil]
    exact h
  | x :: xs, l, s, h, honce => by
    rw [List.append_cons] at honce ⊢
    have hfirst : PairsOnce (l ++ [x]) :=
      honce.sublist ((List.sublist_append_left (l ++ [x]) xs).map _)
    exact addFiles hfresh xs (l ++ [x]) (h.addFile hfresh hfirst) honce

theorem apply {edit : VersionEdit K N} (hfresh : ∀ a ∈ holders, a < heap₀.next)
    (h : Applied heap₀ base holders l s) (honce : PairsOnce (l ++ edit.newFiles)) :
    Applied heap₀ base holders (l ++ edit.newFiles) (Builder.apply s edit) := by
  have hpointers : s.2.SameFiles (edit.compactPointers.foldl Builder.setCompactPointer s.2) :=
    Builder.sameFiles_foldl Builder.sameFiles_setCompactPointer edit.compactPointers s.2
  have hdeleted := Builder.sameFiles_foldl Builder.sameFiles_deleteFile edit.deletedFiles.toList
    (edit.compactPointers.foldl Builder.setCompactPointer s.2)
  exact addFiles hfresh edit.newFiles l ((h.congr hpointers).congr hdeleted) honce

/-- **What all edits have made.** -/
theorem applyAll (hfresh : ∀ a ∈ holders, a < heap₀.next) :
    ∀ (edits : List (VersionEdit K N)) (l : List (Fin N × FileMetaData K))
      {s : FileHeap K × Builder icmp N}, Applied heap₀ base holders l s →
      PairsOnce (l ++ edits.flatMap VersionEdit.newFiles) →
      Applied heap₀ base holders (l ++ edits.flatMap VersionEdit.newFiles)
        (edits.foldl Builder.apply s)
  | [], l, s, h, _ => by
    rw [List.flatMap_nil, List.append_nil]
    exact h
  | e :: es, l, s, h, honce => by
    rw [List.flatMap_cons, ← List.append_assoc] at honce ⊢
    have hfirst : PairsOnce (l ++ e.newFiles) :=
      honce.sublist ((List.sublist_append_left (l ++ e.newFiles) _).map _)
    exact applyAll hfresh es (l ++ e.newFiles) (h.apply hfresh hfirst) honce

omit [Std.TransCmp icmp] in
theorem new (cp : Fin N → Option K) {heap : FileHeap K} {base : Version K N}
    (hexact : heap.objects.Exact holders) :
    Applied heap { base with refs := base.refs + 1 } holders []
      (heap, Builder.new icmp cp base) := by
  have hnone : (Builder.new icmp cp base).addedPtrs = [] :=
    List.flatMap_eq_nil_iff.mpr fun _ _ => rfl
  refine ⟨?_, ?_, rfl, rfl, rfl, fun level p => ?_⟩
  · rw [hnone]
    exact hexact
  · rw [hnone]
    exact List.Perm.refl _
  · constructor
    · intro h
      cases h
    · rintro ⟨i, g, hi, -⟩
      cases hi

end Applied

/-! ## Saving -/

/-- The heap with one more reference to each of the objects at `addrs`. -/
structure Referenced (heap heap' : FileHeap K) (addrs holders : List Nat) : Prop where
  exact : heap'.objects.Exact (addrs ++ holders)
  next : heap'.next = heap.next
  deleted : heap'.deleted = heap.deleted

section Saving

variable {heap : FileHeap K} {files : List (FilePtr K)} {holders : List Nat} {level : Fin N}
  {p : FilePtr K}

omit [Std.TransCmp icmp]

theorem Referenced.refl (h : heap.objects.Exact holders) : Referenced heap heap [] holders :=
  ⟨h, rfl, rfl⟩

theorem Referenced.trans {heap' heap'' : FileHeap K} {addrs addrs' : List Nat}
    (h : Referenced heap heap' addrs holders)
    (h' : Referenced heap' heap'' addrs' (addrs ++ holders)) :
    Referenced heap heap'' (addrs ++ addrs') holders := by
  refine ⟨h'.exact.perm ?_, h'.next.trans h.next, h'.deleted.trans h.deleted⟩
  rw [← List.append_assoc]
  exact List.perm_append_comm.append_right holders

namespace LevelState

def kept (st : LevelState icmp) (l : List (FilePtr K)) : List (FilePtr K) :=
  l.filter (fun p => p.file.number ∉ st.deletedFiles)

/-- The pointers that are not deleted, in the order in which `saveTo` meets them. -/
def survivors (st : LevelState icmp) (base : List (FilePtr K)) : List (FilePtr K) :=
  st.kept (Ordered.upperMerge (bySmallestKey icmp) st.addedFiles.toList base)

theorem map_survivors (st : LevelState icmp) (base : List (FilePtr K)) :
    (st.survivors base).map FilePtr.file = st.plain.survivors (base.map FilePtr.file) := by
  unfold survivors kept LevelDB.LevelState.survivors LevelDB.LevelState.kept
    LevelDB.LevelState.visited
  have hmerge : Ordered.upperMerge (LevelDB.bySmallestKey icmp) st.plain.addedFiles.toList
      (base.map FilePtr.file) =
        (Ordered.upperMerge (bySmallestKey icmp) st.addedFiles.toList base).map FilePtr.file :=
    (Ordered.map_upperMerge FilePtr.file (fun _ _ => Iff.rfl) _ _).symm
  rw [hmerge, List.filter_map]
  rfl

/-- Only files that are there are saved. -/
theorem survivors_perm_sublist (st : LevelState icmp) (base : List (FilePtr K)) :
    ∃ l, l.Perm (st.addedFiles.toList ++ base) ∧ (st.survivors base).Sublist l :=
  ⟨_, Ordered.upperMerge_perm _ _, List.filter_sublist⟩

theorem push_eq (hexact : heap.objects.Exact holders) (hp : p.addr ∈ holders) :
    ∃ heap', push (heap, files) p = some (heap', files ++ [p]) ∧
      Referenced heap heap' [p.addr] holders := by
  obtain ⟨objects, href, hexact'⟩ := hexact.ref hp
  refine ⟨{ heap with objects }, ?_, hexact', rfl, rfl⟩
  unfold push FileHeap.ref
  rw [href]
  rfl

/-- A kept file that does not overlap the files before it is referenced and appended. -/
theorem maybeAddFile_kept {st : LevelState icmp} (hkept : p.file.number ∉ st.deletedFiles)
    (hapart : NoOverlap icmp level ((files ++ [p]).map FilePtr.file)) :
    st.maybeAddFile level (heap, files) p = push (heap, files) p := by
  unfold maybeAddFile
  rw [if_neg hkept]
  dsimp only
  cases hlast : files.getLast? with
  | none => rfl
  | some last =>
    dsimp only
    split
    · rename_i hlevel
      have hchain := hapart hlevel
      rw [List.map_append] at hchain
      have hlt := (List.isChain_append.mp hchain).2.2 last.file
        (by rw [List.getLast?_map, hlast]; rfl) p.file rfl
      rw [if_pos hlt]
    · rfl

/-- **What a run of `maybeAddFile` does**: the kept files are appended, with one more reference. -/
theorem foldlM_maybeAddFile {st : LevelState icmp} :
    ∀ (l : List (FilePtr K)) {heap : FileHeap K} {files : List (FilePtr K)} {holders : List Nat},
      NoOverlap icmp level ((files ++ st.kept l).map FilePtr.file) →
      heap.objects.Exact holders → (∀ p ∈ st.kept l, p.addr ∈ holders) →
      ∃ heap', l.foldlM (st.maybeAddFile level) (heap, files) = some (heap', files ++ st.kept l) ∧
        Referenced heap heap' ((st.kept l).map FilePtr.addr) holders
  | [], heap, files, holders, _, hexact, _ => by
    refine ⟨heap, ?_, .refl hexact⟩
    simp [kept]
  | p :: l, heap, files, holders, hapart, hexact, hheld => by
    by_cases hdel : p.file.number ∈ st.deletedFiles
    · have hkept : st.kept (p :: l) = st.kept l := List.filter_cons_of_neg (by simpa using hdel)
      have hskip : st.maybeAddFile level (heap, files) p = some (heap, files) := if_pos hdel
      rw [hkept] at hapart hheld ⊢
      rw [List.foldlM_cons, hskip]
      exact foldlM_maybeAddFile l hapart hexact hheld
    · have hkept : st.kept (p :: l) = p :: st.kept l :=
        List.filter_cons_of_pos (by simpa using hdel)
      rw [hkept] at hapart hheld ⊢
      rw [List.append_cons] at hapart ⊢
      have hfirst : NoOverlap icmp level ((files ++ [p]).map FilePtr.file) := by
        rw [List.map_append] at hapart
        exact hapart.left
      obtain ⟨heap₁, hpush, href⟩ := push_eq hexact (hheld p List.mem_cons_self)
      obtain ⟨heap', hrest, href'⟩ := foldlM_maybeAddFile l hapart href.exact
        fun q hq => List.mem_cons_of_mem _ (hheld q (List.mem_cons_of_mem p hq))
      refine ⟨heap', ?_, href.trans href'⟩
      rw [List.foldlM_cons, maybeAddFile_kept hdel hfirst, hpush]
      exact hrest

theorem saveLevel_eq_foldlM (st : LevelState icmp) (level : Fin N) :
    ∀ (added base : List (FilePtr K)) (s : FileHeap K × List (FilePtr K)),
      st.saveLevel level added base s =
        (Ordered.upperMerge (bySmallestKey icmp) added base).foldlM (st.maybeAddFile level) s
  | [], _, _ => rfl
  | f :: added, base, s => by
    unfold saveLevel Ordered.upperMerge
    rw [List.foldlM_append]
    refine bind_congr fun smaller => ?_
    rw [List.foldlM_cons]
    exact bind_congr fun s => saveLevel_eq_foldlM st level added _ s

theorem saveLevel_eq {st : LevelState icmp} {base : List (FilePtr K)}
    (hapart : NoOverlap icmp level ((st.survivors base).map FilePtr.file))
    (hexact : heap.objects.Exact holders) (hheld : ∀ p ∈ st.survivors base, p.addr ∈ holders) :
    ∃ heap', st.saveLevel level st.addedFiles.toList base (heap, []) =
        some (heap', st.survivors base) ∧
      Referenced heap heap' ((st.survivors base).map FilePtr.addr) holders := by
  rw [saveLevel_eq_foldlM]
  exact foldlM_maybeAddFile _ hapart hexact hheld

end LevelState

namespace Builder

/-- The pointers of a level that the builder saves. -/
def survivors (b : Builder icmp N) (level : Fin N) : List (FilePtr K) :=
  (b.levels level).survivors (b.base.files level)

theorem map_survivors (b : Builder icmp N) (level : Fin N) :
    (b.survivors level).map FilePtr.file = b.plain.survivors level :=
  (b.levels level).map_survivors _

theorem saveLevels_eq {b : Builder icmp N} :
    ∀ {ls : List (Fin N)} {v : Version K N} {heap : FileHeap K} {holders : List Nat}, ls.Nodup →
      (∀ level ∈ ls, v.files level = []) →
      (∀ level ∈ ls, NoOverlap icmp level ((b.survivors level).map FilePtr.file)) →
      heap.objects.Exact holders →
      (∀ level ∈ ls, ∀ p ∈ b.survivors level, p.addr ∈ holders) →
      ∃ heap', ls.foldlM b.saveStep (heap, v) = some (heap', { v with
          files := fun l => if l ∈ ls then b.survivors l else v.files l }) ∧
        Referenced heap heap' ((ls.flatMap b.survivors).map FilePtr.addr) holders
  | [], v, heap, holders, _, _, _, hexact, _ => ⟨heap, rfl, .refl hexact⟩
  | level :: ls, v, heap, holders, hnodup, hv, hapart, hexact, hheld => by
    obtain ⟨hnot, hnodup⟩ := List.nodup_cons.mp hnodup
    obtain ⟨heap₁, hsave, href⟩ := LevelState.saveLevel_eq (hapart level List.mem_cons_self) hexact
      (hheld level List.mem_cons_self)
    have hfresh : ∀ l ∈ ls, (Function.update v.files level (b.survivors level)) l = [] := by
      intro l hl
      rw [Function.update_of_ne (by rintro rfl; exact hnot hl)]
      exact hv l (List.mem_cons_of_mem level hl)
    obtain ⟨heap', hrest, href'⟩ := saveLevels_eq
      (v := { v with files := Function.update v.files level (b.survivors level) }) hnodup hfresh
      (fun l hl => hapart l (List.mem_cons_of_mem level hl)) href.exact
      (fun l hl p hp => List.mem_append_right _ (hheld l (List.mem_cons_of_mem level hl) p hp))
    refine ⟨heap', ?_, ?_⟩
    · have hstep : b.saveStep (heap, v) level = some (heap₁, { v with
          files := Function.update v.files level (b.survivors level) }) := by
        unfold saveStep
        dsimp only
        rw [hv level List.mem_cons_self, hsave]
        rfl
      rw [List.foldlM_cons, hstep]
      refine hrest.trans ?_
      dsimp only
      rw [LevelDB.Builder.files_cons hnot b.survivors v.files]
    · rw [List.flatMap_cons, List.map_append]
      exact href.trans href'

/-- **`SaveTo`**: the survivors are saved, with one more reference each. -/
theorem saveTo_eq {b : Builder icmp N}
    (hapart : ∀ level, NoOverlap icmp level ((b.survivors level).map FilePtr.file))
    (hexact : heap.objects.Exact holders)
    (hheld : ∀ level, ∀ p ∈ b.survivors level, p.addr ∈ holders) :
    ∃ heap', b.saveTo heap = some (heap', { files := b.survivors }) ∧
      Referenced heap heap' (((List.finRange N).flatMap b.survivors).map FilePtr.addr) holders := by
  obtain ⟨heap', hsave, href⟩ := saveLevels_eq (v := {}) (List.nodup_finRange N) (fun _ _ => rfl)
    (fun level _ => hapart level) hexact (fun level _ => hheld level)
  refine ⟨heap', hsave.trans ?_, href⟩
  simp [List.mem_finRange]

end Builder

end Saving

/-! ## The destructor -/

omit [Std.TransCmp icmp] in
theorem FileHeap.unref_eq {heap : FileHeap K} {holders : List Nat} {p : FilePtr K}
    (hexact : heap.objects.Exact (p.addr :: holders)) :
    ∃ heap', heap.unref p = some heap' ∧ heap'.objects.Exact holders ∧ heap'.next = heap.next ∧
      heap'.deleted = heap.deleted ++ [p.addr].filter (fun a => a ∉ holders) := by
  obtain ⟨objects, hunref, hexact'⟩ := hexact.unref
  refine ⟨{ heap with
    objects,
    deleted := if (objects p.addr).isSome then heap.deleted else heap.deleted ++ [p.addr] },
    by unfold FileHeap.unref; rw [hunref]; rfl, hexact', rfl, ?_⟩
  by_cases hheld : p.addr ∈ holders
  · simp [hexact'.isSome_iff.mpr hheld, hheld]
  · have hgone : ¬ (objects p.addr).isSome = true := fun h => hheld (hexact'.isSome_iff.mp h)
    simp [hgone, hheld]

omit [Std.TransCmp icmp] in
/-- **Giving up references to different objects** deletes those that no one else holds. -/
theorem unrefAll_eq {holders : List Nat} :
    ∀ (l : List (FilePtr K)) {heap : FileHeap K},
      heap.objects.Exact (l.map FilePtr.addr ++ holders) → (l.map FilePtr.addr).Nodup →
      ∃ heap', l.foldlM FileHeap.unref heap = some heap' ∧ heap'.objects.Exact holders ∧
        heap'.next = heap.next ∧
        heap'.deleted = heap.deleted ++ (l.map FilePtr.addr).filter (fun a => a ∉ holders)
  | [], heap, hexact, _ => ⟨heap, rfl, hexact, rfl, (List.append_nil _).symm⟩
  | p :: l, heap, hexact, hnodup => by
    rw [List.map_cons] at hnodup
    obtain ⟨hnot, hnodup⟩ := List.nodup_cons.mp hnodup
    have hfirst : heap.objects.Exact (p.addr :: (l.map FilePtr.addr ++ holders)) := hexact
    obtain ⟨heap₁, hunref, hexact₁, hnext₁, hdeleted₁⟩ := FileHeap.unref_eq hfirst
    obtain ⟨heap', hrest, hexact', hnext', hdeleted'⟩ := unrefAll_eq l hexact₁ hnodup
    refine ⟨heap', ?_, hexact', hnext'.trans hnext₁, ?_⟩
    · rw [List.foldlM_cons, hunref]
      exact hrest
    · -- the other pointers of the list are to other objects
      have hsame : [p.addr].filter (fun a => a ∉ l.map FilePtr.addr ++ holders) =
          [p.addr].filter (fun a => a ∉ holders) := by
        refine List.filter_congr fun a ha => ?_
        rw [List.mem_singleton.mp ha]
        simp only [List.mem_append, hnot, false_or]
      rw [hdeleted', hdeleted₁, hsame, List.append_assoc, ← List.filter_append]
      rfl

omit [Std.TransCmp icmp] in
theorem foldlM_flatMap {A B S : Type} (f : S → B → Option S) (g : A → List B) :
    ∀ (l : List A) (s : S), (l.flatMap g).foldlM f s = l.foldlM (fun s a => (g a).foldlM f s) s
  | [], _ => rfl
  | a :: l, s => by
    rw [List.flatMap_cons, List.foldlM_append, List.foldlM_cons]
    exact bind_congr fun s => foldlM_flatMap f g l s

omit [Std.TransCmp icmp] in
theorem Builder.unrefAdded_eq {b : Builder icmp N} {heap : FileHeap K} {holders : List Nat}
    (hexact : heap.objects.Exact (b.addedPtrs.map FilePtr.addr ++ holders))
    (hnodup : (b.addedPtrs.map FilePtr.addr).Nodup) :
    ∃ heap', b.unrefAdded heap = some heap' ∧ heap'.objects.Exact holders ∧
      heap'.next = heap.next ∧
      heap'.deleted = heap.deleted ++
        (b.addedPtrs.map FilePtr.addr).filter (fun a => a ∉ holders) := by
  unfold unrefAdded
  rw [← foldlM_flatMap]
  exact unrefAll_eq b.addedPtrs hexact hnodup

end Model

end Counted

end LevelDB
