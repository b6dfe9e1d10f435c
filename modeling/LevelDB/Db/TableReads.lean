import LevelDB.Db.TableGets
import LevelDB.Lib.RefCounted
import LevelDB.VersionSet.GetFiles

/-!
# Reads through the table cache

Many calls of `Version::Get` share a table cache. Each reads its files in order, through calls of
`TableCache::Get` whose steps interleave in any order with those of the other calls and with
evictions.

* `TableReader.step`, `TableReads.step` — the model;
* `plainGet` — what a call returns without a cache, when no read fails;
* `TableReader.Ok.step`, `ReadsOk.step` — what the steps keep;
* `tableReads_correct` — every call returns what it would without a cache, or the error of its own
  attempt to open a file, and entries are pinned exactly while calls use them.
-/

set_option autoImplicit false

namespace LevelDB

open PinnedCache

variable {U V : Type} {N : Nat}

/-! ## The model -/

inductive TableReadPc (V : Type)
  | reading (pc : TableGetPc)
  | returned (result : GetResult V)

/-- A call of `Version::Get`: it was offered `files`, and the first of `rest` is read. -/
structure TableReader (U V : Type) (N : Nat) where
  options : ReadOptions
  key : LookupKey U
  files : List (Fin N × FileMetaData (InternalKey U))
  rest : List (Fin N × FileMetaData (InternalKey U))
  state : MatchState U V N := {}
  pc : TableReadPc V := .reading .called
  /-- The errors of its attempts to open a file. -/
  errors : List Status := []
  steps : Nat := 0

structure TableReads (U V : Type) (N : Nat) where
  cache : TableCache := .empty
  readers : List (TableReader U V N) := []

inductive TableReadsLabel (U : Type) (N : Nat)
  | get (options : ReadOptions) (key : LookupKey U)
    (files : List (Fin N × FileMetaData (InternalKey U)))
  /-- The next step of a call; `o` is what the environment does if it opens a file. -/
  | go (i : Nat) (o : FindOutcomes)
  | evict (keys : List Slice)

/-- `f->number` and `f->file_size`. -/
def FileMetaData.cacheNumber {K : Type} (f : FileMetaData K) : UInt64 := UInt64.ofNat f.number

def FileMetaData.cacheSize {K : Type} (f : FileMetaData K) : UInt64 := UInt64.ofNat f.fileSize

section Model

variable (cfg : TableReadConfig U V)

/-- `State::Match` with what `TableCache::Get` has returned for the first of `rest`. -/
def TableReader.matched (r : TableReader U V N) (level : Fin N)
    (f : FileMetaData (InternalKey U)) (rest : List (Fin N × FileMetaData (InternalKey U)))
    (s : Status) (entry : Option (Slice × Slice)) : TableReader U V N :=
  let m := matchFile cfg.openTable.ok cfg.keyText r.key.userKey r.state level f s
    (cfg.saved r.key.userKey r.state.saver entry)
  { r with rest, state := m.2, pc := if m.1 then .reading .called else .returned m.2.result }

/-- What becomes of a call of `Version::Get` when a step of `TableCache::Get` ends. -/
def TableReader.next (r : TableReader U V N) (level : Fin N)
    (f : FileMetaData (InternalKey U)) (rest : List (Fin N × FileMetaData (InternalKey U))) :
    TableGetNext → TableReader U V N
  | .go pc => { r with pc := .reading pc }
  | .returns s entry => r.matched cfg level f rest s entry
  | .fails s => { r.matched cfg level f rest s none with errors := r.errors ++ [s] }

/-- The next step of a call of `Version::Get`. -/
def TableReader.step (cache : TableCache) (r : TableReader U V N) (o : FindOutcomes) :
    Option (TableCache × TableReader U V N) :=
  match r.pc, r.rest with
  | .returned _, _ => none
  | .reading _, [] => some (cache, { r with pc := .returned r.state.result, steps := r.steps + 1 })
  | .reading pc, (level, f) :: rest =>
    (tableGetStep cfg.toTableCacheConfig cache r.options f.cacheNumber f.cacheSize
      (cfg.internalKey r.key) o pc).map fun (cache, next) =>
        (cache, { r.next cfg level f rest next with steps := r.steps + 1 })

def TableReads.step (s : TableReads U V N) : TableReadsLabel U N → Option (TableReads U V N)
  | .get options key files =>
    some { s with readers := s.readers ++ [{ options, key, files, rest := files }] }
  | .go i o => s.readers[i]?.bind fun r => (r.step cfg s.cache o).map fun (cache, r) =>
    { cache, readers := s.readers.set i r }
  | .evict keys => some { s with cache := s.cache.evictAll keys }

end Model

section Plain

variable (cfg : TableReadConfig U V) (disk : TableDisk)

/-- A file that is offered, and what reading it without a cache answers. -/
def plainOffer (options : ReadOptions) (key : LookupKey U)
    (p : Fin N × FileMetaData (InternalKey U)) : Offer U V N :=
  match plainTable cfg.toTableCacheConfig disk p.2.cacheNumber with
  | (_, some t) =>
    { level := p.1, file := p.2, status := (cfg.answer options key t).1
      saver := (cfg.answer options key t).2 }
  | (s, none) => { level := p.1, file := p.2, status := s, saver := .notFound }

/-- The state after `Version::Get` has read the files without a cache. -/
def plainState (options : ReadOptions) (key : LookupKey U) (state : MatchState U V N)
    (files : List (Fin N × FileMetaData (InternalKey U))) : MatchState U V N :=
  (getFiles cfg.openTable.ok cfg.keyText key.userKey state
    (files.map (plainOffer cfg disk options key))).1

/-- `Version::Get` without a cache. -/
def plainGet (options : ReadOptions) (key : LookupKey U)
    (files : List (Fin N × FileMetaData (InternalKey U))) : GetResult V :=
  (plainState cfg disk options key {} files).result

/-- The files that are offered have their sizes, and reads give errors or what is on disk. -/
def ReadsDisk (s : TableReads U V N) : TableReadsLabel U N → Prop
  | .get _ _ files => ∀ p ∈ files, p.2.cacheSize = disk.size p.2.cacheNumber
  | .go i o => ∀ r level f rest, s.readers[i]? = some r → r.rest = (level, f) :: rest →
      o.ReadsFrom cfg.openTable.ok (disk.reads f.cacheNumber)
  | .evict _ => True

end Plain

/-! ## One call of `Version::Get` -/

def TableReader.held (r : TableReader U V N) : List Nat :=
  match r.pc with
  | .reading pc => pc.held
  | .returned _ => []

section Reader

variable (cfg : TableReadConfig U V) (disk : TableDisk) (cache : TableCache)

/-- Where a call is in the first of the files that are left. -/
def TableGetPc.Place (options : ReadOptions) (key : LookupKey U) (pc : TableGetPc) :
    List (Fin N × FileMetaData (InternalKey U)) → Prop
  | [] => pc = .called
  | (_, f) :: _ => pc.Ok cfg disk cache options key f.cacheNumber

/-- A call that reads: what it has read so far is what it would have read without a cache. -/
structure Reading (r : TableReader U V N) (pc : TableGetPc) : Prop where
  sizes : ∀ p ∈ r.rest, p.2.cacheSize = disk.size p.2.cacheNumber
  errors : r.errors = []
  saver : r.state.saver = .notFound
  ahead : plainState cfg disk r.options r.key r.state r.rest =
    plainState cfg disk r.options r.key {} r.files
  steps : r.steps + 5 * r.rest.length ≤ 5 * r.files.length + pc.phase
  place : pc.Place cfg disk cache r.options r.key r.rest

/-- A call that has returned. -/
structure ReturnedOk (r : TableReader U V N) (result : GetResult V) : Prop where
  right : r.errors = [] ∧ result = plainGet cfg disk r.options r.key r.files ∨
    ∃ s, r.errors = [s] ∧ ¬ cfg.ok s = true ∧ result = (s, none)
  steps : r.steps ≤ 5 * r.files.length + 1

def TableReader.Ok (r : TableReader U V N) : Prop :=
  match r.pc with
  | .reading pc => Reading cfg disk cache r pc
  | .returned result => ReturnedOk cfg disk r result

variable {cfg disk cache} {cache' : TableCache} {r r' : TableReader U V N} {o : FindOutcomes}

theorem TableReader.ok_reading {pc : TableGetPc} (hpc : r.pc = .reading pc) :
    r.Ok cfg disk cache ↔ Reading cfg disk cache r pc := by
  unfold TableReader.Ok
  rw [hpc]

theorem TableReader.ok_returned {result : GetResult V} (hpc : r.pc = .returned result) :
    r.Ok cfg disk cache ↔ ReturnedOk cfg disk r result := by
  unfold TableReader.Ok
  rw [hpc]

theorem TableReader.held_reading {pc : TableGetPc} (hpc : r.pc = .reading pc) :
    r.held = pc.held := by
  unfold TableReader.held
  rw [hpc]

theorem TableReader.Ok.congr (h : r.Ok cfg disk cache)
    (hvalue : ∀ n ∈ r.held, cache'.value n = cache.value n) : r.Ok cfg disk cache' := by
  cases hpc : r.pc with
  | reading pc =>
    have hreading := (TableReader.ok_reading hpc).mp h
    rw [TableReader.held_reading hpc] at hvalue
    refine (TableReader.ok_reading hpc).mpr { hreading with place := ?_ }
    have hplace := hreading.place
    cases hrest : r.rest with
    | nil =>
      rw [hrest] at hplace
      exact hplace
    | cons p rest =>
      rw [hrest] at hplace
      exact TableGetPc.Ok.congr hplace hvalue
  | returned result =>
    exact (TableReader.ok_returned hpc).mpr ((TableReader.ok_returned hpc).mp h)

theorem plainOffer_eq {options : ReadOptions} {key : LookupKey U} {level : Fin N}
    {f : FileMetaData (InternalKey U)} {t : Table}
    (ht : (plainTable cfg.toTableCacheConfig disk f.cacheNumber).2 = some t) :
    plainOffer cfg disk options key (level, f) =
      { level, file := f, status := (cfg.answer options key t).1
        saver := (cfg.answer options key t).2 } := by
  unfold plainOffer
  split
  · rename_i heq
    rw [heq] at ht
    cases ht
    rfl
  · rename_i heq
    rw [heq] at ht
    cases ht

/-- The search goes on from a file that has left nothing in the saver. -/
theorem matchFile_saver {ok : Status → Bool} {keyText : U → String} {userKey : U}
    {state : MatchState U V N} {level : Fin N} {f : FileMetaData (InternalKey U)} {s : Status}
    {saver : SaverState V}
    (hgo : (matchFile ok keyText userKey state level f s saver).1 = true) :
    (matchFile ok keyText userKey state level f s saver).2.saver = .notFound := by
  unfold matchFile at hgo ⊢
  split at hgo
  · rename_i hs
    rw [if_pos hs]
    cases saver with
    | notFound => rfl
    | found => cases hgo
    | deleted => cases hgo
    | corrupt => cases hgo
  · cases hgo

/-- The search ends with the error of a file that could not be read. -/
theorem matchFile_error {ok : Status → Bool} {keyText : U → String} {userKey : U}
    {state : MatchState U V N} {level : Fin N} {f : FileMetaData (InternalKey U)} {s : Status}
    (hs : ¬ ok s = true) :
    (matchFile ok keyText userKey state level f s .notFound).1 = false ∧
      (matchFile ok keyText userKey state level f s .notFound).2.result = (s, none) := by
  unfold matchFile
  rw [if_neg hs]
  exact ⟨rfl, rfl⟩

/-- A file was read. -/
theorem Reading.matched {pc : TableGetPc} (h : Reading cfg disk cache r pc) {level : Fin N}
    {f : FileMetaData (InternalKey U)} {rest : List (Fin N × FileMetaData (InternalKey U))}
    (hrest : r.rest = (level, f) :: rest) {s : Status} {entry : Option (Slice × Slice)}
    (hanswers : AnswersPlain cfg disk r.options r.key f.cacheNumber s entry) :
    TableReader.Ok cfg disk cache'
      { r.matched cfg level f rest s entry with steps := r.steps + 1 } := by
  obtain ⟨t, ht, hanswer⟩ := hanswers
  have hoffer : plainOffer cfg disk r.options r.key (level, f) =
      ⟨level, f, s, cfg.saved r.key.userKey r.state.saver entry⟩ := by
    rw [plainOffer_eq ht, hanswer, h.saver]
  have hahead := h.ahead
  have hsteps := h.steps
  have hphase := pc.phase_le
  have hsizes := h.sizes
  unfold plainState at hahead
  rw [hrest, List.map_cons, hoffer] at hahead
  rw [hrest, List.length_cons] at hsteps
  rw [hrest] at hsizes
  cases hmore : (matchFile cfg.openTable.ok cfg.keyText r.key.userKey r.state level f s
      (cfg.saved r.key.userKey r.state.saver entry)).1 with
  | true =>
    rw [getFiles_go hmore] at hahead
    have hpc : (r.matched cfg level f rest s entry).pc = .reading .called := by
      unfold TableReader.matched
      exact if_pos hmore
    have hplace : TableGetPc.called.Place cfg disk cache' r.options r.key rest := by
      cases rest with
      | nil => rfl
      | cons => trivial
    refine (TableReader.ok_reading (r := { r.matched cfg level f rest s entry with
      steps := r.steps + 1 }) hpc).mpr ⟨fun p hp => hsizes p (List.mem_cons_of_mem _ hp),
      h.errors, matchFile_saver hmore, hahead, ?_, hplace⟩
    show r.steps + 1 + 5 * rest.length ≤ 5 * r.files.length + 0
    omega
  | false =>
    rw [getFiles_stop hmore] at hahead
    have hpc : (r.matched cfg level f rest s entry).pc = .returned
        (matchFile cfg.openTable.ok cfg.keyText r.key.userKey r.state level f s
          (cfg.saved r.key.userKey r.state.saver entry)).2.result := by
      unfold TableReader.matched
      exact if_neg (by rw [hmore]; exact Bool.false_ne_true)
    refine (TableReader.ok_returned (r := { r.matched cfg level f rest s entry with
      steps := r.steps + 1 }) hpc).mpr ⟨Or.inl ⟨h.errors, congrArg MatchState.result hahead⟩, ?_⟩
    show r.steps + 1 ≤ 5 * r.files.length + 1
    omega

/-- A file could not be opened. -/
theorem Reading.failed {pc : TableGetPc} (h : Reading cfg disk cache r pc) {level : Fin N}
    {f : FileMetaData (InternalKey U)} {rest : List (Fin N × FileMetaData (InternalKey U))}
    (hrest : r.rest = (level, f) :: rest) {s : Status} (hs : ¬ cfg.ok s = true) :
    TableReader.Ok cfg disk cache'
      { r.matched cfg level f rest s none with
        errors := r.errors ++ [s], steps := r.steps + 1 } := by
  obtain ⟨hstop, hresult⟩ := @matchFile_error U V N cfg.openTable.ok cfg.keyText r.key.userKey
    r.state level f s hs
  have hsteps := h.steps
  have hphase := pc.phase_le
  rw [hrest, List.length_cons] at hsteps
  rw [← h.saver] at hstop hresult
  have hpc : (r.matched cfg level f rest s none).pc = .returned (s, none) := by
    rw [← hresult]
    unfold TableReader.matched
    exact if_neg (by rw [TableReadConfig.saved, hstop]; exact Bool.false_ne_true)
  refine (TableReader.ok_returned (r := { r.matched cfg level f rest s none with
    errors := r.errors ++ [s], steps := r.steps + 1 }) hpc).mpr ⟨Or.inr ⟨s, ?_, hs, rfl⟩, ?_⟩
  · show r.errors ++ [s] = [s]
    rw [h.errors, List.nil_append]
  · show r.steps + 1 ≤ 5 * r.files.length + 1
    omega

/-- What becomes of a call of `Version::Get`. -/
theorem Reading.next {pc : TableGetPc} (h : Reading cfg disk cache r pc) {level : Fin N}
    {f : FileMetaData (InternalKey U)} {rest : List (Fin N × FileMetaData (InternalKey U))}
    (hrest : r.rest = (level, f) :: rest) {next : TableGetNext} (hphase : pc.phase < next.phase)
    (hnext : next.Ok cfg disk cache' r.options r.key f.cacheNumber) :
    TableReader.Ok cfg disk cache'
      { r.next cfg level f rest next with steps := r.steps + 1 } := by
  cases next with
  | go pc' =>
    have hsteps := h.steps
    have hphase : pc.phase < pc'.phase := hphase
    have hplace : pc'.Place cfg disk cache' r.options r.key r.rest := by
      rw [hrest]
      exact hnext
    refine ⟨h.sizes, h.errors, h.saver, h.ahead, ?_, hplace⟩
    show r.steps + 1 + 5 * r.rest.length ≤ 5 * r.files.length + pc'.phase
    omega
  | returns s entry => exact h.matched hrest hnext
  | fails s => exact h.failed hrest hnext

/-- A call whose file was read, or could not be, holds nothing. -/
theorem TableReader.held_matched (cfg : TableReadConfig U V) (r : TableReader U V N)
    (level : Fin N) (f : FileMetaData (InternalKey U))
    (rest : List (Fin N × FileMetaData (InternalKey U))) (s : Status)
    (entry : Option (Slice × Slice)) : (r.matched cfg level f rest s entry).held = [] := by
  unfold TableReader.matched TableReader.held
  dsimp only
  split
  · rename_i pc heq
    split at heq
    · cases heq
      rfl
    · cases heq
  · rfl

theorem TableReader.held_next (cfg : TableReadConfig U V) (r : TableReader U V N)
    (level : Fin N) (f : FileMetaData (InternalKey U))
    (rest : List (Fin N × FileMetaData (InternalKey U))) (next : TableGetNext) :
    (r.next cfg level f rest next).held = next.held := by
  cases next with
  | go pc => rfl
  | returns s entry => exact TableReader.held_matched cfg r level f rest s entry
  | fails s => exact TableReader.held_matched cfg r level f rest s none

/-- **A step of a call of `Version::Get`.** -/
theorem TableReader.Ok.step (hok : cfg.openTable.ok = Status.isOK)
    (hencode : EncodesFixed64 cfg.encodeFixed64) (halike : cfg.AnswersAlike)
    (hentries : TablesFrom cfg disk cache) (h : r.Ok cfg disk cache)
    (hreads : ∀ level f rest, r.rest = (level, f) :: rest →
      o.ReadsFrom cfg.openTable.ok (disk.reads f.cacheNumber))
    (hstep : r.step cfg cache o = some (cache', r')) :
    TablesFrom cfg disk cache' ∧ r'.Ok cfg disk cache' ∧ Exchanges cache cache' r.held r'.held := by
  unfold TableReader.step at hstep
  split at hstep
  · cases hstep
  · rename_i pc hpc hrest
    cases hstep
    have h := (TableReader.ok_reading hpc).mp h
    have hplace := h.place
    have hahead := h.ahead
    have hsteps := h.steps
    rw [hrest] at hplace hahead hsteps
    obtain rfl : pc = .called := hplace
    refine ⟨hentries, ⟨Or.inl ⟨h.errors, congrArg MatchState.result hahead⟩, ?_⟩, ?_⟩
    · show r.steps + 1 ≤ 5 * r.files.length + 1
      have hzero : TableGetPc.called.phase = 0 := rfl
      rw [hzero] at hsteps
      simp only [List.length_nil] at hsteps
      omega
    · rw [TableReader.held_reading hpc]
      exact .refl _ _
  · rename_i pc level f rest hpc hrest
    have h := (TableReader.ok_reading hpc).mp h
    obtain ⟨⟨after, next⟩, hget, heq⟩ := Option.map_eq_some_iff.mp hstep
    cases heq
    have hplace := h.place
    rw [hrest] at hplace
    have hsize := h.sizes (level, f) (by rw [hrest]; exact List.mem_cons_self)
    have hsize : f.cacheSize = disk.size f.cacheNumber := hsize
    rw [hsize] at hget
    obtain ⟨hentries', hnext, hexchanges, hphase⟩ :=
      tableGetStep_spec hok hencode halike hentries hplace (hreads level f rest hrest) hget
    refine ⟨hentries', h.next hrest hphase hnext, ?_⟩
    show Exchanges cache cache' r.held (r.next cfg level f rest next).held
    rw [TableReader.held_reading hpc, TableReader.held_next]
    exact hexchanges

/-- A call that has not returned can take its next step. -/
theorem TableReader.Ok.goes (hok : cfg.openTable.ok = Status.isOK) (h : r.Ok cfg disk cache)
    (hpins : ∀ n ∈ r.held, 0 < cache.pins n) (hpc : ∀ result, r.pc ≠ .returned result)
    (o : FindOutcomes) : ∃ x, r.step cfg cache o = some x := by
  cases hcase : r.pc with
  | returned result => exact absurd hcase (hpc result)
  | reading pc =>
    have h := (TableReader.ok_reading hcase).mp h
    rw [TableReader.held_reading hcase] at hpins
    have hplace := h.place
    unfold TableReader.step
    rw [hcase]
    cases hrest : r.rest with
    | nil => exact ⟨_, rfl⟩
    | cons p rest =>
      obtain ⟨level, f⟩ := p
      rw [hrest] at hplace
      obtain ⟨x, hx⟩ := tableGetStep_isSome hok hplace hpins f.cacheSize (cfg.internalKey r.key) o
      dsimp only
      rw [hx]
      exact ⟨_, rfl⟩

end Reader

/-! ## All calls -/

section Reads

variable {cfg : TableReadConfig U V} {disk : TableDisk} {s t : TableReads U V N}

/-- What holds between any two steps. -/
structure ReadsOk (cfg : TableReadConfig U V) (disk : TableDisk) (s : TableReads U V N) : Prop where
  entries : TablesFrom cfg disk s.cache
  pins : ∀ n, s.cache.pins n = (s.readers.flatMap TableReader.held).count n
  readers : ∀ r ∈ s.readers, r.Ok cfg disk s.cache

/-- What a call holds is pinned. -/
theorem ReadsOk.pinned (h : ReadsOk cfg disk s) {r : TableReader U V N} (hr : r ∈ s.readers)
    {n : Nat} (hn : n ∈ r.held) : 0 < s.cache.pins n := by
  rw [h.pins]
  exact List.count_pos_iff.mpr (List.mem_flatMap.mpr ⟨r, hr, hn⟩)

/-- A call begins. -/
theorem ReadsOk.get (h : ReadsOk cfg disk s) (options : ReadOptions) (key : LookupKey U)
    {files : List (Fin N × FileMetaData (InternalKey U))}
    (hsizes : ∀ p ∈ files, p.2.cacheSize = disk.size p.2.cacheNumber) :
    ReadsOk cfg disk
      { s with readers := s.readers ++ [{ options, key, files, rest := files }] } := by
  refine ⟨h.entries, fun n => ?_, fun r hr => ?_⟩
  · rw [List.flatMap_append, List.count_append, ← h.pins n, List.flatMap_singleton]
    rfl
  · rcases List.mem_append.mp hr with hr | hr
    · exact h.readers r hr
    · rw [List.mem_singleton.mp hr]
      have hplace : TableGetPc.called.Place cfg disk s.cache options key files := by
        cases files with
        | nil => rfl
        | cons => trivial
      refine (TableReader.ok_reading rfl).mpr ⟨hsizes, rfl, rfl, rfl, ?_, hplace⟩
      show 0 + 5 * files.length ≤ 5 * files.length + 0
      omega

/-- Evictions. -/
theorem ReadsOk.evict (h : ReadsOk cfg disk s) (keys : List Slice) :
    ReadsOk cfg disk { s with cache := s.cache.evictAll keys } := by
  have hevicts := Cache.evicts_evictAll keys s.cache
  refine ⟨Cache.All.evicts h.entries hevicts, fun n => (hevicts.pins n).trans (h.pins n),
    fun r hr => (h.readers r hr).congr fun n hn => ?_⟩
  exact hevicts.value n (h.pinned hr hn)

/-- **Every step of every call.** -/
theorem ReadsOk.step (hok : cfg.openTable.ok = Status.isOK)
    (hencode : EncodesFixed64 cfg.encodeFixed64) (halike : cfg.AnswersAlike)
    (h : ReadsOk cfg disk s) {l : TableReadsLabel U N} (hreads : ReadsDisk cfg disk s l)
    (hstep : s.step cfg l = some t) : ReadsOk cfg disk t := by
  cases l with
  | get options key files =>
    obtain rfl := Option.some.inj hstep
    exact h.get options key hreads
  | evict keys =>
    obtain rfl := Option.some.inj hstep
    exact h.evict keys
  | go i o =>
    obtain ⟨r, hr, hstep⟩ := Option.bind_eq_some_iff.mp hstep
    obtain ⟨⟨cache', r'⟩, hgo, rfl⟩ := Option.map_eq_some_iff.mp hstep
    have hmem := List.mem_of_getElem? hr
    obtain ⟨hentries, hright, hexchanges⟩ := (h.readers r hmem).step hok hencode halike h.entries
      (fun level f rest hrest => hreads r level f rest hr hrest) hgo
    have hpins : ∀ n, cache'.pins n =
        ((s.readers.set i r').flatMap TableReader.held).count n := by
      intro n
      have hperm := RefCounted.Heap.flatMap_set_perm TableReader.held (y := r') hr
      have hcount := hperm.count_eq n
      rw [List.count_append, List.count_append, ← h.pins n] at hcount
      have hexchange := hexchanges.pins n
      omega
    refine ⟨hentries, hpins, fun r₂ hr₂ => ?_⟩
    rcases List.mem_or_eq_of_mem_set hr₂ with hold | rfl
    · -- another call: what it holds was pinned before the step, and still is
      refine (h.readers r₂ hold).congr fun n hn => hexchanges.value n (h.pinned hold hn) ?_
      rw [hpins n]
      exact List.count_pos_iff.mpr (List.mem_flatMap.mpr ⟨r₂, hr₂, hn⟩)
    · exact hright

/-- What is owed to a call: its handle leads to the table of the file that it reads; it returns what
it would without a cache, or the error of its own attempt to open a file. -/
structure ReadRight (cfg : TableReadConfig U V) (disk : TableDisk) (cache : TableCache)
    (r : TableReader U V N) : Prop where
  live : ∀ n ∈ r.held, ∃ level f rest, r.rest = (level, f) :: rest ∧
    LeadsTo cfg disk cache f.cacheNumber n
  returns : ∀ result, r.pc = .returned result → r.errors = [] →
    result = plainGet cfg disk r.options r.key r.files
  fails : ∀ result, r.pc = .returned result → ∀ s ∈ r.errors,
    ¬ cfg.ok s = true ∧ result = (s, none)
  bounded : r.steps ≤ 5 * r.files.length + 1

theorem TableReader.Ok.right {cache : TableCache} {r : TableReader U V N}
    (h : r.Ok cfg disk cache) : ReadRight cfg disk cache r := by
  cases hpc : r.pc with
  | returned result =>
    have h := (TableReader.ok_returned hpc).mp h
    refine ⟨fun n hn => ?_, fun result' hresult' hnone => ?_, fun result' hresult' s hs => ?_,
      h.steps⟩
    · unfold TableReader.held at hn
      rw [hpc] at hn
      cases hn
    · cases hpc.symm.trans hresult'
      rcases h.right with ⟨-, hplain⟩ | ⟨s, hone, -⟩
      · exact hplain
      · rw [hnone] at hone
        cases hone
    · cases hpc.symm.trans hresult'
      rcases h.right with ⟨hnone, -⟩ | ⟨s', hone, hfails, hresult⟩
      · rw [hnone] at hs
        cases hs
      · rw [hone] at hs
        rw [List.mem_singleton.mp hs]
        exact ⟨hfails, hresult⟩
  | reading pc =>
    have h := (TableReader.ok_reading hpc).mp h
    have hplace := h.place
    refine ⟨fun n hn => ?_, fun result hresult => ?_, fun result hresult => ?_, ?_⟩
    · rw [TableReader.held_reading hpc] at hn
      cases hrest : r.rest with
      | nil =>
        rw [hrest] at hplace
        obtain rfl : pc = .called := hplace
        cases hn
      | cons p rest =>
        rw [hrest] at hplace
        refine ⟨p.1, p.2, rest, rfl, ?_⟩
        cases pc with
        | found m =>
          rw [List.mem_singleton.mp hn]
          exact hplace
        | answered m s entry =>
          rw [List.mem_singleton.mp hn]
          exact hplace.1
        | called => cases hn
        | missed => cases hn
        | opened tf => cases hn
    · cases hpc.symm.trans hresult
    · cases hpc.symm.trans hresult
    · have hsteps := h.steps
      cases hrest : r.rest with
      | nil =>
        rw [hrest] at hplace hsteps
        obtain rfl : pc = .called := hplace
        simp only [List.length_nil, TableGetPc.phase] at hsteps
        omega
      | cons p rest =>
        have hphase := pc.phase_le
        rw [hrest, List.length_cons] at hsteps
        omega

/-- **Reads through the table cache.** Any number of calls of `Version::Get` share a table cache,
two of them may open the same file at the same time, and entries are evicted at any time. In every
run in which a read of a file gives an error or what is on disk: an entry is pinned once for each
call that uses it; what a call uses is there, and was opened from the file that the call reads; a
call that has opened every file that it had to open returns what it would without a cache, and else
the error of its own attempt; it never follows a null pointer, never fails an assertion, and returns
after at most five steps for each of its files and one more. -/
theorem tableReads_correct (hok : cfg.openTable.ok = Status.isOK)
    (hencode : EncodesFixed64 cfg.encodeFixed64) (halike : cfg.AnswersAlike)
    (run : Transition.Run (TableReads.step cfg) (ReadsDisk cfg disk) ({} : TableReads U V N) s) :
    (∀ n, s.cache.pins n = (s.readers.flatMap TableReader.held).count n) ∧
      ∀ (i : Nat) (r : TableReader U V N), s.readers[i]? = some r →
        ReadRight cfg disk s.cache r ∧
        ((∃ result, r.pc = .returned result) ∨ ∀ o, ∃ t, s.step cfg (.go i o) = some t) := by
  have hstart : ReadsOk cfg disk ({} : TableReads U V N) :=
    ⟨Cache.All.empty, fun _ => rfl, fun r hr => absurd hr List.not_mem_nil⟩
  have h := run.invariant (I := ReadsOk cfg disk)
    (fun h hreads hstep => h.step hok hencode halike hreads hstep) hstart
  refine ⟨h.pins, fun i r hr => ?_⟩
  have hmem := List.mem_of_getElem? hr
  refine ⟨(h.readers r hmem).right, ?_⟩
  by_cases hreturned : ∃ result, r.pc = .returned result
  · exact Or.inl hreturned
  · right
    intro o
    obtain ⟨x, hgo⟩ := (h.readers r hmem).goes hok (fun n hn => h.pinned hmem hn)
      (fun result hpc => hreturned ⟨result, hpc⟩) o
    refine ⟨{ cache := x.1, readers := s.readers.set i x.2 }, ?_⟩
    show s.readers[i]?.bind _ = _
    rw [hr, Option.bind_some, hgo]
    rfl

end Reads

/-! ## Two calls that open the same file -/

def smallTableReads : TableReadConfig Nat Nat where
  toTableCacheConfig := smallTableCache
  internalKey k := [k.userKey.toUInt8]
  keyText _ := ""
  saveValue _ _ _ value := .found (value.headD 0).toNat

theorem smallTableReads_alike : smallTableReads.AnswersAlike := by
  intro number t t' hsame options key
  have hindex := hsame.indexBlock
  unfold TableReadConfig.answer
  show (Status.OK, SaverState.found (t.indexBlock.data.headD 0).toNat) =
    (Status.OK, SaverState.found (t'.indexBlock.data.headD 0).toNat)
  rw [hindex]

def smallDisk : TableDisk where
  size _ := 100
  reads _ := smallReads

def fileFive : FileMetaData (InternalKey Nat) where
  number := 5
  fileSize := 100
  smallest := { userKey := 1, sequence := 1, type := .value }
  largest := { userKey := 9, sequence := 9, type := .value }

def levelOne : Fin 2 := ⟨1, Nat.one_lt_two⟩

/-- The calls 0 and 1 both miss and open the file, and the second `Insert` takes the place of the
first; nothing can be evicted then. Call 2 finds the entry of call 1. -/
def openedTwice : List (TableReadsLabel Nat 2) :=
  let key : LookupKey Nat := { userKey := 7, sequence := 9 }
  let go (i : Nat) : TableReadsLabel Nat 2 := .go i { io := smallReads }
  [.get {} key [(levelOne, fileFive)], .get {} key [(levelOne, fileFive)], go 0, go 1, go 0, go 1,
    go 0, go 1, .evict [encodeFixed64 5], go 0, go 0, .get {} key [(levelOne, fileFive)], go 2,
    go 1, go 1]

theorem smallReads_readsFrom (number : UInt64) :
    FindOutcomes.ReadsFrom smallTableReads.openTable.ok { io := smallReads }
      (smallDisk.reads number) := ⟨fun _ _ _ => rfl, fun _ _ _ => rfl⟩

theorem openedTwice_allowed :
    ∀ l ∈ openedTwice, ∀ s, ReadsDisk smallTableReads smallDisk s l := by
  intro l hl s
  have hcases : (∃ key, l = .get {} key [(levelOne, fileFive)]) ∨
      (∃ i, l = .go i { io := smallReads }) ∨ ∃ keys, l = .evict keys := by
    unfold openedTwice at hl
    simp only [List.mem_cons, List.not_mem_nil, or_false] at hl
    rcases hl with rfl | rfl | rfl | rfl | rfl | rfl | rfl | rfl | rfl | rfl | rfl | rfl | rfl |
      rfl | rfl
    all_goals simp
  rcases hcases with ⟨key, rfl⟩ | ⟨i, rfl⟩ | ⟨keys, rfl⟩
  · intro p hp
    rw [List.mem_singleton.mp hp]
    rfl
  · exact fun r level f rest _ _ => smallReads_readsFrom f.cacheNumber
  · trivial

theorem tableReads_correct_twice :
    ∃ s, Transition.Run (TableReads.step smallTableReads) (ReadsDisk smallTableReads smallDisk)
        ({} : TableReads Nat Nat 2) s ∧
      s.cache.pins 0 = 0 ∧ s.cache.pins 1 = 1 ∧
      ∃ r, s.readers[1]? = some r ∧ r.pc = .returned (.OK, some 2) ∧
        ReadRight smallTableReads smallDisk s.cache r := by
  obtain ⟨s, hs, hzero, hone, r, hr, hpc⟩ : ∃ s, Transition.exec
      (TableReads.step smallTableReads) openedTwice ({} : TableReads Nat Nat 2) = some s ∧
      s.cache.pins 0 = 0 ∧ s.cache.pins 1 = 1 ∧
      ∃ r, s.readers[1]? = some r ∧ r.pc = .returned (.OK, some 2) :=
    ⟨_, rfl, rfl, rfl, _, rfl, rfl⟩
  have run := Transition.Run.of_labels openedTwice_allowed hs
  exact ⟨s, run, hzero, hone, r, hr, hpc,
    ((tableReads_correct rfl encodeFixed64_encodes smallTableReads_alike run).2 1 r hr).1⟩

end LevelDB
