import LevelDB.VersionSet.GetFiles
import LevelDB.Db.NatDb
import LevelDB.Db.System
import LevelDB.VersionSet.Durable

/-!
# A trivial move changes no read

`BackgroundCompaction` moves a file that overlaps nothing at its level and at the next one by an
edit, without touching the file. A lookup then meets the same files in the same order, the moved
one under another level.

* `matchFiles` — `Version::Get` on a list of files, which the steps of `Get` follow
  (`readPc_matchFiles`);
* `Movable.saveTo` — what the builder makes of the edit;
* `trivialMove_reads` — the call passes its assertions and keeps every read.
-/

set_option autoImplicit false

namespace LevelDB

variable {U V R W : Type} {N : Nat}

/-! ## Version::Get -/

section Lookup

variable (cfg : DbConfig U V R N) (tables : Nat → Option (List (Entry U V)))

/-- `State::Match` for one file after the other, until it returns false. -/
def matchFiles (k : LookupKey U) :
    List (Fin N × FileMetaData (InternalKey U)) → MatchState U V N → MatchState U V N
  | [], state => state
  | (level, f) :: rest, state =>
    let answer := cfg.tableCacheGet (tables f.number) k
    let r := matchFile cfg.ok cfg.keyText k.userKey state level f answer.1 answer.2
    if r.1 then matchFiles k rest r.2 else r.2

/-- `Version::Get`, on tables that stay as they are. -/
def Version.get (v : Version (InternalKey U) N) (k : LookupKey U) : GetResult V :=
  (matchFiles cfg tables k (cfg.forEachOverlapping v k) {}).result

theorem matchFiles_cons (k : LookupKey U) (level : Fin N) (f : FileMetaData (InternalKey U))
    (rest : List (Fin N × FileMetaData (InternalKey U))) (state : MatchState U V N) :
    matchFiles cfg tables k ((level, f) :: rest) state =
      let answer := cfg.tableCacheGet (tables f.number) k
      let r := matchFile cfg.ok cfg.keyText k.userKey state level f answer.1 answer.2
      if r.1 then matchFiles cfg tables k rest r.2 else r.2 := rfl

/-- A file, with the answer that the table cache has for it. -/
def offered (k : LookupKey U) (p : Fin N × FileMetaData (InternalKey U)) : Offer U V N where
  level := p.1
  file := p.2
  status := (cfg.tableCacheGet (tables p.2.number) k).1
  saver := (cfg.tableCacheGet (tables p.2.number) k).2

/-- The loop on tables that stay is the loop on their answers. -/
theorem matchFiles_eq_getFiles (k : LookupKey U) :
    ∀ (files : List (Fin N × FileMetaData (InternalKey U))) (state : MatchState U V N),
      matchFiles cfg tables k files state =
        (getFiles cfg.ok cfg.keyText k.userKey state (files.map (offered cfg tables k))).1
  | [], _ => rfl
  | p :: rest, state => by
    cases hmore : (matchFile cfg.ok cfg.keyText k.userKey state p.1 p.2
        (cfg.tableCacheGet (tables p.2.number) k).1
        (cfg.tableCacheGet (tables p.2.number) k).2).1 with
    | true =>
      rw [matchFiles_cons, if_pos hmore, matchFiles_eq_getFiles k rest, List.map_cons]
      exact (congrArg Prod.fst (getFiles_go (o := offered cfg tables k p) hmore)).symm
    | false =>
      rw [matchFiles_cons, if_neg (by rw [hmore]; exact Bool.false_ne_true), List.map_cons]
      exact (congrArg Prod.fst (getFiles_stop (o := offered cfg tables k p) hmore)).symm

/-- The steps of a call of `Get` in the tables compute `matchFiles`. -/
theorem readPc_matchFiles {db : Db U V R N} {g : GetCall U V N} {pc : GetPc U V N}
    {files : List (Fin N × FileMetaData (InternalKey U))} {state : MatchState U V N}
    (hpc : g.pc = .inTables files state) (h : System.readPc cfg db g = some pc) :
    (∃ stats, pc =
        .relocking (matchFiles cfg db.tables g.lookup files state).result stats) ∨
      ∃ rest state', pc = .inTables rest state' ∧ rest.length < files.length ∧
        matchFiles cfg db.tables g.lookup rest state' =
          matchFiles cfg db.tables g.lookup files state := by
  unfold System.readPc at h
  rw [hpc] at h
  cases files with
  | nil =>
    cases h
    exact Or.inl ⟨_, rfl⟩
  | cons p rest =>
    obtain ⟨level, f⟩ := p
    obtain rfl := Option.some.inj h
    unfold System.searchFile
    rw [matchFiles_cons]
    dsimp only
    split
    · exact Or.inr ⟨rest, _, rfl, Nat.lt_succ_self _, rfl⟩
    · exact Or.inl ⟨_, rfl⟩

/-- Two states of a search that will end with the same result. -/
structure MatchState.Agrees (state state' : MatchState U V N) : Prop where
  saver : state'.saver = state.saver
  s : state'.s = state.s
  found : state'.found = state.found

theorem MatchState.Agrees.result {state state' : MatchState U V N} (h : state.Agrees state') :
    state'.result = state.result := by
  unfold MatchState.result
  rw [h.found, h.s, h.saver]

/-- The level under which a file is met, and its counter of seeks, do not matter. -/
theorem MatchState.Agrees.matchFile {state state' : MatchState U V N} (h : state.Agrees state')
    (k : LookupKey U) (level level' : Fin N) (f f' : FileMetaData (InternalKey U)) (s : Status)
    (saver : SaverState V) :
    (LevelDB.matchFile cfg.ok cfg.keyText k.userKey state' level' f' s saver).1 =
        (LevelDB.matchFile cfg.ok cfg.keyText k.userKey state level f s saver).1 ∧
      (LevelDB.matchFile cfg.ok cfg.keyText k.userKey state level f s saver).2.Agrees
        (LevelDB.matchFile cfg.ok cfg.keyText k.userKey state' level' f' s saver).2 := by
  have hfound : state'.charge.found = state.charge.found := by
    rw [MatchState.charge_found, MatchState.charge_found, h.found]
  unfold LevelDB.matchFile
  split
  · cases saver with
    | notFound => exact ⟨rfl, rfl, rfl, hfound⟩
    | found v => exact ⟨rfl, rfl, rfl, rfl⟩
    | deleted => exact ⟨rfl, rfl, rfl, hfound⟩
    | corrupt => exact ⟨rfl, rfl, rfl, rfl⟩
  · exact ⟨rfl, rfl, rfl, rfl⟩

/-- **A search depends on the numbers of the files that are offered.** -/
theorem matchFiles_congr (k : LookupKey U) :
    ∀ {files files' : List (Fin N × FileMetaData (InternalKey U))} {state state' : MatchState U V N},
      files'.map (fun p => p.2.number) = files.map (fun p => p.2.number) → state.Agrees state' →
      (matchFiles cfg tables k files state).Agrees (matchFiles cfg tables k files' state')
  | [], [], _, _, _, h => h
  | [], _ :: _, _, _, hnumbers, _ => by cases hnumbers
  | _ :: _, [], _, _, hnumbers, _ => by cases hnumbers
  | (level, f) :: files, (level', f') :: files', state, state', hnumbers, h => by
    obtain ⟨hnumber, hrest⟩ := List.cons_eq_cons.mp hnumbers
    have hnumber : f'.number = f.number := hnumber
    rw [matchFiles_cons, matchFiles_cons, hnumber]
    generalize cfg.tableCacheGet (tables f.number) k = answer
    obtain ⟨hmore, hagrees⟩ := h.matchFile cfg k level level' f f' answer.1 answer.2
    dsimp only
    rw [hmore]
    split
    · exact matchFiles_congr k hrest hagrees
    · exact hagrees

end Lookup

/-! ## The files of a lookup -/

section Overlap

variable (ucmp : U → U → Ordering)

/-- The range of the file contains the user key. -/
def FileMetaData.Contains (f : FileMetaData (InternalKey U)) (u : U) : Prop :=
  ucmp f.smallest.userKey u ≠ .gt ∧ ucmp u f.largest.userKey ≠ .gt

instance (f : FileMetaData (InternalKey U)) (u : U) : Decidable (f.Contains ucmp u) :=
  inferInstanceAs (Decidable (_ ∧ _))

/-- The ranges of two files have a user key in common. -/
def FileMetaData.Overlaps (f g : FileMetaData (InternalKey U)) : Prop :=
  ucmp f.largest.userKey g.smallest.userKey ≠ .lt ∧
    ucmp g.largest.userKey f.smallest.userKey ≠ .lt

/-- The files of a list that contain a user key. -/
def containing (u : U) (files : List (FileMetaData (InternalKey U))) :
    List (FileMetaData (InternalKey U)) :=
  files.filter fun f => decide (f.Contains ucmp u)

/-- The files of a level that contain a user key; at level 0 the newest is first. -/
def overlappingAt (v : Version (InternalKey U) N) (u : U) (level : Fin N) :
    List (FileMetaData (InternalKey U)) :=
  let files := containing ucmp u (v.files level)
  if level.val = 0 then files.mergeSort fun f g => decide (g.number ≤ f.number) else files

/-- `ForEachOverlapping`: level 0 from the newest file to the oldest, then the other levels. -/
def overlappingFiles (v : Version (InternalKey U) N) (k : LookupKey U) :
    List (Fin N × FileMetaData (InternalKey U)) :=
  (List.finRange N).flatMap fun level =>
    (overlappingAt ucmp v k.userKey level).map fun f => (level, f)

variable {ucmp}

theorem FileMetaData.contains_adopted {f : FileMetaData (InternalKey U)} {u : U} :
    f.adopted.Contains ucmp u ↔ f.Contains ucmp u := by
  unfold Contains
  rw [adopted_smallest, adopted_largest]

theorem containing_append (u : U) (files files' : List (FileMetaData (InternalKey U))) :
    containing ucmp u (files ++ files') = containing ucmp u files ++ containing ucmp u files' :=
  List.filter_append ..

theorem containing_cons_pos {u : U} {f : FileMetaData (InternalKey U)}
    (h : f.Contains ucmp u) (files : List (FileMetaData (InternalKey U))) :
    containing ucmp u (f :: files) = f :: containing ucmp u files :=
  List.filter_cons_of_pos (decide_eq_true h)

theorem containing_cons_neg {u : U} {f : FileMetaData (InternalKey U)}
    (h : ¬ f.Contains ucmp u) (files : List (FileMetaData (InternalKey U))) :
    containing ucmp u (f :: files) = containing ucmp u files :=
  List.filter_cons_of_neg (by simpa using h)

theorem containing_eq_nil {u : U} {files : List (FileMetaData (InternalKey U))}
    (h : ∀ f ∈ files, ¬ f.Contains ucmp u) : containing ucmp u files = [] :=
  List.filter_eq_nil_iff.mpr fun f hf => by simpa using h f hf

variable [Std.TransCmp ucmp]

/-- Files that contain a common key overlap. -/
theorem overlaps_of_contains {f g : FileMetaData (InternalKey U)} {u : U}
    (hf : f.Contains ucmp u) (hg : g.Contains ucmp u) : f.Overlaps ucmp g := by
  have hback : ∀ {x y : FileMetaData (InternalKey U)}, x.Contains ucmp u → y.Contains ucmp u →
      ucmp x.largest.userKey y.smallest.userKey ≠ .lt := by
    intro x y hx hy hlt
    have hle : (ucmp u x.largest.userKey).isLE = true :=
      Ordering.isLE_iff_ne_gt.mpr hx.2
    have hlt' : ucmp u y.smallest.userKey = .lt := Std.TransCmp.lt_of_isLE_of_lt hle hlt
    exact hy.1 (Std.OrientedCmp.gt_of_lt hlt')
  exact ⟨hback hf hg, hback hg hf⟩

end Overlap

/-! ## The lists of files -/

/-- Adjacent levels may exchange files, as long as a search meets the same ones. -/
theorem flatMap_finRange_congr {X : Type} {g h : Fin N → List X} {level next : Fin N}
    (hnext : next.val = level.val + 1) (hother : ∀ l, l ≠ level → l ≠ next → h l = g l)
    (hpair : h level ++ h next = g level ++ g next) :
    (List.finRange N).flatMap h = (List.finRange N).flatMap g := by
  obtain ⟨before, after, hsplit, hbefore, hafter⟩ : ∃ before after,
      List.finRange N = before ++ level :: next :: after ∧
        (∀ l ∈ before, l ≠ level ∧ l ≠ next) ∧ ∀ l ∈ after, l ≠ level ∧ l ≠ next := by
    have hlevel : level.val < (List.finRange N).length := by
      rw [List.length_finRange]
      exact level.isLt
    have hlen : level.val + 1 < (List.finRange N).length := by
      rw [List.length_finRange, ← hnext]
      exact next.isLt
    have hsplit : List.finRange N =
        (List.finRange N).take level.val ++
          level :: next :: (List.finRange N).drop (level.val + 2) := by
      have hfirst : (List.finRange N)[level.val] = level := by simp
      have hsecond : (List.finRange N)[level.val + 1] = next := by
        rw [List.getElem_finRange]
        exact Fin.ext hnext.symm
      conv_lhs => rw [← List.take_append_drop level.val (List.finRange N)]
      rw [List.drop_eq_getElem_cons hlevel, List.drop_eq_getElem_cons hlen, hfirst, hsecond]
    have hnodup := List.nodup_finRange N
    rw [hsplit] at hnodup
    obtain ⟨-, hrest, hdisjoint⟩ := List.nodup_append.mp hnodup
    refine ⟨_, _, hsplit, fun l hl => ⟨?_, ?_⟩, fun l hl => ⟨?_, ?_⟩⟩
    · exact hdisjoint l hl level List.mem_cons_self
    · exact hdisjoint l hl next (List.mem_cons_of_mem _ List.mem_cons_self)
    · rintro rfl
      exact (List.nodup_cons.mp hrest).1 (List.mem_cons_of_mem _ hl)
    · rintro rfl
      exact (List.nodup_cons.mp (List.nodup_cons.mp hrest).2).1 hl
  have hsame : ∀ ls : List (Fin N), (∀ l ∈ ls, l ≠ level ∧ l ≠ next) →
      ls.flatMap h = ls.flatMap g :=
    fun ls hls => List.flatMap_congr fun l hl => hother l (hls l hl).1 (hls l hl).2
  rw [hsplit, List.flatMap_append, List.flatMap_append, List.flatMap_cons, List.flatMap_cons,
    List.flatMap_cons, List.flatMap_cons, hsame before hbefore, hsame after hafter,
    ← List.append_assoc (h level), hpair, List.append_assoc]

theorem filter_eq_singleton {X : Type} {p : X → Bool} {f : X} :
    ∀ {l : List X}, l.Nodup → f ∈ l → p f = true → (∀ g ∈ l, g ≠ f → p g = false) →
      l.filter p = [f] := by
  intro l hnodup hf hp hother
  obtain ⟨before, after, rfl⟩ := List.append_of_mem hf
  obtain ⟨-, hrest, hdisjoint⟩ := List.nodup_append.mp hnodup
  have hbefore : before.filter p = [] := by
    rw [List.filter_eq_nil_iff]
    intro g hg
    rw [hother g (List.mem_append_left _ hg) (hdisjoint g hg f List.mem_cons_self)]
    exact Bool.false_ne_true
  have hafter : after.filter p = [] := by
    rw [List.filter_eq_nil_iff]
    intro g hg
    rw [hother g (List.mem_append_right _ (List.mem_cons_of_mem _ hg))
      (fun heq => (List.nodup_cons.mp hrest).1 (heq ▸ hg))]
    exact Bool.false_ne_true
  rw [List.filter_append, List.filter_cons_of_pos hp, hbefore, hafter]
  rfl

/-! ## The builder -/

/-- The file bounds are in order, a number names one file of a level, and above level 0 the files
are sorted and disjoint. -/
structure Version.WellFormed (icmp : InternalKey U → InternalKey U → Ordering)
    (v : Version (InternalKey U) N) : Prop where
  bounds : ∀ level, ∀ f ∈ v.files level, icmp f.smallest f.largest ≠ .gt
  numbers : ∀ level, ((v.files level).map FileMetaData.number).Nodup
  disjoint : ∀ level : Fin N, level.val > 0 →
    (v.files level).Pairwise fun f g => icmp f.largest g.smallest = .lt

/-- The version `v'` is `v` with the file moved one level down. -/
structure Moved (v v' : Version (InternalKey U) N) (level next : Fin N)
    (f : FileMetaData (InternalKey U)) : Prop where
  removed : v'.files level = (v.files level).filter fun g => decide (g.number ≠ f.number)
  added : ∃ before after, v.files next = before ++ after ∧
    v'.files next = before ++ f.adopted :: after
  other : ∀ l, l ≠ level → l ≠ next → v'.files l = v.files l

/-- What lets a file be moved: it overlaps no other file of its level and none of the next. -/
structure Movable (ucmp : U → U → Ordering) (v : Version (InternalKey U) N) (level next : Fin N)
    (f : FileMetaData (InternalKey U)) : Prop where
  mem : f ∈ v.files level
  adjacent : next.val = level.val + 1
  alone : ∀ g ∈ v.files level, g ≠ f → ¬ f.Overlaps ucmp g
  free : ∀ g ∈ v.files next, ¬ f.Overlaps ucmp g

section Move

variable {icmp : InternalKey U → InternalKey U → Ordering} {ucmp : U → U → Ordering}
  {v : Version (InternalKey U) N} {level next : Fin N} {f : FileMetaData (InternalKey U)}

theorem Movable.ne (h : Movable ucmp v level next f) : level ≠ next := by
  rintro rfl
  have hnext := h.adjacent
  omega

theorem Version.WellFormed.nodup (h : v.WellFormed icmp) (l : Fin N) : (v.files l).Nodup :=
  (h.numbers l).of_map _

variable [Std.TransCmp icmp]

/-- Sorted and disjoint files are in the order of the builder. -/
theorem Version.WellFormed.sorted (h : v.WellFormed icmp) {l : Fin N} (hl : l.val > 0) :
    (v.files l).Pairwise (bySmallestKey icmp) := by
  refine (h.disjoint l hl).imp_of_mem ?_
  intro a b ha hb hlt
  exact bySmallestKey_iff.mpr (Or.inl
    (Std.TransCmp.lt_of_isLE_of_lt (Ordering.isLE_iff_ne_gt.mpr (h.bounds l a ha)) hlt))

@[simp] theorem newAt_moveEdit (l : Fin N) : (System.moveEdit level next f).newAt l =
    if next = l then [{ f with allowedSeeks := 2 ^ 30 }] else [] := by
  unfold System.moveEdit VersionEdit.newAt VersionEdit.addFile VersionEdit.removeFile
  by_cases hl : next = l <;> simp [hl]

@[simp] theorem deletedAt_moveEdit (l : Fin N) : (System.moveEdit level next f).deletedAt l =
    if level = l then [f.number] else [] := by
  show (([(level, f.number)] : List (Fin N × Nat)).filter (fun p => p.1 == l)).map Prod.snd = _
  by_cases hl : level = l <;> simp [hl]

/-- The parts of an edit that the builder reads, but for the compaction pointers. -/
structure Moves (e : VersionEdit (InternalKey U) N) (level next : Fin N)
    (f : FileMetaData (InternalKey U)) : Prop where
  newAt : ∀ l, e.newAt l = (System.moveEdit level next f).newAt l
  deletedAt : ∀ l, e.deletedAt l = (System.moveEdit level next f).deletedAt l

theorem moves_of_fillEdit {vs : VersionSet (InternalKey U) N} {e : VersionEdit (InternalKey U) N}
    (h : fillEdit vs (System.moveEdit level next f) = some e) : Moves e level next f := by
  have hfilled := filled_of_fillEdit h
  refine ⟨hfilled.newAt, fun l => ?_⟩
  unfold VersionEdit.deletedAt
  rw [hfilled.deletedFiles]

variable {cp : Fin N → Option (InternalKey U)} {e : VersionEdit (InternalKey U) N}

theorem survivors_other (he : Moves e level next f) {l : Fin N} (hlevel : l ≠ level)
    (hnext : l ≠ next) : ((Builder.new icmp cp v).apply e).survivors l = v.files l := by
  unfold Builder.survivors
  rw [Builder.apply_levels, Builder.apply_base, he.newAt, he.deletedAt, newAt_moveEdit,
    deletedAt_moveEdit, if_neg (Ne.symm hlevel), if_neg (Ne.symm hnext)]
  exact Builder.new_survivors cp v l

theorem survivors_level (he : Moves e level next f) (hne : level ≠ next) :
    ((Builder.new icmp cp v).apply e).survivors level =
      (v.files level).filter fun g => decide (g.number ≠ f.number) := by
  unfold Builder.survivors
  rw [Builder.apply_levels, Builder.apply_base, he.newAt, he.deletedAt, newAt_moveEdit,
    deletedAt_moveEdit, if_pos rfl, if_neg (Ne.symm hne)]
  refine List.filter_congr fun g _ => ?_
  simp [LevelState.delete, Builder.new]

/-- The files of the next level that the builder saves before the moved file, and after it. -/
theorem survivors_next (he : Moves e level next f) (hne : level ≠ next) :
    ((Builder.new icmp cp v).apply e).survivors next =
      (v.files next).takeWhile (fun b => !decide (bySmallestKey icmp f.adopted b)) ++ f.adopted ::
        (v.files next).dropWhile (fun b => !decide (bySmallestKey icmp f.adopted b)) := by
  unfold Builder.survivors
  rw [Builder.apply_levels, Builder.apply_base, he.newAt, he.deletedAt, newAt_moveEdit,
    deletedAt_moveEdit, if_neg hne, if_pos rfl]
  refine List.filter_eq_self.mpr fun g _ => ?_
  simp [LevelState.add, Builder.new]

omit [Std.TransCmp icmp] in
/-- Of two files without a common user key, one ends below the other. -/
theorem apart_of_not_overlaps (hcmp : ∀ a b, ucmp a.userKey b.userKey = .lt → icmp a b = .lt)
    {g : FileMetaData (InternalKey U)} (h : ¬ f.Overlaps ucmp g) :
    icmp f.largest g.smallest = .lt ∨ icmp g.largest f.smallest = .lt := by
  by_cases hfg : ucmp f.largest.userKey g.smallest.userKey = .lt
  · exact Or.inl (hcmp _ _ hfg)
  · right
    by_contra hgf
    exact h ⟨hfg, fun hlt => hgf (hcmp _ _ hlt)⟩

/-- **The builder's assertions hold**: the moved file fits into the next level. -/
theorem Movable.noOverlap (h : Movable ucmp v level next f) (hwf : v.WellFormed icmp)
    (hcmp : ∀ a b, ucmp a.userKey b.userKey = .lt → icmp a b = .lt)
    (he : Moves e level next f) (l : Fin N) :
    NoOverlap icmp l (((Builder.new icmp cp v).apply e).survivors l) := by
  intro hl
  by_cases hlevel : l = level
  · subst hlevel
    rw [survivors_level he h.ne]
    exact ((hwf.disjoint l hl).sublist List.filter_sublist).isChain
  by_cases hnext : l = next
  · subst hnext
    have hsorted := hwf.sorted hl
    -- a file that ends below another one also starts below it
    have hstart : ∀ {x y : FileMetaData (InternalKey U)}, icmp x.smallest x.largest ≠ .gt →
        icmp x.largest y.smallest = .lt → bySmallestKey icmp x y := by
      intro x y hx hlt
      exact bySmallestKey_iff.mpr (Or.inl
        (Std.TransCmp.lt_of_isLE_of_lt (Ordering.isLE_iff_ne_gt.mpr hx) hlt))
    have hapart : ∀ g ∈ v.files l, icmp f.adopted.largest g.smallest = .lt ∨
        icmp g.largest f.adopted.smallest = .lt := by
      intro g hg
      rw [FileMetaData.adopted_largest, FileMetaData.adopted_smallest]
      exact apart_of_not_overlaps hcmp (h.free g hg)
    have hadopted : icmp f.adopted.smallest f.adopted.largest ≠ .gt := by
      rw [FileMetaData.adopted_largest, FileMetaData.adopted_smallest]
      exact hwf.bounds level f h.mem
    rw [survivors_next he h.ne]
    generalize f.adopted = a at hapart hadopted ⊢
    refine List.Pairwise.isChain ?_
    rw [List.pairwise_append, List.pairwise_cons]
    refine ⟨(hwf.disjoint l hl).sublist (List.takeWhile_sublist _), ⟨?_,
      (hwf.disjoint l hl).sublist (List.dropWhile_sublist _)⟩, ?_⟩
    · intro g hg
      have habove : bySmallestKey icmp a g := Ordered.lt_of_mem_dropWhile hsorted hg
      have hmem := (List.dropWhile_sublist _).subset hg
      rcases hapart g hmem with hlt | hlt
      · exact hlt
      · have hbelow : bySmallestKey icmp g a := hstart (hwf.bounds l g hmem) hlt
        exact absurd (IsTrans.trans _ _ _ habove hbelow) (Std.Irrefl.irrefl _)
    · intro g hg g' hg'
      have hmem := (List.takeWhile_sublist _).subset hg
      rcases List.mem_cons.mp hg' with rfl | hg'
      · rcases hapart g hmem with hlt | hlt
        · exact absurd (hstart hadopted hlt) (Ordered.not_lt_of_mem_takeWhile hg)
        · exact hlt
      · have hpair := hwf.disjoint l hl
        rw [← List.takeWhile_append_dropWhile
          (p := fun b => !decide (bySmallestKey icmp a b)) (l := v.files l)] at hpair
        exact (List.pairwise_append.mp hpair).2.2 g hg g' hg'
  · rw [survivors_other he hlevel hnext]
    exact (hwf.disjoint l hl).isChain

/-- **What the builder makes of the edit.** -/
theorem Movable.saveTo (h : Movable ucmp v level next f) (hwf : v.WellFormed icmp)
    (hcmp : ∀ a b, ucmp a.userKey b.userKey = .lt → icmp a b = .lt)
    (he : Moves e level next f) :
    ∃ v', ((Builder.new icmp cp v).apply e).saveTo = some v' ∧ Moved v v' level next f := by
  refine ⟨_, Builder.saveTo_eq_some.mpr ⟨h.noOverlap hwf hcmp he, rfl⟩, ?_, ?_, ?_⟩
  · exact survivors_level he h.ne
  · exact ⟨_, _, (List.takeWhile_append_dropWhile).symm, survivors_next he h.ne⟩
  · exact fun l hlevel hnext => survivors_other he hlevel hnext

end Move

/-! ## Reads -/

section Reads

variable {icmp : InternalKey U → InternalKey U → Ordering} {ucmp : U → U → Ordering}
  [Std.TransCmp ucmp] {v v' : Version (InternalKey U) N} {level next : Fin N}
  {f : FileMetaData (InternalKey U)}

/-- The numbers of the files that a lookup meets at a level. -/
def numbersAt (ucmp : U → U → Ordering) (v : Version (InternalKey U) N) (u : U) (level : Fin N) :
    List Nat :=
  (overlappingAt ucmp v u level).map FileMetaData.number

omit [Std.TransCmp ucmp] in
theorem overlappingFiles_numbers (v : Version (InternalKey U) N) (k : LookupKey U) :
    (overlappingFiles ucmp v k).map (fun p => p.2.number) =
      (List.finRange N).flatMap (numbersAt ucmp v k.userKey) := by
  unfold overlappingFiles numbersAt
  rw [List.map_flatMap]
  refine List.flatMap_congr fun l _ => ?_
  rw [List.map_map]
  rfl

omit [Std.TransCmp ucmp] in
theorem numbersAt_congr {u : U} {l : Fin N}
    (h : containing ucmp u (v'.files l) = containing ucmp u (v.files l)) :
    numbersAt ucmp v' u l = numbersAt ucmp v u l := by
  unfold numbersAt overlappingAt
  rw [h]

omit [Std.TransCmp ucmp] in
theorem numbersAt_of_nil {u : U} {l : Fin N} (h : containing ucmp u (v.files l) = []) :
    numbersAt ucmp v u l = [] := by
  unfold numbersAt overlappingAt
  rw [h]
  dsimp only
  rw [List.mergeSort_nil, ite_self]
  rfl

omit [Std.TransCmp ucmp] in
theorem numbersAt_of_singleton {u : U} {l : Fin N} {g : FileMetaData (InternalKey U)}
    (h : containing ucmp u (v.files l) = [g]) : numbersAt ucmp v u l = [g.number] := by
  unfold numbersAt overlappingAt
  rw [h]
  dsimp only
  rw [List.mergeSort_singleton, ite_self]
  rfl

/-- A lookup in the range of the moved file meets it alone at the two levels, before and after. -/
theorem Moved.numbers_inside (h : Moved v v' level next f)
    (hmovable : Movable ucmp v level next f) (hwf : v.WellFormed icmp) {u : U}
    (hf : f.Contains ucmp u) :
    numbersAt ucmp v' u level ++ numbersAt ucmp v' u next =
      numbersAt ucmp v u level ++ numbersAt ucmp v u next := by
  obtain ⟨before, after, hnext, hadded⟩ := h.added
  have hlevel : containing ucmp u (v.files level) = [f] := by
    refine filter_eq_singleton (hwf.nodup level) hmovable.mem (decide_eq_true hf) ?_
    intro g hg hne
    exact decide_eq_false fun hcontains =>
      hmovable.alone g hg hne (overlaps_of_contains hf hcontains)
  have hdropped : containing ucmp u (v'.files level) = [] := by
    unfold containing at hlevel ⊢
    rw [h.removed, List.filter_comm, hlevel]
    exact List.filter_cons_of_neg (by simp)
  have hfree : ∀ g ∈ v.files next, ¬ g.Contains ucmp u :=
    fun g hg hcontains => hmovable.free g hg (overlaps_of_contains hf hcontains)
  have hmoved : containing ucmp u (v'.files next) = [f.adopted] := by
    rw [hnext] at hfree
    rw [hadded, containing_append, containing_cons_pos (FileMetaData.contains_adopted.mpr hf),
      containing_eq_nil fun g hg => hfree g (List.mem_append_left _ hg),
      containing_eq_nil fun g hg => hfree g (List.mem_append_right _ hg)]
    rfl
  rw [numbersAt_of_nil hdropped, numbersAt_of_singleton hmoved, numbersAt_of_singleton hlevel,
    numbersAt_of_nil (containing_eq_nil hfree), FileMetaData.adopted_number]
  rfl

omit [Std.TransCmp ucmp] in
/-- A lookup outside the range of the moved file does not meet it at all. -/
theorem Moved.numbers_outside (h : Moved v v' level next f)
    (hmovable : Movable ucmp v level next f) (hwf : v.WellFormed icmp) {u : U}
    (hf : ¬ f.Contains ucmp u) :
    numbersAt ucmp v' u level ++ numbersAt ucmp v' u next =
      numbersAt ucmp v u level ++ numbersAt ucmp v u next := by
  obtain ⟨before, after, hnext, hadded⟩ := h.added
  have hlevel : containing ucmp u (v'.files level) = containing ucmp u (v.files level) := by
    unfold containing
    rw [h.removed, List.filter_filter]
    refine List.filter_congr fun g hg => ?_
    by_cases hnumber : g.number = f.number
    · rw [List.inj_on_of_nodup_map (hwf.numbers level) hg hmovable.mem hnumber]
      simp [hf]
    · simp [hnumber]
  have hnext' : containing ucmp u (v'.files next) = containing ucmp u (v.files next) := by
    rw [hadded, hnext, containing_append, containing_append,
      containing_cons_neg (fun hcontains => hf (FileMetaData.contains_adopted.mp hcontains))]
  rw [numbersAt_congr hlevel, numbersAt_congr hnext']

/-- **A lookup meets the same files**, in the same order. -/
theorem Moved.numbers (h : Moved v v' level next f) (hmovable : Movable ucmp v level next f)
    (hwf : v.WellFormed icmp) (k : LookupKey U) :
    (overlappingFiles ucmp v' k).map (fun p => p.2.number) =
      (overlappingFiles ucmp v k).map (fun p => p.2.number) := by
  rw [overlappingFiles_numbers, overlappingFiles_numbers]
  refine flatMap_finRange_congr hmovable.adjacent (fun l hlevel hnext => ?_) ?_
  · exact numbersAt_congr (by rw [h.other l hlevel hnext])
  · by_cases hf : f.Contains ucmp k.userKey
    · exact h.numbers_inside hmovable hwf hf
    · exact h.numbers_outside hmovable hwf hf

omit [Std.TransCmp ucmp] in
/-- The version lists the same file numbers. -/
theorem Moved.lists (h : Moved v v' level next f) (hmovable : Movable ucmp v level next f)
    (n : Nat) : v'.Lists n ↔ v.Lists n := by
  obtain ⟨before, after, hnext, hadded⟩ := h.added
  constructor
  · rintro ⟨l, g, hg, rfl⟩
    by_cases hlevel : l = level
    · subst hlevel
      rw [h.removed] at hg
      exact ⟨l, g, List.mem_of_mem_filter hg, rfl⟩
    by_cases hl : l = next
    · subst hl
      rw [hadded, List.mem_append, List.mem_cons] at hg
      rcases hg with hg | rfl | hg
      · exact ⟨l, g, hnext ▸ List.mem_append_left _ hg, rfl⟩
      · exact ⟨level, f, hmovable.mem, (FileMetaData.adopted_number f).symm⟩
      · exact ⟨l, g, hnext ▸ List.mem_append_right _ hg, rfl⟩
    · rw [h.other l hlevel hl] at hg
      exact ⟨l, g, hg, rfl⟩
  · rintro ⟨l, g, hg, rfl⟩
    by_cases hnumber : g.number = f.number
    · refine ⟨next, f.adopted, ?_, ?_⟩
      · rw [hadded]
        exact List.mem_append_right _ List.mem_cons_self
      · rw [FileMetaData.adopted_number, hnumber]
    by_cases hlevel : l = level
    · subst hlevel
      refine ⟨l, g, ?_, rfl⟩
      rw [h.removed]
      exact List.mem_filter.mpr ⟨hg, decide_eq_true hnumber⟩
    by_cases hl : l = next
    · subst hl
      refine ⟨l, g, ?_, rfl⟩
      rw [hnext, List.mem_append] at hg
      rw [hadded, List.mem_append, List.mem_cons]
      exact hg.imp_right Or.inr
    · exact ⟨l, g, by rw [h.other l hlevel hl]; exact hg, rfl⟩

end Reads

/-! ## The move -/

/-- **A trivial move preserves every read**: the call passes its assertions, and whether it installs
the new version or fails, every lookup ends as before. -/
theorem trivialMove_reads (cfg : DbConfig U V R N) [Std.TransCmp cfg.version.icmp]
    (ucmp : U → U → Ordering) [Std.TransCmp ucmp] (hok : cfg.ok = Status.isOK)
    (hcmp : ∀ a b, ucmp a.userKey b.userKey = .lt → cfg.version.icmp a b = .lt)
    (hoverlapping : cfg.forEachOverlapping = overlappingFiles ucmp)
    (tables : Nat → Option (List (Entry U V))) {vs : VersionSet (InternalKey U) N}
    (hwf : vs.current.WellFormed cfg.version.icmp) {level next : Fin N}
    {f : FileMetaData (InternalKey U)} (hmovable : Movable ucmp vs.current level next f)
    (disk : Disk R) (o : ApplyOutcomes)
    (hmanifest : vs.descriptor ≠ none ∨
      0 < vs.manifestFileNumber ∧ (o.newFile = .OK → o.opened = true)) :
    ∃ r, logAndApply cfg.version vs disk (System.moveEdit level next f) o = some r ∧
      (o.CheckedSucceed vs → r.status = .OK) ∧
      (r.status = .OK → Moved vs.current r.vs.current level next f) ∧
      (r.status ≠ .OK → r.vs.current = vs.current) ∧
      (∀ n, r.vs.current.Lists n ↔ vs.current.Lists n) ∧
      ∀ k, r.vs.current.get cfg tables k = vs.current.get cfg tables k := by
  have hok : cfg.version.ok = Status.isOK := hok
  obtain ⟨e, hfill⟩ : ∃ e, fillEdit vs (System.moveEdit level next f) = some e := ⟨_, rfl⟩
  obtain ⟨v, hsave, hmoved⟩ := @Movable.saveTo U N cfg.version.icmp ucmp vs.current level next f _
    vs.compactPointer e hmovable hwf hcmp (moves_of_fillEdit hfill)
  obtain ⟨r, hcall⟩ := logAndApply_isSome disk o hfill hsave
    (hmanifest.imp_right fun h => ⟨h.1, fun hnew => h.2 (by simpa [hok] using hnew)⟩)
  obtain ⟨e', v', hfill', hsave', hend⟩ := callEnds_of_logAndApply hok hcall
  obtain rfl : e = e' := Option.some.inj (hfill.symm.trans hfill')
  obtain rfl : v = v' := Option.some.inj (hsave.symm.trans hsave')
  have hmoved : Moved vs.current (finalize cfg.version v) level next f :=
    ⟨hmoved.removed, hmoved.added, hmoved.other⟩
  have hends : (o.CheckedSucceed vs → r.status = .OK) ∧
      (r.status = .OK ∧ Moved vs.current r.vs.current level next f ∨
        r.status ≠ .OK ∧ r.vs.current = vs.current) := by
    unfold ApplyOutcomes.CheckedSucceed
    cases hend with
    | recorded => exact ⟨fun _ => rfl, Or.inl ⟨rfl, hmoved⟩⟩
    | recordFailed hopen hrecord =>
      rw [hopen, if_neg (by simp)]
      exact ⟨fun h => absurd h hrecord, Or.inr ⟨hrecord, rfl⟩⟩
    | created => exact ⟨fun _ => rfl, Or.inl ⟨rfl, hmoved⟩⟩
    | createFailed hnull hfail hstatus =>
      rw [if_pos hnull]
      exact ⟨fun h => absurd h hfail, Or.inr ⟨hstatus, rfl⟩⟩
  refine ⟨r, hcall, hends.1, ?_, ?_, ?_, ?_⟩
  · rcases hends.2 with ⟨-, hmoved⟩ | ⟨hfail, -⟩
    · exact fun _ => hmoved
    · exact fun hstatus => absurd hstatus hfail
  · rcases hends.2 with ⟨hstatus, -⟩ | ⟨-, hcurrent⟩
    · exact fun hfail => absurd hstatus hfail
    · exact fun _ => hcurrent
  · rcases hends.2 with ⟨-, hmoved⟩ | ⟨-, hcurrent⟩
    · exact hmoved.lists hmovable
    · rw [hcurrent]
      exact fun _ => Iff.rfl
  · intro k
    rcases hends.2 with ⟨-, hmoved⟩ | ⟨-, hcurrent⟩
    · unfold Version.get
      rw [hoverlapping]
      exact (matchFiles_congr cfg tables k (hmoved.numbers hmovable hwf k) ⟨rfl, rfl, rfl⟩).result
    · rw [hcurrent]

/-! ## One file -/

/-- The small database whose `ForEachOverlapping` is the documented one. -/
def searchedDb : DbConfig Nat Nat (VersionEdit (InternalKey Nat) 2) 2 :=
  { natDb with forEachOverlapping := overlappingFiles compare }

instance : Std.TransCmp searchedDb.version.icmp :=
  inferInstanceAs (Std.TransCmp natInternalCompare)

/-- A file with the entries of the user keys from `lo` to `hi`. -/
def rangeFile (number lo hi : Nat) : FileMetaData (InternalKey Nat) where
  number := number
  smallest := { userKey := lo, sequence := number, type := .value }
  largest := { userKey := hi, sequence := number, type := .value }

/-- Two files at level 0, one at level 1. -/
def twoLevels : Version (InternalKey Nat) 2 where
  files level := if level.val = 0 then [rangeFile 4 1 9, rangeFile 5 20 30]
    else [rangeFile 3 40 50]

instance (f g : FileMetaData (InternalKey Nat)) : Decidable (f.Overlaps compare g) :=
  inferInstanceAs (Decidable (_ ∧ _))

theorem trivialMove_reads_twoLevels :
    let vs : VersionSet (InternalKey Nat) 2 :=
      { nextFileNumber := 6, manifestFileNumber := 2, lastSequence := 5, logNumber := 1
        prevLogNumber := 0, descriptor := some ['m'], current := twoLevels
        compactPointer := fun _ => none }
    ∃ r, logAndApply searchedDb.version vs { files := fun _ => none }
        (System.moveEdit 0 1 (rangeFile 4 1 9)) {} = some r ∧ r.status = .OK ∧
      ∀ k, r.vs.current.get searchedDb (fun _ => none) k =
        twoLevels.get searchedDb (fun _ => none) k := by
  intro vs
  have hwf : vs.current.WellFormed searchedDb.version.icmp :=
    ⟨by decide, by decide, by decide⟩
  have hmovable : Movable compare vs.current 0 1 (rangeFile 4 1 9) :=
    ⟨by decide, rfl, by decide, by decide⟩
  have hcmp : ∀ a b : InternalKey Nat, compare a.userKey b.userKey = .lt →
      searchedDb.version.icmp a b = .lt := by
    intro a b h
    show (compare a.userKey b.userKey).then _ = .lt
    rw [h]
    rfl
  obtain ⟨r, hcall, hstatus, -, -, -, hreads⟩ := trivialMove_reads searchedDb compare rfl hcmp rfl
    (fun _ => none) hwf hmovable { files := fun _ => none } {} (Or.inl nofun)
  exact ⟨r, hcall, hstatus rfl, hreads⟩

end LevelDB
