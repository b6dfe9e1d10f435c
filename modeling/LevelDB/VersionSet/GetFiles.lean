import LevelDB.VersionSet.Get

/-!
# Version::Get on a sequence of files

`ForEachOverlapping` offers files one after the other to `State::Match`, which reads each of them
until one decides. The answer of the table cache for a file is a status and a saver; it decides
unless it says that the file has nothing for the key.

* `getFiles` — the loop, with the files that were read;
* `getFiles_result` — the first file that decides gives the result, and it is the last one read;
* `getFiles_stats` — the first file is charged with a seek once a second one was read.
-/

set_option autoImplicit false

namespace LevelDB

variable {U V : Type} {N : Nat}

/-- A file that is offered, and what the table cache answers for it. -/
structure Offer (U V : Type) (N : Nat) where
  level : Fin N
  file : FileMetaData (InternalKey U)
  status : Status
  saver : SaverState V

namespace Offer

/-- The read succeeds and the file has nothing for the key. -/
def nothing (o : Offer U V N) : Bool :=
  match o.status, o.saver with
  | .OK, .notFound => true
  | _, _ => false

/-- What the answer means for the lookup: a value is found, a deletion is not found, a corrupt
entry is a corruption, and the error of a read is returned. -/
def outcome (keyText : U → String) (userKey : U) (o : Offer U V N) : GetResult V :=
  match o.status, o.saver with
  | .OK, .found v => (.OK, some v)
  | .OK, .deleted => (.NotFound "" "", none)
  | .OK, .corrupt => (.Corruption "corrupted key for " (keyText userKey), none)
  | .OK, .notFound => (.NotFound "" "", none)
  | s, .found v => (s, some v)
  | s, _ => (s, none)

end Offer

section Loop

variable (ok : Status → Bool) (keyText : U → String) (userKey : U)

/-- `ForEachOverlapping`: the state after the last call, and the files that were read. -/
def getFiles (state : MatchState U V N) : List (Offer U V N) → MatchState U V N × List (Offer U V N)
  | [] => (state, [])
  | o :: offers =>
    let r := matchFile ok keyText userKey state o.level o.file o.status o.saver
    if r.1 then
      let rest := getFiles r.2 offers
      (rest.1, o :: rest.2)
    else (r.2, [o])

variable {ok keyText userKey} {state : MatchState U V N}

theorem getFiles_go {o : Offer U V N} {offers : List (Offer U V N)}
    (h : (matchFile ok keyText userKey state o.level o.file o.status o.saver).1 = true) :
    getFiles ok keyText userKey state (o :: offers) =
      ((getFiles ok keyText userKey
          (matchFile ok keyText userKey state o.level o.file o.status o.saver).2 offers).1,
        o :: (getFiles ok keyText userKey
          (matchFile ok keyText userKey state o.level o.file o.status o.saver).2 offers).2) :=
  if_pos h

theorem getFiles_stop {o : Offer U V N} {offers : List (Offer U V N)}
    (h : (matchFile ok keyText userKey state o.level o.file o.status o.saver).1 = false) :
    getFiles ok keyText userKey state (o :: offers) =
      ((matchFile ok keyText userKey state o.level o.file o.status o.saver).2, [o]) :=
  if_neg (by rw [h]; exact Bool.false_ne_true)

/-! ## The result -/

/-- The first file that is offered is read. -/
theorem getFiles_head (o : Offer U V N) (offers : List (Offer U V N)) :
    ∃ rest, (getFiles ok keyText userKey state (o :: offers)).2 = o :: rest := by
  cases hmore : (matchFile ok keyText userKey state o.level o.file o.status o.saver).1 with
  | true => exact ⟨_, congrArg Prod.snd (getFiles_go hmore)⟩
  | false => exact ⟨_, congrArg Prod.snd (getFiles_stop hmore)⟩

/-- **One call of `Match`**: it goes on exactly if the file has nothing for the key. -/
theorem matchFile_outcome (keyText : U → String) (userKey : U) (hstate : state.found = false)
    (o : Offer U V N) :
    let r := matchFile Status.isOK keyText userKey state o.level o.file o.status o.saver
    r.1 = o.nothing ∧ (o.nothing = true → r.2.found = false) ∧
      (o.nothing = false → r.2.result = o.outcome keyText userKey) := by
  obtain ⟨level, f, s, saver⟩ := o
  have hfound : state.charge.found = false := MatchState.charge_found.trans hstate
  cases s with
  | OK =>
    cases saver with
    | notFound => exact ⟨rfl, fun _ => hfound, fun h => by cases h⟩
    | found v => exact ⟨rfl, fun h => by (cases h), fun _ => rfl⟩
    | deleted =>
      refine ⟨rfl, fun h => by (cases h), fun _ => ?_⟩
      exact if_neg fun h => Bool.false_ne_true (hfound.symm.trans h)
    | corrupt => exact ⟨rfl, fun h => by (cases h), fun _ => rfl⟩
  | _ =>
    -- a read that fails is reported whatever it left in the saver
    refine ⟨by cases saver <;> rfl, fun h => by (cases saver <;> cases h), fun _ => ?_⟩
    cases saver <;> rfl

theorem getFiles_result_from (offers : List (Offer U V N)) (hstate : state.found = false) :
    (getFiles Status.isOK keyText userKey state offers).1.result =
        (match offers.find? (fun o => !o.nothing) with
          | some o => o.outcome keyText userKey
          | none => (.NotFound "" "", none)) ∧
      (getFiles Status.isOK keyText userKey state offers).2 =
        offers.takeWhile Offer.nothing ++ (offers.find? (fun o => !o.nothing)).toList := by
  induction offers generalizing state with
  | nil =>
    refine ⟨?_, rfl⟩
    unfold getFiles MatchState.result
    rw [if_neg (by rw [hstate]; exact Bool.false_ne_true)]
    rfl
  | cons o offers ih =>
    obtain ⟨hmore, hgo, hstop⟩ :=
      matchFile_outcome keyText userKey hstate o
    cases hnothing : o.nothing with
    | true =>
      rw [hnothing] at hmore
      obtain ⟨hresult, hread⟩ := ih (hgo hnothing)
      rw [getFiles_go hmore, List.find?_cons_of_neg (by simp [hnothing]),
        List.takeWhile_cons_of_pos hnothing]
      exact ⟨hresult, congrArg (o :: ·) hread⟩
    | false =>
      rw [hnothing] at hmore
      rw [getFiles_stop hmore, List.find?_cons_of_pos (by simp [hnothing]),
        List.takeWhile_cons_of_neg (by simp [hnothing])]
      exact ⟨hstop hnothing, rfl⟩

/-- **`Version::Get` stops at the first decisive file.** For every sequence of files and answers the
result is what the first answer that is not "nothing" says, and that file is the last one read;
without one all files are read and the key is not found. -/
theorem getFiles_result (keyText : U → String) (userKey : U) (offers : List (Offer U V N)) :
    let r := getFiles Status.isOK keyText userKey {} offers
    r.1.result = (match offers.find? (fun o => !o.nothing) with
      | some o => o.outcome keyText userKey
      | none => (.NotFound "" "", none)) ∧
    r.2 = offers.takeWhile Offer.nothing ++ (offers.find? (fun o => !o.nothing)).toList :=
  getFiles_result_from offers rfl

/-! ## The seek that is charged -/

theorem matchFile_stats (ok : Status → Bool) (keyText : U → String) (userKey : U)
    (state : MatchState U V N) (o : Offer U V N) :
    (matchFile ok keyText userKey state o.level o.file o.status o.saver).2.stats =
        state.charge.stats ∧
      (matchFile ok keyText userKey state o.level o.file o.status o.saver).2.lastFileRead =
        some o.file ∧
      (matchFile ok keyText userKey state o.level o.file o.status o.saver).2.lastFileReadLevel =
        some o.level := by
  unfold matchFile
  split
  · cases o.saver <;> exact ⟨rfl, rfl, rfl⟩
  · exact ⟨rfl, rfl, rfl⟩

/-- Once a file is charged no other one is. -/
theorem getFiles_charged (offers : List (Offer U V N)) (hcharged : state.stats.seekFile ≠ none) :
    (getFiles ok keyText userKey state offers).1.stats = state.stats := by
  induction offers generalizing state with
  | nil => rfl
  | cons o offers ih =>
    have hcharge : state.charge = state := if_neg fun h => hcharged h.1
    obtain ⟨hstats, -, -⟩ := matchFile_stats ok keyText userKey state o
    rw [hcharge] at hstats
    cases hmore : (matchFile ok keyText userKey state o.level o.file o.status o.saver).1 with
    | true =>
      rw [getFiles_go hmore]
      exact (ih (by rw [hstats]; exact hcharged)).trans hstats
    | false =>
      rw [getFiles_stop hmore]
      exact hstats

/-- The second file that is read charges the first one. -/
theorem getFiles_second {f : FileMetaData (InternalKey U)} {level : Fin N}
    (o : Offer U V N) (offers : List (Offer U V N)) (hstats : state.stats.seekFile = none)
    (hfile : state.lastFileRead = some f) (hlevel : state.lastFileReadLevel = some level) :
    (getFiles ok keyText userKey state (o :: offers)).1.stats =
      { seekFile := some f, seekFileLevel := some level } := by
  have hcharge : state.charge.stats = { seekFile := some f, seekFileLevel := some level } := by
    unfold MatchState.charge
    rw [if_pos ⟨hstats, by rw [hfile]; exact Option.some_ne_none f⟩, hfile, hlevel]
  obtain ⟨hnext, -, -⟩ := matchFile_stats ok keyText userKey state o
  rw [hcharge] at hnext
  cases hmore : (matchFile ok keyText userKey state o.level o.file o.status o.saver).1 with
  | true =>
    rw [getFiles_go hmore]
    exact (getFiles_charged offers (by rw [hnext]; exact Option.some_ne_none f)).trans hnext
  | false =>
    rw [getFiles_stop hmore]
    exact hnext

/-- **Seek charging.** For every lookup, sequence of files and answers, the statistics name the
first file read and its level if at least two files were read, and no file otherwise. -/
theorem getFiles_stats (ok : Status → Bool) (keyText : U → String) (userKey : U)
    (offers : List (Offer U V N)) :
    let r := getFiles ok keyText userKey {} offers
    r.1.stats = match r.2 with
      | first :: _ :: _ => { seekFile := some first.file, seekFileLevel := some first.level }
      | _ => { seekFile := none, seekFileLevel := none } := by
  intro r
  cases offers with
  | nil => rfl
  | cons o offers =>
    obtain ⟨hstats, hfile, hlevel⟩ := matchFile_stats ok keyText userKey {} o
    cases hmore : (matchFile ok keyText userKey {} o.level o.file o.status o.saver).1 with
    | false =>
      have hr : r = _ := getFiles_stop hmore
      rw [hr]
      exact hstats
    | true =>
      have hr : r = _ := getFiles_go hmore
      rw [hr]
      cases offers with
      | nil => exact hstats
      | cons second offers =>
        have hnone : (matchFile ok keyText userKey {} o.level o.file o.status
            o.saver).2.stats.seekFile = none := by
          rw [hstats]
          rfl
        obtain ⟨rest, hrest⟩ := @getFiles_head U V N ok keyText userKey
          (matchFile ok keyText userKey {} o.level o.file o.status o.saver).2 second offers
        dsimp only
        rw [hrest]
        exact getFiles_second second offers hnone hfile hlevel

end Loop

end LevelDB
