import LevelDB.DbFormat
import LevelDB.Status
import LevelDB.VersionSet.Builder

/-!
# Version::Get

`matchFile` is `State::Match`, which `ForEachOverlapping` calls for one file after the other until
it returns false; `MatchState.result` is what `Version::Get` returns after the last call.

* `matchFile_found`, `matchFile_deleted`, `matchFile_notFound` — one call, by what the table cache
  answers.
-/

set_option autoImplicit false

namespace LevelDB

inductive SaverState (V : Type)
  | notFound
  | found (value : V)
  | deleted
  | corrupt

structure GetStats (U : Type) (N : Nat) where
  seekFile : Option (FileMetaData (InternalKey U)) := none
  /-- `none` is -1. -/
  seekFileLevel : Option (Fin N) := none

/-- `State` of `Version::Get`, with the statistics it points to. -/
structure MatchState (U V : Type) (N : Nat) where
  saver : SaverState V := .notFound
  stats : GetStats U N := {}
  lastFileRead : Option (FileMetaData (InternalKey U)) := none
  lastFileReadLevel : Option (Fin N) := none
  s : Status := .OK
  found : Bool := false

variable {U V : Type} {N : Nat}

/-- What a read returns: the status and, if one was found, the value. -/
abbrev GetResult (V : Type) : Type := Status × Option V

/-- The result that stands for an answer: a deletion and a missing key are not found. -/
def GetResult.ofAnswer : Option V → GetResult V
  | some v => (.OK, some v)
  | none => (.NotFound "" "", none)

/-- Charge the first file with the seek once a second one is read. -/
def MatchState.charge (state : MatchState U V N) : MatchState U V N :=
  if state.stats.seekFile = none ∧ state.lastFileRead ≠ none then
    { state with
      stats := { seekFile := state.lastFileRead, seekFileLevel := state.lastFileReadLevel } }
  else state

/-- `State::Match`, where `table_cache_->Get` has answered `s` and left the saver as `saver`; it
returns whether the search goes on. -/
def matchFile (ok : Status → Bool) (keyText : U → String) (userKey : U)
    (state : MatchState U V N) (level : Fin N) (f : FileMetaData (InternalKey U))
    (s : Status) (saver : SaverState V) : Bool × MatchState U V N :=
  let state := { state.charge with lastFileRead := some f, lastFileReadLevel := some level, s, saver }
  if ok s then
    match saver with
    | .notFound => (true, state)
    | .found _ => (false, { state with found := true })
    | .deleted => (false, state)
    | .corrupt =>
      (false, { state with s := .Corruption "corrupted key for " (keyText userKey), found := true })
  else (false, { state with found := true })

/-- What `Version::Get` returns. -/
def MatchState.result (state : MatchState U V N) : GetResult V :=
  if state.found then
    (state.s, match state.saver with
      | .found v => some v
      | _ => none)
  else (.NotFound "" "", none)

section Match

variable {ok : Status → Bool} {keyText : U → String} {userKey : U} {state : MatchState U V N}
  {level : Fin N} {f : FileMetaData (InternalKey U)}

@[simp] theorem MatchState.charge_found : state.charge.found = state.found := by
  unfold charge
  split
  · rfl
  · rfl

theorem matchFile_notFound (hok : ok .OK = true) :
    (matchFile ok keyText userKey state level f .OK .notFound).1 = true ∧
      (matchFile ok keyText userKey state level f .OK .notFound).2.found = state.found := by
  unfold matchFile
  rw [if_pos hok]
  exact ⟨rfl, MatchState.charge_found⟩

theorem matchFile_found (hok : ok .OK = true) (v : V) :
    (matchFile ok keyText userKey state level f .OK (.found v)).1 = false ∧
      (matchFile ok keyText userKey state level f .OK (.found v)).2.result =
        GetResult.ofAnswer (some v) := by
  unfold matchFile
  rw [if_pos hok]
  exact ⟨rfl, rfl⟩

theorem matchFile_deleted (hok : ok .OK = true) (hstate : state.found = false) :
    (matchFile ok keyText userKey state level f .OK .deleted).1 = false ∧
      (matchFile ok keyText userKey state level f .OK .deleted).2.result =
        GetResult.ofAnswer (none : Option V) := by
  unfold matchFile
  rw [if_pos hok]
  refine ⟨rfl, ?_⟩
  unfold MatchState.result
  rw [if_neg (by simp [hstate])]
  rfl

end Match

end LevelDB
