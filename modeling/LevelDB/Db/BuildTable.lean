import LevelDB.Db.Flush

/-!
# What BuildTable promises its caller

`tracedBuild` is `BuildTable` together with the fallible calls that it makes, each with the status
that it returned.

* `tracedBuild_built` — without the calls it is `buildTable`;
* `Ran.andThen` — in a chain in which each step needs the one before, only the last can have failed;
* `buildTable_fails_iff` — when `BuildTable` fails, what it still does then, and what it leaves;
* `buildContract_iff` — it never learns the size of the table, so it keeps what it promises only for
  an empty iterator and when it fails.
-/

set_option autoImplicit false

namespace LevelDB

variable {U V : Type}

inductive BuildCall
  | newWritableFile
  | finish
  | sync
  | close
  | check
  | removeFile
  deriving DecidableEq

/-- A status, and the calls that led to it with the statuses they returned. -/
abbrev CallTrace : Type := Status × List (BuildCall × Status)

section Model

variable (ok : Status → Bool)

/-- One more call, if the last one went well. -/
def CallTrace.andThen (r : CallTrace) (call : BuildCall × Status) : CallTrace :=
  if ok r.1 then (call.2, r.2 ++ [call]) else r

/-- `Finish`, `Sync`, `Close` and the check of the table. -/
def BuildOutcomes.tracedChain (o : BuildOutcomes U V) : CallTrace :=
  let r : CallTrace := (o.finish, [(.finish, o.finish)])
  let r := r.andThen ok (.sync, o.sync)
  let r := r.andThen ok (.close, o.close)
  r.andThen ok (.check, o.check)

def tracedEnd (tables : Nat → Option (List (Entry U V))) (fileMeta : TableMeta U) (s : Status)
    (o : BuildOutcomes U V) : Built U V × List (BuildCall × Status) :=
  (buildEnd ok tables fileMeta s o,
    if ok (if ok o.iter then s else o.iter) ∧ fileMeta.fileSize > 0 then []
    else [(.removeFile, o.remove)])

/-- `BuildTable` with the calls that it makes. -/
def tracedBuild (tables : Nat → Option (List (Entry U V))) (number : Nat)
    (iter : List (Entry U V)) (o : BuildOutcomes U V) :
    Option (Built U V × List (BuildCall × Status)) :=
  match iter with
  | [] => some (tracedEnd ok tables { number } .OK o)
  | first :: rest =>
    if ok o.newFile then
      if o.opened then
        let chain := o.tracedChain ok
        let r := tracedEnd ok
          (Function.update tables number
            (some (if o.finish = .OK then first :: rest else o.left)))
          { number, smallest := some first.key, largest := some (rest.getLastD first).key }
          chain.1 o
        some (r.1, (.newWritableFile, o.newFile) :: (chain.2 ++ r.2))
      else none
    else some ({ s := o.newFile, fileMeta := { number }, tables },
      [(.newWritableFile, o.newFile)])

end Model

section Trace

variable {ok : Status → Bool} {tables : Nat → Option (List (Entry U V))} {number : Nat}
  {iter : List (Entry U V)} {o : BuildOutcomes U V}

theorem CallTrace.andThen_status (r : CallTrace) (call : BuildCall × Status) :
    (r.andThen ok call).1 = if ok r.1 then call.2 else r.1 := by
  unfold andThen
  split
  · rfl
  · rfl

theorem tracedChain_status : (o.tracedChain ok).1 = o.chain ok := by
  unfold BuildOutcomes.tracedChain BuildOutcomes.chain
  dsimp only
  rw [CallTrace.andThen_status, CallTrace.andThen_status, CallTrace.andThen_status]

/-- The calls are only added to what `BuildTable` does. -/
theorem tracedBuild_built :
    (tracedBuild ok tables number iter o).map Prod.fst = buildTable ok tables number iter o := by
  unfold tracedBuild buildTable
  cases iter with
  | nil => rfl
  | cons first rest =>
    dsimp only
    rw [tracedChain_status]
    split
    · split
      · rfl
      · rfl
    · rfl

/-- The last call decides about the status, and the calls before it went well. -/
def Ran (ok : Status → Bool) (r : CallTrace) : Prop :=
  ∃ before last, r.2 = before ++ [last] ∧ last.2 = r.1 ∧ ∀ c ∈ before, ok c.2 = true

theorem Ran.andThen {r : CallTrace} (h : Ran ok r) (call : BuildCall × Status) :
    Ran ok (r.andThen ok call) := by
  unfold CallTrace.andThen
  split
  · rename_i hok
    obtain ⟨before, last, hcalls, hlast, hbefore⟩ := h
    refine ⟨r.2, call, rfl, rfl, fun c hc => ?_⟩
    rw [hcalls] at hc
    rcases List.mem_append.mp hc with hc | hc
    · exact hbefore c hc
    · rw [List.mem_singleton.mp hc, hlast]
      exact hok
  · exact h

theorem ran_tracedChain (o : BuildOutcomes U V) : Ran ok (o.tracedChain ok) := by
  have hfinish : Ran ok (o.finish, [(.finish, o.finish)]) :=
    ⟨[], _, rfl, rfl, fun _ hc => absurd hc List.not_mem_nil⟩
  exact ((hfinish.andThen _).andThen _).andThen _

theorem Ran.failed_iff {r : CallTrace} (h : Ran ok r) :
    (∃ c ∈ r.2, ok c.2 = false) ↔ ok r.1 = false := by
  obtain ⟨before, last, hcalls, hlast, hbefore⟩ := h
  rw [hcalls]
  constructor
  · rintro ⟨c, hc, hfail⟩
    rcases List.mem_append.mp hc with hc | hc
    · rw [hbefore c hc] at hfail
      cases hfail
    · rw [← hlast, ← List.mem_singleton.mp hc]
      exact hfail
  · intro hfail
    exact ⟨last, List.mem_append_right _ (List.mem_singleton.mpr rfl), by rw [hlast]; exact hfail⟩

/-- After a call that failed none is made. -/
theorem Ran.pairwise {r : CallTrace} (h : Ran ok r) : r.2.Pairwise fun c _ => ok c.2 = true := by
  obtain ⟨before, last, hcalls, -, hbefore⟩ := h
  rw [hcalls]
  refine List.pairwise_append.mpr ⟨?_, List.pairwise_singleton _ _, fun c hc _ _ => hbefore c hc⟩
  exact List.Pairwise.imp_of_mem (fun hc _ _ => hbefore _ hc) (List.pairwise_of_forall fun _ _ => trivial)

/-- The chain does not remove the file. -/
theorem tracedChain_not_removeFile {c : BuildCall × Status} (hc : c ∈ (o.tracedChain ok).2) :
    c.1 ≠ .removeFile := by
  have key : ∀ (r : CallTrace) (call : BuildCall × Status),
      (∀ c ∈ r.2, c.1 ≠ .removeFile) → call.1 ≠ .removeFile →
        ∀ c ∈ (r.andThen ok call).2, c.1 ≠ .removeFile := by
    intro r call hr hcall c hc
    unfold CallTrace.andThen at hc
    split at hc
    · rcases List.mem_append.mp hc with hc | hc
      · exact hr c hc
      · rw [List.mem_singleton.mp hc]
        exact hcall
    · exact hr c hc
  refine key _ (.check, o.check) (key _ (.close, o.close) (key _ (.sync, o.sync) ?_ ?_) ?_) ?_ c hc
  · intro c hc
    rw [List.mem_singleton.mp hc]
    exact fun heq => by cases heq
  all_goals exact fun heq => by cases heq

/-- As `file_size` is 0, the file is removed. -/
theorem buildEnd_removes {fileMeta : TableMeta U} (hsize : fileMeta.fileSize = 0) (s : Status) :
    tracedEnd ok tables fileMeta s o =
      ({ s := if ok o.iter then s else o.iter, fileMeta,
         tables := if o.remove = .OK then Function.update tables fileMeta.number none else tables },
        [(.removeFile, o.remove)]) := by
  have hnot : ¬ (ok (if ok o.iter then s else o.iter) = true ∧ fileMeta.fileSize > 0) := by
    rw [hsize]
    exact fun h => absurd h.2 (Nat.lt_irrefl 0)
  unfold tracedEnd buildEnd
  dsimp only
  rw [if_neg hnot, if_neg hnot]

theorem tracedBuild_nil :
    tracedBuild ok tables number [] o = some
      ({ s := if ok o.iter then .OK else o.iter, fileMeta := { number },
         tables := if o.remove = .OK then Function.update tables number none else tables },
        [(.removeFile, o.remove)]) :=
  congrArg some (buildEnd_removes rfl .OK)

theorem tracedBuild_created {first : Entry U V} {rest : List (Entry U V)}
    (hnew : ok o.newFile = true) (hopened : o.opened = true) :
    ∃ left, tracedBuild ok tables number (first :: rest) o = some
      ({ s := if ok o.iter then o.chain ok else o.iter
         fileMeta :=
          { number, smallest := some first.key, largest := some (rest.getLastD first).key }
         tables := if o.remove = .OK then
            Function.update (Function.update tables number (some left)) number none
          else Function.update tables number (some left) },
        (.newWritableFile, o.newFile) :: ((o.tracedChain ok).2 ++ [(.removeFile, o.remove)])) := by
  refine ⟨if o.finish = .OK then first :: rest else o.left, ?_⟩
  unfold tracedBuild
  dsimp only
  rw [if_pos hnew, if_pos hopened, buildEnd_removes rfl, tracedChain_status]

theorem tracedBuild_notCreated {first : Entry U V} {rest : List (Entry U V)}
    (hnew : ok o.newFile = false) :
    tracedBuild ok tables number (first :: rest) o = some
      ({ s := o.newFile, fileMeta := { number }, tables }, [(.newWritableFile, o.newFile)]) := by
  unfold tracedBuild
  dsimp only
  rw [if_neg (by simp [hnew])]

end Trace

/-! ## Failures -/

section Fails

variable {tables : Nat → Option (List (Entry U V))} {number : Nat} {iter : List (Entry U V)}
  {o : BuildOutcomes U V}

/-- What a call that is not over before the chain makes: the creation, the chain and the removal. -/
theorem pairwise_calls (hnew : o.newFile = .OK) :
    ((.newWritableFile, o.newFile) :: ((o.tracedChain Status.isOK).2 ++
      [(.removeFile, o.remove)])).Pairwise fun c d => c.2 = .OK ∨ d.1 = .removeFile := by
  refine List.pairwise_cons.mpr ⟨fun _ _ => Or.inl hnew, List.pairwise_append.mpr
    ⟨?_, List.pairwise_singleton _ _, fun _ _ d hd => ?_⟩⟩
  · exact (ran_tracedChain o).pairwise.imp fun h => Or.inl (Status.isOK_iff.mp h)
  · rw [List.mem_singleton.mp hd]
    exact Or.inr rfl

/-- **When `BuildTable` fails**: exactly if one of its steps or the iterator does; after a step that
failed it only removes the file, of which nothing is left. -/
theorem buildTable_fails_iff (tables : Nat → Option (List (Entry U V))) (number : Nat)
    (iter : List (Entry U V)) (o : BuildOutcomes U V)
    (hopened : o.newFile = .OK → o.opened = true) :
    ∃ b calls, tracedBuild Status.isOK tables number iter o = some (b, calls) ∧
      (b.s ≠ .OK ↔ (∃ c ∈ calls, c.1 ≠ .removeFile ∧ c.2 ≠ .OK) ∨ o.iter ≠ .OK) ∧
      calls.Pairwise (fun c d => c.2 = .OK ∨ d.1 = .removeFile) ∧
      (b.s ≠ .OK → tables number = none → o.remove = .OK → b.tables number = none) := by
  have hstatus : ∀ s, (if o.iter.isOK = true then s else o.iter) ≠ .OK ↔
      s ≠ .OK ∨ o.iter ≠ .OK := by
    intro s
    by_cases hiter : o.iter = .OK
    · simp [hiter]
    · simp [hiter]
  cases iter with
  | nil =>
    rw [tracedBuild_nil]
    refine ⟨_, _, rfl, ?_, List.pairwise_singleton _ _, fun _ _ hremove => ?_⟩
    · rw [hstatus]
      simp
    · dsimp only
      rw [if_pos hremove, Function.update_self]
  | cons first rest =>
    by_cases hnew : o.newFile = .OK
    · obtain ⟨left, hbuild⟩ := @tracedBuild_created U V Status.isOK tables number o first rest
        (Status.isOK_iff.mpr hnew) (hopened hnew)
      rw [hbuild]
      refine ⟨_, _, rfl, ?_, pairwise_calls hnew, fun _ _ hremove => ?_⟩
      · have hfailed := (@ran_tracedChain U V Status.isOK o).failed_iff
        simp only [Status.isOK_eq_false_iff, tracedChain_status] at hfailed
        rw [hstatus, ← hfailed]
        refine or_congr_left ⟨?_, ?_⟩
        · rintro ⟨c, hc, hfail⟩
          exact ⟨c, List.mem_cons_of_mem _ (List.mem_append_left _ hc),
            tracedChain_not_removeFile hc, hfail⟩
        · rintro ⟨c, hc, hcall, hfail⟩
          rcases List.mem_cons.mp hc with rfl | hc
          · exact absurd hnew hfail
          · rcases List.mem_append.mp hc with hc | hc
            · exact ⟨c, hc, hfail⟩
            · rw [List.mem_singleton.mp hc] at hcall
              exact absurd rfl hcall
      · dsimp only
        rw [if_pos hremove, Function.update_self]
    · rw [tracedBuild_notCreated (Status.isOK_eq_false_iff.mpr hnew)]
      refine ⟨_, _, rfl, ?_, List.pairwise_singleton _ _, fun _ habsent _ => habsent⟩
      exact iff_of_true hnew
        (Or.inl ⟨_, List.mem_singleton.mpr rfl, (fun heq => by cases heq), hnew⟩)

/-- A failed `Sync` ends the chain, and the file is removed. -/
theorem buildTable_fails_iff_sync :
    ∃ b calls, tracedBuild Status.isOK (fun _ => none) 5 [(⟨⟨7, 1, .value⟩, 70⟩ : Entry Nat Nat)]
        { sync := .IOError "sync" "" } = some (b, calls) ∧
      calls.map Prod.fst = [.newWritableFile, .finish, .sync, .removeFile] ∧
      b.s ≠ .OK ∧ b.tables 5 = none := by
  obtain ⟨b, calls, hbuild, hfails, -, hleft⟩ := buildTable_fails_iff (fun _ => none) 5
    [(⟨⟨7, 1, .value⟩, 70⟩ : Entry Nat Nat)] { sync := .IOError "sync" "" } (fun _ => rfl)
  have hcalls : ∀ b' calls', tracedBuild Status.isOK (fun _ => none) 5
      [(⟨⟨7, 1, .value⟩, 70⟩ : Entry Nat Nat)] { sync := .IOError "sync" "" } = some (b', calls') →
      calls' = [(.newWritableFile, .OK), (.finish, .OK), (.sync, .IOError "sync" ""),
        (.removeFile, .OK)] := by
    intro b' calls' h
    cases h
    rfl
  have hcalls := hcalls b calls hbuild
  have hs : b.s ≠ .OK := hfails.mpr (Or.inl ⟨(.sync, .IOError "sync" ""), by simp [hcalls],
    nofun, nofun⟩)
  exact ⟨b, calls, hbuild, by rw [hcalls]; rfl, hs, hleft hs rfl rfl⟩

end Fails

/-! ## Success -/

section Succeeds

variable {tables : Nat → Option (List (Entry U V))} {number : Nat} {iter : List (Entry U V)}
  {o : BuildOutcomes U V} {b : Built U V}

/-- What is promised to the caller, where `size` gives the size of a table file with these entries:
a table that can be added to a version, or no file. -/
def BuildContract (size : List (Entry U V) → Nat) (iter : List (Entry U V))
    (o : BuildOutcomes U V) (b : Built U V) : Prop :=
  (iter ≠ [] → b.s = .OK →
    b.tables b.fileMeta.number = some iter ∧ 0 < b.fileMeta.fileSize ∧
      b.fileMeta.fileSize = size iter ∧ b.fileMeta.smallest = iter.head?.map Entry.key ∧
      b.fileMeta.largest = iter.getLast?.map Entry.key) ∧
  (iter = [] → o.iter = .OK →
    b.s = .OK ∧ b.fileMeta.fileSize = 0 ∧ b.tables b.fileMeta.number = none)

/-- Every step succeeds, and the iterator ends without an error. -/
def BuildOutcomes.Succeed (o : BuildOutcomes U V) : Prop :=
  o.newFile = .OK ∧ o.finish = .OK ∧ o.sync = .OK ∧ o.close = .OK ∧ o.check = .OK ∧ o.iter = .OK

theorem BuildOutcomes.status_isOK (o : BuildOutcomes U V) :
    (o.status Status.isOK).isOK = true ↔ o.newFile = .OK ∧ o.finish = .OK ∧ o.sync = .OK ∧
      o.close = .OK ∧ o.check = .OK ∧ o.iter = .OK := by
  unfold status chain
  by_cases hnew : o.newFile = .OK
  · by_cases hiter : o.iter = .OK
    · by_cases hfinish : o.finish = .OK
      · by_cases hsync : o.sync = .OK
        · by_cases hclose : o.close = .OK
          · simp [hnew, hiter, hfinish, hsync, hclose]
          · simp [hnew, hiter, hfinish, hsync, hclose]
        · simp [hnew, hiter, hfinish, hsync]
      · simp [hnew, hiter, hfinish]
    · simp [hnew, hiter]
  · simp [hnew]

/-- For an empty iterator the contract is kept. -/
theorem buildContract_nil (size : List (Entry U V) → Nat) (habsent : tables number = none)
    (h : buildTable Status.isOK tables number [] o = some b) : BuildContract size [] o b := by
  rw [← tracedBuild_built, tracedBuild_nil] at h
  cases h
  refine ⟨fun hne => absurd rfl hne, fun _ hiter => ⟨if_pos (Status.isOK_iff.mpr hiter), rfl, ?_⟩⟩
  dsimp only
  split
  · exact Function.update_self _ _ _
  · exact habsent

/-- **When `BuildTable` keeps its contract**: for an empty iterator, and when something fails. The
size of a table that was built is never stored, so the file is removed again. -/
theorem buildContract_iff (size : List (Entry U V) → Nat) (habsent : tables number = none)
    (h : buildTable Status.isOK tables number iter o = some b) :
    BuildContract size iter o b ↔ iter = [] ∨ ¬ o.Succeed := by
  by_cases hiter : iter = []
  · subst hiter
    exact iff_of_true (buildContract_nil size habsent h) (Or.inl rfl)
  · have hsize : b.fileMeta.fileSize = 0 := (buildTable_eq_some h).2.1
    have hstatus : b.s = .OK ↔ o.Succeed := by
      rw [buildTable_status h hiter, ← Status.isOK_iff]
      exact o.status_isOK
    constructor
    · intro hcontract
      refine Or.inr fun hsucceed => ?_
      obtain ⟨-, hpos, -⟩ := hcontract.1 hiter (hstatus.mpr hsucceed)
      omega
    · intro hholds
      refine ⟨fun _ hok => ?_, fun hnil => absurd hnil hiter⟩
      exact absurd (hstatus.mp hok) (hholds.resolve_left hiter)

/-- With a failed `Finish` the contract is kept. -/
theorem buildContract_iff_finish :
    ∃ b, buildTable Status.isOK (fun _ => none) 5 [(⟨⟨7, 1, .value⟩, 70⟩ : Entry Nat Nat)]
        { finish := .IOError "finish" "" } = some b ∧
      BuildContract List.length [(⟨⟨7, 1, .value⟩, 70⟩ : Entry Nat Nat)]
        { finish := .IOError "finish" "" } b := by
  obtain ⟨b, hb⟩ : ∃ b, buildTable Status.isOK (fun _ => none) 5
      [(⟨⟨7, 1, .value⟩, 70⟩ : Entry Nat Nat)] { finish := .IOError "finish" "" } = some b :=
    ⟨_, rfl⟩
  refine ⟨b, hb, (buildContract_iff List.length rfl hb).mpr (Or.inr ?_)⟩
  rintro ⟨-, hfinish, -⟩
  cases hfinish

/-- All goes well, and the table of one entry is gone. -/
theorem buildTable_removes_table :
    ∃ b, buildTable Status.isOK (fun _ => none) 5 [(⟨⟨7, 1, .value⟩, 70⟩ : Entry Nat Nat)] {} =
        some b ∧ b.s = .OK ∧ b.fileMeta.fileSize = 0 ∧ b.tables 5 = none ∧
      ¬ BuildContract List.length [(⟨⟨7, 1, .value⟩, 70⟩ : Entry Nat Nat)] {} b := by
  refine ⟨_, rfl, rfl, rfl, rfl, fun hcontract => ?_⟩
  obtain ⟨-, hpos, -⟩ := hcontract.1 (List.cons_ne_nil _ _) rfl
  exact absurd hpos (Nat.lt_irrefl 0)

end Succeeds

end LevelDB
