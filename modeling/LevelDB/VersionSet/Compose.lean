import LevelDB.VersionSet.Builder

/-!
# A batch of edits and the edits one at a time

Recovery applies all edits of a manifest to one builder, `LogAndApply` builds a version for each
edit. The combined builder keeps one deleted set and one added set per level instead of the order
of events; `Agrees` relates them to the version built so far, and every edit preserves it.

* `Agrees.apply` — the step lemma;
* `applyAll_saveTo` — the combined builder saves the files and compaction pointers of the last
  step-by-step version.
-/

set_option autoImplicit false

namespace LevelDB

variable {K : Type} {N : Nat} {icmp : K → K → Ordering}

/-- Each level is sorted by smallest key and number. -/
def Version.Sorted (icmp : K → K → Ordering) (v : Version K N) : Prop :=
  ∀ level, (v.files level).Pairwise (bySmallestKey icmp)

/-- No file number is used twice at a level by the base files and the added files together. -/
def AddedOnce (base : Version K N) (edits : List (VersionEdit K N)) : Prop :=
  ∀ level, ((base.files level ++ edits.flatMap (fun e => e.newAt level)).map
    FileMetaData.number).Nodup

/-- **The simulation relation**: the survivors of the builder are the files of the version. -/
structure Agrees (b : Builder icmp N) (s : (Fin N → Option K) × Version K N) : Prop where
  pointers : b.compactPointer = s.1
  base_sorted : b.base.Sorted icmp
  apart : ∀ level, b.Apart level
  survivors : ∀ level, s.2.files level = b.survivors level

/-- The files that the remaining edits add are new to the builder. -/
def Builder.FreshAll (b : Builder icmp N) (edits : List (VersionEdit K N)) : Prop :=
  ∀ level, b.Fresh level (edits.flatMap (fun e => e.newAt level))

theorem Builder.FreshAll.head {b : Builder icmp N} {e : VersionEdit K N}
    {es : List (VersionEdit K N)} (h : b.FreshAll (e :: es)) (level : Fin N) :
    b.Fresh level (e.newAt level) := by
  obtain ⟨hnodup, hnew⟩ := h level
  rw [List.flatMap_cons] at hnodup hnew
  rw [List.map_append] at hnodup
  exact ⟨(List.nodup_append.mp hnodup).1, fun g hg => hnew g (List.mem_append_left _ hg)⟩

/-- What a version lists is held by the builder it agrees with. -/
theorem Agrees.fresh {b : Builder icmp N} {s : (Fin N → Option K) × Version K N}
    (h : Agrees b s) {level : Fin N} {fs : List (FileMetaData K)} (hfresh : b.Fresh level fs) :
    (Builder.new icmp s.1 s.2).Fresh level fs := by
  refine ⟨hfresh.1, ?_⟩
  intro g hg f hf
  rcases hf with hf | hf
  · exact absurd hf List.not_mem_nil
  · have hf : f ∈ s.2.files level := hf
    rw [h.survivors level] at hf
    exact hfresh.2 g hg f (LevelState.mem_survivors.mp hf).1

/-- The files of all edits are new to a builder on the base version. -/
theorem AddedOnce.freshAll {base : Version K N} {edits : List (VersionEdit K N)}
    (honce : AddedOnce base edits) (icmp : K → K → Ordering) (cp : Fin N → Option K) :
    (Builder.new icmp cp base).FreshAll edits := by
  intro level
  have hlevel := honce level
  rw [List.map_append] at hlevel
  obtain ⟨_, hnodup, hdisjoint⟩ := List.nodup_append.mp hlevel
  refine ⟨hnodup, ?_⟩
  intro g hg f hf
  rcases hf with hf | hf
  · cases hf
  · exact hdisjoint _ (List.mem_map.mpr ⟨f, hf, rfl⟩) _ (List.mem_map.mpr ⟨g, hg, rfl⟩)

section Builds

variable [Std.TransCmp icmp]

namespace Builder

def applyAll (b : Builder icmp N) (edits : List (VersionEdit K N)) : Builder icmp N :=
  edits.foldl apply b

end Builder

variable (icmp) in
/-- One step-by-step build: a builder on the version saved before. -/
def buildStep (s : (Fin N → Option K) × Version K N) (edit : VersionEdit K N) :
    Option ((Fin N → Option K) × Version K N) :=
  let b := (Builder.new icmp s.1 s.2).apply edit
  b.saveTo.map fun v => (b.compactPointer, v)

variable (icmp) in
def buildSteps (s : (Fin N → Option K) × Version K N) (edits : List (VersionEdit K N)) :
    Option ((Fin N → Option K) × Version K N) :=
  edits.foldlM (buildStep icmp) s

theorem Builder.FreshAll.tail {b : Builder icmp N} {e : VersionEdit K N}
    {es : List (VersionEdit K N)} (h : b.FreshAll (e :: es)) : (b.apply e).FreshAll es := by
  intro level
  obtain ⟨hnodup, hnew⟩ := h level
  rw [List.flatMap_cons] at hnodup hnew
  rw [List.map_append] at hnodup
  obtain ⟨_, hnodup, hdisjoint⟩ := List.nodup_append.mp hnodup
  refine ⟨hnodup, ?_⟩
  intro g hg f hf
  rw [Builder.apply_base, Builder.mem_addedFiles_apply (h.head level)] at hf
  rcases hf with (hf | ⟨x, hx, rfl⟩) | hf
  · exact hnew g (List.mem_append_right _ hg) f (Or.inl hf)
  · rw [FileMetaData.adopted_number]
    exact hdisjoint _ (List.mem_map.mpr ⟨x, hx, rfl⟩) _ (List.mem_map.mpr ⟨g, hg, rfl⟩)
  · exact hnew g (List.mem_append_right _ hg) f (Or.inr hf)

/-- **The step lemma**: the two ways of applying an edit keep agreeing. -/
theorem Agrees.apply {b : Builder icmp N} {s s' : (Fin N → Option K) × Version K N}
    {e : VersionEdit K N} (h : Agrees b s) (hfresh : ∀ level, b.Fresh level (e.newAt level))
    (hstep : buildStep icmp s e = some s') : Agrees (b.apply e) s' := by
  obtain ⟨v', hsave, rfl⟩ := Option.map_eq_some_iff.mp hstep
  obtain ⟨_, rfl⟩ := Builder.saveTo_eq_some.mp hsave
  have hfresh' := fun level => h.fresh (hfresh level)
  refine ⟨?_, ?_, fun level => (h.apart level).apply (hfresh level), ?_⟩
  · rw [Builder.apply_compactPointer, Builder.apply_compactPointer, h.pointers]
    rfl
  · rw [Builder.apply_base]
    exact h.base_sorted
  · intro level
    have hsorted : (s.2.files level).Pairwise (bySmallestKey icmp) := by
      rw [h.survivors level]
      exact Builder.survivors_pairwise (h.apart level) (h.base_sorted level)
    have hone : (((Builder.new icmp s.1 s.2).apply e).survivors level).Pairwise
        (bySmallestKey icmp) := by
      refine Builder.survivors_pairwise ((Builder.new_apart _ _ level).apply (hfresh' level)) ?_
      rw [Builder.apply_base]
      exact hsorted
    have hall : ((b.apply e).survivors level).Pairwise (bySmallestKey icmp) := by
      refine Builder.survivors_pairwise ((h.apart level).apply (hfresh level)) ?_
      rw [Builder.apply_base]
      exact h.base_sorted level
    refine hone.eq_of_mem_iff hall fun f => ?_
    rw [Builder.mem_survivors_apply (hfresh' level), Builder.mem_survivors_apply (hfresh level),
      Builder.new_survivors, h.survivors level]

theorem Agrees.applyAll :
    ∀ {edits : List (VersionEdit K N)} {b : Builder icmp N}
      {s s' : (Fin N → Option K) × Version K N}, Agrees b s → b.FreshAll edits →
      buildSteps icmp s edits = some s' → Agrees (b.applyAll edits) s'
  | [], b, s, s', h, _, hrun => by
    cases hrun
    exact h
  | e :: es, b, s, s', h, hfresh, hrun => by
    unfold buildSteps at hrun
    rw [List.foldlM_cons] at hrun
    obtain ⟨mid, hmid, hrest⟩ := Option.bind_eq_some_iff.mp hrun
    exact (h.apply hfresh.head hmid).applyAll hfresh.tail hrest

/-- Every saved version has passed the overlap assertions. -/
theorem buildSteps_noOverlap :
    ∀ {edits : List (VersionEdit K N)} {s s' : (Fin N → Option K) × Version K N},
      edits ≠ [] ∨ (∀ level, NoOverlap icmp level (s.2.files level)) →
      buildSteps icmp s edits = some s' → ∀ level, NoOverlap icmp level (s'.2.files level)
  | [], s, s', h, hrun, level => by
    cases hrun
    exact h.elim (fun h => absurd rfl h) (fun h => h level)
  | e :: es, s, s', _, hrun, level => by
    unfold buildSteps at hrun
    rw [List.foldlM_cons] at hrun
    obtain ⟨mid, hmid, hrest⟩ := Option.bind_eq_some_iff.mp hrun
    obtain ⟨v, hsave, rfl⟩ := Option.map_eq_some_iff.mp hmid
    obtain ⟨hpass, rfl⟩ := Builder.saveTo_eq_some.mp hsave
    exact buildSteps_noOverlap (Or.inr hpass) hrest level

theorem Builder.applyAll_apart :
    ∀ {edits : List (VersionEdit K N)} {b : Builder icmp N}, (∀ level, b.Apart level) →
      b.FreshAll edits → (b.applyAll edits).base = b.base ∧
        ∀ level, (b.applyAll edits).Apart level
  | [], _, h, _ => ⟨rfl, h⟩
  | e :: es, b, h, hfresh => by
    obtain ⟨hbase, hapart⟩ := Builder.applyAll_apart
      (fun level => (h level).apply (hfresh.head level)) hfresh.tail
    rw [Builder.apply_base] at hbase
    exact ⟨hbase, hapart⟩

/-- **What a builder saves is sorted** when its base is and no file number is used twice. -/
theorem applyAll_saveTo_sorted {cp : Fin N → Option K} {base v : Version K N}
    {edits : List (VersionEdit K N)} (hsorted : base.Sorted icmp) (honce : AddedOnce base edits)
    (hsave : ((Builder.new icmp cp base).applyAll edits).saveTo = some v) : v.Sorted icmp := by
  obtain ⟨hbase, hapart⟩ := Builder.applyAll_apart (Builder.new_apart cp base)
    (honce.freshAll icmp cp)
  obtain ⟨-, rfl⟩ := Builder.saveTo_eq_some.mp hsave
  intro level
  refine Builder.survivors_pairwise (hapart level) ?_
  rw [hbase]
  exact hsorted level

/-- **A batch of edits is the edits one at a time.** If every step-by-step build passes its
assertions, then so does the one builder that applies all edits, and it saves the files and the
compaction pointers of the last step-by-step version. Without edits that version is `base`, whose
levels have to be free of overlaps as those of every saved version are. -/
theorem applyAll_saveTo (icmp : K → K → Ordering) [Std.TransCmp icmp] (cp : Fin N → Option K)
    (base : Version K N) (edits : List (VersionEdit K N)) (hsorted : base.Sorted icmp)
    (honce : AddedOnce base edits)
    (hbuilt : edits ≠ [] ∨ ∀ level, NoOverlap icmp level (base.files level))
    {cp' : Fin N → Option K} {v : Version K N}
    (hrun : buildSteps icmp (cp, base) edits = some (cp', v)) :
    ∃ saved, ((Builder.new icmp cp base).applyAll edits).saveTo = some saved ∧
      saved.files = v.files ∧
      ((Builder.new icmp cp base).applyAll edits).compactPointer = cp' := by
  have hfresh := honce.freshAll icmp cp
  have hstart : Agrees (Builder.new icmp cp base) (cp, base) :=
    ⟨rfl, hsorted, Builder.new_apart cp base,
      fun level => (Builder.new_survivors cp base level).symm⟩
  have hend := hstart.applyAll hfresh hrun
  have hfiles : v.files = ((Builder.new icmp cp base).applyAll edits).survivors :=
    funext hend.survivors
  refine ⟨{ files := v.files }, Builder.saveTo_eq_some.mpr ⟨?_, ?_⟩, rfl, hend.pointers⟩
  · rw [← hfiles]
    exact buildSteps_noOverlap hbuilt hrun
  · rw [hfiles]

/-- File 7 moves from level 1 to level 0 and is then deleted there, as file 8 replaces it. -/
theorem applyAll_saveTo_two :
    let file : FileMetaData Nat := { number := 7, fileSize := 5, smallest := 1, largest := 3 }
    let base : Version Nat 2 := { files := fun level => if level = 1 then [file] else [] }
    let edits : List (VersionEdit Nat 2) :=
      [({} : VersionEdit Nat 2).setCompactPointer 1 3 |>.removeFile 1 7 |>.addFile 0 7 5 1 3,
        ({} : VersionEdit Nat 2).removeFile 0 7 |>.addFile 1 8 5 1 3]
    ∃ saved, ((Builder.new compare (fun _ => none) base).applyAll edits).saveTo =
        some saved ∧ (saved.files 1).map FileMetaData.number = [8] := by
  intro file base edits
  obtain ⟨saved, hsaved, hfiles, -⟩ := applyAll_saveTo compare (fun _ => none) base edits
    (by unfold Version.Sorted; decide) (by unfold AddedOnce; decide) (Or.inl (by simp [edits])) rfl
  exact ⟨saved, hsaved, by rw [hfiles]; rfl⟩

end Builds

end LevelDB
