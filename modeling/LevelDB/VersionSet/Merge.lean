import LevelDB.VersionSet.Compose

/-!
# What a builder saves

`Apply` keeps one deleted set and one added set for each level, and `SaveTo` merges the added files
with those of the base version.

* `mem_deletedFiles_applyAll`, `mem_addedFiles_applyAll` — the two sets after a sequence of edits;
* `saveTo_merges` — each level that is saved is sorted, and lists once each file of the base and
  each added file that is not in the final deleted set.
-/

set_option autoImplicit false

namespace LevelDB

variable {K : Type} {N : Nat} {icmp : K → K → Ordering}

/-- The final deleted set of a level: an edit deletes the number, and neither this edit nor a later
one adds it. -/
def FinallyDeleted (edits : List (VersionEdit K N)) (level : Fin N) (number : Nat) : Prop :=
  ∃ before e after, edits = before ++ e :: after ∧ number ∈ e.deletedAt level ∧
    ∀ e' ∈ e :: after, number ∉ (e'.newAt level).map FileMetaData.number

theorem not_finallyDeleted_nil (level : Fin N) (n : Nat) :
    ¬ FinallyDeleted ([] : List (VersionEdit K N)) level n := by
  rintro ⟨before, e, after, heq, -⟩
  exact List.append_ne_nil_of_right_ne_nil before (List.cons_ne_nil e after) heq.symm

/-- The number is deleted by the first edit, or by one of the others. -/
theorem finallyDeleted_cons {e : VersionEdit K N} {es : List (VersionEdit K N)} {level : Fin N}
    {n : Nat} :
    FinallyDeleted (e :: es) level n ↔ FinallyDeleted es level n ∨
      n ∈ e.deletedAt level ∧ ∀ e' ∈ e :: es, n ∉ (e'.newAt level).map FileMetaData.number := by
  constructor
  · rintro ⟨before, d, after, heq, hdel, hnew⟩
    cases before with
    | nil =>
      cases heq
      exact Or.inr ⟨hdel, hnew⟩
    | cons b before =>
      cases heq
      exact Or.inl ⟨before, d, after, rfl, hdel, hnew⟩
  · rintro (⟨before, d, after, rfl, hdel, hnew⟩ | ⟨hdel, hnew⟩)
    · exact ⟨e :: before, d, after, rfl, hdel, hnew⟩
    · exact ⟨[], e, es, rfl, hdel, hnew⟩

section Saves

variable [Std.TransCmp icmp]

namespace Builder

/-- **The deleted set after all edits**: what they finally delete, and what was deleted before and
is not added again. -/
theorem mem_deletedFiles_applyAll (level : Fin N) (n : Nat) :
    ∀ (edits : List (VersionEdit K N)) (b : Builder icmp N),
      n ∈ ((b.applyAll edits).levels level).deletedFiles ↔
        FinallyDeleted edits level n ∨ n ∈ (b.levels level).deletedFiles ∧
          ∀ e ∈ edits, n ∉ (e.newAt level).map FileMetaData.number
  | [], b => by
    have hnone := @not_finallyDeleted_nil K N level n
    simp [hnone, applyAll]
  | e :: es, b => by
    have ih := mem_deletedFiles_applyAll level n es (b.apply e)
    rw [mem_deletedFiles_apply] at ih
    rw [finallyDeleted_cons, List.forall_mem_cons]
    refine ih.trans ?_
    grind

/-- **The added set after all edits.** -/
theorem mem_addedFiles_applyAll (level : Fin N) (f : FileMetaData K) :
    ∀ (edits : List (VersionEdit K N)) (b : Builder icmp N), b.FreshAll edits →
      (f ∈ ((b.applyAll edits).levels level).addedFiles.toList ↔
        f ∈ (b.levels level).addedFiles.toList ∨
          ∃ e ∈ edits, ∃ g ∈ e.newAt level, f = g.adopted)
  | [], b, _ => by simp [applyAll]
  | e :: es, b, hfresh => by
    have ih := mem_addedFiles_applyAll level f es (b.apply e) hfresh.tail
    rw [mem_addedFiles_apply (hfresh.head level)] at ih
    refine ih.trans ?_
    simp only [List.mem_cons, exists_eq_or_imp]
    exact or_assoc

end Builder

/-- **The merge is exact.** When every overlap assertion passes, each level of the saved version is
strictly sorted by smallest key and number, and it lists exactly once each file of the base version
and each added file whose number is not in the final deleted set of the level. -/
theorem saveTo_merges {cp : Fin N → Option K} {base v : Version K N}
    {edits : List (VersionEdit K N)} (hsorted : base.Sorted icmp) (honce : AddedOnce base edits)
    (hsave : ((Builder.new icmp cp base).applyAll edits).saveTo = some v) (level : Fin N) :
    (v.files level).Pairwise (bySmallestKey icmp) ∧ (v.files level).Nodup ∧
      ∀ f, f ∈ v.files level ↔
        (f ∈ base.files level ∨ ∃ e ∈ edits, ∃ g ∈ e.newAt level, f = g.adopted) ∧
          ¬ FinallyDeleted edits level f.number := by
  have hfresh := honce.freshAll icmp cp
  have hlevel : (v.files level).Pairwise (bySmallestKey icmp) :=
    applyAll_saveTo_sorted hsorted honce hsave level
  refine ⟨hlevel, hlevel.imp fun {f g} hlt heq => ?_, fun f => ?_⟩
  · subst heq
    exact irrefl f hlt
  obtain ⟨hbase, -⟩ := Builder.applyAll_apart (Builder.new_apart cp base) hfresh
  obtain ⟨-, rfl⟩ := Builder.saveTo_eq_some.mp hsave
  have hadded := Builder.mem_addedFiles_applyAll level f edits _ hfresh
  have hdeleted := Builder.mem_deletedFiles_applyAll level f.number edits
    (Builder.new icmp cp base)
  have hnone : f ∉ ((Builder.new icmp cp base).levels level).addedFiles.toList :=
    List.not_mem_nil
  have hkept : f.number ∉ ((Builder.new icmp cp base).levels level).deletedFiles :=
    Finset.notMem_empty _
  show f ∈ ((Builder.new icmp cp base).applyAll edits).survivors level ↔ _
  unfold Builder.survivors
  rw [LevelState.mem_survivors, hadded, hdeleted, hbase]
  simp only [hnone, hkept, false_or, false_and, or_false]
  exact and_congr_left' or_comm

/-- File 5 has the smallest key of file 3 and follows it; file 4 is deleted, and file 6 is deleted
and added by one edit. -/
theorem saveTo_merges_tie :
    let base : Version Nat 2 := { files := fun level => if level = 0 then
      [{ number := 3, smallest := 1, largest := 4 }, { number := 4, smallest := 2, largest := 3 }]
      else [] }
    let edits : List (VersionEdit Nat 2) :=
      [({} : VersionEdit Nat 2).addFile 0 5 9 1 2,
        ({} : VersionEdit Nat 2).removeFile 0 4 |>.removeFile 0 6 |>.addFile 0 6 9 0 3]
    ∃ v, ((Builder.new compare (fun _ => none) base).applyAll edits).saveTo = some v ∧
      (v.files 0).map FileMetaData.number = [6, 3, 5] ∧
      (v.files 0).Nodup ∧ FinallyDeleted edits 0 4 := by
  intro base edits
  obtain ⟨v, hv, hfiles⟩ : ∃ v, ((Builder.new compare (fun _ => none) base).applyAll edits).saveTo =
      some v ∧ (v.files 0).map FileMetaData.number = [6, 3, 5] := ⟨_, rfl, rfl⟩
  obtain ⟨-, hnodup, -⟩ := saveTo_merges (by unfold Version.Sorted; decide)
    (by unfold AddedOnce; decide) hv 0
  exact ⟨v, hv, hfiles, hnodup, [edits.head (by simp [edits])], _, [], rfl, by decide, by decide⟩

end Saves

end LevelDB
