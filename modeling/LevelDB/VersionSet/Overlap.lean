import LevelDB.VersionSet.Merge

/-!
# The overlap assertion of the builder

Above level 0 `MaybeAddFile` asserts that the last file it kept ends below the next one. The files
are met in the order of their smallest keys, so that this comparison of neighbours decides whether
any two of the kept files have a key in common.

* `isChain_iff_pairwise_apart` — neighbours against all pairs;
* `saveLevel_kept` — a level is saved as if its deleted files had never been there;
* `mem_of_mem_remaining` — which files remain after a sequence of edits;
* `overlapAssertions_exact` — the assertions of a level pass exactly when its remaining files are
  pairwise disjoint.
-/

set_option autoImplicit false

namespace LevelDB

variable {K : Type} {N : Nat} {icmp : K → K → Ordering}

/-- The key lies in the range of the file. -/
def FileMetaData.Covers (icmp : K → K → Ordering) (f : FileMetaData K) (k : K) : Prop :=
  (icmp f.smallest k).isLE = true ∧ (icmp k f.largest).isLE = true

/-- No key lies in the ranges of both files. -/
def RangesApart (icmp : K → K → Ordering) (f g : FileMetaData K) : Prop :=
  ∀ k, ¬ (f.Covers icmp k ∧ g.Covers icmp k)

def FileMetaData.WellRanged (icmp : K → K → Ordering) (f : FileMetaData K) : Prop :=
  (icmp f.smallest f.largest).isLE = true

theorem RangesApart.symm {f g : FileMetaData K} (h : RangesApart icmp f g) :
    RangesApart icmp g f :=
  fun k hk => h k hk.symm

section Chain

variable [Std.TransCmp icmp]

/-- Of two disjoint ranges the one that starts first ends before the other. -/
theorem rangesApart_iff {f g : FileMetaData K} (hg : g.WellRanged icmp)
    (hstart : (icmp f.smallest g.smallest).isLE = true) :
    RangesApart icmp f g ↔ icmp f.largest g.smallest = .lt := by
  constructor
  · intro hapart
    by_contra hnot
    refine hapart g.smallest ⟨⟨hstart, ?_⟩, Std.ReflCmp.isLE_rfl, hg⟩
    by_contra hle
    exact hnot (Std.OrientedCmp.lt_of_not_isLE hle)
  · rintro hlt k ⟨⟨-, hkf⟩, hgk, -⟩
    have hkg : icmp k g.smallest = .lt := Std.TransCmp.lt_of_isLE_of_lt hkf hlt
    exact Std.OrientedCmp.not_lt_of_isLE hgk hkg

/-- **Comparing neighbours is comparing all pairs**, for files in the order of their smallest
keys. -/
theorem isChain_iff_pairwise_apart :
    ∀ {l : List (FileMetaData K)}, (∀ f ∈ l, f.WellRanged icmp) →
      l.Pairwise (fun f g => (icmp f.smallest g.smallest).isLE = true) →
      (l.IsChain (fun f g => icmp f.largest g.smallest = .lt) ↔ l.Pairwise (RangesApart icmp))
  | [], _, _ => by simp
  | [f], _, _ => by simp
  | f :: g :: l, hranged, hsorted => by
    obtain ⟨hf, hrest⟩ := List.pairwise_cons.mp hsorted
    obtain ⟨hg, -⟩ := List.pairwise_cons.mp hrest
    have ih := isChain_iff_pairwise_apart (fun x hx => hranged x (List.mem_cons_of_mem f hx)) hrest
    have hapart : ∀ x ∈ g :: l, (RangesApart icmp f x ↔ icmp f.largest x.smallest = .lt) :=
      fun x hx => rangesApart_iff (hranged x (List.mem_cons_of_mem f hx)) (hf x hx)
    rw [List.isChain_cons_cons, List.pairwise_cons, ih]
    refine and_congr_left' ⟨fun hlt x hx => (hapart x hx).mpr ?_, fun hall =>
      (hapart g List.mem_cons_self).mp (hall g List.mem_cons_self)⟩
    rcases List.mem_cons.mp hx with rfl | hx
    · exact hlt
    · exact Std.TransCmp.lt_of_lt_of_isLE hlt (hg x hx)

theorem equivalent_iff {f g : FileMetaData K} :
    Ordered.Equivalent (bySmallestKey icmp) f g ↔
      icmp f.smallest g.smallest = .eq ∧ f.number = g.number := by
  unfold Ordered.Equivalent
  have hswap : icmp g.smallest f.smallest = (icmp f.smallest g.smallest).swap :=
    Std.OrientedCmp.eq_swap
  rw [bySmallestKey_iff, bySmallestKey_iff, hswap]
  cases icmp f.smallest g.smallest with
  | lt => simp
  | gt => simp
  | eq =>
    simp only [reduceCtorEq, false_or, true_and, Ordering.swap_eq]
    omega

instance : IsStrictWeakOrder (FileMetaData K) (bySmallestKey icmp) where
  incomp_trans f g h hfg hgh := by
    obtain ⟨hsmallest, hnumber⟩ := equivalent_iff.mp hfg
    obtain ⟨hsmallest', hnumber'⟩ := equivalent_iff.mp hgh
    exact equivalent_iff.mpr ⟨Std.TransCmp.eq_trans hsmallest hsmallest', hnumber.trans hnumber'⟩

/-- A file that is not below another in the order of the builder does not start before it. -/
theorem isLE_of_not_bySmallestKey {f g : FileMetaData K} (h : ¬ bySmallestKey icmp g f) :
    (icmp f.smallest g.smallest).isLE = true := by
  rw [bySmallestKey_iff, not_or] at h
  by_contra hle
  exact h.1 (Std.OrientedCmp.lt_of_not_isLE hle)

end Chain

/-! ## Deleted files -/

/-- `SaveTo` at one level. -/
def Builder.saveAt (b : Builder icmp N) (level : Fin N) : Option (List (FileMetaData K)) :=
  (b.levels level).saveLevel level (b.levels level).addedFiles.toList (b.base.files level) []

/-- The files of the base and the added files of a level that are not deleted. -/
def Builder.remaining (b : Builder icmp N) (level : Fin N) : List (FileMetaData K) :=
  (b.levels level).kept ((b.levels level).addedFiles.toList ++ b.base.files level)

theorem Builder.survivors_perm (b : Builder icmp N) (level : Fin N) :
    (b.survivors level).Perm (b.remaining level) :=
  (Ordered.upperMerge_perm _ _).filter _

theorem LevelState.kept_kept (st : LevelState icmp) (l : List (FileMetaData K)) :
    st.kept (st.kept l) = st.kept l := List.filter_filter.trans (by simp [kept])

section Deleted

variable [Std.TransCmp icmp] {level : Fin N}

/-- **A level is saved as if its deleted files had never been there.** -/
theorem LevelState.saveLevel_kept (st : LevelState icmp) {base : List (FileMetaData K)}
    (hbase : base.Pairwise (fun f g => ¬ bySmallestKey icmp g f)) :
    st.saveLevel level (st.kept st.addedFiles.toList) (st.kept base) [] =
      st.saveLevel level st.addedFiles.toList base [] := by
  have hmerge : Ordered.upperMerge (bySmallestKey icmp) (st.kept st.addedFiles.toList)
      (st.kept base) = st.survivors base :=
    Ordered.upperMerge_filter _ st.addedFiles.sorted hbase
  ext v
  rw [saveLevel_eq_some, saveLevel_eq_foldlM, hmerge, foldlM_maybeAddFile _ v
    (noOverlap_nil level)]
  unfold survivors
  rw [kept_kept, List.nil_append]

namespace Builder

theorem survivors_ordered {b : Builder icmp N}
    (hbase : (b.base.files level).Pairwise (fun f g => ¬ bySmallestKey icmp g f)) :
    (b.survivors level).Pairwise (fun f g => (icmp f.smallest g.smallest).isLE = true) := by
  have hmerge := Ordered.upperMerge_ordered (b.levels level).addedFiles.sorted hbase
  exact (hmerge.filter _).imp isLE_of_not_bySmallestKey

/-- **The assertions of one level**, for any builder. -/
theorem saveAt_isSome_iff {b : Builder icmp N} (hlevel : 0 < level.val)
    (hbase : (b.base.files level).Pairwise (fun f g => ¬ bySmallestKey icmp g f))
    (hranged : ∀ f ∈ b.remaining level, f.WellRanged icmp) :
    (b.saveAt level).isSome = true ↔ (b.remaining level).Pairwise (RangesApart icmp) := by
  have hperm := b.survivors_perm level
  have hsave : (b.saveAt level).isSome = true ↔ NoOverlap icmp level (b.survivors level) := by
    rw [Option.isSome_iff_exists]
    unfold saveAt
    constructor
    · rintro ⟨v, hv⟩
      exact (LevelState.saveLevel_eq_some.mp hv).1
    · intro h
      exact ⟨_, LevelState.saveLevel_eq_some.mpr ⟨h, rfl⟩⟩
  have hchain := isChain_iff_pairwise_apart (fun f hf => hranged f (hperm.mem_iff.mp hf))
    (survivors_ordered hbase)
  rw [hsave, ← hperm.pairwise_iff (fun h => h.symm), ← hchain]
  unfold NoOverlap
  exact ⟨fun h => h hlevel, fun h _ => h⟩

/-! ## Any sequence of edits -/

theorem applyAll_base : ∀ (edits : List (VersionEdit K N)) (b : Builder icmp N),
    (b.applyAll edits).base = b.base
  | [], _ => rfl
  | e :: es, b => (applyAll_base es (b.apply e)).trans (apply_base b e)

theorem mem_of_mem_addedFiles_applyAll {f : FileMetaData K} :
    ∀ (edits : List (VersionEdit K N)) (b : Builder icmp N),
      f ∈ ((b.applyAll edits).levels level).addedFiles.toList →
        f ∈ (b.levels level).addedFiles.toList ∨ ∃ e ∈ edits, ∃ g ∈ e.newAt level, f = g.adopted
  | [], _, h => Or.inl h
  | e :: es, b, h => by
    rcases mem_of_mem_addedFiles_applyAll es (b.apply e) h with h | ⟨e', he', hg⟩
    · rw [apply_levels] at h
      rcases LevelState.mem_of_mem_foldl_add f _ _ h with h | hg
      · rw [LevelState.addedFiles_foldl_delete] at h
        exact Or.inl h
      · exact Or.inr ⟨e, List.mem_cons_self, hg⟩
    · exact Or.inr ⟨e', List.mem_cons_of_mem e he', hg⟩

/-- The files that remain after the edits are files of the base or of an edit, and no edit deletes
them for good. -/
theorem mem_of_mem_remaining {cp : Fin N → Option K} {base : Version K N}
    {edits : List (VersionEdit K N)} {f : FileMetaData K}
    (h : f ∈ ((new icmp cp base).applyAll edits).remaining level) :
    (f ∈ base.files level ∨ ∃ e ∈ edits, ∃ g ∈ e.newAt level, f = g.adopted) ∧
      ¬ FinallyDeleted edits level f.number := by
  obtain ⟨hmem, hkept⟩ := List.mem_filter.mp h
  have hkept : f.number ∉ (((new icmp cp base).applyAll edits).levels level).deletedFiles := by
    simpa using hkept
  rw [mem_deletedFiles_applyAll] at hkept
  refine ⟨?_, fun hdel => hkept (Or.inl hdel)⟩
  rcases List.mem_append.mp hmem with hadded | hbase
  · rcases mem_of_mem_addedFiles_applyAll edits _ hadded with hnone | hnew
    · cases hnone
    · exact Or.inr hnew
  · rw [applyAll_base] at hbase
    exact Or.inl hbase

end Builder

/-- **The overlap assertion is exact.** Above level 0 the assertions that `SaveTo` makes at a level
pass exactly when no two of the files that remain there have a key in common; and the level is
saved as if its deleted files had never been in the base or among the added files. -/
theorem overlapAssertions_exact (cp : Fin N → Option K) {base : Version K N}
    {edits : List (VersionEdit K N)} (hlevel : 0 < level.val)
    (hsorted : (base.files level).Pairwise (fun f g => ¬ bySmallestKey icmp g f))
    (hbase : ∀ f ∈ base.files level, f.WellRanged icmp)
    (hadded : ∀ e ∈ edits, ∀ f ∈ e.newAt level, f.WellRanged icmp) :
    let b := (Builder.new icmp cp base).applyAll edits
    ((b.saveAt level).isSome = true ↔ (b.remaining level).Pairwise (RangesApart icmp)) ∧
      b.saveAt level = (b.levels level).saveLevel level
        ((b.levels level).kept (b.levels level).addedFiles.toList)
        ((b.levels level).kept (base.files level)) [] := by
  intro b
  have hsame : b.base = base := Builder.applyAll_base edits _
  refine ⟨Builder.saveAt_isSome_iff hlevel (by rw [hsame]; exact hsorted) fun f hf => ?_, ?_⟩
  · obtain ⟨hfile | ⟨e, he, g, hg, rfl⟩, -⟩ := Builder.mem_of_mem_remaining hf
    · exact hbase f hfile
    · unfold FileMetaData.WellRanged
      rw [FileMetaData.adopted_smallest, FileMetaData.adopted_largest]
      exact hadded e he g hg
  · unfold Builder.saveAt
    rw [hsame]
    exact (LevelState.saveLevel_kept _ hsorted).symm

/-- File 4 is deleted, and the ranges of files 3 and 5 are apart although file 4 meets both. -/
theorem overlapAssertions_exact_deleted :
    let base : Version Nat 2 := { files := fun level => if level = 1 then
      [{ number := 3, smallest := 1, largest := 4 }, { number := 4, smallest := 3, largest := 8 }]
      else [] }
    let edits : List (VersionEdit Nat 2) :=
      [({} : VersionEdit Nat 2).removeFile 1 4, ({} : VersionEdit Nat 2).addFile 1 5 9 6 7]
    let b := (Builder.new compare (fun _ => none) base).applyAll edits
    (b.saveAt 1).isSome = true ∧ (b.remaining 1).Pairwise (RangesApart compare) := by
  intro base edits b
  obtain ⟨hiff, -⟩ := @overlapAssertions_exact Nat 2 compare _ 1 (fun _ => none) base edits
    (by decide) (by decide) (by unfold FileMetaData.WellRanged; decide)
    (by unfold FileMetaData.WellRanged; decide)
  exact ⟨rfl, hiff.mp rfl⟩

end Deleted

end LevelDB
