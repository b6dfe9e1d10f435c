import LevelDB.VersionSet.FileRefs
import LevelDB.VersionSet.Merge

/-!
# The counts after a build

A builder that applies edits, saves and is destroyed leaves every file object with as many
references as there are holders: the holders from before, and the saved version. The base files and
the added files are different objects, so that the saved version holds each of its files once.

* `Distinct` — no object is listed twice by a version, over all levels;
* `build_eq` — the whole life of a builder, with the heap that it leaves;
* `fileCounts_exact` — what this means for the base files, the added and the dropped ones.
-/

set_option autoImplicit false

namespace LevelDB

namespace Counted

variable {K : Type} {N : Nat}

/-- The objects of all levels. -/
def addrs (files : Fin N → List (FilePtr K)) : List Nat :=
  ((List.finRange N).flatMap files).map FilePtr.addr

/-- No object is listed twice. -/
def Distinct (files : Fin N → List (FilePtr K)) : Prop := (addrs files).Nodup

theorem mem_addrs {files : Fin N → List (FilePtr K)} {a : Nat} :
    a ∈ addrs files ↔ ∃ level, ∃ p ∈ files level, p.addr = a := by
  simp only [addrs, List.mem_map, List.mem_flatMap, List.mem_finRange, true_and]
  constructor
  · rintro ⟨p, ⟨level, hp⟩, rfl⟩
    exact ⟨level, p, hp, rfl⟩
  · rintro ⟨level, p, hp, rfl⟩
    exact ⟨p, ⟨level, hp⟩, rfl⟩

theorem distinct_iff {files : Fin N → List (FilePtr K)} :
    Distinct files ↔ (∀ level, ((files level).map FilePtr.addr).Nodup) ∧
      ∀ l l', l ≠ l' →
        List.Disjoint ((files l).map FilePtr.addr) ((files l').map FilePtr.addr) := by
  unfold Distinct addrs
  rw [List.map_flatMap, List.nodup_flatMap]
  refine and_congr (by simp [List.mem_finRange]) ⟨fun h l l' hne => ?_, fun h => ?_⟩
  · have hsymm : Std.Symm (Function.onFun List.Disjoint fun l => (files l).map FilePtr.addr) :=
      ⟨fun _ _ hdisjoint => hdisjoint.symm⟩
    exact h.forall (List.mem_finRange l) (List.mem_finRange l') hne
  · exact (List.nodup_finRange N).imp fun hne => h _ _ hne

namespace Distinct

variable {files files' : Fin N → List (FilePtr K)}

theorem subperm (h : Distinct files) (hsub : ∀ level, (files' level).Subperm (files level)) :
    Distinct files' := by
  obtain ⟨hlevel, hdisjoint⟩ := distinct_iff.mp h
  have haddrs : ∀ level, ((files' level).map FilePtr.addr).Subperm
      ((files level).map FilePtr.addr) := by
    intro level
    obtain ⟨l, hperm, hsublist⟩ := hsub level
    exact ⟨l.map FilePtr.addr, hperm.map _, hsublist.map _⟩
  have hnodup : ∀ level, ((files' level).map FilePtr.addr).Nodup := by
    intro level
    obtain ⟨l, hperm, hsublist⟩ := haddrs level
    exact hperm.nodup_iff.mp ((hlevel level).sublist hsublist)
  exact distinct_iff.mpr ⟨hnodup, fun l l' hne =>
    List.disjoint_of_subset_left (haddrs l).subset
      (List.disjoint_of_subset_right (haddrs l').subset (hdisjoint l l' hne))⟩

/-- An address has one place. -/
theorem eq_of_addr_eq (h : Distinct files) {l l' : Fin N} {p q : FilePtr K} (hp : p ∈ files l)
    (hq : q ∈ files l') (haddr : p.addr = q.addr) : l = l' ∧ p = q := by
  obtain ⟨hlevel, hdisjoint⟩ := distinct_iff.mp h
  by_cases hl : l = l'
  · subst hl
    exact ⟨rfl, List.inj_on_of_nodup_map (hlevel l) hp hq haddr⟩
  · refine absurd (List.mem_map.mpr ⟨q, hq, haddr.symm⟩) (hdisjoint l l' hl ?_)
    exact List.mem_map.mpr ⟨p, hp, rfl⟩

end Distinct

/-! ## What the builder lists -/

section Listed

variable {icmp : K → K → Ordering}

namespace Builder

variable (b : Builder icmp N) (level : Fin N)

/-- The added files of a level and those of the base. -/
def listed : List (FilePtr K) := (b.levels level).addedFiles.toList ++ b.base.files level

theorem survivors_subperm : (b.survivors level).Subperm (b.listed level) := by
  obtain ⟨l, hperm, hsublist⟩ := (b.levels level).survivors_perm_sublist (b.base.files level)
  exact hsublist.subperm.trans hperm.subperm

variable {b level}

theorem mem_survivors {p : FilePtr K} :
    p ∈ b.survivors level ↔
      p ∈ b.listed level ∧ p.file.number ∉ (b.levels level).deletedFiles := by
  unfold survivors LevelState.survivors LevelState.kept listed
  rw [List.mem_filter, Ordered.mem_upperMerge, List.mem_append, decide_eq_true_iff]

theorem addrs_listed_perm :
    (addrs b.listed).Perm (b.addedPtrs.map FilePtr.addr ++ addrs b.base.files) := by
  unfold addrs addedPtrs
  rw [← List.map_append]
  exact (List.flatMap_append_perm _ _ _).symm.map _

/-- **The saved version lists an object once**, or not at all. -/
theorem count_survivors (hdistinct : Distinct b.listed) {p : FilePtr K}
    (hp : p ∈ b.listed level) :
    (p ∈ b.survivors level → (addrs b.survivors).count p.addr = 1) ∧
      (p ∉ b.survivors level → (addrs b.survivors).count p.addr = 0) := by
  constructor
  · intro hsaved
    exact List.count_eq_one_of_mem (hdistinct.subperm b.survivors_subperm)
      (mem_addrs.mpr ⟨level, p, hsaved, rfl⟩)
  · intro hnot
    refine List.count_eq_zero.mpr fun hmem => hnot ?_
    obtain ⟨level', q, hq, haddr⟩ := mem_addrs.mp hmem
    obtain ⟨rfl, rfl⟩ := hdistinct.eq_of_addr_eq ((b.survivors_subperm level').subset hq) hp haddr
    exact hq

end Builder

end Listed

/-! ## The life of a builder -/

/-- `holders` are the references to the file objects, and those of a base version that lists no
object twice are among them. -/
structure Holds (heap : FileHeap K) (base : Version K N) (holders : List Nat) : Prop where
  exact : heap.objects.Exact holders
  fresh : ∀ a ∈ holders, a < heap.next
  held : ∀ a ∈ addrs base.files, a ∈ holders
  distinct : Distinct base.files

/-- A number that is used once at each level gives different pairs. -/
theorem pairsOnce_of_addedOnce {base : LevelDB.Version K N} {edits : List (VersionEdit K N)}
    (honce : AddedOnce base edits) : PairsOnce (edits.flatMap VersionEdit.newFiles) := by
  unfold PairsOnce
  rw [List.Nodup, List.pairwise_map, List.pairwise_iff_getElem]
  intro i j hi hj hij heq
  obtain ⟨hlevel, hnumber⟩ := Prod.mk.inj heq
  have hnodup := honce (edits.flatMap VersionEdit.newFiles)[i].1
  have hnewAt : edits.flatMap (fun e => e.newAt (edits.flatMap VersionEdit.newFiles)[i].1) =
      ((edits.flatMap VersionEdit.newFiles).filter
        (fun p => p.1 == (edits.flatMap VersionEdit.newFiles)[i].1)).map Prod.snd := by
    rw [List.filter_flatMap, List.map_flatMap]
    rfl
  rw [List.map_append, hnewAt, List.map_map] at hnodup
  have hnew := (List.nodup_append.mp hnodup).2.1
  rw [List.Nodup, List.pairwise_map, List.pairwise_filter, List.pairwise_iff_getElem] at hnew
  exact hnew i j hi hj hij (by simp) (by simp [hlevel]) hnumber

section Life

variable {icmp : K → K → Ordering} [Std.TransCmp icmp] {cp : Fin N → Option K} {base : Version K N}
  {edits : List (VersionEdit K N)} {heap : FileHeap K} {holders : List Nat}

theorem Builder.plain_applyAll (edits : List (VersionEdit K N)) (s : FileHeap K × Builder icmp N) :
    (edits.foldl apply s).2.plain = s.2.plain.applyAll edits :=
  (List.foldl_hom (fun s : FileHeap K × Builder icmp N => s.2.plain)
    fun s e => (plain_apply s e).symm).symm

variable (icmp cp base edits heap) in
/-- The builder on `base` that has applied the edits, and its heap. -/
def applied : FileHeap K × Builder icmp N :=
  edits.foldl Builder.apply (heap, Builder.new icmp cp base)

theorem applied_applied (hholds : Holds heap base holders)
    (honce : AddedOnce base.plain edits) :
    Applied heap { base with refs := base.refs + 1 } holders (edits.flatMap VersionEdit.newFiles)
      (applied icmp cp base edits heap) :=
  (Applied.new cp hholds.exact).applyAll hholds.fresh edits [] (pairsOnce_of_addedOnce honce)

omit [Std.TransCmp icmp] in
theorem Applied.distinct {l : List (Fin N × FileMetaData K)} {s : FileHeap K × Builder icmp N}
    {n : Nat} (h : Applied heap { base with refs := n } holders l s)
    (hholds : Holds heap base holders) : Distinct s.2.listed := by
  refine s.2.addrs_listed_perm.nodup_iff.mpr (List.nodup_append.mpr ⟨?_, ?_, fun a ha a' ha' => ?_⟩)
  · exact h.made.nodup_iff.mpr List.nodup_range'
  · rw [h.base]
    exact hholds.distinct
  · obtain ⟨hle, -⟩ := List.mem_range'_1.mp (h.made.mem_iff.mp ha)
    rw [h.base] at ha'
    have hlt := hholds.fresh a' (hholds.held a' ha')
    omega

/-- **The whole life of a builder**: it ends, the survivors are saved, everyone holds what they
held, and what the saved version does not hold of the added files is deleted. -/
theorem build_eq {unrefVersion : Version K N → FileHeap K → Version K N × FileHeap K}
    {saved : LevelDB.Version K N} (hholds : Holds heap base holders)
    (honce : AddedOnce base.plain edits)
    (hsave : ((LevelDB.Builder.new icmp cp base.plain).applyAll edits).saveTo = some saved)
    (hheld : 0 < base.refs)
    (hunref : ∀ v heap, 1 < v.refs → unrefVersion v heap = ({ v with refs := v.refs - 1 }, heap)) :
    let b := (applied icmp cp base edits heap).2
    let v : Version K N := { files := b.survivors }
    v.plain.files = saved.files ∧
      ∃ heap', build icmp unrefVersion cp base edits heap = some (base, v, heap') ∧
        Holds heap' v (addrs v.files ++ holders) ∧
        heap'.deleted = heap.deleted ++
          (b.addedPtrs.map FilePtr.addr).filter (fun a => a ∉ addrs v.files ++ holders) := by
  intro b v
  have happlied : Applied heap _ holders _ (applied icmp cp base edits heap) :=
    applied_applied hholds honce
  have hdistinct : Distinct b.listed := happlied.distinct hholds
  have hplain : b.plain = (LevelDB.Builder.new icmp cp base.plain).applyAll edits :=
    Builder.plain_applyAll edits _
  obtain ⟨hapart, rfl⟩ := LevelDB.Builder.saveTo_eq_some.mp hsave
  have hbound : ∀ a ∈ b.addedPtrs.map FilePtr.addr ++ holders,
      a < (applied icmp cp base edits heap).1.next := by
    intro a ha
    rw [happlied.next]
    rcases List.mem_append.mp ha with ha | ha
    · have hrange := List.mem_range'_1.mp (happlied.made.mem_iff.mp ha)
      omega
    · have hlt := hholds.fresh a ha
      omega
  -- what is saved is added or in the base
  have hsaved : ∀ a ∈ addrs b.survivors, a ∈ b.addedPtrs.map FilePtr.addr ++ holders := by
    intro a ha
    obtain ⟨level, p, hp, rfl⟩ := mem_addrs.mp ha
    have hlisted : p.addr ∈ addrs b.listed :=
      mem_addrs.mpr ⟨level, p, (b.survivors_subperm level).subset hp, rfl⟩
    rcases List.mem_append.mp (Builder.addrs_listed_perm.mem_iff.mp hlisted) with h | h
    · exact List.mem_append_left _ h
    · have hbase : b.base.files = base.files := by
        rw [happlied.base]
      rw [hbase] at h
      exact List.mem_append_right _ (hholds.held _ h)
  obtain ⟨heap₁, hsaveTo, href⟩ := Builder.saveTo_eq (b := b)
    (fun level => by rw [b.map_survivors, hplain]; exact hapart level) happlied.exact
    (fun level p hp => hsaved _ (mem_addrs.mpr ⟨level, p, hp, rfl⟩))
  have hexact : heap₁.objects.Exact (b.addedPtrs.map FilePtr.addr ++
      (addrs b.survivors ++ holders)) := by
    refine href.exact.perm ?_
    rw [← List.append_assoc, ← List.append_assoc]
    exact List.perm_append_comm.append_right holders
  obtain ⟨heap', hunrefAdded, hexact', hnext, hdeleted⟩ := Builder.unrefAdded_eq hexact
    (happlied.made.nodup_iff.mpr List.nodup_range')
  refine ⟨?_, heap', ?_, ⟨hexact', ?_, ?_, hdistinct.subperm b.survivors_subperm⟩, ?_⟩
  · funext level
    exact (b.map_survivors level).trans (by rw [hplain])
  · have hbase : unrefVersion b.base heap' = (base, heap') := by
      rw [happlied.base, hunref _ _ (Nat.succ_lt_succ hheld)]
      rfl
    unfold build
    change (do
      let saved ← b.saveTo (applied icmp cp base edits heap).1
      let left ← b.destroy unrefVersion saved.1
      pure (left.1, saved.2, left.2)) = _
    rw [hsaveTo]
    dsimp only [Option.bind_eq_bind, Option.bind_some]
    unfold Builder.destroy
    rw [hunrefAdded, Option.map_some, hbase]
    rfl
  · intro a ha
    rw [hnext, href.next]
    rcases List.mem_append.mp ha with ha | ha
    · exact hbound a (hsaved a ha)
    · exact hbound a (List.mem_append_right _ ha)
  · exact fun a ha => List.mem_append_left _ ha
  · rw [hdeleted, href.deleted, happlied.deleted]

/-! ## The counts -/

/-- The object that `Apply` makes for the `i`-th added file. -/
def addedPtr (heap : FileHeap K) (i : Nat) (f : FileMetaData K) : FilePtr K :=
  { addr := heap.next + i, file := f.adopted }

/-- The counts in `heap'` against those in `heap`; `gone` are the objects deleted on the way. -/
structure CountsExact (base v : Version K N) (edits : List (VersionEdit K N))
    (heap heap' : FileHeap K) (gone : List Nat) : Prop where
  kept : ∀ level, ∀ p ∈ base.files level, ∃ n, heap.refs p = some n ∧
    (p ∈ v.files level → heap'.refs p = some (n + 1)) ∧
      (p ∉ v.files level → heap'.refs p = some n)
  /-- An added file is in the version, or a later edit has deleted it for good. -/
  added : ∀ i level f, (edits.flatMap VersionEdit.newFiles)[i]? = some (level, f) →
    (addedPtr heap i f ∈ v.files level ↔ ¬ FinallyDeleted edits level f.number) ∧
      (addedPtr heap i f ∈ v.files level → heap'.refs (addedPtr heap i f) = some 1) ∧
        (addedPtr heap i f ∉ v.files level →
          heap'.refs (addedPtr heap i f) = none ∧ gone.count (addedPtr heap i f).addr = 1)
  listed : ∀ level p, p ∈ v.files level ∨ p ∈ base.files level → p.addr ∉ gone
  deleted : heap'.deleted = heap.deleted ++ gone

omit [Std.TransCmp icmp] in
theorem Holds.refs_eq (hholds : Holds heap base holders) (p : FilePtr K) :
    heap.refs p = if holders.count p.addr = 0 then none else some (holders.count p.addr) :=
  hholds.exact p.addr

omit [Std.TransCmp icmp] in
/-- Only holders are alive, and the numbers from `next` on are free. -/
theorem Holds.count_addedPtr (hholds : Holds heap base holders) (i : Nat) (f : FileMetaData K) :
    holders.count (addedPtr heap i f).addr = 0 := by
  refine List.count_eq_zero.mpr fun hmem => ?_
  have hlt := hholds.fresh _ hmem
  unfold addedPtr at hlt
  dsimp only at hlt
  omega

/-- **The builder keeps the reference counts exact.** Constructing a builder, applying edits that
add no number twice at a level, saving and destroying the builder raises the count of a base file by
one if the version has it and leaves it otherwise, leaves one reference to an added file that the
version has, and deletes an added file that a later edit has deleted once; no listed file is
deleted, and the saved version can be the next base. -/
theorem fileCounts_exact {unrefVersion : Version K N → FileHeap K → Version K N × FileHeap K}
    {saved : LevelDB.Version K N} (hholds : Holds heap base holders)
    (honce : AddedOnce base.plain edits)
    (hsave : ((LevelDB.Builder.new icmp cp base.plain).applyAll edits).saveTo = some saved)
    (hheld : 0 < base.refs)
    (hunref : ∀ v heap, 1 < v.refs → unrefVersion v heap = ({ v with refs := v.refs - 1 }, heap)) :
    ∃ v heap' gone, build icmp unrefVersion cp base edits heap = some (base, v, heap') ∧
      v.plain.files = saved.files ∧ CountsExact base v edits heap heap' gone ∧
        Holds heap' v (addrs v.files ++ holders) := by
  obtain ⟨hplain, heap', hbuild, hholds', hdeleted⟩ := build_eq hholds honce hsave hheld hunref
  have happlied : Applied heap _ holders _ (applied icmp cp base edits heap) :=
    applied_applied hholds honce
  have hdistinct := happlied.distinct hholds
  have hbaseFiles : (applied icmp cp base edits heap).2.base.files = base.files := by
    rw [happlied.base]
  have hcount : ∀ p : FilePtr K, (addrs (applied icmp cp base edits heap).2.survivors ++
      holders).count p.addr = (addrs (applied icmp cp base edits heap).2.survivors).count p.addr +
        holders.count p.addr := fun p => List.count_append
  refine ⟨_, heap', _, hbuild, hplain, ⟨fun level p hp => ?_, fun i level f hi => ?_,
    fun level p hp hgone => ?_, hdeleted⟩, hholds'⟩
  · have hlisted : p ∈ (applied icmp cp base edits heap).2.listed level := by
      refine List.mem_append_right _ ?_
      rw [hbaseFiles]
      exact hp
    have hpos : 0 < holders.count p.addr :=
      List.count_pos_iff.mpr (hholds.held _ (mem_addrs.mpr ⟨level, p, hp, rfl⟩))
    obtain ⟨hin, hout⟩ := Builder.count_survivors hdistinct hlisted
    refine ⟨holders.count p.addr, ?_, fun hmem => ?_, fun hnot => ?_⟩
    · rw [hholds.refs_eq, if_neg (by omega)]
    · rw [hholds'.refs_eq, hcount, hin hmem, if_neg (by omega), Nat.add_comm]
    · rw [hholds'.refs_eq, hcount, hout hnot, Nat.zero_add, if_neg (by omega)]
  · have hadded : addedPtr heap i f ∈
        ((applied icmp cp base edits heap).2.levels level).addedFiles.toList :=
      (happlied.added level _).mpr ⟨i, f, hi, rfl⟩
    have hlisted : addedPtr heap i f ∈ (applied icmp cp base edits heap).2.listed level :=
      List.mem_append_left _ hadded
    have hfree := hholds.count_addedPtr i f
    obtain ⟨hin, hout⟩ := Builder.count_survivors hdistinct hlisted
    refine ⟨?_, fun hmem => ?_, fun hnot => ⟨?_, ?_⟩⟩
    · have hdel : (addedPtr heap i f).file.number ∈
          ((applied icmp cp base edits heap).2.levels level).deletedFiles ↔
            FinallyDeleted edits level f.number := by
        show f.adopted.number ∈
          ((applied icmp cp base edits heap).2.plain.levels level).deletedFiles ↔ _
        unfold applied
        rw [Builder.plain_applyAll, FileMetaData.adopted_number,
          LevelDB.Builder.mem_deletedFiles_applyAll]
        refine or_iff_left fun h => ?_
        exact absurd h.1 (Finset.notMem_empty _)
      refine Builder.mem_survivors.trans ?_
      rw [hdel]
      exact and_iff_right hlisted
    · rw [hholds'.refs_eq, hcount, hin hmem, hfree]
      rfl
    · rw [hholds'.refs_eq, hcount, hout hnot, hfree]
      rfl
    · have hmem : (addedPtr heap i f).addr ∈
          (applied icmp cp base edits heap).2.addedPtrs.map FilePtr.addr := by
        refine List.mem_map.mpr ⟨_, ?_, rfl⟩
        exact List.mem_flatMap.mpr ⟨level, List.mem_finRange level, hadded⟩
      have hlost : (addedPtr heap i f).addr ∉
          addrs (applied icmp cp base edits heap).2.survivors ++ holders := by
        rw [← List.count_eq_zero, hcount, hout hnot, hfree]
      refine List.count_eq_one_of_mem ?_ (List.mem_filter.mpr ⟨hmem, by simpa using hlost⟩)
      exact (happlied.made.nodup_iff.mpr List.nodup_range').filter _
  · obtain ⟨-, hlost⟩ := List.mem_filter.mp hgone
    refine absurd ?_ (of_decide_eq_true hlost)
    rcases hp with hp | hp
    · exact List.mem_append_left _ (mem_addrs.mpr ⟨level, p, hp, rfl⟩)
    · exact List.mem_append_right _ (hholds.held _ (mem_addrs.mpr ⟨level, p, hp, rfl⟩))

/-- File 4 of the base and the added file 5 are deleted: file 3 has one more reference, and the
object of file 5, the third one, is deleted. -/
theorem fileCounts_exact_dropped :
    let f3 : FileMetaData Nat := { number := 3, smallest := 1, largest := 2 }
    let f4 : FileMetaData Nat := { number := 4, smallest := 3, largest := 4 }
    let heap : FileHeap Nat :=
      ((({ objects := fun _ => none, next := 0 } : FileHeap Nat).new f3).2.new f4).2
    let base : Version Nat 2 :=
      { files := fun level => if level = 1 then [⟨0, f3⟩, ⟨1, f4⟩] else [], refs := 1 }
    let edits : List (VersionEdit Nat 2) :=
      [({} : VersionEdit Nat 2).addFile 1 5 9 5 6 |>.addFile 0 6 9 1 2,
        ({} : VersionEdit Nat 2).removeFile 1 5 |>.removeFile 1 4]
    let unrefVersion : Version Nat 2 → FileHeap Nat → Version Nat 2 × FileHeap Nat :=
      fun v heap => ({ v with refs := v.refs - 1 }, heap)
    ∃ v heap' gone, build compare unrefVersion (fun _ => none) base edits heap =
        some (base, v, heap') ∧ CountsExact base v edits heap heap' gone ∧
      heap'.refs ⟨0, f3⟩ = some 2 ∧ heap'.refs ⟨1, f4⟩ = some 1 ∧ heap'.deleted = [2] := by
  intro f3 f4 heap base edits unrefVersion
  have hempty : RefCounted.Heap.Exact (fun _ : Nat => (none : Option (RefCounted.Cell
    (FileMetaData Nat)))) [] := fun _ => rfl
  have hholds : Holds heap base [1, 0] := by
    refine ⟨(hempty.alloc List.not_mem_nil f3).alloc (by decide) f4, by decide, by decide, ?_⟩
    unfold Distinct
    decide
  obtain ⟨v, heap', gone, hbuild, -, hcounts, -⟩ := @fileCounts_exact Nat 2 compare _
    (fun _ => none) base edits heap [1, 0] unrefVersion _ hholds (by unfold AddedOnce; decide) rfl
    Nat.one_pos (fun _ _ _ => rfl)
  have hrun : (build compare unrefVersion (fun _ => none) base edits heap).map (fun r =>
      (r.2.2.refs ⟨0, f3⟩, r.2.2.refs ⟨1, f4⟩, r.2.2.deleted)) = some (some 2, some 1, [2]) := rfl
  rw [hbuild, Option.map_some, Option.some.injEq, Prod.mk.injEq, Prod.mk.injEq] at hrun
  exact ⟨v, heap', gone, hbuild, hcounts, hrun⟩

end Life

end Counted

end LevelDB
