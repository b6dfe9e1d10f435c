import LevelDB.VersionSet.FileCounts
import LevelDB.VersionSet.VersionList

/-!
# The lives of the file objects

A version references the `FileMetaData` objects of its files until it is deleted. A build makes new
objects and may drop some of them at once; the version that it saves is installed, or deleted if
the manifest cannot be written, and an old version goes with its last reader.

* `FileLedger` — every object that was made is referenced, or has been deleted once;
* `FileStore.step` — builds, and the steps of the version list with the destructor of `Version`;
* `FileStore.Ok.step` — every step keeps the ledger;
* `fileObjects_live` — hence an object lives exactly as long as a live version lists it.
-/

set_option autoImplicit false

namespace LevelDB

/-! ## The versions that live -/

namespace VersionList

variable {code : VersionCode} {s t : VersionList} {v : Nat}

/-- The versions that live: those not installed yet, and the listed ones. -/
def live (s : VersionList) : List Nat := s.pending ++ s.heap.listed s.installed

/-- The live versions that are deleted on the way to `t`. -/
def gone (s t : VersionList) : List Nat := s.live.filter fun v => (t.heap.refs v).isNone

theorem made_le {act : VersionAct} (hstep : s.step code act = some t) : s.made ≤ t.made := by
  cases act with
  | create =>
    cases hstep
    exact Nat.le_succ _
  | append u =>
    simp only [VersionList.step] at hstep
    split at hstep
    · obtain ⟨heap, -, rfl⟩ := Option.map_eq_some_iff.mp hstep
      exact Nat.le_refl _
    · cases hstep
  | _ u =>
    simp only [VersionList.step] at hstep
    split at hstep
    · cases hstep
      exact Nat.le_refl _
    · cases hstep

namespace Ok

theorem live_nodup (h : s.Ok) : s.live.Nodup :=
  h.nodup.sublist (List.filter_sublist.append_left _)

theorem live_lt (h : s.Ok) (hv : v ∈ s.live) : v < s.made := by
  refine h.fresh v ?_
  rcases List.mem_append.mp hv with hv | hv
  · exact List.mem_append_left _ hv
  · exact List.mem_append_right _ (VersionHeap.mem_listed.mp hv).1

/-- A version lives if it is pending or referenced. -/
theorem isSome_refs (h : s.Ok) :
    (s.heap.refs v).isSome = true ↔ v ∈ s.pending ∨ references s.held s.current v ≠ 0 := by
  by_cases hv : v ∈ s.pending
  · rw [h.pending v hv]
    exact iff_of_true rfl (Or.inl hv)
  · rw [h.refs v hv, or_iff_right hv]
    by_cases hzero : references s.held s.current v = 0
    · rw [if_pos hzero]
      exact iff_of_false nofun fun hne => hne hzero
    · rw [if_neg hzero]
      exact iff_of_true rfl hzero

theorem mem_live (h : s.Ok) : v ∈ s.live ↔ (s.heap.refs v).isSome = true := by
  unfold live
  rw [List.mem_append, VersionHeap.mem_listed]
  constructor
  · rintro (hv | ⟨-, hlive⟩)
    · exact h.isSome_refs.mpr (Or.inl hv)
    · exact hlive
  · intro hlive
    by_cases hv : v ∈ s.installed
    · exact Or.inr ⟨hv, hlive⟩
    · rcases h.isSome_refs.mp hlive with hpending | hrefs
      · exact Or.inl hpending
      · exact absurd (references_eq_zero h hv) hrefs

/-- The current version has a reference of its own. -/
theorem current_refs (h : s.Ok) (hcurrent : s.current = some v) :
    ∃ n, s.heap.refs v = some n ∧ 0 < n := by
  have hrefs := h.refs v (h.not_pending (h.current_installed hcurrent))
  rw [hcurrent, references_current, if_neg (Nat.succ_ne_zero _)] at hrefs
  exact ⟨_, hrefs, Nat.succ_pos _⟩

theorem live_create (h : s.Ok) : s.create.live = s.made :: s.live := by
  have hnot : ∀ u ∈ s.installed, u ≠ s.made := by
    rintro u hu rfl
    exact Nat.lt_irrefl _ (h.fresh _ (List.mem_append_right _ hu))
  show s.made :: (s.pending ++ s.create.heap.listed s.installed) = _
  rw [VersionHeap.listed_congr fun u hu => congrArg Option.isSome
    (Function.update_of_ne (hnot u hu) _ _)]
  rfl

/-- A version that begins to live is a new one. -/
theorem born (hcode : code.Counts) (h : s.Ok) {act : VersionAct} (hstep : s.step code act = some t)
    (hlive : v ∈ t.live) (hnot : v ∉ s.live) : s.made ≤ v := by
  have ht := h.step hcode hstep
  rw [ht.mem_live, ht.isSome_refs] at hlive
  rw [h.mem_live, h.isSome_refs, not_or, not_not] at hnot
  obtain ⟨hpending, hrefs⟩ := hnot
  have hheld : v ∉ s.held := by
    intro hmem
    unfold references at hrefs
    have hpos := List.count_pos_iff.mpr hmem
    omega
  cases act with
  | create =>
    cases hstep
    rcases hlive with hmem | hne
    · rcases List.mem_cons.mp hmem with rfl | hmem
      · exact Nat.le_refl _
      · exact absurd hmem hpending
    · exact absurd hrefs hne
  | append u =>
    simp only [VersionList.step] at hstep
    split at hstep
    · rename_i hu
      obtain ⟨heap, -, rfl⟩ := Option.map_eq_some_iff.mp hstep
      rcases hlive with hmem | hne
      · exact absurd (List.mem_of_mem_erase hmem) hpending
      · refine absurd ?_ hne
        have huv : some u ≠ some v := fun heq => hpending (Option.some.inj heq ▸ hu)
        dsimp only
        rw [references_of_ne huv]
        exact List.count_eq_zero.mpr hheld
    · cases hstep
  | discard u =>
    simp only [VersionList.step] at hstep
    split at hstep
    · cases hstep
      rcases hlive with hmem | hne
      · exact absurd (List.mem_of_mem_erase hmem) hpending
      · exact absurd hrefs hne
    · cases hstep
  | ref u =>
    simp only [VersionList.step] at hstep
    split at hstep
    · rename_i hu
      cases hstep
      have huv : v ≠ u := by
        rintro rfl
        rcases h.isSome_refs.mp hu.2 with hmem | hne
        · exact hpending hmem
        · exact hne hrefs
      rcases hlive with hmem | hne
      · exact absurd hmem hpending
      · dsimp only at hne
        rw [references_cons_of_ne huv] at hne
        exact absurd hrefs hne
    · cases hstep
  | unref u =>
    simp only [VersionList.step] at hstep
    split at hstep
    · rename_i hu
      cases hstep
      have huv : v ≠ u := fun heq => hheld (heq ▸ hu)
      rcases hlive with hmem | hne
      · exact absurd hmem hpending
      · dsimp only at hne
        rw [references_erase_of_ne huv] at hne
        exact absurd hrefs hne
    · cases hstep

/-- **What a step does to the live versions**: some go, and those that come are new. -/
theorem live_perm (hcode : code.Counts) (h : s.Ok) {act : VersionAct}
    (hstep : s.step code act = some t) :
    ∃ kept new, s.live.Perm (s.gone t ++ kept) ∧ t.live.Perm (new ++ kept) ∧
      ∀ v ∈ new, s.made ≤ v := by
  have ht := h.step hcode hstep
  refine ⟨s.live.filter fun v => (t.heap.refs v).isSome, t.live.filter (· ∉ s.live), ?_, ?_,
    fun v hv => ?_⟩
  · have hgone : s.live.filter (fun v => !(t.heap.refs v).isSome) = s.gone t :=
      List.filter_congr fun v _ => Option.not_isSome _
    rw [← hgone]
    exact (List.filter_append_perm _ s.live).symm.trans List.perm_append_comm
  · have hkept : (t.live.filter (· ∈ s.live)).Perm
        (s.live.filter fun v => (t.heap.refs v).isSome) := by
      refine (List.perm_ext_iff_of_nodup (ht.live_nodup.filter _) (h.live_nodup.filter _)).mpr
        fun v => ?_
      rw [List.mem_filter, List.mem_filter, decide_eq_true_iff, ht.mem_live]
      exact and_comm
    have hnew : t.live.filter (fun v => !decide (v ∈ s.live)) = t.live.filter (· ∉ s.live) :=
      List.filter_congr fun v _ => decide_not.symm
    rw [← hnew]
    refine (List.filter_append_perm (· ∈ s.live) t.live).symm.trans ?_
    exact List.perm_append_comm.trans (hkept.append_left _)
  · obtain ⟨hlive, hnot⟩ := List.mem_filter.mp hv
    exact h.born hcode hstep hlive (by simpa using hnot)

end Ok

end VersionList

namespace Counted

variable {K : Type} {N : Nat}

/-! ## What the loops leave of the heap -/

theorem foldlM_keeps {A B S : Type} {f : S → A → Option S} (g : S → B)
    (hf : ∀ s a s', f s a = some s' → g s' = g s) :
    ∀ {l : List A} {s s' : S}, l.foldlM f s = some s' → g s' = g s
  | [], s, s', h => by
    cases h
    rfl
  | a :: l, s, s', h => by
    rw [List.foldlM_cons] at h
    obtain ⟨s₁, hfirst, hrest⟩ := Option.bind_eq_some_iff.mp h
    exact (foldlM_keeps g hf hrest).trans (hf s a s₁ hfirst)

section Next

variable {icmp : K → K → Ordering} {heap heap' : FileHeap K}

theorem FileHeap.unref_next {p : FilePtr K} (h : heap.unref p = some heap') :
    heap'.next = heap.next := by
  obtain ⟨objects, -, rfl⟩ := Option.map_eq_some_iff.mp h
  rfl

theorem LevelState.push_next {s s' : FileHeap K × List (FilePtr K)} {p : FilePtr K}
    (h : push s p = some s') : s'.1.next = s.1.next := by
  obtain ⟨heap, href, rfl⟩ := Option.map_eq_some_iff.mp h
  obtain ⟨objects, -, rfl⟩ := Option.map_eq_some_iff.mp href
  rfl

theorem LevelState.maybeAddFile_next {st : LevelState icmp} {level : Fin N}
    (s : FileHeap K × List (FilePtr K)) (p : FilePtr K) (s' : FileHeap K × List (FilePtr K))
    (h : st.maybeAddFile level s p = some s') : s'.1.next = s.1.next := by
  unfold maybeAddFile at h
  split at h
  · cases h
    rfl
  · split at h
    · split at h
      · split at h
        · exact push_next h
        · cases h
      · exact push_next h
    · exact push_next h

theorem Builder.saveTo_next {b : Builder icmp N} {v : Version K N}
    (h : b.saveTo heap = some (heap', v)) : heap'.next = heap.next := by
  refine foldlM_keeps (fun s => s.1.next) (fun s level s' hstep => ?_) h
  obtain ⟨saved, hsaved, rfl⟩ := Option.map_eq_some_iff.mp hstep
  rw [LevelState.saveLevel_eq_foldlM] at hsaved
  exact foldlM_keeps (fun s => s.1.next) LevelState.maybeAddFile_next hsaved

theorem Builder.unrefAdded_next {b : Builder icmp N} (h : b.unrefAdded heap = some heap') :
    heap'.next = heap.next :=
  foldlM_keeps FileHeap.next
    (fun _ _ _ hlevel => foldlM_keeps FileHeap.next (fun _ _ _ => FileHeap.unref_next) hlevel) h

end Next

/-! ## The ledger -/

/-- **Every object that was made** is referenced by its holders, or has no holders and has been
deleted once. -/
structure FileLedger (heap : FileHeap K) (holders : List Nat) : Prop where
  exact : heap.objects.Exact holders
  once : heap.deleted.Nodup
  apart : ∀ a ∈ heap.deleted, a ∉ holders
  made : ∀ a, a < heap.next ↔ a ∈ heap.deleted ∨ a ∈ holders

section Ledger

variable {heap heap' : FileHeap K} {holders holders' : List Nat}

theorem FileLedger.perm (h : FileLedger heap holders) (hperm : holders.Perm holders') :
    FileLedger heap holders' where
  exact := h.exact.perm hperm
  once := h.once
  apart a ha hmem := h.apart a ha (hperm.mem_iff.mpr hmem)
  made a := by rw [h.made, hperm.mem_iff]

/-- Holders that go, among them those that were the last. -/
theorem FileLedger.drop {addrs : List Nat} (h : FileLedger heap (addrs ++ holders))
    (hnodup : addrs.Nodup) (hexact : heap'.objects.Exact holders) (hnext : heap'.next = heap.next)
    (hdeleted : heap'.deleted = heap.deleted ++ addrs.filter (fun a => a ∉ holders)) :
    FileLedger heap' holders where
  exact := hexact
  once := by
    rw [hdeleted]
    refine List.nodup_append.mpr ⟨h.once, hnodup.filter _, ?_⟩
    rintro a ha b hb rfl
    exact h.apart a ha (List.mem_append_left _ (List.mem_of_mem_filter hb))
  apart a ha := by
    rw [hdeleted] at ha
    rcases List.mem_append.mp ha with ha | ha
    · exact fun hmem => h.apart a ha (List.mem_append_right _ hmem)
    · simpa using (List.mem_filter.mp ha).2
  made a := by
    rw [hnext, h.made, hdeleted]
    simp only [List.mem_append, List.mem_filter, decide_eq_true_iff]
    tauto

theorem FileLedger.unrefAll {l : List (FilePtr K)}
    (h : FileLedger heap (l.map FilePtr.addr ++ holders)) (hnodup : (l.map FilePtr.addr).Nodup) :
    ∃ heap', l.foldlM FileHeap.unref heap = some heap' ∧ FileLedger heap' holders := by
  obtain ⟨heap', hunref, hexact, hnext, hdeleted⟩ := unrefAll_eq (K := K) l h.exact hnodup
  exact ⟨heap', hunref, h.drop hnodup hexact hnext hdeleted⟩

end Ledger

/-! ## A build -/

section Build

variable {icmp : K → K → Ordering} [Std.TransCmp icmp] {cp : Fin N → Option K} {base : Version K N}
  {edits : List (VersionEdit K N)} {heap : FileHeap K} {holders : List Nat}
  {unrefVersion : Version K N → FileHeap K → Version K N × FileHeap K}

theorem build_next {left v : Version K N} {heap' : FileHeap K}
    (hunref : ∀ v heap, (unrefVersion v heap).2 = heap)
    (h : build icmp unrefVersion cp base edits heap = some (left, v, heap')) :
    heap'.next = (applied icmp cp base edits heap).1.next := by
  obtain ⟨saved, hsave, h⟩ := Option.bind_eq_some_iff.mp h
  obtain ⟨⟨left', heap₂⟩, hdestroy, h⟩ := Option.bind_eq_some_iff.mp h
  obtain ⟨-, h⟩ := Prod.mk.inj (Option.some.inj h)
  obtain ⟨-, rfl⟩ := Prod.mk.inj h
  obtain ⟨heap₁, hadded, heq⟩ := Option.map_eq_some_iff.mp hdestroy
  have hheap : heap₁ = heap₂ := (hunref _ heap₁).symm.trans (congrArg Prod.snd heq)
  rw [← hheap]
  exact (Builder.unrefAdded_next hadded).trans (Builder.saveTo_next hsave)

omit [Std.TransCmp icmp] in
/-- What is saved was added or is in the base. -/
theorem Builder.mem_addrs_survivors {b : Builder icmp N} {a : Nat} (ha : a ∈ addrs b.survivors) :
    a ∈ b.addedPtrs.map FilePtr.addr ∨ a ∈ addrs b.base.files := by
  obtain ⟨level, p, hp, rfl⟩ := mem_addrs.mp ha
  rw [← List.mem_append, ← addrs_listed_perm.mem_iff]
  exact mem_addrs.mpr ⟨level, p, (b.survivors_subperm level).subset hp, rfl⟩

/-- **A build keeps the ledger**: the saved version references what it lists, and what it does not
list of the objects made for it is deleted. -/
theorem FileLedger.build {saved : LevelDB.Version K N} (h : FileLedger heap holders)
    (hheld : ∀ a ∈ addrs base.files, a ∈ holders) (hdistinct : Distinct base.files)
    (honce : AddedOnce base.plain edits)
    (hsave : ((LevelDB.Builder.new icmp cp base.plain).applyAll edits).saveTo = some saved)
    (hrefs : 0 < base.refs)
    (hunref : ∀ v heap, unrefVersion v heap = ({ v with refs := v.refs - 1 }, heap)) :
    ∃ v heap', build icmp unrefVersion cp base edits heap = some (base, v, heap') ∧
      Distinct v.files ∧ FileLedger heap' (addrs v.files ++ holders) := by
  have hfresh : ∀ a ∈ holders, a < heap.next := fun a ha => (h.made a).mpr (Or.inr ha)
  have hholds : Holds heap base holders := ⟨h.exact, hfresh, hheld, hdistinct⟩
  obtain ⟨-, heap', hbuild, hholds', hdeleted⟩ :=
    build_eq hholds honce hsave hrefs fun v heap _ => hunref v heap
  have happlied : Applied heap _ holders _ (applied icmp cp base edits heap) :=
    applied_applied hholds honce
  have hnext := build_next (fun v heap => by rw [hunref]) hbuild
  rw [happlied.next] at hnext
  have hadded : ∀ a, a ∈ (applied icmp cp base edits heap).2.addedPtrs.map FilePtr.addr ↔
      heap.next ≤ a ∧ a < heap'.next := by
    intro a
    rw [happlied.made.mem_iff, List.mem_range'_1, hnext]
  have hsaved : ∀ a ∈ addrs (applied icmp cp base edits heap).2.survivors,
      heap.next ≤ a ∧ a < heap'.next ∨ a ∈ holders := by
    intro a ha
    rcases Builder.mem_addrs_survivors ha with hmem | hmem
    · exact Or.inl ((hadded a).mp hmem)
    · rw [happlied.base] at hmem
      exact Or.inr (hheld a hmem)
  refine ⟨_, heap', hbuild, hholds'.distinct, hholds'.exact, ?_, fun a ha => ?_, fun a => ?_⟩
  · rw [hdeleted]
    refine List.nodup_append.mpr ⟨h.once,
      (happlied.made.nodup_iff.mpr List.nodup_range').filter _, ?_⟩
    rintro a ha b hb rfl
    have hlt := (h.made a).mpr (Or.inl ha)
    have hge := ((hadded a).mp (List.mem_of_mem_filter hb)).1
    omega
  · rw [hdeleted] at ha
    rcases List.mem_append.mp ha with ha | ha
    · intro hmem
      rcases List.mem_append.mp hmem with hmem | hmem
      · have hlt := (h.made a).mpr (Or.inl ha)
        rcases hsaved a hmem with hrange | hmem
        · omega
        · exact h.apart a ha hmem
      · exact h.apart a ha hmem
    · simpa using (List.mem_filter.mp ha).2
  · have hle : heap.next ≤ heap'.next := hnext ▸ Nat.le_add_right _ _
    rw [hdeleted, List.mem_append, List.mem_filter, decide_eq_true_iff]
    constructor
    · intro hlt
      by_cases hold : a < heap.next
      · rcases (h.made a).mp hold with hmem | hmem
        · exact Or.inl (Or.inl hmem)
        · exact Or.inr (List.mem_append_right _ hmem)
      · by_cases hlisted : a ∈ addrs (applied icmp cp base edits heap).2.survivors ++ holders
        · exact Or.inr hlisted
        · exact Or.inl (Or.inr ⟨(hadded a).mpr ⟨Nat.le_of_not_lt hold, hlt⟩, hlisted⟩)
    · rintro ((hmem | ⟨hmem, -⟩) | hmem)
      · exact Nat.lt_of_lt_of_le ((h.made a).mpr (Or.inl hmem)) hle
      · exact ((hadded a).mp hmem).2
      · have hholder : a ∈ holders → a < heap'.next :=
          fun hmem => Nat.lt_of_lt_of_le (hfresh a hmem) hle
        rcases List.mem_append.mp hmem with hmem | hmem
        · rcases hsaved a hmem with hrange | hmem
          · exact hrange.2
          · exact hholder hmem
        · exact hholder hmem

end Build

/-! ## The store -/

/-- `Version::Ref`, `Unref` and `~Version`, with what the destructor does to the files. -/
structure FileCode (K : Type) (N : Nat) where
  versions : VersionCode
  dropFiles : (Fin N → List (FilePtr K)) → FileHeap K → Option (FileHeap K)

/-- `~Version` gives up the reference to each of its files, in some order, and deletes a file with
its last reference. -/
structure FileCode.Counts (code : FileCode K N) : Prop where
  versions : code.versions.Counts
  dropFiles : ∀ files, ∃ l : List (FilePtr K), l.Perm ((List.finRange N).flatMap files) ∧
    ∀ heap, code.dropFiles files heap = l.foldlM FileHeap.unref heap

/-- The versions with their files, and the file objects. -/
structure FileStore (K : Type) (N : Nat) where
  versions : VersionList
  files : Nat → Fin N → List (FilePtr K) := fun _ _ => []
  heap : FileHeap K

inductive StoreAct (K : Type) (N : Nat)
  | version (act : VersionAct)
  | build (edits : List (VersionEdit K N))

/-- The builder gives up its reference to the base version, which `current_` still references. -/
def releaseBase (v : Version K N) (heap : FileHeap K) : Version K N × FileHeap K :=
  ({ v with refs := v.refs - 1 }, heap)

namespace FileStore

def initial : FileStore K N where
  versions := .initial
  heap := { objects := fun _ => none, next := 0 }

variable (s : FileStore K N)

/-- The references to the file objects: one for each live version that lists the file. -/
def holders : List Nat := s.versions.live.flatMap fun v => addrs (s.files v)

/-- A version as the builder finds it. -/
def base (v n : Nat) : Version K N where
  files := s.files v
  refs := n

/-- A build on the current version, into a new one that is not installed yet; or a step of the
version list, after which the versions that it deleted have given up their files. Following or
counting a deleted object is `none`. -/
def step (icmp : K → K → Ordering) [Std.TransCmp icmp] (code : FileCode K N) (s : FileStore K N) :
    StoreAct K N → Option (FileStore K N)
  | .version act => do
    let versions ← s.versions.step code.versions act
    let heap ← (s.versions.gone versions).foldlM
      (fun heap v => code.dropFiles (s.files v) heap) s.heap
    pure { s with versions, heap }
  | .build edits => do
    let c ← s.versions.current
    let n ← s.versions.heap.refs c
    let (base, v, heap) ←
      Counted.build icmp releaseBase (fun _ => none) (s.base c n) edits s.heap
    let versions := s.versions.create
    pure {
      versions := { versions with heap := { versions.heap with
        refs := Function.update versions.heap.refs c (some base.refs) } }
      files := Function.update s.files s.versions.made v.files
      heap }

/-- The edits of a build add no file twice at a level, and `MaybeAddFile` finds no overlap. -/
def Builds (icmp : K → K → Ordering) [Std.TransCmp icmp] (s : FileStore K N) :
    StoreAct K N → Prop
  | .version _ => True
  | .build edits => ∀ c, s.versions.current = some c →
    AddedOnce (s.base c 0).plain edits ∧
      ((LevelDB.Builder.new icmp (fun _ => none) (s.base c 0).plain).applyAll edits).saveTo.isSome

/-- **The invariant.** -/
structure Ok (s : FileStore K N) : Prop where
  versions : s.versions.Ok
  ledger : FileLedger s.heap s.holders
  distinct : ∀ v ∈ s.versions.live, Distinct (s.files v)
  unmade : ∀ v, s.versions.made ≤ v → s.files v = fun _ => []

end FileStore

section Store

variable {icmp : K → K → Ordering} [Std.TransCmp icmp] {code : FileCode K N} {s t : FileStore K N}

omit [Std.TransCmp icmp] in
theorem addrs_nil : addrs (fun _ => [] : Fin N → List (FilePtr K)) = [] := by
  unfold addrs
  rw [List.map_eq_nil_iff]
  exact List.flatMap_eq_nil_iff.mpr fun _ _ => rfl

omit [Std.TransCmp icmp] in
/-- **Versions are deleted**, one after the other. -/
theorem FileLedger.dropFiles (hcode : code.Counts) {files : Nat → Fin N → List (FilePtr K)} :
    ∀ {vs : List Nat} {heap : FileHeap K} {holders : List Nat},
      FileLedger heap ((vs.flatMap fun v => addrs (files v)) ++ holders) →
      (∀ v ∈ vs, Distinct (files v)) →
      ∃ heap', vs.foldlM (fun heap v => code.dropFiles (files v) heap) heap = some heap' ∧
        FileLedger heap' holders
  | [], heap, holders, h, _ => ⟨heap, rfl, h⟩
  | v :: vs, heap, holders, h, hdistinct => by
    obtain ⟨l, hperm, hdrop⟩ := hcode.dropFiles (files v)
    have haddrs : (l.map FilePtr.addr).Perm (addrs (files v)) := hperm.map FilePtr.addr
    have hfirst : FileLedger heap (l.map FilePtr.addr ++
        ((vs.flatMap fun v => addrs (files v)) ++ holders)) := by
      refine h.perm ?_
      rw [List.flatMap_cons, List.append_assoc]
      exact haddrs.symm.append_right _
    obtain ⟨heap₁, hunref, h₁⟩ :=
      hfirst.unrefAll (haddrs.nodup_iff.mpr (hdistinct v List.mem_cons_self))
    obtain ⟨heap', hrest, h'⟩ :=
      FileLedger.dropFiles hcode h₁ fun u hu => hdistinct u (List.mem_cons_of_mem v hu)
    refine ⟨heap', ?_, h'⟩
    rw [List.foldlM_cons, hdrop, hunref]
    exact hrest

namespace FileStore

omit [Std.TransCmp icmp] in
theorem ok_initial : (initial : FileStore K N).Ok where
  versions := VersionList.ok_initial
  ledger := ⟨fun _ => rfl, List.nodup_nil, nofun, fun a => by simp [initial, holders,
    VersionList.live, VersionList.initial, VersionHeap.listed]⟩
  distinct := nofun
  unmade _ _ := rfl

/-- **A step of the version list** drops the files of the versions that it deletes. -/
theorem Ok.version (icmp : K → K → Ordering) [Std.TransCmp icmp] (hcode : code.Counts) (h : s.Ok)
    {act : VersionAct} {versions : VersionList}
    (hstep : s.versions.step code.versions act = some versions) :
    ∃ heap, s.step icmp code (.version act) = some { s with versions, heap } ∧
      ({ s with versions, heap } : FileStore K N).Ok := by
  obtain ⟨kept, new, hbefore, hafter, hnew⟩ := h.versions.live_perm hcode.versions hstep
  have hholders : s.holders.Perm (((s.versions.gone versions).flatMap fun v => addrs (s.files v)) ++
      kept.flatMap fun v => addrs (s.files v)) := by
    rw [← List.flatMap_append]
    exact hbefore.flatMap_right _
  have hgone : ∀ v ∈ s.versions.gone versions, Distinct (s.files v) :=
    fun v hv => h.distinct v (List.mem_of_mem_filter hv)
  obtain ⟨heap, hdrop, hledger⟩ := FileLedger.dropFiles hcode (h.ledger.perm hholders) hgone
  have hempty : ∀ v ∈ new, s.files v = fun _ => [] := fun v hv => h.unmade v (hnew v hv)
  refine ⟨heap, ?_, h.versions.step hcode.versions hstep, hledger.perm ?_, fun v hv => ?_,
    fun v hv => h.unmade v (Nat.le_trans (VersionList.made_le hstep) hv)⟩
  · unfold step
    simp only [hstep, hdrop, Option.bind_eq_bind, Option.bind_some]
    rfl
  · -- the new versions list no files
    have hnone : new.flatMap (fun v => addrs (s.files v)) = [] :=
      List.flatMap_eq_nil_iff.mpr fun v hv => by rw [hempty v hv, addrs_nil]
    have hperm := hafter.flatMap_right fun v => addrs (s.files v)
    rw [List.flatMap_append, hnone] at hperm
    exact hperm.symm
  · rcases List.mem_append.mp (hafter.mem_iff.mp hv) with hmem | hmem
    · show Distinct (s.files v)
      unfold Distinct
      rw [hempty v hmem, addrs_nil]
      exact List.nodup_nil
    · exact h.distinct v (hbefore.mem_iff.mpr (List.mem_append_right _ hmem))

/-- **A build** makes a version that references what it lists. -/
theorem Ok.build (h : s.Ok) {edits : List (VersionEdit K N)}
    (hbuilds : Builds icmp s (.build edits)) {c : Nat} (hcurrent : s.versions.current = some c) :
    ∃ v heap, s.step icmp code (.build edits) = some {
        versions := s.versions.create
        files := Function.update s.files s.versions.made v
        heap } ∧
      ({ versions := s.versions.create
         files := Function.update s.files s.versions.made v
         heap } : FileStore K N).Ok := by
  obtain ⟨n, hrefs, hpos⟩ := h.versions.current_refs hcurrent
  obtain ⟨honce, hsave⟩ := hbuilds c hcurrent
  obtain ⟨saved, hsave⟩ := Option.isSome_iff_exists.mp hsave
  have hlive : c ∈ s.versions.live := h.versions.mem_live.mpr (by rw [hrefs]; rfl)
  have hlt := h.versions.live_lt hlive
  have hheld : ∀ a ∈ addrs (s.base c n).files, a ∈ s.holders :=
    fun a ha => List.mem_flatMap.mpr ⟨c, hlive, ha⟩
  obtain ⟨v, heap, hbuild, hdistinct, hledger⟩ : ∃ v heap,
      Counted.build icmp releaseBase (fun _ => none) (s.base c n) edits s.heap =
        some (s.base c n, v, heap) ∧
      Distinct v.files ∧ FileLedger heap (addrs v.files ++ s.holders) :=
    h.ledger.build hheld (h.distinct c hlive) honce hsave hpos fun _ _ => rfl
  have hother : ∀ u ∈ s.versions.live, Function.update s.files s.versions.made v.files u =
      s.files u := by
    intro u hu
    exact Function.update_of_ne (Nat.ne_of_lt (h.versions.live_lt hu)) _ _
  refine ⟨v.files, heap, ?_, h.versions.create, ?_, fun u hu => ?_, fun u hu => ?_⟩
  · have hsame : Function.update s.versions.create.heap.refs c (some (s.base c n).refs) =
        s.versions.create.heap.refs := by
      refine Function.update_eq_self_iff.mpr ?_
      exact hrefs.symm.trans (Function.update_of_ne (Nat.ne_of_lt hlt) _ _).symm
    unfold step
    simp only [hcurrent, hrefs, hbuild, Option.bind_eq_bind, Option.bind_some, hsame]
    rfl
  · have hrest : (s.versions.live.flatMap fun u =>
        addrs (Function.update s.files s.versions.made v.files u)) = s.holders := by
      unfold holders
      exact List.flatMap_congr fun u hu => by rw [hother u hu]
    unfold holders
    dsimp only
    rw [h.versions.live_create, List.flatMap_cons, Function.update_self, hrest]
    exact hledger
  · dsimp only at hu ⊢
    rw [h.versions.live_create] at hu
    rcases List.mem_cons.mp hu with rfl | hu
    · rw [Function.update_self]
      exact hdistinct
    · rw [hother u hu]
      exact h.distinct u hu
  · have hle : s.versions.made + 1 ≤ u := hu
    dsimp only
    rw [Function.update_of_ne (by omega)]
    exact h.unmade u (by omega)

theorem Ok.step (hcode : code.Counts) (h : s.Ok) {act : StoreAct K N} (hbuilds : s.Builds icmp act)
    (hstep : s.step icmp code act = some t) : t.Ok := by
  cases act with
  | version act =>
    obtain ⟨versions, hversions, -⟩ := Option.bind_eq_some_iff.mp hstep
    obtain ⟨heap, hstep', hok⟩ := h.version icmp hcode hversions
    obtain rfl := Option.some.inj (hstep.symm.trans hstep')
    exact hok
  | build edits =>
    obtain ⟨c, hcurrent, -⟩ := Option.bind_eq_some_iff.mp hstep
    obtain ⟨v, heap, hstep', hok⟩ := h.build hbuilds hcurrent
    obtain rfl := Option.some.inj (hstep.symm.trans hstep')
    exact hok

end FileStore

/-- **File objects live as long as a version lists them.** In every run of installed and failed
versions, readers, and builds that add no file twice and pass the assertion of `MaybeAddFile`: the
count of an object is the number of the live versions that list it; the objects that have been
deleted are those that no live version lists, each was deleted once; and the next step never follows
a deleted object: such a build succeeds, and so does the destructor of every version that is
deleted. -/
theorem fileObjects_live (hcode : code.Counts)
    (run : Transition.Run (FileStore.step icmp code) (FileStore.Builds icmp) .initial s) :
    (∀ p : FilePtr K, s.heap.refs p =
        if s.holders.count p.addr = 0 then none else some (s.holders.count p.addr)) ∧
      (∀ v, (s.versions.heap.refs v).isSome = true → ∀ level, ∀ p ∈ s.files v level,
        (s.heap.refs p).isSome = true) ∧
      s.heap.deleted.Nodup ∧ (∀ a < s.heap.next, a ∈ s.heap.deleted ↔ a ∉ s.holders) ∧
      (∀ act versions, s.versions.step code.versions act = some versions →
        ∃ heap, s.step icmp code (.version act) = some { s with versions, heap }) ∧
      ∀ edits, s.versions.current ≠ none → s.Builds icmp (.build edits) →
        (s.step icmp code (.build edits)).isSome = true := by
  have h : s.Ok := run.invariant (fun hok hbuilds hstep => hok.step hcode hbuilds hstep)
    FileStore.ok_initial
  refine ⟨fun p => h.ledger.exact p.addr, fun v hv level p hp => ?_, h.ledger.once, fun a ha => ?_,
    fun act versions hstep => ?_, fun edits hcurrent hbuilds => ?_⟩
  · have hmem : p.addr ∈ s.holders := List.mem_flatMap.mpr
      ⟨v, h.versions.mem_live.mpr hv, mem_addrs.mpr ⟨level, p, hp, rfl⟩⟩
    show ((s.heap.objects p.addr).map RefCounted.Cell.refs).isSome = true
    rw [Option.isSome_map]
    exact h.ledger.exact.isSome_iff.mpr hmem
  · constructor
    · exact h.ledger.apart a
    · intro hnot
      exact ((h.ledger.made a).mp ha).resolve_right hnot
  · obtain ⟨heap, hstep', -⟩ := h.version icmp hcode hstep
    exact ⟨heap, hstep'⟩
  · obtain ⟨c, hcurrent⟩ := Option.ne_none_iff_exists'.mp hcurrent
    obtain ⟨v, heap, hstep, -⟩ := h.build hbuilds hcurrent
    rw [hstep]
    rfl

end Store

/-! ## A reader keeps a file -/

def countedFiles : FileCode Nat 2 where
  versions := countedVersions
  dropFiles files heap := ((List.finRange 2).flatMap files).foldlM FileHeap.unref heap

theorem countedFiles_counts : countedFiles.Counts :=
  ⟨countedVersions_counts, fun _ => ⟨_, .refl _, fun _ => rfl⟩⟩

instance (base : LevelDB.Version Nat 2) (edits : List (VersionEdit Nat 2)) :
    Decidable (AddedOnce base edits) :=
  inferInstanceAs (Decidable (∀ level, ((base.files level ++
    edits.flatMap (fun e => e.newAt level)).map FileMetaData.number).Nodup))

/-- The condition of a build, checked. -/
def passes (s : FileStore Nat 2) : StoreAct Nat 2 → Bool
  | .version _ => true
  | .build edits => s.versions.current.all fun c =>
    let base := (s.base c 0).plain
    decide (AddedOnce base edits) &&
      ((LevelDB.Builder.new compare (fun _ => none) base).applyAll edits).saveTo.isSome

theorem passes_builds (s : FileStore Nat 2) (act : StoreAct Nat 2) (h : passes s act = true) :
    s.Builds compare act := by
  cases act with
  | version act => trivial
  | build edits =>
    intro c hcurrent
    simp only [passes, hcurrent, Option.all_some, Bool.and_eq_true, decide_eq_true_iff] at h
    exact h

/-- A flush adds file 5, and a reader takes that version. The next edit replaces file 5 by file 6;
a build that adds file 7 fails at the manifest. File 5 goes with the reader. -/
def readerRun : List (StoreAct Nat 2) :=
  let level0 : Fin 2 := ⟨0, Nat.zero_lt_two⟩
  let level1 : Fin 2 := ⟨1, Nat.one_lt_two⟩
  let flush := ({} : VersionEdit Nat 2).addFile level0 5 9 1 2
  let replace := (({} : VersionEdit Nat 2).addFile level1 6 9 1 2).removeFile level0 5
  let failed := ({} : VersionEdit Nat 2).addFile level0 7 9 1 2
  [.version .create, .version (.append 0), .build [flush], .version (.append 1), .version (.ref 1),
    .build [replace], .version (.append 2), .build [failed], .version (.discard 3),
    .version (.unref 1)]

theorem fileObjects_live_reader :
    ∃ s, Transition.exec (fun s act => if passes s act then
        FileStore.step compare countedFiles s act else none) readerRun .initial = some s ∧
      s.holders = [1] ∧ s.heap.next = 3 ∧ s.heap.deleted = [2, 0] ∧ s.heap.deleted.Nodup ∧
      ∀ a < s.heap.next, a ∈ s.heap.deleted ↔ a ∉ s.holders := by
  obtain ⟨s, hs, hholders, hnext, hdeleted⟩ : ∃ s,
      Transition.exec (fun s act => if passes s act then
        FileStore.step compare countedFiles s act else none) readerRun .initial = some s ∧
      s.holders = [1] ∧ s.heap.next = 3 ∧ s.heap.deleted = [2, 0] := ⟨_, rfl, rfl, rfl, rfl⟩
  obtain ⟨-, -, honce, hgone, -⟩ :=
    fileObjects_live countedFiles_counts (Transition.Run.of_checked passes_builds hs)
  exact ⟨s, hs, hholders, hnext, hdeleted, honce, hgone⟩

end Counted

end LevelDB
