import LevelDB.Lib.Ring
import LevelDB.Lib.Transition
import LevelDB.VersionSet.FailedApply

/-!
# The list of versions

`AppendVersion` gives up the reference to the old current version, which may delete and unlink it,
before it links the new one in. Holders keep older versions alive in the middle of the list. A new
version waits outside the list, linked to itself, while the manifest is written, and it is deleted
there if that fails.

* `VersionHeap.appendVersion` — `AppendVersion`, over `Ref`, `Unref` and the destructor of
  `Version`;
* `VersionAct`, `VersionList.step` — the runs: new versions, `AppendVersion`, holders;
* `unref_spec` — what giving up a reference does to the counts and to the ring;
* `versionList_ok` — the list is the ring of the live installed versions, in order.
-/

set_option autoImplicit false

namespace LevelDB

open Linked

/-- The version objects: how they are linked, and `refs_` of those that live. -/
structure VersionHeap where
  links : VersionLinks
  refs : Nat → Option Nat

/-- `Version::Ref`, `Version::Unref` and `~Version`. -/
structure VersionCode where
  ref : VersionHeap → Nat → VersionHeap
  unref : VersionHeap → Nat → VersionHeap
  destroy : VersionHeap → Nat → VersionHeap

/-- A version counts its references, the last one deletes it, and the destructor takes it out of the
list in which it is linked. -/
structure VersionCode.Counts (code : VersionCode) : Prop where
  ref : ∀ heap v n, heap.refs v = some n →
    code.ref heap v = { heap with refs := Function.update heap.refs v (some (n + 1)) }
  unref : ∀ heap v n, heap.refs v = some (n + 2) →
    code.unref heap v = { heap with refs := Function.update heap.refs v (some (n + 1)) }
  unref_last : ∀ heap v, heap.refs v = some 1 →
    code.unref heap v =
      code.destroy { heap with refs := Function.update heap.refs v (some 0) } v
  destroy_refs : ∀ heap v, (code.destroy heap v).refs = Function.update heap.refs v none
  destroy_links : ∀ heap v, VersionLinks.SameBut v (heap.links.unlink v) (code.destroy heap v).links

/-- `current_` and the version objects, with a record of the run: `made` versions were constructed,
`pending` are those not installed yet, `installed` lists the others in the order of their
installation, and `held` are the references of the holders. -/
structure VersionList where
  heap : VersionHeap
  current : Option Nat := none
  made : Nat := 0
  pending : List Nat := []
  installed : List Nat := []
  held : List Nat := []

/-- Before the first version: `dummy_versions_` is linked to itself, and `current_` is null. -/
def VersionList.initial : VersionList where
  heap := { links := { next := id, prev := id }, refs := fun _ => none }

inductive VersionAct
  | create
  | append (v : Nat)
  | discard (v : Nat)
  | ref (v : Nat)
  | unref (v : Nat)

section Model

variable (code : VersionCode)

/-- `AppendVersion`; a failed assertion is `none`. -/
def VersionHeap.appendVersion (heap : VersionHeap) (current : Option Nat) (v : Nat) :
    Option VersionHeap := do
  guard (heap.refs v = some 0)
  guard (some v ≠ current)
  let heap := match current with
    | some c => code.unref heap c
    | none => heap
  let heap := code.ref heap v
  pure { heap with links := heap.links.append v }

namespace VersionList

/-- `new Version(this)`. -/
def create (s : VersionList) : VersionList :=
  { s with
    heap :=
      { links := s.heap.links.create s.made, refs := Function.update s.heap.refs s.made (some 0) }
    made := s.made + 1
    pending := s.made :: s.pending }

/-- Constructing, installing or deleting a version, and the references of holders, who take one to a
live installed version and give up those that they have. -/
def step (s : VersionList) : VersionAct → Option VersionList
  | .create => some s.create
  | .append v =>
    if v ∈ s.pending then
      (s.heap.appendVersion code s.current v).map fun heap => { s with
        heap
        current := some v
        pending := s.pending.erase v
        installed := s.installed ++ [v] }
    else none
  | .discard v =>
    if v ∈ s.pending then
      some { s with heap := code.destroy s.heap v, pending := s.pending.erase v }
    else none
  | .ref v =>
    if v ∈ s.installed ∧ (s.heap.refs v).isSome then
      some { s with heap := code.ref s.heap v, held := v :: s.held }
    else none
  | .unref v =>
    if v ∈ s.held then some { s with heap := code.unref s.heap v, held := s.held.erase v }
    else none

end VersionList

end Model

/-- The installed versions that live, in the order of their installation. -/
def VersionHeap.listed (heap : VersionHeap) (installed : List Nat) : List Nat :=
  installed.filter fun v => (heap.refs v).isSome

/-- The list headed by `dummy_versions_` is the ring of these versions. -/
def VersionHeap.Lists (heap : VersionHeap) (installed : List Nat) : Prop :=
  Ring heap.links.next heap.links.prev none ((heap.listed installed).map some)

/-- How many references to a version there are: those of the holders, and `current_`. -/
def references (held : List Nat) (current : Option Nat) (v : Nat) : Nat :=
  held.count v + if current = some v then 1 else 0

section Counts

variable {held : List Nat} {current : Option Nat} {u v : Nat}

theorem references_current : references held (some v) v = held.count v + 1 := by
  unfold references
  rw [if_pos rfl]

theorem references_of_ne (h : current ≠ some v) : references held current v = held.count v := by
  unfold references
  rw [if_neg h, Nat.add_zero]

theorem references_cons_self :
    references (v :: held) current v = references held current v + 1 := by
  unfold references
  rw [List.count_cons_self, Nat.add_right_comm]

theorem references_cons_of_ne (h : u ≠ v) :
    references (v :: held) current u = references held current u := by
  unfold references
  rw [List.count_cons_of_ne h.symm]

theorem references_erase_self (h : v ∈ held) :
    references held current v = references (held.erase v) current v + 1 := by
  have hpos := List.count_pos_iff.mpr h
  unfold references
  rw [List.count_erase_self]
  omega

theorem references_erase_of_ne (h : u ≠ v) :
    references (held.erase v) current u = references held current u := by
  unfold references
  rw [List.count_erase_of_ne h]

end Counts

/-- **The invariant.** -/
structure VersionList.Ok (s : VersionList) : Prop where
  fresh : ∀ v ∈ s.pending ++ s.installed, v < s.made
  nodup : (s.pending ++ s.installed).Nodup
  held : ∀ v ∈ s.held, v ∈ s.installed
  current : s.current = s.installed.getLast?
  pending : ∀ v ∈ s.pending, s.heap.refs v = some 0
  refs : ∀ v, v ∉ s.pending →
    s.heap.refs v = if references s.held s.current v = 0 then none
      else some (references s.held s.current v)
  alone : ∀ v ∈ s.pending, s.heap.links.next (some v) = some v ∧ s.heap.links.prev (some v) = some v
  lists : s.heap.Lists s.installed

/-! ## One reference -/

section Reference

variable {code : VersionCode} {heap heap' : VersionHeap} {installed : List Nat} {u v n : Nat}

theorem VersionHeap.mem_listed :
    v ∈ heap.listed installed ↔ v ∈ installed ∧ (heap.refs v).isSome = true :=
  List.mem_filter

theorem VersionHeap.not_mem_ring (h : v ∉ installed) :
    some v ∉ none :: (heap.listed installed).map some := by
  intro hmem
  rcases List.mem_cons.mp hmem with heq | hmem
  · cases heq
  · obtain ⟨u, hu, heq⟩ := List.mem_map.mp hmem
    cases heq
    exact h (mem_listed.mp hu).1

theorem VersionHeap.listed_congr
    (h : ∀ u ∈ installed, (heap'.refs u).isSome = (heap.refs u).isSome) :
    heap'.listed installed = heap.listed installed :=
  List.filter_congr h

theorem VersionHeap.Lists.congr (hlists : heap.Lists installed)
    (hrefs : ∀ u ∈ installed, (heap'.refs u).isSome = (heap.refs u).isSome)
    (hlinks : ∀ u ∈ none :: (heap.listed installed).map some,
      heap'.links.next u = heap.links.next u ∧ heap'.links.prev u = heap.links.prev u) :
    heap'.Lists installed := by
  unfold Lists
  rw [listed_congr hrefs]
  exact Ring.congr hlists hlinks

/-- A version that is not installed can be made and deleted. -/
theorem VersionHeap.Lists.outside (hlists : heap.Lists installed) (hv : v ∉ installed)
    (hrefs : ∀ u, u ≠ v → heap'.refs u = heap.refs u)
    (hlinks : VersionLinks.SameBut v heap.links heap'.links) : heap'.Lists installed := by
  refine hlists.congr (fun u hu => ?_) fun u hu => hlinks u ?_
  · rw [hrefs u fun heq => hv (heq ▸ hu)]
  · rintro rfl
    exact not_mem_ring hv hu

/-- A live version can get another count. -/
theorem VersionHeap.Lists.counted (hlists : heap.Lists installed) {m : Nat}
    (hv : (heap.refs v).isSome = true) :
    ({ heap with refs := Function.update heap.refs v (some m) } : VersionHeap).Lists installed := by
  refine hlists.congr (fun u _ => ?_) fun _ _ => ⟨rfl, rfl⟩
  by_cases huv : u = v
  · subst huv
    dsimp only
    rw [Function.update_self, hv]
    rfl
  · dsimp only
    rw [Function.update_of_ne huv]

/-- The links of versions that were never installed stay as they are. -/
def SameOutside (installed : List Nat) (heap heap' : VersionHeap) : Prop :=
  ∀ u ∉ installed, heap'.links.next (some u) = heap.links.next (some u) ∧
    heap'.links.prev (some u) = heap.links.prev (some u)

/-- **Deleting a listed version** takes it out of the ring. -/
theorem destroy_spec (hcode : code.Counts) (hnodup : installed.Nodup)
    (hlists : heap.Lists installed) (hv : v ∈ heap.listed installed) :
    (code.destroy heap v).Lists installed ∧ SameOutside installed heap (code.destroy heap v) := by
  have hlinks := hcode.destroy_links heap v
  obtain ⟨l₁, l₂, hsplit⟩ := List.append_of_mem hv
  have hrest : (l₁ ++ v :: l₂).Nodup := hsplit ▸ hnodup.filter _
  obtain ⟨hnot, -⟩ := List.nodup_cons.mp (List.nodup_middle.mp hrest)
  have hlisted : (code.destroy heap v).listed installed = l₁ ++ l₂ := by
    have hfilter : (code.destroy heap v).listed installed =
        (heap.listed installed).filter (fun u => u ≠ v) := by
      unfold VersionHeap.listed
      rw [List.filter_filter, hcode.destroy_refs]
      refine List.filter_congr fun u _ => ?_
      by_cases huv : u = v
      · subst huv
        simp
      · rw [Function.update_of_ne huv]
        simp [huv]
    have hkept : ∀ l : List Nat, v ∉ l → l.filter (fun u => u ≠ v) = l := fun l hl =>
      List.filter_eq_self.mpr fun u hu => decide_eq_true fun heq => hl (heq ▸ hu)
    rw [hfilter, hsplit, List.filter_append, List.filter_cons_of_neg (by simp), hkept l₁, hkept l₂]
    · exact fun h => hnot (List.mem_append_right _ h)
    · exact fun h => hnot (List.mem_append_left _ h)
  have hring : Ring heap.links.next heap.links.prev none
      (l₁.map some ++ some v :: l₂.map some) := by
    have hring := hlists
    unfold VersionHeap.Lists at hring
    rw [hsplit, List.map_append] at hring
    exact hring
  have hself : some v ∈ none :: (heap.listed installed).map some :=
    List.mem_cons_of_mem none (List.mem_map_of_mem hv)
  constructor
  · unfold VersionHeap.Lists
    rw [hlisted, List.map_append]
    refine hring.unlink.congr fun u hu => hlinks u ?_
    rintro rfl
    rw [← List.map_append] at hu
    rcases List.mem_cons.mp hu with heq | hu
    · cases heq
    · obtain ⟨w, hw, heq⟩ := List.mem_map.mp hu
      cases heq
      exact hnot hw
  · intro u hu
    have huv : some u ≠ some v := fun heq =>
      hu (Option.some.inj heq ▸ (VersionHeap.mem_listed.mp hv).1)
    obtain ⟨hnext, hprev⟩ := hlists.mem hself
    obtain ⟨hsameNext, hsamePrev⟩ := hlinks (some u) huv
    constructor
    · refine hsameNext.trans (Function.update_of_ne (fun heq => ?_) _ _)
      exact VersionHeap.not_mem_ring hu (heq ▸ hprev)
    · refine hsamePrev.trans (Function.update_of_ne (fun heq => ?_) _ _)
      exact VersionHeap.not_mem_ring hu (heq ▸ hnext)

/-- **Giving up a reference** to a listed version. -/
theorem unref_spec (hcode : code.Counts) (hnodup : installed.Nodup) (hlists : heap.Lists installed)
    (hv : v ∈ installed) (hrefs : heap.refs v = some (n + 1)) :
    (code.unref heap v).refs = Function.update heap.refs v (if n = 0 then none else some n) ∧
      (code.unref heap v).Lists installed ∧ SameOutside installed heap (code.unref heap v) := by
  have hlive : (heap.refs v).isSome = true := by
    rw [hrefs]
    rfl
  cases n with
  | zero =>
    -- the last reference
    rw [hcode.unref_last heap v hrefs, hcode.destroy_refs, Function.update_idem, if_pos rfl]
    have hlisted : v ∈ ({ heap with refs := Function.update heap.refs v (some 0) } :
        VersionHeap).listed installed :=
      VersionHeap.mem_listed.mpr ⟨hv, by dsimp only; rw [Function.update_self]; rfl⟩
    obtain ⟨hlists', hsame'⟩ := destroy_spec hcode hnodup (hlists.counted hlive) hlisted
    exact ⟨rfl, hlists', hsame'⟩
  | succ n =>
    rw [hcode.unref heap v n hrefs, if_neg (Nat.succ_ne_zero n)]
    exact ⟨rfl, hlists.counted hlive, fun u _ => ⟨rfl, rfl⟩⟩

/-- **Linking a new version in**, after its first reference was taken. -/
theorem append_spec (hcode : code.Counts) (hlists : heap.Lists installed) (hv : v ∉ installed)
    (hrefs : heap.refs v = some 0) :
    (code.ref heap v).refs = Function.update heap.refs v (some 1) ∧
      ({ code.ref heap v with links := (code.ref heap v).links.append v } : VersionHeap).Lists
        (installed ++ [v]) ∧
      ∀ u, u ∉ installed → u ≠ v →
        ((code.ref heap v).links.append v).next (some u) = heap.links.next (some u) ∧
          ((code.ref heap v).links.append v).prev (some u) = heap.links.prev (some u) := by
  rw [hcode.ref heap v 0 hrefs]
  have hlisted : ({ refs := Function.update heap.refs v (some 1), links := heap.links.append v } :
      VersionHeap).listed (installed ++ [v]) = heap.listed installed ++ [v] := by
    have hold : ∀ u ∈ installed, (Function.update heap.refs v (some 1) u).isSome =
        (heap.refs u).isSome := by
      intro u hu
      have hne : u ≠ v := fun heq => hv (heq ▸ hu)
      rw [Function.update_of_ne hne]
    unfold VersionHeap.listed
    rw [List.filter_append, List.filter_congr hold, List.filter_cons_of_pos]
    · rfl
    · dsimp only
      rw [Function.update_self]
      rfl
  refine ⟨rfl, ?_, fun u hu huv => ⟨?_, ?_⟩⟩
  · unfold VersionHeap.Lists
    rw [hlisted, List.map_append]
    exact Ring.append hlists (VersionHeap.not_mem_ring hv)
  · have hhead := (hlists.mem List.mem_cons_self).2
    unfold VersionLinks.append
    dsimp only
    rw [Function.update_of_ne fun heq => VersionHeap.not_mem_ring hu (heq ▸ hhead),
      Function.update_of_ne fun heq => huv (Option.some.inj heq)]
  · unfold VersionLinks.append
    dsimp only
    rw [Function.update_of_ne (Option.some_ne_none u),
      Function.update_of_ne fun heq => huv (Option.some.inj heq)]

end Reference

/-! ## Every step -/

namespace VersionList

variable {code : VersionCode} {s t : VersionList} {u v : Nat}

theorem references_eq_zero (h : s.Ok) (hv : v ∉ s.installed) :
    references s.held s.current v = 0 := by
  have hheld : s.held.count v = 0 := List.count_eq_zero.mpr fun hmem => hv (h.held v hmem)
  have hcurrent : s.current ≠ some v := by
    rw [h.current]
    exact fun hlast => hv (List.mem_of_getLast? hlast)
  rw [references_of_ne hcurrent, hheld]

namespace Ok

theorem not_installed (h : s.Ok) (hv : v ∈ s.pending) : v ∉ s.installed :=
  fun hmem => (List.nodup_append.mp h.nodup).2.2 v hv v hmem rfl

theorem not_pending (h : s.Ok) (hv : v ∈ s.installed) : v ∉ s.pending :=
  fun hmem => h.not_installed hmem hv

theorem create (h : s.Ok) : s.create.Ok := by
  have hnew : s.made ∉ s.pending ++ s.installed := fun hmem => Nat.lt_irrefl _ (h.fresh _ hmem)
  have hinstalled : s.made ∉ s.installed := fun hmem => hnew (List.mem_append_right _ hmem)
  have hpending : ∀ v ∈ s.pending, v ≠ s.made :=
    fun v hv heq => hnew (List.mem_append_left _ (heq ▸ hv))
  refine ⟨fun v hv => ?_, List.nodup_cons.mpr ⟨hnew, h.nodup⟩, h.held, h.current, fun v hv => ?_,
    fun v hv => ?_, fun v hv => ?_, ?_⟩
  · rcases List.mem_cons.mp hv with rfl | hv
    · exact Nat.lt_succ_self _
    · exact Nat.lt_succ_of_lt (h.fresh v hv)
  · rcases List.mem_cons.mp hv with rfl | hv
    · exact Function.update_self _ _ _
    · exact (Function.update_of_ne (hpending v hv) _ _).trans (h.pending v hv)
  · exact (Function.update_of_ne (List.ne_of_not_mem_cons hv) _ _).trans
      (h.refs v (List.not_mem_of_not_mem_cons hv))
  · rcases List.mem_cons.mp hv with rfl | hv
    · exact ⟨Function.update_self _ _ _, Function.update_self _ _ _⟩
    · have hne : some v ≠ some s.made := fun heq => hpending v hv (Option.some.inj heq)
      exact ⟨(Function.update_of_ne hne _ _).trans (h.alone v hv).1,
        (Function.update_of_ne hne _ _).trans (h.alone v hv).2⟩
  · exact h.lists.outside hinstalled (fun u hu => Function.update_of_ne hu _ _)
      fun u hu => ⟨Function.update_of_ne hu _ _, Function.update_of_ne hu _ _⟩

theorem current_installed (h : s.Ok) (hcurrent : s.current = some v) : v ∈ s.installed := by
  rw [h.current] at hcurrent
  exact List.mem_of_getLast? hcurrent

theorem pending_nodup (h : s.Ok) : s.pending.Nodup := (List.nodup_append.mp h.nodup).1

theorem installed_nodup (h : s.Ok) : s.installed.Nodup := (List.nodup_append.mp h.nodup).2.1

theorem mem_pending_erase (h : s.Ok) (hu : u ∈ s.pending.erase v) : u ∈ s.pending ∧ u ≠ v :=
  (h.pending_nodup.mem_erase_iff.mp hu).symm

/-- Without one of the pending versions. -/
theorem nodup_erase (h : s.Ok) (v : Nat) : (s.pending.erase v ++ s.installed).Nodup :=
  h.nodup.sublist (List.erase_sublist.append_right _)

/-- Deleting a version that was not installed. -/
theorem discard (hcode : code.Counts) (h : s.Ok) (hv : v ∈ s.pending) :
    ({ s with heap := code.destroy s.heap v, pending := s.pending.erase v } : VersionList).Ok := by
  have hinstalled := h.not_installed hv
  have hrefs := hcode.destroy_refs s.heap v
  have hlinks : VersionLinks.SameBut v s.heap.links (code.destroy s.heap v).links := by
    intro u hu
    obtain ⟨hnext, hprev⟩ := hcode.destroy_links s.heap v u hu
    -- the version is linked to itself
    obtain ⟨hself, hself'⟩ := h.alone v hv
    unfold VersionLinks.unlink at hnext hprev
    rw [hself, hself'] at hnext hprev
    exact ⟨hnext.trans (Function.update_of_ne hu _ _), hprev.trans (Function.update_of_ne hu _ _)⟩
  refine ⟨fun u hu => ?_, h.nodup_erase v, h.held, h.current, fun u hu => ?_, fun u hu => ?_,
    fun u hu => ?_, ?_⟩
  · refine h.fresh u ?_
    rcases List.mem_append.mp hu with hu | hu
    · exact List.mem_append_left _ (h.mem_pending_erase hu).1
    · exact List.mem_append_right _ hu
  · rw [hrefs, Function.update_of_ne (h.mem_pending_erase hu).2]
    exact h.pending u (h.mem_pending_erase hu).1
  · rw [hrefs]
    by_cases huv : u = v
    · subst huv
      rw [Function.update_self, if_pos (references_eq_zero h hinstalled)]
    · rw [Function.update_of_ne huv]
      exact h.refs u fun hmem => hu (h.pending_nodup.mem_erase_iff.mpr ⟨huv, hmem⟩)
  · obtain ⟨hmem, hne⟩ := h.mem_pending_erase hu
    obtain ⟨hnext, hprev⟩ := hlinks (some u) fun heq => hne (Option.some.inj heq)
    rw [hnext, hprev]
    exact h.alone u hmem
  · refine h.lists.outside hinstalled (fun u hu => ?_) hlinks
    rw [hrefs, Function.update_of_ne hu]

/-- The count of a live version. -/
theorem refs_live (h : s.Ok) (hv : v ∈ s.installed) (hlive : (s.heap.refs v).isSome = true) :
    s.heap.refs v = some (references s.held s.current v) := by
  have hrefs := h.refs v (h.not_pending hv)
  split at hrefs
  · rw [hrefs] at hlive
    cases hlive
  · exact hrefs

/-- A holder takes a reference. -/
theorem ref (hcode : code.Counts) (h : s.Ok) (hv : v ∈ s.installed)
    (hlive : (s.heap.refs v).isSome = true) :
    ({ s with heap := code.ref s.heap v, held := v :: s.held } : VersionList).Ok := by
  have hpending := h.not_pending hv
  rw [hcode.ref s.heap v _ (h.refs_live hv hlive)]
  refine ⟨h.fresh, h.nodup, fun u hu => ?_, h.current, fun u hu => ?_, fun u hu => ?_, h.alone,
    h.lists.counted hlive⟩
  · rcases List.mem_cons.mp hu with rfl | hu
    · exact hv
    · exact h.held u hu
  · have hne : u ≠ v := fun heq => hpending (heq ▸ hu)
    exact (Function.update_of_ne hne _ _).trans (h.pending u hu)
  · by_cases huv : u = v
    · subst huv
      dsimp only
      rw [Function.update_self, references_cons_self]
      rfl
    · dsimp only
      rw [Function.update_of_ne huv, references_cons_of_ne huv]
      exact h.refs u hu

/-- A holder gives up a reference. -/
theorem unref (hcode : code.Counts) (h : s.Ok) (hv : v ∈ s.held) :
    ({ s with heap := code.unref s.heap v, held := s.held.erase v } : VersionList).Ok := by
  have hinstalled := h.held v hv
  have hpending := h.not_pending hinstalled
  have hrefs := h.refs v hpending
  rw [references_erase_self hv, if_neg (Nat.succ_ne_zero _)] at hrefs
  obtain ⟨hrefs', hlists, hlinks⟩ := unref_spec hcode h.installed_nodup h.lists hinstalled hrefs
  refine ⟨h.fresh, h.nodup, fun u hu => h.held u (List.mem_of_mem_erase hu), h.current,
    fun u hu => ?_, fun u hu => ?_, fun u hu => ?_, hlists⟩
  · have hne : u ≠ v := fun heq => hpending (heq ▸ hu)
    rw [hrefs', Function.update_of_ne hne]
    exact h.pending u hu
  · rw [hrefs']
    by_cases huv : u = v
    · subst huv
      exact Function.update_self _ _ _
    · rw [Function.update_of_ne huv, references_erase_of_ne huv]
      exact h.refs u hu
  · obtain ⟨hnext, hprev⟩ := hlinks u (h.not_installed hu)
    rw [hnext, hprev]
    exact h.alone u hu

/-- What `AppendVersion` finds after it gave up the old current version. -/
theorem released (hcode : code.Counts) (h : s.Ok) :
    let heap := match s.current with
      | some c => code.unref s.heap c
      | none => s.heap
    (∀ u, s.current ≠ some u → heap.refs u = s.heap.refs u) ∧
      (∀ u, s.current = some u → heap.refs u =
        if s.held.count u = 0 then none else some (s.held.count u)) ∧
      heap.Lists s.installed ∧ SameOutside s.installed s.heap heap := by
  cases hcurrent : s.current with
  | none => exact ⟨fun _ _ => rfl, nofun, h.lists, fun _ _ => ⟨rfl, rfl⟩⟩
  | some c =>
    have hinstalled := h.current_installed hcurrent
    have hrefs := h.refs c (h.not_pending hinstalled)
    rw [hcurrent, references_current, if_neg (Nat.succ_ne_zero _)] at hrefs
    obtain ⟨hrefs', hlists, hlinks⟩ := unref_spec hcode h.installed_nodup h.lists hinstalled hrefs
    refine ⟨fun u hu => ?_, fun u hu => ?_, hlists, hlinks⟩
    · have hne : u ≠ c := fun heq => hu (heq ▸ rfl)
      dsimp only
      rw [hrefs', Function.update_of_ne hne]
    · cases hu
      dsimp only
      rw [hrefs', Function.update_self]

/-- **`AppendVersion`** of a new version passes its assertions and keeps the invariant. -/
theorem append (hcode : code.Counts) (h : s.Ok) (hv : v ∈ s.pending) :
    ∃ heap, s.heap.appendVersion code s.current v = some heap ∧
      ({ s with
          heap
          current := some v
          pending := s.pending.erase v
          installed := s.installed ++ [v] } : VersionList).Ok := by
  have hinstalled := h.not_installed hv
  have hcurrent : ∀ u ∈ s.pending, s.current ≠ some u :=
    fun u hu heq => h.not_installed hu (h.current_installed heq)
  obtain ⟨hsame, hold, hlists₁, houtside⟩ := h.released hcode
  obtain ⟨heap₁, hheap₁⟩ : ∃ heap₁, heap₁ = match s.current with
    | some c => code.unref s.heap c
    | none => s.heap := ⟨_, rfl⟩
  rw [← hheap₁] at hsame hold hlists₁ houtside
  have hrefs₁ : heap₁.refs v = some 0 := (hsame v (hcurrent v hv)).trans (h.pending v hv)
  obtain ⟨hrefs, hlists, hlinks⟩ := append_spec hcode hlists₁ hinstalled hrefs₁
  have hperm : (s.pending.erase v ++ (s.installed ++ [v])).Perm (s.pending ++ s.installed) := by
    rw [← List.append_assoc]
    exact (List.perm_append_singleton v _).trans
      ((List.perm_cons_erase hv).symm.append_right s.installed)
  refine ⟨{ code.ref heap₁ v with links := (code.ref heap₁ v).links.append v }, ?_,
    fun u hu => h.fresh u (hperm.mem_iff.mp hu), hperm.nodup_iff.mpr h.nodup,
    fun u hu => List.mem_append_left _ (h.held u hu), List.getLast?_concat.symm, fun u hu => ?_,
    fun u hu => ?_, fun u hu => ?_, hlists⟩
  · unfold VersionHeap.appendVersion guard
    rw [← hheap₁]
    simp [h.pending v hv, (hcurrent v hv).symm]
  · obtain ⟨hmem, hne⟩ := h.mem_pending_erase hu
    refine (congrFun hrefs u).trans ?_
    rw [Function.update_of_ne hne, hsame u (hcurrent u hmem)]
    exact h.pending u hmem
  · refine (congrFun hrefs u).trans ?_
    by_cases huv : u = v
    · subst huv
      have hheld : s.held.count u = 0 :=
        List.count_eq_zero.mpr fun hmem => hinstalled (h.held u hmem)
      dsimp only
      rw [Function.update_self, references_current, hheld]
      rfl
    · have hother : some v ≠ some u := fun heq => huv (Option.some.inj heq).symm
      dsimp only
      rw [Function.update_of_ne huv, references_of_ne hother]
      by_cases hlast : s.current = some u
      · exact hold u hlast
      · have hrefs' := h.refs u fun hmem => hu (h.pending_nodup.mem_erase_iff.mpr ⟨huv, hmem⟩)
        rw [references_of_ne hlast] at hrefs'
        exact (hsame u hlast).trans hrefs'
  · obtain ⟨hmem, hne⟩ := h.mem_pending_erase hu
    obtain ⟨hnext, hprev⟩ := hlinks u (h.not_installed hmem) hne
    obtain ⟨hnext₁, hprev₁⟩ := houtside u (h.not_installed hmem)
    obtain ⟨hself, hself'⟩ := h.alone u hmem
    exact ⟨hnext.trans (hnext₁.trans hself), hprev.trans (hprev₁.trans hself')⟩

end Ok

/-- The version that was installed last is current, the last of the list, and referenced. -/
theorem Ok.current_last (h : s.Ok) (hne : s.installed ≠ []) :
    ∃ v n, s.current = some v ∧ s.heap.links.prev none = some v ∧ s.heap.refs v = some n ∧
      1 ≤ n := by
  obtain ⟨front, v, hfront⟩ := (s.installed.eq_nil_or_concat).resolve_left hne
  rw [List.concat_eq_append] at hfront
  have hcurrent : s.current = some v := by
    rw [h.current, hfront, List.getLast?_concat]
  have hpos : 1 ≤ references s.held s.current v := by
    rw [hcurrent, references_current]
    exact Nat.le_add_left 1 _
  have hrefs := h.refs v (h.not_pending (h.current_installed hcurrent))
  rw [if_neg (Nat.pos_iff_ne_zero.mp hpos)] at hrefs
  have hlisted : s.heap.listed s.installed = s.heap.listed front ++ [v] := by
    unfold VersionHeap.listed
    rw [hfront, List.filter_append, List.filter_cons_of_pos (by rw [hrefs]; rfl)]
    rfl
  refine ⟨v, _, hcurrent, ?_, hrefs, hpos⟩
  have hlast := Ring.prev_head h.lists
  rw [hlisted, List.map_append, List.map_singleton, List.getLast?_concat] at hlast
  exact hlast

theorem ok_initial : initial.Ok := by
  refine ⟨nofun, List.nodup_nil, nofun, rfl, nofun, fun _ _ => rfl, nofun, ?_⟩
  exact Ring.nil rfl rfl

/-- **Every step** keeps the invariant. -/
theorem Ok.step (hcode : code.Counts) (h : s.Ok) {act : VersionAct}
    (hstep : s.step code act = some t) : t.Ok := by
  cases act with
  | create =>
    cases hstep
    exact h.create
  | append v =>
    simp only [VersionList.step] at hstep
    split at hstep
    · rename_i hv
      obtain ⟨heap, happend, hok⟩ := h.append hcode hv
      rw [happend] at hstep
      cases hstep
      exact hok
    · cases hstep
  | discard v =>
    simp only [VersionList.step] at hstep
    split at hstep
    · rename_i hv
      cases hstep
      exact h.discard hcode hv
    · cases hstep
  | ref v =>
    simp only [VersionList.step] at hstep
    split at hstep
    · rename_i hv
      cases hstep
      exact h.ref hcode hv.1 hv.2
    · cases hstep
  | unref v =>
    simp only [VersionList.step] at hstep
    split at hstep
    · rename_i hv
      cases hstep
      exact h.unref hcode hv
    · cases hstep

end VersionList

/-- **The version list.** In every run of new versions, `AppendVersion` and references of holders:
the links from `dummy_versions_` are a circular doubly linked list, in which `next_` and `prev_` are
inverse, of the live installed versions in the order of their installation; after the first
`AppendVersion` `current_` is `dummy_versions_.prev_` and is referenced; and `AppendVersion` of a
new version passes its assertions. -/
theorem versionList_ok {code : VersionCode} (hcode : code.Counts) {s : VersionList}
    (run : Transition.Reaches (VersionList.step code) .initial s) :
    Ring s.heap.links.next s.heap.links.prev none
        ((s.installed.filter fun v => (s.heap.refs v).isSome).map some) ∧
      (∀ v, v = none ∨ (∃ u ∈ s.installed, (s.heap.refs u).isSome = true ∧ v = some u) →
        s.heap.links.prev (s.heap.links.next v) = v ∧
          s.heap.links.next (s.heap.links.prev v) = v) ∧
      s.installed.Nodup ∧
      (s.installed ≠ [] → ∃ v n, s.current = some v ∧ s.heap.links.prev none = some v ∧
        s.heap.refs v = some n ∧ 1 ≤ n) ∧
      ∀ v ∈ s.pending, (s.heap.appendVersion code s.current v).isSome = true := by
  have h : s.Ok := run.invariant (fun hok _ hstep => hok.step hcode hstep) VersionList.ok_initial
  refine ⟨h.lists, fun v hv => h.lists.inverse ?_, h.installed_nodup, fun hne => ?_, fun v hv => ?_⟩
  · rcases hv with rfl | ⟨u, hu, hlive, rfl⟩
    · exact List.mem_cons_self
    · exact List.mem_cons_of_mem none
        (List.mem_map_of_mem (VersionHeap.mem_listed.mpr ⟨hu, hlive⟩))
  · exact h.current_last hne
  · obtain ⟨heap, happend, -⟩ := h.append hcode hv
    rw [happend]
    rfl

/-- Versions that count as documented, for a run. -/
def countedVersions : VersionCode where
  ref heap v := { heap with refs := Function.update heap.refs v ((heap.refs v).map (· + 1)) }
  unref heap v :=
    match heap.refs v with
    | some (n + 2) => { heap with refs := Function.update heap.refs v (some (n + 1)) }
    | _ => { links := heap.links.unlink v, refs := Function.update heap.refs v none }
  destroy heap v := { links := heap.links.unlink v, refs := Function.update heap.refs v none }

theorem countedVersions_counts : countedVersions.Counts := by
  refine ⟨fun heap v n h => ?_, fun heap v n h => ?_, fun heap v h => ?_, fun _ _ => rfl,
    fun _ _ _ _ => ⟨rfl, rfl⟩⟩
  · unfold countedVersions
    dsimp only
    rw [h]
    rfl
  · unfold countedVersions
    dsimp only
    rw [h]
  · unfold countedVersions
    dsimp only
    rw [h, Function.update_idem]

/-- A reader keeps the first version, the second one is deleted when the third is appended, and a
version that failed is deleted outside the list. -/
theorem versionList_ok_reader :
    ∃ s, Transition.exec (VersionList.step countedVersions) [.create, .append 0, .ref 0, .create,
        .append 1, .create, .create, .append 3, .discard 2] .initial = some s ∧
      s.installed = [0, 1, 3] ∧
      Ring s.heap.links.next s.heap.links.prev none [some 0, some 3] ∧ s.current = some 3 := by
  obtain ⟨s, hs, hinstalled, hlisted, hcurrent⟩ : ∃ s, Transition.exec
      (VersionList.step countedVersions) [.create, .append 0, .ref 0, .create, .append 1, .create,
        .create, .append 3, .discard 2] .initial = some s ∧ s.installed = [0, 1, 3] ∧
      (s.installed.filter fun v => (s.heap.refs v).isSome) = [0, 3] ∧ s.current = some 3 :=
    ⟨_, rfl, rfl, rfl, rfl⟩
  obtain ⟨hring, -⟩ := versionList_ok countedVersions_counts (Transition.Run.of_exec hs)
  rw [hlisted] at hring
  exact ⟨s, hs, hinstalled, hring, hcurrent⟩

end LevelDB
