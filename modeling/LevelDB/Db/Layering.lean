import LevelDB.Db.NatDb
import LevelDB.Db.Reachable

/-!
# The layers and their sequence numbers

`mem_`, `imm_` and the tables of the current version are layers: each is wholly newer than the next.

* `SequencesOk` — this, and how the layers, the write group in progress and the edits that are being
  applied stand to `last_sequence_`;
* `NoInserts.shrinks` — a step that is not one of a call of `Write` adds nothing to a layer;
* `sequencesOk_of_reaches` — every reachable state is so.
-/

set_option autoImplicit false

namespace LevelDB

variable {U V R W : Type} {N : Nat}

namespace Db

def memEntries (db : Db U V R N) : Set (Entry U V) := {e | e ∈ db.entries db.mem}

def immEntries (db : Db U V R N) : Set (Entry U V) := {e | ∃ m, db.imm = some m ∧ e ∈ db.entries m}

/-- The entries in the tables of a version. -/
def versionEntries (db : Db U V R N) (v : Version (InternalKey U) N) : Set (Entry U V) :=
  {e | ∃ n, v.Lists n ∧ ∃ es, db.tables n = some es ∧ e ∈ es}

def tableEntries (db : Db U V R N) : Set (Entry U V) := db.versionEntries db.versions.current

end Db

/-- What the job passes through `LogAndApply`. -/
def Job.install? : Job U N → Option (Install (InternalKey U) N)
  | .logging _ i _ => some i
  | .logged _ i _ => some i
  | _ => none

/-- The layers, oldest first, and `last_sequence_`. -/
structure SequencesOk (s : System U V R W N) : Prop where
  tablesImm : Layered.Below Entry.number s.db.tableEntries s.db.immEntries
  tablesMem : Layered.Below Entry.number s.db.tableEntries s.db.memEntries
  immMem : Layered.Below Entry.number s.db.immEntries s.db.memEntries
  tables : ∀ e ∈ s.db.tableEntries, e.number ≤ s.db.versions.lastSequence
  imm : ∀ e ∈ s.db.immEntries, e.number ≤ s.db.versions.lastSequence
  mem : ∀ e ∈ s.db.memEntries, e.number ≤ s.db.versions.lastSequence ∨
    ∃ w g, (s.writes w).group? = some g ∧ e ∈ g.entries
  installs : ∀ j ∈ s.jobs, ∀ i, j.install? = some i →
    ∀ e ∈ s.db.tableEntries, e.number ≤ i.edit.lastSequence

section Step

variable {cfg : DbConfig U V R N} {calls : W → WriteRequest U V} {s t : System U V R W N} {w : W}

theorem entries_subset {db db' : Db U V R N} {m : Nat}
    (h : db'.memtables.content m = db.memtables.content m ∨ db'.memtables.content m = none) :
    ∀ e ∈ db'.entries m, e ∈ db.entries m := by
  unfold Db.entries
  rcases h with h | h
  · rw [h]
    exact fun _ he => he
  · rw [h]
    exact fun e he => absurd he List.not_mem_nil

/-- The tables of the current version gain no entry. -/
theorem KeepsFiles.tableEntries (h : KeepsFiles s t) :
    t.db.tableEntries ⊆ s.db.tableEntries := by
  rintro e ⟨n, hn, es, hes, he⟩
  rw [h.tables _ List.mem_cons_self n hn] at hes
  exact ⟨n, h.current n hn, es, hes, he⟩

/-- No layer gains an entry, and `last_sequence_` stays. -/
structure Shrinks (s t : System U V R W N) : Prop where
  mem : t.db.memEntries ⊆ s.db.memEntries
  imm : t.db.immEntries ⊆ s.db.immEntries
  tables : t.db.tableEntries ⊆ s.db.tableEntries
  lastSequence : t.db.versions.lastSequence = s.db.versions.lastSequence

/-- The variables that make up the layers stay. -/
structure SameLayers (db db' : Db U V R N) : Prop where
  mem : db'.mem = db.mem
  imm : db'.imm = db.imm
  memtables : db'.memtables = db.memtables
  current : db'.versions.current = db.versions.current
  tables : db'.tables = db.tables

theorem SameLayers.layers {db db' : Db U V R N} (h : SameLayers db db') :
    db'.memEntries = db.memEntries ∧ db'.immEntries = db.immEntries ∧
      db'.tableEntries = db.tableEntries := by
  unfold Db.memEntries Db.immEntries Db.tableEntries Db.versionEntries Db.entries
  rw [h.mem, h.imm, h.memtables, h.current, h.tables]
  exact ⟨rfl, rfl, rfl⟩

theorem SameLayers.shrinks (h : SameLayers s.db t.db)
    (hlast : t.db.versions.lastSequence = s.db.versions.lastSequence) : Shrinks s t := by
  obtain ⟨hmem, himm, htables⟩ := h.layers
  exact ⟨hmem.subset, himm.subset, htables.subset, hlast⟩

theorem NoInserts.shrinks (h : NoInserts s t) (hfiles : KeepsFiles s t) : Shrinks s t where
  mem e he := by
    have he : e ∈ t.db.entries t.db.mem := he
    rw [h.mem] at he
    exact entries_subset (h.content s.db.mem) e he
  imm := by
    rintro e ⟨m, hm, he⟩
    rcases h.imm with himm | himm
    · exact ⟨m, himm ▸ hm, entries_subset (h.content m) e he⟩
    · rw [himm] at hm
      cases hm
  tables := hfiles.tableEntries
  lastSequence := h.lastSequence

/-- What every step does with the edits that are being applied: one that is new has recorded the
present `last_sequence_`. -/
def InstallsFrom (s t : System U V R W N) : Prop :=
  ∀ j ∈ t.jobs, ∀ i, j.install? = some i →
    (∃ j' ∈ s.jobs, ∃ i', j'.install? = some i' ∧ i'.edit.lastSequence = i.edit.lastSequence) ∨
      i.edit.lastSequence = s.db.versions.lastSequence

theorem InstallsFrom.of_same (h : ∀ j ∈ t.jobs, j ∈ s.jobs) : InstallsFrom s t :=
  fun j hj i hi => Or.inl ⟨j, h j hj, i, hi, rfl⟩

theorem InstallsFrom.set {k : Nat} {j : Job U N} (hjobs : t.jobs = s.jobs.set k j)
    (h : ∀ i, j.install? = some i →
      (∃ j' ∈ s.jobs, ∃ i', j'.install? = some i' ∧ i'.edit.lastSequence = i.edit.lastSequence) ∨
        i.edit.lastSequence = s.db.versions.lastSequence) : InstallsFrom s t := by
  intro j' hj' i hi
  rw [hjobs] at hj'
  rcases List.mem_or_eq_of_mem_set hj' with hj' | rfl
  · exact Or.inl ⟨j', hj', i, hi, rfl⟩
  · exact h i hi

theorem InstallsFrom.append {j : Job U N} (hjobs : t.jobs = s.jobs ++ [j])
    (h : ∀ i, j.install? = some i → i.edit.lastSequence = s.db.versions.lastSequence) :
    InstallsFrom s t := by
  intro j' hj' i hi
  rw [hjobs] at hj'
  rcases List.mem_append.mp hj' with hj' | hj'
  · exact Or.inl ⟨j', hj', i, hi, rfl⟩
  · rw [List.mem_singleton.mp hj'] at hi
    exact Or.inr (h i hi)

theorem installsFrom_endBackground {s₁ : System U V R W N} (h : ∀ j ∈ s₁.jobs, j ∈ s.jobs) :
    InstallsFrom s (s₁.endBackground cfg) :=
  .of_same h

variable [DecidableEq W] [Std.TransCmp cfg.version.icmp]

theorem installsFrom_of_step (hq : QueueOk s) {l : Label U V W N}
    (h : System.step cfg calls s l = some t) : InstallsFrom s t := by
  rcases l.write_or_other with ⟨w, act, rfl⟩ | hl
  · obtain ⟨-, -, hjobs⟩ := (writeStep_of_write hq h).db
    exact .of_same fun j hj => by rw [hjobs] at hj; exact hj
  cases otherStep_of_step hl h with
  | calls => exact .of_same fun _ hj => hj
  | reads => exact .of_same fun _ hj => hj
  | returns => exact .of_same fun _ hj => hj
  | idles => exact installsFrom_endBackground fun _ hj => hj
  | flushes => exact .append rfl fun i hi => by cases hi
  | moves _ hlast => exact .append rfl fun i hi => by cases hi; exact hlast
  | builds => exact .set rfl fun i hi => by cases hi
  | logs _ hlast => exact .set rfl fun i hi => by cases hi; exact Or.inr hlast
  | buildFails =>
    refine installsFrom_endBackground ?_
    exact fun j hj => List.mem_of_mem_eraseIdx hj
  | @writes k isFlush i i' o disk hk hedit =>
    refine .set rfl fun i'' hi => ?_
    cases hi
    exact Or.inl ⟨_, List.mem_of_getElem? hk, i, rfl, by rw [hedit]⟩
  | finishes =>
    refine installsFrom_endBackground ?_
    exact fun j hj => List.mem_of_mem_eraseIdx hj
  | shutsDown => exact .of_same fun _ hj => hj

/-! ## Keeping the order -/

omit [DecidableEq W] [Std.TransCmp cfg.version.icmp] in
theorem SequencesOk.of_shrinks (h : SequencesOk s) (hshrinks : Shrinks s t)
    (hgroups : ∀ w g, (s.writes w).group? = some g → (t.writes w).group? = some g)
    (hinstalls : InstallsFrom s t) : SequencesOk t where
  tablesImm := h.tablesImm.mono hshrinks.tables hshrinks.imm
  tablesMem := h.tablesMem.mono hshrinks.tables hshrinks.mem
  immMem := h.immMem.mono hshrinks.imm hshrinks.mem
  tables e he := by
    rw [hshrinks.lastSequence]
    exact h.tables e (hshrinks.tables he)
  imm e he := by
    rw [hshrinks.lastSequence]
    exact h.imm e (hshrinks.imm he)
  mem e he := by
    rw [hshrinks.lastSequence]
    rcases h.mem e (hshrinks.mem he) with hle | ⟨w, g, hg, heg⟩
    · exact Or.inl hle
    · exact Or.inr ⟨w, g, hgroups w g hg, heg⟩
  installs j hj i hi e he := by
    have he := hshrinks.tables he
    rcases hinstalls j hj i hi with ⟨j', hj', i', hi', heq⟩ | heq
    · rw [← heq]
      exact h.installs j' hj' i' hi' e he
    · rw [heq]
      exact h.tables e he

omit [DecidableEq W] [Std.TransCmp cfg.version.icmp] in
/-- The same layers with a later `last_sequence_`, and no group is left. -/
theorem SequencesOk.of_finish (h : SequencesOk s) {n : Nat}
    (hmem : t.db.memEntries = s.db.memEntries) (himm : t.db.immEntries = s.db.immEntries)
    (htables : t.db.tableEntries = s.db.tableEntries) (hjobs : t.jobs = s.jobs)
    (hlast : t.db.versions.lastSequence = n) (hle : s.db.versions.lastSequence ≤ n)
    (hgroup : ∀ w g, (s.writes w).group? = some g → ∀ e ∈ g.entries, e.number ≤ n) :
    SequencesOk t where
  tablesImm := by rw [htables, himm]; exact h.tablesImm
  tablesMem := by rw [htables, hmem]; exact h.tablesMem
  immMem := by rw [himm, hmem]; exact h.immMem
  tables e he := by
    rw [htables] at he
    rw [hlast]
    exact le_trans (h.tables e he) hle
  imm e he := by
    rw [himm] at he
    rw [hlast]
    exact le_trans (h.imm e he) hle
  mem e he := by
    rw [hmem] at he
    rw [hlast]
    rcases h.mem e he with hold | ⟨w, g, hg, heg⟩
    · exact Or.inl (le_trans hold hle)
    · exact Or.inl (hgroup w g hg e heg)
  installs j hj i hi e he := by
    rw [hjobs] at hj
    rw [htables] at he
    exact h.installs j hj i hi e he

omit [DecidableEq W] [Std.TransCmp cfg.version.icmp] in
/-- The entries of a group have the numbers after `last_sequence_`. -/
theorem GroupOk.entries {db : Db U V R N} {g : Group U V W} (h : GroupOk db g) {e : Entry U V}
    (he : e ∈ g.entries) :
    db.versions.lastSequence < e.number ∧ e.number ≤ g.lastSequence := by
  have hbounds := batchEntries_bounds he
  have hsequence := h.sequence
  have hlast := h.last
  show db.versions.lastSequence < e.key.sequence ∧ e.key.sequence ≤ g.lastSequence
  omega

omit [DecidableEq W] [Std.TransCmp cfg.version.icmp] in
/-- An entry of the group in progress goes into `mem_`. -/
theorem SequencesOk.insert (h : SequencesOk s) {g : Group U V W} {e : Entry U V}
    (hgroup : GroupOk s.db g) (he : e ∈ g.entries)
    (hmem : ∀ x ∈ t.db.memEntries, x ∈ s.db.memEntries ∨ x = e)
    (himm : t.db.immEntries = s.db.immEntries) (htables : t.db.tableEntries = s.db.tableEntries)
    (hjobs : t.jobs = s.jobs)
    (hlast : t.db.versions.lastSequence = s.db.versions.lastSequence)
    (hg : (t.writes w).group? = some g)
    (hgroups : ∀ w g, (s.writes w).group? = some g → (t.writes w).group? = some g) :
    SequencesOk t where
  tablesImm := by rw [htables, himm]; exact h.tablesImm
  tablesMem a ha b hb := by
    rw [htables] at ha
    rcases hmem b hb with hb | rfl
    · exact h.tablesMem a ha b hb
    · exact lt_of_le_of_lt (h.tables a ha) (hgroup.entries he).1
  immMem a ha b hb := by
    rw [himm] at ha
    rcases hmem b hb with hb | rfl
    · exact h.immMem a ha b hb
    · exact lt_of_le_of_lt (h.imm a ha) (hgroup.entries he).1
  tables a ha := by
    rw [htables] at ha
    rw [hlast]
    exact h.tables a ha
  imm a ha := by
    rw [himm] at ha
    rw [hlast]
    exact h.imm a ha
  mem a ha := by
    rw [hlast]
    rcases hmem a ha with ha | rfl
    · rcases h.mem a ha with hle | ⟨w', g', hg', heg⟩
      · exact Or.inl hle
      · exact Or.inr ⟨w', g', hgroups w' g' hg', heg⟩
    · exact Or.inr ⟨w, g, hg, he⟩
  installs j hj i hi a ha := by
    rw [hjobs] at hj
    rw [htables] at ha
    exact h.installs j hj i hi a ha

omit [DecidableEq W] [Std.TransCmp cfg.version.icmp] in
/-- `mem_` becomes `imm_`, and a new memtable takes its place; no group is in progress. -/
theorem SequencesOk.switch (h : SequencesOk s) (hnone : ∀ w, (s.writes w).group? = none)
    (hmem : t.db.memEntries = ∅) (himm : t.db.immEntries = s.db.memEntries)
    (htables : t.db.tableEntries = s.db.tableEntries) (hjobs : t.jobs = s.jobs)
    (hlast : t.db.versions.lastSequence = s.db.versions.lastSequence) : SequencesOk t where
  tablesImm := by rw [htables, himm]; exact h.tablesMem
  tablesMem := by rw [hmem]; exact fun _ _ _ hb => absurd hb (Set.notMem_empty _)
  immMem := by rw [hmem]; exact fun _ _ _ hb => absurd hb (Set.notMem_empty _)
  tables e he := by
    rw [htables] at he
    rw [hlast]
    exact h.tables e he
  imm e he := by
    rw [himm] at he
    rw [hlast]
    rcases h.mem e he with hle | ⟨w, g, hg, -⟩
    · exact hle
    · rw [hnone w] at hg
      cases hg
  mem e he := by
    rw [hmem] at he
    exact absurd he (Set.notMem_empty e)
  installs j hj i hi e he := by
    rw [hjobs] at hj
    rw [htables] at he
    exact h.installs j hj i hi e he

omit [DecidableEq W] [Std.TransCmp cfg.version.icmp] in
theorem SequencesOk.room (h : SequencesOk s) (hrefs : ReferencesOk s) {o : CreateOutcome}
    (heffect : RoomEffect cfg o s.db t.db) (hjobs : t.jobs = s.jobs)
    (hnone : ∀ w, (s.writes w).group? = none) : SequencesOk t := by
  have hgroups : ∀ w g, (s.writes w).group? = some g → (t.writes w).group? = some g := by
    intro w g hg
    rw [hnone w] at hg
    cases hg
  have hinstalls : InstallsFrom s t := .of_same fun j hj => by rw [hjobs] at hj; exact hj
  generalize hdb : t.db = db at heffect
  cases heffect with
  | same =>
    refine h.of_shrinks (SameLayers.shrinks ?_ ?_) hgroups hinstalls
    · rw [hdb]
      exact ⟨rfl, rfl, rfl, rfl, rfl⟩
    · rw [hdb]
  | reused =>
    refine h.of_shrinks (SameLayers.shrinks ?_ ?_) hgroups hinstalls
    · rw [hdb]
      exact ⟨rfl, rfl, rfl, rfl, rfl⟩
    · rw [hdb]
      rfl
  | switched himm =>
    obtain ⟨jobQueue, scheduled, heq⟩ :=
      @switchMemTable_eq U V R N cfg o s.db s.db.versions.nextFileNumber
    rw [heq] at hdb
    have hne : s.db.mem ≠ s.db.nextMem := Nat.ne_of_lt (hrefs.fresh _ s.mem_holders)
    refine h.switch hnone ?_ ?_ ?_ hjobs (by rw [hdb]; rfl)
    · unfold Db.memEntries Db.entries
      rw [hdb]
      show {e | e ∈ ((s.db.memtables.alloc s.db.nextMem []).content s.db.nextMem).getD []} = _
      rw [RefCounted.Heap.content_alloc_self]
      exact Set.eq_empty_of_forall_notMem fun e he => absurd he List.not_mem_nil
    · unfold Db.memEntries Db.immEntries Db.entries
      rw [hdb]
      show {e | ∃ m, some s.db.mem = some m ∧
        e ∈ ((s.db.memtables.alloc s.db.nextMem []).content m).getD []} = _
      ext e
      constructor
      · rintro ⟨m, hm, he⟩
        cases hm
        rw [RefCounted.Heap.content_alloc_ne _ hne] at he
        exact he
      · intro he
        refine ⟨s.db.mem, rfl, ?_⟩
        rw [RefCounted.Heap.content_alloc_ne _ hne]
        exact he
    · unfold Db.tableEntries Db.versionEntries
      rw [hdb]
      rfl

omit [Std.TransCmp cfg.version.icmp] in
theorem SequencesOk.write {act : WriteAct} (h : SequencesOk s) (hc : Consistent s)
    (hstep : WriteStep cfg calls s w act t) : SequencesOk t := by
  have hjobs : t.jobs = s.jobs := hstep.db.2.2
  have hinstalls : InstallsFrom s t := .of_same fun j hj => by rw [hjobs] at hj; exact hj
  have hothers : ∀ x ≠ w, (t.writes x).group? = (s.writes x).group? :=
    fun x hx => hstep.group?_others hx
  have hgroups : (∀ g, (s.writes w).group? = some g → (t.writes w).group? = some g) →
      ∀ x g, (s.writes x).group? = some g → (t.writes x).group? = some g := by
    intro hself x g hg
    by_cases hx : x = w
    · subst hx
      exact hself g hg
    · rw [hothers x hx]
      exact hg
  cases hstep with
  | joins hpc =>
    refine h.of_shrinks (SameLayers.shrinks ⟨rfl, rfl, rfl, rfl, rfl⟩ rfl)
      (hgroups fun g hg => ?_) hinstalls
    rw [hpc] at hg
    cases hg
  | waits hpc =>
    refine h.of_shrinks (SameLayers.shrinks ⟨rfl, rfl, rfl, rfl, rfl⟩ rfl)
      (hgroups fun g hg => ?_) hinstalls
    rw [hpc] at hg
    cases hg
  | @rooms act s₁ t room o size db e henters hmake hthen =>
    have heffect : RoomEffect cfg o s.db t.db := by
      rw [hthen.keeps.1]
      exact makeRoom_effect hmake
    exact h.room hc.references heffect hjobs (henters.no_group hc.queue)
  | @appends t g status hpc happend =>
    have hgroup := group?_logAppend happend
    obtain ⟨n, -, happend⟩ := Option.bind_eq_some_iff.mp happend
    obtain ⟨records, -, rfl⟩ := Option.map_eq_some_iff.mp happend
    refine h.of_shrinks (SameLayers.shrinks ⟨rfl, rfl, rfl, rfl, rfl⟩ rfl)
      (hgroups fun g' hg => ?_) hinstalls
    rw [hpc] at hg
    exact hgroup.trans hg
  | @syncs t g status hpc hsync =>
    have hgroup := group?_logSync hsync
    obtain ⟨n, -, rfl⟩ := Option.map_eq_some_iff.mp hsync
    refine h.of_shrinks (SameLayers.shrinks ⟨rfl, rfl, rfl, rfl, rfl⟩ rfl)
      (hgroups fun g' hg => ?_) hinstalls
    rw [hpc] at hg
    exact hgroup.trans hg
  | @inserts t g m e rest hpc hinsert =>
    have hgroup := group?_memInsert hinsert
    obtain ⟨memtables, hmod, rfl⟩ := Option.map_eq_some_iff.mp hinsert
    obtain ⟨rfl, hrest⟩ := (hc.groups w).inserts g m (e :: rest) hpc
    refine h.insert ((hc.groups w).group g (by rw [hpc]; rfl))
      (hrest.subset List.mem_cons_self) (fun x hx => ?_) ?_ rfl rfl rfl
      hgroup (hgroups fun g' hg => ?_)
    · have hx : x ∈ (memtables.content s.db.mem).getD [] := hx
      rw [RefCounted.Heap.content_modify_self hmod] at hx
      cases hcontent : s.db.memtables.content s.db.mem with
      | none =>
        rw [hcontent] at hx
        exact absurd hx List.not_mem_nil
      | some es =>
        rw [hcontent] at hx
        rcases List.mem_append.mp hx with hx | hx
        · refine Or.inl ?_
          show x ∈ s.db.entries s.db.mem
          unfold Db.entries
          rw [hcontent]
          exact hx
        · exact Or.inr (List.mem_singleton.mp hx)
    · -- the entry goes into `mem_`, which is not `imm_`
      have hsame : ∀ m, s.db.imm = some m → memtables.content m = s.db.memtables.content m := by
        intro m hm
        refine RefCounted.Heap.content_modify_ne hmod fun heq => hc.references.apart ?_
        rw [hm, heq]
      ext x
      constructor
      · rintro ⟨m, hm, hx⟩
        have hx : x ∈ (memtables.content m).getD [] := hx
        rw [hsame m hm] at hx
        exact ⟨m, hm, hx⟩
      · rintro ⟨m, hm, hx⟩
        refine ⟨m, hm, ?_⟩
        show x ∈ (memtables.content m).getD []
        rw [hsame m hm]
        exact hx
    · rw [hpc] at hg
      exact hgroup.trans hg
  | @ends t g m rest status hpc hend =>
    have hgroup := group?_insertEnd hend
    unfold System.insertEnd at hend
    split at hend
    · cases hend
    · cases hend
      refine h.of_shrinks (SameLayers.shrinks ⟨rfl, rfl, rfl, rfl, rfl⟩ rfl)
        (hgroups fun g' hg => ?_) hinstalls
      rw [hpc] at hg
      exact hgroup.trans hg
  | @finishes g status syncError rest hpc hwriters =>
    obtain ⟨writes, heq⟩ := finish_keeps cfg s w g status syncError rest
    have hgroup : GroupOk s.db g := (hc.groups w).group g (by rw [hpc]; rfl)
    have hsame : SameLayers s.db (((if syncError then s.recordError cfg status else
        s).setLastSequence g.lastSequence).leave w rest status).db := by
      rw [heq]
      exact ⟨rfl, rfl, rfl, rfl, rfl⟩
    obtain ⟨hmem, himm, htables⟩ := hsame.layers
    refine h.of_finish (n := g.lastSequence) hmem himm htables hjobs ?_ ?_ ?_
    · rw [heq]
    · have hlast := hgroup.last
      omega
    · intro x g' hg' e he
      have hx : x = w := hc.queue.unique (WriteCall.active_of_group hg') (by rw [hpc]; rfl)
      rw [hx, hpc] at hg'
      obtain rfl := Option.some.inj hg'
      exact (hgroup.entries he).2

/-- **Every step keeps the order.** -/
theorem SequencesOk.step (h : SequencesOk s) (hc : Consistent s) (hreuses : cfg.ReusesLast)
    (hkeeps : cfg.KeepsLive) {l : Label U V W N} (hstep : System.step cfg calls s l = some t) :
    SequencesOk t := by
  rcases l.write_or_other with ⟨w, act, rfl⟩ | hl
  · exact h.write hc (writeStep_of_write hc.queue hstep)
  · refine h.of_shrinks ((noInserts_of_step hl hstep).shrinks
      (keepsFiles_of_step hc.files hc.queue hreuses hkeeps hstep)) (fun w g hg => ?_)
      (installsFrom_of_step hc.queue hstep)
    exact (WriteCall.group?_congr ((sameQueue_of_step hl hstep).unsignalled w)).trans hg

/-- **The sequence numbers of the layers.** In every reachable state the tables of the current
version are older than `imm_`, which is older than `mem_`; what is newer than `last_sequence_`
belongs to the one group in progress; and an edit that is being applied has recorded a number that
no table of its version exceeds. -/
theorem sequencesOk_of_reaches (hreuses : cfg.ReusesLast) (hkeeps : cfg.KeepsLive)
    (hopened : Opened s) (hstart : SequencesOk s)
    (run : Transition.Reaches (System.step cfg calls) s t) :
    SequencesOk t ∧
      (∀ w w' g g', (t.writes w).group? = some g → (t.writes w').group? = some g' → w = w') ∧
      ∀ j ∈ t.jobs, ∀ i, j.install? = some i →
        ∀ e ∈ t.db.versionEntries i.v, e.number ≤ i.edit.lastSequence := by
  have hboth : Consistent t ∧ SequencesOk t := by
    refine run.invariant (I := fun u => Consistent u ∧ SequencesOk u) (fun h _ hstep => ?_)
      ⟨hopened.consistent, hstart⟩
    exact ⟨h.1.step hreuses hkeeps hstep, h.2.step h.1 hreuses hkeeps hstep⟩
  obtain ⟨hc, hsequences⟩ := hboth
  refine ⟨hsequences, fun w w' g g' hg hg' => ?_, fun j hj i hi e he => ?_⟩
  · exact hc.queue.unique (WriteCall.active_of_group hg) (WriteCall.active_of_group hg')
  · refine hsequences.installs j hj i hi e ?_
    obtain ⟨n, hn, es, hes, he⟩ := he
    refine ⟨n, ?_, es, hes, he⟩
    have hjob := hc.files.job j hj
    cases hjob with
    | building => cases hi
    | built => cases hi
    | logging hlists =>
      cases hi
      exact hlists n hn
    | logged hlists =>
      cases hi
      exact hlists n hn

end Step

theorem flushSystem_sequencesOk : SequencesOk flushSystem := by
  have hmem : flushSystem.db.memEntries = ∅ :=
    Set.eq_empty_of_forall_notMem fun e he => absurd he List.not_mem_nil
  have htables : flushSystem.db.tableEntries = ∅ :=
    Set.eq_empty_of_forall_notMem fun e ⟨n, hn, _⟩ => flushDb_notListed n hn
  refine ⟨?_, ?_, ?_, ?_, ?_, ?_, ?_⟩
  · rw [htables]
    exact fun _ ha => absurd ha (Set.notMem_empty _)
  · rw [htables]
    exact fun _ ha => absurd ha (Set.notMem_empty _)
  · rw [hmem]
    exact fun _ _ _ hb => absurd hb (Set.notMem_empty _)
  · rw [htables]
    exact fun _ ha => absurd ha (Set.notMem_empty _)
  · rintro e ⟨m, hm, he⟩
    obtain rfl := Option.some.inj hm
    rw [List.mem_singleton.mp he]
    exact le_refl _
  · rw [hmem]
    exact fun _ ha => absurd ha (Set.notMem_empty _)
  · exact fun j hj => absurd hj List.not_mem_nil

/-- One call writes a batch of two entries. -/
theorem sequencesOk_of_reaches_put :
    ∃ t, Transition.exec (System.step natDb flushCalls) [.write 0 (.call {} 1),
        .write 0 (.append .OK), .write 0 .insert, .write 0 .insert, .write 0 (.insertEnd .OK),
        .write 0 .finish] flushSystem = some t ∧ t.db.versions.lastSequence = 3 ∧
      SequencesOk t := by
  obtain ⟨t, ht, hlast⟩ : ∃ t, Transition.exec (System.step natDb flushCalls)
      [.write 0 (.call {} 1), .write 0 (.append .OK), .write 0 .insert, .write 0 .insert,
        .write 0 (.insertEnd .OK), .write 0 .finish] flushSystem = some t ∧
      t.db.versions.lastSequence = 3 := ⟨_, rfl, rfl⟩
  exact ⟨t, ht, hlast, (sequencesOk_of_reaches natDb_reuses natDb_keepsLive flushSystem_opened
    flushSystem_sequencesOk (Transition.Run.of_exec ht)).1⟩

end LevelDB
