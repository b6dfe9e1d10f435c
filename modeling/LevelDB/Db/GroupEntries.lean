import LevelDB.Db.Layering
import LevelDB.Db.SequenceRanges

/-!
# Where the entries of the write groups are

From the `AddRecord` of a group until `last_sequence_` is set, part of it may be in the memtable.

* `EntriesOk` — what is newer than `last_sequence_` is in `mem_` and of the group that is inserted;
* `SettledOk` — a memtable has all entries of a group that is over or none of them, and none of one
  whose record could not be written;
* `EntriesOk.step`, `SettledOk.step` — every step of every thread keeps this.
-/

set_option autoImplicit false

namespace LevelDB

variable {U V R W : Type} {N : Nat}

/-- `Get` has no snapshot, and `InsertInto` inserts all entries of its batch. -/
def Label.plain : Label U V W N → Bool
  | .getCall _ snapshot => snapshot.isNone
  | .write _ (.insertEnd status) => status == .OK
  | _ => true

/-- The group whose entries may be in the memtable before `last_sequence_` says so. -/
def WriteCall.placing? : WriteCall U V W → Option (Group U V W)
  | inserting g _ _ => some g
  | relocking g status _ => if status = .OK then some g else none
  | _ => none

/-- Where the entries of a group are that is being inserted, or has been. -/
structure PlacedOk (db : Db U V R N) (pc : WriteCall U V W) : Prop where
  inserting : ∀ g m rest, pc = .inserting g m rest → ∀ e ∈ g.entries, e ∈ db.entries m ∨ e ∈ rest
  inserted : ∀ g syncError, pc = .relocking g .OK syncError → ∀ e ∈ g.entries,
    e ∈ db.entries db.mem

structure EntriesOk (s : System U V R W N) : Prop where
  bounded : ∀ m, ∀ e ∈ s.db.entries m, e.number ≤ s.db.versions.lastSequence ∨
    m = s.db.mem ∧ ∃ w g, (s.writes w).placing? = some g ∧ e ∈ g.entries
  placed : ∀ w, PlacedOk s.db (s.writes w)

/-- All of the entries, or none. -/
def Group.Whole (g : Group U V W) (es : Set (Entry U V)) : Prop :=
  (∀ e ∈ g.entries, e ∈ es) ∨ ∀ e ∈ g.entries, e ∉ es

structure SettledOk (h : GroupHistory U V W) (s : System U V R W N) : Prop where
  settled : ∀ g ∈ h.groups, g.lastSequence ≤ s.db.versions.lastSequence →
    ∀ m, g.Whole {e | e ∈ s.db.entries m}
  absent : ∀ g ∈ h.failed, ∀ m, ∀ e ∈ g.entries, e ∉ s.db.entries m
  ended : ∀ g ∈ h.failed, g ∈ h.groups ∧ (g.lastSequence ≤ s.db.versions.lastSequence ∨
    ∃ w status syncError, s.writes w = .relocking g status syncError ∧ status ≠ .OK)

/-! ## Calls and their groups -/

section Calls

variable {db db' : Db U V R N} {pc pc' : WriteCall U V W} {g : Group U V W}

@[simp] theorem WriteCall.placing?_unsignalled (pc : WriteCall U V W) :
    pc.unsignalled.placing? = pc.placing? := by
  cases pc <;> rfl

theorem WriteCall.group?_of_placing (h : pc.placing? = some g) : pc.group? = some g := by
  cases pc with
  | inserting => exact h
  | relocking g' status syncError =>
    have h : (if status = .OK then some g' else none) = some g := h
    split at h
    · exact h
    · cases h
  | _ => cases h

theorem WriteCall.placing?_none (h : pc.group? = none) : pc.placing? = none := by
  cases hg : pc.placing? with
  | none => rfl
  | some g => rw [group?_of_placing hg] at h; cases h

theorem PlacedOk.of_none (h : pc.placing? = none) : PlacedOk db pc where
  inserting g m rest hpc := by
    rw [hpc] at h
    cases h
  inserted g syncError hpc := by
    rw [hpc] at h
    cases h

/-- The memtable of the group keeps its entries. -/
theorem PlacedOk.keep (h : PlacedOk db pc) (hcall : CallOk db pc) (hmem : db'.mem = db.mem)
    (hkeep : ∀ e ∈ db.entries db.mem, e ∈ db'.entries db.mem) : PlacedOk db' pc where
  inserting g m rest hpc e he := by
    obtain ⟨rfl, -⟩ := hcall.inserts g m rest hpc
    rcases h.inserting g _ rest hpc e he with hin | hrest
    · exact Or.inl (hkeep e hin)
    · exact Or.inr hrest
  inserted g syncError hpc e he := by
    rw [hmem]
    exact hkeep e (h.inserted g syncError hpc e he)

theorem PlacedOk.unsignalled (h : PlacedOk db pc) (hpc : pc'.unsignalled = pc.unsignalled) :
    PlacedOk db pc' := by
  cases hg : pc'.placing? with
  | none => exact .of_none hg
  | some g =>
    rw [← WriteCall.eq_of_group hpc (WriteCall.group?_of_placing hg)]
    exact h

end Calls

section Step

variable {cfg : DbConfig U V R N} {calls : W → WriteRequest U V} {s t : System U V R W N} {w : W}
  {h h' : GroupHistory U V W} {n : Nat} {logs : Nat → Option (List (LogRecord U V))}

/-! ## What the memtables hold -/

/-- Only the call that is active can have entries in the memtable that are newer. -/
theorem EntriesOk.of_active (he : EntriesOk s) (hq : QueueOk s)
    (hw : (s.writes w).phase = .active) {m : Nat} {e : Entry U V} (hm : e ∈ s.db.entries m) :
    e.number ≤ s.db.versions.lastSequence ∨
      m = s.db.mem ∧ ∃ g, (s.writes w).placing? = some g ∧ e ∈ g.entries := by
  rcases he.bounded m e hm with hle | ⟨hmem, x, g, hg, heg⟩
  · exact Or.inl hle
  · have hx : x = w :=
      hq.unique (WriteCall.active_of_group (WriteCall.group?_of_placing hg)) hw
    rw [hx] at hg
    exact Or.inr ⟨hmem, g, hg, heg⟩

theorem EntriesOk.of_not_placing (he : EntriesOk s) (hq : QueueOk s)
    (hw : (s.writes w).phase = .active) (hnone : (s.writes w).placing? = none) {m : Nat}
    {e : Entry U V} (hm : e ∈ s.db.entries m) : e.number ≤ s.db.versions.lastSequence := by
  rcases he.of_active hq hw hm with hle | ⟨-, g, hg, -⟩
  · exact hle
  · rw [hnone] at hg
    cases hg

theorem EntriesOk.of_idle (he : EntriesOk s) (hnone : ∀ x, (s.writes x).placing? = none) {m : Nat}
    {e : Entry U V} (hm : e ∈ s.db.entries m) : e.number ≤ s.db.versions.lastSequence := by
  rcases he.bounded m e hm with hle | ⟨-, x, g, hg, -⟩
  · exact hle
  · rw [hnone x] at hg
    cases hg

/-- Memtables are given up, and no call goes on with its group. -/
theorem EntriesOk.of_same (he : EntriesOk s) (hgroups : GroupsOk s)
    (hlast : t.db.versions.lastSequence = s.db.versions.lastSequence) (hmem : t.db.mem = s.db.mem)
    (hless : ∀ m, ∀ e ∈ t.db.entries m, e ∈ s.db.entries m)
    (hkeep : ∀ e ∈ s.db.entries s.db.mem, e ∈ t.db.entries s.db.mem)
    (hcalls : ∀ x, (t.writes x).unsignalled = (s.writes x).unsignalled ∨
      (t.writes x).placing? = none ∧ (s.writes x).placing? = none) : EntriesOk t where
  bounded m e hm := by
    rw [hlast, hmem]
    rcases he.bounded m e (hless m e hm) with hle | ⟨heq, x, g, hg, heg⟩
    · exact Or.inl hle
    · refine Or.inr ⟨heq, x, g, ?_, heg⟩
      rcases hcalls x with hsame | ⟨-, hnone⟩
      · rw [← WriteCall.placing?_unsignalled, hsame, WriteCall.placing?_unsignalled, hg]
      · rw [hnone] at hg
        cases hg
  placed x := by
    rcases hcalls x with hsame | ⟨hnone, -⟩
    · exact ((he.placed x).keep (hgroups x) hmem hkeep).unsignalled hsame
    · exact .of_none hnone

/-- The step of a call while no other one has a group. -/
theorem EntriesOk.of_self (hothers : ∀ x ≠ w, (t.writes x).placing? = none)
    (hbounded : ∀ m, ∀ e ∈ t.db.entries m, e.number ≤ t.db.versions.lastSequence ∨
      m = t.db.mem ∧ ∃ g, (t.writes w).placing? = some g ∧ e ∈ g.entries)
    (hself : PlacedOk t.db (t.writes w)) : EntriesOk t where
  bounded m e hm := by
    rcases hbounded m e hm with hle | ⟨hmem, g, hg, heg⟩
    · exact Or.inl hle
    · exact Or.inr ⟨hmem, w, g, hg, heg⟩
  placed x := by
    by_cases hx : x = w
    · subst hx
      exact hself
    · exact .of_none (hothers x hx)

/-- The memtable that takes the place of `mem_` is empty. -/
theorem RoomEffect.entries {o : CreateOutcome} (hrefs : ReferencesOk s) {db : Db U V R N}
    (heffect : RoomEffect cfg o s.db db) (m : Nat) : db.entries m = s.db.entries m := by
  cases heffect with
  | same => rfl
  | reused => rfl
  | switched =>
    obtain ⟨jobQueue, scheduled, heq⟩ :=
      @switchMemTable_eq U V R N cfg o s.db s.db.versions.nextFileNumber
    rw [heq]
    show ((s.db.memtables.alloc s.db.nextMem []).content m).getD [] = s.db.entries m
    unfold Db.entries
    by_cases hm : m = s.db.nextMem
    · have hfree : s.db.memtables s.db.nextMem = none :=
        hrefs.exact.free fun hheld => Nat.lt_irrefl _ (hrefs.fresh _ hheld)
      rw [hm, RefCounted.Heap.content_alloc_self]
      unfold RefCounted.Heap.content
      rw [hfree]
      rfl
    · rw [RefCounted.Heap.content_alloc_ne _ hm]

theorem entries_modify {m : Nat} {e : Entry U V} {memtables : RefCounted.Heap (MemTable U V)}
    (hmod : s.db.memtables.modify (· ++ [e]) m = some memtables) :
    ({ s.db with memtables } : Db U V R N).entries m = s.db.entries m ++ [e] := by
  obtain ⟨c, hc, -⟩ := Option.map_eq_some_iff.mp hmod
  have hcontent : s.db.memtables.content m = some c.content := by
    unfold RefCounted.Heap.content
    rw [hc]
    rfl
  unfold Db.entries
  dsimp only
  rw [RefCounted.Heap.content_modify_self hmod, hcontent]
  rfl

theorem entries_modify_ne {m m' : Nat} {e : Entry U V} {memtables : RefCounted.Heap (MemTable U V)}
    (hmod : s.db.memtables.modify (· ++ [e]) m = some memtables) (hm : m' ≠ m) :
    ({ s.db with memtables } : Db U V R N).entries m' = s.db.entries m' := by
  unfold Db.entries
  dsimp only
  rw [RefCounted.Heap.content_modify_ne hmod hm]

variable [DecidableEq W]

/-- The call that is active is the only one with a group. -/
theorem WriteStep.placing?_others {act : WriteAct} (hstep : WriteStep cfg calls s w act t)
    (hq : QueueOk s) (hw : (s.writes w).phase = .active) {x : W} (hx : x ≠ w) :
    (t.writes x).placing? = none := by
  refine WriteCall.placing?_none ?_
  rw [hstep.group?_others hx]
  cases hg : (s.writes x).group? with
  | none => rfl
  | some g => exact absurd (hq.unique (WriteCall.active_of_group hg) hw) hx

theorem EntriesOk.write (he : EntriesOk s) (hok : cfg.ok = Status.isOK) (hc : Consistent s)
    {act : WriteAct} (hstep : WriteStep cfg calls s w act t)
    (hplain : (Label.write w act : Label U V W N).plain = true) : EntriesOk t := by
  have hothers : ∀ x ≠ w, (t.writes x).unsignalled = (s.writes x).unsignalled :=
    fun x hx => hstep.others hx
  have halone : (s.writes w).phase = .active → ∀ x ≠ w, (t.writes x).placing? = none :=
    fun hw x hx => hstep.placing?_others hc.queue hw hx
  cases hstep with
  | joins hpc =>
    refine he.of_same hc.groups rfl rfl (fun _ _ hm => hm) (fun _ hm => hm) fun x => ?_
    by_cases hx : x = w
    · subst hx
      rw [setWrite_self, hpc]
      exact Or.inr ⟨rfl, rfl⟩
    · exact Or.inl (hothers x hx)
  | waits hpc =>
    refine he.of_same hc.groups rfl rfl (fun _ _ hm => hm) (fun _ hm => hm) fun x => ?_
    by_cases hx : x = w
    · subst hx
      rw [setWrite_self, hpc]
      exact Or.inr ⟨rfl, rfl⟩
    · exact Or.inl (hothers x hx)
  | @rooms act s₁ t room o size db e henters hmake hthen =>
    have hnone := henters.no_group hc.queue
    have heffect := makeRoom_effect hmake
    have hself : (t.writes w).placing? = none := by
      cases hthen with
      | sleeps => rw [setWrite_self]; rfl
      | waits => rw [setWrite_self]; rfl
      | leads => rw [setWrite_self]; rfl
      | returns => rw [leave_self]; rfl
    refine .of_self (w := w) (fun x hx => ?_) (fun m e hm => Or.inl ?_) (.of_none hself)
    · refine WriteCall.placing?_none ?_
      exact (WriteCall.group?_congr (hothers x hx)).trans (hnone x)
    · rw [hthen.keeps.1] at hm ⊢
      have hm : e ∈ db.entries m := hm
      rw [heffect.entries hc.references] at hm
      show e.number ≤ db.versions.lastSequence
      rw [heffect.lastSequence]
      exact he.of_idle (fun x => WriteCall.placing?_none (hnone x)) hm
  | @appends t g status hpc happend =>
    have hactive : (s.writes w).phase = .active := by rw [hpc]; rfl
    obtain ⟨n, -, happend⟩ := Option.bind_eq_some_iff.mp happend
    obtain ⟨records, -, rfl⟩ := Option.map_eq_some_iff.mp happend
    refine .of_self (halone hactive) (fun m e hm => Or.inl ?_) ?_
    · exact he.of_not_placing hc.queue hactive (by rw [hpc]; rfl) hm
    · rw [setWrite_self, hok]
      by_cases hstatus : status = .OK
      · rw [if_pos (Status.isOK_iff.mpr hstatus)]
        cases (calls w).sync with
        | true => exact .of_none rfl
        | false => exact ⟨fun g' m rest heq e heg => by cases heq; exact Or.inr heg, nofun⟩
      · rw [if_neg (fun hisOK => hstatus (Status.isOK_iff.mp hisOK))]
        exact .of_none (if_neg hstatus)
  | @syncs t g status hpc hsync =>
    have hactive : (s.writes w).phase = .active := by rw [hpc]; rfl
    obtain ⟨n, -, rfl⟩ := Option.map_eq_some_iff.mp hsync
    refine .of_self (halone hactive) (fun m e hm => Or.inl ?_) ?_
    · exact he.of_not_placing hc.queue hactive (by rw [hpc]; rfl) hm
    · rw [setWrite_self, hok]
      by_cases hstatus : status = .OK
      · rw [if_pos (Status.isOK_iff.mpr hstatus)]
        exact ⟨fun g' m rest heq e heg => by cases heq; exact Or.inr heg, nofun⟩
      · rw [if_neg (fun hisOK => hstatus (Status.isOK_iff.mp hisOK))]
        exact .of_none (if_neg hstatus)
  | @inserts t g m e rest hpc hinsert =>
    have hactive : (s.writes w).phase = .active := by rw [hpc]; rfl
    obtain ⟨memtables, hmod, rfl⟩ := Option.map_eq_some_iff.mp hinsert
    obtain ⟨rfl, hrest⟩ := (hc.groups w).inserts g m (e :: rest) hpc
    refine .of_self (halone hactive) (fun m' e' hm => ?_) ?_
    · rw [setWrite_self]
      have hm : e' ∈ ({ s.db with memtables } : Db U V R N).entries m' := hm
      have hold : e' ∈ s.db.entries m' → e'.number ≤ s.db.versions.lastSequence ∨
          m' = s.db.mem ∧ ∃ g', some g = some g' ∧ e' ∈ g'.entries := by
        intro hin
        have hcase := he.of_active hc.queue hactive hin
        rwa [hpc] at hcase
      by_cases hm' : m' = s.db.mem
      · subst hm'
        rw [entries_modify hmod] at hm
        rcases List.mem_append.mp hm with hin | hin
        · exact hold hin
        · rw [List.mem_singleton.mp hin]
          exact Or.inr ⟨rfl, g, rfl, hrest.subset List.mem_cons_self⟩
      · rw [entries_modify_ne hmod hm'] at hm
        exact hold hm
    · rw [setWrite_self]
      refine ⟨fun g' m' rest' heq e' heg => ?_, nofun⟩
      cases heq
      show e' ∈ ({ s.db with memtables } : Db U V R N).entries s.db.mem ∨ e' ∈ rest
      rw [entries_modify hmod]
      rcases (he.placed w).inserting g _ _ hpc e' heg with hin | hin
      · exact Or.inl (List.mem_append_left _ hin)
      · rcases List.mem_cons.mp hin with rfl | hin
        · exact Or.inl (List.mem_append_right _ (List.mem_singleton.mpr rfl))
        · exact Or.inr hin
  | @ends t g m rest status hpc hend =>
    have hactive : (s.writes w).phase = .active := by rw [hpc]; rfl
    have hstatus : status = .OK := by simpa [Label.plain] using hplain
    obtain ⟨hm, -⟩ := (hc.groups w).inserts g m rest hpc
    unfold System.insertEnd at hend
    split at hend
    · cases hend
    · rename_i hrest
      cases hend
      subst hstatus
      have hrest : rest = [] := by simpa using hrest
      refine .of_self (halone hactive) (fun m' e hin => ?_) ?_
      · rw [setWrite_self]
        have hcase := he.of_active hc.queue hactive hin
        rwa [hpc] at hcase
      · rw [setWrite_self]
        refine ⟨nofun, fun g' syncError heq e heg => ?_⟩
        cases heq
        rcases (he.placed w).inserting g m rest hpc e heg with hin | hin
        · rw [hm] at hin
          exact hin
        · rw [hrest] at hin
          cases hin
  | @finishes g status syncError rest hpc hwriters =>
    have hactive : (s.writes w).phase = .active := by rw [hpc]; rfl
    have hgroup : GroupOk s.db g := (hc.groups w).group g (by rw [hpc]; rfl)
    obtain ⟨writes, heq⟩ := finish_keeps cfg s w g status syncError rest
    refine .of_self (halone hactive) (fun m e hm => Or.inl ?_) ?_
    · rw [heq] at hm ⊢
      have hm : e ∈ s.db.entries m := hm
      show e.number ≤ g.lastSequence
      rcases he.of_active hc.queue hactive hm with hle | ⟨-, g', hg', heg⟩
      · have hlast := hgroup.last
        omega
      · have hg' := WriteCall.group?_of_placing hg'
        rw [hpc] at hg'
        obtain rfl := Option.some.inj hg'
        exact (hgroup.entries heg).2
    · rw [leave_self]
      exact .of_none rfl

/-! ## Groups that are over -/

omit [DecidableEq W] in
/-- A group that is not being inserted is in no memtable. -/
theorem EntriesOk.absent (he : EntriesOk s) (hc : Consistent s) {g : Group U V W}
    (hg : (s.writes w).group? = some g) (hnot : (s.writes w).placing? = none) {m : Nat}
    {e : Entry U V} (heg : e ∈ g.entries) : e ∉ s.db.entries m := by
  intro hm
  have hnew := (((hc.groups w).group g hg).entries heg).1
  have hle := he.of_not_placing hc.queue (WriteCall.active_of_group hg) hnot hm
  omega

omit [DecidableEq W] in
/-- While no leader is about to give up its group, the groups that failed are over. -/
theorem SettledOk.over_last (hs : SettledOk h s) (hq : QueueOk s)
    (hw : (s.writes w).phase = .active)
    (hnot : ∀ g status syncError, s.writes w ≠ .relocking g status syncError) {g : Group U V W}
    (hg : g ∈ h.failed) : g.lastSequence ≤ s.db.versions.lastSequence := by
  obtain ⟨-, hle | ⟨x, status, syncError, hpc, -⟩⟩ := hs.ended g hg
  · exact hle
  · have hx : x = w := hq.unique (by rw [hpc]; rfl) hw
    rw [hx] at hpc
    exact absurd hpc (hnot g status syncError)

omit [DecidableEq W] in
/-- Memtables stay or are given up, groups are built, and groups fail that are in no memtable. -/
theorem SettledOk.of_kept (hs : SettledOk h s)
    (hlast : t.db.versions.lastSequence = s.db.versions.lastSequence)
    (hentries : ∀ m, t.db.entries m = s.db.entries m ∨ t.db.entries m = [])
    (hsub : h.groups ⊆ h'.groups)
    (hgroups : ∀ g ∈ h'.groups, g ∈ h.groups ∨ GroupOk t.db g)
    (hrelocking : ∀ x g status syncError, s.writes x = .relocking g status syncError →
      t.writes x = .relocking g status syncError)
    (hfailed : ∀ g ∈ h'.failed, g ∈ h.failed ∨ g ∈ h.groups ∧
      (∀ m, ∀ e ∈ g.entries, e ∉ s.db.entries m) ∧
        ∃ w status syncError, t.writes w = .relocking g status syncError ∧ status ≠ .OK) :
    SettledOk h' t where
  settled g hg hle m := by
    rcases hgroups g hg with hold | hnew
    · rcases hentries m with heq | heq
      · rw [heq]
        exact hs.settled g hold (by rw [← hlast]; exact hle) m
      · rw [heq]
        exact Or.inr fun e _ hin => absurd hin List.not_mem_nil
    · refine Or.inr fun e heg => ?_
      have hbounds := hnew.entries heg
      omega
  absent g hg m e heg := by
    have hnot : e ∉ s.db.entries m := by
      rcases hfailed g hg with hold | ⟨-, habsent, -⟩
      · exact hs.absent g hold m e heg
      · exact habsent m e heg
    rcases hentries m with heq | heq
    · rw [heq]
      exact hnot
    · rw [heq]
      exact List.not_mem_nil
  ended g hg := by
    rcases hfailed g hg with hold | ⟨hmem, -, hpc⟩
    · obtain ⟨hmem, hle | ⟨x, status, syncError, hpc, hstatus⟩⟩ := hs.ended g hold
      · exact ⟨hsub hmem, Or.inl (by rw [hlast]; exact hle)⟩
      · have hpc := hrelocking x g status syncError hpc
        exact ⟨hsub hmem, Or.inr ⟨x, status, syncError, hpc, hstatus⟩⟩
    · exact ⟨hsub hmem, Or.inr hpc⟩

/-- An entry of the group in progress goes into `mem_`. -/
theorem SettledOk.insert (hs : SettledOk h s) (hr : RangesOk n h s) (hc : Consistent s)
    {g : Group U V W} {m : Nat} {e : Entry U V} {rest : List (Entry U V)}
    (hpc : s.writes w = .inserting g m (e :: rest)) (hstep : s.memInsert w g m e rest = some t) :
    SettledOk h t := by
  have hactive : (s.writes w).phase = .active := by rw [hpc]; rfl
  have hnew : s.db.versions.lastSequence < e.number := by
    obtain ⟨-, hrest⟩ := (hc.groups w).inserts g m (e :: rest) hpc
    exact (((hc.groups w).group g (by rw [hpc]; rfl)).entries (hrest.subset List.mem_cons_self)).1
  obtain ⟨memtables, hmod, rfl⟩ := Option.map_eq_some_iff.mp hstep
  -- a group that is over does not have the entry
  have hother : ∀ g' ∈ h.groups, g'.lastSequence ≤ s.db.versions.lastSequence → e ∉ g'.entries := by
    intro g' hg' hle heg
    have hbound := (hr.entries hg' heg).2
    omega
  have hin : ∀ m' x, x ≠ e → (x ∈ ({ s.db with memtables } : Db U V R N).entries m' ↔
      x ∈ s.db.entries m') := by
    intro m' x hx
    by_cases hm : m' = m
    · rw [hm, entries_modify hmod, List.mem_append, List.mem_singleton]
      exact ⟨fun hcase => hcase.resolve_right hx, Or.inl⟩
    · rw [entries_modify_ne hmod hm]
  have hfailed : ∀ g' ∈ h.failed, g'.lastSequence ≤ s.db.versions.lastSequence := fun g' hg' =>
    hs.over_last hc.queue hactive (by rw [hpc]; nofun) hg'
  refine ⟨fun g' hg' hle m' => ?_, fun g' hg' m' x hx hmem => ?_, fun g' hg' => ?_⟩
  · have hnot := hother g' hg' hle
    rcases hs.settled g' hg' hle m' with hall | hnone
    · exact Or.inl fun x hx => (hin m' x fun heq => hnot (heq ▸ hx)).mpr (hall x hx)
    · exact Or.inr fun x hx hmem =>
        hnone x hx ((hin m' x fun heq => hnot (heq ▸ hx)).mp hmem)
  · have hnot := hother g' (hs.ended g' hg').1 (hfailed g' hg')
    exact hs.absent g' hg' m' x hx ((hin m' x fun heq => hnot (heq ▸ hx)).mp hmem)
  · exact ⟨(hs.ended g' hg').1, Or.inl (hfailed g' hg')⟩

omit [DecidableEq W] in
/-- The leader of a group sets `last_sequence_`. -/
theorem SettledOk.finish (hs : SettledOk h s) (he : EntriesOk s) (hr : RangesOk n h s)
    (hc : Consistent s) {g : Group U V W} {status : Status} {syncError : Bool}
    (hpc : s.writes w = .relocking g status syncError) (hgroups : h'.groups = h.groups)
    (hfailed : h'.failed = h.failed) (hentries : ∀ m, t.db.entries m = s.db.entries m)
    (hlast : t.db.versions.lastSequence = g.lastSequence) : SettledOk h' t := by
  have hg : (s.writes w).group? = some g := by rw [hpc]; rfl
  have hgroup : GroupOk s.db g := (hc.groups w).group g hg
  obtain ⟨before, heq, hbefore⟩ := hr.busy w g hg
  have hle : s.db.versions.lastSequence ≤ g.lastSequence := by
    have hcount := hgroup.last
    omega
  refine ⟨fun g' hg' _ m => ?_, fun g' hg' m => ?_, fun g' hg' => ?_⟩
  · rw [hentries m]
    rw [hgroups, heq] at hg'
    rcases List.mem_append.mp hg' with hold | hold
    · refine hs.settled g' ?_ (hbefore.mem hold).2 m
      rw [heq]
      exact List.mem_append_left _ hold
    · rw [List.mem_singleton.mp hold]
      by_cases hstatus : status = .OK
      · subst hstatus
        by_cases hm : m = s.db.mem
        · subst hm
          exact Or.inl ((he.placed w).inserted g syncError hpc)
        · refine Or.inr fun e heg hin => ?_
          have hnew := (hgroup.entries heg).1
          rcases he.bounded m e hin with hold | ⟨hmem, -⟩
          · omega
          · exact hm hmem
      · refine Or.inr fun e heg => he.absent hc hg ?_ heg
        rw [hpc]
        exact if_neg hstatus
  · rw [hentries m]
    rw [hfailed] at hg'
    exact hs.absent g' hg' m
  · rw [hfailed] at hg'
    have hmem := (hs.ended g' hg').1
    rw [hgroups, hlast]
    refine ⟨hmem, Or.inl ?_⟩
    rw [heq] at hmem
    rcases List.mem_append.mp hmem with hold | hold
    · exact le_trans (hbefore.mem hold).2 hle
    · rw [List.mem_singleton.mp hold]

theorem SettledOk.write (hs : SettledOk h s) (hok : cfg.ok = Status.isOK) (he : EntriesOk s)
    (hr : RangesOk n h s) (hc : Consistent s) {act : WriteAct}
    (hstep : WriteStep cfg calls s w act t) : SettledOk (h.record s (.write w act) t) t := by
  have hsub : h.groups ⊆ (h.record s (.write w act) t).groups := List.subset_append_left _ _
  have hbuilds : ∀ g ∈ (h.record s (.write w act) t).groups, g ∈ h.groups ∨ GroupOk t.db g := by
    intro g hg
    rcases List.mem_append.mp hg with hg | hg
    · exact Or.inl hg
    · exact Or.inr
        ((hc.groups.write hc.queue hstep w).group g (WriteCall.group?_of_built hg))
  have hrelocking : (∀ g status syncError, s.writes w ≠ .relocking g status syncError) →
      ∀ x g status syncError, s.writes x = .relocking g status syncError →
        t.writes x = .relocking g status syncError := by
    intro hnot x g status syncError hpc
    by_cases hx : x = w
    · rw [hx] at hpc
      exact absurd hpc (hnot g status syncError)
    · exact (WriteCall.eq_of_group (hstep.others hx).symm (by rw [hpc]; rfl)).trans hpc
  have hkept : t.db.versions.lastSequence = s.db.versions.lastSequence →
      (∀ m, t.db.entries m = s.db.entries m) →
      (∀ g status syncError, s.writes w ≠ .relocking g status syncError) →
      (∀ g ∈ (s.writes w).fails act, g ∈ h.groups ∧
        (∀ m, ∀ e ∈ g.entries, e ∉ s.db.entries m) ∧
          ∃ w status syncError, t.writes w = .relocking g status syncError ∧ status ≠ .OK) →
      SettledOk (h.record s (.write w act) t) t := fun hlast hentries hnot hfails =>
    hs.of_kept hlast (fun m => Or.inl (hentries m)) hsub hbuilds (hrelocking hnot) fun g hg =>
      (List.mem_append.mp hg).imp_right (hfails g)
  have hmember : ∀ g, (s.writes w).group? = some g → g ∈ h.groups := by
    intro g hg
    obtain ⟨before, heq, -⟩ := hr.busy w g hg
    rw [heq]
    exact List.mem_append_right _ (List.mem_singleton.mpr rfl)
  cases hstep with
  | joins hpc => exact hkept rfl (fun _ => rfl) (by rw [hpc]; nofun) (by rw [hpc]; nofun)
  | waits hpc => exact hkept rfl (fun _ => rfl) (by rw [hpc]; nofun) (by rw [hpc]; nofun)
  | @rooms act s₁ t room o size db e henters hmake hthen =>
    have heffect := makeRoom_effect hmake
    have hdb := hthen.keeps.1
    refine hkept ?_ (fun m => ?_) (fun g status syncError hpc => ?_) (fun g hg => ?_)
    · rw [hdb]
      exact heffect.lastSequence
    · rw [hdb]
      exact heffect.entries hc.references m
    · have hnone := henters.no_group hc.queue w
      rw [hpc] at hnone
      cases hnone
    · cases henters with
      | called hpc => rw [hpc] at hg; cases hg
      | woken hpc => rw [hpc] at hg; cases hg
      | slept hpc => rw [hpc] at hg; cases hg
      | waited hpc => rw [hpc] at hg; cases hg
  | @appends t g status hpc happend =>
    obtain ⟨n, -, happend⟩ := Option.bind_eq_some_iff.mp happend
    obtain ⟨records, -, rfl⟩ := Option.map_eq_some_iff.mp happend
    refine hkept rfl (fun _ => rfl) (by rw [hpc]; nofun) fun g' hg' => ?_
    rw [hpc] at hg'
    have hg' : g' ∈ if status = .OK then [] else [g] := hg'
    split at hg'
    · cases hg'
    · rename_i hstatus
      rw [List.mem_singleton.mp hg']
      refine ⟨hmember g (by rw [hpc]; rfl), fun m e heg => ?_, w, status, false, ?_, hstatus⟩
      · exact he.absent hc (w := w) (by rw [hpc]; rfl) (by rw [hpc]; rfl) heg
      · rw [setWrite_self, hok, if_neg (fun hisOK => hstatus (Status.isOK_iff.mp hisOK))]
  | @syncs t g status hpc hsync =>
    obtain ⟨n, -, rfl⟩ := Option.map_eq_some_iff.mp hsync
    refine hkept rfl (fun _ => rfl) (by rw [hpc]; nofun) fun g' hg' => ?_
    rw [hpc] at hg'
    have hg' : g' ∈ if status = .OK then [] else [g] := hg'
    split at hg'
    · cases hg'
    · rename_i hstatus
      rw [List.mem_singleton.mp hg']
      refine ⟨hmember g (by rw [hpc]; rfl), fun m e heg => ?_, w, status, true, ?_, hstatus⟩
      · exact he.absent hc (w := w) (by rw [hpc]; rfl) (by rw [hpc]; rfl) heg
      · rw [setWrite_self, hok, if_neg (fun hisOK => hstatus (Status.isOK_iff.mp hisOK))]
  | @inserts t g m e rest hpc hinsert =>
    have hrecord : h.record s (.write w .insert) t = h := by
      have hself : t.writes w = .inserting g m rest := by
        obtain ⟨memtables, -, rfl⟩ := Option.map_eq_some_iff.mp hinsert
        exact setWrite_self _
      rw [GroupHistory.record_write, hself, hpc]
      show GroupHistory.mk (h.groups ++ []) (h.failed ++ []) = h
      rw [List.append_nil, List.append_nil]
    rw [hrecord]
    exact hs.insert hr hc hpc hinsert
  | @ends t g m rest status hpc hend =>
    unfold System.insertEnd at hend
    split at hend
    · cases hend
    · cases hend
      exact hkept rfl (fun _ => rfl) (by rw [hpc]; nofun) (by rw [hpc]; nofun)
  | @finishes g status syncError rest hpc hwriters =>
    obtain ⟨writes, heq⟩ := finish_keeps cfg s w g status syncError rest
    refine hs.finish he hr hc hpc ?_ ?_ (fun m => by rw [heq]; rfl) (by rw [heq])
    · rw [GroupHistory.record_write, leave_self]
      exact List.append_nil _
    · rw [GroupHistory.record_write, hpc]
      exact List.append_nil _

variable [Std.TransCmp cfg.version.icmp]

/-- **Every step keeps the entries in place.** -/
theorem EntriesOk.step (he : EntriesOk s) (hok : cfg.ok = Status.isOK) (hc : Consistent s)
    {l : Label U V W N} (hplain : l.plain = true) (hstep : System.step cfg calls s l = some t) :
    EntriesOk t := by
  rcases l.write_or_other with ⟨w, act, rfl⟩ | hl
  · exact he.write hok hc (writeStep_of_write hc.queue hstep) hplain
  · have hno := noInserts_of_step hl hstep
    have hrefs := hc.references.step hc.queue hstep
    refine he.of_same hc.groups hno.lastSequence hno.mem
      (fun m => entries_subset (hno.content m)) (fun e hin => ?_)
      fun x => Or.inl ((sameQueue_of_step hl hstep).unsignalled x)
    -- `mem_` is held, so it has not been given up
    obtain ⟨es, hes⟩ := hrefs.exact.content_isSome t.mem_holders
    rw [hno.mem] at hes
    rcases hno.content s.db.mem with heq | heq
    · unfold Db.entries at hin ⊢
      rwa [heq]
    · exact absurd (hes.symm.trans heq) nofun

theorem SettledOk.step (hs : SettledOk h s) (hok : cfg.ok = Status.isOK) (he : EntriesOk s)
    (hr : RangesOk n h s) (hc : Consistent s) {l : Label U V W N}
    (hstep : System.step cfg calls s l = some t) : SettledOk (h.record s l t) t := by
  rcases l.write_or_other with ⟨w, act, rfl⟩ | hl
  · exact hs.write hok he hr hc (writeStep_of_write hc.queue hstep)
  · have hno := noInserts_of_step hl hstep
    have hsame := sameQueue_of_step hl hstep
    rw [record_of_not_write hl]
    refine hs.of_kept hno.lastSequence (fun m => ?_) (List.Subset.refl _) (fun _ hg => Or.inl hg)
      (fun x g status syncError hpc => ?_) fun _ hg => Or.inl hg
    · unfold Db.entries
      rcases hno.content m with heq | heq
      · rw [heq]
        exact Or.inl rfl
      · rw [heq]
        exact Or.inr rfl
    · exact (WriteCall.eq_of_group (hsame.unsignalled x).symm (by rw [hpc]; rfl)).trans hpc

end Step

end LevelDB
