import LevelDB.Db.CompactMemTable
import LevelDB.Db.References

/-!
# The write group in progress

A group gets its sequence numbers when it is built, and `last_sequence_` is set when its leader
takes the mutex again.

* `GroupsOk` — in between, the group has the numbers that follow `last_sequence_`, and its entries
  go into the current memtable;
* `GroupsOk.step` — every step of every thread keeps this;
* `leavesFlush_of_step` — so writers and readers leave alone what a flush relies on.
-/

set_option autoImplicit false

namespace LevelDB

variable {U V R W : Type} {N : Nat}

namespace WriteCall

/-- The group that a call is writing. -/
def group? : WriteCall U V W → Option (Group U V W)
  | appending g => some g
  | syncing g => some g
  | inserting g _ _ => some g
  | relocking g _ _ => some g
  | _ => none

theorem active_of_group {pc : WriteCall U V W} {g : Group U V W} (h : pc.group? = some g) :
    pc.phase = .active := by
  cases pc with
  | idle => cases h
  | waiting => cases h
  | returned => cases h
  | _ => rfl

@[simp] theorem group?_unsignalled (pc : WriteCall U V W) : pc.unsignalled.group? = pc.group? := by
  cases pc <;> rfl

theorem group?_congr {pc pc' : WriteCall U V W} (h : pc'.unsignalled = pc.unsignalled) :
    pc'.group? = pc.group? := by
  rw [← group?_unsignalled, h, group?_unsignalled]

end WriteCall

/-- The numbers of a group follow `last_sequence_`. -/
structure GroupOk (db : Db U V R N) (g : Group U V W) : Prop where
  sequence : g.sequence = db.versions.lastSequence + 1
  last : g.lastSequence = db.versions.lastSequence + g.ops.length

/-- A call has a group with the right numbers, and inserts what is left of it into `mem_`. -/
structure CallOk (db : Db U V R N) (pc : WriteCall U V W) : Prop where
  group : ∀ g, pc.group? = some g → GroupOk db g
  inserts : ∀ g m rest, pc = .inserting g m rest → m = db.mem ∧ rest <:+ g.entries

def GroupsOk (s : System U V R W N) : Prop := ∀ w, CallOk s.db (s.writes w)

theorem CallOk.of_none {db : Db U V R N} {pc : WriteCall U V W} (h : pc.group? = none) :
    CallOk db pc where
  group g hg := by
    rw [h] at hg
    cases hg
  inserts g m rest hpc := by
    rw [hpc] at h
    cases h

theorem CallOk.of_not_active {db : Db U V R N} {pc : WriteCall U V W} (h : pc.phase ≠ .active) :
    CallOk db pc := by
  refine .of_none ?_
  cases hgroup : pc.group? with
  | none => rfl
  | some g => exact absurd (WriteCall.active_of_group hgroup) h

theorem CallOk.unsignalled {db : Db U V R N} {pc pc' : WriteCall U V W} (h : CallOk db pc)
    (hpc : pc'.unsignalled = pc.unsignalled) : CallOk db pc' where
  group g hg := by
    exact h.group g ((WriteCall.group?_congr hpc).symm.trans hg)
  inserts g m rest hg := by
    subst hg
    refine h.inserts g m rest ?_
    cases pc with
    | inserting => exact hpc.symm
    | _ => cases hpc

theorem CallOk.congr {db db' : Db U V R N} {pc : WriteCall U V W} (h : CallOk db pc)
    (hlast : db'.versions.lastSequence = db.versions.lastSequence) (hmem : db'.mem = db.mem) :
    CallOk db' pc where
  group g hg :=
    ⟨by rw [hlast]; exact (h.group g hg).sequence, by rw [hlast]; exact (h.group g hg).last⟩
  inserts g m rest hpc := by rw [hmem]; exact h.inserts g m rest hpc

theorem CallOk.of_group {db : Db U V R N} {pc : WriteCall U V W} {g : Group U V W}
    (h : GroupOk db g) (hgroup : pc.group? = some g)
    (hinserts : ∀ g m rest, pc ≠ .inserting g m rest) : CallOk db pc where
  group g' hg' := by
    obtain rfl := Option.some.inj (hgroup.symm.trans hg')
    exact h
  inserts g' m rest hpc := absurd hpc (hinserts g' m rest)

/-- The insertion starts with all entries and the current memtable. -/
theorem CallOk.starts {db : Db U V R N} {g : Group U V W} (h : GroupOk db g) :
    CallOk db (.inserting g db.mem g.entries) where
  group g' hg' := by
    cases hg'
    exact h
  inserts g' m rest hpc := by
    cases hpc
    exact ⟨rfl, List.suffix_rfl⟩

section Step

variable {cfg : DbConfig U V R N} {calls : W → WriteRequest U V} {s s₁ t : System U V R W N} {w : W}

/-- While one call is active, or comes to the front, no other one is. -/
theorem EntersRoom.alone {act : WriteAct} {room : Room} {o : CreateOutcome} {size : Nat}
    (h : EntersRoom calls s w act s₁ room o size) (hq : QueueOk s) {x : W} (hx : x ≠ w) :
    (s.writes x).phase ≠ .active := by
  intro hactive
  have hfront := hq.front x hactive
  obtain ⟨rest, -, ⟨hempty, -⟩ | hwriters⟩ := h.shape hq
  · rw [hempty] at hfront
    cases hfront
  · rw [hwriters] at hfront
    exact hx (Option.some.inj hfront).symm

theorem EntersRoom.no_group {act : WriteAct} {room : Room} {o : CreateOutcome} {size : Nat}
    (h : EntersRoom calls s w act s₁ room o size) (hq : QueueOk s) (x : W) :
    (s.writes x).group? = none := by
  cases hgroup : (s.writes x).group? with
  | none => rfl
  | some g =>
    by_cases hx : x = w
    · subst hx
      cases h with
      | called hpc => rw [hpc] at hgroup; cases hgroup
      | woken hpc => rw [hpc] at hgroup; cases hgroup
      | slept hpc => rw [hpc] at hgroup; cases hgroup
      | waited hpc => rw [hpc] at hgroup; cases hgroup
    · exact absurd (WriteCall.active_of_group hgroup) (h.alone hq hx)

theorem RoomEffect.lastSequence {o : CreateOutcome} {db db' : Db U V R N}
    (h : RoomEffect cfg o db db') : db'.versions.lastSequence = db.versions.lastSequence := by
  cases h with
  | same => rfl
  | reused => rfl
  | switched =>
    obtain ⟨jobQueue, scheduled, heq⟩ :=
      @switchMemTable_eq U V R N cfg o db db.versions.nextFileNumber
    rw [heq]
    rfl

/-- The other calls are not concerned. -/
theorem GroupsOk.of_self (h : GroupsOk s)
    (hothers : ∀ x ≠ w, (t.writes x).unsignalled = (s.writes x).unsignalled)
    (hdb : (t.db.versions.lastSequence = s.db.versions.lastSequence ∧ t.db.mem = s.db.mem) ∨
      ∀ x ≠ w, (s.writes x).phase ≠ .active)
    (hself : CallOk t.db (t.writes w)) : GroupsOk t := by
  intro x
  by_cases hx : x = w
  · subst hx
    exact hself
  · rcases hdb with ⟨hlast, hmem⟩ | halone
    · exact ((h x).congr hlast hmem).unsignalled (hothers x hx)
    · exact (CallOk.of_not_active (halone x hx)).unsignalled (hothers x hx)

/-! ## Steps that insert nothing -/

/-- What a step that is not one of a call of `Write` does to the memtables: none gains an entry. -/
structure NoInserts (s t : System U V R W N) : Prop where
  lastSequence : t.db.versions.lastSequence = s.db.versions.lastSequence
  mem : t.db.mem = s.db.mem
  imm : t.db.imm = s.db.imm ∨ t.db.imm = none
  content : ∀ m, t.db.memtables.content m = s.db.memtables.content m ∨
    t.db.memtables.content m = none

theorem NoInserts.of_same (hlast : t.db.versions.lastSequence = s.db.versions.lastSequence)
    (hmem : t.db.mem = s.db.mem) (himm : t.db.imm = s.db.imm)
    (hmemtables : t.db.memtables = s.db.memtables) : NoInserts s t :=
  ⟨hlast, hmem, Or.inl himm, fun m => Or.inl (by rw [hmemtables])⟩

theorem NoInserts.endBackground (h : NoInserts s s₁) : NoInserts s (s₁.endBackground cfg) := by
  obtain ⟨db, ⟨jobQueue, scheduled, needs, rfl, -⟩, heq⟩ := endBackground_eq cfg s₁
  rw [heq]
  exact ⟨h.lastSequence, h.mem, h.imm, h.content⟩

theorem content_unrefCaptured {g : GetCall U V N} {h h' : RefCounted.Heap (MemTable U V)}
    (hunref : System.unrefCaptured h g = some h') (m : Nat) :
    h'.content m = h.content m ∨ h'.content m = none := by
  obtain ⟨h₁, hmem, himm⟩ := Option.bind_eq_some_iff.mp hunref
  rcases RefCounted.Heap.content_unrefOpt himm m with heq | heq
  · rw [heq]
    exact RefCounted.Heap.content_unref hmem m
  · exact Or.inr heq

theorem JobEnds.noInserts {i : Install (InternalKey U) N} {db : Db U V R N}
    (h : JobEnds cfg s i db) : NoInserts s { s with db } := by
  cases h with
  | flushed himm hunref =>
    exact ⟨rfl, rfl, Or.inr rfl, fun m => RefCounted.Heap.content_unref hunref m⟩
  | moved => exact .of_same rfl rfl rfl rfl
  | fails => exact .of_same rfl rfl rfl rfl

/-! ## Every step keeps the invariant -/

variable [DecidableEq W]

/-- The group of a call stays the same from the log to the memtable. -/
theorem group?_logAppend {g : Group U V W} {status : Status}
    (h : s.logAppend cfg calls w g status = some t) : (t.writes w).group? = some g := by
  obtain ⟨n, -, h⟩ := Option.bind_eq_some_iff.mp h
  obtain ⟨records, -, rfl⟩ := Option.map_eq_some_iff.mp h
  rw [setWrite_self]
  by_cases hok : cfg.ok status = true
  · rw [if_pos hok]
    cases (calls w).sync with
    | true => rfl
    | false => rfl
  · rw [if_neg hok]
    rfl

theorem group?_logSync {g : Group U V W} {status : Status}
    (h : s.logSync cfg w g status = some t) : (t.writes w).group? = some g := by
  obtain ⟨n, -, rfl⟩ := Option.map_eq_some_iff.mp h
  rw [setWrite_self]
  by_cases hok : cfg.ok status = true
  · rw [if_pos hok]
    rfl
  · rw [if_neg hok]
    rfl

theorem group?_memInsert {g : Group U V W} {m : Nat} {e : Entry U V} {rest : List (Entry U V)}
    (h : s.memInsert w g m e rest = some t) : (t.writes w).group? = some g := by
  obtain ⟨memtables, -, rfl⟩ := Option.map_eq_some_iff.mp h
  rw [setWrite_self]
  rfl

theorem group?_insertEnd {g : Group U V W} {rest : List (Entry U V)} {status : Status}
    (h : s.insertEnd w g rest status = some t) : (t.writes w).group? = some g := by
  unfold System.insertEnd at h
  split at h
  · cases h
  · cases h
    rw [setWrite_self]
    rfl

/-- A step of a call does not touch the groups of the others. -/
theorem WriteStep.group?_others {act : WriteAct} (h : WriteStep cfg calls s w act t) {x : W}
    (hx : x ≠ w) : (t.writes x).group? = (s.writes x).group? :=
  WriteCall.group?_congr (h.others hx)

theorem RoomThen.callOk {size : Nat} {e : RoomExit} (h : RoomThen cfg calls s w size e t) :
    CallOk t.db (t.writes w) := by
  cases h with
  | sleeps room =>
    rw [setWrite_self]
    exact .of_none rfl
  | waits room =>
    rw [setWrite_self]
    exact .of_none rfl
  | leads =>
    rw [setWrite_self]
    exact ⟨fun g hg => by cases hg; exact ⟨rfl, rfl⟩, nofun⟩
  | returns =>
    rw [leave_self]
    exact .of_none rfl

theorem GroupsOk.write {act : WriteAct} (h : GroupsOk s) (hq : QueueOk s)
    (hstep : WriteStep cfg calls s w act t) : GroupsOk t := by
  have hothers : ∀ x ≠ w, (t.writes x).unsignalled = (s.writes x).unsignalled :=
    fun x hx => hstep.others hx
  cases hstep with
  | joins =>
    refine h.of_self hothers (Or.inl ⟨rfl, rfl⟩) ?_
    rw [setWrite_self]
    exact .of_none rfl
  | waits =>
    refine h.of_self hothers (Or.inl ⟨rfl, rfl⟩) ?_
    rw [setWrite_self]
    exact .of_none rfl
  | rooms henters hmake hthen =>
    exact h.of_self hothers (Or.inr fun x hx => henters.alone hq hx) hthen.callOk
  | @appends t g status hpc happend =>
    obtain ⟨n, -, happend⟩ := Option.bind_eq_some_iff.mp happend
    obtain ⟨records, -, rfl⟩ := Option.map_eq_some_iff.mp happend
    refine h.of_self hothers (Or.inl ⟨rfl, rfl⟩) ?_
    have hbefore : GroupOk s.db g := (h w).group g (by rw [hpc]; rfl)
    rw [setWrite_self]
    have hgroup : GroupOk { s.db with
        logs := if status = Status.OK then Function.update s.db.logs n (some (records ++ [g.record]))
          else s.db.logs } g := ⟨hbefore.sequence, hbefore.last⟩
    by_cases hok : cfg.ok status = true
    · rw [if_pos hok]
      cases hsync : (calls w).sync with
      | true => exact .of_group hgroup rfl nofun
      | false => exact .starts hgroup
    · rw [if_neg hok]
      exact .of_group hgroup rfl nofun
  | @syncs t g status hpc hsync =>
    obtain ⟨n, -, rfl⟩ := Option.map_eq_some_iff.mp hsync
    refine h.of_self hothers (Or.inl ⟨rfl, rfl⟩) ?_
    have hgroup : GroupOk s.db g := (h w).group g (by rw [hpc]; rfl)
    rw [setWrite_self]
    by_cases hok : cfg.ok status = true
    · rw [if_pos hok]
      exact .starts hgroup
    · rw [if_neg hok]
      exact .of_group hgroup rfl nofun
  | @inserts t g m e rest hpc hinsert =>
    obtain ⟨memtables, -, rfl⟩ := Option.map_eq_some_iff.mp hinsert
    refine h.of_self hothers (Or.inl ⟨rfl, rfl⟩) ?_
    rw [setWrite_self]
    have hgroup : GroupOk s.db g := (h w).group g (by rw [hpc]; rfl)
    obtain ⟨hm, hrest⟩ := (h w).inserts g m (e :: rest) hpc
    refine ⟨fun g' hg' => by cases hg'; exact ⟨hgroup.sequence, hgroup.last⟩,
      fun g' m' rest' heq => ?_⟩
    cases heq
    exact ⟨hm, (List.suffix_cons e rest).trans hrest⟩
  | @ends t g m rest status hpc hend =>
    unfold System.insertEnd at hend
    split at hend
    · cases hend
    · cases hend
      refine h.of_self hothers (Or.inl ⟨rfl, rfl⟩) ?_
      rw [setWrite_self]
      have hgroup : GroupOk s.db g := (h w).group g (by rw [hpc]; rfl)
      exact .of_group hgroup rfl nofun
  | finishes hpc hwriters =>
    refine h.of_self hothers (Or.inr fun x hx hactive => ?_) ?_
    · exact hx (hq.unique hactive (by rw [hpc]; rfl))
    · rw [leave_self]
      exact .of_none rfl

variable [Std.TransCmp cfg.version.icmp]

theorem noInserts_of_step {l : Label U V W N} (hl : ∀ w act, l ≠ .write w act)
    (h : System.step cfg calls s l = some t) : NoInserts s t := by
  cases otherStep_of_step hl h with
  | calls href himm =>
    refine ⟨rfl, rfl, Or.inl rfl, fun m => Or.inl ?_⟩
    exact (RefCounted.Heap.content_refOpt himm m).trans (RefCounted.Heap.content_ref href m)
  | returns _ _ hunref => exact ⟨rfl, rfl, Or.inl rfl, content_unrefCaptured hunref⟩
  | idles => exact NoInserts.endBackground (.of_same rfl rfl rfl rfl)
  | buildFails => exact NoInserts.endBackground (.of_same rfl rfl rfl rfl)
  | finishes _ hdb =>
    have hfinish := hdb.noInserts
    exact NoInserts.endBackground ⟨hfinish.lastSequence, hfinish.mem, hfinish.imm, hfinish.content⟩
  | _ => exact .of_same rfl rfl rfl rfl

/-- **Every step keeps the group in order.** -/
theorem GroupsOk.step (h : GroupsOk s) (hq : QueueOk s) {l : Label U V W N}
    (hstep : System.step cfg calls s l = some t) : GroupsOk t := by
  rcases l.write_or_other with ⟨w, act, rfl⟩ | hl
  · exact h.write hq (writeStep_of_write hq hstep)
  · have hno := noInserts_of_step hl hstep
    intro x
    have hcall := (h x).congr hno.lastSequence hno.mem
    exact hcall.unsignalled ((sameQueue_of_step hl hstep).unsignalled x)

/-! ## Beside a flush -/

def Label.isJob : Label U V W N → Bool
  | .jobStart _ _ => true
  | .jobBuild _ _ => true
  | .jobBuilt _ _ => true
  | .jobWrite _ => true
  | .jobFinish _ _ => true
  | _ => false

omit [DecidableEq W] [Std.TransCmp cfg.version.icmp] in
theorem leavesFlush_of_write (hrefs : ReferencesOk s) (hgroups : GroupsOk s)
    (himm : s.db.imm ≠ none) (h : WriteDb cfg s w t.db) : LeavesFlush s.db t.db := by
  generalize t.db = db at h
  cases h with
  | room heffect =>
    cases heffect with
    | same => exact .refl s.db
    | reused => exact ⟨rfl, fun _ _ => rfl, rfl, rfl, rfl⟩
    | switched hnone => exact absurd hnone himm
  | logged => exact ⟨rfl, fun _ _ => rfl, rfl, rfl, rfl⟩
  | inserted hpc hmod =>
    refine ⟨rfl, fun m hm => ?_, rfl, rfl, rfl⟩
    -- the entry goes into `mem_`, and the flush reads `imm_`
    obtain ⟨hmem, -⟩ := (hgroups w).inserts _ _ _ hpc
    refine RefCounted.Heap.content_modify_ne hmod fun heq => hrefs.apart ?_
    rw [hm, heq, hmem]
  | sequenced => exact ⟨rfl, fun _ _ => rfl, rfl, rfl, rfl⟩

/-- **Writers and readers leave a flush alone.** -/
theorem leavesFlush_of_step (hq : QueueOk s) (hrefs : ReferencesOk s) (hgroups : GroupsOk s)
    (himm : s.db.imm ≠ none) {l : Label U V W N} (hl : l.isJob = false)
    (h : System.step cfg calls s l = some t) : LeavesFlush s.db t.db := by
  have hrefs' := hrefs.step hq h
  cases l with
  | write w act => exact leavesFlush_of_write hrefs hgroups himm (writeStep_of_write hq h).db.1
  | getCall key snapshot =>
    obtain ⟨h₁, h₂, href, himm', rfl⟩ := getCall_eq_some h
    refine ⟨rfl, fun m _ => ?_, rfl, rfl, rfl⟩
    exact (RefCounted.Heap.content_refOpt himm' m).trans (RefCounted.Heap.content_ref href m)
  | getRead i =>
    obtain ⟨g, pc, -, -, rfl⟩ := getRead_eq_some h
    exact .refl s.db
  | getFinish i updated needs =>
    obtain ⟨g, result, stats, memtables, db, -, -, hunref, hscheduled, rfl⟩ := getFinish_eq_some h
    obtain ⟨jobQueue, scheduled, needs', rfl, -⟩ := hscheduled
    refine ⟨rfl, fun m hm => ?_, rfl, rfl, rfl⟩
    -- `imm_` still holds its memtable
    obtain ⟨es, hes⟩ := hrefs'.exact.content_isSome (System.imm_holders hm)
    rcases content_unrefCaptured hunref m with heq | heq
    · exact heq
    · exact absurd (hes.symm.trans heq) nofun
  | jobStart => cases hl
  | jobBuild => cases hl
  | jobBuilt => cases hl
  | jobWrite => cases hl
  | jobFinish => cases hl
  | shutDown =>
    cases h
    exact ⟨rfl, fun _ _ => rfl, rfl, rfl, rfl⟩

end Step

end LevelDB
