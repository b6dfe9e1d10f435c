import LevelDB.Db.Queue

/-!
# References to memtables

A memtable is held by `mem_`, by `imm_`, and by every call of `Get` that captured it and has not
returned.

* `ReferencesOk.step` — every step of every thread keeps the counts exact, so that no memtable is
  used after it was deleted;
* `getRead_isSome`, `getFinish_isSome` — hence a call of `Get` never gets stuck.
-/

set_option autoImplicit false

namespace LevelDB

variable {U V R W : Type} {N : Nat}

/-- The memtables that a call of `Get` holds. -/
def GetCall.held (g : GetCall U V N) : List Nat := if g.active then g.mem :: g.imm.toList else []

def System.holders (s : System U V R W N) : List Nat :=
  s.db.mem :: (s.db.imm.toList ++ s.gets.flatMap GetCall.held)

/-- The counts are exact, addresses are given out in order, and the two memtables are different. -/
structure ReferencesOk (s : System U V R W N) : Prop where
  exact : s.db.memtables.Exact s.holders
  fresh : ∀ a ∈ s.holders, a < s.db.nextMem
  apart : s.db.imm ≠ some s.db.mem

theorem System.mem_holders (s : System U V R W N) : s.db.mem ∈ s.holders := List.mem_cons_self

theorem System.imm_holders {s : System U V R W N} {m : Nat} (h : s.db.imm = some m) :
    m ∈ s.holders := by
  unfold holders
  rw [h]
  exact List.mem_cons_of_mem _ List.mem_cons_self

theorem System.held_holders {s : System U V R W N} {i : Nat} {g : GetCall U V N}
    (hg : s.gets[i]? = some g) {a : Nat} (ha : a ∈ g.held) : a ∈ s.holders := by
  unfold holders
  refine List.mem_cons_of_mem _ (List.mem_append_right _ ?_)
  exact List.mem_flatMap.mpr ⟨g, List.mem_of_getElem? hg, ha⟩

/-- Nothing that counts references changes. -/
structure SameReferences (s t : System U V R W N) : Prop where
  mem : t.db.mem = s.db.mem
  imm : t.db.imm = s.db.imm
  memtables : t.db.memtables = s.db.memtables
  nextMem : t.db.nextMem = s.db.nextMem
  gets : t.gets = s.gets

theorem ReferencesOk.congr {s t : System U V R W N} (h : ReferencesOk s)
    (hsame : SameReferences s t) : ReferencesOk t := by
  have hholders : t.holders = s.holders := by
    unfold System.holders
    rw [hsame.mem, hsame.imm, hsame.gets]
  refine ⟨?_, ?_, ?_⟩
  · rw [hsame.memtables, hholders]
    exact h.exact
  · rw [hholders, hsame.nextMem]
    exact h.fresh
  · rw [hsame.mem, hsame.imm]
    exact h.apart

section Step

variable {cfg : DbConfig U V R N} {s t : System U V R W N}

/-! ## Write -/

theorem ReferencesOk.room {o : CreateOutcome} (h : ReferencesOk s)
    (heffect : RoomEffect cfg o s.db t.db) (hgets : t.gets = s.gets) : ReferencesOk t := by
  generalize hdb : t.db = db at heffect
  cases heffect with
  | same => exact h.congr ⟨by rw [hdb], by rw [hdb], by rw [hdb], by rw [hdb], hgets⟩
  | reused => exact h.congr ⟨by rw [hdb]; rfl, by rw [hdb]; rfl, by rw [hdb]; rfl, by rw [hdb]; rfl,
      hgets⟩
  | switched himm =>
    obtain ⟨jobQueue, scheduled, heq⟩ :=
      @switchMemTable_eq U V R N cfg o s.db s.db.versions.nextFileNumber
    rw [heq] at hdb
    have hholders : t.holders = s.db.nextMem :: s.holders := by
      unfold System.holders
      rw [hdb, hgets, himm]
      rfl
    have hnew : s.db.nextMem ∉ s.holders := fun hmem => Nat.lt_irrefl _ (h.fresh _ hmem)
    refine ⟨?_, fun a ha => ?_, ?_⟩
    · rw [hholders, hdb]
      exact h.exact.alloc hnew []
    · rw [hdb]
      show a < s.db.nextMem + 1
      rw [hholders] at ha
      rcases List.mem_cons.mp ha with rfl | ha
      · omega
      · have hlt := h.fresh a ha
        omega
    · rw [hdb]
      intro heq
      have hlt := h.fresh s.db.mem s.mem_holders
      rw [Option.some.inj heq] at hlt
      exact Nat.lt_irrefl _ hlt

theorem ReferencesOk.write {w : W} (h : ReferencesOk s) (hdb : WriteDb cfg s w t.db)
    (hgets : t.gets = s.gets) : ReferencesOk t := by
  generalize ht : t.db = db at hdb
  cases hdb with
  | @room o db heffect => exact h.room (o := o) (by rw [ht]; exact heffect) hgets
  | logged => exact h.congr ⟨by rw [ht], by rw [ht], by rw [ht], by rw [ht], hgets⟩
  | @inserted g m e rest memtables hpc hmod =>
    have hholders : t.holders = s.holders := by
      unfold System.holders
      rw [ht, hgets]
    refine ⟨?_, ?_, ?_⟩
    · rw [hholders, ht]
      exact h.exact.modify hmod
    · rw [hholders, ht]
      exact h.fresh
    · rw [ht]
      exact h.apart
  | sequenced => exact h.congr ⟨by rw [ht], by rw [ht], by rw [ht], by rw [ht], hgets⟩

/-! ## Get -/

theorem active_of_pc {g : GetCall U V N} {pc : GetPc U V N} (hpc : g.pc = pc)
    (h : ∀ result, pc ≠ .returned result) : g.active = true := by
  unfold GetCall.active
  rw [hpc]
  split
  · rename_i result
    exact absurd rfl (h result)
  · rfl

/-- A read does not end the call. -/
theorem readPc_active {db : Db U V R N} {g : GetCall U V N} {pc : GetPc U V N}
    (h : System.readPc cfg db g = some pc) :
    g.active = true ∧ ({ g with pc } : GetCall U V N).active = true := by
  unfold System.readPc at h
  split at h
  · rename_i hpc
    obtain ⟨es, -, rfl⟩ := Option.map_eq_some_iff.mp h
    refine ⟨active_of_pc hpc (by nofun), ?_⟩
    cases hanswer : cfg.memTableGet es g.lookup with
    | some r => rfl
    | none =>
      cases himm : g.imm with
      | some m => rfl
      | none => rfl
  · rename_i hpc
    obtain ⟨m, -, h⟩ := Option.bind_eq_some_iff.mp h
    obtain ⟨es, -, rfl⟩ := Option.map_eq_some_iff.mp h
    refine ⟨active_of_pc hpc (by nofun), ?_⟩
    cases hanswer : cfg.memTableGet es g.lookup with
    | some r => rfl
    | none => rfl
  · rename_i state hpc
    cases h
    exact ⟨active_of_pc hpc (by nofun), rfl⟩
  · rename_i level f rest state hpc
    cases h
    refine ⟨active_of_pc hpc (by nofun), active_of_pc rfl fun result => ?_⟩
    show System.searchFile cfg db g level f rest state ≠ .returned result
    unfold System.searchFile
    dsimp only
    split
    · nofun
    · nofun
  · cases h

theorem held_of_active {g : GetCall U V N} (h : g.active = true) :
    g.held = g.mem :: g.imm.toList := if_pos h

theorem ReferencesOk.getCall {key : U} {snapshot : Option Nat} (h : ReferencesOk s)
    (hcall : s.getCall key snapshot = some t) : ReferencesOk t := by
  obtain ⟨h₁, h₂, href, himm, rfl⟩ := getCall_eq_some hcall
  obtain ⟨h₁', href', hexact₁⟩ := h.exact.ref s.mem_holders
  obtain rfl := Option.some.inj (href.symm.trans href')
  obtain ⟨h₂', himm', hexact₂⟩ := hexact₁.refOpt (p := s.db.imm)
    fun a ha => List.mem_cons_of_mem _ (System.imm_holders ha)
  obtain rfl := Option.some.inj (himm.symm.trans himm')
  have hperm : ∀ g : GetCall U V N, g.held = s.db.mem :: s.db.imm.toList →
      (s.db.imm.toList ++ s.db.mem :: s.holders).Perm
        (s.db.mem :: (s.db.imm.toList ++ (s.gets ++ [g]).flatMap GetCall.held)) := by
    intro g hg
    rw [List.flatMap_append, List.flatMap_singleton, hg, ← List.append_assoc, ← List.cons_append]
    refine List.Perm.trans ?_ List.perm_append_comm
    exact List.perm_middle
  refine ⟨hexact₂.perm (hperm _ rfl), fun a ha => ?_, h.apart⟩
  have ha := (hperm _ rfl).mem_iff.mpr ha
  refine h.fresh a ?_
  rcases List.mem_append.mp ha with ha | ha
  · exact System.imm_holders (Option.mem_toList.mp ha)
  · rcases List.mem_cons.mp ha with rfl | ha
    · exact s.mem_holders
    · exact ha

/-- A call of `Get` goes on without taking or giving up references. -/
theorem ReferencesOk.getRead {i : Nat} (h : ReferencesOk s) (hread : s.getRead cfg i = some t) :
    ReferencesOk t := by
  obtain ⟨g, pc, hg, hpc, rfl⟩ := getRead_eq_some hread
  obtain ⟨hactive, hactive'⟩ := readPc_active hpc
  have hsame : ({ g with pc } : GetCall U V N).held = g.held := by
    rw [held_of_active hactive, held_of_active hactive']
  have hperm : (s.gets.flatMap GetCall.held).Perm
      ((s.gets.set i { g with pc }).flatMap GetCall.held) := by
    have hset := RefCounted.Heap.flatMap_set_perm GetCall.held
      (y := ({ g with pc } : GetCall U V N)) hg
    rw [hsame] at hset
    exact (List.perm_append_left_iff _).mp hset
  have hholders : s.holders.Perm ({ s with gets := s.gets.set i { g with pc } } :
      System U V R W N).holders := (hperm.append_left _).cons _
  exact ⟨h.exact.perm hholders, fun a ha => h.fresh a (hholders.mem_iff.mpr ha), h.apart⟩

/-- The holders before the end of a call are its references and the holders after. -/
theorem holders_perm {i : Nat} {g : GetCall U V N} (hg : s.gets[i]? = some g)
    (hheld : g.held = g.mem :: g.imm.toList) (result : GetResult V) :
    s.holders.Perm (g.mem :: (g.imm.toList ++ (s.db.mem :: (s.db.imm.toList ++
      (s.gets.set i { g with pc := .returned result }).flatMap GetCall.held)))) := by
  have hset := RefCounted.Heap.flatMap_set_perm GetCall.held
    (y := ({ g with pc := .returned result } : GetCall U V N)) hg
  rw [hheld] at hset
  have hrest : (s.db.mem :: s.db.imm.toList ++ s.gets.flatMap GetCall.held).Perm
      (s.db.mem :: s.db.imm.toList ++ ((g.mem :: g.imm.toList) ++
        (s.gets.set i { g with pc := .returned result }).flatMap GetCall.held)) :=
    hset.append_left _
  refine hrest.trans ?_
  rw [← List.append_assoc]
  exact (List.perm_append_comm.append_right _).trans (List.Perm.of_eq (by simp))

theorem ReferencesOk.getFinish {i : Nat} {updated needs : Bool} (h : ReferencesOk s)
    (hfinish : s.getFinish cfg i updated needs = some t) : ReferencesOk t := by
  obtain ⟨g, result, stats, memtables, db, hg, hpc, hunref, hscheduled, rfl⟩ :=
    getFinish_eq_some hfinish
  obtain ⟨jobQueue, scheduled, needs', rfl, -⟩ := hscheduled
  have hheld : g.held = g.mem :: g.imm.toList := held_of_active (active_of_pc hpc nofun)
  have hholders := holders_perm hg hheld result
  have hexact := h.exact.perm hholders
  obtain ⟨h₁, hmem, hunref⟩ := Option.bind_eq_some_iff.mp hunref
  obtain ⟨h₁', hmem', hexact₁⟩ := hexact.unref
  obtain rfl := Option.some.inj (hmem.symm.trans hmem')
  obtain ⟨h₂', hunref', hexact₂⟩ := hexact₁.unrefOpt
  obtain rfl := Option.some.inj (hunref.symm.trans hunref')
  refine ⟨hexact₂, fun a ha => h.fresh a (hholders.mem_iff.mpr ?_), h.apart⟩
  exact List.mem_cons_of_mem _ (List.mem_append_right _ ha)

/-- A call that holds its memtables can take its next step: it is looking for the key, -/
theorem ReferencesOk.getRead_isSome {i : Nat} {g : GetCall U V N} (h : ReferencesOk s)
    (hg : s.gets[i]? = some g) (himm : g.pc = .inImm → g.imm ≠ none)
    (hlock : ∀ result stats, g.pc ≠ .relocking result stats)
    (hreturned : ∀ result, g.pc ≠ .returned result) : ∃ t, s.getRead cfg i = some t := by
  have hheld : g.held = g.mem :: g.imm.toList := held_of_active (active_of_pc rfl hreturned)
  have hread : ∃ pc, System.readPc cfg s.db g = some pc := by
    unfold System.readPc
    split
    · obtain ⟨es, hes⟩ := h.exact.content_isSome (a := g.mem)
        (System.held_holders hg (by rw [hheld]; exact List.mem_cons_self))
      rw [hes]
      exact ⟨_, rfl⟩
    · rename_i hpc
      obtain ⟨m, hm⟩ := Option.ne_none_iff_exists'.mp (himm hpc)
      obtain ⟨es, hes⟩ := h.exact.content_isSome (a := m) (System.held_holders hg
        (by rw [hheld, hm]; exact List.mem_cons_of_mem _ List.mem_cons_self))
      rw [hm, Option.bind_some, hes]
      exact ⟨_, rfl⟩
    · exact ⟨_, rfl⟩
    · exact ⟨_, rfl⟩
    · rename_i hmem himm' hdone hfile
      cases hpc : g.pc with
      | inMem => exact absurd hpc hmem
      | inImm => exact absurd hpc himm'
      | inTables rest state =>
        cases rest with
        | nil => exact absurd hpc (hdone state)
        | cons f rest => exact absurd hpc (hfile f.1 f.2 rest state)
      | relocking result stats => exact absurd hpc (hlock result stats)
      | returned result => exact absurd hpc (hreturned result)
  obtain ⟨pc, hpc⟩ := hread
  exact ⟨_, by unfold System.getRead; rw [hg, Option.bind_some, hpc]; rfl⟩

/-- or it gives up its references. -/
theorem ReferencesOk.getFinish_isSome {i : Nat} {g : GetCall U V N} {result : GetResult V}
    {stats : Option (GetStats U N)} (h : ReferencesOk s) (hg : s.gets[i]? = some g)
    (hpc : g.pc = .relocking result stats) (updated needs : Bool) :
    ∃ t, s.getFinish cfg i updated needs = some t := by
  have hexact := h.exact.perm (holders_perm hg (held_of_active (active_of_pc hpc nofun)) result)
  obtain ⟨h₁, hmem, hexact₁⟩ := hexact.unref
  obtain ⟨h₂, himm, -⟩ := hexact₁.unrefOpt
  unfold System.getFinish System.unrefCaptured
  rw [hg, Option.bind_some, hpc]
  dsimp only
  rw [hmem, Option.bind_some, himm]
  exact ⟨_, rfl⟩

/-! ## Background jobs -/

theorem ReferencesOk.endBackground (h : ReferencesOk s) :
    ReferencesOk (s.endBackground cfg) := by
  obtain ⟨db, ⟨jobQueue, scheduled, needs, rfl, -⟩, heq⟩ := endBackground_eq cfg s
  rw [heq]
  exact h.congr ⟨rfl, rfl, rfl, rfl, rfl⟩

theorem ReferencesOk.dropImm (h : ReferencesOk s) {m : Nat}
    {memtables : RefCounted.Heap (MemTable U V)} (himm : s.db.imm = some m)
    (hunref : s.db.memtables.unref m = some memtables) :
    ReferencesOk { s with db := { s.db with memtables, imm := none, hasImm := false } } := by
  have hholders : s.holders.Perm (m :: (s.db.mem :: s.gets.flatMap GetCall.held)) := by
    unfold System.holders
    rw [himm]
    exact List.Perm.swap _ _ _
  obtain ⟨h₁, hunref', hexact⟩ := (h.exact.perm hholders).unref
  obtain rfl := Option.some.inj (hunref.symm.trans hunref')
  exact ⟨hexact, fun a ha => h.fresh a (hholders.mem_iff.mpr (List.mem_cons_of_mem _ ha)), nofun⟩

theorem JobEnds.references {i : Install (InternalKey U) N} {db : Db U V R N}
    (hdb : JobEnds cfg s i db) (h : ReferencesOk s) : ReferencesOk { s with db } := by
  cases hdb with
  | flushed himm hunref => exact (h.dropImm himm hunref).congr ⟨rfl, rfl, rfl, rfl, rfl⟩
  | moved => exact h.congr ⟨rfl, rfl, rfl, rfl, rfl⟩
  | fails => exact h.congr ⟨rfl, rfl, rfl, rfl, rfl⟩

variable [DecidableEq W] [Std.TransCmp cfg.version.icmp] {calls : W → WriteRequest U V}

/-- **Every step keeps the counts exact.** -/
theorem ReferencesOk.step (h : ReferencesOk s) (hq : QueueOk s) {l : Label U V W N}
    (hstep : System.step cfg calls s l = some t) : ReferencesOk t := by
  rcases l.write_or_other with ⟨w, act, rfl⟩ | hl
  · obtain ⟨hdb, hgets, -⟩ := (writeStep_of_write hq hstep).db
    exact h.write hdb hgets
  cases otherStep_of_step hl hstep with
  | calls => exact h.getCall hstep
  | reads => exact h.getRead hstep
  | returns => exact h.getFinish hstep
  | idles =>
    refine ReferencesOk.endBackground ?_
    exact h.congr ⟨rfl, rfl, rfl, rfl, rfl⟩
  | buildFails =>
    refine ReferencesOk.endBackground ?_
    exact h.congr ⟨rfl, rfl, rfl, rfl, rfl⟩
  | finishes _ hdb =>
    refine ReferencesOk.endBackground ?_
    exact (hdb.references h).congr ⟨rfl, rfl, rfl, rfl, rfl⟩
  | _ => exact h.congr ⟨rfl, rfl, rfl, rfl, rfl⟩

end Step

end LevelDB
