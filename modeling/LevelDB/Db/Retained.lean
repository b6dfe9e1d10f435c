import LevelDB.Db.GroupEntries
import LevelDB.Db.Read
import LevelDB.Db.Schedule
import LevelDB.Db.TrivialMove

/-!
# Which entries can be read

A memtable is switched only under a background error, and under one no background work is done. So
from a database without `imm_` no flush ever starts.

* `Job.Moves` — a trivial move, whose version lists the files of the current one;
* `NoFlush` — the jobs are trivial moves, and `imm_` is set only under an error;
* `retains_of_step` — every step keeps what can be read, and adds only entries that are newer than
  `last_sequence_`;
* `retained_of_reaches` — what follows for every run.
-/

set_option autoImplicit false

namespace LevelDB

variable {U V R W : Type} {N : Nat}

/-- `DB::Put`: the batch with one operation. -/
def WriteRequest.put (sync : Bool) (key : U) (value : V) : WriteRequest U V :=
  { updates := some [{ type := .value, key, value }], sync }

/-- A trivial move whose version lists the same files as the current one. -/
def Job.Moves (current : Version (InternalKey U) N) : Job U N → Prop
  | .logging isFlush i _ => isFlush = false ∧ ∀ n, i.v.Lists n ↔ current.Lists n
  | .logged isFlush i _ => isFlush = false ∧ ∀ n, i.v.Lists n ↔ current.Lists n
  | _ => False

structure NoFlush (cfg : DbConfig U V R N) (s : System U V R W N) : Prop where
  imm : s.db.imm ≠ none → cfg.ok s.db.bgError = false
  jobs : ∀ j ∈ s.jobs, j.Moves s.db.versions.current

/-- The steps from `s` to `t` lose nothing that could be read, and add newer entries only. -/
structure Retains (s t : System U V R W N) : Prop where
  keeps : s.db.readEntries ⊆ t.db.readEntries
  adds : ∀ e ∈ t.db.readEntries, e ∈ s.db.readEntries ∨ s.db.versions.lastSequence < e.number

/-! ## The version of a trivial move -/

section Move

variable {icmp : InternalKey U → InternalKey U → Ordering} [Std.TransCmp icmp]
  {v : Version (InternalKey U) N} {level next : Fin N} {f : FileMetaData (InternalKey U)}
  {cp : Fin N → Option (InternalKey U)} {e : VersionEdit (InternalKey U) N}

/-- The builder takes the file from its level and adds it to the next one. -/
theorem lists_survivors (he : Moves e level next f) (hne : level ≠ next)
    (hf : f ∈ v.files level) (n : Nat) :
    ({ files := ((Builder.new icmp cp v).apply e).survivors } : Version (InternalKey U) N).Lists n ↔
      v.Lists n := by
  have hnext : ∀ g, g ∈ ((Builder.new icmp cp v).apply e).survivors next ↔
      g = f.adopted ∨ g ∈ v.files next := by
    intro g
    have hsplit : g ∈ v.files next ↔
        g ∈ (v.files next).takeWhile (fun b => !decide (bySmallestKey icmp f.adopted b)) ∨
          g ∈ (v.files next).dropWhile (fun b => !decide (bySmallestKey icmp f.adopted b)) := by
      rw [← List.mem_append, List.takeWhile_append_dropWhile]
    rw [survivors_next he hne, List.mem_append, List.mem_cons, hsplit]
    tauto
  constructor
  · rintro ⟨l, g, hg, rfl⟩
    have hg : g ∈ ((Builder.new icmp cp v).apply e).survivors l := hg
    by_cases hlevel : l = level
    · rw [hlevel, survivors_level he hne] at hg
      exact ⟨level, g, List.mem_of_mem_filter hg, rfl⟩
    by_cases hl : l = next
    · rw [hl, hnext] at hg
      rcases hg with rfl | hg
      · exact ⟨level, f, hf, (FileMetaData.adopted_number f).symm⟩
      · exact ⟨next, g, hg, rfl⟩
    · rw [survivors_other he hlevel hl] at hg
      exact ⟨l, g, hg, rfl⟩
  · rintro ⟨l, g, hg, rfl⟩
    by_cases hnumber : g.number = f.number
    · exact ⟨next, f.adopted, (hnext _).mpr (Or.inl rfl),
        (FileMetaData.adopted_number f).trans hnumber.symm⟩
    by_cases hlevel : l = level
    · refine ⟨level, g, ?_, rfl⟩
      show g ∈ ((Builder.new icmp cp v).apply e).survivors level
      rw [survivors_level he hne]
      exact List.mem_filter.mpr ⟨hlevel ▸ hg, decide_eq_true hnumber⟩
    by_cases hl : l = next
    · exact ⟨next, g, (hnext g).mpr (Or.inr (hl ▸ hg)), rfl⟩
    · refine ⟨l, g, ?_, rfl⟩
      show g ∈ ((Builder.new icmp cp v).apply e).survivors l
      rw [survivors_other he hlevel hl]
      exact hg

end Move

section Step

variable {cfg : DbConfig U V R N} {calls : W → WriteRequest U V} {s t : System U V R W N} {w : W}

/-- **The version of a trivial move lists the files of the current one.** -/
theorem applyBegin_moves [Std.TransCmp cfg.version.icmp] {db db' : Db U V R N}
    {i : Install (InternalKey U) N} {o : ApplyOutcomes} {level next : Fin N} (hne : level ≠ next)
    {f : FileMetaData (InternalKey U)} (hf : f ∈ db.versions.current.files level)
    (h : applyBegin cfg db (System.moveEdit level next f) o = some (db', i)) (n : Nat) :
    i.v.Lists n ↔ db.versions.current.Lists n := by
  obtain ⟨⟨vs, disk, i'⟩, hbegin, h⟩ := Option.map_eq_some_iff.mp h
  cases h
  obtain ⟨hfill, ⟨v, hsave, hv⟩, -⟩ := logAndApplyBegin_eq_some hbegin
  obtain ⟨-, rfl⟩ := Builder.saveTo_eq_some.mp hsave
  rw [hv]
  exact lists_survivors (moves_of_fillEdit hfill) hne hf n

/-! ## No flush starts -/

/-- The end of a job schedules the next one. -/
theorem NoFlush.endBackground {u : System U V R W N} (h : NoFlush cfg u) :
    NoFlush cfg (u.endBackground cfg) ∧ (u.endBackground cfg).db.imm = u.db.imm ∧
      (u.endBackground cfg).db.versions.current = u.db.versions.current := by
  obtain ⟨db, ⟨jobQueue, scheduled, needs, rfl, -⟩, heq⟩ := endBackground_eq cfg u
  rw [heq]
  exact ⟨⟨h.imm, h.jobs⟩, rfl, rfl⟩

/-- The only job is over. -/
theorem noFlush_endJob (hone : OneJob s) {k : Nat} {j : Job U N} (hk : s.jobs[k]? = some j)
    {db : Db U V R N} (himm : db.imm ≠ none → cfg.ok db.bgError = false) :
    NoFlush cfg (s.endJob cfg k db) ∧ (s.endJob cfg k db).db.imm = db.imm ∧
      (s.endJob cfg k db).db.versions.current = db.versions.current := by
  refine NoFlush.endBackground ⟨himm, fun j' hj' => ?_⟩
  have hj' : j' ∈ s.jobs.eraseIdx k := hj'
  rw [hone.eraseIdx hk] at hj'
  cases hj'

/-- A job that starts is a trivial move. -/
theorem NoFlush.jobStart [Std.TransCmp cfg.version.icmp] (h : NoFlush cfg s)
    {pick : Option (Fin N × Nat)} {o : ApplyOutcomes} (hstep : s.jobStart cfg pick o = some t) :
    NoFlush cfg t ∧ t.db.imm = s.db.imm ∧ t.db.versions.current = s.db.versions.current := by
  unfold System.jobStart at hstep
  split at hstep
  · dsimp only at hstep
    have hkept : NoFlush cfg ({ s with
        db := { s.db with jobQueue := s.db.jobQueue - 1 } } : System U V R W N) := ⟨h.imm, h.jobs⟩
    split at hstep
    · cases hstep
      exact hkept.endBackground
    · rename_i hgo
      unfold System.backgroundCompaction at hstep
      split at hstep
      · -- `imm_` is set only under an error, and then nothing is done
        rename_i himm
        refine absurd (Or.inr ?_) hgo
        have herror : cfg.ok s.db.bgError = false := h.imm himm
        rw [herror]
        exact Bool.false_ne_true
      · split at hstep
        · cases hstep
          exact hkept.endBackground
        · rename_i level index
          unfold System.moveBegin at hstep
          split at hstep
          · rename_i hnext
            obtain ⟨f, hf, hstep⟩ := Option.bind_eq_some_iff.mp hstep
            obtain ⟨⟨db, i⟩, hbegin, rfl⟩ := Option.map_eq_some_iff.mp hstep
            have hne : level ≠ ⟨level.val + 1, hnext⟩ := fun heq =>
              absurd (congrArg Fin.val heq) (Nat.ne_of_lt (Nat.lt_succ_self _))
            have hlists := applyBegin_moves hne (List.mem_of_getElem? hf) hbegin
            obtain ⟨-, -, compactPointer, descriptor, disk, rfl⟩ := applyBegin_eq_some hbegin
            refine ⟨⟨h.imm, fun j hj => ?_⟩, rfl, rfl⟩
            rcases List.mem_append.mp hj with hj | hj
            · exact h.jobs j hj
            · rw [List.mem_singleton.mp hj]
              exact ⟨rfl, hlists⟩
          · cases hstep
  · cases hstep

theorem error_of_record (hok : cfg.ok = Status.isOK) (hrecords : cfg.RecordsFirst) {e : Status}
    (herror : cfg.ok e = false) (status : Status) :
    cfg.ok (cfg.recordBackgroundError e status) = false := by
  cases hrecord : cfg.ok (cfg.recordBackgroundError e status) with
  | false => rfl
  | true =>
    have hgood := ok_of_record hok hrecords hrecord
    rw [herror] at hgood
    cases hgood

/-- The end of a trivial move. -/
theorem moveFinish_keeps (hok : cfg.ok = Status.isOK) (hrecords : cfg.RecordsFirst)
    {db : Db U V R N} {i : Install (InternalKey U) N} {o : ApplyOutcomes} {needs : Bool}
    (hlists : ∀ n, i.v.Lists n ↔ db.versions.current.Lists n) :
    (System.moveFinish cfg db i o needs).imm = db.imm ∧
      (cfg.ok db.bgError = false →
        cfg.ok (System.moveFinish cfg db i o needs).bgError = false) ∧
      ∀ n, (System.moveFinish cfg db i o needs).versions.current.Lists n ↔
        db.versions.current.Lists n := by
  unfold System.moveFinish
  split
  · rename_i hgood
    rw [applyFinish_ok hgood]
    exact ⟨rfl, id, hlists⟩
  · rename_i hfail
    obtain ⟨descriptor, disk, heq⟩ :=
      @applyFinish_error U V R N cfg db i o (by simpa using hfail) needs
    rw [heq]
    exact ⟨rfl, fun herror => error_of_record hok hrecords herror i.s, fun _ => Iff.rfl⟩

variable [DecidableEq W] [Std.TransCmp cfg.version.icmp]

/-- The steps of readers and of background jobs keep `imm_` and the listed files. -/
theorem NoFlush.others (h : NoFlush cfg s) (hok : cfg.ok = Status.isOK)
    (hrecords : cfg.RecordsFirst) (hone : OneJob s) {l : Label U V W N}
    (hl : ∀ w act, l ≠ .write w act) (hstep : System.step cfg calls s l = some t) :
    NoFlush cfg t ∧ t.db.imm = s.db.imm ∧
      ∀ n, t.db.versions.current.Lists n ↔ s.db.versions.current.Lists n := by
  have hnot : ∀ {k : Nat} {j : Job U N}, s.jobs[k]? = some j → j.Moves s.db.versions.current :=
    fun hk => h.jobs _ (List.mem_of_getElem? hk)
  cases l with
  | write w act => exact absurd rfl (hl w act)
  | getCall key snapshot =>
    obtain ⟨h₁, h₂, -, -, rfl⟩ := getCall_eq_some hstep
    exact ⟨⟨h.imm, h.jobs⟩, rfl, fun _ => Iff.rfl⟩
  | getRead i =>
    obtain ⟨g, pc, -, -, rfl⟩ := getRead_eq_some hstep
    exact ⟨⟨h.imm, h.jobs⟩, rfl, fun _ => Iff.rfl⟩
  | getFinish i updated needs =>
    obtain ⟨g, result, stats, memtables, db, -, -, -, ⟨jobQueue, scheduled, needs', rfl, -⟩, rfl⟩ :=
      getFinish_eq_some hstep
    exact ⟨⟨h.imm, h.jobs⟩, rfl, fun _ => Iff.rfl⟩
  | jobStart pick o =>
    obtain ⟨hkept, himm, hcurrent⟩ := h.jobStart hstep
    exact ⟨hkept, himm, fun n => by rw [hcurrent]⟩
  | jobBuild k o =>
    obtain ⟨f, entries, built, hk, -⟩ := jobBuild_eq_some hstep
    exact (hnot hk).elim
  | jobBuilt k o =>
    obtain ⟨f, fileMeta, status, db, next, hk, -⟩ := jobBuilt_eq_some hstep
    exact (hnot hk).elim
  | jobWrite k =>
    obtain ⟨isFlush, i, o, db, i', hk, hwrite, rfl⟩ := jobWrite_eq_some hstep
    obtain ⟨-, hversion, disk, rfl⟩ := applyWrite_eq_some hwrite
    obtain ⟨hmove, hlists⟩ := hnot hk
    refine ⟨⟨h.imm, fun j hj => ?_⟩, rfl, fun _ => Iff.rfl⟩
    rcases List.mem_or_eq_of_mem_set hj with hj | rfl
    · exact h.jobs j hj
    · exact ⟨hmove, by rw [hversion]; exact hlists⟩
  | jobFinish k needs =>
    have hstep : s.jobFinish cfg k needs = some t := hstep
    unfold System.jobFinish at hstep
    split at hstep
    · rename_i i o hk
      exact absurd (hnot hk).1 Bool.false_ne_true.symm
    · rename_i i o hk
      cases hstep
      obtain ⟨himm, herror, hcurrent⟩ := @moveFinish_keeps U V R N cfg hok hrecords s.db i o needs
        (hnot hk).2
      obtain ⟨hflush, himm', hcurrent'⟩ := @noFlush_endJob U V R W N cfg s hone k _ hk
        (System.moveFinish cfg s.db i o needs) fun hne => herror (h.imm (himm ▸ hne))
      exact ⟨hflush, himm'.trans himm, fun n => by rw [hcurrent', hcurrent]⟩
    · cases hstep
  | shutDown =>
    cases hstep
    exact ⟨⟨h.imm, h.jobs⟩, rfl, fun _ => Iff.rfl⟩

/-! ## What can be read -/

omit [DecidableEq W] [Std.TransCmp cfg.version.icmp] in
theorem SameLayers.readEntries {db db' : Db U V R N} (h : SameLayers db db') :
    db'.readEntries = db.readEntries := by
  obtain ⟨hmem, himm, htables⟩ := h.layers
  unfold Db.readEntries
  rw [hmem, himm, htables]

omit [DecidableEq W] [Std.TransCmp cfg.version.icmp] in
/-- A memtable switch makes `mem_` the `imm_` that was missing. -/
theorem readEntries_switch {db db' : Db U V R N} (hentries : ∀ m, db'.entries m = db.entries m)
    (himm : db.imm = none) (himm' : db'.imm = some db.mem) (hempty : db.entries db'.mem = [])
    (htables : db'.tableEntries = db.tableEntries) : db'.readEntries = db.readEntries := by
  unfold Db.readEntries
  rw [htables]
  ext e
  constructor
  · rintro (hmem | ⟨m, hm, he⟩ | htable)
    · have hmem : e ∈ db'.entries db'.mem := hmem
      rw [hentries, hempty] at hmem
      cases hmem
    · obtain rfl := Option.some.inj (himm'.symm.trans hm)
      rw [hentries] at he
      exact Or.inl he
    · exact Or.inr (Or.inr htable)
  · rintro (hmem | ⟨m, hm, -⟩ | htable)
    · have hmem : e ∈ db.entries db.mem := hmem
      refine Or.inr (Or.inl ⟨db.mem, himm', ?_⟩)
      rw [hentries]
      exact hmem
    · rw [himm] at hm
      cases hm
    · exact Or.inr (Or.inr htable)

omit [DecidableEq W] [Std.TransCmp cfg.version.icmp] in
theorem RoomEffect.readEntries {o : CreateOutcome} {db' : Db U V R N} (hrefs : ReferencesOk s)
    (heffect : RoomEffect cfg o s.db db') : db'.readEntries = s.db.readEntries := by
  have hentries := heffect.entries hrefs
  cases heffect with
  | same => rfl
  | reused => exact SameLayers.readEntries ⟨rfl, rfl, rfl, rfl, rfl⟩
  | switched himm =>
    obtain ⟨jobQueue, scheduled, heq⟩ :=
      @switchMemTable_eq U V R N cfg o s.db s.db.versions.nextFileNumber
    have hempty : s.db.entries s.db.nextMem = [] := by
      have hfree : s.db.memtables s.db.nextMem = none :=
        hrefs.exact.free fun hheld => Nat.lt_irrefl _ (hrefs.fresh _ hheld)
      unfold Db.entries RefCounted.Heap.content
      rw [hfree]
      rfl
    rw [heq] at hentries ⊢
    exact readEntries_switch hentries himm rfl hempty rfl

omit [DecidableEq W] [Std.TransCmp cfg.version.icmp] in
theorem Retains.of_eq (h : t.db.readEntries = s.db.readEntries) : Retains s t :=
  ⟨h.symm.subset, fun _ he => Or.inl (h.subset he)⟩

omit [DecidableEq W] [Std.TransCmp cfg.version.icmp] in
/-- A step of a call of `Write` adds at most one entry, of the group in progress. -/
theorem WriteDb.retains (h : WriteDb cfg s w t.db) (hc : Consistent s) : Retains s t := by
  generalize hdb : t.db = db at h
  cases h with
  | room heffect => exact .of_eq (by rw [hdb]; exact heffect.readEntries hc.references)
  | logged => exact .of_eq (by rw [hdb]; exact SameLayers.readEntries ⟨rfl, rfl, rfl, rfl, rfl⟩)
  | @inserted g m e rest memtables hpc hmod =>
    obtain ⟨rfl, hrest⟩ := (hc.groups w).inserts g m (e :: rest) hpc
    have hgroup : GroupOk s.db g := (hc.groups w).group g (by rw [hpc]; rfl)
    have hself := entries_modify hmod
    have himm : ∀ m', s.db.imm = some m' →
        ({ s.db with memtables } : Db U V R N).entries m' = s.db.entries m' :=
      fun m' hm' => entries_modify_ne hmod fun heq => hc.references.apart (heq ▸ hm')
    refine ⟨?_, ?_⟩
    · rw [hdb]
      rintro a (hmem | ⟨m', hm', ha⟩ | htables)
      · refine Or.inl ?_
        show a ∈ ({ s.db with memtables } : Db U V R N).entries s.db.mem
        rw [hself]
        exact List.mem_append_left _ hmem
      · exact Or.inr (Or.inl ⟨m', hm', (himm m' hm').symm ▸ ha⟩)
      · exact Or.inr (Or.inr htables)
    · rw [hdb]
      rintro a (hmem | ⟨m', hm', ha⟩ | htables)
      · have hmem : a ∈ ({ s.db with memtables } : Db U V R N).entries s.db.mem := hmem
        rw [hself] at hmem
        rcases List.mem_append.mp hmem with ha | ha
        · exact Or.inl (Or.inl ha)
        · rw [List.mem_singleton.mp ha]
          exact Or.inr (hgroup.entries (hrest.subset List.mem_cons_self)).1
      · exact Or.inl (Or.inr (Or.inl ⟨m', hm', himm m' hm' ▸ ha⟩))
      · exact Or.inl (Or.inr (Or.inr htables))
  | sequenced =>
    exact .of_eq (by rw [hdb]; exact SameLayers.readEntries ⟨rfl, rfl, rfl, rfl, rfl⟩)

omit [DecidableEq W] [Std.TransCmp cfg.version.icmp] in
/-- Memtables that stay in use and files that stay listed. -/
theorem NoInserts.retains (h : NoInserts s t) (hrefs : ReferencesOk t) (hfiles : KeepsFiles s t)
    (himm : t.db.imm = s.db.imm)
    (hlists : ∀ n, t.db.versions.current.Lists n ↔ s.db.versions.current.Lists n) :
    Retains s t := by
  have hheld : ∀ m ∈ t.holders, t.db.entries m = s.db.entries m := by
    intro m hm
    obtain ⟨es, hes⟩ := hrefs.exact.content_isSome hm
    unfold Db.entries
    rcases h.content m with heq | heq
    · rw [heq]
    · exact absurd (hes.symm.trans heq) nofun
  have hshrinks := h.shrinks hfiles
  refine ⟨?_, fun e he => Or.inl (he.imp (fun hm => hshrinks.mem hm)
    (Or.imp (fun hm => hshrinks.imm hm) fun hm => hshrinks.tables hm))⟩
  rintro e (hmem | ⟨m, hm, he⟩ | ⟨n, hn, es, hes, he⟩)
  · refine Or.inl ?_
    show e ∈ t.db.entries t.db.mem
    rw [hheld _ t.mem_holders, h.mem]
    exact hmem
  · have hm' : t.db.imm = some m := himm.trans hm
    refine Or.inr (Or.inl ⟨m, hm', ?_⟩)
    rw [hheld m]
    · exact he
    · unfold System.holders
      rw [hm']
      exact List.mem_cons_of_mem _ List.mem_cons_self
  · refine Or.inr (Or.inr ⟨n, (hlists n).mpr hn, es, ?_, he⟩)
    rw [hfiles.tables _ List.mem_cons_self n ((hlists n).mpr hn)]
    exact hes

/-! ## Every step -/

omit [DecidableEq W] [Std.TransCmp cfg.version.icmp] in
/-- Without an error the loop of `MakeRoomForWrite` is left at once. -/
theorem makeRoom_good {o : CreateOutcome} {db : Db U V R N} (hgood : cfg.ok db.bgError = true)
    (room : Room) : makeRoom cfg o db room = some (db, .returns db.bgError) := by
  unfold makeRoom roomLoop roomPass
  rw [if_pos hgood]

omit [DecidableEq W] [Std.TransCmp cfg.version.icmp] in
/-- A memtable is switched only under a background error. -/
theorem makeRoom_noFlush {o : CreateOutcome} {db db' : Db U V R N} {room : Room} {e : RoomExit}
    (h : makeRoom cfg o db room = some (db', e)) :
    (db'.imm = db.imm ∧ db'.mem = db.mem ∨ cfg.ok db'.bgError = false) ∧
      db'.bgError = db.bgError ∧ db'.versions.current = db.versions.current := by
  have hpass : ∀ {p : RoomPass}, PassEnds cfg o db room db' p →
      (db'.imm = db.imm ∧ db'.mem = db.mem ∨ cfg.ok db'.bgError = false) ∧
        db'.bgError = db.bgError ∧ db'.versions.current = db.versions.current := by
    intro p hp
    cases hp with
    | switched herror =>
      obtain ⟨jobQueue, scheduled, heq⟩ :=
        @switchMemTable_eq U V R N cfg o db db.versions.nextFileNumber
      rw [heq]
      exact ⟨Or.inr herror, rfl, rfl⟩
    | _ => exact ⟨Or.inl ⟨rfl, rfl⟩, rfl, rfl⟩
  rcases makeRoom_ends h with hp | ⟨room', hp, -⟩
  · exact hpass hp
  · exact hpass hp

omit [Std.TransCmp cfg.version.icmp] in
theorem NoFlush.write (h : NoFlush cfg s) (hok : cfg.ok = Status.isOK)
    (hrecords : cfg.RecordsFirst) {act : WriteAct} (hstep : WriteStep cfg calls s w act t) :
    NoFlush cfg t := by
  have hjobs := hstep.db.2.2
  have hsame : ∀ {db : Db U V R N}, t.db = db →
      (db.imm = s.db.imm ∧ (cfg.ok s.db.bgError = false → cfg.ok db.bgError = false) ∨
        cfg.ok db.bgError = false) → db.versions.current = s.db.versions.current →
      NoFlush cfg t := by
    rintro db rfl himm hcurrent
    refine ⟨fun hne => ?_, fun j hj => ?_⟩
    · rcases himm with ⟨heq, herror⟩ | herror
      · exact herror (h.imm (heq ▸ hne))
      · exact herror
    · rw [hcurrent]
      exact h.jobs j (hjobs ▸ hj)
  cases hstep with
  | joins => exact hsame rfl (Or.inl ⟨rfl, id⟩) rfl
  | waits => exact hsame rfl (Or.inl ⟨rfl, id⟩) rfl
  | @rooms act s₁ t room o size db e henters hmake hthen =>
    obtain ⟨himm, herror, hcurrent⟩ := makeRoom_noFlush hmake
    refine hsame hthen.keeps.1 ?_ hcurrent
    exact himm.imp_left fun heq => ⟨heq.1, fun hold => by rw [← hold, ← herror]⟩
  | appends hpc happend =>
    obtain ⟨n, -, happend⟩ := Option.bind_eq_some_iff.mp happend
    obtain ⟨records, -, rfl⟩ := Option.map_eq_some_iff.mp happend
    exact hsame rfl (Or.inl ⟨rfl, id⟩) rfl
  | syncs hpc hsync =>
    obtain ⟨n, -, rfl⟩ := Option.map_eq_some_iff.mp hsync
    exact hsame rfl (Or.inl ⟨rfl, id⟩) rfl
  | inserts hpc hinsert =>
    obtain ⟨memtables, -, rfl⟩ := Option.map_eq_some_iff.mp hinsert
    exact hsame rfl (Or.inl ⟨rfl, id⟩) rfl
  | ends hpc hend =>
    unfold System.insertEnd at hend
    split at hend
    · cases hend
    · cases hend
      exact hsame rfl (Or.inl ⟨rfl, id⟩) rfl
  | @finishes g status syncError rest hpc hwriters =>
    obtain ⟨writes, heq⟩ := finish_keeps cfg s w g status syncError rest
    refine hsame (congrArg System.db heq) (Or.inl ⟨rfl, fun herror => ?_⟩) rfl
    cases syncError with
    | false => exact herror
    | true => exact error_of_record hok hrecords herror status

theorem NoFlush.step (h : NoFlush cfg s) (hok : cfg.ok = Status.isOK)
    (hrecords : cfg.RecordsFirst) (hc : Consistent s) {l : Label U V W N}
    (hstep : System.step cfg calls s l = some t) : NoFlush cfg t := by
  rcases l.write_or_other with ⟨w, act, rfl⟩ | hl
  · exact h.write hok hrecords (writeStep_of_write hc.queue hstep)
  · exact (h.others hok hrecords hc.files.oneJob hl hstep).1

/-- **Every step keeps what can be read.** -/
theorem retains_of_step (h : NoFlush cfg s) (hok : cfg.ok = Status.isOK)
    (hrecords : cfg.RecordsFirst) (hreuses : cfg.ReusesLast) (hkeeps : cfg.KeepsLive)
    (hc : Consistent s) {l : Label U V W N} (hstep : System.step cfg calls s l = some t) :
    Retains s t := by
  rcases l.write_or_other with ⟨w, act, rfl⟩ | hl
  · exact (writeStep_of_write hc.queue hstep).db.1.retains hc
  · obtain ⟨-, himm, hlists⟩ := h.others hok hrecords hc.files.oneJob hl hstep
    exact (noInserts_of_step hl hstep).retains (hc.references.step hc.queue hstep)
      (keepsFiles_of_step hc.files hc.queue hreuses hkeeps hstep) himm hlists

omit [DecidableEq W] [Std.TransCmp cfg.version.icmp] in
theorem Opened.noFlush (hopened : Opened s) (himm : s.db.imm = none) : NoFlush cfg s where
  imm hne := absurd himm hne
  jobs := by
    rw [hopened.jobs]
    exact fun j hj => absurd hj List.not_mem_nil

omit [DecidableEq W] [Std.TransCmp cfg.version.icmp] in
theorem Retains.trans {u : System U V R W N} (first : Retains s t) (second : Retains t u)
    (hle : s.db.versions.lastSequence ≤ t.db.versions.lastSequence) : Retains s u := by
  refine ⟨first.keeps.trans second.keeps, fun e he => ?_⟩
  rcases second.adds e he with hold | hnew
  · exact first.adds e hold
  · exact Or.inr (lt_of_le_of_lt hle hnew)

/-- Without an error the memtable is not switched. -/
theorem mem_of_step (hc : Consistent s) {l : Label U V W N}
    (hstep : System.step cfg calls s l = some t) (hgood : cfg.ok t.db.bgError = true) :
    t.db.mem = s.db.mem := by
  rcases l.write_or_other with ⟨w, act, rfl⟩ | hl
  · cases writeStep_of_write hc.queue hstep with
    | joins => rfl
    | waits => rfl
    | @rooms act s₁ t room o size db e henters hmake hthen =>
      rw [hthen.keeps.1] at hgood ⊢
      rcases (makeRoom_noFlush hmake).1 with ⟨-, hmem⟩ | herror
      · exact hmem
      · have hgood : cfg.ok db.bgError = true := hgood
        rw [herror] at hgood
        cases hgood
    | appends hpc happend =>
      obtain ⟨n, -, happend⟩ := Option.bind_eq_some_iff.mp happend
      obtain ⟨records, -, rfl⟩ := Option.map_eq_some_iff.mp happend
      rfl
    | syncs hpc hsync =>
      obtain ⟨n, -, rfl⟩ := Option.map_eq_some_iff.mp hsync
      rfl
    | inserts hpc hinsert =>
      obtain ⟨memtables, -, rfl⟩ := Option.map_eq_some_iff.mp hinsert
      rfl
    | ends hpc hend =>
      unfold System.insertEnd at hend
      split at hend
      · cases hend
      · cases hend
        rfl
    | @finishes g status syncError rest hpc hwriters =>
      obtain ⟨writes, heq⟩ := finish_keeps cfg s w g status syncError rest
      rw [heq]
  · exact (noInserts_of_step hl hstep).mem

omit [DecidableEq W] [Std.TransCmp cfg.version.icmp] in
/-- Background errors stay. -/
theorem good_of_errorFrom (hok : cfg.ok = Status.isOK) (hrecords : cfg.RecordsFirst)
    {db db' : Db U V R N} (h : ErrorFrom cfg db db') (hgood : cfg.ok db'.bgError = true) :
    cfg.ok db.bgError = true := by
  rcases h with heq | ⟨status, heq⟩
  · rw [← heq]
    exact hgood
  · rw [heq] at hgood
    exact ok_of_record hok hrecords hgood

theorem good_of_step (hok : cfg.ok = Status.isOK) (hrecords : cfg.RecordsFirst) (hq : QueueOk s)
    {l : Label U V W N} (hstep : System.step cfg calls s l = some t)
    (hgood : cfg.ok t.db.bgError = true) : cfg.ok s.db.bgError = true :=
  good_of_errorFrom hok hrecords (errorFrom_of_step hq hstep) hgood

/-- **Nothing is lost, because nothing is flushed.** In every run from a database without `imm_` in
which the compactions are trivial moves: as long as there is no background error all entries go into
the memtable of the start; no flush starts, so that all jobs are such moves; and whatever could be
read can be read for ever. -/
theorem retained_of_reaches (hok : cfg.ok = Status.isOK) (hrecords : cfg.RecordsFirst)
    (hreuses : cfg.ReusesLast) (hkeeps : cfg.KeepsLive) (hopened : Opened s)
    (himm : s.db.imm = none) (run : Transition.Reaches (System.step cfg calls) s t) :
    (cfg.ok t.db.bgError = true → t.db.mem = s.db.mem ∧ t.db.imm = none) ∧
      (∀ j ∈ t.jobs, j.Moves t.db.versions.current) ∧ Retains s t := by
  obtain ⟨-, hflush, hmem, -, hretains⟩ := run.invariant
    (I := fun u => Consistent u ∧ NoFlush cfg u ∧
      (cfg.ok u.db.bgError = true → u.db.mem = s.db.mem) ∧
      s.db.versions.lastSequence ≤ u.db.versions.lastSequence ∧ Retains s u)
    (fun {u v l} ⟨hc, hflush, hmem, hle, hretains⟩ _ hstep => by
      refine ⟨hc.step hreuses hkeeps hstep, hflush.step hok hrecords hc hstep, fun hgood => ?_,
        le_trans hle (evolves_of_step hc hstep).lastSequence,
        hretains.trans (retains_of_step hflush hok hrecords hreuses hkeeps hc hstep) hle⟩
      rw [mem_of_step hc hstep hgood]
      exact hmem (good_of_step hok hrecords hc.queue hstep hgood))
    ⟨hopened.consistent, hopened.noFlush himm, fun _ => rfl, le_refl _, .of_eq rfl⟩
  refine ⟨fun hgood => ⟨hmem hgood, ?_⟩, hflush.jobs, hretains⟩
  by_contra hne
  have herror := hflush.imm hne
  rw [hgood] at herror
  cases herror

end Step

/-- One table at level 0, which maps 7 to 70, an empty memtable, and a job that is queued. -/
def tableSystem : System Nat Nat (VersionEdit (InternalKey Nat) 2) Nat 2 where
  db :=
    { flushDb with
      imm := none
      hasImm := false
      memtables := fun
        | 1 => some { content := [], refs := 1 }
        | _ => none
      versions := { flushDb.versions with
        nextFileNumber := 6
        current := { files := fun level => if level.val = 0 then [rangeFile 5 7 7] else [] } }
      tables := fun
        | 5 => some [⟨⟨7, 1, .value⟩, 70⟩]
        | _ => none
      backgroundCompactionScheduled := true
      jobQueue := 1 }

theorem tableSystem_lists {n : Nat} (h : tableSystem.db.versions.current.Lists n) : n = 5 := by
  obtain ⟨level, f, hf, rfl⟩ := h
  have hf : f ∈ if level.val = 0 then [rangeFile 5 7 7] else [] := hf
  split at hf
  · rw [List.mem_singleton.mp hf]
    rfl
  · cases hf

theorem tableSystem_opened : Opened tableSystem where
  writers := rfl
  writes _ := rfl
  done _ := rfl
  gets := rfl
  jobs := rfl
  appended := rfl
  inserted := rfl
  queued := rfl
  exact a := by
    match a with
    | 0 => rfl
    | 1 => rfl
    | a + 2 =>
      have hcount : List.count (a + 2) (tableSystem.db.mem :: tableSystem.db.imm.toList) = 0 := by
        refine List.count_eq_zero.mpr ?_
        show a + 2 ∉ [1]
        simp
      rw [hcount]
      rfl
  fresh a ha := by
    have ha : a ∈ [1] := ha
    rw [List.mem_singleton.mp ha]
    exact Nat.lt_succ_self 1
  apart := nofun
  below n hn := by
    rw [tableSystem_lists hn]
    exact Nat.lt_succ_self 5
  onDisk n hn := by
    rw [tableSystem_lists hn]
    exact nofun

/-- Every call puts key 7. -/
def putCalls (w : Nat) : WriteRequest Nat Nat := WriteRequest.put false 7 (71 + w)

/-- A job moves the table to level 1 while a call puts its key. -/
def moveRun : List (Label Nat Nat Nat 2) :=
  [.jobStart (some (⟨0, Nat.zero_lt_two⟩, 0)) {}, .write 0 (.call {} 1), .write 0 (.append .OK),
    .jobWrite 0, .write 0 .insert, .write 0 (.insertEnd .OK), .write 0 .finish, .jobFinish 0 false]

/-- The job moves the table while the call puts its key into the memtable of the start. -/
theorem retained_of_reaches_move :
    ∃ t, Transition.exec (System.step natDb putCalls) moveRun tableSystem = some t ∧
      (t.db.mem = 1 ∧ t.db.imm = none) ∧ (∀ j ∈ t.jobs, j.Moves t.db.versions.current) ∧
      Retains tableSystem t := by
  obtain ⟨t, ht, hgood⟩ : ∃ t, Transition.exec (System.step natDb putCalls) moveRun tableSystem =
      some t ∧ natDb.ok t.db.bgError = true := ⟨_, rfl, rfl⟩
  obtain ⟨hmem, hjobs, hretains⟩ := retained_of_reaches rfl natDb_records natDb_reuses
    natDb_keepsLive tableSystem_opened rfl (Transition.Run.of_exec ht)
  exact ⟨t, ht, hmem hgood, hjobs, hretains⟩

end LevelDB
