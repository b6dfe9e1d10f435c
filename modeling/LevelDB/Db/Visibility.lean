import LevelDB.Db.GroupEntries
import LevelDB.Db.Read

/-!
# What a call of Get sees of a write group

* `GroupsVisible` — the ranges of the groups, their records, and what the calls of `Get` see of
  them;
* `sees_of_step` — what a call sees does not change while it runs;
* `groupsVisible_of_run` — in every run, a call of `Get` without a snapshot sees all of a group or
  nothing of it.
-/

set_option autoImplicit false

namespace LevelDB

variable {U V R W : Type} {N : Nat}

/-- What a call can find with its sequence number in what it captured. -/
def GetCall.sees (c : GetCall U V N) (db : Db U V R N) : Set (Entry U V) :=
  {e | e.number ≤ c.lookup.sequence ∧
    (e ∈ db.entries c.mem ∨ (∃ m, c.imm = some m ∧ e ∈ db.entries m) ∨
      e ∈ db.versionEntries c.current)}

/-- What was on disk at the start, and the numbers of the calls of `Get`. -/
structure CapturesOk (n : Nat) (h : GroupHistory U V W) (s : System U V R W N) : Prop where
  tables : ∀ v ∈ s.live, ∀ e ∈ s.db.versionEntries v, e.number ≤ n
  sequence : ∀ c ∈ s.gets, c.lookup.sequence ≤ s.db.versions.lastSequence
  ranges : ∀ c ∈ s.gets, ∀ g ∈ h.groups,
    c.lookup.sequence < g.sequence ∨ g.lastSequence ≤ c.lookup.sequence

/-- The ranges of the groups, their records, and what the calls of `Get` see of them; `logs` are the
log files and `n` is `last_sequence_` at the start. -/
structure GroupsVisible (logs : Nat → Option (List (LogRecord U V))) (n : Nat)
    (h : GroupHistory U V W) (s : System U V R W N) : Prop where
  counts : ∀ g ∈ h.groups, g.lastSequence + 1 = g.sequence + g.ops.length
  first : ∀ g ∈ h.groups.head?, g.sequence = n + 1
  adjacent : h.groups.IsChain fun g g' => g'.sequence = g.lastSequence + 1
  increasing : h.groups.Pairwise fun g g' => g.lastSequence < g'.sequence
  /-- The group in progress is the newest one. -/
  current : ∀ w g, (s.writes w).group? = some g →
    h.groups.getLast? = some g ∧ g.sequence = s.db.versions.lastSequence + 1
  /-- The records appended to the log are in the order of the groups, -/
  appended : s.appended.Sublist h.groups
  /-- and so are those in each log file behind what it had at the start. -/
  logged : ∀ number records, s.db.logs number = some records → ∃ (old : List (LogRecord U V))
    (gs : List (Group U V W)), records = old ++ gs.map Group.record ∧ gs.Sublist h.groups ∧
      (old = [] ∨ logs number = some old)
  whole : ∀ c ∈ s.gets, c.active = true → ∀ g ∈ h.groups, g.Whole (c.sees s.db)
  unseen : ∀ c ∈ s.gets, c.active = true → ∀ g ∈ h.failed, ∀ e ∈ g.entries, e ∉ c.sees s.db

section Step

variable {cfg : DbConfig U V R N} {calls : W → WriteRequest U V} {s t : System U V R W N}
  {h : GroupHistory U V W} {n : Nat} {logs : Nat → Option (List (LogRecord U V))}

variable [DecidableEq W] [Std.TransCmp cfg.version.icmp]

/-! ## What the calls of Get captured -/

/-- A call keeps its sequence number, and a new one without a snapshot takes `last_sequence_`. -/
theorem lookup_of_step (hq : QueueOk s) {l : Label U V W N} (hplain : l.plain = true)
    (hstep : System.step cfg calls s l = some t) {c : GetCall U V N} (hc : c ∈ t.gets) :
    (∃ c' ∈ s.gets, c'.lookup = c.lookup) ∨ c.lookup.sequence = s.db.versions.lastSequence := by
  rcases gets_cases hq hstep with hgets | ⟨key, snapshot, rfl, hgets⟩ | ⟨i, g, pc, -, hg, -, hgets⟩
  · rw [hgets] at hc
    exact Or.inl ⟨c, hc, rfl⟩
  · rw [hgets] at hc
    rcases List.mem_append.mp hc with hc | hc
    · exact Or.inl ⟨c, hc, rfl⟩
    · rw [List.mem_singleton.mp hc]
      cases snapshot with
      | none => exact Or.inr rfl
      | some => cases hplain
  · rw [hgets] at hc
    rcases List.mem_or_eq_of_mem_set hc with hc | rfl
    · exact Or.inl ⟨c, hc, rfl⟩
    · exact Or.inl ⟨g, List.mem_of_getElem? hg, rfl⟩

/-- A call goes on with what it captured. -/
theorem call_of_step (hq : QueueOk s) {l : Label U V W N}
    (hstep : System.step cfg calls s l = some t) {i : Nat} {c c' : GetCall U V N}
    (hc : s.gets[i]? = some c) (hc' : t.gets[i]? = some c') (hactive : c'.active = true) :
    c.active = true ∧ ∃ pc, c' = { c with pc } := by
  have hstays : c' = c → c.active = true ∧ ∃ pc, c' = { c with pc } := fun heq =>
    ⟨heq ▸ hactive, c.pc, heq⟩
  rcases gets_cases hq hstep with hgets | ⟨key, snapshot, -, hgets⟩ | ⟨k, g, pc, -, hg, hwas, hgets⟩
  · rw [hgets, hc] at hc'
    exact hstays (Option.some.inj hc').symm
  · rw [hgets, List.getElem?_append_left (List.getElem?_eq_some_iff.mp hc).1, hc] at hc'
    exact hstays (Option.some.inj hc').symm
  · by_cases hk : k = i
    · subst hk
      obtain rfl := Option.some.inj (hg.symm.trans hc)
      rw [hgets, List.getElem?_set_self (List.getElem?_eq_some_iff.mp hc).1] at hc'
      exact ⟨hwas, pc, (Option.some.inj hc').symm⟩
    · rw [hgets, List.getElem?_set_ne hk, hc] at hc'
      exact hstays (Option.some.inj hc').symm

/-- **What a call sees does not change** while it runs. -/
theorem sees_of_step (hc : Consistent s) (hreuses : cfg.ReusesLast) (hkeeps : cfg.KeepsLive)
    {l : Label U V W N} (hstep : System.step cfg calls s l = some t) {i : Nat}
    {c c' : GetCall U V N} (hcall : s.gets[i]? = some c) (hcall' : t.gets[i]? = some c')
    (hactive' : c'.active = true) (hsequence : c.lookup.sequence ≤ s.db.versions.lastSequence) :
    c'.sees t.db = c.sees s.db := by
  obtain ⟨hactive, pc, rfl⟩ := call_of_step hc.queue hstep hcall hcall' hactive'
  have hevolves := evolves_of_step hc hstep
  have hmem : ∀ m ∈ c.mem :: c.imm.toList, ∀ e : Entry U V, e.number ≤ c.lookup.sequence →
      (e ∈ t.db.entries m ↔ e ∈ s.db.entries m) := by
    intro m hm e hle
    have hheld : m ∈ ({ c with pc } : GetCall U V N).held := by
      rw [held_of_active hactive']
      exact hm
    rw [← held_of_active hactive] at hm
    obtain ⟨more, heq, hmore⟩ :=
      hevolves.held m (System.held_holders hcall hm) (System.held_holders hcall' hheld)
    rw [heq, List.mem_append, or_iff_left]
    intro hin
    have hnewer := hmore e hin
    omega
  have htables : t.db.versionEntries c.current = s.db.versionEntries c.current := by
    have hlive : c.current ∈ t.live := List.mem_cons_of_mem _ (List.mem_map.mpr
      ⟨_, List.mem_filter.mpr ⟨List.mem_of_getElem? hcall', hactive'⟩, rfl⟩)
    have hfiles := keepsFiles_of_step hc.files hc.queue hreuses hkeeps hstep
    ext e
    refine exists_congr fun number => and_congr_right fun hlists => ?_
    rw [hfiles.tables c.current hlive number hlists]
  ext e
  refine and_congr_right fun hle => or_congr (hmem c.mem List.mem_cons_self e hle)
    (or_congr (exists_congr fun m => and_congr_right fun himm => hmem m ?_ e hle) ?_)
  · have himm : c.imm = some m := himm
    rw [himm]
    exact List.mem_cons_of_mem _ List.mem_cons_self
  · show e ∈ t.db.versionEntries c.current ↔ e ∈ s.db.versionEntries c.current
    rw [htables]

theorem CapturesOk.step (hcap : CapturesOk n h s) (hr : RangesOk n h s) (hc : Consistent s)
    (hreuses : cfg.ReusesLast) (hkeeps : cfg.KeepsLive) {l : Label U V W N}
    (hplain : l.plain = true) (hstep : System.step cfg calls s l = some t) :
    CapturesOk n (h.record s l t) t := by
  have hsequence : ∀ c ∈ t.gets, c.lookup.sequence ≤ t.db.versions.lastSequence := by
    intro c hin
    have hlast := (evolves_of_step hc hstep).lastSequence
    rcases lookup_of_step hc.queue hplain hstep hin with ⟨c', hc', heq⟩ | heq
    · rw [← heq]
      exact le_trans (hcap.sequence c' hc') hlast
    · rw [heq]
      exact hlast
  refine ⟨?_, hsequence, fun c hin g hg => ?_⟩
  · have hfiles := keepsFiles_of_step hc.files hc.queue hreuses hkeeps hstep
    rintro v hv e ⟨number, hlists, es, hes, he⟩
    obtain ⟨v', hv', hlists'⟩ := hfiles.lists hv hlists
    rw [hfiles.tables v hv number hlists] at hes
    exact hcap.tables v' hv' e ⟨number, hlists', es, hes, he⟩
  · have hbuilt : g ∈ h.groups ∨ g.sequence = t.db.versions.lastSequence + 1 := by
      cases l with
      | write w act =>
        rcases List.mem_append.mp hg with hg | hg
        · exact Or.inl hg
        · have hgroup := hc.groups.step hc.queue hstep w
          exact Or.inr (hgroup.group g (WriteCall.group?_of_built hg)).sequence
      | _ => exact Or.inl hg
    rcases hbuilt with hold | hnew
    · rcases lookup_of_step hc.queue hplain hstep hin with ⟨c', hc', heq⟩ | heq
      · rw [← heq]
        exact hcap.ranges c' hc' g hold
      · rw [heq]
        rcases hr.over_or_current hold with hover | ⟨w, hcurrent⟩
        · exact Or.inr hover
        · have hfirst := ((hc.groups w).group g hcurrent).sequence
          exact Or.inl (by omega)
    · have hle := hsequence c hin
      exact Or.inl (by omega)

/-! ## All of a group or nothing -/

omit [DecidableEq W] [Std.TransCmp cfg.version.icmp] in
theorem CapturesOk.not_in_tables (hcap : CapturesOk n h s) (hr : RangesOk n h s)
    (hgroups : GroupsOk s) {c : GetCall U V N} (hc : c ∈ s.gets) (hactive : c.active = true)
    {g : Group U V W} (hg : g ∈ h.groups) {e : Entry U V} (he : e ∈ g.entries) :
    e ∉ s.db.versionEntries c.current := by
  intro hin
  have hlive : c.current ∈ s.live :=
    List.mem_cons_of_mem _ (List.mem_map_of_mem (List.mem_filter.mpr ⟨hc, hactive⟩))
  have hold := hcap.tables c.current hlive e hin
  obtain ⟨m, hconsecutive⟩ := hr.consecutive hgroups
  have hfirst := (hconsecutive.mem hg).1
  have hbounds := hr.entries hg he
  omega

omit [DecidableEq W] [Std.TransCmp cfg.version.icmp] in
/-- An entry of a group is seen in one of the two memtables. -/
theorem CapturesOk.sees_iff (hcap : CapturesOk n h s) (hr : RangesOk n h s) (hgroups : GroupsOk s)
    {c : GetCall U V N} (hc : c ∈ s.gets) (hactive : c.active = true) {g : Group U V W}
    (hg : g ∈ h.groups) {e : Entry U V} (he : e ∈ g.entries) :
    e ∈ c.sees s.db ↔ e.number ≤ c.lookup.sequence ∧
      (e ∈ s.db.entries c.mem ∨ ∃ m, c.imm = some m ∧ e ∈ s.db.entries m) := by
  have hnot := hcap.not_in_tables hr hgroups hc hactive hg he
  constructor
  · rintro ⟨hle, hmem | himm | htables⟩
    · exact ⟨hle, Or.inl hmem⟩
    · exact ⟨hle, Or.inr himm⟩
    · exact absurd htables hnot
  · rintro ⟨hle, hmem | himm⟩
    · exact ⟨hle, Or.inl hmem⟩
    · exact ⟨hle, Or.inr (Or.inl himm)⟩

omit [DecidableEq W] [Std.TransCmp cfg.version.icmp] in
theorem CapturesOk.whole (hcap : CapturesOk n h s) (hs : SettledOk h s) (hr : RangesOk n h s)
    (hgroups : GroupsOk s) {c : GetCall U V N} (hc : c ∈ s.gets) (hactive : c.active = true)
    {g : Group U V W} (hg : g ∈ h.groups) : g.Whole (c.sees s.db) := by
  have hiff : ∀ e ∈ g.entries, _ := fun e he => hcap.sees_iff hr hgroups hc hactive hg (e := e) he
  rcases hcap.ranges c hc g hg with hlater | hover
  · refine Or.inr fun e he hin => ?_
    have hbounds := hr.entries hg he
    have hle := hin.1
    omega
  · have hle : ∀ e ∈ g.entries, e.number ≤ c.lookup.sequence := fun e he =>
      le_trans (hr.entries hg he).2 hover
    have hsettled := hs.settled g hg (le_trans hover (hcap.sequence c hc))
    rcases hsettled c.mem with hmem | hmem
    · exact Or.inl fun e he => (hiff e he).mpr ⟨hle e he, Or.inl (hmem e he)⟩
    · cases himm : c.imm with
      | none =>
        refine Or.inr fun e he hin => ?_
        rcases ((hiff e he).mp hin).2 with hin | ⟨m, hm, -⟩
        · exact hmem e he hin
        · rw [himm] at hm
          cases hm
      | some m =>
        rcases hsettled m with himms | himms
        · exact Or.inl fun e he => (hiff e he).mpr ⟨hle e he, Or.inr ⟨m, himm, himms e he⟩⟩
        · refine Or.inr fun e he hin => ?_
          rcases ((hiff e he).mp hin).2 with hin | ⟨m', hm', hin⟩
          · exact hmem e he hin
          · obtain rfl := Option.some.inj (himm.symm.trans hm')
            exact himms e he hin

/-! ## Runs -/

omit [DecidableEq W] [Std.TransCmp cfg.version.icmp] in
theorem Opened.entriesOk (hopened : Opened s)
    (hstart : ∀ e ∈ s.db.readEntries, e.number ≤ s.db.versions.lastSequence) : EntriesOk s where
  bounded m e he := by
    refine Or.inl ?_
    by_cases hmem : m = s.db.mem
    · rw [hmem] at he
      exact hstart e (Or.inl he)
    · by_cases himm : s.db.imm = some m
      · exact hstart e (Or.inr (Or.inl ⟨m, himm, he⟩))
      · have hfree : s.db.memtables m = none := by
          refine hopened.exact.free fun hheld => ?_
          rcases List.mem_cons.mp hheld with heq | hheld
          · exact hmem heq
          · exact himm (Option.mem_toList.mp hheld)
        have he : e ∈ (s.db.memtables.content m).getD [] := he
        unfold RefCounted.Heap.content at he
        rw [hfree] at he
        cases he
  placed w := by
    rw [hopened.writes]
    exact .of_none rfl

/-- All invariants together. -/
structure VisibilityOk (logs : Nat → Option (List (LogRecord U V))) (n : Nat)
    (h : GroupHistory U V W) (s : System U V R W N) : Prop where
  consistent : Consistent s
  ranges : RangesOk n h s
  logged : LoggedOk logs h s
  entries : EntriesOk s
  settled : SettledOk h s
  captures : CapturesOk n h s

omit [DecidableEq W] [Std.TransCmp cfg.version.icmp] in
theorem Opened.visibilityOk (hopened : Opened s)
    (hstart : ∀ e ∈ s.db.readEntries, e.number ≤ s.db.versions.lastSequence) :
    VisibilityOk s.db.logs s.db.versions.lastSequence {} s where
  consistent := hopened.consistent
  ranges := by
    refine ⟨fun _ => .nil, fun w g hg => ?_, nofun⟩
    rw [hopened.writes] at hg
    cases hg
  logged := by
    refine ⟨by rw [hopened.appended], fun w g hg => ?_, fun number records hrecords => ?_⟩
    · rw [hopened.writes] at hg
      cases hg
    · exact ⟨records, [], (List.append_nil _).symm, List.nil_sublist _, Or.inr hrecords⟩
  entries := hopened.entriesOk hstart
  settled := ⟨nofun, nofun, nofun⟩
  captures := by
    refine ⟨fun v hv e he => ?_, fun c hc => ?_, fun _ _ => nofun⟩
    · unfold System.live System.heldVersions at hv
      rw [hopened.gets] at hv
      rw [List.mem_singleton.mp hv] at he
      exact hstart e (Or.inr (Or.inr he))
    · rw [hopened.gets] at hc
      cases hc

theorem VisibilityOk.step (hv : VisibilityOk logs n h s) (hok : cfg.ok = Status.isOK)
    (hreuses : cfg.ReusesLast) (hkeeps : cfg.KeepsLive) {l : Label U V W N}
    (hplain : l.plain = true) (hstep : System.step cfg calls s l = some t) :
    VisibilityOk logs n (h.record s l t) t where
  consistent := hv.consistent.step hreuses hkeeps hstep
  ranges := hv.ranges.step hv.consistent.queue hv.consistent.groups hstep
  logged := hv.logged.step hv.consistent.queue hstep
  entries := hv.entries.step hok hv.consistent hplain hstep
  settled := hv.settled.step hok hv.entries hv.ranges hv.consistent hstep
  captures := hv.captures.step hv.ranges hv.consistent hreuses hkeeps hplain hstep

omit [DecidableEq W] [Std.TransCmp cfg.version.icmp] in
theorem VisibilityOk.groupsVisible (hv : VisibilityOk logs n h s) : GroupsVisible logs n h s := by
  have hgroups := hv.consistent.groups
  obtain ⟨m, hconsecutive⟩ := hv.ranges.consecutive hgroups
  refine ⟨hv.ranges.counts, fun g hg => hconsecutive.head hg, hconsecutive.adjacent,
    hconsecutive.increasing, fun w g hg => ⟨?_, ((hgroups w).group g hg).sequence⟩,
    hv.logged.appended, fun number records hrecords => ?_, fun c hc hactive g hg => ?_,
    fun c hc hactive g hg e he hin => ?_⟩
  · obtain ⟨before, heq, -⟩ := hv.ranges.busy w g hg
    rw [heq]
    exact List.getLast?_concat
  · obtain ⟨old, gs, heq, hgs, hold⟩ := hv.logged.logs number records hrecords
    exact ⟨old, gs, heq, hgs.trans hv.logged.appended, hold⟩
  · exact hv.captures.whole hv.settled hv.ranges hgroups hc hactive hg
  · have hmember := (hv.settled.ended g hg).1
    have hsees := (hv.captures.sees_iff hv.ranges hgroups hc hactive hmember he).mp hin
    rcases hsees.2 with hmem | ⟨m, -, himm⟩
    · exact hv.settled.absent g hg _ e he hmem
    · exact hv.settled.absent g hg _ e he himm

theorem VisibilityOk.of_run (hok : cfg.ok = Status.isOK) (hreuses : cfg.ReusesLast)
    (hkeeps : cfg.KeepsLive) (hopened : Opened s)
    (hstart : ∀ e ∈ s.db.readEntries, e.number ≤ s.db.versions.lastSequence)
    (run : Transition.Run (Transition.tracked (System.step cfg calls) GroupHistory.record)
      (fun _ l => l.plain = true) (s, {}) (t, h)) :
    VisibilityOk s.db.logs s.db.versions.lastSequence h t :=
  run.invariant (I := fun x => VisibilityOk s.db.logs s.db.versions.lastSequence x.2 x.1)
    (fun {x y l} hv hplain hstep => by
      obtain ⟨hstep, hrecord⟩ := Transition.tracked_eq_some.mp hstep
      rw [hrecord]
      exact hv.step hok hreuses hkeeps hplain hstep) (hopened.visibilityOk hstart)

/-- **Write groups become visible at once.** In every run from a database that no call uses yet and
that has no entry newer than `last_sequence_`, in which calls of `Get` have no snapshot and
`InsertInto` inserts all entries: the groups get adjacent ranges of sequence numbers after
`last_sequence_`, in the order of their records in the log; `last_sequence_` never decreases; at
every moment a call of `Get` that has not returned sees all entries of a group or none, and none of
a group whose record could not be appended or synced; and what it sees stays the same until it
returns. -/
theorem groupsVisible_of_run (hok : cfg.ok = Status.isOK) (hreuses : cfg.ReusesLast)
    (hkeeps : cfg.KeepsLive) (hopened : Opened s)
    (hstart : ∀ e ∈ s.db.readEntries, e.number ≤ s.db.versions.lastSequence)
    (run : Transition.Run (Transition.tracked (System.step cfg calls) GroupHistory.record)
      (fun _ l => l.plain = true) (s, {}) (t, h)) :
    GroupsVisible s.db.logs s.db.versions.lastSequence h t ∧
      s.db.versions.lastSequence ≤ t.db.versions.lastSequence ∧
      ∀ l u, System.step cfg calls t l = some u →
        t.db.versions.lastSequence ≤ u.db.versions.lastSequence ∧
          ∀ (i : Nat) (c c' : GetCall U V N), t.gets[i]? = some c → u.gets[i]? = some c' →
            c'.active = true → c'.sees u.db = c.sees t.db := by
  have hv := VisibilityOk.of_run hok hreuses hkeeps hopened hstart run
  have hlast := lastSequence_le_of_run hreuses hkeeps hopened.consistent
    (Transition.Run.untracked (P := fun _ l => Label.plain l = true) run)
  refine ⟨hv.groupsVisible, hlast, fun l u hstep => ?_⟩
  refine ⟨(evolves_of_step hv.consistent hstep).lastSequence, fun i c c' hc hc' hactive => ?_⟩
  exact sees_of_step hv.consistent hreuses hkeeps hstep hc hc' hactive
    (hv.captures.sequence c (List.mem_of_getElem? hc))

end Step

theorem flushSystem_numbers :
    ∀ e ∈ flushSystem.db.readEntries, e.number ≤ flushSystem.db.versions.lastSequence := by
  have hsequences := flushSystem_sequencesOk
  rintro e (hmem | himm | htables)
  · rcases hsequences.mem e hmem with hle | ⟨w, g, hg, -⟩
    · exact hle
    · cases hg
  · exact hsequences.imm e himm
  · exact hsequences.tables e htables

/-- A call of `Get` starts while a group is half inserted, and one after the next one failed. -/
def visibilityRun : List (Label Nat Nat Nat 2) :=
  [.write 0 (.call {} 1), .write 0 (.append .OK), .write 0 .insert, .getCall 7 none,
    .write 0 .insert, .write 0 (.insertEnd .OK), .write 0 .finish, .write 1 (.call {} 1),
    .write 1 (.append (.IOError "append" "")), .write 1 .finish, .getCall 7 none]

theorem groupsVisible_of_run_failed :
    ∃ t h, Transition.exec (fun x l => if Label.plain l then
        Transition.tracked (System.step natDb flushCalls) GroupHistory.record x l else none)
        visibilityRun (flushSystem, {}) = some (t, h) ∧
      t.gets.length = 2 ∧ h.groups.map Group.sequence = [2, 4] ∧ h.failed.length = 1 ∧
      t.db.versions.lastSequence = 5 ∧ GroupsVisible flushDb.logs 1 h t := by
  obtain ⟨t, h, ht, hgets, hgroups, hfailed, hlast⟩ : ∃ t h, Transition.exec (fun x l =>
        if Label.plain l then
          Transition.tracked (System.step natDb flushCalls) GroupHistory.record x l else none)
        visibilityRun (flushSystem, {}) = some (t, h) ∧
      t.gets.length = 2 ∧ h.groups.map Group.sequence = [2, 4] ∧ h.failed.length = 1 ∧
      t.db.versions.lastSequence = 5 := ⟨_, _, rfl, rfl, rfl, rfl, rfl⟩
  have run := Transition.Run.of_checked (P := fun _ l => Label.plain l = true)
    (fun _ _ hplain => hplain) ht
  exact ⟨t, h, ht, hgets, hgroups, hfailed, hlast, (groupsVisible_of_run rfl natDb_reuses
    natDb_keepsLive flushSystem_opened flushSystem_numbers run).1⟩

end LevelDB
