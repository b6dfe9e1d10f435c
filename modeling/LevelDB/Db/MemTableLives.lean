import LevelDB.Db.LogPairs
import LevelDB.Db.Read

/-!
# The lives of memtables

A memtable is made as `mem_`, becomes `imm_`, and is given up by the flush, while calls of `Get`
that captured it may still be reading.

* `System.capturing` — the calls of `Get` in progress that captured a memtable;
* `holders_count` — the holders of a memtable are these calls, and `mem_` or `imm_`;
* `lives_of_step` — a step deletes memtables, or makes one at the next address;
* `memTablesExact_of_run` — the counts, and one deletion for each memtable, in every run.
-/

set_option autoImplicit false

namespace LevelDB

variable {U V R W : Type} {N : Nat}

/-- The calls of `Get` in progress that captured the memtable. -/
def System.capturing (s : System U V R W N) (a : Nat) : Nat :=
  s.gets.countP fun g => g.active && decide (g.mem = a ∨ g.imm = some a)

/-- The memtable is `mem_` or `imm_`. -/
def Db.InUse (db : Db U V R N) (a : Nat) : Prop := db.mem = a ∨ db.imm = some a

instance (db : Db U V R N) (a : Nat) : Decidable (db.InUse a) :=
  inferInstanceAs (Decidable (_ ∨ _))

/-- The memtable is one that `s₀` started with, or was made on the way to `s`. -/
def System.Made (s₀ s : System U V R W N) (a : Nat) : Prop :=
  s₀.db.InUse a ∨ s₀.db.nextMem ≤ a ∧ a < s.db.nextMem

/-- How often each memtable has been deleted. -/
def recordDeleted (deleted : Nat → Nat) (s : System U V R W N) (_ : Label U V W N)
    (t : System U V R W N) : Nat → Nat :=
  RefCounted.Heap.countDeleted deleted s.db.memtables t.db.memtables

/-- The job ends with `imm_->Unref()`. -/
def Job.flushes : Job U N → Bool
  | building _ => true
  | built _ _ _ => true
  | logging isFlush _ _ => isFlush
  | logged isFlush _ _ => isFlush

/-- The counts of a state that a run from `s₀` has reached. -/
structure MemTablesExact (cfg : DbConfig U V R N) (s₀ s : System U V R W N) (deleted : Nat → Nat) :
    Prop where
  refs : ∀ a c, s.db.memtables a = some c →
    c.refs = s.capturing a + if s.db.InUse a then 1 else 0
  lives : ∀ a, (s.db.memtables a).isSome ↔ 0 < s.capturing a ∨ s.db.InUse a
  once : ∀ a, s₀.Made s a → deleted a = if 0 < s.capturing a ∨ s.db.InUse a then 0 else 1
  never : ∀ a, ¬ s₀.Made s a → deleted a = 0
  /-- No assertion of `Unref` fails in `Get` -/
  getUnrefs : ∀ g ∈ s.gets, g.active = true →
    ∃ memtables, System.unrefCaptured s.db.memtables g = some memtables
  /-- or in `CompactMemtable`. -/
  flushUnrefs : ∀ i o, Job.logged true i o ∈ s.jobs → ∀ needs others,
    ∃ db, flushFinish cfg s.db i o needs others = some db
  /-- What is being read is there. -/
  gets : ∀ g ∈ s.gets, g.active = true → ∀ a, g.mem = a ∨ g.imm = some a →
    (s.db.memtables a).isSome
  builds : ∀ f, Job.building f ∈ s.jobs → (s.db.memtables f.mem).isSome

/-- What every step keeps. -/
structure LivesOk (s₀ s : System U V R W N) (deleted : Nat → Nat) : Prop where
  apart : ∀ g ∈ s.gets, g.imm ≠ some g.mem
  reads : ∀ j ∈ s.jobs, ∀ m, j.flushing? = some m → s.db.imm = some m
  flushes : ∀ j ∈ s.jobs, j.flushes = true → s.db.imm ≠ none
  start : (∀ a, s₀.db.InUse a → a < s₀.db.nextMem) ∧ s₀.db.nextMem ≤ s.db.nextMem
  ledger : RefCounted.Heap.Ledger (s₀.Made s) s.db.memtables deleted

section Lives

variable {cfg : DbConfig U V R N} {s₀ s t : System U V R W N} {deleted : Nat → Nat}

/-! ## Holders -/

theorem held_count {g : GetCall U V N} (hg : g.imm ≠ some g.mem) (a : Nat) :
    g.held.count a = if g.active && decide (g.mem = a ∨ g.imm = some a) then 1 else 0 := by
  unfold GetCall.held
  by_cases hactive : g.active = true
  · rw [if_pos hactive, RefCounted.Heap.count_pair hg]
    simp [hactive]
  · rw [if_neg hactive]
    simp [hactive]

theorem gets_count (a : Nat) : ∀ {gets : List (GetCall U V N)}, (∀ g ∈ gets, g.imm ≠ some g.mem) →
    (gets.flatMap GetCall.held).count a =
      gets.countP fun g => g.active && decide (g.mem = a ∨ g.imm = some a)
  | [], _ => rfl
  | g :: gets, h => by
    have ih := gets_count a fun g' hg' => h g' (List.mem_cons_of_mem _ hg')
    rw [List.flatMap_cons, List.count_append, List.countP_cons, ih,
      held_count (h g List.mem_cons_self), Nat.add_comm]

/-- **The holders of a memtable.** -/
theorem holders_count (hdb : s.db.imm ≠ some s.db.mem) (hgets : ∀ g ∈ s.gets, g.imm ≠ some g.mem)
    (a : Nat) : s.holders.count a = s.capturing a + if s.db.InUse a then 1 else 0 := by
  unfold System.holders System.capturing Db.InUse
  rw [← List.cons_append, List.count_append, RefCounted.Heap.count_pair hdb, gets_count a hgets]
  exact Nat.add_comm _ _

theorem holders_pos (hdb : s.db.imm ≠ some s.db.mem) (hgets : ∀ g ∈ s.gets, g.imm ≠ some g.mem)
    (a : Nat) : 0 < s.holders.count a ↔ 0 < s.capturing a ∨ s.db.InUse a := by
  rw [holders_count hdb hgets]
  by_cases huse : s.db.InUse a
  · simp [huse]
  · simp [huse]

/-- A call in progress gives up what it captured. -/
theorem unrefCaptured_isSome (hrefs : ReferencesOk s) {g : GetCall U V N} (hg : g ∈ s.gets)
    (hactive : g.active = true) :
    ∃ memtables, System.unrefCaptured s.db.memtables g = some memtables := by
  obtain ⟨i, hi⟩ := List.getElem?_of_mem hg
  have hexact := hrefs.exact.perm (holders_perm hi (held_of_active hactive) (.ofAnswer none))
  obtain ⟨h₁, hmem, hexact₁⟩ := hexact.unref
  obtain ⟨h₂, himm, -⟩ := hexact₁.unrefOpt
  unfold System.unrefCaptured
  rw [hmem]
  exact ⟨h₂, himm⟩

/-- A flush that has `imm_` gives it up. -/
theorem flushFinish_isSome (hrefs : ReferencesOk s) (himm : s.db.imm ≠ none)
    (i : Install (InternalKey U) N) (o : ApplyOutcomes) (needs : Bool)
    (others : List (Version (InternalKey U) N)) :
    ∃ db, flushFinish cfg s.db i o needs others = some db := by
  obtain ⟨m, hm⟩ := Option.ne_none_iff_exists'.mp himm
  have hperm : s.holders.Perm (m :: (s.db.mem :: s.gets.flatMap GetCall.held)) := by
    unfold System.holders
    rw [hm]
    exact List.Perm.swap _ _ _
  obtain ⟨memtables, hunref, -⟩ := (hrefs.exact.perm hperm).unref
  have hdrop : ∃ db, dropImm (applyFinish cfg s.db i o needs) = some db := by
    unfold dropImm
    refine ⟨{ applyFinish cfg s.db i o needs with memtables, imm := none, hasImm := false }, ?_⟩
    show (s.db.imm.bind fun m => _) = _
    rw [hm]
    show ((s.db.memtables.unref m).map _).bind _ = _
    rw [hunref]
    rfl
  obtain ⟨db, hdb⟩ := hdrop
  unfold flushFinish
  rw [hdb]
  split
  · exact ⟨_, rfl⟩
  · exact ⟨_, rfl⟩

/-! ## Steps -/

/-- What one step does to the memtables that live. -/
structure Bears (s t : System U V R W N) : Prop where
  next : s.db.nextMem ≤ t.db.nextMem
  made : ∀ a, s.db.nextMem ≤ a → a < t.db.nextMem → (t.db.memtables a).isSome
  lives : ∀ a, (t.db.memtables a).isSome →
    (s.db.memtables a).isSome ∨ s.db.nextMem ≤ a ∧ a < t.db.nextMem

theorem Bears.of_content (hnext : t.db.nextMem = s.db.nextMem)
    (hcontent : ∀ a, t.db.memtables.content a = s.db.memtables.content a ∨
      t.db.memtables.content a = none) : Bears s t where
  next := Nat.le_of_eq hnext.symm
  made a hle hlt := by omega
  lives a hlive := Or.inl (RefCounted.Heap.isSome_of_content (hcontent a) hlive)

theorem Bears.of_same (hnext : t.db.nextMem = s.db.nextMem)
    (hmemtables : t.db.memtables = s.db.memtables) : Bears s t :=
  .of_content hnext fun a => Or.inl (by rw [hmemtables])

theorem WriteDb.bears {w : W} (hdb : WriteDb cfg s w t.db) : Bears s t := by
  generalize ht : t.db = db at hdb
  cases hdb with
  | @room o db heffect =>
    cases heffect with
    | same => exact .of_same (by rw [ht]) (by rw [ht])
    | reused => exact .of_same (by rw [ht]; rfl) (by rw [ht]; rfl)
    | switched himm =>
      obtain ⟨jobQueue, scheduled, heq⟩ :=
        @switchMemTable_eq U V R N cfg o s.db s.db.versions.nextFileNumber
      rw [heq] at ht
      have hnext : t.db.nextMem = s.db.nextMem + 1 := by rw [ht]
      have hmemtables : t.db.memtables = s.db.memtables.alloc s.db.nextMem [] := by rw [ht]
      refine ⟨by omega, fun a hle hlt => ?_, fun a hlive => ?_⟩
      · obtain rfl : a = s.db.nextMem := by omega
        rw [hmemtables]
        unfold RefCounted.Heap.alloc
        rw [Function.update_self]
        rfl
      · rw [hmemtables] at hlive
        by_cases ha : a = s.db.nextMem
        · exact Or.inr (by omega)
        · unfold RefCounted.Heap.alloc at hlive
          rw [Function.update_of_ne ha] at hlive
          exact Or.inl hlive
  | logged => exact .of_same (by rw [ht]) (by rw [ht])
  | @inserted g m e rest memtables hpc hmod =>
    refine ⟨by rw [ht], fun a hle hlt => ?_, fun a hlive => Or.inl ?_⟩
    · rw [ht] at hlt
      exact absurd hlt (Nat.not_lt.mpr hle)
    · rw [ht] at hlive
      obtain ⟨c, hc, rfl⟩ := Option.map_eq_some_iff.mp hmod
      by_cases ha : a = m
      · rw [ha, hc]
        rfl
      · dsimp only at hlive
        rwa [Function.update_of_ne ha] at hlive
  | sequenced => exact .of_same (by rw [ht]) (by rw [ht])

variable [DecidableEq W] [Std.TransCmp cfg.version.icmp] {calls : W → WriteRequest U V}

/-- **A step deletes memtables, or makes one at the next address.** -/
theorem lives_of_step (hq : QueueOk s) {l : Label U V W N}
    (hstep : System.step cfg calls s l = some t) : Bears s t := by
  rcases l.write_or_other with ⟨w, act, rfl⟩ | hl
  · exact (writeStep_of_write hq hstep).db.1.bears
  · exact .of_content (keepsLog_of_step hl hstep).nextMem (noInserts_of_step hl hstep).content

/-- A call of `Get` captures two memtables that are not the same. -/
theorem apart_of_step (hq : QueueOk s) (hdb : s.db.imm ≠ some s.db.mem)
    (hgets : ∀ g ∈ s.gets, g.imm ≠ some g.mem) {l : Label U V W N}
    (hstep : System.step cfg calls s l = some t) : ∀ g ∈ t.gets, g.imm ≠ some g.mem := by
  intro g hg
  rcases gets_cases hq hstep with heq | ⟨key, snapshot, -, heq⟩ | ⟨i, g', pc, -, hg', -, heq⟩
  · rw [heq] at hg
    exact hgets g hg
  · rw [heq] at hg
    rcases List.mem_append.mp hg with hg | hg
    · exact hgets g hg
    · rw [List.mem_singleton.mp hg]
      exact hdb
  · rw [heq] at hg
    rcases List.mem_or_eq_of_mem_set hg with hg | rfl
    · exact hgets g hg
    · exact hgets g' (List.mem_of_getElem? hg')

/-- A flush has `imm_` to the end. -/
theorem flushes_of_step (hone : OneJob s) (hq : QueueOk s)
    (hjobs : ∀ j ∈ s.jobs, j.flushes = true → s.db.imm ≠ none) {l : Label U V W N}
    (hstep : System.step cfg calls s l = some t) :
    ∀ j ∈ t.jobs, j.flushes = true → t.db.imm ≠ none := by
  intro j hj hflushes
  have hsome : s.db.imm ≠ none := by
    cases jobs_of_step hone hq hstep j hj with
    | stays hstays => exact hjobs j hstays hflushes
    | begins himm =>
      rw [himm]
      exact Option.some_ne_none _
    | moves => cases hflushes
    | builds hbuilding => exact hjobs _ hbuilding rfl
    | logs hbuilt => exact hjobs _ hbuilt rfl
    | writes hlogging => exact hjobs _ hlogging hflushes
  obtain ⟨m, hm⟩ := Option.ne_none_iff_exists'.mp hsome
  rw [imm_of_running hone hq hstep hj hm]
  exact Option.some_ne_none m

theorem LivesOk.step (h : LivesOk s₀ s deleted) (ho : Orderly s) {l : Label U V W N}
    (hstep : System.step cfg calls s l = some t) : LivesOk s₀ t (recordDeleted deleted s l t) where
  apart := apart_of_step ho.queue ho.references.apart h.apart hstep
  reads := flushing_of_step ho.oneJob ho.queue h.reads hstep
  flushes := flushes_of_step ho.oneJob ho.queue h.flushes hstep
  start := ⟨h.start.1, le_trans h.start.2 (lives_of_step ho.queue hstep).next⟩
  ledger := by
    have hbears := lives_of_step ho.queue hstep
    obtain ⟨hfresh, hle⟩ := h.start
    have hnext := hbears.next
    refine h.ledger.step (fun a ha => ?_) (fun a ha hnot => ?_) fun a hlive => ?_
    · rcases ha with huse | ⟨hlow, hhigh⟩
      · exact Or.inl huse
      · exact Or.inr ⟨hlow, by omega⟩
    · rcases ha with huse | ⟨hlow, hhigh⟩
      · exact absurd (Or.inl huse) hnot
      · have hnew : ¬ (s₀.db.nextMem ≤ a ∧ a < s.db.nextMem) := fun hold => hnot (Or.inr hold)
        exact hbears.made a (by omega) hhigh
    · rcases hbears.lives a hlive with hlive | ⟨hlow, hhigh⟩
      · exact Or.inl hlive
      · refine Or.inr ⟨fun hmade => ?_, Or.inr ⟨by omega, hhigh⟩⟩
        rcases hmade with huse | ⟨-, hold⟩
        · have hlt := hfresh a huse
          omega
        · omega

/-! ## Runs -/

omit [DecidableEq W] [Std.TransCmp cfg.version.icmp] in
theorem LivesOk.exact (h : LivesOk s₀ s deleted) (hrefs : ReferencesOk s) :
    MemTablesExact cfg s₀ s deleted := by
  have hlives : ∀ a, (s.db.memtables a).isSome ↔ 0 < s.capturing a ∨ s.db.InUse a := by
    intro a
    rw [← holders_pos hrefs.apart h.apart, ← Option.isSome_map, hrefs.exact a]
    split
    · rename_i hzero
      simp [hzero]
    · rename_i hpos
      simp [Nat.pos_of_ne_zero hpos]
  refine ⟨fun a c hc => ?_, hlives, fun a ha => ?_, fun a ha => (h.ledger.never a ha).2,
    fun g hg hactive => unrefCaptured_isSome hrefs hg hactive,
    fun i o hj => flushFinish_isSome hrefs (h.flushes _ hj rfl) i o,
    fun g hg hactive a ha => (hlives a).mpr (Or.inl ?_),
    fun f hf => (hlives f.mem).mpr (Or.inr (Or.inr (h.reads _ hf f.mem rfl)))⟩
  · have hexact := hrefs.exact a
    rw [hc] at hexact
    rw [← holders_count hrefs.apart h.apart a]
    split at hexact
    · cases hexact
    · exact Option.some.inj hexact
  · rw [h.ledger.once a ha]
    exact if_congr (hlives a) rfl rfl
  · refine List.countP_pos_iff.mpr ⟨g, hg, ?_⟩
    rw [hactive, Bool.true_and]
    exact decide_eq_true ha

/-- **The references to memtables are exact.** In every state of every run: `refs_` of a memtable is
the number of calls of `Get` in progress that captured it, and one more if it is `mem_` or `imm_`;
it has been deleted, once, when no one holds it any more, and before that what a call of `Get` or a
flush reads is there; `Unref` never gives up a reference that is not counted. -/
theorem memTablesExact_of_run (hopened : Opened s₀)
    (run : Transition.Reaches (Transition.tracked (System.step cfg calls) recordDeleted)
      (s₀, fun _ => 0) (t, deleted)) : MemTablesExact cfg s₀ t deleted := by
  have huse : ∀ a, s₀.db.InUse a ↔ a ∈ s₀.db.mem :: s₀.db.imm.toList := by
    intro a
    rw [List.mem_cons, Option.mem_toList]
    exact or_congr_left eq_comm
  have hstart : LivesOk s₀ s₀ fun _ => 0 := by
    refine ⟨?_, ?_, ?_, ⟨fun a ha => hopened.fresh a ((huse a).mp ha), le_refl _⟩, fun a ha => ?_,
      fun a ha => ⟨?_, rfl⟩⟩
    · rw [hopened.gets]
      exact fun g hg => absurd hg List.not_mem_nil
    · rw [hopened.jobs]
      exact fun j hj => absurd hj List.not_mem_nil
    · rw [hopened.jobs]
      exact fun j hj => absurd hj List.not_mem_nil
    · rcases ha with ha | ⟨hlow, hhigh⟩
      · obtain ⟨c, hc, -⟩ := hopened.exact.cell ((huse a).mp ha)
        rw [hc]
        rfl
      · omega
    · rw [hopened.exact.free fun hmem => ha (Or.inl ((huse a).mpr hmem))]
      rfl
  obtain ⟨ho, hlives⟩ := run.invariant (I := fun x => Orderly x.1 ∧ LivesOk s₀ x.1 x.2)
    (fun {x y l} ⟨ho, hlives⟩ _ hstep => by
      obtain ⟨hstep, hrecord⟩ := Transition.tracked_eq_some.mp hstep
      rw [hrecord]
      exact ⟨ho.step hstep, hlives.step ho hstep⟩) ⟨hopened.orderly, hstart⟩
  exact hlives.exact ho.references

end Lives

/-- The memtable 0 is flushed while a call of `Get` reads it. -/
def outlivedRun : List (Label Nat Nat Nat 2) :=
  [.getCall 7 none] ++ flushes ++ [.getRead 0, .getRead 0]

/-- It is deleted when the call returns; then the memtable 1 becomes `imm_`. -/
theorem memTablesExact_of_run_outlived :
    (∃ t deleted, Transition.exec
        (Transition.tracked (System.step natDb fullCalls) recordDeleted) outlivedRun
        (queuedSystem, fun _ => 0) = some (t, deleted) ∧
      t.db.imm = none ∧ t.capturing 0 = 1 ∧ deleted 0 = 0 ∧
      MemTablesExact natDb queuedSystem t deleted) ∧
    ∃ t deleted, Transition.exec
        (Transition.tracked (System.step natDb fullCalls) recordDeleted)
        (outlivedRun ++ [.getFinish 0 false false] ++ syncFails 0 ++ writeFive 1 ++
          [.write 3 (.call {} 1)]) (queuedSystem, fun _ => 0) = some (t, deleted) ∧
      t.db.mem = 2 ∧ t.db.imm = some 1 ∧ deleted 0 = 1 ∧
      MemTablesExact natDb queuedSystem t deleted := by
  constructor
  · obtain ⟨t, deleted, ht, himm, hcaptured, hdeleted⟩ : ∃ t deleted, Transition.exec
        (Transition.tracked (System.step natDb fullCalls) recordDeleted) outlivedRun
        (queuedSystem, fun _ => 0) = some (t, deleted) ∧
        t.db.imm = none ∧ t.capturing 0 = 1 ∧ deleted 0 = 0 := ⟨_, _, rfl, rfl, rfl, rfl⟩
    exact ⟨t, deleted, ht, himm, hcaptured, hdeleted,
      memTablesExact_of_run queuedSystem_opened (Transition.Run.of_exec ht)⟩
  · obtain ⟨t, deleted, ht, hmem, himm, hdeleted⟩ : ∃ t deleted, Transition.exec
        (Transition.tracked (System.step natDb fullCalls) recordDeleted)
        (outlivedRun ++ [.getFinish 0 false false] ++ syncFails 0 ++ writeFive 1 ++
          [.write 3 (.call {} 1)]) (queuedSystem, fun _ => 0) = some (t, deleted) ∧
        t.db.mem = 2 ∧ t.db.imm = some 1 ∧ deleted 0 = 1 := ⟨_, _, rfl, rfl, rfl, rfl⟩
    exact ⟨t, deleted, ht, hmem, himm, hdeleted,
      memTablesExact_of_run queuedSystem_opened (Transition.Run.of_exec ht)⟩

end LevelDB
