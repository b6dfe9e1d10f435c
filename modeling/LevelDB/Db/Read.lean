import LevelDB.Db.Layering

/-!
# Get

A call of `Get` looks in the memtables and in the version that it captured, while other threads
insert, switch memtables, flush and install versions.

* `Evolves` — meanwhile a held memtable gains only entries that are newer than `last_sequence_` was,
  which the call ignores;
* `ReadOk` — what the call has found so far, in terms of the entries at the moment of capture;
* `get_answers` — so it returns the newest visible entry of that moment, and it never gets stuck.
-/

set_option autoImplicit false

namespace LevelDB

variable {U V R W : Type} {N : Nat}

section Evolve

variable {cfg : DbConfig U V R N} {calls : W → WriteRequest U V} {s t u : System U V R W N} {w : W}

/-! ## What other threads do to a held memtable -/

/-- `last_sequence_` does not decrease, and memtables that stay held gain newer entries only. -/
structure Evolves (s t : System U V R W N) : Prop where
  lastSequence : s.db.versions.lastSequence ≤ t.db.versions.lastSequence
  held : ∀ m ∈ s.holders, m ∈ t.holders → ∃ more, t.db.entries m = s.db.entries m ++ more ∧
    ∀ e ∈ more, s.db.versions.lastSequence < e.number

theorem Evolves.of_content (hlast : s.db.versions.lastSequence ≤ t.db.versions.lastSequence)
    (h : ∀ m ∈ s.holders, m ∈ t.holders →
      t.db.memtables.content m = s.db.memtables.content m) : Evolves s t := by
  refine ⟨hlast, fun m hm hm' => ⟨[], ?_, fun e he => absurd he List.not_mem_nil⟩⟩
  unfold Db.entries
  rw [h m hm hm', List.append_nil]

theorem NoInserts.evolves (h : NoInserts s t) (hrefs : ReferencesOk t) : Evolves s t := by
  refine .of_content (le_of_eq h.lastSequence.symm) fun m _ hm => ?_
  obtain ⟨es, hes⟩ := hrefs.exact.content_isSome hm
  rcases h.content m with heq | heq
  · exact heq
  · exact absurd (hes.symm.trans heq) nofun

theorem WriteDb.evolves (h : WriteDb cfg s w t.db) (hc : Consistent s) : Evolves s t := by
  generalize hdb : t.db = db at h
  cases h with
  | @room o db heffect =>
    refine .of_content (le_of_eq (by rw [hdb, heffect.lastSequence])) fun m hm _ => ?_
    rw [hdb]
    cases heffect with
    | same => rfl
    | reused => rfl
    | switched =>
      obtain ⟨jobQueue, scheduled, heq⟩ :=
        @switchMemTable_eq U V R N cfg o s.db s.db.versions.nextFileNumber
      rw [heq]
      exact RefCounted.Heap.content_alloc_ne _ (Nat.ne_of_lt (hc.references.fresh m hm))
  | logged =>
    refine .of_content (le_of_eq (by rw [hdb])) fun m _ _ => ?_
    rw [hdb]
  | @inserted g a e rest memtables hpc hmod =>
    refine ⟨le_of_eq (by rw [hdb]), fun m hm _ => ?_⟩
    have hgroup : GroupOk s.db g := (hc.groups w).group g (by rw [hpc]; rfl)
    obtain ⟨-, hrest⟩ := (hc.groups w).inserts g a (e :: rest) hpc
    obtain ⟨es, hes⟩ := hc.references.exact.content_isSome hm
    unfold Db.entries
    rw [hdb]
    by_cases hma : m = a
    · subst hma
      refine ⟨[e], ?_, fun x hx => ?_⟩
      · rw [RefCounted.Heap.content_modify_self hmod, hes]
        rfl
      · rw [List.mem_singleton.mp hx]
        exact (hgroup.entries (hrest.subset List.mem_cons_self)).1
    · refine ⟨[], ?_, fun x hx => absurd hx List.not_mem_nil⟩
      rw [RefCounted.Heap.content_modify_ne hmod hma, List.append_nil]
  | @sequenced g status bgError syncError hpc =>
    have hgroup : GroupOk s.db g := (hc.groups w).group g (by rw [hpc]; rfl)
    refine .of_content ?_ fun m _ _ => ?_
    · rw [hdb]
      have hlast := hgroup.last
      show s.db.versions.lastSequence ≤ g.lastSequence
      omega
    · rw [hdb]

variable [DecidableEq W] [Std.TransCmp cfg.version.icmp]

theorem evolves_of_step (hc : Consistent s) {l : Label U V W N}
    (hstep : System.step cfg calls s l = some t) : Evolves s t := by
  rcases l.write_or_other with ⟨w, act, rfl⟩ | hl
  · exact (writeStep_of_write hc.queue hstep).db.1.evolves hc
  · exact (noInserts_of_step hl hstep).evolves (hc.references.step hc.queue hstep)

/-- **`last_sequence_` never decreases.** -/
theorem lastSequence_le_of_run {P : System U V R W N → Label U V W N → Prop}
    (hreuses : cfg.ReusesLast) (hkeeps : cfg.KeepsLive) (hc : Consistent s)
    (run : Transition.Run (System.step cfg calls) P s t) :
    s.db.versions.lastSequence ≤ t.db.versions.lastSequence := by
  have hboth : Consistent t ∧ s.db.versions.lastSequence ≤ t.db.versions.lastSequence := by
    refine run.invariant (I := fun u => Consistent u ∧
      s.db.versions.lastSequence ≤ u.db.versions.lastSequence) (fun ⟨hc, hle⟩ _ hstep => ?_)
      ⟨hc, le_refl _⟩
    exact ⟨hc.step hreuses hkeeps hstep, le_trans hle (evolves_of_step hc hstep).lastSequence⟩
  exact hboth.2

/-! ## Whose step it is -/

/-- The steps of one call of `Get`. -/
def Label.OfCall (i : Nat) (l : Label U V W N) : Prop :=
  l = .getRead i ∨ ∃ updated needs, l = .getFinish i updated needs

/-- What a step does to the calls of `Get`: one is added, or one goes on, or they stay. -/
theorem gets_cases (hq : QueueOk s) {l : Label U V W N}
    (hstep : System.step cfg calls s l = some t) :
    t.gets = s.gets ∨
      (∃ key snapshot, l = .getCall key snapshot ∧ t.gets = s.gets ++ [{
          lookup := { userKey := key, sequence := snapshot.getD s.db.versions.lastSequence }
          mem := s.db.mem, imm := s.db.imm, current := s.db.versions.current }]) ∨
        ∃ i g pc, l.OfCall i ∧ s.gets[i]? = some g ∧ g.active = true ∧
          t.gets = s.gets.set i { g with pc } := by
  rcases l.write_or_other with ⟨w, act, rfl⟩ | hl
  · exact Or.inl (writeStep_of_write hq hstep).db.2.1
  cases otherStep_of_step hl hstep with
  | @calls key snapshot => exact Or.inr (Or.inl ⟨key, snapshot, rfl, rfl⟩)
  | @reads i g pc hg hpc =>
    exact Or.inr (Or.inr ⟨i, g, pc, Or.inl rfl, hg, (readPc_active hpc).1, rfl⟩)
  | @returns i updated needs g result stats memtables jobQueue scheduled needs' hg hpc =>
    exact Or.inr (Or.inr ⟨i, g, .returned result, Or.inr ⟨updated, needs, rfl⟩, hg,
      active_of_pc hpc nofun, rfl⟩)
  | _ => exact Or.inl rfl

/-- The steps of other threads leave a call where it is. -/
theorem gets_of_step (hq : QueueOk s) {i : Nat} {g : GetCall U V N} (hg : s.gets[i]? = some g)
    {l : Label U V W N} (hl : ¬ l.OfCall i) (hstep : System.step cfg calls s l = some t) :
    t.gets[i]? = some g := by
  rcases gets_cases hq hstep with hgets | ⟨key, snapshot, -, hgets⟩ | ⟨k, g', pc, hof, -, -, hgets⟩
  · rw [hgets]
    exact hg
  · rw [hgets, List.getElem?_append_left (List.getElem?_eq_some_iff.mp hg).1]
    exact hg
  · have hne : k ≠ i := fun heq => hl (heq ▸ hof)
    rw [hgets, List.getElem?_set_ne hne]
    exact hg

end Evolve

/-! ## What a call has found -/

/-- All entries that a call of `Get` can find. -/
def Db.readEntries (db : Db U V R N) : Set (Entry U V) :=
  db.memEntries ∪ (db.immEntries ∪ db.tableEntries)

def NoneVisible (k : LookupKey U) (es : Set (Entry U V)) : Prop := ∀ e ∈ es, ¬ e.Visible k

/-- Where the call is, and what it knows about the entries in `db₀`, where it captured them. -/
inductive Found (cfg : DbConfig U V R N) (db₀ : Db U V R N) (k : LookupKey U) :
    GetPc U V N → Prop
  | inMem : Found cfg db₀ k .inMem
  | inImm (hmem : NoneVisible k db₀.memEntries) (himm : db₀.imm ≠ none) : Found cfg db₀ k .inImm
  | inTables {before rest : List (Fin N × FileMetaData (InternalKey U))} {state : MatchState U V N}
      (hmem : NoneVisible k db₀.memEntries) (himm : NoneVisible k db₀.immEntries)
      (hstate : state.found = false)
      (hsplit : cfg.forEachOverlapping db₀.versions.current k = before ++ rest)
      (hbefore : ∀ p ∈ before, ∀ es, db₀.tables p.2.number = some es → NoneVisible k {e | e ∈ es}) :
      Found cfg db₀ k (.inTables rest state)
  | relocking {r : Option V} {stats : Option (GetStats U N)}
      (hanswer : IsAnswer db₀.readEntries k r) :
      Found cfg db₀ k (.relocking (GetResult.ofAnswer r) stats)
  | returned {r : Option V} (hanswer : IsAnswer db₀.readEntries k r) :
      Found cfg db₀ k (.returned (GetResult.ofAnswer r))

/-- What the call captured still answers as it did in `db₀`. -/
structure SameView (db₀ : Db U V R N) (k : LookupKey U) (db : Db U V R N) : Prop where
  entries : ∀ m ∈ db₀.mem :: db₀.imm.toList, ∀ e : Entry U V, e.Visible k →
    (e ∈ db.entries m ↔ e ∈ db₀.entries m)
  tables : ∀ n, db₀.versions.current.Lists n → db.tables n = db₀.tables n

/-- A call that captured `db₀` to look up `k`. -/
structure ReadOk (cfg : DbConfig U V R N) (db₀ : Db U V R N) (k : LookupKey U)
    (g : GetCall U V N) (t : System U V R W N) : Prop where
  lookup : g.lookup = k
  mem : g.mem = db₀.mem
  imm : g.imm = db₀.imm
  current : g.current = db₀.versions.current
  found : Found cfg db₀ k g.pc
  sequence : k.sequence ≤ t.db.versions.lastSequence
  view : g.active = true → SameView db₀ k t.db

section Search

variable {cfg : DbConfig U V R N} {db₀ db : Db U V R N} {k : LookupKey U} {g : GetCall U V N}

/-- The layers of `db₀` are in order, and the listed tables are on disk and offered newest first. -/
structure Searchable (cfg : DbConfig U V R N) (db₀ : Db U V R N) (k : LookupKey U) : Prop where
  tablesImm : Layered.Below Entry.number db₀.tableEntries db₀.immEntries
  tablesMem : Layered.Below Entry.number db₀.tableEntries db₀.memEntries
  immMem : Layered.Below Entry.number db₀.immEntries db₀.memEntries
  onDisk : ∀ n, db₀.versions.current.Lists n → db₀.tables n ≠ none
  newestFirst : cfg.NewestFirst db₀.tables db₀.versions.current k

theorem SameView.mem (h : SameView db₀ k db) {es : List (Entry U V)}
    (hes : db.memtables.content db₀.mem = some es) :
    ∀ e : Entry U V, e.Visible k → (e ∈ es ↔ e ∈ db₀.memEntries) := by
  intro e he
  have hsame := h.entries db₀.mem List.mem_cons_self e he
  unfold Db.entries at hsame
  rw [hes] at hsame
  exact hsame

theorem SameView.imm (h : SameView db₀ k db) {m : Nat} (hm : db₀.imm = some m)
    {es : List (Entry U V)} (hes : db.memtables.content m = some es) :
    ∀ e : Entry U V, e.Visible k → (e ∈ es ↔ e ∈ db₀.immEntries) := by
  intro e he
  have hheld : m ∈ db₀.mem :: db₀.imm.toList := by
    rw [hm]
    exact List.mem_cons_of_mem _ List.mem_cons_self
  have hsame := h.entries m hheld e he
  unfold Db.entries at hsame
  rw [hes] at hsame
  refine hsame.trans ⟨fun hmem => ⟨m, hm, hmem⟩, ?_⟩
  rintro ⟨m', hm', hmem⟩
  obtain rfl := Option.some.inj (hm.symm.trans hm')
  exact hmem

/-- What a memtable answers for the entries that were captured. -/
theorem answers_mem (hanswers : cfg.AnswersReads) {es : List (Entry U V)} {s : Set (Entry U V)}
    (hsame : ∀ e : Entry U V, e.Visible k → (e ∈ es ↔ e ∈ s)) :
    (cfg.memTableGet es k = none → NoneVisible k s) ∧
      ∀ r, cfg.memTableGet es k = some r →
        ∃ e, Layered.Newest Entry.number (Entry.Visible k) s e ∧ r = e.outcome := by
  refine ⟨fun hnone => not_visible_congr hsame (hanswers.memNone es k hnone), fun r hr => ?_⟩
  obtain ⟨e, he, rfl⟩ := hanswers.memSome es k r hr
  exact ⟨e, newest_congr hsame he, rfl⟩

/-- The search of the tables starts. -/
theorem found_searchTables (hlookup : g.lookup = k) (hcurrent : g.current = db₀.versions.current)
    (hmem : NoneVisible k db₀.memEntries) (himm : NoneVisible k db₀.immEntries) :
    Found cfg db₀ k (System.searchTables cfg g) := by
  unfold System.searchTables
  rw [hlookup, hcurrent]
  exact .inTables hmem himm rfl (List.nil_append _).symm fun p hp => absurd hp List.not_mem_nil

/-- Nothing is left to search, and no table holds a visible entry. -/
theorem Searchable.none_tables (hs : Searchable cfg db₀ k)
    (h : ∀ p ∈ cfg.forEachOverlapping db₀.versions.current k, ∀ es,
      db₀.tables p.2.number = some es → NoneVisible k {e | e ∈ es}) :
    NoneVisible k db₀.tableEntries := by
  rintro e ⟨n, hn, es, hes, he⟩ hvisible
  obtain ⟨p, hp, rfl⟩ := hs.newestFirst.covers n hn es hes e he hvisible
  exact h p hp es hes e he hvisible

/-- The first table with a visible entry has the newest one. -/
theorem Searchable.newest_tables (hs : Searchable cfg db₀ k)
    {before rest : List (Fin N × FileMetaData (InternalKey U))}
    {p : Fin N × FileMetaData (InternalKey U)} {es : List (Entry U V)} {e : Entry U V}
    (hsplit : cfg.forEachOverlapping db₀.versions.current k = before ++ p :: rest)
    (hbefore : ∀ q ∈ before, ∀ es, db₀.tables q.2.number = some es → NoneVisible k {e | e ∈ es})
    (hes : db₀.tables p.2.number = some es)
    (he : Layered.Newest Entry.number (Entry.Visible k) {e | e ∈ es} e) :
    Layered.Newest Entry.number (Entry.Visible k) db₀.tableEntries e := by
  have hoffered : p ∈ cfg.forEachOverlapping db₀.versions.current k := by
    rw [hsplit]
    exact List.mem_append_right _ List.mem_cons_self
  obtain ⟨hmem, hvisible, hmax⟩ := he
  refine ⟨⟨p.2.number, hs.newestFirst.listed p hoffered, es, hes, hmem⟩, hvisible, ?_⟩
  rintro a ⟨n, hn, es', hes', ha⟩ hva
  obtain ⟨q, hq, rfl⟩ := hs.newestFirst.covers n hn es' hes' a ha hva
  rw [hsplit] at hq
  rcases List.mem_append.mp hq with hq | hq
  · exact absurd hva (hbefore q hq es' hes' a ha)
  · rcases List.mem_cons.mp hq with rfl | hq
    · obtain rfl := Option.some.inj (hes.symm.trans hes')
      exact hmax a ha hva
    · have hnewest := hs.newestFirst.newest
      rw [hsplit] at hnewest
      have hp := List.pairwise_cons.mp (List.pairwise_append.mp hnewest).2.1
      exact le_of_lt (hp.1 q hq es es' hes hes' e hmem hvisible a ha hva)

/-- Below the memtables without visible entries, the answer of the tables counts. -/
theorem answer_of_tables {r : Option V} (hmem : NoneVisible k db₀.memEntries)
    (himm : NoneVisible k db₀.immEntries) (h : IsAnswer db₀.tableEntries k r) :
    IsAnswer db₀.readEntries k r :=
  (h.of_older himm).of_older hmem

theorem found_searchFile (hs : Searchable cfg db₀ k) (hok : cfg.ok .OK = true)
    (hanswers : cfg.AnswersReads) (hview : SameView db₀ k db) (hlookup : g.lookup = k)
    {level : Fin N} {f : FileMetaData (InternalKey U)}
    {before rest : List (Fin N × FileMetaData (InternalKey U))} {state : MatchState U V N}
    (hmem : NoneVisible k db₀.memEntries) (himm : NoneVisible k db₀.immEntries)
    (hstate : state.found = false)
    (hsplit : cfg.forEachOverlapping db₀.versions.current k = before ++ (level, f) :: rest)
    (hbefore : ∀ q ∈ before, ∀ es, db₀.tables q.2.number = some es →
      NoneVisible k {e | e ∈ es}) :
    Found cfg db₀ k (System.searchFile cfg db g level f rest state) := by
  have hlists : db₀.versions.current.Lists f.number := by
    refine hs.newestFirst.listed (level, f) ?_
    rw [hsplit]
    exact List.mem_append_right _ List.mem_cons_self
  obtain ⟨es, hes⟩ := Option.ne_none_iff_exists'.mp (hs.onDisk f.number hlists)
  unfold System.searchFile
  rw [hview.tables f.number hlists, hes, hlookup]
  dsimp only
  rcases hanswers.table es k with ⟨hnone, hget⟩ | ⟨e, he, hget⟩
  · rw [hget]
    obtain ⟨hgo, hfound⟩ := @matchFile_notFound U V N cfg.ok cfg.keyText k.userKey state level f hok
    rw [if_pos hgo]
    have hnext : cfg.forEachOverlapping db₀.versions.current k =
        (before ++ [(level, f)]) ++ rest := by
      rw [hsplit, List.append_assoc]
      rfl
    refine .inTables hmem himm (hfound.trans hstate) hnext fun q hq es' hes' => ?_
    rcases List.mem_append.mp hq with hq | hq
    · exact hbefore q hq es' hes'
    · rw [List.mem_singleton.mp hq] at hes'
      obtain rfl := Option.some.inj (hes.symm.trans hes')
      exact hnone
  · have hanswer : IsAnswer db₀.readEntries k e.outcome := by
      refine answer_of_tables hmem himm (Or.inl ⟨e, ?_, rfl⟩)
      exact hs.newest_tables (p := (level, f)) hsplit hbefore hes he
    rw [hget]
    cases hout : e.outcome with
    | some v =>
      rw [hout] at hanswer
      obtain ⟨hstop, hresult⟩ :=
        @matchFile_found U V N cfg.ok cfg.keyText k.userKey state level f hok v
      rw [if_neg (by rw [hstop]; exact Bool.false_ne_true), hresult]
      exact .relocking hanswer
    | none =>
      rw [hout] at hanswer
      obtain ⟨hstop, hresult⟩ :=
        @matchFile_deleted U V N cfg.ok cfg.keyText k.userKey state level f hok hstate
      rw [if_neg (by rw [hstop]; exact Bool.false_ne_true), hresult]
      exact .relocking hanswer

/-- **One lookup.** -/
theorem found_readPc (hs : Searchable cfg db₀ k) (hok : cfg.ok .OK = true)
    (hanswers : cfg.AnswersReads) (hview : SameView db₀ k db) (hlookup : g.lookup = k)
    (hmem : g.mem = db₀.mem) (himm : g.imm = db₀.imm) (hcurrent : g.current = db₀.versions.current)
    (hfound : Found cfg db₀ k g.pc) {pc : GetPc U V N}
    (h : System.readPc cfg db g = some pc) : Found cfg db₀ k pc := by
  unfold System.readPc at h
  split at h
  · rename_i hpc
    obtain ⟨es, hes, rfl⟩ := Option.map_eq_some_iff.mp h
    rw [hmem] at hes
    obtain ⟨hnone, hsome⟩ := answers_mem hanswers (hview.mem hes)
    rw [hlookup]
    cases hget : cfg.memTableGet es k with
    | some r =>
      obtain ⟨e, he, rfl⟩ := hsome r hget
      exact .relocking (IsAnswer.of_newer he (hs.immMem.union_left hs.tablesMem))
    | none =>
      cases hi : g.imm with
      | some m =>
        refine .inImm (hnone hget) ?_
        rw [← himm, hi]
        exact Option.some_ne_none m
      | none =>
        refine found_searchTables hlookup hcurrent (hnone hget) ?_
        rintro e ⟨m, hm, -⟩
        rw [← himm, hi] at hm
        cases hm
  · rename_i hpc
    obtain ⟨m, hm, h⟩ := Option.bind_eq_some_iff.mp h
    obtain ⟨es, hes, rfl⟩ := Option.map_eq_some_iff.mp h
    rw [himm] at hm
    obtain ⟨hnone, hsome⟩ := answers_mem hanswers (hview.imm hm hes)
    rw [hpc] at hfound
    cases hfound with
    | inImm hmemNone =>
      rw [hlookup]
      cases hget : cfg.memTableGet es k with
      | some r =>
        obtain ⟨e, he, rfl⟩ := hsome r hget
        exact .relocking ((IsAnswer.of_newer he hs.tablesImm).of_older hmemNone)
      | none => exact found_searchTables hlookup hcurrent hmemNone (hnone hget)
  · rename_i state hpc
    cases h
    rw [hpc] at hfound
    cases hfound with
    | inTables hmemNone himmNone hstate hsplit hbefore =>
      rw [List.append_nil] at hsplit
      have hresult : state.result = GetResult.ofAnswer none := by
        unfold MatchState.result
        rw [hstate]
        rfl
      rw [hresult]
      refine .relocking (answer_of_tables hmemNone himmNone (Or.inr ⟨hs.none_tables ?_, rfl⟩))
      rw [hsplit]
      exact hbefore
  · rename_i level f rest state hpc
    cases h
    rw [hpc] at hfound
    cases hfound with
    | inTables hmemNone himmNone hstate hsplit hbefore =>
      exact found_searchFile hs hok hanswers hview hlookup hmemNone himmNone hstate hsplit hbefore
  · cases h

end Search

/-! ## The whole call -/

/-- How many steps a call has left at most, when `n` tables are offered. -/
def GetPc.left (n : Nat) : GetPc U V N → Nat
  | .inMem => n + 4
  | .inImm => n + 3
  | .inTables rest _ => rest.length + 2
  | .relocking _ _ => 1
  | .returned _ => 0

section Call

variable {cfg : DbConfig U V R N} {db₀ db : Db U V R N} {k : LookupKey U} {g : GetCall U V N}

theorem left_readPc {pc : GetPc U V N} (h : System.readPc cfg db g = some pc) :
    pc.left (cfg.forEachOverlapping g.current g.lookup).length <
      g.pc.left (cfg.forEachOverlapping g.current g.lookup).length := by
  have htables : (System.searchTables cfg g).left
      (cfg.forEachOverlapping g.current g.lookup).length =
      (cfg.forEachOverlapping g.current g.lookup).length + 2 := rfl
  unfold System.readPc at h
  split at h
  · rename_i hpc
    obtain ⟨es, -, rfl⟩ := Option.map_eq_some_iff.mp h
    rw [hpc]
    cases cfg.memTableGet es g.lookup with
    | some r =>
      show 1 < _ + 4
      omega
    | none =>
      cases g.imm with
      | some m =>
        show _ + 3 < _ + 4
        omega
      | none =>
        show (System.searchTables cfg g).left _ < _ + 4
        omega
  · rename_i hpc
    obtain ⟨m, -, h⟩ := Option.bind_eq_some_iff.mp h
    obtain ⟨es, -, rfl⟩ := Option.map_eq_some_iff.mp h
    rw [hpc]
    cases cfg.memTableGet es g.lookup with
    | some r =>
      show 1 < _ + 3
      omega
    | none =>
      show (System.searchTables cfg g).left _ < _ + 3
      omega
  · rename_i state hpc
    cases h
    rw [hpc]
    show 1 < 0 + 2
    omega
  · rename_i level f rest state hpc
    cases h
    rw [hpc]
    show (System.searchFile cfg db g level f rest state).left _ < rest.length + 1 + 2
    unfold System.searchFile
    dsimp only
    split
    · show rest.length + 2 < _
      omega
    · show 1 < _
      omega
  · cases h

variable {calls : W → WriteRequest U V} {s t u : System U V R W N} {i : Nat}

theorem ReadOk.others (h : ReadOk cfg db₀ k g s) (hg : s.gets[i]? = some g)
    (hg' : t.gets[i]? = some g) (hevolves : Evolves s t) (hkeeps : KeepsFiles s t) :
    ReadOk cfg db₀ k g t where
  lookup := h.lookup
  mem := h.mem
  imm := h.imm
  current := h.current
  found := h.found
  sequence := le_trans h.sequence hevolves.lastSequence
  view hactive := by
    have hview := h.view hactive
    have hheld := held_of_active hactive
    refine ⟨fun m hm e he => ?_, fun n hn => ?_⟩
    · rw [← h.mem, ← h.imm, ← hheld] at hm
      obtain ⟨more, heq, hmore⟩ := hevolves.held m (System.held_holders hg hm)
        (System.held_holders hg' hm)
      rw [hheld, h.mem, h.imm] at hm
      rw [← hview.entries m hm e he, heq, List.mem_append, or_iff_left]
      -- a newer entry is not visible
      intro hin
      have hnewer : s.db.versions.lastSequence < e.key.sequence := hmore e hin
      have hsequence := h.sequence
      have hvisible := he.2
      omega
    · rw [hkeeps.tables g.current ?_ n (by rw [h.current]; exact hn), hview.tables n hn]
      exact List.mem_cons_of_mem _ (List.mem_map_of_mem
        (List.mem_filter.mpr ⟨List.mem_of_getElem? hg', hactive⟩))

theorem ReadOk.read (h : ReadOk cfg db₀ k g s) (hs : Searchable cfg db₀ k)
    (hok : cfg.ok .OK = true) (hanswers : cfg.AnswersReads) (hg : s.gets[i]? = some g)
    (hread : s.getRead cfg i = some t) :
    ∃ pc, System.readPc cfg s.db g = some pc ∧ t.gets[i]? = some { g with pc } ∧
      ReadOk cfg db₀ k { g with pc } t := by
  obtain ⟨g', pc, hg', hpc, rfl⟩ := getRead_eq_some hread
  obtain rfl := Option.some.inj (hg.symm.trans hg')
  obtain ⟨hactive, -⟩ := readPc_active hpc
  have hview := h.view hactive
  refine ⟨pc, hpc, List.getElem?_set_self (List.getElem?_eq_some_iff.mp hg).1, h.lookup, h.mem,
    h.imm, h.current, ?_, h.sequence, fun _ => hview⟩
  exact found_readPc hs hok hanswers hview h.lookup h.mem h.imm h.current h.found hpc

theorem ReadOk.finish (h : ReadOk cfg db₀ k g s) (hg : s.gets[i]? = some g)
    {updated needs : Bool} (hfinish : s.getFinish cfg i updated needs = some t) :
    ∃ r, IsAnswer db₀.readEntries k r ∧
      t.gets[i]? = some { g with pc := .returned (GetResult.ofAnswer r) } ∧
      ReadOk cfg db₀ k { g with pc := .returned (GetResult.ofAnswer r) } t := by
  obtain ⟨g', result, stats, memtables, db, hg', hpc, -, hscheduled, rfl⟩ :=
    getFinish_eq_some hfinish
  obtain rfl := Option.some.inj (hg.symm.trans hg')
  obtain ⟨jobQueue, scheduled, needs', rfl, -⟩ := hscheduled
  have hfound := h.found
  rw [hpc] at hfound
  cases hfound with
  | @relocking r _ hanswer =>
    refine ⟨r, hanswer, List.getElem?_set_self (List.getElem?_eq_some_iff.mp hg).1, h.lookup, h.mem,
      h.imm, h.current, .returned hanswer, h.sequence, nofun⟩

variable [DecidableEq W] [Std.TransCmp cfg.version.icmp]

/-- The call after any step of any thread. -/
theorem ReadOk.step (h : ReadOk cfg db₀ k g s) (hc : Consistent s) (hs : Searchable cfg db₀ k)
    (hok : cfg.ok .OK = true) (hanswers : cfg.AnswersReads) (hreuses : cfg.ReusesLast)
    (hkeeps : cfg.KeepsLive) (hg : s.gets[i]? = some g) {l : Label U V W N}
    (hstep : System.step cfg calls s l = some t) :
    ∃ g', t.gets[i]? = some g' ∧ ReadOk cfg db₀ k g' t := by
  by_cases hl : l.OfCall i
  · rcases hl with rfl | ⟨updated, needs, rfl⟩
    · obtain ⟨pc, -, hg', hread⟩ := h.read hs hok hanswers hg hstep
      exact ⟨_, hg', hread⟩
    · obtain ⟨r, -, hg', hread⟩ := h.finish hg hstep
      exact ⟨_, hg', hread⟩
  · have hg' := gets_of_step hc.queue hg hl hstep
    exact ⟨g, hg', h.others hg hg' (evolves_of_step hc hstep)
      (keepsFiles_of_step hc.files hc.queue hreuses hkeeps hstep)⟩

/-- The call gets to its end by its own steps. -/
theorem ReadOk.finishes (hs : Searchable cfg db₀ k) (hok : cfg.ok .OK = true)
    (hanswers : cfg.AnswersReads) (hreuses : cfg.ReusesLast) (hkeeps : cfg.KeepsLive) :
    ∀ (n : Nat) {g : GetCall U V N} {s : System U V R W N}, ReadOk cfg db₀ k g s → Consistent s →
      s.gets[i]? = some g →
      g.pc.left (cfg.forEachOverlapping db₀.versions.current k).length ≤ n →
      ∃ t r, Transition.Run (System.step cfg calls) (fun _ l => l.OfCall i) s t ∧
        IsAnswer db₀.readEntries k r ∧
        (t.gets[i]?).map GetCall.pc = some (.returned (GetResult.ofAnswer r)) := by
  intro n
  induction n with
  | zero =>
    intro g s h hc hg hleft
    have hfound := h.found
    generalize hpc : g.pc = pc at hfound hleft
    cases hfound with
    | @returned r hanswer => exact ⟨s, r, .refl, hanswer, by rw [hg, Option.map_some, hpc]⟩
    | inMem => exact absurd hleft (Nat.not_succ_le_zero _)
    | inImm => exact absurd hleft (Nat.not_succ_le_zero _)
    | inTables => exact absurd hleft (Nat.not_succ_le_zero _)
    | relocking => exact absurd hleft (Nat.not_succ_le_zero _)
  | succ n ih =>
    intro g s h hc hg hleft
    have hfound := h.found
    generalize hpc : g.pc = pc at hfound
    -- a step of the search leads to a call with fewer steps left
    have hsearch : (∀ result stats, g.pc ≠ .relocking result stats) →
        (∀ result, g.pc ≠ .returned result) → (g.pc = .inImm → g.imm ≠ none) →
        ∃ t r, Transition.Run (System.step cfg calls) (fun _ l => l.OfCall i) s t ∧
          IsAnswer db₀.readEntries k r ∧
          (t.gets[i]?).map GetCall.pc = some (.returned (GetResult.ofAnswer r)) := by
      intro hlock hreturned himm
      obtain ⟨t, ht⟩ := hc.references.getRead_isSome hg himm hlock hreturned
      have hstep : System.step cfg calls s (.getRead i) = some t := ht
      obtain ⟨pc', hpc', hg', hread⟩ := h.read hs hok hanswers hg ht
      have hless := left_readPc hpc'
      rw [h.current, h.lookup] at hless
      have hleft' := Nat.lt_succ_iff.mp (Nat.lt_of_lt_of_le hless hleft)
      obtain ⟨v, r, hrun, hanswer, hend⟩ := ih hread (hc.step hreuses hkeeps hstep) hg' hleft'
      have hfirst : Transition.Run (System.step cfg calls) (fun _ l => l.OfCall i) s t :=
        .tail .refl (Or.inl rfl) hstep
      exact ⟨v, r, hfirst.trans hrun, hanswer, hend⟩
    cases hfound with
    | @returned r hanswer => exact ⟨s, r, .refl, hanswer, by rw [hg, Option.map_some, hpc]⟩
    | @relocking r stats hanswer =>
      obtain ⟨t, ht⟩ := hc.references.getFinish_isSome hg hpc false false
      obtain ⟨r', hanswer', hg', -⟩ := h.finish hg ht
      have hstep : System.step cfg calls s (.getFinish i false false) = some t := ht
      exact ⟨t, r', .tail .refl (Or.inr ⟨false, false, rfl⟩) hstep, hanswer', by rw [hg']; rfl⟩
    | inMem =>
      exact hsearch (fun _ _ heq => by rw [hpc] at heq; cases heq)
        (fun _ heq => by rw [hpc] at heq; cases heq) (fun heq => by rw [hpc] at heq; cases heq)
    | inImm _ himm =>
      refine hsearch (fun _ _ heq => by rw [hpc] at heq; cases heq)
        (fun _ heq => by rw [hpc] at heq; cases heq) fun _ => ?_
      rw [h.imm]
      exact himm
    | inTables =>
      exact hsearch (fun _ _ heq => by rw [hpc] at heq; cases heq)
        (fun _ heq => by rw [hpc] at heq; cases heq) (fun heq => by rw [hpc] at heq; cases heq)

omit [DecidableEq W] [Std.TransCmp cfg.version.icmp] in
/-- The call at the moment of capture. -/
theorem ReadOk.capture {key : U} {snapshot : Option Nat} {s₁ : System U V R W N}
    (hsnapshot : ∀ n, snapshot = some n → n ≤ s.db.versions.lastSequence)
    (hcall : s.getCall key snapshot = some s₁) :
    ∃ g, s₁.gets[s.gets.length]? = some g ∧
      ReadOk cfg s.db { userKey := key, sequence := snapshot.getD s.db.versions.lastSequence } g
        s₁ := by
  obtain ⟨h₁, h₂, href, himm, rfl⟩ := getCall_eq_some hcall
  refine ⟨_, List.getElem?_concat_length, rfl, rfl, rfl, rfl, .inMem, ?_, fun _ => ⟨?_, ?_⟩⟩
  · cases snapshot with
    | none => exact le_refl _
    | some n => exact hsnapshot n rfl
  · intro m _ e _
    unfold Db.entries
    rw [RefCounted.Heap.content_refOpt himm m, RefCounted.Heap.content_ref href m]
  · exact fun _ _ => rfl

/-- **A call of `Get`.** Let the layers be in order when it takes the lock, with a snapshot up to
`last_sequence_`. Then, whatever the other threads do, what it returns is the answer for the entries
that were there at that moment; and from every state its own steps lead it to the end. -/
theorem get_answers (hok : cfg.ok .OK = true) (hanswers : cfg.AnswersReads)
    (hreuses : cfg.ReusesLast) (hkeeps : cfg.KeepsLive) (hopened : Opened s)
    (reach : Transition.Reaches (System.step cfg calls) s t)
    (htablesImm : Layered.Below Entry.number t.db.tableEntries t.db.immEntries)
    (htablesMem : Layered.Below Entry.number t.db.tableEntries t.db.memEntries)
    (himmMem : Layered.Below Entry.number t.db.immEntries t.db.memEntries)
    {key : U} {snapshot : Option Nat}
    (hsnapshot : ∀ n, snapshot = some n → n ≤ t.db.versions.lastSequence)
    (hk : k = { userKey := key, sequence := snapshot.getD t.db.versions.lastSequence })
    (hnewest : cfg.NewestFirst t.db.tables t.db.versions.current k) {t₁ : System U V R W N}
    (hcall : System.step cfg calls t (.getCall key snapshot) = some t₁)
    (run : Transition.Reaches (System.step cfg calls) t₁ u) :
    (∀ result, (u.gets[t.gets.length]?).map GetCall.pc = some (.returned result) →
        ∃ r, IsAnswer t.db.readEntries k r ∧ result = GetResult.ofAnswer r) ∧
      ∃ v r, Transition.Run (System.step cfg calls) (fun _ l => l.OfCall t.gets.length) u v ∧
        IsAnswer t.db.readEntries k r ∧
        (v.gets[t.gets.length]?).map GetCall.pc = some (.returned (GetResult.ofAnswer r)) := by
  subst hk
  have hc : Consistent t := consistent_of_reaches hreuses hkeeps hopened.consistent reach
  have hs : Searchable cfg t.db
      { userKey := key, sequence := snapshot.getD t.db.versions.lastSequence } :=
    ⟨htablesImm, htablesMem, himmMem, hc.files.onDisk _ List.mem_cons_self, hnewest⟩
  obtain ⟨g₁, hg₁, hread₁⟩ := ReadOk.capture hsnapshot hcall
  obtain ⟨hcu, g, hg, hread⟩ := run.invariant (I := fun u => Consistent u ∧
      ∃ g, u.gets[t.gets.length]? = some g ∧ ReadOk cfg t.db _ g u)
    (fun ⟨hc, g, hg, hread⟩ _ hstep => ⟨hc.step hreuses hkeeps hstep,
      hread.step hc hs hok hanswers hreuses hkeeps hg hstep⟩)
    ⟨hc.step hreuses hkeeps hcall, g₁, hg₁, hread₁⟩
  refine ⟨fun result hresult => ?_, ?_⟩
  · rw [hg, Option.map_some] at hresult
    have hfound := hread.found
    rw [Option.some.inj hresult] at hfound
    cases hfound with
    | @returned r hanswer => exact ⟨r, hanswer, rfl⟩
  · have hfinishes := @ReadOk.finishes U V R W N cfg t.db _ calls t.gets.length _ _ hs hok hanswers
      hreuses hkeeps
    exact hfinishes _ hread hcu hg (le_refl _)

end Call

theorem natDb_newestFirst (k : LookupKey Nat) :
    natDb.NewestFirst flushDb.tables flushDb.versions.current k := by
  have hnone : natDb.forEachOverlapping flushDb.versions.current k = [] := rfl
  refine ⟨?_, fun n hn => absurd hn (flushDb_notListed n), ?_⟩
  · rw [hnone]
    exact fun p hp => absurd hp List.not_mem_nil
  · rw [hnone]
    exact List.Pairwise.nil

/-- While the call looks for key 7, another thread puts it anew. -/
theorem get_answers_put :
    ∃ t₁ u, System.step natDb flushCalls flushSystem (.getCall 7 none) = some t₁ ∧
      Transition.exec (System.step natDb flushCalls) [.write 0 (.call {} 1),
        .write 0 (.append .OK), .write 0 .insert, .write 0 .insert, .write 0 (.insertEnd .OK),
        .write 0 .finish, .getRead 0, .getRead 0, .getFinish 0 false false] t₁ = some u ∧
      ∃ r, IsAnswer flushDb.readEntries { userKey := 7, sequence := 1 } r ∧
        (Status.OK, some 70) = GetResult.ofAnswer r := by
  obtain ⟨t₁, ht₁⟩ : ∃ t₁, System.step natDb flushCalls flushSystem (.getCall 7 none) = some t₁ :=
    ⟨_, rfl⟩
  obtain ⟨u, hu, hpc⟩ : ∃ u, Transition.exec (System.step natDb flushCalls) [.write 0 (.call {} 1),
      .write 0 (.append .OK), .write 0 .insert, .write 0 .insert, .write 0 (.insertEnd .OK),
      .write 0 .finish, .getRead 0, .getRead 0, .getFinish 0 false false] t₁ = some u ∧
      (u.gets[0]?).map GetCall.pc = some (.returned (Status.OK, some 70)) := by
    cases ht₁
    exact ⟨_, rfl, rfl⟩
  refine ⟨t₁, u, ht₁, hu, ?_⟩
  exact (get_answers rfl natDb_answers natDb_reuses natDb_keepsLive flushSystem_opened .refl
    flushSystem_sequencesOk.tablesImm flushSystem_sequencesOk.tablesMem
    flushSystem_sequencesOk.immMem (by simp) rfl (natDb_newestFirst _) ht₁
    (Transition.Run.of_exec hu)).1 _ hpc

end LevelDB
