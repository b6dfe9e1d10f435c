import LevelDB.Db.LogOrder
import LevelDB.Db.Retained
import LevelDB.Db.Visibility
import LevelDB.Lib.Versioned

/-!
# The database as a map

What the database is for: a map from user keys to values, which a write changes at one moment and a
read sees at one moment. The moment of a write group is the one at which its leader sets
`last_sequence_`, that of a read the one at which it takes the lock.

* `applyOps` — what a batch makes of a map;
* `Db.HoldsAt` — the map that the entries stand for at a sequence number;
* `AtomicOk.step` — a step leaves the map, or applies one group to it;
* `atomicMap_of_run` — the map after any run, and the calls that have changed it;
* `get_reads_map`, `snapshot_reads_map` — what the calls of `Get` return;
* `put_get` — a key that was put has its value until another group writes it;
* `logReplay_of_run` — the records of the log make the same map.
-/

set_option autoImplicit false

namespace LevelDB

variable {U V R W : Type} {N : Nat}

/-! ## Maps -/

def BatchOp.outcome (op : BatchOp U V) : Option V :=
  match op.type with
  | .deletion => none
  | .value => some op.value

/-- What a batch makes of a map. -/
def applyOps [DecidableEq U] (m : U → Option V) (ops : List (BatchOp U V)) : U → Option V :=
  ops.foldl (fun m op => Function.update m op.key op.outcome) m

def applyCommits [DecidableEq U] (m : U → Option V) (commits : List (Commit U V W)) :
    U → Option V :=
  commits.foldl (fun m c => applyOps m c.2.ops) m

/-- What the records of a log make of a map, one after the other. -/
def applyRecords [DecidableEq U] (m : U → Option V) (records : List (LogRecord U V)) :
    U → Option V :=
  records.foldl (fun m r => applyOps m r.ops) m

/-- A lookup at the sequence number `n` owes what the map has. -/
def Db.HoldsAt (db : Db U V R N) (n : Nat) (m : U → Option V) : Prop :=
  ∀ key r, IsAnswer db.readEntries { userKey := key, sequence := n } r ↔ r = m key

/-- `InsertInto` inserts all entries of its batch, and a snapshot is not newer than
`last_sequence_`. -/
def System.regular (s : System U V R W N) : Label U V W N → Bool
  | .write _ (.insertEnd status) => status == .OK
  | .getCall _ (some n) => n ≤ s.db.versions.lastSequence
  | _ => true

section Maps

variable [DecidableEq U] {m : U → Option V}

theorem applyCommits_append (m : U → Option V) (commits commits' : List (Commit U V W)) :
    applyCommits m (commits ++ commits') = applyCommits (applyCommits m commits) commits' :=
  List.foldl_append

theorem applyRecords_append (m : U → Option V) (records records' : List (LogRecord U V)) :
    applyRecords m (records ++ records') = applyRecords (applyRecords m records) records' :=
  List.foldl_append

theorem applyRecords_commits (m : U → Option V) (commits : List (Commit U V W)) :
    applyRecords m ((commits.map Prod.snd).map Group.record) = applyCommits m commits := by
  unfold applyRecords applyCommits
  rw [List.foldl_map, List.foldl_map]
  rfl

theorem applyOps_of_not_mem (m : U → Option V) {ops : List (BatchOp U V)} {key : U}
    (h : ∀ op ∈ ops, op.key ≠ key) : applyOps m ops key = m key := by
  induction ops generalizing m with
  | nil => rfl
  | cons op ops ih =>
    show applyOps (Function.update m op.key op.outcome) ops key = m key
    rw [ih _ fun op' hop => h op' (List.mem_cons_of_mem _ hop)]
    exact Function.update_of_ne (h op List.mem_cons_self).symm _ _

theorem applyCommits_of_not_mem (m : U → Option V) {commits : List (Commit U V W)} {key : U}
    (h : ∀ c ∈ commits, ∀ op ∈ c.2.ops, op.key ≠ key) : applyCommits m commits key = m key := by
  induction commits generalizing m with
  | nil => rfl
  | cons c commits ih =>
    show applyCommits (applyOps m c.2.ops) commits key = m key
    rw [ih _ fun c' hc => h c' (List.mem_cons_of_mem _ hc)]
    exact applyOps_of_not_mem m (h c List.mem_cons_self)

/-- The last operation on a key counts. -/
theorem applyOps_last (m : U → Option V) (op : BatchOp U V) {ops : List (BatchOp U V)}
    (h : ∀ op' ∈ ops, op'.key ≠ op.key) : applyOps m (op :: ops) op.key = op.outcome := by
  show applyOps (Function.update m op.key op.outcome) ops op.key = op.outcome
  rw [applyOps_of_not_mem _ h]
  exact Function.update_self _ _ _

theorem overwrite_batchEntries (m : U → Option V) : ∀ (n : Nat) (ops : List (BatchOp U V)),
    Versioned.overwrite (fun e : Entry U V => e.key.userKey) Entry.outcome m (batchEntries n ops) =
      applyOps m ops
  | _, [] => rfl
  | n, op :: ops =>
    overwrite_batchEntries (Function.update m op.key op.outcome) (n + 1) ops

omit [DecidableEq U] in
theorem batchEntries_sorted : ∀ (n : Nat) (ops : List (BatchOp U V)),
    ((batchEntries n ops).map Entry.number).Pairwise (· < ·)
  | _, [] => List.Pairwise.nil
  | n, op :: ops => by
    refine List.pairwise_cons.mpr ⟨fun number hnumber => ?_, batchEntries_sorted (n + 1) ops⟩
    obtain ⟨e, he, rfl⟩ := List.mem_map.mp hnumber
    exact Nat.lt_of_succ_le (batchEntries_bounds he).1

omit [DecidableEq U] in
theorem Db.holdsAt_iff {db : Db U V R N} {n : Nat} :
    db.HoldsAt n m ↔ Versioned.Holds Entry.number (fun e : Entry U V => e.key.userKey)
      Entry.outcome db.readEntries n m :=
  Iff.rfl

end Maps

/-! ## One step -/

/-- The database holds the map to which the commits have led. -/
structure AtomicOk [DecidableEq U] (cfg : DbConfig U V R N) (m₀ : U → Option V)
    (commits : List (Commit U V W)) (s : System U V R W N) : Prop where
  consistent : Consistent s
  noFlush : NoFlush cfg s
  entries : EntriesOk s
  sequences : SequencesOk s
  holds : s.db.HoldsAt s.db.versions.lastSequence (applyCommits m₀ commits)

section Step

variable {cfg : DbConfig U V R N} {calls : W → WriteRequest U V} {s t u : System U V R W N} {w : W}
  {m m₀ : U → Option V} {commits : List (Commit U V W)} {n : Nat}

theorem readEntries_bounded (he : EntriesOk s) (hs : SequencesOk s) {e : Entry U V}
    (h : e ∈ s.db.readEntries) : e.number ≤ s.db.versions.lastSequence ∨
      ∃ w g, (s.writes w).placing? = some g ∧ e ∈ g.entries := by
  rcases h with hmem | himm | htables
  · rcases he.bounded s.db.mem e hmem with hle | ⟨-, hgroup⟩
    · exact Or.inl hle
    · exact Or.inr hgroup
  · exact Or.inl (hs.imm e himm)
  · exact Or.inl (hs.tables e htables)

/-- **What could be read at a sequence number stays.** -/
theorem Retains.holdsAt (h : Retains s t) (hle : n ≤ s.db.versions.lastSequence)
    (hm : s.db.HoldsAt n m) : t.db.HoldsAt n m := by
  refine Versioned.Holds.congr (Db.holdsAt_iff.mp hm) fun e hn =>
    ⟨fun he => h.keeps he, fun he => ?_⟩
  rcases h.adds e he with hold | hnew
  · exact hold
  · omega

variable [DecidableEq W]

/-- `last_sequence_` is set at the end of a group only. -/
theorem WriteStep.lastSequence {act : WriteAct} (h : WriteStep cfg calls s w act t)
    (hact : act ≠ .finish) : t.db.versions.lastSequence = s.db.versions.lastSequence := by
  cases h with
  | joins => rfl
  | waits => rfl
  | rooms henters hmake hthen =>
    rw [hthen.keeps.1]
    exact (makeRoom_effect hmake).lastSequence
  | appends hpc happend =>
    obtain ⟨n, -, happend⟩ := Option.bind_eq_some_iff.mp happend
    obtain ⟨records, -, rfl⟩ := Option.map_eq_some_iff.mp happend
    rfl
  | syncs hpc hsync =>
    obtain ⟨n, -, rfl⟩ := Option.map_eq_some_iff.mp hsync
    rfl
  | inserts hpc hinsert =>
    obtain ⟨memtables, -, rfl⟩ := Option.map_eq_some_iff.mp hinsert
    rfl
  | ends hpc hend =>
    unfold System.insertEnd at hend
    split at hend
    · cases hend
    · cases hend
      rfl
  | finishes => exact absurd rfl hact

omit [DecidableEq W] in
/-- While a group that was not inserted is in progress, nothing is newer than `last_sequence_`. -/
theorem readEntries_le (he : EntriesOk s) (hs : SequencesOk s) (hq : QueueOk s)
    (hw : (s.writes w).phase = .active) (hnone : (s.writes w).placing? = none) {e : Entry U V}
    (h : e ∈ s.db.readEntries) : e.number ≤ s.db.versions.lastSequence := by
  rcases readEntries_bounded he hs h with hle | ⟨x, g, hg, -⟩
  · exact hle
  · have hx : x = w := hq.unique (WriteCall.active_of_group (WriteCall.group?_of_placing hg)) hw
    rw [hx, hnone] at hg
    cases hg

variable [DecidableEq U]

omit [DecidableEq W] in
/-- **The end of a group** applies it to the map if it was inserted, and else changes nothing. -/
theorem holdsAt_finish (hc : Consistent s) (he : EntriesOk s) (hs : SequencesOk s)
    {g : Group U V W} {status : Status} {syncError : Bool}
    (hpc : s.writes w = .relocking g status syncError) {db : Db U V R N}
    (hread : db.readEntries = s.db.readEntries)
    (hm : s.db.HoldsAt s.db.versions.lastSequence m) :
    db.HoldsAt g.lastSequence (applyCommits m (s.committing (.write w .finish))) := by
  have hgroup : GroupOk s.db g := (hc.groups w).group g (by rw [hpc]; rfl)
  have hactive : (s.writes w).phase = .active := by rw [hpc]; rfl
  have hle : s.db.versions.lastSequence ≤ g.lastSequence := by
    rw [hgroup.last]
    exact Nat.le_add_right _ _
  unfold System.committing
  dsimp only
  cases hplacing : (s.writes w).placing? with
  | none =>
    have hm : db.HoldsAt s.db.versions.lastSequence m :=
      Versioned.Holds.congr (Db.holdsAt_iff.mp hm) fun e _ => by rw [hread]
    refine Versioned.Holds.later (Db.holdsAt_iff.mp hm) hle fun e hin _ => ?_
    rw [hread] at hin
    exact readEntries_le he hs hc.queue hactive hplacing hin
  | some g' =>
    have hstatus : status = .OK ∧ g' = g := by
      have hif : (if status = .OK then some g else none) = some g' := by
        rw [hpc] at hplacing
        exact hplacing
      split at hif
      · rename_i hOK
        exact ⟨hOK, (Option.some.inj hif).symm⟩
      · cases hif
    obtain ⟨rfl, rfl⟩ := hstatus
    show db.HoldsAt g'.lastSequence (applyOps m g'.ops)
    rw [← overwrite_batchEntries m g'.sequence g'.ops]
    refine Versioned.Holds.puts (Db.holdsAt_iff.mp hm) (batchEntries_sorted g'.sequence g'.ops)
      (fun e heg => hgroup.entries heg) hle fun e _ => ?_
    rw [hread]
    constructor
    · intro hin
      rcases readEntries_bounded he hs hin with hold | ⟨x, g, hg, heg⟩
      · exact Or.inl ⟨hin, hold⟩
      · have hx : x = w :=
          hc.queue.unique (WriteCall.active_of_group (WriteCall.group?_of_placing hg)) hactive
        rw [hx, hplacing] at hg
        obtain rfl := Option.some.inj hg
        exact Or.inr heg
    · rintro (⟨hin, -⟩ | heg)
      · exact hin
      · exact Or.inl ((he.placed w).inserted g' syncError hpc e heg)

variable [Std.TransCmp cfg.version.icmp]

omit [DecidableEq U] in
theorem EntriesOk.regular (he : EntriesOk s) (hok : cfg.ok = Status.isOK) (hc : Consistent s)
    {l : Label U V W N} (hregular : s.regular l = true)
    (hstep : System.step cfg calls s l = some t) :
    EntriesOk t := by
  cases l with
  | write w act =>
    refine he.step hok hc ?_ hstep
    cases act with
    | insertEnd status =>
      exact hregular
    | _ => rfl
  | getCall key snapshot =>
    -- the snapshot does not matter to the memtables
    obtain ⟨h₁, h₂, href, himm, rfl⟩ := getCall_eq_some hstep
    obtain ⟨u, hu, hdb, hwrites⟩ : ∃ u, s.getCall key none = some u ∧
        u.db = { s.db with memtables := h₂ } ∧ u.writes = s.writes := by
      unfold System.getCall
      simp only [href, himm, Option.bind_eq_bind, Option.bind_some]
      exact ⟨_, rfl, rfl, rfl⟩
    have hu : System.step cfg calls s (.getCall key none) = some u := hu
    have hentries := he.step hok hc rfl hu
    refine ⟨fun m e hm => ?_, fun w => ?_⟩
    · rw [← hdb] at hm ⊢
      rw [← hwrites]
      exact hentries.bounded m e hm
    · rw [← hdb, ← hwrites]
      exact hentries.placed w
  | _ => exact he.step hok hc rfl hstep

/-- **A step leaves the map, or applies the group that it makes visible.** -/
theorem AtomicOk.step (h : AtomicOk cfg m₀ commits s) (hok : cfg.ok = Status.isOK)
    (hrecords : cfg.RecordsFirst) (hreuses : cfg.ReusesLast) (hkeeps : cfg.KeepsLive)
    {l : Label U V W N} (hregular : s.regular l = true)
    (hstep : System.step cfg calls s l = some t) :
    AtomicOk cfg m₀ (recordCommits commits s l t) t := by
  have hc := h.consistent
  have hretains := retains_of_step h.noFlush hok hrecords hreuses hkeeps hc hstep
  refine ⟨hc.step hreuses hkeeps hstep, h.noFlush.step hok hrecords hc hstep,
    h.entries.regular hok hc hregular hstep, h.sequences.step hc hreuses hkeeps hstep, ?_⟩
  have hstays : s.committing l = [] →
      t.db.versions.lastSequence = s.db.versions.lastSequence →
      t.db.HoldsAt t.db.versions.lastSequence (applyCommits m₀ (recordCommits commits s l t)) := by
    intro hnone hlast
    unfold recordCommits
    rw [hnone, List.append_nil, hlast]
    exact hretains.holdsAt (le_refl _) h.holds
  rcases l.write_or_other with ⟨w, act, rfl⟩ | hl
  · have hwrite := writeStep_of_write hc.queue hstep
    by_cases hact : act = .finish
    · subst hact
      cases hwrite with
      | @rooms act s₁ t room o size db e henters hmake hthen => cases henters
      | @finishes g status syncError rest hpc hwriters =>
        obtain ⟨writes, heq⟩ := finish_keeps cfg s w g status syncError rest
        rw [heq]
        unfold recordCommits
        rw [applyCommits_append]
        exact holdsAt_finish hc h.entries h.sequences hpc
          (SameLayers.readEntries ⟨rfl, rfl, rfl, rfl, rfl⟩) h.holds
    · exact hstays (committing_of_ne fun x heq => hact (by cases heq; rfl))
        (hwrite.lastSequence hact)
  · exact hstays (committing_of_ne fun x => hl x .finish) (noInserts_of_step hl hstep).lastSequence

/-! ## Runs -/

omit [DecidableEq W] [Std.TransCmp cfg.version.icmp] in
theorem Opened.atomicOk (hopened : Opened s) (himm : s.db.imm = none) (hsequences : SequencesOk s)
    (hm : s.db.HoldsAt s.db.versions.lastSequence m₀) : AtomicOk cfg m₀ [] s where
  consistent := hopened.consistent
  noFlush := hopened.noFlush himm
  entries := by
    refine hopened.entriesOk fun e he => ?_
    rcases he with hmem | himm' | htables
    · rcases hsequences.mem e hmem with hle | ⟨w, g, hg, -⟩
      · exact hle
      · rw [hopened.writes] at hg
        cases hg
    · exact hsequences.imm e himm'
    · exact hsequences.tables e htables
  sequences := hsequences
  holds := hm

theorem AtomicOk.of_run (hok : cfg.ok = Status.isOK) (hrecords : cfg.RecordsFirst)
    (hreuses : cfg.ReusesLast) (hkeeps : cfg.KeepsLive) (hopened : Opened s)
    (himm : s.db.imm = none) (hsequences : SequencesOk s)
    (hm : s.db.HoldsAt s.db.versions.lastSequence m₀)
    (run : Transition.Run (Transition.tracked (System.step cfg calls) recordCommits)
      (fun x l => x.1.regular l = true) (s, []) (t, commits)) :
    AtomicOk cfg m₀ commits t ∧ CommitsOk calls commits t := by
  refine run.invariant (I := fun x => AtomicOk cfg m₀ x.2 x.1 ∧ CommitsOk calls x.2 x.1)
    (fun {x y l} ⟨ha, hc⟩ hregular hstep => ?_)
    ⟨hopened.atomicOk himm hsequences hm, hopened.commitsOk⟩
  obtain ⟨hstep, hrecord⟩ := Transition.tracked_eq_some.mp hstep
  rw [hrecord]
  exact ⟨ha.step hok hrecords hreuses hkeeps hregular hstep,
    hc.step hok ha.consistent.queue hstep⟩

/-- **The database is a map.** In every run from a database without `imm_` that holds a map, in
which `InsertInto` inserts all entries and snapshots are not newer than `last_sequence_`: the
database holds the map that the committed groups make of the first one, in the order of their
commits. The committed groups are those of the calls of `Write` that have returned OK, one for each,
with the batches of their members in order, and the log has their records in the same order. -/
theorem atomicMap_of_run (hok : cfg.ok = Status.isOK) (hrecords : cfg.RecordsFirst)
    (hreuses : cfg.ReusesLast) (hkeeps : cfg.KeepsLive) (hopened : Opened s)
    (himm : s.db.imm = none) (hsequences : SequencesOk s)
    (hm : s.db.HoldsAt s.db.versions.lastSequence m₀)
    (run : Transition.Run (Transition.tracked (System.step cfg calls) recordCommits)
      (fun x l => x.1.regular l = true) (s, []) (t, commits)) :
    t.db.HoldsAt t.db.versions.lastSequence (applyCommits m₀ commits) ∧
      CommitsOk calls commits t := by
  obtain ⟨ha, hc⟩ := AtomicOk.of_run hok hrecords hreuses hkeeps hopened himm hsequences hm run
  exact ⟨ha.holds, hc⟩

/-! ## Reads -/

omit [DecidableEq U] in
/-- What a call of `Get` returns is the answer for what it captured. -/
theorem isAnswer_of_returned (hok : cfg.ok .OK = true) (hanswers : cfg.AnswersReads)
    (hreuses : cfg.ReusesLast) (hkeeps : cfg.KeepsLive) (hc : Consistent t)
    (hsequences : SequencesOk t) {key : U} {snapshot : Option Nat} {k : LookupKey U}
    (hsnapshot : ∀ n, snapshot = some n → n ≤ t.db.versions.lastSequence)
    (hk : k = { userKey := key, sequence := snapshot.getD t.db.versions.lastSequence })
    (hnewest : cfg.NewestFirst t.db.tables t.db.versions.current k) {t₁ : System U V R W N}
    (hcall : System.step cfg calls t (.getCall key snapshot) = some t₁)
    (run : Transition.Reaches (System.step cfg calls) t₁ u) {result : GetResult V}
    (hresult : (u.gets[t.gets.length]?).map GetCall.pc = some (.returned result)) :
    ∃ r, IsAnswer t.db.readEntries k r ∧ result = GetResult.ofAnswer r := by
  subst hk
  have hs : Searchable cfg t.db
      { userKey := key, sequence := snapshot.getD t.db.versions.lastSequence } :=
    ⟨hsequences.tablesImm, hsequences.tablesMem, hsequences.immMem,
      hc.files.onDisk _ List.mem_cons_self, hnewest⟩
  obtain ⟨g₁, hg₁, hread₁⟩ := ReadOk.capture hsnapshot hcall
  obtain ⟨-, g, hg, hread⟩ := run.invariant (I := fun u => Consistent u ∧
      ∃ g, u.gets[t.gets.length]? = some g ∧ ReadOk cfg t.db _ g u)
    (fun ⟨hc, g, hg, hread⟩ _ hstep => ⟨hc.step hreuses hkeeps hstep,
      hread.step hc hs hok hanswers hreuses hkeeps hg hstep⟩)
    ⟨hc.step hreuses hkeeps hcall, g₁, hg₁, hread₁⟩
  rw [hg, Option.map_some] at hresult
  have hfound := hread.found
  rw [Option.some.inj hresult] at hfound
  cases hfound with
  | @returned r hanswer => exact ⟨r, hanswer, rfl⟩

/-- A call of `Get` reads the map as of its sequence number. -/
theorem AtomicOk.get (h : AtomicOk cfg m₀ commits t) (hok : cfg.ok = Status.isOK)
    (hanswers : cfg.AnswersReads) (hreuses : cfg.ReusesLast) (hkeeps : cfg.KeepsLive) {key : U}
    {snapshot : Option Nat} {t₁ : System U V R W N}
    (hcall : System.step cfg calls t (.getCall key snapshot) = some t₁)
    (hn : n = snapshot.getD t.db.versions.lastSequence) (hle : n ≤ t.db.versions.lastSequence)
    (hm : t.db.HoldsAt n m)
    (hnewest : cfg.NewestFirst t.db.tables t.db.versions.current { userKey := key, sequence := n })
    (run : Transition.Reaches (System.step cfg calls) t₁ u) {result : GetResult V}
    (hresult : (u.gets[t.gets.length]?).map GetCall.pc = some (.returned result)) :
    result = GetResult.ofAnswer (m key) := by
  have hgood : cfg.ok .OK = true := by rw [hok]; rfl
  have hsnapshot : ∀ n', snapshot = some n' → n' ≤ t.db.versions.lastSequence := by
    rintro n' rfl
    exact le_of_eq_of_le hn.symm hle
  obtain ⟨r, hanswer, rfl⟩ := isAnswer_of_returned hgood hanswers hreuses hkeeps h.consistent
    h.sequences hsnapshot (by rw [hn]) hnewest hcall run hresult
  rw [(hm key r).mp hanswer]

/-- **A read sees the map of the moment at which it takes the lock**, in every run from a database
without `imm_`, whatever is written until it returns. -/
theorem get_reads_map (hok : cfg.ok = Status.isOK) (hrecords : cfg.RecordsFirst)
    (hanswers : cfg.AnswersReads) (hreuses : cfg.ReusesLast) (hkeeps : cfg.KeepsLive)
    (hopened : Opened s) (himm : s.db.imm = none) (hsequences : SequencesOk s)
    (hm : s.db.HoldsAt s.db.versions.lastSequence m₀)
    (run : Transition.Run (Transition.tracked (System.step cfg calls) recordCommits)
      (fun x l => x.1.regular l = true) (s, []) (t, commits)) {key : U}
    (hnewest : cfg.NewestFirst t.db.tables t.db.versions.current
      { userKey := key, sequence := t.db.versions.lastSequence })
    {t₁ : System U V R W N} (hcall : System.step cfg calls t (.getCall key none) = some t₁)
    (run' : Transition.Reaches (System.step cfg calls) t₁ u) {result : GetResult V}
    (hresult : (u.gets[t.gets.length]?).map GetCall.pc = some (.returned result)) :
    result = GetResult.ofAnswer (applyCommits m₀ commits key) := by
  obtain ⟨ha, -⟩ := AtomicOk.of_run hok hrecords hreuses hkeeps hopened himm hsequences hm run
  exact ha.get hok hanswers hreuses hkeeps hcall rfl (le_refl _) ha.holds hnewest run' hresult

/-- In a run that goes on, what could be read at a sequence number stays. -/
theorem AtomicOk.continues (h : AtomicOk cfg m₀ commits s) (hok : cfg.ok = Status.isOK)
    (hrecords : cfg.RecordsFirst) (hreuses : cfg.ReusesLast) (hkeeps : cfg.KeepsLive)
    (hle : n ≤ s.db.versions.lastSequence) (hm : s.db.HoldsAt n m)
    (run : Transition.Run (System.step cfg calls) (fun x l => x.regular l = true) s t) :
    ∃ commits', AtomicOk cfg m₀ commits' t ∧ n ≤ t.db.versions.lastSequence ∧
      t.db.HoldsAt n m := by
  refine run.invariant (I := fun x => ∃ commits', AtomicOk cfg m₀ commits' x ∧
    n ≤ x.db.versions.lastSequence ∧ x.db.HoldsAt n m)
    (fun {x y l} ⟨commits', ha, hle, hm⟩ hregular hstep => ?_) ⟨commits, h, hle, hm⟩
  have hretains := retains_of_step ha.noFlush hok hrecords hreuses hkeeps ha.consistent hstep
  exact ⟨_, ha.step hok hrecords hreuses hkeeps hregular hstep,
    le_trans hle (evolves_of_step ha.consistent hstep).lastSequence, hretains.holdsAt hle hm⟩

/-- **A snapshot is the map of its moment.** In every run from a database without `imm_`, a read with
the number that `last_sequence_` had at some moment sees the map of that moment, however much has
been written since. -/
theorem snapshot_reads_map (hok : cfg.ok = Status.isOK) (hrecords : cfg.RecordsFirst)
    (hanswers : cfg.AnswersReads) (hreuses : cfg.ReusesLast) (hkeeps : cfg.KeepsLive)
    (hopened : Opened s) (himm : s.db.imm = none) (hsequences : SequencesOk s)
    (hm : s.db.HoldsAt s.db.versions.lastSequence m₀) {s₁ : System U V R W N}
    (run : Transition.Run (Transition.tracked (System.step cfg calls) recordCommits)
      (fun x l => x.1.regular l = true) (s, []) (s₁, commits))
    (run₁ : Transition.Run (System.step cfg calls) (fun x l => x.regular l = true) s₁ t) {key : U}
    (hnewest : cfg.NewestFirst t.db.tables t.db.versions.current
      { userKey := key, sequence := s₁.db.versions.lastSequence })
    {t₁ : System U V R W N}
    (hcall : System.step cfg calls t (.getCall key (some s₁.db.versions.lastSequence)) = some t₁)
    (run' : Transition.Reaches (System.step cfg calls) t₁ u) {result : GetResult V}
    (hresult : (u.gets[t.gets.length]?).map GetCall.pc = some (.returned result)) :
    result = GetResult.ofAnswer (applyCommits m₀ commits key) := by
  obtain ⟨ha, -⟩ := AtomicOk.of_run hok hrecords hreuses hkeeps hopened himm hsequences hm run
  obtain ⟨commits', ha', hle, hm'⟩ := ha.continues hok hrecords hreuses hkeeps (le_refl _) ha.holds
    run₁
  exact ha'.get hok hanswers hreuses hkeeps hcall rfl hle hm' hnewest run' hresult

/-- **Put and get.** A call of `Put` that has returned OK led a group that starts with its
operation; as long as neither the rest of that group nor a later one writes the key, every read of
the key returns the value. -/
theorem put_get (hok : cfg.ok = Status.isOK) (hrecords : cfg.RecordsFirst)
    (hanswers : cfg.AnswersReads) (hreuses : cfg.ReusesLast) (hkeeps : cfg.KeepsLive)
    (hopened : Opened s) (himm : s.db.imm = none) (hsequences : SequencesOk s)
    (hm : s.db.HoldsAt s.db.versions.lastSequence m₀)
    (run : Transition.Run (Transition.tracked (System.step cfg calls) recordCommits)
      (fun x l => x.1.regular l = true) (s, []) (t, commits)) {sync : Bool} {key : U} {value : V}
    (hput : calls w = WriteRequest.put sync key value) (hreturned : t.writes w = .returned .OK) :
    ∃ before g rest after, commits = before ++ (w, g) :: after ∧
      g.ops = { type := .value, key, value } :: rest ∧
      ((∀ op ∈ rest, op.key ≠ key) → (∀ c ∈ after, ∀ op ∈ c.2.ops, op.key ≠ key) →
        cfg.NewestFirst t.db.tables t.db.versions.current
          { userKey := key, sequence := t.db.versions.lastSequence } →
        ∀ t₁, System.step cfg calls t (.getCall key none) = some t₁ →
          ∀ u, Transition.Reaches (System.step cfg calls) t₁ u → ∀ result,
            (u.gets[t.gets.length]?).map GetCall.pc = some (.returned result) →
              result = (.OK, some value)) := by
  obtain ⟨ha, hc⟩ := AtomicOk.of_run hok hrecords hreuses hkeeps hopened himm hsequences hm run
  have hbatch : (calls w).updates.isSome := by rw [hput]; rfl
  obtain ⟨⟨w', g⟩, hin, rfl⟩ := List.mem_map.mp ((hc.returned w hbatch).mp hreturned)
  obtain ⟨before, after, rfl⟩ := List.append_of_mem hin
  have hled := hc.led _ hin
  obtain ⟨others, hmembers⟩ : ∃ others, g.members = w' :: others := by
    have hfirst : g.members.head? = some w' := hled.first
    cases hcase : g.members with
    | nil =>
      rw [hcase] at hfirst
      cases hfirst
    | cons x others =>
      rw [hcase] at hfirst
      exact ⟨others, by rw [Option.some.inj hfirst]⟩
  have hops : g.ops = { type := .value, key, value } ::
      others.flatMap fun x => (calls x).batch := by
    have hcarries : g.ops = g.members.flatMap fun x => (calls x).batch := hled.carries
    rw [hcarries, hmembers, List.flatMap_cons, hput]
    rfl
  refine ⟨before, g, _, after, rfl, hops, ?_⟩
  intro hrest hafter hnewest t₁ hcall u run' result hresult
  have hread :=
    ha.get hok hanswers hreuses hkeeps hcall rfl (le_refl _) ha.holds hnewest run' hresult
  rw [hread, applyCommits_append]
  show GetResult.ofAnswer (applyCommits (applyOps (applyCommits m₀ before) g.ops) after key) = _
  rw [applyCommits_of_not_mem _ hafter, hops]
  exact congrArg GetResult.ofAnswer (applyOps_last _ { type := .value, key, value } hrest)

/-! ## The log -/

/-- **The log holds the map.** In a run from a database without `imm_` in which no `Sync` fails, the
log files hold behind the records of the start, in the order of their numbers, the records that make
the map of the database out of the first one, and at most one more, of a group that is still being
inserted. -/
theorem logReplay_of_run (hok : cfg.ok = Status.isOK) (hrecords : cfg.RecordsFirst)
    (hreuses : cfg.ReusesLast) (hkeeps : cfg.KeepsLive) (hopened : Opened s)
    (himm : s.db.imm = none) (hsequences : SequencesOk s)
    (hbelow : s.db.logfileNumber < s.db.versions.nextFileNumber)
    (hlast : ∀ n, s.db.logs n ≠ none → n ≤ s.db.logfileNumber)
    (hlogfile : ∀ n, s.db.logfile = some n → n = s.db.logfileNumber)
    (hm : s.db.HoldsAt s.db.versions.lastSequence m₀)
    (run : Transition.Run (Transition.tracked (System.step cfg calls) recordCommits)
      (fun x l => x.1.regular l = true ∧ l.followsLog = true) (s, []) (t, commits)) :
    ∃ written pending, t.db.logRecords = s.db.logRecords ++ written ++ pending ∧
      t.db.HoldsAt t.db.versions.lastSequence (applyRecords m₀ written) ∧ pending.length ≤ 1 ∧
      ((∀ w, (t.writes w).group? = none) → pending = []) := by
  obtain ⟨ha, horder, hexact⟩ := run.invariant
    (I := fun x => AtomicOk cfg m₀ x.2 x.1 ∧ LogOrder s.db.logRecords x.1 ∧ LogExact x.2 x.1)
    (fun {x y l} ⟨ha, ho, he⟩ hmeets hstep => by
      obtain ⟨hstep, hrecord⟩ := Transition.tracked_eq_some.mp hstep
      have hq := ha.consistent.queue
      rw [hrecord]
      exact ⟨ha.step hok hrecords hreuses hkeeps hmeets.1 hstep, ho.step hq hreuses hstep,
        he.step hok hq hmeets.2 hstep⟩)
    ⟨hopened.atomicOk himm hsequences hm, hopened.logOrder hbelow hlast hlogfile, hopened.logExact⟩
  have hholds := ha.holds
  rw [← applyRecords_commits] at hholds
  obtain ⟨pending, happended, hlength, hnone⟩ := hexact.pending
  refine ⟨_, pending.map Group.record, ?_, hholds, ?_, fun hidle => ?_⟩
  · rw [horder.records, happended, List.map_append, List.append_assoc]
  · rw [List.length_map]
    exact hlength
  · rw [hnone hidle]
    rfl

end Step

/-! ## A move between a write and a read -/

theorem tableSystem_readEntries :
    tableSystem.db.readEntries = {⟨⟨7, 1, .value⟩, 70⟩} := by
  ext e
  constructor
  · rintro (hmem | ⟨m, hm, -⟩ | ⟨n, hn, es, hes, he⟩)
    · exact absurd hmem List.not_mem_nil
    · cases hm
    · obtain rfl := tableSystem_lists hn
      obtain rfl := Option.some.inj hes
      exact List.mem_singleton.mp he
  · rintro rfl
    have hlists : tableSystem.db.versions.current.Lists 5 :=
      ⟨⟨0, Nat.zero_lt_two⟩, rangeFile 5 7 7, List.mem_singleton.mpr rfl, rfl⟩
    exact Or.inr (Or.inr ⟨5, hlists, _, rfl, List.mem_singleton.mpr rfl⟩)

theorem tableSystem_below :
    tableSystem.db.logfileNumber < tableSystem.db.versions.nextFileNumber :=
  Nat.lt_of_lt_of_le (Nat.lt_succ_self 4) (Nat.le_succ 5)

theorem tableSystem_last (n : Nat) (hn : tableSystem.db.logs n ≠ none) :
    n ≤ tableSystem.db.logfileNumber := by
  by_contra hlt
  have hlt : ¬ n ≤ 4 := hlt
  refine hn ?_
  show flushDb.logs n = none
  match n with
  | n + 5 => rfl
  | 0 | 1 | 2 | 3 | 4 => omega

theorem tableSystem_logfile (n : Nat) (hn : tableSystem.db.logfile = some n) :
    n = tableSystem.db.logfileNumber :=
  (Option.some.inj hn).symm

/-- The map that the table stands for. -/
def tableMap (key : Nat) : Option Nat := if key = 7 then some 70 else none

theorem tableSystem_holdsAt : tableSystem.db.HoldsAt 1 tableMap := by
  intro key r
  unfold IsAnswer
  rw [tableSystem_readEntries]
  unfold tableMap
  constructor
  · rintro (⟨e, ⟨he, hvisible, -⟩, rfl⟩ | ⟨hnone, rfl⟩)
    · obtain rfl : e = ⟨⟨7, 1, .value⟩, 70⟩ := he
      rw [if_pos hvisible.1.symm]
      rfl
    · split
      · rename_i hkey
        exact absurd ⟨hkey.symm, le_refl 1⟩ (hnone _ rfl)
      · rfl
  · rintro rfl
    split
    · rename_i hkey
      exact Or.inl ⟨_, ⟨rfl, ⟨hkey.symm, le_refl 1⟩, by rintro a rfl -; exact le_refl _⟩, rfl⟩
    · rename_i hkey
      exact Or.inr ⟨by rintro a rfl hva; exact hkey hva.1.symm, rfl⟩

theorem tableSystem_sequencesOk : SequencesOk tableSystem := by
  have hmem : tableSystem.db.memEntries = ∅ :=
    Set.eq_empty_of_forall_notMem fun e he => absurd he List.not_mem_nil
  have himm : tableSystem.db.immEntries = ∅ :=
    Set.eq_empty_of_forall_notMem fun e ⟨m, hm, _⟩ => by cases hm
  have htables : ∀ e ∈ tableSystem.db.tableEntries, e.number ≤ 1 := by
    intro e he
    have he : e ∈ tableSystem.db.readEntries := Or.inr (Or.inr he)
    rw [tableSystem_readEntries] at he
    rw [Set.mem_singleton_iff.mp he]
  refine ⟨?_, ?_, ?_, htables, ?_, ?_, fun j hj => absurd hj List.not_mem_nil⟩
  · rw [himm]
    exact fun _ _ _ hb => absurd hb (Set.notMem_empty _)
  · rw [hmem]
    exact fun _ _ _ hb => absurd hb (Set.notMem_empty _)
  · rw [hmem]
    exact fun _ _ _ hb => absurd hb (Set.notMem_empty _)
  · rw [himm]
    exact fun _ ha => absurd ha (Set.notMem_empty _)
  · rw [hmem]
    exact fun _ ha => absurd ha (Set.notMem_empty _)

/-- A version that lists the table at level 1 only. -/
theorem movedTable_newestFirst {tables : Nat → Option (List (Entry Nat Nat))}
    {v : Version (InternalKey Nat) 2} {f : FileMetaData (InternalKey Nat)}
    (hzero : v.files ⟨0, Nat.zero_lt_two⟩ = []) (hone : v.files ⟨1, Nat.one_lt_two⟩ = [f])
    (hnumber : f.number = 5) (hsmallest : f.smallest.userKey = 7) (hlargest : f.largest.userKey = 7)
    (htable : tables 5 = some [⟨⟨7, 1, .value⟩, 70⟩]) (k : LookupKey Nat) :
    natDb.NewestFirst tables v k := by
  have hoffers : natDb.forEachOverlapping v k =
      if k.userKey = 7 then [(⟨1, Nat.one_lt_two⟩, f)] else [] := by
    show natOverlapping v k = _
    unfold natOverlapping
    have hlevels : List.finRange 2 = [⟨0, Nat.zero_lt_two⟩, ⟨1, Nat.one_lt_two⟩] := rfl
    rw [hlevels]
    simp only [List.flatMap_cons, List.flatMap_nil, hzero, hone, List.reverse_nil, List.filter_nil,
      List.map_nil, List.nil_append, List.append_nil, List.reverse_singleton]
    by_cases hkey : k.userKey = 7
    · rw [if_pos hkey, List.filter_cons_of_pos]
      · rfl
      · rw [hsmallest, hlargest, hkey]
        rfl
    · rw [if_neg hkey, List.filter_cons_of_neg]
      · rfl
      · intro h
        have h : f.smallest.userKey ≤ k.userKey ∧ k.userKey ≤ f.largest.userKey :=
          of_decide_eq_true h
        omega
  refine ⟨?_, ?_, ?_⟩
  · rw [hoffers]
    intro p hp
    split at hp
    · rw [List.mem_singleton.mp hp]
      exact ⟨_, f, hone ▸ List.mem_singleton.mpr rfl, rfl⟩
    · cases hp
  · rintro n ⟨⟨level, hlevel⟩, f', hf, rfl⟩ es hes e he hvisible
    match level, hlevel with
    | 0, _ =>
      rw [hzero] at hf
      cases hf
    | 1, _ =>
      rw [hone] at hf
      obtain rfl := List.mem_singleton.mp hf
      rw [hnumber, htable] at hes
      obtain rfl := Option.some.inj hes
      rw [List.mem_singleton.mp he] at hvisible
      rw [hoffers, if_pos hvisible.1.symm]
      exact ⟨_, List.mem_singleton.mpr rfl, rfl⟩
  · rw [hoffers]
    split
    · exact List.pairwise_singleton _ _
    · exact List.Pairwise.nil

def regularStep
    (x : System Nat Nat (VersionEdit (InternalKey Nat) 2) Nat 2 × List (Commit Nat Nat Nat))
    (l : Label Nat Nat Nat 2) :=
  if x.1.regular l && l.followsLog then
    Transition.tracked (System.step natDb putCalls) recordCommits x l
  else none

theorem moveRun_exec :
    ∃ t commits, Transition.exec regularStep moveRun (tableSystem, []) = some (t, commits) ∧
      t.writes 0 = .returned .OK ∧ t.db.versions.lastSequence = 2 ∧ t.gets.length = 0 ∧
      t.db.logRecords = [{ sequence := 2, ops := [⟨.value, 7, 71⟩] }] ∧
      (∀ k, natDb.NewestFirst t.db.tables t.db.versions.current k) ∧
      (∃ t₁ u, System.step natDb putCalls t (.getCall 7 none) = some t₁ ∧
        Transition.exec (System.step natDb putCalls) [.getRead 0, .getFinish 0 false false] t₁ =
          some u ∧ (u.gets[0]?).map GetCall.pc = some (.returned (.OK, some 71))) ∧
      ∃ t₁ u, System.step natDb putCalls t (.getCall 7 (some 1)) = some t₁ ∧
        Transition.exec (System.step natDb putCalls)
          [.getRead 0, .getRead 0, .getFinish 0 false false] t₁ = some u ∧
        (u.gets[0]?).map GetCall.pc = some (.returned (.OK, some 70)) :=
  ⟨_, _, rfl, rfl, rfl, rfl, rfl,
    movedTable_newestFirst rfl rfl rfl rfl rfl rfl,
    ⟨_, _, rfl, rfl, rfl⟩, ⟨_, _, rfl, rfl, rfl⟩⟩

theorem moveRun_run {P : _ → Label Nat Nat Nat 2 → Prop}
    (hmeets : ∀ x l, (x.1.regular l && l.followsLog) = true → P x l)
    {t : System Nat Nat (VersionEdit (InternalKey Nat) 2) Nat 2}
    {commits : List (Commit Nat Nat Nat)}
    (h : Transition.exec regularStep moveRun (tableSystem, []) = some (t, commits)) :
    Transition.Run (Transition.tracked (System.step natDb putCalls) recordCommits) P
      (tableSystem, []) (t, commits) :=
  Transition.Run.of_checked hmeets h

theorem regular_of_both
    {x : System Nat Nat (VersionEdit (InternalKey Nat) 2) Nat 2 × List (Commit Nat Nat Nat)}
    {l : Label Nat Nat Nat 2} (h : (x.1.regular l && l.followsLog) = true) :
    x.1.regular l = true :=
  ((Bool.and_eq_true _ _).mp h).1

theorem atomicMap_of_run_move :
    ∃ t commits, Transition.exec regularStep moveRun (tableSystem, []) = some (t, commits) ∧
      t.db.HoldsAt t.db.versions.lastSequence (applyCommits tableMap commits) ∧
      CommitsOk putCalls commits t := by
  obtain ⟨t, commits, ht, -⟩ := moveRun_exec
  exact ⟨t, commits, ht, atomicMap_of_run rfl natDb_records natDb_reuses natDb_keepsLive
    tableSystem_opened rfl tableSystem_sequencesOk tableSystem_holdsAt
    (moveRun_run (fun _ _ => regular_of_both) ht)⟩

/-- The read finds the new value in the memtable. -/
theorem get_reads_map_move :
    ∃ t commits, Transition.exec regularStep moveRun (tableSystem, []) = some (t, commits) ∧
      (Status.OK, some 71) = GetResult.ofAnswer (applyCommits tableMap commits 7) := by
  obtain ⟨t, commits, ht, -, -, hgets, -, hnewest, ⟨t₁, u, hcall, hread, hresult⟩, -⟩ :=
    moveRun_exec
  exact ⟨t, commits, ht, get_reads_map rfl natDb_records natDb_answers natDb_reuses natDb_keepsLive
    tableSystem_opened rfl tableSystem_sequencesOk tableSystem_holdsAt
    (moveRun_run (fun _ _ => regular_of_both) ht) (hnewest _) hcall (Transition.Run.of_exec hread)
    (by rw [hgets]; exact hresult)⟩

/-- A read with the number of the start finds the old value in the table that was moved. -/
theorem snapshot_reads_map_move :
    ∃ t commits, Transition.exec regularStep moveRun (tableSystem, []) = some (t, commits) ∧
      (Status.OK, some 70) = GetResult.ofAnswer (applyCommits (W := Nat) tableMap [] 7) := by
  obtain ⟨t, commits, ht, -, -, hgets, -, hnewest, -, t₁, u, hcall, hread, hresult⟩ :=
    moveRun_exec
  have run := Transition.Run.untracked (P := fun x l => System.regular x l = true)
    (moveRun_run (fun _ _ => regular_of_both) ht)
  exact ⟨t, commits, ht, snapshot_reads_map rfl natDb_records natDb_answers natDb_reuses
    natDb_keepsLive tableSystem_opened rfl tableSystem_sequencesOk tableSystem_holdsAt .refl run
    (hnewest _) hcall (Transition.Run.of_exec hread) (by rw [hgets]; exact hresult)⟩

theorem put_get_move :
    ∃ t commits, Transition.exec regularStep moveRun (tableSystem, []) = some (t, commits) ∧
      ∃ before g rest after, commits = before ++ (0, g) :: after ∧
        g.ops = { type := .value, key := 7, value := 71 } :: rest ∧
        ((∀ op ∈ rest, op.key ≠ 7) → (∀ c ∈ after, ∀ op ∈ c.2.ops, op.key ≠ 7) →
          ∃ t₁ u, System.step natDb putCalls t (.getCall 7 none) = some t₁ ∧
            Transition.exec (System.step natDb putCalls) [.getRead 0, .getFinish 0 false false] t₁ =
              some u ∧ ∀ result,
                (u.gets[t.gets.length]?).map GetCall.pc = some (.returned result) →
                  result = (.OK, some 71)) := by
  obtain ⟨t, commits, ht, hreturned, -, -, -, hnewest, ⟨t₁, u, hcall, hread, -⟩, -⟩ :=
    moveRun_exec
  have hput : putCalls 0 = WriteRequest.put false 7 71 := rfl
  obtain ⟨before, g, rest, after, hcommits, hops, hreads⟩ := put_get rfl natDb_records natDb_answers
    natDb_reuses natDb_keepsLive tableSystem_opened rfl tableSystem_sequencesOk tableSystem_holdsAt
    (moveRun_run (fun _ _ => regular_of_both) ht) hput hreturned
  refine ⟨t, commits, ht, before, g, rest, after, hcommits, hops, fun hrest hafter => ?_⟩
  exact ⟨t₁, u, hcall, hread,
    hreads hrest hafter (hnewest _) t₁ hcall u (Transition.Run.of_exec hread)⟩

theorem logReplay_of_run_move :
    ∃ t commits, Transition.exec regularStep moveRun (tableSystem, []) = some (t, commits) ∧
      t.db.logRecords = [{ sequence := 2, ops := [⟨.value, 7, 71⟩] }] ∧
      ∃ written pending, t.db.logRecords = tableSystem.db.logRecords ++ written ++ pending ∧
        t.db.HoldsAt t.db.versions.lastSequence (applyRecords tableMap written) ∧
        pending.length ≤ 1 ∧ ((∀ w, (t.writes w).group? = none) → pending = []) := by
  obtain ⟨t, commits, ht, -, -, -, hrecords, -⟩ := moveRun_exec
  exact ⟨t, commits, ht, hrecords, logReplay_of_run rfl natDb_records natDb_reuses natDb_keepsLive
    tableSystem_opened rfl tableSystem_sequencesOk tableSystem_below tableSystem_last
    tableSystem_logfile tableSystem_holdsAt
    (moveRun_run (fun _ _ h => (Bool.and_eq_true _ _).mp h) ht)⟩

end LevelDB
