import LevelDB.Db.TableCache
import LevelDB.VersionSet.Get

/-!
# `TableCache::Get` step by step

An operation on the cache, the opening of a file and `InternalGet` are one step each, so that the
steps of many calls and evictions may interleave. A failed assertion, a null pointer or a handle
that is followed and not there is `none`.

* `tableGet_alone` — the steps of one call in a row are `tableCacheGet`;
* `tableOpen_agrees` — what is opened from a file differs in the filter and the cache id only;
* `tableGetStep_spec` — what a step does to the cache and to what its call holds;
* `tableGetStep_isSome` — a call can always take its next step.
-/

set_option autoImplicit false

namespace LevelDB

open PinnedCache

variable {U V : Type}

/-! ## The model -/

/-- What `Version::Get` takes from elsewhere. -/
structure TableReadConfig (U V : Type) extends TableCacheConfig where
  /-- `LookupKey::internal_key`. -/
  internalKey : LookupKey U → Slice
  /-- `SaveValue`, called with an entry that a table hands over. -/
  saveValue : U → SaverState V → Slice → Slice → SaverState V
  keyText : U → String

/-- A call of `TableCache::Get` between two of its steps. -/
inductive TableGetPc
  /-- before `Lookup` -/
  | called
  /-- before the file is opened -/
  | missed
  /-- before `Insert` -/
  | opened (tf : TableAndFile)
  /-- before `InternalGet` -/
  | found (handle : Nat)
  /-- before `Release` -/
  | answered (handle : Nat) (s : Status) (entry : Option (Slice × Slice))

/-- How a step of `TableCache::Get` ends. -/
inductive TableGetNext
  | go (pc : TableGetPc)
  | returns (s : Status) (entry : Option (Slice × Slice))
  /-- `FindTable` has failed -/
  | fails (s : Status)

section Cache

variable (cfg : TableCacheConfig)

/-- The part of `FindTable` between `Lookup` and `Insert`: the entry to insert, if the status is
OK. -/
def openForCache (number size : UInt64) (o : FindOutcomes) :
    Option (Status × Option TableAndFile) := do
  let (s, file, _) := openTableFile cfg number o
  let (s, table) ←
    if cfg.ok s then
      file.map fun file => tableOpen cfg.openTable o.io cfg.options file o.newId size
    else some (s, none)
  if ¬ cfg.ok s then
    guard (table.isNone = true)
    pure (s, none)
  else
    let file ← file
    pure (s, some { file, table })

/-- The next step of a call of `TableCache::Get`. -/
def tableGetStep (cache : TableCache) (options : ReadOptions) (number size : UInt64) (k : Slice)
    (o : FindOutcomes) : TableGetPc → Option (TableCache × TableGetNext)
  | .called =>
    match cache.lookup (cfg.encodeFixed64 number) with
    | some (h, cache) => some (cache, .go (.found h))
    | none => some (cache, .go .missed)
  | .missed => (openForCache cfg number size o).map fun (s, tf) =>
    match tf with
    | some tf => (cache, .go (.opened tf))
    | none => (cache, .fails s)
  | .opened tf =>
    let (h, cache) := cache.insert (cfg.encodeFixed64 number) tf
    some (cache, .go (.found h))
  | .found h => do
    let tf ← cache.value h
    let t ← tf.table
    let (s, entry) := cfg.internalGet t options k
    pure (cache, .go (.answered h s entry))
  | .answered h s entry => (cache.release h).map fun cache => (cache, .returns s entry)

end Cache

/-- What the entry that a table hands over leaves in the saver. -/
def TableReadConfig.saved (cfg : TableReadConfig U V) (userKey : U) (saver : SaverState V) :
    Option (Slice × Slice) → SaverState V
  | none => saver
  | some entry => cfg.saveValue userKey saver entry.1 entry.2

/-! ## One call of `TableCache::Get` -/

section Alone

variable {cfg : TableCacheConfig} {cache : TableCache} {number size : UInt64} {o : FindOutcomes}

/-- `FindTable` after a miss. -/
theorem findTable_miss (hmiss : cache.lookup (cfg.encodeFixed64 number) = none) :
    ∃ tried, findTable cfg cache number size o = (openForCache cfg number size o).map fun x =>
      match x.2 with
      | some tf =>
        { s := x.1, handle := some (cache.evictAll o.evicted).next
          cache := ((cache.evictAll o.evicted).insert (cfg.encodeFixed64 number) tf).2, tried }
      | none => { s := x.1, handle := none, cache := cache.evictAll o.evicted, tried } := by
  unfold findTable openForCache guard
  simp only [hmiss]
  obtain ⟨s, file, tried, heq⟩ : ∃ s file tried, openTableFile cfg number o = (s, file, tried) :=
    ⟨_, _, _, rfl⟩
  refine ⟨tried, ?_⟩
  simp only [heq]
  by_cases hs : cfg.ok s = true
  · cases file with
    | none => simp [hs]
    | some file =>
      obtain ⟨s', table, hopen⟩ : ∃ s' table,
          tableOpen cfg.openTable o.io cfg.options file o.newId size = (s', table) := ⟨_, _, rfl⟩
      by_cases hs' : cfg.ok s' = true
      · simp [hs, hopen, hs']
        rfl
      · cases table with
        | none => simp [hs, hopen, hs']
        | some table => simp [hs, hopen, hs']
  · simp [hs]

/-- What opening a file for the cache may give. -/
theorem openForCache_cases (hok : cfg.openTable.ok = Status.isOK) (number size : UInt64)
    (o : FindOutcomes) :
    (∃ s, ¬ cfg.ok s = true ∧ openForCache cfg number size o = some (s, none)) ∨
      ∃ s tf, cfg.ok s = true ∧ openForCache cfg number size o = some (s, some tf) ∧
        OpenedFrom cfg number tf ∧
        tableOpen cfg.openTable o.io cfg.options tf.file o.newId size = (s, tf.table) := by
  unfold openForCache guard
  rcases @openTableFile_cases cfg number o hok with
    ⟨s, file, tried, hs, hname, heq⟩ | ⟨s, tried, hs, heq⟩
  · simp only [heq]
    rcases @tableOpen_cases cfg.openTable o.io cfg.options file o.newId size with
      ⟨s', hs', hopen⟩ | ⟨-, hopen⟩ | ⟨s', table, hs', hfile, hopen⟩
    · exact Or.inl ⟨s', hs', by simp [hs, hopen, hs']⟩
    · have hs' : ¬ cfg.ok (.Corruption "file is too short to be a sstable" "") = true := by
        show ¬ cfg.openTable.ok _ = true
        rw [hok]
        exact Bool.false_ne_true
      exact Or.inl ⟨_, hs', by simp [hs, hopen, hs']⟩
    · refine Or.inr ⟨s', { file, table := some table }, hs', by simp [hs, hopen, hs'], ?_, hopen⟩
      exact ⟨⟨table, rfl, hfile⟩, hname⟩
  · exact Or.inl ⟨s, hs, by simp [heq, hs]⟩

variable (cfg) (options : ReadOptions) (number size : UInt64) (k : Slice) (o : FindOutcomes)
  (evicted : List Slice)

/-- What is evicted before the next step, as `tableCacheGet` has it. -/
def evictedBefore : TableGetPc → List Slice
  | .missed => o.evicted
  | .answered _ _ _ => evicted
  | _ => []

/-- Steps of one call in a row, with evictions between them. -/
def tableGetAlone : Nat → TableCache → TableGetPc → Option GotTable
  | 0, _, _ => none
  | fuel + 1, cache, pc =>
    (tableGetStep cfg (cache.evictAll (evictedBefore o evicted pc)) options number size k o pc).bind
      fun x => match x.2 with
        | .go pc => tableGetAlone fuel x.1 pc
        | .returns s entry => some { s, entry, cache := x.1 }
        | .fails s => some { s, entry := none, cache := x.1 }

/-- From the handle on. -/
theorem tableGetAlone_found (fuel h : Nat) (cache : TableCache) :
    tableGetAlone cfg options number size k o evicted (fuel + 2) cache (.found h) =
      (cache.value h).bind fun tf => tf.table.bind fun t =>
        ((cache.evictAll evicted).release h).bind fun cache' =>
          some { s := (cfg.internalGet t options k).1, entry := (cfg.internalGet t options k).2,
                 cache := cache' } := by
  have hnone : cache.evictAll [] = cache := rfl
  unfold tableGetAlone
  simp only [tableGetStep, evictedBefore, hnone]
  cases cache.value h with
  | none => rfl
  | some tf =>
    cases htable : tf.table with
    | none => simp [htable]
    | some t =>
      simp only [Option.bind_eq_bind, Option.bind_some, htable, Option.pure_def]
      unfold tableGetAlone
      simp only [tableGetStep, evictedBefore]
      cases (cache.evictAll evicted).release h with
      | none => rfl
      | some cache' => rfl

/-- **A call that takes its steps alone** is `TableCache::Get`. -/
theorem tableGet_alone (hok : cfg.openTable.ok = Status.isOK) (cache : TableCache) :
    tableGetAlone cfg options number size k o evicted 5 cache .called =
      tableCacheGet cfg cache options number size k o evicted := by
  have hnone : ∀ cache : TableCache, cache.evictAll [] = cache := fun _ => rfl
  have hOK : cfg.ok .OK = true := by
    show cfg.openTable.ok .OK = true
    rw [hok]
    rfl
  unfold tableGetAlone
  simp only [tableGetStep, evictedBefore, hnone]
  unfold tableCacheGet
  cases hlookup : cache.lookup (cfg.encodeFixed64 number) with
  | some found =>
    have hfind : findTable cfg cache number size o =
        some { s := .OK, handle := some found.1, cache := found.2, tried := [] } := by
      unfold findTable
      simp only [hlookup]
    simp only [Option.bind_some, tableGetAlone_found, hfind, Option.bind_eq_bind, if_pos hOK]
    rfl
  | none =>
    obtain ⟨tried, hfind⟩ := @findTable_miss cfg cache number size o hlookup
    simp only [Option.bind_some, hfind]
    unfold tableGetAlone
    simp only [tableGetStep, evictedBefore]
    rcases openForCache_cases hok number size o with
      ⟨s, hs, hopen⟩ | ⟨s, tf, hs, hopen, -, -⟩
    · simp only [hopen, Option.map_some, Option.bind_some, Option.bind_eq_bind, if_neg hs]
      rfl
    · simp only [hopen, Option.map_some, Option.bind_some, Option.bind_eq_bind, if_pos hs]
      unfold tableGetAlone
      simp only [tableGetStep, evictedBefore, hnone, Option.bind_some, tableGetAlone_found]
      rfl

end Alone

/-! ## What is on disk -/

/-- The table files by their numbers. -/
structure TableDisk where
  size : UInt64 → UInt64
  reads : UInt64 → FileReads

/-- A read gives an error or what is in the file. -/
structure FindOutcomes.ReadsFrom (ok : Status → Bool) (o : FindOutcomes) (file : FileReads) :
    Prop where
  read : ∀ offset n, ok (o.io.read offset n).1 = true → o.io.read offset n = file.read offset n
  readBlock : ∀ options handle, ok (o.io.readBlock options handle).1 = true →
    o.io.readBlock options handle = file.readBlock options handle

/-- Two tables that were opened from the file with this number, under one of its names. -/
structure SameTable (cfg : TableCacheConfig) (number : UInt64) (t t' : Table) : Prop where
  options : t.options = t'.options
  metaindexHandle : t.metaindexHandle = t'.metaindexHandle
  indexBlock : t.indexBlock = t'.indexBlock
  name : t.file.name = cfg.fileName number ∨ t.file.name = cfg.oldFileName number
  name' : t'.file.name = cfg.fileName number ∨ t'.file.name = cfg.oldFileName number

/-- The table that is opened when no read fails. -/
def plainTable (cfg : TableCacheConfig) (disk : TableDisk) (number : UInt64) :
    Status × Option Table :=
  tableOpen cfg.openTable (disk.reads number) cfg.options { name := cfg.fileName number } 0
    (disk.size number)

/-- The entry was opened from the file on disk. -/
structure CachedFrom (cfg : TableCacheConfig) (disk : TableDisk) (number : UInt64)
    (tf : TableAndFile) : Prop where
  opened : OpenedFrom cfg number tf
  same : ∃ t t', tf.table = some t ∧ (plainTable cfg disk number).2 = some t' ∧
    SameTable cfg number t t'

section Plain

variable (cfg : TableReadConfig U V)

/-- What reading a table answers: the status, and what it leaves in an empty saver. -/
def TableReadConfig.answer (options : ReadOptions) (key : LookupKey U) (t : Table) :
    Status × SaverState V :=
  let (s, entry) := cfg.internalGet t options (cfg.internalKey key)
  (s, cfg.saved key.userKey .notFound entry)

/-- A filter saves reads and changes no answer; nor do the cache id and the name of the file. -/
def TableReadConfig.AnswersAlike : Prop :=
  ∀ number t t', SameTable cfg.toTableCacheConfig number t t' →
    ∀ options key, cfg.answer options key t = cfg.answer options key t'

end Plain

section Agrees

variable {cfg : OpenConfig} {options : TableOptions} {file file' : RandomAccessFile}
  {newId newId' size : UInt64}

/-- **What is opened from a file** differs from what is opened without errors in the filter and the
cache id only. -/
theorem tableOpen_agrees {o : FindOutcomes} {plain : FileReads} (hreads : o.ReadsFrom cfg.ok plain)
    {s : Status} {t : Table} (hopen : tableOpen cfg o.io options file newId size = (s, some t)) :
    ∃ t', (tableOpen cfg plain options file' newId' size).2 = some t' ∧ t'.file = file' ∧
      t.options = t'.options ∧ t.metaindexHandle = t'.metaindexHandle ∧
      t.indexBlock = t'.indexBlock := by
  obtain ⟨s₁, input, hread⟩ : ∃ s₁ input,
      o.io.read (size.toNat - Footer.kEncodedLength) Footer.kEncodedLength = (s₁, input) :=
    ⟨_, _, rfl⟩
  obtain ⟨s₂, footer, hfooter⟩ : ∃ s₂ footer, cfg.decodeFooter input = (s₂, footer) :=
    ⟨_, _, rfl⟩
  obtain ⟨s₃, block, hblock⟩ : ∃ s₃ block,
      o.io.readBlock (metaReadOptions cfg options) footer.indexHandle = (s₃, block) := ⟨_, _, rfl⟩
  unfold tableOpen at hopen
  simp only [hread, hfooter, hblock] at hopen
  split at hopen
  · cases hopen
  rename_i hsize
  split at hopen
  · cases hopen
  rename_i hs₁
  split at hopen
  · cases hopen
  rename_i hs₂
  split at hopen
  · rename_i hs₃
    cases hopen
    have hplain := hreads.read (size.toNat - Footer.kEncodedLength) Footer.kEncodedLength
      (by rw [hread]; exact not_not.mp hs₁)
    have hplainBlock := hreads.readBlock (metaReadOptions cfg options) footer.indexHandle
      (by rw [hblock]; exact hs₃)
    rw [hread] at hplain
    rw [hblock] at hplainBlock
    obtain ⟨filter, filterData, hmeta⟩ := @readMeta_file cfg o.io
      { options, file, cacheId := if options.blockCache then newId else 0,
        metaindexHandle := footer.metaindexHandle, indexBlock := block } footer
    obtain ⟨filter', filterData', hmeta'⟩ := @readMeta_file cfg plain
      { options, file := file', cacheId := if options.blockCache then newId' else 0,
        metaindexHandle := footer.metaindexHandle, indexBlock := block } footer
    unfold tableOpen
    simp only [← hplain, hfooter, ← hplainBlock, if_neg hsize, if_neg hs₁, if_neg hs₂, if_pos hs₃]
    refine ⟨_, rfl, ?_⟩
    rw [hmeta, hmeta']
    exact ⟨rfl, rfl, rfl, rfl⟩
  · cases hopen

end Agrees

/-! ## One step of `TableCache::Get` -/

def TableGetPc.held : TableGetPc → List Nat
  | .found h => [h]
  | .answered h _ _ => [h]
  | _ => []

def TableGetNext.held : TableGetNext → List Nat
  | .go pc => pc.held
  | _ => []

/-- How many steps a call has taken at most. -/
def TableGetPc.phase : TableGetPc → Nat
  | .called => 0
  | .missed => 1
  | .opened _ => 2
  | .found _ => 3
  | .answered _ _ _ => 4

theorem TableGetPc.phase_le (pc : TableGetPc) : pc.phase ≤ 4 := by
  cases pc with
  | _ => simp [TableGetPc.phase]

def TableGetNext.phase : TableGetNext → Nat
  | .go pc => pc.phase
  | _ => 5

/-- What a step does to the cache, for a call that held some handles and holds others then. -/
structure Exchanges (cache cache' : TableCache) (held held' : List Nat) : Prop where
  pins : ∀ n, cache'.pins n + held.count n = cache.pins n + held'.count n
  value : ∀ n, 0 < cache.pins n → 0 < cache'.pins n → cache'.value n = cache.value n

theorem Exchanges.refl (cache : TableCache) (held : List Nat) :
    Exchanges cache cache held held := ⟨fun _ => rfl, fun _ _ _ => rfl⟩

section Step

variable (cfg : TableReadConfig U V) (disk : TableDisk) (cache : TableCache)
  (options : ReadOptions) (key : LookupKey U) (number : UInt64)

/-- The status, with what the entry leaves in an empty saver, is the answer of the table. -/
def AnswersPlain (s : Status) (entry : Option (Slice × Slice)) : Prop :=
  ∃ t, (plainTable cfg.toTableCacheConfig disk number).2 = some t ∧
    cfg.answer options key t = (s, cfg.saved key.userKey .notFound entry)

/-- What is cached under the key of a file was opened from it. -/
def TablesFrom : Prop :=
  Cache.All (fun _ k tf => ∃ number, k = cfg.encodeFixed64 number ∧
    CachedFrom cfg.toTableCacheConfig disk number tf) cache

/-- The handle leads to the table of the file. -/
def LeadsTo (h : Nat) : Prop :=
  ∃ tf, cache.value h = some tf ∧ CachedFrom cfg.toTableCacheConfig disk number tf

def TableGetPc.Ok : TableGetPc → Prop
  | .opened tf => CachedFrom cfg.toTableCacheConfig disk number tf
  | .found h => LeadsTo cfg disk cache number h
  | .answered h s entry =>
    LeadsTo cfg disk cache number h ∧ AnswersPlain cfg disk options key number s entry
  | _ => True

def TableGetNext.Ok : TableGetNext → Prop
  | .go pc => pc.Ok cfg disk cache options key number
  | .returns s entry => AnswersPlain cfg disk options key number s entry
  | .fails s => ¬ cfg.ok s = true

variable {cfg disk cache options key number} {cache' : TableCache} {o : FindOutcomes}
  {pc : TableGetPc} {next : TableGetNext}

theorem LeadsTo.congr {h : Nat} (hvalue : cache'.value h = cache.value h)
    (hleads : LeadsTo cfg disk cache number h) : LeadsTo cfg disk cache' number h := by
  obtain ⟨tf, htf, hcached⟩ := hleads
  exact ⟨tf, hvalue.trans htf, hcached⟩

/-- Other calls keep what a call relies on, if they keep the values of its handles. -/
theorem TableGetPc.Ok.congr (h : pc.Ok cfg disk cache options key number)
    (hvalue : ∀ n ∈ pc.held, cache'.value n = cache.value n) :
    pc.Ok cfg disk cache' options key number := by
  cases pc with
  | called => trivial
  | missed => trivial
  | opened tf => exact h
  | found n => exact LeadsTo.congr (hvalue n List.mem_cons_self) h
  | answered n s entry => exact ⟨h.1.congr (hvalue n List.mem_cons_self), h.2⟩

/-- `Lookup`. -/
theorem tableGetStep_called (hencode : EncodesFixed64 cfg.encodeFixed64)
    (hentries : TablesFrom cfg disk cache) {size : UInt64} {k : Slice}
    (hstep : tableGetStep cfg.toTableCacheConfig cache options number size k o .called =
      some (cache', next)) :
    TablesFrom cfg disk cache' ∧ next.Ok cfg disk cache' options key number ∧
      Exchanges cache cache' [] next.held ∧ 0 < next.phase := by
  unfold tableGetStep at hstep
  dsimp only at hstep
  split at hstep
  · rename_i h found hlookup
    cases hstep
    obtain ⟨hindex, rfl⟩ := Cache.lookup_eq_some.mp hlookup
    obtain ⟨tf, hvalue, number', hkey, hcached⟩ := hentries.index hindex
    obtain rfl := hencode.injective hkey
    refine ⟨Cache.All.setPins hentries _ _, ⟨tf, ?_, hcached⟩, ⟨fun n => ?_, fun n _ _ => ?_⟩,
      Nat.succ_pos 2⟩
    · rw [Cache.value_setPins]
      exact hvalue
    · rw [Cache.pins_lookup hlookup]
      by_cases hn : n = h
      · simp [hn, TableGetNext.held, TableGetPc.held]
      · simp [hn, TableGetNext.held, TableGetPc.held, Ne.symm hn]
    · exact Cache.value_setPins _ _ n
  · cases hstep
    exact ⟨hentries, trivial, .refl _ _, Nat.succ_pos 0⟩

/-- Opening the file. -/
theorem tableGetStep_missed (hok : cfg.openTable.ok = Status.isOK)
    (hentries : TablesFrom cfg disk cache)
    (hreads : o.ReadsFrom cfg.openTable.ok (disk.reads number)) {k : Slice}
    (hstep : tableGetStep cfg.toTableCacheConfig cache options number (disk.size number) k o
      .missed = some (cache', next)) :
    TablesFrom cfg disk cache' ∧ next.Ok cfg disk cache' options key number ∧
      Exchanges cache cache' [] next.held ∧ 1 < next.phase := by
  obtain ⟨x, hopen, hstep⟩ := Option.map_eq_some_iff.mp hstep
  rcases openForCache_cases hok number (disk.size number) o with
    ⟨s, hs, hfails⟩ | ⟨s, tf, hs, hopens, hopened, htable⟩
  · rw [hfails] at hopen
    cases hopen
    cases hstep
    exact ⟨hentries, hs, .refl _ _, Nat.lt_of_sub_eq_succ rfl⟩
  · rw [hopens] at hopen
    cases hopen
    cases hstep
    obtain ⟨t, ht, hfile⟩ := hopened.table
    rw [ht] at htable
    obtain ⟨t', ht', hfile', hoptions, hmeta, hindex⟩ :=
      @tableOpen_agrees cfg.openTable cfg.options tf.file { name := cfg.fileName number } o.newId 0
        (disk.size number) o (disk.reads number) hreads _ t htable
    have hname : t.file.name = cfg.fileName number ∨ t.file.name = cfg.oldFileName number := by
      rw [hfile]
      exact hopened.name
    have hname' : t'.file.name = cfg.fileName number := by rw [hfile']
    have hsame : SameTable cfg.toTableCacheConfig number t t' :=
      ⟨hoptions, hmeta, hindex, hname, Or.inl hname'⟩
    exact ⟨hentries, ⟨hopened, t, t', ht, ht', hsame⟩, .refl _ _, Nat.lt_of_sub_eq_succ rfl⟩

/-- `Insert`. -/
theorem tableGetStep_opened (hentries : TablesFrom cfg disk cache) {tf : TableAndFile}
    (hcached : CachedFrom cfg.toTableCacheConfig disk number tf) {size : UInt64} {k : Slice}
    (hstep : tableGetStep cfg.toTableCacheConfig cache options number size k o (.opened tf) =
      some (cache', next)) :
    TablesFrom cfg disk cache' ∧ next.Ok cfg disk cache' options key number ∧
      Exchanges cache cache' [] next.held ∧ 2 < next.phase := by
  have hinsert : tableGetStep cfg.toTableCacheConfig cache options number size k o (.opened tf) =
      some ((cache.insert (cfg.encodeFixed64 number) tf).2, .go (.found cache.next)) := rfl
  rw [hinsert] at hstep
  obtain ⟨rfl, rfl⟩ := Prod.mk.inj (Option.some.inj hstep)
  refine ⟨Cache.All.insert hentries ⟨number, rfl, hcached⟩,
    ⟨tf, Cache.value_insert_self, hcached⟩, ⟨fun n => ?_, fun n hn _ => Cache.value_insert hn⟩,
    Nat.lt_of_sub_eq_succ rfl⟩
  rw [Cache.pins_insert]
  by_cases hn : n = cache.next
  · subst hn
    rw [if_pos rfl, Cache.pins_next]
    simp [TableGetNext.held, TableGetPc.held]
  · rw [if_neg hn]
    simp [TableGetNext.held, TableGetPc.held, Ne.symm hn]

/-- `InternalGet`. -/
theorem tableGetStep_found (halike : cfg.AnswersAlike) (hentries : TablesFrom cfg disk cache)
    {h : Nat} (hleads : LeadsTo cfg disk cache number h) {size : UInt64}
    (hstep : tableGetStep cfg.toTableCacheConfig cache options number size (cfg.internalKey key) o
      (.found h) = some (cache', next)) :
    TablesFrom cfg disk cache' ∧ next.Ok cfg disk cache' options key number ∧
      Exchanges cache cache' [h] next.held ∧ 3 < next.phase := by
  obtain ⟨tf, hvalue, hcached⟩ := hleads
  obtain ⟨t, t', ht, ht', hsame⟩ := hcached.same
  unfold tableGetStep at hstep
  simp only [hvalue, ht, Option.bind_eq_bind, Option.bind_some, Option.pure_def,
    Option.some.injEq, Prod.mk.injEq] at hstep
  obtain ⟨rfl, rfl⟩ := hstep
  refine ⟨hentries, ⟨⟨tf, hvalue, hcached⟩, t', ht', ?_⟩, .refl _ _, Nat.lt_of_sub_eq_succ rfl⟩
  rw [← halike number t t' hsame options key]
  rfl

/-- `Release`. -/
theorem tableGetStep_answered (hentries : TablesFrom cfg disk cache) {h : Nat} {s : Status}
    {entry : Option (Slice × Slice)}
    (hanswers : AnswersPlain cfg disk options key number s entry) {size : UInt64} {k : Slice}
    (hstep : tableGetStep cfg.toTableCacheConfig cache options number size k o
      (.answered h s entry) = some (cache', next)) :
    TablesFrom cfg disk cache' ∧ next.Ok cfg disk cache' options key number ∧
      Exchanges cache cache' [h] next.held ∧ 4 < next.phase := by
  obtain ⟨released, hrelease, heq⟩ := Option.map_eq_some_iff.mp hstep
  cases heq
  obtain ⟨hpos, -⟩ := Cache.release_cases hrelease
  refine ⟨Cache.All.release hentries hrelease, hanswers, ⟨fun n => ?_, fun n _ hn => ?_⟩,
    Nat.lt_of_sub_eq_succ rfl⟩
  · rw [Cache.pins_release hrelease]
    by_cases hn : n = h
    · subst hn
      simp [TableGetNext.held]
      omega
    · simp [hn, TableGetNext.held, Ne.symm hn]
  · exact Cache.value_release hrelease hn

/-- **A step of `TableCache::Get`.** -/
theorem tableGetStep_spec (hok : cfg.openTable.ok = Status.isOK)
    (hencode : EncodesFixed64 cfg.encodeFixed64) (halike : cfg.AnswersAlike)
    (hentries : TablesFrom cfg disk cache) (hpc : pc.Ok cfg disk cache options key number)
    (hreads : o.ReadsFrom cfg.openTable.ok (disk.reads number))
    (hstep : tableGetStep cfg.toTableCacheConfig cache options number (disk.size number)
      (cfg.internalKey key) o pc = some (cache', next)) :
    TablesFrom cfg disk cache' ∧ next.Ok cfg disk cache' options key number ∧
      Exchanges cache cache' pc.held next.held ∧ pc.phase < next.phase := by
  cases pc with
  | called => exact tableGetStep_called hencode hentries hstep
  | missed => exact tableGetStep_missed hok hentries hreads hstep
  | opened tf => exact tableGetStep_opened hentries hpc hstep
  | found h => exact tableGetStep_found halike hentries hpc hstep
  | answered h s entry => exact tableGetStep_answered hentries hpc.2 hstep

/-- **A call can take its next step**, whatever the environment does. -/
theorem tableGetStep_isSome (hok : cfg.openTable.ok = Status.isOK)
    (hpc : pc.Ok cfg disk cache options key number) (hpins : ∀ n ∈ pc.held, 0 < cache.pins n)
    (size : UInt64) (k : Slice) (o : FindOutcomes) :
    ∃ x, tableGetStep cfg.toTableCacheConfig cache options number size k o pc = some x := by
  cases pc with
  | called =>
    unfold tableGetStep
    dsimp only
    split
    · exact ⟨_, rfl⟩
    · exact ⟨_, rfl⟩
  | missed =>
    unfold tableGetStep
    rcases @openForCache_cases cfg.toTableCacheConfig hok number size o with
      ⟨s, -, hfails⟩ | ⟨s, tf, -, hopens, -⟩
    · exact ⟨_, by rw [hfails]; rfl⟩
    · exact ⟨_, by rw [hopens]; rfl⟩
  | opened tf => exact ⟨_, rfl⟩
  | found h =>
    obtain ⟨tf, hvalue, hcached⟩ := hpc
    obtain ⟨t, ht, -⟩ := hcached.opened.table
    unfold tableGetStep
    simp only [hvalue, ht, Option.bind_eq_bind, Option.bind_some]
    exact ⟨_, rfl⟩
  | answered h s entry =>
    obtain ⟨released, hrelease⟩ := Cache.release_isSome (hpins h List.mem_cons_self)
    refine ⟨(released, .returns s entry), ?_⟩
    show (cache.release h).map _ = _
    rw [hrelease]
    rfl

end Step

end LevelDB
