import LevelDB.Table.Open

/-!
# The table cache

`TableCache::FindTable` and `Get`, over a cache that may evict entries between any two operations
on it. A failed assertion or a null pointer that is followed is `none`.

* `findTable_cases` — what `FindTable` does: it hits, opens the file, or fails;
* `tableCacheGet_cases` — `Get` gives up the pin that `FindTable` took;
* `tableCache_coherent` — what is cached for a file was opened from it, in every run.
-/

set_option autoImplicit false

namespace LevelDB

open PinnedCache

structure TableAndFile where
  file : RandomAccessFile
  table : Option Table

abbrev TableCache : Type := Cache Slice TableAndFile

structure TableCacheConfig where
  openTable : OpenConfig
  options : TableOptions
  dbname : FileName
  tableFileName : FileName → UInt64 → FileName
  sstTableFileName : FileName → UInt64 → FileName
  encodeFixed64 : UInt64 → Slice
  /-- `Table::InternalGet`: the status, and the entry that it hands to `handle_result`, if any. -/
  internalGet : Table → ReadOptions → Slice → Status × Option (Slice × Slice)

/-- What the environment does during a call of `FindTable`. `NewRandomAccessFile` opens the file
if it returns OK. -/
structure FindOutcomes where
  newFile : Status := .OK
  newOldFile : Status := .OK
  io : FileReads
  newId : UInt64 := 1
  /-- The keys that the cache evicts between `Lookup` and `Insert`, as far as it may. -/
  evicted : List Slice := []

/-- What `FindTable` returns, with the names of the files that it tried to open. -/
structure FoundTable where
  s : Status
  handle : Option Nat
  cache : TableCache
  tried : List FileName

structure GotTable where
  s : Status
  entry : Option (Slice × Slice)
  cache : TableCache

section Model

variable (cfg : TableCacheConfig)

namespace TableCacheConfig

abbrev ok (s : Status) : Bool := cfg.openTable.ok s

def fileName (number : UInt64) : FileName := cfg.tableFileName cfg.dbname number

def oldFileName (number : UInt64) : FileName := cfg.sstTableFileName cfg.dbname number

end TableCacheConfig

/-- The two attempts to open the file of a table. -/
def openTableFile (number : UInt64) (o : FindOutcomes) :
    Status × Option RandomAccessFile × List FileName :=
  if cfg.ok o.newFile then
    (o.newFile, some { name := cfg.fileName number }, [cfg.fileName number])
  else
    let tried := [cfg.fileName number, cfg.oldFileName number]
    if cfg.ok o.newOldFile then (.OK, some { name := cfg.oldFileName number }, tried)
    else (o.newFile, none, tried)

def findTable (cache : TableCache) (number size : UInt64) (o : FindOutcomes) :
    Option FoundTable :=
  let key := cfg.encodeFixed64 number
  match cache.lookup key with
  | some (h, cache) => some { s := .OK, handle := some h, cache, tried := [] }
  | none => do
    let (s, file, tried) := openTableFile cfg number o
    let cache := cache.evictAll o.evicted
    let (s, table) ←
      if cfg.ok s then
        file.map fun file => tableOpen cfg.openTable o.io cfg.options file o.newId size
      else some (s, none)
    if ¬ cfg.ok s then
      guard (table.isNone = true)
      pure { s, handle := none, cache, tried }
    else
      let file ← file
      let (h, cache) := cache.insert key { file, table }
      pure { s, handle := some h, cache, tried }

/-- `TableCache::Get`; `evicted` goes before `Release`. -/
def tableCacheGet (cache : TableCache) (options : ReadOptions) (number size : UInt64) (k : Slice)
    (o : FindOutcomes) (evicted : List Slice) : Option GotTable := do
  let r ← findTable cfg cache number size o
  if cfg.ok r.s then
    let h ← r.handle
    let tf ← r.cache.value h
    let t ← tf.table
    let (s, entry) := cfg.internalGet t options k
    let cache ← (r.cache.evictAll evicted).release h
    pure { s, entry, cache }
  else pure { s := r.s, entry := none, cache := r.cache }

inductive TableCacheLabel
  | get (options : ReadOptions) (number size : UInt64) (k : Slice) (o : FindOutcomes)
      (evicted : List Slice)
  | evict (key : Slice)

def tableCacheStep (cache : TableCache) : TableCacheLabel → Option TableCache
  | .get options number size k o evicted =>
    (tableCacheGet cfg cache options number size k o evicted).map GotTable.cache
  | .evict key => cache.evict key

/-- The entry was made from the file of the table, under one of its names. -/
structure OpenedFrom (number : UInt64) (tf : TableAndFile) : Prop where
  table : ∃ table, tf.table = some table ∧ table.file = tf.file
  name : tf.file.name = cfg.fileName number ∨ tf.file.name = cfg.oldFileName number

/-- **Every entry is under the key of the file that it was opened from.** -/
def TablesOk (cache : TableCache) : Prop :=
  Cache.All (fun _ key tf => ∃ number, key = cfg.encodeFixed64 number ∧ OpenedFrom cfg number tf)
    cache

end Model

/-- The next calls, and what is cached. -/
structure TableCacheOk (cfg : TableCacheConfig) (cache : TableCache) : Prop where
  entries : ∀ number n, cache.index (cfg.encodeFixed64 number) = some n →
    ∃ tf, cache.value n = some tf ∧ OpenedFrom cfg number tf
  finds : ∀ number size o, ∃ r, findTable cfg cache number size o = some r ∧
    (r.s = .OK ↔ r.handle ≠ none) ∧
    (r.s ≠ .OK → r.cache = cache.evictAll o.evicted)
  /-- After a failure, and more evictions, the file is opened again. -/
  retries : ∀ number size o r, findTable cfg cache number size o = some r → r.s ≠ .OK →
    ∀ cache', Cache.Evicts r.cache cache' → ∀ size' o', ∃ r',
      findTable cfg cache' number size' o' = some r' ∧
        r'.tried.head? = some (cfg.fileName number)
  gets : ∀ options number size k o evicted, ∃ g,
    tableCacheGet cfg cache options number size k o evicted = some g ∧
      ∀ n, g.cache.pins n = cache.pins n

/-! ## FindTable -/

/-- What a call of `FindTable` does. -/
inductive FindsTable (cfg : TableCacheConfig) (cache : TableCache) (number : UInt64)
    (o : FindOutcomes) : FoundTable → Prop
  | hits {h : Nat} (hindex : cache.index (cfg.encodeFixed64 number) = some h) :
      FindsTable cfg cache number o
        { s := .OK, handle := some h, cache := cache.setPins h (· + 1), tried := [] }
  | fails {s : Status} {tried : List FileName}
      (hindex : cache.index (cfg.encodeFixed64 number) = none) (hs : ¬ cfg.ok s) :
      FindsTable cfg cache number o
        { s, handle := none, cache := cache.evictAll o.evicted,
          tried := cfg.fileName number :: tried }
  | opens {s : Status} {tried : List FileName} {tf : TableAndFile}
      (hindex : cache.index (cfg.encodeFixed64 number) = none) (hs : cfg.ok s)
      (hopened : OpenedFrom cfg number tf) :
      FindsTable cfg cache number o
        { s, handle := some (cache.evictAll o.evicted).next,
          cache := ((cache.evictAll o.evicted).insert (cfg.encodeFixed64 number) tf).2,
          tried := cfg.fileName number :: tried }

section FindTable

variable {cfg : TableCacheConfig} {cache : TableCache} {number size : UInt64} {o : FindOutcomes}
  {r : FoundTable}

theorem openTableFile_cases (hok : cfg.openTable.ok = Status.isOK) :
    (∃ s file tried, cfg.ok s = true ∧
        (file.name = cfg.fileName number ∨ file.name = cfg.oldFileName number) ∧
        openTableFile cfg number o = (s, some file, cfg.fileName number :: tried)) ∨
      ∃ s tried, ¬ cfg.ok s = true ∧
        openTableFile cfg number o = (s, none, cfg.fileName number :: tried) := by
  unfold openTableFile
  by_cases hnew : cfg.ok o.newFile = true
  · rw [if_pos hnew]
    exact Or.inl ⟨_, _, _, hnew, Or.inl rfl, rfl⟩
  rw [if_neg hnew]
  by_cases hold : cfg.ok o.newOldFile = true
  · simp only [if_pos hold]
    refine Or.inl ⟨.OK, _, _, ?_, Or.inr rfl, rfl⟩
    show cfg.openTable.ok .OK = true
    rw [hok]
    rfl
  · simp only [if_neg hold]
    exact Or.inr ⟨_, _, hnew, rfl⟩

/-- **`FindTable` passes its assertion** and does one of these. -/
theorem findTable_cases (hok : cfg.openTable.ok = Status.isOK) (cache : TableCache)
    (number size : UInt64) (o : FindOutcomes) :
    ∃ r, findTable cfg cache number size o = some r ∧ FindsTable cfg cache number o r := by
  unfold findTable guard
  dsimp only
  cases hlookup : cache.lookup (cfg.encodeFixed64 number) with
  | some found =>
    obtain ⟨h, cache'⟩ := found
    obtain ⟨hindex, rfl⟩ := Cache.lookup_eq_some.mp hlookup
    exact ⟨_, rfl, .hits hindex⟩
  | none =>
    have hindex := Cache.lookup_eq_none.mp hlookup
    have hfails : ∀ s tried, ¬ cfg.ok s = true → FindsTable cfg cache number o
        { s, handle := none, cache := cache.evictAll o.evicted,
          tried := cfg.fileName number :: tried } := fun s tried hs => .fails hindex hs
    rcases @openTableFile_cases cfg number o hok with
      ⟨s, file, tried, hs, hname, heq⟩ | ⟨s, tried, hs, heq⟩
    · simp only [heq, if_pos hs, Option.map_some]
      rcases @tableOpen_cases cfg.openTable o.io cfg.options file o.newId size with
        ⟨s', hs', hopen⟩ | ⟨-, hopen⟩ | ⟨s', table, hs', hfile, hopen⟩
      · simp only [hopen]
        refine ⟨_, ?_, hfails s' tried hs'⟩
        simp [hs']
      · have hs' : ¬ cfg.ok (.Corruption "file is too short to be a sstable" "") = true := by
          show ¬ cfg.openTable.ok _ = true
          rw [hok]
          nofun
        simp only [hopen]
        refine ⟨_, ?_, hfails _ tried hs'⟩
        simp [hs']
      · simp only [hopen]
        have hopened : OpenedFrom cfg number { file, table := some table } :=
          ⟨⟨table, rfl, hfile⟩, hname⟩
        have hopens : FindsTable cfg cache number o
            { s := s', handle := some (cache.evictAll o.evicted).next,
              cache := ((cache.evictAll o.evicted).insert (cfg.encodeFixed64 number)
                { file, table := some table }).2,
              tried := cfg.fileName number :: tried } := .opens hindex hs' hopened
        refine ⟨_, ?_, hopens⟩
        simp [hs']
        rfl
    · simp only [heq, if_neg hs]
      refine ⟨_, ?_, hfails s tried hs⟩
      simp [hs]

/-- `FindTable` returns OK if and only if it sets the handle. -/
theorem FindsTable.ok_iff (h : FindsTable cfg cache number o r)
    (hok : cfg.openTable.ok = Status.isOK) : cfg.ok r.s = true ↔ r.handle ≠ none := by
  cases h with
  | hits =>
    refine iff_of_true ?_ nofun
    show cfg.openTable.ok .OK = true
    rw [hok]
    rfl
  | fails _ hs => exact iff_of_false hs fun hne => hne rfl
  | opens _ hs => exact iff_of_true hs nofun

/-- A table that was not found is still not cached. -/
theorem FindsTable.failed (h : FindsTable cfg cache number o r) (hnone : r.handle = none) :
    r.cache = cache.evictAll o.evicted ∧ cache.index (cfg.encodeFixed64 number) = none := by
  cases h with
  | hits => cases hnone
  | fails hindex => exact ⟨rfl, hindex⟩
  | opens => cases hnone

/-- A table that is not cached is opened, under its current name first. -/
theorem FindsTable.tries (h : FindsTable cfg cache number o r)
    (hnone : cache.index (cfg.encodeFixed64 number) = none) :
    r.tried.head? = some (cfg.fileName number) := by
  cases h with
  | hits hindex =>
    rw [hnone] at hindex
    cases hindex
  | fails => rfl
  | opens => rfl

theorem FindsTable.tablesOk (h : FindsTable cfg cache number o r) (hcache : TablesOk cfg cache) :
    TablesOk cfg r.cache := by
  cases h with
  | hits => exact hcache.setPins _ _
  | fails => exact hcache.evicts (Cache.evicts_evictAll _ _)
  | opens _ _ hopened =>
    exact Cache.All.insert (hcache.evicts (Cache.evicts_evictAll _ _)) ⟨number, rfl, hopened⟩

/-- The handle is pinned once more than before, and its table is there. -/
theorem FindsTable.found (h : FindsTable cfg cache number o r) (hcache : TablesOk cfg cache)
    {n : Nat} (hn : r.handle = some n) :
    (∃ tf table, r.cache.value n = some tf ∧ tf.table = some table) ∧
      ∀ m, r.cache.pins m = cache.pins m + if m = n then 1 else 0 := by
  cases h with
  | @hits h hindex =>
    cases hn
    obtain ⟨tf, hvalue, number', -, hopened⟩ := hcache.index hindex
    obtain ⟨table, htable, -⟩ := hopened.table
    refine ⟨⟨tf, table, ?_, htable⟩, fun m => ?_⟩
    · rw [Cache.value_setPins]
      exact hvalue
    · rw [Cache.pins_lookup (Cache.lookup_eq_some.mpr ⟨hindex, rfl⟩)]
      split
      · rfl
      · rfl
  | fails => cases hn
  | @opens s tried tf _ _ hopened =>
    cases hn
    obtain ⟨table, htable, -⟩ := hopened.table
    have hevicts := Cache.evicts_evictAll o.evicted cache
    refine ⟨⟨tf, table, Cache.value_insert_self, htable⟩, fun m => ?_⟩
    rw [Cache.pins_insert, ← hevicts.pins m]
    split
    · rename_i hm
      rw [hm, Cache.pins_next]
    · rfl

/-! ## Get -/

/-- **`Get` leaves every pin count as it found it**, and the cache coherent. -/
theorem tableCacheGet_spec (hok : cfg.openTable.ok = Status.isOK) (hcache : TablesOk cfg cache)
    (options : ReadOptions) (number size : UInt64) (k : Slice) (o : FindOutcomes)
    (evicted : List Slice) :
    ∃ g, tableCacheGet cfg cache options number size k o evicted = some g ∧
      TablesOk cfg g.cache ∧ ∀ n, g.cache.pins n = cache.pins n := by
  obtain ⟨r, hr, hfinds⟩ := findTable_cases hok cache number size o
  have htables := hfinds.tablesOk hcache
  unfold tableCacheGet
  simp only [hr, Option.bind_eq_bind, Option.bind_some]
  by_cases hs : cfg.ok r.s = true
  · obtain ⟨n, hn⟩ := Option.ne_none_iff_exists'.mp ((hfinds.ok_iff hok).mp hs)
    obtain ⟨⟨tf, table, hvalue, htable⟩, hpins⟩ := hfinds.found hcache hn
    have hevicts := Cache.evicts_evictAll evicted r.cache
    have hpos : 0 < (r.cache.evictAll evicted).pins n := by
      rw [hevicts.pins, hpins, if_pos rfl]
      omega
    obtain ⟨cache', hrelease⟩ := Cache.release_isSome hpos
    obtain ⟨s, entry, hget⟩ : ∃ s entry, cfg.internalGet table options k = (s, entry) :=
      ⟨_, _, rfl⟩
    refine ⟨{ s, entry, cache := cache' }, ?_,
      Cache.All.release (htables.evicts hevicts) hrelease, fun m => ?_⟩
    · simp [hs, hn, hvalue, htable, hrelease, hget]
    · show cache'.pins m = cache.pins m
      rw [Cache.pins_release hrelease, hevicts.pins, hpins]
      split
      · omega
      · rfl
  · refine ⟨{ s := r.s, entry := none, cache := r.cache }, by simp [hs], htables, fun m => ?_⟩
    have hnone : r.handle = none := by
      by_contra hne
      exact hs ((hfinds.ok_iff hok).mpr hne)
    show r.cache.pins m = cache.pins m
    rw [(hfinds.failed hnone).1]
    exact (Cache.evicts_evictAll o.evicted cache).pins m

/-! ## Runs -/

theorem TablesOk.step (hok : cfg.openTable.ok = Status.isOK) (h : TablesOk cfg cache)
    {l : TableCacheLabel} {cache' : TableCache} (hstep : tableCacheStep cfg cache l = some cache') :
    TablesOk cfg cache' := by
  cases l with
  | get options number size k o evicted =>
    obtain ⟨g, hg, rfl⟩ := Option.map_eq_some_iff.mp hstep
    obtain ⟨g', hg', htables, -⟩ := tableCacheGet_spec hok h options number size k o evicted
    obtain rfl := Option.some.inj (hg.symm.trans hg')
    exact htables
  | evict key => exact h.evicts (Cache.evicts_evict hstep)

/-- A failed `FindTable` caches nothing. -/
theorem retries_of_failed (hok : cfg.openTable.ok = Status.isOK)
    (hr : findTable cfg cache number size o = some r) (hs : r.s ≠ .OK) {cache' : TableCache}
    (hevicts : Cache.Evicts r.cache cache') (size' : UInt64) (o' : FindOutcomes) :
    ∃ r', findTable cfg cache' number size' o' = some r' ∧
      r'.tried.head? = some (cfg.fileName number) := by
  obtain ⟨r₀, hr₀, hfinds⟩ := findTable_cases hok cache number size o
  obtain rfl := Option.some.inj (hr.symm.trans hr₀)
  have hhandle : r.handle = none := by
    by_contra hne
    have hsome := (hfinds.ok_iff hok).mpr hne
    unfold TableCacheConfig.ok at hsome
    rw [hok] at hsome
    exact hs (Status.isOK_iff.mp hsome)
  obtain ⟨hcache, hnone⟩ := hfinds.failed hhandle
  have hstill : cache'.index (cfg.encodeFixed64 number) = none := by
    have hall := (Cache.evicts_evictAll o.evicted cache).trans (hcache ▸ hevicts)
    rcases hall.index (cfg.encodeFixed64 number) with heq | hgone
    · exact heq.trans hnone
    · exact hgone
  obtain ⟨r', hr', hfinds'⟩ := findTable_cases hok cache' number size' o'
  exact ⟨r', hr', hfinds'.tries hstill⟩

/-- **The table cache is coherent.** In every state of every run of `Get` with evictions: what is
cached under the key of a file was opened from that file; `FindTable` passes its assertion, returns
OK if and only if it sets the handle, and else leaves the cache as it was, so that a retry opens the
file again; and `Get` leaves every pin count as it found it. -/
theorem tableCache_coherent (hok : cfg.openTable.ok = Status.isOK)
    (hencode : EncodesFixed64 cfg.encodeFixed64) {cache₀ : TableCache} (hstart : TablesOk cfg cache₀)
    (run : Transition.Reaches (tableCacheStep cfg) cache₀ cache) :
    TableCacheOk cfg cache ∧
      ∀ io options file newId size,
        (tableOpen cfg.openTable io options file newId size).1 = .OK ↔
          (tableOpen cfg.openTable io options file newId size).2 ≠ none := by
  have htables := run.invariant (fun h _ hstep => h.step hok hstep) hstart
  have hisOK : ∀ s, cfg.ok s = true ↔ s = .OK := by
    intro s
    unfold TableCacheConfig.ok
    rw [hok]
    exact Status.isOK_iff
  refine ⟨⟨fun number n hindex => ?_, fun number size o => ?_,
    fun number size o r hr hs cache' hevicts => retries_of_failed hok hr hs hevicts,
    fun options number size k o evicted => ?_⟩, fun io options file newId size => ?_⟩
  · obtain ⟨tf, hvalue, number', hkey, hopened⟩ := htables.index hindex
    obtain rfl := hencode.injective hkey
    exact ⟨tf, hvalue, hopened⟩
  · obtain ⟨r, hr, hfinds⟩ := findTable_cases hok cache number size o
    refine ⟨r, hr, (hisOK r.s).symm.trans (hfinds.ok_iff hok), fun hs => ?_⟩
    refine (hfinds.failed ?_).1
    by_contra hne
    exact hs ((hisOK r.s).mp ((hfinds.ok_iff hok).mpr hne))
  · obtain ⟨g, hg, -, hpins⟩ := tableCacheGet_spec hok htables options number size k o evicted
    exact ⟨g, hg, hpins⟩
  · rw [← hisOK]
    exact (tableOpen_ok_iff hok).trans Option.isSome_iff_ne_none

end FindTable

/-! ## A small table cache -/

def smallTableCache : TableCacheConfig where
  openTable :=
    { ok := Status.isOK
      decodeFooter := fun _ =>
        (.OK, { metaindexHandle := { offset := 1, size := 1 },
                indexHandle := { offset := 2, size := 1 } })
      decodeHandle := smallTable.decodeHandle
      readOptions := {}
      seek := fun _ _ => none }
  options := {}
  dbname := ['d', 'b']
  tableFileName dbname number := makeFileName dbname number.toNat ['l', 'd', 'b']
  sstTableFileName dbname number := makeFileName dbname number.toNat ['s', 's', 't']
  encodeFixed64 := encodeFixed64
  internalGet table _ k := (.OK, some (k, table.indexBlock.data))

/-- Every read succeeds. -/
def smallReads : FileReads where
  read _ n := (.OK, List.replicate n 0)
  readBlock _ handle := (.OK, { data := [handle.offset.toUInt8], cachable := true })

/-- The file cannot be opened, is opened under its legacy name, found in the cache, evicted, and too
short. -/
def smallRun : List TableCacheLabel :=
  [.get {} 5 100 [1]
      { newFile := .IOError "open" "", newOldFile := .IOError "open" "", io := smallReads } [],
    .get {} 5 100 [1] { newFile := .IOError "open" "", io := smallReads } [],
    .get {} 5 100 [1] { io := smallReads } [encodeFixed64 5],
    .get {} 6 100 [1] { io := smallReads } [],
    .evict (encodeFixed64 5),
    .get {} 5 10 [1] { io := smallReads } []]

theorem tableCache_coherent_run :
    ∃ cache, Transition.exec (tableCacheStep smallTableCache) smallRun .empty = some cache ∧
      cache.index (encodeFixed64 5) = none ∧ cache.index (encodeFixed64 6) = some 1 ∧
      TableCacheOk smallTableCache cache := by
  obtain ⟨cache, hcache, hfive, hsix⟩ : ∃ cache,
      Transition.exec (tableCacheStep smallTableCache) smallRun .empty = some cache ∧
      cache.index (encodeFixed64 5) = none ∧ cache.index (encodeFixed64 6) = some 1 :=
    ⟨_, rfl, rfl, rfl⟩
  exact ⟨cache, hcache, hfive, hsix, (tableCache_coherent rfl encodeFixed64_encodes
    Cache.All.empty (Transition.Run.of_exec hcache)).1⟩

end LevelDB
