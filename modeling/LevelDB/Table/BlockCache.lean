import LevelDB.Table.BlockReader
import Mathlib.Data.Set.Function

/-!
# The block cache is transparent

* `cacheKey_inj` — the key of a block tells its table and its offset;
* `ReadersOk.step` — every entry is what reading its block gives, and every open iterator shows what
  its call yields without a cache;
* `blockReader_transparent` — hence every call in every run yields what it does without a cache.
-/

set_option autoImplicit false

namespace LevelDB

open PinnedCache

variable {F T : Type}

/-- `ReadBlock` looks at `verify_checksums` only. -/
def TableConfig.IgnoresFillCache (cfg : TableConfig F) : Prop :=
  ∀ file options options' handle, options.verifyChecksums = options'.verifyChecksums →
    cfg.readBlock file options handle = cfg.readBlock file options' handle

/-- The calls ask for `verify`, and their index values stand for block handles of their tables. -/
def AllowedRead (cfg : TableConfig F) (handles : T → Set BlockHandle) (verify : Bool)
    (_ : Readers T) : ReaderLabel T → Prop
  | .read table options indexValue _ =>
    options.verifyChecksums = verify ∧
      (cfg.ok (cfg.decodeHandle indexValue).1 → (cfg.decodeHandle indexValue).2 ∈ handles table)
  | _ => True

/-- An entry of the cache is a block that was read without an error, under its key. -/
structure EntryRead (cfg : TableConfig F) (tables : T → TableFile F) (handles : T → Set BlockHandle)
    (options : ReadOptions) (key : Slice) (block : Block) (table : T) (handle : BlockHandle) :
    Prop where
  listed : handle ∈ handles table
  found : key = cfg.cacheKey (tables table).cacheId handle
  read : cfg.ok (cfg.readBlock (tables table).file options handle).1
  contents : block = (cfg.readBlock (tables table).file options handle).2

structure ReadersOk (cfg : TableConfig F) (tables : T → TableFile F) (handles : T → Set BlockHandle)
    (verify : Bool) (s : Readers T) : Prop where
  pins : PinsOk s
  entries : Cache.All (fun _ key block =>
    ∃ table handle, EntryRead cfg tables handles { verifyChecksums := verify } key block table
      handle) s.cache
  views : ∀ it ∈ s.iters, it.iter.view s.cache.value =
    plainRead cfg (tables it.table) it.options it.indexValue

section Transparent

variable {cfg : TableConfig F} {tables : T → TableFile F} {handles : T → Set BlockHandle}
  {verify : Bool} {s t : Readers T}

theorem cacheKey_inj (hencode : EncodesFixed64 cfg.encodeFixed64) {id id' : UInt64}
    {handle handle' : BlockHandle} (h : cfg.cacheKey id handle = cfg.cacheKey id' handle') :
    id = id' ∧ handle.offset = handle'.offset := by
  have hlength : (cfg.encodeFixed64 id).length = (cfg.encodeFixed64 id').length := by
    rw [hencode.length, hencode.length]
  obtain ⟨hid, hoffset⟩ := List.append_inj h hlength
  exact ⟨hencode.injective hid, hencode.injective hoffset⟩

/-- What a call yields is what it yields without a cache. -/
theorem view_reads (hids : Function.Injective fun table => (tables table).cacheId)
    (hencode : EncodesFixed64 cfg.encodeFixed64) (hignores : cfg.IgnoresFillCache)
    (hsame : ∀ table, Set.InjOn BlockHandle.offset (handles table))
    (h : ReadersOk cfg tables handles verify s) {table : T} {options : ReadOptions}
    {indexValue : Slice} {evicted : List Slice} {iter : BlockIterator} {cache : BlockCache}
    (hallowed : AllowedRead cfg handles verify s (.read table options indexValue evicted))
    (hreads : ReadsBlock cfg (tables table) s.cache options indexValue iter cache) :
    iter.view cache.value = plainRead cfg (tables table) options indexValue := by
  obtain ⟨hverify, hhandles⟩ := hallowed
  rcases hreads.view_or_hit with ⟨-, hview⟩ | ⟨n, hok, hindex, hview⟩
  · exact hview
  · obtain ⟨block, hblock, table', handle', hentry⟩ := h.entries.index hindex
    -- the entry was made for the same table, and for the same offset in it
    obtain ⟨hid, hoffset⟩ := cacheKey_inj hencode hentry.found
    obtain rfl := hids hid
    obtain rfl := hsame table (hhandles hok) hentry.listed hoffset
    have hread := hentry.read
    have hcontents := hentry.contents
    rw [hignores _ _ options _ hverify.symm] at hread hcontents
    rw [hview, hblock, plainRead_eq, if_pos hok, if_pos hread, ← hcontents]
    rfl

theorem ReadersOk.step (hids : Function.Injective fun table => (tables table).cacheId)
    (hencode : EncodesFixed64 cfg.encodeFixed64) (hignores : cfg.IgnoresFillCache)
    (hsame : ∀ table, Set.InjOn BlockHandle.offset (handles table))
    (h : ReadersOk cfg tables handles verify s) {l : ReaderLabel T}
    (hallowed : AllowedRead cfg handles verify s l) (hstep : s.step cfg tables l = some t) :
    ReadersOk cfg tables handles verify t where
  pins := h.pins.step hstep
  entries := by
    cases readerStep_of_step hstep with
    | @reads table options indexValue evicted iter cache hreads =>
      obtain ⟨hverify, hhandles⟩ := hallowed
      refine hreads.all h.entries fun hok hread _ _ => ?_
      rw [hignores _ options { verifyChecksums := verify } _ hverify] at hread ⊢
      exact ⟨table, _, hhandles hok, rfl, hread, rfl⟩
    | closes _ hcleanup => exact all_cleanup hcleanup h.entries
    | evicts hevicts => exact h.entries.evicts hevicts
  views it ht := by
    by_cases hs : it ∈ s.iters
    · rw [view_of_step h.pins hstep hs ht]
      exact h.views it hs
    · cases readerStep_of_step hstep with
      | reads hreads =>
        rcases List.mem_append.mp ht with hold | hnew
        · exact absurd hold hs
        · rw [List.mem_singleton.mp hnew]
          exact view_reads hids hencode hignores hsame h hallowed hreads
      | closes => exact absurd (List.mem_of_mem_eraseIdx ht) hs
      | evicts => exact absurd ht hs

/-- **The block cache is transparent.** Tables with different cache ids share a cache. In every
state of every run, each open iterator shows what the call that returned it yields with
`block_cache` null: the same block or the same error. So does the next call. -/
theorem blockReader_transparent (hids : Function.Injective fun table => (tables table).cacheId)
    (hencode : EncodesFixed64 cfg.encodeFixed64) (hignores : cfg.IgnoresFillCache)
    (hsame : ∀ table, Set.InjOn BlockHandle.offset (handles table))
    (run : Transition.Run (Readers.step cfg tables) (AllowedRead cfg handles verify) {} s) :
    (∀ it ∈ s.iters, it.iter.view s.cache.value =
        plainRead cfg (tables it.table) it.options it.indexValue) ∧
      ∀ table options indexValue evicted,
        AllowedRead cfg handles verify s (.read table options indexValue evicted) →
        ∃ iter cache, blockReader cfg (tables table) (some s.cache) options indexValue evicted =
            (iter, some cache) ∧
          iter.view cache.value = plainRead cfg (tables table) options indexValue := by
  have hstart : ReadersOk cfg tables handles verify {} :=
    ⟨fun n => rfl, Cache.All.empty, fun it hit => absurd hit List.not_mem_nil⟩
  have h := run.invariant (I := ReadersOk cfg tables handles verify)
    (fun h hallowed hstep => h.step hids hencode hignores hsame hallowed hstep) hstart
  refine ⟨h.views, fun table options indexValue evicted hallowed => ?_⟩
  obtain ⟨iter, cache, heq, hreads⟩ :=
    blockReader_cases cfg (tables table) s.cache options indexValue evicted
  exact ⟨iter, cache, heq, view_reads hids hencode hignores hsame h hallowed hreads⟩

end Transparent

/-! ## Two tables -/

def twoTables (damaged : Bool) : TableFile Bool :=
  { file := damaged, cacheId := if damaged then 1 else 0 }

theorem twoTables_ids : Function.Injective fun damaged => (twoTables damaged).cacheId := by
  intro a b h
  cases a <;> cases b <;> first | rfl | cases h

def sizeOne (_ : Bool) : Set BlockHandle := {handle | handle.size = 1}

theorem sizeOne_injOn (damaged : Bool) : Set.InjOn BlockHandle.offset (sizeOne damaged) := by
  rintro ⟨offset, size⟩ rfl ⟨offset', size'⟩ rfl rfl
  rfl

def readsSizeOne (_ : Readers Bool) : ReaderLabel Bool → Bool
  | .read _ options indexValue _ => decide (options.verifyChecksums = false ∧
      (smallTable.ok (smallTable.decodeHandle indexValue).1 = true →
        (smallTable.decodeHandle indexValue).2.size = 1))
  | _ => true

theorem readsSizeOne_allowed (s : Readers Bool) (l : ReaderLabel Bool)
    (h : readsSizeOne s l = true) : AllowedRead smallTable sizeOne false s l := by
  cases l with
  | read table options indexValue evicted =>
    unfold readsSizeOne at h
    obtain ⟨hverify, hsize⟩ := of_decide_eq_true h
    exact ⟨hverify, hsize⟩
  | close i => trivial
  | evict key => trivial

/-- The same block of two tables: read without filling the cache, read twice, and read again after
it was evicted. -/
def twoTablesRun : List (ReaderLabel Bool) :=
  [.read true { fillCache := false } [7, 1] [], .read true {} [7, 1] [], .read false {} [7, 1] [],
    .read true {} [7, 1] [], .read true {} [9] [], .close 1, .close 2,
    .evict (smallTable.cacheKey 1 { offset := 7, size := 1 }), .read true {} [7, 1] []]

theorem blockReader_transparent_twoTables :
    ∃ s, Transition.exec (fun s l =>
        if readsSizeOne s l then Readers.step smallTable twoTables s l else none) twoTablesRun {} =
          some s ∧
      (s.iters.map fun it => it.iter.held) = [[], [1], [], [2]] ∧
      ∀ it ∈ s.iters, it.iter.view s.cache.value =
        plainRead smallTable (twoTables it.table) it.options it.indexValue := by
  obtain ⟨s, hs, hheld⟩ : ∃ s, Transition.exec (fun s l =>
        if readsSizeOne s l then Readers.step smallTable twoTables s l else none) twoTablesRun {} =
          some s ∧
      (s.iters.map fun it => it.iter.held) = [[], [1], [], [2]] := ⟨_, rfl, rfl⟩
  have run := Transition.Run.of_checked readsSizeOne_allowed hs
  exact ⟨s, hs, hheld, (blockReader_transparent twoTables_ids encodeFixed64_encodes
    smallTable_ignores sizeOne_injOn run).1⟩

end LevelDB
