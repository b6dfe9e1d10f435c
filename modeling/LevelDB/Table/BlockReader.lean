import LevelDB.Lib.PinnedCache
import LevelDB.Lib.Transition
import LevelDB.Status
import Mathlib.Algebra.Ring.Nat
import Mathlib.Data.List.Perm.Basic

/-!
# Reading blocks

`Table::BlockReader` turns an index value into an iterator over a block, with or without a block
cache. What is not in this repository is in `TableConfig`. A run is any sequence of calls on any
tables that share a cache, with the iterators that they return being deleted at any time, and with
evictions between the operations on the cache.

* `blockReader_cases` — what a call with a cache does: it fails, hits, inserts, or leaves the cache
  as it is;
* `PinsOk.step` — every step keeps the number of pins, so that deleting an iterator never fails;
* `view_of_step` — and what the open iterators read.
-/

set_option autoImplicit false

namespace LevelDB

open PinnedCache

abbrev Slice : Type := List UInt8

structure BlockHandle where
  offset : UInt64
  size : UInt64
  deriving DecidableEq

structure BlockContents where
  data : Slice
  cachable : Bool
  heapAllocated : Bool := true
  deriving DecidableEq

/-- A `Block` is made from the contents. -/
abbrev Block : Type := BlockContents

structure ReadOptions where
  verifyChecksums : Bool := false
  fillCache : Bool := true
  deriving DecidableEq

/-- The parts of reading tables that are not in this repository. -/
structure TableConfig (F : Type) where
  ok : Status → Bool
  /-- `BlockHandle::DecodeFrom`. -/
  decodeHandle : Slice → Status × BlockHandle
  readBlock : F → ReadOptions → BlockHandle → Status × BlockContents
  encodeFixed64 : UInt64 → Slice

/-- The part of `Table::Rep` that reading a block looks at. -/
structure TableFile (F : Type) where
  file : F
  cacheId : UInt64

/-- The iterator that `BlockReader` returns: on a block of its own, on the block behind a handle of
the cache, or on an error. -/
inductive BlockIterator
  | owned (block : Block)
  | cached (handle : Nat)
  | error (s : Status)

abbrev BlockCache : Type := Cache Slice Block

variable {F T : Type}

/-- `EncodeFixed64` writes eight bytes, and different ones for different numbers. -/
structure EncodesFixed64 (encode : UInt64 → Slice) : Prop where
  length : ∀ n, (encode n).length = 8
  injective : Function.Injective encode

def TableConfig.cacheKey (cfg : TableConfig F) (cacheId : UInt64) (handle : BlockHandle) : Slice :=
  cfg.encodeFixed64 cacheId ++ cfg.encodeFixed64 handle.offset

/-- The part of `BlockReader` with the decoded handle and a cache; `evicted` goes between `Lookup`
and `Insert`. -/
def readCached (cfg : TableConfig F) (table : TableFile F) (cache : BlockCache)
    (options : ReadOptions) (handle : BlockHandle) (evicted : List Slice) :
    BlockIterator × BlockCache :=
  let key := cfg.cacheKey table.cacheId handle
  match cache.lookup key with
  | some (n, cache) => (.cached n, cache)
  | none =>
    let (s, contents) := cfg.readBlock table.file options handle
    let cache := cache.evictAll evicted
    if cfg.ok s then
      if contents.cachable ∧ options.fillCache then
        let (n, cache) := cache.insert key contents
        (.cached n, cache)
      else (.owned contents, cache)
    else (.error s, cache)

/-- `Table::BlockReader`; without a cache `blockCache` is `none`. -/
def blockReader (cfg : TableConfig F) (table : TableFile F) (blockCache : Option BlockCache)
    (options : ReadOptions) (indexValue : Slice) (evicted : List Slice) :
    BlockIterator × Option BlockCache :=
  let (s, handle) := cfg.decodeHandle indexValue
  if cfg.ok s then
    match blockCache with
    | some cache =>
      let (iter, cache) := readCached cfg table cache options handle evicted
      (iter, some cache)
    | none =>
      let (s, contents) := cfg.readBlock table.file options handle
      if cfg.ok s then (.owned contents, none) else (.error s, none)
  else (.error s, blockCache)

namespace BlockIterator

/-- What the iterator shows, given the blocks behind the handles of the cache. -/
def view (value : Nat → Option Block) : BlockIterator → Option (Except Status Block)
  | owned block => some (.ok block)
  | cached n => (value n).map Except.ok
  | error s => some (.error s)

/-- The handle that is released when the iterator is deleted. -/
def held : BlockIterator → List Nat
  | cached n => [n]
  | _ => []

end BlockIterator

/-- What a call yields with `block_cache` null. -/
def plainRead (cfg : TableConfig F) (table : TableFile F) (options : ReadOptions)
    (indexValue : Slice) : Option (Except Status Block) :=
  (blockReader cfg table none options indexValue []).1.view fun _ => none

/-! ## Runs -/

/-- An iterator that has not been deleted, with the call that returned it. -/
structure OpenIterator (T : Type) where
  table : T
  options : ReadOptions
  indexValue : Slice
  iter : BlockIterator

structure Readers (T : Type) where
  cache : BlockCache := .empty
  iters : List (OpenIterator T) := []

inductive ReaderLabel (T : Type)
  | read (table : T) (options : ReadOptions) (indexValue : Slice) (evicted : List Slice)
  | close (i : Nat)
  | evict (key : Slice)

/-- The cleanup of an iterator: `DeleteBlock` or `ReleaseBlock`. -/
def BlockIterator.cleanup (cache : BlockCache) : BlockIterator → Option BlockCache
  | cached n => cache.release n
  | _ => some cache

def Readers.step (cfg : TableConfig F) (tables : T → TableFile F) (s : Readers T) :
    ReaderLabel T → Option (Readers T)
  | .read table options indexValue evicted =>
    let (iter, cache) :=
      blockReader cfg (tables table) (some s.cache) options indexValue evicted
    cache.map fun cache =>
      { cache, iters := s.iters ++ [{ table, options, indexValue, iter }] }
  | .close i => s.iters[i]?.bind fun it => (it.iter.cleanup s.cache).map fun cache =>
    { cache, iters := s.iters.eraseIdx i }
  | .evict key => (s.cache.evict key).map fun cache => { s with cache }

section Reader

variable {cfg : TableConfig F} {tables : T → TableFile F} {table : TableFile F}
  {cache : BlockCache} {options : ReadOptions} {indexValue : Slice} {evicted : List Slice}
  {s t : Readers T}

/-- What a call of `BlockReader` with a cache does. -/
inductive ReadsBlock (cfg : TableConfig F) (table : TableFile F) (cache : BlockCache)
    (options : ReadOptions) (indexValue : Slice) : BlockIterator → BlockCache → Prop
  | malformed (hbad : ¬ cfg.ok (cfg.decodeHandle indexValue).1) :
      ReadsBlock cfg table cache options indexValue (.error (cfg.decodeHandle indexValue).1) cache
  | hits {n : Nat} {handle : BlockHandle} (hok : cfg.ok (cfg.decodeHandle indexValue).1)
      (hhandle : (cfg.decodeHandle indexValue).2 = handle)
      (hindex : cache.index (cfg.cacheKey table.cacheId handle) = some n) :
      ReadsBlock cfg table cache options indexValue (.cached n) (cache.setPins n (· + 1))
  | fails {cache' : BlockCache} {handle : BlockHandle}
      (hok : cfg.ok (cfg.decodeHandle indexValue).1)
      (hhandle : (cfg.decodeHandle indexValue).2 = handle)
      (hindex : cache.index (cfg.cacheKey table.cacheId handle) = none)
      (hread : ¬ cfg.ok (cfg.readBlock table.file options handle).1)
      (hevicts : Cache.Evicts cache cache') :
      ReadsBlock cfg table cache options indexValue
        (.error (cfg.readBlock table.file options handle).1) cache'
  | keeps {cache' : BlockCache} {handle : BlockHandle}
      (hok : cfg.ok (cfg.decodeHandle indexValue).1)
      (hhandle : (cfg.decodeHandle indexValue).2 = handle)
      (hindex : cache.index (cfg.cacheKey table.cacheId handle) = none)
      (hread : cfg.ok (cfg.readBlock table.file options handle).1)
      (hevicts : Cache.Evicts cache cache') :
      ReadsBlock cfg table cache options indexValue
        (.owned (cfg.readBlock table.file options handle).2) cache'
  | inserts {cache' : BlockCache} {handle : BlockHandle}
      (hok : cfg.ok (cfg.decodeHandle indexValue).1)
      (hhandle : (cfg.decodeHandle indexValue).2 = handle)
      (hindex : cache.index (cfg.cacheKey table.cacheId handle) = none)
      (hread : cfg.ok (cfg.readBlock table.file options handle).1)
      (hfill : options.fillCache = true) (hevicts : Cache.Evicts cache cache') :
      ReadsBlock cfg table cache options indexValue (.cached cache'.next)
        (cache'.insert (cfg.cacheKey table.cacheId handle)
          (cfg.readBlock table.file options handle).2).2

theorem blockReader_cases (cfg : TableConfig F) (table : TableFile F) (cache : BlockCache)
    (options : ReadOptions) (indexValue : Slice) (evicted : List Slice) :
    ∃ iter cache', blockReader cfg table (some cache) options indexValue evicted =
      (iter, some cache') ∧ ReadsBlock cfg table cache options indexValue iter cache' := by
  unfold blockReader
  dsimp only
  by_cases hok : cfg.ok (cfg.decodeHandle indexValue).1 = true
  · rw [if_pos hok]
    refine ⟨_, _, rfl, ?_⟩
    unfold readCached
    dsimp only
    have hevicts := Cache.evicts_evictAll evicted cache
    cases hlookup : cache.lookup (cfg.cacheKey table.cacheId (cfg.decodeHandle indexValue).2) with
    | some r =>
      obtain ⟨n, cache'⟩ := r
      obtain ⟨hindex, rfl⟩ := Cache.lookup_eq_some.mp hlookup
      exact .hits hok rfl hindex
    | none =>
      have hindex := Cache.lookup_eq_none.mp hlookup
      by_cases hread : cfg.ok
          (cfg.readBlock table.file options (cfg.decodeHandle indexValue).2).1 = true
      · by_cases hfill : (cfg.readBlock table.file options
            (cfg.decodeHandle indexValue).2).2.cachable = true ∧ options.fillCache = true
        · simp only [if_pos hread, if_pos hfill]
          exact .inserts hok rfl hindex hread hfill.2 hevicts
        · simp only [if_pos hread, if_neg hfill]
          exact .keeps hok rfl hindex hread hevicts
      · simp only [if_neg hread]
        exact .fails hok rfl hindex hread hevicts
  · rw [if_neg hok]
    exact ⟨_, _, rfl, .malformed hok⟩

/-- The three outcomes without a cache. -/
theorem plainRead_eq (cfg : TableConfig F) (table : TableFile F) (options : ReadOptions)
    (indexValue : Slice) :
    plainRead cfg table options indexValue = some
      (if cfg.ok (cfg.decodeHandle indexValue).1 then
        if cfg.ok (cfg.readBlock table.file options (cfg.decodeHandle indexValue).2).1 then
          .ok (cfg.readBlock table.file options (cfg.decodeHandle indexValue).2).2
        else .error (cfg.readBlock table.file options (cfg.decodeHandle indexValue).2).1
      else .error (cfg.decodeHandle indexValue).1) := by
  unfold plainRead blockReader
  dsimp only
  split
  · split
    · rfl
    · rfl
  · rfl

namespace ReadsBlock

variable {iter : BlockIterator} {cache' : BlockCache}

/-- The call pins what it returns, -/
theorem pins (h : ReadsBlock cfg table cache options indexValue iter cache') (m : Nat) :
    cache'.pins m = cache.pins m + iter.held.count m := by
  cases h with
  | malformed => rfl
  | @hits n handle _ _ hindex =>
    rw [Cache.pins_lookup (Cache.lookup_eq_some.mpr ⟨hindex, rfl⟩)]
    by_cases hm : m = n
    · simp [hm, BlockIterator.held]
    · simp [hm, BlockIterator.held, Ne.symm hm]
  | fails _ _ _ _ hevicts => exact hevicts.pins m
  | keeps _ _ _ _ hevicts => exact hevicts.pins m
  | @inserts cache' handle _ _ _ _ _ hevicts =>
    rw [Cache.pins_insert, ← hevicts.pins m]
    by_cases hm : m = cache'.next
    · subst hm
      rw [if_pos rfl, Cache.pins_next]
      simp [BlockIterator.held]
    · simp [hm, BlockIterator.held, Ne.symm hm]

/-- leaves what is pinned, -/
theorem value (h : ReadsBlock cfg table cache options indexValue iter cache') {m : Nat}
    (hm : 0 < cache.pins m) : cache'.value m = cache.value m := by
  cases h with
  | malformed => rfl
  | hits => exact Cache.value_setPins _ _ m
  | fails _ _ _ _ hevicts => exact hevicts.value m hm
  | keeps _ _ _ _ hevicts => exact hevicts.value m hm
  | inserts _ _ _ _ _ hevicts =>
    rw [← hevicts.pins m] at hm
    rw [Cache.value_insert hm]
    exact hevicts.value m (by rw [← hevicts.pins m]; exact hm)

/-- and puts nothing into the cache but what it has read. -/
theorem all (h : ReadsBlock cfg table cache options indexValue iter cache')
    {P : Nat → Slice → Block → Prop} (hall : Cache.All P cache)
    (hnew : cfg.ok (cfg.decodeHandle indexValue).1 →
      cfg.ok (cfg.readBlock table.file options (cfg.decodeHandle indexValue).2).1 →
      options.fillCache = true → cache'.next ≠ cache.next →
      P cache.next (cfg.cacheKey table.cacheId (cfg.decodeHandle indexValue).2)
        (cfg.readBlock table.file options (cfg.decodeHandle indexValue).2).2) :
    Cache.All P cache' := by
  cases h with
  | malformed => exact hall
  | hits => exact hall.setPins _ _
  | fails _ _ _ _ hevicts => exact hall.evicts hevicts
  | keeps _ _ _ _ hevicts => exact hall.evicts hevicts
  | inserts hok hhandle _ hread hfill hevicts =>
    subst hhandle
    refine (hall.evicts hevicts).insert ?_
    have hnext : cache.next + 1 ≠ cache.next := Nat.succ_ne_self _
    rw [hevicts.next]
    refine hnew hok hread hfill ?_
    show _ + 1 ≠ _
    rw [hevicts.next]
    exact hnext

/-- It yields what it yields without a cache, or the entry that it finds. -/
theorem view_or_hit (h : ReadsBlock cfg table cache options indexValue iter cache') :
    (cfg.ok (cfg.decodeHandle indexValue).1 = true →
        cache.index (cfg.cacheKey table.cacheId (cfg.decodeHandle indexValue).2) = none) ∧
        iter.view cache'.value = plainRead cfg table options indexValue ∨
      ∃ n, cfg.ok (cfg.decodeHandle indexValue).1 = true ∧
        cache.index (cfg.cacheKey table.cacheId (cfg.decodeHandle indexValue).2) = some n ∧
        iter.view cache'.value = (cache.value n).map Except.ok := by
  rw [plainRead_eq]
  cases h with
  | malformed hbad =>
    rw [if_neg hbad]
    exact Or.inl ⟨fun hok => absurd hok hbad, rfl⟩
  | @hits n handle hok hhandle hindex =>
    subst hhandle
    refine Or.inr ⟨n, hok, hindex, ?_⟩
    show ((cache.setPins n _).value n).map _ = _
    rw [Cache.value_setPins]
  | fails hok hhandle hindex hread =>
    subst hhandle
    rw [if_pos hok, if_neg hread]
    exact Or.inl ⟨fun _ => hindex, rfl⟩
  | keeps hok hhandle hindex hread =>
    subst hhandle
    rw [if_pos hok, if_pos hread]
    exact Or.inl ⟨fun _ => hindex, rfl⟩
  | @inserts cache' handle hok hhandle hindex hread =>
    subst hhandle
    rw [if_pos hok, if_pos hread]
    refine Or.inl ⟨fun _ => hindex, ?_⟩
    show ((cache'.insert _ _).2.value cache'.next).map _ = _
    rw [Cache.value_insert_self]
    rfl

end ReadsBlock

/-! ## Steps -/

/-- What one step does to the cache and to the open iterators. -/
inductive ReaderStep (cfg : TableConfig F) (tables : T → TableFile F) (s : Readers T) :
    ReaderLabel T → Readers T → Prop
  | reads {table : T} {options : ReadOptions} {indexValue : Slice} {evicted : List Slice}
      {iter : BlockIterator} {cache : BlockCache}
      (hreads : ReadsBlock cfg (tables table) s.cache options indexValue iter cache) :
      ReaderStep cfg tables s (.read table options indexValue evicted)
        { cache, iters := s.iters ++ [{ table, options, indexValue, iter }] }
  | closes {i : Nat} {it : OpenIterator T} {cache : BlockCache} (hit : s.iters[i]? = some it)
      (hcleanup : it.iter.cleanup s.cache = some cache) :
      ReaderStep cfg tables s (.close i) { cache, iters := s.iters.eraseIdx i }
  | evicts {key : Slice} {cache : BlockCache} (hevicts : Cache.Evicts s.cache cache) :
      ReaderStep cfg tables s (.evict key) { s with cache }

theorem readerStep_of_step {l : ReaderLabel T} (h : s.step cfg tables l = some t) :
    ReaderStep cfg tables s l t := by
  cases l with
  | read table options indexValue evicted =>
    obtain ⟨iter, cache, heq, hreads⟩ :=
      blockReader_cases cfg (tables table) s.cache options indexValue evicted
    unfold Readers.step at h
    simp only [heq] at h
    cases h
    exact .reads hreads
  | close i =>
    obtain ⟨it, hit, h⟩ := Option.bind_eq_some_iff.mp h
    obtain ⟨cache, hcleanup, rfl⟩ := Option.map_eq_some_iff.mp h
    exact .closes hit hcleanup
  | evict key =>
    obtain ⟨cache, hevict, rfl⟩ := Option.map_eq_some_iff.mp h
    exact .evicts (Cache.evicts_evict hevict)

/-- Every entry is pinned by the open iterators on it, once by each. -/
def PinsOk (s : Readers T) : Prop :=
  ∀ n, s.cache.pins n = (s.iters.flatMap fun it => it.iter.held).count n

theorem pins_cleanup {iter : BlockIterator} {cache' : BlockCache}
    (h : iter.cleanup cache = some cache') (m : Nat) :
    cache.pins m = cache'.pins m + iter.held.count m := by
  cases iter with
  | cached n =>
    obtain ⟨hpos, -⟩ := Cache.release_cases h
    rw [Cache.pins_release h]
    by_cases hm : m = n
    · subst hm
      simp [BlockIterator.held]
      omega
    · simp [hm, BlockIterator.held, Ne.symm hm]
  | owned block =>
    cases h
    rfl
  | error s =>
    cases h
    rfl

theorem value_cleanup {iter : BlockIterator} {cache' : BlockCache}
    (h : iter.cleanup cache = some cache') {m : Nat} (hm : 0 < cache'.pins m) :
    cache'.value m = cache.value m := by
  cases iter with
  | cached n => exact Cache.value_release h hm
  | owned block =>
    cases h
    rfl
  | error s =>
    cases h
    rfl

theorem all_cleanup {iter : BlockIterator} {cache' : BlockCache}
    (h : iter.cleanup cache = some cache') {P : Nat → Slice → Block → Prop}
    (hall : Cache.All P cache) : Cache.All P cache' := by
  cases iter with
  | cached n => exact hall.release h
  | owned block =>
    cases h
    exact hall
  | error s =>
    cases h
    exact hall

theorem perm_eraseIdx {i : Nat} {it : OpenIterator T} (hit : s.iters[i]? = some it) :
    (s.iters.flatMap fun it => it.iter.held).Perm
      (it.iter.held ++ (s.iters.eraseIdx i).flatMap fun it => it.iter.held) := by
  obtain ⟨hlt, rfl⟩ := List.getElem?_eq_some_iff.mp hit
  have hperm := (List.getElem_cons_eraseIdx_perm hlt).symm.flatMap_right
    fun it : OpenIterator T => it.iter.held
  rwa [List.flatMap_cons] at hperm

/-- **The pins are exact.** -/
theorem PinsOk.step (h : PinsOk s) {l : ReaderLabel T} (hstep : s.step cfg tables l = some t) :
    PinsOk t := by
  intro n
  cases readerStep_of_step hstep with
  | reads hreads =>
    rw [hreads.pins, h n, List.flatMap_append, List.count_append, List.flatMap_singleton]
  | @closes i it cache hit hcleanup =>
    have hpins := pins_cleanup hcleanup n
    rw [h n, (perm_eraseIdx hit).count_eq n, List.count_append] at hpins
    show cache.pins n = ((s.iters.eraseIdx i).flatMap fun it => it.iter.held).count n
    omega
  | evicts hevicts =>
    show _ = (s.iters.flatMap fun it => it.iter.held).count n
    rw [hevicts.pins, h n]

/-- So deleting an iterator never fails. -/
theorem PinsOk.close_isSome (h : PinsOk s) {i : Nat} {it : OpenIterator T}
    (hit : s.iters[i]? = some it) : ∃ t, s.step cfg tables (.close i) = some t := by
  have hcleanup : ∃ cache, it.iter.cleanup s.cache = some cache := by
    cases hiter : it.iter with
    | cached n =>
      refine Cache.release_isSome ?_
      rw [h n, (perm_eraseIdx hit).count_eq n, hiter]
      simp [BlockIterator.held]
    | owned block => exact ⟨_, rfl⟩
    | error s => exact ⟨_, rfl⟩
  obtain ⟨cache, hcleanup⟩ := hcleanup
  refine ⟨{ cache, iters := s.iters.eraseIdx i }, ?_⟩
  show (s.iters[i]?.bind fun it => _) = _
  rw [hit, Option.bind_some, hcleanup]
  rfl

theorem PinsOk.held_pos (h : PinsOk s) {it : OpenIterator T} (hit : it ∈ s.iters) {n : Nat}
    (hn : n ∈ it.iter.held) : 0 < s.cache.pins n := by
  rw [h n]
  exact List.count_pos_iff.mpr (List.mem_flatMap.mpr ⟨it, hit, hn⟩)

theorem view_congr {value value' : Nat → Option Block} {iter : BlockIterator}
    (h : ∀ n ∈ iter.held, value' n = value n) : iter.view value' = iter.view value := by
  cases iter with
  | cached n =>
    show (value' n).map _ = (value n).map _
    rw [h n (List.mem_singleton.mpr rfl)]
  | owned block => rfl
  | error s => rfl

/-- **An open iterator shows what it showed before.** -/
theorem view_of_step (h : PinsOk s) {l : ReaderLabel T} (hstep : s.step cfg tables l = some t)
    {it : OpenIterator T} (hs : it ∈ s.iters) (ht : it ∈ t.iters) :
    it.iter.view t.cache.value = it.iter.view s.cache.value := by
  have hpins := h.step hstep
  refine view_congr fun n hn => ?_
  have hbefore := h.held_pos hs hn
  have hafter := hpins.held_pos ht hn
  cases readerStep_of_step hstep with
  | reads hreads => exact hreads.value hbefore
  | closes hit hcleanup => exact value_cleanup hcleanup hafter
  | evicts hevicts => exact hevicts.value n hbefore

end Reader

/-! ## A small table -/

/-- The last bytes of a number, the low byte first. -/
def littleEndian : Nat → Nat → Slice
  | 0, _ => []
  | k + 1, n => UInt8.ofNat n :: littleEndian k (n / 256)

theorem littleEndian_length (k n : Nat) : (littleEndian k n).length = k := by
  induction k generalizing n with
  | zero => rfl
  | succ k ih => exact congrArg Nat.succ (ih (n / 256))

theorem littleEndian_inj {k m n : Nat} (h : littleEndian k m = littleEndian k n) :
    m % 256 ^ k = n % 256 ^ k := by
  induction k generalizing m n with
  | zero => simp [Nat.mod_one]
  | succ k ih =>
    obtain ⟨hbyte, hrest⟩ := List.cons.inj h
    have hlow : m % 256 = n % 256 := congrArg UInt8.toNat hbyte
    have hhigh := ih hrest
    rw [Nat.pow_succ, Nat.mul_comm, Nat.mod_mul, Nat.mod_mul, hlow, hhigh]

/-- `EncodeFixed64`. -/
def encodeFixed64 (n : UInt64) : Slice := littleEndian 8 n.toNat

theorem encodeFixed64_encodes : EncodesFixed64 encodeFixed64 where
  length n := littleEndian_length 8 n.toNat
  injective m n h := by
    have hmod : m.toNat % 256 ^ 8 = n.toNat % 256 ^ 8 := littleEndian_inj h
    have hm := m.toNat_lt
    have hn := n.toNat_lt
    exact UInt64.toNat_inj.mp (by omega)

/-- Handles are two bytes; the blocks of a file are damaged, or not. -/
def smallTable : TableConfig Bool where
  ok := Status.isOK
  decodeHandle
    | [offset, size] => (.OK, { offset := offset.toUInt64, size := size.toUInt64 })
    | _ => (.Corruption "bad block handle" "", { offset := 0, size := 0 })
  readBlock damaged options handle :=
    if damaged && options.verifyChecksums then
      (.Corruption "block checksum mismatch" "", { data := [], cachable := false })
    else (.OK, { data := [handle.offset.toUInt8, handle.size.toUInt8], cachable := true })
  encodeFixed64 := encodeFixed64

theorem smallTable_ignores (damaged : Bool) (options options' : ReadOptions) (handle : BlockHandle)
    (h : options.verifyChecksums = options'.verifyChecksums) :
    smallTable.readBlock damaged options handle = smallTable.readBlock damaged options' handle := by
  unfold smallTable
  dsimp only
  rw [h]

end LevelDB
