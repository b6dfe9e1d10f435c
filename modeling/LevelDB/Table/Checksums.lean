import LevelDB.Table.BlockCache

/-!
# Checksums and the block cache

`BlockReader` looks into the cache before it looks at `verify_checksums`, and a cached block does
not tell whether its checksum was verified.

* `recordFill` — the call that put each entry into the cache;
* `verifiedRead_of_run` — a call that verifies yields a damaged block only if it finds it in the
  cache, where a call that did not verify put it;
* `damaged_block_from_cache` — which happens.
-/

set_option autoImplicit false

namespace LevelDB

open PinnedCache

variable {F : Type}

/-- `ReadBlock` reports a stored checksum that does not match when it is asked to. -/
def TableConfig.ChecksBlocks (cfg : TableConfig F) (file : F) (damaged : BlockHandle → Prop) :
    Prop :=
  ∀ options handle, damaged handle → options.verifyChecksums = true →
    ∃ msg msg2, (cfg.readBlock file options handle).1 = .Corruption msg msg2

/-- The block handle and the options of the call that put an entry into the cache. -/
abbrev Fills : Type := Nat → Option (BlockHandle × ReadOptions)

def recordFill (cfg : TableConfig F) (fills : Fills) (s : Readers Unit) (l : ReaderLabel Unit)
    (t : Readers Unit) : Fills :=
  match l with
  | .read _ options indexValue _ =>
    if t.cache.next = s.cache.next then fills
    else Function.update fills s.cache.next (some ((cfg.decodeHandle indexValue).2, options))
  | _ => fills

/-- An entry is what the call that put it there has read. -/
structure FilledBy (cfg : TableConfig F) (table : TableFile F) (handle : BlockHandle)
    (options : ReadOptions) (key : Slice) (block : Block) : Prop where
  found : key = cfg.cacheKey table.cacheId handle
  fillCache : options.fillCache = true
  read : cfg.ok (cfg.readBlock table.file options handle).1
  contents : block = (cfg.readBlock table.file options handle).2

def FillsOk (cfg : TableConfig F) (table : TableFile F) (fills : Fills) (cache : BlockCache) :
    Prop :=
  Cache.All (fun n key block => ∃ handle options, fills n = some (handle, options) ∧
    FilledBy cfg table handle options key block) cache

/-- What a call that verifies yields. -/
inductive VerifiedRead (cfg : TableConfig F) (table : TableFile F) (damaged : BlockHandle → Prop)
    (cache : BlockCache) (fills : Fills) (options : ReadOptions) (indexValue : Slice)
    (view : Option (Except Status Block)) : Prop
  /-- If it finds nothing, what it yields without a cache, which is no damaged block; -/
  | plain (hmiss : cfg.ok (cfg.decodeHandle indexValue).1 = true →
        cache.index (cfg.cacheKey table.cacheId (cfg.decodeHandle indexValue).2) = none)
      (hview : view = plainRead cfg table options indexValue)
      (hdamaged : cfg.ok (cfg.decodeHandle indexValue).1 →
        damaged (cfg.decodeHandle indexValue).2 →
        ∃ msg msg2, view = some (.error (.Corruption msg msg2)))
  /-- or what it finds in the cache, which is no damaged block that was verified. -/
  | found {n : Nat} {handle : BlockHandle} {options' : ReadOptions}
      (hindex : cache.index (cfg.cacheKey table.cacheId (cfg.decodeHandle indexValue).2) = some n)
      (hfill : fills n = some (handle, options')) (hfillCache : options'.fillCache = true)
      (hoffset : handle.offset = (cfg.decodeHandle indexValue).2.offset)
      (hview : view = some (.ok (cfg.readBlock table.file options' handle).2))
      (hdamaged : damaged handle → options'.verifyChecksums = false)

section Checksums

variable {cfg : TableConfig F} {table : TableFile F} {damaged : BlockHandle → Prop}
  {s t : Readers Unit} {fills : Fills}

theorem FillsOk.step (h : FillsOk cfg table fills s.cache) {l : ReaderLabel Unit}
    (hstep : s.step cfg (fun _ => table) l = some t) :
    FillsOk cfg table (recordFill cfg fills s l t) t.cache := by
  cases readerStep_of_step hstep with
  | @reads _ options indexValue evicted iter cache hreads =>
    refine hreads.all (fun n e he => ?_) fun hok hread hfill hnext => ?_
    · obtain ⟨handle, options', hfilled, hentry⟩ := h n e he
      refine ⟨handle, options', ?_, hentry⟩
      have hn : n ≠ s.cache.next := Nat.ne_of_lt (s.cache.fresh n e he)
      unfold recordFill
      dsimp only
      split
      · exact hfilled
      · rw [Function.update_of_ne hn]
        exact hfilled
    · refine ⟨_, options, ?_, rfl, hfill, hread, rfl⟩
      unfold recordFill
      dsimp only
      rw [if_neg hnext, Function.update_self]
  | closes _ hcleanup => exact all_cleanup hcleanup h
  | evicts hevicts => exact h.evicts hevicts

/-- A block that was read with verification is not damaged. -/
theorem TableConfig.ChecksBlocks.unverified (hchecks : cfg.ChecksBlocks table.file damaged)
    (hok : cfg.ok = Status.isOK) {handle : BlockHandle} {options : ReadOptions}
    (hread : cfg.ok (cfg.readBlock table.file options handle).1) (hdamaged : damaged handle) :
    options.verifyChecksums = false := by
  rw [← Bool.not_eq_true]
  intro hverify
  obtain ⟨msg, msg2, hstatus⟩ := hchecks options handle hdamaged hverify
  rw [hstatus, hok] at hread
  cases hread

/-- Without a cache a call that verifies yields an error for a damaged block. -/
theorem TableConfig.ChecksBlocks.plainRead (hchecks : cfg.ChecksBlocks table.file damaged)
    (hok : cfg.ok = Status.isOK) {options : ReadOptions} (hverify : options.verifyChecksums = true)
    {indexValue : Slice} (hdecoded : cfg.ok (cfg.decodeHandle indexValue).1)
    (hdamaged : damaged (cfg.decodeHandle indexValue).2) :
    ∃ msg msg2, LevelDB.plainRead cfg table options indexValue =
      some (.error (.Corruption msg msg2)) := by
  obtain ⟨msg, msg2, hstatus⟩ := hchecks options _ hdamaged hverify
  have hread : ¬ cfg.ok (cfg.readBlock table.file options (cfg.decodeHandle indexValue).2).1 := by
    rw [hstatus, hok]
    nofun
  exact ⟨msg, msg2, by rw [plainRead_eq, if_pos hdecoded, if_neg hread, hstatus]⟩

/-- **A damaged block can only come from a call that did not verify it.** In every state of every
run of calls on one table, a call that asks for `verify_checksums` either yields what it yields
without a cache, an error if the block is damaged, or it finds a block in the cache that an earlier
call with the same offset put there; if that block is damaged, that call did not verify. -/
theorem verifiedRead_of_run (hok : cfg.ok = Status.isOK)
    (hencode : EncodesFixed64 cfg.encodeFixed64) (hchecks : cfg.ChecksBlocks table.file damaged)
    (run : Transition.Reaches
      (Transition.tracked (Readers.step cfg fun _ => table) (recordFill cfg))
      ({}, fun _ => none) (s, fills)) {options : ReadOptions}
    (hverify : options.verifyChecksums = true) (indexValue : Slice) (evicted : List Slice) :
    ∃ iter cache, blockReader cfg table (some s.cache) options indexValue evicted =
        (iter, some cache) ∧
      VerifiedRead cfg table damaged s.cache fills options indexValue
        (iter.view cache.value) := by
  have hstart : FillsOk cfg table (fun _ => none) ({} : Readers Unit).cache := Cache.All.empty
  have hfills := run.invariant (I := fun x => FillsOk cfg table x.2 x.1.cache)
    (fun {x y l} h _ hstep => by
      obtain ⟨hstep, hrecord⟩ := Transition.tracked_eq_some.mp hstep
      rw [hrecord]
      exact h.step hstep) hstart
  obtain ⟨iter, cache, heq, hreads⟩ :=
    blockReader_cases cfg table s.cache options indexValue evicted
  refine ⟨iter, cache, heq, ?_⟩
  rcases hreads.view_or_hit with ⟨hmiss, hview⟩ | ⟨n, -, hindex, hview⟩
  · refine .plain hmiss hview fun hdecoded hdamaged => ?_
    rw [hview]
    exact hchecks.plainRead hok hverify hdecoded hdamaged
  · obtain ⟨block, hblock, handle, options', hfill, hentry⟩ := hfills.index hindex
    obtain ⟨-, hoffset⟩ := cacheKey_inj hencode hentry.found
    refine .found hindex hfill hentry.fillCache hoffset.symm ?_
      fun hdamaged => hchecks.unverified hok hentry.read hdamaged
    rw [hview, hblock, hentry.contents]
    rfl

end Checksums

/-! ## A damaged file -/

def damagedTable : TableFile Bool := { file := true, cacheId := 0 }

theorem smallTable_checks : smallTable.ChecksBlocks true fun _ => True := by
  intro options handle _ hverify
  refine ⟨"block checksum mismatch", "", ?_⟩
  unfold smallTable
  simp [hverify]

/-- A call that does not verify, and a call that does. -/
theorem damaged_block_from_cache :
    ∃ s iter cache,
      Transition.exec (Readers.step smallTable fun _ : Unit => damagedTable)
        [.read () {} [7, 1] []] {} = some s ∧
      blockReader smallTable damagedTable (some s.cache) { verifyChecksums := true } [7, 1] [] =
        (iter, some cache) ∧
      iter.view cache.value = some (.ok { data := [7, 1], cachable := true }) ∧
      plainRead smallTable damagedTable { verifyChecksums := true } [7, 1] =
        some (.error (.Corruption "block checksum mismatch" "")) :=
  ⟨_, _, _, rfl, rfl, rfl, rfl⟩

/-- The same calls, with what is known of the second one. -/
theorem verifiedRead_of_run_damaged :
    ∃ s fills iter cache,
      Transition.exec (Transition.tracked (Readers.step smallTable fun _ : Unit => damagedTable)
        (recordFill smallTable)) [.read () {} [7, 1] []] ({}, fun _ => none) = some (s, fills) ∧
      blockReader smallTable damagedTable (some s.cache) { verifyChecksums := true } [7, 1] [] =
        (iter, some cache) ∧
      VerifiedRead smallTable damagedTable (fun _ => True) s.cache fills
        { verifyChecksums := true } [7, 1] (iter.view cache.value) := by
  obtain ⟨s, fills, hs⟩ : ∃ s fills,
      Transition.exec (Transition.tracked (Readers.step smallTable fun _ : Unit => damagedTable)
        (recordFill smallTable)) [.read () {} [7, 1] []] ({}, fun _ => none) = some (s, fills) :=
    ⟨_, _, rfl⟩
  have hverify : ({ verifyChecksums := true } : ReadOptions).verifyChecksums = true := rfl
  obtain ⟨iter, cache, hread, hverified⟩ := verifiedRead_of_run rfl encodeFixed64_encodes
    smallTable_checks (Transition.Run.of_exec hs) hverify [7, 1] []
  exact ⟨s, fills, iter, cache, hs, hread, hverified⟩

end LevelDB
