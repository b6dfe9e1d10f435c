import LevelDB.FileName
import LevelDB.Table.BlockReader

/-!
# Opening a table

`Table::Open` reads the footer and the index block, and with a filter policy the filter, whose
errors it does not report.

* `readMeta_file` — the filter is all that `ReadMeta` sets;
* `tableOpen_ok_iff` — a table is returned if and only if the status is OK, whatever the size.
-/

set_option autoImplicit false

namespace LevelDB

/-- The options that opening a table looks at. -/
structure TableOptions where
  paranoidChecks : Bool := false
  /-- `block_cache` is set. -/
  blockCache : Bool := true
  /-- `filter_policy->Name()`. -/
  filterPolicy : Option String := none

structure Footer where
  metaindexHandle : BlockHandle
  indexHandle : BlockHandle

def BlockHandle.kMaxEncodedLength : Nat := 10 + 10

def Footer.kEncodedLength : Nat := 2 * BlockHandle.kMaxEncodedLength + 8

/-- A file that was opened, under this name. -/
structure RandomAccessFile where
  name : FileName
  deriving DecidableEq

/-- What reading a file gives during one call of `Open`. -/
structure FileReads where
  read : Nat → Nat → Status × Slice
  readBlock : ReadOptions → BlockHandle → Status × BlockContents

/-- The parts of opening a table that are not in this repository. -/
structure OpenConfig where
  ok : Status → Bool
  /-- `Footer::DecodeFrom`. -/
  decodeFooter : Slice → Status × Footer
  /-- `BlockHandle::DecodeFrom`. -/
  decodeHandle : Slice → Status × BlockHandle
  /-- A new `ReadOptions`. -/
  readOptions : ReadOptions
  /-- The entry of a block that `Seek` finds, if the iterator is valid then. -/
  seek : Block → Slice → Option (Slice × Slice)

/-- `Table` with its `Rep`; a filter is the name of its policy with its data. -/
structure Table where
  options : TableOptions
  file : RandomAccessFile
  cacheId : UInt64
  filter : Option (String × Slice) := none
  filterData : Option Slice := none
  metaindexHandle : BlockHandle
  indexBlock : Block

section Model

variable (cfg : OpenConfig) (io : FileReads)

/-- The `ReadOptions` for the blocks that describe the table. -/
def metaReadOptions (options : TableOptions) : ReadOptions :=
  if options.paranoidChecks then { cfg.readOptions with verifyChecksums := true }
  else cfg.readOptions

def readFilter (table : Table) (policy : String) (filterHandleValue : Slice) : Table :=
  let (s, filterHandle) := cfg.decodeHandle filterHandleValue
  if ¬ cfg.ok s then table
  else
    let (s, block) := io.readBlock (metaReadOptions cfg table.options) filterHandle
    if ¬ cfg.ok s then table
    else
      { table with
        filterData := if block.heapAllocated then some block.data else table.filterData
        filter := some (policy, block.data) }

def readMeta (table : Table) (footer : Footer) : Table :=
  match table.options.filterPolicy with
  | none => table
  | some policy =>
    let (s, contents) := io.readBlock (metaReadOptions cfg table.options) footer.metaindexHandle
    if ¬ cfg.ok s then table
    else
      let key := ("filter." ++ policy).toUTF8.toList
      match cfg.seek contents key with
      | none => table
      | some (found, value) => if found = key then readFilter cfg io table policy value else table

/-- `Table::Open`; `newId` is what `block_cache->NewId()` returns. -/
def tableOpen (options : TableOptions) (file : RandomAccessFile) (newId size : UInt64) :
    Status × Option Table :=
  if size.toNat < Footer.kEncodedLength then
    (.Corruption "file is too short to be a sstable" "", none)
  else
    let (s, footerInput) :=
      io.read (size.toNat - Footer.kEncodedLength) Footer.kEncodedLength
    if ¬ cfg.ok s then (s, none)
    else
      let (s, footer) := cfg.decodeFooter footerInput
      if ¬ cfg.ok s then (s, none)
      else
        -- `s` is checked once more here, and is OK
        let (s, indexBlock) := io.readBlock (metaReadOptions cfg options) footer.indexHandle
        if cfg.ok s then
          (s, some (readMeta cfg io
            { options, file, cacheId := if options.blockCache then newId else 0,
              metaindexHandle := footer.metaindexHandle, indexBlock } footer))
        else (s, none)

end Model

section Open

variable {cfg : OpenConfig} {io : FileReads} {options : TableOptions} {file : RandomAccessFile}
  {newId size : UInt64}

theorem readFilter_file (table : Table) (policy : String) (value : Slice) :
    ∃ filter filterData,
      readFilter cfg io table policy value = { table with filter, filterData } := by
  unfold readFilter
  dsimp only
  split
  · exact ⟨_, _, rfl⟩
  · split
    · exact ⟨_, _, rfl⟩
    · exact ⟨_, _, rfl⟩

/-- **`ReadMeta` sets the filter** and nothing else. -/
theorem readMeta_file (table : Table) (footer : Footer) :
    ∃ filter filterData, readMeta cfg io table footer = { table with filter, filterData } := by
  unfold readMeta
  split
  · exact ⟨_, _, rfl⟩
  · dsimp only
    split
    · exact ⟨_, _, rfl⟩
    · split
      · exact ⟨_, _, rfl⟩
      · split
        · exact readFilter_file table _ _
        · exact ⟨_, _, rfl⟩

/-- What `Table::Open` returns. -/
theorem tableOpen_cases :
    (∃ s, ¬ cfg.ok s ∧ tableOpen cfg io options file newId size = (s, none)) ∨
      size.toNat < Footer.kEncodedLength ∧ tableOpen cfg io options file newId size =
        (.Corruption "file is too short to be a sstable" "", none) ∨
      ∃ s table, cfg.ok s ∧ table.file = file ∧
        tableOpen cfg io options file newId size = (s, some table) := by
  unfold tableOpen
  dsimp only
  split
  · rename_i hshort
    exact Or.inr (Or.inl ⟨hshort, rfl⟩)
  split
  · rename_i hread
    exact Or.inl ⟨_, hread, rfl⟩
  split
  · rename_i hfooter
    exact Or.inl ⟨_, hfooter, rfl⟩
  split
  · rename_i hindex
    refine Or.inr (Or.inr ⟨_, _, hindex, ?_, rfl⟩)
    obtain ⟨filter, filterData, heq⟩ := @readMeta_file cfg io
      { options, file, cacheId := if options.blockCache then newId else 0,
        metaindexHandle := _, indexBlock := _ } _
    rw [heq]
  · rename_i hindex
    exact Or.inl ⟨_, hindex, rfl⟩

/-- **A table is returned with OK only**, and always then. -/
theorem tableOpen_ok_iff (hok : cfg.ok = Status.isOK) :
    cfg.ok (tableOpen cfg io options file newId size).1 = true ↔
      (tableOpen cfg io options file newId size).2.isSome = true := by
  rcases tableOpen_cases with ⟨s, hs, heq⟩ | ⟨-, heq⟩ | ⟨s, table, hs, -, heq⟩
  · rw [heq]
    exact iff_of_false hs nofun
  · rw [heq, hok]
    exact iff_of_false nofun nofun
  · rw [heq]
    exact iff_of_true hs rfl

end Open

end LevelDB
