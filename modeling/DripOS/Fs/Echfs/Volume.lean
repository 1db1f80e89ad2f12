import DripOS.Klibc.Errno
import DripOS.Klibc.Hashmap
import DripOS.Klibc.Strings

/-!
# The echFS file system

`src/fs/filesystems/echfs.c`, over a device that is an array of bytes.  A volume has 16 boot blocks,
the allocation table with a 64-bit entry per block, the main directory with entries of 256 bytes,
and the data blocks.  The table entry of a block is the next block of the file, or a mark at the
end; 0 means that the block is free.

The driver caches blocks in one hash map, and directory entries by the number of a node in another.
Directory entries are read and written behind the back of the block cache.  Heap buffers appear as
their contents, and opening the device succeeds.  A computation stops at an access outside of a
buffer, and in a loop that never ends.
-/

namespace DripOS

/-- Why a function of the driver does not return. -/
inductive VolumeHalt where
  /-- An access outside of a buffer, or a division by zero. -/
  | fault
  /-- A loop that does not end. -/
  | hang
  /-- The heap has no memory left. -/
  | noMemory
  deriving DecidableEq, Repr

/-- `ECHFS_END_OF_CHAIN`. -/
def echfsEndOfChain : ℕ := 0xFFFFFFFFFFFFFFFF

/-- `ECHFS_DELETED_ENTRY`. -/
def echfsDeletedEntry : ℕ := 0xFFFFFFFFFFFFFFFE

/-- `ECHFS_ROOT_DIR_ID`. -/
def echfsRootDirId : ℕ := 0xFFFFFFFFFFFFFFFF

/-- `ECHFS_SEARCH_FAIL`. -/
def echfsSearchFail : ℕ := 0xFFFFFFFFFFFFFFFF

/-- `ECHFS_TYPE_DIR`. -/
def echfsTypeDir : ℕ := 1

/-- `ECHFS_TYPE_FILE`. -/
def echfsTypeFile : ℕ := 0

/-- `O_TRUNC`. -/
def oTrunc : ℕ := 0x200

/-! ### Directory entries -/

/-- `sizeof(echfs_dir_entry_t) - 8`, the size of an entry on the device. -/
def sizeofDirEntry : ℕ := 256

/-- `echfs_dir_entry_t`: the bytes of the packed structure, and `entry_number`, which is not on the
device. -/
structure DirEntry where
  raw : Bytes
  entryNumber : ℕ

namespace DirEntry

variable (e : DirEntry) (v : ℕ)

def parentId : ℕ := e.raw.getLE 0 8

def entryType : ℕ := e.raw.getLE 8 1

/-- The characters from the start of the field `name` on. -/
def name : Bytes := fun i => e.raw (9 + i)

def startingBlock : ℕ := e.raw.getLE 240 8

def fileSizeBytes : ℕ := e.raw.getLE 248 8

def setParentId : DirEntry := { e with raw := e.raw.putLE 0 8 v }

def setEntryType : DirEntry := { e with raw := e.raw.putLE 8 1 v }

def setUnixAccessTime : DirEntry := { e with raw := e.raw.putLE 210 8 v }

def setUnixModifyTime : DirEntry := { e with raw := e.raw.putLE 218 8 v }

def setPermissions : DirEntry := { e with raw := e.raw.putLE 226 2 v }

def setOwnerId : DirEntry := { e with raw := e.raw.putLE 228 2 v }

def setGroupId : DirEntry := { e with raw := e.raw.putLE 230 2 v }

def setUnixCreateTime : DirEntry := { e with raw := e.raw.putLE 232 8 v }

def setStartingBlock : DirEntry := { e with raw := e.raw.putLE 240 8 v }

def setFileSizeBytes : DirEntry := { e with raw := e.raw.putLE 248 8 v }

/-- `strcpy` to the field `name`.  The fields behind it may be overwritten, up to the end of the
structure. -/
def setName (cs : List UInt8) : Except VolumeHalt DirEntry :=
  if 9 + cs.length + 1 ≤ 264 then
    .ok { e with raw := e.raw.patch 9 (cs.length + 1) fun i => cs.getD i 0 }
  else .error .fault

end DirEntry

/-! ### The volume -/

/-- `echfs_filesystem_t`, with the contents of its device. -/
structure Echfs where
  blocks : ℕ
  blockSize : ℕ
  mainDirBlock : ℕ
  mainDirBlocks : ℕ
  /-- The contents of the device. -/
  disk : Bytes
  cachedBlocks : Hashmap Bytes
  cachedDirEntries : Hashmap DirEntry
  /-- The blocks that `write_blocks_for_range` has written, the last one first; not kept by the
  driver. -/
  fileWrites : List ℕ

namespace Echfs

variable (fs : Echfs)

/-- `echfs_read_block`. -/
def readBlock (block : ℕ) : Bytes × Echfs :=
  match fs.cachedBlocks.getElem block with
  | (some cached, m) => (cached.slice 0 fs.blockSize, { fs with cachedBlocks := m })
  | (none, m) =>
    let data := fs.disk.slice (block * fs.blockSize % 2 ^ 64) fs.blockSize
    (data, { fs with cachedBlocks := m.setElem block data })

/-- `echfs_write_block`; `data` is the memory from the pointer on. -/
def writeBlock (block : ℕ) (data : Bytes) : Echfs :=
  { fs with
    disk := fs.disk.patch (block * fs.blockSize % 2 ^ 64) fs.blockSize data
    cachedBlocks := fs.cachedBlocks.updateElem block fun cached =>
      cached.patch 0 fs.blockSize data }

/-- The position of a directory entry on the device. -/
def entryOffset (entry : ℕ) : ℕ :=
  (fs.mainDirBlock * fs.blockSize + entry * sizeofDirEntry) % 2 ^ 64

/-- `echfs_read_dir_entry`. -/
def readDirEntry (entry : ℕ) : DirEntry := ⟨fs.disk.slice (fs.entryOffset entry) sizeofDirEntry, 0⟩

/-- `echfs_mark_entry_cache_dirty`. -/
def markEntryCacheDirty (entry : ℕ) : Echfs :=
  { fs with cachedDirEntries := fs.cachedDirEntries.dropFirst (·.entryNumber == entry) }

/-- `echfs_write_dir_entry`. -/
def writeDirEntry (entry : ℕ) (data : DirEntry) : Echfs :=
  let fs := fs.markEntryCacheDirty entry
  { fs with disk := fs.disk.patch (fs.entryOffset entry) sizeofDirEntry data.raw }

/-- The number of entries of the main directory. -/
def dirCount : ℕ := fs.mainDirBlocks * fs.blockSize % 2 ^ 64 / sizeofDirEntry

/-- The loop of `get_free_directory_entry` from entry `i` on. -/
def freeDirEntryLoop : (fuel i : ℕ) → ℕ
  | 0, _ => 0
  | fuel + 1, i =>
    let id := (fs.readDirEntry i).parentId
    if id = 0 ∨ id = echfsDeletedEntry then i else freeDirEntryLoop fuel (i + 1)

/-- `get_free_directory_entry`. -/
def getFreeDirectoryEntry : ℕ := fs.freeDirEntryLoop fs.dirCount 0

/-- The block of the allocation table that holds the entry of a block. -/
def allocTableBlock (block : ℕ) : ℕ := (block * 8 % 2 ^ 64 / fs.blockSize + 16) % 2 ^ 64

/-- The position of the entry of a block within its block of the table. -/
def allocTableSlot (block : ℕ) : ℕ := 8 * (block % (fs.blockSize / 8))

/-- `echfs_get_entry_for_block`. -/
def getEntryForBlock (block : ℕ) : ℕ × Echfs :=
  let r := fs.readBlock (fs.allocTableBlock block)
  (r.1.getLE (fs.allocTableSlot block) 8, r.2)

/-- `echfs_set_entry_for_block`. -/
def setEntryForBlock (block data : ℕ) : Echfs :=
  let r := fs.readBlock (fs.allocTableBlock block)
  r.2.writeBlock (fs.allocTableBlock block) (r.1.putLE (fs.allocTableSlot block) 8 data)

/-- The loop of `find_free_block` from block `i` on. -/
def findFreeLoop : (fuel i : ℕ) → (fs : Echfs) → ℕ × Echfs
  | 0, _, fs => (0, fs)
  | fuel + 1, i, fs =>
    let r := fs.getEntryForBlock i
    if r.1 = 0 then (i, r.2) else findFreeLoop fuel (i + 1) r.2

/-- `find_free_block`. -/
def findFreeBlock : ℕ × Echfs := findFreeLoop fs.blocks 0 fs

end Echfs

end DripOS
