import DripOS.Fs.Echfs.Volume

/-!
# Files of an echFS volume

Looking up a path, and the operations on files: `echfs_create_handler`, `echfs_post_open` and
`echfs_write`.  A path is a list of characters, relative to the mount point.  None of the operations
looks at the type of the entry.  `allocate_blocks_for_file` computes the number of blocks to add as
a difference of unsigned numbers, and takes the block 0 that `find_free_block` returns on a full
volume for a free block.
-/

namespace DripOS

/-- The result of the scan of one element of a path. -/
inductive PathElem where
  | tooLong
  /-- The name, whether it is the last one, and the rest of the path. -/
  | elem (name : List UInt8) (isLast : Bool) (rest : List UInt8)

/-- The loop that copies an element of the path to `current_name`, which has room for 201
characters; `name` is already there. -/
def scanElem : (path name : List UInt8) → Except VolumeHalt PathElem
  | [], name => .ok (.elem name true [])
  | c :: path, name =>
    if c = slash then .ok (.elem name false path)
    -- the null character behind the new one lies outside of the buffer
    else if name.length + 1 ≥ 201 then .error .fault
    -- so that the test for names that are too long is never reached with one
    else if name.length + 1 = 201 ∧ path ≠ [] then .ok .tooLong
    else scanElem path (name ++ [c])

/-- The result of `echfs_path_resolve`: the entry, and the bits of `err_code`. -/
structure Resolved where
  entry : Option DirEntry
  errCode : ℕ

/-- What the operations use of a descriptor: the path and the number of its node, and the position.
-/
structure EchfsFd where
  path : List UInt8
  unid : ℕ
  seek : ℕ

namespace Echfs

variable (fs : Echfs)

/-- The loop of `echfs_find_entry_name_parent`.  After `2 ^ 64` rounds it has read every entry that
it can read. -/
def findEntryLoop (name : List UInt8) (parentId : ℕ) : (fuel entryN : ℕ) → Except VolumeHalt ℕ
  | 0, _ => .error .hang
  | fuel + 1, entryN =>
    let entry := fs.readDirEntry entryN
    if entry.parentId = parentId ∧ strEq name entry.name then .ok entryN
    else if entry.parentId = 0 then .ok echfsSearchFail
    else findEntryLoop name parentId fuel ((entryN + 1) % 2 ^ 64)

/-- `echfs_find_entry_name_parent`. -/
def findEntryNameParent (name : List UInt8) (parentId : ℕ) : Except VolumeHalt ℕ :=
  fs.findEntryLoop name parentId (2 ^ 64) 0

/-- The rounds of `echfs_path_resolve` from the label `next_elem` on.  All but the last one drop a
`/`. -/
def resolveLoop : (fuel : ℕ) → (filename : List UInt8) → (currentParent : ℕ) →
    Except VolumeHalt Resolved
  | 0, _, _ => .error .hang
  | fuel + 1, filename, currentParent => do
    match ← scanElem filename [] with
    | .tooLong => pure ⟨none, 1 <<< 1⟩
    | .elem name false rest => do
      let found ← fs.findEntryNameParent name currentParent
      if found = echfsSearchFail then pure ⟨none, 1 <<< 2⟩
      else
        let entry := fs.readDirEntry found
        if entry.entryType ≠ echfsTypeDir then pure ⟨none, 1 <<< 2⟩
        else resolveLoop fuel rest entry.startingBlock
    | .elem name true _ => do
      let found ← fs.findEntryNameParent name currentParent
      if found = echfsSearchFail then pure ⟨none, 1 <<< 2⟩
      else pure ⟨some { fs.readDirEntry found with entryNumber := found }, 0⟩

/-- `echfs_path_resolve` past the cache of directory entries. -/
def resolveUncached (filename : List UInt8) : Except VolumeHalt Resolved :=
  let filename := if filename.head? = some slash then filename.tail else filename
  if filename = [slash] then .ok ⟨none, 1 <<< 0⟩
  else fs.resolveLoop (filename.length + 1) filename echfsRootDirId

/-- `echfs_path_resolve`.  When the entry is cached, `err_code` keeps the value of the caller, which
no caller reads; it is 0 here. -/
def pathResolve (filename : List UInt8) (unid : ℕ) : Except VolumeHalt (Resolved × Echfs) :=
  if unid ≠ 0 then
    match fs.cachedDirEntries.getElem unid with
    | (some entry, m) => .ok (⟨some entry, 0⟩, { fs with cachedDirEntries := m })
    | (none, m) => do
      let fs := { fs with cachedDirEntries := m }
      let r ← fs.resolveUncached filename
      match r.entry with
      | some entry => pure (r, { fs with cachedDirEntries := m.setElem unid entry })
      | none => pure (r, fs)
  else do
    let r ← fs.resolveUncached filename
    pure (r, fs)

/-- The first loop of `allocate_blocks_for_file`: the length of the chain and its last block. -/
def chainLoop : (fuel blocksTotal curBlock : ℕ) → (fs : Echfs) → Except VolumeHalt (ℕ × ℕ × Echfs)
  | 0, _, _, _ => .error .hang
  | fuel + 1, blocksTotal, curBlock, fs =>
    let blocksTotal := (blocksTotal + 1) % 2 ^ 64
    let r := fs.getEntryForBlock curBlock
    if r.1 = echfsEndOfChain then .ok (blocksTotal, curBlock, r.2)
    else
      let r := r.2.getEntryForBlock curBlock
      chainLoop fuel blocksTotal r.1 r.2

/-- The second loop of `allocate_blocks_for_file`, with `n` rounds to go. -/
def extendLoop : (n curBlock : ℕ) → (fs : Echfs) → Echfs
  | 0, _, fs => fs
  | n + 1, curBlock, fs =>
    let r := fs.findFreeBlock
    let fs := r.2.setEntryForBlock curBlock r.1
    extendLoop n r.1 (fs.setEntryForBlock r.1 echfsEndOfChain)

/-- `allocate_blocks_for_file`. -/
def allocateBlocksForFile (file : DirEntry) (totalBlocks : ℕ) : Except VolumeHalt Echfs := do
  let (blocksTotal, curBlock, fs) ← chainLoop (2 ^ 64) 0 file.startingBlock fs
  pure (extendLoop ((totalBlocks + 2 ^ 64 - blocksTotal) % 2 ^ 64) curBlock fs)

/-- The loop that walks to the first block of a range; `none` when the chain ends before it. -/
def skipLoop : (n currentBlock : ℕ) → (fs : Echfs) → Option ℕ × Echfs
  | 0, currentBlock, fs => (some currentBlock, fs)
  | n + 1, currentBlock, fs =>
    let r := fs.getEntryForBlock currentBlock
    if r.1 = echfsEndOfChain then (none, r.2) else skipLoop n r.1 r.2

/-- The second loop of `write_blocks_for_range`, with `n` blocks to go and the memory `data`. -/
def writeLoop : (n currentBlock : ℕ) → (data : Bytes) → (fs : Echfs) → ℕ × Echfs
  | 0, _, _, fs => (0, fs)
  | n + 1, currentBlock, data, fs =>
    let fs := { fs.writeBlock currentBlock data with fileWrites := currentBlock :: fs.fileWrites }
    if n = 0 then (0, fs)
    else
      let r := fs.getEntryForBlock currentBlock
      if r.1 = echfsEndOfChain then (1, r.2)
      else writeLoop n r.1 (fun i => data (fs.blockSize + i)) r.2

/-- `ROUND_UP` of 64-bit numbers. -/
def roundUp (n s : ℕ) : ℕ := (n + s + (2 ^ 64 - 1)) % 2 ^ 64 / s * s % 2 ^ 64

/-- `ROUND_DOWN`. -/
def roundDown (n s : ℕ) : ℕ := n / s * s

/-- `write_blocks_for_range`. -/
def writeBlocksForRange (file : DirEntry) (writeStart writeCount : ℕ) (data : Bytes) : ℕ × Echfs :=
  let start := roundDown writeStart fs.blockSize
  let stop := roundUp ((writeStart + writeCount) % 2 ^ 64) fs.blockSize
  let blocksToRead := (stop + 2 ^ 64 - start) % 2 ^ 64 / fs.blockSize
  let startBlock := start / fs.blockSize
  match skipLoop startBlock file.startingBlock fs with
  | (none, fs) => (1, fs)
  | (some currentBlock, fs) => writeLoop blocksToRead currentBlock data fs

/-- `echfs_write`; `buf` is the memory from the buffer on. -/
def echfsWrite (fd : EchfsFd) (buf : Bytes) (count now : ℕ) :
    Except VolumeHalt (ℤ × EchfsFd × Echfs) := do
  let (r, fs) ← fs.pathResolve fd.path fd.unid
  match r.entry with
  | none => pure (-Errno.enoent.code, fd, fs)
  | some entry =>
    if count = 0 then pure (0, fd, fs)
    else do
      let allocatedBytesNeeded := (count + fd.seek) % 2 ^ 64
      let allocatedBlocksNeeded :=
        (allocatedBytesNeeded + fs.blockSize + (2 ^ 64 - 1)) % 2 ^ 64 / fs.blockSize
      let fs ← fs.allocateBlocksForFile entry allocatedBlocksNeeded
      let r := fs.writeBlocksForRange entry fd.seek count buf
      if r.1 ≠ 0 then pure (-Errno.eio.code, fd, r.2)
      else
        let entry := (entry.setFileSizeBytes allocatedBytesNeeded).setUnixModifyTime now
        pure (toInt count, fd, r.2.writeDirEntry entry.entryNumber entry)

/-- `echfs_post_open`. -/
def echfsPostOpen (fd : EchfsFd) (mode now : ℕ) : Except VolumeHalt (ℤ × Echfs) := do
  let (r, fs) ← fs.pathResolve fd.path fd.unid
  match r.entry with
  | none => pure (-Errno.enoent.code, fs)
  | some entry =>
    let entry := entry.setUnixAccessTime now
    let fs := fs.writeDirEntry entry.entryNumber entry
    if mode &&& oTrunc ≠ 0 then
      let entry := entry.setFileSizeBytes 0
      pure (0, fs.writeDirEntry entry.entryNumber entry)
    else pure (0, fs)

/-- The directory in which `echfs_create_handler` creates a file. -/
def createParent (editablePath : List UInt8) : Except VolumeHalt (Errno ⊕ ℕ) :=
  if editablePath ≠ [slash] then do
    let (r, _) ← fs.pathResolve editablePath 0
    match r.entry with
    | none => pure (.inl .enoent)
    | some parentDir =>
      if parentDir.entryType ≠ echfsTypeDir then pure (.inl .enotdir)
      else pure (.inr parentDir.startingBlock)
  else pure (.inr echfsRootDirId)

/-- `echfs_create_handler`; `stack` is the memory of `new_file`, and the times are the results of
the three calls of `get_time_since_epoch`. -/
def echfsCreateHandler (name : List UInt8) (stack : Bytes)
    (createTime modifyTime accessTime : ℕ) : Except VolumeHalt (ℤ × Echfs) := do
  let (file, fs) ← fs.pathResolve name 0
  if file.entry.isSome then pure (-Errno.eexist.code, fs)
  else do
    let editablePath ← pathRemoveElem .fault name
    match ← fs.createParent editablePath with
    | .inl err => pure (-err.code, fs)
    | .inr parentId => do
      let elem ← ptrToEndPathElem .fault name
      let newFile ← DirEntry.setName ⟨stack, 0⟩ elem
      let newFile := (((newFile.setParentId parentId).setGroupId 0).setOwnerId 0).setFileSizeBytes 0
      let newFile := (newFile.setPermissions 0).setUnixCreateTime createTime
      let newFile := (newFile.setUnixModifyTime modifyTime).setUnixAccessTime accessTime
      let r := fs.findFreeBlock
      let newFile := newFile.setStartingBlock r.1
      let fs := r.2.setEntryForBlock newFile.startingBlock echfsEndOfChain
      let newFile := newFile.setEntryType echfsTypeFile
      let freeId := fs.getFreeDirectoryEntry
      pure (0, fs.writeDirEntry freeId newFile)

end Echfs

end DripOS
