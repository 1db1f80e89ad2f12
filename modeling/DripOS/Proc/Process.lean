import DripOS.Klibc.Stdlib

/-!
# Processes

The fields of `process_t` that the modelled functions use, and what `create_process` of
`src/proc/scheduler.c` puts into them.  The table of open files is a block of the kernel heap.
-/

namespace DripOS

/-- `process_t`. -/
structure Process where
  /-- Physical address of the root table. -/
  cr3 : ℕ
  /-- Where the next mapping without a base address goes. -/
  currentBrk : ℕ
  /-- The table of open files. -/
  fdTable : Ptr
  /-- Number of slots of the table, an `int`. -/
  fdTableSize : ℤ
  deriving DecidableEq, Repr

/-- `DEFAULT_BRK`. -/
def defaultBrk : ℕ := 0x10000000000

/-- `sizeof(fd_entry_t)`. -/
def sizeofFdEntry : ℕ := 56

/-- `sizeof(process_t)`. -/
def sizeofProcess : ℕ := 248

/-- `sizeof(hashmap_t)`. -/
def sizeofHashmap : ℕ := 1632

/-- `create_process`.  The fields of the new process are a value of `Process`, and nothing is stored
in its block or in the hashmap of its IPC handles. -/
def Machine.createProcess (s : Machine) (newCr3 : ℕ) : Except Halt (Process × Machine) := do
  let newProcess ← s.kcalloc sizeofProcess
  let table ← newProcess.2.kcalloc (10 * sizeofFdEntry)
  let ipcHandles ← table.2.kcalloc sizeofHashmap
  pure (⟨newCr3, defaultBrk, table.1, 10⟩, ipcHandles.2)

end DripOS
