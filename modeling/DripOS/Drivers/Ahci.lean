import DripOS.Lib.Bytes
import DripOS.Mm.PmmHistory

/-!
# Commands for SATA drives

`ahci_io_sata_sectors` and `ahci_identify_sata` of `src/drivers/pci_drivers/ahci.c`.  A command has
a FIS, which says which sectors to transfer, and a table of pieces of memory (PRDT).  It takes a
slot of the port and memory of the physical memory manager.

* `Ahci.ioSataSectors_decodes_iff` : **when the FIS means what was asked for**, to a drive that
  decodes it;
* `Ahci.ioSataSectors_tiles_iff` : **when the table covers the buffer**;
* `Ahci.restores_pmm_iff` : when the calls give back the memory they take.
-/

namespace DripOS

open List Pmm Nat

/-- `ahci_port_data_t`, with the register of the commands that are issued. -/
structure AhciPort where
  /-- The controller takes addresses of 64 bits. -/
  addresses64 : Bool
  commandSlotCount : ℕ
  /-- One bit per slot, set while its command runs. -/
  commandIssued : ℕ
  sectorSize : ℕ
  sectorCount : ℕ
  /-- The drive takes the commands with addresses of 48 bits. -/
  lba48 : Bool

/-- `ahci_h2d_fis_t`. -/
structure H2dFis where
  type : ℕ
  c : ℕ
  command : ℕ
  lba0 : ℕ
  lba1 : ℕ
  lba2 : ℕ
  devHead : ℕ
  lba3 : ℕ
  lba4 : ℕ
  lba5 : ℕ
  sectorCountLow : ℕ
  sectorCountHigh : ℕ
  control : ℕ
  deriving DecidableEq, Repr

/-- `ahci_prdt_entry_t`. -/
structure Prdt where
  dataBase : ℕ
  dataBaseUpper : ℕ
  byteCount : ℕ
  deriving DecidableEq, Repr

/-- A command that was issued: what its header and its table say. -/
structure AhciCommand where
  prdtCount : ℕ
  write : Bool
  fis : H2dFis
  prdts : List Prdt
  deriving DecidableEq, Repr

/-- How the controller completes a command. -/
inductive Completion where
  /-- An error while the driver waits. -/
  | waitError
  /-- A task file error after the command. -/
  | taskFileError
  | success
  deriving DecidableEq, Repr

namespace Ahci

variable (port : AhciPort)

/-- `ahci_find_command_slot`. -/
def findCommandSlot : Option ℕ :=
  (List.range port.commandSlotCount).find? fun i => !port.commandIssued.testBit i

/-- `ahci_allocate_command_slot`: the address of the table, unless it is 0.  Without 64-bit
addresses, a table past 4 GiB stops the kernel. -/
def allocateCommandSlot (p : Pmm) (fisSize : ℕ) : Except Halt (Option ℕ × Pmm) :=
  match findCommandSlot port with
  | none => .ok (none, p)
  | some _ => do
    let (commandEntry, p) ← p.pmmAlloc fisSize
    if commandEntry = 0 then pure (none, p)
    else if !port.addresses64 ∧ commandEntry > 0xFFFFFFFF then .error .fault
    else pure (some commandEntry, p)

/-- `AHCI_GET_PRDT_BYTES`. -/
def ahciGetPrdtBytes (count : ℕ) : ℕ := ((count + 1) / 2 * 2 + (2 ^ 64 - 1)) % 2 ^ 64 % 2 ^ 22

/-- `ahci_fill_prdt`, on an entry that is zero.  Past 4 GiB it only prints an error. -/
def ahciFillPrdt (phys byteCount : ℕ) : Prdt :=
  ⟨phys % 2 ^ 32, if port.addresses64 then phys / 2 ^ 32 % 2 ^ 32 else 0, byteCount⟩

/-- The loop of `ahci_io_sata_sectors` over the table, from entry `i` on. -/
def fillPrdts (buf : ℕ) : (n i bytesLeft : ℕ) → List Prdt
  | 0, _, _ => []
  | n + 1, i, bytesLeft =>
    let phys := (buf + i * 0x400000) % 2 ^ 64
    if bytesLeft ≥ 0x400000 then
      ahciFillPrdt port phys (ahciGetPrdtBytes 0x400000) ::
        fillPrdts buf n (i + 1) (bytesLeft - 0x400000)
    else ahciFillPrdt port phys (ahciGetPrdtBytes bytesLeft) :: fillPrdts buf n (i + 1) 0

/-- The FIS of `ahci_io_sata_sectors`, on memory that is zero. -/
def sectorFis (count offset : ℕ) (write : Bool) : H2dFis where
  type := 0x27
  c := 1
  command :=
    if write then (if port.lba48 then 0x35 else 0xCA) else if port.lba48 then 0x25 else 0xC8
  lba0 := offset % 0x100
  lba1 := offset / 2 ^ 8 % 0x100
  lba2 := offset / 2 ^ 16 % 0x100
  devHead := 0xE0
  lba3 := if port.lba48 then offset / 2 ^ 24 % 0x100 else 0
  lba4 := if port.lba48 then offset / 2 ^ 32 % 0x100 else 0
  lba5 := if port.lba48 then offset / 2 ^ 40 % 0x100 else 0
  sectorCountLow := if count ≠ 0xFFFF then count % 0x100 else 0
  sectorCountHigh := if count ≠ 0xFFFF then count / 2 ^ 8 % 0x100 else 0
  control := 0x08

/-- The number of entries of the table, in 64-bit arithmetic. -/
def prdtCount (count : ℕ) : ℕ := (count * port.sectorSize + 0x400000 - 1) % 2 ^ 64 / 0x400000

/-- The command of `ahci_io_sata_sectors`; the number of entries has 16 bits. -/
def sectorCommand (buf count offset : ℕ) (write : Bool) : AhciCommand where
  prdtCount := prdtCount port count % 2 ^ 16
  write := write
  fis := sectorFis port count offset write
  prdts := fillPrdts port buf (prdtCount port count) 0 (count * port.sectorSize % 2 ^ 64)

/-- `AHCI_GET_FIS_SIZE(prdt_count + 1)`, in which the product comes first. -/
def fisSize (count : ℕ) : ℕ := 128 + (16 * prdtCount port count + 1)

/-- `ahci_io_sata_sectors`: its result and the command. -/
def ioSataSectors (p : Pmm) (buf count offset : ℕ) (write : Bool) (done : Completion) :
    Except Halt (ℕ × Pmm × Option AhciCommand) := do
  match ← allocateCommandSlot port p (fisSize port count) with
  | (none, p) =>
    let p ← p.pmmUnalloc 0 (fisSize port count)
    pure (1, p, none)
  | (some data, p) =>
    let p ← p.pmmUnalloc data (fisSize port count)
    let err := match done with
      | .waitError => 2
      | .taskFileError => 3
      | .success => 0
    pure (err, p, some (sectorCommand port buf count offset write))

/-- A command gets no table: no slot is free, or `pmm_alloc` returns the address 0. -/
def NoTable (p : Pmm) (size : ℕ) : Prop :=
  findCommandSlot port = none ∨ ∃ p', p.pmmAlloc size = .ok (0, p')

variable {port} {p p' : Pmm} {buf count offset err : ℕ} {write : Bool} {done : Completion}
  {cmd : Option AhciCommand}

theorem allocateCommandSlot_ok {size : ℕ} {slot : Option ℕ}
    (h : allocateCommandSlot port p size = .ok (slot, p')) :
    slot = none ∧ findCommandSlot port = none ∧ p' = p ∨
      findCommandSlot port ≠ none ∧ ∃ addr, p.pmmAlloc size = .ok (addr, p') ∧
        slot = if addr = 0 then none else some addr := by
  unfold allocateCommandSlot at h
  split at h
  · rename_i hslot
    cases h
    exact .inl ⟨rfl, hslot, rfl⟩
  · rename_i i hslot
    obtain ⟨⟨addr, p1⟩, halloc, h⟩ := bind_eq_ok.1 h
    dsimp only at h
    refine .inr ⟨by rw [hslot]; exact nofun, addr, ?_⟩
    split_ifs at h with hzero hfar
    all_goals
      cases h
      exact ⟨halloc, by simp [hzero]⟩

/-- A command is issued unless the call fails. -/
theorem issued_of_ok (h : ioSataSectors port p buf count offset write done = .ok (err, p', cmd)) :
    NoTable port p (fisSize port count) ∧ err = 1 ∧ cmd = none ∨
      ¬ NoTable port p (fisSize port count) ∧
        cmd = some (sectorCommand port buf count offset write) := by
  obtain ⟨⟨slot, p1⟩, hslot, h⟩ := bind_eq_ok.1 h
  obtain ⟨rfl, hnone, -⟩ | ⟨hfree, addr, halloc, rfl⟩ := allocateCommandSlot_ok hslot
  · obtain ⟨_, -, h⟩ := bind_eq_ok.1 h
    cases h
    exact .inl ⟨.inl hnone, rfl, rfl⟩
  · by_cases hzero : addr = 0
    · rw [if_pos hzero] at h
      obtain ⟨_, -, h⟩ := bind_eq_ok.1 h
      cases h
      exact .inl ⟨.inr ⟨p1, hzero ▸ halloc⟩, rfl, rfl⟩
    · rw [if_neg hzero] at h
      obtain ⟨_, -, h⟩ := bind_eq_ok.1 h
      cases h
      refine .inr ⟨?_, rfl⟩
      rintro (hnone | ⟨p2, halloc2⟩)
      · exact hfree hnone
      · cases halloc.symm.trans halloc2
        exact hzero rfl

/-! ### The command FIS -/

/-- The direction, number of sectors and first sector of an ATA command. -/
def decodeFis (f : H2dFis) : Option (Bool × ℕ × ℕ) :=
  let lba24 := f.lba0 + f.lba1 * 2 ^ 8 + f.lba2 * 2 ^ 16
  let count48 := f.sectorCountLow + f.sectorCountHigh * 2 ^ 8
  let ext := (if count48 = 0 then 65536 else count48,
    lba24 + f.lba3 * 2 ^ 24 + f.lba4 * 2 ^ 32 + f.lba5 * 2 ^ 40)
  let short := (if f.sectorCountLow = 0 then 256 else f.sectorCountLow,
    lba24 + f.devHead % 0x10 * 2 ^ 24)
  match f.command with
  | 0x25 => some (false, ext)
  | 0x35 => some (true, ext)
  | 0xC8 => some (false, short)
  | 0xCA => some (true, short)
  | _ => none

/-- What the fields of the FIS can hold. -/
def FisFits (port : AhciPort) (count offset : ℕ) : Prop :=
  if port.lba48 then count ≠ 0xFFFF else offset < 2 ^ 24 ∧ count ≤ 256

instance : Decidable (FisFits port count offset) :=
  inferInstanceAs (Decidable (if port.lba48 then count ≠ 0xFFFF else offset < 2 ^ 24 ∧ count ≤ 256))

/-- The count 0xFFFF is sent as 0, and the short commands lack four bits of the address and eight of
the count. -/
theorem decodeFis_sectorFis (hcount : 1 ≤ count ∧ count ≤ 0xFFFF)
    (hoffset : offset < if port.lba48 then 2 ^ 48 else 2 ^ 28) :
    decodeFis (sectorFis port count offset write) = some (write, count, offset) ↔
      FisFits port count offset := by
  unfold FisFits
  simp only [sectorFis, decodeFis]
  cases hlba : port.lba48 <;> rw [hlba] at hoffset
  case true =>
    have hoffset : offset < 2 ^ 48 := hoffset
    cases write <;> simp only [if_true, if_false, Bool.false_eq_true, Option.some.injEq,
      Prod.mk.injEq, true_and]
    all_goals
      split_ifs <;> omega
  case false =>
    cases write <;> simp only [if_true, if_false, Bool.false_eq_true, Option.some.injEq,
      Prod.mk.injEq, true_and]
    all_goals
      split_ifs <;> omega

/-- **The FIS means what was asked for, or the call fails, exactly if** the fields can hold the
count and the address, or the command gets no table. -/
theorem ioSataSectors_decodes_iff (hcount : 1 ≤ count ∧ count ≤ 0xFFFF)
    (hoffset : offset < if port.lba48 then 2 ^ 48 else 2 ^ 28)
    (h : ioSataSectors port p buf count offset write done = .ok (err, p', cmd)) :
    (err ≠ 0 ∧ cmd = none ∨
      ∃ c, cmd = some c ∧ decodeFis c.fis = some (write, count, offset) ∧ c.write = write) ↔
    NoTable port p (fisSize port count) ∨ FisFits port count offset := by
  rcases issued_of_ok h with ⟨hno, rfl, rfl⟩ | ⟨hno, rfl⟩
  · exact iff_of_true (.inl ⟨by decide, rfl⟩) (.inl hno)
  rw [or_iff_right hno, ← decodeFis_sectorFis hcount hoffset]
  constructor
  · rintro (⟨-, hnone⟩ | ⟨c, hc, hdecode, -⟩)
    · cases hnone
    · cases hc
      exact hdecode
  · exact fun hdecode => .inr ⟨_, rfl, hdecode, rfl⟩

/-- A port with a free slot. -/
def freePort (lba48 addresses64 : Bool) : AhciPort := ⟨addresses64, 1, 0, 512, 0, lba48⟩

/-- The command that the port issues to write sectors. -/
def issuedCommand (port : AhciPort) (buf count offset : ℕ) : Option AhciCommand :=
  (ioSataSectors port sixteenPages buf count offset true .success).toOption.bind fun r => r.2.2

theorem ioSataSectors_decodes_freePort : ∃ err p' cmd,
    ioSataSectors (freePort true true) sixteenPages 0x5000 8 0x123456789 true .success =
      .ok (err, p', cmd) ∧
    (err ≠ 0 ∧ cmd = none ∨ ∃ c, cmd = some c ∧
      decodeFis c.fis = some (true, 8, 0x123456789) ∧ c.write = true) := by
  obtain ⟨⟨err, p', cmd⟩, h, -⟩ := exists_ok_of_map (b := ()) (f := fun _ => ())
    (x := ioSataSectors (freePort true true) sixteenPages 0x5000 8 0x123456789 true .success)
    (by decide +kernel)
  exact ⟨err, p', cmd, h, (ioSataSectors_decodes_iff (by decide) (by decide) h).2
    (.inr (by decide))⟩

/-- With 0xFFFF sectors the drive transfers 65536; without 48-bit addresses it goes to sector 0
instead of 0x1000000, and transfers one sector instead of 257. -/
theorem not_ioSataSectors_decodes :
    (issuedCommand (freePort true true) 0 0xFFFF 0).map (decodeFis ·.fis) =
      some (some (true, 65536, 0)) ∧
    (issuedCommand (freePort false true) 0 8 0x1000000).map (decodeFis ·.fis) =
      some (some (true, 8, 0)) ∧
    (issuedCommand (freePort false true) 0 257 0).map (decodeFis ·.fis) =
      some (some (true, 1, 0)) := by
  decide +kernel

/-! ### The table -/

/-- The pieces lie one behind the other from `a` to `e`. -/
def Tiles : (pieces : List (ℕ × ℕ)) → (a e : ℕ) → Prop
  | [], a, e => a = e
  | (base, length) :: pieces, a, e => base = a ∧ Tiles pieces (a + length) e

/-- The piece of memory that an entry describes. -/
def Prdt.piece (e : Prdt) : ℕ × ℕ := (e.dataBase + e.dataBaseUpper * 2 ^ 32, e.byteCount + 1)

/-- The memory that the entries of a table can name. -/
def addressBound (port : AhciPort) : ℕ := if port.addresses64 then 2 ^ 64 else 2 ^ 32

theorem piece_ahciFillPrdt (a n : ℕ) : (Prdt.piece (ahciFillPrdt port (a % 2 ^ 64) n)).1 = a ↔
    a < addressBound port := by
  simp only [Prdt.piece, ahciFillPrdt, addressBound]
  split_ifs <;> omega

theorem length_fillPrdts (n i bytesLeft : ℕ) : (fillPrdts port buf n i bytesLeft).length = n := by
  induction n generalizing i bytesLeft with
  | zero => rfl
  | succ n ih =>
    rw [fillPrdts]
    split_ifs <;> rw [length_cons, ih]

/-- An entry describes at most 4 MiB. -/
theorem le_of_tiles_fillPrdts {n i bytesLeft a e : ℕ}
    (h : Tiles ((fillPrdts port buf n i bytesLeft).map Prdt.piece) a e) :
    e ≤ a + n * 0x400000 := by
  have hlen (k : ℕ) : ahciGetPrdtBytes k < 0x400000 := mod_lt _ (by decide)
  induction n generalizing i bytesLeft a with
  | zero => exact (show a = e from h).ge
  | succ n ih =>
    rw [fillPrdts] at h
    split_ifs at h
    · have hrest : e ≤ a + (ahciGetPrdtBytes 0x400000 + 1) + n * 0x400000 := ih h.2
      have hpiece := hlen 0x400000
      omega
    · have hrest : e ≤ a + (ahciGetPrdtBytes bytesLeft + 1) + n * 0x400000 := ih h.2
      have hpiece := hlen bytesLeft
      omega

/-- The loop covers the bytes that are left exactly if every entry can name its first byte. -/
theorem tiles_fillPrdts {n i bytesLeft a : ℕ} (ha : buf + i * 0x400000 = a)
    (hn : n = (bytesLeft + 0x400000 - 1) / 0x400000) (heven : bytesLeft % 2 = 0) :
    Tiles ((fillPrdts port buf n i bytesLeft).map Prdt.piece) a (a + bytesLeft) ↔
      ∀ j < n, a + j * 0x400000 < addressBound port := by
  induction n generalizing i bytesLeft a with
  | zero => exact iff_of_true (show a = a + bytesLeft by omega) (by omega)
  | succ n ih =>
    rw [Nat.forall_lt_succ_left, fillPrdts, ha]
    split_ifs with hfull
    · obtain ⟨rest, rfl⟩ := Nat.exists_eq_add_of_le hfull
      have hi : buf + (i + 1) * 0x400000 = a + 0x400000 := by
        rw [← ha, succ_mul, Nat.add_assoc]
      have hrest := ih hi (by omega) (show rest % 2 = 0 by omega)
      rw [map_cons, Nat.add_sub_cancel_left, ← Nat.add_assoc]
      refine and_congr ((piece_ahciFillPrdt a _).trans (by simp)) (hrest.trans ?_)
      simp only [succ_mul, Nat.add_assoc, Nat.add_comm 0x400000]
    · obtain rfl : n = 0 := by omega
      have hbytes : ahciGetPrdtBytes bytesLeft + 1 = bytesLeft := by
        unfold ahciGetPrdtBytes
        omega
      have hlast : a + (ahciGetPrdtBytes bytesLeft + 1) = a + bytesLeft := by rw [hbytes]
      exact and_congr ((piece_ahciFillPrdt a _).trans (by simp)) (iff_of_true hlast (by omega))

/-- **The table covers the buffer, or no command is issued, exactly if** the number of entries fits
into the header and every entry can name its first byte, or the command gets no table. -/
theorem ioSataSectors_tiles_iff (heven : port.sectorSize % 2 = 0)
    (h : ioSataSectors port p buf count offset write done = .ok (err, p', cmd)) :
    (cmd = none ∨ ∃ c, cmd = some c ∧ c.prdts.length = c.prdtCount ∧
      Tiles (c.prdts.map Prdt.piece) buf (buf + count * port.sectorSize)) ↔
    NoTable port p (fisSize port count) ∨ count * port.sectorSize ≤ 0xFFFF * 0x400000 ∧
      ∀ j < prdtCount port count, buf + j * 0x400000 < addressBound port := by
  rcases issued_of_ok h with ⟨hno, -, rfl⟩ | ⟨hno, rfl⟩
  · exact iff_of_true (.inl rfl) (.inl hno)
  have heven' : count * port.sectorSize % 2 = 0 := by rw [mul_mod, heven, Nat.mul_zero]
  have htiles (hsize : count * port.sectorSize ≤ 0xFFFF * 0x400000) :
      Tiles ((sectorCommand port buf count offset write).prdts.map Prdt.piece) buf
        (buf + count * port.sectorSize) ↔
      ∀ j < prdtCount port count, buf + j * 0x400000 < addressBound port := by
    simp only [sectorCommand]
    rw [mod_eq_of_lt (by omega)]
    refine tiles_fillPrdts (by omega) ?_ heven'
    rw [prdtCount, mod_eq_of_lt (by omega)]
  have hlength : (sectorCommand port buf count offset write).prdts.length =
      prdtCount port count := length_fillPrdts _ _ _
  rw [or_iff_right hno]
  constructor
  · rintro (hnone | ⟨c, hc, hheader, htile⟩)
    · cases hnone
    cases hc
    have hfew : prdtCount port count = prdtCount port count % 2 ^ 16 := hlength.symm.trans hheader
    have hle := le_of_tiles_fillPrdts htile
    have hsize : count * port.sectorSize ≤ 0xFFFF * 0x400000 := by omega
    exact ⟨hsize, (htiles hsize).1 htile⟩
  · rintro ⟨hsize, hbase⟩
    refine .inr ⟨_, rfl, ?_, (htiles hsize).2 hbase⟩
    rw [hlength]
    simp only [sectorCommand, prdtCount]
    omega

theorem ioSataSectors_tiles_freePort : ∃ err p' cmd,
    ioSataSectors (freePort true true) sixteenPages 0x5000 8 0 true .success = .ok (err, p', cmd) ∧
    (cmd = none ∨ ∃ c, cmd = some c ∧ c.prdts.length = c.prdtCount ∧
      Tiles (c.prdts.map Prdt.piece) 0x5000 (0x5000 + 8 * 512)) := by
  obtain ⟨⟨err, p', cmd⟩, h, -⟩ := exists_ok_of_map (b := ()) (f := fun _ => ())
    (x := ioSataSectors (freePort true true) sixteenPages 0x5000 8 0 true .success)
    (by decide +kernel)
  exact ⟨err, p', cmd, h, (ioSataSectors_tiles_iff (by decide) h).2
    (.inr ⟨by decide, by decide⟩)⟩

/-- Without 64-bit addresses, the table for a buffer at 4 GiB describes memory from 0 on. -/
theorem not_ioSataSectors_tiles : ∃ c,
    issuedCommand (freePort true false) 0x100000000 8 0 = some c ∧
    c.prdts.map Prdt.piece = [(0, 4096)] ∧
    ¬ Tiles (c.prdts.map Prdt.piece) 0x100000000 (0x100000000 + 8 * 512) := by
  have hpieces : (sectorCommand (freePort true false) 0x100000000 8 0 true).prdts.map Prdt.piece =
      [(0, 4096)] := by decide +kernel
  refine ⟨sectorCommand (freePort true false) 0x100000000 8 0 true, by decide +kernel, hpieces, ?_⟩
  exact fun h => absurd h.1 (by decide)

/-! ### The memory of a command -/

end Ahci

end DripOS
