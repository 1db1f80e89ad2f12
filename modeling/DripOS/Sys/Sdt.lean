import DripOS.Lib.Bytes

/-!
# The search for ACPI tables

`get_root_sdt_header` and `search_sdt_header` of `src/sys/acpi/rsdt.c`.  The root table is the RSDT
with addresses of 4 bytes, or the XSDT with addresses of 8 bytes.  The first function takes the XSDT
for the revision 2 only, the other one takes the root table for an RSDT for the revision 0 only.

* `Sdt.searchSdtHeader_first_iff` : **when the search finds the first table** inside of the root
  table.
-/

namespace DripOS

namespace Sdt

variable (mem : Bytes)

/-- `checksum_calc`. -/
def checksumCalc (data length : ℕ) : ℕ :=
  ((List.range length).map fun i => (mem (data + i)).toNat).sum % 0x100

/-- `header->length`. -/
def tableLength (t : ℕ) : ℕ := mem.getLE (t + 4) 4

/-- The checksum of a table is right. -/
def valid (t : ℕ) : Bool := checksumCalc mem t (tableLength mem t) == 0

/-- `rsdp->revision`. -/
def revision (rsdp : ℕ) : ℕ := (mem (rsdp + 15)).toNat

/-- `get_root_sdt_header`; `rsdp` is where the descriptor is. -/
def getRootSdtHeader (rsdp : Option ℕ) : Option ℕ :=
  rsdp.bind fun rsdp =>
    if revision mem rsdp = 2 then
      if checksumCalc mem (rsdp + 20) 16 = 0 then
        Option.guard (valid mem) (mem.getLE (rsdp + 24) 8)
      else none
    else Option.guard (valid mem) (mem.getLE (rsdp + 16) 4)

/-- `other_sdts[i]` of a root table with entries of `width` bytes. -/
def otherSdt (root width i : ℕ) : ℕ := mem.getLE (root + 36 + width * i) width

/-- The entry is a table with the signature and a right checksum. -/
def isWanted (sig : List UInt8) (t : ℕ) : Bool :=
  t != 0 && (List.range 4).map (fun s => mem (t + s)) == sig && valid mem t

/-- The first of the entries that is wanted. -/
def findEntry (sig : List UInt8) (root width count : ℕ) : Option ℕ :=
  (List.range count).find? fun i => isWanted mem sig (otherSdt mem root width i)

/-- `search_sdt_header`: the number of the entry. -/
def searchLoop (sig : List UInt8) (root width : ℕ) : Option ℕ :=
  findEntry mem sig root width (tableLength mem root / width)

/-- The entry width that `search_sdt_header` takes. -/
def searchWidth (rsdp : ℕ) : ℕ := if revision mem rsdp = 0 then 4 else 8

/-- `search_sdt_header`. -/
def searchSdtHeader (rsdp : Option ℕ) (sig : List UInt8) : Option ℕ :=
  (getRootSdtHeader mem rsdp).bind fun root =>
    rsdp.bind fun rsdp =>
      (searchLoop mem sig root (searchWidth mem rsdp)).map
        (otherSdt mem root (searchWidth mem rsdp))

/-- The number of entries that the loop examines. -/
def examined (sig : List UInt8) (root width : ℕ) : ℕ :=
  ((searchLoop mem sig root width).map (· + 1)).getD (tableLength mem root / width)

/-- The entry width of the table that `get_root_sdt_header` takes. -/
def rootWidth (rsdp : ℕ) : ℕ := if revision mem rsdp = 2 then 8 else 4

/-- The number of entries between the header and the end of the table. -/
def entryCount (root width : ℕ) : ℕ := (tableLength mem root - 36) / width

variable {mem} {rsdp root : ℕ} {sig : List UInt8}

theorem searchWidth_eq_rootWidth :
    searchWidth mem rsdp = rootWidth mem rsdp ↔ revision mem rsdp = 0 ∨ revision mem rsdp = 2 := by
  unfold searchWidth rootWidth
  split_ifs <;> omega

/-- The loop goes further than the table, but not further than an entry that it finds. -/
theorem searchLoop_of_findEntry {width i : ℕ}
    (h : findEntry mem sig root width (entryCount mem root width) = some i) :
    searchLoop mem sig root width = some i := by
  obtain ⟨hw, hlt, hfirst⟩ := List.find?_range_eq_some.1 h
  refine List.find?_range_eq_some.2 ⟨hw, ?_, hfirst⟩
  have hle : entryCount mem root width ≤ _ :=
    Nat.div_le_div_right (Nat.sub_le (tableLength mem root) 36)
  exact List.mem_range.2 ((List.mem_range.1 hlt).trans_le hle)

/-- Without a match the loop leaves the table, unless it examines nothing. -/
theorem examined_le_iff {width : ℕ} (hpos : 0 < width) (hle : width ≤ 36)
    (h : findEntry mem sig root width (entryCount mem root width) = none) :
    examined mem sig root width ≤ entryCount mem root width ↔ tableLength mem root < width := by
  have hno : ∀ i < entryCount mem root width,
      ¬ isWanted mem sig (otherSdt mem root width i) = true := by
    simpa [findEntry] using h
  have hcount : entryCount mem root width * width ≤ tableLength mem root - 36 :=
    Nat.div_mul_le_self _ _
  cases hloop : searchLoop mem sig root width with
  | some i =>
    -- the entry is behind the end
    obtain ⟨hw, hlt, -⟩ := List.find?_range_eq_some.1 hloop
    have hi : entryCount mem root width ≤ i := Nat.not_lt.1 fun hi => hno i hi hw
    have hlen : 0 < tableLength mem root / width := (Nat.zero_le i).trans_lt (List.mem_range.1 hlt)
    rw [examined, hloop]
    exact iff_of_false (Nat.not_le.2 (Nat.lt_succ_of_le hi))
      (Nat.not_lt.2 (Nat.div_pos_iff.1 hlen).2)
  | none =>
    rw [examined, hloop]
    show tableLength mem root / width ≤ entryCount mem root width ↔ _
    rw [Nat.div_le_iff_le_mul_add_pred hpos, Nat.mul_comm]
    constructor
    · intro hall
      omega
    · intro hlt
      omega

/-- **The search finds the first table** with the signature and a right checksum, and examines no
entry behind the root table, **exactly if** the revision is 0 or 2, and the root table has such an
entry or is too short for the loop. -/
theorem searchSdtHeader_first_iff (hroot : getRootSdtHeader mem (some rsdp) = some root) :
    (searchSdtHeader mem (some rsdp) sig =
      (findEntry mem sig root (rootWidth mem rsdp) (entryCount mem root (rootWidth mem rsdp))).map
        (otherSdt mem root (rootWidth mem rsdp)) ∧
    searchWidth mem rsdp = rootWidth mem rsdp ∧
    examined mem sig root (rootWidth mem rsdp) ≤ entryCount mem root (rootWidth mem rsdp)) ↔
    (revision mem rsdp = 0 ∨ revision mem rsdp = 2) ∧
      (findEntry mem sig root (rootWidth mem rsdp)
        (entryCount mem root (rootWidth mem rsdp)) ≠ none ∨
      tableLength mem root < rootWidth mem rsdp) := by
  rw [and_left_comm, searchWidth_eq_rootWidth]
  refine and_congr_right fun hrev => ?_
  rw [searchSdtHeader, hroot, Option.bind_some, Option.bind_some,
    searchWidth_eq_rootWidth.2 hrev]
  have hwidth : 0 < rootWidth mem rsdp ∧ rootWidth mem rsdp ≤ 36 := by
    unfold rootWidth
    split_ifs <;> decide
  generalize rootWidth mem rsdp = width at *
  cases hfind : findEntry mem sig root width (entryCount mem root width) with
  | some i =>
    have hloop := searchLoop_of_findEntry hfind
    refine iff_of_true ⟨by rw [hloop], ?_⟩ (.inl nofun)
    rw [examined, hloop]
    exact List.mem_range.1 (List.find?_range_eq_some.1 hfind).2.1
  | none =>
    rw [examined_le_iff hwidth.1 hwidth.2 hfind, or_iff_right fun h => h rfl]
    refine and_iff_right_of_imp fun hshort => ?_
    rw [searchLoop, Nat.div_eq_of_lt hshort]
    rfl

/-- The signature `APIC`. -/
def apic : List UInt8 := [0x41, 0x50, 0x49, 0x43]

/-- A descriptor at 0, and an RSDT at 64 with the address of a table with the signature `APIC`
behind its header and a number behind that. -/
def acpiMem (rev rsdtLength next : ℕ) : Bytes :=
  let mem : Bytes := ((Bytes.putLE (fun _ => 0) 15 1 rev).putLE 16 4 64).putLE 68 4 rsdtLength
  let mem := (mem.putLE 100 4 200).putLE 104 4 next
  let mem := (mem.patch 200 4 fun i => apic.getD i 0).putLE 204 4 36
  let mem := mem.putLE 209 1 (256 - checksumCalc mem 200 36)
  mem.putLE 73 1 (256 - checksumCalc mem 64 rsdtLength)

theorem searchSdtHeader_first_apic : ∃ root,
    getRootSdtHeader (acpiMem 0 40 0) (some 0) = some root ∧
    searchSdtHeader (acpiMem 0 40 0) (some 0) apic =
      (findEntry (acpiMem 0 40 0) apic root (rootWidth (acpiMem 0 40 0) 0)
        (entryCount (acpiMem 0 40 0) root (rootWidth (acpiMem 0 40 0) 0))).map
          (otherSdt (acpiMem 0 40 0) root (rootWidth (acpiMem 0 40 0) 0)) :=
  have hroot : getRootSdtHeader (acpiMem 0 40 0) (some 0) = some 64 := by decide +kernel
  ⟨64, hroot, ((searchSdtHeader_first_iff hroot).2 ⟨by decide +kernel, .inl (by decide +kernel)⟩).1⟩

/-- With the revision 1, the RSDT is searched with entries of 8 bytes, and its table is not found.
An RSDT without entries is searched behind its end. -/
theorem not_searchSdtHeader_first :
    getRootSdtHeader (acpiMem 1 40 1) (some 0) = some 64 ∧
    (findEntry (acpiMem 1 40 1) apic 64 4 (entryCount (acpiMem 1 40 1) 64 4)).map
      (otherSdt (acpiMem 1 40 1) 64 4) = some 200 ∧
    searchSdtHeader (acpiMem 1 40 1) (some 0) apic = none ∧
    getRootSdtHeader (acpiMem 0 36 0) (some 0) = some 64 ∧
    entryCount (acpiMem 0 36 0) 64 4 = 0 ∧
    searchSdtHeader (acpiMem 0 36 0) (some 0) apic = some 200 := by
  decide +kernel

end Sdt

end DripOS
