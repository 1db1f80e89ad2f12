import DripOS.Klibc.Vector
import DripOS.Sys.Sdt

/-!
# The table of interrupt controllers

`parse_madt` of `src/sys/apic.c` goes over the records of the ACPI table MADT, which begin with a
type and a size.  The addresses of the records of four types are put into vectors, and a record of
type 5 replaces the address of the local APIC.

* `Madt.parseMadt_records` : **every record is visited once, and goes where it belongs**;
* `Madt.parseMadt_inside_iff` : what it takes for the loop to end inside of the table.
-/

namespace DripOS

open List Option

/-- The vectors that records go to. -/
inductive MadtVector where
  | cpu
  | ioapic
  | iso
  | nmi
  deriving DecidableEq, Repr

/-- The type of the records of a vector. -/
def MadtVector.type : MadtVector → UInt8
  | cpu => 0
  | ioapic => 1
  | iso => 2
  | nmi => 4

/-- What `parse_madt` has found. -/
structure Madt where
  vector : MadtVector → VectorT
  lapicBase : ℕ
  /-- Ghost: where the records were that it has visited. -/
  visited : List ℕ
  /-- Ghost: the end of the bytes that it has read. -/
  readEnd : ℕ

namespace Madt

variable (base : ℕ) (table : Bytes)

/-- The type of the record at an index of `entries`. -/
def typeAt (e : ℕ) : UInt8 := table (44 + e)

/-- The size of a record. -/
def sizeAt (e : ℕ) : ℕ := (table (44 + e + 1)).toNat

/-- `local_apic_override` of a record of type 5. -/
def overrideAt (e : ℕ) : ℕ := table.getLE (44 + e + 4) 8

/-- The number of bytes of its payload that the code for a type reads. -/
def payloadRead (type : UInt8) : ℕ :=
  match type.toNat with
  | 0 => 6
  | 1 => 10
  | 2 => 8
  | 4 => 4
  | 5 => 10
  | _ => 0

/-- The body of the loop for the record at index `e`. -/
def parseEntry (m : Madt) (e : ℕ) : Madt where
  vector := fun k =>
    if typeAt table e = k.type then (m.vector k).vectorAdd (base + 44 + e + 2) else m.vector k
  lapicBase := if typeAt table e = 5 then overrideAt table e else m.lapicBase
  visited := m.visited ++ [e]
  readEnd := max m.readEnd (44 + e + 2 + payloadRead (typeAt table e))

/-- The loop.  Two increments, `e += size - 3` and the one of the loop add the size of the record.
-/
def parseLoop (bytesForEntries : ℕ) : (fuel e : ℕ) → Madt → Option Madt
  | 0, _, _ => none
  | fuel + 1, e, m =>
    if e < bytesForEntries then
      parseLoop bytesForEntries fuel ((e + sizeAt table e) % 2 ^ 64) (parseEntry base table m e)
    else some m

/-- `madt->header.length`. -/
def tableLength : ℕ := table.getLE 4 4

/-- The state before the loop. -/
def start : Madt := ⟨fun _ => .vectorInit, table.getLE 36 4, [], 40⟩

/-- `lapic_base += KERNEL_VM_OFFSET`. -/
def finish (m : Madt) : Madt := { m with lapicBase := (m.lapicBase + 0xFFFF800000000000) % 2 ^ 64 }

/-- `parse_madt` of the table at the address `base`. -/
def parseMadt (fuel : ℕ) : Option Madt :=
  (parseLoop base table ((tableLength table + 2 ^ 64 - 44) % 2 ^ 64) fuel 0 (start table)).map
    finish

/-- The bytes from `e` to `n` are records, at these indices. -/
def Records (e n : ℕ) : List ℕ → Prop
  | [] => e = n
  | o :: os => o = e ∧ 2 ≤ sizeAt table e ∧ Records (e + sizeAt table e) n os

/-- The records that the loop visits from `e` on, until it is behind `n`. -/
def Walk (e n : ℕ) : List ℕ → Prop
  | [] => n ≤ e
  | o :: os => o = e ∧ e < n ∧ 1 ≤ sizeAt table e ∧ Walk (e + sizeAt table e) n os

variable {base table} {e n : ℕ} {os : List ℕ}

@[simp] theorem visited_finish (m : Madt) : (finish m).visited = m.visited := by rw [finish]

@[simp] theorem vector_finish (m : Madt) : (finish m).vector = m.vector := by rw [finish]

@[simp] theorem readEnd_finish (m : Madt) : (finish m).readEnd = m.readEnd := by rw [finish]

theorem Records.le (h : Records table e n os) : e ≤ n := by
  induction os generalizing e with
  | nil => exact h.le
  | cons o os ih => exact (Nat.le_add_right _ _).trans (ih h.2.2)

theorem Records.walk (h : Records table e n os) : Walk table e n os := by
  induction os generalizing e with
  | nil => exact h.ge
  | cons o os ih =>
    obtain ⟨rfl, hsize, hrest⟩ := h
    have hle := hrest.le
    exact ⟨rfl, by omega, by omega, ih hrest⟩

theorem sizeAt_lt (table : Bytes) (e : ℕ) : sizeAt table e < 256 := UInt8.toNat_lt _

theorem parseLoop_walk (hn : n < 2 ^ 63) (h : Walk table e n os) (m : Madt) :
    parseLoop base table n (os.length + 1) e m = some (os.foldl (parseEntry base table) m) := by
  induction os generalizing e m with
  | nil => exact if_neg (Nat.not_lt.2 h)
  | cons o os ih =>
    obtain ⟨rfl, hlt, -, hrest⟩ := h
    have hsize := sizeAt_lt table o
    rw [length_cons, parseLoop, if_pos hlt, Nat.mod_eq_of_lt (by omega), ih hrest]
    rfl

/-- A loop that ends has gone over a walk. -/
theorem walk_of_parseLoop (hn : n < 2 ^ 63) {fuel : ℕ} {m m' : Madt}
    (h : parseLoop base table n fuel e m = some m') :
    ∃ os, Walk table e n os ∧ m' = os.foldl (parseEntry base table) m := by
  induction fuel generalizing e m with
  | zero => cases h
  | succ fuel ih =>
    rw [parseLoop] at h
    split_ifs at h with hlt
    · have hsize := sizeAt_lt table e
      rw [Nat.mod_eq_of_lt (by omega)] at h
      obtain ⟨os, hos, rfl⟩ := ih h
      rcases Nat.eq_zero_or_pos (sizeAt table e) with hzero | hpos
      · -- the loop stays at a record of size 0
        rw [hzero, Nat.add_zero] at hos
        cases os with
        | nil => exact absurd hos (Nat.not_le.2 hlt)
        | cons o os =>
          have hsize : 1 ≤ sizeAt table e := hos.2.2.1
          omega
      · exact ⟨e :: os, ⟨rfl, hlt, hpos, hos⟩, rfl⟩
    · cases h
      exact ⟨[], Nat.not_lt.1 hlt, rfl⟩

theorem vector_foldl (k : MadtVector) (m : Madt) :
    ((os.foldl (parseEntry base table) m).vector k).toList = (m.vector k).toList ++
      (os.filter (typeAt table · = k.type)).map (base + 44 + · + 2) := by
  induction os generalizing m with
  | nil => simp
  | cons o os ih =>
    rw [foldl_cons, ih]
    by_cases htype : typeAt table o = k.type
    · simp [parseEntry, htype, VectorT.toList_vectorAdd]
    · simp [parseEntry, htype]

theorem lapicBase_foldl (m : Madt) : (os.foldl (parseEntry base table) m).lapicBase =
    ((os.filter (typeAt table · = 5)).getLast?.map (overrideAt table)).getD m.lapicBase := by
  induction os generalizing m with
  | nil => rfl
  | cons o os ih =>
    rw [foldl_cons, ih]
    by_cases htype : typeAt table o = 5
    · rw [filter_cons_of_pos (by simpa using htype), List.getLast?_cons]
      cases (os.filter (typeAt table · = 5)).getLast? <;> simp [parseEntry, htype]
    · rw [filter_cons_of_neg (by simpa using htype)]
      simp [parseEntry, htype]

theorem visited_foldl (m : Madt) :
    (os.foldl (parseEntry base table) m).visited = m.visited ++ os := by
  induction os generalizing m with
  | nil => simp
  | cons o os ih => rw [foldl_cons, ih]; simp [parseEntry]

theorem parseMadt_eq (hlen : 44 ≤ tableLength table)
    (h : Walk table 0 (tableLength table - 44) os) :
    parseMadt base table (os.length + 1) =
      some (finish (os.foldl (parseEntry base table) (start table))) := by
  have hlt : tableLength table < 256 ^ 4 := Bytes.getLE_lt
  rw [parseMadt, show (tableLength table + 2 ^ 64 - 44) % 2 ^ 64 = tableLength table - 44 by omega,
    parseLoop_walk (by omega) h, map_some]

/-- **Every record is visited once, and goes where it belongs.** -/
theorem parseMadt_records (hlen : 44 ≤ tableLength table)
    (h : Records table 0 (tableLength table - 44) os) : ∃ fuel m,
      parseMadt base table fuel = some m ∧ m.visited = os ∧
      (∀ k, (m.vector k).toList = (os.filter (typeAt table · = k.type)).map (base + 44 + · + 2)) ∧
      m.lapicBase = (((os.filter (typeAt table · = 5)).getLast?.map (overrideAt table)).getD
        (table.getLE 36 4) + 0xFFFF800000000000) % 2 ^ 64 := by
  refine ⟨_, _, parseMadt_eq hlen h.walk, ?_, fun k => ?_, ?_⟩
  · rw [visited_finish, visited_foldl, start, nil_append]
  · rw [vector_finish, vector_foldl, start]
    rfl
  · rw [finish, lapicBase_foldl, start]

theorem readEnd_foldl_le {l : ℕ} (m : Madt) :
    (os.foldl (parseEntry base table) m).readEnd ≤ l ↔
      m.readEnd ≤ l ∧ ∀ o ∈ os, 44 + o + 2 + payloadRead (typeAt table o) ≤ l := by
  induction os generalizing m with
  | nil => simp
  | cons o os ih =>
    rw [foldl_cons, ih, forall_mem_cons, ← and_assoc]
    exact and_congr_left fun _ => max_le_iff

/-- Every round reads the type and the size of a record. -/
theorem le_readEnd_parseLoop {fuel : ℕ} {m m' : Madt}
    (h : parseLoop base table n fuel e m = some m') : m.readEnd ≤ m'.readEnd := by
  induction fuel generalizing e m with
  | zero => cases h
  | succ fuel ih =>
    rw [parseLoop] at h
    split_ifs at h
    · exact (le_max_left _ _).trans (ih h)
    · cases h
      exact le_rfl

/-- The table of a call that reads nothing behind it has a complete header: the number of bytes for
records of a shorter one wraps around. -/
theorem le_of_parseMadt {fuel : ℕ} {m : Madt} (h : parseMadt base table fuel = some m)
    (hread : m.readEnd ≤ tableLength table) : 44 ≤ tableLength table := by
  by_contra hshort
  obtain ⟨m', hloop, rfl⟩ := map_eq_some_iff.1 h
  rw [readEnd_finish] at hread
  cases fuel with
  | zero => cases hloop
  | succ fuel =>
    rw [parseLoop, if_pos (by omega)] at hloop
    have hfirst : 44 + 0 + 2 + payloadRead (typeAt table 0) ≤ m'.readEnd :=
      (le_max_right _ _).trans (le_readEnd_parseLoop hloop)
    omega

/-- **The loop ends and reads nothing behind the table exactly if** the header is complete, the loop
comes to the end over records of at least one byte, and what it reads of each is inside. -/
theorem parseMadt_inside_iff :
    (∃ fuel m, parseMadt base table fuel = some m ∧ m.readEnd ≤ tableLength table) ↔
    44 ≤ tableLength table ∧ ∃ os, Walk table 0 (tableLength table - 44) os ∧
      ∀ o ∈ os, 44 + o + 2 + payloadRead (typeAt table o) ≤ tableLength table := by
  have hlt : tableLength table < 256 ^ 4 := Bytes.getLE_lt
  constructor
  · rintro ⟨fuel, m, h, hread⟩
    have hlen := le_of_parseMadt h hread
    obtain ⟨m', hloop, rfl⟩ := map_eq_some_iff.1 h
    rw [show (tableLength table + 2 ^ 64 - 44) % 2 ^ 64 = tableLength table - 44 by omega] at hloop
    obtain ⟨os, hos, rfl⟩ := walk_of_parseLoop (by omega) hloop
    rw [readEnd_finish, readEnd_foldl_le] at hread
    exact ⟨hlen, os, hos, hread.2⟩
  · rintro ⟨hlen, os, hos, hread⟩
    refine ⟨_, _, parseMadt_eq hlen hos, ?_⟩
    rw [readEnd_finish, readEnd_foldl_le]
    exact ⟨show 40 ≤ tableLength table by omega, hread⟩

/-- A table with these entries and a right checksum. -/
def ofEntries (length : ℕ) (entries : List UInt8) : Bytes :=
  let table := Bytes.putLE (fun i => if 44 ≤ i then entries.getD (i - 44) 0 else 0) 4 4 length
  table.putLE 9 1 (256 - Sdt.checksumCalc table 0 length)

/-- A processor and an address of the local APIC. -/
def twoRecords : Bytes :=
  ofEntries 64 [0, 8, 1, 1, 1, 0, 0, 0, 5, 12, 0, 0, 0, 0, 0xE0, 0xFE, 0, 0, 0, 0]

theorem records_twoRecords : Records twoRecords 0 (tableLength twoRecords - 44) [0, 8] := by
  have hlen : tableLength twoRecords = 64 := by decide +kernel
  have h0 : sizeAt twoRecords 0 = 8 := by decide
  have h8 : sizeAt twoRecords 8 = 12 := by decide
  rw [hlen]
  refine ⟨rfl, by decide, ?_⟩
  rw [h0]
  exact ⟨rfl, by decide, by rw [h8]; rfl⟩

theorem parseMadt_records_twoRecords : ∃ fuel m,
    parseMadt 0x1000 twoRecords fuel = some m ∧ m.visited = [0, 8] ∧
    (∀ k, (m.vector k).toList =
      ([0, 8].filter (typeAt twoRecords · = k.type)).map (0x1000 + 44 + · + 2)) ∧
    m.lapicBase = ((([0, 8].filter (typeAt twoRecords · = 5)).getLast?.map
      (overrideAt twoRecords)).getD (twoRecords.getLE 36 4) + 0xFFFF800000000000) % 2 ^ 64 :=
  parseMadt_records (by decide +kernel) records_twoRecords

theorem parseMadt_inside_twoRecords : ∃ fuel m,
    parseMadt 0x1000 twoRecords fuel = some m ∧ m.readEnd ≤ tableLength twoRecords :=
  parseMadt_inside_iff.2 ⟨by decide +kernel, _, records_twoRecords.walk, by decide +kernel⟩

theorem parseMadt_hang (fuel : ℕ) : parseMadt 0x1000 (ofEntries 46 [0, 0]) fuel = none := by
  have hloop : ∀ m, parseLoop 0x1000 (ofEntries 46 [0, 0]) 2 fuel 0 m = none := by
    induction fuel with
    | zero => exact fun _ => rfl
    | succ fuel ih => exact fun m => ih _
  have hlen : tableLength (ofEntries 46 [0, 0]) = 46 := by decide +kernel
  rw [parseMadt, hlen, show (46 + 2 ^ 64 - 44) % 2 ^ 64 = 2 by decide, hloop, map_none]

/-- A record of the size 0 is visited forever, and the size of a record that is cut off is read from
outside of the table. -/
theorem not_parseMadt_inside : Sdt.valid (ofEntries 46 [0, 0]) 0 ∧
    (∀ fuel, parseMadt 0x1000 (ofEntries 46 [0, 0]) fuel = none) ∧
    Sdt.valid (ofEntries 45 [9, 2]) 0 ∧
    ∃ fuel m, parseMadt 0x1000 (ofEntries 45 [9, 2]) fuel = some m ∧
      ¬ m.readEnd ≤ tableLength (ofEntries 45 [9, 2]) := by
  obtain ⟨m, hm, hread⟩ := map_eq_some_iff.1
    (show (parseMadt 0x1000 (ofEntries 45 [9, 2]) 2).map readEnd = some 46 by decide +kernel)
  have hlen : tableLength (ofEntries 45 [9, 2]) = 45 := by decide +kernel
  exact ⟨by decide +kernel, parseMadt_hang, by decide +kernel, 2, m, hm,
    by rw [hread, hlen]; decide⟩

end Madt

end DripOS
