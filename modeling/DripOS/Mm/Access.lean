import DripOS.Lib.Bytes
import DripOS.Mm.LowerHalf

/-!
# The bytes of physical memory

Tables are read by words, and data by bytes.  `Machine.bytes` is physical memory as a byte array,
`Machine.store` a write through the direct map, and `Machine.userBytes` what a program reads in its
address space.

* `Machine.bytes_writeBytes`, `Machine.mem_writeBytes` : a write changes its own bytes only;
* `Machine.virtToPhys_of_toPhys` : `virt_to_phys` finds the physical address of a mapped byte;
* `Machine.toPhys_congr` : a write that leaves the tables alone does not move the bytes of an
  address space.
-/

namespace DripOS

namespace Machine

variable (s : Machine)

/-- Physical memory by bytes. -/
def bytes : Bytes := fun a => Bytes.ofNat (s.mem (a / 0x1000) (Fin.ofNat 512 (a / 8))) (a % 8)

/-- Store `n` bytes from the physical address `a` on. -/
def writeBytes (a n : ℕ) (src : Bytes) : Machine :=
  { s with mem := fun f i =>
      let word := f * 0x1000 + i.val * 8
      if a < word + 8 ∧ word < a + n then (s.bytes.patch a n src).getLE word 8 else s.mem f i }

/-- Store `n` bytes at a pointer into the direct map. -/
def store (p : Ptr) (n : ℕ) (src : Bytes) : Machine := s.writeBytes (getLowerHalf p) n src

/-- The physical address of a byte of the address space with root `r`. -/
def toPhys (r u : ℕ) : Option ℕ :=
  (translate s.mem r (vmmVirtToOffs u)).map fun page => page.1 * 0x1000 + u % 0x1000

/-- The bytes of the address space with root `r`; unmapped ones read as zero. -/
def userBytes (r : ℕ) : Bytes := fun u =>
  match s.toPhys r u with
  | some a => s.bytes a
  | none => 0

variable {s : Machine} {a n r u : ℕ} {src : Bytes}

theorem pmm_writeBytes : (s.writeBytes a n src).pmm = s.pmm := by
  rw [writeBytes]

/-- **A write changes the bytes that it stores.** -/
theorem bytes_writeBytes : (s.writeBytes a n src).bytes = s.bytes.patch a n src := by
  funext x
  have hi : (Fin.ofNat 512 (x / 8)).val = x / 8 % 512 := rfl
  have hword : x / 0x1000 * 0x1000 + x / 8 % 512 * 8 = x / 8 * 8 := by omega
  have hx : x / 8 * 8 + x % 8 = x := by omega
  simp only [bytes, writeBytes, hi, hword]
  split_ifs with h
  · rw [Bytes.ofNat_getLE (Nat.mod_lt x (by decide)), hx]
  · rw [Bytes.patch, if_neg fun hb => h ⟨by omega, by omega⟩]
    rfl

theorem bytes_congr {s' : Machine} {x : ℕ} (h : s'.mem (x / 0x1000) = s.mem (x / 0x1000)) :
    s'.bytes x = s.bytes x := by
  unfold bytes
  rw [h]

/-- A write leaves the other frames alone. -/
theorem mem_writeBytes {f : ℕ} (h : f * 0x1000 + 0x1000 ≤ a ∨ a + n ≤ f * 0x1000) :
    (s.writeBytes a n src).mem f = s.mem f := by
  funext i
  exact if_neg fun hb => by omega

theorem toPhys_eq_some {x : ℕ} : s.toPhys r u = some x ↔
    ∃ f fl, translate s.mem r (vmmVirtToOffs u) = some (f, fl) ∧ x = f * 0x1000 + u % 0x1000 := by
  rw [toPhys, Option.map_eq_some_iff]
  constructor
  · rintro ⟨⟨f, fl⟩, h, rfl⟩
    exact ⟨f, fl, h, rfl⟩
  · rintro ⟨f, fl, h, rfl⟩
    exact ⟨(f, fl), h, rfl⟩

theorem userBytes_eq {x : ℕ} (h : s.toPhys r u = some x) : s.userBytes r u = s.bytes x := by
  rw [userBytes, h]

theorem toPhys_congr {s' : Machine} (h : ∀ t, IsPageTable s.mem r t → s'.mem t = s.mem t) :
    s'.toPhys r u = s.toPhys r u := by
  rw [toPhys, toPhys, translate_congr h]

/-- The tables are reachable through the direct map, and only the root may be in frame `0`. -/
def TablesMapped (mem : ℕ → Fin 512 → ℕ) (r : ℕ) : Prop :=
  ∀ π t, π ≠ [] → pageWalk mem r π = some t → Followed t

/-- **`virt_to_phys` finds the byte of a mapped address.** -/
theorem virtToPhys_of_toPhys {x : ℕ} (hr : r < 2 ^ 52) (ht : TablesMapped s.mem r)
    (hreg : Regular s.mem r (vmmVirtToOffs u)) (h : s.toPhys r u = some x) :
    s.virtToPhys u (r * 0x1000) = x := by
  obtain ⟨f, fl, htr, rfl⟩ := toPhys_eq_some.1 h
  have hp1 : (vmmVirtToOffs u).p1Off.val = u / 2 ^ 12 % 512 := val_tableIndex u 12
  obtain ⟨v, hv⟩ : ∃ v, vmmVirtToOffs u = v := ⟨_, rfl⟩
  rw [hv] at hreg htr hp1
  obtain ⟨t3, t2, hw3, hw2, rfl, rfl, hleaf⟩ := hreg.translate_cases htr
  have ht3 : Followed _ := ht _ _ (by simp) hw3
  rw [virtToPhys_eq hr hv]
  rw [if_pos ht3]
  rcases hleaf with ⟨hhuge, ha, rfl⟩ | ⟨hsmall, t1, hw1, rfl, hp, rfl⟩
  · have hlt := entryFrame_lt (s.mem (entryFrame (s.mem (entryFrame (s.mem r v.p4Off)) v.p3Off))
      v.p2Off)
    rw [if_pos hhuge, hp1]
    omega
  · have ht2 : Followed _ := ht _ _ (by simp) hw2
    have ht1 : Followed _ := ht _ _ (by simp) hw1
    rw [if_neg hsmall, if_pos ⟨ht2, ht1, hp⟩]

end Machine

end DripOS
