import Mathlib.Tactic.Ring

/-!
# Byte arrays and the numbers stored in them

The bytes of a memory or of a device, as a function.  `slice` and `patch` are what `memcpy` reads
and writes; `getLE` and `putLE` read and write a number of `n` bytes, least significant byte first.
-/

namespace DripOS

open Nat List

/-- The bytes from some position on. -/
abbrev Bytes := ℕ → UInt8

namespace Bytes

variable (b : Bytes) (o n : ℕ)

/-- The `n` bytes from `o` on, in a zeroed buffer. -/
def slice : Bytes := fun i => if i < n then b (o + i) else 0

/-- `b` with the `n` bytes from `o` on taken from `src`. -/
def patch (src : Bytes) : Bytes := fun i => if o ≤ i ∧ i < o + n then src (i - o) else b i

/-- The number in the `n` bytes from `o` on. -/
def getLE : (o n : ℕ) → ℕ
  | _, 0 => 0
  | o, n + 1 => (b o).toNat + 256 * getLE (o + 1) n

/-- The bytes of a number. -/
def ofNat (v : ℕ) : Bytes := fun i => UInt8.ofNat (v / 256 ^ i)

/-- `b` with a number stored in the `n` bytes from `o` on. -/
def putLE (v : ℕ) : Bytes := b.patch o n (ofNat v)

/-- The first `n` bytes. -/
def toList : List UInt8 := (List.range n).map b

variable {b src : Bytes} {o n v i k : ℕ}

theorem toList_congr {b' : Bytes} (h : ∀ i < n, b i = b' i) : b.toList n = b'.toList n :=
  map_congr_left fun i hi => h i (mem_range.1 hi)

theorem toList_add (m : ℕ) : b.toList (m + n) = b.toList m ++ toList (fun i => b (m + i)) n := by
  rw [toList, toList, toList, range_add, map_append, map_map]
  rfl

@[simp] theorem slice_of_lt (h : i < n) : b.slice o n i = b (o + i) := if_pos h

@[simp] theorem patch_add {i : ℕ} (h : i < n) : b.patch o n src (o + i) = src i := by
  rw [patch, if_pos ⟨Nat.le_add_right o i, Nat.add_lt_add_left h o⟩, Nat.add_sub_cancel_left]

theorem patch_of_lt (h : i < o) : b.patch o n src i = b i :=
  if_neg fun hi => absurd hi.1 (Nat.not_le.2 h)

theorem patch_of_le (h : o + n ≤ i) : b.patch o n src i = b i :=
  if_neg fun hi => absurd hi.2 (Nat.not_lt.2 h)

/-- A number depends on its own bytes only. -/
theorem getLE_congr {b' : Bytes} {o' : ℕ} (h : ∀ i < n, b (o + i) = b' (o' + i)) :
    b.getLE o n = b'.getLE o' n := by
  induction n generalizing o o' with
  | zero => rfl
  | succ n ih =>
    have htail : b.getLE (o + 1) n = b'.getLE (o' + 1) n := ih fun i hi => by
      rw [Nat.add_assoc, Nat.add_assoc, Nat.add_comm 1 i]
      exact h (i + 1) (succ_lt_succ hi)
    rw [getLE, getLE, htail, show b o = b' o' from h 0 n.succ_pos]

/-- A write next to a number does not change it. -/
theorem getLE_patch_of_disjoint {m : ℕ} (h : m + k ≤ o ∨ o + n ≤ m) :
    (b.patch o n src).getLE m k = b.getLE m k :=
  getLE_congr fun i hi => by
    rcases h with h | h
    · exact patch_of_lt (by omega)
    · exact patch_of_le (by omega)

/-- A number inside the written bytes is that of the source. -/
theorem getLE_patch_inside {m k : ℕ} (h : m + k ≤ n) :
    (b.patch o n src).getLE (o + m) k = src.getLE m k :=
  getLE_congr fun i hi => by rw [Nat.add_assoc, patch_add (by omega)]

theorem getLE_lt : b.getLE o n < 256 ^ n := by
  induction n generalizing o with
  | zero => exact Nat.one_pos
  | succ n ih =>
    have hbyte : (b o).toNat < 256 := (b o).toNat_lt
    have htail := @ih (o + 1)
    rw [getLE, pow_succ]
    omega

theorem getLE_ofNat (v o n : ℕ) : (ofNat v).getLE o n = v / 256 ^ o % 256 ^ n := by
  induction n generalizing o with
  | zero => rw [getLE, pow_zero, mod_one]
  | succ n ih =>
    have hbyte : (ofNat v o).toNat = v / 256 ^ o % 256 := UInt8.toNat_ofNat'
    rw [getLE, ih, hbyte, pow_succ 256 o, ← Nat.div_div_eq_div_mul, pow_succ' 256 n, mod_mul]

theorem getLE_putLE : (b.putLE o n v).getLE o n = v % 256 ^ n := by
  have h := @getLE_patch_inside b (ofNat v) o n 0 n (by omega)
  rw [Nat.add_zero, getLE_ofNat, pow_zero, Nat.div_one] at h
  exact h

/-- The bytes of a number that was read are those it was read from. -/
theorem ofNat_getLE (h : k < n) : ofNat (b.getLE o n) k = b (o + k) := by
  induction k generalizing o n with
  | zero =>
    obtain ⟨n, rfl⟩ := exists_eq_succ_of_ne_zero (Nat.ne_of_gt h)
    have hbyte : (b o).toNat < 2 ^ 8 := (b o).toNat_lt
    apply UInt8.toNat_inj.1
    rw [Nat.add_zero, ofNat, getLE, pow_zero, Nat.div_one, UInt8.toNat_ofNat']
    omega
  | succ k ih =>
    obtain ⟨n, rfl⟩ := exists_eq_succ_of_ne_zero (Nat.ne_of_gt (zero_lt_of_lt h))
    have hbyte : (b o).toNat < 2 ^ 8 := (b o).toNat_lt
    have hdiv : ((b o).toNat + 256 * b.getLE (o + 1) n) / 256 = b.getLE (o + 1) n := by omega
    rw [show o + (k + 1) = o + 1 + k by omega, ← ih (lt_of_succ_lt_succ h), ofNat, ofNat, getLE,
      pow_succ', ← Nat.div_div_eq_div_mul, hdiv]

theorem getLE_putLE_of_disjoint {m : ℕ} (h : m + k ≤ o ∨ o + n ≤ m) :
    (b.putLE o n v).getLE m k = b.getLE m k := getLE_patch_of_disjoint h

theorem putLE_of_disjoint (h : i < o ∨ o + n ≤ i) : b.putLE o n v i = b i := by
  rcases h with h | h
  · exact patch_of_lt h
  · exact patch_of_le h

-- comparing two numbers byte by byte is slow
attribute [irreducible] getLE

end Bytes

end DripOS
