import DripOS.Klibc.Strings
import Mathlib.Data.Nat.Digits.Lemmas

/-!
# Numbers as strings

`utoa`, `itoa` and `atou` of `src/klibc/string.c`.  The digits are stored from the lowest
one on, and the string is turned around.  `itoa` takes the absolute value of its argument, which the
least number does not have.

* `Str.itoa_decimal_iff` : **`itoa` writes the number** in at most 21 bytes, the least one apart;
* `Str.atou_utoa` : `atou` reads what `utoa` writes.
-/

namespace DripOS

open List Nat

namespace Str

open CheckedBuffer

variable {ε : Type}

/-- The characters that the loops of `utoa` and `itoa` store. -/
def lowDigits (n : ℕ) : List UInt8 :=
  if 0 < n then UInt8.ofNat (n % 10 + 48) :: lowDigits (n / 10) else []
termination_by n

/-- The same, with the character that they store for zero. -/
def numChars (n : ℕ) : List UInt8 := (if n = 0 then [48] else []) ++ lowDigits n

/-- `utoa`. -/
def utoa (fault : ε) (n : BitVec 64) (str : CheckedBuffer) : Except ε CheckedBuffer :=
  storeAll fault (numChars n.toNat ++ [0]) str 0 >>= reverse fault

/-- `abs`. -/
def abs (n : BitVec 64) : BitVec 64 := if n.toInt < 0 then -n else n

/-- The characters that `itoa` stores before it turns them around. -/
def itoaChars (n : BitVec 64) : List UInt8 :=
  numChars (abs n).toNat ++ if abs n ≠ n then [45] else []

/-- `itoa`. -/
def itoa (fault : ε) (n : BitVec 64) (str : CheckedBuffer) : Except ε CheckedBuffer :=
  storeAll fault (itoaChars n ++ [0]) str 0 >>= reverse fault

/-- The step of `atou` for a character, which is signed. -/
def atouStep (result : ℤ) (c : UInt8) : ℤ := (result * 10 + (c.toInt8.toInt - 48)) % 2 ^ 64

/-- `atou`. -/
def atou (fault : ε) (str : CheckedBuffer) : Except ε ℤ :=
  (str.strlen fault).map fun len => (str.bytes.toList len).foldl atouStep 0

/-! ### Decimal numbers -/

/-- The character of a digit. -/
def digitChar (d : ℕ) : UInt8 := UInt8.ofNat (d + 48)

/-- A number in decimal, without leading zeros. -/
def decimal (n : ℕ) : List UInt8 :=
  if n = 0 then [48] else ((Nat.digits 10 n).map digitChar).reverse

/-- A number with its sign. -/
def intDecimal (z : ℤ) : List UInt8 := (if z < 0 then [45] else []) ++ decimal z.natAbs

theorem lowDigits_eq (n : ℕ) : lowDigits n = (Nat.digits 10 n).map digitChar := by
  induction n using Nat.strong_induction_on with
  | _ n ih =>
    rw [lowDigits]
    split_ifs with hn
    · rw [digits_def' (by decide) hn, map_cons, ih _ (div_lt_self hn (by decide))]
      rfl
    · rw [Nat.eq_zero_of_not_pos hn, digits_zero, map_nil]

theorem numChars_reverse (n : ℕ) : (numChars n).reverse = decimal n := by
  rw [numChars, decimal, lowDigits_eq]
  split_ifs with hn
  · rw [hn]
    rfl
  · rfl

theorem mem_numChars {n : ℕ} {c : UInt8} (hc : c ∈ numChars n) : ∃ d < 10, c = digitChar d := by
  rw [numChars, mem_append, lowDigits_eq] at hc
  rcases hc with hc | hc
  · split_ifs at hc
    · exact ⟨0, by decide, mem_singleton.1 hc⟩
    · simp at hc
  · obtain ⟨d, hd, rfl⟩ := mem_map.1 hc
    exact ⟨d, digits_lt_base (by decide) hd, rfl⟩

theorem length_numChars {n k : ℕ} (hk : 1 ≤ k) (h : n < 10 ^ k) : (numChars n).length ≤ k := by
  rw [numChars, lowDigits_eq, length_append, length_map]
  split_ifs with hn
  · simpa [hn] using hk
  · simpa using (digits_length_le_iff (by decide) n).2 h

theorem digitChar_ne_zero {d : ℕ} (h : d < 10) : digitChar d ≠ 0 := by
  revert d
  decide

variable {fault : ε} {str : CheckedBuffer}

/-- Storing a string and turning it around. -/
theorem storeAll_reverse {chars : List UInt8} (hlen : chars.length < str.size)
    (hroom : str.size ≤ str.room) (hzero : 0 ∉ chars) :
    ∃ str', (storeAll fault (chars ++ [0]) str 0 >>= reverse fault) = .ok str' ∧
      str'.HasString chars.reverse ∧ str'.outside = str.outside := by
  obtain ⟨b, hb⟩ : ∃ b, storeAll fault (chars ++ [0]) str 0 = .ok b :=
    storeAll_returns (by simp; omega)
  obtain ⟨hsize, hroom', hinside, -, houtside⟩ := storeAll_ok hb
  simp only [length_append, length_singleton, Nat.zero_add] at hinside houtside
  have hstring : b.HasString chars := by
    refine ⟨fun k hk => ?_, ?_, by omega⟩
    · rw [hinside k (by omega), getD_append _ _ _ _ hk]
    · rw [hinside _ (lt_succ_self _), getD_append_right _ _ _ _ le_rfl, Nat.sub_self]
      rfl
  obtain ⟨bytes, hreverse, hstring'⟩ := reverse_spec hstring hzero (by omega)
  refine ⟨_, by rw [hb, ok_bind, hreverse], hstring', ?_⟩
  rw [houtside, filter_eq_nil_iff.2, append_nil]
  intro i hi
  have := (mem_range'_1.1 hi).2
  simp only [decide_eq_true_eq]
  omega

theorem zero_notMem_numChars (n : ℕ) : 0 ∉ numChars n := by
  intro h
  obtain ⟨d, hd, h0⟩ := mem_numChars h
  exact digitChar_ne_zero hd h0.symm

theorem utoa_spec (n : BitVec 64) (hsize : 21 ≤ str.size) (hroom : str.size ≤ str.room) :
    ∃ str', utoa fault n str = .ok str' ∧ str'.HasString (decimal n.toNat) ∧
      str'.outside = str.outside := by
  have hlen := length_numChars (k := 20) (by decide) (n.isLt.trans (by decide))
  rw [← numChars_reverse]
  exact storeAll_reverse (by omega) hroom (zero_notMem_numChars _)

/-- The string that `itoa` leaves in its buffer. -/
def itoaText (n : BitVec 64) : List UInt8 := (itoaChars n).reverse

theorem abs_toNat (n : BitVec 64) : (abs n).toNat = n.toInt.natAbs := by
  rw [abs, apply_ite BitVec.toNat, BitVec.toNat_neg, BitVec.toInt_eq_toNat_cond]
  split_ifs <;> omega

/-- The least number has no absolute value. -/
theorem abs_ne_self_iff (n : BitVec 64) : abs n ≠ n ↔ n.toInt < 0 ∧ n ≠ BitVec.intMin 64 := by
  have hmin : (BitVec.intMin 64).toNat = 2 ^ 63 := by decide
  have habs := abs_toNat n
  rw [BitVec.toInt_eq_toNat_cond] at *
  rw [Ne, Ne, ← BitVec.toNat_inj, ← BitVec.toNat_inj, hmin, habs]
  split_ifs <;> omega

theorem itoaText_eq (n : BitVec 64) :
    itoaText n = (if abs n ≠ n then [45] else []) ++ decimal n.toInt.natAbs := by
  rw [itoaText, itoaChars, reverse_append, numChars_reverse, abs_toNat]
  split_ifs <;> rfl

theorem itoaText_eq_iff (n : BitVec 64) :
    itoaText n = intDecimal n.toInt ↔ n ≠ BitVec.intMin 64 := by
  rw [itoaText_eq, intDecimal, append_left_inj, if_congr (abs_ne_self_iff n) rfl rfl]
  by_cases hneg : n.toInt < 0
  · simp only [hneg]
    by_cases hmin : n = BitVec.intMin 64 <;> simp [hmin]
  · simp only [hneg, false_and, true_iff]
    rintro rfl
    exact hneg (by decide)

theorem itoaChars_length (n : BitVec 64) : (itoaChars n).length ≤ 20 := by
  have hlen : (numChars (abs n).toNat).length ≤ 19 := by
    refine length_numChars (by decide) ?_
    have hlo := n.le_toInt
    have hhi := n.toInt_lt
    rw [abs_toNat]
    omega
  rw [itoaChars, length_append]
  split_ifs <;> simp <;> omega

theorem zero_notMem_itoaChars (n : BitVec 64) : 0 ∉ itoaChars n := by
  rw [itoaChars, mem_append, not_or]
  refine ⟨zero_notMem_numChars _, ?_⟩
  split_ifs <;> decide

theorem itoa_spec (n : BitVec 64) (hsize : 21 ≤ str.size) (hroom : str.size ≤ str.room) :
    ∃ str', itoa fault n str = .ok str' ∧ str'.HasString (itoaText n) ∧
      str'.outside = str.outside := by
  have hlen := itoaChars_length n
  exact storeAll_reverse (by omega) hroom (zero_notMem_itoaChars n)

theorem zero_notMem_decimal (n : ℕ) : 0 ∉ decimal n := by
  rw [← numChars_reverse, mem_reverse]
  exact zero_notMem_numChars n

theorem zero_notMem_intDecimal (z : ℤ) : 0 ∉ intDecimal z := by
  rw [intDecimal, mem_append, not_or]
  refine ⟨?_, zero_notMem_decimal _⟩
  split_ifs <;> decide

/-- **`itoa` writes its argument in decimal into the first 21 bytes**, for every number but the
least one. -/
theorem itoa_decimal_iff (fault : ε) (n : BitVec 64) (hsize : 21 ≤ str.size)
    (hroom : str.size ≤ str.room) :
    ∃ str', itoa fault n str = .ok str' ∧ str'.HasString (itoaText n) ∧
      str'.outside = str.outside ∧
      (str'.HasString (intDecimal n.toInt) ↔ n ≠ BitVec.intMin 64) := by
  obtain ⟨str', h, hstring, hout⟩ := itoa_spec n hsize hroom
  refine ⟨str', h, hstring, hout, ?_⟩
  rw [← itoaText_eq_iff]
  have hzero : 0 ∉ itoaText n := by
    rw [itoaText, mem_reverse]
    exact zero_notMem_itoaChars n
  exact ⟨fun hdec => hstring.unique hdec hzero (zero_notMem_intDecimal _), fun h => h ▸ hstring⟩

/-- A buffer of 21 bytes is enough for -42. -/
theorem itoa_decimal_small :
    ∃ str', itoa () (-42) ⟨fun _ => 1, 21, 21, []⟩ = .ok str' ∧
      str'.HasString (itoaText (-42)) ∧ str'.outside = [] ∧
      (str'.HasString (intDecimal (BitVec.toInt (-42 : BitVec 64))) ↔
        (-42 : BitVec 64) ≠ BitVec.intMin 64) :=
  itoa_decimal_iff () (-42) le_rfl le_rfl

/-- The least number is written without its sign. -/
theorem itoa_intMin :
    ∃ str', itoa () (BitVec.intMin 64) ⟨fun _ => 1, 21, 21, []⟩ = .ok str' ∧
      str'.HasString (decimal (2 ^ 63)) ∧
      intDecimal (BitVec.intMin 64).toInt = 45 :: decimal (2 ^ 63) := by
  obtain ⟨str', h, hstring, -⟩ := @itoa_spec Unit () ⟨fun _ => 1, 21, 21, []⟩ (BitVec.intMin 64)
    le_rfl le_rfl
  refine ⟨str', h, ?_, rfl⟩
  rw [itoaText_eq, if_neg (by decide)] at hstring
  exact hstring

/-! ### Reading a number -/

theorem foldl_atouStep (ds : List ℕ) (hds : ∀ d ∈ ds, d < 10) :
    (ds.map digitChar).reverse.foldl atouStep 0 = (Nat.ofDigits 10 ds : ℕ) % 2 ^ 64 := by
  induction ds with
  | nil => rfl
  | cons d ds ih =>
    have hd := hds d (by simp)
    have hval : (digitChar d).toInt8.toInt = d + 48 := by
      clear hds ih
      revert d
      decide
    rw [map_cons, reverse_cons, foldl_append, ih fun d h => hds d (by simp [h]),
      foldl_cons, foldl_nil, atouStep, hval, ofDigits_cons]
    omega

theorem foldl_atouStep_decimal (n : ℕ) : (decimal n).foldl atouStep 0 = n % 2 ^ 64 := by
  rw [decimal]
  split_ifs with hn
  · rw [hn]
    rfl
  · rw [foldl_atouStep _ fun d hd => digits_lt_base (by decide) hd, ofDigits_digits]

/-- `atou` reads what `utoa` has written. -/
theorem atou_utoa (fault : ε) (v : BitVec 64) (hsize : 21 ≤ str.size)
    (hroom : str.size ≤ str.room) :
    ∃ str', utoa fault v str = .ok str' ∧ str'.outside = str.outside ∧
      atou fault str' = .ok v.toNat := by
  obtain ⟨str', h, hstring, hout⟩ := utoa_spec v hsize hroom
  refine ⟨str', h, hout, ?_⟩
  rw [atou, hstring.strlen (zero_notMem_decimal _), Except.map, hstring.toList,
    foldl_atouStep_decimal, Int.emod_eq_of_lt (Int.natCast_nonneg _) (by exact_mod_cast v.isLt)]

theorem atou_utoa_small : ∃ str', utoa () 42 ⟨fun _ => 1, 21, 21, []⟩ = .ok str' ∧
    str'.outside = [] ∧ atou () str' = .ok (BitVec.toNat (42 : BitVec 64)) :=
  atou_utoa () 42 le_rfl le_rfl

end Str

end DripOS
