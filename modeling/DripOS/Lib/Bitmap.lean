import Mathlib.Algebra.GroupWithZero.Nat
import Mathlib.Order.Interval.Finset.Nat

/-!
# Byte-packed bitmaps

A bitmap is a sequence of bytes; bit `p` is in byte `p / 8` at position `p % 8`.  The lemmas give
the effect of an update on every bit:

* `testBit_setBit`, `testBit_clearBit` : one bit;
* `testBit_setBits`, `testBit_clearBits` : a run of consecutive bits;
* `ext` : a bitmap is determined by its bits;
* `count_setBits`, `count_clearBits` : the number of set bits below a bound;
* `card_cover_eq_sum_iff` : the sizes of regions add up to the number of bits that they cover
  exactly when no bit is counted twice.
-/

namespace DripOS

open Finset BitVec Nat

/-- A bitmap: byte `k` holds the bits `8 * k … 8 * k + 7`. -/
abbrev Bitmap := ℕ → BitVec 8

namespace Bitmap

variable (b : Bitmap)

/-- Replace one byte. -/
def setByte (k : ℕ) (v : BitVec 8) : Bitmap := fun j => if j = k then v else b j

/-- Bit `p`. -/
def testBit (p : ℕ) : Bool := (b (p / 8) &&& (1#8 <<< (p % 8))) != 0#8

/-- Set bit `p`. -/
def setBit (p : ℕ) : Bitmap := b.setByte (p / 8) (b (p / 8) ||| (1#8 <<< (p % 8)))

/-- Clear bit `p`. -/
def clearBit (p : ℕ) : Bitmap := b.setByte (p / 8) (b (p / 8) &&& ~~~(1#8 <<< (p % 8)))

/-- Set the `n` bits from `p` on. -/
def setBits (p : ℕ) : ℕ → Bitmap
  | 0 => b
  | n + 1 => (setBits p n).setBit (p + n)

/-- Clear the `n` bits from `p` on. -/
def clearBits (p : ℕ) : ℕ → Bitmap
  | 0 => b
  | n + 1 => (clearBits p n).clearBit (p + n)

/-- Number of set bits below `m`. -/
def count (m : ℕ) : ℕ := ((Finset.range m).filter fun p => b.testBit p = true).card

/-- Number of clear bits below `m`. -/
def zeros (m : ℕ) : ℕ := ((Finset.range m).filter fun p => b.testBit p = false).card

variable {b}

theorem testBit_eq (p : ℕ) : b.testBit p = (b (p / 8)).getLsbD (p % 8) := by
  have hp : p % 8 < 8 := mod_lt _ (by decide)
  rw [testBit, ← twoPow_eq, and_twoPow]
  cases h : (b (p / 8)).getLsbD (p % 8)
  · simp
  · have hne : BitVec.twoPow 8 (p % 8) ≠ 0#8 := by
      intro h0
      have := congrArg (fun x => x.getLsbD (p % 8)) h0
      simp [hp] at this
    simpa using hne

theorem ext {b b' : Bitmap} (h : ∀ p, b.testBit p = b'.testBit p) : b = b' := by
  funext k
  apply eq_of_getLsbD_eq
  intro i hi
  have := h (8 * k + i)
  rw [testBit_eq, testBit_eq] at this
  rwa [show (8 * k + i) / 8 = k by omega, show (8 * k + i) % 8 = i by omega] at this

theorem eq_of_div_mod {p q : ℕ} (hd : q / 8 = p / 8) : p % 8 = q % 8 ↔ q = p := by
  constructor
  · intro hm; omega
  · rintro rfl; rfl

theorem testBit_setBit (p q : ℕ) : (b.setBit p).testBit q = (decide (q = p) || b.testBit q) := by
  have hp : p % 8 < 8 := mod_lt _ (by decide)
  rw [testBit_eq, testBit_eq, setBit, setByte]
  by_cases hd : q / 8 = p / 8
  · rw [if_pos hd, getLsbD_or, ← twoPow_eq, getLsbD_twoPow, hd]
    simp only [hp, decide_true, Bool.true_and, eq_of_div_mod hd]
    rw [Bool.or_comm]
  · have hne : q ≠ p := by rintro rfl; exact hd rfl
    simp [hd, hne]

theorem testBit_clearBit (p q : ℕ) :
    (b.clearBit p).testBit q = (!decide (q = p) && b.testBit q) := by
  have hp : p % 8 < 8 := mod_lt _ (by decide)
  have hq : q % 8 < 8 := mod_lt _ (by decide)
  rw [testBit_eq, testBit_eq, clearBit, setByte]
  by_cases hd : q / 8 = p / 8
  · rw [if_pos hd, getLsbD_and, getLsbD_not, ← twoPow_eq, getLsbD_twoPow, hd]
    simp only [hp, hq, decide_true, Bool.true_and, eq_of_div_mod hd]
    rw [Bool.and_comm]
  · have hne : q ≠ p := by rintro rfl; exact hd rfl
    simp [hd, hne]

theorem testBit_setBits (p n q : ℕ) :
    (b.setBits p n).testBit q = (decide (p ≤ q ∧ q < p + n) || b.testBit q) := by
  induction n with
  | zero =>
    rw [setBits, decide_eq_false (by omega), Bool.false_or]
  | succ n ih =>
    rw [setBits, testBit_setBit, ih, ← Bool.or_assoc, ← Bool.decide_or]
    congr 2
    apply propext
    omega

theorem testBit_clearBits (p n q : ℕ) :
    (b.clearBits p n).testBit q = (!decide (p ≤ q ∧ q < p + n) && b.testBit q) := by
  induction n with
  | zero =>
    rw [clearBits, decide_eq_false (by omega), Bool.not_false, Bool.true_and]
  | succ n ih =>
    rw [clearBits, testBit_clearBit, ih, ← Bool.and_assoc, ← Bool.not_or, ← Bool.decide_or]
    congr 3
    apply propext
    omega

/-! ### Counting -/

theorem count_congr {b b' : Bitmap} {m : ℕ} (h : ∀ p < m, b.testBit p = b'.testBit p) :
    b.count m = b'.count m := by
  unfold count
  congr 1
  apply filter_congr
  intro p hp
  rw [h p (mem_range.1 hp)]

theorem count_add_zeros (m : ℕ) : b.count m + b.zeros m = m := by
  have h := card_filter_add_card_filter_not (s := Finset.range m)
    (fun p => b.testBit p = true)
  simpa [count, zeros] using h

/-- Setting a run of `n` clear bits below `m` adds `n` to the count. -/
theorem count_setBits {m p n : ℕ} (hm : p + n ≤ m)
    (hfree : ∀ q, p ≤ q → q < p + n → b.testBit q = false) :
    (b.setBits p n).count m = b.count m + n := by
  unfold count
  have hsplit : (Finset.range m).filter (fun q => (b.setBits p n).testBit q = true) =
      (Finset.range m).filter (fun q => b.testBit q = true) ∪ Finset.Ico p (p + n) := by
    ext q
    simp only [mem_filter, mem_range, mem_union, mem_Ico,
      testBit_setBits, Bool.or_eq_true, decide_eq_true_eq]
    constructor
    · rintro ⟨hq, h | h⟩
      · exact Or.inr h
      · exact Or.inl ⟨hq, h⟩
    · rintro (⟨hq, h⟩ | h)
      · exact ⟨hq, Or.inr h⟩
      · exact ⟨by omega, Or.inl h⟩
  rw [hsplit, card_union_of_disjoint, card_Ico]
  · omega
  · rw [disjoint_left]
    intro q hq hI
    rw [mem_filter] at hq
    rw [mem_Ico] at hI
    rw [hfree q hI.1 hI.2] at hq
    exact Bool.false_ne_true hq.2

/-- Clearing a run of `n` set bits below `m` takes `n` from the count. -/
theorem count_clearBits {m p n : ℕ} (hm : p + n ≤ m)
    (hused : ∀ q, p ≤ q → q < p + n → b.testBit q = true) :
    (b.clearBits p n).count m + n = b.count m := by
  have hfree : ∀ q, p ≤ q → q < p + n → (b.clearBits p n).testBit q = false := by
    intro q h1 h2
    simp [testBit_clearBits, h1, h2]
  rw [← count_setBits hm hfree]
  apply count_congr
  intro q _
  rw [testBit_setBits, testBit_clearBits]
  by_cases hI : p ≤ q ∧ q < p + n
  · simp [hI, hused q hI.1 hI.2]
  · simp [hI]

/-! ### Lists of regions -/

section Cover

variable {α : Type*} [DecidableEq α] {A : Finset α} {l : List (Finset α)} {a : α}

/-- The members of the regions of a list. -/
def cover (l : List (Finset α)) : Finset α := l.foldr (· ∪ ·) ∅

@[simp] theorem cover_cons : cover (A :: l) = A ∪ cover l := rfl

theorem mem_cover : a ∈ cover l ↔ ∃ A ∈ l, a ∈ A := by
  induction l with
  | nil => simp [cover]
  | cons A l ih => simp [ih]

variable (P : α → Prop) [DecidablePred P]

theorem card_cover_le : ((cover l).filter P).card ≤ (l.map Finset.card).sum := by
  induction l with
  | nil => simp [cover]
  | cons A l ih =>
    rw [cover_cons, filter_union, List.map_cons, List.sum_cons]
    have hunion := card_union_le (A.filter P) ((cover l).filter P)
    have hA := card_filter_le A P
    omega

/-- The sizes of the regions add up to the number of members that satisfy `P` exactly when they are
disjoint and all their members satisfy `P`. -/
theorem card_cover_eq_sum_iff : ((cover l).filter P).card = (l.map Finset.card).sum ↔
    l.Pairwise Disjoint ∧ ∀ A ∈ l, ∀ a ∈ A, P a := by
  induction l with
  | nil => simp [cover]
  | cons A l ih =>
    have hle := @card_cover_le _ _ l P _
    have hA := card_filter_le A P
    have hinter := card_union_add_card_inter (A.filter P) ((cover l).filter P)
    rw [cover_cons, filter_union, List.map_cons, List.sum_cons, List.pairwise_cons]
    simp only [List.forall_mem_cons]
    constructor
    · intro h
      -- nothing may get lost: neither in `A`, nor in the rest, nor in what they share
      have hP : ∀ a ∈ A, P a := card_filter_eq_iff.1 (by omega)
      obtain ⟨hdisjoint, hrest⟩ := ih.1 (by omega)
      have hempty : A.filter P ∩ (cover l).filter P = ∅ := card_eq_zero.1 (by omega)
      refine ⟨⟨fun B hB => disjoint_left.2 fun a haA haB => ?_, hdisjoint⟩, hP, hrest⟩
      have ha : a ∈ A.filter P ∩ (cover l).filter P := by
        simp only [mem_inter, mem_filter, mem_cover]
        exact ⟨⟨haA, hP a haA⟩, ⟨B, hB, haB⟩, hP a haA⟩
      rw [hempty] at ha
      exact notMem_empty a ha
    · rintro ⟨⟨hdisjoint, hpairwise⟩, hP, hrest⟩
      have hcard : (A.filter P).card = A.card := card_filter_eq_iff.2 hP
      have hl := ih.2 ⟨hpairwise, hrest⟩
      have hempty : A.filter P ∩ (cover l).filter P = ∅ := by
        rw [← disjoint_iff_inter_eq_empty, disjoint_left]
        intro a ha hacover
        obtain ⟨B, hB, haB⟩ := mem_cover.1 (mem_filter.1 hacover).1
        exact disjoint_left.1 (hdisjoint B hB) (mem_filter.1 ha).1 haB
      rw [hempty, card_empty] at hinter
      omega

end Cover

end Bitmap

end DripOS
