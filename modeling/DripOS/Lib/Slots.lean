import Mathlib.Data.List.ReduceOption
import Mathlib.Data.List.Perm.Basic

/-!
# Tables of numbered slots

A table of slots that are free (`none`) or taken.  `Slots.alloc` finds the first free slot, and
appends ten free slots when there is none.

* `Slots.get_alloc`, `Slots.alloc_free` : the contents stay, and the slot found is free;
* `Slots.get_set` : what a table contains after one slot was written;
* `Slots.perm_set`, `Slots.perm_set_alloc` : the values of the taken slots as a list.
-/

namespace DripOS

open List Option

/-- A table of slots. -/
abbrev Slots (α : Type*) := List (Option α)

namespace Slots

variable {α : Type*} {t : Slots α} {i j : ℕ} {a : α}

/-- What is in a slot. -/
def get (t : Slots α) (i : ℕ) : Option α := t[i]?.join

/-- The first free slot, and the table that has it. -/
def alloc (t : Slots α) : ℕ × Slots α :=
  match t.findIdx? Option.isNone with
  | some i => (i, t)
  | none => (t.length, t ++ List.replicate 10 none)

theorem get_eq_some : t.get i = some a ↔ t[i]? = some (some a) := by
  unfold get
  rw [join_eq_some_iff]

theorem lt_length (h : t.get i = some a) : i < t.length :=
  (List.getElem?_eq_some_iff.1 (get_eq_some.1 h)).1

theorem get_set (hi : i < t.length) (x : Option α) :
    get (t.set i x) j = if j = i then x else t.get j := by
  unfold get
  rw [List.getElem?_set]
  split_ifs with hij hji hji
  · rfl
  · exact absurd hij.symm hji
  · exact absurd hji.symm hij
  · rfl

theorem get_cases {t' : Slots α} {x y : α} (h : get t' i = if i = j then some x else t.get i)
    (hi : get t' i = some y) : (i = j ∧ y = x) ∨ t.get i = some y := by
  rw [h] at hi
  split_ifs at hi with heq
  · exact Or.inl ⟨heq, (Option.some.inj hi).symm⟩
  · exact Or.inr hi

/-- Emptying a slot, which may be beyond the table. -/
theorem get_set_none : get (t.set i none) j = if j = i then none else t.get j := by
  rcases Nat.lt_or_ge i t.length with hi | hi
  · exact get_set hi none
  · rw [set_eq_of_length_le hi]
    split_ifs with hji
    · rw [hji, get, List.getElem?_eq_none hi]
      rfl
    · rfl

theorem get_append_replicate (n : ℕ) : get (t ++ List.replicate n none) i = t.get i := by
  unfold get
  rcases Nat.lt_or_ge i t.length with hi | hi
  · rw [List.getElem?_append_left hi]
  · rw [List.getElem?_append_right hi, List.getElem?_eq_none hi, List.getElem?_replicate]
    split_ifs <;> rfl

@[simp] theorem get_alloc (t : Slots α) (i : ℕ) : t.alloc.2.get i = t.get i := by
  unfold alloc
  split
  · rfl
  · exact get_append_replicate 10

/-- The slot that is found is one of the table, and free. -/
theorem alloc_free (t : Slots α) :
    t.alloc.1 < t.alloc.2.length ∧ t.alloc.2[t.alloc.1]? = some none := by
  unfold alloc
  split
  · rename_i i hi
    obtain ⟨hlt, hnone, -⟩ := List.findIdx?_eq_some_iff_getElem.1 hi
    refine ⟨hlt, ?_⟩
    rw [List.getElem?_eq_getElem hlt, isNone_iff_eq_none.1 hnone]
  · refine ⟨by simp, ?_⟩
    rw [List.getElem?_append_right (Nat.le_refl _), Nat.sub_self]
    rfl

theorem get_alloc_free (t : Slots α) : t.get t.alloc.1 = none := by
  rw [← get_alloc, get, (alloc_free t).2]
  rfl

/-- What is in the table after a value was put into the first free slot. -/
theorem get_set_alloc (t : Slots α) (x : Option α) :
    get (t.alloc.2.set t.alloc.1 x) j = if j = t.alloc.1 then x else t.get j := by
  rw [get_set (alloc_free t).1, get_alloc]

/-- When the first `m` slots are taken and the next one is not, that one is found. -/
theorem alloc_eq {m : ℕ} (htaken : ∀ k < m, (t.get k).isSome) (hfree : t.get m = none)
    (hm : m ≤ t.length) :
    t.alloc.1 = m ∧ t.alloc.2.length = if m < t.length then t.length else t.length + 10 := by
  have hsome : ∀ i, t.findIdx? Option.isNone = some i → i = m := fun i hi => by
    obtain ⟨hlt, hnone, hbefore⟩ := List.findIdx?_eq_some_iff_getElem.1 hi
    rcases Nat.lt_trichotomy i m with him | him | him
    · have := htaken i him
      rw [get, List.getElem?_eq_getElem hlt, isNone_iff_eq_none.1 hnone] at this
      cases this
    · exact him
    · have hmlt : m < t.length := Nat.lt_trans him hlt
      have := hbefore m him
      rw [get, List.getElem?_eq_getElem hmlt] at hfree
      exact absurd (isNone_iff_eq_none.2 hfree) this
  unfold alloc
  split
  · rename_i i hi
    obtain rfl := hsome i hi
    obtain ⟨hlt, -⟩ := List.findIdx?_eq_some_iff_getElem.1 hi
    exact ⟨rfl, (if_pos hlt).symm⟩
  · rename_i hnone
    have hlen : ¬ m < t.length := fun hlt => by
      have := List.findIdx?_eq_none_iff.1 hnone _ (getElem_mem hlt)
      rw [get, List.getElem?_eq_getElem hlt] at hfree
      rw [show t[m] = none from hfree] at this
      cases this
    refine ⟨Nat.le_antisymm (Nat.le_of_not_lt hlen) hm, ?_⟩
    rw [if_neg hlen]
    simp

/-! ### The values of the taken slots -/

theorem mem_reduceOption : a ∈ t.reduceOption ↔ ∃ i, t.get i = some a := by
  rw [reduceOption_mem_iff, mem_iff_getElem?]
  simp only [get_eq_some]

/-- Writing a slot replaces its value in the list of values. -/
theorem perm_set (h : i < t.length) (x : Option α) :
    ((t.get i).toList ++ (t.set i x).reduceOption).Perm (x.toList ++ t.reduceOption) := by
  have hcons : ∀ (y : Option α) (t : Slots α),
      List.reduceOption (y :: t) = y.toList ++ t.reduceOption := fun y t => by
    cases y <;> rfl
  have hswap : ∀ l1 l2 l3 : List α, (l1 ++ (l2 ++ l3)).Perm (l2 ++ (l1 ++ l3)) :=
    fun l1 l2 l3 => by
      rw [← append_assoc, ← append_assoc]
      exact perm_append_comm.append_right _
  induction t generalizing i with
  | nil => cases h
  | cons y t ih =>
    cases i with
    | zero =>
      show (y.toList ++ List.reduceOption (x :: t)).Perm _
      rw [hcons, hcons]
      exact hswap _ _ _
    | succ i =>
      show ((get t i).toList ++ List.reduceOption (y :: t.set i x)).Perm _
      rw [hcons, hcons]
      exact (hswap _ _ _).trans
        (((ih (Nat.lt_of_succ_lt_succ h)).append_left _).trans (hswap _ _ _))

/-- Putting a value into the first free slot adds it to the values. -/
theorem perm_set_alloc (t : Slots α) (a : α) :
    (t.alloc.2.set t.alloc.1 (some a)).reduceOption.Perm (a :: t.reduceOption) := by
  have hval : t.alloc.2.reduceOption = t.reduceOption := by
    unfold alloc
    split
    · rfl
    · rw [reduceOption_append, reduceOption_replicate_none, append_nil]
  have hperm := perm_set (alloc_free t).1 (some a)
  rwa [get_alloc, get_alloc_free, hval] at hperm

end Slots

end DripOS
