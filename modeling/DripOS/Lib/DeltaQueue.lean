import Mathlib.Data.List.Perm.Basic

/-!
# Delta queues

A queue in which every value is stored with the time since its predecessor.  `DeltaQueue.deadlines`
gives the times themselves.

* `DeltaQueue.deadlines_insert` : an insertion adds one deadline and keeps the others;
* `DeltaQueue.deadlines_countDown` : counting down the first value is the passage of time;
* `DeltaQueue.deadlines_dropWhile`, `DeltaQueue.takeWhile_map_snd` : the values in front whose time
  is over are those with a deadline that has come.
-/

namespace DripOS

open List

namespace DeltaQueue

variable {α : Type*} {l : List (ℕ × α)} {a : α} {p : ℕ × α} {b t : ℕ}

/-- The values with their deadlines, for a queue that stands at time `b`. -/
def deadlines (b : ℕ) : List (ℕ × α) → List (ℕ × α)
  | [] => []
  | (d, a) :: l => (b + d, a) :: deadlines (b + d) l

/-- Inserts a value with the deadline `t`, before those with the same one. -/
def insert (t : ℕ) (a : α) : List (ℕ × α) → List (ℕ × α)
  | [] => [(t, a)]
  | (d, b) :: l => if t ≤ d then (t, a) :: (d - t, b) :: l else (d, b) :: insert (t - d) a l

/-- One unit of time passes. -/
def countDown : List (ℕ × α) → List (ℕ × α)
  | [] => []
  | (d, a) :: l => (d - 1, a) :: l

/-- The time of the first value is not over. -/
def Positive (l : List (ℕ × α)) : Prop := ∀ p ∈ l.head?, 0 < p.1

theorem map_snd_deadlines (b : ℕ) (l : List (ℕ × α)) :
    (deadlines b l).map Prod.snd = l.map Prod.snd := by
  induction l generalizing b with
  | nil => rfl
  | cons p l ih => simp [deadlines, ih]

theorem deadlines_add (b c : ℕ) (l : List (ℕ × α)) :
    deadlines (b + c) l = (deadlines b l).map fun p => (p.1 + c, p.2) := by
  induction l generalizing b with
  | nil => rfl
  | cons p l ih =>
    have hp : b + c + p.1 = b + p.1 + c := by omega
    simp [deadlines, hp, ih]

theorem le_of_mem_deadlines (h : p ∈ deadlines b l) : b ≤ p.1 := by
  induction l generalizing b with
  | nil => cases h
  | cons q l ih =>
    rcases mem_cons.1 h with rfl | h
    · exact Nat.le_add_right _ _
    · exact Nat.le_trans (Nat.le_add_right _ _) (ih h)

theorem Positive.lt_of_mem_deadlines (hl : Positive l) (h : p ∈ deadlines b l) : b < p.1 := by
  cases l with
  | nil => cases h
  | cons q l =>
    have hq : 0 < q.1 := hl q rfl
    rcases mem_cons.1 h with rfl | h
    · exact Nat.lt_add_of_pos_right hq
    · exact Nat.lt_of_lt_of_le (Nat.lt_add_of_pos_right hq) (le_of_mem_deadlines h)

theorem pairwise_deadlines (b : ℕ) (l : List (ℕ × α)) :
    (deadlines b l).Pairwise fun p q => p.1 ≤ q.1 := by
  induction l generalizing b with
  | nil => exact List.Pairwise.nil
  | cons q l ih => exact pairwise_cons.2 ⟨fun p hp => le_of_mem_deadlines hp, ih _⟩

/-! ### Insertion -/

theorem deadlines_insert (b t : ℕ) (a : α) (l : List (ℕ × α)) :
    (deadlines b (insert t a l)).Perm ((b + t, a) :: deadlines b l) := by
  induction l generalizing b t with
  | nil => exact List.Perm.refl _
  | cons q l ih =>
    obtain ⟨d, c⟩ := q
    unfold insert
    split_ifs with htd
    · -- the successor is reached at the same time as before
      have hd : b + t + (d - t) = b + d := by omega
      simp [deadlines, hd]
    · have ht : b + d + (t - d) = b + t := by omega
      have hperm := ih (b + d) (t - d)
      rw [ht] at hperm
      exact (hperm.cons (b + d, c)).trans (List.Perm.swap _ _ _)

theorem Positive.insert (hl : Positive l) (ht : 0 < t) (a : α) : Positive (insert t a l) := by
  cases l with
  | nil =>
    rintro p ⟨⟩
    exact ht
  | cons q l =>
    unfold DeltaQueue.insert
    split_ifs
    · rintro p ⟨⟩
      exact ht
    · rintro p ⟨⟩
      exact hl q rfl

/-! ### The passage of time -/

theorem deadlines_countDown (hl : Positive l) (b : ℕ) :
    deadlines (b + 1) (countDown l) = deadlines b l := by
  cases l with
  | nil => rfl
  | cons q l =>
    obtain ⟨d, c⟩ := q
    have hd : 0 < d := hl (d, c) rfl
    have hbd : b + 1 + (d - 1) = b + d := by omega
    simp [countDown, deadlines, hbd]

/-- Counting down the first value lowers every deadline. -/
theorem deadlines_countDown_sub (hl : Positive l) (b : ℕ) :
    deadlines b (countDown l) = (deadlines b l).map fun p => (p.1 - 1, p.2) := by
  have hlater := deadlines_add b 1 (countDown l)
  rw [deadlines_countDown hl] at hlater
  simp [hlater, Function.comp_def]

theorem positive_dropWhile (l : List (ℕ × α)) : Positive (l.dropWhile (·.1 = 0)) := by
  intro p hp
  have hne := List.head?_dropWhile_not (fun p : ℕ × α => decide (p.1 = 0)) l
  rw [Option.mem_def.1 hp] at hne
  exact Nat.pos_of_ne_zero (by simpa using hne)

theorem deadlines_dropWhile (b : ℕ) (l : List (ℕ × α)) :
    deadlines b (l.dropWhile (·.1 = 0)) = (deadlines b l).filter (b < ·.1) := by
  induction l with
  | nil => rfl
  | cons q l ih =>
    obtain ⟨d, c⟩ := q
    by_cases hd : d = 0
    · simp [deadlines, hd, ih]
    · rw [dropWhile_cons_of_neg (by simpa using hd)]
      refine (filter_eq_self.2 fun p hp => ?_).symm
      have hpos : Positive ((d, c) :: l) := by
        rintro p ⟨⟩
        exact Nat.pos_of_ne_zero hd
      simpa using hpos.lt_of_mem_deadlines hp

theorem takeWhile_map_snd (b : ℕ) (l : List (ℕ × α)) :
    (l.takeWhile (·.1 = 0)).map Prod.snd = ((deadlines b l).filter (·.1 ≤ b)).map Prod.snd := by
  induction l with
  | nil => rfl
  | cons q l ih =>
    obtain ⟨d, c⟩ := q
    by_cases hd : d = 0
    · simp [deadlines, hd, ih]
    · have hpos : Positive ((d, c) :: l) := by
        rintro p ⟨⟩
        exact Nat.pos_of_ne_zero hd
      have hnil : (deadlines b ((d, c) :: l)).filter (·.1 ≤ b) = [] :=
        filter_eq_nil_iff.2 fun p hp => by simpa using hpos.lt_of_mem_deadlines hp
      rw [hnil, takeWhile_cons_of_neg (by simpa using hd)]

end DeltaQueue

end DripOS
