import Mathlib.Data.List.Rotate

/-!
# Cyclic search

The numbers below `n` are searched for a good candidate, in cyclic order, beginning after `c`.  The
search has come around when it meets its first candidate again.

* `CyclicSearch.order_of_eq_append` : the order after one of its elements is a rotation;
* `CyclicSearch.search_eq` : **the search ends, and finds the first good candidate** in the order,
  if there is one;
* `CyclicSearch.mem_examined` : it looks at a candidate if no good one comes before it.
-/

namespace DripOS

open List Option

namespace CyclicSearch

variable {n c e : ℕ} {l1 l2 : List ℕ}

/-- The numbers below `n`, beginning after `c`. -/
def order (n c : ℕ) : List ℕ := (List.range n).rotate (c + 1)

@[simp] theorem length_order : (order n c).length = n := by simp [order]

@[simp] theorem mem_order : e ∈ order n c ↔ e < n := by simp [order]

theorem nodup_order : (order n c).Nodup := nodup_rotate.2 nodup_range

/-- The order as two loops run through it. -/
theorem order_eq (h : c < n) :
    order n c = List.range' (c + 1) (n - (c + 1)) ++ List.range (c + 1) := by
  have hle : c + 1 ≤ (List.range n).length := by rwa [length_range]
  rw [order, rotate_eq_drop_append_take hle, take_range, Nat.min_eq_left (by omega),
    range_eq_range', drop_range']
  simp

/-- The order after one of its elements begins with what comes after it. -/
theorem order_of_eq_append (h : order n c = l1 ++ e :: l2) : order n e = l2 ++ (l1 ++ [e]) := by
  have hlen : l1.length < n := by
    have hlen := congrArg List.length h
    simp only [length_order, length_append, length_cons] at hlen
    omega
  -- the element is the one at the place after `l1`
  have he : e = (l1.length + (c + 1)) % n := by
    have hget : (order n c)[l1.length]? = some e := by
      rw [h]
      simp
    rw [order, List.getElem?_rotate (by simpa using hlen), length_range,
      List.getElem?_range (Nat.mod_lt _ (by omega))] at hget
    exact (Option.some.inj hget).symm
  calc
    order n e = (List.range n).rotate ((l1.length + (c + 1)) % n + 1) := by rw [order, he]
    _ = ((List.range n).rotate ((l1.length + (c + 1)) % n)).rotate 1 := (rotate_rotate _ _ _).symm
    _ = ((List.range n).rotate (l1.length + (c + 1))).rotate 1 := by
      have hmod := rotate_mod (List.range n) (l1.length + (c + 1))
      rw [length_range] at hmod
      rw [hmod]
    _ = (order n c).rotate (l1 ++ [e]).length := by
      rw [order, rotate_rotate, rotate_rotate]
      congr 1
      simp only [length_append, length_singleton]
      omega
    _ = l2 ++ (l1 ++ [e]) := by
      rw [h, append_cons]
      exact rotate_append_length_eq _ _

/-! ### The search -/

variable (n) (candidate good : ℕ → Bool)

/-- The search goes on after `cur`; `first` is its first candidate, and `seen` are those so far. -/
def search : (fuel cur : ℕ) → (first : Option ℕ) → (seen : List ℕ) → Option (Option ℕ × List ℕ)
  | 0, _, _, _ => none
  | fuel + 1, cur, first, seen =>
    match (order n cur).find? candidate with
    | none => some (none, seen)
    | some t =>
      if first = some t then some (none, seen)
      else if good t then some (some t, seen ++ [t])
      else search fuel t (some (first.getD t)) (seen ++ [t])

variable {n candidate good} {fuel cur : ℕ} {pre rest : List ℕ}

theorem find?_and_eq_none {l : List ℕ} (h : l.find? candidate = none) :
    l.find? (fun t => candidate t && good t) = none := by
  refine List.find?_eq_none.2 fun t ht hgood => ?_
  exact List.find?_eq_none.1 h t ht (Bool.and_eq_true_iff.1 hgood).1

section Examined

variable (candidate good)

/-- The candidates up to the first good one. -/
def examined : List ℕ → List ℕ
  | [] => []
  | t :: l => if candidate t then if good t then [t] else t :: examined l else examined l

theorem examined_prefix (l : List ℕ) : examined candidate good l <+: l.filter candidate := by
  induction l with
  | nil => exact prefix_rfl
  | cons t l ih =>
    by_cases ht : candidate t = true
    · by_cases hgood : good t = true
      · simp [examined, ht, hgood]
      · simpa [examined, ht, hgood] using ih
    · simpa [examined, ht] using ih

/-- The last one is the good one. -/
theorem filter_examined (l : List ℕ) : (examined candidate good l).filter good =
    (l.find? fun t => candidate t && good t).toList := by
  induction l with
  | nil => rfl
  | cons t l ih =>
    by_cases ht : candidate t = true
    · by_cases hgood : good t = true
      · simp [examined, ht, hgood]
      · simpa [examined, ht, hgood] using ih
    · simpa [examined, ht] using ih

variable {candidate good}

/-- Which candidates are examined. -/
theorem mem_examined {l : List ℕ} (hl : (l1 ++ e :: l).Nodup) (he : candidate e = true) :
    e ∈ examined candidate good (l1 ++ e :: l) ↔ ∀ t ∈ l1, (candidate t && good t) = false := by
  induction l1 with
  | nil => by_cases hgood : good e = true <;> simp [examined, he, hgood]
  | cons t l1 ih =>
    obtain ⟨hnot, hl⟩ := nodup_cons.1 hl
    have hne : e ≠ t := fun heq => hnot (by simp [heq])
    by_cases ht : candidate t = true
    · by_cases hgood : good t = true
      · simp [examined, ht, hgood, hne]
      · simpa [examined, ht, hgood, hne] using ih hl
    · simpa [examined, ht] using ih hl

theorem examined_append {l l' : List ℕ} (h : l.find? (fun t => candidate t && good t) = none) :
    examined candidate good (l ++ l') = l.filter candidate ++ examined candidate good l' := by
  induction l with
  | nil => rfl
  | cons t l ih =>
    have hall := List.find?_eq_none.1 h
    have hgood := hall t mem_cons_self
    have ih := ih (List.find?_eq_none.2 fun a ha => hall a (mem_cons_of_mem t ha))
    by_cases ht : candidate t = true
    · have hgood : good t = false := by simpa [ht] using hgood
      simp [examined, ht, hgood, ih]
    · simp [examined, ht, ih]

end Examined

/-- The search has refused the candidates of `pre`, and `rest` comes next. -/
theorem search_of_eq_append (h : order n c = pre ++ rest) (hcur : order n cur = rest ++ pre)
    (hrefused : pre.find? (fun t => candidate t && good t) = none) (hfuel : rest.length < fuel) :
    search n candidate good fuel cur (pre.find? candidate) (pre.filter candidate) =
      some ((order n c).find? fun t => candidate t && good t,
        examined candidate good (order n c)) := by
  induction fuel generalizing pre rest cur with
  | zero => exact absurd hfuel (Nat.not_lt_zero _)
  | succ fuel ih =>
    have hfind : (order n c).find? (fun t => candidate t && good t) =
        rest.find? fun t => candidate t && good t := by
      rw [h, List.find?_append, hrefused, none_or]
    have hexamined : examined candidate good (order n c) =
        pre.filter candidate ++ examined candidate good rest := by
      rw [h, examined_append hrefused]
    unfold search
    rw [hcur, List.find?_append, hfind]
    cases hnext : rest.find? candidate with
    | none =>
      -- there is no candidate, or the search has come around to the first one
      have hrest : examined candidate good rest = [] := by
        have hnil : rest.filter candidate = [] := filter_eq_nil_iff.2 (List.find?_eq_none.1 hnext)
        exact prefix_nil.1 (hnil ▸ examined_prefix candidate good rest)
      rw [find?_and_eq_none hnext, hexamined, hrest, append_nil]
      cases pre.find? candidate with
      | none => rfl
      | some t => exact if_pos rfl
    | some t =>
      obtain ⟨ht, m1, m2, rfl, hm1⟩ := List.find?_eq_some_iff_append.1 hnext
      have hnotCand : m1.find? candidate = none :=
        List.find?_eq_none.2 fun a ha => by simpa using hm1 a ha
      have hpre : t ∉ pre := fun hmem => by
        have hnodup := @nodup_order n c
        rw [h] at hnodup
        exact (nodup_append.1 hnodup).2.2 t hmem t (by simp) rfl
      have hfirst : pre.find? candidate ≠ some t := fun hmem =>
        hpre (List.mem_of_find?_eq_some hmem)
      have hfilter : (pre ++ m1 ++ [t]).filter candidate = pre.filter candidate ++ [t] := by
        have hm1 : m1.filter candidate = [] := filter_eq_nil_iff.2 (List.find?_eq_none.1 hnotCand)
        simp [hm1, ht]
      have happend : order n c = (pre ++ m1 ++ [t]) ++ m2 := by simp [h]
      rw [some_or]
      dsimp only
      rw [if_neg hfirst]
      split_ifs with hgood
      · rw [List.find?_append, find?_and_eq_none hnotCand, none_or,
          List.find?_cons_of_pos (by simp [ht, hgood])]
        have hrest : examined candidate good (m1 ++ t :: m2) = [t] := by
          rw [examined_append (find?_and_eq_none hnotCand),
            filter_eq_nil_iff.2 (List.find?_eq_none.1 hnotCand)]
          simp [examined, ht, hgood]
        rw [hexamined, hrest]
      · have hfirst' : (pre ++ m1 ++ [t]).find? candidate =
            some ((pre.find? candidate).getD t) := by
          rw [List.find?_append, List.find?_append, hnotCand, List.find?_cons_of_pos ht]
          cases pre.find? candidate <;> rfl
        have hrefused' : (pre ++ m1 ++ [t]).find? (fun t => candidate t && good t) = none := by
          simp [hrefused, find?_and_eq_none hnotCand, hgood]
        have hlen : m2.length < fuel := by
          simp only [length_append, length_cons] at hfuel
          omega
        rw [← hfirst', ← hfilter, ← hfind]
        refine ih happend ?_ hrefused' hlen
        exact order_of_eq_append (h.trans (append_assoc pre m1 (t :: m2)).symm)

/-- **The cyclic search ends, and finds the first good candidate.**  It looks at the first
candidates of the order, each one once. -/
theorem search_eq (n c : ℕ) (candidate good : ℕ → Bool) :
    search n candidate good (n + 1) c none [] =
      some ((order n c).find? fun t => candidate t && good t,
        examined candidate good (order n c)) := by
  have hlen : (order n c).length < n + 1 := by
    rw [length_order]
    exact Nat.lt_succ_self n
  exact @search_of_eq_append n c candidate good (n + 1) c [] (order n c) rfl
    (append_nil _).symm rfl hlen

end CyclicSearch

end DripOS
