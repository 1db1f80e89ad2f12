import Mathlib.Data.Set.Card

/-!
# The depth of a recursion along a relation

A recursion that follows a relation ends when no element it reaches is on a cycle, and only finitely
many elements have successors; their number bounds its depth.

* `Acyclic.induction` : the rule for what holds at a sufficient depth;
* `Acyclic.forall_of_reaches`, `Acyclic.forall_of_cycle` : what holds at every depth.
-/

namespace DripOS

namespace Acyclic

open Relation

variable {α : Type*} {r : α → α → Prop} {S : Set α} {x y : α}

/-- The elements of `S` that are reached from `x`. -/
def reached (r : α → α → Prop) (S : Set α) (x : α) : Set α := {y ∈ S | ReflTransGen r x y}

/-- A step to a successor leaves one element behind. -/
theorem ncard_reached_lt (hS : S.Finite) (hx : x ∈ S) (hxy : r x y) (hcycle : ¬ TransGen r x x) :
    (reached r S y).ncard < (reached r S x).ncard := by
  refine Set.ncard_lt_ncard ⟨fun z hz => ⟨hz.1, hz.2.head hxy⟩, fun hsub => hcycle ?_⟩
    (hS.subset fun z hz => hz.1)
  exact TransGen.head' hxy (hsub ⟨hx, ReflTransGen.refl⟩).2

/-- **Induction along a relation without cycles**, where the elements of `S` have successors. -/
theorem induction {P : ℕ → α → Prop} (hS : S.Finite)
    (hstep : ∀ n x, (x ∈ S → ∀ y, r x y → P n y) → P (n + 1) x) {n : ℕ}
    (hcycle : ∀ y, ReflTransGen r x y → ¬ TransGen r y y) (hn : (reached r S x).ncard < n) :
    P n x := by
  induction n generalizing x with
  | zero => exact absurd hn (Nat.not_lt_zero _)
  | succ n ih =>
    refine hstep n x fun hx y hxy => ih (fun z hz => hcycle z (hz.head hxy)) ?_
    have hlt := ncard_reached_lt hS hx hxy (hcycle x ReflTransGen.refl)
    omega

section Unbounded

variable {Q : ℕ → α → Prop} (h0 : ∀ x, Q 0 x) (hstep : ∀ n x y, r x y → Q n y → Q (n + 1) x)

include h0 hstep

/-- What holds at every depth for an element holds for all that reach it. -/
theorem forall_of_reaches (h : ReflTransGen r x y) (hy : ∀ n, Q n y) (n : ℕ) : Q n x := by
  induction h using ReflTransGen.head_induction_on generalizing n with
  | refl => exact hy n
  | head hxz _ ih =>
    cases n with
    | zero => exact h0 _
    | succ n => exact hstep n _ _ hxz (ih n)

/-- **A cycle can be followed to every depth.** -/
theorem forall_of_cycle (h : TransGen r x x) (n : ℕ) : Q n x := by
  induction n generalizing x with
  | zero => exact h0 x
  | succ n ih =>
    obtain ⟨y, hxy, hyx⟩ := TransGen.head'_iff.1 h
    exact hstep n x y hxy (ih (TransGen.tail' hyx hxy))

end Unbounded

end Acyclic

end DripOS
