import Mathlib.Data.List.Induction

/-!
# Runs of labelled transition systems

`Run step s ls s'` says that the steps with labels `ls` lead from `s` to `s'`.

* `Run.of_foldlM`, `Run.exists_of_exec` : steps that are computed one after the other are a run;
* `Run.invariant`, `Run.history` : what every step keeps, a run keeps;
* `Run.simulate` : a run of one system is a run of another one when every step is.
-/

namespace DripOS

open List

variable {S A L : Type*}

/-- The steps with labels `ls`, in this order, lead from the first state to the last. -/
inductive Run (step : S → L → S → Prop) (s₀ : S) : List L → S → Prop
  | nil : Run step s₀ [] s₀
  | snoc {ls : List L} {s s' : S} {l : L} :
      Run step s₀ ls s → step s l s' → Run step s₀ (ls ++ [l]) s'

theorem getElem?_snoc {l : List A} {x a : A} {i : ℕ} :
    (l ++ [x])[i]? = some a ↔ l[i]? = some a ∨ i = l.length ∧ x = a := by
  rcases Nat.lt_trichotomy i l.length with hlt | rfl | hgt
  · rw [getElem?_append_left hlt]
    simp [Nat.ne_of_lt hlt]
  · simp
  · rw [getElem?_eq_none (by simp; omega), getElem?_eq_none (by omega)]
    simp [Nat.ne_of_gt hgt]

namespace Run

variable {step : S → L → S → Prop} {s0 s : S} {ls : List L}

theorem snoc_iff {l : L} : Run step s0 (ls ++ [l]) s ↔ ∃ t, Run step s0 ls t ∧ step t l s := by
  constructor
  · intro h
    generalize hls' : ls ++ [l] = ls' at h
    cases h with
    | nil => exact absurd hls' (append_ne_nil_of_right_ne_nil _ (cons_ne_nil _ _))
    | snoc hrun hl =>
      obtain ⟨rfl, hl'⟩ := append_inj' hls' rfl
      obtain rfl := singleton_inj.1 hl'
      exact ⟨_, hrun, hl⟩
  · rintro ⟨t, hrun, hl⟩
    exact hrun.snoc hl

theorem invariant {I : S → Prop} (h : Run step s0 ls s) (h0 : I s0)
    (hstep : ∀ s l s', I s → step s l s' → I s') : I s := by
  induction h with
  | nil => exact h0
  | snoc _ hl ih => exact hstep _ _ _ ih hl

/-- The invariant rule for what also depends on the labels so far. -/
theorem history {I : List L → S → Prop} (h : Run step s0 ls s) (h0 : I [] s0)
    (hstep : ∀ ls s l s', I ls s → step s l s' → I (ls ++ [l]) s') : I ls s := by
  induction h with
  | nil => exact h0
  | snoc _ hl ih => exact hstep _ _ _ _ ih hl

/-- A run that is computed step by step. -/
theorem of_foldlM {f : S → L → Option S} (hf : ∀ s l s', f s l = some s' → step s l s')
    (h : ls.foldlM f s0 = some s) : Run step s0 ls s := by
  induction ls using List.reverseRecOn generalizing s with
  | nil =>
    cases h
    exact nil
  | append_singleton ls l ih =>
    rw [foldlM_append, Option.bind_eq_bind, Option.bind_eq_some_iff] at h
    obtain ⟨t, ht, hl⟩ := h
    refine (ih ht).snoc (hf _ _ _ ?_)
    simpa using hl

/-- A run of a function that may stop, with a condition on every step and a test at the end. -/
theorem exists_of_exec {ε : Type*} {P : S → L → Prop} [∀ s l, Decidable (P s l)]
    {f : S → L → Except ε S} {q : S → Bool}
    (h : Option.any q (ls.foldlM (fun s l => if P s l then (f s l).toOption else none) s0)) :
    ∃ s, Run (fun s l s' => P s l ∧ f s l = .ok s') s0 ls s ∧ q s := by
  cases hs : ls.foldlM (fun s l => if P s l then (f s l).toOption else none) s0 with
  | none =>
    rw [hs] at h
    cases h
  | some s =>
  rw [hs] at h
  refine ⟨s, of_foldlM (fun s l s' hl => ?_) hs, h⟩
  split_ifs at hl with hP
  refine ⟨hP, ?_⟩
  cases hf : f s l with
  | ok a =>
    rw [hf] at hl
    exact congrArg _ (Option.some.inj hl)
  | error e =>
    rw [hf] at hl
    cases hl

/-- The same, with a decidable proposition as the test. -/
theorem exists_of_decide {ε : Type*} {P : S → L → Prop} [∀ s l, Decidable (P s l)]
    {f : S → L → Except ε S} {q : S → Prop} [DecidablePred q]
    (h : Option.any (fun s => decide (q s))
      (ls.foldlM (fun s l => if P s l then (f s l).toOption else none) s0)) :
    ∃ s, Run (fun s l s' => P s l ∧ f s l = .ok s') s0 ls s ∧ q s := by
  obtain ⟨s, hrun, hq⟩ := exists_of_exec h
  exact ⟨s, hrun, of_decide_eq_true hq⟩

/-- The simulation rule. -/
theorem simulate {R : S → A → Prop} {astep : A → L → A → Prop} {a0 : A} (h : Run step s0 ls s)
    (h0 : R s0 a0)
    (hstep : ∀ s a l s', R s a → step s l s' → ∃ a', astep a l a' ∧ R s' a') :
    ∃ a, Run astep a0 ls a ∧ R s a := by
  induction h with
  | nil => exact ⟨a0, .nil, h0⟩
  | snoc _ hl ih =>
    obtain ⟨a, hrun, hR⟩ := ih
    obtain ⟨a', hstep', hR'⟩ := hstep _ _ _ _ hR hl
    exact ⟨a', hrun.snoc hstep', hR'⟩

end Run

end DripOS
