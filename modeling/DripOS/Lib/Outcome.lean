import Mathlib.Data.List.Range

/-!
# Computations that may stop, and counted loops

A computation is an `Except ε α`: it returns a value, or stops for a reason of type `ε`.  `Ensures
allow x Q` : `x` returns a value satisfying `Q`, or stops for one of the *allowed* reasons.  With
`allow := fun _ => False` it says that `x` returns.

`forRange n body` is the loop `for (i = 0; i < n; i++)`.  `Ensures.forRange` is its invariant rule,
and `forRange_eq_foldlM` identifies it with a fold over a list of actions.
-/

namespace DripOS

open Nat List

universe u

variable {ε : Type*} {α β σ : Type u} {b : β}

/-- `x` returns a value satisfying `Q`, or stops for an allowed reason. -/
def Ensures (allow : ε → Prop) (x : Except ε α) (Q : α → Prop) : Prop :=
  match x with
  | .ok a => Q a
  | .error e => allow e

section Rules

variable {allow allow' : ε → Prop} {x : Except ε α} {Q R : α → Prop} {a : α} {P : β → Prop}
  {f : α → β} {e : ε}

theorem Ensures.of_ok (h : Ensures allow x Q) (hx : x = .ok a) : Q a := by
  rw [hx] at h; exact h

theorem Ensures.mono (h : Ensures allow x Q) (hQ : ∀ a, Q a → R a) : Ensures allow x R := by
  cases x with
  | ok a => exact hQ a h
  | error e => exact h

theorem Ensures.mono_allow (h : Ensures allow x Q) (ha : ∀ e, allow e → allow' e) :
    Ensures allow' x Q := by
  cases x with
  | ok a => exact h
  | error e => exact ha e h

theorem Ensures.bind {f : α → Except ε β} (h : Ensures allow x Q)
    (hf : ∀ a, Q a → Ensures allow (f a) P) : Ensures allow (x >>= f) P := by
  cases x with
  | ok a => exact hf a h
  | error e => exact h

theorem Ensures.map (h : Ensures allow x fun a => P (f a)) : Ensures allow (x.map f) P := by
  cases x with
  | ok a => exact h
  | error e => exact h

/-- A computation that only stops for reason `e`, and does not, returns. -/
theorem Ensures.exists_ok (h : Ensures (· = e) x Q) (hne : x ≠ .error e) :
    ∃ a, x = .ok a ∧ Q a := by
  cases x with
  | ok a => exact ⟨a, rfl, h⟩
  | error e' => exact absurd (congrArg Except.error h) hne

theorem ne_error_of_isOk (h : x.isOk = true) (e : ε) : x ≠ .error e := by
  rintro rfl
  cases h

/-- Evaluating part of the result of a computation. -/
theorem exists_ok_of_map {b : β} (h : x.toOption.map f = some b) : ∃ a, x = .ok a ∧ f a = b := by
  cases x with
  | ok a => exact ⟨a, rfl, Option.some.inj h⟩
  | error e => cases h

/-- The rest of a statement about the result follows from the part that was evaluated. -/
theorem exists_ok_and {P : α → Prop} (f : α → β) (b : β) (h : x.toOption.map f = some b)
    (hp : ∀ a, x = .ok a → f a = b → P a) : ∃ a, x = .ok a ∧ P a := by
  obtain ⟨a, ha, hb⟩ := exists_ok_of_map h
  exact ⟨a, ha, hp a ha hb⟩

/-- Why a computation stops. -/
def stopReason : Except ε α → Option ε
  | .ok _ => none
  | .error e => some e

theorem eq_error_of_stopReason (h : stopReason x = some e) : x = .error e := by
  cases x with
  | ok a => cases h
  | error e' => cases h; rfl

end Rules

@[simp] theorem ok_bind (a : α) (f : α → Except ε β) : (Except.ok a >>= f) = f a := rfl

theorem map_eq_ok {x : Except ε α} {f : α → β} : x.map f = .ok b ↔ ∃ a, x = .ok a ∧ f a = b := by
  cases x with
  | ok a =>
    refine ⟨fun h => ⟨a, rfl, Except.ok.inj h⟩, ?_⟩
    rintro ⟨a', h, rfl⟩
    cases h
    rfl
  | error e =>
    refine ⟨fun h => ?_, ?_⟩
    · cases h
    · rintro ⟨a', h, -⟩
      cases h

/-- A computation returns exactly when both halves do. -/
theorem bind_eq_ok {x : Except ε α} {f : α → Except ε β} :
    (x >>= f) = .ok b ↔ ∃ a, x = .ok a ∧ f a = .ok b := by
  cases x with
  | ok a =>
    constructor
    · exact fun h => ⟨a, rfl, h⟩
    · rintro ⟨_, ha, h⟩
      cases ha
      exact h
  | error e =>
    constructor
    · exact fun h => nomatch h
    · rintro ⟨_, ha, _⟩
      cases ha

/-! ### Counted loops -/

/-- `for (i = 0; i < n; i++) body(i)`. -/
def forRange : ℕ → (ℕ → σ → Except ε σ) → σ → Except ε σ
  | 0, _, s => .ok s
  | n + 1, body, s => forRange n body s >>= body n

section Loop

variable {body : ℕ → σ → Except ε σ} {n : ℕ} {s : σ}

@[simp] theorem forRange_zero : forRange 0 body s = .ok s := rfl

theorem forRange_succ : forRange (n + 1) body s = forRange n body s >>= body n := rfl

/-- **The invariant rule.** -/
theorem Ensures.forRange {allow : ε → Prop} (P : ℕ → σ → Prop) (h0 : P 0 s)
    (hstep : ∀ i t, i < n → P i t → Ensures allow (body i t) (P (i + 1))) :
    Ensures allow (forRange n body s) (P n) := by
  induction n with
  | zero => exact h0
  | succ n ih =>
    have hn := ih fun i t hi => hstep i t (lt_succ_of_lt hi)
    exact hn.bind fun t ht => hstep n t (lt_succ_self n) ht

/-- The invariant rule for a loop that is known to return. -/
theorem forRange_induct (P : ℕ → σ → Prop) (h0 : P 0 s)
    (hstep : ∀ i t t', i < n → P i t → body i t = .ok t' → P (i + 1) t') {s' : σ}
    (h : forRange n body s = .ok s') : P n s' := by
  induction n generalizing s' with
  | zero => cases h; exact h0
  | succ n ih =>
    obtain ⟨t, ht, h⟩ := bind_eq_ok.1 h
    exact hstep n t s' (lt_succ_self n)
      (ih (fun i t t' hi => hstep i t t' (lt_succ_of_lt hi)) ht) h

/-- A loop whose body always returns does so. -/
theorem forRange_returns (h : ∀ i < n, ∀ s, ∃ s', body i s = .ok s') (s : σ) :
    ∃ s', forRange n body s = .ok s' := by
  induction n with
  | zero => exact ⟨s, rfl⟩
  | succ n ih =>
    obtain ⟨t, ht⟩ := ih fun i hi => h i (lt_succ_of_lt hi)
    rw [forRange_succ, ht]
    exact h n (lt_succ_self n) t

/-- What every action of a list keeps, the list keeps. -/
theorem foldlM_keeps {γ : Type*} {act : σ → γ → Except ε σ} {I : σ → Prop}
    (hact : ∀ t a t', I t → act t a = .ok t' → I t') (l : List γ) {t t' : σ} (ht : I t)
    (h : l.foldlM act t = .ok t') : I t' := by
  induction l generalizing t with
  | nil => cases h; exact ht
  | cons a l ih =>
    obtain ⟨t1, h1, h⟩ := bind_eq_ok.1 h
    exact ih (hact t a t1 ht h1) h

/-- A loop whose body performs a list of actions, as long as the state satisfies `I`, performs the
concatenation. -/
theorem forRange_eq_foldlM {γ : Type*} {act : σ → γ → Except ε σ} (I : σ → Prop)
    (hact : ∀ t a t', I t → act t a = .ok t' → I t') (l : ℕ → List γ) (hs : I s)
    (h : ∀ i t, i < n → I t → body i t = (l i).foldlM act t) :
    DripOS.forRange n body s = ((List.range n).flatMap l).foldlM act s := by
  induction n with
  | zero => rfl
  | succ n ih =>
    rw [forRange_succ, ih fun i t hi => h i t (lt_succ_of_lt hi), range_succ,
      flatMap_append, foldlM_append, flatMap_singleton]
    cases hx : ((List.range n).flatMap l).foldlM act s with
    | error e => rfl
    | ok t => exact h n t (lt_succ_self n) (foldlM_keeps hact _ hs hx)

end Loop

end DripOS
