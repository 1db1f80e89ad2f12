import DripOS.Lib.Run

/-!
# Interleavings of processes that share a state

A `System` has processes with local states over one shared state.  A step is a statement of one
process, on the shared state and its local state, or a statement on the shared state alone.  A
statement that has to wait is no step.

* `System.Step` : the steps that meet a condition;
* `System.exists_run`, `System.run_of_solo` : what is computed is a run;
* `System.invariant` : the rule for assertions on the local states.
-/

namespace DripOS

open Function Option

/-- The shared state, and the local state of every process. -/
@[ext]
structure Conf (ι G L : Type*) where
  shared : G
  loc : ι → L

/-- A step: of the shared state alone, or of a process. -/
inductive Act (ι A B : Type*) where
  | shared (b : B)
  | proc (i : ι) (a : A)
  deriving DecidableEq

/-- What the statements do.  `none` : it is not the next one, or has to wait. -/
structure System (ι G L A B : Type*) where
  shared : B → G → Option G
  proc : ι → A → G → L → Option (G × L)

namespace System

variable {ι G L A B : Type*} [DecidableEq ι] {sys : System ι G L A B}

/-- The configuration after a step. -/
def exec (sys : System ι G L A B) (c : Conf ι G L) : Act ι A B → Option (Conf ι G L)
  | .shared b => (sys.shared b c.shared).map fun g => ⟨g, c.loc⟩
  | .proc i a =>
    (sys.proc i a c.shared (c.loc i)).map fun p => ⟨p.1, update c.loc i p.2⟩

/-- The steps that meet a condition. -/
def Step (sys : System ι G L A B) (P : Conf ι G L → Act ι A B → Prop) (c : Conf ι G L)
    (l : Act ι A B) (c' : Conf ι G L) : Prop :=
  P c l ∧ sys.exec c l = some c'

variable {P : Conf ι G L → Act ι A B → Prop} {c c' c0 : Conf ι G L} {ls : List (Act ι A B)}

theorem exec_shared {b : B} :
    sys.exec c (.shared b) = some c' ↔ sys.shared b c.shared = some c'.shared ∧ c'.loc = c.loc := by
  dsimp only [exec]
  constructor
  · intro h
    obtain ⟨g, hg, rfl⟩ := map_eq_some_iff.1 h
    exact ⟨hg, rfl⟩
  · rintro ⟨hg, hloc⟩
    rw [hg, ← hloc]
    rfl

theorem exec_proc {i : ι} {a : A} :
    sys.exec c (.proc i a) = some c' ↔ ∃ l, sys.proc i a c.shared (c.loc i) = some (c'.shared, l) ∧
      c'.loc = update c.loc i l := by
  dsimp only [exec]
  constructor
  · intro h
    obtain ⟨p, hp, rfl⟩ := map_eq_some_iff.1 h
    exact ⟨p.2, hp, rfl⟩
  · rintro ⟨l, hl, hloc⟩
    rw [hl, map_some, ← hloc]

/-- A run that is computed, with a test at the end. -/
theorem exists_run [∀ c l, Decidable (P c l)] {q : Conf ι G L → Prop} [DecidablePred q]
    (h : Option.any (fun c => decide (q c))
      (ls.foldlM (fun c l => if P c l then sys.exec c l else none) c0)) :
    ∃ c, Run (sys.Step P) c0 ls c ∧ q c := by
  cases hc : ls.foldlM (fun c l => if P c l then sys.exec c l else none) c0 with
  | none =>
    rw [hc] at h
    cases h
  | some c =>
  rw [hc] at h
  refine ⟨c, Run.of_foldlM (fun c l c' hl => ?_) hc, of_decide_eq_true h⟩
  split_ifs at hl with hP
  exact ⟨hP, hl⟩

/-- A statement on the shared state, or of one process, while the others do nothing. -/
def soloExec (sys : System ι G L A B) (i : ι) (p : G × L) : B ⊕ A → Option (G × L)
  | .inl b => (sys.shared b p.1).map fun g => (g, p.2)
  | .inr a => sys.proc i a p.1 p.2

/-- The step of such a statement. -/
def soloAct (i : ι) : B ⊕ A → Act ι A B
  | .inl b => .shared b
  | .inr a => .proc i a

theorem run_of_solo {i : ι} {as : List (B ⊕ A)} {g : G} {l : L}
    (h : as.foldlM (sys.soloExec i) (c.shared, c.loc i) = some (g, l)) :
    Run (sys.Step fun _ _ => True) c (as.map (soloAct i)) ⟨g, update c.loc i l⟩ := by
  induction as using List.reverseRecOn generalizing g l with
  | nil =>
    cases h
    rw [update_eq_self]
    exact .nil
  | append_singleton as a ih =>
    rw [List.foldlM_append, bind_eq_bind, bind_eq_some_iff] at h
    obtain ⟨⟨g1, l1⟩, h1, ha⟩ := h
    have ha : sys.soloExec i (g1, l1) a = some (g, l) := by simpa using ha
    rw [List.map_append]
    refine (ih h1).snoc ⟨trivial, ?_⟩
    cases a with
    | inl b =>
      obtain ⟨g2, hg2, heq⟩ := map_eq_some_iff.1 ha
      cases heq
      exact exec_shared.2 ⟨hg2, rfl⟩
    | inr a =>
      refine exec_proc.2 ⟨l, ?_, (update_idem _ _ _).symm⟩
      dsimp only
      rwa [update_self]

/-! ### Assertions on the local states -/

/-- The shared state satisfies `I`, and every process its assertion. -/
structure Holds (I : G → Prop) (Q : ι → G → L → Prop) (c : Conf ι G L) : Prop where
  shared : I c.shared
  loc : ∀ i, Q i c.shared (c.loc i)

/-- **The rule for interleavings**: a statement of the process keeps its assertion, and no statement
of another one destroys it. -/
theorem invariant {I : G → Prop} {Q : ι → G → L → Prop} (h : Run (sys.Step P) c0 ls c)
    (h0 : Holds I Q c0)
    (hshared : ∀ c b g, Holds I Q c → P c (.shared b) → sys.shared b c.shared = some g →
      I g ∧ ∀ j, Q j g (c.loc j))
    (hproc : ∀ c i a g l, Holds I Q c → P c (.proc i a) →
      sys.proc i a c.shared (c.loc i) = some (g, l) →
      I g ∧ Q i g l ∧ ∀ j, j ≠ i → Q j g (c.loc j)) : Holds I Q c := by
  refine h.invariant h0 fun c l c' hc hstep => ?_
  obtain ⟨hP, hstep⟩ := hstep
  cases l with
  | shared b =>
    obtain ⟨hg, hloc⟩ := exec_shared.1 hstep
    obtain ⟨hI, hQ⟩ := hshared c b _ hc hP hg
    exact ⟨hI, by rwa [hloc]⟩
  | proc i a =>
    obtain ⟨l, hl, hloc⟩ := exec_proc.1 hstep
    obtain ⟨hI, hi, hothers⟩ := hproc c i a _ _ hc hP hl
    refine ⟨hI, fun j => ?_⟩
    rw [hloc]
    rcases eq_or_ne j i with rfl | hj
    · rwa [update_self]
    · rw [update_of_ne hj]
      exact hothers j hj

end System

end DripOS
