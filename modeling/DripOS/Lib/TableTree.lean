import Mathlib.Data.Fintype.Basic

/-!
# Trees of tables in a store

A *store* `σ : F → I → E` gives every frame a table of entries.  An entry of a table at depth `d`
may refer to a table below it (`child d e`).  From a root frame, a list of indices leads to a table
(`walk`); the last index comes first, so that `i :: π` extends the path `π` by one level.

The tables of a tree are *distinct* when no frame is reached along two paths.  Changing one entry
then changes the walk along the paths through that entry only:

* `walk_congr` : entries that keep their children keep the walk;
* `walk_graft` : hanging a new, childless table below an entry adds one path;
* `Distinct.graft` : and keeps the tables distinct;
* `walk_reroot` : a root that shares entries with another shares the walks through them.

`postorder` lists the tables of a tree, each after those below it and once (`nodup_postorder`).  A
tree with finitely many tables is given by the list of its paths (`Describes`), which makes its
properties decidable.
-/

namespace DripOS

open List

namespace TableTree

variable {F I E : Type*}

/-- The table reached from `r` along a path, last index first. -/
def walk (child : ℕ → E → Option F) (σ : F → I → E) (r : F) : List I → Option F
  | [] => some r
  | i :: π => (walk child σ r π).bind fun t => child π.length (σ t i)

/-- `t` is a table of the tree. -/
def IsTable (child : ℕ → E → Option F) (σ : F → I → E) (r t : F) : Prop :=
  ∃ π, walk child σ r π = some t

/-- No table is reached along two paths. -/
def Distinct (child : ℕ → E → Option F) (σ : F → I → E) (r : F) : Prop :=
  ∀ π π' t, walk child σ r π = some t → walk child σ r π' = some t → π = π'

variable {child : ℕ → E → Option F} {σ σ' : F → I → E} {r r' : F}

@[simp] theorem walk_nil : walk child σ r [] = some r := rfl

theorem walk_cons (i : I) (π : List I) :
    walk child σ r (i :: π) = (walk child σ r π).bind fun t => child π.length (σ t i) := rfl

theorem walk_cons_of_some {i : I} {π : List I} {t : F} (h : walk child σ r π = some t) :
    walk child σ r (i :: π) = child π.length (σ t i) := by
  rw [walk_cons, h, Option.bind_some]

theorem walk_cons_eq_some {i : I} {π : List I} {g : F} :
    walk child σ r (i :: π) = some g ↔
      ∃ t, walk child σ r π = some t ∧ child π.length (σ t i) = some g := by
  rw [walk_cons, Option.bind_eq_some_iff]

/-- A prefix of a path that leads to a table leads to a table. -/
theorem exists_walk_of_suffix {π π' : List I} (hs : π <:+ π') {t : F}
    (h : walk child σ r π' = some t) : ∃ t', walk child σ r π = some t' := by
  induction π' generalizing t with
  | nil =>
    rw [suffix_nil] at hs
    exact ⟨t, hs ▸ h⟩
  | cons i π' ih =>
    rcases suffix_cons_iff.1 hs with rfl | hs
    · exact ⟨t, h⟩
    · obtain ⟨t', ht', -⟩ := walk_cons_eq_some.1 h
      exact ih hs ht'

/-- Entries that keep their children keep the walk. -/
theorem walk_congr (h : ∀ π t i, walk child σ r π = some t →
      child π.length (σ' t i) = child π.length (σ t i)) (π : List I) :
    walk child σ' r π = walk child σ r π := by
  induction π with
  | nil => rfl
  | cons i π ih =>
    rw [walk_cons, walk_cons, ih]
    cases ht : walk child σ r π with
    | none => rfl
    | some t => exact h π t i ht

/-- Two roots that agree on some entries agree on the walks through them. -/
theorem walk_reroot {P : I → Prop}
    (h0 : ∀ i, P i → child 0 (σ' r' i) = child 0 (σ r i))
    (h : ∀ π t i, π ≠ [] → (∀ j, [j] <:+ π → P j) → walk child σ r π = some t →
      child π.length (σ' t i) = child π.length (σ t i))
    {π : List I} (hne : π ≠ []) (hP : ∀ j, [j] <:+ π → P j) :
    walk child σ' r' π = walk child σ r π := by
  induction π with
  | nil => exact absurd rfl hne
  | cons i π ih =>
    by_cases hπ : π = []
    · subst hπ
      exact h0 i (hP i (suffix_refl _))
    · have hP' : ∀ j, [j] <:+ π → P j := fun j hj => hP j (hj.trans (suffix_cons i π))
      rw [walk_cons, walk_cons, ih hπ hP']
      cases ht : walk child σ r π with
      | none => rfl
      | some t => exact h π t i hπ hP' ht

section Graft

variable {π0 : List I} {i0 : I} {t0 g : F} [DecidableEq I]

/-- Hanging a childless table `g` below an entry without child adds one path. -/
theorem walk_graft (ht0 : walk child σ r π0 = some t0)
    (hnone : child π0.length (σ t0 i0) = none)
    (hnew : child π0.length (σ' t0 i0) = some g)
    (hleaf : ∀ i, child (π0.length + 1) (σ' g i) = none)
    (hsame : ∀ π t i, walk child σ r π = some t → i :: π ≠ i0 :: π0 →
      child π.length (σ' t i) = child π.length (σ t i)) (π : List I) :
    walk child σ' r π = if π = i0 :: π0 then some g else walk child σ r π := by
  induction π with
  | nil => simp
  | cons i π ih =>
    rw [walk_cons, ih]
    by_cases hπ : π = i0 :: π0
    · -- below the new table there is nothing
      subst hπ
      have hlen : i :: i0 :: π0 ≠ i0 :: π0 := fun h => by simpa using congrArg List.length h
      rw [if_pos rfl, if_neg hlen, Option.bind_some, length_cons, hleaf, walk_cons,
        walk_cons_of_some ht0, hnone, Option.bind_none]
    · rw [if_neg hπ]
      by_cases hi : i :: π = i0 :: π0
      · rw [if_pos hi]
        obtain ⟨rfl, rfl⟩ := List.cons.inj hi
        rw [ht0, Option.bind_some, hnew]
      · rw [if_neg hi, walk_cons]
        cases ht : walk child σ r π with
        | none => rfl
        | some t => exact hsame π t i ht hi

theorem Distinct.graft (hd : Distinct child σ r) (hg : ¬ IsTable child σ r g)
    (hw : ∀ π, walk child σ' r π = if π = i0 :: π0 then some g else walk child σ r π) :
    Distinct child σ' r := by
  intro π π' t h h'
  rw [hw] at h h'
  split_ifs at h h' with h1 h2 h2
  · rw [h1, h2]
  · cases h
    exact absurd ⟨π', h'⟩ hg
  · cases h'
    exact absurd ⟨π, h⟩ hg
  · exact hd π π' t h h'

end Graft

section Postorder

/-- The indices of a path are allowed at their depths. -/
def Allowed (is : ℕ → List I) (π : List I) : Prop := ∀ i ρ, i :: ρ <:+ π → i ∈ is ρ.length

/-- The tables below `t`, which is at depth `d`, each after those below it; at most `h` levels,
along the indices `is`. -/
def postorder (child : ℕ → E → Option F) (σ : F → I → E) (is : ℕ → List I) :
    (h d : ℕ) → (t : F) → List F
  | 0, _, t => [t]
  | h + 1, d, t =>
    ((is d).flatMap fun i =>
      ((child d (σ t i)).map (postorder child σ is h (d + 1))).getD []) ++ [t]

variable {is : ℕ → List I} {h : ℕ} {π : List I} {t f : F}

theorem Allowed.cons (hπ : Allowed is π) {i : I} (hi : i ∈ is π.length) : Allowed is (i :: π) := by
  intro j ρ hj
  rcases suffix_cons_iff.1 hj with he | hj
  · obtain ⟨rfl, rfl⟩ := List.cons.inj he
    exact hi
  · exact hπ j ρ hj

/-- What a traversal visits are the tables on the paths it may follow. -/
theorem mem_postorder (ht : walk child σ r π = some t) (hπ : Allowed is π) :
    f ∈ postorder child σ is h π.length t ↔
      ∃ ρ, ρ.length ≤ h ∧ Allowed is (ρ ++ π) ∧ walk child σ r (ρ ++ π) = some f := by
  induction h generalizing π t with
  | zero =>
    simp only [postorder, mem_singleton, Nat.le_zero, length_eq_zero_iff]
    constructor
    · rintro rfl
      exact ⟨[], rfl, hπ, ht⟩
    · rintro ⟨ρ, rfl, -, hρ⟩
      exact Option.some.inj (hρ.symm.trans ht)
  | succ h ih =>
    simp only [postorder, mem_append, mem_singleton, mem_flatMap]
    constructor
    · rintro (⟨i, hi, hf⟩ | rfl)
      · cases hc : child π.length (σ t i) with
        | none => simp [hc] at hf
        | some t' =>
          rw [hc, Option.map_some, Option.getD_some] at hf
          obtain ⟨ρ, hlen, hal, hw⟩ :=
            (ih (π := i :: π) ((walk_cons_of_some ht).trans hc) (hπ.cons hi)).1 hf
          exact ⟨ρ ++ [i], by simpa using hlen, by simpa using hal, by simpa using hw⟩
      · exact ⟨[], by simp, hπ, ht⟩
    · rintro ⟨ρ, hlen, hal, hw⟩
      rcases eq_nil_or_concat' ρ with rfl | ⟨ρ, i, rfl⟩
      · exact Or.inr (Option.some.inj (hw.symm.trans ht))
      · have hsuf : i :: π <:+ (ρ ++ [i]) ++ π := ⟨ρ, by simp⟩
        obtain ⟨t', ht'⟩ := exists_walk_of_suffix hsuf hw
        refine Or.inl ⟨i, hal i π hsuf, ?_⟩
        rw [← walk_cons_of_some ht, ht', Option.map_some, Option.getD_some]
        refine (ih (π := i :: π) ht' (hπ.cons (hal i π hsuf))).2 ⟨ρ, ?_, ?_, ?_⟩
        · simpa using hlen
        · simpa using hal
        · simpa using hw

/-- A traversal of distinct tables visits each of them once. -/
theorem nodup_postorder (his : ∀ d, (is d).Nodup)
    (hd : ∀ π π' t, Allowed is π → Allowed is π' → walk child σ r π = some t →
      walk child σ r π' = some t → π = π')
    (ht : walk child σ r π = some t) (hπ : Allowed is π) :
    (postorder child σ is h π.length t).Nodup := by
  induction h generalizing π t with
  | zero => simp [postorder]
  | succ h ih =>
    -- the tables below index `i`
    have hbelow : ∀ {i f}, i ∈ is π.length →
        f ∈ ((child π.length (σ t i)).map (postorder child σ is h (π.length + 1))).getD [] →
        ∃ ρ, Allowed is (ρ ++ i :: π) ∧ walk child σ r (ρ ++ i :: π) = some f := by
      intro i f hi hf
      cases hc : child π.length (σ t i) with
      | none => simp [hc] at hf
      | some t' =>
        rw [hc, Option.map_some, Option.getD_some] at hf
        obtain ⟨ρ, -, h1, h2⟩ := (mem_postorder (π := i :: π)
          ((walk_cons_of_some ht).trans hc) (hπ.cons hi)).1 hf
        exact ⟨ρ, h1, h2⟩
    rw [postorder, nodup_append]
    refine ⟨nodup_flatMap.2 ⟨fun i hi => ?_, ?_⟩, nodup_singleton t, ?_⟩
    · cases hc : child π.length (σ t i) with
      | none => simp
      | some t' =>
        exact ih (π := i :: π) ((walk_cons_of_some ht).trans hc) (hπ.cons hi)
    · refine (his π.length).imp_of_mem ?_
      intro i j hi hj hij f hfi hfj
      obtain ⟨ρ, h1, h2⟩ := hbelow hi hfi
      obtain ⟨ρ', h1', h2'⟩ := hbelow hj hfj
      have he := (append_inj' (hd _ _ f h1 h1' h2 h2') rfl).2
      exact hij (List.cons.inj he).1
    · intro f hf g hg
      rw [mem_singleton.1 hg]
      rintro rfl
      obtain ⟨i, hi, hf⟩ := mem_flatMap.1 hf
      obtain ⟨ρ, h1, h2⟩ := hbelow hi hf
      have := congrArg List.length (hd _ _ f h1 hπ h2 ht)
      simp at this
      omega

end Postorder

section Finite

variable [DecidableEq I] {l : List (List I × F)}

/-- The list `l` gives, for every path that leads to a table, that table. -/
def Describes (child : ℕ → E → Option F) (σ : F → I → E) (r : F) (l : List (List I × F)) : Prop :=
  l.lookup [] = some r ∧ (∀ x ∈ l, (l.lookup x.1.tail).isSome) ∧
    ∀ x ∈ l, ∀ i, child x.1.length (σ x.2 i) = l.lookup (i :: x.1)

instance [Fintype I] [DecidableEq F] : Decidable (Describes child σ r l) :=
  inferInstanceAs (Decidable (_ ∧ _ ∧ _))

theorem mem_of_lookup {π : List I} {t : F} (h : l.lookup π = some t) : (π, t) ∈ l := by
  obtain ⟨l1, l2, rfl, -⟩ := lookup_eq_some_iff.1 h
  simp

theorem Describes.walk_eq (h : Describes child σ r l) (π : List I) :
    walk child σ r π = l.lookup π := by
  induction π with
  | nil => exact h.1.symm
  | cons i π ih =>
    rw [walk_cons, ih]
    cases hπ : l.lookup π with
    | some t => exact h.2.2 (π, t) (mem_of_lookup hπ) i
    | none =>
      -- the list is closed under taking away the last index
      cases hi : l.lookup (i :: π) with
      | none => rfl
      | some t =>
        have := h.2.1 _ (mem_of_lookup hi)
        simp [hπ] at this

theorem Describes.mem (h : Describes child σ r l) {π : List I} {t : F}
    (hπ : walk child σ r π = some t) : (π, t) ∈ l :=
  mem_of_lookup (h.walk_eq π ▸ hπ)

/-- The test for `Describes` along the indices `is`, which searches only for the entries that lead
to a table. -/
def checkTables [DecidableEq F] (child : ℕ → E → Option F) (σ : F → I → E) (r : F)
    (l : List (List I × F)) (is : List I) : Bool :=
  l.lookup [] == some r && l.all fun x => (l.lookup x.1.tail).isSome &&
    (is.all fun i => (child x.1.length (σ x.2 i)).all fun t => l.lookup (i :: x.1) == some t) &&
    l.all fun y => match y.1 with
      | [] => true
      | i :: π => π != x.1 || (child x.1.length (σ x.2 i)).isSome

theorem Describes.of_checkTables [DecidableEq F] {is : List I} (his : ∀ i, i ∈ is)
    (h : checkTables child σ r l is = true) : Describes child σ r l := by
  simp only [checkTables, Bool.and_eq_true, beq_iff_eq, all_eq_true] at h
  obtain ⟨hroot, htables⟩ := h
  refine ⟨hroot, fun x hx => (htables x hx).1.1, fun x hx i => ?_⟩
  obtain ⟨⟨-, hlisted⟩, hchildren⟩ := htables x hx
  cases hchild : child x.1.length (σ x.2 i) with
  | some t =>
    have hi := hlisted i (his i)
    rw [hchild] at hi
    exact (beq_iff_eq.1 hi).symm
  | none =>
    cases hi : l.lookup (i :: x.1) with
    | none => rfl
    | some t =>
      have hsome := hchildren _ (mem_of_lookup hi)
      simp [hchild] at hsome

end Finite

end TableTree

end DripOS
