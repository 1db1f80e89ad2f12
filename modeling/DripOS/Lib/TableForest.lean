import DripOS.Lib.TableTree

/-!
# Trees that share tables

Several roots in one store may lead to the same tables.  `SharesOn S` : a table of two trees is at
the same place in both, which is in the set `S` of paths.  `Grows old r` is what an operation on the
tree with root `r` may do: it keeps the walks, hangs in tables that were not among the frames `old`,
and writes to no other frame of `old`.  It then does the same to all trees that share tables:

* `Grows.walk_other`, `Grows.fresh_other` : another tree keeps its walks, and its new tables are
  where the first tree has them;
* `Grows.distinct_other` : its tables stay distinct;
* `Grows.sharesOn`, `Grows.sharesOn_other` : and all trees go on sharing in `S` only.
-/

namespace DripOS

namespace TableTree

variable {F I E : Type*}

/-- A table of both trees is at one path in both, and this path is in `S`. -/
def SharesOn (child : ℕ → E → Option F) (S : List I → Prop) (σ : F → I → E) (r r' : F) : Prop :=
  ∀ π π' t, walk child σ r π = some t → walk child σ r' π' = some t → π = π' ∧ S π

/-- The tree with root `r` grows by tables in frames that are not `old`. -/
structure Grows (child : ℕ → E → Option F) (old : F → Prop) (r : F) (σ σ' : F → I → E) : Prop where
  walk : ∀ π t, TableTree.walk child σ r π = some t → TableTree.walk child σ' r π = some t
  fresh : ∀ π t, TableTree.walk child σ' r π = some t →
    TableTree.walk child σ r π = some t ∨ ¬ old t
  frame : ∀ f, old f → ¬ IsTable child σ' r f → σ' f = σ f

variable {child : ℕ → E → Option F} {S : List I → Prop} {σ σ' σ'' : F → I → E} {r r' r'' : F}
  {old old' : F → Prop}

theorem SharesOn.symm (h : SharesOn child S σ r r') : SharesOn child S σ r' r := by
  intro π π' t hπ hπ'
  obtain ⟨rfl, hS⟩ := h π' π t hπ' hπ
  exact ⟨rfl, hS⟩

namespace Grows

theorem refl : Grows child old r σ σ := ⟨fun _ _ h => h, fun _ _ h => Or.inl h, fun _ _ _ => rfl⟩

theorem trans (h : Grows child old r σ σ') (h' : Grows child old' r σ' σ'')
    (hold : ∀ f, old f → old' f) : Grows child old r σ σ'' where
  walk π t ht := h'.walk π t (h.walk π t ht)
  fresh π t ht := by
    rcases h'.fresh π t ht with ht' | hn
    · exact h.fresh π t ht'
    · exact Or.inr fun hf => hn (hold t hf)
  frame f hf hn := by
    have hn' : ¬ IsTable child σ' r f := fun ⟨π, hπ⟩ => hn ⟨π, h'.walk π f hπ⟩
    rw [h'.frame f (hold f hf) hn, h.frame f hf hn']

/-! ### Another tree -/

section Other

variable (h : Grows child old r σ σ')
  (hr : ∀ π t, TableTree.walk child σ r π = some t → old t)
  (hr' : ∀ π t, TableTree.walk child σ r' π = some t → old t)
  (hshare : SharesOn child S σ r r') {π : List I} {t : F}

include h hr' hshare

/-- A table of the other tree keeps its entries, or is a table of the first one. -/
theorem table_other (ht : TableTree.walk child σ r' π = some t) :
    σ' t = σ t ∨ TableTree.walk child σ r π = some t ∧ S π := by
  by_cases hn : IsTable child σ' r t
  · obtain ⟨ρ, hρ⟩ := hn
    rcases h.fresh ρ t hρ with hold | hnew
    · obtain ⟨rfl, hS⟩ := hshare ρ π t hold ht
      exact Or.inr ⟨hold, hS⟩
    · exact absurd (hr' π t ht) hnew
  · exact Or.inl (h.frame t (hr' π t ht) hn)

theorem walk_other (ht : TableTree.walk child σ r' π = some t) :
    TableTree.walk child σ' r' π = some t := by
  induction π generalizing t with
  | nil => exact ht
  | cons i π ih =>
    obtain ⟨p, hp, hc⟩ := walk_cons_eq_some.1 ht
    rw [walk_cons_of_some (ih hp)]
    rcases h.table_other hr' hshare hp with he | ⟨hfirst, -⟩
    · rw [he, hc]
    · -- the first tree has the same table below the same entry
      rw [← walk_cons_of_some (h.walk π p hfirst)]
      exact h.walk _ t ((walk_cons_of_some hfirst).trans hc)

include hr

variable (hS : ∀ i π, S π → S (i :: π))
include hS

/-- The new tables of the other tree are new tables of the first one. -/
theorem fresh_other (ht : TableTree.walk child σ' r' π = some t) :
    TableTree.walk child σ r' π = some t ∨
      ¬ old t ∧ TableTree.walk child σ' r π = some t ∧ S π := by
  induction π generalizing t with
  | nil => exact Or.inl ht
  | cons i π ih =>
    obtain ⟨p, hp, hc⟩ := walk_cons_eq_some.1 ht
    rcases ih hp with hold | ⟨hnew, hfirst, hSπ⟩
    · rcases h.table_other hr' hshare hold with he | ⟨hfirst, hSπ⟩
      · rw [he] at hc
        exact Or.inl ((walk_cons_of_some hold).trans hc)
      · have hw := (walk_cons_of_some (i := i) (h.walk π p hfirst)).trans hc
        rcases h.fresh _ t hw with hw' | hnew
        · rw [walk_cons_of_some hfirst] at hw'
          exact Or.inl ((walk_cons_of_some hold).trans hw')
        · exact Or.inr ⟨hnew, hw, hS i π hSπ⟩
    · -- below a new table there are new tables only
      have hw := (walk_cons_of_some (i := i) hfirst).trans hc
      rcases h.fresh _ t hw with hw' | hnew'
      · obtain ⟨q, hq, -⟩ := walk_cons_eq_some.1 hw'
        obtain rfl := Option.some.inj ((h.walk π q hq).symm.trans hfirst)
        exact absurd (hr π q hq) hnew
      · exact Or.inr ⟨hnew', hw, hS i π hSπ⟩

theorem distinct_other (hd : Distinct child σ' r) (hd' : Distinct child σ r') :
    Distinct child σ' r' := by
  intro π π' t ht ht'
  rcases h.fresh_other hr hr' hshare hS ht with h1 | ⟨hn, h1, -⟩
  · rcases h.fresh_other hr hr' hshare hS ht' with h2 | ⟨hn, -, -⟩
    · exact hd' π π' t h1 h2
    · exact absurd (hr' π t h1) hn
  · rcases h.fresh_other hr hr' hshare hS ht' with h2 | ⟨-, h2, -⟩
    · exact absurd (hr' π' t h2) hn
    · exact hd π π' t h1 h2

theorem sharesOn (hd : Distinct child σ' r) : SharesOn child S σ' r r' := by
  intro π π' t ht ht'
  rcases h.fresh_other hr hr' hshare hS ht' with h2 | ⟨-, h2, hSπ⟩
  · rcases h.fresh π t ht with h1 | hn
    · exact hshare π π' t h1 h2
    · exact absurd (hr' π' t h2) hn
  · obtain rfl := hd π π' t ht h2
    exact ⟨rfl, hSπ⟩

theorem sharesOn_other (hd : Distinct child σ' r)
    (hr'' : ∀ π t, TableTree.walk child σ r'' π = some t → old t)
    (hshare' : SharesOn child S σ r r'') (hshare'' : SharesOn child S σ r' r'') :
    SharesOn child S σ' r' r'' := by
  intro π π' t ht ht'
  rcases h.fresh_other hr hr' hshare hS ht with h1 | ⟨hn, h1, hSπ⟩
  · rcases h.fresh_other hr hr'' hshare' hS ht' with h2 | ⟨hn, -, -⟩
    · exact hshare'' π π' t h1 h2
    · exact absurd (hr' π t h1) hn
  · rcases h.fresh_other hr hr'' hshare' hS ht' with h2 | ⟨-, h2, -⟩
    · exact absurd (hr'' π' t h2) hn
    · obtain rfl := hd π π' t h1 h2
      exact ⟨rfl, hSπ⟩

end Other

end Grows

end TableTree

end DripOS
