import Mathlib.Data.List.Infix
import Mathlib.Data.Nat.Find

/-!
# Trees of named nodes

A tree whose nodes have a name and an array of children.  The address of a node has the indices of
the way from the root, the last one first, so that the parent of `i :: a` is `a`.  An array may have
free slots, and children may have the same name; `search` finds the first child with a name, and
`find` follows a list of names.

* `search_eq_some`, `search_eq_none` : what `search` finds;
* `chain_find` : a node that is found has the names that were looked for;
* `Ext` : a tree that has more nodes, and finds what was found before;
* `Ext.new_of_find` : what is found in the larger tree only is a new node;
* `ext_addChild` : adding a child with a new name gives a larger tree.
-/

namespace DripOS

open Option List

variable {ν β : Type}

/-- A node with its name and the length of the array of its children. -/
structure NameTree.Node (ν β : Type) where
  name : ν
  slots : ℕ
  data : β

/-- A tree of named nodes. -/
structure NameTree (ν β : Type) where
  node : List ℕ → Option (NameTree.Node ν β)
  root : (node []).isSome
  /-- Every node is in the array of its parent. -/
  parent : ∀ i a, (node (i :: a)).isSome → ∃ p, node a = some p ∧ i < p.slots

namespace NameTree

/-! ### Looking up names -/

/-- The child `i` of `a` has the name `c`. -/
def Matches (t : NameTree ν β) (a : List ℕ) (c : ν) (i : ℕ) : Prop :=
  ∃ n, t.node (i :: a) = some n ∧ n.name = c

/-- The names from the root to a node. -/
def chain (t : NameTree ν β) : List ℕ → List ν
  | [] => []
  | i :: a => chain t a ++ ((t.node (i :: a)).map Node.name).toList

section Search

variable [DecidableEq ν]

instance (t : NameTree ν β) (a : List ℕ) (c : ν) (i : ℕ) : Decidable (t.Matches a c i) :=
  match h : t.node (i :: a) with
  | none => isFalse fun ⟨n, hn, _⟩ => by rw [h] at hn; cases hn
  | some n =>
    if hc : n.name = c then isTrue ⟨n, h, hc⟩
    else isFalse fun ⟨n', hn', hc'⟩ => by rw [h] at hn'; cases hn'; exact hc hc'

/-- The index of the first child of `a` with the name `c`. -/
def search (t : NameTree ν β) (a : List ℕ) (c : ν) : Option ℕ :=
  match t.node a with
  | none => none
  | some p => (List.range p.slots).find? fun i => t.Matches a c i

/-- Follow a list of names from the node `a` on. -/
def find (t : NameTree ν β) : List ℕ → List ν → Option (List ℕ)
  | a, [] => some a
  | a, c :: cs =>
    match t.search a c with
    | some i => find t (i :: a) cs
    | none => none

variable {t t' t'' : NameTree ν β} {a b : List ℕ} {c : ν} {cs ds : List ν} {i : ℕ}

omit [DecidableEq ν] in
theorem node_cons_eq_none (ha : t.node a = none) (i : ℕ) : t.node (i :: a) = none := by
  by_contra hne
  obtain ⟨p, hp, -⟩ := t.parent i a (isSome_iff_ne_none.2 hne)
  rw [ha] at hp
  cases hp

theorem search_eq_some : t.search a c = some i ↔ t.Matches a c i ∧ ∀ j < i, ¬ t.Matches a c j := by
  rw [search]
  cases ha : t.node a with
  | none =>
    refine ⟨nofun, fun ⟨⟨n, hn, _⟩, _⟩ => ?_⟩
    rw [node_cons_eq_none ha] at hn
    cases hn
  | some p =>
    simp only [List.find?_range_eq_some, decide_eq_true_eq, mem_range, Bool.not_eq_true',
      decide_eq_false_iff_not]
    refine ⟨fun h => ⟨h.1, h.2.2⟩, fun h => ⟨h.1, ?_, h.2⟩⟩
    obtain ⟨n, hn, _⟩ := h.1
    obtain ⟨q, hq, hlt⟩ := t.parent i a (by rw [hn]; rfl)
    rw [ha] at hq
    cases hq
    exact hlt

theorem search_eq_none : t.search a c = none ↔ ∀ i, ¬ t.Matches a c i := by
  refine ⟨fun h i hi => ?_, fun h => ?_⟩
  · -- the first child with the name would be found
    have hex : ∃ i, t.Matches a c i := ⟨i, hi⟩
    rw [search_eq_some.2 ⟨Nat.find_spec hex, fun j hj => Nat.find_min hex hj⟩] at h
    cases h
  · cases hs : t.search a c with
    | none => rfl
    | some i => exact absurd (search_eq_some.1 hs).1 (h i)

theorem node_of_search (h : t.search a c = some i) :
    ∃ n, t.node (i :: a) = some n ∧ n.name = c := (search_eq_some.1 h).1

@[simp] theorem find_nil : t.find a [] = some a := rfl

theorem find_cons : t.find a (c :: cs) = (t.search a c).bind fun i => t.find (i :: a) cs := by
  rw [find]
  cases t.search a c <;> rfl

theorem find_cons_eq_some : t.find a (c :: cs) = some b ↔
    ∃ i, t.search a c = some i ∧ t.find (i :: a) cs = some b := by
  rw [find_cons, bind_eq_some_iff]

theorem find_append : t.find a (cs ++ ds) = (t.find a cs).bind fun b => t.find b ds := by
  induction cs generalizing a with
  | nil => rfl
  | cons c cs ih =>
    rw [cons_append, find_cons, find_cons]
    cases t.search a c with
    | none => rfl
    | some i => exact ih

theorem find_concat : t.find a (cs ++ [c]) = some b ↔
    ∃ g i, t.find a cs = some g ∧ t.search g c = some i ∧ b = i :: g := by
  rw [find_append, bind_eq_some_iff]
  refine exists_congr fun g => ?_
  rw [find_cons]
  cases t.search g c with
  | none => simp
  | some i => simp [eq_comm]

theorem isSome_find_of_append (h : (t.find a (cs ++ ds)).isSome) : (t.find a cs).isSome := by
  rw [find_append] at h
  cases hf : t.find a cs with
  | none => rw [hf] at h; cases h
  | some b => rfl

/-- **A node that is found has the names that were looked for.** -/
theorem chain_find (h : t.find a cs = some b) : t.chain b = t.chain a ++ cs := by
  induction cs generalizing a with
  | nil =>
    cases h
    rw [append_nil]
  | cons c cs ih =>
    obtain ⟨i, hi, hrest⟩ := find_cons_eq_some.1 h
    obtain ⟨n, hn, rfl⟩ := node_of_search hi
    rw [ih hrest, chain, hn]
    simp

theorem length_of_find (h : t.find a cs = some b) : b.length = a.length + cs.length := by
  induction cs generalizing a with
  | nil =>
    cases h
    rfl
  | cons c cs ih =>
    obtain ⟨i, -, h⟩ := find_cons_eq_some.1 h
    rw [ih h, length_cons, length_cons]
    omega

theorem isSome_of_find (ha : (t.node a).isSome) (h : t.find a cs = some b) : (t.node b).isSome := by
  induction cs generalizing a with
  | nil =>
    cases h
    exact ha
  | cons c cs ih =>
    obtain ⟨i, hi, h⟩ := find_cons_eq_some.1 h
    obtain ⟨n, hn, -⟩ := node_of_search hi
    exact ih (by rw [hn]; rfl) h

/-! ### Larger trees -/

/-- `t'` has the nodes of `t`, perhaps with larger arrays, and finds the same children. -/
structure Ext (t t' : NameTree ν β) : Prop where
  kept : ∀ a n, t.node a = some n → ∃ n', t'.node a = some n' ∧ n'.name = n.name ∧ n'.data = n.data
  search : ∀ a c i, t.search a c = some i → t'.search a c = some i

/-- A node of `t'` that `t` does not have. -/
def New (t t' : NameTree ν β) (a : List ℕ) : Prop := t.node a = none ∧ (t'.node a).isSome

theorem Ext.refl (t : NameTree ν β) : Ext t t := ⟨fun _ n h => ⟨n, h, rfl, rfl⟩, fun _ _ _ h => h⟩

theorem Ext.trans (h : Ext t t') (h' : Ext t' t'') : Ext t t'' := by
  refine ⟨fun a n hn => ?_, fun a c i hi => h'.search a c i (h.search a c i hi)⟩
  obtain ⟨n', hn', hname, hdata⟩ := h.kept a n hn
  obtain ⟨n'', hn'', hname', hdata'⟩ := h'.kept a n' hn'
  exact ⟨n'', hn'', hname'.trans hname, hdata'.trans hdata⟩

theorem Ext.isSome (h : Ext t t') (ha : (t.node a).isSome) : (t'.node a).isSome := by
  obtain ⟨n, hn⟩ := isSome_iff_exists.1 ha
  obtain ⟨n', hn', -⟩ := h.kept a n hn
  rw [hn']
  rfl

omit [DecidableEq ν] in
theorem New.cases (h : New t t'' a) : New t t' a ∨ New t' t'' a := by
  cases hn : t'.node a with
  | none => exact Or.inr ⟨hn, h.2⟩
  | some n => exact Or.inl ⟨h.1, by rw [hn]; rfl⟩

theorem Ext.node_eq_none (h : Ext t t') (ha : t'.node a = none) : t.node a = none := by
  cases hn : t.node a with
  | none => rfl
  | some n =>
    obtain ⟨n', hn', -⟩ := h.kept a n hn
    rw [ha] at hn'
    cases hn'

theorem New.mono (h : New t t' a) (hext : Ext t' t'') : New t t'' a := ⟨h.1, hext.isSome h.2⟩

theorem New.of_ext (h : New t' t'' a) (hext : Ext t t') : New t t'' a :=
  ⟨hext.node_eq_none h.1, h.2⟩

theorem Ext.find (h : Ext t t') (hf : t.find a cs = some b) : t'.find a cs = some b := by
  induction cs generalizing a with
  | nil => exact hf
  | cons c cs ih =>
    obtain ⟨i, hi, hf⟩ := find_cons_eq_some.1 hf
    exact find_cons_eq_some.2 ⟨i, h.search a c i hi, ih hf⟩

theorem Ext.chain (h : Ext t t') (ha : (t.node a).isSome) : t'.chain a = t.chain a := by
  induction a with
  | nil => rfl
  | cons i a ih =>
    obtain ⟨n, hn⟩ := isSome_iff_exists.1 ha
    obtain ⟨n', hn', hname, -⟩ := h.kept _ n hn
    obtain ⟨p, hp, -⟩ := t.parent i a ha
    rw [NameTree.chain, NameTree.chain, ih (by rw [hp]; rfl), hn, hn', map_some, map_some, hname]

/-- What is below a missing node is missing. -/
theorem node_of_find (ha : t.node a = none) (hf : t'.find a cs = some b) : t.node b = none := by
  induction cs generalizing a with
  | nil =>
    cases hf
    exact ha
  | cons c cs ih =>
    obtain ⟨i, -, hf⟩ := find_cons_eq_some.1 hf
    exact ih (node_cons_eq_none ha i) hf

/-- **What is found in the larger tree only is a new node.** -/
theorem Ext.new_of_find (h : Ext t t') (ha : (t.node a).isSome) (hn : t.find a cs = none)
    (hf : t'.find a cs = some b) : New t t' b := by
  refine ⟨?_, isSome_of_find (h.isSome ha) hf⟩
  induction cs generalizing a with
  | nil => cases hn
  | cons c cs ih =>
    obtain ⟨i, hi, hf⟩ := find_cons_eq_some.1 hf
    cases hs : t.search a c with
    | some j =>
      rw [h.search a c j hs] at hi
      cases hi
      rw [find_cons, hs, bind_some] at hn
      obtain ⟨n, hnode, -⟩ := node_of_search hs
      exact ih (by rw [hnode]; rfl) hn hf
    | none =>
      -- the child is new, so what is below it is new
      refine node_of_find (a := i :: a) ?_ hf
      cases hnode : t.node (i :: a) with
      | none => rfl
      | some n =>
        obtain ⟨n', hn', hname, -⟩ := h.kept _ n hnode
        obtain ⟨n'', hn'', hc⟩ := node_of_search hi
        rw [hn'] at hn''
        cases hn''
        exact absurd ⟨n, hnode, hname.symm.trans hc⟩ (search_eq_none.1 hs i)

end Search

/-! ### Adding a child -/

section Add

variable {t : NameTree ν β} {a b : List ℕ} {c : ν} {i : ℕ} {p new : Node ν β}

/-- The first free slot of an array of children of `a`, or its end. -/
def freeSlot (t : NameTree ν β) (a : List ℕ) (slots : ℕ) : ℕ :=
  ((List.range slots).find? fun i => (t.node (i :: a)).isNone).getD slots

theorem freeSlot_le (slots : ℕ) : t.freeSlot a slots ≤ slots := by
  rw [freeSlot]
  cases h : (List.range slots).find? fun i => (t.node (i :: a)).isNone with
  | none => exact le_rfl
  | some i => exact (mem_range.1 (List.mem_of_find?_eq_some h)).le

theorem node_freeSlot (ha : t.node a = some p) : t.node (t.freeSlot a p.slots :: a) = none := by
  rw [freeSlot]
  cases h : (List.range p.slots).find? fun i => (t.node (i :: a)).isNone with
  | some i =>
    have hfree := List.find?_some h
    rwa [isNone_iff_eq_none] at hfree
  | none =>
    cases hn : t.node (p.slots :: a) with
    | none => exact hn
    | some n =>
      obtain ⟨q, hq, hlt⟩ := t.parent p.slots a (by rw [hn]; rfl)
      rw [ha] at hq
      cases hq
      exact absurd hlt (lt_irrefl _)

/-- The array of `p` grows by ten slots when `i` is its end. -/
def Node.grow (p : Node ν β) (i : ℕ) : Node ν β :=
  { p with slots := if i < p.slots then p.slots else p.slots + 10 }

theorem Node.slots_le_grow (p : Node ν β) (i : ℕ) : p.slots ≤ (p.grow i).slots := by
  simp only [Node.grow]
  split_ifs <;> omega

theorem Node.lt_slots_grow {p : Node ν β} (h : i ≤ p.slots) : i < (p.grow i).slots := by
  simp only [Node.grow]
  split_ifs <;> omega

/-- The nodes with a child of `a`, whose node is `p`, in the slot `i`. -/
def withChild (t : NameTree ν β) (a : List ℕ) (p : Node ν β) (i : ℕ) (new : Node ν β) :
    List ℕ → Option (Node ν β) := fun b =>
  if b = i :: a then some new else if b = a then some (p.grow i) else t.node b

theorem withChild_self : t.withChild a p i new a = some (p.grow i) :=
  (if_neg List.ne_cons_self).trans (if_pos rfl)

theorem withChild_new : t.withChild a p i new (i :: a) = some new := if_pos rfl

theorem withChild_of_ne (hnew : b ≠ i :: a) (hself : b ≠ a) : t.withChild a p i new b = t.node b :=
  (if_neg hnew).trans (if_neg hself)

theorem isSome_withChild (h : (t.node b).isSome) : (t.withChild a p i new b).isSome := by
  by_cases hnew : b = i :: a
  · rw [hnew, withChild_new]
    rfl
  · by_cases hself : b = a
    · rw [hself, withChild_self]
      rfl
    · rwa [withChild_of_ne hnew hself]

variable (ha : t.node a = some p)
include ha

theorem withChild_parent (hi : i ≤ p.slots) (hfree : t.node (i :: a) = none) (j : ℕ) (b : List ℕ)
    (h : (t.withChild a p i new (j :: b)).isSome) :
    ∃ q, t.withChild a p i new b = some q ∧ j < q.slots := by
  by_cases hnew : j :: b = i :: a
  · obtain ⟨rfl, rfl⟩ := List.cons.inj hnew
    exact ⟨_, withChild_self, Node.lt_slots_grow hi⟩
  · have hold : (t.node (j :: b)).isSome := by
      by_cases hself : j :: b = a
      · rw [hself, ha]
        rfl
      · rwa [withChild_of_ne hnew hself] at h
    obtain ⟨q, hq, hlt⟩ := t.parent j b hold
    by_cases hba : b = a
    · rw [hba, ha] at hq
      cases hq
      exact ⟨_, hba ▸ withChild_self, hlt.trans_le (p.slots_le_grow i)⟩
    · by_cases hbn : b = i :: a
      · rw [hbn, hfree] at hq
        cases hq
      · exact ⟨q, (withChild_of_ne hbn hba).trans hq, hlt⟩

/-- Put a node into the first free slot of `a`, or a larger array. -/
def addChild (t : NameTree ν β) (a : List ℕ) (new : Node ν β) : NameTree ν β :=
  match h : t.node a with
  | none => t
  | some p =>
    { node := t.withChild a p (t.freeSlot a p.slots) new
      root := isSome_withChild t.root
      parent := withChild_parent h (freeSlot_le p.slots) (node_freeSlot h) }

theorem node_addChild : (t.addChild a new).node = t.withChild a p (t.freeSlot a p.slots) new := by
  unfold addChild
  split
  · rename_i h
    rw [h] at ha
    cases ha
  · rename_i q h
    rw [h] at ha
    cases ha
    rfl

theorem matches_addChild {k : ℕ} :
    (t.addChild a new).Matches b c k ↔
      t.Matches b c k ∨ (b = a ∧ k = t.freeSlot a p.slots ∧ new.name = c) := by
  have hfree := node_freeSlot ha
  simp only [Matches, node_addChild ha]
  by_cases hnew : k :: b = t.freeSlot a p.slots :: a
  · rw [hnew, withChild_new, hfree]
    obtain ⟨rfl, rfl⟩ := List.cons.inj hnew
    simp
  · have hnot : ¬ (b = a ∧ k = t.freeSlot a p.slots ∧ new.name = c) := fun ⟨hb, hk, _⟩ =>
      hnew (by rw [hb, hk])
    rw [or_iff_left hnot]
    by_cases hself : k :: b = a
    · -- only the length of the array changed
      rw [hself, withChild_self, ha]
      simp [Node.grow]
    · rw [withChild_of_ne hnew hself]

theorem new_addChild_iff : New t (t.addChild a new) b ↔ b = t.freeSlot a p.slots :: a := by
  rw [New, node_addChild ha]
  refine ⟨fun h => ?_, fun h => ?_⟩
  · by_contra hnew
    by_cases hself : b = a
    · rw [hself, ha] at h
      cases h.1
    · rw [withChild_of_ne hnew hself, h.1] at h
      cases h.2
  · rw [h, withChild_new]
    exact ⟨node_freeSlot ha, rfl⟩

variable [DecidableEq ν]

/-- **Adding a child with a name that is not there gives a larger tree.** -/
theorem ext_addChild (hs : t.search a new.name = none) : Ext t (t.addChild a new) := by
  refine ⟨fun b n hn => ?_, fun b c j hj => ?_⟩
  · rw [node_addChild ha]
    by_cases hnew : b = t.freeSlot a p.slots :: a
    · rw [hnew, node_freeSlot ha] at hn
      cases hn
    · by_cases hself : b = a
      · rw [hself, ha] at hn
        cases hn
        exact ⟨p.grow (t.freeSlot a p.slots), hself ▸ withChild_self, rfl, rfl⟩
      · exact ⟨n, (withChild_of_ne hnew hself).trans hn, rfl, rfl⟩
  · rw [search_eq_some] at hj ⊢
    refine ⟨(matches_addChild ha).2 (Or.inl hj.1), fun k hk hm => ?_⟩
    rcases (matches_addChild ha).1 hm with hm | ⟨rfl, -, rfl⟩
    · exact hj.2 k hk hm
    · exact search_eq_none.1 hs j hj.1

theorem search_addChild_self (hs : t.search a new.name = none) :
    (t.addChild a new).search a new.name = some (t.freeSlot a p.slots) := by
  rw [search_eq_some]
  refine ⟨(matches_addChild ha).2 (Or.inr ⟨rfl, rfl, rfl⟩), fun k hk hm => ?_⟩
  rcases (matches_addChild ha).1 hm with hm | ⟨-, rfl, -⟩
  · exact search_eq_none.1 hs k hm
  · exact lt_irrefl _ hk

theorem search_addChild_new (c : ν) :
    (t.addChild a new).search (t.freeSlot a p.slots :: a) c = none := by
  rw [search_eq_none]
  intro k hm
  rcases (matches_addChild ha).1 hm with ⟨n, hn, -⟩ | ⟨h, -⟩
  · rw [node_cons_eq_none (node_freeSlot ha)] at hn
    cases hn
  · exact List.ne_cons_self h.symm

end Add

end NameTree

end DripOS
