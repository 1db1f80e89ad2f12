import DripOS.Lib.NameTree
import Mathlib.Data.Set.Card

/-!
# Marking the nodes below a node

`set_child_ops` and `set_child_fs_root` of `src/fs/vfs/vfs.c`.  They keep no stack: from a node they
go to the first child that does not have the new value, and from a node without such a child, which
gets the value, back to its parent.  So the value is the mark of the nodes that are done.

* `Marking.loop_returns` : the loop returns in every finite tree, and stores the value in the nodes
  to which a way without a marked node leads (`Marking.Reached`);
* `Vfs.setChild_complete_iff` : **every descendant has the value afterwards exactly when those below
  a marked one have it before.**
-/

namespace DripOS

open List

/-! ### Marking a tree -/

namespace Marking

variable {ν β : Type} (marked : β → Bool) (store : β → β)

/-- The tree with new data in the node `a`. -/
def modify (t : NameTree ν β) (a : List ℕ) : NameTree ν β where
  node b := if b = a then (t.node b).map fun n => { n with data := store n.data } else t.node b
  root := by
    split_ifs
    · rw [Option.isSome_map]
      exact t.root
    · exact t.root
  parent i b h := by
    have hsome : (t.node (i :: b)).isSome := by
      split_ifs at h
      · rwa [Option.isSome_map] at h
      · exact h
    obtain ⟨p, hp, hi⟩ := t.parent i b hsome
    rw [hp]
    split_ifs
    · exact ⟨_, rfl, hi⟩
    · exact ⟨p, rfl, hi⟩

/-- The first child that is not marked. -/
def nextChild (t : NameTree ν β) (a : List ℕ) : Option ℕ :=
  match t.node a with
  | none => none
  | some p => (range p.slots).find? fun i => (t.node (i :: a)).any fun n => !marked n.data

/-- The loop over `current_work`, with the number of rounds. -/
def loop (node : List ℕ) : (rounds : ℕ) → (currentWork : List ℕ) → NameTree ν β →
    Option (NameTree ν β)
  | 0, _, _ => none
  | rounds + 1, currentWork, t =>
    match nextChild marked t currentWork with
    | some i => loop node rounds (i :: currentWork) t
    | none =>
      if currentWork = node then some t
      else match currentWork with
        -- the parent of the root is null
        | [] => none
        | i :: parent => loop node rounds parent (modify store t (i :: parent))

/-- The node `a` is in the tree, and not marked. -/
def Unmarked (t : NameTree ν β) (a : List ℕ) : Prop :=
  ∃ n, t.node a = some n ∧ marked n.data = false

/-- A way from `a` down to a node has no marked node behind `a`. -/
inductive Reached (t : NameTree ν β) (a : List ℕ) : List ℕ → Prop
  | child {i : ℕ} : Unmarked marked t (i :: a) → Reached t a (i :: a)
  | deeper {i : ℕ} {b : List ℕ} : Reached t a b → Unmarked marked t (i :: b) → Reached t a (i :: b)

/-- The data was stored in the nodes of `R`. -/
structure Stored (t t' : NameTree ν β) (R : List ℕ → Prop) : Prop where
  inside : ∀ b, R b → t'.node b = (t.node b).map fun n => { n with data := store n.data }
  outside : ∀ b, ¬ R b → t'.node b = t.node b

variable {marked store} {t t' : NameTree ν β} {a b : List ℕ} {i : ℕ} {R : List ℕ → Prop}

theorem nextChild_eq_some (h : nextChild marked t a = some i) : Unmarked marked t (i :: a) := by
  unfold nextChild at h
  split at h
  · cases h
  · simpa [Unmarked, Option.any_eq_true] using find?_some h

theorem nextChild_eq_none (h : nextChild marked t a = none) (i : ℕ) :
    ¬ Unmarked marked t (i :: a) := by
  rintro ⟨n, hn, hmark⟩
  obtain ⟨p, hp, hi⟩ := t.parent i a (by rw [hn]; rfl)
  rw [nextChild, hp] at h
  have hnot := find?_eq_none.1 h i (mem_range.2 hi)
  simp [hn, hmark] at hnot

theorem Reached.exists_append (h : Reached marked t a b) : ∃ i l, b = i :: (l ++ a) := by
  induction h with
  | child _ => exact ⟨_, [], rfl⟩
  | @deeper i b _ _ ih =>
    obtain ⟨j, l, rfl⟩ := ih
    exact ⟨i, j :: l, rfl⟩

theorem not_reached_self : ¬ Reached marked t a a := by
  intro h
  obtain ⟨i, l, hl⟩ := h.exists_append
  exact cons_ne_nil i l ((@self_eq_append_left _ (i :: l) a).1 hl)

theorem Reached.unmarked (h : Reached marked t a b) : Unmarked marked t b := by
  cases h with
  | child hb => exact hb
  | deeper _ hb => exact hb

/-- The nodes that are reached through the child `i`. -/
def Through (marked : β → Bool) (t : NameTree ν β) (a : List ℕ) (i : ℕ) (b : List ℕ) : Prop :=
  b = i :: a ∨ Reached marked t (i :: a) b

theorem Through.reached (hi : Unmarked marked t (i :: a)) (h : Through marked t a i b) :
    Reached marked t a b := by
  rcases h with rfl | h
  · exact .child hi
  · induction h with
    | child hj => exact (Reached.child hi).deeper hj
    | deeper _ hj ih => exact ih.deeper hj

/-- Without a child that is not marked nothing is reached. -/
theorem not_reached (h : ∀ i, ¬ Unmarked marked t (i :: a)) : ¬ Reached marked t a b := by
  intro hb
  induction hb with
  | child hi => exact h _ hi
  | deeper _ _ ih => exact ih

theorem stored_modify (h : Stored store t t' (Reached marked t (i :: a))) :
    Stored store t (modify store t' (i :: a)) (Through marked t a i) := by
  constructor
  · rintro b (rfl | hb)
    · rw [← h.outside _ not_reached_self]
      exact if_pos rfl
    · rw [← h.inside b hb]
      exact if_neg fun hba : b = i :: a => not_reached_self (hba ▸ hb)
  · intro b hb
    rw [← h.outside b fun hr => hb (.inr hr)]
    exact if_neg fun hba => hb (.inl hba)

section Rounds

variable {node : List ℕ} {rounds : ℕ}

theorem loop_child (h : nextChild marked t a = some i) :
    loop marked store node (rounds + 1) a t = loop marked store node rounds (i :: a) t := by
  simp [loop, h]

theorem loop_node (h : nextChild marked t node = none) :
    loop marked store node (rounds + 1) node t = some t := by
  simp [loop, h]

theorem loop_parent (h : nextChild marked t (i :: a) = none) (hne : i :: a ≠ node) :
    loop marked store node (rounds + 1) (i :: a) t =
      loop marked store node rounds a (modify store t (i :: a)) := by
  simp [loop, h, hne]

end Rounds

variable (hstore : ∀ d, marked (store d) = true)
include hstore

theorem Stored.unmarked_iff (h : Stored store t t' R) :
    Unmarked marked t' b ↔ Unmarked marked t b ∧ ¬ R b := by
  by_cases hR : R b
  · rw [Unmarked, h.inside b hR]
    simp [hR, hstore]
  · rw [Unmarked, h.outside b hR, Unmarked, and_iff_left hR]

/-- When the nodes below a child are done, the others are still reached. -/
theorem Stored.reached_iff (h : Stored store t t' (Through marked t a i)) :
    Reached marked t' a b ↔ Reached marked t a b ∧ ¬ Through marked t a i b := by
  have hiff (b) : Unmarked marked t' b ↔ _ := h.unmarked_iff hstore
  constructor
  · intro hb
    refine ⟨?_, ((hiff b).1 hb.unmarked).2⟩
    induction hb with
    | child hj => exact .child ((hiff _).1 hj).1
    | deeper _ hj ih => exact ih.deeper ((hiff _).1 hj).1
  · rintro ⟨hb, hnot⟩
    induction hb with
    | child hj => exact .child ((hiff _).2 ⟨hj, hnot⟩)
    | @deeper j c _ hj ih =>
      refine (ih fun hc => hnot (.inr ?_)).deeper ((hiff _).2 ⟨hj, hnot⟩)
      rcases hc with rfl | hc
      · exact .child hj
      · exact hc.deeper hj

/-- **The loop comes back to a node after it stored the value in what it reaches from there.** -/
theorem loop_reaches {node : List ℕ} (hfin : {b | Reached marked t a b}.Finite)
    (ha : ∃ l, a = l ++ node) :
    ∃ t' k, Stored store t t' (Reached marked t a) ∧ nextChild marked t' a = none ∧
      ∀ rounds, loop marked store node (rounds + k) a t = loop marked store node rounds a t' := by
  -- by induction on the number of nodes that are not done
  induction hn : {b | Reached marked t a b}.ncard using Nat.strong_induction_on
    generalizing t a with
  | _ n ih =>
    cases hnext : nextChild marked t a with
    | none =>
      have hnone : ∀ b, ¬ Reached marked t a b := fun b => not_reached (nextChild_eq_none hnext)
      exact ⟨t, 0, ⟨fun b hb => absurd hb (hnone b), fun _ _ => rfl⟩, hnext, fun _ => rfl⟩
    | some i =>
      have hi := nextChild_eq_some hnext
      have hchild : i :: a ∈ {b | Reached marked t a b} := .child hi
      -- down to the child, and through what is below it
      have hsub : {b | Reached marked t (i :: a) b} ⊂ {b | Reached marked t a b} := by
        exact (Set.ssubset_iff_of_subset fun b hb => Through.reached hi (.inr hb)).2
          ⟨i :: a, hchild, not_reached_self⟩
      obtain ⟨l, rfl⟩ := ha
      obtain ⟨t1, k1, hstored, hdone, hloop⟩ := ih _ (hn ▸ Set.ncard_lt_ncard hsub hfin)
        (hfin.subset hsub.1) ⟨i :: l, rfl⟩ rfl
      -- back to the node, with the child marked
      have hstored' := stored_modify hstored
      have hiff (b) : Reached marked (modify store t1 _) _ b ↔ _ := hstored'.reached_iff hstore
      have hrest := (Set.ssubset_iff_of_subset fun b hb => ((hiff b).1 hb).1).2
        ⟨_, hchild, fun hself => ((hiff _).1 hself).2 (.inl rfl)⟩
      obtain ⟨t2, k2, hstored2, hdone2, hloop2⟩ := ih _ (hn ▸ Set.ncard_lt_ncard hrest hfin)
        (hfin.subset hrest.1) ⟨l, rfl⟩ rfl
      refine ⟨t2, k2 + 1 + k1 + 1, ⟨fun b hb => ?_, fun b hb => ?_⟩, hdone2, fun rounds => ?_⟩
      · by_cases hthrough : Through marked t (l ++ node) i b
        · rw [← hstored'.inside b hthrough]
          exact hstored2.outside b fun hr => ((hiff b).1 hr).2 hthrough
        · rw [← hstored'.outside b hthrough]
          exact hstored2.inside b ((hiff b).2 ⟨hb, hthrough⟩)
      · rw [← hstored'.outside b fun hthrough => hb (hthrough.reached hi)]
        exact hstored2.outside b fun hr => hb ((hiff b).1 hr).1
      · have hne : i :: l ++ node ≠ node := fun heq => cons_ne_nil i l (append_left_eq_self.1 heq)
        rw [← Nat.add_assoc, ← Nat.add_assoc, loop_child hnext, hloop, ← Nat.add_assoc,
          loop_parent hdone hne, hloop2]

/-- **The loop returns.** -/
theorem loop_returns (hfin : {b | (t.node b).isSome}.Finite) (node : List ℕ) :
    ∃ rounds t', loop marked store node rounds node t = some t' ∧
      Stored store t t' (Reached marked t node) := by
  have hreached : {b | Reached marked t node b}.Finite := by
    refine hfin.subset fun b hb => ?_
    obtain ⟨n, hn, -⟩ := Reached.unmarked hb
    rw [Set.mem_ofPred_eq, hn]
    rfl
  obtain ⟨t', k, hstored, hdone, hloop⟩ := loop_reaches hstore hreached ⟨[], rfl⟩
  refine ⟨0 + 1 + k, t', ?_, hstored⟩
  rw [hloop, loop_node hdone]

end Marking

/-! ### The operations and the root of the file system -/

namespace Vfs

open Marking

/-- `vfs_ops_t`: the addresses of the functions. -/
structure OpsTable where
  openOp : ℕ
  postOpen : ℕ
  close : ℕ
  read : ℕ
  write : ℕ
  seek : ℕ
  deriving DecidableEq, Repr

/-- The fields of a node that are set. -/
structure MountNode where
  ops : OpsTable
  fsRoot : Option (List ℕ)
  deriving DecidableEq, Repr

abbrev MountTree := NameTree (List UInt8) MountNode

/-- Whether a node is passed by in `set_child_ops`. -/
def sameOpen (ops : OpsTable) (n : MountNode) : Bool := n.ops.openOp == ops.openOp

/-- Whether a node is passed by in `set_child_fs_root`. -/
def sameRoot (fsRoot : Option (List ℕ)) (n : MountNode) : Bool := n.fsRoot == fsRoot

/-- `set_child_ops`. -/
def setChildOps (rounds : ℕ) (t : MountTree) (node : List ℕ) (ops : OpsTable) : Option MountTree :=
  loop (sameOpen ops) (fun n => { n with ops := ops }) node rounds node t

/-- `set_child_fs_root`. -/
def setChildFsRoot (rounds : ℕ) (t : MountTree) (node : List ℕ) (fsRoot : Option (List ℕ)) :
    Option MountTree :=
  loop (sameRoot fsRoot) (fun n => { n with fsRoot := fsRoot }) node rounds node t

/-- The address `b` is below `a`. -/
def Below (a b : List ℕ) : Prop := ∃ i l, b = i :: (l ++ a)

/-- All nodes below `a` with the property `P` have the value `v`. -/
def AllBelow {γ : Type} (field : MountNode → γ) (v : γ) (t : MountTree) (a : List ℕ)
    (P : List ℕ → Prop) : Prop :=
  ∀ b n, Below a b → P b → t.node b = some n → field n.data = v

theorem allBelow_of_stored {γ : Type} {field : MountNode → γ} {v : γ} {marked : MountNode → Bool}
    {store : MountNode → MountNode} {t t' : MountTree} {a : List ℕ}
    (hfield : ∀ n, field (store n) = v) (h : Stored store t t' (Reached marked t a)) :
    (∀ b, ¬ Below a b → t'.node b = t.node b) ∧
      (AllBelow field v t' a (fun _ => True) ↔
        AllBelow field v t a fun b => ¬ Reached marked t a b) := by
  refine ⟨fun b hb => h.outside b fun hr => hb hr.exists_append, fun hall b n hb hnot hn => ?_,
    fun hall b n hb _ hn => ?_⟩
  · exact hall b n hb trivial (by rw [h.outside b hnot, hn])
  · by_cases hr : Reached marked t a b
    · rw [h.inside b hr, Option.map_eq_some_iff] at hn
      obtain ⟨n', -, rfl⟩ := hn
      exact hfield n'.data
    · exact hall b n hb hr (by rw [← h.outside b hr, hn])

/-- **Both functions return and change only what is below the node.  All that is there has the value
afterwards exactly when the nodes have it to which every way has a marked node**: those are passed
by, with all that is below them. -/
theorem setChild_complete_iff (t : MountTree) (hfin : {b | (t.node b).isSome}.Finite)
    (a : List ℕ) (ops : OpsTable) (fsRoot : Option (List ℕ)) :
    (∃ rounds t', setChildOps rounds t a ops = some t' ∧
      (∀ b, ¬ Below a b → t'.node b = t.node b) ∧
      (AllBelow MountNode.ops ops t' a (fun _ => True) ↔
        AllBelow MountNode.ops ops t a fun b => ¬ Reached (sameOpen ops) t a b)) ∧
    ∃ rounds t', setChildFsRoot rounds t a fsRoot = some t' ∧
      (∀ b, ¬ Below a b → t'.node b = t.node b) ∧
      (AllBelow MountNode.fsRoot fsRoot t' a (fun _ => True) ↔
        AllBelow MountNode.fsRoot fsRoot t a fun b => ¬ Reached (sameRoot fsRoot) t a b) := by
  constructor
  · obtain ⟨rounds, t', hloop, hstored⟩ := @loop_returns _ _ (sameOpen ops)
      (fun n => { n with ops := ops }) t (fun _ => beq_self_eq_true _) hfin a
    exact ⟨rounds, t', hloop, allBelow_of_stored (fun _ => rfl) hstored⟩
  · obtain ⟨rounds, t', hloop, hstored⟩ := @loop_returns _ _ (sameRoot fsRoot)
      (fun n => { n with fsRoot := fsRoot }) t (fun _ => beq_self_eq_true _) hfin a
    exact ⟨rounds, t', hloop, allBelow_of_stored (fun _ => rfl) hstored⟩

/-- The operations of a file system, and other ones. -/
def someOps : OpsTable := ⟨1, 1, 1, 1, 1, 1⟩

def otherOps : OpsTable := ⟨2, 2, 2, 2, 2, 2⟩

/-- A directory that has the operations and the root already, with a file that does not. -/
def markedChild : MountTree where
  node
    | [] => some ⟨[], 1, ⟨otherOps, none⟩⟩
    | [0] => some ⟨[97], 1, ⟨someOps, some []⟩⟩
    | [0, 0] => some ⟨[98], 0, ⟨otherOps, none⟩⟩
    | _ => none
  root := rfl
  parent i a h := by
    split at h
    · contradiction
    · rename_i heq
      cases heq
      exact ⟨_, rfl, Nat.zero_lt_one⟩
    · rename_i heq
      cases heq
      exact ⟨_, rfl, Nat.zero_lt_one⟩
    · cases h

/-- The only node below the directory. -/
theorem below_markedChild {b : List ℕ} {n : NameTree.Node (List UInt8) MountNode}
    (hb : Below [0] b) (hn : markedChild.node b = some n) : b = [0, 0] := by
  obtain ⟨i, l, rfl⟩ := hb
  simp only [markedChild] at hn
  split at hn
  · contradiction
  · rename_i heq
    simp at heq
  · rename_i heq
    exact heq
  · cases hn

/-- All that is below the directory gets the operations and the root. -/
theorem setChild_complete_iff_markedChild :
    (∃ rounds t', setChildOps rounds markedChild [0] someOps = some t' ∧
      (∀ b, ¬ Below [0] b → t'.node b = markedChild.node b) ∧
      AllBelow MountNode.ops someOps t' [0] fun _ => True) ∧
    ∃ rounds t', setChildFsRoot rounds markedChild [0] (some []) = some t' ∧
      (∀ b, ¬ Below [0] b → t'.node b = markedChild.node b) ∧
      AllBelow MountNode.fsRoot (some []) t' [0] fun _ => True := by
  have hfin : {b | (markedChild.node b).isSome}.Finite := by
    refine (Set.toFinite {[], [0], [0, 0]}).subset fun b hb => ?_
    revert hb
    simp only [markedChild, Set.mem_ofPred_eq]
    split <;> simp
  obtain ⟨⟨r1, t1, h1, hout1, hiff1⟩, r2, t2, h2, hout2, hiff2⟩ :=
    setChild_complete_iff markedChild hfin [0] someOps (some [])
  refine ⟨⟨r1, t1, h1, hout1, hiff1.2 ?_⟩, r2, t2, h2, hout2, hiff2.2 ?_⟩
  · intro b n hb hnot hn
    obtain rfl := below_markedChild hb hn
    exact absurd (.child ⟨_, rfl, by decide⟩) hnot
  · intro b n hb hnot hn
    obtain rfl := below_markedChild hb hn
    exact absurd (.child ⟨_, rfl, by decide⟩) hnot

/-- **A file below a directory that has the value is not changed.** -/
theorem setChild_skips_marked :
    (setChildOps 1 markedChild [] someOps).map (fun t => (t.node [0, 0]).map (·.data.ops)) =
        some (some otherOps) ∧
      (setChildFsRoot 1 markedChild [] (some [])).map
        (fun t => (t.node [0, 0]).map (·.data.fsRoot)) = some (some none) := by
  decide

end Vfs

end DripOS
