import DripOS.Klibc.Vector
import DripOS.Lib.Outcome
import Mathlib.Algebra.Group.Nat.Defs
import Mathlib.Data.List.GetD

/-!
# The block of a vector

`src/klibc/vector.c` with the block that holds the items.  It has the words that were asked for, and
an access outside of it is a fault.  `krealloc` keeps what fits into the new block; the other words
are those of an arbitrary `junk`.  A block of `2^63` bytes does not exist.

* `VectorBlock.Represents` : the items are those of a list, in a block of `max_items` words;
* `VectorBlock.foldlM_represents` : **every sequence of calls is one of operations on a list**, and
  no access leaves the block;
* `VectorBlock.represents_vectorT` : a `VectorT`, which has no end, is represented by a block.
-/

namespace DripOS

open List

/-- Why a function of a vector does not return. -/
inductive VectorHalt where
  | outOfMemory
  | fault
  deriving DecidableEq, Repr

/-- `vector_t`, with the words of its block. -/
structure VectorBlock where
  /-- The words from `items` on, also those behind the items. -/
  items : List ℕ
  /-- The number of words that were asked for. -/
  maxItems : ℕ
  /-- The number of words that are items. -/
  itemsCount : ℕ

namespace VectorBlock

/-! ### The model -/

/-- `PTR_SIZE`. -/
def ptrSize : ℕ := 8

/-- `krealloc`: the first words stay. -/
def krealloc (junk : ℕ → ℕ) (items : List ℕ) (size : ℕ) : Except VectorHalt (List ℕ) :=
  if size < 2 ^ 63 then
    .ok (items.take (size / ptrSize) ++ (range (size / ptrSize - items.length)).map junk)
  else .error .outOfMemory

def load (items : List ℕ) (i : ℕ) : Except VectorHalt ℕ :=
  match items[i]? with
  | some x => .ok x
  | none => .error .fault

def store (items : List ℕ) (i x : ℕ) : Except VectorHalt (List ℕ) :=
  if i < items.length then .ok (items.set i x) else .error .fault

/-- `vector_init`. -/
def vectorInit (junk : ℕ → ℕ) : VectorBlock := ⟨(range 4).map junk, 4, 0⟩

/-- `vector_get`. -/
def vectorGet (v : VectorBlock) (index : ℕ) : Except VectorHalt ℕ :=
  if index < v.itemsCount then load v.items index else .ok 0

/-- `vector_resize`. -/
def vectorResize (v : VectorBlock) (junk : ℕ → ℕ) (newSize : ℕ) :
    Except VectorHalt VectorBlock := do
  let items ← krealloc junk v.items (newSize * ptrSize % 2 ^ 64)
  pure { v with items := items, maxItems := newSize }

/-- `vector_add`. -/
def vectorAdd (v : VectorBlock) (junk : ℕ → ℕ) (newItem : ℕ) : Except VectorHalt VectorBlock := do
  let v ← (if v.maxItems = v.itemsCount then v.vectorResize junk ((v.maxItems + 4) % 2 ^ 64)
    else pure v)
  let items ← store v.items v.itemsCount newItem
  pure { v with items := items, itemsCount := (v.itemsCount + 1) % 2 ^ 64 }

/-- The loop of `vector_delete`, with the number of rounds that are left. -/
def shiftLoop : (rounds i : ℕ) → (items : List ℕ) → Except VectorHalt (List ℕ)
  | 0, _, items => .ok items
  | rounds + 1, i, items => do
    let next ← load items (i + 1)
    let items ← store items i next
    let items ← store items (i + 1) 0
    shiftLoop rounds (i + 1) items

/-- `vector_delete`. -/
def vectorDelete (v : VectorBlock) (junk : ℕ → ℕ) (index : ℕ) : Except VectorHalt VectorBlock :=
  if index ≥ v.itemsCount then .ok v
  else do
    let items ← store v.items index 0
    let items ← shiftLoop (v.itemsCount - 1 - index) index items
    let v := { v with items := items, itemsCount := v.itemsCount - 1 }
    if v.itemsCount > 0 ∧ v.itemsCount = v.maxItems / 2 then v.vectorResize junk (v.maxItems / 2)
    else pure v

/-- A call, with what is in a new block. -/
inductive Call where
  | add (newItem : ℕ) (junk : ℕ → ℕ)
  | delete (index : ℕ) (junk : ℕ → ℕ)
  | get (index : ℕ)

def step (v : VectorBlock) : Call → Except VectorHalt VectorBlock
  | .add newItem junk => v.vectorAdd junk newItem
  | .delete index junk => v.vectorDelete junk index
  | .get index => v.vectorGet index >>= fun _ => pure v

/-! ### Vectors as lists -/

/-- What a call does to the list. -/
def listStep (l : List ℕ) : Call → List ℕ
  | .add newItem _ => l ++ [newItem]
  | .delete index _ => l.eraseIdx index
  | .get _ => l

/-- The items are those of the list, and the block has `max_items` words. -/
structure Represents (v : VectorBlock) (l : List ℕ) : Prop where
  count : v.itemsCount = l.length
  items : ∃ rest, v.items = l ++ rest
  length : v.items.length = v.maxItems
  small : v.maxItems < 2 ^ 60

/-- Only a vector of very many items needs a block that does not exist. -/
def TooLarge (n : ℕ) (e : VectorHalt) : Prop := e = .outOfMemory ∧ 2 ^ 60 ≤ n

variable {v : VectorBlock} {l front back : List ℕ} {n x y : ℕ} (junk : ℕ → ℕ)

theorem load_append : load (front ++ x :: back) front.length = .ok x := by
  simp [load]

theorem store_append : store (front ++ x :: back) front.length y = .ok (front ++ y :: back) := by
  simp [store]

theorem Represents.le (h : v.Represents l) : l.length ≤ v.maxItems := by
  obtain ⟨rest, hrest⟩ := h.items
  rw [← h.length, hrest, length_append]
  exact Nat.le_add_right _ _

/-- A block that is large enough for the items keeps them. -/
theorem vectorResize_ok (hitems : ∃ rest, v.items = l ++ rest) (hl : l.length ≤ n)
    (hn : n < 2 ^ 60) :
    ∃ items, v.vectorResize junk n = .ok ⟨items, n, v.itemsCount⟩ ∧ items.length = n ∧
      ∃ rest, items = l ++ rest := by
  obtain ⟨rest, hrest⟩ := hitems
  have hbytes : n * ptrSize % 2 ^ 64 = n * 8 := Nat.mod_eq_of_lt (by unfold ptrSize; omega)
  refine ⟨v.items.take n ++ (range (n - v.items.length)).map junk, ?_, ?_, ?_⟩
  · rw [vectorResize, hbytes, krealloc, if_pos (by omega), ptrSize,
      Nat.mul_div_cancel n (by decide)]
    rfl
  · simp
    omega
  · rw [hrest, take_append, take_of_length_le hl, append_assoc]
    exact ⟨_, rfl⟩

/-- The shifting of the items behind a free word. -/
theorem shiftLoop_append (front moved back : List ℕ) :
    shiftLoop moved.length front.length (front ++ 0 :: (moved ++ back)) =
      .ok (front ++ (moved ++ 0 :: back)) := by
  induction moved generalizing front with
  | nil => rfl
  | cons x moved ih =>
    have hlen (y : ℕ) : front.length + 1 = (front ++ [y]).length := by simp
    have hload : load (front ++ 0 :: x :: (moved ++ back)) (front.length + 1) = .ok x := by
      rw [append_cons, hlen 0]
      exact load_append
    have hzero : store (front ++ x :: x :: (moved ++ back)) (front.length + 1) 0 =
        .ok ((front ++ [x]) ++ 0 :: (moved ++ back)) := by
      rw [append_cons, hlen x]
      exact store_append
    rw [length_cons, cons_append, shiftLoop, hload, ok_bind, store_append, ok_bind, hzero, ok_bind,
      hlen x, ih (front ++ [x])]
    simp

theorem Represents.vectorGet (h : v.Represents l) (i : ℕ) : v.vectorGet i = .ok (l.getD i 0) := by
  obtain ⟨rest, hrest⟩ := h.items
  unfold VectorBlock.vectorGet load
  rw [h.count, hrest]
  split_ifs with hi
  · rw [getElem?_append_left hi, getElem?_eq_getElem hi, getD_eq_getElem _ _ hi]
  · rw [getD_eq_default _ _ (Nat.le_of_not_lt hi)]

theorem Represents.vectorAdd (h : v.Represents l) (hn : l.length + 4 ≤ n) (x : ℕ) :
    Ensures (TooLarge n) (v.vectorAdd junk x) (Represents · (l ++ [x])) := by
  have hle := h.le
  have hsmall := h.small
  -- behind the items there is a word of the block, which may be a new one
  have hroom : Ensures (TooLarge n) (if v.maxItems = v.itemsCount then
      v.vectorResize junk ((v.maxItems + 4) % 2 ^ 64) else pure v)
      fun v' => v'.Represents l ∧ l.length < v'.maxItems := by
    rw [h.count]
    split_ifs with hfull
    · rw [Nat.mod_eq_of_lt (by omega)]
      by_cases hfit : v.maxItems + 4 < 2 ^ 60
      · obtain ⟨items, hresize, hlen, hitems⟩ := vectorResize_ok junk h.items (by omega) hfit
        rw [hresize]
        exact ⟨⟨h.count, hitems, hlen, hfit⟩, by dsimp only; omega⟩
      · have hbytes : ¬ (v.maxItems + 4) * ptrSize % 2 ^ 64 < 2 ^ 63 := by
          unfold ptrSize
          omega
        rw [vectorResize, krealloc, if_neg hbytes]
        exact ⟨rfl, by omega⟩
    · exact ⟨h, by omega⟩
  refine hroom.bind fun v' hv' => ?_
  obtain ⟨h', hlt⟩ := hv'
  obtain ⟨rest, hrest⟩ := h'.items
  have hlen := h'.length
  rw [hrest, length_append] at hlen
  obtain ⟨old, rest, rfl⟩ := exists_cons_of_length_pos (l := rest) (by omega)
  have hsmall' := h'.small
  rw [h'.count, hrest, store_append, ok_bind]
  refine ⟨?_, ⟨rest, append_cons _ _ _⟩, ?_, hsmall'⟩
  · show (l.length + 1) % 2 ^ 64 = _
    rw [Nat.mod_eq_of_lt (by omega), length_append, length_singleton]
  · simpa using hlen

theorem Represents.vectorDelete (h : v.Represents l) (i : ℕ) :
    ∃ v', v.vectorDelete junk i = .ok v' ∧ v'.Represents (l.eraseIdx i) := by
  unfold VectorBlock.vectorDelete
  rw [h.count]
  split_ifs with hi
  · rw [eraseIdx_of_length_le hi]
    exact ⟨v, rfl, h⟩
  · obtain ⟨front, x, back, rfl, rfl⟩ : ∃ front x back, l = front ++ x :: back ∧
        i = front.length := by
      have hlt := Nat.lt_of_not_le hi
      refine ⟨l.take i, l[i], l.drop (i + 1), ?_, ?_⟩
      · rw [← drop_eq_getElem_cons hlt, take_append_drop]
      · rw [length_take_of_le hlt.le]
    obtain ⟨rest, hrest⟩ := h.items
    have hrounds : (front ++ x :: back).length - 1 - front.length = back.length := by simp
    have hcount : (front ++ x :: back).length - 1 = (front ++ back).length := by simp
    have herase : (front ++ x :: back).eraseIdx front.length = front ++ back := by
      simp [eraseIdx_append_of_length_le]
    have hlen : (front ++ (back ++ 0 :: rest)).length = v.maxItems := by
      rw [← h.length, hrest]
      simp
      omega
    rw [hrest, append_assoc, cons_append, store_append, ok_bind, hrounds, shiftLoop_append, ok_bind,
      hcount, herase]
    have hitems : front ++ (back ++ 0 :: rest) = front ++ back ++ 0 :: rest :=
      (append_assoc _ _ _).symm
    dsimp only
    split_ifs with hshrink
    · have hhalf : v.maxItems / 2 < 2 ^ 60 := by
        have := h.small
        omega
      obtain ⟨items, hresize, hlen', hitems'⟩ := @vectorResize_ok
        ⟨front ++ (back ++ 0 :: rest), v.maxItems, (front ++ back).length⟩ (front ++ back) _ junk
        ⟨_, hitems⟩ hshrink.2.le hhalf
      exact ⟨_, hresize, rfl, hitems', hlen', hhalf⟩
    · exact ⟨_, rfl, rfl, ⟨_, hitems⟩, hlen, h.small⟩

theorem Represents.step (h : v.Represents l) (hn : l.length + 4 ≤ n) (c : Call) :
    Ensures (TooLarge n) (v.step c) (Represents · (listStep l c)) := by
  cases c with
  | add x junk => exact h.vectorAdd junk hn x
  | delete i junk =>
    obtain ⟨v', hv', h'⟩ := h.vectorDelete junk i
    rw [VectorBlock.step, hv']
    exact h'
  | get i =>
    rw [VectorBlock.step, h.vectorGet i]
    exact h

theorem length_listStep_le (l : List ℕ) (c : Call) : (listStep l c).length ≤ l.length + 1 := by
  cases c with
  | add x junk => simp [listStep]
  | delete i junk => exact Nat.le_succ_of_le (length_eraseIdx_le l i)
  | get i => exact Nat.le_succ _

theorem Represents.foldlM (h : v.Represents l) (calls : List Call)
    (hn : l.length + calls.length + 4 ≤ n) :
    Ensures (TooLarge n) (calls.foldlM VectorBlock.step v)
      (Represents · (calls.foldl listStep l)) := by
  induction calls generalizing v l with
  | nil => exact h
  | cons c calls ih =>
    rw [length_cons] at hn
    have hlen := length_listStep_le l c
    exact (h.step (by omega) c).bind fun v' h' => ih h' (by omega)

theorem represents_init : (vectorInit junk).Represents [] :=
  ⟨rfl, ⟨_, rfl⟩, by simp [vectorInit], show 4 < 2 ^ 60 by decide⟩

/-- **A vector of `Klibc/Vector` is represented by a block.** -/
theorem represents_vectorT (xs : List ℕ) :
    Ensures (TooLarge (xs.length + 4))
      ((xs.map (Call.add · junk)).foldlM VectorBlock.step (vectorInit junk))
      (Represents · (xs.foldl VectorT.vectorAdd .vectorInit).toList) := by
  have hlist : (xs.map (Call.add · junk)).foldl listStep [] =
      (xs.foldl VectorT.vectorAdd .vectorInit).toList := by
    induction xs using List.reverseRecOn with
    | nil => rfl
    | append_singleton xs x ih =>
      rw [map_append, foldl_append, foldl_append, ih]
      exact (VectorT.toList_vectorAdd _ x).symm
  rw [← hlist]
  exact (represents_init junk).foldlM _ (by simp)

/-- **After every sequence of calls the vector represents a list**: an item is appended or removed,
`vector_get` returns the item or null, and the block has `max_items` words and is never left.  Only
after about `2^60` calls the memory may not suffice. -/
theorem foldlM_represents (junk : ℕ → ℕ) (calls : List Call) :
    Ensures (fun e => e = .outOfMemory ∧ 2 ^ 60 ≤ calls.length + 4)
      (calls.foldlM VectorBlock.step (vectorInit junk)) fun v =>
        v.items.take v.itemsCount = calls.foldl listStep [] ∧
        (∀ i, v.vectorGet i = .ok ((calls.foldl listStep []).getD i 0)) ∧
        v.itemsCount ≤ v.maxItems ∧ v.items.length = v.maxItems := by
  refine ((represents_init junk).foldlM calls (Nat.le_of_eq (by simp))).mono fun v h => ?_
  obtain ⟨rest, hrest⟩ := h.items
  refine ⟨?_, h.vectorGet, h.count ▸ h.le, h.length⟩
  rw [hrest, h.count, take_left]

end VectorBlock

end DripOS
