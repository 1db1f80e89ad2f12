import Mathlib.Algebra.Group.Nat.Defs
import Mathlib.Data.List.Nodup

/-!
# The hash map of the kernel

`src/klibc/hashmap.c`: 200 buckets, each a doubly linked list of elements with a reference count.  A
bucket is the list of the elements that its pointer reaches.  The `prev` pointer of an element is
null or points to the element before it, so that one bit records it.

`UNCHAIN_LINKED_LIST` takes an element out only through its `prev` pointer.  An element without one,
such as the first of a bucket, stays in the list with a reference count of zero, and is found again.

`Hashmap.All` is a property of all keys with their data, which every operation keeps.
-/

namespace DripOS

open List Function

universe u

/-- `HASHMAP_BUCKET_SIZE`. -/
def hashmapBucketSize : ℕ := 200

/-- `get_bucket_from_hash`. -/
def getBucketFromHash (hash : ℕ) : ℕ := hash % hashmapBucketSize

/-- `hashmap_elem_t`; `hasPrev` says that the `prev` pointer is not null. -/
structure HashmapElem (α : Type u) where
  key : ℕ
  data : α
  refCount : ℕ
  hasPrev : Bool

/-- `atomic_inc` of the reference count. -/
def HashmapElem.incRef {α : Type u} (e : HashmapElem α) : HashmapElem α :=
  { e with refCount := (e.refCount + 1) % 2 ^ 32 }

/-- `atomic_dec` of the reference count. -/
def HashmapElem.decRef {α : Type u} (e : HashmapElem α) : HashmapElem α :=
  { e with refCount := (e.refCount + (2 ^ 32 - 1)) % 2 ^ 32 }

section

variable {α : Type u} (e : HashmapElem α)

@[simp] theorem HashmapElem.data_incRef : e.incRef.data = e.data := by cases e; rfl

@[simp] theorem HashmapElem.key_decRef : e.decRef.key = e.key := by cases e; rfl

@[simp] theorem HashmapElem.data_decRef : e.decRef.data = e.data := by cases e; rfl

end

/-- A pointer to an element, with the elements around it.  `linked` : the element is still in the
list. -/
structure HashmapCursor (α : Type u) where
  before : List (HashmapElem α)
  elem : HashmapElem α
  after : List (HashmapElem α)
  linked : Bool

/-- `hashmap_t`: the elements that each bucket reaches. -/
structure Hashmap (α : Type u) where
  buckets : ℕ → List (HashmapElem α)

variable {α : Type u}

namespace HashmapCursor

variable (c : HashmapCursor α)

/-- The elements of the bucket. -/
def toList : List (HashmapElem α) :=
  if c.linked then c.before ++ c.elem :: c.after else c.before ++ c.after

/-- `elem->next->prev = elem->prev`. -/
def setPrev (hasPrev : Bool) : List (HashmapElem α) → List (HashmapElem α)
  | [] => []
  | e :: es => { e with hasPrev := hasPrev } :: es

/-- `UNCHAIN_LINKED_LIST`. -/
def unchain : HashmapCursor α :=
  { c with
    linked := c.linked && !c.elem.hasPrev
    after := setPrev c.elem.hasPrev c.after }

/-- `hashmap_unref_elem`. -/
def unref : HashmapCursor α :=
  let c := { c with elem := c.elem.decRef }
  if c.elem.refCount = 0 then c.unchain else c

/-- A change to what the data pointer of the element points to. -/
def modify (f : α → α) : HashmapCursor α := { c with elem := { c.elem with data := f c.elem.data } }

end HashmapCursor

namespace Hashmap

variable (m : Hashmap α) (key : ℕ)

/-- `init_hashmap`. -/
def init : Hashmap α := ⟨fun _ => []⟩

/-- Put an element back in front of what the walk found. -/
def consElem (e : HashmapElem α) :
    HashmapCursor α ⊕ List (HashmapElem α) → HashmapCursor α ⊕ List (HashmapElem α)
  | .inl c => .inl { c with before := e :: c.before }
  | .inr es => .inr (e :: es)

/-- The walk of `hashmap_get_elem_dat` along a bucket: the first element with the key whose
incremented reference count is not zero, or the bucket as the walk leaves it. -/
def findElem : List (HashmapElem α) → HashmapCursor α ⊕ List (HashmapElem α)
  | [] => .inr []
  | e :: es =>
    if e.key = key then
      if e.incRef.refCount ≠ 0 then .inl ⟨[], e.incRef, es, true⟩
      else consElem e.incRef (findElem es)
    else consElem e (findElem es)

/-- `hashmap_get_elem_dat`. -/
def getElemDat : HashmapCursor α ⊕ List (HashmapElem α) :=
  findElem key (m.buckets (getBucketFromHash key))

/-- The map with a new list of elements in the bucket of a key. -/
def setBucket (es : List (HashmapElem α)) : Hashmap α :=
  ⟨update m.buckets (getBucketFromHash key) es⟩

/-- `hashmap_remove_elem`. -/
def removeElem : Hashmap α :=
  match m.getElemDat key with
  | .inl c => m.setBucket key c.unref.unref.toList
  | .inr es => m.setBucket key es

/-- `hashmap_get_elem`, followed by a change `f` to what it points to. -/
def updateElem (f : α → α) : Hashmap α :=
  match m.getElemDat key with
  | .inl c => m.setBucket key (c.modify f).unref.toList
  | .inr es => m.setBucket key es

/-- `hashmap_get_elem`: the data, if any, and the map afterwards. -/
def getElem : Option α × Hashmap α :=
  match m.getElemDat key with
  | .inl c => (some c.elem.data, m.setBucket key c.unref.toList)
  | .inr es => (none, m.setBucket key es)

/-- `CHAIN_LINKED_LIST` behind the first element of a bucket. -/
def chainElem (e : HashmapElem α) : List (HashmapElem α) → List (HashmapElem α)
  | [] => [e]
  | head :: es => head :: { e with hasPrev := true } :: HashmapCursor.setPrev true es

/-- `hashmap_set_elem`. -/
def setElem (data : α) : Hashmap α :=
  match m.getElemDat key with
  | .inl c => m.setBucket key (c.modify fun _ => data).unref.toList
  | .inr es => m.setBucket key (chainElem ⟨key, data, 1, false⟩ es)

/-- `HASHMAP_ITERABLE` with a body that drops the first element with `p`, and stops. -/
def dropFirst (p : α → Bool) : Hashmap α :=
  match (List.range hashmapBucketSize).findSome? fun i => (m.buckets i).find? (p ·.data) with
  | some e => m.removeElem e.key
  | none => m

/-! ### Properties of all elements -/

/-- Every key with its data satisfies `P`. -/
def All (P : ℕ → α → Prop) : Prop := ∀ i, ∀ e ∈ m.buckets i, P e.key e.data

variable {m key} {P Q : ℕ → α → Prop} {es : List (HashmapElem α)} {c : HashmapCursor α}

theorem buckets_setBucket (es : List (HashmapElem α)) : (m.setBucket key es).buckets =
    update m.buckets (getBucketFromHash key) es := rfl

theorem all_init : (init : Hashmap α).All P := fun _ _ he => absurd he not_mem_nil

theorem All.imp (h : m.All P) (hPQ : ∀ k d, P k d → Q k d) : m.All Q :=
  fun i e he => hPQ _ _ (h i e he)

theorem All.setBucket (h : m.All P) (hes : ∀ e ∈ es, P e.key e.data) :
    (m.setBucket key es).All P := by
  intro i e he
  by_cases hi : i = getBucketFromHash key
  · subst hi
    rw [buckets_setBucket, update_self] at he
    exact hes e he
  · rw [buckets_setBucket, update_of_ne hi] at he
    exact h i e he

theorem forall_mem_setPrev {b : Bool} {R : HashmapElem α → Prop}
    (hR : ∀ e, R e → R { e with hasPrev := b }) (h : ∀ e ∈ es, R e) :
    ∀ e ∈ HashmapCursor.setPrev b es, R e := by
  cases es with
  | nil => exact h
  | cons e es => exact forall_mem_cons.2 ⟨hR e (forall_mem_cons.1 h).1, (forall_mem_cons.1 h).2⟩

/-- All elements around a pointer, and the one it points to, satisfy `P`. -/
def CursorAll (P : ℕ → α → Prop) (c : HashmapCursor α) : Prop :=
  (∀ e ∈ c.before, P e.key e.data) ∧ P c.elem.key c.elem.data ∧ ∀ e ∈ c.after, P e.key e.data

theorem CursorAll.toList (h : CursorAll P c) : ∀ e ∈ c.toList, P e.key e.data := by
  unfold HashmapCursor.toList
  split
  · exact forall_mem_append.2 ⟨h.1, forall_mem_cons.2 h.2⟩
  · exact forall_mem_append.2 ⟨h.1, h.2.2⟩

theorem CursorAll.unchain (h : CursorAll P c) : CursorAll P c.unchain :=
  ⟨h.1, h.2.1, forall_mem_setPrev (fun _ h => h) h.2.2⟩

theorem CursorAll.unref (h : CursorAll P c) : CursorAll P c.unref := by
  have helem : P c.elem.decRef.key c.elem.decRef.data := by simpa using h.2.1
  have hdec : CursorAll P { c with elem := c.elem.decRef } := ⟨h.1, helem, h.2.2⟩
  unfold HashmapCursor.unref
  dsimp only
  split
  · exact hdec.unchain
  · exact hdec

/-- What the walk leaves satisfies `P`, and it stops at an element with the key. -/
def FoundAll (P : ℕ → α → Prop) (key : ℕ) : HashmapCursor α ⊕ List (HashmapElem α) → Prop
  | .inl c => c.elem.key = key ∧ CursorAll P c
  | .inr es => ∀ e ∈ es, P e.key e.data

theorem FoundAll.consElem {r : HashmapCursor α ⊕ List (HashmapElem α)} (h : FoundAll P key r)
    {e : HashmapElem α} (he : P e.key e.data) : FoundAll P key (consElem e r) := by
  cases r with
  | inl c => exact ⟨h.1, forall_mem_cons.2 ⟨he, h.2.1⟩, h.2.2⟩
  | inr es => exact forall_mem_cons.2 ⟨he, h⟩

theorem findElem_all {es : List (HashmapElem α)} (h : ∀ e ∈ es, P e.key e.data) :
    FoundAll P key (findElem key es) := by
  induction es with
  | nil => exact h
  | cons e es ih =>
    obtain ⟨he, hes⟩ := forall_mem_cons.1 h
    unfold findElem
    split_ifs with hk
    · exact ⟨hk, fun _ hn => absurd hn not_mem_nil, he, hes⟩
    · exact (ih hes).consElem he
    · exact (ih hes).consElem he

theorem All.getElem (h : m.All P) :
    (∀ d, (m.getElem key).1 = some d → P key d) ∧ (m.getElem key).2.All P := by
  have hfind := @findElem_all _ key P _ (h (getBucketFromHash key))
  unfold Hashmap.getElem getElemDat
  cases hc : findElem key (m.buckets (getBucketFromHash key)) with
  | inl c =>
    rw [hc] at hfind
    refine ⟨fun d hd => ?_, h.setBucket hfind.2.unref.toList⟩
    obtain rfl := Option.some.inj hd
    exact hfind.1 ▸ hfind.2.2.1
  | inr es =>
    rw [hc] at hfind
    exact ⟨fun d hd => (Option.some_ne_none d hd.symm).elim, h.setBucket hfind⟩

theorem All.removeElem (h : m.All P) : (m.removeElem key).All P := by
  have hfind := @findElem_all _ key P _ (h (getBucketFromHash key))
  unfold Hashmap.removeElem getElemDat
  cases hc : findElem key (m.buckets (getBucketFromHash key)) with
  | inl c =>
    rw [hc] at hfind
    exact h.setBucket hfind.2.unref.unref.toList
  | inr es =>
    rw [hc] at hfind
    exact h.setBucket hfind

theorem All.setElem (h : m.All P) {d : α} (hd : P key d) : (m.setElem key d).All P := by
  have hfind := @findElem_all _ key P _ (h (getBucketFromHash key))
  unfold Hashmap.setElem getElemDat
  cases hc : findElem key (m.buckets (getBucketFromHash key)) with
  | inl c =>
    rw [hc] at hfind
    have hc' : CursorAll P (c.modify fun _ => d) :=
      ⟨hfind.2.1, (hfind.1 ▸ hd : P c.elem.key d), hfind.2.2.2⟩
    exact h.setBucket hc'.unref.toList
  | inr es =>
    rw [hc] at hfind
    refine h.setBucket ?_
    cases es with
    | nil => exact forall_mem_singleton.2 hd
    | cons e es =>
      obtain ⟨he, hes⟩ := forall_mem_cons.1 hfind
      exact forall_mem_cons.2
        ⟨he, forall_mem_cons.2 ⟨hd, forall_mem_setPrev (fun _ h => h) hes⟩⟩

theorem All.dropFirst (h : m.All P) (p : α → Bool) : (m.dropFirst p).All P := by
  unfold Hashmap.dropFirst
  split
  · exact h.removeElem
  · exact h

end Hashmap

end DripOS
