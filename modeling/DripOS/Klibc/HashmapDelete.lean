import DripOS.Klibc.Hashmap
import DripOS.Lib.Run
import DripOS.Mm.Vmm

/-!
# Deleting a hash map

`hashmap_set_elem` and `delete_hashmap` of `src/klibc/hashmap.c`, with the pointers of the elements.
`hashmap->buckets` and `hashmap` are the same address.

A map that was built by `hashmap_set_elem` has a doubly linked list for each bucket (`Built`).
`delete_hashmap` goes to the end of a list, and frees it on the way back down to its second element
(`freedOfBucket_eq`).  Then it frees the map twice.

* `Built.setElem` : every call keeps the lists;
* `not_freesOnce` : no map is freed as it should be.
-/

namespace DripOS

open Function List Option

universe u

variable {α : Type u}

/-- `hashmap_elem_t`. -/
structure HashmapNode (α : Type u) where
  key : ℕ
  data : α
  next : Ptr
  prev : Ptr
  refCount : ℕ

/-- A hash map in memory.  `nodes` are the elements that were allocated. -/
structure HashmapMem (α : Type u) where
  elem : Ptr → HashmapNode α
  buckets : ℕ → Ptr
  nodes : List Ptr

namespace HashmapMem

/-! ### The model -/

/-- A change to an element. -/
def modify (h : HashmapMem α) (p : Ptr) (f : HashmapNode α → HashmapNode α) : HashmapMem α :=
  { h with elem := update h.elem p (f (h.elem p)) }

theorem elem_modify (h : HashmapMem α) (p x : Ptr) (f : HashmapNode α → HashmapNode α) :
    (h.modify p f).elem x = if x = p then f (h.elem p) else h.elem x :=
  update_apply ..

/-- `atomic_inc` of the reference count. -/
def incRef (h : HashmapMem α) (p : Ptr) : HashmapMem α :=
  h.modify p fun e => { e with refCount := (e.refCount + 1) % 2 ^ 32 }

/-- `atomic_dec` of the reference count. -/
def decRef (h : HashmapMem α) (p : Ptr) : HashmapMem α :=
  h.modify p fun e => { e with refCount := (e.refCount + (2 ^ 32 - 1)) % 2 ^ 32 }

/-- `UNCHAIN_LINKED_LIST`. -/
def unchainLinkedList (h : HashmapMem α) (elem : Ptr) : HashmapMem α :=
  let h := if (h.elem elem).prev ≠ 0 then
      h.modify (h.elem elem).prev fun e => { e with next := (h.elem elem).next } else h
  if (h.elem elem).next ≠ 0 then
    h.modify (h.elem elem).next fun e => { e with prev := (h.elem elem).prev } else h

/-- `CHAIN_LINKED_LIST`. -/
def chainLinkedList (h : HashmapMem α) (after newElem : Ptr) : HashmapMem α :=
  let h := h.modify newElem fun e => { e with next := (h.elem after).next }
  let h := h.modify newElem fun e => { e with prev := after }
  let h := if (h.elem newElem).next ≠ 0 then
      h.modify (h.elem newElem).next fun e => { e with prev := newElem } else h
  h.modify after fun e => { e with next := newElem }

/-- `hashmap_unref_elem`. -/
def unrefElem (h : HashmapMem α) (elem : Ptr) : HashmapMem α :=
  let h := h.decRef elem
  if (h.elem elem).refCount = 0 then h.unchainLinkedList elem else h

/-- The loop of `hashmap_get_elem_dat` at `cur`; `none` when it does not end within `fuel`
rounds. -/
def getElemDatLoop (key : ℕ) : (fuel : ℕ) → (cur : Ptr) → HashmapMem α → Option (Ptr × HashmapMem α)
  | 0, _, _ => none
  | fuel + 1, cur, h =>
    if cur = 0 then some (0, h)
    else if (h.elem cur).key = key then
      let h := h.incRef cur
      if (h.elem cur).refCount ≠ 0 then some (cur, h)
      else getElemDatLoop key fuel (h.elem cur).next h
    else getElemDatLoop key fuel (h.elem cur).next h

/-- `hashmap_get_elem_dat`. -/
def getElemDat (h : HashmapMem α) (fuel key : ℕ) : Option (Ptr × HashmapMem α) :=
  getElemDatLoop key fuel (h.buckets (getBucketFromHash key)) h

/-- `hashmap_set_elem`; `new` is the address that `kcalloc` returns. -/
def setElem (h : HashmapMem α) (fuel key : ℕ) (data : α) (new : Ptr) : Option (HashmapMem α) := do
  let r ← h.getElemDat fuel key
  let h := r.2
  if r.1 ≠ 0 then
    let h := h.modify r.1 fun e => { e with data := data }
    some (h.unrefElem r.1)
  else
    let bucket := getBucketFromHash key
    let h := { h with
      elem := update h.elem new ⟨key, data, 0, 0, 1⟩
      nodes := new :: h.nodes }
    if h.buckets bucket ≠ 0 then some (h.chainLinkedList (h.buckets bucket) new)
    else some { h with buckets := update h.buckets bucket new }

/-- `while (cur_element->next) cur_element = cur_element->next`. -/
def lastElem (h : HashmapMem α) : (fuel : ℕ) → (cur : Ptr) → Option Ptr
  | 0, _ => none
  | fuel + 1, cur =>
    if (h.elem cur).next ≠ 0 then h.lastElem fuel (h.elem cur).next else some cur

/-- The loop of `delete_hashmap` back along the `prev` pointers: the addresses that are freed. -/
def freeBack (h : HashmapMem α) : (fuel : ℕ) → (cur : Ptr) → Option (List Ptr)
  | 0, _ => none
  | fuel + 1, cur =>
    if (h.elem cur).prev ≠ 0 then
      (h.freeBack fuel (h.elem cur).prev).map ((h.elem (h.elem cur).prev).next :: ·)
    else some []

/-- The body of the loop of `delete_hashmap`. -/
def freedOfBucket (h : HashmapMem α) (fuel i : ℕ) : Option (List Ptr) :=
  if h.buckets i ≠ 0 then (h.lastElem fuel (h.buckets i)).bind (h.freeBack fuel) else some []

/-- The offset of `buckets` in `hashmap_t`. -/
def bucketsOffset : ℕ := 0

/-- `delete_hashmap`: the addresses that are freed, in order. -/
def deleteHashmap (h : HashmapMem α) (fuel : ℕ) (hashmap : Ptr) : Option (List Ptr) :=
  ((List.range hashmapBucketSize).mapM (h.freedOfBucket fuel)).map fun freed =>
    freed.flatten ++ [hashmap + bucketsOffset, hashmap]

/-- `init_hashmap`. -/
def init [Inhabited α] : HashmapMem α := ⟨fun _ => ⟨0, default, 0, 0, 0⟩, fun _ => 0, []⟩

/-- Every element and the map are freed once, and nothing else. -/
def FreesOnce (h : HashmapMem α) (hashmap : Ptr) (freed : List Ptr) : Prop :=
  ∀ p, freed.count p = if p = hashmap ∨ p ∈ h.nodes then 1 else 0

variable {h h' : HashmapMem α} {key : ℕ} {data : α}

/-! ### Doubly linked lists -/

/-- The elements `ps` are linked in this order, from `cur` on, behind `prev`. -/
def Chain (elem : Ptr → HashmapNode α) : (prev cur : Ptr) → List Ptr → Prop
  | _, cur, [] => cur = 0
  | prev, cur, p :: ps => cur = p ∧ p ≠ 0 ∧ (elem p).prev = prev ∧ Chain elem p (elem p).next ps

section Chain

variable {elem elem' : Ptr → HashmapNode α} {prev cur p : Ptr} {ps : List Ptr}

theorem Chain.congr (hc : Chain elem prev cur ps)
    (he : ∀ p ∈ ps, (elem' p).prev = (elem p).prev ∧ (elem' p).next = (elem p).next) :
    Chain elem' prev cur ps := by
  induction ps generalizing prev cur with
  | nil => exact hc
  | cons p ps ih =>
    obtain ⟨hcur, hp, hprev, hrest⟩ := hc
    obtain ⟨⟨hprev', hnext'⟩, he⟩ := forall_mem_cons.1 he
    refine ⟨hcur, hp, hprev'.trans hprev, ?_⟩
    rw [hnext']
    exact ih hrest he

theorem Chain.cur_eq_zero (hc : Chain elem prev cur ps) : cur = 0 ↔ ps = [] := by
  cases ps with
  | nil => exact ⟨fun _ => rfl, fun _ => hc⟩
  | cons p ps =>
    obtain ⟨rfl, hp, -⟩ := hc
    exact ⟨fun h => absurd h hp, fun h => absurd h (cons_ne_nil _ _)⟩

theorem Chain.cases (hc : Chain elem prev cur ps) :
    cur = 0 ∧ ps = [] ∨ cur ≠ 0 ∧ ∃ qs, ps = cur :: qs := by
  cases ps with
  | nil => exact Or.inl ⟨hc, rfl⟩
  | cons p ps =>
    obtain ⟨rfl, hp, -⟩ := hc
    exact Or.inr ⟨hp, ps, rfl⟩

/-- A new element behind the first one. -/
theorem Chain.insert {new : Ptr} (hc : Chain elem 0 cur (p :: ps)) (hnew : new ≠ 0)
    (hcur : (elem' p).prev = 0 ∧ (elem' p).next = new)
    (hnode : (elem' new).prev = p ∧ (elem' new).next = (elem p).next)
    (hnext : ∀ q ∈ ps.head?, (elem' q).prev = new ∧ (elem' q).next = (elem q).next)
    (hrest : ∀ q ∈ ps.tail, (elem' q).prev = (elem q).prev ∧ (elem' q).next = (elem q).next) :
    Chain elem' 0 cur (p :: new :: ps) := by
  obtain ⟨rfl, hp, -, hc⟩ := hc
  refine ⟨rfl, hp, hcur.1, hcur.2, hnew, hnode.1, ?_⟩
  rw [hnode.2]
  cases ps with
  | nil => exact hc
  | cons q qs =>
    obtain ⟨hq, hq0, -, hc⟩ := hc
    obtain ⟨hprev, hnext⟩ := hnext q rfl
    refine ⟨hq, hq0, hprev, ?_⟩
    rw [hnext]
    exact hc.congr hrest

end Chain

/-! ### What `delete_hashmap` frees -/

section Free

variable {prev cur p : Ptr} {ps : List Ptr}

theorem lastElem_eq (hc : Chain h.elem prev cur (p :: ps)) {fuel : ℕ} (hf : ps.length < fuel) :
    h.lastElem fuel cur = some ((p :: ps).getLast (cons_ne_nil _ _)) := by
  induction ps generalizing fuel prev cur p with
  | nil =>
    obtain ⟨n, rfl⟩ := Nat.exists_eq_add_one_of_ne_zero (Nat.ne_of_gt hf)
    obtain ⟨rfl, -, -, hc⟩ := hc
    have hnext : (h.elem cur).next = 0 := hc
    rw [lastElem, if_neg (not_not.2 hnext)]
    rfl
  | cons q qs ih =>
    obtain ⟨n, rfl⟩ := Nat.exists_eq_add_one_of_ne_zero (Nat.ne_of_gt (Nat.zero_lt_of_lt hf))
    obtain ⟨rfl, -, -, hc⟩ := hc
    have hne : (h.elem cur).next ≠ 0 := fun hz => cons_ne_nil _ _ (hc.cur_eq_zero.1 hz)
    rw [lastElem, if_pos hne, ih hc (Nat.lt_of_succ_lt_succ hf)]
    rfl

/-- Going back from the last element to the first one frees all others. -/
theorem freeBack_eq (hc : Chain h.elem prev cur (p :: ps)) (n : ℕ) :
    h.freeBack (ps.length + n) ((p :: ps).getLast (cons_ne_nil _ _)) =
      (h.freeBack n p).map (ps.reverse ++ ·) := by
  induction ps generalizing n prev cur p with
  | nil =>
    rw [length_nil, Nat.zero_add, getLast_singleton]
    cases h.freeBack n p <;> rfl
  | cons q qs ih =>
    obtain ⟨rfl, hp, -, hc⟩ := hc
    have hlen : (q :: qs).length + n = qs.length + (n + 1) := by
      rw [length_cons]
      omega
    have hback : h.freeBack (n + 1) q = (h.freeBack n cur).map (q :: ·) := by
      obtain ⟨hnext, -, hprev, -⟩ := hc
      rw [freeBack, hprev, if_pos hp, hnext]
    rw [hlen, getLast_cons (cons_ne_nil _ _), ih hc (n + 1), hback, Option.map_map]
    refine congrArg (Option.map · _) (funext fun l => ?_)
    rw [comp_apply, reverse_cons, append_assoc, singleton_append]

/-- **The first element of a bucket is not freed.** -/
theorem freedOfBucket_eq {i fuel : ℕ} (hc : Chain h.elem 0 (h.buckets i) ps)
    (hf : ps.length ≤ fuel) : h.freedOfBucket fuel i = some ps.tail.reverse := by
  cases ps with
  | nil =>
    rw [freedOfBucket, if_neg (not_not.2 (hc.cur_eq_zero.2 rfl))]
    rfl
  | cons p ps =>
    have hne : h.buckets i ≠ 0 := fun hz => cons_ne_nil _ _ (hc.cur_eq_zero.1 hz)
    obtain ⟨n, rfl⟩ : ∃ n, fuel = ps.length + (n + 1) := ⟨fuel - ps.length - 1, by
      rw [length_cons] at hf
      omega⟩
    have hfirst : h.freeBack (n + 1) p = some [] := by
      rw [freeBack, hc.2.2.1, if_neg (not_not.2 rfl)]
    rw [freedOfBucket, if_pos hne, lastElem_eq hc (by omega), bind_some, freeBack_eq hc,
      hfirst, map_some, append_nil, tail_cons]

end Free

/-! ### Maps that were built by `hashmap_set_elem` -/

/-- The elements of each bucket are linked, and have one reference. -/
structure Built (h : HashmapMem α) (elems : ℕ → List Ptr) : Prop where
  chain : ∀ i, Chain h.elem 0 (h.buckets i) (elems i)
  refCount : ∀ i, ∀ p ∈ elems i, (h.elem p).refCount = 1
  nodup : ∀ i, (elems i).Nodup
  disjoint : ∀ i j, i ≠ j → ∀ p ∈ elems i, p ∉ elems j
  nodes : ∀ p, p ∈ h.nodes ↔ ∃ i, p ∈ elems i
  length : ∀ i, (elems i).length ≤ h.nodes.length

variable {elems : ℕ → List Ptr} {fuel b : ℕ} {new : Ptr} {h₁ : HashmapMem α}
  {ls : List (ℕ × α × Ptr)}

theorem built_init [Inhabited α] : Built (init : HashmapMem α) fun _ => [] where
  chain _ := rfl
  refCount _ _ hp := absurd hp not_mem_nil
  nodup _ := nodup_nil
  disjoint _ _ _ _ hp := absurd hp not_mem_nil
  nodes _ := ⟨fun hp => absurd hp not_mem_nil, fun ⟨_, hp⟩ => absurd hp not_mem_nil⟩
  length _ := le_rfl

/-- A change that keeps the links and the reference counts. -/
theorem Built.congr (hb : Built h elems) (hbuckets : h'.buckets = h.buckets)
    (hnodes : h'.nodes = h.nodes) (he : ∀ p, (h'.elem p).prev = (h.elem p).prev ∧
      (h'.elem p).next = (h.elem p).next ∧ (h'.elem p).refCount = (h.elem p).refCount) :
    Built h' elems where
  chain i := by
    rw [hbuckets]
    exact (hb.chain i).congr fun p _ => ⟨(he p).1, (he p).2.1⟩
  refCount i p hp := (he p).2.2.trans (hb.refCount i p hp)
  nodup := hb.nodup
  disjoint := hb.disjoint
  nodes p := by
    rw [hnodes]
    exact hb.nodes p
  length i := by
    rw [hnodes]
    exact hb.length i

/-- The count of an element with one reference does not overflow. -/
theorem refCount_incRef_ne_zero {p : Ptr} (href : (h.elem p).refCount = 1) :
    ((h.incRef p).elem p).refCount ≠ 0 := by
  rw [incRef, elem_modify, if_pos rfl, href]
  change (1 + 1) % 2 ^ 32 ≠ 0
  decide

/-- The walk finds an element with the key, or changes nothing. -/
theorem getElemDatLoop_cases {prev cur : Ptr} {ps : List Ptr} (hc : Chain h.elem prev cur ps)
    (href : ∀ p ∈ ps, (h.elem p).refCount = 1) {r : Ptr × HashmapMem α}
    (hr : getElemDatLoop key fuel cur h = some r) :
    (∃ p ∈ ps, p ≠ 0 ∧ r = (p, h.incRef p)) ∨ r = (0, h) := by
  induction ps generalizing fuel prev cur with
  | nil =>
    obtain rfl : cur = 0 := hc
    cases fuel with
    | zero => cases hr
    | succ fuel =>
      cases hr
      exact Or.inr rfl
  | cons p ps ih =>
    obtain ⟨rfl, hp, -, hc⟩ := hc
    obtain ⟨href0, href⟩ := forall_mem_cons.1 href
    cases fuel with
    | zero => cases hr
    | succ fuel =>
      rw [getElemDatLoop, if_neg hp] at hr
      by_cases hkey : (h.elem cur).key = key
      · rw [if_pos hkey] at hr
        rw [if_pos (refCount_incRef_ne_zero href0)] at hr
        cases hr
        exact Or.inl ⟨cur, mem_cons_self, hp, rfl⟩
      · rw [if_neg hkey] at hr
        exact (ih hc href hr).imp_left fun ⟨q, hq, h⟩ => ⟨q, mem_cons_of_mem _ hq, h⟩

theorem Built.replace (hb : Built h elems) {p : Ptr} {i : ℕ} (hp : p ∈ elems i) :
    Built (((h.incRef p).modify p fun e => { e with data := data }).unrefElem p) elems := by
  have href := hb.refCount i p hp
  have hdec : (((h.incRef p).modify p fun e => { e with data := data }).decRef p).elem =
      update h.elem p { h.elem p with data := data } := by
    funext q
    by_cases hq : q = p
    · subst hq
      simp only [decRef, incRef, modify, update_self, href]
      rw [show ((1 + 1) % 2 ^ 32 + (2 ^ 32 - 1)) % 2 ^ 32 = 1 by decide, ← href]
    · simp only [decRef, incRef, modify, update_of_ne hq]
  have hcount : ((((h.incRef p).modify p fun e => { e with data := data }).decRef p).elem
      p).refCount ≠ 0 := by
    rw [hdec, update_self, href]
    decide
  rw [unrefElem, if_neg hcount]
  refine hb.congr rfl rfl fun q => ?_
  rw [hdec]
  by_cases hq : q = p
  · subst hq
    rw [update_self]
    exact ⟨rfl, rfl, rfl⟩
  · rw [update_of_ne hq]
    exact ⟨rfl, rfl, rfl⟩

theorem buckets_chainLinkedList {p : Ptr} : (h.chainLinkedList p new).buckets = h.buckets := by
  unfold chainLinkedList
  dsimp only
  split_ifs <;> rfl

theorem nodes_chainLinkedList {p : Ptr} : (h.chainLinkedList p new).nodes = h.nodes := by
  unfold chainLinkedList
  dsimp only
  split_ifs <;> rfl

theorem elem_chainLinkedList {p : Ptr} (hpn : p ≠ new) (hqp : (h.elem p).next ≠ p)
    (hqn : (h.elem p).next ≠ new) (x : Ptr) :
    (h.chainLinkedList p new).elem x =
      if x = p then { h.elem p with next := new }
      else if x = new then { h.elem new with next := (h.elem p).next, prev := p }
      else if (h.elem p).next ≠ 0 ∧ x = (h.elem p).next then { h.elem x with prev := new }
      else h.elem x := by
  -- the new element after its two assignments
  obtain ⟨h₁, hh1⟩ : ∃ h₁, (h.modify new fun e => { e with next := (h.elem p).next }).modify new
      (fun e => { e with prev := p }) = h₁ := ⟨_, rfl⟩
  have hnew : h₁.elem new = { h.elem new with next := (h.elem p).next, prev := p } := by
    rw [← hh1, elem_modify, if_pos rfl, elem_modify, if_pos rfl]
  have hother : ∀ x, x ≠ new → h₁.elem x = h.elem x := fun x hx => by
    rw [← hh1, elem_modify, if_neg hx, elem_modify, if_neg hx]
  obtain ⟨q, hq⟩ : ∃ q, (h.elem p).next = q := ⟨_, rfl⟩
  rw [hq] at hqp hqn hnew
  unfold chainLinkedList
  dsimp only
  rw [hh1, hnew, hq]
  by_cases hz : q = 0
  · rw [if_neg (not_not.2 hz), elem_modify]
    by_cases hx : x = p
    · rw [if_pos hx, if_pos hx, hother p hpn]
    · rw [if_neg hx, if_neg hx]
      by_cases hxn : x = new
      · rw [if_pos hxn, hxn, hnew]
      · rw [if_neg hxn, if_neg fun h => h.1 hz, hother x hxn]
  · rw [if_pos hz, elem_modify, elem_modify]
    by_cases hx : x = p
    · rw [if_pos hx, if_pos hx, if_neg (Ne.symm hqp), hother p hpn]
    · rw [if_neg hx, if_neg hx, elem_modify]
      by_cases hxn : x = new
      · rw [if_pos hxn, hxn, if_neg (Ne.symm hqn), hnew]
      · rw [if_neg hxn]
        by_cases hxq : x = q
        · rw [if_pos hxq, if_pos ⟨hz, hxq⟩, ← hxq, hother x hxn]
        · rw [if_neg hxq, if_neg fun h => hxq h.2, hother x hxn]

theorem nodes_unrefElem (h : HashmapMem α) (p : Ptr) : (h.unrefElem p).nodes = h.nodes := by
  unfold unrefElem unchainLinkedList
  dsimp only
  split_ifs <;> rfl

/-- The elements of a bucket with a new one. -/
def insertElem (new : Ptr) : List Ptr → List Ptr
  | [] => [new]
  | p :: ps => p :: new :: ps

theorem perm_insertElem (new : Ptr) (ps : List Ptr) : (insertElem new ps).Perm (new :: ps) := by
  cases ps with
  | nil => exact .rfl
  | cons p ps => exact .swap ..

theorem mem_update_insertElem {elems : ℕ → List Ptr} {i : ℕ} {q : Ptr} :
    q ∈ update elems b (insertElem new (elems b)) i ↔ q = new ∧ i = b ∨ q ∈ elems i := by
  by_cases hi : i = b
  · rw [hi, update_self, (perm_insertElem ..).mem_iff, mem_cons, and_iff_left rfl]
  · rw [update_of_ne hi, or_iff_right fun h => hi h.2]

/-- A new element in the bucket `b`, with its list given. -/
theorem Built.insert (hb : Built h elems) (hnew : new ∉ h.nodes)
    (hnodes : h'.nodes = new :: h.nodes) (hbuckets : ∀ i, i ≠ b → h'.buckets i = h.buckets i)
    (hchain : Chain h'.elem 0 (h'.buckets b) (insertElem new (elems b)))
    (hcount : (h'.elem new).refCount = 1)
    (hcounts : ∀ p, p ≠ new → (h'.elem p).refCount = (h.elem p).refCount)
    (hlinks : ∀ p, p ≠ new → p ∉ elems b →
      (h'.elem p).prev = (h.elem p).prev ∧ (h'.elem p).next = (h.elem p).next) :
    Built h' (update elems b (insertElem new (elems b))) := by
  have hout : ∀ i, new ∉ elems i := fun i hi => hnew ((hb.nodes new).2 ⟨i, hi⟩)
  have hne : ∀ i, ∀ p ∈ elems i, p ≠ new := fun i p hp he => hout i (he ▸ hp)
  refine ⟨fun i => ?_, fun i p hp => ?_, fun i => ?_, fun i j hij p hp hpj => ?_, fun p => ?_,
    fun i => ?_⟩
  · by_cases hi : i = b
    · subst hi
      rwa [update_self]
    · rw [update_of_ne hi, hbuckets i hi]
      exact (hb.chain i).congr fun p hp => hlinks p (hne i p hp) (hb.disjoint i b hi p hp)
  · rcases mem_update_insertElem.1 hp with ⟨rfl, -⟩ | hp
    · exact hcount
    · exact (hcounts p (hne i p hp)).trans (hb.refCount i p hp)
  · by_cases hi : i = b
    · subst hi
      rw [update_self]
      exact (perm_insertElem ..).nodup_iff.2 (nodup_cons.2 ⟨hout i, hb.nodup i⟩)
    · rw [update_of_ne hi]
      exact hb.nodup i
  · -- two buckets with the same element
    rcases mem_update_insertElem.1 hp with ⟨hpn, hi⟩ | hpi
    · rcases mem_update_insertElem.1 hpj with ⟨-, hj⟩ | hpj'
      · exact hij (hi.trans hj.symm)
      · exact hne j p hpj' hpn
    · rcases mem_update_insertElem.1 hpj with ⟨hpn, -⟩ | hpj'
      · exact hne i p hpi hpn
      · exact hb.disjoint i j hij p hpi hpj'
  · rw [hnodes, mem_cons, hb.nodes]
    constructor
    · rintro (rfl | ⟨i, hi⟩)
      · exact ⟨b, mem_update_insertElem.2 (Or.inl ⟨rfl, rfl⟩)⟩
      · exact ⟨i, mem_update_insertElem.2 (Or.inr hi)⟩
    · rintro ⟨i, hi⟩
      rcases mem_update_insertElem.1 hi with ⟨hpn, -⟩ | hi
      · exact Or.inl hpn
      · exact Or.inr ⟨i, hi⟩
  · rw [hnodes, length_cons]
    have hlen := hb.length i
    by_cases hib : i = b
    · subst hib
      rw [update_self, (perm_insertElem ..).length_eq, length_cons]
      omega
    · rw [update_of_ne hib]
      omega

/-- `h₁` has a new element, which is in no bucket yet. -/
structure NewElem (h h₁ : HashmapMem α) (new : Ptr) (key : ℕ) (data : α) : Prop where
  ne_zero : new ≠ 0
  fresh : new ∉ h.nodes
  self : h₁.elem new = ⟨key, data, 0, 0, 1⟩
  other : ∀ p, p ≠ new → h₁.elem p = h.elem p
  buckets : h₁.buckets = h.buckets
  nodes : h₁.nodes = new :: h.nodes

theorem NewElem.not_mem (hn : NewElem h h₁ new key data) (hb : Built h elems) {i : ℕ} {p : Ptr}
    (hp : p ∈ elems i) : p ≠ new :=
  fun he => hn.fresh ((hb.nodes new).2 ⟨i, he ▸ hp⟩)

section

variable (hb : Built h elems) (hn : NewElem h h₁ new key data)
include hb hn

theorem Built.addFirst (he : elems b = []) :
    Built { h₁ with buckets := update h₁.buckets b new }
      (update elems b (insertElem new (elems b))) := by
  refine hb.insert hn.fresh hn.nodes (fun i hi => ?_) ?_ ?_ (fun p hp => ?_) fun p hp _ => ?_
  · exact (update_of_ne hi ..).trans (congrFun hn.buckets i)
  · rw [he]
    exact ⟨update_self .., hn.ne_zero, congrArg HashmapNode.prev hn.self,
      congrArg HashmapNode.next hn.self⟩
  · exact congrArg HashmapNode.refCount hn.self
  · exact congrArg HashmapNode.refCount (hn.other p hp)
  · exact ⟨congrArg HashmapNode.prev (hn.other p hp), congrArg HashmapNode.next (hn.other p hp)⟩

theorem Built.addBehind {p : Ptr} {ps : List Ptr} (hp : h.buckets b = p) (hp0 : p ≠ 0)
    (he : elems b = p :: ps) :
    Built (h₁.chainLinkedList p new) (update elems b (insertElem new (elems b))) := by
  have hc := hb.chain b
  rw [he, hp] at hc
  have hpn : p ≠ new := hn.not_mem hb (i := b) (he ▸ mem_cons_self)
  obtain ⟨hnodup, hnodup'⟩ := nodup_cons.1 (he ▸ hb.nodup b)
  obtain ⟨-, -, hprev, hrest⟩ := id hc
  -- the second element, if there is one
  have hmem : (h.elem p).next ≠ 0 → (h.elem p).next ∈ ps := by
    rcases hrest.cases with ⟨hnext, -⟩ | ⟨-, qs, rfl⟩
    · exact fun hne => absurd hnext hne
    · exact fun _ => mem_cons_self
  have hqp : (h.elem p).next ≠ p := fun hq =>
    hnodup (hq ▸ hmem (by rw [hq]; exact hp0))
  have hqn : (h.elem p).next ≠ new := fun hq =>
    hn.not_mem hb (i := b) (he ▸ mem_cons_of_mem p (hmem (by rw [hq]; exact hn.ne_zero))) hq
  have helem : ∀ x, x ≠ new → (h₁.chainLinkedList p new).elem x =
      if x = p then { h.elem p with next := new }
      else if (h.elem p).next ≠ 0 ∧ x = (h.elem p).next then { h.elem x with prev := new }
      else h.elem x := fun x hx => by
    rw [elem_chainLinkedList hpn (by rwa [hn.other p hpn]) (by rwa [hn.other p hpn]), if_neg hx,
      hn.other p hpn, hn.other x hx]
  have helemnew : (h₁.chainLinkedList p new).elem new = ⟨key, data, (h.elem p).next, p, 1⟩ := by
    rw [elem_chainLinkedList hpn (by rwa [hn.other p hpn]) (by rwa [hn.other p hpn]),
      if_neg (Ne.symm hpn), if_pos rfl, hn.other p hpn, hn.self]
  refine hb.insert hn.fresh ?_ (fun i _ => ?_) ?_ ?_ (fun x hx => ?_) fun x hx hxb => ?_
  · rw [nodes_chainLinkedList, hn.nodes]
  · rw [buckets_chainLinkedList, hn.buckets]
  · rw [he, buckets_chainLinkedList, hn.buckets, hp]
    refine Chain.insert hc hn.ne_zero ?_ ?_ (fun q hq => ?_) fun q hq => ?_
    · rw [helem p hpn, if_pos rfl]
      exact ⟨hprev, rfl⟩
    · rw [helemnew]
      exact ⟨rfl, rfl⟩
    · rcases hrest.cases with ⟨-, rfl⟩ | ⟨hq0, qs, rfl⟩
      · cases hq
      · cases hq
        rw [helem _ hqn, if_neg hqp, if_pos ⟨hq0, rfl⟩]
        exact ⟨rfl, rfl⟩
    · rcases hrest.cases with ⟨-, rfl⟩ | ⟨hq0, qs, rfl⟩
      · cases hq
      · have hqq : q ≠ (h.elem p).next := fun hqq => (nodup_cons.1 hnodup').1 (hqq ▸ hq)
        have hqps : q ∈ elems b := he ▸ mem_cons_of_mem p (mem_cons_of_mem _ hq)
        have hqp' : q ≠ p := fun hqp' => hnodup (hqp' ▸ mem_cons_of_mem _ hq)
        rw [helem q (hn.not_mem hb hqps), if_neg hqp', if_neg fun h => hqq h.2]
        exact ⟨rfl, rfl⟩
  · rw [helemnew]
  · rw [helem x hx]
    split_ifs with h1
    · rw [h1]
    · rfl
    · rfl
  · have hxp : x ≠ p := fun hxp => hxb (he ▸ hxp ▸ mem_cons_self)
    rw [helem x hx, if_neg hxp, if_neg]
    · exact ⟨rfl, rfl⟩
    · rintro ⟨hne, rfl⟩
      exact hxb (he ▸ mem_cons_of_mem p (hmem hne))

/-- A new element is put behind the first one of its bucket, or becomes the first one. -/
theorem Built.add :
    ∃ elems', Built (if h₁.buckets b ≠ 0 then h₁.chainLinkedList (h₁.buckets b) new
      else { h₁ with buckets := update h₁.buckets b new }) elems' := by
  rcases (hb.chain b).cases with ⟨hzero, he⟩ | ⟨hp0, ps, he⟩
  · rw [if_neg (not_not.2 (by rw [hn.buckets, hzero]))]
    exact ⟨_, hb.addFirst hn he⟩
  · rw [hn.buckets, if_pos hp0]
    exact ⟨_, hb.addBehind hn rfl hp0 he⟩

/-! ### Runs -/

end

/-- A call of `hashmap_set_elem` that ends, with an unused address for a new element. -/
def SetStep (h : HashmapMem α) (l : ℕ × α × Ptr) (h' : HashmapMem α) : Prop :=
  (l.2.2 ≠ 0 ∧ l.2.2 ∉ h.nodes) ∧ ∃ fuel, h.setElem fuel l.1 l.2.1 l.2.2 = some h'

/-- **Every call keeps the lists.** -/
theorem Built.setElem (hb : Built h elems) {l : ℕ × α × Ptr} (hstep : SetStep h l h') :
    ∃ elems', Built h' elems' ∧ h'.nodes.length ≤ h.nodes.length + 1 := by
  obtain ⟨⟨hz, hnew⟩, fuel, hset⟩ := hstep
  rw [HashmapMem.setElem, bind_eq_bind, bind_eq_some_iff] at hset
  obtain ⟨r, hr, hset⟩ := hset
  rcases getElemDatLoop_cases (hb.chain _) (hb.refCount _) hr with ⟨p, hp, hp0, rfl⟩ | rfl
  · rw [if_pos hp0] at hset
    cases hset
    exact ⟨elems, hb.replace hp, by rw [nodes_unrefElem]; exact Nat.le_succ _⟩
  · rw [if_neg (not_not.2 rfl)] at hset
    dsimp only at hset
    have hn : NewElem h { h with
        elem := update h.elem l.2.2 ⟨l.1, l.2.1, 0, 0, 1⟩
        nodes := l.2.2 :: h.nodes } l.2.2 l.1 l.2.1 :=
      ⟨hz, hnew, update_self .., fun p hp => update_of_ne hp .., rfl, rfl⟩
    obtain ⟨elems', hb'⟩ := hb.add hn (b := getBucketFromHash l.1)
    refine ⟨elems', ?_⟩
    split_ifs at hset hb' with hbucket
    · cases hset
      exact ⟨hb', by rw [nodes_chainLinkedList]; rfl⟩
    · cases hset
      exact ⟨hb', le_rfl⟩

theorem built_of_run [Inhabited α] (hrun : Run SetStep init ls h) :
    ∃ elems, Built h elems ∧ h.nodes.length ≤ ls.length := by
  induction hrun with
  | nil => exact ⟨_, built_init, le_rfl⟩
  | snoc _ hstep ih =>
    obtain ⟨elems, hb, hlen⟩ := ih
    obtain ⟨elems', hb', hlen'⟩ := hb.setElem hstep
    exact ⟨elems', hb', by rw [length_append, length_singleton]; omega⟩

theorem Built.deleteHashmap (hb : Built h elems) (hf : h.nodes.length ≤ fuel) (hashmap : Ptr) :
    h.deleteHashmap fuel hashmap =
      some ((List.range hashmapBucketSize).flatMap (fun i => (elems i).tail.reverse) ++
        [hashmap, hashmap]) := by
  have hbuckets : (List.range hashmapBucketSize).mapM (h.freedOfBucket fuel) =
      some ((List.range hashmapBucketSize).map fun i => (elems i).tail.reverse) := by
    have hfun : h.freedOfBucket fuel = fun i => pure (elems i).tail.reverse := by
      funext i
      exact freedOfBucket_eq (hb.chain i) ((hb.length i).trans hf)
    rw [hfun, mapM_pure]
    rfl
  rw [HashmapMem.deleteHashmap, hbuckets, map_some, List.flatMap]
  rfl

/-- **No map is freed as it should be**: it is itself freed twice. -/
theorem not_freesOnce [Inhabited α] {ls : List (ℕ × α × Ptr)} (hrun : Run SetStep init ls h)
    {fuel : ℕ} (hf : ls.length ≤ fuel) (hashmap : Ptr) :
    ∃ freed, h.deleteHashmap fuel hashmap = some freed ∧ ¬ FreesOnce h hashmap freed := by
  obtain ⟨elems, hb, hlen⟩ := built_of_run hrun
  refine ⟨_, hb.deleteHashmap (hlen.trans hf) hashmap, fun honce => ?_⟩
  have hcount := honce hashmap
  rw [if_pos (Or.inl rfl), count_append, count_cons_self, count_cons_self] at hcount
  omega

/-- Calls of `hashmap_set_elem`, when they can be carried out. -/
def setElems (h : HashmapMem α) (fuel : ℕ) (ls : List (ℕ × α × Ptr)) : Option (HashmapMem α) :=
  ls.foldlM (fun h l => if l.2.2 ≠ 0 ∧ l.2.2 ∉ h.nodes then h.setElem fuel l.1 l.2.1 l.2.2
    else none) h

theorem run_of_setElems {h0 : HashmapMem α} (h : h0.setElems fuel ls = some h') :
    Run SetStep h0 ls h' := by
  refine Run.of_foldlM (fun s l s' hl => ?_) h
  split_ifs at hl with hfresh
  exact ⟨hfresh, fuel, hl⟩

/-- Of two elements in one bucket the first one is not freed, and the map is freed twice. -/
theorem deleteHashmap_two : ∃ h : HashmapMem Bool,
    Run SetStep init [(5, true, 0x1000), (205, false, 0x2000)] h ∧ h.nodes = [0x2000, 0x1000] ∧
      h.deleteHashmap 2 0x3000 = some [0x2000, 0x3000, 0x3000] := by
  have hany : ((init : HashmapMem Bool).setElems 2 [(5, true, 0x1000), (205, false, 0x2000)]).any
      (fun h => h.nodes = [0x2000, 0x1000] ∧
        h.deleteHashmap 2 0x3000 = some [0x2000, 0x3000, 0x3000]) := by
    decide +kernel
  obtain ⟨h, hh, hq⟩ := (any_eq_true _ _).1 hany
  exact ⟨h, run_of_setElems hh, of_decide_eq_true hq⟩

/-- A map with one element. -/
theorem not_freesOnce_one : ∃ (h : HashmapMem Bool) (freed : List Ptr),
    Run SetStep init [(5, true, 0x1000)] h ∧ h.deleteHashmap 1 0x3000 = some freed ∧
      ¬ FreesOnce h 0x3000 freed := by
  have hsome : ((init : HashmapMem Bool).setElems 1 [(5, true, 0x1000)]).isSome := by
    decide +kernel
  obtain ⟨h, hh⟩ := isSome_iff_exists.1 hsome
  obtain ⟨freed, hfreed, honce⟩ := not_freesOnce (run_of_setElems hh) (le_refl 1) 0x3000
  exact ⟨h, freed, run_of_setElems hh, hfreed, honce⟩

end HashmapMem

end DripOS
