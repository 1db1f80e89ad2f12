import DripOS.Klibc.Hashmap
import DripOS.Lib.Run

/-!
# The hash map as a finite map

`Hashmap.Plain` : every key has at most one element, with one reference, and every element but the
first of its bucket can be taken out.  Looking up, changing and storing data keep a map plain, and
so does removing an element that is not the first of its bucket (`Hashmap.Plain.removeElem`).

`Hashmap.refines_finite_map` : in every run from an empty map in which no first element of a bucket
is removed, the results are those of a finite map.  Otherwise the element stays in the map
(`Hashmap.remove_first_found`).
-/

namespace DripOS

open List Function Option

universe u

variable {α : Type u}

namespace Hashmap

variable {m : Hashmap α} {key i : ℕ} {es pre post : List (HashmapElem α)} {e : HashmapElem α}

/-! ### Plain maps -/

/-- The data of the first element with the key. -/
def lookupIn (key : ℕ) (es : List (HashmapElem α)) : Option α :=
  (es.find? (·.key = key)).map (·.data)

/-- The data stored under a key. -/
def lookup (m : Hashmap α) (key : ℕ) : Option α := lookupIn key (m.buckets (getBucketFromHash key))

/-- Every element but the first has a `prev` pointer. -/
def Linked (es : List (HashmapElem α)) : Prop := ∀ e ∈ es.tail, e.hasPrev = true

/-- The elements of a bucket have different keys, one reference each, and belong to the bucket, and
all but the first can be taken out. -/
structure PlainBucket (i : ℕ) (es : List (HashmapElem α)) : Prop where
  nodup : (es.map (·.key)).Nodup
  refCount : ∀ e ∈ es, e.refCount = 1
  bucket : ∀ e ∈ es, getBucketFromHash e.key = i
  linked : Linked es

/-- Every bucket is plain. -/
def Plain (m : Hashmap α) : Prop := ∀ i, PlainBucket i (m.buckets i)

theorem plain_init : (init : Hashmap α).Plain := fun _ =>
  ⟨nodup_nil, fun _ he => absurd he not_mem_nil, fun _ he => absurd he not_mem_nil,
    fun _ he => absurd he not_mem_nil⟩

theorem lookupIn_cons {e : HashmapElem α} {es : List (HashmapElem α)} :
    lookupIn key (e :: es) = if e.key = key then some e.data else lookupIn key es := by
  unfold lookupIn
  by_cases h : e.key = key
  · simp [h]
  · simp [h]

theorem lookupIn_append {es' : List (HashmapElem α)} :
    lookupIn key (es ++ es') = (lookupIn key es).or (lookupIn key es') := by
  induction es with
  | nil => simp [lookupIn]
  | cons e es ih =>
    rw [cons_append, lookupIn_cons, lookupIn_cons, ih]
    split_ifs <;> simp

theorem lookupIn_setPrev {b : Bool} :
    lookupIn key (HashmapCursor.setPrev b es) = lookupIn key es := by
  cases es with
  | nil => rfl
  | cons e es => rw [HashmapCursor.setPrev, lookupIn_cons, lookupIn_cons]

theorem lookupIn_eq_none : lookupIn key es = none ↔ key ∉ es.map (·.key) := by
  simp [lookupIn]

theorem lookup_setBucket {k : ℕ} :
    (m.setBucket key es).lookup k =
      if getBucketFromHash k = getBucketFromHash key then lookupIn k es else m.lookup k := by
  unfold lookup
  rw [buckets_setBucket]
  split_ifs with h
  · rw [h, update_self]
  · rw [update_of_ne h]

theorem Plain.setBucket (h : m.Plain) (hes : PlainBucket (getBucketFromHash key) es) :
    (m.setBucket key es).Plain := by
  intro i
  rw [buckets_setBucket]
  by_cases hi : i = getBucketFromHash key
  · subst hi
    rwa [update_self]
  · rw [update_of_ne hi]
    exact h i

theorem setBucket_self : m.setBucket key (m.buckets (getBucketFromHash key)) = m := by
  cases m
  rw [Hashmap.setBucket, update_eq_self]

/-- Taking and dropping a reference changes nothing. -/
theorem unref_incRef (he : e.refCount = 1) :
    (HashmapCursor.mk pre e.incRef post true).unref = ⟨pre, e, post, true⟩ := by
  have hdec : e.incRef.decRef = e := by
    cases e
    subst he
    simp [HashmapElem.incRef, HashmapElem.decRef]
  unfold HashmapCursor.unref
  rw [hdec, if_neg (by rw [he]; decide)]

theorem toList_unref_incRef (he : e.refCount = 1) :
    (HashmapCursor.mk pre e.incRef post true).unref.toList = pre ++ e :: post := by
  rw [unref_incRef he]
  rfl

/-- Dropping the last reference to an element with a `prev` pointer takes it out. -/
theorem toList_unref_last (he : e.refCount = 1) (hprev : e.hasPrev = true) :
    (HashmapCursor.mk pre e post true).unref.toList = pre ++ HashmapCursor.setPrev true post := by
  have hzero : e.decRef.refCount = 0 := by simp [HashmapElem.decRef, he]
  have hkeep : e.decRef.hasPrev = true := by
    cases e
    exact hprev
  unfold HashmapCursor.unref
  rw [if_pos hzero]
  simp [HashmapCursor.unchain, HashmapCursor.toList, hkeep]

theorem setPrev_of_forall (h : ∀ e ∈ es, e.hasPrev = true) :
    HashmapCursor.setPrev true es = es := by
  cases es with
  | nil => rfl
  | cons e es =>
    have he : e.hasPrev = true := h e mem_cons_self
    rw [HashmapCursor.setPrev, ← he]

/-- The walk along a plain bucket finds the element of the key. -/
theorem findElem_plain {es : List (HashmapElem α)} (href : ∀ e ∈ es, e.refCount = 1) :
    (∃ pre e post, es = pre ++ e :: post ∧ e.key = key ∧ key ∉ pre.map (·.key) ∧
      findElem key es = .inl ⟨pre, e.incRef, post, true⟩) ∨
    (key ∉ es.map (·.key) ∧ findElem key es = .inr es) := by
  induction es with
  | nil => exact Or.inr ⟨not_mem_nil, rfl⟩
  | cons e es ih =>
    obtain ⟨he, hes⟩ := forall_mem_cons.1 href
    by_cases hk : e.key = key
    · refine Or.inl ⟨[], e, es, rfl, hk, not_mem_nil, ?_⟩
      have hinc : e.incRef.refCount ≠ 0 := by
        simp [HashmapElem.incRef, he]
      rw [findElem, if_pos hk, if_pos hinc]
    · have hcons : findElem key (e :: es) = consElem e (findElem key es) := by
        rw [findElem, if_neg hk]
      rw [hcons]
      rcases ih hes with ⟨pre, e', post, rfl, hk', hpre, hfind⟩ | ⟨hnone, hfind⟩
      · exact Or.inl ⟨e :: pre, e', post, rfl, hk',
          not_mem_cons_of_ne_of_not_mem (Ne.symm hk) hpre, by rw [hfind]; rfl⟩
      · exact Or.inr ⟨not_mem_cons_of_ne_of_not_mem (Ne.symm hk) hnone, by rw [hfind]; rfl⟩

/-- **Lookup in a plain map.** -/
theorem Plain.getElem (h : m.Plain) (key : ℕ) : m.getElem key = (m.lookup key, m) := by
  unfold Hashmap.getElem getElemDat lookup
  rcases @findElem_plain _ key _ (h (getBucketFromHash key)).refCount with
    ⟨pre, e, post, hes, hk, hpre, hfind⟩ | ⟨hnone, hfind⟩
  · have hone : e.refCount = 1 := (h (getBucketFromHash key)).refCount e (by rw [hes]; simp)
    have hlook : lookupIn key (m.buckets (getBucketFromHash key)) = some e.data := by
      rw [hes, lookupIn_append, lookupIn_eq_none.2 hpre, lookupIn_cons, if_pos hk, none_or]
    rw [hfind, hlook]
    dsimp only
    rw [toList_unref_incRef hone, ← hes, setBucket_self, HashmapElem.data_incRef]
  · rw [hfind, lookupIn_eq_none.2 hnone]
    dsimp only
    rw [setBucket_self]

/-- **Changing the data of a key of a plain map.** -/
theorem Plain.updateElem (h : m.Plain) (key : ℕ) (f : α → α) :
    (m.updateElem key f).Plain ∧ ∀ k, (m.updateElem key f).lookup k =
      if k = key then (m.lookup key).map f else m.lookup k := by
  have hb := h (getBucketFromHash key)
  unfold Hashmap.updateElem getElemDat
  rcases @findElem_plain _ key _ hb.refCount with
    ⟨pre, e, post, hes, hk, hpre, hfind⟩ | ⟨hnone, hfind⟩
  · rw [hes] at hb
    have hmod : (HashmapCursor.mk pre e.incRef post true).modify f =
        ⟨pre, HashmapElem.incRef { e with data := f e.data }, post, true⟩ := by
      cases e; rfl
    have hone : ({ e with data := f e.data } : HashmapElem α).refCount = 1 :=
      hb.refCount e (by simp)
    rw [hfind]
    dsimp only
    rw [hmod, toList_unref_incRef hone]
    refine ⟨h.setBucket ⟨?_, ?_, ?_, ?_⟩, fun k => ?_⟩
    · simpa using hb.nodup
    · simpa only [forall_mem_append, forall_mem_cons] using hb.refCount
    · simpa only [forall_mem_append, forall_mem_cons] using hb.bucket
    · have hlinked := hb.linked
      cases pre with
      | nil => exact hlinked
      | cons head pre =>
        simpa only [Linked, cons_append, tail_cons, forall_mem_append,
          forall_mem_cons] using hlinked
    · rw [lookup_setBucket]
      by_cases hkk : k = key
      · subst hkk
        rw [if_pos rfl, if_pos rfl, lookup, hes, lookupIn_append, lookupIn_append,
          lookupIn_eq_none.2 hpre, lookupIn_cons, lookupIn_cons, if_pos hk, if_pos hk]
        rfl
      · have hek : e.key ≠ k := fun he => hkk (he.symm.trans hk)
        split_ifs with hbk
        · rw [lookup, hbk, hes, lookupIn_append, lookupIn_append, lookupIn_cons, lookupIn_cons,
            if_neg hek, if_neg hek]
        · rfl
  · rw [hfind]
    dsimp only
    rw [setBucket_self]
    refine ⟨h, fun k => ?_⟩
    split_ifs with hkk
    · rw [hkk, lookup, lookupIn_eq_none.2 hnone]
      rfl
    · rfl

theorem lookupIn_chainElem (he : e.key ∉ es.map (·.key)) (k : ℕ) :
    lookupIn k (chainElem e es) = if k = e.key then some e.data else lookupIn k es := by
  cases es with
  | nil =>
    rw [chainElem, lookupIn_cons]
    simp only [eq_comm]
  | cons head es =>
    rw [chainElem, lookupIn_cons, lookupIn_cons, lookupIn_cons, lookupIn_setPrev]
    by_cases hk : k = e.key
    · subst hk
      have hhead : head.key ≠ e.key := fun hh => he (hh ▸ mem_cons_self)
      rw [if_neg hhead, if_pos rfl, if_pos rfl]
    · rw [if_neg hk]
      simp only [Ne.symm hk, if_false]

theorem PlainBucket.chainElem (h : PlainBucket i es) (he : e.key ∉ es.map (·.key))
    (href : e.refCount = 1) (hi : getBucketFromHash e.key = i) :
    PlainBucket i (chainElem e es) := by
  cases es with
  | nil => exact ⟨nodup_singleton _, forall_mem_singleton.2 href,
      forall_mem_singleton.2 hi, fun _ he => absurd he not_mem_nil⟩
  | cons head es =>
    rw [map_cons, mem_cons, not_or] at he
    obtain ⟨hhead, htail⟩ := nodup_cons.1 h.nodup
    have hkeys : (HashmapCursor.setPrev true es).map (·.key) = es.map (·.key) := by
      cases es <;> rfl
    obtain ⟨hrh, hrt⟩ := forall_mem_cons.1 h.refCount
    obtain ⟨hbh, hbt⟩ := forall_mem_cons.1 h.bucket
    refine ⟨?_, ?_, ?_, ?_⟩
    · rw [Hashmap.chainElem, map_cons, map_cons, hkeys]
      exact nodup_cons.2 ⟨not_mem_cons_of_ne_of_not_mem (Ne.symm he.1) hhead,
        nodup_cons.2 ⟨he.2, htail⟩⟩
    · exact forall_mem_cons.2 ⟨hrh, forall_mem_cons.2
        ⟨href, forall_mem_setPrev (fun _ h => h) hrt⟩⟩
    · exact forall_mem_cons.2 ⟨hbh, forall_mem_cons.2
        ⟨hi, forall_mem_setPrev (fun _ h => h) hbt⟩⟩
    · exact forall_mem_cons.2 ⟨rfl, forall_mem_setPrev (fun _ _ => rfl) h.linked⟩

/-- **Storing data under a new key of a plain map.** -/
theorem Plain.setElem (h : m.Plain) {key : ℕ} (hnew : m.lookup key = none) (data : α) :
    (m.setElem key data).Plain ∧ ∀ k, (m.setElem key data).lookup k =
      if k = key then some data else m.lookup k := by
  have hb := h (getBucketFromHash key)
  have hkeys := lookupIn_eq_none.1 hnew
  unfold Hashmap.setElem getElemDat
  rcases @findElem_plain _ key _ hb.refCount with
    ⟨pre, e, post, hes, hk, -, -⟩ | ⟨-, hfind⟩
  · exact absurd (by simp [hes, hk]) hkeys
  · rw [hfind]
    refine ⟨h.setBucket (hb.chainElem hkeys rfl rfl), fun k => ?_⟩
    rw [lookup_setBucket]
    split_ifs with hbk hk hk
    · rw [lookupIn_chainElem hkeys, if_pos hk]
    · rw [lookupIn_chainElem hkeys, if_neg hk, lookup, hbk]
    · exact absurd (by rw [hk]) hbk
    · rfl

/-- Storing data under a key that has an element changes its data. -/
theorem Plain.setElem_of_mem (h : m.Plain) {key : ℕ} {old : α} (hold : m.lookup key = some old)
    (data : α) : m.setElem key data = m.updateElem key fun _ => data := by
  unfold Hashmap.setElem Hashmap.updateElem getElemDat
  rcases @findElem_plain _ key _ (h (getBucketFromHash key)).refCount with
    ⟨pre, e, post, -, -, -, hfind⟩ | ⟨hnone, -⟩
  · rw [hfind]
  · rw [lookup, lookupIn_eq_none.2 hnone] at hold
    cases hold

/-- Taking an element that is not the first one out of a plain bucket. -/
theorem PlainBucket.erase {head : HashmapElem α} (h : PlainBucket i (head :: pre ++ e :: post)) :
    PlainBucket i (head :: pre ++ post) := by
  have hsub : (head :: pre ++ post).Sublist (head :: pre ++ e :: post) :=
    (List.Sublist.refl _).append (sublist_cons_self e post)
  refine ⟨h.nodup.sublist (hsub.map _), fun a ha => h.refCount a (hsub.subset ha),
    fun a ha => h.bucket a (hsub.subset ha), fun a ha => h.linked a ?_⟩
  exact ((List.Sublist.refl pre).append (sublist_cons_self e post)).subset ha

/-- **Removing a key of a plain map**, unless its element is the first of its bucket. -/
theorem Plain.removeElem (h : m.Plain) {key : ℕ}
    (hfirst : ∀ e ∈ (m.buckets (getBucketFromHash key)).head?, e.key ≠ key) :
    (m.removeElem key).Plain ∧ ∀ k, (m.removeElem key).lookup k =
      if k = key then none else m.lookup k := by
  have hb := h (getBucketFromHash key)
  unfold Hashmap.removeElem getElemDat
  rcases @findElem_plain _ key _ hb.refCount with
    ⟨pre, e, post, hes, hk, hpre, hfind⟩ | ⟨hnone, hfind⟩
  · rw [hes] at hb hfirst
    cases pre with
    | nil => exact absurd hk (hfirst e rfl)
    | cons head pre =>
      have hone : e.refCount = 1 := hb.refCount e (by simp)
      have hprev : e.hasPrev = true := hb.linked e (by simp)
      have hpost : ∀ a ∈ post, a.hasPrev = true := fun a ha => hb.linked a (by simp [ha])
      have hkpost : key ∉ post.map (·.key) := fun hmem => by
        have hnd := hb.nodup
        rw [map_append, @map_cons _ _ _ e post, hk] at hnd
        exact (nodup_cons.1 (nodup_append.1 hnd).2.1).1 hmem
      rw [hfind]
      dsimp only
      rw [unref_incRef hone, toList_unref_last hone hprev, setPrev_of_forall hpost]
      refine ⟨h.setBucket hb.erase, fun k => ?_⟩
      rw [lookup_setBucket]
      by_cases hkk : k = key
      · subst hkk
        rw [if_pos rfl, if_pos rfl, lookupIn_append, lookupIn_eq_none.2 hpre,
          lookupIn_eq_none.2 hkpost, none_or]
      · rw [if_neg hkk]
        split_ifs with hbk
        · rw [lookup, hbk, hes, lookupIn_append, lookupIn_append, @lookupIn_cons _ k e post,
            if_neg fun he => hkk (he.symm.trans hk)]
        · rfl
  · rw [hfind]
    dsimp only
    rw [setBucket_self]
    refine ⟨h, fun k => ?_⟩
    split_ifs with hkk
    · rw [hkk, lookup, lookupIn_eq_none.2 hnone]
    · rfl

theorem lookup_mem {k : ℕ} {d : α} (h : m.lookup k = some d) :
    ∃ e ∈ m.buckets (getBucketFromHash k), e.key = k ∧ e.data = d := by
  obtain ⟨e, he, rfl⟩ := map_eq_some_iff.1 h
  exact ⟨e, List.mem_of_find?_eq_some he, by simpa using List.find?_some he, rfl⟩

theorem Plain.lookup_of_mem (h : m.Plain) (he : e ∈ m.buckets i) :
    m.lookup e.key = some e.data := by
  obtain ⟨pre, post, hes⟩ := append_of_mem he
  have hpre : e.key ∉ pre.map (·.key) := fun hmem => by
    have hnd := (h i).nodup
    rw [hes, map_append, map_cons] at hnd
    exact (nodup_append.1 hnd).2.2 _ hmem _ mem_cons_self rfl
  rw [lookup, (h i).bucket e he, hes, lookupIn_append, lookupIn_eq_none.2 hpre, lookupIn_cons,
    if_pos rfl, none_or]

/-- **Dropping the only element with `p`**, unless it is the first of its bucket. -/
theorem Plain.dropFirst (h : m.Plain) {p : α → Bool}
    (hsingle : ∀ k k' d d', m.lookup k = some d → m.lookup k' = some d' → p d = true →
      p d' = true → k = k')
    (hfirst : ∀ k d, m.lookup k = some d → p d = true →
      ∀ e ∈ (m.buckets (getBucketFromHash k)).head?, e.key ≠ k) :
    (m.dropFirst p).Plain ∧ ∀ k, (m.dropFirst p).lookup k = (m.lookup k).filter (!p ·) := by
  unfold Hashmap.dropFirst
  cases hfind : (List.range hashmapBucketSize).findSome?
      fun i => (m.buckets i).find? (p ·.data) with
  | some e =>
    obtain ⟨i, -, hi⟩ := List.exists_of_findSome?_eq_some hfind
    have he : m.lookup e.key = some e.data := h.lookup_of_mem (List.mem_of_find?_eq_some hi)
    have hp : p e.data = true := by simpa using List.find?_some hi
    obtain ⟨hplain, hlookup⟩ := h.removeElem (hfirst e.key e.data he hp)
    refine ⟨hplain, fun k => ?_⟩
    rw [hlookup]
    split_ifs with hk
    · rw [hk, he]
      simp [Option.filter, hp]
    · cases hd : m.lookup k with
      | none => rfl
      | some d =>
        have hpd : p d = false := by
          by_contra hne
          exact hk (hsingle k e.key d e.data hd he (by simpa using hne) hp)
        simp [Option.filter, hpd]
  | none =>
    refine ⟨h, fun k => ?_⟩
    cases hd : m.lookup k with
    | none => rfl
    | some d =>
      obtain ⟨e, he, -, rfl⟩ := lookup_mem hd
      have hk : getBucketFromHash k ∈ List.range hashmapBucketSize :=
        mem_range.2 (Nat.mod_lt _ (by decide))
      have hnone := List.findSome?_eq_none_iff.1 hfind _ hk
      have hpd : p e.data = false := by simpa using List.find?_eq_none.1 hnone e he
      simp [Option.filter, hpd]

/-! ### Runs -/

/-- An operation on a map. -/
inductive Op (α : Type u) where
  | set (key : ℕ) (data : α)
  | remove (key : ℕ)
  | get (key : ℕ)

/-- Perform an operation; the result is what `hashmap_get_elem` returns. -/
def exec (m : Hashmap α) : Op α → Option α × Hashmap α
  | .set key data => (none, m.setElem key data)
  | .remove key => (none, m.removeElem key)
  | .get key => m.getElem key

/-- What a map is for: the operations on a finite map, with their results. -/
inductive MapSpec (M : ℕ → Option α) : Op α × Option α → (ℕ → Option α) → Prop
  | set {key : ℕ} {data : α} : MapSpec M (.set key data, none) (update M key (some data))
  | remove {key : ℕ} : MapSpec M (.remove key, none) (update M key none)
  | get {key : ℕ} : MapSpec M (.get key, M key) M

/-- A removal does not hit the first element of a bucket. -/
def Removable (m : Hashmap α) : Op α → Prop
  | .remove key => ∀ e ∈ (m.buckets (getBucketFromHash key)).head?, e.key ≠ key
  | _ => True

/-- One operation of a run in which no first element of a bucket is removed. -/
def MapStep (m : Hashmap α) (l : Op α × Option α) (m' : Hashmap α) : Prop :=
  m.Removable l.1 ∧ m.exec l.1 = (l.2, m')

/-- An operation on a plain map is that on the finite map. -/
theorem Plain.exec (h : m.Plain) {op : Op α} (hop : m.Removable op) :
    (m.exec op).2.Plain ∧ MapSpec m.lookup (op, (m.exec op).1) (m.exec op).2.lookup := by
  cases op with
  | set key data =>
    have hset : (m.setElem key data).Plain ∧ ∀ k, (m.setElem key data).lookup k =
        if k = key then some data else m.lookup k := by
      cases hold : m.lookup key with
      | none => exact h.setElem hold data
      | some old =>
        rw [h.setElem_of_mem hold]
        refine ⟨(h.updateElem key _).1, fun k => ?_⟩
        rw [(h.updateElem key _).2, hold]
        rfl
    have heq : (m.setElem key data).lookup = update m.lookup key (some data) := by
      funext k
      rw [hset.2, update_apply]
    exact ⟨hset.1, heq ▸ MapSpec.set⟩
  | remove key =>
    obtain ⟨hplain, hlookup⟩ := h.removeElem hop
    have heq : (m.removeElem key).lookup = update m.lookup key none := by
      funext k
      rw [hlookup, update_apply]
    exact ⟨hplain, heq ▸ MapSpec.remove⟩
  | get key =>
    rw [Hashmap.exec, h.getElem key]
    exact ⟨h, MapSpec.get⟩

/-- **The hash map implements a finite map** in every run from an empty map in which no first
element of a bucket is removed. -/
theorem refines_finite_map {ls : List (Op α × Option α)} (hrun : Run MapStep init ls m) :
    ∃ M, Run MapSpec (fun _ => none) ls M ∧ ∀ key, (m.getElem key).1 = M key := by
  obtain ⟨M, hM, hplain, hlookup⟩ := hrun.simulate
    (R := fun m M => m.Plain ∧ m.lookup = M) ⟨plain_init, rfl⟩
    fun m M l m' ⟨hplain, hlookup⟩ ⟨hop, hexec⟩ => by
      obtain ⟨hplain', hspec⟩ := hplain.exec hop
      rw [hexec] at hplain' hspec
      exact ⟨m'.lookup, hlookup ▸ hspec, hplain', rfl⟩
  refine ⟨M, hM, fun key => ?_⟩
  rw [hplain.getElem key, hlookup]

/-- The second key of a bucket is stored, removed and no longer found. -/
theorem refines_finite_map_second : ∃ m : Hashmap Bool,
    Run MapStep init [(.set 5 true, none), (.set 205 false, none), (.remove 205, none)] m ∧
    (∃ M, Run MapSpec (fun _ => none)
      [(.set 5 true, none), (.set 205 false, none), (.remove 205, none)] M ∧
      ∀ key, (m.getElem key).1 = M key) ∧
    (m.getElem 205).1 = none := by
  have hset : MapStep (init : Hashmap Bool) (.set 5 true, none) (init.setElem 5 true) :=
    ⟨trivial, rfl⟩
  have hset' : MapStep ((init : Hashmap Bool).setElem 5 true) (.set 205 false, none)
      ((init.setElem 5 true).setElem 205 false) := ⟨trivial, rfl⟩
  have hremove : MapStep (((init : Hashmap Bool).setElem 5 true).setElem 205 false)
      (.remove 205, none) (((init.setElem 5 true).setElem 205 false).removeElem 205) :=
    ⟨by unfold Removable; decide +kernel, rfl⟩
  have hrun := ((Run.nil.snoc hset).snoc hset').snoc hremove
  exact ⟨_, hrun, refines_finite_map hrun, by decide +kernel⟩

/-- **Removing the first element of a bucket does not remove it.** -/
theorem remove_first_found :
    ((((init : Hashmap Bool).setElem 5 true).removeElem 5).getElem 5).1 = some true ∧
    ∀ M : ℕ → Option Bool,
      Run MapSpec (fun _ => none) [(.set 5 true, none), (.remove 5, none)] M → M 5 = none := by
  refine ⟨by decide +kernel, fun M hrun => ?_⟩
  obtain ⟨M1, -, hstep⟩ := (@Run.snoc_iff _ _ _ _ _ [(Op.set 5 true, none)] _).1 hrun
  cases hstep
  exact update_self _ _ _

end Hashmap

end DripOS
