import DripOS.Fs.Vfs

/-!
# Opening a file by its path

`vfs_open` is to return the node whose names are the elements of the path, and to add nodes only for
missing elements (`Opens`).  It does so unless an element of one character gets in the way
(`vfsOpen_iff`): nodes are added only when such an element is neither the first nor the last one,
and the tree happens to have what is looked up in its place (`Creatable`).

* `createLoop_of_creatable` : then the nodes are added as they should be;
* `creatable_of_createLoop` : otherwise the loop stops early, or adds a node somewhere else.
-/

namespace DripOS

open List Option

namespace Vfs

open NameTree

/-! ### The specification -/

/-- The nodes of `t'` that `t` does not have are one for each missing element. -/
structure AddsOnly (t t' : VfsTree) (elems : List Str) : Prop where
  kept : ∀ a n, t.node a = some n → ∃ n', t'.node a = some n' ∧ n'.name = n.name ∧ n'.data = n.data
  added : ∀ a, New t t' a → t'.chain a <+: elems ∧ t.find [] (t'.chain a) = none
  unique : ∀ a b, New t t' a → New t t' b → t'.chain a = t'.chain b → a = b

/-- The result of opening the path: a null pointer with `*err` set and the same tree, or the node
with these names. -/
def Opens (t : VfsTree) (elems : List Str) : Except VfsHalt (Except ℤ Addr × VfsTree) → Prop
  | .error _ => False
  | .ok (.error err, t') => err ≠ 0 ∧ t' = t
  | .ok (.ok a, t') => (t'.node a).isSome ∧ t'.chain a = elems ∧ AddsOnly t t' elems

/-! ### The condition -/

/-- The nodes can be added.  An element of one character is looked up as part of the one before it,
so both ways to the element after it must be there. -/
structure Creatable (t : VfsTree) (elems : List Str) : Prop where
  last : ¬ EndsShort elems
  first : ∀ elem rest, elems = elem :: rest → elem.length ≠ 1
  middle : ∀ front prev ch next rest, elems = front ++ prev :: [ch] :: next :: rest →
    (t.find [] (front ++ [prev, [ch], next])).isSome ∧
      (t.find [] (front ++ [prev ++ [ch], next])).isSome

/-- The file system at `mountpoint` has the file, or creates it. -/
def FileReady (t : VfsTree) (mountpoint : Addr) (path : Str) (mode : ℕ) : Prop :=
  if mode &&& oCreat ≠ 0 then
    ∃ handle, (nodeData t mountpoint).bind VfsNode.createHandle = some handle ∧ handle path mode = 0
  else ∃ fs, descriptor t mountpoint = some fs ∧ fs.fileExists path

/-- When `vfs_open` does what it is for. -/
def OpensRight (t : VfsTree) (elems : List Str) (trailing : Bool) (mode : ℕ) : Prop :=
  match getNodeFromPath t (pathOf elems trailing) with
  | .error _ => False
  | .ok (some _) => mode &&& oCreat ≠ 0 ∨ trailing ∨ ¬ EndsShort elems
  | .ok none => ∃ mountpoint path,
    getMountpointOfPath t (pathOf elems trailing) = .ok mountpoint ∧
    getMountpointRelativePath t mountpoint (pathOf elems trailing) = .ok path ∧
    (FileReady t mountpoint path.dropLast mode →
      (∃ fs, descriptor t mountpoint = some fs ∧ fs.fsOps.openSet) ∧ Creatable t elems)

/-! ### Adding one node -/

/-- `t'` is `t` with the node `i :: a` for the name `elem`. -/
structure Added (ops : VfsOps) (t t' : VfsTree) (a : Addr) (elem : Str) (i : ℕ) : Prop where
  ext : Ext t t'
  search : t'.search a elem = some i
  leaf : ∀ name, t'.search (i :: a) name = none
  new_iff : ∀ b, New t t' b ↔ b = i :: a
  node : t'.node (i :: a) = some (vfsNewNode elem ops)

theorem addMissing_cases {t : VfsTree} {names : List Str} {a : Addr}
    (ha : t.find [] names = some a) (elem : Str) (ops : VfsOps) :
    ((t.search a elem).isSome ∧ addMissing t a elem ops = t) ∨
      (t.search a elem = none ∧ ∃ i, Added ops t (addMissing t a elem ops) a elem i) := by
  cases hs : t.search a elem with
  | some i => exact Or.inl ⟨rfl, if_pos (by rw [hs]; rfl)⟩
  | none =>
    obtain ⟨p, hp⟩ := isSome_iff_exists.1 (isSome_of_find t.root ha)
    have hadd : addMissing t a elem ops = t.addChild a (vfsNewNode elem ops) :=
      if_neg (by rw [hs]; exact Bool.false_ne_true)
    rw [hadd]
    refine Or.inr ⟨rfl, t.freeSlot a p.slots, ext_addChild hp hs, search_addChild_self hp hs,
      search_addChild_new hp, fun b => new_addChild_iff hp, ?_⟩
    rw [node_addChild hp, withChild_new]

/-! ### When the nodes can be added -/

/-- The elements of `done` are in `t'`, and `t'` has no other new nodes.  Either nothing was missing
so far, or the last node is new and has no children. -/
structure Progress (t t' : VfsTree) (done : List Str) (g : Addr) : Prop where
  ext : Ext t t'
  found : t'.find [] done = some g
  phase : t' = t ∨ (t.find [] done = none ∧ ∀ name, t'.search g name = none)
  added : ∀ a, New t t' a → t'.chain a <+: done ∧ t.find [] (t'.chain a) = none
  unique : ∀ a b, New t t' a → New t t' b → t'.chain a = t'.chain b → a = b

section Good

variable {ops : VfsOps} {t t1 t2 : VfsTree} {done elems : List Str} {elem : Str} {g : Addr} {i : ℕ}

theorem not_new_self {a : Addr} : ¬ New t t a := fun h => by
  have := h.2
  rw [h.1] at this
  cases this

theorem Progress.refl (h : t.find [] done = some g) : Progress t t done g where
  ext := Ext.refl t
  found := h
  phase := Or.inl rfl
  added _ ha := absurd ha not_new_self
  unique _ _ ha := absurd ha not_new_self

theorem Progress.add (h : Progress t t1 done g) (hadd : Added ops t1 t2 g elem i)
    (hnone : t.find [] (done ++ [elem]) = none) : Progress t t2 (done ++ [elem]) (i :: g) := by
  have hfound : t2.find [] (done ++ [elem]) = some (i :: g) :=
    find_concat.2 ⟨g, i, hadd.ext.find h.found, hadd.search, rfl⟩
  have hchain : t2.chain (i :: g) = done ++ [elem] := chain_find hfound
  have hold : ∀ a, New t t1 a → t2.chain a = t1.chain a := fun a ha => hadd.ext.chain ha.2
  -- a new node is the one that was added, or it was new before
  have hcases : ∀ a, New t t2 a → New t t1 a ∨ a = i :: g := fun a ha =>
    ha.cases.imp_right (hadd.new_iff a).1
  have hne : ∀ a, New t t1 a → t2.chain a ≠ done ++ [elem] := fun a ha heq => by
    have hle := (h.added a ha).1.length_le
    rw [← hold a ha, heq, length_append, length_singleton] at hle
    omega
  refine ⟨h.ext.trans hadd.ext, hfound, Or.inr ⟨hnone, hadd.leaf⟩, fun a ha => ?_,
    fun a b ha hb hab => ?_⟩
  · rcases hcases a ha with ha | rfl
    · obtain ⟨hpre, hfind⟩ := h.added a ha
      rw [hold a ha]
      exact ⟨hpre.trans (prefix_append _ _), hfind⟩
    · rw [hchain]
      exact ⟨prefix_rfl, hnone⟩
  · rcases hcases a ha with ha | rfl <;> rcases hcases b hb with hb | rfl
    · exact h.unique a b ha hb (by rw [← hold a ha, ← hold b hb, hab])
    · exact absurd (hab.trans hchain) (hne a ha)
    · exact absurd (hab.symm.trans hchain) (hne b hb)
    · rfl

/-- **The loop adds the missing elements.** -/
theorem createLoop_progress (ops : VfsOps) (hc : Creatable t elems) {rest : List Str}
    (hsplit : elems = done ++ rest) (h : Progress t t1 done g) :
    ∃ t' g', createLoop ops done rest t1 = .ok t' ∧ Progress t t' elems g' := by
  induction rest generalizing done t1 g with
  | nil =>
    rw [append_nil] at hsplit
    exact ⟨t1, g, rfl, hsplit ▸ h⟩
  | cons elem rest ih =>
    have hsplit' : elems = done ++ [elem] ++ rest := by rw [hsplit, append_assoc]; rfl
    rw [createLoop]
    by_cases hshort : EndsShort done
    · rcases endsShort_cases hshort with ⟨ch, rfl, -⟩ | ⟨front, prev, ch, rfl, hmerge⟩
      · exact absurd rfl (hc.first [ch] _ hsplit)
      · -- both ways are there, so nothing is added
        obtain ⟨htrue, hmerged⟩ := hc.middle front prev ch elem rest (by simpa using hsplit)
        have hassoc : front ++ [prev, [ch], elem] = front ++ [prev, [ch]] ++ [elem] := by simp
        rw [hassoc] at htrue
        have hsame : t1 = t := h.phase.resolve_right fun hp => by
          have := isSome_find_of_append htrue
          rw [hp.1] at this
          cases this
        obtain ⟨g', hg'⟩ := isSome_iff_exists.1 htrue
        obtain ⟨b, hb⟩ := isSome_iff_exists.1 hmerged
        rw [show front ++ [prev ++ [ch], elem] = front ++ [prev ++ [ch]] ++ [elem] by simp] at hb
        obtain ⟨a, i, ha, hi, -⟩ := find_concat.1 hb
        simp only [hmerge, hsame, ha]
        rw [show addMissing t a elem ops = t from if_pos (by rw [hi]; rfl)]
        exact ih hsplit' (Progress.refl hg')
    · simp only [mergeLast_of_not_endsShort hshort, h.found]
      rcases addMissing_cases h.found elem ops with ⟨hs, hsame⟩ | ⟨hs, i, hadd⟩
      · -- the element is there, so nothing was missing before
        obtain ⟨i, hi⟩ := isSome_iff_exists.1 hs
        have ht : t1 = t := h.phase.resolve_right fun hp => by
          rw [hp.2 elem] at hi
          cases hi
        rw [hsame, ht]
        exact ih hsplit' (Progress.refl (find_concat.2 ⟨g, i, ht ▸ h.found, ht ▸ hi, rfl⟩))
      · refine ih hsplit' (h.add hadd ?_)
        rw [find_append]
        rcases h.phase with ht | hp
        · rw [← ht, h.found, bind_some, find_cons, hs]
          rfl
        · rw [hp.1]
          rfl

/-- **The nodes of a creatable path are added as they should be.** -/
theorem createLoop_of_creatable (hc : Creatable t elems) (ops : VfsOps) :
    ∃ t' g, createLoop ops [] elems t = .ok t' ∧ t'.find [] elems = some g ∧
      AddsOnly t t' elems := by
  obtain ⟨t', g, hrun, h⟩ := createLoop_progress ops hc (nil_append elems).symm
    (Progress.refl (find_nil : t.find [] [] = some []))
  exact ⟨t', g, hrun, h.found, h.ext.kept, h.added, h.unique⟩

end Good

/-! ### When they cannot -/

section Bad

variable {ops : VfsOps} {t t1 t2 t' : VfsTree} {done rest elems names : List Str} {elem : Str}
  {a g b : Addr}

/-- A short last element was merged with the one before it. -/
theorem exists_of_mergeLast (hshort : EndsShort done) (h : mergeLast done = some names) :
    ∃ front prev ch, done = front ++ [prev, [ch]] ∧ names = front ++ [prev ++ [ch]] := by
  rcases endsShort_cases hshort with ⟨ch, -, hmerge⟩ | ⟨front, prev, ch, hdone, hmerge⟩
  · cases h.symm.trans hmerge
  · exact ⟨front, prev, ch, hdone, Option.some.inj (h.symm.trans hmerge)⟩

theorem length_mergeLast (h : mergeLast done = some names) : names.length ≤ done.length := by
  by_cases hshort : EndsShort done
  · obtain ⟨front, prev, ch, rfl, rfl⟩ := exists_of_mergeLast hshort h
    simp
  · rw [mergeLast_of_not_endsShort hshort] at h
    cases h
    exact le_rfl

/-- A node below the merged element is not on the path. -/
theorem not_prefix_of_endsShort (hshort : EndsShort done) (h : mergeLast done = some names) :
    ¬ names ++ [elem] <+: done ++ rest := by
  intro hpre
  obtain ⟨front, prev, ch, rfl, rfl⟩ := exists_of_mergeLast hshort h
  simp only [append_assoc, prefix_append_right_inj, cons_append, cons_prefix_cons] at hpre
  have := congrArg List.length hpre.1
  simp at this

theorem createLoop_cons_ok (h : createLoop ops done (elem :: rest) t1 = .ok t') :
    ∃ names, mergeLast done = some names ∧ ((t1.find [] names = none ∧ t' = t1) ∨
      ∃ a, t1.find [] names = some a ∧
        createLoop ops (done ++ [elem]) rest (addMissing t1 a elem ops) = .ok t') := by
  rw [createLoop] at h
  cases hm : mergeLast done with
  | none =>
    rw [hm] at h
    cases h
  | some names =>
    simp only [hm] at h
    refine ⟨names, rfl, ?_⟩
    cases hf : t1.find [] names with
    | none =>
      rw [hf] at h
      exact Or.inl ⟨rfl, (Except.ok.inj h).symm⟩
    | some a =>
      rw [hf] at h
      exact Or.inr ⟨a, rfl, h⟩

theorem Ext.nodeData {n : VfsNode} (h : Ext t t') (hn : nodeData t a = some n) :
    nodeData t' a = some n := by
  rw [Vfs.nodeData, map_eq_some_iff] at hn ⊢
  obtain ⟨m, hm, rfl⟩ := hn
  obtain ⟨m', hm', -, hdata⟩ := h.kept a m hm
  exact ⟨m', hm', hdata⟩

/-- The loop adds nodes of the file system. -/
theorem createLoop_grows (h : createLoop ops done rest t1 = .ok t') :
    Ext t1 t' ∧ ∀ a, New t1 t' a → nodeData t' a = some ⟨ops, none, none⟩ := by
  induction rest generalizing done t1 with
  | nil =>
    cases h
    exact ⟨Ext.refl _, fun a ha => absurd ha not_new_self⟩
  | cons elem rest ih =>
    obtain ⟨names, -, ⟨-, rfl⟩ | ⟨a, ha, hrun⟩⟩ := createLoop_cons_ok h
    · exact ⟨Ext.refl _, fun a ha => absurd ha not_new_self⟩
    · obtain ⟨hext, hnew⟩ := ih hrun
      rcases addMissing_cases ha elem ops with ⟨-, hsame⟩ | ⟨-, i, hadd⟩
      · rw [hsame] at hext hnew
        exact ⟨hext, hnew⟩
      · refine ⟨hadd.ext.trans hext, fun b hb => ?_⟩
        rcases hb.cases with hb | hb
        · rw [hadd.new_iff] at hb
          rw [hb]
          exact Ext.nodeData hext (by rw [nodeData, hadd.node]; rfl)
        · exact hnew b hb

/-- When all new nodes are on the path, they are added from the top down. -/
theorem createLoop_deep (h : createLoop ops done rest t1 = .ok t')
    (hpre : ∀ a, New t1 t' a → t'.chain a <+: done ++ rest) (ha : New t1 t' a) :
    done.length < a.length := by
  induction rest generalizing done t1 with
  | nil =>
    cases h
    exact absurd ha not_new_self
  | cons elem rest ih =>
    obtain ⟨names, hm, ⟨-, rfl⟩ | ⟨b, hb, hrun⟩⟩ := createLoop_cons_ok h
    · exact absurd ha not_new_self
    · have hext := (createLoop_grows hrun).1
      have hsplit : done ++ elem :: rest = done ++ [elem] ++ rest := append_cons ..
      rcases addMissing_cases hb elem ops with ⟨-, hsame⟩ | ⟨-, i, hadd⟩
      · rw [hsame] at hrun
        have := ih hrun (hsplit ▸ hpre) ha
        rw [length_append] at this
        omega
      · rcases ha.cases with ha | ha
        · -- this node was added now, below the elements of `done`
          obtain rfl := (hadd.new_iff a).1 ha
          have hfound := hext.find (find_concat.2 ⟨b, i, hadd.ext.find hb, hadd.search, rfl⟩)
          have hlong : ¬ EndsShort done := fun hshort =>
            not_prefix_of_endsShort hshort hm (by
              have := hpre _ (ha.mono hext)
              rwa [chain_find hfound] at this)
          rw [mergeLast_of_not_endsShort hlong] at hm
          cases hm
          rw [length_cons, length_of_find hb, length_nil]
          omega
        · have := ih hrun (fun c hc => hsplit ▸ hpre c (hc.of_ext hadd.ext)) ha
          rw [length_append] at this
          omega

/-- What a round needs: the elements before it are not a single character, and when the last of them
is one, both ways are there. -/
def RoundOk (t : VfsTree) (done : List Str) (elem : Str) : Prop :=
  ∃ names, mergeLast done = some names ∧ (EndsShort done →
    (t.find [] (done ++ [elem])).isSome ∧ (t.find [] (names ++ [elem])).isSome)

/-- The tree before a round: nothing was missing so far or the last element was, and no new node is
further down. -/
structure RoundStart (t t1 : VfsTree) (done : List Str) : Prop where
  ext : Ext t t1
  phase : t1 = t ∨ t.find [] done = none
  depth : ∀ a, New t t1 a → a.length ≤ done.length

/-- A round after a single character adds nothing, and finds both ways. -/
theorem roundOk_step (hfound : t'.find [] elems = some g)
    (hpre : ∀ a, New t t' a → t'.chain a <+: elems) (hsplit : elems = done ++ elem :: rest)
    (h : RoundStart t t1 done) (hm : mergeLast done = some names)
    (hb : t1.find [] names = some b)
    (hrun : createLoop ops (done ++ [elem]) rest (addMissing t1 b elem ops) = .ok t') :
    RoundOk t done elem := by
  have hcons : elems = done ++ [elem] ++ rest := hsplit.trans (append_cons ..)
  have hext := (createLoop_grows hrun).1
  refine ⟨names, hm, fun hshort => ?_⟩
  have hstep := addMissing_cases hb elem ops
  obtain ⟨hs, hsame⟩ := hstep.resolve_right fun ⟨_, i, hadd⟩ => by
    have hfind := hext.find (find_concat.2 ⟨b, i, hadd.ext.find hb, hadd.search, rfl⟩)
    have hchain := hpre (i :: b) ((((hadd.new_iff _).2 rfl).mono hext).of_ext h.ext)
    rw [chain_find hfind, hsplit] at hchain
    exact not_prefix_of_endsShort hshort hm hchain
  rw [hsame] at hrun hext
  -- a node that is added later is further down
  have hdeep : ∀ a, New t1 t' a → done.length + 1 < a.length := fun a ha => by
    have hpre1 : ∀ a, New t1 t' a → t'.chain a <+: done ++ [elem] ++ rest := fun a ha =>
      hcons ▸ hpre a (ha.of_ext h.ext)
    simpa using createLoop_deep hrun hpre1 ha
  have htrue : (t.find [] (done ++ [elem])).isSome := by
    rw [isSome_iff_ne_none]
    intro hmiss
    have hsome : (t'.find [] (done ++ [elem] ++ rest)).isSome := by
      rw [← hcons, hfound]
      rfl
    obtain ⟨c, hc⟩ := isSome_iff_exists.1 (isSome_find_of_append hsome)
    have hlen := length_of_find hc
    rw [length_append, length_nil, length_singleton, Nat.zero_add] at hlen
    rcases ((h.ext.trans hext).new_of_find t.root hmiss hc).cases with hnew | hnew
    · have := h.depth c hnew
      omega
    · have := hdeep c hnew
      omega
  have ht : t1 = t := h.phase.resolve_right fun hmiss => by
    have := isSome_find_of_append htrue
    rw [hmiss] at this
    cases this
  obtain ⟨i, hi⟩ := isSome_iff_exists.1 hs
  refine ⟨htrue, ?_⟩
  rw [← ht, find_concat.2 ⟨b, i, hb, hi, rfl⟩]
  rfl

theorem RoundStart.step (h : RoundStart t t1 done) (hround : RoundOk t done elem)
    (hm : mergeLast done = some names) (hb : t1.find [] names = some b) :
    RoundStart t (addMissing t1 b elem ops) (done ++ [elem]) := by
  have hmissing : t.find [] done = none → t.find [] (done ++ [elem]) = none := fun hnone => by
    rw [find_append, hnone]
    rfl
  have hdepth : ∀ a, New t t1 a → a.length ≤ (done ++ [elem]).length := fun a ha =>
    (h.depth a ha).trans (by simp)
  rcases addMissing_cases hb elem ops with ⟨-, hsame⟩ | ⟨hs, i, hadd⟩
  · rw [hsame]
    exact ⟨h.ext, h.phase.imp_right hmissing, hdepth⟩
  · refine ⟨h.ext.trans hadd.ext, Or.inr ?_, fun a ha => ?_⟩
    · rcases h.phase with rfl | hmiss
      · by_cases hshort : EndsShort done
        · -- such a round adds nothing
          obtain ⟨names', hm', hways⟩ := hround
          cases hm.symm.trans hm'
          obtain ⟨c, hc⟩ := isSome_iff_exists.1 (hways hshort).2
          obtain ⟨b', i, hb', hi, -⟩ := find_concat.1 hc
          cases hb.symm.trans hb'
          cases hs.symm.trans hi
        · rw [mergeLast_of_not_endsShort hshort] at hm
          cases hm
          rw [find_append, hb, bind_some, find_cons, hs]
          rfl
      · exact hmissing hmiss
    · rcases ha.cases with ha | ha
      · exact hdepth a ha
      · have hlen := length_mergeLast hm
        rw [(hadd.new_iff a).1 ha, length_cons, length_of_find hb, length_nil, length_append,
          length_singleton]
        omega

/-- **When the loop adds what is missing and nothing else, each round has what it needs.** -/
theorem roundOk_of_createLoop (hnone : t.find [] elems = none)
    (hfound : t'.find [] elems = some g) (hpre : ∀ a, New t t' a → t'.chain a <+: elems)
    (h : createLoop ops done rest t1 = .ok t') (hsplit : elems = done ++ rest)
    (hstart : RoundStart t t1 done) {done' rest' : List Str}
    (hsplit' : elems = done' ++ elem :: rest') (hle : done.length ≤ done'.length) :
    RoundOk t done' elem := by
  induction rest generalizing done t1 with
  | nil =>
    have := congrArg List.length (hsplit.symm.trans hsplit')
    simp at this
    omega
  | cons next rest ih =>
    obtain ⟨names, hm, ⟨hf, rfl⟩ | ⟨b, hb, hrun⟩⟩ := createLoop_cons_ok h
    · -- the loop stops, and the last element is not there
      have hlen := length_of_find hfound
      have := hstart.depth g (hstart.ext.new_of_find t.root hnone hfound)
      rw [hsplit] at hlen
      simp at hlen
      omega
    · have hround := roundOk_step hfound hpre hsplit hstart hm hb hrun
      rcases Nat.eq_or_lt_of_le hle with heq | hlt
      · obtain ⟨rfl, hcons⟩ := append_inj (hsplit.symm.trans hsplit') heq
        cases hcons
        exact hround
      · exact ih hrun (hsplit.trans (append_cons ..)) (hstart.step hround hm hb)
          (by simpa using Nat.succ_le_of_lt hlt)

theorem creatable_of_createLoop (hlast : ¬ EndsShort elems) (hnone : t.find [] elems = none)
    (h : createLoop ops [] elems t = .ok t') (hfound : t'.find [] elems = some g)
    (hpre : ∀ a, New t t' a → t'.chain a <+: elems) :
    Creatable t elems := by
  have hround : ∀ done elem rest, elems = done ++ elem :: rest → RoundOk t done elem :=
    fun done elem rest hsplit => roundOk_of_createLoop hnone hfound hpre h rfl
      ⟨Ext.refl t, Or.inl rfl, fun a ha => absurd ha not_new_self⟩ hsplit (Nat.zero_le _)
  refine ⟨hlast, fun elem rest hsplit hlen => ?_, fun front prev ch next rest hsplit => ?_⟩
  · obtain ⟨ch, rfl⟩ := length_eq_one_iff.1 hlen
    cases rest with
    | nil => exact hlast ⟨ch, by rw [hsplit]; rfl⟩
    | cons next rest =>
      obtain ⟨names, hm, -⟩ := hround [[ch]] next rest hsplit
      cases hm
  · obtain ⟨names, hm, hways⟩ := hround (front ++ [prev, [ch]]) next rest (by simpa using hsplit)
    have hshort : EndsShort (front ++ [prev, [ch]]) := ⟨ch, by simp⟩
    obtain ⟨front', prev', ch', hdone, rfl⟩ := exists_of_mergeLast hshort hm
    obtain ⟨rfl, hlast⟩ := append_inj' hdone rfl
    cases hlast
    simpa using hways hshort

end Bad

/-! ### Opening -/

section Open

variable {ops : VfsOps} {t t' : VfsTree} {elems names : List Str} {trailing : Bool} {g a : Addr}

theorem AddsOnly.refl (t : VfsTree) (elems : List Str) : AddsOnly t t elems where
  kept _ n hn := ⟨n, hn, rfl, rfl⟩
  added _ ha := absurd ha not_new_self
  unique _ _ ha := absurd ha not_new_self

theorem merged_ne (hshort : EndsShort elems) (h : mergeLast elems = some names) :
    names ≠ elems := by
  obtain ⟨front, prev, ch, rfl, rfl⟩ := exists_of_mergeLast hshort h
  intro heq
  have := congrArg List.length heq
  simp at this

/-- The node is looked up without the `/` at the end, and its `open` is called. -/
theorem openCreated_pathOf (hne : elems ≠ []) (hes : ∀ e ∈ elems, IsElem e)
    (hloop : createLoop ops [] elems t = .ok t') :
    openCreated t (pathOf elems trailing) ops = match mergeLast elems with
      | none => .error .fault
      | some names => match t'.find [] names with
        | none => .error .assertion
        | some node =>
          if (nodeData t' node).any fun n => n.ops.openSet then .ok (.ok node, t')
          else .error .fault := by
  rw [openCreated, createMissingNodesFromPath_pathOf t ops hne hes, hloop]
  simp only [Except.map, ok_bind, getNodeFromPath_pathOf t' hne hes]
  cases mergeLast elems with
  | none => rfl
  | some names => rfl

/-- The node that is opened was added for the file system. -/
theorem openSet_of_find (hloop : createLoop ops [] elems t = .ok t')
    (hnone : t.find [] elems = none) (hg : t'.find [] elems = some g) :
    ((nodeData t' g).any fun n => n.ops.openSet) = ops.openSet := by
  obtain ⟨hext, hdata⟩ := createLoop_grows hloop
  rw [hdata g (hext.new_of_find t.root hnone hg)]
  rfl

theorem find_eq_none_of_lookup (hne : elems ≠ []) (hes : ∀ e ∈ elems, IsElem e)
    (hlast : ¬ EndsShort elems) (h : getNodeFromPath t (pathOf elems trailing) = .ok none) :
    t.find [] elems = none := by
  rw [getNodeFromPath_pathOf t hne hes, mergeLast_of_not_endsShort hlast] at h
  cases trailing <;> exact Except.ok.inj h

/-- **Adding the nodes of a file and opening it works for creatable paths only.** -/
theorem opens_openCreated_iff (hne : elems ≠ []) (hes : ∀ e ∈ elems, IsElem e)
    (hlookup : getNodeFromPath t (pathOf elems trailing) = .ok none) :
    Opens t elems (openCreated t (pathOf elems trailing) ops) ↔
      ops.openSet ∧ Creatable t elems := by
  constructor
  · intro h
    cases hloop : createLoop ops [] elems t with
    | error halt =>
      rw [openCreated, createMissingNodesFromPath_pathOf t ops hne hes, hloop] at h
      exact h.elim
    | ok t' =>
      rw [openCreated_pathOf hne hes hloop] at h
      by_cases hshort : EndsShort elems
      · -- a node is found under the wrong names
        exfalso
        cases hm : mergeLast elems with
        | none =>
          rw [hm] at h
          exact h
        | some names =>
          simp only [hm] at h
          cases hg : t'.find [] names with
          | none =>
            rw [hg] at h
            exact h
          | some g =>
            simp only [hg] at h
            split_ifs at h
            · have hchain := chain_find hg
              exact merged_ne hshort hm (hchain.symm.trans h.2.1)
            · exact h
      · have hnone := find_eq_none_of_lookup hne hes hshort hlookup
        simp only [mergeLast_of_not_endsShort hshort] at h
        cases hg : t'.find [] elems with
        | none =>
          rw [hg] at h
          exact h.elim
        | some g =>
          simp only [hg, openSet_of_find hloop hnone hg] at h
          split_ifs at h with hopen
          · exact ⟨hopen, creatable_of_createLoop hshort hnone hloop hg
              fun a ha => (h.2.2.added a ha).1⟩
          · exact h.elim
  · rintro ⟨hopen, hc⟩
    obtain ⟨t', g, hloop, hg, hadds⟩ := createLoop_of_creatable hc ops
    have hnone := find_eq_none_of_lookup hne hes hc.last hlookup
    rw [openCreated_pathOf hne hes hloop, mergeLast_of_not_endsShort hc.last]
    simp only [hg, openSet_of_find hloop hnone hg, if_pos hopen]
    exact ⟨isSome_of_find t'.root hg, chain_find hg, hadds⟩

/-- The mount point of a path has a file system. -/
theorem isSome_descriptor_getMountpointOfNode (hroot : (descriptor t []).isSome) (a : Addr) :
    (descriptor t (getMountpointOfNode t a)).isSome := by
  induction a with
  | nil => exact hroot
  | cons i a ih =>
    rw [getMountpointOfNode]
    split_ifs with h
    · exact h
    · exact ih

theorem isSome_descriptor_mountpointLoop (hroot : (descriptor t []).isSome) {i : ℕ}
    (h : mountpointLoop t names i = .ok a) : (descriptor t a).isSome := by
  induction i with
  | zero =>
    cases h
    exact hroot
  | succ i ih =>
    obtain ⟨node, -, h⟩ := bind_eq_ok.1 h
    cases node with
    | none => exact ih h
    | some node =>
      cases h
      exact isSome_descriptor_getMountpointOfNode hroot node

theorem isSome_descriptor_of_getMountpointOfPath (hroot : (descriptor t []).isSome) {path : Str}
    (h : getMountpointOfPath t path = .ok a) : (descriptor t a).isSome := by
  obtain ⟨names, -, h⟩ := bind_eq_ok.1 h
  exact isSome_descriptor_mountpointLoop hroot h

section

variable (hne : elems ≠ []) (hes : ∀ e ∈ elems, IsElem e) {node : Addr} {mode : ℕ}
include hne hes

/-- The node that is found has the names of the path, unless the last one was merged. -/
theorem chain_lookup_iff (hlookup : getNodeFromPath t (pathOf elems trailing) = .ok (some node)) :
    (t.node node).isSome ∧ (t.chain node = elems ↔ trailing ∨ ¬ EndsShort elems) := by
  rw [getNodeFromPath_pathOf t hne hes] at hlookup
  cases trailing with
  | true =>
    have hfind := Except.ok.inj hlookup
    exact ⟨isSome_of_find t.root hfind, iff_of_true (chain_find hfind) (Or.inl rfl)⟩
  | false =>
    cases hm : mergeLast elems with
    | none =>
      rw [hm] at hlookup
      cases hlookup
    | some names =>
      simp only [hm] at hlookup
      have hfind := Except.ok.inj hlookup
      have hchain : t.chain node = names := chain_find hfind
      refine ⟨isSome_of_find t.root hfind, ?_⟩
      rw [hchain, Bool.false_eq_true, false_or]
      constructor
      · intro h hshort
        exact merged_ne hshort hm h
      · intro hlast
        rw [mergeLast_of_not_endsShort hlast] at hm
        exact (Option.some.inj hm).symm

/-- What `vfs_open` does when the path is in the tree. -/
theorem opens_found_iff (hlookup : getNodeFromPath t (pathOf elems trailing) = .ok (some node)) :
    Opens t elems (vfsOpen t (pathOf elems trailing) mode) ↔
      mode &&& oCreat ≠ 0 ∨ trailing ∨ ¬ EndsShort elems := by
  obtain ⟨hnode, hchain⟩ := chain_lookup_iff hne hes hlookup
  rw [vfsOpen, hlookup, ok_bind, ← hchain]
  split_ifs with hmode
  · exact iff_of_true ⟨by decide, rfl⟩ (Or.inl hmode)
  · rw [or_iff_right hmode]
    exact ⟨fun h => h.2.1, fun h => ⟨hnode, h, AddsOnly.refl t elems⟩⟩

/-- What `vfs_open` does when the path is not in the tree. -/
theorem opens_file_iff {mountpoint : Addr} {path : Str} {fs : VfsFsDescriptor}
    (hlookup : getNodeFromPath t (pathOf elems trailing) = .ok none)
    (hmount : getMountpointOfPath t (pathOf elems trailing) = .ok mountpoint)
    (hrel : getMountpointRelativePath t mountpoint (pathOf elems trailing) = .ok path)
    (hfs : descriptor t mountpoint = some fs) :
    Opens t elems (vfsOpen t (pathOf elems trailing) mode) ↔
      (FileReady t mountpoint path.dropLast mode → fs.fsOps.openSet ∧ Creatable t elems) := by
  have hopen : Opens t elems (openCreated t (pathOf elems trailing) fs.fsOps) ↔ _ :=
    opens_openCreated_iff hne hes hlookup
  rw [vfsOpen, hlookup, ok_bind]
  simp only [hmount, hrel, ok_bind, hfs]
  rw [FileReady]
  by_cases hmode : mode &&& oCreat = 0
  · simp only [hmode, hfs]
    by_cases hexists : fs.fileExists path.dropLast
    · simpa [hexists] using hopen
    · simp [hexists, Opens, Errno.code]
  · simp only [hmode, ne_eq]
    cases (nodeData t mountpoint).bind VfsNode.createHandle with
    | none => simp [Opens, Errno.code]
    | some handle =>
      by_cases herr : handle path.dropLast mode = 0
      · simpa [herr] using hopen
      · simp [herr, Opens]

end

/-- **`vfs_open` returns the node of the path, adding nodes for missing elements only, exactly when
the elements of one character are not in the way.** -/
theorem vfsOpen_iff (t : VfsTree) (elems : List Str) (trailing : Bool) (mode : ℕ)
    (hroot : (descriptor t []).isSome) (hes : ∀ e ∈ elems, IsElem e)
    (hpath : elems ≠ [] ∨ trailing) :
    Opens t elems (vfsOpen t (pathOf elems trailing) mode) ↔ OpensRight t elems trailing mode := by
  by_cases hne : elems = []
  · -- the path is a single `/`
    subst hne
    obtain rfl : trailing = true := hpath.resolve_left fun h => h rfl
    have hlookup : getNodeFromPath t (pathOf [] true) = .ok (some []) := rfl
    have hright : OpensRight t [] true mode := by simp [OpensRight, hlookup]
    refine iff_of_true ?_ hright
    rw [vfsOpen, hlookup, ok_bind]
    split_ifs
    · exact ⟨by decide, rfl⟩
    · exact ⟨t.root, rfl, AddsOnly.refl t []⟩
  · rw [OpensRight]
    cases hlookup : getNodeFromPath t (pathOf elems trailing) with
    | error halt =>
      rw [vfsOpen, hlookup]
      exact Iff.rfl
    | ok node =>
      cases node with
      | some node => exact opens_found_iff hne hes hlookup
      | none =>
        constructor
        · intro h
          -- `vfs_open` gets past the two functions for the mount point
          cases hmount : getMountpointOfPath t (pathOf elems trailing) with
          | error halt =>
            rw [vfsOpen, hlookup, ok_bind, hmount] at h
            exact h.elim
          | ok mountpoint =>
            cases hrel : getMountpointRelativePath t mountpoint (pathOf elems trailing) with
            | error halt =>
              simp only [vfsOpen, hlookup, ok_bind, hmount, hrel] at h
              exact h.elim
            | ok path =>
              obtain ⟨fs, hfs⟩ := isSome_iff_exists.1
                (isSome_descriptor_of_getMountpointOfPath hroot hmount)
              refine ⟨mountpoint, path, rfl, hrel, fun hready => ?_⟩
              have hcond := (opens_file_iff hne hes hlookup hmount hrel hfs).1 h hready
              exact ⟨⟨fs, hfs, hcond.1⟩, hcond.2⟩
        · rintro ⟨mountpoint, path, hmount, hrel, hcond⟩
          obtain ⟨fs, hfs⟩ := isSome_iff_exists.1
            (isSome_descriptor_of_getMountpointOfPath hroot hmount)
          refine (opens_file_iff hne hes hlookup hmount hrel hfs).2 fun hready => ?_
          obtain ⟨⟨fs', hfs', hopen⟩, hc⟩ := hcond hready
          rw [hfs] at hfs'
          cases hfs'
          exact ⟨hopen, hc⟩

end Open

/-! ### A tree with only its root -/

/-- The root node, with a file system that has every file. -/
def mountedRoot : VfsTree where
  node
    | [] => some ⟨[], 10, ⟨⟨false⟩, none, some ⟨⟨true⟩, fun _ => true⟩⟩⟩
    | _ :: _ => none
  root := rfl
  parent := nofun

/-- The names `usr`, `lib`, `x`. -/
def nameUsr : Str := [0x75, 0x73, 0x72]

@[inherit_doc nameUsr]
def nameLib : Str := [0x6c, 0x69, 0x62]

@[inherit_doc nameUsr]
def nameX : Str := [0x78]

theorem isElem_names : ∀ e ∈ [nameUsr, nameLib, nameX], IsElem e := by
  simp only [IsElem]
  decide

/-- Opening `/usr/lib` adds two nodes. -/
theorem vfsOpen_usr_lib : OpensRight mountedRoot [nameUsr, nameLib] false 0 ∧
    Opens mountedRoot [nameUsr, nameLib]
      (vfsOpen mountedRoot (pathOf [nameUsr, nameLib] false) 0) := by
  have hright : OpensRight mountedRoot [nameUsr, nameLib] false 0 := by
    refine ⟨[], pathOf [nameUsr, nameLib] true, rfl, rfl, fun _ => ⟨⟨_, rfl, rfl⟩, ⟨?_, ?_, ?_⟩⟩⟩
    · rintro ⟨ch, h⟩
      cases h
    · rintro elem rest h
      cases h
      decide
    · intro front prev ch next rest h
      have := congrArg List.length h
      simp at this
      omega
  refine ⟨hright, (vfsOpen_iff mountedRoot [nameUsr, nameLib] false 0 rfl (fun e he => ?_)
    (Or.inl (by simp))).2 hright⟩
  exact isElem_names e (by simp at he ⊢; tauto)

/-- Opening `/x` reads in front of a null array, and opening `/usr/x` adds two nodes, looks up
`usrx` and fails the assertion. -/
theorem vfsOpen_x : vfsOpen mountedRoot (pathOf [nameX] false) 0 = .error .fault ∧
    vfsOpen mountedRoot (pathOf [nameUsr, nameX] false) 0 = .error .assertion ∧
    ¬ Opens mountedRoot [nameX] (vfsOpen mountedRoot (pathOf [nameX] false) 0) ∧
    ¬ Opens mountedRoot [nameUsr, nameX]
      (vfsOpen mountedRoot (pathOf [nameUsr, nameX] false) 0) := by
  exact ⟨rfl, rfl, id, id⟩

end Vfs

end DripOS
