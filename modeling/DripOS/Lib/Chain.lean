import Mathlib.Data.List.Nodup

/-!
# Chains of a successor function

A table gives the successor of every cell, and a mark `stop` ends a chain.  `ChainFrom next stop b
l` says that the chain from `b` is the finite list `l`.  It is determined by its first cell
(`ChainFrom.unique`) and repeats no cell (`ChainFrom.nodup`).

`DisjointChains` is the invariant of a family of chains in one table: they are finite, stay in a
given region, and do not meet.  A chain may be extended at its end by a free cell
(`DisjointChains.extend`), and a free cell may become a chain (`DisjointChains.insert`).
-/

namespace DripOS

open List Function

variable {α ι : Type*}

/-- The chain of `next` from a cell, up to the mark `stop`. -/
inductive ChainFrom (next : α → α) (stop : α) : α → List α → Prop
  | last {b : α} : next b = stop → ChainFrom next stop b [b]
  | cons {b : α} {l : List α} :
      next b ≠ stop → ChainFrom next stop (next b) l → ChainFrom next stop b (b :: l)

namespace ChainFrom

variable {next next' : α → α} {stop b b' c : α} {l l' : List α}

variable (h : ChainFrom next stop b l)
include h

theorem ne_nil : l ≠ [] := by
  cases h <;> exact cons_ne_nil _ _

theorem head_mem : b ∈ l := by
  cases h <;> exact mem_cons_self

theorem unique (h' : ChainFrom next stop b l') : l = l' := by
  induction h generalizing l' with
  | last hb =>
    cases h' with
    | last => rfl
    | cons hne => exact absurd hb hne
  | cons hne _ ih =>
    cases h' with
    | last hb => exact absurd hb hne
    | cons _ ht => rw [ih ht]

/-- From each of its cells on, a chain is a chain. -/
theorem exists_suffix (hc : c ∈ l) : ∃ l', ChainFrom next stop c l' ∧ l' <:+ l := by
  induction h with
  | last hb =>
    obtain rfl := mem_singleton.1 hc
    exact ⟨_, last hb, suffix_rfl⟩
  | cons hne ht ih =>
    rcases mem_cons.1 hc with rfl | hc
    · exact ⟨_, cons hne ht, suffix_rfl⟩
    · obtain ⟨l', hl', hsuf⟩ := ih hc
      exact ⟨l', hl', hsuf.trans (suffix_cons _ _)⟩

theorem nodup : l.Nodup := by
  induction h with
  | last => exact nodup_singleton _
  | @cons b l hne ht ih =>
    refine nodup_cons.2 ⟨fun hmem => ?_, ih⟩
    -- the chain from `b` would be shorter than itself
    obtain ⟨l', hl', hsuf⟩ := ht.exists_suffix hmem
    have hlen := hsuf.length_le
    rw [hl'.unique (cons hne ht), length_cons] at hlen
    exact Nat.not_succ_le_self _ hlen

/-- A chain from one of its cells on. -/
theorem drop {n : ℕ} (hc : l[n]? = some c) : ChainFrom next stop c (l.drop n) := by
  induction h generalizing n with
  | @last b hb =>
    cases n with
    | zero =>
      obtain rfl : b = c := Option.some.inj hc
      exact last hb
    | succ n => simp at hc
  | @cons b l hne ht ih =>
    cases n with
    | zero =>
      obtain rfl : b = c := Option.some.inj hc
      exact cons hne ht
    | succ n => exact ih hc

theorem congr (hn : ∀ c ∈ l, next' c = next c) : ChainFrom next' stop b l := by
  induction h with
  | last hb => exact last ((hn _ mem_cons_self).trans hb)
  | cons hne _ ih =>
    have hb := hn _ mem_cons_self
    refine cons (hb ▸ hne) ?_
    rw [hb]
    exact ih fun c hc => hn c (mem_cons_of_mem _ hc)

/-- The successor of a cell of a chain is the mark or a cell of the chain. -/
theorem next_mem (hc : c ∈ l) : next c = stop ∨ next c ∈ l := by
  induction h with
  | last hb =>
    obtain rfl := mem_singleton.1 hc
    exact Or.inl hb
  | cons _ ht ih =>
    rcases mem_cons.1 hc with rfl | hc
    · exact Or.inr (mem_cons_of_mem _ ht.head_mem)
    · exact (ih hc).imp_right (mem_cons_of_mem _)

/-- A cell that leads out of the region of a chain is not on it. -/
theorem not_mem {ok : α → Prop} (hok : ∀ c ∈ l, ok c) (hstop : next c ≠ stop) (hc : ¬ ok (next c)) :
    c ∉ l := fun hmem =>
  (h.next_mem hmem).elim hstop fun hn => hc (hok _ hn)

/-- Link a cell behind the last one. -/
theorem extend {t : α} (ht : l.getLast? = some t) (hc : c ∉ l) (hstop : c ≠ stop)
    (hnt : next' t = c) (hnc : next' c = stop) (hn : ∀ d ∈ l, d ≠ t → next' d = next d) :
    ChainFrom next' stop b (l ++ [c]) := by
  induction h with
  | last hb =>
    rw [List.getLast?_singleton, Option.some.injEq] at ht
    subst ht
    refine cons (hnt ▸ hstop) ?_
    rw [hnt]
    exact last hnc
  | @cons b l hne hl ih =>
    rw [List.getLast?_cons_of_ne_nil hl.ne_nil] at ht
    have hb : next' b = next b := hn b mem_cons_self fun hbt =>
      (nodup_cons.1 (cons hne hl).nodup).1 (hbt ▸ List.mem_of_getLast? ht)
    refine cons (hb ▸ hne) ?_
    rw [hb]
    exact ih ht (fun hmem => hc (mem_cons_of_mem _ hmem))
      fun d hd => hn d (mem_cons_of_mem _ hd)

end ChainFrom

/-! ### Families of chains -/

/-- The chains from the given first cells are finite, stay in the region `ok`, and do not meet. -/
structure DisjointChains (next : α → α) (stop : α) (ok : α → Prop) (first : ι → Option α) :
    Prop where
  chain : ∀ i b, first i = some b → ∃ l, ChainFrom next stop b l ∧ l.Nodup ∧ ∀ c ∈ l, ok c
  disjoint : ∀ i j b b' l l', i ≠ j → first i = some b → first j = some b' →
    ChainFrom next stop b l → ChainFrom next stop b' l' → l.Disjoint l'

namespace DisjointChains

variable {next next' : α → α} {stop b c : α} {ok : α → Prop} {first first' : ι → Option α} {i : ι}
  {l : List α}

/-- The cells of a chain of the family lie in the region. -/
theorem ok_of_mem (h : DisjointChains next stop ok first) (hi : first i = some b)
    (hl : ChainFrom next stop b l) (hc : c ∈ l) : ok c := by
  obtain ⟨l', hl', -, hok⟩ := h.chain i b hi
  exact hok c (hl.unique hl' ▸ hc)

/-- A table that agrees on the region has the same chains. -/
theorem congr (h : DisjointChains next stop ok first) (hn : ∀ c, ok c → next' c = next c) :
    DisjointChains next' stop ok first := by
  -- the chains of the old table are those of the new one
  have hchain : ∀ i b l, first i = some b → ChainFrom next' stop b l →
      ChainFrom next stop b l := fun i b l hi hl => by
    obtain ⟨l0, hl0, -, hok⟩ := h.chain i b hi
    exact hl.unique (hl0.congr fun c hc => hn c (hok c hc)) ▸ hl0
  refine ⟨fun i b hi => ?_, fun i j b b' l l' hij hi hj hl hl' => ?_⟩
  · obtain ⟨l, hl, hnd, hok⟩ := h.chain i b hi
    exact ⟨l, hl.congr fun c hc => hn c (hok c hc), hnd, hok⟩
  · exact h.disjoint i j b b' l l' hij hi hj (hchain i b l hi hl) (hchain j b' l' hj hl')

/-- A cell of the region that is on no chain of the family. -/
def Free (next : α → α) (stop : α) (ok : α → Prop) (first : ι → Option α) (c : α) : Prop :=
  ok c ∧ c ≠ stop ∧ ∀ i b l, first i = some b → ChainFrom next stop b l → c ∉ l

/-- A cell of the region that leads out of the region is free. -/
theorem free_of_next (h : DisjointChains next stop ok first) (hc : ok c) (hne : c ≠ stop)
    (hstop : next c ≠ stop) (hout : ¬ ok (next c)) :
    Free next stop ok first c :=
  ⟨hc, hne, fun _ _ _ hi hl => hl.not_mem (fun _ hd => h.ok_of_mem hi hl hd) hstop hout⟩

/-- Give an index a chain that meets none of the others. -/
theorem replace [DecidableEq ι] (h : DisjointChains next stop ok first) {i : ι} {b : α}
    {l : List α} (hl : ChainFrom next' stop b l) (hok : ∀ c ∈ l, ok c)
    (hother : ∀ j b' l', j ≠ i → first j = some b' → ChainFrom next stop b' l' →
      (∀ c ∈ l', next' c = next c) ∧ l.Disjoint l') :
    DisjointChains next' stop ok (update first i (some b)) := by
  have hold : ∀ j b' l', j ≠ i → first j = some b' → ChainFrom next' stop b' l' →
      ChainFrom next stop b' l' := fun j b' l' hj hb' hl' => by
    obtain ⟨l0, hl0, -, -⟩ := h.chain j b' hb'
    exact hl'.unique (hl0.congr (hother j b' l0 hj hb' hl0).1) ▸ hl0
  have hmeet : ∀ j b' l1 l', j ≠ i → first j = some b' → ChainFrom next' stop b l1 →
      ChainFrom next' stop b' l' → l1.Disjoint l' := fun j b' l1 l' hj hb' hl1 hl' =>
    hl1.unique hl ▸ (hother j b' l' hj hb' (hold j b' l' hj hb' hl')).2
  refine ⟨fun j b' hb' => ?_, fun j k b1 b2 l1 l2 hjk h1 h2 hl1 hl2 => ?_⟩
  · by_cases hj : j = i
    · subst hj
      obtain rfl := Option.some.inj ((update_self j _ first).symm.trans hb')
      exact ⟨l, hl, hl.nodup, hok⟩
    · rw [update_of_ne hj] at hb'
      obtain ⟨l', hl', hnd, hok'⟩ := h.chain j b' hb'
      exact ⟨l', hl'.congr (hother j b' l' hj hb' hl').1, hnd, hok'⟩
  · by_cases hj : j = i
    · subst hj
      obtain rfl := Option.some.inj ((update_self j _ first).symm.trans h1)
      rw [update_of_ne hjk.symm] at h2
      exact hmeet k b2 l1 l2 hjk.symm h2 hl1 hl2
    · rw [update_of_ne hj] at h1
      by_cases hk : k = i
      · subst hk
        obtain rfl := Option.some.inj ((update_self k _ first).symm.trans h2)
        exact List.disjoint_comm.1 (hmeet j b1 l2 l1 hj h1 hl2 hl1)
      · rw [update_of_ne hk] at h2
        exact h.disjoint j k b1 b2 l1 l2 hjk h1 h2 (hold j b1 l1 hj h1 hl1)
          (hold k b2 l2 hk h2 hl2)

/-- **Extending a chain** by a free cell `c` behind the last cell `t` of the chain of `i`. -/
theorem extend [DecidableEq ι] (h : DisjointChains next stop ok first) {t : α}
    (hi : first i = some b) (hl : ChainFrom next stop b l) (ht : l.getLast? = some t)
    (hc : Free next stop ok first c) (hnt : next' t = c) (hnc : next' c = stop)
    (hn : ∀ d, d ≠ t → d ≠ c → next' d = next d) :
    DisjointChains next' stop ok first ∧ ChainFrom next' stop b (l ++ [c]) := by
  have hcl : c ∉ l := hc.2.2 i b l hi hl
  have htl : t ∈ l := List.mem_of_getLast? ht
  have hext : ChainFrom next' stop b (l ++ [c]) := hl.extend ht hcl hc.2.1 hnt hnc
    fun d hd hdt => hn d hdt fun hdc => hcl (hdc ▸ hd)
  have hsame : update first i (some b) = first := by rw [← hi, update_eq_self]
  refine ⟨hsame ▸ h.replace hext ?_ fun j b' l' hj hb' hl' => ?_, hext⟩
  · intro d hd
    rcases mem_append.1 hd with hd | hd
    · exact h.ok_of_mem hi hl hd
    · exact mem_singleton.1 hd ▸ hc.1
  · have hcl' : c ∉ l' := hc.2.2 j b' l' hb' hl'
    have hdisj : l.Disjoint l' := h.disjoint i j b b' l l' hj.symm hi hb' hl hl'
    refine ⟨fun d hd => hn d (fun hdt => hdisj htl (hdt ▸ hd)) fun hdc => hcl' (hdc ▸ hd), ?_⟩
    exact disjoint_append_left.2 ⟨hdisj, singleton_disjoint.2 hcl'⟩

/-- **A new chain.**  A free cell becomes the chain of an index. -/
theorem insert [DecidableEq ι] (h : DisjointChains next stop ok first) (i : ι)
    (hc : Free next stop ok first c) (hnc : next' c = stop) (hn : ∀ d, d ≠ c → next' d = next d) :
    DisjointChains next' stop ok (update first i (some c)) :=
  h.replace (.last hnc) (fun _ hd => mem_singleton.1 hd ▸ hc.1) fun j b' l' _ hb' hl' =>
    have hcl' : c ∉ l' := hc.2.2 j b' l' hb' hl'
    ⟨fun d hd => hn d fun hdc => hcl' (hdc ▸ hd), singleton_disjoint.2 hcl'⟩

end DisjointChains

end DripOS
