import DripOS.Lib.TableForest
import DripOS.Mm.Teardown

/-!
# Address spaces that share their upper half

`vmm_fork_higher_half` and `vmm_fork` copy the entries 256 to 511 of a root table, so that address
spaces share the tables below them.  A `Family` is a set of well-formed address spaces that share
tables of the upper half only, each at one place (instantiating `DripOS.Lib.TableForest`).

* `Machine.vmmMapPages_extends` and its relatives : mapping, remapping and unmapping pages extends
  the tree of one address space;
* `Family.extend` : the family stays one, and every root entry goes on leading to its table;
* `Family.fork` : a new root joins the family;
* `Family.teardown` : an address space whose lower half maps no table of the family leaves it.
-/

namespace DripOS

open TableTree List

/-! ### Larger entries -/

/-- The entries of 2 MiB and of 1 GiB were there before. -/
def LargeKept (r : ℕ) (s s' : Machine) : Prop :=
  ∀ π t i, π.length ≤ 2 → pageWalk s'.mem r π = some t → Present (s'.mem t i) → Huge (s'.mem t i) →
    pageWalk s.mem r π = some t ∧ s'.mem t i = s.mem t i

namespace LargeKept

variable {r : ℕ} {s s' s'' : Machine}

theorem trans (h : LargeKept r s s') (h' : LargeKept r s' s'') : LargeKept r s s'' := by
  intro π t i hlen ht hp hh
  obtain ⟨ht', he'⟩ := h' π t i hlen ht hp hh
  rw [he'] at hp hh ⊢
  exact h π t i hlen ht' hp hh

theorem regular (h : LargeKept r s s') {v : PtOff} (hv : Regular s.mem r v) :
    Regular s'.mem r v where
  noGiant t ht hp hh := by
    obtain ⟨ht', he⟩ := h _ t _ (by simp) ht hp hh
    rw [he] at hp hh
    exact hv.noGiant t ht' hp hh
  aligned t ht hp hh := by
    obtain ⟨ht', he⟩ := h _ t _ (by simp) ht hp hh
    rw [he] at hp hh ⊢
    exact hv.aligned t ht' hp hh

theorem small (h : LargeKept r s s') (hs : SmallPages s.mem r) : SmallPages s'.mem r := by
  intro π t i hne hlow hlen ht hp hh
  obtain ⟨ht', he⟩ := h π t i hlen ht hp hh
  rw [he] at hp hh
  exact hs π t i hne hlow hlen ht' hp hh

end LargeKept

/-! ### Extending one tree -/

/-- What an operation on the address space does: new tables are in frames that were free, and used
frames that are no tables of it are left alone. -/
structure Extends (r : ℕ) (s s' : Machine) : Prop where
  ok : TreeOk s' r
  grows : Grows pageChild s.pmm.Used r s.mem s'.mem
  used : ∀ f, s.pmm.Used f → s'.pmm.Used f
  large : LargeKept r s s'

namespace Extends

variable {r : ℕ} {s s' s'' : Machine}

theorem refl (h : TreeOk s r) : Extends r s s where
  ok := h
  grows := Grows.refl
  used _ h := h
  large _ _ _ _ ht _ _ := ⟨ht, rfl⟩

theorem trans (h : Extends r s s') (h' : Extends r s' s'') : Extends r s s'' where
  ok := h'.ok
  grows := h.grows.trans h'.grows h.used
  used f hf := h'.used f (h.used f hf)
  large := h.large.trans h'.large

theorem wellFormed (h : Extends r s s') (hs : Machine.WellFormed s r) : Machine.WellFormed s' r :=
  ⟨h.ok, fun v => h.large.regular (hs.regular v)⟩

theorem of_touch {V : Set PtOff} (h : Touch r V s s') : Extends r s s' where
  ok := h.ok
  grows := ⟨h.walk, fun π t ht => (h.fresh π t ht).imp_right fun hf => hf.1,
    fun f _ hf => h.frame f hf⟩
  used _ hf := h.used_of_used hf
  large := h.huge

theorem of_reserved {a n : ℕ} (h : Reserved s a n s') (hr : TreeOk s r) : Extends r s s' where
  ok := h.tree hr
  grows :=
    { walk := fun π _ ht => (h.walk hr π).trans ht
      fresh := fun π _ ht => Or.inl ((h.walk hr π).symm.trans ht)
      frame := fun f hf _ => h.other f fun hb => h.not_used hb.1 hb.2 hf }
  used f hf := (h.used f).2 (Or.inr hf)
  large π t i _ ht _ _ := by
    rw [h.walk hr] at ht
    exact ⟨ht, by rw [h.table hr t ⟨π, ht⟩]⟩

theorem setLeaf {table : Ptr} {v : PtOff} (hok : TreeOk s r)
    (ht : pageWalk s.mem r v.tables = some (Machine.tableFrame table)) (e : ℕ) :
    Extends r s (s.setEntry table v.p1Off e) := by
  have hw := @Machine.pageWalk_setLeaf s r table v e hok ht
  refine ⟨hok.congr hw fun t ⟨π, hπ⟩ => hok.used π t hπ,
    ⟨fun π t h => (hw π).trans h, fun π t h => Or.inl ((hw π).symm.trans h), ?_⟩,
    fun _ hf => hf, ?_⟩
  · intro f _ hf
    funext i
    rw [Machine.mem_setEntry, if_neg]
    rintro ⟨rfl, -⟩
    exact hf ⟨_, (hw _).trans ht⟩
  · intro π t i hlen hπ _ _
    rw [hw] at hπ
    refine ⟨hπ, Machine.mem_setLeaf hok ht hπ fun he => ?_⟩
    have := congrArg List.length he
    simp only [PtOff.path, length_cons] at this
    omega

end Extends

namespace Machine

variable {s : Machine} {r : ℕ}

/-! ### The operations on one address space -/

section

variable (hs : WellFormed s r)
include hs

theorem vmmGetTable_extends (v : PtOff) :
    EnsuresFree (s.vmmGetTable v (r * 0x1000)) fun res =>
      Extends r s res.2 ∧ pageWalk res.2.mem r v.tables = some (tableFrame res.1.p1) :=
  (vmmGetTable_spec hs.toTreeOk (hs.regular v) (Set.mem_singleton v)).mono
    fun _ h => ⟨Extends.of_touch h.1, h.2.2⟩

/-- The rule for loops over pages. -/
theorem forRange_extends {n : ℕ} {body : ℕ → ℕ × Machine → Except Halt (ℕ × Machine)}
    {allow : Halt → Prop}
    (hround : ∀ i st, WellFormed st.2 r →
      Ensures allow (body i st) fun st' => Extends r st.2 st'.2) :
    Ensures allow (forRange n body (0, s)) fun st => Extends r s st.2 :=
  Ensures.forRange (fun _ st => Extends r s st.2) (Extends.refl hs.toTreeOk) fun i st _ hst =>
    (hround i st (hst.wellFormed hs)).mono fun _ h => hst.trans h

theorem vmmMapPages_extends (phys virt count perms : ℕ) :
    EnsuresFree (s.vmmMapPages phys virt (r * 0x1000) count perms)
      fun res => Extends r s res.2 := by
  refine forRange_extends hs fun i st hst => ?_
  refine (vmmGetTable_extends hst _).bind ?_
  rintro ⟨pt, s1⟩ ⟨hext, ht⟩
  split_ifs with hp
  · exact hext.trans (Extends.setLeaf hext.ok ht _)
  · exact hext

theorem vmmRemapPages_extends (phys virt count perms : ℕ) :
    EnsuresFree (s.vmmRemapPages phys virt (r * 0x1000) count perms)
      fun res => Extends r s res.2 := by
  refine forRange_extends hs fun i st hst => ?_
  refine (vmmGetTable_extends hst _).bind ?_
  rintro ⟨pt, s1⟩ ⟨hext, ht⟩
  exact hext.trans (Extends.setLeaf hext.ok ht _)

theorem vmmUnmapPages_extends (virt count : ℕ) :
    EnsuresFree (s.vmmUnmapPages virt (r * 0x1000) count)
      fun res => Extends r s res.2 := by
  refine forRange_extends hs fun i st hst => ?_
  refine (vmmGetTable_extends hst _).bind ?_
  rintro ⟨pt, s1⟩ ⟨hext, ht⟩
  split_ifs with hp
  · exact hext.trans (Extends.setLeaf hext.ok ht _)
  · exact hext

theorem memcpyPage_extends {s1 : Machine} {g : ℕ} (hmem : s1.mem = s.mem)
    (ha : Pmm.Allocated s.pmm 1 g s1.pmm) (src : ℕ) :
    Ensures (fun _ => True) (s1.memcpyPage src (g * 0x1000)) (Extends r s) := by
  have hg := tableFrame_getHigherHalf ha.lowest.lt_two_pow
  unfold memcpyPage
  split_ifs with halign
  · refine Extends.of_reserved (a := g) (n := 1) ⟨ha, fun f hf => ?_⟩ hs.toTreeOk
    rw [mem_writePage, hg, if_neg (by omega), hmem]
  · trivial

/-- The innermost body of `vmm_fork` extends the copy. -/
theorem vmmForkPage_extends (old : ℕ) (tableX : Ptr) (v : PtOff) :
    Ensures (fun _ => True) (s.vmmForkPage old (r * 0x1000) tableX v) (Extends r s) := by
  have hmap : ∀ (s2 : Machine) (phys virt perms : ℕ), Extends r s s2 →
      Ensures (fun _ => True) (s2.vmmMapPages phys virt (r * 0x1000) 1 perms)
        fun res => Extends r s res.2 := by
    intro s2 phys virt perms h2
    refine ((vmmMapPages_extends (h2.wellFormed hs) phys virt 1 perms).mono ?_).mono_allow ?_
    · exact fun _ h => h2.trans h
    · exact fun _ _ => trivial
  unfold vmmForkPage
  dsimp only
  generalize s.virtToPhys (vmmOffsToVirt v) old = src
  refine (pmmAlloc_page.mono_allow fun _ _ => trivial).bind fun new ⟨g, hx, hmem, ha⟩ => ?_
  rw [hx]
  refine (memcpyPage_extends hs hmem ha _).bind fun s2 h2 => ?_
  exact (hmap s2 _ _ _ h2).bind fun _ h => h

end

theorem forPresent_extends {n : ℕ} (hn : n ≤ 512) {table : Ptr}
    {body : Fin 512 → Ptr → Machine → Except Halt Machine} {s1 : Machine}
    (h1 : Extends r s s1)
    (hbody : ∀ i table s2, Extends r s s2 →
      Ensures (fun _ => True) (body i table s2) (Extends r s)) :
    Ensures (fun _ => True) (s1.forPresent n table body) (Extends r s) :=
  ensures_forPresent hn (fun _ => Extends r s) h1 (fun _ _ _ h _ => h)
    fun i s2 _ h _ => hbody i _ s2 h

end Machine

/-! ### A new root -/

namespace HigherHalf

variable {s s' : Machine} {o n : ℕ}

theorem reserved (h : HigherHalf s o n s') : Reserved s n 1 s' :=
  ⟨h.alloc, fun f hf => h.other f fun he => hf (by omega)⟩

theorem small (h : HigherHalf s o n s') : SmallPages s'.mem n := by
  intro π t i hne hlow _ ht
  rw [h.walk_low hlow hne] at ht
  cases ht

/-- The larger entries of the upper half are the old ones. -/
theorem wellFormed (h : HigherHalf s o n s') (ho : Machine.WellFormed s o) :
    Machine.WellFormed s' n := by
  refine ⟨h.tree ho.toTreeOk, fun v => ?_⟩
  by_cases hv : v.Low
  · exact h.small.regular hv
  have hhigh1 : ¬ LowPath [v.p4Off] := fun hlow => hv (lowPath_singleton.1 hlow)
  have hhigh2 : ¬ LowPath [v.p3Off, v.p4Off] :=
    fun hlow => hhigh1 (hlow.of_suffix (suffix_cons _ _))
  refine ⟨fun t ht => ?_, fun t ht => ?_⟩
  · rw [h.walk_high ho.toTreeOk hhigh1] at ht
    rw [h.oldTable ho.toTreeOk ht]
    exact (ho.regular v).noGiant t ht
  · rw [h.walk_high ho.toTreeOk hhigh2] at ht
    rw [h.oldTable ho.toTreeOk ht]
    exact (ho.regular v).aligned t ht

end HigherHalf

namespace Machine

/-- **`vmm_fork` makes a new root and extends its tree.** -/
theorem vmmFork_extends {s : Machine} {o : ℕ} (ho : WellFormed s o) :
    Ensures (fun _ => True) (s.vmmFork (o * 0x1000)) fun res =>
      ∃ n s1, res.1 = n * 0x1000 ∧ HigherHalf s o n s1 ∧ Extends n s1 res.2 := by
  refine ((vmmForkHigherHalf_spec ho.toTreeOk).mono_allow fun _ _ => trivial).bind
    fun new ⟨n, hn, hnew⟩ => ?_
  rw [hn]
  have hwf := hnew.wellFormed ho
  -- the four loops only add to the tree of the copy
  refine Ensures.bind ?_ fun s2 h2 => ⟨n, new.2, rfl, hnew, h2⟩
  refine forPresent_extends (by decide) (Extends.refl hwf.toTreeOk) fun w tableZ s2 h2 => ?_
  refine forPresent_extends le_rfl h2 fun z tableY s3 h3 => ?_
  refine forPresent_extends le_rfl h3 fun y tableX s4 h4 => ?_
  refine forPresent_extends le_rfl h4 fun x _ s5 h5 => ?_
  exact (vmmForkPage_extends (h5.wellFormed hwf) (o * 0x1000) tableX ⟨w, z, y, x⟩).mono
    fun _ h => h5.trans h

end Machine

/-! ### Families -/

/-- The places of the tables of the upper half. -/
def HighPath (π : List (Fin 512)) : Prop := ¬ LowPath π

theorem HighPath.cons (i : Fin 512) (π : List (Fin 512)) (h : HighPath π) : HighPath (i :: π) :=
  fun hlow => h (hlow.of_suffix (suffix_cons i π))

/-- The address spaces with the roots `R` are well formed, map their lower halves by entries of
4 KiB, and share tables of the upper half only. -/
structure Family (s : Machine) (R : Set ℕ) : Prop where
  tree : ∀ r ∈ R, Machine.WellFormed s r
  small : ∀ r ∈ R, SmallPages s.mem r
  share : ∀ r ∈ R, ∀ r' ∈ R, r ≠ r' → SharesOn pageChild HighPath s.mem r r'

/-- The entries of the roots `R` that lead to a table go on leading to it. -/
def SlotsKept (R : Set ℕ) (s s' : Machine) : Prop :=
  ∀ r ∈ R, ∀ i t, pageWalk s.mem r [i] = some t → pageWalk s'.mem r [i] = some t

namespace Family

variable {s s' : Machine} {R : Set ℕ} {r o n : ℕ}

theorem used (h : Family s R) (hr : r ∈ R) (π : List (Fin 512)) (t : ℕ)
    (ht : pageWalk s.mem r π = some t) : s.pmm.Used t :=
  (h.tree r hr).used π t ht

theorem mono (h : Family s R) {R' : Set ℕ} (hR : R' ⊆ R) : Family s R' where
  tree r hr := h.tree r (hR hr)
  small r hr := h.small r (hR hr)
  share r hr r' hr' := h.share r (hR hr) r' (hR hr')

theorem singleton (hs : Machine.WellFormed s r) (hsmall : SmallPages s.mem r) : Family s {r} where
  tree := by
    rintro _ rfl
    exact hs
  small := by
    rintro _ rfl
    exact hsmall
  share := by
    rintro _ rfl _ rfl hne
    exact absurd rfl hne

/-- What extending one tree does to the larger entries of another one. -/
theorem largeKept_other (hF : Family s R) (hr : r ∈ R) (h : Extends r s s') {r' : ℕ}
    (hr' : r' ∈ R) (hne : r ≠ r') : LargeKept r' s s' := by
  intro π t i hlen ht hp hh
  rcases h.grows.fresh_other (hF.used hr) (hF.used hr') (hF.share r hr r' hr' hne) HighPath.cons ht
    with hold | ⟨hnew, hfirst, -⟩
  · refine ⟨hold, ?_⟩
    rcases h.grows.table_other (hF.used hr') (hF.share r hr r' hr' hne) hold with he | ⟨hfirst, -⟩
    · rw [he]
    · exact (h.large π t i hlen (h.grows.walk π t hfirst) hp hh).2
  · -- a new table has no larger entries
    exact absurd (hF.used hr π t (h.large π t i hlen hfirst hp hh).1) hnew

/-- **Extending one address space keeps the family.** -/
theorem extend (hF : Family s R) (hr : r ∈ R) (h : Extends r s s') :
    Family s' R ∧ SlotsKept R s s' := by
  have hlarge : ∀ r' ∈ R, LargeKept r' s s' := by
    intro r' hr'
    by_cases hne : r = r'
    · exact hne ▸ h.large
    · exact hF.largeKept_other hr h hr' hne
  have htree : ∀ r' ∈ R, TreeOk s' r' := by
    intro r' hr'
    by_cases hne : r = r'
    · exact hne ▸ h.ok
    · have hshare := hF.share r hr r' hr' hne
      refine ⟨(hF.tree r' hr').root_lt, h.grows.distinct_other (hF.used hr) (hF.used hr') hshare
        HighPath.cons h.ok.distinct (hF.tree r' hr').distinct, fun π t ht => ?_⟩
      rcases h.grows.fresh_other (hF.used hr) (hF.used hr') hshare HighPath.cons ht with
        hold | ⟨-, hfirst, -⟩
      · exact h.used t (hF.used hr' π t hold)
      · exact h.ok.used π t hfirst
  refine ⟨⟨fun r' hr' => ⟨htree r' hr', fun v => ?_⟩,
    fun r' hr' => (hlarge r' hr').small (hF.small r' hr'), ?_⟩, ?_⟩
  · exact (hlarge r' hr').regular ((hF.tree r' hr').regular v)
  · intro r1 hr1 r2 hr2 hne
    by_cases h1 : r = r1
    · subst h1
      exact h.grows.sharesOn (hF.used hr) (hF.used hr2) (hF.share r hr r2 hr2 hne) HighPath.cons
        h.ok.distinct
    by_cases h2 : r = r2
    · subst h2
      exact (h.grows.sharesOn (hF.used hr) (hF.used hr1) (hF.share r hr r1 hr1 h1) HighPath.cons
        h.ok.distinct).symm
    · exact h.grows.sharesOn_other (hF.used hr) (hF.used hr1) (hF.share r hr r1 hr1 h1)
        HighPath.cons h.ok.distinct (hF.used hr2) (hF.share r hr r2 hr2 h2)
        (hF.share r1 hr1 r2 hr2 hne)
  · intro r' hr' i t ht
    by_cases hne : r = r'
    · subst hne
      exact h.grows.walk [i] t ht
    · exact h.grows.walk_other (hF.used hr') (hF.share r hr r' hr' hne) ht

/-- **A new root joins the family.** -/
theorem fork (hF : Family s R) (ho : o ∈ R) (h : HigherHalf s o n s') :
    Family s' (insert n R) ∧ SlotsKept R s s' ∧ n ∉ R := by
  have hext : ∀ r ∈ R, Extends r s s' := fun r hr =>
    Extends.of_reserved h.reserved (hF.tree r hr).toTreeOk
  have hwalk : ∀ r ∈ R, ∀ π, pageWalk s'.mem r π = pageWalk s.mem r π := fun r hr π =>
    h.reserved.walk (hF.tree r hr).toTreeOk π
  -- a table of the new root that another root has
  have hshare : ∀ r ∈ R, SharesOn pageChild HighPath s'.mem n r := by
    intro r hr π π' t ht ht'
    replace ht' := (hwalk r hr π').symm.trans ht'
    rcases h.walk_cases (hF.tree o ho).toTreeOk ht with ⟨-, rfl⟩ | ⟨hhigh, hold⟩
    · exact absurd (hF.used hr π' t ht') h.not_used
    · by_cases hne : o = r
      · subst hne
        exact ⟨(hF.tree o ho).distinct π π' t hold ht', hhigh⟩
      · exact hF.share o ho r hr hne π π' t hold ht'
  refine ⟨⟨?_, ?_, ?_⟩, fun r hr i t ht => (hwalk r hr _).trans ht,
    fun hn => h.not_used (hF.used hn [] n rfl)⟩
  · rintro r (rfl | hr)
    · exact h.wellFormed (hF.tree o ho)
    · exact (hext r hr).wellFormed (hF.tree r hr)
  · rintro r (rfl | hr)
    · exact h.small
    · exact (hext r hr).large.small (hF.small r hr)
  · rintro r1 (rfl | hr1) r2 (rfl | hr2) hne
    · exact absurd rfl hne
    · exact hshare r2 hr2
    · exact (hshare r1 hr1).symm
    · intro π π' t ht ht'
      exact hF.share r1 hr1 r2 hr2 hne π π' t ((hwalk r1 hr1 π).symm.trans ht)
        ((hwalk r2 hr2 π').symm.trans ht')

end Family

/-! ### Tearing down -/

namespace Machine

variable {s s' : Machine} {r : ℕ}

theorem lt_of_freeFrame {f : ℕ} (hf : f < 2 ^ 52) (h : s.freeFrame f = .ok s') :
    f < s.pmm.bitmapMaxPage := by
  have hmask : (f * 0x1000 &&& 0xFFFFFFFFFFFFF000) / 0x1000 = f := by
    rw [Bits.and_pageMask]
    omega
  by_contra hge
  unfold freeFrame pmmUnalloc Pmm.pmmUnalloc at h
  rw [hmask, Pmm.pagesOf_page, if_pos (by omega)] at h
  cases h

theorem freedBy_of_ok {l : List ℕ} (hl : ∀ f ∈ l, f < 2 ^ 52)
    (h : l.foldlM freeFrame s = .ok s') : FreedBy l s s' := by
  induction l generalizing s with
  | nil =>
    cases h
    exact ⟨rfl, rfl, by simp, fun _ _ => Pmm.Balanced.refl _⟩
  | cons f l ih =>
    rw [foldlM_cons, bind_eq_ok] at h
    obtain ⟨s1, h1, h2⟩ := h
    obtain ⟨s1', h1', hf⟩ := freeFrame_eq (lt_of_freeFrame (hl f mem_cons_self) h1)
    obtain rfl := Except.ok.inj (h1.symm.trans h1')
    exact hf.append (ih (fun g hg => hl g (mem_cons_of_mem f hg)) h2)

theorem lt_of_mem_frames (hr : TreeOk s r) (hsmall : SmallPages s.mem r) {f : ℕ}
    (hf : f ∈ frames s.mem r) : f < 2 ^ 52 := by
  rcases (mem_frames hsmall).1 hf with ⟨π, -, hπ⟩ | ⟨v, fl, hv, hv'⟩
  · exact hr.lt hπ
  · obtain ⟨t, -, -, he⟩ := (hsmall.translate_eq_some hv).1 hv'
    rw [(Prod.mk.inj he).1]
    exact entryFrame_lt _

end Machine

/-- **An address space leaves the family**, when its lower half maps no table of another one. -/
theorem Family.teardown {s s' : Machine} {R : Set ℕ} {r : ℕ} (hF : Family s R) (hr : r ∈ R)
    (hclear : ∀ v f fl, v.Low → translate s.mem r v = some (f, fl) →
      ∀ r' ∈ R, ¬ IsPageTable s.mem r' f)
    (h : s.vmmDeconstructAddressSpace (r * 0x1000) = .ok s') :
    Family s' (R \ {r}) ∧ s'.mem = s.mem := by
  have hsmall := hF.small r hr
  have htree := (hF.tree r hr).toTreeOk
  rw [Machine.vmmDeconstructAddressSpace_eq htree.root_lt] at h
  have hfreed := Machine.freedBy_of_ok (fun f hf => Machine.lt_of_mem_frames htree hsmall hf) h
  have hmem := hfreed.mem
  refine ⟨⟨?_, ?_, ?_⟩, hmem⟩
  · rintro r' ⟨hr', hne⟩
    refine ⟨(hF.tree r' hr').toTreeOk.congr (fun π => by rw [hmem]) ?_, fun v => ?_⟩
    · -- no table of `r'` is freed
      rintro t ⟨π, hπ⟩
      refine (hfreed.used t).2 ⟨hF.used hr' π t hπ, fun hf => ?_⟩
      rcases (mem_frames hsmall).1 hf with ⟨ρ, hlow, hρ⟩ | ⟨v, fl, hv, hv'⟩
      · exact (hF.share r hr r' hr' (fun he => hne he.symm) ρ π t hρ hπ).2 hlow
      · exact hclear v t fl hv hv' r' hr' ⟨π, hπ⟩
    · rw [hmem]
      exact (hF.tree r' hr').regular v
  · rintro r' ⟨hr', -⟩
    rw [hmem]
    exact hF.small r' hr'
  · rintro r1 ⟨hr1, -⟩ r2 ⟨hr2, -⟩ hne
    rw [hmem]
    exact hF.share r1 hr1 r2 hr2 hne

end DripOS
