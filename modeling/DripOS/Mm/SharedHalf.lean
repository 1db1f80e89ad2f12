import DripOS.Lib.Run
import DripOS.Mm.Family

/-!
# The kernel half of all address spaces

`vmm_fork_higher_half` and `vmm_fork` make an address space from another one, `vmm_map_pages`,
`vmm_remap_pages` and `vmm_unmap_pages` change one, and `vmm_deconstruct_address_space` frees one.
The kernel relies on all of them translating the upper half alike, which nothing but the sharing of
tables ensures.

* `Spaces.Step` : the calls, on live address spaces.  No page of the lower half of a space that is
  torn down may lie on a page table;
* `Spaces.Ok` : the live spaces are a `Family`, and an entry that a space took over from its source
  leads to the same table in both, and in all spaces created from that source;
* `Spaces.coherent_of_run` : hence they translate the pages below such an entry alike;
* `Spaces.not_coherent_largePage` : the lower half of the first space has to be mapped by entries of
  4 KiB: `vmm_deconstruct_address_space` takes the memory behind an entry of 2 MiB for a page table.
-/

namespace DripOS

open TableTree Machine Option

/-- Pages below entries that lead to the same table translate alike. -/
theorem translate_eq_of_slot {mem : ℕ → Fin 512 → ℕ} {r r' t : ℕ} {v : PtOff}
    (h : pageWalk mem r [v.p4Off] = some t) (h' : pageWalk mem r' [v.p4Off] = some t) :
    translate mem r v = translate mem r' v := by
  have hslot : ∀ {r}, pageWalk mem r [v.p4Off] = some t →
      Present (mem r v.p4Off) ∧ entryFrame (mem r v.p4Off) = t := by
    intro r h
    rw [pageWalk_cons v.p4Off (rfl : pageWalk mem r [] = some r)] at h
    simp only [List.length_nil, pageChild] at h
    split_ifs at h with hp
    exact ⟨hp, Option.some.inj h⟩
  obtain ⟨hp, he⟩ := hslot h
  obtain ⟨hp', he'⟩ := hslot h'
  unfold translate
  rw [if_neg (not_not.2 hp), if_neg (not_not.2 hp'), he, he']

/-- An address space and how it came to be. -/
structure Space where
  /-- The frame of its root table. -/
  root : ℕ
  /-- The number of the space that it was created from. -/
  source : Option ℕ
  /-- The tables that the entries 256 to 511 of the source led to then. -/
  shared : Fin 512 → Option ℕ
  /-- It has not been torn down. -/
  live : Bool

/-- Memory, and the address spaces in the order of their creation. -/
structure Spaces where
  machine : Machine
  list : List Space

/-- The calls that change the pages of an address space. -/
inductive PageCall
  | vmmMapPages (phys virt count perms : ℕ)
  | vmmRemapPages (phys virt count perms : ℕ)
  | vmmUnmapPages (virt count : ℕ)

/-- A call on the address space with the root table at `p4`. -/
def PageCall.run (s : Machine) (p4 : ℕ) : PageCall → Except Halt (ℕ × Machine)
  | vmmMapPages phys virt count perms => s.vmmMapPages phys virt p4 count perms
  | vmmRemapPages phys virt count perms => s.vmmRemapPages phys virt p4 count perms
  | vmmUnmapPages virt count => s.vmmUnmapPages virt p4 count

/-- The calls, with the number of the address space. -/
inductive SpaceOp
  | vmmForkHigherHalf (a : ℕ)
  | vmmFork (a : ℕ)
  | pages (a : ℕ) (call : PageCall)
  | vmmDeconstructAddressSpace (a : ℕ)

namespace Spaces

variable (σ : Spaces)

/-- `A` is the live space number `a`. -/
def At (a : ℕ) (A : Space) : Prop := σ.list[a]? = some A ∧ A.live = true

/-- The root tables of the live spaces. -/
def roots : Set ℕ := {r | ∃ a A, σ.At a A ∧ A.root = r}

/-- The space that is created from the space number `a`, with its root table at `root`. -/
def child (a : ℕ) (A : Space) (root : ℕ) : Space where
  root := root / 0x1000
  source := some a
  shared i := if 256 ≤ i.val then pageWalk σ.machine.mem A.root [i] else none
  live := true

/-- No page of the lower half of `A` is mapped to a table of a live space. -/
def LowClear (A : Space) : Prop :=
  ∀ v f fl, v.Low → translate σ.machine.mem A.root v = some (f, fl) →
    ∀ r ∈ σ.roots, ¬ IsPageTable σ.machine.mem r f

/-- The calls that return. -/
inductive Step : Spaces → SpaceOp → Spaces → Prop
  | vmmForkHigherHalf {σ : Spaces} {a : ℕ} {A : Space} {root : ℕ} {s : Machine} (hA : σ.At a A)
      (h : σ.machine.vmmForkHigherHalf (A.root * 0x1000) = .ok (root, s)) :
      Step σ (.vmmForkHigherHalf a) ⟨s, σ.list ++ [σ.child a A root]⟩
  | vmmFork {σ : Spaces} {a : ℕ} {A : Space} {root : ℕ} {s : Machine} (hA : σ.At a A)
      (h : σ.machine.vmmFork (A.root * 0x1000) = .ok (root, s)) :
      Step σ (.vmmFork a) ⟨s, σ.list ++ [σ.child a A root]⟩
  | pages {σ : Spaces} {a : ℕ} {A : Space} {call : PageCall} {res : ℕ × Machine} (hA : σ.At a A)
      (h : call.run σ.machine (A.root * 0x1000) = .ok res) :
      Step σ (.pages a call) ⟨res.2, σ.list⟩
  | vmmDeconstructAddressSpace {σ : Spaces} {a : ℕ} {A : Space} {s : Machine} (hA : σ.At a A)
      (hclear : σ.LowClear A)
      (h : σ.machine.vmmDeconstructAddressSpace (A.root * 0x1000) = .ok s) :
      Step σ (.vmmDeconstructAddressSpace a) ⟨s, σ.list.set a { A with live := false }⟩

/-- An address space that was not created from another one. -/
def first (r : ℕ) : Space where
  root := r
  source := none
  shared _ := none
  live := true

/-- The state with one address space. -/
def start (s : Machine) (r : ℕ) : Spaces where
  machine := s
  list := [first r]

/-- The pages below an entry of the upper half that was present in the source of a space when it was
created translate alike: in the space and its source, and in two spaces of one source. -/
structure Coherent : Prop where
  source : ∀ {a b : ℕ} {A B : Space}, σ.At a A → σ.At b B → A.source = some b →
    ∀ v, (A.shared v.p4Off).isSome →
      translate σ.machine.mem A.root v = translate σ.machine.mem B.root v
  siblings : ∀ {a b : ℕ} {A B : Space}, σ.At a A → σ.At b B → A.source = B.source →
    ∀ v, (A.shared v.p4Off).isSome → (B.shared v.p4Off).isSome →
      translate σ.machine.mem A.root v = translate σ.machine.mem B.root v

/-! ### The invariant -/

/-- The invariant of all sequences of calls. -/
structure Ok : Prop where
  family : Family σ.machine σ.roots
  /-- Live spaces have different root tables. -/
  inj : ∀ {a b : ℕ} {A B : Space}, σ.At a A → σ.At b B → A.root = B.root → a = b
  /-- A space was created from an earlier one. -/
  earlier : ∀ {a b : ℕ} {A : Space}, σ.list[a]? = some A → A.source = some b → b < a
  own : ∀ {a t : ℕ} {A : Space} {i : Fin 512}, σ.At a A → A.shared i = some t →
    pageWalk σ.machine.mem A.root [i] = some t
  source : ∀ {a b t : ℕ} {A B : Space} {i : Fin 512}, σ.list[a]? = some A → A.source = some b →
    σ.At b B → A.shared i = some t → pageWalk σ.machine.mem B.root [i] = some t
  siblings : ∀ {a b t t' : ℕ} {A B : Space} {i : Fin 512}, σ.list[a]? = some A →
    σ.list[b]? = some B → A.source = B.source → A.shared i = some t → B.shared i = some t' → t = t'

variable {σ}

theorem mem_roots {a : ℕ} {A : Space} (h : σ.At a A) : A.root ∈ σ.roots := ⟨a, A, h, rfl⟩

theorem Ok.coherent (h : σ.Ok) : σ.Coherent := by
  refine ⟨fun {a b A B} hA hB hsrc v hv => ?_, fun {a b A B} hA hB hsrc v hv hv' => ?_⟩
  · obtain ⟨t, ht⟩ := isSome_iff_exists.1 hv
    exact translate_eq_of_slot (h.own hA ht) (h.source hA.1 hsrc hB ht)
  · obtain ⟨t, ht⟩ := isSome_iff_exists.1 hv
    obtain ⟨t', ht'⟩ := isSome_iff_exists.1 hv'
    obtain rfl := h.siblings hA.1 hB.1 hsrc ht ht'
    exact translate_eq_of_slot (h.own hA ht) (h.own hB ht')

theorem at_start {s : Machine} {r a : ℕ} {A : Space} (h : (start s r).list[a]? = some A) :
    a = 0 ∧ A = first r := by
  match a with
  | 0 => exact ⟨rfl, (Option.some.inj h).symm⟩
  | a + 1 => cases h

theorem ok_start {s : Machine} {r : ℕ} (hs : WellFormed s r)
    (hsmall : SmallPages s.mem r) : (start s r).Ok := by
  have hroots : (start s r).roots = {r} := by
    ext x
    constructor
    · rintro ⟨a, A, hA, rfl⟩
      rw [(at_start hA.1).2]
      exact rfl
    · rintro rfl
      exact ⟨0, _, ⟨rfl, rfl⟩, rfl⟩
  refine ⟨?_, ?_, ?_, ?_, ?_, ?_⟩
  · rw [hroots]
    exact Family.singleton hs hsmall
  · intro a b A B hA hB _
    rw [(at_start hA.1).1, (at_start hB.1).1]
  · intro a b A hA hsrc
    rw [(at_start hA).2] at hsrc
    cases hsrc
  · intro a t A i hA ht
    rw [(at_start hA.1).2] at ht
    cases ht
  · intro a b t A B i hA hsrc
    rw [(at_start hA).2] at hsrc
    cases hsrc
  · intro a b t t' A B i hA _ _ ht
    rw [(at_start hA).2] at ht
    cases ht

/-! ### The calls keep it -/

theorem Ok.slotsKept (h : σ.Ok) {s : Machine} (hF : Family s σ.roots)
    (hkept : SlotsKept σ.roots σ.machine s) : Ok ⟨s, σ.list⟩ where
  family := hF
  inj := h.inj
  earlier := h.earlier
  own hA ht := hkept _ (mem_roots hA) _ _ (h.own hA ht)
  source hA hsrc hB ht := hkept _ (mem_roots hB) _ _ (h.source hA hsrc hB ht)
  siblings := h.siblings

section Create

variable {s : Machine} {a n : ℕ} {A : Space}

theorem roots_snoc (root : ℕ) :
    roots ⟨s, σ.list ++ [σ.child a A root]⟩ = insert (root / 0x1000) σ.roots := by
  ext x
  constructor
  · rintro ⟨b, B, ⟨hB, hlive⟩, rfl⟩
    rcases getElem?_snoc.1 hB with hB' | ⟨-, rfl⟩
    · exact Or.inr ⟨b, B, ⟨hB', hlive⟩, rfl⟩
    · exact Or.inl rfl
  · rintro (rfl | ⟨b, B, ⟨hB, hlive⟩, rfl⟩)
    · exact ⟨σ.list.length, σ.child a A root, ⟨by simp, rfl⟩, rfl⟩
    · exact ⟨b, B, ⟨getElem?_snoc.2 (Or.inl hB), hlive⟩, rfl⟩

/-- **A new space takes its place.** -/
theorem Ok.create (h : σ.Ok) (hA : σ.At a A) (hF : Family s (insert n σ.roots))
    (hkept : SlotsKept σ.roots σ.machine s) (hn : n ∉ σ.roots)
    (hslot : ∀ i : Fin 512, 256 ≤ i.val → ∀ t, pageWalk σ.machine.mem A.root [i] = some t →
      pageWalk s.mem n [i] = some t) :
    Ok ⟨s, σ.list ++ [σ.child a A (n * 0x1000)]⟩ := by
  have hroot : n * 0x1000 / 0x1000 = n := Nat.mul_div_cancel n (by decide)
  have hnew : ∀ {B : Space}, B.root = (σ.child a A (n * 0x1000)).root → B.root = n :=
    fun he => he.trans hroot
  have halt := (List.getElem?_eq_some_iff.1 hA.1).1
  -- what the new space took over
  have hshared : ∀ {i t}, (σ.child a A (n * 0x1000)).shared i = some t →
      256 ≤ i.val ∧ pageWalk σ.machine.mem A.root [i] = some t := by
    intro i t ht
    simp only [child] at ht
    split_ifs at ht with hi
    exact ⟨hi, ht⟩
  refine ⟨?_, ?_, ?_, ?_, ?_, ?_⟩
  · rw [roots_snoc, hroot]
    exact hF
  · rintro b c B C ⟨hB, hBl⟩ ⟨hC, hCl⟩ he
    rcases getElem?_snoc.1 hB with hB' | ⟨rfl, rfl⟩ <;>
      rcases getElem?_snoc.1 hC with hC' | ⟨rfl, rfl⟩
    · exact h.inj ⟨hB', hBl⟩ ⟨hC', hCl⟩ he
    · exact absurd (hnew he ▸ mem_roots ⟨hB', hBl⟩) hn
    · exact absurd (hnew he.symm ▸ mem_roots ⟨hC', hCl⟩) hn
    · rfl
  · intro b c B hB hsrc
    rcases getElem?_snoc.1 hB with hB' | ⟨rfl, rfl⟩
    · exact h.earlier hB' hsrc
    · cases hsrc
      exact halt
  · rintro b t B i ⟨hB, hBl⟩ ht
    rcases getElem?_snoc.1 hB with hB' | ⟨rfl, rfl⟩
    · exact hkept _ (mem_roots ⟨hB', hBl⟩) _ _ (h.own ⟨hB', hBl⟩ ht)
    · obtain ⟨hi, hw⟩ := hshared ht
      rw [child, hroot]
      exact hslot i hi t hw
  · rintro b c t B C i hB hsrc ⟨hC, hCl⟩ ht
    rcases getElem?_snoc.1 hC with hC' | ⟨rfl, rfl⟩
    · rcases getElem?_snoc.1 hB with hB' | ⟨rfl, rfl⟩
      · exact hkept _ (mem_roots ⟨hC', hCl⟩) _ _ (h.source hB' hsrc ⟨hC', hCl⟩ ht)
      · obtain rfl : a = c := Option.some.inj hsrc
        obtain rfl : A = C := Option.some.inj (hA.1.symm.trans hC')
        exact hkept _ (mem_roots hA) _ _ (hshared ht).2
    · -- no space was created from the new one
      rcases getElem?_snoc.1 hB with hB' | ⟨rfl, rfl⟩
      · have := (List.getElem?_eq_some_iff.1 hB').1
        exact absurd (h.earlier hB' hsrc) (by omega)
      · have := Option.some.inj hsrc
        omega
  · intro b c t t' B C i hB hC hsrc ht ht'
    rcases getElem?_snoc.1 hB with hB' | ⟨rfl, rfl⟩ <;>
      rcases getElem?_snoc.1 hC with hC' | ⟨rfl, rfl⟩
    · exact h.siblings hB' hC' hsrc ht ht'
    · exact Option.some.inj ((h.source hB' hsrc hA ht).symm.trans (hshared ht').2)
    · exact Option.some.inj ((hshared ht).2.symm.trans (h.source hC' hsrc.symm hA ht'))
    · exact Option.some.inj (ht.symm.trans ht')

end Create

/-- **A space is torn down.** -/
theorem Ok.remove (h : σ.Ok) {s : Machine} {a : ℕ} {A : Space} (hA : σ.At a A)
    (hF : Family s (σ.roots \ {A.root})) (hmem : s.mem = σ.machine.mem) :
    Ok ⟨s, σ.list.set a { A with live := false }⟩ := by
  -- the other spaces stay, and are alive if they were
  have hget : ∀ {b B}, (σ.list.set a { A with live := false })[b]? = some B →
      ∃ B', σ.list[b]? = some B' ∧ B.source = B'.source ∧ B.shared = B'.shared ∧
        (B.live = true → b ≠ a ∧ B = B') := by
    intro b B hB
    by_cases hba : b = a
    · subst hba
      rw [List.getElem?_set_self (List.getElem?_eq_some_iff.1 hA.1).1] at hB
      cases hB
      exact ⟨A, hA.1, rfl, rfl, fun hl => by cases hl⟩
    · rw [List.getElem?_set_ne (Ne.symm hba)] at hB
      exact ⟨B, hB, rfl, rfl, fun _ => ⟨hba, rfl⟩⟩
  have hat : ∀ {b B}, At ⟨s, σ.list.set a { A with live := false }⟩ b B → σ.At b B ∧ b ≠ a := by
    rintro b B ⟨hB, hl⟩
    obtain ⟨B', hB', -, -, hsame⟩ := hget hB
    obtain ⟨hne, rfl⟩ := hsame hl
    exact ⟨⟨hB', hl⟩, hne⟩
  have hroots : roots ⟨s, σ.list.set a { A with live := false }⟩ ⊆ σ.roots \ {A.root} := by
    rintro _ ⟨b, B, hB, rfl⟩
    obtain ⟨hB', hne⟩ := hat hB
    exact ⟨mem_roots hB', fun he => hne (h.inj hB' hA he)⟩
  refine ⟨hF.mono hroots, ?_, ?_, ?_, ?_, ?_⟩
  · intro b c B C hB hC he
    exact h.inj (hat hB).1 (hat hC).1 he
  · intro b c B hB hsrc
    obtain ⟨B', hB', hs, -, -⟩ := hget hB
    exact h.earlier hB' (hs ▸ hsrc)
  · intro b t B i hB ht
    rw [hmem]
    exact h.own (hat hB).1 ht
  · intro b c t B C i hB hsrc hC ht
    obtain ⟨B', hB', hs, hsh, -⟩ := hget hB
    rw [hmem]
    exact h.source hB' (hs ▸ hsrc) (hat hC).1 (hsh ▸ ht)
  · intro b c t t' B C i hB hC hsrc ht ht'
    obtain ⟨B', hB', hs, hsh, -⟩ := hget hB
    obtain ⟨C', hC', hs', hsh', -⟩ := hget hC
    exact h.siblings hB' hC' (hs ▸ hs' ▸ hsrc) (hsh ▸ ht) (hsh' ▸ ht')

theorem pageCall_extends {s : Machine} {r : ℕ} (hs : WellFormed s r) (call : PageCall) :
    EnsuresFree (call.run s (r * 0x1000)) fun res => Extends r s res.2 := by
  cases call with
  | vmmMapPages phys virt count perms => exact vmmMapPages_extends hs phys virt count perms
  | vmmRemapPages phys virt count perms =>
    exact vmmRemapPages_extends hs phys virt count perms
  | vmmUnmapPages virt count => exact vmmUnmapPages_extends hs virt count

/-- **Every call keeps the invariant.** -/
theorem Step.ok {σ' : Spaces} {op : SpaceOp} (h : Step σ op σ') (hok : σ.Ok) : σ'.Ok := by
  cases h with
  | @vmmForkHigherHalf a A root s hA h =>
    have ho := hok.family.tree A.root (mem_roots hA)
    obtain ⟨n, hn, hnew⟩ := (vmmForkHigherHalf_spec ho.toTreeOk).of_ok h
    obtain ⟨hF, hkept, hfresh⟩ := hok.family.fork (mem_roots hA) hnew
    rw [show root = n * 0x1000 from hn]
    refine hok.create hA hF hkept hfresh fun i hi t ht => ?_
    rw [hnew.walk_high ho.toTreeOk (fun hlow => by have := lowPath_singleton.1 hlow; omega)]
    exact ht
  | @vmmFork a A root s hA h =>
    have ho := hok.family.tree A.root (mem_roots hA)
    obtain ⟨n, s1, hn, hnew, hext⟩ := (vmmFork_extends ho).of_ok h
    obtain ⟨hF1, hkept1, hfresh⟩ := hok.family.fork (mem_roots hA) hnew
    obtain ⟨hF, hkept⟩ := hF1.extend (Set.mem_insert n _) hext
    rw [show root = n * 0x1000 from hn]
    refine hok.create hA hF (fun r hr i t ht => ?_) hfresh fun i hi t ht => ?_
    · exact hkept r (Set.mem_insert_of_mem n hr) i t (hkept1 r hr i t ht)
    · refine hkept n (Set.mem_insert n _) i t ?_
      rw [hnew.walk_high ho.toTreeOk (fun hlow => by have := lowPath_singleton.1 hlow; omega)]
      exact ht
  | @pages a A call res hA h =>
    have ho := hok.family.tree A.root (mem_roots hA)
    have hext := (pageCall_extends ho call).of_ok h
    obtain ⟨hF, hkept⟩ := hok.family.extend (mem_roots hA) hext
    exact hok.slotsKept hF hkept
  | @vmmDeconstructAddressSpace a A s hA hclear h =>
    obtain ⟨hF, hmem⟩ := hok.family.teardown (mem_roots hA) hclear h
    exact hok.remove hA hF hmem

/-- **The kernel half of all address spaces stays coherent**, after every sequence of calls that
starts with one well-formed address space whose lower half is mapped by entries of 4 KiB. -/
theorem coherent_of_run {s : Machine} {r : ℕ} {ops : List SpaceOp} (hs : WellFormed s r)
    (hsmall : SmallPages s.mem r) (h : Run Step (start s r) ops σ) : σ.Coherent :=
  (h.invariant (ok_start hs hsmall) fun _ _ _ hok hstep => hstep.ok hok).coherent

theorem wellFormed_onePage : WellFormed (onePage 0xff) 1 :=
  ⟨treeOk_onePage (by decide), Regular.of_describes (describes_onePage 0xff) (by decide +kernel)
    (by decide +kernel)⟩

/-- A page of the kernel half is unmapped in a new address space, which splits a shared entry of 2
MiB. -/
theorem run_onePage : ∃ σ A, Run Step (start (onePage 0xff) 1)
    [.vmmForkHigherHalf 0, .pages 1 (.vmmUnmapPages 0xFFFF800000000000 1)] σ ∧
    σ.At 0 (first 1) ∧ σ.At 1 A ∧ A.root = 8 := by
  have hcalls : (do
      let r1 ← (onePage 0xff).vmmForkHigherHalf 0x1000
      let r2 ← r1.2.vmmUnmapPages 0xFFFF800000000000 0x8000 1
      pure (r1.1, r2.1) : Except Halt (ℕ × ℕ)).toOption.map id = some (0x8000, 0) := by
    decide +kernel
  obtain ⟨x, hx, rfl⟩ := exists_ok_of_map hcalls
  obtain ⟨r1, h1, hx⟩ := bind_eq_ok.1 hx
  obtain ⟨r2, h2, hx⟩ := bind_eq_ok.1 hx
  have hroot : r1.1 = 0x8000 := congrArg Prod.fst (Except.ok.inj hx)
  obtain ⟨A, hA⟩ : ∃ A, A = child (start (onePage 0xff) 1) 0 (first 1) r1.1 := ⟨_, rfl⟩
  have hfork : Step (start (onePage 0xff) 1) (.vmmForkHigherHalf 0)
      ⟨r1.2, [first 1, A]⟩ := by
    rw [hA]
    exact Step.vmmForkHigherHalf ⟨rfl, rfl⟩ h1
  have hrootA : A.root = 8 := by
    rw [hA, child, hroot]
  have hlive : A.live = true := by
    rw [hA]
    rfl
  have hunmap : Step ⟨r1.2, [first 1, A]⟩ (.pages 1 (.vmmUnmapPages 0xFFFF800000000000 1))
      ⟨r2.2, [first 1, A]⟩ := by
    refine Step.pages (A := A) ⟨rfl, hlive⟩ ?_
    rw [hrootA]
    exact h2
  exact ⟨_, A, (Run.nil.snoc hfork).snoc hunmap, ⟨rfl, rfl⟩, ⟨rfl, hlive⟩, hrootA⟩

theorem coherent_onePage : ∃ σ, Run Step (start (onePage 0xff) 1)
    [.vmmForkHigherHalf 0, .pages 1 (.vmmUnmapPages 0xFFFF800000000000 1)] σ ∧ σ.Coherent := by
  obtain ⟨σ, -, hrun, -⟩ := run_onePage
  exact ⟨σ, hrun, coherent_of_run wellFormed_onePage (smallPages_onePage 0xff) hrun⟩

/-- **Live address spaces have no table of the lower half in common**, and no table of a live
address space is free. -/
theorem tables_of_run {s : Machine} {r : ℕ} {ops : List SpaceOp} (hs : WellFormed s r)
    (hsmall : SmallPages s.mem r) (h : Run Step (start s r) ops σ) :
    (∀ a b A B, σ.At a A → σ.At b B → a ≠ b →
      SharesOn pageChild HighPath σ.machine.mem A.root B.root) ∧
    ∀ a A t, σ.At a A → IsPageTable σ.machine.mem A.root t → σ.machine.pmm.Used t := by
  have hok := h.invariant (ok_start hs hsmall) fun _ _ _ hok hstep => hstep.ok hok
  refine ⟨fun a b A B hA hB hne => ?_, fun a A t hA ⟨π, hπ⟩ => ?_⟩
  · exact hok.family.share _ (mem_roots hA) _ (mem_roots hB) fun he => hne (hok.inj hA hB he)
  · exact hok.family.used (mem_roots hA) π t hπ

/-- After the same calls, on the root tables 1 and 8. -/
theorem tables_of_run_onePage : ∃ σ, Run Step (start (onePage 0xff) 1)
    [.vmmForkHigherHalf 0, .pages 1 (.vmmUnmapPages 0xFFFF800000000000 1)] σ ∧
    SharesOn pageChild HighPath σ.machine.mem 1 8 ∧ σ.machine.pmm.Used 8 := by
  obtain ⟨σ, A, hrun, hfirst, hA, hroot⟩ := run_onePage
  obtain ⟨hshare, hused⟩ := tables_of_run wellFormed_onePage (smallPages_onePage 0xff) hrun
  exact ⟨σ, hrun, hroot ▸ hshare 0 1 _ A hfirst hA zero_ne_one, hroot ▸ hused 1 A _ hA ⟨[], rfl⟩⟩

/-! ### An entry of 2 MiB in the lower half -/

/-- Root table 5: the lower half has one entry of 2 MiB, for the frames 512 to 1023, and the upper
half another one.  The first word of frame 512 looks like an entry for frame 1. -/
def largePage : Machine where
  mem f i :=
    match f, i.val with
    | 5, 0 => tableEntry 7
    | 5, 256 => tableEntry 6
    | 6, 0 => tableEntry 9
    | 7, 0 => tableEntry 8
    | 8, 0 => 0x200087
    | 9, 0 => 0x400083
    | 512, 0 => 0x1001
    | _, _ => 0
  pmm := .ofBitmap 1024 518 fun i =>
    if i = 0 then 0xe1 else if i = 1 then 0x03 else if i < 64 then 0 else 0xff

/-- The tables of `largePage`. -/
def largePageTables : List (List (Fin 512) × ℕ) :=
  [([], 5), ([256], 6), ([0, 256], 9), ([0], 7), ([0, 0], 8)]

theorem describes_largePage : Describes pageChild largePage.mem 5 largePageTables :=
  describes_of_check (by decide +kernel)

theorem wellFormed_largePage : WellFormed largePage 5 :=
  ⟨TreeOk.of_describes (by decide) describes_largePage (by decide +kernel),
    Regular.of_describes describes_largePage (by decide +kernel) (by decide +kernel)⟩

/-- Its lower half is on the frames 512 to 1023. -/
theorem translate_largePage {v : PtOff} {f fl : ℕ} (hv : v.Low)
    (h : translate largePage.mem 5 v = some (f, fl)) : 512 ≤ f ∧ f < 1024 := by
  obtain ⟨t3, t2, hw3, hw2, rfl, rfl, hleaf⟩ := (wellFormed_largePage.regular v).translate_cases h
  have hlow : ∀ x ∈ largePageTables, x.1.length = 2 → LowPath x.1 → x.2 = 8 := by
    decide +kernel
  have ht2 := hlow _ (describes_largePage.mem hw2) rfl hv.second
  dsimp only at ht2
  rcases hleaf with ⟨hhuge, -, rfl⟩ | ⟨-, t1, hw1, -⟩
  · have hentry : ∀ i, Huge (largePage.mem 8 i) → entryFrame (largePage.mem 8 i) = 512 := by
      decide +kernel
    rw [ht2] at hhuge ⊢
    rw [hentry _ hhuge]
    omega
  · have hlen : ∀ x ∈ largePageTables, x.1.length ≠ 3 := by decide
    exact absurd rfl (hlen _ (describes_largePage.mem hw1))

theorem isPageTable_forks {s s1 s2 : Machine} {o n1 n2 : ℕ} (ho : TreeOk s o)
    (h1 : HigherHalf s o n1 s1) (h2 : HigherHalf s1 o n2 s2) {r f : ℕ}
    (hr : r = o ∨ r = n1 ∨ r = n2) (hf : IsPageTable s2.mem r f) :
    f = n1 ∨ f = n2 ∨ IsPageTable s.mem o f := by
  have ho1 : TreeOk s1 o := h1.reserved.tree ho
  have hold : ∀ {π}, pageWalk s1.mem o π = some f → IsPageTable s.mem o f :=
    fun {π} hπ => ⟨π, (h1.reserved.walk ho π).symm.trans hπ⟩
  obtain ⟨π, hπ⟩ := hf
  rcases hr with rfl | rfl | rfl
  · rw [h2.reserved.walk ho1] at hπ
    exact Or.inr (Or.inr (hold hπ))
  · rw [h2.reserved.walk (h1.tree ho)] at hπ
    rcases h1.walk_cases ho hπ with ⟨-, rfl⟩ | ⟨-, hw⟩
    · exact Or.inl rfl
    · exact Or.inr (Or.inr ⟨π, hw⟩)
  · rcases h2.walk_cases ho1 hπ with ⟨-, rfl⟩ | ⟨-, hw⟩
    · exact Or.inr (Or.inl rfl)
    · exact Or.inr (Or.inr (hold hw))

/-- Two new address spaces, the old one is torn down, and a page is unmapped in the second one,
which takes the root table of the first for a new table. -/
theorem calls_largePage : (do
    let r1 ← largePage.vmmForkHigherHalf 0x5000
    let r2 ← r1.2.vmmForkHigherHalf 0x5000
    let s3 ← r2.2.vmmDeconstructAddressSpace 0x5000
    let r4 ← s3.vmmUnmapPages 0x1000 0x2000 1
    pure (r1.1, r2.1, translate r4.2.mem 1 ⟨256, 0, 0, 0⟩, translate r4.2.mem 2 ⟨256, 0, 0, 0⟩) :
      Except Halt (ℕ × ℕ × Option (ℕ × ℕ) × Option (ℕ × ℕ))).toOption.map id =
    some (0x1000, 0x2000, none, some (1024, 0x83)) := by
  decide +kernel

/-- **With an entry of 2 MiB in the lower half of the first space, coherence is lost**: tearing that
space down frees the root table of another one. -/
theorem not_coherent_largePage : WellFormed largePage 5 ∧
    ∃ σ, Run Step (start largePage 5) [.vmmForkHigherHalf 0, .vmmForkHigherHalf 0,
      .vmmDeconstructAddressSpace 0, .pages 2 (.vmmUnmapPages 0x1000 1)] σ ∧ ¬ σ.Coherent := by
  refine ⟨wellFormed_largePage, ?_⟩
  have ho := wellFormed_largePage.toTreeOk
  obtain ⟨x, hx, rfl⟩ := exists_ok_of_map calls_largePage
  obtain ⟨r1, h1, hx⟩ := bind_eq_ok.1 hx
  obtain ⟨r2, h2, hx⟩ := bind_eq_ok.1 hx
  obtain ⟨s3, h3, hx⟩ := bind_eq_ok.1 hx
  obtain ⟨r4, h4, hx⟩ := bind_eq_ok.1 hx
  have hres := Except.ok.inj hx
  have hroot1 : r1.1 = 0x1000 := congrArg Prod.fst hres
  have hroot2 : r2.1 = 0x2000 := congrArg (fun y => y.2.1) hres
  have htr1 : translate r4.2.mem 1 ⟨256, 0, 0, 0⟩ = none := congrArg (fun y => y.2.2.1) hres
  have htr2 : translate r4.2.mem 2 ⟨256, 0, 0, 0⟩ = some (1024, 0x83) :=
    congrArg (fun y => y.2.2.2) hres
  obtain ⟨n1, hn1, hfork1⟩ := (vmmForkHigherHalf_spec ho).of_ok h1
  obtain ⟨n2, hn2, hfork2⟩ := (vmmForkHigherHalf_spec (hfork1.reserved.tree ho)).of_ok h2
  obtain rfl : n1 = 1 := by omega
  obtain rfl : n2 = 2 := by omega
  obtain ⟨A, hA⟩ : ∃ A, A = child (start largePage 5) 0 (first 5) r1.1 := ⟨_, rfl⟩
  obtain ⟨B, hB⟩ : ∃ B, B = child ⟨r1.2, [first 5, A]⟩ 0 (first 5) r2.1 := ⟨_, rfl⟩
  have hrootA : A.root = 1 := by
    rw [hA, child, hroot1]
  have hrootB : B.root = 2 := by
    rw [hB, child, hroot2]
  have hliveA : A.live = true := by
    rw [hA]
    rfl
  have hliveB : B.live = true := by
    rw [hB]
    rfl
  have hstep1 : Step (start largePage 5) (.vmmForkHigherHalf 0) ⟨r1.2, [first 5, A]⟩ := by
    rw [hA]
    exact Step.vmmForkHigherHalf ⟨rfl, rfl⟩ h1
  have hstep2 : Step ⟨r1.2, [first 5, A]⟩ (.vmmForkHigherHalf 0) ⟨r2.2, [first 5, A, B]⟩ := by
    rw [hB]
    exact Step.vmmForkHigherHalf ⟨rfl, rfl⟩ h2
  have hroots : ∀ r ∈ roots ⟨r2.2, [first 5, A, B]⟩, r = 5 ∨ r = 1 ∨ r = 2 := by
    rintro _ ⟨a, C, ⟨hC, -⟩, rfl⟩
    match a, hC with
    | 0, rfl => exact Or.inl rfl
    | 1, rfl => exact Or.inr (Or.inl hrootA)
    | 2, rfl => exact Or.inr (Or.inr hrootB)
  have hclear : LowClear ⟨r2.2, [first 5, A, B]⟩ (first 5) := by
    intro v f fl hv hf r hr ht
    have hf' : translate largePage.mem 5 v = some (f, fl) := by
      rw [← hfork1.reserved.translate ho, ← hfork2.reserved.translate (hfork1.reserved.tree ho)]
      exact hf
    have hrange := translate_largePage hv hf'
    have htables : ∀ x ∈ largePageTables, x.2 < 512 := by decide
    rcases isPageTable_forks ho hfork1 hfork2 (hroots r hr) ht with rfl | rfl | ⟨π, hπ⟩
    · omega
    · omega
    · have := htables _ (describes_largePage.mem hπ)
      omega
  have hstep3 : Step ⟨r2.2, [first 5, A, B]⟩ (.vmmDeconstructAddressSpace 0)
      ⟨s3, [{ first 5 with live := false }, A, B]⟩ :=
    Step.vmmDeconstructAddressSpace ⟨rfl, rfl⟩ hclear h3
  have hstep4 : Step ⟨s3, [{ first 5 with live := false }, A, B]⟩
      (.pages 2 (.vmmUnmapPages 0x1000 1)) ⟨r4.2, [{ first 5 with live := false }, A, B]⟩ := by
    refine Step.pages (A := B) ⟨rfl, hliveB⟩ ?_
    rw [hrootB]
    exact h4
  refine ⟨_, (((Run.nil.snoc hstep1).snoc hstep2).snoc hstep3).snoc hstep4, fun hcoh => ?_⟩
  have hslot : pageWalk largePage.mem 5 [256] = some 6 := by decide +kernel
  have hsharedA : (A.shared 256).isSome := by
    rw [hA, child]
    rfl
  have hsharedB : (B.shared 256).isSome := by
    rw [hB, child]
    simp only [first, hfork1.reserved.walk ho]
    rfl
  have hsame := @hcoh.siblings 1 2 A B ⟨rfl, hliveA⟩ ⟨rfl, hliveB⟩ (by rw [hA, hB]; rfl)
    ⟨256, 0, 0, 0⟩ hsharedA hsharedB
  rw [hrootA, hrootB] at hsame
  exact absurd (htr1.symm.trans (hsame.trans htr2)) (by simp)

end Spaces

end DripOS
