import DripOS.Mm.Access

/-!
# How many pages the functions of the VMM take

When the used pages are those below some bound, `pmm_alloc` takes the pages after them (`Pmm.Bump`).
`Takes k f` says that `f` then needs at most `k` pages, and runs in the same way when a page that it
does not need is marked used beforehand.  Such functions are closed under sequence, reading and
writing, so that the result for a function of `vmm.c` follows its text.

* `Pmm.pmmAlloc_pmmSetBit` : marking a page that is not handed out;
* `Takes.bind`, `Takes.read`, `Takes.write`, `Takes.forRange` : the rules;
* `takes_vmmRemapPages`, `takes_vmmMapPages` : the two loops that map pages.
-/

namespace DripOS

open Bitmap

namespace Pmm

variable {p p' : Pmm} {q size g : ℕ}

/-- The pages below `q` are used, and no others. -/
structure Bump (p : Pmm) (q : ℕ) : Prop where
  pos : 0 < q
  le : q ≤ p.bitmapMaxPage
  used : ∀ f, p.Used f ↔ f < q

theorem Bump.zeroUsed (h : p.Bump q) : p.ZeroUsed := ⟨h.pos.trans_le h.le, (h.used 0).2 h.pos⟩

/-- The block starts at the first free page. -/
theorem Bump.pmmAlloc (h : p.Bump q) (hpos : 0 < pagesOf size)
    (hle : q + pagesOf size ≤ p.bitmapMaxPage) :
    ∃ p', p.pmmAlloc size = .ok (q * 0x1000, p') ∧ Allocated p (pagesOf size) q p' ∧
      p'.Bump (q + pagesOf size) := by
  have hrun : p.Run q (pagesOf size) := ⟨hle, fun f hf _ hu => absurd ((h.used f).1 hu) (by omega)⟩
  have hspec := @pmmAlloc_spec p size (Or.inl h.zeroUsed)
  cases halloc : p.pmmAlloc size with
  | error e =>
    rw [halloc] at hspec
    exact absurd hrun (hspec.2 q)
  | ok r =>
    rw [halloc] at hspec
    obtain ⟨page, haddr, ha⟩ := hspec
    have hpage : page = q := by
      have hfree : ¬ page < q := fun hlt =>
        ha.lowest.1.2 page le_rfl (by omega) ((h.used page).2 hlt)
      have hlow : ¬ q < page := fun hlt => ha.lowest.2 q hlt hrun
      omega
    rw [hpage] at haddr ha
    refine ⟨r.2, by rw [← haddr], ha, by omega, ha.maxPage ▸ hle, fun f => ?_⟩
    rw [ha.used, h.used]
    omega

theorem Bump.pmmSetBit (h : p.Bump q) (hlt : q < p.bitmapMaxPage) :
    (p.pmmSetBit q).Bump (q + 1) where
  pos := Nat.succ_pos q
  le := hlt
  used f := by
    rw [used_pmmSetBit, h.used]
    omega

theorem run_pmmSetBit {a n : ℕ} : (p.pmmSetBit g).Run a n ↔ p.Run a n ∧ ¬ (a ≤ g ∧ g < a + n) := by
  constructor
  · rintro ⟨hle, hfree⟩
    refine ⟨⟨hle, fun f h1 h2 hu => hfree f h1 h2 (used_pmmSetBit.2 (Or.inr hu))⟩, fun hg => ?_⟩
    exact hfree g hg.1 hg.2 (used_pmmSetBit.2 (Or.inl rfl))
  · rintro ⟨⟨hle, hfree⟩, hg⟩
    refine ⟨hle, fun f h1 h2 hu => ?_⟩
    rcases used_pmmSetBit.1 hu with rfl | hu
    · exact hg ⟨h1, h2⟩
    · exact hfree f h1 h2 hu

theorem setBits_setBit {b : Bitmap} {a n : ℕ} :
    (b.setBit g).setBits a n = (b.setBits a n).setBit g := by
  refine ext fun f => ?_
  rw [testBit_setBits, testBit_setBit, testBit_setBit, testBit_setBits]
  exact Bool.or_left_comm _ _ _

/-- **Marking a page that is not handed out does not change what `pmm_alloc` does.** -/
theorem pmmAlloc_pmmSetBit {addr : ℕ} (h0 : p.ZeroUsed)
    (h : p.pmmAlloc size = .ok (addr, p')) (hg : ¬ p'.Used g) :
    (p.pmmSetBit g).pmmAlloc size = .ok (addr, p'.pmmSetBit g) := by
  have hspec := @findFreePage_spec p (pagesOf size) (Or.inl h0)
  have hspec' := @findFreePage_spec (p.pmmSetBit g) (pagesOf size)
    (Or.inl ⟨h0.1, used_pmmSetBit.2 (Or.inr h0.2)⟩)
  unfold Pmm.pmmAlloc at h ⊢
  dsimp only at h ⊢
  cases hf : p.findFreePage (pagesOf size) with
  | none =>
    rw [hf] at h
    cases h
  | some page =>
    rw [hf] at h hspec
    obtain ⟨haddr, hp'⟩ := Prod.mk.inj (Except.ok.inj h)
    -- the run that is handed out does not contain the marked page
    have hout : ¬ (page ≤ g ∧ g < page + pagesOf size) := fun hb => hg (by
      rw [← hp']
      exact used_markUsed.2 (Or.inl hb))
    have hrun := run_pmmSetBit.2 ⟨hspec.1, hout⟩
    cases hf' : (p.pmmSetBit g).findFreePage (pagesOf size) with
    | none =>
      rw [hf'] at hspec'
      exact absurd hrun (hspec' page)
    | some page' =>
      rw [hf'] at hspec'
      have hge : ¬ page < page' := fun hlt => hspec'.2 page hlt hrun
      have hle : ¬ page' < page := fun hlt => hspec.2 page' hlt (run_pmmSetBit.1 hspec'.1).1
      obtain rfl : page' = page := by omega
      rw [← haddr, ← hp']
      simp only [pmmSetBit, markUsed, setBits_setBit]

end Pmm

namespace Machine

variable {α β : Type} {k m : ℕ}

/-- Mark the page `g` used. -/
def mark (s : Machine) (g : ℕ) : Machine := { s with pmm := s.pmm.pmmSetBit g }

/-- `f` takes at most `k` pages, keeps the used pages, and does not look at others. -/
structure Takes (k : ℕ) (f : Machine → Except Halt (α × Machine)) : Prop where
  runs : ∀ s q, s.pmm.Bump q → q + k ≤ s.pmm.bitmapMaxPage →
    ∃ a s' q', f s = .ok (a, s') ∧ s'.pmm.Bump q' ∧ q ≤ q' ∧ q' ≤ q + k
  keeps : ∀ s a s', 0 < s.pmm.bitmapMaxPage ∧ s.pmm.Used 0 → f s = .ok (a, s') →
    s'.pmm.bitmapMaxPage = s.pmm.bitmapMaxPage ∧ ∀ g, s.pmm.Used g → s'.pmm.Used g
  marks : ∀ s a s' g, 0 < s.pmm.bitmapMaxPage ∧ s.pmm.Used 0 → f s = .ok (a, s') →
    ¬ s'.pmm.Used g → f (s.mark g) = .ok (a, s'.mark g)

/-- The same for a function without a result. -/
def TakesUnit (k : ℕ) (f : Machine → Except Halt Machine) : Prop :=
  Takes k fun s => (f s).map fun s' => ((), s')

section Rules

variable {f f' : Machine → Except Halt (α × Machine)} {g : α → Machine → Except Halt (β × Machine)}

theorem Takes.mono (h : Takes k f) (hkm : k ≤ m) : Takes m f where
  runs s q hb hle := by
    obtain ⟨a, s', q', hf, hb', h1, h2⟩ := h.runs s q hb (by omega)
    exact ⟨a, s', q', hf, hb', h1, by omega⟩
  keeps := h.keeps
  marks := h.marks

theorem Takes.zeroUsed (h : Takes k f) {s s' : Machine} {a : α}
    (h0 : s.pmm.ZeroUsed) (hf : f s = .ok (a, s')) :
    0 < s'.pmm.bitmapMaxPage ∧ s'.pmm.Used 0 := by
  obtain ⟨hmax, hused⟩ := h.keeps s a s' h0 hf
  exact ⟨hmax ▸ h0.1, hused 0 h0.2⟩

/-- One function after the other. -/
theorem Takes.bind (hf : Takes k f) (hg : ∀ a, Takes m (g a)) :
    Takes (k + m) fun s => f s >>= fun r => g r.1 r.2 where
  runs s q hb hle := by
    obtain ⟨a, s1, q1, h1, hb1, hq1, hk⟩ := hf.runs s q hb (by omega)
    have hmax := (hf.keeps s a s1 hb.zeroUsed h1).1
    obtain ⟨b, s2, q2, h2, hb2, hq2, hm⟩ := (hg a).runs s1 q1 hb1 (by omega)
    exact ⟨b, s2, q2, by rw [h1]; exact h2, hb2, by omega, by omega⟩
  keeps s b s2 h0 h := by
    obtain ⟨⟨a, s1⟩, h1, h2⟩ := bind_eq_ok.1 h
    obtain ⟨hmax1, hu1⟩ := hf.keeps s a s1 h0 h1
    obtain ⟨hmax2, hu2⟩ := (hg a).keeps s1 b s2 (hf.zeroUsed h0 h1) h2
    exact ⟨hmax2.trans hmax1, fun x hx => hu2 x (hu1 x hx)⟩
  marks s b s2 x h0 h hx := by
    obtain ⟨⟨a, s1⟩, h1, h2⟩ := bind_eq_ok.1 h
    have hz1 := hf.zeroUsed h0 h1
    have hx1 : ¬ s1.pmm.Used x := fun hu => hx (((hg a).keeps s1 b s2 hz1 h2).2 x hu)
    rw [hf.marks s a s1 x h0 h1 hx1]
    exact (hg a).marks s1 b s2 x hz1 h2 hx

/-- What is read from memory may be used. -/
theorem Takes.read {r : Machine → α} (hr : ∀ s x, r (s.mark x) = r s)
    (hg : ∀ a, Takes k (g a)) : Takes k fun s => g (r s) s where
  runs s q hb hle := (hg (r s)).runs s q hb hle
  keeps s b s' h0 h := (hg (r s)).keeps s b s' h0 h
  marks s b s' x h0 h hx := by
    rw [hr]
    exact (hg (r s)).marks s b s' x h0 h hx

theorem Takes.write (a : α) (w : Machine → Machine) (hp : ∀ s, (w s).pmm = s.pmm)
    (hw : ∀ s x, w (s.mark x) = (w s).mark x) : Takes 0 fun s => .ok (a, w s) where
  runs s q hb _ := ⟨a, w s, q, rfl, by rw [hp]; exact hb, le_rfl, le_rfl⟩
  keeps s b s' _ h := by
    cases h
    rw [hp]
    exact ⟨rfl, fun _ hu => hu⟩
  marks s b s' x _ h _ := by
    cases h
    rw [hw]

theorem Takes.pure (a : α) : Takes 0 fun s => .ok (a, s) :=
  Takes.write a id (fun _ => rfl) fun _ _ => rfl

theorem Takes.congr (h : Takes k f) (he : ∀ s, f' s = f s) : Takes k f' := by
  rwa [funext he]

theorem Takes.ite {c : Prop} [Decidable c] (h : Takes k f) (h' : Takes k f') :
    Takes k fun s => if c then f s else f' s := by
  by_cases hc : c
  · simpa only [if_pos hc] using h
  · simpa only [if_neg hc] using h'

theorem TakesUnit.bind {f : Machine → Except Halt Machine}
    {g : Machine → Except Halt (β × Machine)} (hf : TakesUnit k f) (hg : Takes m g) :
    Takes (k + m) fun s => f s >>= g := by
  refine (Takes.bind hf fun _ => hg).congr fun s => ?_
  cases f s <;> rfl

theorem TakesUnit.bindUnit {f g : Machine → Except Halt Machine} (hf : TakesUnit k f)
    (hg : TakesUnit m g) : TakesUnit (k + m) fun s => f s >>= g := by
  refine (hf.bind hg).congr fun s => ?_
  dsimp only
  cases f s <;> rfl

theorem Takes.bindUnit {g : α → Machine → Except Halt Machine} (hf : Takes k f)
    (hg : ∀ a, TakesUnit m (g a)) : TakesUnit (k + m) fun s => f s >>= fun r => g r.1 r.2 := by
  refine (hf.bind hg).congr fun s => ?_
  dsimp only
  cases f s <;> rfl

theorem Takes.toUnit (h : Takes k f) : TakesUnit k fun s => f s >>= fun r => .ok r.2 := by
  refine (h.bind fun _ => Takes.pure ()).congr fun s => ?_
  dsimp only
  cases f s <;> rfl

theorem writeBytes_mark (s : Machine) (g a n : ℕ) (src : Bytes) :
    (s.mark g).writeBytes a n src = (s.writeBytes a n src).mark g := rfl

theorem takes_store (p : Ptr) (n : ℕ) (src : Bytes) : Takes 0 fun s => .ok ((), s.store p n src) :=
  Takes.write () (fun s => s.store p n src) (fun _ => pmm_writeBytes) fun s g =>
    writeBytes_mark s g _ n src

theorem Takes.store (hf : Takes k f)
    (p : Ptr) (n : ℕ) (src : Bytes) : Takes k fun s => f (s.store p n src) := by
  have h := (takes_store p n src).bind fun _ => hf
  rwa [Nat.zero_add] at h

section Unit

variable {f : Machine → Except Halt Machine} {s s' : Machine}

theorem TakesUnit.exists_ok (h : TakesUnit k f) {q : ℕ} (hb : s.pmm.Bump q)
    (hle : q + k ≤ s.pmm.bitmapMaxPage) :
    ∃ s' q', f s = .ok s' ∧ s'.pmm.Bump q' ∧ q ≤ q' ∧ q' ≤ q + k := by
  obtain ⟨⟨⟩, s', q', hf, hb', hq⟩ := h.runs s q hb hle
  obtain ⟨s'', hs, he⟩ := map_eq_ok.1 hf
  cases he
  exact ⟨s', q', hs, hb', hq⟩

theorem TakesUnit.keep (h : TakesUnit k f) (h0 : s.pmm.ZeroUsed)
    (hf : f s = .ok s') :
    s'.pmm.bitmapMaxPage = s.pmm.bitmapMaxPage ∧ ∀ g, s.pmm.Used g → s'.pmm.Used g :=
  h.keeps s () s' h0 (map_eq_ok.2 ⟨s', hf, rfl⟩)

theorem TakesUnit.mark (h : TakesUnit k f) (h0 : s.pmm.ZeroUsed)
    (hf : f s = .ok s') {g : ℕ} (hg : ¬ s'.pmm.Used g) : f (s.mark g) = .ok (s'.mark g) := by
  obtain ⟨s'', hs, he⟩ := map_eq_ok.1 (h.marks s () s' g h0 (map_eq_ok.2 ⟨s', hf, rfl⟩) hg)
  cases he
  exact hs

end Unit

theorem Takes.forRange {body : ℕ → α × Machine → Except Halt (α × Machine)} (n : ℕ) (a : α)
    (h : ∀ i a, Takes k fun s => body i (a, s)) :
    Takes (n * k) fun s => DripOS.forRange n body (a, s) := by
  induction n with
  | zero => exact (Takes.pure a).mono (Nat.zero_le _)
  | succ n ih =>
    rw [Nat.succ_mul]
    exact ih.bind (h n)

end Rules

/-! ### The functions of `vmm.c` -/

theorem takes_pmmAlloc {size : ℕ} (hpos : 0 < Pmm.pagesOf size) :
    Takes (Pmm.pagesOf size) fun s => s.pmmAlloc size where
  runs s q hb hle := by
    obtain ⟨p', hp, -, hb'⟩ := hb.pmmAlloc hpos hle
    refine ⟨q * 0x1000, { s with pmm := p' }, _, ?_, hb', Nat.le_add_right _ _, le_rfl⟩
    rw [pmmAlloc, hp]
    rfl
  keeps s a s' h0 h := by
    obtain ⟨page, -, -, ha⟩ := (pmmAlloc_spec (Or.inl h0)).of_ok h
    exact ⟨ha.maxPage, fun g hg => (ha.used g).2 (Or.inr hg)⟩
  marks s a s' g h0 h hg := by
    obtain ⟨r, hr, he⟩ := map_eq_ok.1 h
    cases he
    have hmark := Pmm.pmmAlloc_pmmSetBit h0 hr hg
    rw [pmmAlloc, mark, hmark]
    rfl

theorem takes_pmmAlloc_page : Takes 1 fun s => s.pmmAlloc 0x1000 := by
  simpa only [Pmm.pagesOf_page] using
    takes_pmmAlloc (show 0 < Pmm.pagesOf 0x1000 by rw [Pmm.pagesOf_page]; exact Nat.one_pos)

theorem takes_newPage (w : ℕ → Machine → Machine) (hp : ∀ a s, (w a s).pmm = s.pmm)
    (hw : ∀ a s x, w a (s.mark x) = (w a s).mark x) :
    TakesUnit 1 fun s => s.pmmAlloc 0x1000 >>= fun new => .ok (w new.1 new.2) := by
  refine (takes_pmmAlloc_page.bind fun a => Takes.write () (w a) (hp a) (hw a)).congr fun s => ?_
  dsimp only
  cases s.pmmAlloc 0x1000 <;> rfl

theorem TakesUnit.pure : TakesUnit 0 fun s => .ok s := Takes.pure ()

theorem TakesUnit.ite {c : Prop} [Decidable c] {f f' : Machine → Except Halt Machine}
    (h : TakesUnit k f) (h' : TakesUnit k f') : TakesUnit k fun s => if c then f s else f' s := by
  by_cases hc : c
  · simpa only [if_pos hc] using h
  · simpa only [if_neg hc] using h'

theorem takes_vmmEnsureTable (table : Ptr) (offset : Fin 512) :
    TakesUnit 1 fun s => s.vmmEnsureTable table offset :=
  Takes.read (r := fun s => s.entries table offset) (fun _ _ => rfl) fun e =>
    TakesUnit.ite (c := e &&& vmmPresent = 0)
      (takes_newPage (fun a s => (s.clearPage (getHigherHalf a)).setEntry table offset
        (a ||| vmmPresent ||| vmmWrite ||| vmmUser)) (fun _ _ => rfl) fun _ _ _ => rfl)
      (TakesUnit.pure.mono Nat.one_pos.le)

theorem takes_vmmRemapTo4k (p2 : Ptr) (offset : Fin 512) :
    TakesUnit 1 fun s => s.vmmRemapTo4k p2 offset :=
  takes_newPage (fun a s => ((s.clearPage ((a + normalVmaOffset) % 2 ^ 64)).writePage
      ((a + normalVmaOffset) % 2 ^ 64) fun i => ((s.entries p2 offset &&& vmm4kPermMask) +
        i.val * 0x1000) % 2 ^ 64 ||| (s.entries p2 offset &&& 0xfff)).setEntry p2 offset
      (a ||| vmmPresent ||| vmmWrite ||| vmmUser)) (fun _ _ => rfl) fun _ _ _ => rfl

theorem takes_vmmGetTableP1 (p2 : Ptr) (p2Off : Fin 512) :
    TakesUnit 2 fun s => s.vmmGetTableP1 p2 p2Off := by
  have h : ∀ e : ℕ, TakesUnit 2 fun s =>
      if e &&& vmmHuge = 0 ∧ e &&& vmmPresent ≠ 0 then .ok s
      else (if e &&& vmmHuge ≠ 0 ∧ e &&& vmmPresent ≠ 0 then s.vmmRemapTo4k p2 p2Off
        else .ok s) >>= fun s => s.vmmEnsureTable p2 p2Off := fun e =>
    TakesUnit.ite (TakesUnit.pure.mono (Nat.zero_le 2)) (TakesUnit.bindUnit
      (TakesUnit.ite (takes_vmmRemapTo4k p2 p2Off) (TakesUnit.pure.mono Nat.one_pos.le))
      (takes_vmmEnsureTable p2 p2Off))
  refine (Takes.read (r := fun s => s.getEntry p2 p2Off) (fun _ _ => rfl) h).congr fun s => ?_
  dsimp only [vmmGetTableP1]
  split_ifs <;> rfl

theorem takes_vmmGetTable (offs : PtOff) (p4 : ℕ) : Takes 4 fun s => s.vmmGetTable offs p4 := by
  -- the pointers to the tables are read after each step
  have hp1 : ∀ p3 p2 : Ptr, Takes 0 fun s =>
      .ok ((⟨p3, p2, s.traversePageTable p2 offs.p2Off⟩ : PtPtr), s) := fun p3 p2 =>
    Takes.read (g := fun p1 s => .ok ((⟨p3, p2, p1⟩ : PtPtr), s)) (fun _ _ => rfl) fun _ =>
      Takes.pure _
  have hp2 : ∀ p3 : Ptr, Takes 2 fun s => (s.vmmGetTableP1 (s.traversePageTable p3 offs.p3Off)
      offs.p2Off) >>= fun s' => .ok ((⟨p3, s.traversePageTable p3 offs.p3Off,
        s'.traversePageTable (s.traversePageTable p3 offs.p3Off) offs.p2Off⟩ : PtPtr), s') :=
    fun p3 => Takes.read (r := fun s => s.traversePageTable p3 offs.p3Off) (fun _ _ => rfl)
      fun p2 => (takes_vmmGetTableP1 p2 offs.p2Off).bind (hp1 p3 p2)
  have hp3 : Takes 3 fun s => (s.vmmEnsureTable (s.traversePageTable (getHigherHalf p4) offs.p4Off)
      offs.p3Off) >>= fun s' => _ :=
    Takes.read (r := fun s => s.traversePageTable (getHigherHalf p4) offs.p4Off) (fun _ _ => rfl)
      fun p3 => (takes_vmmEnsureTable p3 offs.p3Off).bind (hp2 p3)
  exact (takes_vmmEnsureTable (getHigherHalf p4) offs.p4Off).bind hp3

theorem takes_vmmRemapPage (p4 perms curPhys curVirt : ℕ) (ret : ℕ) :
    Takes 4 fun s => vmmRemapPage p4 perms curPhys curVirt (ret, s) :=
  (takes_vmmGetTable (vmmVirtToOffs curVirt) p4).bind fun ptrs =>
    Takes.write ret (fun s => s.setEntry ptrs.p1 (vmmVirtToOffs curVirt).p1Off
      (curPhys ||| (perms ||| vmmPresent))) (fun _ => rfl) fun _ _ => rfl

theorem takes_vmmMapPage (p4 perms curPhys curVirt : ℕ) (ret : ℕ) :
    Takes 4 fun s => vmmMapPage p4 perms curPhys curVirt (ret, s) :=
  (takes_vmmGetTable (vmmVirtToOffs curVirt) p4).bind fun ptrs =>
    Takes.read (r := fun s => s.entries ptrs.p1 (vmmVirtToOffs curVirt).p1Off) (fun _ _ => rfl)
      fun e => Takes.ite (c := e &&& vmmPresent = 0)
        (Takes.write ret (fun s => s.setEntry ptrs.p1 (vmmVirtToOffs curVirt).p1Off
          (curPhys ||| perms)) (fun _ => rfl) fun _ _ => rfl) (Takes.pure 1)

theorem takes_vmmRemapPages (phys virt p4 count perms : ℕ) :
    Takes (count * 4) fun s => s.vmmRemapPages phys virt p4 count perms :=
  Takes.forRange count 0 fun _ ret => takes_vmmRemapPage _ _ _ _ ret

theorem takes_vmmMapPages (phys virt p4 count perms : ℕ) :
    Takes (count * 4) fun s => s.vmmMapPages phys virt p4 count perms :=
  Takes.forRange count 0 fun _ ret => takes_vmmMapPage _ _ _ _ ret

theorem takes_vmmForkHigherHalf (old : ℕ) : Takes 1 fun s => s.vmmForkHigherHalf old :=
  takes_pmmAlloc_page.bind fun a => Takes.write a
    (fun s => (s.clearPage (getHigherHalf a)).writePage (getHigherHalf a) fun i =>
      if 256 ≤ i.val then (s.clearPage (getHigherHalf a)).entries (getHigherHalf old) i
      else (s.clearPage (getHigherHalf a)).entries (getHigherHalf a) i)
    (fun _ => rfl) fun _ _ => rfl

end Machine

end DripOS
