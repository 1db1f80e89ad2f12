import DripOS.Mm.Budget
import DripOS.Proc.ElfImage

/-!
# When a program is loaded as its file says

`LoadsRight` : every byte of every segment is mapped and holds its byte of the file, or zero, and
only the frames that were allocated are written.  This holds in every state of the machine
(`LoadsAlways`) under a condition on the file alone (`Separate`): all segments fit into their
frames, and the last segment that maps a page has the bytes that the file's own segments have there.

Otherwise there is a state in which the load goes wrong.  When a segment does not fit, the frame
behind its frames is in use; when another segment takes a page away, the new frame holds the wrong
bytes.

* `loadsAlways_of_separate` : the condition is sufficient;
* `fits_of_loadsAlways`, `last_of_loadsAlways` : it is necessary.
-/

namespace DripOS

open TableTree List Machine Option Nat

namespace Elf

/-! ### The specification -/

/-- The address space with root `r` holds the segments of the file, and `s'` differs from `s` in
the frames that were allocated, and in tables of the lower half of a given address space. -/
structure LoadsRight (file : Bytes) (base r : ℕ) (exportCr3 : Option ℕ) (s s' : Machine) :
    Prop where
  contents : ∀ ph ∈ readPhdrs file, ph.pType = ptLoad → ∀ k < ph.pMemsz,
    (s'.toPhys r (base + ph.pVaddr + k)).isSome ∧
      s'.userBytes r (base + ph.pVaddr + k) = if k < ph.pFilesz then file (ph.pOffset + k) else 0
  frames : ∀ f, ¬ (¬ s.pmm.Used f ∧ s'.pmm.Used f) →
    (∀ r', exportCr3 = some r' → ¬ ∃ π, LowPath π ∧ pageWalk s.mem r' π = some f) →
    s'.mem f = s.mem f

/-- The state before a call; `k` is the frame of `base_kernel_cr3`. -/
structure Ready (k : ℕ) (exportCr3 : Option ℕ) (s : Machine) : Prop where
  reserved : 0 < s.pmm.bitmapMaxPage ∧ s.pmm.Used 0
  kernel : TreeOk s k
  exported : ∀ r, exportCr3 = some r → TreeOk s r ∧ ∀ v : PtOff, v.Low → Regular s.mem r v

/-- In every state, a call that succeeds loads the file. -/
def LoadsAlways (files : List UInt8 → Option Bytes) (fuel : ℕ) (path : List UInt8) (base : ℕ)
    (file : Bytes) : Prop :=
  ∀ k exportCr3 s elf s', Ready k exportCr3 s →
    loadElfAddrspace files (k * 0x1000) fuel path base (exportCr3.map (· * 0x1000)) s =
      .ok (some elf, s') →
    ∃ r, elf.elfAddressSpace = r * 0x1000 ∧ LoadsRight file base r exportCr3 s s'

/-- The segments do not get into each other's way. -/
structure Separate (file : Bytes) (base : ℕ) (ops : List LoadOp) : Prop where
  fits : ∀ seg ∈ segments ops, seg.Fits
  last : ∀ ph ∈ readPhdrs file, ph.pType = ptLoad → ∀ u b,
    (ph.segment file base).byteAt u = some b →
    (lastMapping (segments ops) u).bind (fun seg => seg.byteAt u) = some b

/-! ### The segments of a plan -/

section Plan

variable {files : List UInt8 → Option Bytes} {fuel base : ℕ} {path : List UInt8} {file : Bytes}
  {ops ops' : List LoadOp} {seg : Segment} {nested : List UInt8 → Option (List LoadOp)}
  {phs : List ElfPhdr} {ph : ElfPhdr}

theorem segments_append : segments (ops ++ ops') = segments ops ++ segments ops' :=
  filterMap_append ..

theorem mem_segments_cons {op : LoadOp} (h : seg ∈ segments ops) : seg ∈ segments (op :: ops) := by
  cases op with
  | segment _ => exact mem_cons_of_mem _ h
  | stack => exact h

theorem pos_of_planPhdrs
    (hnested : ∀ path ops, nested path = some ops → ∀ seg ∈ segments ops, 0 < seg.memsz)
    (h : planPhdrs nested file base phs = some ops) (hseg : seg ∈ segments ops) :
    0 < seg.memsz := by
  induction phs generalizing ops with
  | nil =>
    cases h
    cases hseg
  | cons ph phs ih =>
    rw [planPhdrs, bind_eq_some_iff] at h
    obtain ⟨ops1, h1, h⟩ := h
    obtain ⟨ops2, h2, rfl⟩ := map_eq_some_iff.1 h
    rw [segments_append, mem_append] at hseg
    rcases hseg with hseg | hseg
    · rw [planPhdr] at h1
      split_ifs at h1 with hload hmemsz hinterp
      · cases h1
        cases hseg
      · cases h1
        obtain rfl : seg = ph.segment file base := mem_singleton.1 hseg
        exact Nat.pos_of_ne_zero hmemsz
      · exact hnested _ _ h1 seg hseg
      · cases h1
        cases hseg
    · exact ih h2 hseg

theorem pos_of_plan (h : plan files fuel path base = some ops) (hseg : seg ∈ segments ops) :
    0 < seg.memsz := by
  induction fuel generalizing path base ops seg with
  | zero => cases h
  | succ fuel ih =>
    rw [plan] at h
    cases hfile : files path with
    | none =>
      rw [hfile] at h
      cases h
      cases hseg
    | some file =>
      simp only [hfile] at h
      by_cases hmagic : magicOk file
      · rw [if_pos hmagic] at h
        obtain ⟨ops, hops, rfl⟩ := map_eq_some_iff.1 h
        have hstack : segments (if HasInterp (readPhdrs file) then [] else [.stack]) = [] := by
          split_ifs <;> rfl
        rw [segments_append, hstack, append_nil] at hseg
        exact pos_of_planPhdrs (fun path ops h seg hseg => ih h hseg) hops hseg
      · rw [if_neg hmagic] at h
        cases h
        cases hseg

theorem mem_of_planPhdrs (h : planPhdrs nested file base phs = some ops) (hph : ph ∈ phs)
    (hload : ph.pType = ptLoad) (hpos : 0 < ph.pMemsz) :
    ph.segment file base ∈ segments ops := by
  induction phs generalizing ops with
  | nil => cases hph
  | cons ph' phs ih =>
    rw [planPhdrs, bind_eq_some_iff] at h
    obtain ⟨ops1, h1, h⟩ := h
    obtain ⟨ops2, h2, rfl⟩ := map_eq_some_iff.1 h
    rw [segments_append, mem_append]
    rcases mem_cons.1 hph with rfl | hph
    · rw [planPhdr, if_pos hload, if_neg (Nat.ne_of_gt hpos)] at h1
      cases h1
      exact Or.inl mem_cons_self
    · exact Or.inr (ih h2 hph)

theorem mem_of_plan (h : plan files fuel path base = some ops) (hfile : files path = some file)
    (hmagic : magicOk file) (hph : ph ∈ readPhdrs file) (hload : ph.pType = ptLoad)
    (hpos : 0 < ph.pMemsz) : ph.segment file base ∈ segments ops := by
  cases fuel with
  | zero => cases h
  | succ fuel =>
    rw [plan] at h
    simp only [hfile, if_pos hmagic] at h
    obtain ⟨ops, hops, rfl⟩ := map_eq_some_iff.1 h
    rw [segments_append, mem_append]
    exact Or.inl (mem_of_planPhdrs hops hph hload hpos)

end Plan

/-! ### The condition is sufficient -/

section Sufficient

variable {files : List UInt8 → Option Bytes} {fuel base r k u v j : ℕ} {path : List UInt8}
  {file : Bytes} {ops : List LoadOp} {s0 s s' : Machine} {ph : ElfPhdr}

/-- The table walk looks at the lower 48 bits of an address. -/
theorem toPhys_of_mod (h : u % 2 ^ 48 = v % 2 ^ 48) : s.toPhys r u = s.toPhys r v := by
  have hpage : vmmVirtToOffs u = vmmVirtToOffs v := by
    rw [vmmVirtToOffs_eq_iff]
    omega
  have hoff : u % 0x1000 = v % 0x1000 := by omega
  rw [toPhys, toPhys, hpage, hoff]

theorem userBytes_of_mod (h : u % 2 ^ 48 = v % 2 ^ 48) : s.userBytes r u = s.userBytes r v := by
  rw [userBytes, userBytes, toPhys_of_mod h]

theorem segment_addr (ph : ElfPhdr) (j : ℕ) :
    (base + ph.pVaddr + j) % 2 ^ 48 = ((ph.segment file base).virt + j) % 2 ^ 48 := by
  dsimp only [ElfPhdr.segment]
  omega

theorem HasByte.toPhys {f : ℕ} {b : Option UInt8} (h : HasByte r s0 s u b f) :
    s.toPhys r u = some (f * 0x1000 + u % 0x1000) :=
  toPhys_eq_some.2 ⟨f, segmentPerms, h.mapped, rfl⟩

theorem byteAt_segment (file : Bytes) (base : ℕ) (hj : j < ph.pMemsz) :
    (ph.segment file base).byteAt ((ph.segment file base).virt + j) =
      some (if j < ph.pFilesz then file (ph.pOffset + j) else 0) :=
  Segment.byteAt_eq_some.2 ⟨j, hj, rfl, rfl⟩

section

variable (hsep : Separate file base ops) (hlow : ∀ seg ∈ segments ops, seg.Valid)
  (hown : ∀ ph ∈ readPhdrs file, ph.pType = ptLoad → 0 < ph.pMemsz →
    ph.segment file base ∈ segments ops)
include hsep hlow hown

theorem contents_of_loaded (h : Loaded r s0 (segments ops) s') (hph : ph ∈ readPhdrs file)
    (hload : ph.pType = ptLoad) (hj : j < ph.pMemsz) :
    (s'.toPhys r (base + ph.pVaddr + j)).isSome ∧
      s'.userBytes r (base + ph.pVaddr + j) =
        if j < ph.pFilesz then file (ph.pOffset + j) else 0 := by
  rw [toPhys_of_mod (segment_addr ph j), userBytes_of_mod (segment_addr ph j)]
  have hbyte := byteAt_segment file base hj
  have hvalid := hlow _ (hown ph hph hload (by omega))
  obtain ⟨seg, hlast, hseg⟩ := bind_eq_some_iff.1 (hsep.last ph hph hload _ _ hbyte)
  have hu : (ph.segment file base).virt + j < 2 ^ 47 := by
    have hle : (ph.segment file base).virt + ph.pMemsz ≤ 2 ^ 47 := hvalid.low
    omega
  obtain ⟨f, hf⟩ := h.pages _ seg hu hlast
  have hb := hf.byte
  rw [hseg] at hb
  rw [userBytes_eq hf.toPhys, hf.toPhys]
  exact ⟨rfl, hb⟩

theorem loadsRight_exported (hloaded : Loaded r s (segments ops) s') :
    LoadsRight file base r (some r) s s' where
  contents _ hph hload _ hj := contents_of_loaded hsep hlow hown hloaded hph hload hj
  frames f hf htable := by
    by_cases hu : s.pmm.Used f
    · exact hloaded.kept f hu (htable r rfl)
    · exact hloaded.free f fun hu' => hf ⟨hu, hu'⟩

theorem loadsRight_new {s1 : Machine} (hroot : HigherHalf s k r s1)
    (hloaded : Loaded r s1 (segments ops) s') : LoadsRight file base r none s s' where
  contents _ hph hload _ hj := contents_of_loaded hsep hlow hown hloaded hph hload hj
  frames f hf _ := by
    have hroot_used : s'.pmm.Used r := hloaded.used r ((hroot.used r).2 (Or.inl rfl))
    have hne : f ≠ r := by
      rintro rfl
      exact hf ⟨hroot.not_used, hroot_used⟩
    rw [← hroot.other f hne]
    by_cases hu : s.pmm.Used f
    · refine hloaded.kept f ((hroot.used f).2 (Or.inr hu)) ?_
      -- the only table of the lower half is the root
      rintro ⟨π, hπ, hw⟩
      exact hne (hroot.of_walk_low hπ hw).2
    · exact hloaded.free f fun hu' => hf ⟨hu, hu'⟩

end

theorem Loaded.refl (hr : TreeOk s r) (hreg : LowRegular s.mem r)
    (h0 : s.pmm.ZeroUsed) : Loaded r s [] s :=
  ⟨Grown.refl hr hreg h0, fun _ _ => rfl, fun u seg _ h => by cases h⟩

theorem loaded_of_higherHalf (h : HigherHalf s k r s') (hk : TreeOk s k)
    (h0 : s.pmm.ZeroUsed) : Loaded r s' [] s' :=
  Loaded.refl (h.tree hk) (fun _ hv => (h.forkInv hk).small.regular hv)
    ⟨h.alloc.maxPage ▸ h0.1, (h.used 0).2 (Or.inr h0.2)⟩

/-- **The condition is sufficient.** -/
theorem loadsAlways_of_separate (hplan : plan files fuel path base = some ops)
    (hfile : files path = some file) (hmagic : magicOk file)
    (hlow : ∀ seg ∈ segments ops, seg.Valid) (hsep : Separate file base ops) :
    LoadsAlways files fuel path base file := by
  intro k exportCr3 s elf s' hready hrun
  have hown : ∀ ph ∈ readPhdrs file, ph.pType = ptLoad → 0 < ph.pMemsz →
      ph.segment file base ∈ segments ops := fun ph hph => mem_of_plan hplan hfile hmagic hph
  -- the call on an address space
  have hinto : ∀ r s1, Loaded r s1 [] s1 →
      loadElfAddrspace files (k * 0x1000) fuel path base (some (r * 0x1000)) s1 =
        .ok (some elf, s') →
      elf.elfAddressSpace = r * 0x1000 ∧ Loaded r s1 (segments ops) s' := by
    intro r s1 hs1 hcall
    obtain ⟨elf', he, hcr3⟩ := loadElfAddrspace_some hfile hmagic hcall
    cases he
    have hops : (loadElfAddrspace files (k * 0x1000) fuel path base (some (r * 0x1000)) s1).map
        Prod.snd = runOps (r * 0x1000) ops s1 := machine_loadElfAddrspace hplan
    rw [hcall] at hops
    exact ⟨hcr3, loaded_runOps hs1 hlow hsep.fits hops.symm⟩
  cases exportCr3 with
  | some r =>
    obtain ⟨htree, hreg⟩ := hready.exported r rfl
    obtain ⟨hcr3, hloaded⟩ := hinto r s (Loaded.refl htree hreg hready.reserved) hrun
    exact ⟨r, hcr3, loadsRight_exported hsep hlow hown hloaded⟩
  | none =>
    cases fuel with
    | zero => cases hplan
    | succ fuel =>
      rw [map_none, loadElfAddrspace_none hfile hmagic] at hrun
      obtain ⟨⟨cr3, s1⟩, hfork, hrun⟩ := bind_eq_ok.1 hrun
      obtain ⟨r, hr, hroot⟩ := (vmmForkHigherHalf_spec hready.kernel).of_ok hfork
      rw [hr] at hrun
      obtain ⟨hcr3, hloaded⟩ :=
        hinto r s1 (loaded_of_higherHalf hroot hready.kernel hready.reserved) hrun
      exact ⟨r, hcr3, loadsRight_new hsep hlow hown hroot hloaded⟩

end Sufficient

/-! ### Loading takes a bounded number of pages -/

section Takes

open Machine

/-- A bound on the pages that a step takes. -/
def LoadOp.cost : LoadOp → ℕ
  | .segment seg => seg.pages + seg.pages * 4
  | .stack => userStackPages + userStackPages * 4

/-- A bound on the pages that some steps take. -/
def cost (ops : List LoadOp) : ℕ := (ops.map LoadOp.cost).sum

theorem takes_loadSegment (cr3 : ℕ) {seg : Segment} (hpos : 0 < seg.pages) :
    TakesUnit (seg.pages + seg.pages * 4) (loadSegment cr3 seg) :=
  (takes_pmmAlloc hpos).bindUnit fun phys =>
    (((takes_vmmRemapPages phys seg.virt cr3 seg.pages segmentPerms).store
      ((getHigherHalf phys + (seg.virt &&& 0xfff)) % 2 ^ 64) seg.filesz seg.data).store
      ((getHigherHalf phys + (seg.virt &&& 0xfff)) % 2 ^ 64) seg.memsz fun _ => 0).toUnit

theorem takes_loadStack (cr3 : ℕ) :
    TakesUnit (userStackPages + userStackPages * 4) (loadStack cr3) := by
  have hpos : 0 < Pmm.pagesOf userStackSize := by
    exact succ_pos 511
  have h := (takes_pmmAlloc hpos).bindUnit fun phys =>
    ((takes_vmmMapPages phys userStackStart cr3 userStackPages segmentPerms).store
      (getHigherHalf phys) userStackSize fun _ => 0).toUnit
  rwa [pagesOf_userStackSize] at h

theorem takes_op (cr3 : ℕ) {op : LoadOp} {ops : List LoadOp}
    (hpos : ∀ seg ∈ segments (op :: ops), 0 < seg.pages) : TakesUnit op.cost (op.run cr3) := by
  cases op with
  | segment seg => exact takes_loadSegment cr3 (hpos seg mem_cons_self)
  | stack => exact takes_loadStack cr3

/-- Each step takes its share. -/
theorem takes_runOps (cr3 : ℕ) {ops : List LoadOp} (hpos : ∀ seg ∈ segments ops, 0 < seg.pages) :
    TakesUnit (cost ops) (runOps cr3 ops) := by
  induction ops with
  | nil => exact TakesUnit.pure
  | cons op ops ih =>
    have hrest : TakesUnit (cost ops) (runOps cr3 ops) :=
      ih fun seg hseg => hpos seg (mem_segments_cons hseg)
    have h := (takes_op cr3 hpos).bindUnit hrest
    exact Takes.congr h fun s => by rw [runOps_cons]

end Takes

/-! ### The condition is necessary

The machine of the proofs below has only an empty table of the kernel in use, and its memory is
filled with one byte. -/

section Necessary

/-- Frame 1 is the empty root of the kernel; all other memory is filled with `c`. -/
def filledMachine (c : UInt8) : Machine where
  mem f _ := if f = 1 then 0 else Bytes.getLE (fun _ => c) 0 8
  pmm :=
    { bitmap := Bitmap.setBits (fun _ => 0#8) 0 2
      bitmapMaxPage := 2 ^ 52
      usedMemory := 0x2000
      availableMemory := 0
      maxPage_le := le_rfl }

variable {files : List UInt8 → Option Bytes} {fuel base r k q u : ℕ} {path : List UInt8}
  {file : Bytes} {ops : List LoadOp} {s s1 s' : Machine} {seg : Segment} {c b : UInt8}

theorem bump_filledMachine (c : UInt8) : (filledMachine c).pmm.Bump 2 where
  pos := succ_pos 1
  le := show 2 ≤ 2 ^ 52 by decide
  used f := by
    have h : (filledMachine c).pmm.pmmGetBit f = (decide (0 ≤ f ∧ f < 0 + 2) || false) := by
      rw [Pmm.pmmGetBit, filledMachine, Bitmap.testBit_setBits, Bitmap.testBit_eq f,
        BitVec.getLsbD_zero]
    rw [Pmm.Used, h]
    simp

theorem treeOk_filledMachine (c : UInt8) : TreeOk (filledMachine c) 1 := by
  have hdesc : Describes pageChild (filledMachine c).mem 1 [([], 1)] := by
    have h : Describes pageChild (fun (_ : ℕ) (_ : Fin 512) => 0) 1 [([], 1)] := by
      decide +kernel
    refine ⟨h.1, h.2.1, fun x hx i => ?_⟩
    have hx1 : x.2 = 1 := by
      rw [mem_singleton.1 hx]
    have hmem : (filledMachine c).mem x.2 i = 0 := if_pos hx1
    rw [hmem]
    exact h.2.2 x hx i
  refine TreeOk.of_describes (by decide) hdesc fun x hx => ?_
  rw [mem_singleton] at hx
  refine ⟨?_, fun y hy _ => ?_⟩
  · rw [hx]
    exact ((bump_filledMachine c).used 1).2 (by decide)
  · rw [mem_singleton] at hy
    rw [hx, hy]

theorem bytes_filledMachine {x : ℕ} (hx : x / 0x1000 ≠ 1) : (filledMachine c).bytes x = c := by
  simp only [bytes, filledMachine, if_neg hx]
  rw [Bytes.ofNat_getLE (mod_lt x (by decide))]

theorem treeOk_mark (h : TreeOk s r) (g : ℕ) : TreeOk (s.mark g) r :=
  h.congr (fun _ => rfl) fun t ⟨π, hπ⟩ => Pmm.used_pmmSetBit.2 (Or.inr (h.used π t hπ))

theorem exists_byte_ne (b : UInt8) : ∃ c, c ≠ b := by
  by_cases hb : b = 0
  · exact ⟨1, fun h => absurd (h.trans hb) (by decide)⟩
  · exact ⟨0, Ne.symm hb⟩

theorem Segment.Fits.maps (hfit : seg.Fits) (hb : seg.byteAt u = some b) : seg.Maps u := by
  obtain ⟨j, hj, rfl, -⟩ := Segment.byteAt_eq_some.1 hb
  rw [Segment.Fits] at hfit
  rw [Segment.Maps]
  omega

theorem Segment.Valid.pages_pos (h : seg.Valid) : 0 < seg.pages := by
  have := h.pos
  rw [h.pages_eq]
  omega

theorem exists_root (c : UInt8) : ∃ n s1 q1,
    (filledMachine c).vmmForkHigherHalf (1 * 0x1000) = .ok (n * 0x1000, s1) ∧
      HigherHalf (filledMachine c) 1 n s1 ∧ s1.pmm.Bump q1 ∧ q1 ≤ 3 ∧
      s1.pmm.bitmapMaxPage = 2 ^ 52 := by
  have hmax : (filledMachine c).pmm.bitmapMaxPage = 2 ^ 52 := rfl
  obtain ⟨cr3, s1, q1, hfork, hb1, -, hq1⟩ :=
    (takes_vmmForkHigherHalf (1 * 0x1000)).runs _ _ (bump_filledMachine c)
      (by rw [hmax]; omega)
  obtain ⟨n, hn, hroot⟩ := (vmmForkHigherHalf_spec (treeOk_filledMachine c)).of_ok hfork
  subst hn
  exact ⟨n, s1, q1, hfork, hroot, hb1, hq1, by rw [hroot.alloc.maxPage, hmax]⟩

/-- Steps do not write to the used frames, which are those below `q`. -/
theorem grown_runOps (hr : TreeOk s r) (hreg : LowRegular s.mem r)
    (hb : s.pmm.Bump q) (hv : ∀ seg ∈ segments ops, seg.Valid)
    (hle : q + cost ops ≤ s.pmm.bitmapMaxPage) (h : runOps (r * 0x1000) ops s = .ok s') :
    Grown r s s' := by
  induction ops generalizing s q with
  | nil =>
    cases h
    exact Grown.refl hr hreg hb.zeroUsed
  | cons op ops ih =>
    rw [cost, map_cons, sum_cons] at hle
    obtain ⟨s2, hop, hrest⟩ := bind_eq_ok.1 h
    have hv' : ∀ seg ∈ segments ops, seg.Valid := fun seg hseg => hv seg (mem_segments_cons hseg)
    have htakes := takes_op (r * 0x1000) fun seg hseg => (hv seg hseg).pages_pos
    have hgrown : Grown r s s2 := by
      cases op with
      | segment seg =>
        have hseg := hv seg mem_cons_self
        obtain ⟨a, s1, -, hstep⟩ := loadSegment_spec hr hreg hb.zeroUsed hseg
          (fun a s1 ha hmem f hf => by
            have hfa : ¬ a < q := fun hlt => ha.lowest.1.2 a le_rfl
              (Nat.lt_add_of_pos_right hseg.pages_pos) ((hb.used a).2 hlt)
            have hfq := (hb.used f).1 hf
            rw [Segment.mem_fill hseg.filesz_le (by omega), hmem]) hop
        exact hstep.grown hseg hr hreg hb.zeroUsed
      | stack =>
        obtain ⟨a, s1, hstep⟩ := loadStack_spec hr hreg hb.zeroUsed hop
        exact hstep.grown hr hreg hb.zeroUsed
    obtain ⟨s2', q2, hop', hb2, -, hq2⟩ := htakes.exists_ok hb (by omega)
    cases hop.symm.trans hop'
    have hmax := (htakes.keep hb.zeroUsed hop).1
    exact hgrown.trans (ih hgrown.tree hgrown.regular hb2 hv' (by rw [hmax, cost]; omega) hrest)

/-- The byte of a segment behind its frames. -/
def Segment.overrun (seg : Segment) : UInt8 :=
  let k := seg.pages * 0x1000 - seg.virt % 0x1000
  if k < seg.filesz then seg.data k else 0

/-- What is left after a segment was stored behind its frames, in frame `e`. -/
structure Overrun (r e : ℕ) (b : UInt8) (s : Machine) : Prop where
  tree : TreeOk s r
  regular : ∀ v : PtOff, v.Low → Regular s.mem r v
  used : s.pmm.Used e
  noTable : ¬ IsPageTable s.mem r e
  byte : s.bytes (e * 0x1000) = b

/-- **A segment that does not fit is written to the next frame, even when that is in use.** -/
theorem exists_overrun (hr : TreeOk s r) (hreg : LowRegular s.mem r)
    (hb : s.pmm.Bump q) (hv : seg.Valid) (hfit : ¬ seg.Fits)
    (hle : q + seg.pages + seg.pages * 4 + 1 ≤ s.pmm.bitmapMaxPage) :
    ∃ s' q', loadSegment (r * 0x1000) seg (s.mark (q + seg.pages)) = .ok s' ∧
      Overrun r (q + seg.pages) seg.overrun s' ∧ s'.pmm.Bump q' ∧
      q' ≤ q + seg.pages + seg.pages * 4 + 1 ∧ s'.pmm.bitmapMaxPage = s.pmm.bitmapMaxPage := by
  obtain ⟨e, he⟩ : ∃ e, q + seg.pages = e := ⟨_, rfl⟩
  obtain ⟨p, hp, ha, hbp⟩ := hb.pmmAlloc hv.pages_pos (by rw [← Segment.pages]; omega)
  rw [← Segment.pages] at ha hbp
  rw [he] at hbp hle ⊢
  have hpmax : p.bitmapMaxPage = s.pmm.bitmapMaxPage := ha.maxPage
  have halloc : (s.mark e).pmmAlloc seg.memsz =
      .ok (q * 0x1000, { s with pmm := p : Machine }.mark e) := by
    refine (takes_pmmAlloc hv.pages_pos).marks s _ _ e hb.zeroUsed ?_ fun hu =>
      lt_irrefl e ((hbp.used e).1 hu)
    rw [pmmAlloc, hp]
    rfl
  -- the segment is stored from the frame `q` on, and the frames below are left alone
  have hext : Extended s q seg.pages (seg.fill q { s with pmm := p }) :=
    ⟨by rw [Segment.pmm_fill]; exact ha, fun f hf => by
      have hfq := (hb.used f).1 hf
      rw [Segment.mem_fill hv.filesz_le (by omega)]⟩
  have hbyte : (seg.fill q { s with pmm := p }).bytes (e * 0x1000) = seg.overrun := by
    have hpos := hv.pages_pos
    rw [Segment.Fits] at hfit
    have hoff : e * 0x1000 - (q * 0x1000 + seg.virt % 0x1000) =
        seg.pages * 0x1000 - seg.virt % 0x1000 := by omega
    rw [Segment.bytes_fill hv.filesz_le, if_pos (by omega), hoff]
    rfl
  obtain ⟨s4, hs4⟩ : ∃ s4, (seg.fill q { s with pmm := p }).mark e = s4 := ⟨_, rfl⟩
  have hb4 : s4.pmm.Bump (e + 1) := by
    rw [← hs4, mark, Segment.pmm_fill]
    exact hbp.pmmSetBit (by omega)
  have hmax4 : s4.pmm.bitmapMaxPage = p.bitmapMaxPage := by
    rw [← hs4, mark, Segment.pmm_fill]
    rfl
  have htree4 : TreeOk s4 r := hs4 ▸ treeOk_mark (hext.tree hr) e
  have hreg4 : LowRegular s4.mem r := fun v hv => by
    rw [← hs4]
    exact (hreg v hv).congr (hext.table hr)
  have hno4 : ¬ IsPageTable s4.mem r e := by
    rintro ⟨π, hπ⟩
    rw [← hs4] at hπ
    have := (hb.used e).1 (hr.used π e ((hext.walk hr π).symm.trans hπ))
    omega
  -- the pages are mapped
  obtain ⟨ret, s', q', hmap, hb', -, hq'⟩ := (takes_vmmRemapPages (q * 0x1000) seg.virt
    (r * 0x1000) seg.pages segmentPerms).runs s4 (e + 1) hb4 (by omega)
  have hrange := (vmmRemapPages_spec htree4 (fun i hi => hreg4 _ (hv.low_pageAt hi))
    hv.pages_le (show segmentPerms < 0x1000 by decide)).of_ok hmap
  have ht := hrange.touch
  have hno : ¬ IsPageTable s'.mem r e := by
    rintro ⟨π, hπ⟩
    rcases ht.fresh π e hπ with hold | ⟨hfree, -⟩
    · exact hno4 ⟨π, hold⟩
    · exact hfree ((hb4.used e).2 (lt_succ_self e))
  refine ⟨s', q', ?_, ⟨ht.ok, fun v hv => ht.regular (hreg4 v hv),
    ht.used_of_used ((hb4.used e).2 (lt_succ_self e)), hno, ?_⟩, hb', by omega, ?_⟩
  · rw [loadSegment_eq halloc ha.lowest.lt_two_pow]
    change ((seg.fill q { s with pmm := p }).mark e).vmmRemapPages _ _ _ _ _ >>= _ = _
    rw [hs4, hmap]
    rfl
  · have hkeep := @bytes_frame s4 s' e (ht.frame e hno) 0 (by decide)
    rw [Nat.add_zero] at hkeep
    rw [hkeep, ← hs4]
    exact hbyte
  · rw [← ht.balanced.1, hmax4, hpmax]

section

variable (hplan : plan files fuel path base = some ops) (hfile : files path = some file)
  (hmagic : magicOk file) (halways : LoadsAlways files fuel path base file)
include hplan hfile hmagic halways

/-- What a call on a machine without address spaces does. -/
theorem loadsRight_of_runs (hready : Ready k none s)
    (hfork : s.vmmForkHigherHalf (k * 0x1000) = .ok (r * 0x1000, s1))
    (hrun : runOps (r * 0x1000) ops s1 = .ok s') : LoadsRight file base r none s s' := by
  have hops : (loadElfAddrspace files (k * 0x1000) fuel path base (some (r * 0x1000)) s1).map
      Prod.snd = runOps (r * 0x1000) ops s1 := machine_loadElfAddrspace hplan
  rw [hrun] at hops
  obtain ⟨⟨ret, s2⟩, hcall, he⟩ := map_eq_ok.1 hops
  obtain ⟨elf, rfl, hcr3⟩ := loadElfAddrspace_some hfile hmagic hcall
  obtain rfl : s2 = s' := he
  cases fuel with
  | zero => cases hplan
  | succ fuel =>
    obtain ⟨r', hr', hright⟩ := halways k none s elf s2 hready (by
      rw [map_none, loadElfAddrspace_none hfile hmagic, hfork]
      exact hcall)
    obtain rfl : r' = r := by omega
    exact hright

variable (hv : ∀ seg ∈ segments ops, seg.Valid) (hcost : cost ops + 4 ≤ 2 ^ 52)
include hv hcost

/-- **The condition on the last segment is necessary.** -/
theorem last_of_loadsAlways (hfit : ∀ seg ∈ segments ops, seg.Fits) {ph : ElfPhdr}
    (hph : ph ∈ readPhdrs file) (hload : ph.pType = ptLoad)
    (hb : (ph.segment file base).byteAt u = some b) :
    (lastMapping (segments ops) u).bind (fun seg => seg.byteAt u) = some b := by
  -- the byte that fills memory is not the byte of the segment
  obtain ⟨c, hc⟩ := exists_byte_ne b
  obtain ⟨n, s1, q1, hfork, hroot, hb1, hq1, hmax⟩ := exists_root c
  have hkernel := treeOk_filledMachine c
  have hb0 := bump_filledMachine c
  obtain ⟨s', q', hrun, -⟩ := (takes_runOps (n * 0x1000) fun seg hseg =>
    (hv seg hseg).pages_pos).exists_ok hb1 (by omega)
  have hright := loadsRight_of_runs hplan hfile hmagic halways
    ⟨hb0.zeroUsed, hkernel, fun _ h => by cases h⟩ hfork hrun
  have hloaded : Loaded n s1 (segments ops) s' :=
    loaded_runOps (loaded_of_higherHalf hroot hkernel hb0.zeroUsed) hv hfit hrun
  -- the address belongs to a segment of the file
  obtain ⟨j, hj, rfl, hbyte⟩ : ∃ j < ph.pMemsz, (ph.segment file base).virt + j = u ∧
      (if j < ph.pFilesz then file (ph.pOffset + j) else 0) = b := Segment.byteAt_eq_some.1 hb
  have hmem := mem_of_plan hplan hfile hmagic hph hload (by omega)
  have hmaps := (hfit _ hmem).maps hb
  obtain ⟨seg, hlast⟩ := exists_lastMapping hmem hmaps
  have hu : (ph.segment file base).virt + j < 2 ^ 47 := by
    have hle : (ph.segment file base).virt + ph.pMemsz ≤ 2 ^ 47 := (hv _ hmem).low
    omega
  obtain ⟨f, hf⟩ := hloaded.pages _ seg hu hlast
  have hcontents := (hright.contents ph hph hload j hj).2
  rw [userBytes_of_mod (segment_addr ph j), userBytes_eq hf.toPhys, hf.byte, hbyte]
    at hcontents
  rw [hlast, bind_some]
  cases hseg : seg.byteAt ((ph.segment file base).virt + j) with
  | some b' =>
    rw [hseg] at hcontents
    exact congrArg some hcontents
  | none =>
    -- the segment does not have the byte, and memory was not cleared
    rw [hseg, getD_none] at hcontents
    have hfn : f ≠ n := by
      rintro rfl
      exact hf.fresh ((hroot.used f).2 (Or.inl rfl))
    have hf1 : f ≠ 1 := by
      rintro rfl
      exact hf.fresh ((hroot.used 1).2 (Or.inr ((hb0.used 1).2 (by decide))))
    rw [bytes_frame (hroot.other f hfn) (mod_lt _ (by decide)),
      bytes_filledMachine (by omega)] at hcontents
    exact absurd hcontents hc

/-- **That the segments fit is necessary**: otherwise the frame behind one is in use. -/
theorem fits_of_loadsAlways {pre post : List LoadOp} (hops : pre ++ .segment seg :: post = ops)
    (hpre : ∀ seg ∈ segments pre, seg.Fits) : seg.Fits := by
  subst hops
  by_contra hfit
  obtain ⟨c, hc⟩ := exists_byte_ne seg.overrun
  obtain ⟨n, s1, q1, hfork, hroot, hb1, hq1, hmax1⟩ := exists_root c
  have hkernel := treeOk_filledMachine c
  have hb0 := bump_filledMachine c
  have hcost' : cost (pre ++ .segment seg :: post) =
      cost pre + (seg.pages + seg.pages * 4 + cost post) := by
    rw [cost, map_append, List.sum_append, map_cons, sum_cons]
    rfl
  have hsegs : segments (pre ++ .segment seg :: post) = segments pre ++ seg :: segments post :=
    segments_append
  rw [hsegs] at hv
  have hvpre : ∀ seg ∈ segments pre, seg.Valid := fun _ h => hv _ (mem_append_left _ h)
  have hvseg : seg.Valid := hv _ (mem_append_right _ mem_cons_self)
  have hvpost : ∀ seg ∈ segments post, seg.Valid := fun _ h =>
    hv _ (mem_append_right _ (mem_cons_of_mem _ h))
  -- the segments before this one
  have htakes := takes_runOps (n * 0x1000) fun seg hseg => (hvpre seg hseg).pages_pos
  obtain ⟨s2, q2, hrun2, hb2, -, hq2⟩ := htakes.exists_ok hb1 (by omega)
  obtain ⟨hmax2, hused2⟩ := htakes.keep hb1.zeroUsed hrun2
  have hgrown : Grown n s1 s2 :=
    (loaded_runOps (loaded_of_higherHalf hroot hkernel hb0.zeroUsed) hvpre hpre hrun2).toGrown
  -- this segment, with the frame behind it in use
  obtain ⟨s3, q3, hrun3, hover, hb3, hq3, hmax3⟩ :=
    exists_overrun hgrown.tree hgrown.regular hb2 hvseg hfit (by omega)
  obtain ⟨e, he⟩ : ∃ e, q2 + seg.pages = e := ⟨_, rfl⟩
  rw [he] at hrun3 hover
  have hfree2 : ¬ s2.pmm.Used e := fun hu => by
    have := (hb2.used e).1 hu
    omega
  have hfree1 : ¬ s1.pmm.Used e := fun hu => hfree2 (hused2 e hu)
  -- the segments after it
  obtain ⟨s', q', hrun', -⟩ := (takes_runOps (n * 0x1000) fun seg hseg =>
    (hvpost seg hseg).pages_pos).exists_ok hb3 (by omega)
  have hrest := grown_runOps hover.tree hover.regular hb3 hvpost (by omega) hrun'
  have hrun : runOps (n * 0x1000) (pre ++ .segment seg :: post) (s1.mark e) = .ok s' := by
    rw [runOps_append, htakes.mark hb1.zeroUsed hrun2 hfree2, ok_bind, runOps_cons]
    change loadSegment _ _ _ >>= _ = _
    rw [hrun3]
    exact hrun'
  have hfork' := (takes_vmmForkHigherHalf (1 * 0x1000)).marks _ _ _ e hb0.zeroUsed hfork
    hfree1
  have hready : Ready 1 none ((filledMachine c).mark e) :=
    ⟨⟨hb0.zeroUsed.1, Pmm.used_pmmSetBit.2 (Or.inr hb0.zeroUsed.2)⟩, treeOk_mark hkernel e,
      fun _ h => by cases h⟩
  have hright := loadsRight_of_runs hplan hfile hmagic halways hready hfork' hrun
  -- the frame should be as it was
  have hkeep : s'.mem e = (filledMachine c).mem e := hright.frames e
    (fun h => h.1 (Pmm.used_pmmSetBit.2 (Or.inl rfl))) fun _ h => by cases h
  have hrest' : s'.mem e = s3.mem e :=
    hrest.kept e hover.used fun ⟨π, _, hπ⟩ => hover.noTable ⟨π, hπ⟩
  have hbyte := @bytes_frame s3 (filledMachine c) e (hkeep.symm.trans hrest') 0 (by decide)
  have he1 : e ≠ 1 := by
    rintro rfl
    exact hfree1 ((hroot.used 1).2 (Or.inr ((hb0.used 1).2 (by decide))))
  rw [bytes_filledMachine (by omega), Nat.add_zero, hover.byte] at hbyte
  exact hc hbyte

theorem all_fits_of_loadsAlways : ∀ seg ∈ segments ops, seg.Fits := by
  -- by induction on the steps before the segment
  have h : ∀ post pre, pre ++ post = ops → (∀ seg ∈ segments pre, seg.Fits) →
      ∀ seg ∈ segments post, seg.Fits := by
    intro post
    induction post with
    | nil =>
      intro pre _ _ seg hseg
      cases hseg
    | cons op post ih =>
      intro pre hops hpre seg hseg
      have hsegs : segments (op :: post) = segments [op] ++ segments post :=
        @segments_append [op] post
      have hop : ∀ seg ∈ segments [op], seg.Fits := by
        cases op with
        | segment seg' =>
          intro seg hseg
          rw [mem_singleton.1 hseg]
          exact fits_of_loadsAlways hplan hfile hmagic halways hv hcost hops hpre
        | stack =>
          intro seg hseg
          cases hseg
      rw [hsegs, mem_append] at hseg
      rcases hseg with hseg | hseg
      · exact hop seg hseg
      · have hops' : pre ++ [op] ++ post = ops := by
          rw [← hops, append_assoc, singleton_append]
        refine ih (pre ++ [op]) hops' (fun seg hseg => ?_) seg hseg
        rw [segments_append, mem_append] at hseg
        exact hseg.elim (hpre seg) (hop seg)
  exact h ops [] (nil_append ops) fun _ h => by cases h

end

/-- **A program is loaded as its file says exactly when its segments do not get into each other's
way.** -/
theorem loadsAlways_iff_separate (hplan : plan files fuel path base = some ops)
    (hfile : files path = some file) (hmagic : magicOk file)
    (hvalid : ∀ seg ∈ segments ops, seg.filesz ≤ seg.memsz ∧ seg.virt + seg.memsz ≤ 2 ^ 47) :
    (Separate file base ops → LoadsAlways files fuel path base file) ∧
      (cost ops + 4 ≤ 2 ^ 52 → LoadsAlways files fuel path base file → Separate file base ops) := by
  have hv : ∀ seg ∈ segments ops, seg.Valid := fun seg hseg =>
    ⟨pos_of_plan hplan hseg, (hvalid seg hseg).1, (hvalid seg hseg).2⟩
  refine ⟨loadsAlways_of_separate hplan hfile hmagic hv, fun hcost halways => ?_⟩
  have hfit := all_fits_of_loadsAlways hplan hfile hmagic halways hv hcost
  exact ⟨hfit, fun ph hph hload u b hb =>
    last_of_loadsAlways hplan hfile hmagic halways hv hcost hfit hph hload hb⟩

/-- An ELF file with a segment of a page, of which sixteen bytes are in the file. -/
def oneSegment (vaddr : ℕ) : Bytes :=
  [(0, 0x464c457f, 4), (32, 64, 8), (56, 1, 2), (64, ptLoad, 4), (80, vaddr, 8), (96, 16, 8),
    (104, 0x1000, 8)].foldl (fun b x => b.patch x.1 x.2.2 (Bytes.ofNat x.2.1)) fun _ => 0

/-- The program header of this file. -/
def onePhdr (vaddr : ℕ) : ElfPhdr := ⟨ptLoad, 0, vaddr, 16, 0x1000⟩

theorem planPhdrs_load {phs : List ElfPhdr} (h : ∀ ph ∈ phs, ph.pType = ptLoad ∧ ph.pMemsz ≠ 0)
    (nested : List UInt8 → Option (List LoadOp)) : planPhdrs nested file 0 phs =
      some (phs.map fun ph => .segment (ph.segment file 0)) := by
  induction phs with
  | nil => rfl
  | cons ph phs ih =>
    obtain ⟨htype, hsize⟩ := h ph mem_cons_self
    rw [planPhdrs, planPhdr, if_pos htype, if_neg hsize,
      ih fun ph hmem => h ph (mem_cons_of_mem _ hmem)]
    rfl

theorem plan_load {phs : List ElfPhdr} (hmagic : magicOk file) (hph : readPhdrs file = phs)
    (h : ∀ ph ∈ phs, ph.pType = ptLoad ∧ ph.pMemsz ≠ 0) : plan (fun _ => some file) 1 path 0 =
      some (phs.map (fun ph => .segment (ph.segment file 0)) ++ [.stack]) := by
  have hinterp : ¬ HasInterp phs := by
    rintro ⟨ph, hmem, htype⟩
    rw [(h ph hmem).1] at htype
    exact absurd htype (by decide)
  simp only [plan, hmagic, hph]
  rw [if_pos trivial, planPhdrs_load h, if_neg hinterp]
  rfl

/-- An ELF file with two segments on one page.  The second one has the bytes of the first one, and
more of the file. -/
def twoSegments : Bytes :=
  [(0, 0x464c457f, 4), (32, 64, 8), (56, 2, 2), (64, ptLoad, 4), (80, 0x400000, 8), (96, 16, 8),
    (104, 16, 8), (120, ptLoad, 4), (136, 0x400000, 8), (152, 32, 8), (160, 0x1000, 8)].foldl
    (fun b x => b.patch x.1 x.2.2 (Bytes.ofNat x.2.1)) fun _ => 0

/-- Two segments on one page are loaded. -/
theorem loadsAlways_twoSegments :
    LoadsAlways (fun _ => some twoSegments) 1 [] 0 twoSegments := by
  have hmagic : magicOk twoSegments := by decide +kernel
  have hph : readPhdrs twoSegments =
      [⟨ptLoad, 0, 0x400000, 16, 16⟩, ⟨ptLoad, 0, 0x400000, 32, 0x1000⟩] := by decide +kernel
  have hfit : (ElfPhdr.segment ⟨ptLoad, 0, 0x400000, 32, 0x1000⟩ twoSegments 0).Fits := by decide
  refine (loadsAlways_iff_separate (plan_load hmagic hph (by decide)) rfl hmagic ?_).1 ⟨?_, ?_⟩
  · exact forall_mem_cons.2 ⟨by decide, forall_mem_singleton.2 (by decide)⟩
  · exact forall_mem_cons.2 ⟨by decide, forall_mem_singleton.2 hfit⟩
  · intro ph h _ u b hb
    rw [hph] at h
    -- both segments have the byte, and the second one is the last one
    have hlast : (ElfPhdr.segment ⟨ptLoad, 0, 0x400000, 32, 0x1000⟩ twoSegments 0).byteAt u =
        some b := by
      rcases mem_pair.1 h with rfl | rfl
      · obtain ⟨j, hj, rfl, rfl⟩ := Segment.byteAt_eq_some.1 hb
        have hj : j < 16 := hj
        refine Segment.byteAt_eq_some.2 ⟨j, by show j < 0x1000; omega, rfl, ?_⟩
        show (if j < 32 then _ else _) = if j < 16 then _ else _
        rw [if_pos (by omega), if_pos hj]
        rfl
      · exact hb
    change (lastMapping ([_] ++ [_]) u).bind _ = _
    rw [lastMapping_concat, if_pos (hfit.maps hlast)]
    exact hlast

/-- A segment that starts in the middle of a page is not. -/
theorem not_loadsAlways_oneSegment :
    readPhdrs (oneSegment 0x400800) = [⟨ptLoad, 0, 0x400800, 16, 0x1000⟩] ∧
    ¬ LoadsAlways (fun _ => some (oneSegment 0x400800)) 1 [] 0 (oneSegment 0x400800) := by
  have hmagic : magicOk (oneSegment 0x400800) := by decide +kernel
  have hph : readPhdrs (oneSegment 0x400800) = [onePhdr 0x400800] := by decide +kernel
  refine ⟨hph, fun halways => ?_⟩
  have hfit := all_fits_of_loadsAlways (plan_load hmagic hph (by decide)) rfl hmagic halways
    (fun seg hseg => by
      rw [mem_singleton.1 hseg]
      exact ⟨by decide, by decide, by decide⟩) (by decide) _ mem_cons_self
  exact absurd hfit (by decide)

end Necessary

end Elf

end DripOS
