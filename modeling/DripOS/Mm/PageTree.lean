import DripOS.Lib.TableTree
import DripOS.Mm.Vmm
import Mathlib.Tactic.Ring

/-!
# Page tables as trees

The tables of an address space form a tree of depth four (`pageChild`, instantiating
`DripOS.Lib.TableTree`).  Seen from outside, it is a partial map from virtual pages to a frame and
its flags: `translate` is the walk of the processor, which stops at the first entry that is not
present and lets an entry of 2 MiB stand for its 512 pages.

The functions of `vmm.c` work on trees whose tables are distinct used frames (`TreeOk`), for pages
that are not part of an entry of 1 GiB or of a misaligned entry of 2 MiB (`Regular`).  `Touch r V s
s'` says what an operation on the virtual pages `V` may do to the machine.
-/

namespace DripOS

open TableTree PtOff List Machine Nat

/-! ### Entries -/

/-- The present bit of an entry. -/
abbrev Present (e : ℕ) : Prop := e &&& vmmPresent ≠ 0

/-- The bit that makes an entry of the second level map 2 MiB. -/
abbrev Huge (e : ℕ) : Prop := e &&& vmmHuge ≠ 0

/-- The frame an entry refers to. -/
def entryFrame (e : ℕ) : ℕ := (e &&& vmm4kPermMask) / 0x1000

/-- The flags of an entry. -/
def entryFlags (e : ℕ) : ℕ := e &&& 0xfff

variable {e t r : ℕ} {v : PtOff} {π : List (Fin 512)} {l : List (List (Fin 512) × ℕ)}
  {mem mem' : ℕ → Fin 512 → ℕ}

theorem present_iff : Present e ↔ e % 2 = 1 := by
  rw [Present, ne_eq, vmmPresent, show (1 : ℕ) = 2 ^ 0 from rfl, Bits.and_bit_eq_zero, testBit_zero]
  simp

theorem huge_iff : Huge e ↔ e / 128 % 2 = 1 := by
  rw [Huge, ne_eq, vmmHuge, show (0x80 : ℕ) = 2 ^ 7 from rfl, Bits.and_bit_eq_zero,
    testBit_eq_decide_div_mod_eq]
  simp

theorem entryFrame_eq (e : ℕ) : entryFrame e = e / 0x1000 % 2 ^ 52 := by
  rw [entryFrame, vmm4kPermMask, Bits.and_pageMask]
  omega

theorem entryFrame_lt (e : ℕ) : entryFrame e < 2 ^ 52 := by
  rw [entryFrame_eq]
  exact mod_lt _ (by decide)

theorem and_permMask (e : ℕ) : e &&& vmm4kPermMask = entryFrame e * 0x1000 := by
  rw [entryFrame_eq, vmm4kPermMask, Bits.and_pageMask]

theorem entryFlags_eq (e : ℕ) : entryFlags e = e % 0x1000 := and_two_pow_sub_one_eq_mod e 12

section Make

variable {f fl : ℕ}

theorem or_flags (hfl : fl < 0x1000) : f * 0x1000 ||| fl = f * 0x1000 + fl :=
  Bits.or_low (k := 12) hfl

theorem entryFrame_or (hf : f < 2 ^ 52) (hfl : fl < 0x1000) :
    entryFrame (f * 0x1000 ||| fl) = f := by
  rw [or_flags hfl, entryFrame_eq]
  omega

theorem entryFlags_or (hfl : fl < 0x1000) : entryFlags (f * 0x1000 ||| fl) = fl := by
  rw [or_flags hfl, entryFlags_eq]
  omega

theorem present_or (hfl : fl < 0x1000) : Present (f * 0x1000 ||| fl) ↔ Present fl := by
  rw [or_flags hfl, present_iff, present_iff]
  omega

theorem huge_or (hfl : fl < 0x1000) : Huge (f * 0x1000 ||| fl) ↔ Huge fl := by
  rw [or_flags hfl, huge_iff, huge_iff]
  omega

end Make

/-- The entry that is stored for a table in frame `f`. -/
def tableEntry (f : ℕ) : ℕ := f * 0x1000 ||| vmmPresent ||| vmmWrite ||| vmmUser

theorem tableEntry_eq (f : ℕ) : tableEntry f = f * 0x1000 ||| 7 := by
  rw [tableEntry, Nat.or_assoc, Nat.or_assoc]
  rfl

theorem present_tableEntry (f : ℕ) : Present (tableEntry f) := by
  rw [tableEntry_eq, present_or (by decide)]
  decide

theorem not_huge_tableEntry (f : ℕ) : ¬ Huge (tableEntry f) := by
  rw [tableEntry_eq, huge_or (by decide)]
  decide

theorem entryFrame_tableEntry {f : ℕ} (hf : f < 2 ^ 52) : entryFrame (tableEntry f) = f := by
  rw [tableEntry_eq, entryFrame_or hf (by decide)]

theorem not_present_zero : ¬ Present 0 := by decide

/-! ### Direct-map pointers -/

theorem getLowerHalf_getHigherHalf {a : ℕ} (ha : a < 2 ^ 64) :
    getLowerHalf (getHigherHalf a) = a := by
  unfold getLowerHalf getHigherHalf normalVmaOffset
  omega

@[simp] theorem tableFrame_getHigherHalf {f : ℕ} (hf : f < 2 ^ 52) :
    tableFrame (getHigherHalf (f * 0x1000)) = f := by
  rw [tableFrame, getLowerHalf_getHigherHalf (by omega)]
  omega

theorem traversePageTable_eq (s : Machine) (t : Ptr) (i : Fin 512) :
    s.traversePageTable t i = getHigherHalf (entryFrame (s.entries t i) * 0x1000) := by
  rw [traversePageTable, and_permMask]

theorem tableFrame_traversePageTable (s : Machine) (t : Ptr) (i : Fin 512) :
    tableFrame (s.traversePageTable t i) = entryFrame (s.entries t i) := by
  rw [traversePageTable_eq, tableFrame_getHigherHalf (entryFrame_lt _)]

/-! ### Virtual pages -/

/-- The table indices of a virtual page, last level first. -/
def PtOff.path (v : PtOff) : List (Fin 512) := [v.p1Off, v.p2Off, v.p3Off, v.p4Off]

/-- The indices of its table of the last level. -/
abbrev PtOff.tables (v : PtOff) : List (Fin 512) := [v.p2Off, v.p3Off, v.p4Off]

/-- The 36-bit number of a virtual page. -/
def PtOff.vpn (v : PtOff) : ℕ :=
  ((v.p4Off.val * 512 + v.p3Off.val) * 512 + v.p2Off.val) * 512 + v.p1Off.val

theorem PtOff.vpn_inj {u : PtOff} (h : u.vpn = v.vpn) : u = v := by
  simp only [vpn] at h
  ext <;> omega

theorem PtOff.path_inj {u : PtOff} (h : u.path = v.path) : u = v := by
  simp only [path, List.cons.injEq] at h
  obtain ⟨h1, h2, h3, h4, -⟩ := h
  exact PtOff.ext h4 h3 h2 h1

theorem val_tableIndex (a k : ℕ) :
    (Fin.ofNat 512 ((a &&& (0x1ff <<< k)) >>> k)).val = a / 2 ^ k % 512 := by
  rw [Fin.val_ofNat, show (0x1ff : ℕ) = 2 ^ 9 - 1 from rfl, Bits.field_shiftRight]
  exact mod_mod _ _

/-- The table walk looks at the bits 12 to 47 of an address. -/
theorem vpn_vmmVirtToOffs (a : ℕ) : (vmmVirtToOffs a).vpn = a / 0x1000 % 2 ^ 36 := by
  simp only [vpn, vmmVirtToOffs, val_tableIndex]
  omega

theorem vmmVirtToOffs_eq_iff {a b : ℕ} :
    vmmVirtToOffs a = vmmVirtToOffs b ↔ a / 0x1000 % 2 ^ 36 = b / 0x1000 % 2 ^ 36 := by
  rw [← vpn_vmmVirtToOffs, ← vpn_vmmVirtToOffs]
  exact ⟨fun h => by rw [h], vpn_inj⟩

theorem vmmOffsToVirt_eq (v : PtOff) : vmmOffsToVirt v = v.vpn * 0x1000 := by
  simp only [vmmOffsToVirt, shiftLeft_eq, vpn]
  rw [Bits.or_low (k := 39) (by omega),
    show v.p4Off.val * 2 ^ 39 + v.p3Off.val * 2 ^ 30 =
      (v.p4Off.val * 2 ^ 9 + v.p3Off.val) * 2 ^ 30 by ring, Bits.or_low (k := 30) (by omega),
    show (v.p4Off.val * 2 ^ 9 + v.p3Off.val) * 2 ^ 30 + v.p2Off.val * 2 ^ 21 =
      ((v.p4Off.val * 2 ^ 9 + v.p3Off.val) * 2 ^ 9 + v.p2Off.val) * 2 ^ 21 by ring,
    Bits.or_low (k := 21) (by omega)]
  ring

theorem vmmVirtToOffs_vmmOffsToVirt (v : PtOff) : vmmVirtToOffs (vmmOffsToVirt v) = v := by
  apply vpn_inj
  rw [vpn_vmmVirtToOffs, vmmOffsToVirt_eq]
  simp only [vpn]
  omega

/-! ### The tree and its translation -/

/-- The table below an entry, by depth of the table the entry is in. -/
def pageChild : ℕ → ℕ → Option ℕ
  | 0, e => if Present e then some (entryFrame e) else none
  | 1, e => if Present e ∧ ¬ Huge e then some (entryFrame e) else none
  | 2, e => if Present e ∧ ¬ Huge e then some (entryFrame e) else none
  | _, _ => none

/-- The table reached along a path in physical memory. -/
abbrev pageWalk (mem : ℕ → Fin 512 → ℕ) (r : ℕ) : List (Fin 512) → Option ℕ := walk pageChild mem r

/-- `t` is a table of the address space rooted in `r`. -/
abbrev IsPageTable (mem : ℕ → Fin 512 → ℕ) (r t : ℕ) : Prop := ∃ π, pageWalk mem r π = some t

/-- The frame and the flags of a virtual page, by the present bits. -/
def translate (mem : ℕ → Fin 512 → ℕ) (r : ℕ) (v : PtOff) : Option (ℕ × ℕ) :=
  let e4 := mem r v.p4Off
  if ¬ Present e4 then none else
  let e3 := mem (entryFrame e4) v.p3Off
  if ¬ Present e3 then none else
  if Huge e3 then some (entryFrame e3 + v.p2Off.val * 512 + v.p1Off.val, entryFlags e3) else
  let e2 := mem (entryFrame e3) v.p2Off
  if ¬ Present e2 then none else
  if Huge e2 then some (entryFrame e2 + v.p1Off.val, entryFlags e2) else
  let e1 := mem (entryFrame e2) v.p1Off
  if ¬ Present e1 then none else
  some (entryFrame e1, entryFlags e1)

/-- What an entry of the last level maps. -/
def leafOf (e : ℕ) : Option (ℕ × ℕ) :=
  if Present e then some (entryFrame e, entryFlags e) else none

/-- What an entry of the second level maps at index `i`, when it maps 2 MiB. -/
def hugeLeafOf (e : ℕ) (i : Fin 512) : Option (ℕ × ℕ) :=
  if Present e ∧ Huge e then some (entryFrame e + i.val, entryFlags e) else none

/-- What an entry of the third level maps at `i` and `j`, when it maps 1 GiB. -/
def giantLeafOf (e : ℕ) (i j : Fin 512) : Option (ℕ × ℕ) :=
  if Present e ∧ Huge e then some (entryFrame e + i.val * 512 + j.val, entryFlags e) else none

theorem pageChild_eq_none_of_not_present (h : ¬ Present e) (d : ℕ) : pageChild d e = none := by
  match d with
  | 0 => exact if_neg h
  | 1 => exact if_neg fun h' => h h'.1
  | 2 => exact if_neg fun h' => h h'.1
  | _ + 3 => rfl

theorem pageChild_eq_some {d : ℕ} (hd : d ≤ 2) (h : Present e) (hh : d ≠ 0 → ¬ Huge e) :
    pageChild d e = some (entryFrame e) := by
  match d with
  | 0 => exact if_pos h
  | 1 => exact if_pos ⟨h, hh (by decide)⟩
  | 2 => exact if_pos ⟨h, hh (by decide)⟩

theorem pageChild_tableEntry {d f : ℕ} (hd : d ≤ 2) (hf : f < 2 ^ 52) :
    pageChild d (tableEntry f) = some f := by
  rw [pageChild_eq_some hd (present_tableEntry f) fun _ => not_huge_tableEntry f,
    entryFrame_tableEntry hf]

theorem pageWalk_cons (i : Fin 512)
    (h : pageWalk mem r π = some t) : pageWalk mem r (i :: π) = pageChild π.length (mem t i) :=
  walk_cons_of_some h

theorem pageWalk_cons_none (i : Fin 512) (h : pageWalk mem r π = none) :
    pageWalk mem r (i :: π) = none := by
  rw [pageWalk, walk_cons, show walk pageChild mem r π = none from h, Option.bind_none]

theorem length_of_pageWalk (h : pageWalk mem r π = some t) : π.length ≤ 3 := by
  cases π with
  | nil => simp
  | cons i π =>
    obtain ⟨t', -, h'⟩ := walk_cons_eq_some.1 h
    by_contra hlen
    rw [length_cons] at hlen
    obtain ⟨d, hd⟩ : ∃ d, π.length = d + 3 := ⟨π.length - 3, by omega⟩
    rw [hd] at h'
    cases h'

theorem lt_of_pageWalk (hr : r < 2 ^ 52) (h : pageWalk mem r π = some t) : t < 2 ^ 52 := by
  cases π with
  | nil => cases h; exact hr
  | cons i π =>
    obtain ⟨t', -, h'⟩ := walk_cons_eq_some.1 h
    have hlt := entryFrame_lt (mem t' i)
    unfold pageChild at h'
    split at h'
    · split_ifs at h'; cases h'; exact hlt
    · split_ifs at h'; cases h'; exact hlt
    · split_ifs at h'; cases h'; exact hlt
    · cases h'

/-- The translation of a page, by the table of the last level or a larger entry. -/
theorem translate_eq (mem : ℕ → Fin 512 → ℕ) (r : ℕ) (v : PtOff) :
    translate mem r v =
      match pageWalk mem r v.tables with
      | some t => leafOf (mem t v.p1Off)
      | none =>
        match pageWalk mem r [v.p3Off, v.p4Off] with
        | some t => hugeLeafOf (mem t v.p2Off) v.p1Off
        | none => (pageWalk mem r [v.p4Off]).bind fun t =>
            giantLeafOf (mem t v.p3Off) v.p2Off v.p1Off := by
  simp only [walk, Option.bind_some, length_nil, length_cons, translate, pageChild]
  by_cases h4 : Present (mem r v.p4Off)
  · simp only [if_neg (not_not.2 h4), if_pos h4, Option.bind_some]
    generalize mem (entryFrame (mem r v.p4Off)) v.p3Off = e3
    by_cases h3 : Present e3
    · rw [if_neg (not_not.2 h3)]
      by_cases hh3 : Huge e3
      · rw [if_pos hh3, if_neg fun h => h.2 hh3]
        exact (if_pos ⟨h3, hh3⟩).symm
      · have h : Present e3 ∧ ¬ Huge e3 := ⟨h3, hh3⟩
        simp only [if_neg hh3, if_pos h, Option.bind_some]
        generalize mem (entryFrame e3) v.p2Off = e2
        by_cases h2 : Present e2
        · rw [if_neg (not_not.2 h2)]
          by_cases hh : Huge e2
          · rw [if_pos hh, if_neg fun h => h.2 hh]
            exact (if_pos ⟨h2, hh⟩).symm
          · have h : Present e2 ∧ ¬ Huge e2 := ⟨h2, hh⟩
            rw [if_neg hh, ite_not, if_pos h]
            rfl
        · rw [if_pos h2, if_neg fun h => h2 h.1]
          exact (if_neg fun h => h2 h.1).symm
    · rw [if_pos h3, if_neg fun h => h3 h.1]
      exact (if_neg fun h => h3 h.1).symm
  · simp only [if_pos h4, if_neg h4, Option.bind_none]

/-- The tree depends on the contents of its tables only. -/
theorem pageWalk_congr (h : ∀ t, IsPageTable mem r t → mem' t = mem t) (π : List (Fin 512)) :
    pageWalk mem' r π = pageWalk mem r π :=
  walk_congr (fun π t i ht => by rw [h t ⟨π, ht⟩]) π

/-- The translation of a page depends on the entries on its path only. -/
theorem translate_congr_path
    (h : ∀ i π t, i :: π <:+ v.path → pageWalk mem r π = some t → mem' t i = mem t i) :
    translate mem' r v = translate mem r v := by
  have hw : ∀ π, π <:+ v.path → pageWalk mem' r π = pageWalk mem r π := by
    intro π hπ
    induction π with
    | nil => rfl
    | cons i π ih =>
      have hp := ih ((suffix_cons i π).trans hπ)
      cases ht : pageWalk mem r π with
      | none => rw [pageWalk_cons_none i ht, pageWalk_cons_none i (hp.trans ht)]
      | some t => rw [pageWalk_cons i ht, pageWalk_cons i (hp.trans ht), h i π t hπ ht]
  have hp1 : v.tables <:+ v.path := suffix_cons _ _
  have hp2 : [v.p3Off, v.p4Off] <:+ v.path := (suffix_cons _ _).trans hp1
  have hp3 : [v.p4Off] <:+ v.path := (suffix_cons _ _).trans hp2
  rw [translate_eq, translate_eq, hw _ hp1, hw _ hp2, hw _ hp3]
  cases h1 : pageWalk mem r v.tables with
  | some t => simp only [h _ _ t (suffix_refl _) h1]
  | none =>
    cases h2 : pageWalk mem r [v.p3Off, v.p4Off] with
    | some t => simp only [h _ _ t hp1 h2]
    | none =>
      cases h3 : pageWalk mem r [v.p4Off] with
      | some t => simp only [Option.bind_some, h _ _ t hp2 h3]
      | none => rfl

theorem translate_congr (h : ∀ t, IsPageTable mem r t → mem' t = mem t) (v : PtOff) :
    translate mem' r v = translate mem r v :=
  translate_congr_path fun _ π t _ ht => by rw [h t ⟨π, ht⟩]

/-! ### Well-formed trees -/

/-- The tree rooted in frame `r` is well formed. -/
structure TreeOk (s : Machine) (r : ℕ) : Prop where
  root_lt : r < 2 ^ 52
  /-- No frame holds two tables. -/
  distinct : Distinct pageChild s.mem r
  /-- The frames of the tables are marked used. -/
  used : ∀ π t, pageWalk s.mem r π = some t → s.pmm.Used t

/-- The page `v` is not below an entry of 1 GiB, and an entry of 2 MiB above it is aligned. -/
structure Regular (mem : ℕ → Fin 512 → ℕ) (r : ℕ) (v : PtOff) : Prop where
  noGiant : ∀ t, pageWalk mem r [v.p4Off] = some t → Present (mem t v.p3Off) →
    ¬ Huge (mem t v.p3Off)
  aligned : ∀ t, pageWalk mem r [v.p3Off, v.p4Off] = some t → Present (mem t v.p2Off) →
    Huge (mem t v.p2Off) → entryFrame (mem t v.p2Off) % 512 = 0

theorem Regular.congr (hv : Regular mem r v) (h : ∀ t, IsPageTable mem r t → mem' t = mem t) :
    Regular mem' r v where
  noGiant t ht := by
    rw [pageWalk_congr h] at ht
    rw [h t ⟨_, ht⟩]
    exact hv.noGiant t ht
  aligned t ht := by
    rw [pageWalk_congr h] at ht
    rw [h t ⟨_, ht⟩]
    exact hv.aligned t ht

/-- The indices of a table. -/
def tableIndices : List (Fin 512) := (List.range 512).map (Fin.ofNat 512)

theorem mem_tableIndices (i : Fin 512) : i ∈ tableIndices :=
  mem_map.2 ⟨i, mem_range.2 i.isLt, Fin.ofNat_val_eq_self i⟩

theorem describes_of_check (h : checkTables pageChild mem r l tableIndices = true) :
    Describes pageChild mem r l :=
  .of_checkTables mem_tableIndices h

/-- In a finite tree, the larger entries are checked table by table. -/
theorem Regular.of_describes (hl : Describes pageChild mem r l)
    (h1 : ∀ x ∈ l, x.1.length = 1 → ∀ i, Present (mem x.2 i) → ¬ Huge (mem x.2 i))
    (h2 : ∀ x ∈ l, x.1.length = 2 → ∀ i, Present (mem x.2 i) → Huge (mem x.2 i) →
      entryFrame (mem x.2 i) % 512 = 0) (v : PtOff) : Regular mem r v where
  noGiant _ ht := h1 _ (hl.mem ht) rfl _
  aligned _ ht := h2 _ (hl.mem ht) rfl _

namespace TreeOk

variable {s s' : Machine}

theorem lt (h : TreeOk s r) (ht : pageWalk s.mem r π = some t) : t < 2 ^ 52 :=
  lt_of_pageWalk h.root_lt ht

/-- A change that keeps all tables and their marks keeps the tree well formed. -/
theorem congr (h : TreeOk s r) (hw : ∀ π, pageWalk s'.mem r π = pageWalk s.mem r π)
    (hu : ∀ t, IsPageTable s.mem r t → s'.pmm.Used t) : TreeOk s' r where
  root_lt := h.root_lt
  distinct π π' t ht ht' := h.distinct π π' t ((hw π).symm.trans ht) ((hw π').symm.trans ht')
  used π t ht := hu t ⟨π, (hw π).symm.trans ht⟩

/-- A finite tree is checked table by table. -/
theorem of_describes (hr : r < 2 ^ 52) (hl : Describes pageChild s.mem r l)
    (h : ∀ x ∈ l, s.pmm.Used x.2 ∧ ∀ y ∈ l, x.2 = y.2 → x.1 = y.1) : TreeOk s r where
  root_lt := hr
  distinct _ _ _ hπ hπ' := (h _ (hl.mem hπ)).2 _ (hl.mem hπ') rfl
  used _ _ hπ := (h _ (hl.mem hπ)).1

end TreeOk

/-! ### Changes along some virtual pages -/

/-- What an operation on the virtual pages `V` may do: it adds tables on their paths, in frames that
were free, and changes entries on these paths. -/
structure Touch (r : ℕ) (V : Set PtOff) (s s' : Machine) : Prop where
  ok : TreeOk s' r
  translate : ∀ u ∉ V, translate s'.mem r u = translate s.mem r u
  walk : ∀ π t, pageWalk s.mem r π = some t → pageWalk s'.mem r π = some t
  fresh : ∀ π t, pageWalk s'.mem r π = some t → pageWalk s.mem r π = some t ∨
    ¬ s.pmm.Used t ∧ t < s.pmm.bitmapMaxPage ∧ ∃ v ∈ V, π <:+ v.path
  used : ∀ f, s'.pmm.Used f ↔ s.pmm.Used f ∨ IsPageTable s'.mem r f
  frame : ∀ f, ¬ IsPageTable s'.mem r f → s'.mem f = s.mem f
  entry : ∀ π t i, pageWalk s.mem r π = some t → (∀ v ∈ V, ¬ i :: π <:+ v.path) →
    s'.mem t i = s.mem t i
  clean : ∀ π t i, pageWalk s'.mem r π = some t → ¬ Present (s'.mem t i) →
    s'.mem t i = 0 ∨ pageWalk s.mem r π = some t ∧ s'.mem t i = s.mem t i
  huge : ∀ π t i, π.length ≤ 2 → pageWalk s'.mem r π = some t → Present (s'.mem t i) →
    Huge (s'.mem t i) → pageWalk s.mem r π = some t ∧ s'.mem t i = s.mem t i
  balanced : Pmm.Balanced s.pmm s'.pmm

namespace Touch

variable {V W : Set PtOff} {s s' s'' : Machine}

theorem refl (h : TreeOk s r) : Touch r V s s where
  ok := h
  translate _ _ := rfl
  walk _ _ h := h
  fresh _ _ h := Or.inl h
  used f := ⟨Or.inl, fun hf => hf.elim id fun ⟨π, hπ⟩ => h.used π f hπ⟩
  frame _ _ := rfl
  entry _ _ _ _ _ := rfl
  clean _ _ _ ht _ := Or.inr ⟨ht, rfl⟩
  huge _ _ _ _ ht _ _ := ⟨ht, rfl⟩
  balanced := Pmm.Balanced.refl _

variable (h : Touch r V s s')
include h

theorem isTable (ht : IsPageTable s.mem r t) : IsPageTable s'.mem r t :=
  ht.imp fun π hπ => h.walk π t hπ

theorem used_of_used {f : ℕ} (hf : s.pmm.Used f) : s'.pmm.Used f := (h.used f).2 (Or.inl hf)

theorem mono (hVW : V ⊆ W) : Touch r W s s' where
  ok := h.ok
  translate u hu := h.translate u fun hv => hu (hVW hv)
  walk := h.walk
  fresh π t ht := (h.fresh π t ht).imp_right fun ⟨h1, h2, v, hv, h3⟩ => ⟨h1, h2, v, hVW hv, h3⟩
  used := h.used
  frame := h.frame
  entry π t i ht hi := h.entry π t i ht fun v hv => hi v (hVW hv)
  clean := h.clean
  huge := h.huge
  balanced := h.balanced

theorem trans (h' : Touch r V s' s'') : Touch r V s s'' where
  ok := h'.ok
  translate u hu := (h'.translate u hu).trans (h.translate u hu)
  walk π t ht := h'.walk π t (h.walk π t ht)
  fresh π t ht := by
    rcases h'.fresh π t ht with h1 | ⟨h1, h2, h3⟩
    · exact h.fresh π t h1
    · exact Or.inr ⟨fun hu => h1 (h.used_of_used hu), h.balanced.1 ▸ h2, h3⟩
  used f := by
    rw [h'.used, h.used]
    constructor
    · rintro ((h1 | h1) | h1)
      · exact Or.inl h1
      · exact Or.inr (h'.isTable h1)
      · exact Or.inr h1
    · rintro (h1 | h1)
      · exact Or.inl (Or.inl h1)
      · exact Or.inr h1
  frame f hf := (h'.frame f hf).trans (h.frame f fun h1 => hf (h'.isTable h1))
  entry π t i ht hi := (h'.entry π t i (h.walk π t ht) hi).trans (h.entry π t i ht hi)
  clean π t i ht hp := by
    rcases h'.clean π t i ht hp with h1 | ⟨h1, h2⟩
    · exact Or.inl h1
    · rw [h2] at hp ⊢
      exact h.clean π t i h1 hp
  huge π t i hl ht hp hh := by
    obtain ⟨h1, h2⟩ := h'.huge π t i hl ht hp hh
    rw [h2] at hp hh ⊢
    exact h.huge π t i hl h1 hp hh
  balanced := h.balanced.trans h'.balanced

theorem regular (hv : Regular s.mem r v) : Regular s'.mem r v where
  noGiant t ht hp hh := by
    obtain ⟨h1, h2⟩ := h.huge _ t _ (by simp) ht hp hh
    rw [h2] at hp hh
    exact hv.noGiant t h1 hp hh
  aligned t ht hp hh := by
    obtain ⟨h1, h2⟩ := h.huge _ t _ (by simp) ht hp hh
    rw [h2] at hp hh ⊢
    exact hv.aligned t h1 hp hh

end Touch

/-! ### Hanging a new table into the tree -/

/-- Frame `f` was allocated and filled with `c`, and entry `i₀` of the table `t₀` points to it. -/
structure Grafted (s s' : Machine) (t₀ : ℕ) (i₀ : Fin 512) (f : ℕ) (c : Fin 512 → ℕ) : Prop where
  alloc : Pmm.Allocated s.pmm 1 f s'.pmm
  entry : s'.mem t₀ i₀ = tableEntry f
  page : s'.mem f = c
  other : ∀ g i, g ≠ f → ¬ (g = t₀ ∧ i = i₀) → s'.mem g i = s.mem g i

namespace Grafted

variable {s s' : Machine} {t0 f : ℕ} {i0 : Fin 512} {c : Fin 512 → ℕ}

theorem not_used (h : Grafted s s' t0 i0 f c) : ¬ s.pmm.Used f :=
  h.alloc.lowest.1.2 f le_rfl (lt_succ_self f)

theorem used (h : Grafted s s' t0 i0 f c) (g : ℕ) : s'.pmm.Used g ↔ g = f ∨ s.pmm.Used g := by
  rw [h.alloc.used]
  refine or_congr_left ⟨fun h => by omega, fun h => by omega⟩

theorem not_isTable (h : Grafted s s' t0 i0 f c) (hok : TreeOk s r) : ¬ IsPageTable s.mem r f :=
  fun ⟨π, hπ⟩ => h.not_used (hok.used π f hπ)

end Grafted

/-- The new table is hung in below entry `i₀` of the table with path `π₀`, where there was none, and
has no tables below it. -/
structure GraftedAt (r : ℕ) (π₀ : List (Fin 512)) (s s' : Machine) (t₀ : ℕ) (i₀ : Fin 512) (f : ℕ)
    (c : Fin 512 → ℕ) : Prop extends Grafted s s' t₀ i₀ f c where
  tree : TreeOk s r
  parent : pageWalk s.mem r π₀ = some t₀
  level : π₀.length ≤ 2
  absent : pageChild π₀.length (s.mem t₀ i₀) = none
  leaf : ∀ i, pageChild (π₀.length + 1) (c i) = none

namespace GraftedAt

variable {s s' : Machine} {t0 f : ℕ} {i0 : Fin 512} {c : Fin 512 → ℕ} {π0 : List (Fin 512)}
  (h : GraftedAt r π0 s s' t0 i0 f c)

include h

/-- Entries of old tables change at `t₀`, `i₀` only. -/
theorem mem_eq {i : Fin 512} (ht : pageWalk s.mem r π = some t) (hne : i :: π ≠ i0 :: π0) :
    s'.mem t i = s.mem t i := by
  refine h.other t i (fun hf => h.not_isTable h.tree ⟨π, hf ▸ ht⟩) ?_
  rintro ⟨rfl, rfl⟩
  exact hne (by rw [h.tree.distinct π π0 t ht h.parent])

theorem walk_eq (π : List (Fin 512)) :
    pageWalk s'.mem r π = if π = i0 :: π0 then some f else pageWalk s.mem r π := by
  refine walk_graft h.parent h.absent ?_ (fun i => by rw [h.page]; exact h.leaf i)
    (fun π t i ht hne => by rw [h.mem_eq ht hne]) π
  rw [h.entry, pageChild_tableEntry h.level h.alloc.lowest.lt_two_pow]

/-- **The tables after the graft** are those of before and the new one. -/
theorem walk_eq_some :
    pageWalk s'.mem r π = some t ↔ π = i0 :: π0 ∧ t = f ∨ pageWalk s.mem r π = some t := by
  rw [h.walk_eq]
  split_ifs with hπ
  · have hnone : pageWalk s.mem r π = none := by
      rw [hπ, pageWalk_cons i0 h.parent, h.absent]
    rw [hnone, Option.some.injEq, or_iff_left (by simp), and_iff_right hπ, eq_comm]
  · rw [or_iff_right fun hp => hπ hp.1]

theorem isTable : IsPageTable s'.mem r f := ⟨i0 :: π0, h.walk_eq_some.2 (Or.inl ⟨rfl, rfl⟩)⟩

theorem isTable_parent : IsPageTable s'.mem r t0 := ⟨π0, h.walk_eq_some.2 (Or.inr h.parent)⟩

theorem tree_after : TreeOk s' r := by
  refine ⟨h.tree.root_lt, h.tree.distinct.graft (h.not_isTable h.tree) h.walk_eq, ?_⟩
  intro π t ht
  rcases h.walk_eq_some.1 ht with ⟨-, rfl⟩ | hold
  · exact (h.used t).2 (Or.inl rfl)
  · exact (h.used t).2 (Or.inr (h.tree.used π t hold))

/-- Pages that are not below the new table are mapped as before. -/
theorem translate_of_not_suffix {u : PtOff}
    (hu : ¬ i0 :: π0 <:+ u.tables) :
    translate s'.mem r u = translate s.mem r u := by
  refine translate_congr_path fun i π t hs ht => h.mem_eq ht fun he => ?_
  rw [he] at hs
  rcases suffix_cons_iff.1 hs with heq | hsuf
  · -- the table of the new entry is not one of the last level
    have hlen := congrArg List.length heq
    have hlevel := h.level
    simp only [length_cons, length_nil] at hlen
    omega
  · exact hu hsuf

theorem used_iff_table (g : ℕ) : s'.pmm.Used g ↔ s.pmm.Used g ∨ IsPageTable s'.mem r g := by
  rw [h.used]
  constructor
  · rintro (rfl | hg)
    · exact Or.inr h.isTable
    · exact Or.inl hg
  · rintro (hg | ⟨π, hπ⟩)
    · exact Or.inr hg
    · rcases h.walk_eq_some.1 hπ with ⟨-, rfl⟩ | hold
      · exact Or.inl rfl
      · exact Or.inr (h.tree.used π g hold)

theorem frame (g : ℕ) (hg : ¬ IsPageTable s'.mem r g) : s'.mem g = s.mem g := by
  funext i
  refine h.other g i ?_ ?_
  · rintro rfl
    exact hg h.isTable
  · rintro ⟨rfl, -⟩
    exact hg h.isTable_parent

/-- An entry after the graft is one of the new table, the one that points to it, or as before. -/
theorem entry_cases (i : Fin 512) (ht : pageWalk s'.mem r π = some t) :
    π = i0 :: π0 ∧ s'.mem t i = c i ∨ s'.mem t i = tableEntry f ∨
      pageWalk s.mem r π = some t ∧ s'.mem t i = s.mem t i := by
  rcases h.walk_eq_some.1 ht with ⟨hπ, rfl⟩ | hold
  · exact Or.inl ⟨hπ, by rw [h.page]⟩
  · by_cases he : i :: π = i0 :: π0
    · obtain ⟨rfl, rfl⟩ := List.cons.inj he
      cases h.parent.symm.trans hold
      exact Or.inr (Or.inl h.entry)
    · exact Or.inr (Or.inr ⟨hold, h.mem_eq hold he⟩)

/-- **A graft is a change along the pages below the new table**, and keeps the translation if it
does so for these pages. -/
theorem touch (V : Set PtOff) (habs : π0.length < 2 → ∀ i, ¬ Present (c i))
    (hclean : ∀ i, ¬ Present (c i) → c i = 0) (hV : ∃ v ∈ V, i0 :: π0 <:+ v.path)
    (htr : ∀ u : PtOff, i0 :: π0 <:+ u.tables → translate s'.mem r u = translate s.mem r u) :
    Touch r V s s' ∧ ∀ u, translate s'.mem r u = translate s.mem r u := by
  have htr' : ∀ u, translate s'.mem r u = translate s.mem r u := by
    intro u
    by_cases hu : i0 :: π0 <:+ u.tables
    · exact htr u hu
    · exact h.translate_of_not_suffix hu
  refine ⟨⟨h.tree_after, fun u _ => htr' u, fun π t ht => h.walk_eq_some.2 (Or.inr ht), ?_,
    h.used_iff_table, h.frame, ?_, ?_, ?_, h.alloc.balanced⟩, htr'⟩
  · intro π t ht
    rcases h.walk_eq_some.1 ht with ⟨hπ, rfl⟩ | hold
    · have hlt := h.alloc.lowest.1.1
      exact Or.inr ⟨h.not_used, by omega, hπ ▸ hV⟩
    · exact Or.inl hold
  · intro π t i ht hi
    obtain ⟨v, hv, hsuf⟩ := hV
    exact h.mem_eq ht fun he => hi v hv (he ▸ hsuf)
  · intro π t i ht hp
    rcases h.entry_cases i ht with ⟨-, he⟩ | he | hold
    · rw [he] at hp ⊢
      exact Or.inl (hclean i hp)
    · rw [he] at hp
      exact absurd (present_tableEntry f) hp
    · exact Or.inr hold
  · intro π t i hl ht hp hh
    rcases h.entry_cases i ht with ⟨hπ, he⟩ | he | hold
    · rw [hπ, length_cons] at hl
      rw [he] at hp
      exact absurd hp (habs (by omega) i)
    · rw [he] at hh
      exact absurd hh (not_huge_tableEntry f)
    · exact hold

end GraftedAt

end DripOS
