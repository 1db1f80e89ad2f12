import DripOS.Klibc.Errno
import DripOS.Lib.Run
import DripOS.Proc.Process

/-!
# File descriptors

The table of open files of a process, from `src/fs/fd.c`: a block of the kernel heap with one
pointer per slot, null if it is free.  Numbers are tested against `fd_table_size - 1`, so that the
last slot is filled but never found, and `fd_new` keeps the table that `krealloc` returns in a local
variable, so that the process goes on with a freed table.

`FdSpec` says what the table is for: a finite map, in which `fd_new` takes the smallest free number.
`FdState.run_refines` : the code implements it in every run in which `fd_new` finds one of the
numbers 0 to 8 free.
-/

namespace DripOS

open Function Option

/-- `FD_COOKIE_VAL`. -/
def fdCookieVal : ℕ := 0x1111222233334444

/-- The address of `table[i]`. -/
def slotPtr (table : Ptr) (i : ℤ) : ℕ := ((table + 8 * i) % 2 ^ 64).toNat

namespace Machine

variable (s : Machine)

/-- The fields that `fd_new` writes first: `node`, `mode` and `seek`. -/
def initEntry (newEntry node : Ptr) (mode : ℤ) : Machine :=
  let s := s.writeWord (newEntry + 8 * 1) node
  let s := s.writeWord (newEntry + 8 * 5) (mode % 2 ^ 32).toNat
  s.writeWord (newEntry + 8 * 3) 0

/-- The search for an empty slot in `fd_new`, from slot `i` on. -/
def findEmptySlot (table : Ptr) : (fuel i : ℕ) → Option ℕ
  | 0, _ => none
  | fuel + 1, i =>
    if s.readWord (slotPtr table i) = 0 then some i else findEmptySlot table fuel (i + 1)

/-- `fd_new` from the label `fnd` on: write the cookies and the slot, and check them. -/
def storeEntry (fdTable : Ptr) (i : ℤ) (newEntry : Ptr) : Except Halt Machine :=
  let s := s.writeWord newEntry fdCookieVal
  let s := s.writeWord (newEntry + 8 * 2) fdCookieVal
  let s := s.writeWord (newEntry + 8 * 4) fdCookieVal
  let s := s.writeWord (newEntry + 8 * 6) fdCookieVal
  let s := s.writeWord (slotPtr fdTable i) newEntry
  let e := s.readWord (slotPtr fdTable i)
  if s.readWord (e + 8 * 1) = 0 then .error .fault
  else if s.readWord e ≠ fdCookieVal then .error .fault
  else if s.readWord (e + 8 * 2) ≠ fdCookieVal then .error .fault
  else if s.readWord (e + 8 * 4) ≠ fdCookieVal then .error .fault
  else if s.readWord (e + 8 * 6) ≠ fdCookieVal then .error .fault
  else .ok s

end Machine

/-- The part of the kernel state that the functions of `fd.c` work on. -/
structure FdState where
  machine : Machine
  /-- The process of each pid. -/
  processes : ℤ → Process
  /-- The value of `get_cur_pid()`. -/
  curPid : ℤ

namespace FdState

variable (k : FdState)

/-- `fd_new`. -/
def fdNew (node : Ptr) (mode pid : ℤ) : Except Halt (ℤ × FdState) :=
  if node = 0 then .error .fault
  else do
    let p := k.processes pid
    let newEntry ← k.machine.kcalloc sizeofFdEntry
    let s := newEntry.2.initEntry newEntry.1 node mode
    match s.findEmptySlot p.fdTable p.fdTableSize.toNat 0 with
    | some i => do
      let s ← s.storeEntry p.fdTable i newEntry.1
      pure (i, { k with machine := s })
    | none => do
      let fdTableSize := p.fdTableSize + 10
      let fdTable ← s.krealloc p.fdTable (fdTableSize.toNat * 8)
      let s ← fdTable.2.storeEntry fdTable.1 p.fdTableSize newEntry.1
      -- the process gets the new size, but keeps the old table
      let processes := update k.processes pid { p with fdTableSize := fdTableSize }
      pure (p.fdTableSize, { k with machine := s, processes := processes })

/-- `fd_lookup_pid`. -/
def fdLookupPid (fd pid : ℤ) : Ptr :=
  let p := k.processes pid
  if fd < p.fdTableSize - 1 ∧ fd ≥ 0 then k.machine.readWord (slotPtr p.fdTable fd) else 0

/-- `fd_lookup`. -/
def fdLookup (fd : ℤ) : Ptr := k.fdLookupPid fd k.curPid

/-- `fd_remove`. -/
def fdRemove (fd : ℤ) : Except Halt FdState :=
  let p := k.processes k.curPid
  if fd < p.fdTableSize - 1 then do
    let s ← k.machine.kfree (k.machine.readWord (slotPtr p.fdTable fd))
    pure { k with machine := s.writeWord (slotPtr p.fdTable fd) 0 }
  else pure k

/-- `vfs_close`; `closeOp node` is the operation `node->ops.close`. -/
def vfsClose (closeOp : Ptr → ℤ → ℤ) (fd : ℤ) : Except Halt ℤ :=
  let fdEntry := k.fdLookup fd
  if fdEntry = 0 then .error .fault else .ok (closeOp (k.machine.readWord (fdEntry + 8 * 1)) fd)

/-- `fd_close`. -/
def fdClose (closeOp : Ptr → ℤ → ℤ) (fd : ℤ) : Except Halt (ℤ × FdState) :=
  if k.fdLookup fd = 0 then .ok (-Errno.ebadf.code, k)
  else do
    let ret ← k.vfsClose closeOp fd
    let k ← k.fdRemove fd
    pure (ret, k)

end FdState

/-! ### What a table of open files is for -/

/-- An open file: the address of its entry, and what is stored there. -/
structure OpenFile where
  entry : Ptr
  node : Ptr
  mode : ℤ

/-- The open files of a process, by number. -/
abbrev OpenFiles := ℕ → Option OpenFile

/-- The entry of a number, null when it is not open. -/
def OpenFiles.find (M : OpenFiles) (fd : ℤ) : Ptr :=
  if 0 ≤ fd then ((M fd.toNat).map OpenFile.entry).getD 0 else 0

/-- The operations on the table. -/
inductive FdOp where
  | new (node : Ptr) (mode : ℤ)
  | lookup (fd : ℤ)
  | close (fd : ℤ)

/-- Their results: a number, an entry, or the status of a close. -/
inductive FdResult where
  | number (i : ℤ)
  | entry (p : Ptr)
  | status (r : ℤ)
  deriving DecidableEq

/-- The specification: a new file gets the smallest free number and an entry of its own, a close
removes its number. -/
inductive FdSpec (closeOp : Ptr → ℤ → ℤ) : OpenFiles → FdOp × FdResult → OpenFiles → Prop
  | new {M : OpenFiles} {node entry : Ptr} {mode : ℤ} {i : ℕ} :
      M i = none → (∀ j < i, M j ≠ none) → entry ≠ 0 →
      (∀ j e, M j = some e → e.entry ≠ entry) →
      FdSpec closeOp M (.new node mode, .number i)
        (update M i (some ⟨entry, node, mode⟩))
  | lookup {M : OpenFiles} {fd : ℤ} : FdSpec closeOp M (.lookup fd, .entry (M.find fd)) M
  | closeBad {M : OpenFiles} {fd : ℤ} : M.find fd = 0 →
      FdSpec closeOp M (.close fd, .status (-Errno.ebadf.code)) M
  | close {M : OpenFiles} {i : ℕ} {e : OpenFile} : M i = some e →
      FdSpec closeOp M (.close i, .status (closeOp e.node i)) (update M i none)

/-- The entry at `p` holds what `fd_new` stored. -/
structure Machine.IsEntry (s : Machine) (p node : Ptr) (mode : ℤ) : Prop where
  node_eq : s.readWord (p + 8 * 1) = node
  mode_eq : s.readWord (p + 8 * 5) = (mode % 2 ^ 32).toNat
  seek_eq : s.readWord (p + 8 * 3) = 0
  cookie1 : s.readWord p = fdCookieVal
  cookie2 : s.readWord (p + 8 * 2) = fdCookieVal
  cookie3 : s.readWord (p + 8 * 4) = fdCookieVal
  cookie4 : s.readWord (p + 8 * 6) = fdCookieVal

namespace FdState

/-- Every number looks up to what the map says, and the entries hold what was stored. -/
structure Represents (k : FdState) (M : OpenFiles) : Prop where
  lookup : ∀ fd, k.fdLookup fd = M.find fd
  stored : ∀ i e, M i = some e → k.machine.IsEntry e.entry e.node e.mode

/-- One operation of the code on the table of the current process. -/
def exec (closeOp : Ptr → ℤ → ℤ) (k : FdState) : FdOp → Except Halt (FdResult × FdState)
  | .new node mode => (k.fdNew node mode k.curPid).map fun r => (.number r.1, r.2)
  | .lookup fd => .ok (.entry (k.fdLookup fd), k)
  | .close fd => (k.fdClose closeOp fd).map fun r => (.status r.1, r.2)

/-- `fd_new` gets a node, and finds one of the numbers 0 to 8 not open. -/
def Ready (k : FdState) : FdOp → Prop
  | .new node _ => node ≠ 0 ∧ ∃ fd : ℤ, 0 ≤ fd ∧ fd ≤ 8 ∧ k.fdLookup fd = 0
  | _ => True

end FdState

/-! ### Slots and entries in memory -/

namespace Machine

variable {s : Machine} {f i g : ℕ} {node : Ptr} {mode : ℤ}

theorem slotPtr_wordPtr (hf : f < 2 ^ 35) (hi : i < 512) :
    slotPtr (wordPtr f 0) i = wordPtr f i := by
  rw [slotPtr, wordPtr_eq hf, wordPtr_eq hf, normalVmaOffset]
  omega

theorem wordPtr_ne_zero (hf : f < 2 ^ 35) : wordPtr f i ≠ 0 := by
  rw [wordPtr_eq hf, normalVmaOffset]
  omega

theorem wordPtr_inj (hf : f < 2 ^ 35) (hg : g < 2 ^ 35) (h : wordPtr f 0 = wordPtr g 0) :
    f = g := by
  rw [wordPtr_eq hf, wordPtr_eq hg] at h
  omega

/-- The search finds the first empty slot. -/
theorem findEmptySlot_eq {table : Ptr} {fuel m : ℕ} (h1 : i ≤ m) (h2 : m < i + fuel)
    (hm : s.readWord (slotPtr table m) = 0)
    (hj : ∀ j : ℕ, i ≤ j → j < m → s.readWord (slotPtr table j) ≠ 0) :
    s.findEmptySlot table fuel i = some m := by
  induction fuel generalizing i with
  | zero => omega
  | succ fuel ih =>
    rw [findEmptySlot]
    rcases Nat.eq_or_lt_of_le h1 with rfl | hlt
    · rw [if_pos hm]
    · rw [if_neg (hj i le_rfl hlt)]
      exact ih hlt (by omega) fun j h => hj j (Nat.le_of_succ_le h)

/-- The words of the entry in frame `f`. -/
structure EntryIn (s : Machine) (f : ℕ) (node : Ptr) (mode : ℤ) : Prop where
  node_eq : s.mem f 1 = node
  mode_eq : s.mem f 5 = (mode % 2 ^ 32).toNat
  seek_eq : s.mem f 3 = 0
  cookies : s.mem f 0 = fdCookieVal ∧ s.mem f 2 = fdCookieVal ∧ s.mem f 4 = fdCookieVal ∧
    s.mem f 6 = fdCookieVal

theorem EntryIn.congr {s s' : Machine} {b : ℕ} (h : s.EntryIn b node mode)
    (hsame : s'.mem b = s.mem b) : s'.EntryIn b node mode :=
  ⟨hsame ▸ h.node_eq, hsame ▸ h.mode_eq, hsame ▸ h.seek_eq, hsame ▸ h.cookies⟩

theorem EntryIn.isEntry (hf : f < 2 ^ 35) (h : EntryIn s f node mode) :
    s.IsEntry (wordPtr f 0) node mode := by
  obtain ⟨h1, h5, h3, h0, h2, h4, h6⟩ := h
  have hread : ∀ j (hj : j < 512), s.readWord (wordPtr f 0 + 8 * j) = s.mem f ⟨j, hj⟩ := by
    intro j hj
    rw [wordPtr_add, Nat.zero_add, readWord_wordPtr hf hj]
  refine ⟨(hread 1 (by decide)).trans h1, (hread 5 (by decide)).trans h5,
    (hread 3 (by decide)).trans h3, ?_, (hread 2 (by decide)).trans h2,
    (hread 4 (by decide)).trans h4, (hread 6 (by decide)).trans h6⟩
  exact (readWord_wordPtr hf (by decide)).trans h0

/-- What is in memory after `fd_new` filled the entry in frame `f` and slot `i` of the table in
frame `t`. -/
structure Stored (s : Machine) (t : ℕ) (i : Fin 512) (f : ℕ) (node : Ptr) (mode : ℤ)
    (s' : Machine) : Prop where
  pmm : s'.pmm = s.pmm
  other : ∀ g, g ≠ t → g ≠ f → s'.mem g = s.mem g
  slot : s'.mem t i = wordPtr f 0
  slots : ∀ j, j ≠ i → s'.mem t j = s.mem t j
  entry : EntryIn s' f node mode

theorem mem_initEntry_of_ne (hf : f < 2 ^ 35) (hg : g ≠ f) :
    (s.initEntry (wordPtr f 0) node mode).mem g = s.mem g := by
  rw [initEntry, wordPtr_add, wordPtr_add, wordPtr_add,
    mem_writeWord_of_ne hf (by decide) _ hg, mem_writeWord_of_ne hf (by decide) _ hg,
    mem_writeWord_of_ne hf (by decide) _ hg]

theorem storeEntry_spec {t f : ℕ} {i : ℕ} {node : Ptr} {mode : ℤ} (ht : t < 2 ^ 35)
    (hf : f < 2 ^ 35) (htf : t ≠ f) (hi : i < 512) (hnode : node ≠ 0) :
    ∃ s', (s.initEntry (wordPtr f 0) node mode).storeEntry (wordPtr t 0) i (wordPtr f 0) = .ok s' ∧
      Stored s t ⟨i, hi⟩ f node mode s' := by
  have hft : f ≠ t := fun h => htf h.symm
  have hadd : ∀ j, wordPtr f 0 + 8 * j = wordPtr f j := fun j => by rw [wordPtr_add, Nat.zero_add]
  -- the state after all writes
  have hmem : ∀ (s1 : Machine), s1 = ((((((((s.writeWord (wordPtr f 1) node).writeWord
      (wordPtr f 5) (mode % 2 ^ 32).toNat).writeWord (wordPtr f 3) 0).writeWord (wordPtr f 0)
      fdCookieVal).writeWord (wordPtr f 2) fdCookieVal).writeWord (wordPtr f 4)
      fdCookieVal).writeWord (wordPtr f 6) fdCookieVal).writeWord (wordPtr t i) (wordPtr f 0)) →
      Stored s t ⟨i, hi⟩ f node mode s1 := by
    rintro s1 rfl
    refine ⟨rfl, fun g hgt hgf => ?_, ?_, fun j hj => ?_, ?_, ?_, ?_, ?_⟩
    · rw [mem_writeWord_of_ne ht hi _ hgt]
      iterate 7 rw [mem_writeWord_of_ne hf (by decide) _ hgf]
    · rw [mem_writeWord ht hi, if_pos ⟨rfl, rfl⟩]
    · rw [mem_writeWord ht hi, if_neg fun h => hj h.2]
      iterate 7 rw [mem_writeWord_of_ne hf (by decide) _ htf]
    all_goals
      simp only [mem_writeWord_of_ne ht hi _ hft]
      simp [mem_writeWord hf]
  have hst := hmem _ rfl
  refine ⟨_, ?_, hst⟩
  have hent := hst.entry.isEntry hf
  have hslot : readWord _ (wordPtr t i) = wordPtr f 0 := (readWord_wordPtr ht hi).trans hst.slot
  unfold storeEntry initEntry
  dsimp only
  rw [slotPtr_wordPtr ht hi, hadd 1, hadd 2, hadd 3, hadd 4, hadd 5, hadd 6, hslot]
  have h1 := hent.node_eq
  have h2 := hent.cookie2
  have h3 := hent.cookie3
  have h4 := hent.cookie4
  rw [if_neg (by rw [h1]; exact hnode), if_neg (not_not.2 hent.cookie1), if_neg (not_not.2 h2),
    if_neg (not_not.2 h3), if_neg (not_not.2 h4)]

end Machine

/-! ### The invariant -/

/-- The blocks from `b` and from `c` on do not overlap. -/
def Apart (b c : ℕ) : Prop := b + 3 ≤ c ∨ c + 3 ≤ b

theorem Apart.symm {b c : ℕ} (h : Apart b c) : Apart c b := Or.symm h

namespace FdState

variable {k : FdState} {M : OpenFiles} {a j : ℕ} {blk : ℕ → ℕ} {closeOp : Ptr → ℤ → ℤ}
  {f : OpenFile}

/-- The table is the block from `a` on and the entry of number `i` the block from `blk i` on; they
do not overlap, and only the numbers up to 8 are in use. -/
structure FdInv (k : FdState) (M : OpenFiles) (a : ℕ) (blk : ℕ → ℕ) : Prop where
  heap : k.machine.HeapOk
  table : (k.processes k.curPid).fdTable = Machine.wordPtr (a + 1) 0
  size : (k.processes k.curPid).fdTableSize = 10
  block : k.machine.HeapBlock a
  slots : ∀ i : Fin 512, i.val < 10 → k.machine.mem (a + 1) i = M.find i.val
  small : ∀ i e, M i = some e → i ≤ 8
  entry : ∀ i e, M i = some e → e.entry = Machine.wordPtr (blk i + 1) 0 ∧
    k.machine.HeapBlock (blk i) ∧ k.machine.EntryIn (blk i + 1) e.node e.mode
  apart : ∀ i e, M i = some e → Apart (blk i) a
  distinct : ∀ i j e f, M i = some e → M j = some f → i ≠ j → Apart (blk i) (blk j)
  pos : ∀ i e, M i = some e → 0 < blk i

theorem find_natCast (M : OpenFiles) (i : ℕ) : M.find i = ((M i).map OpenFile.entry).getD 0 := by
  rw [OpenFiles.find, if_pos (Int.natCast_nonneg i), Int.toNat_natCast]

theorem of_update_none {i : ℕ} (h : update M i none j = some f) : j ≠ i ∧ M j = some f := by
  by_cases hji : j = i
  · rw [hji, update_self] at h
    cases h
  · rw [update_of_ne hji] at h
    exact ⟨hji, h⟩

theorem of_update_some {i : ℕ} {e : OpenFile} (h : update M i (some e) j = some f) :
    j = i ∧ f = e ∨ j ≠ i ∧ M j = some f := by
  by_cases hji : j = i
  · rw [hji, update_self] at h
    exact Or.inl ⟨hji, (Option.some.inj h).symm⟩
  · rw [update_of_ne hji] at h
    exact Or.inr ⟨hji, h⟩

namespace FdInv

variable {b i : ℕ} {e : OpenFile} {s' s1 : Machine} {node : Ptr} {mode : ℤ}

section

variable (h : FdInv k M a blk)
include h

theorem lt_of_block (hb : k.machine.HeapBlock b) : b + 3 ≤ 2 ^ 35 := hb.bound.trans h.heap.direct

theorem entry_ne_zero (hi : M i = some e) : e.entry ≠ 0 := by
  obtain ⟨he, hb, -⟩ := h.entry i e hi
  have hlt := h.lt_of_block hb
  rw [he]
  exact Machine.wordPtr_ne_zero (by omega)

theorem find_eq_zero_iff : M.find i = 0 ↔ M i = none := by
  rw [find_natCast]
  cases hi : M i with
  | none => simp
  | some e => simpa using h.entry_ne_zero hi

theorem lt_frame : a + 1 < 2 ^ 35 := by
  have := h.lt_of_block h.block
  omega

theorem readSlot (hi : i < 10) :
    k.machine.readWord (slotPtr (k.processes k.curPid).fdTable i) = M.find i := by
  rw [h.table, Machine.slotPtr_wordPtr h.lt_frame (by omega),
    Machine.readWord_wordPtr h.lt_frame (by omega)]
  exact h.slots ⟨i, by omega⟩ hi

theorem represents : k.Represents M where
  lookup fd := by
    rw [fdLookup, fdLookupPid, h.size]
    split_ifs with hfd
    · obtain ⟨i, rfl⟩ := Int.eq_ofNat_of_zero_le hfd.2
      exact h.readSlot (by omega)
    · rw [OpenFiles.find]
      split_ifs with h0
      · -- a number from 9 on is not open
        cases hm : M fd.toNat with
        | none => rfl
        | some e =>
          have := h.small _ e hm
          omega
      · rfl
  stored i e hi := by
    obtain ⟨he, hb, hent⟩ := h.entry i e hi
    have hlt := h.lt_of_block hb
    rw [he]
    exact hent.isEntry (by omega)

/-- The smallest free number, when one of the numbers up to 8 is free. -/
theorem exists_first {fd : ℤ} (h0 : 0 ≤ fd) (h8 : fd ≤ 8) (hfd : k.fdLookup fd = 0) :
    ∃ i ≤ 8, M i = none ∧ ∀ j < i, M j ≠ none := by
  classical
  obtain ⟨n, rfl⟩ := Int.eq_ofNat_of_zero_le h0
  rw [h.represents.lookup, h.find_eq_zero_iff] at hfd
  have hex : ∃ i, M i = none := ⟨n, hfd⟩
  refine ⟨Nat.find hex, ?_, Nat.find_spec hex, fun j hj => Nat.find_min hex hj⟩
  have := Nat.find_min' hex hfd
  omega

end

/-- A block that is handed out does not overlap a block in use. -/
theorem apart_of_reserved {s : Machine} {c : ℕ} (hr : Reserved s b 3 s') (hc : s.HeapBlock c) :
    Apart b c := by
  by_contra h
  have h' : ¬ (b + 3 ≤ c ∨ c + 3 ≤ b) := h
  rcases Nat.le_total b c with hbc | hcb
  · exact hr.not_used hbc (by omega) (hc.used c le_rfl (by omega))
  · exact hr.not_used le_rfl (by omega) (hc.used b hcb (by omega))

/-- The entries stay apart with one that is apart from all of them. -/
theorem distinct_update (h : FdInv k M a blk) {new : OpenFile}
    (hb : ∀ j e, M j = some e → Apart b (blk j)) {j l : ℕ} {f : OpenFile}
    (hj : update M i (some new) j = some e)
    (hl : update M i (some new) l = some f) (hne : j ≠ l) :
    Apart (update blk i b j) (update blk i b l) := by
  rcases of_update_some hj with ⟨rfl, -⟩ | ⟨hji, hj'⟩
  · rcases of_update_some hl with ⟨rfl, -⟩ | ⟨hli, hl'⟩
    · exact absurd rfl hne
    · rw [update_self, update_of_ne hli]
      exact hb l f hl'
  · rw [update_of_ne hji]
    rcases of_update_some hl with ⟨rfl, -⟩ | ⟨hli, hl'⟩
    · rw [update_self]
      exact (hb j e hj').symm
    · rw [update_of_ne hli]
      exact h.distinct j l e f hj' hl' hne

/-- Storing a new entry under the smallest free number. -/
theorem store (h : FdInv k M a blk) (hi : i ≤ 8) (hM : M i = none)
    (hr : Reserved k.machine b 3 s1) (hb : s1.HeapBlock b)
    (hst : s1.Stored (a + 1) ⟨i, by omega⟩ (b + 1) node mode s') :
    FdInv { k with machine := s' }
      (update M i (some ⟨Machine.wordPtr (b + 1) 0, node, mode⟩)) a
      (update blk i b) := by
  have hba := apart_of_reserved hr h.block
  have hbc : ∀ j e, M j = some e → Apart b (blk j) := fun j e hj =>
    apart_of_reserved hr (h.entry j e hj).2.1
  have hmax : s'.pmm.bitmapMaxPage = k.machine.pmm.bitmapMaxPage := by
    rw [hst.pmm, hr.alloc.maxPage]
  have hused : ∀ f, k.machine.pmm.Used f → s'.pmm.Used f := fun f hf => by
    rw [hst.pmm]
    exact (hr.used f).2 (Or.inr hf)
  -- pages outside of the new block and of the table are unchanged
  have hmem : ∀ g, ¬ (b ≤ g ∧ g < b + 3) → g ≠ a + 1 → s'.mem g = k.machine.mem g := by
    intro g hg hga
    rw [hst.other g hga (fun he => hg (by omega)), hr.other g hg]
  have hkeep : ∀ c, k.machine.HeapBlock c → Apart b c → c ≠ a + 1 → s'.HeapBlock c := by
    intro c hc hap hca
    refine hc.congr (hmem c ?_ hca) (fun f h1 h2 => hused f (hc.used f h1 h2)) hmax
    unfold Apart at hap
    omega
  refine ⟨⟨hmax ▸ h.heap.direct, hmax ▸ h.heap.reserved.1, hused 0 h.heap.reserved.2⟩, h.table,
    h.size, hkeep a h.block hba (by omega), fun j hj => ?_, fun j e hj => ?_, fun j e hj => ?_,
    fun j e hj => ?_, fun j l e f hj hl hne => ?_, fun j e hj => ?_⟩
  · rw [find_natCast]
    by_cases hji : j.val = i
    · rw [hji, update_self, show j = ⟨i, by omega⟩ from Fin.ext hji, map_some, getD_some]
      exact hst.slot
    · rw [update_of_ne hji, ← find_natCast, ← h.slots j hj,
        hst.slots j fun he => hji (congrArg Fin.val he), hr.other]
      unfold Apart at hba
      omega
  · rcases of_update_some hj with ⟨rfl, -⟩ | ⟨-, hj⟩
    · exact hi
    · exact h.small j e hj
  · rcases of_update_some hj with ⟨rfl, rfl⟩ | ⟨hji, hj⟩
    · rw [update_self]
      refine ⟨rfl, hb.congr ?_ ?_ (by rw [hst.pmm]), hst.entry⟩
      · refine hst.other b ?_ (by omega)
        unfold Apart at hba
        omega
      · rw [hst.pmm]
        exact hb.used
    · rw [update_of_ne hji]
      obtain ⟨he, hbl, hent⟩ := h.entry j e hj
      have hap := hbc j e hj
      have hap' := h.apart j e hj
      unfold Apart at hap'
      refine ⟨he, hkeep _ hbl hap (by omega), hent.congr (hmem _ ?_ (by omega))⟩
      unfold Apart at hap
      omega
  · rcases of_update_some hj with ⟨rfl, -⟩ | ⟨hji, hj⟩
    · rw [update_self]
      exact hba
    · rw [update_of_ne hji]
      exact h.apart j e hj
  · exact h.distinct_update hbc hj hl hne
  · rcases of_update_some hj with ⟨rfl, -⟩ | ⟨hji, hj⟩
    · -- page 0 is in use, so it is not part of the new block
      rw [update_self]
      refine Nat.pos_of_ne_zero fun hb0 => ?_
      exact hr.not_used (Nat.le_of_eq hb0) (by omega) h.heap.reserved.2
    · rw [update_of_ne hji]
      exact h.pos j e hj

/-- **`fd_new` stores a new entry under the smallest free number.** -/
theorem fdNew_spec (h : FdInv k M a blk) (hready : k.Ready (.new node mode)) :
    EnsuresFree (k.fdNew node mode k.curPid) fun res =>
      ∃ M' blk', FdSpec closeOp M (.new node mode, .number res.1) M' ∧ FdInv res.2 M' a blk' := by
  obtain ⟨hnode, fd, h0, h8, hfd⟩ := hready
  obtain ⟨i, hi, hM, hmin⟩ := h.exists_first h0 h8 hfd
  unfold fdNew
  rw [if_neg hnode]
  refine (Machine.kcalloc_spec h.heap (by decide) (by decide)).bind ?_
  rintro x ⟨b, hx, hr, hb, -⟩
  have hba := apart_of_reserved hr h.block
  have hlt : b + 3 ≤ 2 ^ 35 := hr.alloc.lowest.1.1.trans h.heap.direct
  have hta : a + 1 ≠ b + 1 := by
    unfold Apart at hba
    omega
  -- the slots, seen after the entry was prepared
  have hread : ∀ j : ℕ, j < 10 → (x.2.initEntry x.1 node mode).readWord
      (slotPtr (k.processes k.curPid).fdTable j) = M.find j := by
    intro j hj
    rw [← h.readSlot hj, h.table, Machine.slotPtr_wordPtr h.lt_frame (by omega),
      Machine.readWord_wordPtr h.lt_frame (by omega),
      Machine.readWord_wordPtr h.lt_frame (by omega), hx,
      Machine.mem_initEntry_of_ne (by omega) hta, hr.other]
    unfold Apart at hba
    omega
  have hslot : (x.2.initEntry x.1 node mode).findEmptySlot (k.processes k.curPid).fdTable
      (k.processes k.curPid).fdTableSize.toNat 0 = some i := by
    rw [h.size]
    refine Machine.findEmptySlot_eq (Nat.zero_le i) (by omega) ?_ fun j _ hj => ?_
    · rw [hread i (by omega), h.find_eq_zero_iff]
      exact hM
    · rw [hread j (by omega), ne_eq, h.find_eq_zero_iff]
      exact hmin j hj
  obtain ⟨s', hs', hst⟩ := @Machine.storeEntry_spec x.2 (a + 1) (b + 1) i node mode h.lt_frame
    (by omega) hta (by omega) hnode
  rw [← hx, ← h.table] at hs'
  simp only [hslot, hs', ok_bind]
  refine ⟨_, _, FdSpec.new hM hmin ?_ ?_, h.store hi hM hr hb hst⟩
  · exact Machine.wordPtr_ne_zero (by omega)
  · intro j e hj he
    obtain ⟨hej, hbl, -⟩ := h.entry j e hj
    have hlt' := h.lt_of_block hbl
    have hap := apart_of_reserved hr hbl
    rw [hej] at he
    have := Machine.wordPtr_inj (by omega) (by omega) he
    unfold Apart at hap
    omega

theorem erase (h : FdInv k M a blk) (hM : M i = some e) (hmem1 : s1.mem = k.machine.mem)
    (hmax1 : s1.pmm.bitmapMaxPage = k.machine.pmm.bitmapMaxPage)
    (hused1 : ∀ f, s1.pmm.Used f ↔ ¬ (blk i ≤ f ∧ f < blk i + 3) ∧ k.machine.pmm.Used f) :
    FdInv { k with machine := s1.writeWord (Machine.wordPtr (a + 1) i) 0 }
      (update M i none) a blk := by
  have hi := h.small i e hM
  have hap := h.apart i e hM
  have hi' : i < 512 := by omega
  generalize hs' : s1.writeWord (Machine.wordPtr (a + 1) i) 0 = s'
  have hpmm : s'.pmm = s1.pmm := by rw [← hs', Machine.pmm_writeWord]
  have hmem : ∀ g, g ≠ a + 1 → s'.mem g = k.machine.mem g := by
    intro g hg
    rw [← hs', Machine.mem_writeWord_of_ne h.lt_frame hi' _ hg, hmem1]
  have hmax : s'.pmm.bitmapMaxPage = k.machine.pmm.bitmapMaxPage := by rw [hpmm, hmax1]
  have hkeep : ∀ c, k.machine.HeapBlock c → Apart (blk i) c → c ≠ a + 1 → s'.HeapBlock c := by
    intro c hc hic hca
    refine hc.congr (hmem c hca) (fun f h1 h2 => ?_) hmax
    rw [hpmm, hused1]
    refine ⟨?_, hc.used f h1 h2⟩
    unfold Apart at hic
    omega
  have hzero : s'.pmm.Used 0 := by
    rw [hpmm, hused1]
    refine ⟨fun hin => ?_, h.heap.reserved.2⟩
    have := h.pos i e hM
    omega
  refine ⟨⟨hmax ▸ h.heap.direct, hmax ▸ h.heap.reserved.1, hzero⟩, h.table, h.size,
    hkeep a h.block hap (by omega), ?_, ?_, ?_, ?_, ?_, ?_⟩
  · intro j hj
    rw [find_natCast]
    by_cases hji : j.val = i
    · rw [hji, update_self, show j = ⟨i, hi'⟩ from Fin.ext hji]
      rw [← hs', Machine.mem_writeWord h.lt_frame hi', if_pos ⟨rfl, rfl⟩, map_none, getD_none]
    · rw [update_of_ne hji, ← find_natCast, ← h.slots j hj]
      rw [← hs', Machine.mem_writeWord h.lt_frame hi',
        if_neg fun he => hji (congrArg Fin.val he.2), hmem1]
  · intro j f hj
    exact h.small j f (of_update_none hj).2
  · intro j f hj
    obtain ⟨hji, hj⟩ := of_update_none hj
    obtain ⟨he, hbj, hent⟩ := h.entry j f hj
    have hja := h.apart j f hj
    have hij := h.distinct i j e f hM hj (Ne.symm hji)
    unfold Apart at hja
    exact ⟨he, hkeep _ hbj hij (by omega), hent.congr (hmem _ (by omega))⟩
  · intro j f hj
    exact h.apart j f (of_update_none hj).2
  · intro j l f g hj hl hne
    exact h.distinct j l f g (of_update_none hj).2 (of_update_none hl).2 hne
  · intro j f hj
    exact h.pos j f (of_update_none hj).2

/-- **`fd_close` removes an open number, and turns down every other one.** -/
theorem fdClose_spec (h : FdInv k M a blk) (fd : ℤ) :
    ∃ res, k.fdClose closeOp fd = .ok res ∧
      ∃ M', FdSpec closeOp M (.close fd, .status res.1) M' ∧ FdInv res.2 M' a blk := by
  have hrep := h.represents
  unfold fdClose
  by_cases hfd : k.fdLookup fd = 0
  · rw [if_pos hfd]
    refine ⟨_, rfl, M, FdSpec.closeBad ?_, h⟩
    rw [← hrep.lookup, hfd]
  · rw [if_neg hfd]
    have hnonneg : 0 ≤ fd := by
      by_contra hneg
      exact hfd (by rw [hrep.lookup, OpenFiles.find, if_neg hneg])
    obtain ⟨i, rfl⟩ := Int.eq_ofNat_of_zero_le hnonneg
    obtain ⟨e, hM⟩ : ∃ e, M i = some e := by
      rw [hrep.lookup, h.find_eq_zero_iff] at hfd
      exact ne_none_iff_exists'.1 hfd
    have hi := h.small i e hM
    obtain ⟨he, hbl, -⟩ := h.entry i e hM
    have hlook : k.fdLookup i = e.entry := by
      rw [hrep.lookup, find_natCast, hM, map_some, getD_some]
    have hslot : k.machine.readWord (slotPtr (k.processes k.curPid).fdTable i) =
        Machine.wordPtr (blk i + 1) 0 := by
      rw [h.readSlot (by omega), ← hrep.lookup, hlook, he]
    obtain ⟨s1, hfree, hmem, hmax, hused⟩ := Machine.kfree_spec h.heap hbl
    have hclose : k.vfsClose closeOp i = .ok (closeOp e.node i) := by
      unfold vfsClose
      rw [if_neg hfd, hlook, (hrep.stored i e hM).node_eq]
    have hremove : k.fdRemove i =
        .ok { k with machine := s1.writeWord (Machine.wordPtr (a + 1) i) 0 } := by
      unfold fdRemove
      dsimp only
      rw [h.size, if_pos (by omega), hslot, hfree, ok_bind, h.table,
        Machine.slotPtr_wordPtr h.lt_frame (by omega)]
      rfl
    rw [hclose, ok_bind, hremove, ok_bind]
    exact ⟨_, rfl, _, FdSpec.close hM, h.erase hM hmem hmax hused⟩

/-- Every operation that is ready meets the specification, or memory runs out. -/
theorem exec_spec (h : FdInv k M a blk) {op : FdOp} (hready : k.Ready op) :
    EnsuresFree (k.exec closeOp op) fun res =>
      ∃ M' blk', FdSpec closeOp M (op, res.1) M' ∧ FdInv res.2 M' a blk' := by
  cases op with
  | new node mode =>
    refine Ensures.map ?_
    exact h.fdNew_spec hready
  | lookup fd =>
    refine ⟨M, blk, ?_, h⟩
    rw [h.represents.lookup]
    exact FdSpec.lookup
  | close fd =>
    obtain ⟨res, hres, M', hspec, hinv⟩ := @FdInv.fdClose_spec k M a blk closeOp h fd
    rw [exec, hres]
    exact ⟨M', blk, hspec, hinv⟩

end FdInv

/-! ### Runs -/

theorem fdInv_createProcess {s s' : Machine} {p : Process} {cr3 : ℕ} (hs : s.HeapOk)
    (hp : s.createProcess cr3 = .ok (p, s')) (hm : k.machine = s')
    (hk : k.processes k.curPid = p) : ∃ a, FdInv k (fun _ => none) a fun _ => 0 := by
  obtain ⟨r1, hprocess, hp⟩ := bind_eq_ok.1 hp
  obtain ⟨r2, htable, hp⟩ := bind_eq_ok.1 hp
  obtain ⟨⟨_, s3⟩, hhandles, hp⟩ := bind_eq_ok.1 hp
  cases hp
  subst hm
  obtain ⟨_, -, hr1, -, -⟩ := (Machine.kcalloc_spec hs (by decide) (by decide)).of_ok hprocess
  have hs1 := hs.of_reserved hr1
  obtain ⟨a, ha, hr2, hb, hz⟩ := (Machine.kcalloc_spec hs1 (by decide) (by decide)).of_ok htable
  have hs2 := hs1.of_reserved hr2
  obtain ⟨c, -, hr3, -, -⟩ := (Machine.kcalloc_spec hs2 (by decide) (by decide)).of_ok hhandles
  -- the hashmap is apart from the table
  have hac : ∀ f, a ≤ f → f < a + 3 → ¬ (c ≤ f ∧ f < c + 3) := fun f h1 h2 h3 =>
    hr3.not_used h3.1 h3.2 (hb.used f h1 h2)
  have hblock := hb.congr (hr3.other a (hac a le_rfl (by omega)))
    (fun f h1 h2 => (hr3.used f).2 (Or.inr (hb.used f h1 h2))) hr3.alloc.maxPage
  refine ⟨a, hs2.of_reserved hr3, hk ▸ ha, by rw [hk], hblock, fun i hi => ?_, ?_, ?_, ?_, ?_, ?_⟩
  · rw [find_natCast, hr3.other (a + 1) (hac (a + 1) (by omega) (by omega))]
    exact hz i (hi.trans (by decide))
  all_goals
    intros
    contradiction

/-- A step of the code: an operation that is ready, and returns. -/
def FdStep (closeOp : Ptr → ℤ → ℤ) (k : FdState) (l : FdOp × FdResult) (k' : FdState) : Prop :=
  k.Ready l.1 ∧ k.exec closeOp l.1 = .ok (l.2, k')

/-- **The table of open files implements a finite map.**  In every run from a new process in which
`fd_new` finds one of the numbers 0 to 8 not open, the results are those of the specification, every
number looks up to its entry, and the next operation returns unless memory runs out. -/
theorem run_refines {s s' : Machine} {p : Process} {cr3 : ℕ} {k₀ : FdState}
    {ls : List (FdOp × FdResult)} (hs : s.HeapOk) (hp : s.createProcess cr3 = .ok (p, s'))
    (hm : k₀.machine = s') (hk : k₀.processes k₀.curPid = p) (hrun : Run (FdStep closeOp) k₀ ls k) :
    (∃ M, Run (FdSpec closeOp) (fun _ => none) ls M ∧ k.Represents M) ∧
    ∀ op, k.Ready op → Ensures (· = Halt.noFreeMemory) (k.exec closeOp op) fun _ => True := by
  obtain ⟨a, hinit⟩ := fdInv_createProcess hs hp hm hk
  obtain ⟨M, hM, blk, hinv⟩ := hrun.simulate (R := fun k M => ∃ blk, FdInv k M a blk) ⟨_, hinit⟩
    fun k M l k' ⟨blk, h⟩ ⟨hready, hexec⟩ => by
      obtain ⟨M', blk', hspec, hinv⟩ := (h.exec_spec hready).of_ok hexec
      exact ⟨M', hspec, blk', hinv⟩
  exact ⟨⟨M, hM, hinv.represents⟩, fun op hready => (hinv.exec_spec hready).mono fun _ _ => trivial⟩

/-- A machine with 64 pages of memory, page 0 in use. -/
def sixtyFourPages : Machine where
  mem _ _ := 0
  pmm :=
    { bitmap := fun i => if i = 0 then 0x1 else 0
      bitmapMaxPage := 64
      usedMemory := 0x1000
      availableMemory := 0x3f000
      maxPage_le := by decide }

/-- The state after the only process was created. -/
def oneProcess (r : Process × Machine) : FdState := ⟨r.2, fun _ => r.1, 1⟩

/-- Number 8 is not open when a file is opened. -/
def eightFree (k : FdState) : FdOp → Bool
  | .new node _ => node ≠ 0 ∧ k.fdLookup 8 = 0
  | _ => true

/-- A call that is computed, with its result. -/
def computedStep (k : FdState) (l : FdOp × FdResult) : Option FdState :=
  match k.exec (fun _ _ => 0) l.1 with
  | .ok r => if eightFree k l.1 ∧ r.1 = l.2 then some r.2 else none
  | .error _ => none

theorem fdStep_of_computed {l : FdOp × FdResult} {k' : FdState} (h : computedStep k l = some k') :
    FdStep (fun _ _ => 0) k l k' := by
  unfold computedStep at h
  split at h
  · rename_i r hexec
    split_ifs at h with hready
    cases h
    refine ⟨?_, by rw [hexec, ← hready.2]⟩
    obtain ⟨op, res⟩ := l
    cases op with
    | new node mode =>
      obtain ⟨hnode, hfree⟩ := of_decide_eq_true hready.1
      exact ⟨hnode, 8, by decide, le_rfl, hfree⟩
    | lookup fd => trivial
    | close fd => trivial
  · cases h

/-- Two files are opened, the first one is closed, and a third one gets its number. -/
def threeFiles : List (FdOp × FdResult) :=
  [(.new 100 0, .number 0), (.new 101 0, .number 1), (.close 0, .status 0),
    (.new 102 0, .number 0), (.lookup 5, .entry 0)]

theorem run_refines_oneProcess :
    ∃ r k, sixtyFourPages.createProcess 0x1000 = .ok r ∧
      Run (FdStep fun _ _ => 0) (oneProcess r) threeFiles k ∧
      (∃ M, Run (FdSpec fun _ _ => 0) (fun _ => none) threeFiles M ∧ k.Represents M) := by
  obtain ⟨⟨p, s'⟩, hp, hsome⟩ := exists_ok_of_map (x := sixtyFourPages.createProcess 0x1000)
    (f := fun r => (threeFiles.foldlM computedStep (oneProcess r)).isSome) (b := true)
    (by decide +kernel)
  obtain ⟨k, hk⟩ := Option.isSome_iff_exists.1 hsome
  have hrun : Run (FdStep fun _ _ => 0) (oneProcess (p, s')) threeFiles k :=
    Run.of_foldlM (fun _ _ _ hl => fdStep_of_computed hl) hk
  exact ⟨(p, s'), k, hp, hrun, (run_refines ⟨by decide, by decide⟩ hp rfl rfl hrun).1⟩

/-- Call `fd_new` `n` times, and collect the numbers. -/
def openMany (n : ℕ) (k : FdState) : Except Halt (List ℤ × FdState) :=
  forRange n (fun i st => do
    let r ← st.2.fdNew (100 + i) 0 st.2.curPid
    pure (st.1 ++ [r.1], r.2)) ([], k)

/-- **Without room among the numbers 0 to 8, files are lost.**  The tenth file gets number 9, which
looks up to nothing; the eleventh is stored in a table that the process does not have; at the
twelfth the freed table is handed out for the new entry, and `fd_new` fails its checks. -/
theorem openMany_lost :
    (∃ k, (sixtyFourPages.createProcess 0x1000 >>= fun r => openMany 10 (oneProcess r)) =
      .ok ([0, 1, 2, 3, 4, 5, 6, 7, 8, 9], k) ∧ k.fdLookup 9 = 0) ∧
    (∃ k, (sixtyFourPages.createProcess 0x1000 >>= fun r => openMany 11 (oneProcess r)) =
      .ok ([0, 1, 2, 3, 4, 5, 6, 7, 8, 9, 10], k) ∧ k.fdLookup 10 = 0) ∧
    (sixtyFourPages.createProcess 0x1000 >>= fun r => openMany 12 (oneProcess r)) =
      .error .fault := by
  have hlost : ∀ n l fd, ((sixtyFourPages.createProcess 0x1000 >>= fun r =>
      openMany n (oneProcess r)).toOption.map fun r => (r.1, r.2.fdLookup fd)) = some (l, 0) →
      ∃ k, (sixtyFourPages.createProcess 0x1000 >>= fun r => openMany n (oneProcess r)) =
        .ok (l, k) ∧ k.fdLookup fd = 0 := by
    intro n l fd h
    obtain ⟨⟨l', k⟩, hk, hl⟩ := exists_ok_of_map h
    obtain ⟨rfl, hnone⟩ := Prod.mk.inj hl
    exact ⟨k, hk, hnone⟩
  exact ⟨hlost 10 _ 9 (by decide +kernel), hlost 11 _ 10 (by decide +kernel),
    eq_error_of_stopReason (by decide +kernel)⟩

end FdState

end DripOS
