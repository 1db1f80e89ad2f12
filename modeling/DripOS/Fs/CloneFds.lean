import DripOS.Lib.Slots
import Mathlib.Algebra.Order.Group.Nat

/-!
# The files of a child process

`clone_fds` of `src/fs/fd.c` copies the entries of the parent, and puts each copy into the first
free slot of the child.  Entries are records with an address; `kcalloc` returns an unused address.
A table is an array of addresses, where `none` is null.

`FdTable.cloneFds_exact_iff` : the child gets the numbers of the parent exactly when the parent uses
the first numbers without a hole, and as many of them as the child can look up.
-/

namespace DripOS

open List Function Slots

/-- The fields of `fd_entry_t` that are copied. -/
structure FdEntry where
  node : ℕ
  mode : ℤ
  seek : ℕ
  deriving DecidableEq, Repr

/-- The entries by address; the addresses from `next` on are free. -/
structure FdHeap where
  entries : ℕ → FdEntry
  next : ℕ

/-- The table of open files of a process, with its entries. -/
structure FdTable where
  heap : FdHeap
  slots : Slots ℕ
  allocated : ∀ p ∈ slots.reduceOption, p < heap.next

/-- `fd_lookup_pid` on a table. -/
def fdLookupIn (slots : Slots ℕ) (fd : ℤ) : Option ℕ :=
  if fd < (slots.length : ℤ) - 1 ∧ fd ≥ 0 then get slots fd.toNat else none

section Clone

variable {σ α : Type} (copy : σ → α → σ × α)

/-- The body of the loop of `clone_fds`, for one slot of the parent; `copy` makes a copy of an
entry. -/
def cloneFd (r : σ × Slots α) : Option α → σ × Slots α
  | none => r
  | some old =>
    let newFd := copy r.1 old
    (newFd.1, r.2.alloc.2.set r.2.alloc.1 (some newFd.2))

/-- The table that `create_process` makes. -/
def newFdSlots : Slots α := List.replicate 10 none

/-- `clone_fds` for a new child. -/
def cloneFds (s : σ) (old : Slots α) : σ × Slots α := old.foldl (cloneFd copy) (s, newFdSlots)

/-- Free slots are passed over. -/
theorem cloneFds_eq (s : σ) (old : Slots α) : cloneFds copy s old =
    old.reduceOption.foldl (fun r a => cloneFd copy r (some a)) (s, newFdSlots) := by
  unfold cloneFds
  generalize (s, newFdSlots) = r
  induction old generalizing r with
  | nil => rfl
  | cons entry old ih =>
    cases entry with
    | none => exact ih r
    | some a => exact ih (cloneFd copy r (some a))

end Clone

/-- The copy of an entry is a new one. -/
def copyFd (h : FdHeap) (old : ℕ) : FdHeap × ℕ :=
  let entry := h.entries old
  ({ entries := update h.entries h.next ⟨entry.node, entry.mode, entry.seek⟩
     next := h.next + 1 }, h.next)

/-- `clone_fds`, with the entries. -/
def FdTable.cloneFds (old : FdTable) : FdHeap × Slots ℕ :=
  DripOS.cloneFds copyFd old.heap old.slots

/-- The size of the table of the child for `m` files. -/
def childTableSize (m : ℕ) : ℕ := max 10 ((m + 9) / 10 * 10)

/-- The child has copies of the entries `ps`, from number 0 on. -/
structure Copied (h : FdHeap) (ps : List ℕ) (r : FdHeap × Slots ℕ) : Prop where
  slots : ∀ k, Slots.get r.2 k = if k < ps.length then some (h.next + k) else none
  length : r.2.length = childTableSize ps.length
  next : r.1.next = h.next + ps.length
  old : ∀ p, p < h.next → r.1.entries p = h.entries p
  copy : ∀ k p, ps[k]? = some p → r.1.entries (h.next + k) = h.entries p

theorem copied_nil (h : FdHeap) : Copied h [] (h, newFdSlots) := by
  refine ⟨fun k => ?_, rfl, rfl, fun _ _ => rfl, fun k p hp => by cases hp⟩
  have := get_append_replicate (t := ([] : Slots ℕ)) (i := k) 10
  exact this

variable {h : FdHeap} {ps : List ℕ} {r : FdHeap × Slots ℕ}

theorem Copied.snoc {p : ℕ} (hc : Copied h ps r) (hp : p < h.next) :
    Copied h (ps ++ [p]) (cloneFd copyFd r (some p)) := by
  have hlen := hc.length
  have hle : ps.length ≤ r.2.length := by
    rw [hlen, childTableSize]
    omega
  -- the first free slot is the one after the copies
  obtain ⟨hfst, hsize⟩ := alloc_eq (m := ps.length)
    (fun k hk => by rw [hc.slots, if_pos hk]; rfl) (by rw [hc.slots, if_neg (Nat.lt_irrefl _)]) hle
  refine ⟨fun k => ?_, ?_, ?_, fun q hq => ?_, fun k q hq => ?_⟩
  · refine (get_set_alloc r.2 (some r.1.next)).trans ?_
    rw [hfst, hc.slots, hc.next, length_append, length_singleton]
    rcases Nat.lt_trichotomy k ps.length with hk | rfl | hk
    · rw [if_neg (Nat.ne_of_lt hk), if_pos hk, if_pos (Nat.lt_succ_of_lt hk)]
    · rw [if_pos rfl, if_pos (Nat.lt_succ_self _)]
    · rw [if_neg (Nat.ne_of_gt hk), if_neg (Nat.not_lt_of_lt hk), if_neg (by omega)]
  · refine length_set.trans ?_
    rw [hsize, hlen, length_append, length_singleton]
    unfold childTableSize
    split_ifs <;> omega
  · show r.1.next + 1 = _
    rw [hc.next, length_append, length_singleton, Nat.add_assoc]
  · refine (update_of_ne ?_ _ _).trans (hc.old q hq)
    rw [hc.next]
    omega
  · show update r.1.entries r.1.next _ _ = _
    rcases Nat.lt_or_ge k ps.length with hk | hk
    · rw [List.getElem?_append_left hk] at hq
      rw [update_of_ne (by rw [hc.next]; omega)]
      exact hc.copy k q hq
    · rw [List.getElem?_append_right hk] at hq
      obtain ⟨hk', hq'⟩ := List.getElem?_eq_some_iff.1 hq
      have hk0 : k = ps.length := by
        rw [length_singleton] at hk'
        omega
      rw [hk0, ← hc.next, update_self, ← hq']
      simp [hc.old p hp]

theorem Copied.foldl {qs : List ℕ} (hc : Copied h ps r) (hqs : ∀ p ∈ qs, p < h.next) :
    Copied h (ps ++ qs) (qs.foldl (fun r p => cloneFd copyFd r (some p)) r) := by
  induction qs generalizing ps r with
  | nil => rwa [append_nil]
  | cons p qs ih =>
    rw [foldl_cons, append_cons]
    exact ih (hc.snoc (hqs p mem_cons_self)) fun q hq => hqs q (mem_cons_of_mem p hq)

/-- What the child has after `clone_fds`. -/
theorem FdTable.copied_cloneFds (old : FdTable) :
    Copied old.heap old.slots.reduceOption old.cloneFds := by
  rw [FdTable.cloneFds, cloneFds_eq]
  exact (copied_nil old.heap).foldl old.allocated

/-! ### The numbers of the child -/

theorem fdLookupIn_natCast (slots : Slots ℕ) (fd : ℕ) :
    fdLookupIn slots fd = if fd < slots.length - 1 then get slots fd else none := by
  unfold fdLookupIn
  by_cases h : fd < slots.length - 1
  · rw [if_pos h, if_pos ⟨by omega, by omega⟩, Int.toNat_natCast]
  · rw [if_neg h, if_neg (by omega)]

theorem fdLookupIn_neg (slots : Slots ℕ) {fd : ℤ} (h : fd < 0) : fdLookupIn slots fd = none :=
  if_neg (by omega)

/-- How many numbers the child can look up when `m` files were copied. -/
def childNumbers (m : ℕ) : ℕ := min m (childTableSize m - 1)

theorem Copied.lookup (hc : Copied h ps r) (fd : ℕ) :
    fdLookupIn r.2 fd = if fd < childNumbers ps.length then some (h.next + fd) else none := by
  rw [fdLookupIn_natCast, hc.length, hc.slots, childNumbers]
  by_cases hsize : fd < childTableSize ps.length - 1
  · rw [if_pos hsize]
    by_cases hfd : fd < ps.length
    · rw [if_pos hfd, if_pos (by omega)]
    · rw [if_neg hfd, if_neg (by omega)]
  · rw [if_neg hsize, if_neg (by omega)]

/-- The entry of number `k` is the `k`-th entry when all numbers before it are taken. -/
theorem getElem?_reduceOption : ∀ {t : Slots ℕ} {k p : ℕ}, get t k = some p →
    (∀ j < k, (get t j).isSome) → t.reduceOption[k]? = some p
  | none :: _, 0, _, hp, _ => nomatch hp
  | some _ :: _, 0, _, hp, _ => hp
  | none :: _, _ + 1, _, _, hbefore => nomatch hbefore 0 (Nat.succ_pos _)
  | some _ :: t, _ + 1, _, hp, hbefore =>
    getElem?_reduceOption (t := t) hp fun j hj => hbefore (j + 1) (Nat.succ_lt_succ hj)

/-- The parent and the child after `clone_fds`: the same numbers are open with the same contents,
and no write to an entry of the child reaches the parent. -/
structure CloneExact (old : FdTable) (r : FdHeap × Slots ℕ) : Prop where
  numbers : ∀ fd, (fdLookupIn r.2 fd).isSome ↔ (fdLookupIn old.slots fd).isSome
  same : ∀ fd a p, fdLookupIn r.2 fd = some a → fdLookupIn old.slots fd = some p →
    r.1.entries a = old.heap.entries p
  parent : ∀ p ∈ old.slots.reduceOption, r.1.entries p = old.heap.entries p
  separate : ∀ fd a, fdLookupIn r.2 fd = some a → ∀ entry, ∀ p ∈ old.slots.reduceOption,
    update r.1.entries a entry p = r.1.entries p
  distinct : ∀ fd fd' a, fdLookupIn r.2 fd = some a → fdLookupIn r.2 fd' = some a → fd = fd'

/-- The open numbers are the first ones, and as many as the child can look up. -/
def FdTable.Packed (old : FdTable) : Prop :=
  ∀ fd : ℕ, (fdLookupIn old.slots fd).isSome ↔ fd < childNumbers old.slots.reduceOption.length

theorem Copied.lookup_eq_some (hc : Copied h ps r) {fd : ℤ} {a : ℕ}
    (hfd : fdLookupIn r.2 fd = some a) :
    ∃ k : ℕ, fd = k ∧ k < childNumbers ps.length ∧ a = h.next + k := by
  rcases Int.lt_or_le fd 0 with hneg | hpos
  · rw [fdLookupIn_neg _ hneg] at hfd
    cases hfd
  · obtain ⟨k, rfl⟩ := Int.eq_ofNat_of_zero_le hpos
    rw [hc.lookup] at hfd
    split_ifs at hfd with hk
    exact ⟨k, rfl, hk, (Option.some.inj hfd).symm⟩

/-- The numbers below the first ones of a packed table are taken. -/
theorem FdTable.Packed.entry {old : FdTable} (hpacked : old.Packed) {k p : ℕ}
    (hp : fdLookupIn old.slots k = some p) : old.slots.reduceOption[k]? = some p := by
  have hget : ∀ {j q : ℕ}, fdLookupIn old.slots j = some q → get old.slots j = some q :=
    fun {j q} hq => by
      rw [fdLookupIn_natCast] at hq
      split_ifs at hq
      exact hq
  have hk := (hpacked k).1 (by rw [hp]; rfl)
  refine getElem?_reduceOption (hget hp) fun j hj => ?_
  obtain ⟨q, hq⟩ := Option.isSome_iff_exists.1 ((hpacked j).2 (Nat.lt_trans hj hk))
  rw [hget hq]
  rfl

theorem FdTable.Packed.cloneExact {old : FdTable} (hpacked : old.Packed) :
    CloneExact old old.cloneFds := by
  have hc := old.copied_cloneFds
  refine ⟨fun fd => ?_, fun fd a p ha hp => ?_, fun p hp => hc.old p (old.allocated p hp),
    fun fd a ha entry p hp => ?_, fun fd fd' a ha ha' => ?_⟩
  · rcases Int.lt_or_le fd 0 with hneg | hpos
    · rw [fdLookupIn_neg _ hneg, fdLookupIn_neg _ hneg]
    · obtain ⟨k, rfl⟩ := Int.eq_ofNat_of_zero_le hpos
      refine Iff.trans ?_ (hpacked k).symm
      rw [hc.lookup]
      split_ifs with hk <;> simp [hk]
  · obtain ⟨k, rfl, -, rfl⟩ := hc.lookup_eq_some ha
    exact hc.copy k p (hpacked.entry hp)
  · obtain ⟨k, -, -, rfl⟩ := hc.lookup_eq_some ha
    have := old.allocated p hp
    exact update_of_ne (by omega) _ _
  · obtain ⟨k, rfl, -, rfl⟩ := hc.lookup_eq_some ha
    obtain ⟨k', rfl, -, hk'⟩ := hc.lookup_eq_some ha'
    omega

/-- **`clone_fds` gives the child the open numbers of the parent, with the same contents in entries
of its own, exactly when they have no hole and the child can look up as many.** -/
theorem FdTable.cloneFds_exact_iff (old : FdTable) : CloneExact old old.cloneFds ↔ old.Packed := by
  refine ⟨fun h fd => ?_, FdTable.Packed.cloneExact⟩
  rw [← h.numbers fd, old.copied_cloneFds.lookup]
  split_ifs with hfd <;> simp [hfd]

/-- A parent that has closed file 0, with files 1 and 2 still open. -/
def closedFirst : FdTable where
  heap := ⟨fun p => ⟨100 + p, 0, 0⟩, 2⟩
  slots := [none, some 0, some 1, none, none, none, none, none, none, none]
  allocated := by decide

/-- The files 1 and 2 of the parent are the files 0 and 1 of the child. -/
theorem cloneFds_moves_files :
    [0, 1, 2].map (fun fd => (fdLookupIn closedFirst.slots fd).map fun p =>
      (closedFirst.heap.entries p).node) = [none, some 100, some 101] ∧
    [0, 1, 2].map (fun fd => (fdLookupIn closedFirst.cloneFds.2 fd).map fun p =>
      (closedFirst.cloneFds.1.entries p).node) = [some 100, some 101, none] ∧
    ¬ CloneExact closedFirst closedFirst.cloneFds :=
  ⟨by decide, by decide, fun h => absurd (h.numbers 0) (by decide)⟩

end DripOS
