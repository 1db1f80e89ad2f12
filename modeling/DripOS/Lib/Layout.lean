import DripOS.Lib.Bytes

/-!
# Structures in memory

The fields of a structure stand one after the other, each at the next multiple of its alignment.
`Layout.get` and `Layout.put` read and write a field.

* `Layout.disjoint_span` : different fields do not overlap;
* `Layout.get_put`, `Layout.get_putAll` : what is read after fields were written;
* `Layout.put_apply`, `Layout.putAll_apply` : bytes outside of the fields are not written.
-/

namespace DripOS

open Bytes List

/-- A byte after `patch` depends on the byte at the same place only. -/
theorem Bytes.patch_congr {b b' src : Bytes} {o n k : ℕ} (h : b k = b' k) :
    b.patch o n src k = b'.patch o n src k := by
  unfold patch
  rw [h]

/-- A field of a structure. -/
structure FieldSpec (ι : Type*) where
  name : ι
  size : ℕ
  align : ℕ
  align_pos : 0 < align

/-- A place in a block of bytes. -/
structure Span where
  offset : ℕ
  size : ℕ
  deriving DecidableEq, Repr

namespace Span

/-- The places have no byte in common. -/
def Disjoint (p q : Span) : Prop := p.offset + p.size ≤ q.offset ∨ q.offset + q.size ≤ p.offset

/-- The byte is outside of the place. -/
def Avoids (p : Span) (i : ℕ) : Prop := i < p.offset ∨ p.offset + p.size ≤ i

instance (p : Span) (i : ℕ) : Decidable (p.Avoids i) := inferInstanceAs (Decidable (_ ∨ _))

end Span

/-- The fields of a structure, in their order. -/
structure Layout (ι : Type*) where
  fields : List (FieldSpec ι)

namespace Layout

variable {ι : Type*} [DecidableEq ι]

/-- The next multiple of `a`. -/
def alignUp (n a : ℕ) : ℕ := (n + a - 1) / a * a

/-- The place of a field, if the first one may start at `cur`. -/
def spanFrom : (fields : List (FieldSpec ι)) → (cur : ℕ) → (i : ι) → Span
  | [], cur, _ => ⟨cur, 0⟩
  | f :: fields, cur, i =>
    if f.name = i then ⟨alignUp cur f.align, f.size⟩
    else spanFrom fields (alignUp cur f.align + f.size) i

variable (L : Layout ι)

/-- The place of a field. -/
def span (i : ι) : Span := spanFrom L.fields 0 i

/-- Reads a field. -/
def get (b : Bytes) (i : ι) : ℕ := b.getLE (L.span i).offset (L.span i).size

/-- Writes a field. -/
def put (b : Bytes) (i : ι) (v : ℕ) : Bytes := b.putLE (L.span i).offset (L.span i).size v

/-- Writes several fields. -/
def putAll (is : List ι) (v : ι → ℕ) (b : Bytes) : Bytes := is.foldl (fun b i => L.put b i (v i)) b

/-! ### The places -/

theorem le_alignUp {n a : ℕ} (ha : 0 < a) : n ≤ alignUp n a := by
  have hdiv := Nat.div_add_mod (n + a - 1) a
  have hmod := Nat.mod_lt (n + a - 1) ha
  rw [Nat.mul_comm] at hdiv
  unfold alignUp
  omega

theorem le_offset (fields : List (FieldSpec ι)) (cur : ℕ) (i : ι) :
    cur ≤ (spanFrom fields cur i).offset := by
  induction fields generalizing cur with
  | nil => exact le_rfl
  | cons f fields ih =>
    have hle := le_alignUp f.align_pos (n := cur)
    rw [spanFrom]
    split_ifs
    · exact hle
    · exact (hle.trans (Nat.le_add_right _ _)).trans (ih _)

theorem disjoint_spanFrom (fields : List (FieldSpec ι)) (cur : ℕ) {i j : ι} (h : i ≠ j) :
    (spanFrom fields cur i).Disjoint (spanFrom fields cur j) := by
  induction fields generalizing cur with
  | nil => exact Or.inl le_rfl
  | cons f fields ih =>
    rw [spanFrom, spanFrom]
    -- the first of the two fields ends before all later ones start
    by_cases hi : f.name = i
    · rw [if_pos hi, if_neg (fun hj => h (hi.symm.trans hj))]
      exact Or.inl (le_offset _ _ _)
    · by_cases hj : f.name = j
      · rw [if_neg hi, if_pos hj]
        exact Or.inr (le_offset _ _ _)
      · rw [if_neg hi, if_neg hj]
        exact ih _

theorem disjoint_span {i j : ι} (h : i ≠ j) : (L.span i).Disjoint (L.span j) :=
  disjoint_spanFrom L.fields 0 h

/-! ### Reading and writing -/

variable {L} {b b' : Bytes} {i j : ι} {v k : ℕ}

theorem get_congr (h : ∀ k < (L.span i).size, b ((L.span i).offset + k) =
    b' ((L.span i).offset + k)) : L.get b i = L.get b' i :=
  getLE_congr h

theorem get_put : L.get (L.put b i v) j =
    if i = j then v % 256 ^ (L.span j).size else L.get b j := by
  split_ifs with h
  · subst h
    exact getLE_putLE
  · exact getLE_putLE_of_disjoint ((L.disjoint_span h).symm)

theorem putAll_cons (is : List ι) (v : ι → ℕ) :
    L.putAll (i :: is) v b = L.putAll is v (L.put b i (v i)) := rfl

theorem get_putAll (is : List ι) (v : ι → ℕ) (b : Bytes) (j : ι) :
    L.get (L.putAll is v b) j = if j ∈ is then v j % 256 ^ (L.span j).size else L.get b j := by
  induction is generalizing b with
  | nil => rfl
  | cons i is ih =>
    rw [putAll_cons, ih, get_put]
    by_cases hj : j ∈ is
    · rw [if_pos hj, if_pos (mem_cons_of_mem i hj)]
    · rw [if_neg hj]
      by_cases hij : i = j
      · subst hij
        rw [if_pos rfl, if_pos mem_cons_self]
      · rw [if_neg hij, if_neg (by simp [hj, Ne.symm hij])]

theorem put_apply (h : (L.span i).Avoids k) : L.put b i v k = b k := putLE_of_disjoint h

theorem putAll_apply {is : List ι} {v : ι → ℕ} (h : ∀ i ∈ is, (L.span i).Avoids k) :
    L.putAll is v b k = b k := by
  induction is generalizing b with
  | nil => rfl
  | cons i is ih =>
    rw [putAll_cons, ih fun j hj => h j (mem_cons_of_mem i hj)]
    exact put_apply (h i mem_cons_self)

theorem put_congr (h : b k = b' k) : L.put b i v k = L.put b' i v k := patch_congr h

theorem putAll_congr {is : List ι} {v : ι → ℕ} (h : b k = b' k) :
    L.putAll is v b k = L.putAll is v b' k := by
  induction is generalizing b b' with
  | nil => exact h
  | cons i is ih => exact ih (put_congr h)

/-- The bytes of a field are those of its value. -/
theorem apply_of_get (h : L.get b i = v) (hk : k < (L.span i).size) :
    b ((L.span i).offset + k) = ofNat v k := by
  rw [← h]
  exact (ofNat_getLE hk).symm

end Layout

end DripOS
