import Mathlib.Data.List.Range

/-!
# Vectors

`src/klibc/vector.c`: an array of pointers that grows by four slots when it is full.
-/

namespace DripOS

open Function List

/-- `vector_t`. -/
structure VectorT where
  items : ℕ → ℕ
  itemsCount : ℕ
  maxItems : ℕ

namespace VectorT

/-- `vector_init`. -/
def vectorInit : VectorT := ⟨fun _ => 0, 0, 4⟩

/-- `vector_resize`. -/
def vectorResize (v : VectorT) (newSize : ℕ) : VectorT := { v with maxItems := newSize }

/-- `vector_add`. -/
def vectorAdd (v : VectorT) (newItem : ℕ) : VectorT :=
  let v := if v.maxItems = v.itemsCount then v.vectorResize (v.maxItems + 4) else v
  { v with
    items := update v.items v.itemsCount newItem
    itemsCount := v.itemsCount + 1 }

/-- The items of a vector. -/
def toList (v : VectorT) : List ℕ := (List.range v.itemsCount).map v.items

theorem toList_vectorAdd (v : VectorT) (x : ℕ) : (v.vectorAdd x).toList = v.toList ++ [x] := by
  have hlast : ∀ w : VectorT, w.itemsCount = v.itemsCount → w.items = v.items →
      (List.range (w.itemsCount + 1)).map (update w.items w.itemsCount x) = v.toList ++ [x] := by
    intro w hcount hitems
    rw [hcount, hitems, range_succ, map_append, map_singleton, update_self]
    refine congrArg (· ++ [x]) (map_congr_left fun i hi => ?_)
    exact update_of_ne (mem_range.1 hi).ne _ _
  unfold vectorAdd
  split_ifs
  · exact hlast (v.vectorResize _) rfl rfl
  · exact hlast v rfl rfl

end VectorT

end DripOS
