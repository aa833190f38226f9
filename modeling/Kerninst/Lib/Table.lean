import Mathlib.Logic.Function.Basic

/-!
# Vectors as tables

A vector of length `n` that is written in place is the table of a function on its
indices: reading it is applying the function, and writing it is updating the function
at one point. This keeps the bounds in the vector and the reasoning in the function.
-/

namespace Kerninst

open List

universe u

variable {α : Type u} {f : Nat → α} {n i : Nat}

/-- The vector `f 0, …, f (n - 1)`. -/
def table (n : Nat) (f : Nat → α) : List α := (List.range n).map f

@[simp] theorem length_table : (table n f).length = n := by
  simp [table]

theorem getElem?_table (hi : i < n) : (table n f)[i]? = some (f i) := by
  simp [table, hi]

theorem table_congr {g : Nat → α} (h : ∀ i < n, f i = g i) : table n f = table n g :=
  map_congr_left fun i hi => h i (mem_range.mp hi)

theorem set_table (a : α) : (table n f).set i a = table n (Function.update f i a) := by
  refine ext_getElem? fun j => ?_
  by_cases hj : j < n
  · rw [getElem?_set, getElem?_table hj, getElem?_table hj, length_table]
    by_cases hij : i = j
    · subst hij
      simp [hj]
    · rw [if_neg hij, Function.update_of_ne (Ne.symm hij)]
  · rw [getElem?_eq_none (by simp; omega), getElem?_eq_none (by simp; omega)]

/-- The indices below `n`, listed in some order. -/
theorem perm_range {l : List Nat} (hnodup : l.Nodup) (hmem : ∀ i, i ∈ l ↔ i < n) :
    l.Perm (List.range n) :=
  (perm_ext_iff_of_nodup hnodup nodup_range).mpr fun i => by
    rw [hmem, mem_range]

end Kerninst
