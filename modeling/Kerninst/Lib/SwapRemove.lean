import Kerninst.Lib.Checked

/-!
# Removing from a vector by moving its last element

`swapRemove` removes the element at a position: the last element takes its place. `sweep` is the
loop that goes over a vector, deals with the elements that are ready, and removes these in that
way. After a removal the position stays, since another element is there now.

The elements are dealt with in an order that depends on the removals. What can be said without
it is `sweep_spec`: those that are ready are dealt with once each, and the others are left.
-/

namespace Kerninst

open List

universe u v

/-- The last element takes the place of the removed one. -/
def swapRemove {α : Type u} (l : List α) (i : Nat) : List α :=
  match l.getLast? with
  | none => l
  | some last => (l.set i last).dropLast

section

variable {α : Type u} {l : List α} {i : Nat}

/-- The element that is removed, and those that stay. -/
theorem cons_swapRemove_perm {e : α} (h : l[i]? = some e) : (e :: swapRemove l i).Perm l := by
  rcases eq_nil_or_concat' l with rfl | ⟨init, last, rfl⟩
  · exact nomatch h
  have hlast : (init ++ [last]).getLast? = some last := getLast?_concat
  simp only [swapRemove, hlast]
  by_cases hi : i < init.length
  · -- the last element is moved
    rw [getElem?_append_left hi] at h
    obtain ⟨_, rfl⟩ := List.getElem?_eq_some_iff.mp h
    rw [set_append_left _ _ hi, dropLast_concat, set_eq_take_append_cons_drop, if_pos hi]
    have hinit : init.take i ++ init[i] :: init.drop (i + 1) = init := by
      rw [← drop_eq_getElem_cons hi, take_append_drop]
    have hmiddle : (init[i] :: (init.take i ++ init.drop (i + 1))).Perm init :=
      perm_middle.symm.trans (.of_eq hinit)
    calc (init[i] :: (init.take i ++ last :: init.drop (i + 1))).Perm
          (init[i] :: last :: (init.take i ++ init.drop (i + 1))) := perm_middle.cons _
      _ |>.Perm (last :: init[i] :: (init.take i ++ init.drop (i + 1))) := List.Perm.swap ..
      _ |>.Perm (last :: init) := hmiddle.cons _
      _ |>.Perm (init ++ [last]) := (perm_append_singleton ..).symm
  · -- the last element is removed
    obtain ⟨hlt, heq⟩ := List.getElem?_eq_some_iff.mp h
    rw [length_append, length_singleton] at hlt
    obtain rfl : i = init.length := by omega
    rw [getElem_concat_length rfl] at heq
    rw [set_append_right _ _ (Nat.le_refl _), Nat.sub_self, set_cons_zero, dropLast_concat, ← heq]
    exact (perm_append_singleton ..).symm

/-- What is before the removed element stays where it is. -/
theorem getElem?_swapRemove_of_lt (hi : i < l.length) {j : Nat} (hj : j < i) :
    (swapRemove l i)[j]? = l[j]? := by
  have hne : l ≠ [] := ne_nil_of_length_pos (by omega)
  simp only [swapRemove, getLast?_eq_some_getLast hne]
  rw [getElem?_dropLast, length_set, if_pos (by omega), getElem?_set_ne (by omega)]

end

/-- Go over the vector from position `i`, with as many rounds as there are elements left.
`ready` may fail, as may what is done with an element. -/
def sweep {ι : Type u} {σ : Type v} (ready : ι → Option Bool) (f : σ → ι → Option σ) :
    Nat → Nat → List ι → σ → Option (List ι × σ)
  | 0, _, l, s => some (l, s)
  | n + 1, i, l, s =>
    match l[i]? with
    | none => some (l, s)
    | some x =>
      (ready x).bind fun r =>
        if r then (f s x).bind fun s' => sweep ready f n i (swapRemove l i) s'
        else sweep ready f n (i + 1) l s

/-- The whole loop. -/
def sweepAll {ι : Type u} {σ : Type v} (ready : ι → Option Bool) (f : σ → ι → Option σ)
    (l : List ι) (s : σ) : Option (List ι × σ) :=
  sweep ready f l.length 0 l s

section

variable {ι : Type u} {σ : Type v} {ready : ι → Option Bool} {f : σ → ι → Option σ}
  {early : ι → Bool}

/-- What is dealt with, what is left, and the result. -/
structure Swept (f : σ → ι → Option σ) (early : ι → Bool) (l : List ι)
    (r : σ → Option (List ι × σ)) (done kept : List ι) : Prop where
  perm : (done ++ kept).Perm l
  wereReady : ∀ x ∈ done, early x = true
  wereNot : ∀ x ∈ kept, early x = false
  result : ∀ s, r s = (done.foldlM f s).map (kept, ·)

/-- All elements are before position `i`, and are left. -/
theorem swept_of_le {l : List ι} {i : Nat}
    (hbefore : ∀ j < i, ∀ x, l[j]? = some x → early x = false) (hlen : l.length ≤ i) :
    Swept f early l (fun s => some (l, s)) [] l := by
  refine ⟨.refl _, fun _ h => (nomatch h), fun x hx => ?_, fun _ => rfl⟩
  obtain ⟨j, hj, rfl⟩ := getElem_of_mem hx
  exact hbefore j (by omega) _ (getElem?_eq_getElem hj)

/-- The part before position `i` has been looked at and is left. -/
theorem sweep_spec : ∀ (n i : Nat) (l : List ι), (∀ x ∈ l, ready x = some (early x)) →
    (∀ j < i, ∀ x, l[j]? = some x → early x = false) → l.length ≤ i + n →
    ∃ done kept, Swept f early l (sweep ready f n i l) done kept := by
  intro n
  induction n with
  | zero =>
    intro i l _ hbefore hlen
    exact ⟨[], l, swept_of_le hbefore hlen⟩
  | succ n ih =>
    intro i l hready hbefore hlen
    cases hx : l[i]? with
    | none =>
      have heq : sweep ready f (n + 1) i l = fun s => some (l, s) :=
        funext fun s => by simp [sweep, hx]
      exact ⟨[], l, heq ▸ swept_of_le hbefore (getElem?_eq_none_iff.mp hx)⟩
    | some x =>
      have hi : i < l.length := (List.getElem?_eq_some_iff.mp hx).1
      have hperm : (x :: swapRemove l i).Perm l := cons_swapRemove_perm hx
      have hx' : ready x = some (early x) := hready x (mem_of_getElem? hx)
      cases hearly : early x with
      | false =>
        have heq : sweep ready f (n + 1) i l = sweep ready f n (i + 1) l := funext fun s => by
          simp [sweep, hx, hx', hearly]
        rw [heq]
        refine ih (i + 1) l hready (fun j hj y hy => ?_) (by omega)
        obtain hlt | rfl : j < i ∨ j = i := by omega
        · exact hbefore j hlt y hy
        · rw [hx] at hy
          exact Option.some.inj hy ▸ hearly
      | true =>
        have hrest : ∀ y ∈ swapRemove l i, y ∈ l := fun y hy =>
          hperm.mem_iff.mp (mem_cons_of_mem x hy)
        have hlen' : (swapRemove l i).length + 1 = l.length := hperm.length_eq
        obtain ⟨done, kept, hswept⟩ := ih i (swapRemove l i) (fun y hy => hready y (hrest y hy))
          (fun j hj y hy => hbefore j hj y (getElem?_swapRemove_of_lt hi hj ▸ hy)) (by omega)
        refine ⟨x :: done, kept, (hswept.perm.cons x).trans hperm,
          forall_mem_cons.mpr ⟨hearly, hswept.wereReady⟩, hswept.wereNot, fun s => ?_⟩
        simp only [sweep, hx, hx', hearly, Option.bind_some, if_true, hswept.result]
        rw [foldlM_cons]
        cases f s x <;> rfl

/-- **Going over a vector** deals once with each element that is ready, and leaves the others. -/
theorem sweepAll_spec {l : List ι} (hready : ∀ x ∈ l, ready x = some (early x)) :
    ∃ done kept, Swept f early l (sweepAll ready f l) done kept :=
  sweep_spec l.length 0 l hready (fun _ h => absurd h (Nat.not_lt_zero _)) (by omega)

end

end Kerninst
