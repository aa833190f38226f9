import Mathlib.Order.Interval.Set.Basic

/-!
# Sorted lists: searching them, and intervals in them

* `partitionPoint p l` searches, by halving, for the place where `p` changes from true to false.
  On a list that is partitioned by `p` (whatever stands before an element with `p` has `p` too)
  an element has `p` iff it stands before that place (`partitionPoint_iff`). `equalRange` is two
  such searches, with comparisons that may be of different kinds.
* A list of half-open intervals is in order when each ends before the next begins. The
  intervals cover all from one element to another iff each of the two is in an interval, and from
  the first of these intervals to the second each one begins where the one before it ends
  (`covers_iff_contiguous`).
-/

namespace Kerninst

open List Option
open Set (Ico)

universe u

/-! ## Binary search -/

section Search

variable {α : Type u} (p : α → Bool) (l : List α)

/-- The search in the `len` elements from `first` on: look at the one in the middle, and go on in
the half behind it or before it. -/
def searchFrom : Nat → Nat → Nat → Nat
  | 0, first, _ => first
  | fuel + 1, first, len =>
    if len = 0 then first
    else if l[first + len / 2]?.any p then
      searchFrom fuel (first + len / 2 + 1) (len - len / 2 - 1)
    else searchFrom fuel first (len / 2)

def partitionPoint : Nat := searchFrom p l l.length 0 l.length

/-- The elements that are neither before nor after what is looked for: where they begin and where
they end. -/
def equalRange (before after : α → Bool) (l : List α) : Nat × Nat :=
  (partitionPoint before l, partitionPoint (fun x => !after x) l)

/-- What stands before an element with `p` has `p`. -/
def Partitioned : Prop := l.Pairwise fun x y => p y = true → p x = true

variable {p l}

section Point

variable (h : Partitioned p l)
include h

theorem Partitioned.of_le {i j : Nat} (hij : i ≤ j) (hj : j < l.length)
    (hp : l[j]?.any p = true) : l[i]?.any p = true := by
  rcases Nat.eq_or_lt_of_le hij with rfl | hlt
  · exact hp
  · rw [getElem?_eq_getElem hj, any_some] at hp
    rw [getElem?_eq_getElem (hlt.trans hj), any_some]
    exact pairwise_iff_getElem.mp h i j (hlt.trans hj) hj hlt hp

/-- All before `first` has `p`, and nothing from `first + len` on has it: halving keeps this. -/
theorem searchFrom_spec {fuel first len : Nat} (hfuel : len ≤ fuel)
    (hfit : first + len ≤ l.length) (hbelow : ∀ i < first, l[i]?.any p = true)
    (habove : ∀ i, first + len ≤ i → l[i]?.any p = false) (i : Nat) :
    l[i]?.any p = true ↔ i < searchFrom p l fuel first len := by
  induction fuel generalizing first len with
  | zero =>
    obtain rfl : len = 0 := Nat.le_zero.mp hfuel
    rw [searchFrom]
    rcases Nat.lt_or_ge i first with hlt | hge
    · exact iff_of_true (hbelow i hlt) hlt
    · exact iff_of_false (by simp [habove i hge]) (by omega)
  | succ fuel ih =>
    rw [searchFrom]
    by_cases hlen : len = 0
    · subst hlen
      rw [if_pos rfl]
      rcases Nat.lt_or_ge i first with hlt | hge
      · exact iff_of_true (hbelow i hlt) hlt
      · exact iff_of_false (by simp [habove i hge]) (by omega)
    · rw [if_neg hlen]
      have hmid : first + len / 2 < l.length := by omega
      split
      case isTrue hp =>
        refine ih (by omega) (by omega) (fun j hj => h.of_le (by omega) hmid hp)
          fun j hj => habove j (by omega)
      case isFalse hp =>
        refine ih (by omega) (by omega) hbelow fun j hj => ?_
        rw [Bool.eq_false_iff]
        intro hpj
        rcases Nat.lt_or_ge j l.length with hlt | hge
        · exact hp (h.of_le hj hlt hpj)
        · rw [getElem?_eq_none hge] at hpj
          cases hpj

/-- **The search finds the place where `p` ends.** -/
theorem partitionPoint_iff (i : Nat) :
    l[i]?.any p = true ↔ i < partitionPoint p l := by
  refine searchFrom_spec h le_rfl (by omega) (fun j hj => absurd hj (Nat.not_lt_zero j))
    (fun j hj => ?_) i
  rw [getElem?_eq_none (by omega)]
  rfl

theorem partitionPoint_iff_of_getElem? {i : Nat} {x : α}
    (hx : l[i]? = some x) : p x = true ↔ i < partitionPoint p l := by
  rw [← partitionPoint_iff h, hx, any_some]

theorem partitionPoint_le : partitionPoint p l ≤ l.length := by
  by_contra hlt
  have hp := (partitionPoint_iff h l.length).mpr (Nat.lt_of_not_le hlt)
  rw [getElem?_eq_none le_rfl] at hp
  cases hp

end Point

end Search

/-! ## Intervals in order -/

section Intervals

variable {α : Type u} {l : List (α × α)}

/-- Interval `k` ends where the next one begins. -/
def Adjacent (l : List (α × α)) (k : Nat) : Prop :=
  ∃ s t, l[k]? = some s ∧ l[k + 1]? = some t ∧ s.2 = t.1

/-- No gaps from interval `i` to interval `j`. -/
def Contiguous (l : List (α × α)) (i j : Nat) : Prop := ∀ k, i ≤ k → k < j → Adjacent l k

theorem contiguous_self (i : Nat) : Contiguous l i i := fun _ hik hki =>
  absurd hki (Nat.not_lt.mpr hik)

theorem contiguous_succ_left {i j : Nat} (hij : i < j) :
    Contiguous l i j ↔ Adjacent l i ∧ Contiguous l (i + 1) j := by
  constructor
  · exact fun h => ⟨h i le_rfl hij, fun k hk => h k (Nat.le_of_succ_le hk)⟩
  · rintro ⟨hadj, h⟩ k hik hkj
    rcases Nat.eq_or_lt_of_le hik with rfl | hlt
    · exact hadj
    · exact h k hlt hkj

theorem contiguous_succ_right {i j : Nat} (hij : i ≤ j) :
    Contiguous l i (j + 1) ↔ Contiguous l i j ∧ Adjacent l j := by
  constructor
  · exact fun h => ⟨fun k hik hkj => h k hik (Nat.lt_succ_of_lt hkj), h j hij (Nat.lt_succ_self j)⟩
  · rintro ⟨h, hadj⟩ k hik hkj
    rcases Nat.eq_or_lt_of_le (Nat.le_of_lt_succ hkj) with rfl | hlt
    · exact hadj
    · exact h k hik hlt

variable [LinearOrder α]

/-- Each interval has elements, and ends before the next one begins. -/
structure InOrder (l : List (α × α)) : Prop where
  nonempty : ∀ s ∈ l, s.1 < s.2
  sorted : l.Pairwise fun s t => s.2 ≤ t.1

/-- Everything from `x` to `y` is in some interval. -/
def Covers (l : List (α × α)) (x y : α) : Prop :=
  ∀ a ∈ Set.Icc x y, ∃ s ∈ l, a ∈ Set.Ico s.1 s.2

namespace InOrder

variable {i j : Nat} {s t : α × α} {x y : α}

theorem le_of_lt (h : InOrder l) (hs : l[i]? = some s) (ht : l[j]? = some t) (hij : i < j) :
    s.2 ≤ t.1 := by
  obtain ⟨hi, rfl⟩ := List.getElem?_eq_some_iff.mp hs
  obtain ⟨hj, rfl⟩ := List.getElem?_eq_some_iff.mp ht
  exact List.pairwise_iff_getElem.mp h.sorted i j hi hj hij

theorem lt_of_getElem? (h : InOrder l) (hs : l[i]? = some s) : s.1 < s.2 :=
  h.nonempty s (mem_of_getElem? hs)

/-- Smaller elements are in earlier intervals. -/
theorem index_le (h : InOrder l) (hs : l[i]? = some s) (ht : l[j]? = some t)
    (hx : x ∈ Ico s.1 s.2) (hy : y ∈ Ico t.1 t.2) (hxy : x ≤ y) : i ≤ j := by
  by_contra hlt
  have hle : t.2 ≤ s.1 := h.le_of_lt ht hs (Nat.lt_of_not_le hlt)
  exact absurd (hxy.trans_lt hy.2) (not_lt.mpr (hle.trans hx.1))

/-- An element is in one interval at most. -/
theorem index_unique (h : InOrder l) (hs : l[i]? = some s) (ht : l[j]? = some t)
    (hx : x ∈ Ico s.1 s.2) (hx' : x ∈ Ico t.1 t.2) : i = j :=
  Nat.le_antisymm (h.index_le hs ht hx hx' le_rfl) (h.index_le ht hs hx' hx le_rfl)

theorem exists_mem_of_contiguous (hs : l[i]? = some s) (ht : l[j]? = some t) (hij : i ≤ j)
    (h : Contiguous l i j) (hx : s.1 ≤ x) (hx' : x < t.2) : ∃ u ∈ l, x ∈ Ico u.1 u.2 := by
  induction j, hij using Nat.le_induction generalizing t with
  | base =>
    obtain rfl : s = t := mem_unique hs ht
    exact ⟨s, mem_of_getElem? hs, hx, hx'⟩
  | succ j hij ih =>
    obtain ⟨u, v, hu, hv, hadj⟩ := h j hij (Nat.lt_succ_self j)
    obtain rfl : v = t := mem_unique hv ht
    rcases lt_or_ge x v.1 with hlt | hge
    · exact ih hu (fun k hik hkj => h k hik (hkj.trans (Nat.lt_succ_self j))) (hadj ▸ hlt)
    · exact ⟨v, mem_of_getElem? hv, hge, hx'⟩

/-- The end of an interval that is not adjacent to the next one is in no interval. -/
theorem end_notMem_of_gap (h : InOrder l) {k : Nat} (hs : l[k]? = some s)
    (hgap : ¬ Adjacent l k) {u : α × α} (hu : u ∈ l) : s.2 ∉ Ico u.1 u.2 := by
  intro hmem
  obtain ⟨m, hm⟩ := List.mem_iff_getElem?.mp hu
  rcases Nat.lt_or_ge k m with hlt | hge
  · have hnext : k + 1 < l.length := by
      have := (List.getElem?_eq_some_iff.mp hm).1
      omega
    have hv := List.getElem?_eq_getElem hnext
    -- interval `m` begins at `s.2`, so the next one, which is not later, does too
    have hle : l[k + 1].1 ≤ u.1 := by
      rcases Nat.eq_or_lt_of_le (Nat.succ_le_of_lt hlt) with rfl | hlt'
      · rw [mem_unique hv hm]
      · exact (h.lt_of_getElem? hv).le.trans (h.le_of_lt hv hm hlt')
    have hge : s.2 ≤ l[k + 1].1 := h.le_of_lt hs hv (Nat.lt_succ_self k)
    exact hgap ⟨s, _, hs, hv, le_antisymm hge (hle.trans hmem.1)⟩
  · rcases Nat.eq_or_lt_of_le hge with rfl | hlt
    · rw [mem_unique hs hm] at hmem
      exact absurd hmem.2 (lt_irrefl _)
    · have hle : u.2 ≤ s.1 := h.le_of_lt hm hs hlt
      exact absurd (hmem.2.trans_le hle) (not_lt.mpr (h.lt_of_getElem? hs).le)

/-- **From one element of an interval to one of a later interval, everything is covered iff there
is no gap between the intervals on the way.** -/
theorem covers_iff_contiguous (h : InOrder l) (hs : l[i]? = some s) (ht : l[j]? = some t)
    (hx : x ∈ Ico s.1 s.2) (hy : y ∈ Ico t.1 t.2) (hxy : x ≤ y) :
    Covers l x y ↔ Contiguous l i j := by
  constructor
  · intro hcov k hik hkj
    by_contra hgap
    have hk : k < l.length := hkj.trans (List.getElem?_eq_some_iff.mp ht).1
    have hu := List.getElem?_eq_getElem hk
    -- the end of interval `k` is between `x` and `y`
    have hbefore : x ≤ l[k].2 := by
      rcases Nat.eq_or_lt_of_le hik with rfl | hlt
      · rw [← mem_unique hs hu]
        exact hx.2.le
      · exact hx.2.le.trans ((h.le_of_lt hs hu hlt).trans (h.lt_of_getElem? hu).le)
    have hafter : l[k].2 ≤ y := (h.le_of_lt hu ht hkj).trans hy.1
    obtain ⟨v, hv, hmem⟩ := hcov _ ⟨hbefore, hafter⟩
    exact h.end_notMem_of_gap hu hgap hv hmem
  · intro hcont a ha
    exact exists_mem_of_contiguous hs ht (h.index_le hs ht hx hy hxy) hcont (hx.1.trans ha.1)
      (ha.2.trans_lt hy.2)

end InOrder

end Intervals

end Kerninst
