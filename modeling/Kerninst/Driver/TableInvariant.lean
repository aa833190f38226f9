import Mathlib.Data.List.Nodup
import Mathlib.Data.List.Perm.Subperm
import Mathlib.Data.List.Range
import Kerninst.Driver.HashTable

/-!
# The invariant of the trap-patch hash table

`HashTable.Ok` is what every operation keeps: the defined elements of each bin
are linked from the bin's head, and no two defined elements hold the same key,
*flagged elements included*. Under it a search is a search of the defined
elements (`HashTable.Ok.find`), and there are only two ways to touch the table:

* overwrite an element that keeps its key and its link (`Ok.setElem`);
* push the next undefined element on its bin (`Ok.link`).
-/

namespace Kerninst

open List Function HashTable

variable {α : Type}

/-- The well-formed tables. -/
structure HashTable.Ok (ht : HashTable α) : Prop where
  /-- the defined elements fit in the array -/
  numElems_le : ht.numElems ≤ htMaxNumElems
  /-- each bin links exactly the defined elements whose key hashes to it -/
  chained : ∀ bin, ∃ l, Links (fun i => (ht.allElems i).next) (ht.bins bin) l ∧
    ∀ i, i ∈ l ↔ i < ht.numElems ∧ binOf (ht.allElems i).theKey = bin
  /-- no two defined elements hold the same key -/
  keys_inj : ∀ i < ht.numElems, ∀ j < ht.numElems,
    (ht.allElems i).theKey = (ht.allElems j).theKey → i = j

namespace HashTable.Ok

variable {ht : HashTable α}

/-- The empty table is well formed, whatever the memory held before. -/
theorem hashTableInitialize (ht : HashTable α) : (hashTableInitialize ht).Ok where
  numElems_le := Nat.zero_le _
  chained _ := ⟨[], rfl, by simp [Kerninst.hashTableInitialize]⟩
  keys_inj i hi := absurd hi (Nat.not_lt_zero i)

/-- **Search.** Looking for a key in its bin stops, and finds the one defined
element with that key, flagged or not. -/
theorem find (h : ht.Ok) (key : Key) : ∃ r, hashTableKeyandbin2elem ht key (binOf key) = some r ∧
      ∀ i, r = some i ↔ i < ht.numElems ∧ (ht.allElems i).theKey = key := by
  obtain ⟨l, hl, hmem⟩ := h.chained (binOf key)
  have hlen : l.length ≤ htMaxNumElems := by
    have hsub : l ⊆ range ht.numElems := fun i hi =>
      mem_range.mpr ((hmem i).mp hi).1
    have := (subperm_of_subset hl.nodup hsub).length_le
    rw [length_range] at this
    exact this.trans h.numElems_le
  refine ⟨_, chase_eq hl (Nat.lt_succ_of_le hlen), fun i => ⟨fun hf => ?_, fun hi => ?_⟩⟩
  · have hkey : (ht.allElems i).theKey = key := by simpa using find?_some hf
    exact ⟨((hmem i).mp (mem_of_find?_eq_some hf)).1, hkey⟩
  · have hil : i ∈ l := (hmem i).mpr ⟨hi.1, by rw [hi.2]⟩
    rcases hf : l.find? (fun ndx => (ht.allElems ndx).theKey == key) with _ | j
    · exact absurd hi.2 (by simpa using find?_eq_none.mp hf i hil)
    · have hj : (ht.allElems j).theKey = key := by simpa using find?_some hf
      have hjn := ((hmem j).mp (mem_of_find?_eq_some hf)).1
      rw [h.keys_inj i hi.1 j hjn (hi.2.trans hj.symm)]

/-- Overwriting an element in place keeps the table well formed when its key and
its link stay. -/
theorem setElem (h : ht.Ok) {ndx : Nat} {e : HashTableElem α}
    (hkey : e.theKey = (ht.allElems ndx).theKey) (hnext : e.next = (ht.allElems ndx).next) :
    (ht.setElem ndx e).Ok := by
  have hk : ∀ i, ((ht.setElem ndx e).allElems i).theKey = (ht.allElems i).theKey := by
    intro i
    by_cases hi : i = ndx
    · subst hi; simpa [HashTable.setElem] using hkey
    · simp [HashTable.setElem, update_of_ne hi]
  have hx : (fun i => ((ht.setElem ndx e).allElems i).next) = fun i => (ht.allElems i).next := by
    funext i
    by_cases hi : i = ndx
    · subst hi; simpa [HashTable.setElem] using hnext
    · simp [HashTable.setElem, update_of_ne hi]
  refine ⟨h.numElems_le, fun bin => ?_, fun i hi j hj hij => ?_⟩
  · obtain ⟨l, hl, hmem⟩ := h.chained bin
    refine ⟨l, by rw [hx]; exact hl, fun i => ?_⟩
    rw [hk]
    exact hmem i
  · rw [hk, hk] at hij
    exact h.keys_inj i hi j hj hij

/-- Overwriting an element that is not defined yet changes nothing of the
invariant. -/
theorem setElem_undefined (h : ht.Ok) (e : HashTableElem α) :
    (ht.setElem ht.numElems e).Ok := by
  have hsame : ∀ i < ht.numElems,
      (ht.setElem ht.numElems e).allElems i = ht.allElems i := fun i hi =>
    update_of_ne (Nat.ne_of_lt hi) ..
  refine ⟨h.numElems_le, fun bin => ?_, fun i hi j hj hij => ?_⟩
  · obtain ⟨l, hl, hmem⟩ := h.chained bin
    refine ⟨l, Links.congr (fun i hi => ?_) hl, fun i => ?_⟩
    · exact congrArg HashTableElem.next (hsame i ((hmem i).mp hi).1)
    · rw [hmem i]
      refine and_congr_right fun hi => ?_
      rw [hsame i hi]
  · rw [hsame i hi, hsame j hj] at hij
    exact h.keys_inj i hi j hj hij

/-- The links of a bin after element `ndx` is pushed on its own. -/
theorem links_link (h : ht.Ok) (bin : Nat) :
    ∃ l, Links (fun i => ((ht.link ht.numElems).allElems i).next)
        ((ht.link ht.numElems).bins bin) l ∧
      ∀ i, i ∈ l ↔ (i < ht.numElems ∧ binOf (ht.allElems i).theKey = bin) ∨
        (i = ht.numElems ∧ binOf (ht.allElems ht.numElems).theKey = bin) := by
  obtain ⟨l, hl, hmem⟩ := h.chained bin
  have hnot : ht.numElems ∉ l := fun hin => Nat.lt_irrefl _ ((hmem _).mp hin).1
  have hl' : Links (fun i => ((ht.link ht.numElems).allElems i).next) (ht.bins bin) l := by
    refine Links.congr (fun i hi => ?_) hl
    have hne : i ≠ ht.numElems := fun he => hnot (he ▸ hi)
    simp [link, update_of_ne hne]
  by_cases hb : binOf (ht.allElems ht.numElems).theKey = bin
  · refine ⟨ht.numElems :: l, ⟨by simp [link, hb], ?_⟩, fun i => ?_⟩
    · have hnext : ((ht.link ht.numElems).allElems ht.numElems).next = ht.bins bin := by
        simp [link, hb]
      change Links _ ((ht.link ht.numElems).allElems ht.numElems).next l
      rw [hnext]
      exact hl'
    · simp only [mem_cons, hmem, hb, and_true]
      exact or_comm
  · refine ⟨l, ?_, fun i => ?_⟩
    · have hbin : (ht.link ht.numElems).bins bin = ht.bins bin :=
        update_of_ne (fun he => hb he.symm) ..
      rw [hbin]
      exact hl'
    · simp [hmem, hb]

/-- Pushing the next undefined element on its bin keeps the table well formed
when no defined element holds its key. -/
theorem link (h : ht.Ok) (hroom : ht.numElems < htMaxNumElems)
    (hfresh : ∀ i < ht.numElems,
      (ht.allElems i).theKey ≠ (ht.allElems ht.numElems).theKey) :
    (ht.link ht.numElems).Ok := by
  have hkey : ∀ i, ((ht.link ht.numElems).allElems i).theKey = (ht.allElems i).theKey := by
    intro i
    by_cases hi : i = ht.numElems
    · subst hi; simp [HashTable.link]
    · simp [HashTable.link, update_of_ne hi]
  refine ⟨hroom, fun bin => ?_, fun i hi j hj hij => ?_⟩
  · obtain ⟨l, hl, hmem⟩ := h.links_link bin
    refine ⟨l, hl, fun i => ?_⟩
    rw [hmem, hkey]
    constructor
    · rintro (⟨hi, hb⟩ | ⟨rfl, hb⟩)
      · exact ⟨Nat.lt_succ_of_lt hi, hb⟩
      · exact ⟨Nat.lt_succ_self _, hb⟩
    · rintro ⟨hi, hb⟩
      rcases Nat.lt_succ_iff_lt_or_eq.mp hi with hlt | rfl
      · exact Or.inl ⟨hlt, hb⟩
      · exact Or.inr ⟨rfl, hb⟩
  · rw [hkey, hkey] at hij
    rcases Nat.lt_succ_iff_lt_or_eq.mp hi with hi | rfl <;>
      rcases Nat.lt_succ_iff_lt_or_eq.mp hj with hj | rfl
    · exact h.keys_inj i hi j hj hij
    · exact absurd hij (hfresh i hi)
    · exact absurd hij.symm (hfresh j hj)
    · rfl

end HashTable.Ok

/-! ## Live pairs -/

/-- The key and datum of an element. -/
def HashTableElem.pair (e : HashTableElem α) : Key × Option α := (e.theKey, e.theData)

/-- The keys and data of the first `n` elements that are not flagged. -/
def livePairs (elems : Nat → HashTableElem α) (n : Nat) : List (Key × Option α) :=
  ((List.range n).filter fun i => !(elems i).removed).map fun i => (elems i).pair

/-- The live pairs of a table. -/
def HashTable.pairs (ht : HashTable α) : List (Key × Option α) :=
  livePairs ht.allElems ht.numElems

variable {elems : Nat → HashTableElem α}

theorem mem_livePairs {n : Nat} {k : Key} {d : Option α} : (k, d) ∈ livePairs elems n ↔
      ∃ i < n, (elems i).removed = false ∧ (elems i).theKey = k ∧ (elems i).theData = d := by
  simp [livePairs, HashTableElem.pair, and_assoc]

theorem livePairs_succ (elems : Nat → HashTableElem α) (n : Nat) : livePairs elems (n + 1) =
      livePairs elems n ++ if (elems n).removed then [] else [(elems n).pair] := by
  unfold livePairs
  rw [range_succ, filter_append, map_append]
  cases hr : (elems n).removed <;> simp [hr]

/-- The live pairs do not depend on the links. -/
theorem livePairs_congr {elems elems' : Nat → HashTableElem α} {n : Nat}
    (h : ∀ i < n, (elems' i).removed = (elems i).removed ∧ (elems' i).pair = (elems i).pair) :
    livePairs elems' n = livePairs elems n := by
  induction n with
  | zero => rfl
  | succ n ih =>
    rw [livePairs_succ, livePairs_succ, ih fun i hi => h i (Nat.lt_succ_of_lt hi),
      (h n (Nat.lt_succ_self n)).1, (h n (Nat.lt_succ_self n)).2]

/-- A region without flagged elements has one live pair per element. -/
theorem length_livePairs_of_live {n : Nat} (h : ∀ i < n, (elems i).removed = false) :
    (livePairs elems n).length = n := by
  induction n with
  | zero => rfl
  | succ n ih =>
    rw [livePairs_succ, length_append, ih fun i hi => h i (Nat.lt_succ_of_lt hi),
      h n (Nat.lt_succ_self n)]
    rfl

theorem live_succ {n : Nat}
    (h : ∀ i < n, (elems i).removed = false) (hn : (elems n).removed = false) :
    ∀ i < n + 1, (elems i).removed = false :=
  fun _ hi => (Nat.lt_succ_iff_lt_or_eq.mp hi).elim (h _) fun heq => heq ▸ hn

theorem length_livePairs_le (elems : Nat → HashTableElem α) (n : Nat) :
    (livePairs elems n).length ≤ n := by
  simpa [livePairs] using length_filter_le (fun i => !(elems i).removed) (range n)

theorem length_livePairs_mono (elems : Nat → HashTableElem α) {m n : Nat} (h : m ≤ n) :
    (livePairs elems m).length ≤ (livePairs elems n).length := by
  induction h with
  | refl => exact le_rfl
  | step _ ih =>
    rw [livePairs_succ, length_append]
    exact Nat.le_add_right_of_le ih

/-- Overwriting a flagged element by a live one adds one pair. -/
theorem livePairs_update_perm {i n : Nat} {e : HashTableElem α} (hi : i < n)
    (hr : (elems i).removed = true) (he : e.removed = false) :
    (livePairs (Function.update elems i e) n).Perm (e.pair :: livePairs elems n) := by
  induction n with
  | zero => exact absurd hi (Nat.not_lt_zero i)
  | succ n ih =>
    rw [livePairs_succ, livePairs_succ]
    rcases Nat.lt_succ_iff_lt_or_eq.mp hi with hlt | rfl
    · rw [update_of_ne (Nat.ne_of_gt hlt)]
      exact (ih hlt).append_right _
    · have hbelow : livePairs (update elems i e) i = livePairs elems i :=
        livePairs_congr fun j hj => by simp [update_of_ne (Nat.ne_of_lt hj)]
      rw [hbelow, update_self, he, hr]
      simp only [Bool.false_eq_true, if_false, if_true, append_nil]
      exact perm_append_singleton ..

/-- The live pairs of a well-formed table have distinct keys. -/
theorem HashTable.Ok.nodup_keys {ht : HashTable α} (h : ht.Ok) :
    (ht.pairs.map Prod.fst).Nodup := by
  unfold pairs livePairs
  rw [map_map]
  refine Nodup.map_on ?_ (nodup_range.filter _)
  intro i hi j hj hij
  rw [mem_filter, mem_range] at hi hj
  exact h.keys_inj i hi.1 j hj.1 hij

end Kerninst
