import Kerninst.Driver.TableInvariant

/-!
# Packing the trap-patch hash table

`hash_table_pack` is two loops. The first (`packLoop`) compacts: everything
below `to` is live, everything above `from` has been copied or was flagged, so
the live pairs of the elements up to `from` stay the same collection. The second
recreates the bins over the compacted elements.

The first loop has one flaw. When the element at `from` is copied to the slot
just below it, `to` catches up with `from` and the loop ends with the copied
element still standing at `from`, where the second loop links it again. This
happens exactly when, of `n + 1` live elements, the last belongs in slot `n`, slot
`n` is flagged and slot `n + 1` is live: `PackSafe` excludes it
(`hashTablePack_spec`).
-/

namespace Kerninst

open List Function

variable {α : Type}

/-- Compaction of the elements up to `last` does not end on a slot whose element
it has just copied to the slot below. -/
def PackSafe (elems : Nat → HashTableElem α) (last : Nat) : Prop :=
  ∀ n, (livePairs elems (last + 1)).length = n + 1 → n + 1 ≤ last →
    ¬((elems n).removed = true ∧ (elems (n + 1)).removed = false)

variable {elems : Nat → HashTableElem α}

theorem packSafe_of_live {f : Nat} (h : ∀ i < f, (elems i).removed = false) : PackSafe elems f := by
  rintro n - hle ⟨hr, -⟩
  rw [h n hle] at hr
  cases hr

/-- A flagged element at `from` is dropped without loss. -/
theorem livePairs_drop {f : Nat} (hr : (elems f).removed = true) :
    livePairs elems (f + 1) = livePairs elems f := by
  rw [livePairs_succ, hr]
  simp

theorem packSafe_drop {f : Nat} (hr : (elems (f + 1)).removed = true) :
    PackSafe elems (f + 1) ↔ PackSafe elems f := by
  unfold PackSafe
  rw [livePairs_drop hr]
  refine forall₂_congr fun n hn => ⟨fun h hle => h (Nat.le_succ_of_le hle), fun h hle => ?_⟩
  rcases Nat.le_succ_iff.mp hle with hle | heq
  · exact h hle
  · rintro ⟨-, hl⟩
    rw [heq, hr] at hl
    cases hl

/-- Copying an element further down than to the slot below does not change whether the flaw is
met. -/
theorem packSafe_copy {t f : Nat} (htf : t < f) (hlive : ∀ i < t, (elems i).removed = false)
    (hr : (elems t).removed = true) {e : HashTableElem α} (he : e.removed = false)
    (hcopy : (livePairs (update elems t e) (f + 1)).Perm (livePairs elems (f + 1 + 1))) :
    PackSafe elems (f + 1) ↔ PackSafe (update elems t e) f := by
  have hsame : ∀ i, t < i → update elems t e i = elems i := fun i hi =>
    update_of_ne (Nat.ne_of_gt hi) ..
  unfold PackSafe
  rw [hcopy.length_eq]
  refine forall₂_congr fun n hn => ⟨fun h hle => ?_, fun h hle => ?_⟩
  · rintro ⟨hr', hl'⟩
    rcases Nat.lt_trichotomy n t with hlt | rfl | hgt
    · rw [update_of_ne (Nat.ne_of_lt hlt), hlive n hlt] at hr'
      cases hr'
    · rw [update_self, he] at hr'
      cases hr'
    · rw [hsame n hgt] at hr'
      rw [hsame (n + 1) (by omega)] at hl'
      exact h (Nat.le_succ_of_le hle) ⟨hr', hl'⟩
  · rintro ⟨hr', hl'⟩
    rcases Nat.lt_trichotomy n t with hlt | rfl | hgt
    · rw [hlive n hlt] at hr'
      cases hr'
    · -- the slots up to `n + 1` would be live, and there are only `n + 1` live pairs
      have hfull : ∀ i < n + 2, (update elems n e i).removed = false := by
        intro i hi
        rcases Nat.lt_trichotomy i n with hi' | rfl | hi'
        · rw [update_of_ne (Nat.ne_of_lt hi')]
          exact hlive i hi'
        · rw [update_self, he]
        · rw [hsame i hi', show i = n + 1 by omega, hl']
      have hlen := length_livePairs_of_live hfull
      have hmono : (livePairs (update elems n e) (n + 2)).length ≤
          (livePairs (update elems n e) (f + 1)).length :=
        length_livePairs_mono _ (by omega)
      rw [hcopy.length_eq] at hmono
      omega
    · rcases Nat.le_succ_iff.mp hle with hle' | heq
      · exact h hle' ⟨by rw [hsame n hgt, hr'], by rw [hsame (n + 1) (by omega), hl']⟩
      · -- of the slots up to `n` one is flagged
        obtain rfl : n = f := by omega
        have hdrop : livePairs (update elems t e) (n + 1) = _ :=
          livePairs_drop (by rw [hsame n hgt, hr'])
        have hle := length_livePairs_le (update elems t e) n
        rw [← hcopy.length_eq, hdrop] at hn
        omega

/-- **Compaction.** The loop stops with every slot below the final `to` live. The live pairs of the
slots up to it are those it started from, unless it meets the flaw: then there is one more. -/
theorem packLoop_spec : ∀ (fuel : Nat) (elems : Nat → HashTableElem α) (t f : Nat),
    t ≤ f → f - t < fuel → (∀ i < t, (elems i).removed = false) →
    ∃ elems' t', packLoop fuel elems t f = some (elems', t') ∧ t' ≤ f ∧
      (∀ i < t', (elems' i).removed = false) ∧
      (PackSafe elems f → (livePairs elems' (t' + 1)).Perm (livePairs elems (f + 1))) ∧
      (¬ PackSafe elems f →
        (livePairs elems' (t' + 1)).length = (livePairs elems (f + 1)).length + 1) := by
  intro fuel
  induction fuel with
  | zero => intro elems t f _ hfuel; exact absurd hfuel (Nat.not_lt_zero _)
  | succ fuel ih =>
    intro elems t f htf hfuel hlive
    by_cases heq : t = f
    · subst heq
      exact ⟨elems, t, by simp [packLoop], htf, hlive, fun _ => .refl _,
        fun h => absurd (packSafe_of_live hlive) h⟩
    have hlt : t < f := Nat.lt_of_le_of_ne htf heq
    cases hr : (elems t).removed with
    | false =>
      -- `to` moves over a live element
      obtain ⟨elems', t', hrun, hrest⟩ :=
        ih elems (t + 1) f hlt (by omega) (live_succ hlive hr)
      exact ⟨elems', t', by simp [packLoop, heq, hr, hrun], hrest⟩
    | true =>
      obtain ⟨f, rfl⟩ : ∃ g, f = g + 1 := ⟨f - 1, by omega⟩
      cases hl : (elems (f + 1)).removed with
      | true =>
        -- `from` moves over a flagged element
        obtain ⟨elems', t', hrun, ht', hlv, hrest⟩ := ih elems t f (by omega) (by omega) hlive
        rw [packSafe_drop hl, livePairs_drop hl]
        exact ⟨elems', t', by simp [packLoop, heq, hr, hl, hrun], by omega, hlv, hrest⟩
      | false =>
        let e : HashTableElem α :=
          { theKey := (elems (f + 1)).theKey, theData := (elems (f + 1)).theData,
            next := none, removed := false }
        have hcopy : (livePairs (update elems t e) (f + 1)).Perm
            (livePairs elems (f + 1 + 1)) := by
          rw [livePairs_succ elems, hl]
          exact (livePairs_update_perm hlt hr rfl).trans (perm_append_singleton ..).symm
        have hlive' : ∀ i < t + 1, (update elems t e i).removed = false := by
          refine live_succ (fun i hi => ?_) (by rw [update_self])
          rw [update_of_ne (Nat.ne_of_lt hi)]
          exact hlive i hi
        by_cases hcatch : t = f
        · -- `to` catches up with `from`, where the element still is
          subst hcatch
          have hlast : update elems t e (t + 1) = elems (t + 1) :=
            update_of_ne (by omega) ..
          have hlen : (livePairs elems (t + 1 + 1)).length = t + 1 := by
            rw [← hcopy.length_eq, length_livePairs_of_live hlive']
          refine ⟨update elems t e, t + 1, ?_, le_rfl, hlive',
            fun hsafe => absurd ⟨hr, hl⟩ (hsafe t hlen le_rfl), fun _ => ?_⟩
          · obtain ⟨fuel, rfl⟩ : ∃ g, fuel = g + 1 := ⟨fuel - 1, by omega⟩
            simp [packLoop, hr, hl, e]
          · rw [hlen, length_livePairs_of_live (live_succ hlive' (by rw [hlast, hl]))]
        · -- the element at `from` is copied down to `to`
          obtain ⟨elems', t', hrun, ht', hlv, hsafe, hother⟩ :=
            ih (update elems t e) (t + 1) f (by omega) (by omega) hlive'
          rw [packSafe_copy (by omega) hlive hr rfl hcopy, ← hcopy.length_eq]
          refine ⟨elems', t', ?_, by omega, hlv, fun h => (hsafe h).trans hcopy, hother⟩
          simp only [packLoop, if_neg heq, hr, hl, Bool.not_true, Bool.not_false,
            Bool.false_eq_true, if_false, if_true]
          rw [if_pos (by omega)]
          exact hrun

/-! ## Recreating the bins -/

/-- Linking an element changes no live pair. -/
theorem link_agrees (ht : HashTable α) (ndx i : Nat) :
    ((ht.link ndx).allElems i).removed = (ht.allElems i).removed ∧
      ((ht.link ndx).allElems i).pair = (ht.allElems i).pair := by
  by_cases hi : i = ndx
  · subst hi; simp [HashTable.link, HashTableElem.pair]
  · simp [HashTable.link, update_of_ne hi]

/-- **Relinking.** Over a region of live elements, the second loop links them all, in order. -/
theorem relink_range : ∀ (n : Nat), n ≤ htMaxNumElems → (∀ i < n, (elems i).removed = false) →
    ∃ ht' : HashTable α,
      (range n).foldl relink { allElems := elems, bins := fun _ => none, numElems := 0 }
        = ht' ∧ (((livePairs elems n).map Prod.fst).Nodup → ht'.Ok) ∧ ht'.numElems = n ∧
      ∀ i, (ht'.allElems i).removed = (elems i).removed ∧
        (ht'.allElems i).pair = (elems i).pair := by
  intro n
  induction n with
  | zero =>
    intro _ _
    exact ⟨_, rfl, fun _ => HashTable.Ok.hashTableInitialize
      { allElems := elems, bins := fun _ => none, numElems := 0 }, rfl, fun _ => ⟨rfl, rfl⟩⟩
  | succ n ih =>
    intro hn hlive
    have hln := hlive n (Nat.lt_succ_self n)
    obtain ⟨ht, hfold, hok, hnum, hag⟩ :=
      ih (by omega) (fun i hi => hlive i (Nat.lt_succ_of_lt hi))
    have hkey : ∀ i, (ht.allElems i).theKey = (elems i).theKey := fun i =>
      congrArg Prod.fst (hag i).2
    have hstep : relink ht n = ht.link n := by
      simp [relink, (hag n).1, hln]
    refine ⟨ht.link n, by rw [range_succ, foldl_append, hfold]; exact hstep,
      fun hkeys => ?_, congrArg Nat.succ hnum, fun i => ?_⟩
    · rw [livePairs_succ, hln, map_append] at hkeys
      rw [nodup_append] at hkeys
      obtain ⟨hkeys', -, hdisj⟩ := hkeys
      subst hnum
      refine (hok hkeys').link (by omega) fun i hi hij => ?_
      rw [hkey, hkey] at hij
      have hmem : (elems i).theKey ∈ (livePairs elems ht.numElems).map Prod.fst :=
        mem_map.mpr ⟨(elems i).pair,
          mem_livePairs.mpr ⟨i, hi, hlive i (Nat.lt_succ_of_lt hi), rfl, rfl⟩, rfl⟩
      exact hdisj _ hmem _ (mem_cons_self ..) hij
    · have hl := link_agrees ht n i
      exact ⟨hl.1.trans (hag i).1, hl.2.trans (hag i).2⟩

/-- The slot where the two pointers met is left out if it is flagged. -/
theorem relink_compacted {t : Nat} (ht : t < htMaxNumElems)
    (hlive : ∀ i < t, (elems i).removed = false) :
    ∃ ht' : HashTable α, (range (t + 1)).foldl relink
        { allElems := elems, bins := fun _ => none, numElems := 0 } = ht' ∧
      (((livePairs elems (t + 1)).map Prod.fst).Nodup → ht'.Ok) ∧
      ht'.pairs = livePairs elems (t + 1) ∧ ht'.numElems = ht'.pairs.length ∧
      ∀ i < ht'.numElems, (ht'.allElems i).removed = false := by
  obtain ⟨n, hn, hliven, hpairs, hlast⟩ :
      ∃ n ≤ htMaxNumElems, (∀ i < n, (elems i).removed = false) ∧
      livePairs elems (t + 1) = livePairs elems n ∧
      (n = t + 1 ∨ n = t ∧ (elems t).removed = true) := by
    cases hr : (elems t).removed with
    | true => exact ⟨t, ht.le, hlive, livePairs_drop hr, .inr ⟨rfl, rfl⟩⟩
    | false => exact ⟨t + 1, ht, live_succ hlive hr, rfl, .inl rfl⟩
  obtain ⟨ht', hfold, hok, hnum, hag⟩ := relink_range n hn hliven
  have hpairs' : ht'.pairs = livePairs elems n := by
    rw [HashTable.pairs, hnum]
    exact livePairs_congr fun i _ => hag i
  refine ⟨ht', ?_, hpairs ▸ hok, hpairs'.trans hpairs.symm, ?_, fun i hi => ?_⟩
  · obtain rfl | ⟨rfl, hr⟩ := hlast
    · exact hfold
    · rw [range_succ, foldl_append, hfold]
      simp [relink, (hag n).1, hr]
  · rw [hpairs', hnum, length_livePairs_of_live hliven]
  · rw [(hag i).1]
    exact hliven i (hnum ▸ hi)

/-- **Pack.** A pack of a nonempty well-formed table ends in a table without flagged elements. If
it avoids the flaw, the table is well formed and has the same live pairs as before. Otherwise it
has one more. -/
theorem hashTablePack_spec {ht : HashTable α} (h : ht.Ok) (hn : 0 < ht.numElems) :
    ∃ ht', hashTablePack ht = some ht' ∧ ht'.numElems = ht'.pairs.length ∧
      (∀ i < ht'.numElems, (ht'.allElems i).removed = false) ∧
      (PackSafe ht.allElems (ht.numElems - 1) → ht'.Ok ∧ ht'.pairs.Perm ht.pairs) ∧
      (¬ PackSafe ht.allElems (ht.numElems - 1) → ht'.pairs.length = ht.pairs.length + 1) := by
  obtain ⟨elems, t, hloop, hle, hlive, hsafe, hother⟩ :=
    packLoop_spec (ht.numElems + 1) ht.allElems 0 (ht.numElems - 1) (Nat.zero_le _) (by omega)
      (fun i hi => absurd hi (Nat.not_lt_zero i))
  rw [Nat.sub_add_cancel hn] at hsafe hother
  have hcap := h.numElems_le
  obtain ⟨ht', hfold, hok, hpairs, hnum, hlive'⟩ := relink_compacted (by omega) hlive
  refine ⟨ht', ?_, hnum, hlive', fun hs => ?_, fun hs => ?_⟩
  · rw [hashTablePack, if_neg (by omega), hloop]
    exact congrArg some hfold
  · refine ⟨hok (((hsafe hs).map Prod.fst).nodup_iff.mpr h.nodup_keys), ?_⟩
    rw [hpairs]
    exact hsafe hs
  · rw [hpairs]
    exact hother hs

end Kerninst
