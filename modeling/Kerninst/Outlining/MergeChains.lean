import Mathlib.Data.List.Destutter
import Kerninst.Outlining.Chained

/-!
# The end of `merge_chains`

After its main loop `merge_chains` checks that no chain id was lost, and tidies up the
inter-chain edges: later merging may have put both ends of such an edge into one chain.
`mergeChains_spec` is the specification of the whole function.
-/

namespace Kerninst

open List
open EdgeEntry (ends)

variable {n : Nat} {hot : Nat → Bool} {f : Nat → ChainVecEntry} {chain : Nat → List Nat}
  {edges : List EdgeEntry} {s : MergeState}

/-! ## Sorted ids -/

theorem sortIds_perm (ids : List Nat) : (sortIds ids).Perm ids := perm_insertionSort ..

theorem sortIds_pairwise (ids : List Nat) : (sortIds ids).Pairwise (· ≤ ·) :=
  pairwise_insertionSort ..

theorem sortIds_eq_of_perm {ids ids' : List Nat} (h : ids.Perm ids') : sortIds ids = sortIds ids' :=
  ((sortIds_perm ids).trans (h.trans (sortIds_perm ids').symm)).eq_of_pairwise
    (fun _ _ _ _ hab hba => Nat.le_antisymm hab hba) (sortIds_pairwise _) (sortIds_pairwise _)

theorem isChain_sortIds {ids : List Nat} (h : ids.Nodup) : (sortIds ids).IsChain (· ≠ ·) :=
  ((sortIds_perm ids).nodup_iff.mpr h).isChain

/-! ## No chain id is lost -/

theorem Merging.mem_ids_iff (h : Merging n hot edges f chain s) (k : Nat) :
    k ∈ s.theChainsVec.map (·.chainId) ↔ k ∈ s.chainId2HeadOfChain := by
  rw [h.chained.mem_heads_iff, h.vec, table, map_map]
  simp

theorem Merging.checkChainIds (h : Merging n hot edges f chain s) :
    s.checkChainIds n = some () := by
  generalize hids : s.theChainsVec.map (·.chainId) = ids
  have hmem : ∀ k, k ∈ (sortIds ids).dedup ↔ k ∈ s.chainId2HeadOfChain := by
    intro k
    rw [mem_dedup, (sortIds_perm ids).mem_iff, ← hids, h.mem_ids_iff]
  have hkeys : s.chainId2HeadOfChain.keys.Perm (sortIds ids).dedup := by
    refine (perm_ext_iff_of_nodup s.chainId2HeadOfChain.keys_nodup (nodup_dedup _)).mpr fun k => ?_
    rw [hmem, AList.mem_keys]
  have hused : ∀ k, k ∈ s.chainId2HeadOfChain ↔ chain k ≠ [] := by
    intro k
    rw [← AList.lookup_isSome, h.chained.head, isSome_head?]
  have hall : ((sortIds ids).dedup ++ s.chainIdsThatNoLongerExist).Perm (range n) := by
    refine perm_range ?_ fun k => ?_
    · refine nodup_append.mpr ⟨nodup_dedup _, h.gone_nodup, ?_⟩
      rintro k hk _ hgone rfl
      exact (hused k).mp ((hmem k).mp hk) ((h.mem_gone k).mp hgone).2
    · rw [mem_append, hmem, hused, h.mem_gone]
      refine ⟨fun hk => hk.elim h.chained.id_lt And.left, fun hk => ?_⟩
      by_cases hnil : chain k = []
      · exact .inr ⟨hk, hnil⟩
      · exact .inl hnil
  have hsorted := (sortIds_eq_of_perm hall).trans pairwise_le_range.insertionSort_eq
  simp only [MergeState.checkChainIds, hids, (sortIds_pairwise ids).destutter_eq_dedup,
    hsorted, length_range]
  rw [check_pos (fun k hk => (h.mem_ids_iff k).mp (hids ▸ hk)), check_pos hkeys.length_eq,
    check_pos trivial]
  rfl

/-! ## Edges inside a chain -/

/-- The two ends are on different chains. -/
def BetweenChains (f : Nat → ChainVecEntry) (e : EdgeEntry) : Prop :=
  (f e.fromBbid).chainId ≠ (f e.toBbid).chainId

instance (f : Nat → ChainVecEntry) (e : EdgeEntry) : Decidable (BetweenChains f e) :=
  inferInstanceAs (Decidable (_ ≠ _))

theorem isIntraChain_table {e : EdgeEntry} (hfrom : e.fromBbid < n) (hto : e.toBbid < n) :
    isIntraChain (table n f) e = some (!decide (BetweenChains f e)) := by
  by_cases hid : (f e.fromBbid).chainId = (f e.toBbid).chainId
  · simp [isIntraChain, getElem?_table hfrom, getElem?_table hto, BetweenChains, hid]
  · simp [isIntraChain, getElem?_table hfrom, getElem?_table hto, BetweenChains, hid]

/-- Overwriting an edge by the last one and dropping that. -/
theorem set_getLast_dropLast (pre l : List EdgeEntry) (e b : EdgeEntry) :
    ((pre ++ e :: (l ++ [b])).set pre.length b).dropLast = pre ++ b :: l := by
  rw [set_append_right _ _ (Nat.le_refl _), Nat.sub_self, set_cons_zero,
    ← cons_append, ← append_assoc, dropLast_concat]

/-- **Tidying up** keeps exactly the edges between chains, in some order. -/
theorem removeIntraChainEdges_spec : ∀ (fuel : Nat) (pre post : List EdgeEntry),
    post.length < fuel → (∀ e ∈ post, e.fromBbid < n ∧ e.toBbid < n) →
    ∃ r, removeIntraChainEdges (table n f) fuel pre.length (pre ++ post) = some r ∧
      r.Perm (pre ++ post.filter fun e => decide (BetweenChains f e)) := by
  intro fuel
  induction fuel with
  | zero => intro pre post hfuel _; exact absurd hfuel (by simp)
  | succ fuel ih =>
    intro pre post hfuel hlt
    cases post with
    | nil =>
      refine ⟨pre, ?_, by simp⟩
      simp [removeIntraChainEdges]
    | cons e post =>
      obtain ⟨hfrom, hto⟩ := hlt e (by simp)
      simp only [length_cons] at hfuel
      have hget : (pre ++ e :: post)[pre.length]? = some e := by simp
      obtain ⟨back, hback⟩ : ∃ back, (pre ++ e :: post).getLast? = some back := by
        rw [getLast?_eq_some_getLast (by simp)]
        exact ⟨_, rfl⟩
      simp only [removeIntraChainEdges, hget, hback, isIntraChain_table hfrom hto, run_do]
      by_cases hb : BetweenChains f e
      · obtain ⟨r, hr, hperm⟩ := ih (pre ++ [e]) post (by omega)
          (fun e' he' => hlt e' (mem_cons_of_mem _ he'))
        refine ⟨r, ?_, ?_⟩
        · simpa [hb] using hr
        · simpa [hb] using hperm
      · rcases eq_nil_or_concat post with rfl | ⟨l, b, rfl⟩
        · obtain ⟨r, hr, hperm⟩ := ih pre [] (by simp; omega) (by simp)
          refine ⟨r, ?_, ?_⟩
          · simpa [hb] using hr
          · simpa [hb] using hperm
        · rw [concat_eq_append, ← cons_append, ← append_assoc, getLast?_concat] at hback
          obtain rfl := Option.some.inj hback
          obtain ⟨r, hr, hperm⟩ := ih pre (b :: l) (by simp at hfuel ⊢; omega) (by
            intro e' he'
            exact hlt e' (by simp at he' ⊢; tauto))
          refine ⟨r, ?_, ?_⟩
          · simp only [hb, decide_false, Bool.not_false, if_true, concat_eq_append,
              set_getLast_dropLast]
            exact hr
          · refine hperm.trans (Perm.append_left pre ?_)
            have hdrop : (e :: (l ++ [b])).filter (fun e => decide (BetweenChains f e)) =
                (l ++ [b]).filter fun e => decide (BetweenChains f e) :=
              filter_cons_of_neg (by simpa using hb)
            rw [concat_eq_append, hdrop]
            exact (perm_append_singleton b l).symm.filter _

/-! ## The whole function -/

/-- What `merge_chains` leaves behind: chains of blocks, and the edges between them, the
heaviest first. -/
structure Merged (n : Nat) (hot : Nat → Bool) (edges : List EdgeEntry)
    (f : Nat → ChainVecEntry) (chain : Nat → List Nat) (m : MergeState) : Prop where
  vec : m.theChainsVec = table n f
  chained : Chained n hot f m.chainId2HeadOfChain chain
  inter_sorted : m.interChainEdges.Pairwise fun e₁ e₂ => ¬ hottestEdgesFirst e₂ e₁
  inter_nodup : (m.interChainEdges.map EdgeEntry.ends).Nodup
  inter_lt : ∀ e ∈ m.interChainEdges, e.fromBbid < n ∧ e.toBbid < n
  inter_between : ∀ e ∈ m.interChainEdges, BetweenChains f e
  prev_iff : ∀ a b, (f b).prevBbidThisChain = some a ↔ (a, b) ∈ acceptedLinks hot edges

theorem noAdjacentEqual_of_nodup (h : (edges.map ends).Nodup) : NoAdjacentEqual edges :=
  (pairwise_map.mp h).isChain

/-- **`merge_chains`** trips no assertion and leaves every block on a chain. -/
theorem mergeChains_spec (srt : EdgeSort) (o : HotBlockCalcOracle)
    (hlt : ∀ e ∈ edges, e.fromBbid < n ∧ e.toBbid < n) (hnodup : (edges.map ends).Nodup) :
    ∃ m f chain, mergeChains srt o n (initialChainsVec n) edges = some m ∧
      Merged n o.isBlockInlined edges f chain m := by
  obtain ⟨heads, hheads, hlookup⟩ := initHeads n
  obtain ⟨s, hrun, f, chain, h⟩ := (Merging.initial o.isBlockInlined hlookup).run hlt
  have hltInter : ∀ e ∈ s.interChainEdges, e.fromBbid < n ∧ e.toBbid < n := fun e he =>
    hlt e (h.inter_sublist.subset he)
  obtain ⟨r, hr, hperm⟩ := removeIntraChainEdges_spec (f := f) (s.interChainEdges.length + 1) []
    s.interChainEdges (Nat.lt_succ_self _) hltInter
  rw [nil_append] at hr hperm
  have hsortPerm := (srt.perm r).trans hperm
  have hsub : ((srt.sort r).map ends).Nodup := by
    refine (hsortPerm.map ends).nodup_iff.mpr ?_
    exact ((filter_sublist.trans h.inter_sublist).map _).nodup hnodup
  have hmem : ∀ e ∈ srt.sort r, e ∈ s.interChainEdges ∧ BetweenChains f e := by
    intro e he
    simpa using hsortPerm.mem_iff.mp he
  refine ⟨{ s with interChainEdges := srt.sort r }, f, chain, ?_, ⟨h.vec, h.chained,
    srt.sorted r, hsub, fun e he => hltInter e (hmem e he).1, fun e he => (hmem e he).2,
    h.prev_iff⟩⟩
  rw [← h.vec, length_nil] at hr
  simp [mergeChains, hheads, hrun, h.checkChainIds, hr, check_pos (noAdjacentEqual_of_nodup hsub)]

end Kerninst
