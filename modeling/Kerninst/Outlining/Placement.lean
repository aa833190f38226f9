import Kerninst.Outlining.MergeChains

/-!
# Placing the chains

`place_chain` is called once for the hot and once for the cold chains. The invariant of
its loop (`Placing`) relates the dictionary `placedChains` to the ordering built so far,
and says of the remaining edges that none leads to a chain already placed. Whatever chain
`find_next_chain` comes up with is then a new one, so every round places one more chain,
and what is left over when the edges run out is appended. The ordering that results is a
permutation of the chains to place (`placeChain_spec`).
-/

namespace Kerninst

open List AList

variable {n : Nat} {hot : Nat → Bool} {f : Nat → ChainVecEntry} {chain : Nat → List Nat}
  {o : HotBlockCalcOracle} {w : Bool} {all ordering : List Nat} {placed : PlacedChains}
  {edges : List EdgeEntry}

/-- `all` are the ids of the chains of temperature `w`. -/
structure ChainsOf (n : Nat) (hot : Nat → Bool) (f : Nat → ChainVecEntry) (w : Bool)
    (all : List Nat) : Prop where
  nodup : all.Nodup
  mem_iff : ∀ k, k ∈ all ↔ ∃ b < n, (f b).chainId = k ∧ hot b = w
  ne_uintMax : ∀ k ∈ all, k ≠ uintMax

/-- The inter-chain edges of temperature `w`. -/
structure EdgesOf (n : Nat) (hot : Nat → Bool) (f : Nat → ChainVecEntry) (w : Bool)
    (edges : List EdgeEntry) : Prop where
  sorted : edges.Pairwise fun e₁ e₂ => ¬ hottestEdgesFirst e₂ e₁
  nodup : (edges.map EdgeEntry.ends).Nodup
  lt : ∀ e ∈ edges, e.fromBbid < n ∧ e.toBbid < n
  between : ∀ e ∈ edges, BetweenChains f e
  from_hot : ∀ e ∈ edges, hot e.fromBbid = w
  to_hot : ∀ e ∈ edges, hot e.toBbid = w

theorem EdgesOf.sublist {edges' : List EdgeEntry} (h : EdgesOf n hot f w edges)
    (hsub : edges'.Sublist edges) : EdgesOf n hot f w edges' where
  sorted := h.sorted.sublist hsub
  nodup := (hsub.map _).nodup h.nodup
  lt := fun e he => h.lt e (hsub.subset he)
  between := fun e he => h.between e (hsub.subset he)
  from_hot := fun e he => h.from_hot e (hsub.subset he)
  to_hot := fun e he => h.to_hot e (hsub.subset he)

/-- **The state of the placing loop**: what has been placed, and the edges that remain. -/
structure Placing (f : Nat → ChainVecEntry) (all ordering : List Nat) (placed : PlacedChains)
    (edges : List EdgeEntry) : Prop where
  nodup : ordering.Nodup
  subset : ∀ k ∈ ordering, k ∈ all
  lookup : ∀ k ∈ all, placed.lookup k = some (decide (k ∈ ordering))
  to_new : ∀ e ∈ edges, (f e.toBbid).chainId ∉ ordering

namespace ChainsOf

variable (hall : ChainsOf n o.isBlockInlined f w all)
include hall

section Edges

variable (h : EdgesOf n o.isBlockInlined f w edges)
include h

theorem from_mem {e : EdgeEntry} (he : e ∈ edges) :
    (f e.fromBbid).chainId ∈ all :=
  (hall.mem_iff _).mpr ⟨_, (h.lt e he).1, rfl, h.from_hot e he⟩

theorem to_mem {e : EdgeEntry} (he : e ∈ edges) :
    (f e.toBbid).chainId ∈ all :=
  (hall.mem_iff _).mpr ⟨_, (h.lt e he).2, rfl, h.to_hot e he⟩

/-- The search for an edge out of a placed chain. -/
theorem findNextLoop
    (hp : Placing f all ordering placed edges) :
    (∃ e ∈ edges, findNextLoop o w (table n f) placed edges = some (some (f e.toBbid).chainId)) ∨
    findNextLoop o w (table n f) placed edges = some none ∧
      ∀ e ∈ edges, (f e.fromBbid).chainId ∉ ordering := by
  induction edges with
  | nil => exact .inr ⟨rfl, by simp⟩
  | cons e edges ih =>
    obtain ⟨hfrom, hto⟩ := h.lt e (by simp)
    have hnew : placed.lookup (f e.toBbid).chainId = some false := by
      rw [hp.lookup _ (hall.to_mem h (by simp))]
      simpa using hp.to_new e (by simp)
    have hbetween : (f e.fromBbid).chainId ≠ (f e.toBbid).chainId := h.between e (by simp)
    simp only [Kerninst.findNextLoop, getElem?_table hfrom, getElem?_table hto, run_do,
      hp.lookup _ (hall.from_mem h (e := e) (by simp)), check_pos hbetween, check_pos hnew,
      check_pos (h.from_hot e (by simp)), check_pos (h.to_hot e (by simp))]
    by_cases hmem : (f e.fromBbid).chainId ∈ ordering
    · exact .inl ⟨e, by simp, by simp [hmem]⟩
    · simp only [hmem, decide_false, Bool.false_eq_true, if_false]
      have hp' : Placing f all ordering placed edges :=
        { hp with to_new := fun e' he' => hp.to_new e' (by simp [he']) }
      rcases ih (h.sublist (sublist_cons_self ..)) hp' with ⟨e', he', hrun⟩ | ⟨hrun, hfree⟩
      · exact .inl ⟨e', by simp [he'], hrun⟩
      · refine .inr ⟨hrun, fun e' he' => ?_⟩
        rcases mem_cons.mp he' with rfl | he'
        · exact hmem
        · exact hfree e' he'

/-- **The next chain** is one that has not been placed. -/
theorem findNextChain
    (hp : Placing f all ordering placed edges) (hne : edges ≠ []) :
    ∃ k, findNextChain o w (table n f) placed edges = some k ∧ k ∈ all ∧ k ∉ ordering := by
  have hsorted : IsSorted edges := h.sorted.isChain
  simp only [Kerninst.findNextChain, check_pos hsorted,
    check_pos (noAdjacentEqual_of_nodup h.nodup), run_do]
  rcases hall.findNextLoop h hp with ⟨e, he, hrun⟩ | ⟨hrun, hfree⟩
  · rw [hrun]
    exact ⟨_, rfl, hall.to_mem h he, hp.to_new e he⟩
  · obtain ⟨e, rest, rfl⟩ := exists_cons_of_ne_nil hne
    rw [hrun]
    refine ⟨(f e.fromBbid).chainId, ?_, hall.from_mem h (by simp), hfree e (by simp)⟩
    simp [getElem?_table (h.lt e (by simp)).1]

end Edges

end ChainsOf

/-- What is left after the edges to a chain are dropped. -/
theorem dropEdgesTo_table (k : Nat) (hlt : ∀ e ∈ edges, e.toBbid < n) :
    dropEdgesTo (table n f) k edges =
      some (edges.filter fun e => decide ((f e.toBbid).chainId ≠ k)) := by
  obtain ⟨r, hr, rfl⟩ := foldlM_total (I := fun pre (r : List EdgeEntry) =>
      r = pre.filter fun e => decide ((f e.toBbid).chainId ≠ k)) edges
    (f := fun remaining e => do
      let toEntry ← (table n f)[e.toBbid]?
      pure (if toEntry.chainId = k then remaining else remaining ++ [e])) (s := []) rfl (by
    rintro pre e post r hsplit rfl
    refine ⟨_, by rw [getElem?_table (hlt e (by rw [hsplit]; simp))]; rfl, ?_⟩
    by_cases hk : (f e.toBbid).chainId = k
    · simp [hk]
    · simp [hk])
  exact hr

/-- Placing one more chain. -/
theorem Placing.place (hp : Placing f all ordering placed edges) {k : Nat} (hk : k ∈ all)
    (hnew : k ∉ ordering) :
    Placing f all (ordering ++ [k]) (placed.insert k true)
      (edges.filter fun e => decide ((f e.toBbid).chainId ≠ k)) where
  nodup := nodup_append.mpr ⟨hp.nodup, nodup_singleton _, by
    rintro a ha _ hb rfl
    exact hnew (mem_singleton.mp hb ▸ ha)⟩
  subset := by
    intro a ha
    rcases mem_append.mp ha with ha | ha
    · exact hp.subset a ha
    · rwa [mem_singleton.mp ha]
  lookup := by
    intro a ha
    by_cases hak : a = k
    · subst hak
      simp
    · rw [lookup_insert_ne hak, hp.lookup a ha]
      simp [hak]
  to_new := by
    intro e he
    obtain ⟨he, hne⟩ := mem_filter.mp he
    simp only [mem_append, mem_singleton, not_or]
    exact ⟨hp.to_new e he, by simpa using hne⟩

/-- The chains that no edge leads to are appended. -/
theorem Placing.disconnected (hp : Placing f all ordering placed edges) (hnodup : all.Nodup)
    {k : Nat} (hk : placed.lookup k = some true) :
    ∃ rest placed', all.foldlM (placeDisconnected k) (ordering, placed) =
        some (ordering ++ rest, placed') ∧
      (ordering ++ rest).Perm all ∧ ∀ k', placed'.lookup k' = placed.lookup k' := by
  obtain ⟨r, hr, hord, hlook⟩ := foldlM_total (f := placeDisconnected k)
    (I := fun pre (r : List Nat × PlacedChains) =>
      r.1 = ordering ++ pre.filter (fun k => decide (k ∉ ordering)) ∧
      ∀ k', r.2.lookup k' = placed.lookup k') all (s := (ordering, placed)) (by simp) (by
    rintro pre a post ⟨ord, pl⟩ hsplit ⟨rfl, hlook⟩
    have hlooka : pl.lookup a = some (decide (a ∈ ordering)) :=
      (hlook a).trans (hp.lookup a (by rw [hsplit]; simp))
    simp only [placeDisconnected, hlooka, run_do]
    by_cases ha : a ∈ ordering
    · exact ⟨_, by rw [if_pos (by simpa using ha)], by simp [ha], hlook⟩
    · refine ⟨_, by rw [if_neg (by simpa using ha)], by simp [ha], fun k' => ?_⟩
      by_cases hk' : k' = k
      · subst hk'
        rw [lookup_insert, hk]
      · rw [lookup_insert_ne hk', hlook])
  refine ⟨all.filter (fun k => decide (k ∉ ordering)), r.2, ?_, ?_, hlook⟩
  · rw [hr, ← hord]
  · refine (perm_ext_iff_of_nodup (nodup_append.mpr ⟨hp.nodup, hnodup.filter _, ?_⟩)
      hnodup).mpr fun a => ?_
    · rintro a ha _ hb rfl
      exact absurd ha (by simpa using (mem_filter.mp hb).2)
    · rw [mem_append, mem_filter]
      refine ⟨fun h => h.elim (hp.subset a) And.left, fun ha => ?_⟩
      by_cases hmem : a ∈ ordering
      · exact .inl hmem
      · exact .inr ⟨ha, by simpa using hmem⟩

/-- **The placing loop** runs to its end and orders all the chains. -/
theorem placeLoop_spec (hall : ChainsOf n o.isBlockInlined f w all) : ∀ (fuel k : Nat)
    (ordering : List Nat) (placed : PlacedChains) (edges : List EdgeEntry),
    EdgesOf n o.isBlockInlined f w edges → Placing f all ordering placed edges →
    k ∈ all → k ∉ ordering → all.length ≤ ordering.length + fuel →
    ∃ rest placed', placeLoop o w (table n f) all fuel k ordering placed edges =
        some (ordering ++ k :: rest, placed') ∧
      (ordering ++ k :: rest).Perm all ∧
      ∀ k' ∉ all, placed'.lookup k' = placed.lookup k' := by
  intro fuel
  induction fuel with
  | zero =>
    intro k ordering placed edges _ hp hk hnew hfuel
    have hsub : (ordering ++ [k]).Subperm all :=
      (hp.place hk hnew).nodup.subperm (hp.place hk hnew).subset
    have hlen := hsub.length_le
    rw [length_append, length_singleton] at hlen
    exact absurd hfuel (by omega)
  | succ fuel ih =>
    intro k ordering placed edges hedges hp hk hnew hfuel
    have hp' := hp.place hk hnew
    have hedges' : EdgesOf n o.isBlockInlined f w
        (edges.filter fun e => decide ((f e.toBbid).chainId ≠ k)) :=
      hedges.sublist filter_sublist
    have hold : placed.lookup k = some false := by
      rw [hp.lookup k hk]
      simpa using hnew
    have hother : ∀ k' ∉ all, (placed.insert k true).lookup k' = placed.lookup k' := by
      intro k' hk'
      refine lookup_insert_ne ?_
      rintro rfl
      exact hk' hk
    simp only [placeLoop, check_pos hold, dropEdgesTo_table k fun e he => (hedges.lt e he).2,
      run_do]
    generalize edges.filter (fun e => decide ((f e.toBbid).chainId ≠ k)) = edges' at hp' hedges' ⊢
    have hsorted : IsSorted edges' := hedges'.sorted.isChain
    rw [check_pos hsorted, Option.bind_some]
    by_cases hnil : edges'.length = 0
    · rw [if_pos hnil]
      obtain ⟨rest, placed', hrun, hperm, hlook⟩ := hp'.disconnected hall.nodup
        (k := k) (lookup_insert _)
      refine ⟨rest, placed', ?_, ?_, fun k' hk' => (hlook k').trans (hother k' hk')⟩
      · rw [hrun, append_assoc, singleton_append]
      · rwa [append_assoc, singleton_append] at hperm
    · rw [if_neg hnil]
      obtain ⟨k₁, hfind, hk₁, hnew₁⟩ := hall.findNextChain hedges' hp'
        (fun h => hnil (by rw [h]; rfl))
      obtain ⟨rest, placed', hrun, hperm, hlook⟩ := ih k₁ _ _ _ hedges' hp' hk₁ hnew₁
        (by rw [length_append, length_singleton]; omega)
      refine ⟨k₁ :: rest, placed', ?_, ?_, fun k' hk' => (hlook k' hk').trans (hother k' hk')⟩
      · rw [hfind, Option.bind_some, check_pos (hall.ne_uintMax k₁ hk₁), Option.bind_some, hrun,
          append_assoc, singleton_append]
      · rwa [append_assoc, singleton_append] at hperm

/-! ## `place_chain` after `merge_chains` -/

variable {m : MergeState}

theorem Merged.edgesOf (h : Merged n o.isBlockInlined edges f chain m) (w : Bool) :
    EdgesOf n o.isBlockInlined f w (m.interChainEdges.filter fun e =>
      o.isBlockInlined e.fromBbid == w && o.isBlockInlined e.toBbid == w) := by
  have hsub := filter_sublist (l := m.interChainEdges) (p := fun e =>
    o.isBlockInlined e.fromBbid == w && o.isBlockInlined e.toBbid == w)
  have hhot : ∀ e ∈ m.interChainEdges.filter (fun e =>
      o.isBlockInlined e.fromBbid == w && o.isBlockInlined e.toBbid == w),
      o.isBlockInlined e.fromBbid = w ∧ o.isBlockInlined e.toBbid = w := by
    intro e he
    simpa using (mem_filter.mp he).2
  exact {
    sorted := h.inter_sorted.sublist hsub
    nodup := (hsub.map _).nodup h.inter_nodup
    lt := fun e he => h.inter_lt e (hsub.subset he)
    between := fun e he => h.inter_between e (hsub.subset he)
    from_hot := fun e he => (hhot e he).1
    to_hot := fun e he => (hhot e he).2 }

/-- **`place_chain`** orders the chains of one temperature, beginning with the given one,
and leaves the marks of the others alone. -/
theorem placeChain_spec (h : Merged n o.isBlockInlined edges f chain m)
    (hall : ChainsOf n o.isBlockInlined f w all) {k : Nat} (hk : k ∈ all)
    (hplaced : ∀ k ∈ all, placed.lookup k = some false) :
    ∃ rest placed', placeChain o w m.theChainsVec k all [] placed m.interChainEdges =
        some (k :: rest, placed') ∧
      (k :: rest).Perm all ∧ ∀ k' ∉ all, placed'.lookup k' = placed.lookup k' := by
  have hsorted : IsSorted m.interChainEdges := h.inter_sorted.isChain
  have hp : Placing f all [] placed (m.interChainEdges.filter fun e =>
      o.isBlockInlined e.fromBbid == w && o.isBlockInlined e.toBbid == w) :=
    ⟨nodup_nil, by simp, fun k hk => by simpa using hplaced k hk, by simp⟩
  obtain ⟨rest, placed', hrun, hperm, hlook⟩ := placeLoop_spec hall (all.length + 1) k [] placed _
    (h.edgesOf w) hp hk (by simp) (by simp)
  refine ⟨rest, placed', ?_, hperm, hlook⟩
  simp only [placeChain, check_pos hsorted, check_pos (noAdjacentEqual_of_nodup h.inter_nodup),
    run_do, h.vec]
  exact hrun

end Kerninst
