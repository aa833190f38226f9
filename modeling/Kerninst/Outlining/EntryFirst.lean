import Kerninst.Outlining.Partition

/-!
# The entry block should come first

`pickBlockOrderingAndEmit1Fn` asserts that the ordering it is given begins with the entry
block. The ordering by chains begins with the chain of the entry block, but nothing keeps
another block from being linked in front of it: the entry block comes first exactly if
every edge into it is too late when it comes up (`EntryStaysFirst`). The loop around a
diamond is a function where one is not, and where the assertion is tripped.
-/

namespace Kerninst

variable {o : HotBlockCalcOracle} {srt : EdgeSort}

/-- The links accepted from a list of edges: an edge is accepted if its blocks have the
same temperature, its source is not linked to anything, nothing is linked to its target,
and its target does not lead to its source. -/
noncomputable def HotBlockCalcOracle.links (o : HotBlockCalcOracle) (es : List (Nat × Nat)) :
    List (Nat × Nat) :=
  greedyPaths (fun a b => o.isBlockInlined a = o.isBlockInlined b) es

/-- **Every edge into the entry block comes too late.** When the edge from a hot block `p`
comes up, in the order of decreasing weights, `p` has already been linked to some block by
the heavier edges `pre`, or these already lead from the entry block to `p`. -/
def EntryStaysFirst (srt : EdgeSort) (o : HotBlockCalcOracle) : Prop :=
  ∀ pre p post, (srt.sort o.weightedEdges).map EdgeEntry.ends = pre ++ (p, o.fn.entryBB) :: post →
    o.isBlockInlined p = true →
      (∃ q, (p, q) ∈ o.links pre) ∨ Path (o.links pre) o.fn.entryBB p

theorem isBlockInlined_entryBB (o : HotBlockCalcOracle) : o.isBlockInlined o.fn.entryBB = true := by
  simp [HotBlockCalcOracle.isBlockInlined]

/-- The entry block is not linked to a block before it exactly if it stays first. -/
theorem entryStaysFirst_iff : EntryStaysFirst srt o ↔
      ∀ a, (a, o.fn.entryBB) ∉ acceptedLinks o.isBlockInlined (srt.sort o.weightedEdges) := by
  rw [acceptedLinks, greedyPaths_avoids_iff, isBlockInlined_entryBB]
  rfl

/-- The first block listed is the first block of the chain of the entry block. -/
theorem Merged.entry_first_iff {f : Nat → ChainVecEntry} {chain : Nat → List Nat}
    {m : MergeState} {inlined : List Nat}
    (h : Merged o.fn.numBBs o.isBlockInlined (srt.sort o.weightedEdges) f chain m)
    (hhead : inlined.head? = some (f o.fn.entryBB).chainId) :
    (inlined.flatMap chain).head? = some o.fn.entryBB ↔ EntryStaysFirst srt o := by
  have hentry := h.chained.mem o.fn.entry_lt
  obtain ⟨k, rest, rfl⟩ : ∃ k rest, inlined = k :: rest := by
    cases inlined with
    | nil => exact absurd hhead (by simp)
    | cons k rest => exact ⟨k, rest, rfl⟩
  obtain rfl := Option.some.inj hhead
  rw [List.flatMap_cons, List.head?_append_of_ne_nil _ (List.ne_nil_of_mem hentry),
    ← h.chained.prev_none o.fn.entry_lt, entryStaysFirst_iff, Option.eq_none_iff_forall_ne_some]
  exact forall_congr' fun a => not_congr (h.prev_iff a _)

/-- **The entry block comes first** exactly if every edge into it comes too late. -/
theorem pickBlockOrderingChains_entry_first_iff (srt : EdgeSort) (o : HotBlockCalcOracle)
    (hfn : o.fn.WellFormed) (hw : o.Weighted) :
    ∃ inlined outlined, pickBlockOrderingChains srt o o.fn = some (inlined, outlined) ∧
      (inlined.head? = some o.fn.entryBB ↔ EntryStaysFirst srt o) := by
  obtain ⟨m, f, chain, inlined, outlined, h, -, -, hhead, hrun⟩ :=
    pickBlockOrderingChains_spec srt o hfn hw
  exact ⟨_, _, hrun, h.entry_first_iff hhead⟩

/-- The hypotheses hold of the loop around a diamond. -/
theorem pickBlockOrderingChains_entry_first_iff_diamond :
    diamondOracle.fn.WellFormed ∧ diamondOracle.Weighted ∧
      ∃ inlined outlined, pickBlockOrderingChains insertionEdgeSort diamondOracle
          diamondOracle.fn = some (inlined, outlined) ∧
        (inlined.head? = some diamondOracle.fn.entryBB ↔
          EntryStaysFirst insertionEdgeSort diamondOracle) :=
  ⟨diamondLoop_wellFormed, diamondOracle_weighted,
    pickBlockOrderingChains_entry_first_iff insertionEdgeSort diamondOracle
      diamondLoop_wellFormed diamondOracle_weighted⟩

/-- **The entry block in the middle.** The back edge is the heaviest edge of the loop, so
block 3 is linked to the entry block, and block 2 to block 3. The caller's assertion is
tripped. -/
theorem pickBlockOrderingChains_entry_in_the_middle :
    diamondOracle.fn.entryBB = 0 ∧
      pickBlockOrderingChains insertionEdgeSort diamondOracle diamondOracle.fn =
        some ([2, 3, 0, 1], []) ∧
      pickBlockOrderingToEmit insertionEdgeSort diamondOracle diamondOracle.fn = none := by
  refine ⟨rfl, ?_, ?_⟩
  · decide +kernel
  · decide +kernel

/-- **The caller's assertions** hold exactly if the entry block stays first; the others are
never in doubt. -/
theorem pickBlockOrderingToEmit_isSome_iff (srt : EdgeSort) (o : HotBlockCalcOracle)
    (hfn : o.fn.WellFormed) (hw : o.Weighted) :
    (pickBlockOrderingToEmit srt o o.fn).isSome ↔ EntryStaysFirst srt o := by
  obtain ⟨m, f, chain, inlined, outlined, h, hhot, hcold, hhead, hrun⟩ :=
    pickBlockOrderingChains_spec srt o hfn hw
  have hperm := h.perm_listBlocks hhot hcold
  have hlen : (sortIds (inlined.flatMap chain ++ outlined.flatMap chain)).length = o.fn.numBBs := by
    rw [((sortIds_perm _).trans hperm).length_eq, List.length_range]
  have hok : chosenHotAndColdBlockOrderingsOK o (inlined.flatMap chain)
      (outlined.flatMap chain) = some () := by
    simp [chosenHotAndColdBlockOrderingsOK,
      check_pos (And.intro hlen (isChain_sortIds (hperm.nodup_iff.mpr List.nodup_range))),
      check_pos (fun b hb => ((h.mem_listBlocks hhot b).mp hb).2),
      check_pos (fun b hb => ((h.mem_listBlocks hcold b).mp hb).2)]
  simp only [pickBlockOrderingToEmit, hrun, hok, run_do]
  rw [← h.entry_first_iff hhead, check]
  split
  · rename_i hfirst
    simp [hfirst]
  · rename_i hfirst
    simp [hfirst]

theorem not_entryStaysFirst_diamond : ¬ EntryStaysFirst insertionEdgeSort diamondOracle := by
  rw [← pickBlockOrderingToEmit_isSome_iff _ _ diamondLoop_wellFormed diamondOracle_weighted]
  decide +kernel

end Kerninst
