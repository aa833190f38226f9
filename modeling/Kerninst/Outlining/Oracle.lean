import Kerninst.Outlining.BlockOrderingChains

/-!
# What the ordering asks the oracle

Step 2 of `pickBlockOrderingChains` collects the edges between blocks of the function,
each with its weight (`Weighted.collectEdges`); step 5 asks for the hottest of the cold
blocks (`getHottestOfTheColdBlocks_spec`).

The oracle may be any one with a weight for every edge between blocks. Every assignment
of temperatures with a hot entry block is that of some oracle (`exists_oracle`).
-/

namespace Kerninst

open List

/-! ## The edges of a function -/

def BBId.reg? : BBId → Option Nat
  | .reg n => some n
  | _ => none

theorem BBId.reg?_eq_some {s : BBId} {n : Nat} : s.reg? = some n ↔ s = .reg n := by
  cases s <;> simp [BBId.reg?]

namespace Cfg

/-- What the builder of a control-flow graph guarantees: successors are not entered twice,
and they are blocks of the function, its exits, or "unanalyzable". Block ids are 16-bit and
the top five are taken. -/
structure WellFormed (fn : Cfg) : Prop where
  succs_nodup : ∀ n bb, fn.getBasicBlockFromId n = some bb → bb.succs.Nodup
  succs_valid : ∀ n bb, fn.getBasicBlockFromId n = some bb → ∀ s ∈ bb.succs,
    s = .unanalyzable ∨ (∃ e, IsExit e ∧ s = .special e) ∨ ∃ m < fn.numBBs, s = .reg m
  numBBs_le : fn.numBBs ≤ 0xFFFB

/-- The edges out of the block `a` that lead to blocks of the function. -/
def innerEdgesFrom (fn : Cfg) (a : Nat) : List (Nat × Nat) :=
  match fn.getBasicBlockFromId a with
  | none => []
  | some bb => bb.succs.filterMap fun s => s.reg?.map (a, ·)

/-- The edges between blocks of the function. -/
def innerEdges (fn : Cfg) : List (Nat × Nat) :=
  (List.range fn.numBBs).flatMap fn.innerEdgesFrom

variable {fn : Cfg}

theorem mem_innerEdgesFrom {a : Nat} {p : Nat × Nat} : p ∈ fn.innerEdgesFrom a ↔
      ∃ bb, fn.getBasicBlockFromId a = some bb ∧ p.1 = a ∧ BBId.reg p.2 ∈ bb.succs := by
  obtain ⟨x, y⟩ := p
  rw [innerEdgesFrom]
  cases h : fn.getBasicBlockFromId a with
  | none => simp
  | some bb =>
    simp only [mem_filterMap, Option.map_eq_some_iff, Prod.mk.injEq, Option.some.injEq,
      exists_eq_left', BBId.reg?_eq_some]
    constructor
    · rintro ⟨_, hs, n, rfl, rfl, rfl⟩
      exact ⟨rfl, hs⟩
    · rintro ⟨rfl, hs⟩
      exact ⟨_, hs, y, rfl, rfl, rfl⟩

theorem WellFormed.innerEdges_lt (h : fn.WellFormed) {p : Nat × Nat} (hp : p ∈ fn.innerEdges) :
    p.1 < fn.numBBs ∧ p.2 < fn.numBBs := by
  obtain ⟨a, ha, hp⟩ := mem_flatMap.mp hp
  obtain ⟨bb, hbb, hpa, hsucc⟩ := mem_innerEdgesFrom.mp hp
  rcases h.succs_valid a bb hbb _ hsucc with hu | ⟨e, -, he⟩ | ⟨m, hm, he⟩
  · cases hu
  · cases he
  · cases he
    exact ⟨hpa ▸ mem_range.mp ha, hm⟩

theorem WellFormed.innerEdges_nodup (h : fn.WellFormed) : fn.innerEdges.Nodup := by
  refine nodup_flatMap.mpr ⟨fun a _ => ?_, ?_⟩
  · rw [innerEdgesFrom]
    cases hbb : fn.getBasicBlockFromId a with
    | none => exact nodup_nil
    | some bb =>
      refine (h.succs_nodup a bb hbb).filterMap fun s s' p hp hp' => ?_
      obtain ⟨n, hn, rfl⟩ := Option.map_eq_some_iff.mp hp
      obtain ⟨n', hn', heq⟩ := Option.map_eq_some_iff.mp hp'
      rw [BBId.reg?_eq_some.mp hn, BBId.reg?_eq_some.mp hn', (Prod.mk.inj heq).2]
  · refine nodup_range.imp fun hne p hp hp' => hne ?_
    obtain ⟨_, -, h₁, -⟩ := mem_innerEdgesFrom.mp hp
    obtain ⟨_, -, h₂, -⟩ := mem_innerEdgesFrom.mp hp'
    exact h₁.symm.trans h₂

end Cfg

instance : Std.Total fun e₁ e₂ : EdgeEntry => ¬ hottestEdgesFirst e₂ e₁ where
  total e₁ e₂ := by
    simp only [hottestEdgesFirst, Nat.not_lt, gt_iff_lt]
    exact Nat.le_total e₂.weight e₁.weight

instance : IsTrans EdgeEntry fun e₁ e₂ => ¬ hottestEdgesFirst e₂ e₁ where
  trans e₁ e₂ e₃ h₁ h₂ := by
    simp only [hottestEdgesFirst, Nat.not_lt, gt_iff_lt] at h₁ h₂ ⊢
    exact h₂.trans h₁

/-- One of the sorts that `std::sort` may be: edges of equal weight stay in their order. -/
def insertionEdgeSort : EdgeSort where
  sort edges := edges.insertionSort fun e₁ e₂ => ¬ hottestEdgesFirst e₂ e₁
  perm edges := List.perm_insertionSort _ edges
  sorted edges := List.pairwise_insertionSort _ edges

namespace HotBlockCalcOracle

variable {o : HotBlockCalcOracle}

/-- Every edge between blocks has a weight. -/
def Weighted (o : HotBlockCalcOracle) : Prop :=
  ∀ p ∈ o.fn.innerEdges, ∃ weight,
    o.theFnBlockAndEdgeCounts.edgeCounts.lookup ⟨.reg p.1, .reg p.2⟩ = some weight ∧
      weight ≠ uintMax

/-- The edge with its weight. -/
def weigh (o : HotBlockCalcOracle) (p : Nat × Nat) : EdgeEntry :=
  ⟨p.1, p.2, (o.theFnBlockAndEdgeCounts.edgeCounts.lookup ⟨.reg p.1, .reg p.2⟩).getD 0⟩

/-- The edges that are sorted and then merged. -/
def weightedEdges (o : HotBlockCalcOracle) : List EdgeEntry := o.fn.innerEdges.map o.weigh

theorem map_ends_weightedEdges (o : HotBlockCalcOracle) :
    o.weightedEdges.map EdgeEntry.ends = o.fn.innerEdges := by
  rw [weightedEdges, map_map]
  exact map_id _

theorem Weighted.getEdgeWeight (h : o.Weighted) {p : Nat × Nat} (hp : p ∈ o.fn.innerEdges) :
    o.getEdgeWeight (.reg p.1) (.reg p.2) = some (o.weigh p).weight := by
  obtain ⟨weight, hlook, hne⟩ := h p hp
  simp [HotBlockCalcOracle.getEdgeWeight, BlockAndEdgeCounts.getEdgeWeight, weigh, hlook,
    check, hne]

/-- Step 2 of `pickBlockOrderingChains` for one successor. -/
theorem Weighted.addEdge (h : o.Weighted) (hfn : o.fn.WellFormed) {a : Nat} {bb : BasicBlock}
    (ha : o.fn.getBasicBlockFromId a = some bb) {s : BBId} (hs : s ∈ bb.succs)
    (edges : List EdgeEntry) :
    addEdge o a edges s = some (edges ++ (s.reg?.map (a, ·)).toList.map o.weigh) := by
  have hlt := Cfg.lt_of_getBasicBlockFromId ha
  rcases hfn.succs_valid a bb ha s hs with rfl | ⟨e, rfl | rfl, rfl⟩ | ⟨m, hm, rfl⟩
  · simp [Kerninst.addEdge, BBId.reg?]
  · simp [Kerninst.addEdge, BBId.reg?]
  · simp [Kerninst.addEdge, BBId.reg?]
  · have hmem : (a, m) ∈ o.fn.innerEdges := mem_flatMap.mpr
      ⟨a, mem_range.mpr hlt, Cfg.mem_innerEdgesFrom.mpr ⟨bb, ha, rfl, hs⟩⟩
    rw [Kerninst.addEdge, h.getEdgeWeight hmem]
    rfl

/-- **Step 2** collects the edges between blocks. -/
theorem Weighted.collectEdges (h : o.Weighted) (hfn : o.fn.WellFormed) :
    collectEdges o o.fn = some o.weightedEdges := by
  have hloop : ∃ edges, Kerninst.collectEdges o o.fn = some edges ∧
      edges = ((range o.fn.numBBs).flatMap o.fn.innerEdgesFrom).map o.weigh := by
    refine foldlM_total (I := fun pre edges => edges =
      (pre.flatMap o.fn.innerEdgesFrom).map o.weigh) (range o.fn.numBBs) rfl ?_
    rintro pre a post edges hsplit rfl
    have ha : a < o.fn.numBBs := mem_range.mp (by rw [hsplit]; simp)
    obtain ⟨bb, hbb⟩ := Cfg.getBasicBlockFromId_eq_some ha
    have hblock : ∃ edges', bb.succs.foldlM (Kerninst.addEdge o a)
        ((pre.flatMap o.fn.innerEdgesFrom).map o.weigh) = some edges' ∧ edges' =
        (pre.flatMap o.fn.innerEdgesFrom).map o.weigh ++
          (bb.succs.filterMap fun s => s.reg?.map (a, ·)).map o.weigh := by
      refine foldlM_total (I := fun pre' edges' => edges' =
        (pre.flatMap o.fn.innerEdgesFrom).map o.weigh ++
          (pre'.filterMap fun s => s.reg?.map (a, ·)).map o.weigh) bb.succs ?_ ?_
      · simp
      rintro pre' s post' edges' hsplit' rfl
      refine ⟨_, h.addEdge hfn hbb (by rw [hsplit']; simp) _, ?_⟩
      cases hs : s.reg? with
      | none | some n => simp [hs]
    obtain ⟨edges', hrun, rfl⟩ := hblock
    refine ⟨_, by rw [hbb]; exact hrun, ?_⟩
    simp [Cfg.innerEdgesFrom, hbb]
  obtain ⟨edges, hrun, rfl⟩ := hloop
  exact hrun

/-- **Any temperatures.** Every assignment of blocks to hot or cold with a hot entry block,
and all edge weights, are those of an oracle. -/
theorem exists_oracle (fn : Cfg) (hfn : fn.WellFormed) (hot : Nat → Bool)
    (hentry : hot fn.entryBB = true) (weight : Nat → Nat → Nat)
    (hweight : ∀ a b, weight a b < uintMax) :
    ∃ o : HotBlockCalcOracle, o.fn = fn ∧ o.Weighted ∧ o.isBlockInlined = hot ∧
      ∀ p ∈ fn.innerEdges, (o.weigh p).weight = weight p.1 p.2 := by
  let entries : List (Sigma fun _ : EdgeId => Nat) :=
    fn.innerEdges.map fun p => ⟨⟨.reg p.1, .reg p.2⟩, weight p.1 p.2⟩
  have hkeys : entries.NodupKeys := by
    rw [NodupKeys, keys, map_map]
    refine hfn.innerEdges_nodup.map fun p q hpq => ?_
    simp only [Function.comp_apply, EdgeId.mk.injEq, BBId.reg.injEq] at hpq
    exact Prod.ext hpq.1 hpq.2
  have hlook : ∀ p ∈ fn.innerEdges, (⟨entries, hkeys⟩ : EdgeDict).lookup
      ⟨.reg p.1, .reg p.2⟩ = some (weight p.1 p.2) := by
    intro p hp
    exact AList.mem_lookup_iff.mpr (mem_map.mpr ⟨p, hp, rfl⟩)
  refine ⟨⟨fn, ⟨fn, fun b => (hot b).toNat, [], fun _ => [], fun _ => (0, false),
    ⟨entries, hkeys⟩, 0⟩, 0⟩, rfl, fun p hp => ⟨_, hlook p hp, (hweight _ _).ne⟩, ?_,
    fun p hp => ?_⟩
  · funext b
    cases hb : hot b with
    | true => simp [isBlockInlined, isBlockTrulyHot, hb]
    | false =>
      have hne : b ≠ fn.entryBB := by
        rintro rfl
        exact absurd (hb.symm.trans hentry) (by simp)
      simp [isBlockInlined, isBlockTrulyHot, hb, hne]
  · simp only [weigh]
    rw [hlook p hp]
    rfl

/-! ## The hottest of the cold blocks -/

/-- It is a cold block, and there is one if there are cold blocks at all. -/
theorem getHottestOfTheColdBlocks_spec (o : HotBlockCalcOracle) :
    ∃ result, o.getHottestOfTheColdBlocks = some result ∧
      (∀ b ∈ result, b < o.fn.numBBs ∧ o.isBlockInlined b = false) ∧
      (result = none → ∀ b < o.fn.numBBs, o.isBlockInlined b = true) := by
  have hloop : ∀ l : List Nat,
      (∀ b ∈ (l.foldl o.hotterColdBlock (none, 0)).1, b ∈ l ∧ o.isBlockInlined b = false) ∧
      ((l.foldl o.hotterColdBlock (none, 0)).1 = none → ∀ b ∈ l, o.isBlockInlined b = true) := by
    intro l
    induction l using reverseRecOn with
    | nil => simp
    | append_singleton l a ih =>
      rw [foldl_append, foldl_cons, foldl_nil]
      generalize l.foldl o.hotterColdBlock (none, 0) = best at ih ⊢
      obtain ⟨hcold, hnone⟩ := ih
      have hmem : ∀ b ∈ best.1, b ∈ l ++ [a] ∧ o.isBlockInlined b = false := fun b hb =>
        ⟨mem_append_left _ (hcold b hb).1, (hcold b hb).2⟩
      cases ha : o.isBlockInlined a with
      | true =>
        simp only [hotterColdBlock, isBlockOutlined, ha, Bool.not_true, Bool.not_false, if_true]
        refine ⟨hmem, fun hn b hb => ?_⟩
        rcases mem_append.mp hb with hb | hb
        · exact hnone hn b hb
        · rwa [mem_singleton.mp hb]
      | false =>
        simp only [hotterColdBlock, isBlockOutlined, ha, Bool.not_false, Bool.not_true,
          Bool.false_eq_true, if_false]
        split
        · refine ⟨fun b hb => ?_, fun hn => absurd hn (by simp)⟩
          obtain rfl := Option.mem_some_iff.mp hb
          exact ⟨by simp, ha⟩
        · rename_i hkeep
          exact ⟨hmem, fun hn => absurd (.inl hn) hkeep⟩
  obtain ⟨hcold, hnone⟩ := hloop (range o.fn.numBBs)
  refine ⟨_, ?_, fun b hb => ⟨mem_range.mp (hcold b hb).1, (hcold b hb).2⟩,
    fun hn b hb => hnone hn b (mem_range.mpr hb)⟩
  rw [getHottestOfTheColdBlocks, check_pos]
  · rfl
  · intro b hb
    rw [isBlockOutlined, (hcold b hb).2]
    rfl

end HotBlockCalcOracle

end Kerninst
