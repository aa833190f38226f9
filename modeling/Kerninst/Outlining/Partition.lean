import Kerninst.Outlining.Oracle
import Kerninst.Outlining.Placement

/-!
# Hot and cold blocks

`pickBlockOrderingChains_partition` is the correctness of the ordering by chains: it trips
no assertion, and its two orderings are the hot and the cold blocks of the function, each
block once. It is put together from the specifications of merging and placing, and of the
loops around them: which chains there are to place, and the listing of the blocks of a
chain.
-/

namespace Kerninst

open List

variable {n : Nat} {f : Nat → ChainVecEntry} {chain : Nat → List Nat} {o : HotBlockCalcOracle}
  {edges : List EdgeEntry} {m : MergeState}

/-! ## The chains to place -/

theorem chainsToPlace_table (o : HotBlockCalcOracle) (w : Bool) : chainsToPlace o w (table n f) =
      ((List.range n).filter fun b => decide ((f b).prevBbidThisChain = none) &&
        (o.isBlockInlined b == w)).map fun b => (f b).chainId := by
  have hzip : (table n f).zipIdx = (range n).map fun b => (f b, b) := by
    refine ext_getElem? fun i => ?_
    by_cases hi : i < n
    · simp [table, hi]
    · simp [hi]
  rw [chainsToPlace, hzip, filter_map, map_map]
  rfl

section Scan

variable (h : Merged n o.isBlockInlined edges f chain m) (hn : n ≤ uintMax)
include h hn

/-- Every chain has one first block, so the scan for first blocks finds every chain once. -/
theorem Merged.chainsOf (w : Bool) :
    ChainsOf n o.isBlockInlined f w (chainsToPlace o w m.theChainsVec) := by
  have hc := h.chained
  have hmem : ∀ k, k ∈ chainsToPlace o w m.theChainsVec ↔
      ∃ b < n, (f b).chainId = k ∧ o.isBlockInlined b = w := by
    intro k
    rw [h.vec, chainsToPlace_table]
    simp only [mem_map, mem_filter, mem_range, Bool.and_eq_true, decide_eq_true_eq, beq_iff_eq]
    constructor
    · rintro ⟨b, ⟨hb, -, hhot⟩, hk⟩
      exact ⟨b, hb, hk, hhot⟩
    · rintro ⟨b, hb, rfl, hhot⟩
      obtain ⟨a, ha⟩ : ∃ a, (chain (f b).chainId).head? = some a :=
        Option.isSome_iff_exists.mp (isSome_head?.mpr (ne_nil_of_mem (hc.mem hb)))
      have hmem := mem_of_mem_head? ha
      have hid := hc.chainId hmem
      refine ⟨a, ⟨hc.lt hmem, (hc.prev_none (hc.lt hmem)).mpr (hid ▸ ha), ?_⟩, hid⟩
      rw [hc.hot_eq hmem (hc.mem hb), hhot]
  refine ⟨?_, hmem, fun k hk => ?_⟩
  · rw [h.vec, chainsToPlace_table]
    refine (nodup_range.filter _).map_on fun a ha b hb hid => ?_
    simp only [mem_filter, mem_range, Bool.and_eq_true, decide_eq_true_eq] at ha hb
    have hheada := (hc.prev_none ha.1).mp ha.2.1
    have hheadb := (hc.prev_none hb.1).mp hb.2.1
    rw [hid] at hheada
    exact Option.mem_unique hheada hheadb
  · obtain ⟨b, hb, rfl, -⟩ := (hmem k).mp hk
    exact (Nat.lt_of_lt_of_le (hc.id_lt (ne_nil_of_mem (hc.mem hb))) hn).ne

/-- No chain is both hot and cold. -/
theorem Merged.hot_not_cold {k : Nat} (hhot : k ∈ chainsToPlace o true m.theChainsVec) :
    k ∉ chainsToPlace o false m.theChainsVec := by
  intro hcold
  obtain ⟨a, ha, rfl, hhota⟩ := ((h.chainsOf hn true).mem_iff k).mp hhot
  obtain ⟨b, hb, hid, hhotb⟩ := ((h.chainsOf hn false).mem_iff _).mp hcold
  have hsame := h.chained.hot_eq (h.chained.mem ha) (hid ▸ h.chained.mem hb)
  exact absurd (hhota.symm.trans (hsame.trans hhotb)) (by simp)

/-- The hot and the cold chains are all the chains. -/
theorem Merged.perm_keys :
    (chainsToPlace o true m.theChainsVec ++ chainsToPlace o false m.theChainsVec).Perm
      m.chainId2HeadOfChain.keys := by
  refine (perm_ext_iff_of_nodup (nodup_append.mpr ⟨(h.chainsOf hn true).nodup,
    (h.chainsOf hn false).nodup, ?_⟩) m.chainId2HeadOfChain.keys_nodup).mpr fun k => ?_
  · rintro k hk _ hk' rfl
    exact h.hot_not_cold hn hk hk'
  · rw [mem_append, (h.chainsOf hn true).mem_iff, (h.chainsOf hn false).mem_iff,
      ← AList.mem_keys, h.chained.mem_heads_iff]
    constructor
    · rintro (⟨b, hb, hid, -⟩ | ⟨b, hb, hid, -⟩)
      · exact ⟨b, hb, hid⟩
      · exact ⟨b, hb, hid⟩
    · rintro ⟨b, hb, hid⟩
      cases hhot : o.isBlockInlined b with
      | true => exact .inl ⟨b, hb, hid, hhot⟩
      | false => exact .inr ⟨b, hb, hid, hhot⟩

end Scan

/-- Before placing, every chain is marked as not placed. -/
theorem noChainPlaced_spec (heads : ChainHeads) : ∃ placed, noChainPlaced heads = some placed ∧
      (∀ k ∈ heads.keys, placed.lookup k = some false) ∧ placed.keys.Perm heads.keys := by
  have hloop : ∃ placed, noChainPlaced heads = some placed ∧
      ∀ k, placed.lookup k = if k ∈ heads.keys then some false else none := by
    refine foldlM_total (I := fun pre (placed : PlacedChains) => ∀ k, placed.lookup k =
      if k ∈ pre then some false else none) heads.keys (fun k => by simp) ?_
    intro pre k post placed hsplit hinv
    have hpre : k ∉ pre := by
      have hnodup := heads.keys_nodup
      rw [hsplit] at hnodup
      exact fun hmem => (nodup_append.mp hnodup).2.2 k hmem k (by simp) rfl
    have hnew : k ∉ placed := by
      rw [← AList.lookup_eq_none, hinv, if_neg hpre]
    refine ⟨placed.insert k false, by rw [check_pos hnew]; rfl, fun k' => ?_⟩
    by_cases hk : k' = k
    · subst hk
      simp
    · rw [AList.lookup_insert_ne hk, hinv]
      simp [hk]
  obtain ⟨placed, hrun, hlook⟩ := hloop
  refine ⟨placed, hrun, fun k hk => by rw [hlook, if_pos hk], ?_⟩
  refine (perm_ext_iff_of_nodup placed.keys_nodup heads.keys_nodup).mpr fun k => ?_
  rw [← AList.mem_keys, ← AList.lookup_isSome, hlook]
  by_cases hk : k ∈ heads.keys
  · simp
  · simp

/-! ## Placing all of them -/

theorem checkPlaced_of_perm {ordering all : List Nat} (h : ordering.Perm all) :
    checkPlaced ordering all = some () :=
  check_pos (sortIds_eq_of_perm h)

/-- Step 5 places the cold chains, if there are any. -/
theorem placeOutlined_spec (h : Merged o.fn.numBBs o.isBlockInlined edges f chain m)
    (hn : o.fn.numBBs ≤ uintMax) {placed : PlacedChains}
    (hplaced : ∀ k ∈ chainsToPlace o false m.theChainsVec, placed.lookup k = some false) :
    ∃ ordering placed', placeOutlined o m (chainsToPlace o false m.theChainsVec) placed =
        some (ordering, placed') ∧
      ordering.Perm (chainsToPlace o false m.theChainsVec) := by
  obtain ⟨result, hresult, hcold, hnone⟩ := o.getHottestOfTheColdBlocks_spec
  rw [placeOutlined, hresult]
  cases result with
  | none =>
    refine ⟨[], placed, rfl, ?_⟩
    have hempty : chainsToPlace o false m.theChainsVec = [] := by
      refine eq_nil_iff_forall_not_mem.mpr fun k hk => ?_
      obtain ⟨b, hb, -, hb'⟩ := ((h.chainsOf hn false).mem_iff k).mp hk
      exact absurd ((hnone rfl b hb).symm.trans hb') (by simp)
    rw [hempty]
  | some b =>
    obtain ⟨hb, hb'⟩ := hcold b rfl
    obtain ⟨rest, placed', hrun, hperm, -⟩ := placeChain_spec h (h.chainsOf hn false)
      (((h.chainsOf hn false).mem_iff _).mpr ⟨b, hb, rfl, hb'⟩) hplaced
    have hget : m.theChainsVec[b]? = some (f b) := by rw [h.vec, getElem?_table hb]
    refine ⟨_, placed', ?_, hperm⟩
    simp only [run_do, hget]
    exact hrun

/-- **Steps 4 and 5** order all the chains; the chain of the entry block comes first. -/
theorem placeAllChains_spec (h : Merged o.fn.numBBs o.isBlockInlined edges f chain m)
    (hn : o.fn.numBBs ≤ uintMax) :
    ∃ inlined outlined, placeAllChains o o.fn m = some (inlined, outlined) ∧
      inlined.Perm (chainsToPlace o true m.theChainsVec) ∧
      outlined.Perm (chainsToPlace o false m.theChainsVec) ∧
      inlined.head? = some (f o.fn.entryBB).chainId := by
  have hentry : o.fn.entryBB < o.fn.numBBs := o.fn.entry_lt
  have hkeys := h.perm_keys hn
  obtain ⟨placed, hplaced, hlook, hpermPlaced⟩ := noChainPlaced_spec m.chainId2HeadOfChain
  have hnew : ∀ w, ∀ k ∈ chainsToPlace o w m.theChainsVec, placed.lookup k = some false := by
    intro w k hk
    refine hlook k (hkeys.mem_iff.mp (mem_append.mpr ?_))
    cases w with
    | true => exact .inl hk
    | false => exact .inr hk
  obtain ⟨rest, placed', hrunHot, hpermHot, hother⟩ := placeChain_spec h (h.chainsOf hn true)
    (((h.chainsOf hn true).mem_iff _).mpr ⟨_, hentry, rfl, by
      simp [HotBlockCalcOracle.isBlockInlined]⟩) (hnew true)
  have hnew' : ∀ k ∈ chainsToPlace o false m.theChainsVec, placed'.lookup k = some false := by
    intro k hk
    rw [hother k fun hk' => h.hot_not_cold hn hk' hk]
    exact hnew false k hk
  obtain ⟨outlined, placed'', hrunCold, hpermCold⟩ := placeOutlined_spec h hn hnew'
  have hall := (hpermHot.append hpermCold).trans hkeys
  refine ⟨_, outlined, ?_, hpermHot, hpermCold, rfl⟩
  have hget : m.theChainsVec[o.fn.entryBB]? = some (f o.fn.entryBB) := by
    rw [h.vec, getElem?_table hentry]
  have hlen := hkeys.length_eq.trans hpermPlaced.length_eq.symm
  have hlen' := hall.length_eq
  rw [length_append] at hlen hlen'
  have hdistinct := isChain_sortIds (hall.nodup_iff.mpr m.chainId2HeadOfChain.keys_nodup)
  simp only [placeAllChains, hplaced, hget, hrunHot, hrunCold, checkPlaced_of_perm hpermHot,
    checkPlaced_of_perm hpermCold, check_pos hlen, check_pos hlen', check_pos hdistinct, run_do]

/-! ## Listing the blocks -/

section Listing

variable (h : Merged n o.isBlockInlined edges f chain m) {ordering : List Nat} {w : Bool}
include h

/-- `add_to` appends the blocks of a chain. -/
theorem Merged.addChain {b : Nat} (hb : b < n) (hhot : o.isBlockInlined b = w) (ids : List Nat) :
    addChain o w m.theChainsVec m.chainId2HeadOfChain ids (f b).chainId =
      some (ids ++ chain (f b).chainId) := by
  have hc := h.chained
  obtain ⟨a, ha⟩ : ∃ a, (chain (f b).chainId).head? = some a :=
    Option.isSome_iff_exists.mp (isSome_head?.mpr (ne_nil_of_mem (hc.mem hb)))
  have hlinks := hc.links (f b).chainId
  rw [ha] at hlinks
  have hwalk : ∃ ids', walk (addBlock o w (table n f) (f b).chainId) (n + 1) ids (some a) =
      some ids' ∧ ids' = ids ++ chain (f b).chainId := by
    refine walk_total (I := fun pre ids' => ids' = ids ++ pre) hlinks
      (Nat.lt_succ_of_le (hc.length_le _)) ?_ ?_
    · simp
    rintro pre c post _ hsplit rfl
    have hmem : c ∈ chain (f b).chainId := by rw [hsplit]; simp
    have hhotc := (hc.hot_eq hmem (hc.mem hb)).trans hhot
    refine ⟨ids ++ (pre ++ [c]), ?_, rfl⟩
    simp [addBlock, getElem?_table (hc.lt hmem), hc.chainId hmem, check, hhotc]
  obtain ⟨ids', hrun, rfl⟩ := hwalk
  rw [Kerninst.addChain, hc.head, ha, h.vec, length_table]
  exact hrun

/-- The listing of the hot chains trips no assertion. -/
theorem Merged.printHotChains :
    ∃ printed, printHotChains o m.theChainsVec m.chainId2HeadOfChain = some printed := by
  have hc := h.chained
  obtain ⟨printed, hrun, -⟩ := foldlM_total (I := fun _ _ => True)
    (f := fun (printed : List (Nat × List Nat)) (c : Sigma fun _ : Nat => Nat) =>
      if o.isBlockInlined c.2 then do
        let bbids ← walk (printBlock m.theChainsVec c.1) (m.theChainsVec.length + 1) [] (some c.2)
        pure (printed ++ [(c.1, bbids)])
      else pure printed)
    m.chainId2HeadOfChain.entries (s := []) trivial (by
    rintro pre ⟨k, a⟩ post printed hsplit -
    split
    · have hlook : m.chainId2HeadOfChain.lookup k = some a :=
        AList.mem_lookup_iff.mpr (by rw [hsplit]; simp)
      rw [hc.head] at hlook
      have hlinks := hc.links k
      rw [hlook] at hlinks
      have hvisit : ∀ pre c post (s : List Nat), chain k = pre ++ c :: post → True →
          ∃ s', printBlock (table n f) k s c = some (s', (f c).nextBbidThisChain) ∧ True := by
        rintro pre c post s hsplit -
        have hmem : c ∈ chain k := by rw [hsplit]; simp
        exact ⟨s ++ [c], by simp [printBlock, getElem?_table (hc.lt hmem), hc.chainId hmem, check],
          trivial⟩
      obtain ⟨bbids, hwalk, -⟩ := walk_total (I := fun _ _ => True) hlinks
        (Nat.lt_succ_of_le (hc.length_le k)) trivial hvisit
      refine ⟨printed ++ [(k, bbids)], ?_, trivial⟩
      rw [h.vec, length_table, hwalk]
      rfl
    · exact ⟨_, rfl, trivial⟩)
  exact ⟨printed, hrun⟩

/-- The blocks of the chains of one temperature, chain by chain. -/
theorem Merged.listBlocks (hall : ChainsOf n o.isBlockInlined f w ordering) :
    ordering.foldlM (Kerninst.addChain o w m.theChainsVec m.chainId2HeadOfChain) [] =
      some (ordering.flatMap chain) := by
  have hloop : ∃ ids, ordering.foldlM
      (Kerninst.addChain o w m.theChainsVec m.chainId2HeadOfChain) [] = some ids ∧
      ids = ordering.flatMap chain := by
    refine foldlM_total (I := fun pre ids => ids = pre.flatMap chain) ordering rfl ?_
    rintro pre k post _ hsplit rfl
    obtain ⟨b, hb, rfl, hhot⟩ := (hall.mem_iff k).mp (by rw [hsplit]; simp)
    exact ⟨_, h.addChain hb hhot _, by simp⟩
  obtain ⟨ids, hrun, rfl⟩ := hloop
  exact hrun

/-- They are the blocks of that temperature, each once. -/
theorem Merged.mem_listBlocks (hall : ChainsOf n o.isBlockInlined f w ordering) (b : Nat) :
    b ∈ ordering.flatMap chain ↔ b < n ∧ o.isBlockInlined b = w := by
  have hc := h.chained
  rw [mem_flatMap]
  constructor
  · rintro ⟨k, hk, hb⟩
    obtain ⟨a, ha, rfl, hhot⟩ := (hall.mem_iff k).mp hk
    exact ⟨hc.lt hb, (hc.hot_eq hb (hc.mem ha)).trans hhot⟩
  · rintro ⟨hb, hhot⟩
    exact ⟨_, (hall.mem_iff _).mpr ⟨b, hb, rfl, hhot⟩, hc.mem hb⟩

theorem Merged.nodup_listBlocks (hnodup : ordering.Nodup) : (ordering.flatMap chain).Nodup := by
  refine nodup_flatMap.mpr ⟨fun k _ => (h.chained.links k).nodup, ?_⟩
  refine hnodup.imp fun hne b hb hb' => hne ?_
  exact (h.chained.chainId hb).symm.trans (h.chained.chainId hb')

/-- Every block is on one of the chains, and so placed once. -/
theorem Merged.perm_listBlocks {inlined outlined : List Nat}
    (hhot : ChainsOf n o.isBlockInlined f true inlined)
    (hcold : ChainsOf n o.isBlockInlined f false outlined) :
    (inlined.flatMap chain ++ outlined.flatMap chain).Perm (List.range n) := by
  have hmemHot := h.mem_listBlocks hhot
  have hmemCold := h.mem_listBlocks hcold
  refine perm_range ?_ fun b => ?_
  · refine nodup_append.mpr ⟨h.nodup_listBlocks hhot.nodup, h.nodup_listBlocks hcold.nodup, ?_⟩
    rintro b hb _ hb' rfl
    exact absurd (((hmemHot b).mp hb).2.symm.trans ((hmemCold b).mp hb').2) (by simp)
  · rw [mem_append, hmemHot, hmemCold, ← and_or_left]
    exact and_iff_left (by cases o.isBlockInlined b <;> simp)

end Listing

/-! ## The whole ordering -/

theorem ChainsOf.of_perm {hot : Nat → Bool} {w : Bool} {all ordering : List Nat}
    (h : ChainsOf n hot f w all) (hperm : ordering.Perm all) : ChainsOf n hot f w ordering where
  nodup := hperm.nodup_iff.mpr h.nodup
  mem_iff := fun k => hperm.mem_iff.trans (h.mem_iff k)
  ne_uintMax := fun k hk => h.ne_uintMax k (hperm.mem_iff.mp hk)

/-- **What the steps compute**: the merged chains, placed one after the other, beginning
with the chain of the entry block. -/
theorem pickBlockOrderingChains_spec (srt : EdgeSort) (o : HotBlockCalcOracle)
    (hfn : o.fn.WellFormed) (hw : o.Weighted) :
    ∃ m f chain inlined outlined,
      Merged o.fn.numBBs o.isBlockInlined (srt.sort o.weightedEdges) f chain m ∧
      ChainsOf o.fn.numBBs o.isBlockInlined f true inlined ∧
      ChainsOf o.fn.numBBs o.isBlockInlined f false outlined ∧
      inlined.head? = some (f o.fn.entryBB).chainId ∧
      pickBlockOrderingChains srt o o.fn =
        some (inlined.flatMap chain, outlined.flatMap chain) := by
  have hn : o.fn.numBBs ≤ uintMax := hfn.numBBs_le.trans (by decide)
  have hperm := srt.perm o.weightedEdges
  have hlt : ∀ e ∈ srt.sort o.weightedEdges, e.fromBbid < o.fn.numBBs ∧ e.toBbid < o.fn.numBBs := by
    intro e he
    obtain ⟨p, hp, rfl⟩ := mem_map.mp (hperm.mem_iff.mp he)
    exact hfn.innerEdges_lt hp
  have hnodup : ((srt.sort o.weightedEdges).map EdgeEntry.ends).Nodup := by
    rw [(hperm.map EdgeEntry.ends).nodup_iff, o.map_ends_weightedEdges]
    exact hfn.innerEdges_nodup
  obtain ⟨m, f, chain, hmerge, h⟩ := mergeChains_spec srt o hlt hnodup
  obtain ⟨inlined, outlined, hplace, hpermHot, hpermCold, hhead⟩ := placeAllChains_spec h hn
  obtain ⟨printed, hprint⟩ := h.printHotChains
  have hhot := (h.chainsOf hn true).of_perm hpermHot
  have hcold := (h.chainsOf hn false).of_perm hpermCold
  have hsorted : IsSorted m.interChainEdges := h.inter_sorted.isChain
  refine ⟨m, f, chain, inlined, outlined, h, hhot, hcold, hhead, ?_⟩
  simp [pickBlockOrderingChains, hw.collectEdges hfn, hmerge, check_pos hsorted,
    check_pos (noAdjacentEqual_of_nodup h.inter_nodup), hprint, hplace, h.listBlocks hhot,
    h.listBlocks hcold]

/-- **Block placement is a hot/cold partition**: no assertion is tripped, the hot blocks are
inlined, the cold ones outlined, and every block is placed once. -/
theorem pickBlockOrderingChains_partition (srt : EdgeSort) (o : HotBlockCalcOracle)
    (hfn : o.fn.WellFormed) (hw : o.Weighted) :
    ∃ inlined outlined, pickBlockOrderingChains srt o o.fn = some (inlined, outlined) ∧
      (inlined ++ outlined).Perm (List.range o.fn.numBBs) ∧
      (∀ b, b ∈ inlined ↔ b < o.fn.numBBs ∧ o.isBlockInlined b = true) ∧
      ∀ b, b ∈ outlined ↔ b < o.fn.numBBs ∧ o.isBlockInlined b = false := by
  obtain ⟨m, f, chain, inlined, outlined, h, hhot, hcold, -, hrun⟩ :=
    pickBlockOrderingChains_spec srt o hfn hw
  exact ⟨_, _, hrun, h.perm_listBlocks hhot hcold, h.mem_listBlocks hhot, h.mem_listBlocks hcold⟩

/-- A function that is one loop: the entry block branches to blocks 1 and 2, which meet in
block 3, and that goes back to the entry block or returns. -/
def diamondLoop : Cfg where
  blocks := [⟨[.reg 1, .reg 2], [.reg 3]⟩, ⟨[.reg 3], [.reg 0]⟩, ⟨[.reg 3], [.reg 0]⟩,
    ⟨[.reg 0, .special .xExit], [.reg 1, .reg 2]⟩]
  entryBB := 0
  entry_lt := by decide

/-- Ten iterations, five each way, with the edge counts that `setEdgeCounts` derives. -/
def diamondOracle : HotBlockCalcOracle where
  fn := diamondLoop
  theFnBlockAndEdgeCounts := {
    fn := diamondLoop
    regBlockCounts := fun n => [10, 5, 5, 10].getD n 0
    succsOfEntryBlock := [.reg 0]
    predsOfExitBlocks := fun s => if s = .xExit then [.reg 3] else []
    specialBlockCounts := fun s => if s = .interProcBranchExit then (0, false) else (10, true)
    edgeCounts := ([⟨⟨.special .dummyEntry, .reg 0⟩, 10⟩, ⟨⟨.reg 3, .reg 0⟩, 10⟩,
      ⟨⟨.reg 3, .special .xExit⟩, 10⟩, ⟨⟨.reg 2, .reg 3⟩, 5⟩, ⟨⟨.reg 0, .reg 2⟩, 5⟩,
      ⟨⟨.reg 0, .reg 1⟩, 5⟩, ⟨⟨.reg 1, .reg 3⟩, 5⟩] : List (Sigma fun _ : EdgeId => Nat)).toAList
    numFudgedEdges := 3 }
  coldBlockThreshold := 0

theorem diamondLoop_wellFormed : diamondLoop.WellFormed where
  succs_nodup n bb h := by
    have hall : ∀ bb ∈ diamondLoop.blocks, bb.succs.Nodup := by decide
    exact hall bb (mem_of_getElem? h)
  succs_valid n bb h s hs := by
    have hall : ∀ bb ∈ diamondLoop.blocks, ∀ s ∈ bb.succs,
        s = .special .xExit ∨ s ∈ (range 4).map BBId.reg := by decide
    rcases hall bb (mem_of_getElem? h) s hs with rfl | hs
    · exact .inr (.inl ⟨.xExit, .inr rfl, rfl⟩)
    · obtain ⟨m, hm, rfl⟩ := mem_map.mp hs
      exact .inr (.inr ⟨m, mem_range.mp hm, rfl⟩)
  numBBs_le := by decide

theorem diamondOracle_weighted : diamondOracle.Weighted := by
  have hall : ∀ p ∈ diamondLoop.innerEdges, ∃ weight ∈ [5, 10],
      diamondOracle.theFnBlockAndEdgeCounts.edgeCounts.lookup ⟨.reg p.1, .reg p.2⟩ =
        some weight ∧ weight ≠ uintMax := by decide
  intro p hp
  obtain ⟨weight, -, h⟩ := hall p hp
  exact ⟨weight, h⟩

/-- The loop around a diamond is partitioned. -/
theorem pickBlockOrderingChains_partition_diamond :
    diamondOracle.fn.WellFormed ∧ diamondOracle.Weighted ∧
      ∃ inlined outlined, pickBlockOrderingChains insertionEdgeSort diamondOracle
          diamondOracle.fn = some (inlined, outlined) ∧
        (inlined ++ outlined).Perm (List.range diamondOracle.fn.numBBs) ∧
        (∀ b, b ∈ inlined ↔
          b < diamondOracle.fn.numBBs ∧ diamondOracle.isBlockInlined b = true) ∧
        ∀ b, b ∈ outlined ↔
          b < diamondOracle.fn.numBBs ∧ diamondOracle.isBlockInlined b = false :=
  ⟨diamondLoop_wellFormed, diamondOracle_weighted,
    pickBlockOrderingChains_partition insertionEdgeSort diamondOracle diamondLoop_wellFormed
      diamondOracle_weighted⟩

end Kerninst
