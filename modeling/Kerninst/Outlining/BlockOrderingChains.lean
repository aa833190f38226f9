import Mathlib.Data.List.Sort
import Kerninst.Lib.LinkedList
import Kerninst.Lib.Table
import Kerninst.Function.EdgeCounts

/-!
# Ordering the blocks of an outlined function

The outliner splits a function into its hot ("inlined") and its cold ("outlined")
blocks and orders each part by chains of blocks:

* `mergeChains` starts with every block in a chain of its own and goes through the
  edges, heaviest first. An edge from the last block of a chain to the first block of
  another chain of the same temperature joins the two; an edge that joins nothing is
  kept as an inter-chain edge.
* `placeChain` orders the chains of one temperature. It starts with a given chain and
  follows the heaviest inter-chain edge out of what it has placed so far.
* `pickBlockOrderingChains` does this for the hot chains, beginning with the chain of the
  entry block, and for the cold ones, and lists the blocks chain by chain.

Every `assert` (the ones under `NDEBUG` included), every lookup of an absent key or
block and every loop that runs out of its bound is a failing computation. `std::sort`
leaves edges of equal weight in an order of its own: an `EdgeSort` is any function that
does what `std::sort` promises. `(bbid_t)-1` is `none`.
-/

namespace Kerninst

/-! ## The oracle -/

def BlockAndEdgeCounts.getEdgeWeight (c : BlockAndEdgeCounts) (fromBbid toBbid : BBId) :
    Option Nat := do
  let result ← c.edgeCounts.lookup ⟨fromBbid, toBbid⟩
  check (result ≠ uintMax)
  pure result

/-- `hotBlockCalcOracle` -/
structure HotBlockCalcOracle where
  fn : Cfg
  theFnBlockAndEdgeCounts : BlockAndEdgeCounts
  coldBlockThreshold : Nat

namespace HotBlockCalcOracle

def isBlockTrulyHot (o : HotBlockCalcOracle) (bbid : Nat) : Bool :=
  o.theFnBlockAndEdgeCounts.regBlockCounts bbid > o.coldBlockThreshold

def isBlockInlined (o : HotBlockCalcOracle) (bbid : Nat) : Bool :=
  bbid == o.fn.entryBB || o.isBlockTrulyHot bbid

def isBlockOutlined (o : HotBlockCalcOracle) (bbid : Nat) : Bool := !o.isBlockInlined bbid

def getEdgeWeight (o : HotBlockCalcOracle) (fromBbid toBbid : BBId) : Option Nat :=
  o.theFnBlockAndEdgeCounts.getEdgeWeight fromBbid toBbid

/-- One round of `getHottestOfTheColdBlocks`, on its `result` and `the_count`. -/
def hotterColdBlock (o : HotBlockCalcOracle) (best : Option Nat × Nat) (bbid : Nat) :
    Option Nat × Nat :=
  let thisBlockCount := o.theFnBlockAndEdgeCounts.regBlockCounts bbid
  if !o.isBlockOutlined bbid then best
  else if best.1 = none ∨ thisBlockCount > best.2 then (some bbid, thisBlockCount)
  else best

def getHottestOfTheColdBlocks (o : HotBlockCalcOracle) : Option (Option Nat) := do
  let result := ((List.range o.fn.numBBs).foldl o.hotterColdBlock (none, 0)).1
  check (∀ bbid ∈ result, o.isBlockOutlined bbid)
  pure result

end HotBlockCalcOracle

/-! ## Edges -/

/-- `edge_entry` -/
structure EdgeEntry where
  fromBbid : Nat
  toBbid : Nat
  weight : Nat
deriving DecidableEq, Repr

namespace EdgeEntry

/-- What `edge_entry::operator==` compares. -/
def ends (e : EdgeEntry) : Nat × Nat := (e.fromBbid, e.toBbid)

end EdgeEntry

def hottestEdgesFirst (e₁ e₂ : EdgeEntry) : Prop := e₁.weight > e₂.weight

instance (e₁ e₂ : EdgeEntry) : Decidable (hottestEdgesFirst e₁ e₂) :=
  inferInstanceAs (Decidable (_ > _))

/-- `is_Sorted` -/
def IsSorted (edges : List EdgeEntry) : Prop :=
  edges.IsChain fun e₁ e₂ => ¬ hottestEdgesFirst e₂ e₁

/-- `std::adjacent_find` comes to the end. -/
def NoAdjacentEqual (edges : List EdgeEntry) : Prop :=
  edges.IsChain fun e₁ e₂ => e₁.ends ≠ e₂.ends

instance (edges : List EdgeEntry) : Decidable (IsSorted edges) :=
  inferInstanceAs (Decidable (List.IsChain ..))

instance (edges : List EdgeEntry) : Decidable (NoAdjacentEqual edges) :=
  inferInstanceAs (Decidable (List.IsChain ..))

/-- `std::sort` with `hottest_edges_first` -/
structure EdgeSort where
  sort : List EdgeEntry → List EdgeEntry
  perm : ∀ edges, (sort edges).Perm edges
  sorted : ∀ edges, (sort edges).Pairwise fun e₁ e₂ => ¬ hottestEdgesFirst e₂ e₁

/-- `std::sort` on block or chain ids -/
def sortIds (ids : List Nat) : List Nat := ids.insertionSort (· ≤ ·)

/-- One successor in the loop of step 2; the exits and "unanalyzable" are skipped. -/
def addEdge (o : HotBlockCalcOracle) (fromBbid : Nat) (edges : List EdgeEntry) :
    BBId → Option (List EdgeEntry)
  | .unanalyzable => some edges
  | .special .interProcBranchExit => some edges
  | .special .xExit => some edges
  | .special .dummyEntry => none
  | .reg toBbid => do
    let edgeWeight ← o.getEdgeWeight (.reg fromBbid) (.reg toBbid)
    pure (edges ++ [⟨fromBbid, toBbid, edgeWeight⟩])

/-- All edges between blocks of the function, not yet sorted. -/
def collectEdges (o : HotBlockCalcOracle) (fn : Cfg) : Option (List EdgeEntry) :=
  (List.range fn.numBBs).foldlM (fun edges fromBbid => do
    let fromBb ← fn.getBasicBlockFromId fromBbid
    fromBb.succs.foldlM (addEdge o fromBbid) edges) []

/-! ## Merging chains -/

/-- `chain_vec_entry` -/
structure ChainVecEntry where
  chainId : Nat
  nextBbidThisChain : Option Nat
  prevBbidThisChain : Option Nat
deriving DecidableEq, Repr

/-- `dictionary_hash<unsigned, bbid_t>` -/
abbrev ChainHeads := AList (fun _ : Nat => Nat)

/-- What the main loop of `merge_chains` works on. -/
structure MergeState where
  theChainsVec : List ChainVecEntry
  chainId2HeadOfChain : ChainHeads
  interChainEdges : List EdgeEntry
  chainIdsThatNoLongerExist : List Nat

/-- Moves one block of the obsolete chain over. -/
def relabel (obsoleteChainId replaceWithThisChainId : Nat) (vec : List ChainVecEntry)
    (bbidToMove : Nat) : Option (List ChainVecEntry × Option Nat) := do
  let cve ← vec[bbidToMove]?
  check (cve.chainId = obsoleteChainId)
  pure (vec.set bbidToMove { cve with chainId := replaceWithThisChainId }, cve.nextBbidThisChain)

/-- The "to" chain is swallowed up by the "from" chain. -/
def MergeState.link (s : MergeState) (e : EdgeEntry) (fromEntry toEntry : ChainVecEntry) :
    Option MergeState := do
  check (fromEntry.nextBbidThisChain = none)
  check (toEntry.prevBbidThisChain = none)
  let obsoleteChainId := toEntry.chainId
  let replaceWithThisChainId := fromEntry.chainId
  check (obsoleteChainId ≠ replaceWithThisChainId)
  let vec := (s.theChainsVec.set e.fromBbid
    { fromEntry with nextBbidThisChain := some e.toBbid }).set e.toBbid
    { toEntry with prevBbidThisChain := some e.fromBbid }
  let head ← s.chainId2HeadOfChain.lookup obsoleteChainId
  let vec ← walk (relabel obsoleteChainId replaceWithThisChainId) (vec.length + 1) vec (some head)
  pure { s with
    theChainsVec := vec
    chainId2HeadOfChain := s.chainId2HeadOfChain.erase obsoleteChainId
    chainIdsThatNoLongerExist := s.chainIdsThatNoLongerExist ++ [obsoleteChainId] }

/-- One edge of the main loop of `merge_chains`. -/
def MergeState.mergeEdge (o : HotBlockCalcOracle) (s : MergeState) (e : EdgeEntry) :
    Option MergeState := do
  let fromEntry ← s.theChainsVec[e.fromBbid]?
  let toEntry ← s.theChainsVec[e.toBbid]?
  if fromEntry.chainId ≠ toEntry.chainId ∧ fromEntry.nextBbidThisChain = none ∧
      toEntry.prevBbidThisChain = none ∧
      o.isBlockInlined e.fromBbid = o.isBlockInlined e.toBbid then
    s.link e fromEntry toEntry
  else if fromEntry.chainId ≠ toEntry.chainId ∧
      o.isBlockInlined e.fromBbid = o.isBlockInlined e.toBbid then
    pure { s with interChainEdges := s.interChainEdges ++ [e] }
  else pure s

def initHead (vec : List ChainVecEntry) (heads : ChainHeads) (bbid : Nat) :
    Option ChainHeads := do
  let cve ← vec[bbid]?
  check (cve.chainId = bbid)
  check (cve.chainId ∉ heads)
  pure (heads.insert cve.chainId bbid)

/-- The chain ids in use and those given up are exactly `0, …, numBBs - 1`. -/
def MergeState.checkChainIds (numBBs : Nat) (s : MergeState) : Option Unit := do
  let ids := s.theChainsVec.map (·.chainId)
  check (∀ chainId ∈ ids, chainId ∈ s.chainId2HeadOfChain)
  let chainIdsThatDoExist := (sortIds ids).destutter (· ≠ ·)
  check (s.chainId2HeadOfChain.keys.length = chainIdsThatDoExist.length)
  let checkVec := sortIds (chainIdsThatDoExist ++ s.chainIdsThatNoLongerExist)
  check (checkVec.length = numBBs)
  check (checkVec = List.range checkVec.length)

def isIntraChain (vec : List ChainVecEntry) (e : EdgeEntry) : Option Bool := do
  let fromEntry ← vec[e.fromBbid]?
  let toEntry ← vec[e.toBbid]?
  pure (fromEntry.chainId == toEntry.chainId)

/-- The loop that drops the edges that later merging has put inside a chain: the last edge
takes the place of the dropped one. -/
def removeIntraChainEdges (vec : List ChainVecEntry) :
    Nat → Nat → List EdgeEntry → Option (List EdgeEntry)
  | 0, _, _ => none
  | fuel + 1, i, edges =>
    match edges[i]?, edges.getLast? with
    | some e, some back => do
      if ← isIntraChain vec e then removeIntraChainEdges vec fuel i (edges.set i back).dropLast
      else removeIntraChainEdges vec fuel (i + 1) edges
    | _, _ => some edges

def mergeChains (s : EdgeSort) (o : HotBlockCalcOracle) (numBBs : Nat)
    (theChainsVec : List ChainVecEntry) (theEdgesSorted : List EdgeEntry) :
    Option MergeState := do
  let heads ← (List.range numBBs).foldlM (initHead theChainsVec) ∅
  let m ← theEdgesSorted.foldlM (MergeState.mergeEdge o) ⟨theChainsVec, heads, [], []⟩
  m.checkChainIds numBBs
  let edges ← removeIntraChainEdges m.theChainsVec (m.interChainEdges.length + 1) 0
    m.interChainEdges
  let edges := s.sort edges
  check (NoAdjacentEqual edges)
  pure { m with interChainEdges := edges }

/-! ## Placing chains -/

/-- `dictionary_hash<unsigned, bool>` -/
abbrev PlacedChains := AList (fun _ : Nat => Bool)

section Place

variable (o : HotBlockCalcOracle) (workingOnInlinedChains : Bool) (vec : List ChainVecEntry)

/-- The loop of `find_next_chain`: the chain after the first edge out of a placed chain. -/
def findNextLoop (placedChains : PlacedChains) : List EdgeEntry → Option (Option Nat)
  | [] => some none
  | e :: edges => do
    let fromEntry ← vec[e.fromBbid]?
    let toEntry ← vec[e.toBbid]?
    check (fromEntry.chainId ≠ toEntry.chainId)
    check (placedChains.lookup toEntry.chainId = some false)
    check (o.isBlockInlined e.fromBbid = workingOnInlinedChains)
    check (o.isBlockInlined e.toBbid = workingOnInlinedChains)
    if ← placedChains.lookup fromEntry.chainId then pure (some toEntry.chainId)
    else findNextLoop placedChains edges

def findNextChain (placedChains : PlacedChains) (interChainEdges : List EdgeEntry) :
    Option Nat := do
  check (IsSorted interChainEdges)
  check (NoAdjacentEqual interChainEdges)
  match ← findNextLoop o workingOnInlinedChains vec placedChains interChainEdges with
  | some chainId => pure chainId
  | none => do
    -- a disconnected chain graph
    let e ← interChainEdges.head?
    let fromEntry ← vec[e.fromBbid]?
    pure fromEntry.chainId

/-- Drops the edges that lead to the chain that was just placed. -/
def dropEdgesTo (placemeChainId : Nat) (interChainEdges : List EdgeEntry) :
    Option (List EdgeEntry) :=
  interChainEdges.foldlM (fun remaining e => do
    let toEntry ← vec[e.toBbid]?
    pure (if toEntry.chainId = placemeChainId then remaining else remaining ++ [e])) []

/-- One chain of the loop that places what no edge leads to. The chain that is marked is
`placeme_chain_id`, not the one that is placed. -/
def placeDisconnected (placemeChainId : Nat) (s : List Nat × PlacedChains) (chainId : Nat) :
    Option (List Nat × PlacedChains) := do
  if ← s.2.lookup chainId then pure s
  else pure (s.1 ++ [chainId], s.2.insert placemeChainId true)

/-- The `while (true)` of `place_chain`. -/
def placeLoop (allChainsToPlace : List Nat) : Nat → Nat → List Nat → PlacedChains →
    List EdgeEntry → Option (List Nat × PlacedChains)
  | 0, _, _, _, _ => none
  | fuel + 1, placemeChainId, chainsOrdering, placedChains, interChainEdges => do
    let chainsOrdering := chainsOrdering ++ [placemeChainId]
    check (placedChains.lookup placemeChainId = some false)
    let placedChains := placedChains.insert placemeChainId true
    let interChainEdges ← dropEdgesTo vec placemeChainId interChainEdges
    check (IsSorted interChainEdges)
    if interChainEdges.length = 0 then
      allChainsToPlace.foldlM (placeDisconnected placemeChainId) (chainsOrdering, placedChains)
    else do
      let placemeChainId ← findNextChain o workingOnInlinedChains vec placedChains interChainEdges
      check (placemeChainId ≠ uintMax)
      placeLoop allChainsToPlace fuel placemeChainId chainsOrdering placedChains interChainEdges

/-- `place_chain`; every round of its loop places a chain. -/
def placeChain (placemeChainId : Nat) (allChainsToPlace chainsOrdering : List Nat)
    (placedChains : PlacedChains) (interChainEdges : List EdgeEntry) :
    Option (List Nat × PlacedChains) := do
  check (IsSorted interChainEdges)
  check (NoAdjacentEqual interChainEdges)
  let edges := interChainEdges.filter fun e =>
    o.isBlockInlined e.fromBbid == workingOnInlinedChains &&
    o.isBlockInlined e.toBbid == workingOnInlinedChains
  placeLoop o workingOnInlinedChains vec allChainsToPlace (allChainsToPlace.length + 1)
    placemeChainId chainsOrdering placedChains edges

/-- One block of `add_to`. -/
def addBlock (chainId : Nat) (theBlockIds : List Nat) (bbid : Nat) :
    Option (List Nat × Option Nat) := do
  check (o.isBlockInlined bbid = workingOnInlinedChains)
  let cve ← vec[bbid]?
  check (cve.chainId = chainId)
  pure (theBlockIds ++ [bbid], cve.nextBbidThisChain)

/-- The call of `add_to` for one chain. -/
def addChain (heads : ChainHeads) (theBlockIds : List Nat) (chainId : Nat) :
    Option (List Nat) := do
  let headOfChainBbid ← heads.lookup chainId
  walk (addBlock o workingOnInlinedChains vec chainId) (vec.length + 1) theBlockIds
    (some headOfChainBbid)

/-- One block of `print_1chain_bbids`. -/
def printBlock (chainId : Nat) (printed : List Nat) (bbid : Nat) :
    Option (List Nat × Option Nat) := do
  let cve ← vec[bbid]?
  check (cve.chainId = chainId)
  pure (printed ++ [bbid], cve.nextBbidThisChain)

/-- The listing of the hot chains; of the text, the ids are kept. -/
def printHotChains (heads : ChainHeads) : Option (List (Nat × List Nat)) :=
  heads.entries.foldlM (fun printed c =>
    if o.isBlockInlined c.2 then do
      let bbids ← walk (printBlock vec c.1) (vec.length + 1) [] (some c.2)
      pure (printed ++ [(c.1, bbids)])
    else pure printed) []

/-- The chains to place, in the order of their first blocks. -/
def chainsToPlace : List Nat :=
  (vec.zipIdx.filter fun c => decide (c.1.prevBbidThisChain = none) &&
    (o.isBlockInlined c.2 == workingOnInlinedChains)).map (·.1.chainId)

end Place

/-- `placedChains`, before anything is placed. -/
def noChainPlaced (heads : ChainHeads) : Option PlacedChains :=
  heads.keys.foldlM (fun placedChains chainId => do
    check (chainId ∉ placedChains)
    pure (placedChains.insert chainId false)) ∅

/-- Both vectors have been sorted and must be the same. -/
def checkPlaced (chainsOrdering allChainsToPlace : List Nat) : Option Unit :=
  check (sortIds chainsOrdering = sortIds allChainsToPlace)

/-- Step 5: place the cold chains, beginning with the hottest of the cold blocks. -/
def placeOutlined (o : HotBlockCalcOracle) (m : MergeState) (allOutlinedChainsToPlace : List Nat)
    (placedChains : PlacedChains) : Option (List Nat × PlacedChains) := do
  match ← o.getHottestOfTheColdBlocks with
  | none => pure ([], placedChains)
  | some bbid => do
    let cve ← m.theChainsVec[bbid]?
    placeChain o false m.theChainsVec cve.chainId allOutlinedChainsToPlace [] placedChains
      m.interChainEdges

/-- Steps 4 and 5, with the assertions that follow each of them. -/
def placeAllChains (o : HotBlockCalcOracle) (fn : Cfg) (m : MergeState) :
    Option (List Nat × List Nat) := do
  let placedChains ← noChainPlaced m.chainId2HeadOfChain
  let allInlinedChainsToPlace := chainsToPlace o true m.theChainsVec
  let allOutlinedChainsToPlace := chainsToPlace o false m.theChainsVec
  check (allInlinedChainsToPlace.length + allOutlinedChainsToPlace.length =
    placedChains.keys.length)
  let entry ← m.theChainsVec[fn.entryBB]?
  let (inlinedChainsOrdering, placedChains) ← placeChain o true m.theChainsVec entry.chainId
    allInlinedChainsToPlace [] placedChains m.interChainEdges
  checkPlaced inlinedChainsOrdering allInlinedChainsToPlace
  let (outlinedChainsOrdering, _) ← placeOutlined o m allOutlinedChainsToPlace placedChains
  checkPlaced outlinedChainsOrdering allOutlinedChainsToPlace
  check ((sortIds (inlinedChainsOrdering ++ outlinedChainsOrdering)).IsChain (· ≠ ·))
  check (inlinedChainsOrdering.length + outlinedChainsOrdering.length =
    m.chainId2HeadOfChain.keys.length)
  pure (inlinedChainsOrdering, outlinedChainsOrdering)

/-- The chains vector before any merging. -/
def initialChainsVec (numBBs : Nat) : List ChainVecEntry :=
  table numBBs fun bbid => ⟨bbid, none, none⟩

/-- The inlined and the outlined block ids, in the order in which they are emitted. -/
def pickBlockOrderingChains (s : EdgeSort) (o : HotBlockCalcOracle) (fn : Cfg) :
    Option (List Nat × List Nat) := do
  let theEdges ← collectEdges o fn
  let m ← mergeChains s o fn.numBBs (initialChainsVec fn.numBBs) (s.sort theEdges)
  check (IsSorted m.interChainEdges)
  check (NoAdjacentEqual m.interChainEdges)
  let _ ← printHotChains o m.theChainsVec m.chainId2HeadOfChain
  let (inlined, outlined) ← placeAllChains o fn m
  let theInlinedBlockIds ← inlined.foldlM
    (addChain o true m.theChainsVec m.chainId2HeadOfChain) []
  let theOutlinedBlockIds ← outlined.foldlM
    (addChain o false m.theChainsVec m.chainId2HeadOfChain) []
  pure (theInlinedBlockIds, theOutlinedBlockIds)

/-! ## What the caller requires -/

def chosenHotAndColdBlockOrderingsOK (o : HotBlockCalcOracle)
    (chosenHotBlocks chosenColdBlocks : List Nat) : Option Unit := do
  let allBlocks := sortIds (chosenHotBlocks ++ chosenColdBlocks)
  check (allBlocks.length = o.fn.numBBs ∧ allBlocks.IsChain (· ≠ ·))
  check (∀ bbid ∈ chosenHotBlocks, o.isBlockInlined bbid = true)
  check (∀ bbid ∈ chosenColdBlocks, o.isBlockInlined bbid = false)

/-- Step 1 of `pickBlockOrderingAndEmit1Fn`, with the chains as its block ordering. -/
def pickBlockOrderingToEmit (s : EdgeSort) (o : HotBlockCalcOracle) (fn : Cfg) :
    Option (List Nat × List Nat) := do
  let (theInlinedBlockIds, theOutlinedBlockIds) ← pickBlockOrderingChains s o fn
  check (theInlinedBlockIds.head? = some fn.entryBB)
  chosenHotAndColdBlockOrderingsOK o theInlinedBlockIds theOutlinedBlockIds
  pure (theInlinedBlockIds, theOutlinedBlockIds)

end Kerninst
