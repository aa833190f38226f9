import Mathlib.Data.List.AList
import Mathlib.Data.Finset.Basic
import Kerninst.Lib.Checked
import Kerninst.Function.Cfg

/-!
# Reconstructing edge counts from block counts

The class `fnBlockAndEdgeCounts` gets the execution counts of the blocks of a
function and works out how often each edge was taken. Whatever block has a known
count and exactly one unknown edge on one side determines that edge; a working set
of blocks drives this to convergence. What is then still unknown is *fudged*: every
remaining edge gets the largest value its two ends allow, and so do the pseudo-blocks
without a known count, which are marked as such.

`UINT_MAX` stands for an unknown count, and sums wrap at 32 bits, as in the source.
Every `assert`, and every lookup of an absent dictionary key or block, is a failing
computation. The working set hands out its blocks in an order of its own;
`WorklistStep` allows any order, and `getAndRemoveAny` is the order of the source.
-/

namespace Kerninst

/-- `edge_id` -/
structure EdgeId where
  fromBbid : BBId
  toBbid : BBId
deriving DecidableEq, Repr

/-- `dictionary_hash<edge_id, unsigned>` -/
abbrev EdgeDict := AList (fun _ : EdgeId => Nat)

/-- `fnBlockAndEdgeCounts` -/
structure BlockAndEdgeCounts where
  fn : Cfg
  regBlockCounts : Nat → Nat
  succsOfEntryBlock : List BBId
  predsOfExitBlocks : SpecialId → List BBId
  /-- the count, and whether it is fudged -/
  specialBlockCounts : SpecialId → Nat × Bool
  edgeCounts : EdgeDict
  numFudgedEdges : Nat

/-- What `GetKnownSuccsInfo` and `GetKnownPredsInfo` return. -/
structure KnownInfo where
  sumOfKnown : Nat
  numUnknown : Nat
  sumOfUnknown : Nat
  anUnknown : Option BBId
deriving DecidableEq, Repr

namespace BlockAndEdgeCounts

/-! ## The neighbours of a block -/

/-- The successors that the code visits, of any kind of block. -/
def succsOf (c : BlockAndEdgeCounts) : BBId → Option (List BBId)
  | .special .dummyEntry => do
    check (c.succsOfEntryBlock.length = 1)
    pure c.succsOfEntryBlock
  | .special _ => some []
  | .reg n => do
    let bb ← c.fn.getBasicBlockFromId n
    pure bb.succs
  | .unanalyzable => none

/-- The predecessors that the code visits. The entry block has the dummy entry block as
one more predecessor. -/
def predsOf (c : BlockAndEdgeCounts) : BBId → Option (List BBId)
  | .special .dummyEntry => some []
  | .special s => some (c.predsOfExitBlocks s)
  | .reg n => do
    let bb ← c.fn.getBasicBlockFromId n
    pure (if n = c.fn.entryBB then bb.preds ++ [.special .dummyEntry] else bb.preds)
  | .unanalyzable => none

/-! ## Special block counts -/

def tryToUpdateEntryBlockCount (c : BlockAndEdgeCounts) : Option BlockAndEdgeCounts := do
  check ((c.specialBlockCounts .dummyEntry).1 = uintMax)
  check (c.succsOfEntryBlock.length = 1)
  let succBbid ← c.succsOfEntryBlock.head?
  let count ← c.edgeCounts.lookup ⟨.special .dummyEntry, succBbid⟩
  if count = uintMax then pure c
  else do
    check ((c.specialBlockCounts .dummyEntry).2 = false)
    pure { c with specialBlockCounts :=
      Function.update c.specialBlockCounts .dummyEntry (count, false) }

/-- The loop of `tryToUpdateExitBlockCount`; `some none` is its early return. -/
def sumPredEdges (c : BlockAndEdgeCounts) (s : SpecialId) : List BBId → Nat →
    Option (Option Nat)
  | [], sum => some (some sum)
  | pred :: preds, sum => do
    let count ← c.edgeCounts.lookup ⟨pred, .special s⟩
    if count = uintMax then pure none
    else sumPredEdges c s preds ((sum + count) % 2 ^ 32)

def tryToUpdateExitBlockCount (c : BlockAndEdgeCounts) (s : SpecialId) :
    Option BlockAndEdgeCounts := do
  check ((c.specialBlockCounts s).1 = uintMax)
  match ← sumPredEdges c s (c.predsOfExitBlocks s) 0 with
  | none => pure c
  | some sum => do
    check ((c.specialBlockCounts s).2 = false)
    pure { c with specialBlockCounts := Function.update c.specialBlockCounts s (sum, false) }

def tryToUpdateSpecialBlockCount (c : BlockAndEdgeCounts) :
    SpecialId → Option BlockAndEdgeCounts
  | .dummyEntry => c.tryToUpdateEntryBlockCount
  | s => c.tryToUpdateExitBlockCount s

/-- A loop over edges that counts the unknown ones. -/
def countUnknown (c : BlockAndEdgeCounts) (edge : BBId → EdgeId) (others : List BBId) :
    Option Nat :=
  others.foldlM (fun result other => do
    let count ← c.edgeCounts.lookup (edge other)
    pure (if count = uintMax then result + 1 else result)) 0

def getNumUncalculatedSuccEdges (c : BlockAndEdgeCounts) (bbid : BBId) : Option Nat := do
  c.countUnknown (fun succ => ⟨bbid, succ⟩) (← c.succsOf bbid)

def getNumUncalculatedPredEdges (c : BlockAndEdgeCounts) (bbid : BBId) : Option Nat := do
  c.countUnknown (fun pred => ⟨pred, bbid⟩) (← c.predsOf bbid)

/-- The count of the block `pred`, a regular one. -/
def regBlockCount (c : BlockAndEdgeCounts) : BBId → Option Nat
  | .reg n => do
    check (n < c.fn.numBBs)
    pure (c.regBlockCounts n)
  | _ => none

/-- `fudgeSpecialBlockCount` -/
def fudgeSpecialBlockCount (c : BlockAndEdgeCounts) (s : SpecialId) : Option Nat :=
  if (c.specialBlockCounts s).1 ≠ uintMax then some uintMax
  else match s with
  | .dummyEntry => do
    let unknown ← c.getNumUncalculatedSuccEdges (.special .dummyEntry)
    check (unknown ≠ 0)
    check (c.succsOfEntryBlock.length = 1)
    let succBbid ← c.succsOfEntryBlock.head?
    let upperBound ← c.regBlockCount succBbid
    let count ← c.edgeCounts.lookup ⟨.special .dummyEntry, succBbid⟩
    check (count = uintMax)
    pure upperBound
  | s => do
    let unknown ← c.getNumUncalculatedPredEdges (.special s)
    check (unknown ≠ 0)
    -- the sum of the known edges, and that of the block counts behind the unknown ones
    let (known, behind) ← (c.predsOfExitBlocks s).foldlM (fun (known, behind) pred => do
      let count ← c.edgeCounts.lookup ⟨pred, .special s⟩
      if count ≠ uintMax then pure ((known + count) % 2 ^ 32, behind)
      else do
        let blockCount ← c.regBlockCount pred
        pure (known, (behind + blockCount) % 2 ^ 32)) ((0, 0) : Nat × Nat)
    let upperBound := (known + behind) % 2 ^ 32
    check (upperBound ≥ known)
    pure upperBound

/-! ## What is known around a block -/

/-- The common body of `proc1SuccEdge` and `proc1PredEdge`: account for the edge to or from
`other`. -/
def proc1Edge (c : BlockAndEdgeCounts) (edge : EdgeId) (other : BBId) (blockCount : Nat)
    (info : KnownInfo) : Option KnownInfo := do
  check (blockCount ≠ uintMax)
  let edgeCount ← c.edgeCounts.lookup edge
  if edgeCount ≠ uintMax then
    let sumOfUnknown := (info.sumOfUnknown + 2 ^ 32 - edgeCount) % 2 ^ 32
    pure { info with
      sumOfKnown := (info.sumOfKnown + edgeCount) % 2 ^ 32
      -- underflow
      sumOfUnknown := if sumOfUnknown > blockCount then 0 else sumOfUnknown }
  else pure { info with numUnknown := info.numUnknown + 1, anUnknown := some other }

def proc1SuccEdge (c : BlockAndEdgeCounts) (bbid succBbid : BBId) :=
  c.proc1Edge ⟨bbid, succBbid⟩ succBbid

def proc1PredEdge (c : BlockAndEdgeCounts) (bbid predBbid : BBId) :=
  c.proc1Edge ⟨predBbid, bbid⟩ predBbid

/-- The stored or fudged count of a block. -/
def storedBlockCount (c : BlockAndEdgeCounts) (fudge : Bool) : BBId → Option Nat
  | .special s =>
    if (c.specialBlockCounts s).1 = uintMax ∧ fudge then c.fudgeSpecialBlockCount s
    else some (c.specialBlockCounts s).1
  | bbid => c.regBlockCount bbid

/-- The block count that `GetKnownSuccsInfo` and `GetKnownPredsInfo` start from; `some none`
is an unknown one, on which they return false. -/
def blockCountFor (c : BlockAndEdgeCounts) (bbid : BBId) (fudge : Bool) : Option (Option Nat) := do
  let blockCount ← c.storedBlockCount fudge bbid
  if blockCount = uintMax then do
    check (fudge = false)
    pure none
  else pure (some blockCount)

def getKnownSuccsInfo (c : BlockAndEdgeCounts) (bbid : BBId) (fudge : Bool) :
    Option (Option KnownInfo) := do
  match ← c.blockCountFor bbid fudge with
  | none => pure none
  | some blockCount => do
    let info ← (← c.succsOf bbid).foldlM (fun info succBbid => do
      check (succBbid ≠ .unanalyzable)
      c.proc1SuccEdge bbid succBbid blockCount info) ⟨0, 0, blockCount, none⟩
    pure (some info)

def getKnownPredsInfo (c : BlockAndEdgeCounts) (bbid : BBId) (fudge : Bool) :
    Option (Option KnownInfo) := do
  match ← c.blockCountFor bbid fudge with
  | none => pure none
  | some blockCount => do
    let info ← (← c.predsOf bbid).foldlM (fun info predBbid =>
      c.proc1PredEdge bbid predBbid blockCount info) ⟨0, 0, blockCount, none⟩
    pure (some info)

/-! ## One block of the working set -/

/-- Write an unknown edge and add the block at its other end to the working set. -/
def determineEdge (c : BlockAndEdgeCounts) (ws : Finset BBId) (edge : BBId → EdgeId)
    (info : KnownInfo) : Option (BlockAndEdgeCounts × Finset BBId) := do
  let other ← info.anUnknown
  let edgeCount ← c.edgeCounts.lookup (edge other)
  check (edgeCount = uintMax)
  check (info.sumOfUnknown ≠ uintMax)
  pure ({ c with edgeCounts := c.edgeCounts.insert (edge other) info.sumOfUnknown },
    insert other ws)

def tryToUpdateExactEdgeCounts1NodeDueToSuccs (c : BlockAndEdgeCounts) (ws : Finset BBId)
    (bbid : BBId) : Option (BlockAndEdgeCounts × Finset BBId) := do
  match ← c.getKnownSuccsInfo bbid false with
  | some info =>
    if info.numUnknown = 1 then c.determineEdge ws (fun succ => ⟨bbid, succ⟩) info
    else pure (c, ws)
  | none => pure (c, ws)

def tryToUpdateExactEdgeCounts1NodeDueToPreds (c : BlockAndEdgeCounts) (ws : Finset BBId)
    (bbid : BBId) : Option (BlockAndEdgeCounts × Finset BBId) := do
  match ← c.getKnownPredsInfo bbid false with
  | some info =>
    if info.numUnknown = 1 then c.determineEdge ws (fun pred => ⟨pred, bbid⟩) info
    else pure (c, ws)
  | none => pure (c, ws)

/-- The part of `tryToUpdateExactInfo1Node` for pseudo-blocks. -/
def tryToUpdateBlockCount1Node (c : BlockAndEdgeCounts) : BBId → Option BlockAndEdgeCounts
  | .special s =>
    if (c.specialBlockCounts s).1 = uintMax then c.tryToUpdateSpecialBlockCount s else some c
  | _ => some c

def tryToUpdateExactInfo1Node (c : BlockAndEdgeCounts) (ws : Finset BBId) (bbid : BBId) :
    Option (BlockAndEdgeCounts × Finset BBId) := do
  let c ← c.tryToUpdateBlockCount1Node bbid
  let (c, ws) ← c.tryToUpdateExactEdgeCounts1NodeDueToSuccs ws bbid
  c.tryToUpdateExactEdgeCounts1NodeDueToPreds ws bbid

/-! ## The working set -/

/-- One round of the loop of `setEdgeCounts`, for any choice of a block of the working
set. -/
inductive WorklistStep : BlockAndEdgeCounts × Finset BBId → BlockAndEdgeCounts × Finset BBId → Prop
  | node {c c' : BlockAndEdgeCounts} {ws ws' : Finset BBId} {bbid : BBId} : bbid ∈ ws →
      c.tryToUpdateExactInfo1Node (ws.erase bbid) bbid = some (c', ws') →
      WorklistStep (c, ws) (c', ws')

/-- The blocks in the order in which `get_and_remove_any` prefers them. -/
def preference (fn : Cfg) : List BBId :=
  [.special .dummyEntry, .special .interProcBranchExit, .special .xExit] ++
    (List.range fn.numBBs).map .reg

/-- The block that `get_and_remove_any` hands out. -/
def getAndRemoveAny (fn : Cfg) (ws : Finset BBId) : Option BBId :=
  (preference fn).find? fun bbid => decide (bbid ∈ ws)

/-- The loop of `setEdgeCounts` in the source's order, for at most `fuel` rounds. -/
def runWorklist : Nat → BlockAndEdgeCounts → Finset BBId → Option BlockAndEdgeCounts
  | 0, _, _ => none
  | fuel + 1, c, ws =>
    if ws = ∅ then some c
    else do
      let bbid ← getAndRemoveAny c.fn ws
      let (c, ws) ← c.tryToUpdateExactInfo1Node (ws.erase bbid) bbid
      runWorklist fuel c ws

/-- The set of all blocks, with which the working set starts. -/
def allBlocks (fn : Cfg) : Finset BBId := (preference fn).toFinset

/-! ## Before the working set -/

/-- `predsOfExitBlocks.get(succ_bbid) += bbid` -/
def addPredOfExit (c : BlockAndEdgeCounts) (s : SpecialId) (bbid : BBId) : BlockAndEdgeCounts :=
  { c with predsOfExitBlocks :=
      Function.update c.predsOfExitBlocks s (c.predsOfExitBlocks s ++ [bbid]) }

/-- The successor of an edge notes the edge, or must already know of it. -/
def initSucc (c : BlockAndEdgeCounts) (n : Nat) : BBId → Option BlockAndEdgeCounts
  | .unanalyzable => none
  | .special .dummyEntry => none
  | .special s => some (c.addPredOfExit s (.reg n))
  | .reg m => do
    let succ ← c.fn.getBasicBlockFromId m
    check (BBId.reg n ∈ succ.preds)
    pure c

/-- One successor edge of the initialization loop. -/
def initEdge (c : BlockAndEdgeCounts) (n : Nat) (succBbid : BBId) : Option BlockAndEdgeCounts := do
  let c ← c.initSucc n succBbid
  check (⟨.reg n, succBbid⟩ ∉ c.edgeCounts)
  pure { c with edgeCounts := c.edgeCounts.insert ⟨.reg n, succBbid⟩ uintMax }

/-- One block of the initialization loop. -/
def initBlock (c : BlockAndEdgeCounts) (n : Nat) : Option BlockAndEdgeCounts := do
  let bb ← c.fn.getBasicBlockFromId n
  bb.succs.foldlM (fun c succBbid => c.initEdge n succBbid) c

/-- The part of `setEdgeCounts` before its loop over the working set. -/
def initEdges (fn : Cfg) (regBlockCounts : Nat → Nat) : Option BlockAndEdgeCounts := do
  let c ← (List.range fn.numBBs).foldlM initBlock
    { fn := fn
      regBlockCounts := regBlockCounts
      succsOfEntryBlock := [.reg fn.entryBB]
      predsOfExitBlocks := fun _ => []
      specialBlockCounts := fun _ => (uintMax, false)
      edgeCounts := (∅ : EdgeDict).insert ⟨.special .dummyEntry, .reg fn.entryBB⟩ uintMax
      numFudgedEdges := uintMax }
  -- `no_dups`
  check (c.predsOfExitBlocks .interProcBranchExit).Nodup
  check (c.predsOfExitBlocks .xExit).Nodup
  pure c

/-! ## After the working set -/

/-- `have_calculated_all_edges_possible` -/
def haveCalculatedAllEdgesPossible (c : BlockAndEdgeCounts) : Option Bool := do
  let regOk ← (List.range c.fn.numBBs).foldlM (fun ok n => do
    if ok then
      check (c.regBlockCounts n ≠ uintMax)
      let succs ← c.getNumUncalculatedSuccEdges (.reg n)
      let preds ← c.getNumUncalculatedPredEdges (.reg n)
      pure (decide (succs ≠ 1 ∧ preds ≠ 1))
    else pure false) true
  if regOk = false then pure false
  else do
    let entry ← c.getNumUncalculatedSuccEdges (.special .dummyEntry)
    let branch ← c.getNumUncalculatedPredEdges (.special .interProcBranchExit)
    let exit ← c.getNumUncalculatedPredEdges (.special .xExit)
    pure (decide (
      ((c.specialBlockCounts .dummyEntry).1 ≠ uintMax → entry ≠ 1) ∧
      ((c.specialBlockCounts .interProcBranchExit).1 ≠ uintMax → branch ≠ 1) ∧
      ((c.specialBlockCounts .xExit).1 ≠ uintMax → exit ≠ 1)))

/-- Whether a regular block has the given successor. -/
def hasSuccessor (c : BlockAndEdgeCounts) : BBId → BBId → Option Bool
  | .reg n, succBbid => do
    let bb ← c.fn.getBasicBlockFromId n
    pure (decide (succBbid ∈ bb.succs))
  | _, _ => none

/-- Whether a regular block has the given predecessor. -/
def hasPredecessor (c : BlockAndEdgeCounts) : BBId → BBId → Option Bool
  | .reg n, predBbid => do
    let bb ← c.fn.getBasicBlockFromId n
    pure (decide (predBbid ∈ bb.preds))
  | _, _ => none

/-- The assertion of `calcEdgesThatNeedFudging` about an edge. -/
def checkEdge (c : BlockAndEdgeCounts) (id : EdgeId) : Option Unit :=
  match id.fromBbid with
  | .special _ => some ()
  | fromBbid => do check ((← c.hasSuccessor fromBbid id.toBbid) = true)

/-- `calcEdgesThatNeedFudging` -/
def calcEdgesThatNeedFudging (c : BlockAndEdgeCounts) : Option (List EdgeId) :=
  c.edgeCounts.keys.foldlM (fun result id => do
    c.checkEdge id
    let count ← c.edgeCounts.lookup id
    pure (if count = uintMax then result ++ [id] else result)) []

/-- `knownBlockCount` -/
def knownBlockCount (c : BlockAndEdgeCounts) : BBId → Bool
  | .special s => decide ((c.specialBlockCounts s).1 ≠ uintMax)
  | _ => true

/-- `calc1FudgedEdgeCount` -/
def calc1FudgedEdgeCount (c : BlockAndEdgeCounts) (id : EdgeId) : Option Nat := do
  let succs ← (← c.getKnownSuccsInfo id.fromBbid true)
  check (succs.numUnknown ≠ 0)
  check ¬(succs.numUnknown = 1 ∧ c.knownBlockCount id.fromBbid)
  let preds ← (← c.getKnownPredsInfo id.toBbid true)
  check (preds.numUnknown ≠ 0)
  check ¬(preds.numUnknown = 1 ∧ c.knownBlockCount id.toBbid)
  pure (if succs.sumOfUnknown < preds.sumOfUnknown then succs.sumOfUnknown
    else preds.sumOfUnknown)

/-- The assertions of `fudgeRemainingEdges` about an edge. -/
def checkFudgedEdge (c : BlockAndEdgeCounts) (id : EdgeId) : Option Unit :=
  if id.fromBbid = .special .dummyEntry then some ()
  else do
    check ((← c.hasSuccessor id.fromBbid id.toBbid) = true)
    if id.toBbid = .special .interProcBranchExit ∨ id.toBbid = .special .xExit then some ()
    else check ((← c.hasPredecessor id.toBbid id.fromBbid) = true)

/-- The first loop of `fudgeRemainingEdges`, for one edge. -/
def fudge1Edge (c : BlockAndEdgeCounts) (fudged : EdgeDict) (id : EdgeId) : Option EdgeDict := do
  c.checkFudgedEdge id
  let count ← c.calc1FudgedEdgeCount id
  pure (fudged.insert id count)

def fudgeRemainingEdges (c : BlockAndEdgeCounts) : Option BlockAndEdgeCounts := do
  let edgesThatNeedFudging ← c.calcEdgesThatNeedFudging
  let fudged ← edgesThatNeedFudging.foldlM c.fudge1Edge ∅
  check (fudged.keys.length = edgesThatNeedFudging.length)
  -- the fudged values are assigned together, so that they do not affect each other
  edgesThatNeedFudging.foldlM (fun c id => do
    let count ← c.edgeCounts.lookup id
    check (count = uintMax)
    let count ← fudged.lookup id
    pure { c with edgeCounts := c.edgeCounts.insert id count })
    { c with numFudgedEdges := fudged.keys.length }

/-- The count of a pseudo-block that `setEdgeCounts` keeps aside while it fudges edges. -/
def specialBlockCountOrFudge (c : BlockAndEdgeCounts) (s : SpecialId) : Option (Nat × Bool) :=
  if (c.specialBlockCounts s).1 = uintMax then do
    let count ← c.fudgeSpecialBlockCount s
    pure (count, true)
  else do
    check ((c.specialBlockCounts s).2 = false)
    pure (c.specialBlockCounts s)

/-- Apply a fudged count of a pseudo-block. -/
def applyFudged (c : BlockAndEdgeCounts) (s : SpecialId) (count : Nat × Bool) :
    Option BlockAndEdgeCounts :=
  if count.2 = true then do
    check (count.1 ≠ uintMax)
    pure { c with specialBlockCounts := Function.update c.specialBlockCounts s count }
  else pure c

/-- The part of `setEdgeCounts` after its loop over the working set. -/
def finishEdges (c : BlockAndEdgeCounts) : Option BlockAndEdgeCounts := do
  check ((← c.haveCalculatedAllEdgesPossible) = true)
  let entryBlockCount ← c.specialBlockCountOrFudge .dummyEntry
  let interProcBranchExitBlockCount ← c.specialBlockCountOrFudge .interProcBranchExit
  let xExitBlockCount ← c.specialBlockCountOrFudge .xExit
  let c ← c.fudgeRemainingEdges
  let c ← c.applyFudged .dummyEntry entryBlockCount
  let c ← c.applyFudged .interProcBranchExit interProcBranchExitBlockCount
  c.applyFudged .xExit xExitBlockCount

/-- `setEdgeCounts`, and with it the constructor, in the source's order, with a bound on
the rounds of the loop over the working set. -/
def setEdgeCounts (fuel : Nat) (fn : Cfg) (regBlockCounts : Nat → Nat) :
    Option BlockAndEdgeCounts := do
  let c ← initEdges fn regBlockCounts
  let c ← runWorklist fuel c (allBlocks fn)
  c.finishEdges

end BlockAndEdgeCounts

end Kerninst
