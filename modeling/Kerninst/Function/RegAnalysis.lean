import Kerninst.Dataflow.Fn
import Kerninst.Function.Dfs

/-!
# Interprocedural register analysis of one function

`doInterProcRegisterAnalysis1Fn` computes a data-flow function for the top of each basic block. It
is a worklist algorithm, backwards over the graph: a ready set of blocks, by post-order number, at
first all of them; take one, compute its function anew from those of its successors, and if it
changed, overwrite it and put the predecessors into the ready set.

The code is the same for all architectures. So the data-flow functions are of any type, with the
operations of `DataflowOps`. Nothing is assumed of these, not even that `operator==` is reflexive,
and nothing of the effects that the oracle gives for callees.

The invariant (`RegAnalysis.Settled`) is that every block outside the ready set satisfies its
equation. A run that ends without giving up has an empty ready set, so the stored functions are
a solution of all the equations; a run that gives up stores the pessimistic function everywhere
(`doInterProcRegisterAnalysis1Fn_sound`). A run need not end: `none` is a run that fails an
assertion, or is still going on when the fuel is used up.
-/

namespace Kerninst

open List Option

/-! ## Ready sets -/

/-- `readySet`: which of the numbers are in the set, and how many. -/
structure ReadySet where
  theset : List Bool
  numCurrInSet : Nat
  verify : theset.count true = numCurrInSet

namespace ReadySet

/-- The constructor, with `true` for all. -/
def full (setsize : Nat) : ReadySet := ⟨List.replicate setsize true, setsize, by simp⟩

def contains (s : ReadySet) (ndx : Nat) : Prop := s.theset[ndx]? = some true

instance (s : ReadySet) (ndx : Nat) : Decidable (s.contains ndx) :=
  inferInstanceAs (Decidable (_ = _))

def empty (s : ReadySet) : Prop := s.numCurrInSet = 0

instance (s : ReadySet) : Decidable s.empty := inferInstanceAs (Decidable (_ = _))

theorem count_set_true {l : List Bool} {i : Nat} (h : l[i]? = some false) :
    (l.set i true).count true = l.count true + 1 := by
  obtain ⟨hi, hget⟩ := List.getElem?_eq_some_iff.mp h
  simp [count_set hi, hget]

theorem count_set_false {l : List Bool} {i : Nat} (h : l[i]? = some true) :
    (l.set i false).count true = l.count true - 1 := by
  obtain ⟨hi, hget⟩ := List.getElem?_eq_some_iff.mp h
  simp [count_set hi, hget]

/-- `operator+=` -/
def add (s : ReadySet) (ndx : Nat) : Option ReadySet :=
  if h : s.theset[ndx]? = some false then
    some ⟨s.theset.set ndx true, s.numCurrInSet + 1, by rw [count_set_true h, s.verify]⟩
  else (check (ndx < s.theset.length)).bind fun _ => some s

/-- `operator-=` -/
def remove (s : ReadySet) (ndx : Nat) : Option ReadySet :=
  if h : s.theset[ndx]? = some true then
    some ⟨s.theset.set ndx false, s.numCurrInSet - 1, by rw [count_set_false h, s.verify]⟩
  else (check (ndx < s.theset.length)).bind fun _ => some s

theorem not_contains_of_empty {s : ReadySet} (h : s.empty) (ndx : Nat) : ¬ s.contains ndx := by
  intro hmem
  have hpos : 0 < s.theset.count true := count_pos_iff.mpr (mem_of_getElem? hmem)
  have hzero : s.numCurrInSet = 0 := h
  rw [s.verify] at hpos
  omega

theorem contains_add {s s' : ReadySet} {ndx : Nat} (h : s.add ndx = some s') (i : Nat) :
    s'.contains i ↔ i = ndx ∨ s.contains i := by
  unfold add at h
  split at h
  case isTrue hfalse =>
    cases h
    have hlt := (List.getElem?_eq_some_iff.mp hfalse).1
    simp only [contains, getElem?_set]
    by_cases hi : ndx = i
    · simp [hi, hi ▸ hlt]
    · simp [hi, Ne.symm hi]
  case isFalse hnot =>
    obtain ⟨u, hlt, hs⟩ := exists_of_bind h
    cases hs
    have hlt := check_eq_some.mp hlt
    refine ⟨.inr, ?_⟩
    rintro (rfl | hi)
    · rw [getElem?_eq_getElem hlt] at hnot
      rw [contains, getElem?_eq_getElem hlt]
      simpa using hnot
    · exact hi

theorem contains_remove {s s' : ReadySet} {ndx : Nat} (h : s.remove ndx = some s') (i : Nat) :
    s'.contains i ↔ i ≠ ndx ∧ s.contains i := by
  unfold remove at h
  split at h
  case isTrue htrue =>
    cases h
    simp only [contains, getElem?_set]
    by_cases hi : ndx = i
    · simp [hi]
    · simp [hi, Ne.symm hi]
  case isFalse hnot =>
    obtain ⟨u, -, hs⟩ := exists_of_bind h
    cases hs
    refine ⟨fun hi => ⟨?_, hi⟩, And.right⟩
    rintro rfl
    exact hnot hi

end ReadySet

/-! ## Data-flow functions and oracles -/

/-- The operations of `monotone_bitwise_dataflow_fn` that the analysis uses. -/
structure DataflowOps (D : Type) where
  /-- `operator==` -/
  eq : D → D → Bool
  isDummy : D → Bool
  composeOverwriteParam : D → D → Except DataflowError D
  mergeWith : D → D → Bool → Except DataflowError D
  numPreSaveFramesManufactured : D → Nat
  numLevels : D → Nat
  numSavedWindows : D → Nat

/-- The operations of `sparc_bitwise_dataflow_fn`. The dummy function is the only one with
`UINT_MAX` manufactured frames. -/
def DataflowFn.ops : DataflowOps DataflowFn where
  eq := DataflowFn.eq
  isDummy f := f.numPreSaveFramesManufactured == uintMax
  composeOverwriteParam := DataflowFn.composeOverwriteParam
  mergeWith := DataflowFn.mergeWith
  numPreSaveFramesManufactured := DataflowFn.numPreSaveFramesManufactured
  numLevels f := f.below.length + 1
  numSavedWindows f := f.below.length

/-- What the oracle answers, with the lattice it carries. -/
structure Oracle (A : Type) (D : Type) where
  /-- `getMergeOp() == mergeopBitwiseOr` -/
  mergeWithBitOr : Bool
  optimisticDataflowFn : D
  pessimisticDataflowFn : A → D
  identityDataflowFn : D
  whenDestAddrIsKnown : A → D

/-- What the analysis reads of a function. -/
structure AnalyzedFn (A : Type) where
  cfg : Cfg
  entryAddr : A
  nullAddr : A
  /-- `getBBInterProcFallThruAddrIfAny` -/
  interProcFallThruAddr : Nat → Option A
  /-- `getBBInterProcBranchDestAddrIfAny` -/
  interProcBranchDestAddr : Nat → Option A
  containsAddr : A → Bool
  /-- the answer of `bypass_analysis` -/
  bypassAnalysis : Bool

inductive RegAnalysisDFSstate
  | unvisited
  | visitedButNotCompleted
  | completed
deriving DecidableEq, Repr

/-- What the analysis reads and writes of a function. -/
structure LiveRegInfo (D : Type) where
  dfsState : RegAnalysisDFSstate
  /-- `atTopOfBB` of each block -/
  liveRegisters : List D

/-! ## The analysis -/

section Analysis

variable {A : Type} {D : Type} (ops : DataflowOps D) (fn : AnalyzedFn A) (oracle : Oracle A D)

def getLiveRegFnForAnExitEdge (bbId : Nat) : SpecialId → Option D
  | .xExit =>
    match fn.interProcFallThruAddr bbId with
    | some addr => some (oracle.whenDestAddrIsKnown addr)
    | none => some oracle.identityDataflowFn
  | .interProcBranchExit => do
    let dest ← fn.interProcBranchDestAddr bbId
    check (fn.containsAddr dest = false)
    pure (oracle.whenDestAddrIsKnown dest)
  | .dummyEntry => none

/-- `calc1EdgeResult`, optimistic if undefined. -/
def calc1EdgeResult (live : List D) (bbId : Nat) : BBId → Option D
  | .special s => getLiveRegFnForAnExitEdge fn oracle bbId s
  | .unanalyzable => some (oracle.pessimisticDataflowFn fn.nullAddr)
  | .reg m => do
    let atTop ← live[m]?
    pure (if ops.isDummy atTop then oracle.optimisticDataflowFn else atTop)

/-- `inIsolation` composed with the result of an edge. -/
def composeEdge (live : List D) (inIsolation : D) (bbId : Nat) (succ : BBId) : Option D := do
  let succfn ← calc1EdgeResult ops fn oracle live bbId succ
  (ops.composeOverwriteParam inIsolation succfn).toOption

/-- The loop over the successors but the first. Inside, `none` is for giving up. -/
def mergeRest (live : List D) (inIsolation : D) (bbId : Nat) :
    List BBId → D → Option (Option D)
  | [], nu => some (some nu)
  | succ :: succs, nu => do
    let composition ← composeEdge ops fn oracle live inIsolation bbId succ
    match ops.mergeWith nu composition oracle.mergeWithBitOr with
    | .error .assertion => none
    | .error .disagreeingNumberOfPreSaveFramesInMerge => some none
    | .ok nu =>
      if ops.numPreSaveFramesManufactured nu ≠ ops.numPreSaveFramesManufactured composition then
        some none
      else mergeRest live inIsolation bbId succs nu

/-- `NU`, the new function for the top of a block. -/
def calcNU (live : List D) (inIsolation : D) (bbId : Nat) : List BBId → Option (Option D)
  | [] => some (some oracle.optimisticDataflowFn)
  | succ :: succs => do
    let nu ← composeEdge ops fn oracle live inIsolation bbId succ
    mergeRest ops fn oracle live inIsolation bbId succs nu

def isRidiculous (f : D) : Bool :=
  decide (100 ≤ ops.numPreSaveFramesManufactured f) || decide (100 ≤ ops.numLevels f) ||
    decide (100 ≤ ops.numSavedWindows f)

/-- The search for a number in the ready set, from `readySetIndex` on and then from 0. -/
def nextReady (numBBs : Nat) (ready : ReadySet) : Nat → Nat → Option Nat
  | 0, _ => none
  | fuel + 1, readySetIndex =>
    if ready.contains readySetIndex then some readySetIndex
    else nextReady numBBs ready fuel (if readySetIndex = numBBs - 1 then 0 else readySetIndex + 1)

/-- Put the predecessors of a block into the ready set. -/
def addPreds (t : DfsTables) (ready : ReadySet) (preds : List BBId) : Option ReadySet :=
  preds.foldlM (fun ready pred => do
    match pred with
    | .reg m =>
      let num ← t.blockId2PostOrderNum[m]?
      ready.add (← num)
    | _ => none) ready

/-- The state of the main loop. -/
structure WorkState (D : Type) where
  liveRegisters : List D
  ready : ReadySet
  readySetIndex : Nat

/-- One round of the main loop. Inside, `none` is for giving up. -/
def analyzeRound (t : DfsTables) (inIsolation : List D) (s : WorkState D) :
    Option (Option (WorkState D)) := do
  let num ← nextReady fn.cfg.numBBs s.ready (fn.cfg.numBBs + 1) s.readySetIndex
  let ready ← s.ready.remove num
  let bbId ← t.postOrderNum2BlockId[num]?.join
  let bb ← fn.cfg.getBasicBlockFromId bbId
  let inIso ← inIsolation[bbId]?
  match ← calcNU ops fn oracle s.liveRegisters inIso bbId bb.succs with
  | none => some none
  | some nu =>
    let atTop ← s.liveRegisters[bbId]?
    if ops.eq atTop nu = true then some (some ⟨s.liveRegisters, ready, num⟩)
    else if isRidiculous ops nu = true then some none
    else do
      check (ops.eq nu nu = true)
      let ready ← addPreds t ready bb.preds
      some (some ⟨s.liveRegisters.set bbId nu, ready, num⟩)

/-- How a run ends: with the functions for all blocks, or by giving up (`none`). -/
def analyzeLoop (t : DfsTables) (inIsolation : List D) :
    Nat → WorkState D → Option (Option (List D))
  | 0, _ => none
  | fuel + 1, s =>
    if s.ready.empty then some (some s.liveRegisters)
    else do
      match ← analyzeRound ops fn oracle t inIsolation s with
      | none => some none
      | some s => analyzeLoop t inIsolation fuel s

/-- `setAllBBsToConservative` -/
def setAllBBsToConservative : List D :=
  List.replicate fn.cfg.numBBs (oracle.pessimisticDataflowFn fn.entryAddr)

/-- The result of the analysis, and whether it gave up. -/
structure RegAnalysisResult (D : Type) where
  gaveUp : Bool
  info : LiveRegInfo D

/-- `doInterProcRegisterAnalysis1Fn` for a parsed function. `wholeBlock` is
`doLiveRegAnalysisWholeBlock` of a block with this oracle. -/
def doInterProcRegisterAnalysis1Fn (wholeBlock : Nat → Option D) (fuel : Nat)
    (info : LiveRegInfo D) : Option (RegAnalysisResult D) := do
  check (info.dfsState = .unvisited)
  let inIsolation ← (List.range fn.cfg.numBBs).mapM wholeBlock
  check (info.liveRegisters.length = 0)
  if fn.bypassAnalysis then
    pure ⟨false, .completed, setAllBBsToConservative fn oracle⟩
  else
    let t ← fn.cfg.performDFS fuel fn.cfg.entryBB (.init fn.cfg.numBBs)
    match ← analyzeLoop ops fn oracle t inIsolation fuel
      ⟨List.replicate fn.cfg.numBBs oracle.optimisticDataflowFn, .full fn.cfg.numBBs, 0⟩ with
    | some live => pure ⟨false, .completed, live⟩
    | none => pure ⟨true, .completed, setAllBBsToConservative fn oracle⟩

end Analysis

/-! ## The equations -/

section Equations

variable {A D : Type} (ops : DataflowOps D) (fn : AnalyzedFn A) (oracle : Oracle A D)

/-- The merge, over the successors in order, of the function of the block in isolation composed
with the result of the edge. -/
def mergeOverSuccs (live : List D) (inIsolation : D) (bbId : Nat) (succs : List BBId) :
    Option D := do
  let compositions ← succs.mapM (composeEdge ops fn oracle live inIsolation bbId)
  let first ← compositions.head?
  compositions.tail.foldlM (fun nu composition =>
    (ops.mergeWith nu composition oracle.mergeWithBitOr).toOption) first

/-- The stored function of a block with successors equals what its equation says. -/
def SatisfiesEquation (wholeBlock : Nat → Option D) (live : List D) (bbId : Nat)
    (bb : BasicBlock) : Prop :=
  ∃ inIsolation atTop nu, wholeBlock bbId = some inIsolation ∧ live[bbId]? = some atTop ∧
    mergeOverSuccs ops fn oracle live inIsolation bbId bb.succs = some nu ∧ ops.eq atTop nu = true

variable {ops fn oracle}

theorem mergeRest_eq {live : List D} {inIsolation : D} {bbId : Nat} :
    ∀ {succs : List BBId} {nu nu' : D},
      mergeRest ops fn oracle live inIsolation bbId succs nu = some (some nu') →
      ∃ cs, succs.mapM (composeEdge ops fn oracle live inIsolation bbId) = some cs ∧
        cs.foldlM (fun nu composition =>
          (ops.mergeWith nu composition oracle.mergeWithBitOr).toOption) nu = some nu' := by
  intro succs
  induction succs with
  | nil =>
    intro nu nu' h
    cases h
    exact ⟨[], rfl, rfl⟩
  | cons succ succs ih =>
    intro nu nu' h
    obtain ⟨c, hc, hcase⟩ := exists_of_bind h
    split at hcase
    · cases hcase
    · cases hcase
    · rename_i nu₁ hmerge
      split at hcase
      · cases hcase
      · obtain ⟨cs, hcs, hfold⟩ := ih hcase
        refine ⟨c :: cs, ?_, ?_⟩
        · simp [hc, hcs]
        · rw [foldlM_cons, hmerge]
          exact hfold

theorem calcNU_eq {live : List D} {inIsolation nu : D} {bbId : Nat} {succs : List BBId}
    (hne : succs ≠ []) (h : calcNU ops fn oracle live inIsolation bbId succs = some (some nu)) :
    mergeOverSuccs ops fn oracle live inIsolation bbId succs = some nu := by
  cases succs with
  | nil => exact absurd rfl hne
  | cons succ succs =>
    obtain ⟨c, hc, hrest⟩ := exists_of_bind h
    obtain ⟨cs, hcs, hfold⟩ := mergeRest_eq hrest
    simp [mergeOverSuccs, hc, hcs, hfold]

/-- An equation reads the stored functions of the successors only. -/
theorem mergeOverSuccs_set {live : List D} {inIsolation nu : D} {bbId m : Nat}
    {succs : List BBId} (hm : BBId.reg m ∉ succs) :
    mergeOverSuccs ops fn oracle (live.set m nu) inIsolation bbId succs =
      mergeOverSuccs ops fn oracle live inIsolation bbId succs := by
  have hedge : ∀ s ∈ succs, composeEdge ops fn oracle (live.set m nu) inIsolation bbId s =
      composeEdge ops fn oracle live inIsolation bbId s := by
    intro s hs
    cases s with
    | special s | unanalyzable => rfl
    | reg k =>
      have hne : m ≠ k := fun h => hm (h ▸ hs)
      simp [composeEdge, calc1EdgeResult, getElem?_set_ne hne]
  have hmap : succs.mapM (composeEdge ops fn oracle (live.set m nu) inIsolation bbId) =
      succs.mapM (composeEdge ops fn oracle live inIsolation bbId) :=
    mapM_congr hedge
  rw [mergeOverSuccs, mergeOverSuccs, hmap]

end Equations

/-! ## The invariant of the main loop -/

section Invariant

variable {A D : Type} {ops : DataflowOps D} {fn : AnalyzedFn A} {oracle : Oracle A D}
  {t : DfsTables} {inIsolation : List D} {s s' : WorkState D}

/-- **What a round can do**, when it does not give up. -/
theorem analyzeRound_cases (h : analyzeRound ops fn oracle t inIsolation s = some (some s')) :
    ∃ num ready bbId bb inIso nu atTop, s.ready.remove num = some ready ∧
      t.postOrderNum2BlockId[num]? = some (some bbId) ∧
      fn.cfg.getBasicBlockFromId bbId = some bb ∧ inIsolation[bbId]? = some inIso ∧
      calcNU ops fn oracle s.liveRegisters inIso bbId bb.succs = some (some nu) ∧
      s.liveRegisters[bbId]? = some atTop ∧
      ((ops.eq atTop nu = true ∧ s' = ⟨s.liveRegisters, ready, num⟩) ∨
        (ops.eq nu nu = true ∧ ∃ ready', addPreds t ready bb.preds = some ready' ∧
          s' = ⟨s.liveRegisters.set bbId nu, ready', num⟩)) := by
  simp only [analyzeRound, do_eq_some] at h
  obtain ⟨num, -, ready, hready, bbId, hbbId, bb, hbb, inIso, hiso, onu, hnu, hcase⟩ := h
  rw [join_eq_some_iff] at hbbId
  cases onu with
  | none => cases hcase
  | some nu =>
    obtain ⟨atTop, htop, hcase⟩ := exists_of_bind hcase
    refine ⟨num, ready, bbId, bb, inIso, nu, atTop, hready, hbbId, hbb, hiso, hnu, htop, ?_⟩
    split at hcase
    case isTrue heq =>
      cases hcase
      exact .inl ⟨heq, rfl⟩
    case isFalse =>
      split at hcase
      case isTrue => cases hcase
      case isFalse =>
        obtain ⟨u, hrefl, hcase⟩ := exists_of_bind hcase
        obtain ⟨ready', hadd, hcase⟩ := exists_of_bind hcase
        cases hcase
        exact .inr ⟨check_eq_some.mp hrefl, ready', hadd, rfl⟩

/-- What is in the ready set stays there, and the predecessors come in. -/
theorem contains_addPreds : ∀ {preds : List BBId} {ready ready' : ReadySet},
    addPreds t ready preds = some ready' → (∀ i, ready.contains i → ready'.contains i) ∧
      ∀ m num, BBId.reg m ∈ preds → t.HasPostNum m num → ready'.contains num := by
  intro preds
  induction preds with
  | nil =>
    intro ready ready' h
    cases h
    exact ⟨fun _ => id, by simp⟩
  | cons pred preds ih =>
    intro ready ready' h
    obtain ⟨ready₁, hpred, hrest⟩ := exists_of_bind h
    obtain ⟨hkeep, hall⟩ := ih hrest
    cases pred with
    | special s | unanalyzable => cases hpred
    | reg m =>
      obtain ⟨onum, honum, hadd⟩ := exists_of_bind hpred
      obtain ⟨num, rfl, hadd⟩ := exists_of_bind hadd
      refine ⟨fun i hi => hkeep i ((ReadySet.contains_add hadd i).mpr (.inr hi)), ?_⟩
      intro k num' hk hnum'
      rcases mem_cons.mp hk with heq | hk
      · cases heq
        have : some num = some num' := mem_unique honum hnum'
        cases this
        exact hkeep num ((ReadySet.contains_add hadd num).mpr (.inl rfl))
      · exact hall k num' hk hnum'

/-- **Every block outside the ready set satisfies its equation**, and the blocks without
successors have the optimistic function. -/
structure Settled (ops : DataflowOps D) (fn : AnalyzedFn A) (oracle : Oracle A D)
    (t : DfsTables) (inIsolation : List D) (s : WorkState D) : Prop where
  satisfies : ∀ m num bb, t.HasPostNum m num → ¬ s.ready.contains num →
    fn.cfg.getBasicBlockFromId m = some bb → bb.succs ≠ [] →
    SatisfiesEquation ops fn oracle (fun i => inIsolation[i]?) s.liveRegisters m bb
  optimistic : ∀ m bb, fn.cfg.getBasicBlockFromId m = some bb → bb.succs = [] →
    s.liveRegisters[m]? = some oracle.optimisticDataflowFn

/-- What the depth-first search provides: numbers lead back to their blocks, and predecessor lists
are complete. -/
structure Prepared (fn : AnalyzedFn A) (t : DfsTables) : Prop where
  back : ∀ m num, t.HasPostNum m num → m < fn.cfg.numBBs →
    t.postOrderNum2BlockId[num]? = some (some m)
  numbered : ∀ m < fn.cfg.numBBs, ∃ num < fn.cfg.numBBs, t.HasPostNum m num
  mirrors : ∀ m n bb cc, fn.cfg.getBasicBlockFromId m = some bb →
    fn.cfg.getBasicBlockFromId n = some cc → BBId.reg n ∈ bb.succs → BBId.reg m ∈ cc.preds

theorem prepared_of_performDFS {fuel : Nat}
    (h : fn.cfg.performDFS fuel fn.cfg.entryBB (.init fn.cfg.numBBs) = some t)
    (hall : fn.cfg.AllReachable) : Prepared fn t where
  back m num hnum hm := by
    obtain ⟨num', -, hnum', hback⟩ := Cfg.performDFS_numbers h hall hm
    have : some num = some num' := mem_unique hnum hnum'
    cases this
    exact hback
  numbered m hm := by
    obtain ⟨num, hlt, hnum, -⟩ := Cfg.performDFS_numbers h hall hm
    exact ⟨num, hlt, hnum⟩
  mirrors _ _ _ _ hbb hcc hs := Cfg.performDFS_mirrors h hall hbb hcc hs

theorem settled_init (hprep : Prepared fn t) (i : Nat) : Settled ops fn oracle t inIsolation
      ⟨List.replicate fn.cfg.numBBs oracle.optimisticDataflowFn, .full fn.cfg.numBBs, i⟩ where
  satisfies m num bb hnum hnot hbb _ := by
    obtain ⟨num', hlt, hnum'⟩ := hprep.numbered m (Cfg.lt_of_getBasicBlockFromId hbb)
    have : some num = some num' := mem_unique hnum hnum'
    cases this
    exact absurd (by simp [ReadySet.contains, ReadySet.full, hlt]) hnot
  optimistic m bb hbb _ := by
    simp [Cfg.lt_of_getBasicBlockFromId hbb]

/-- One round keeps the invariant. -/
theorem Settled.round (hs : Settled ops fn oracle t inIsolation s) (hprep : Prepared fn t)
    (h : analyzeRound ops fn oracle t inIsolation s = some (some s')) :
    Settled ops fn oracle t inIsolation s' := by
  obtain ⟨num, ready, bbId, bb, inIso, nu, atTop, hremove, hbbId, hbb, hiso, hnu, htop, hcase⟩ :=
    analyzeRound_cases h
  -- whatever else has left the ready set is another block, and was outside before
  have hother : ∀ m k bb', t.HasPostNum m k → ¬ ready.contains k →
      fn.cfg.getBasicBlockFromId m = some bb' → m ≠ bbId → ¬ s.ready.contains k := by
    intro m k bb' hk hnot hbb' hne hcont
    refine hnot ((ReadySet.contains_remove hremove k).mpr ⟨?_, hcont⟩)
    rintro rfl
    have hback := hprep.back m k hk (Cfg.lt_of_getBasicBlockFromId hbb')
    rw [hbbId] at hback
    exact hne (some.inj (some.inj hback)).symm
  rcases hcase with ⟨heq, rfl⟩ | ⟨hrefl, ready', hadd, rfl⟩
  · refine ⟨fun m k bb' hk hnot hbb' hne => ?_, hs.optimistic⟩
    by_cases hm : m = bbId
    · subst hm
      obtain rfl : bb = bb' := mem_unique hbb hbb'
      exact ⟨inIso, atTop, nu, hiso, htop, calcNU_eq hne hnu, heq⟩
    · exact hs.satisfies m k bb' hk (hother m k bb' hk hnot hbb' hm) hbb' hne
  · obtain ⟨hkeep, hpreds⟩ := contains_addPreds hadd
    have hlt := (List.getElem?_eq_some_iff.mp htop).1
    refine ⟨fun m k bb' hk hnot hbb' hne => ?_, fun m bb' hbb' hnil => ?_⟩
    · -- the block that was overwritten is no successor of `m`, or `m` would be ready
      have hsucc : BBId.reg bbId ∉ bb'.succs := fun hs =>
        hnot (hpreds m k (hprep.mirrors m bbId bb' bb hbb' hbb hs) hk)
      by_cases hm : m = bbId
      · subst hm
        obtain rfl : bb = bb' := mem_unique hbb hbb'
        refine ⟨inIso, nu, nu, hiso, getElem?_set_self hlt, ?_, hrefl⟩
        rw [mergeOverSuccs_set hsucc, calcNU_eq hne hnu]
      · obtain ⟨iso, top, nu', hiso', htop', hmerge, heq⟩ :=
          hs.satisfies m k bb' hk (hother m k bb' hk (fun hc => hnot (hkeep k hc)) hbb' hm) hbb' hne
        refine ⟨iso, top, nu', hiso', ?_, ?_, heq⟩
        · rw [getElem?_set_ne (Ne.symm hm), htop']
        · rw [mergeOverSuccs_set hsucc, hmerge]
    · by_cases hm : m = bbId
      · subst hm
        obtain rfl : bb = bb' := mem_unique hbb hbb'
        rw [hnil] at hnu
        cases hnu
        exact getElem?_set_self hlt
      · rw [getElem?_set_ne (Ne.symm hm)]
        exact hs.optimistic m bb' hbb' hnil

/-- A run that ends without giving up ends in a state with the invariant and an empty ready set. -/
theorem Settled.loop (hprep : Prepared fn t) (fuel : Nat) : ∀ {s : WorkState D} {live : List D},
    Settled ops fn oracle t inIsolation s →
    analyzeLoop ops fn oracle t inIsolation fuel s = some (some live) →
    ∃ s', Settled ops fn oracle t inIsolation s' ∧ s'.ready.empty ∧ s'.liveRegisters = live := by
  induction fuel with
  | zero =>
    intro s live _ h
    cases h
  | succ fuel ih =>
    intro s live hs h
    rw [analyzeLoop] at h
    split at h
    case isTrue hempty =>
      cases h
      exact ⟨s, hs, hempty, rfl⟩
    case isFalse =>
      obtain ⟨o, hround, hrest⟩ := exists_of_bind h
      cases o with
      | none => cases hrest
      | some s₁ => exact ih (hs.round hprep hround) hrest

end Invariant

/-! ## The result -/

section Result

variable {A D : Type} {ops : DataflowOps D} {fn : AnalyzedFn A} {oracle : Oracle A D}
  {wholeBlock : Nat → Option D} {fuel : Nat} {info : LiveRegInfo D} {r : RegAnalysisResult D}

/-- **The analysis ends in a fixpoint or gives up safely.** -/
theorem doInterProcRegisterAnalysis1Fn_sound (hall : fn.cfg.AllReachable)
    (hbypass : fn.bypassAnalysis = false)
    (h : doInterProcRegisterAnalysis1Fn ops fn oracle wholeBlock fuel info = some r) :
    (r.gaveUp = false → ∀ bbId bb, fn.cfg.getBasicBlockFromId bbId = some bb →
      (bb.succs ≠ [] →
        SatisfiesEquation ops fn oracle wholeBlock r.info.liveRegisters bbId bb) ∧
      (bb.succs = [] → r.info.liveRegisters[bbId]? = some oracle.optimisticDataflowFn)) ∧
    (r.gaveUp = true → ∀ bbId < fn.cfg.numBBs,
      r.info.liveRegisters[bbId]? = some (oracle.pessimisticDataflowFn fn.entryAddr)) := by
  simp only [doInterProcRegisterAnalysis1Fn, hbypass, Bool.false_eq_true, if_false, do_eq_some] at h
  obtain ⟨-, -, inIsolation, hiso, -, -, t, hdfs, o, hloop, hcase⟩ := h
  have hprep : Prepared fn t := prepared_of_performDFS hdfs hall
  cases o with
  | none =>
    cases hcase
    refine ⟨fun hno => (Bool.noConfusion hno : False).elim, fun _ bbId hlt => ?_⟩
    simp [setAllBBsToConservative, hlt]
  | some live =>
    cases hcase
    refine ⟨fun _ bbId bb hbb => ?_, fun hno => (Bool.noConfusion hno : False).elim⟩
    obtain ⟨s', hs, hempty, rfl⟩ := Settled.loop hprep fuel (settled_init hprep 0) hloop
    refine ⟨fun hne => ?_, hs.optimistic bbId bb hbb⟩
    obtain ⟨num, -, hnum⟩ := hprep.numbered bbId (Cfg.lt_of_getBasicBlockFromId hbb)
    obtain ⟨iso, top, nu, hiso', htop, hmerge, heq⟩ := hs.satisfies bbId num bb hnum
      (ReadySet.not_contains_of_empty hempty num) hbb hne
    refine ⟨iso, top, nu, ?_, htop, hmerge, heq⟩
    have hblock : inIsolation[bbId]? = wholeBlock bbId := by
      rw [getElem?_of_mapM hiso, getElem?_range (Cfg.lt_of_getBasicBlockFromId hbb), bind_some]
    exact hblock.symm.trans hiso'

/-- A block that may go round in a loop, after the entry block. -/
def loopFn : AnalyzedFn Nat where
  cfg := ⟨[⟨[.reg 1], []⟩, ⟨[.reg 1, .special .xExit], [.reg 0, .reg 1]⟩], 0, by decide⟩
  entryAddr := 0x1000
  nullAddr := 0
  interProcFallThruAddr _ := none
  interProcBranchDestAddr _ := none
  containsAddr _ := false
  bypassAnalysis := false

/-- Liveness: registers are dead, optimistically, and live when nothing is known. -/
def liveOracle : Oracle Nat DataflowFn where
  mergeWithBitOr := true
  optimisticDataflowFn := .stopAllRegs
  pessimisticDataflowFn _ := .startAllRegs
  identityDataflowFn := .passAllRegs
  whenDestAddrIsKnown _ := .startAllRegs

/-- The analysis of the loop ends, and the block of the loop satisfies its equation. -/
theorem loopFn_fixpoint :
    ∃ r, doInterProcRegisterAnalysis1Fn DataflowFn.ops loopFn liveOracle
        (fun _ => some .passAllRegs) 8 ⟨.unvisited, []⟩ = some r ∧ r.gaveUp = false ∧
      SatisfiesEquation DataflowFn.ops loopFn liveOracle (fun _ => some .passAllRegs)
        r.info.liveRegisters 1 ⟨[.reg 1, .special .xExit], [.reg 0, .reg 1]⟩ := by
  have hall : loopFn.cfg.AllReachable := by
    intro n hn
    have hedge : loopFn.cfg.Edge 0 1 := ⟨_, rfl, by decide⟩
    have hcases : n = 0 ∨ n = 1 := by
      have : n < 2 := hn
      omega
    rcases hcases with rfl | rfl
    · exact .refl
    · exact .single hedge
  obtain ⟨r, hr, hno⟩ : ∃ r, doInterProcRegisterAnalysis1Fn DataflowFn.ops loopFn liveOracle
      (fun _ => some .passAllRegs) 8 ⟨.unvisited, []⟩ = some r ∧ r.gaveUp = false :=
    ⟨_, rfl, rfl⟩
  exact ⟨r, hr, hno,
    ((doInterProcRegisterAnalysis1Fn_sound hall rfl hr).1 hno 1 _ rfl).1 (by decide)⟩

end Result

end Kerninst
