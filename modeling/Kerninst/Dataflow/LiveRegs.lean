import Kerninst.Dataflow.Compose
import Kerninst.Function.Cfg
import Kerninst.Function.FnCode
import Kerninst.Sparc.Machine

/-!
# Live registers of a basic block

`doLiveRegAnalysis` goes backwards over the instructions of a range of a basic block and builds
their data-flow function. For each of them it looks at two words.

* The instruction itself says which registers are read and written, and whether the window
  changes.
* The word before it says whether the instruction is in the delay slot of a call, in which case
  the callee's function is composed in first, and whether it may be annulled, in which case it
  definitely does nothing.

What an instruction does to the function therefore depends on the code, not on the range
(`lookAt`), and the function of a range is a sequence of work on windows (`windowOps`). So the
functions of two adjacent ranges compose to the function of both where composition is
concatenation (`doLiveRegAnalysis_split`). It is not everywhere: the analysis drops the `%l`s and
`%i`s of a manufactured window when it leaves the window, and a cut can change which windows are
manufactured (`split_loses_localRead`).
-/

namespace Kerninst

open DataflowFn List
open BitVec (ofNat)

/-! ## What the analysis reads -/

/-- `sparc_ru` -/
structure RegisterUsage where
  definitelyUsedBeforeWritten : SparcRegSet
  maybeUsedBeforeWritten : SparcRegSet
  definitelyWritten : SparcRegSet
  maybeWritten : SparcRegSet
  isSave : Bool
  isRestore : Bool
  isV9Return : Bool
deriving DecidableEq

inductive DelaySlotInfo
  | dsNone
  | dsAlways
  | dsNever
  | dsWhenTaken
deriving DecidableEq

/-- `sparc_cfi`, without the fields that describe conditions and registers. -/
structure ControlFlowInfo where
  controlFlowInstruction : Bool
  isCall : Bool
  isJmpLink : Bool
  isRet : Bool
  isRetl : Bool
  isV9Return : Bool
  isDoneOrRetry : Bool
  isBicc : Bool
  isBPcc : Bool
  isBPr : Bool
  isFBfcc : Bool
  isFBPfcc : Bool
  delaySlot : DelaySlotInfo
  offsetNBytes : BitVec 32
deriving DecidableEq

/-- What `sparc_instr` says about a word; `none` is the exception for unknown ones. -/
structure Decoder where
  getRegisterUsage : Word → Option RegisterUsage
  getControlFlowInfo : Word → Option ControlFlowInfo

/-- `codeChunk` with its code -/
structure InsnChunk where
  startAddr : Kptr
  theCode : List Word

namespace InsnChunk

/-- The chunk's addresses. -/
def extent (c : InsnChunk) : CodeChunk 64 := ⟨c.startAddr, BitVec.ofNat 32 (4 * c.theCode.length)⟩

def get1Insn (c : InsnChunk) (addr : Kptr) : Option Word := do
  check (c.theCode ≠ [])
  let offset := ((addr - c.startAddr).setWidth 32).toNat
  check (offset % 4 = 0)
  c.theCode[offset / 4]?

end InsnChunk

/-- `codeChunk::enclosesRange` -/
def CodeChunk.enclosesRange {w : Nat} (c : CodeChunk w) (low hi : BitVec w) : Option Bool := do
  check (low ≤ hi)
  pure (decide (c.startAddr ≤ low) && decide (hi ≤ c.endAddr))

/-- A call oracle with fixed answers. -/
structure CallOracle where
  whenDestAddrIsUnknown : DataflowFn
  whenDestAddrIsKnown : Kptr → DataflowFn

/-- What `doLiveRegAnalysis` is told about the block. -/
structure BlockInfo where
  numInsnBytes : Nat
  startAddr : Kptr
  endAddrPlus1 : Kptr
  numSuccs : Nat
  succOf0 : BBId

namespace RegisterUsage

/-- The usage of an instruction that is executed only when the branch before it is taken. -/
def whenTaken (ru : RegisterUsage) : RegisterUsage :=
  if !ru.isSave && !ru.isRestore then
    { ru with
      maybeUsedBeforeWritten := ru.maybeUsedBeforeWritten ||| ru.definitelyUsedBeforeWritten
      maybeWritten := ru.maybeWritten ||| ru.definitelyWritten
      definitelyUsedBeforeWritten := .emptyset
      definitelyWritten := .emptyset }
  else ru

end RegisterUsage

/-- `destAddr`: the address called by the control transfer at `prevInsnAddr`, with 0 for none and
-1 for an unknown one. -/
def ControlFlowInfo.destAddr (cfi : ControlFlowInfo) (prevInsnAddr : Kptr) (bb : BlockInfo) :
    Option Kptr :=
  if cfi.isCall && !cfi.isJmpLink then some (prevInsnAddr + cfi.offsetNBytes.signExtend 64)
  else if cfi.isRet || cfi.isRetl || cfi.isV9Return || cfi.isDoneOrRetry then some 0#64
  else if cfi.isJmpLink then
    if cfi.isCall then some (-1#64)
    else if bb.succOf0 = .special .xExit then do
      check (bb.numSuccs = 1)
      pure (-1#64)
    else some 0#64
  else if cfi.isBicc || cfi.isBPcc || cfi.isBPr || cfi.isFBfcc || cfi.isFBPfcc then some 0#64
  else none

/-! ## The analysis -/

section Analysis

variable (dec : Decoder) (fnCode : List InsnChunk) (oracle : CallOracle) (bb : BlockInfo)

/-- `fnCode_t::enclosesAddr` -/
def fnEnclosesAddr (addr : Kptr) : Option Bool := do
  let iter ← findChunk (fnCode.map InsnChunk.extent) addr false
  pure (decide (iter ≠ fnCode.length))

/-- `fnCode_t::get1Insn`; the inner `none` is the exception `BadAddr`. -/
def fnGet1Insn (addr : Kptr) : Option (Option Word) := do
  let iter ← findChunk (fnCode.map InsnChunk.extent) addr false
  if iter = fnCode.length then pure none
  else do
    let c ← fnCode[iter]?
    let insn ← c.get1Insn addr
    pure (some insn)

/-- The previous word, if it belongs to the function. -/
def prevInsn (bbCode : InsnChunk) (prevInsnAddr : Kptr) : Option (Option Word) := do
  let enclosed ← if bbCode.extent.enclosesAddr prevInsnAddr then pure true
    else fnEnclosesAddr fnCode prevInsnAddr
  if enclosed then fnGet1Insn fnCode prevInsnAddr else pure none

/-- The previous word, as far as it is a control transfer. -/
def prevTransfer (bbCode : InsnChunk) (prevInsnAddr : Kptr) : Option (Option ControlFlowInfo) := do
  let prev ← prevInsn fnCode bbCode prevInsnAddr
  let prevCfi ← prev.mapM dec.getControlFlowInfo
  pure (prevCfi.filter ControlFlowInfo.controlFlowInstruction)

/-- The first half of the loop body: the register usage of an instruction and the address that
is called before it takes effect. -/
def lookAt (bbCode : InsnChunk) (insnaddr : Kptr) : Option (RegisterUsage × Kptr) := do
  let insn ← bbCode.get1Insn insnaddr
  let ru ← dec.getRegisterUsage insn
  let prevCfi ← prevTransfer dec fnCode bbCode (insnaddr - 4)
  prevCfi.elim (pure (ru, 0#64)) fun cfi => do
    let destAddr ← cfi.destAddr (insnaddr - 4) bb
    pure (if cfi.delaySlot = .dsWhenTaken then ru.whenTaken else ru, destAddr)

/-- The effect of a call. -/
def CallOracle.effectOfCall (destAddr : Kptr) : DataflowFn :=
  if destAddr = -1#64 then oracle.whenDestAddrIsUnknown else oracle.whenDestAddrIsKnown destAddr

def followCall (result : DataflowFn) (destAddr : Kptr) : Except DataflowError DataflowFn :=
  if destAddr ≠ 0#64 then (oracle.effectOfCall destAddr).compose result else pure result

def RegisterUsage.changeWindow (ru : RegisterUsage) (result : DataflowFn) :
    Except DataflowError DataflowFn :=
  if ru.isSave then result.processSave
  else if ru.isRestore || ru.isV9Return then result.processRestore
  else pure result

/-- The second half of the loop body: callee, writes, change of window and reads. -/
def takeEffect (result : DataflowFn) (insn : RegisterUsage × Kptr) :
    Except DataflowError DataflowFn := do
  let result ← followCall oracle result insn.2
  let result ← insn.1.changeWindow (result.stopSet insn.1.definitelyWritten)
  pure ((result.startSet insn.1.maybeUsedBeforeWritten).startSet
    insn.1.definitelyUsedBeforeWritten)

def liveStep (bbCode : InsnChunk) (result : DataflowFn) (insnaddr : Kptr) : Option DataflowFn := do
  let insn ← lookAt dec fnCode bb bbCode insnaddr
  (takeEffect oracle result insn).toOption

/-- The loop, down to the address `stop`. Addresses wrap around, so with `stop = 0` it would
never end. -/
def liveLoop (bbCode : InsnChunk) (stop : Kptr) : Nat → Kptr → DataflowFn → Option DataflowFn
  | 0, _, _ => none
  | fuel + 1, insnaddr, result =>
    if stop ≤ insnaddr then do
      let result ← liveStep dec fnCode oracle bb bbCode result insnaddr
      liveLoop bbCode stop fuel (insnaddr - 4) result
    else some result

/-- `bbCode`: the chunk of the block. -/
def chunkOfBlock : Option InsnChunk := do
  let iter ← findChunk (fnCode.map InsnChunk.extent) bb.startAddr false
  fnCode[iter]?

/-- The instructions of a range. -/
def numInsns (start stop : Kptr) : Nat := (start.toNat - stop.toNat) / 4

/-- The assertions on the range. -/
def checkRange (bbCode : InsnChunk) (start stop : Kptr) : Option Unit := do
  check (0 < bb.numInsnBytes)
  check (bb.startAddr ≤ stop)
  check (stop ≤ start)
  check (start ≤ bb.endAddrPlus1)
  check (start.toNat % 4 = 0)
  check (stop.toNat % 4 = 0)
  let inFn ← enclosesRange (fnCode.map InsnChunk.extent) stop start
  check (inFn = true)
  let inChunk ← bbCode.extent.enclosesRange stop start
  check (inChunk = true)

/-- `doLiveRegAnalysis`, from `addrWhereToStart` down to `addrWhereToStop` -/
def doLiveRegAnalysis (addrWhereToStart addrWhereToStop : Kptr) : Option DataflowFn := do
  let bbCode ← chunkOfBlock fnCode bb
  checkRange fnCode bb bbCode addrWhereToStart addrWhereToStop
  liveLoop dec fnCode oracle bb bbCode addrWhereToStop
    (numInsns addrWhereToStart addrWhereToStop + 1) (addrWhereToStart - 4) .passAllRegs

end Analysis

/-! ## The loop as a sequence of work on windows -/

namespace DataflowFn

variable {g : DataflowFn}

/-- What composing a function from the left does. -/
def composeOps (f : DataflowFn) : List WindowOp :=
  (if 0 < f.numPreSaveFramesManufactured then
    List.replicate f.numPreSaveFramesManufactured .save
  else f.below.flatMap fun w => [.comp w, .restore]) ++ [.comp f.top]

theorem performAll_cons (g : DataflowFn) (op : WindowOp) (s : List WindowOp) :
    g.performAll (op :: s) = g.perform op >>= fun h => h.performAll s :=
  foldlM_cons

theorem processSaves_eq_performAll (n : Nat) : ∀ g : DataflowFn,
    processSaves n g = g.performAll (List.replicate n .save) := by
  induction n with
  | zero => intro g; rfl
  | succ n ih =>
    intro g
    exact congrArg _ (funext ih)

theorem composeBelow_eq_performAll (ws : List Window) : ∀ g : DataflowFn,
    composeBelow ws g = g.performAll (ws.flatMap fun w => [.comp w, .restore]) := by
  induction ws with
  | nil => intro g; rfl
  | cons w ws ih =>
    intro g
    refine Eq.trans ?_ (performAll_cons _ _ _).symm
    exact congrArg _ (funext ih)

/-- Composition is work on the windows of the right side. -/
theorem compose_eq_performAll (f g : DataflowFn) : f.compose g = g.performAll f.composeOps := by
  rw [composeOps, performAll_append]
  unfold compose
  split
  · rw [processSaves_eq_performAll]
    rfl
  · rw [composeBelow_eq_performAll]
    rfl

end DataflowFn

section Split

variable {dec : Decoder} {fnCode : List InsnChunk} {oracle : CallOracle} {bb : BlockInfo}
  {bbCode : InsnChunk}

/-- A read or a write of a set of registers. -/
def readOp (set : SparcRegSet) : WindowOp := .comp ((Window.ofBools true false).startSet set)

def writeOp (set : SparcRegSet) : WindowOp := .comp ((Window.ofBools true false).stopSet set)

def RegisterUsage.windowChange (ru : RegisterUsage) : List WindowOp :=
  if ru.isSave then [.save] else if ru.isRestore || ru.isV9Return then [.restore] else []

/-- The work of one instruction. -/
def insnOps (oracle : CallOracle) (insn : RegisterUsage × Kptr) : List WindowOp :=
  (if insn.2 ≠ 0#64 then (oracle.effectOfCall insn.2).composeOps else []) ++
    (writeOp insn.1.definitelyWritten :: insn.1.windowChange ++
      [readOp insn.1.maybeUsedBeforeWritten, readOp insn.1.definitelyUsedBeforeWritten])

theorem RegisterUsage.changeWindow_eq_performAll (ru : RegisterUsage) (f : DataflowFn) :
    ru.changeWindow f = f.performAll ru.windowChange := by
  unfold changeWindow windowChange
  split
  · exact (bind_pure f.processSave).symm
  · split
    · exact (bind_pure f.processRestore).symm
    · rfl

theorem followCall_eq_performAll (f : DataflowFn) (destAddr : Kptr) :
    followCall oracle f destAddr = f.performAll
      (if destAddr ≠ 0#64 then (oracle.effectOfCall destAddr).composeOps else []) := by
  unfold followCall
  split
  · exact compose_eq_performAll _ f
  · rfl

theorem takeEffect_eq_performAll (result : DataflowFn) (insn : RegisterUsage × Kptr) :
    takeEffect oracle result insn = result.performAll (insnOps oracle insn) := by
  rw [takeEffect, insnOps, followCall_eq_performAll, performAll_append]
  refine congrArg _ (funext fun f => ?_)
  rw [RegisterUsage.changeWindow_eq_performAll, stopSet_eq_composeTop, cons_append, performAll_cons]
  refine Eq.trans ?_ (performAll_append _ _ _).symm
  refine congrArg _ (funext fun h => ?_)
  rw [startSet_eq_composeTop, startSet_eq_composeTop]
  rfl

theorem pass_notMem_insnOps (insn : RegisterUsage × Kptr) (regs : SparcRegSet) :
    .pass regs ∉ insnOps oracle insn := by
  intro hmem
  rw [insnOps, mem_append] at hmem
  rcases hmem with hmem | hmem
  · split at hmem
    · unfold composeOps at hmem
      split at hmem <;> simp at hmem
    · exact not_mem_nil hmem
  · simp only [RegisterUsage.windowChange, writeOp, readOp] at hmem
    split_ifs at hmem <;> simp at hmem

/-- The addresses of `n` instructions from `stop` on, backwards. -/
def insnAddrs (stop : Kptr) : Nat → List Kptr
  | 0 => []
  | n + 1 => (stop + BitVec.ofNat 64 (4 * n)) :: insnAddrs stop n

theorem insnAddrs_add (stop : Kptr) (m n : Nat) : insnAddrs stop (m + n) =
      insnAddrs (stop + ofNat 64 (4 * m)) n ++ insnAddrs stop m := by
  induction n with
  | zero => rfl
  | succ n ih =>
    rw [← Nat.add_assoc, insnAddrs, ih, insnAddrs, cons_append, BitVec.add_assoc,
      ← BitVec.ofNat_add, Nat.mul_add]

section Ranges

variable {start stop : Kptr} {n : Nat}

theorem numInsns_eq (h : start.toNat = stop.toNat + 4 * n) : numInsns start stop = n := by
  unfold numInsns
  omega

theorem add_insns (h : start.toNat = stop.toNat + 4 * n) :
    stop + ofNat 64 (4 * n) = start := by
  refine BitVec.eq_of_toNat_eq ?_
  rw [BitVec.toNat_add, BitVec.toNat_ofNat, Nat.add_mod_mod, ← h, Nat.mod_eq_of_lt start.isLt]

end Ranges

/-- The work of the analysis on a range. -/
def windowOps (dec : Decoder) (fnCode : List InsnChunk) (oracle : CallOracle) (bb : BlockInfo)
    (start stop : Kptr) : Option (List WindowOp) := do
  let bbCode ← chunkOfBlock fnCode bb
  let insns ← (insnAddrs stop (numInsns start stop)).mapM (lookAt dec fnCode bb bbCode)
  pure (insns.flatMap (insnOps oracle))

theorem windowOps_eq_some_iff {start stop : Kptr} {s : List WindowOp} :
    windowOps dec fnCode oracle bb start stop = some s ↔
      ∃ bbCode insns, chunkOfBlock fnCode bb = some bbCode ∧
        (insnAddrs stop (numInsns start stop)).mapM (lookAt dec fnCode bb bbCode) = some insns ∧
        insns.flatMap (insnOps oracle) = s := by
  simp [windowOps, do_eq_some]

/-- From address 0 on the loop does not end. -/
theorem liveLoop_zero (fuel : Nat) : ∀ (insnaddr : Kptr) (result : DataflowFn),
    liveLoop dec fnCode oracle bb bbCode 0#64 fuel insnaddr result = none := by
  induction fuel with
  | zero => intro _ _; rfl
  | succ fuel ih =>
    intro insnaddr result
    have hle : 0#64 ≤ insnaddr := Nat.zero_le _
    rw [liveLoop, if_pos hle]
    simp [ih]

/-- Elsewhere it is a fold over the addresses. -/
theorem liveLoop_eq_foldlM {stop : Kptr} (hpos : 4 ≤ stop.toNat) :
    ∀ (n : Nat) (result : DataflowFn), stop.toNat + 4 * n < 2 ^ 64 →
      liveLoop dec fnCode oracle bb bbCode stop (n + 1) (stop + ofNat 64 (4 * n) - 4) result =
        (insnAddrs stop n).foldlM (liveStep dec fnCode oracle bb bbCode) result := by
  intro n
  induction n with
  | zero =>
    intro result _
    have hlt : ¬stop ≤ stop + ofNat 64 (4 * 0) - 4 := by
      bv_omega
    rw [liveLoop, if_neg hlt]
    rfl
  | succ n ih =>
    intro result hn
    have haddr : stop + ofNat 64 (4 * (n + 1)) - 4 = stop + ofNat 64 (4 * n) := by
      bv_omega
    have hle : stop ≤ stop + ofNat 64 (4 * n) := by
      bv_omega
    rw [liveLoop, haddr, if_pos hle, insnAddrs, foldlM_cons]
    exact congrArg _ (funext fun r => ih r (by omega))

theorem toOption_eq_some {x : Except DataflowError DataflowFn} {f : DataflowFn}
    (h : x.toOption = some f) : x = .ok f := by
  cases x with
  | error e => cases h
  | ok g => exact congrArg Except.ok (Option.some.inj h)

/-- A fold of the loop body looks at all instructions and does their work. -/
theorem foldlM_liveStep_eq_some {addrs : List Kptr} : ∀ {f f' : DataflowFn},
    addrs.foldlM (liveStep dec fnCode oracle bb bbCode) f = some f' →
    ∃ insns, addrs.mapM (lookAt dec fnCode bb bbCode) = some insns ∧
      f.performAll (insns.flatMap (insnOps oracle)) = .ok f' := by
  induction addrs with
  | nil =>
    intro f f' h
    cases h
    exact ⟨[], rfl, rfl⟩
  | cons a addrs ih =>
    intro f f' h
    obtain ⟨f₁, hstep, hrest⟩ := exists_of_bind h
    obtain ⟨insn, hlook, heff⟩ := exists_of_bind hstep
    obtain ⟨insns, hmap, hperf⟩ := ih hrest
    have heff' : f.performAll (insnOps oracle insn) = .ok f₁ := by
      rw [← takeEffect_eq_performAll]
      exact toOption_eq_some heff
    refine ⟨insn :: insns, ?_, ?_⟩
    · rw [mapM_cons, hlook, hmap]
      rfl
    · rw [flatMap_cons, performAll_append, heff']
      exact hperf

/-- **What the analysis of a range is**, where it is defined. -/
theorem doLiveRegAnalysis_eq_some {start stop : Kptr} {f : DataflowFn}
    (h : doLiveRegAnalysis dec fnCode oracle bb start stop = some f) :
    (∃ n, start.toNat = stop.toNat + 4 * n) ∧
      ∃ s, windowOps dec fnCode oracle bb start stop = some s ∧
        passAllRegs.performAll s = .ok f := by
  obtain ⟨bbCode, hcode, h⟩ := exists_of_bind h
  obtain ⟨u, hrange, hloop⟩ := exists_of_bind h
  simp only [checkRange, exists_const, do_eq_some, check_eq_some] at hrange
  obtain ⟨-, -, hle, -, hstart, hstop, -⟩ := hrange
  rw [BitVec.le_def] at hle
  have hn : start.toNat = stop.toNat + 4 * numInsns start stop := by
    unfold numInsns
    omega
  refine ⟨⟨_, hn⟩, ?_⟩
  have hpos : 4 ≤ stop.toNat := by
    by_contra hlt
    have hzero : stop = 0#64 := BitVec.eq_of_toNat_eq (by simp; omega)
    rw [hzero, liveLoop_zero] at hloop
    cases hloop
  have hbound : stop.toNat + 4 * numInsns start stop < 2 ^ 64 := hn ▸ start.isLt
  have haddr : start - 4 = stop + ofNat 64 (4 * numInsns start stop) - 4 :=
    congrArg (· - 4) (add_insns hn).symm
  rw [haddr, liveLoop_eq_foldlM hpos _ _ hbound] at hloop
  obtain ⟨insns, hmap, hperf⟩ := foldlM_liveStep_eq_some hloop
  exact ⟨insns.flatMap (insnOps oracle),
    windowOps_eq_some_iff.mpr ⟨bbCode, insns, hcode, hmap, rfl⟩, hperf⟩

theorem pass_notMem_windowOps {start stop : Kptr} {s : List WindowOp}
    (h : windowOps dec fnCode oracle bb start stop = some s) (regs : SparcRegSet) :
    .pass regs ∉ s := by
  obtain ⟨bbCode, insns, -, -, rfl⟩ := windowOps_eq_some_iff.mp h
  intro hmem
  obtain ⟨insn, -, hin⟩ := mem_flatMap.mp hmem
  exact pass_notMem_insnOps insn regs hin

/-- The work on a range is the work on its two parts, the later one first. -/
theorem windowOps_append {a b c : Kptr} (hab : ∃ m, b.toNat = a.toNat + 4 * m)
    (hbc : ∃ n, c.toNat = b.toNat + 4 * n) {s t : List WindowOp}
    (hs : windowOps dec fnCode oracle bb c b = some s)
    (ht : windowOps dec fnCode oracle bb b a = some t) :
    windowOps dec fnCode oracle bb c a = some (s ++ t) := by
  obtain ⟨m, hm⟩ := hab
  obtain ⟨n, hn⟩ := hbc
  have hca : c.toNat = a.toNat + 4 * (m + n) := by omega
  obtain ⟨bbCode, insns₁, hcode, hmap₁, rfl⟩ := windowOps_eq_some_iff.mp hs
  obtain ⟨bbCode', insns₂, hcode', hmap₂, rfl⟩ := windowOps_eq_some_iff.mp ht
  obtain rfl : bbCode = bbCode' := Option.mem_unique hcode hcode'
  rw [numInsns_eq hn] at hmap₁
  rw [numInsns_eq hm] at hmap₂
  refine windowOps_eq_some_iff.mpr ⟨bbCode, insns₁ ++ insns₂, hcode, ?_, flatMap_append⟩
  rw [numInsns_eq hca, insnAddrs_add, add_insns hm, mapM_append, hmap₁, hmap₂]
  rfl

/-- **Block liveness can be split** where the windows match: the function of a range is that of
its first part composed with that of the second, if every restore of the first part that leaves a
manufactured window in only one of the two analyses leaves it with all `%l`s and `%i`s passing,
and if the counter of manufactured windows does not overflow. -/
theorem doLiveRegAnalysis_split {a b c : Kptr} {fac fab fbc : DataflowFn}
    (hac : doLiveRegAnalysis dec fnCode oracle bb c a = some fac)
    (hab : doLiveRegAnalysis dec fnCode oracle bb b a = some fab)
    (hbc : doLiveRegAnalysis dec fnCode oracle bb c b = some fbc)
    (hmatch : ∀ s, windowOps dec fnCode oracle bb b a = some s →
      fbc.numPreSaveFramesManufactured + s.count .save < 2 ^ 32 ∧ fbc.WindowsMatch s) :
    ∃ r, fab.compose fbc = .ok r ∧ r.eq fac = true := by
  obtain ⟨-, u, hu, hfac⟩ := doLiveRegAnalysis_eq_some hac
  obtain ⟨hlenab, t, ht, hfab⟩ := doLiveRegAnalysis_eq_some hab
  obtain ⟨hlenbc, s, hs, hfbc⟩ := doLiveRegAnalysis_eq_some hbc
  have hust : u = s ++ t :=
    Option.some.inj (hu.symm.trans (windowOps_append hlenab hlenbc hs ht))
  obtain ⟨g, hg, hok⟩ := Ok.performAll (ok_ofBools true false) s
  obtain rfl : g = fbc := Except.ok.inj (hg.symm.trans hfbc)
  obtain ⟨hcount, hwin⟩ := hmatch t ht
  obtain ⟨f, h, r, hf, hh, hr, hsame, -⟩ :=
    compose_performAll hok t (windowsPass_of_notMem (pass_notMem_windowOps ht)) hcount hwin
  obtain rfl : f = fab := Except.ok.inj (hf.symm.trans hfab)
  obtain rfl : h = fac := by
    rw [hust, performAll_append, hfbc] at hfac
    exact Except.ok.inj (hh.symm.trans hfac)
  exact ⟨r, hr, hsame.eq⟩

end Split

/-! ## Two blocks -/

/-- The set of one integer register. -/
def intRegSet (r : Reg) : SparcRegSet := ⟨1#32 <<< r.val, 0, 0⟩

def Operand.regs : Operand → SparcRegSet
  | .reg rs2 => intRegSet rs2
  | .simm13 _ => .emptyset

/-- The usage of an instruction with a destination and two sources; `%g0` is never written. -/
def usageOf (rd rs1 : Reg) (src : Operand) (isSave isRestore : Bool) : RegisterUsage where
  definitelyUsedBeforeWritten := intRegSet rs1 ||| src.regs
  maybeUsedBeforeWritten := .emptyset
  definitelyWritten := intRegSet rd - intRegSet .g0
  maybeWritten := .emptyset
  isSave := isSave
  isRestore := isRestore
  isV9Return := false

/-- A call writes `%pc` and `%o7`. -/
def callUsage : RegisterUsage :=
  { usageOf .o7 .g0 (.simm13 0) false false with
    definitelyUsedBeforeWritten := .emptyset
    definitelyWritten := ⟨1#32 <<< Reg.o7.val, 0, 1#10 <<< 6⟩ }

def notATransfer : ControlFlowInfo where
  controlFlowInstruction := false
  isCall := false
  isJmpLink := false
  isRet := false
  isRetl := false
  isV9Return := false
  isDoneOrRetry := false
  isBicc := false
  isBPcc := false
  isBPr := false
  isFBfcc := false
  isFBPfcc := false
  delaySlot := .dsNone
  offsetNBytes := 0#32

def callInfo (dispNBytes : Int) : ControlFlowInfo :=
  { notATransfer with
    controlFlowInstruction := true
    isCall := true
    delaySlot := .dsAlways
    offsetNBytes := BitVec.ofInt 32 dispNBytes }

/-- What `getInformation` says about `or`, `save`, `restore` and `call`. -/
def Insn.information : Insn → Option (RegisterUsage × ControlFlowInfo)
  | .or rd rs1 src => some (usageOf rd rs1 src false false, notATransfer)
  | .save rd rs1 src => some (usageOf rd rs1 src true false, notATransfer)
  | .restore rd rs1 src => some (usageOf rd rs1 src false true, notATransfer)
  | .call dispNBytes => some (callUsage, callInfo dispNBytes)
  | _ => none

def sparcDecoder : Decoder where
  getRegisterUsage w := (decode w).information.map Prod.fst
  getControlFlowInfo w := (decode w).information.map Prod.snd

/-- An oracle for the callee at `0x1104`, which reads `%o0` and destroys `%o1`. -/
def o0Oracle : CallOracle where
  whenDestAddrIsUnknown := .startAllRegs
  whenDestAddrIsKnown destAddr :=
    if destAddr = 0x1104#64 then
      (passAllRegs.stopSet (intRegSet .o1)).startSet (intRegSet .o0)
    else .startAllRegs

/-- A block of the given code at address `0x1000` that falls through to the next one. -/
def blockAt1000 (code : List Word) : BlockInfo where
  numInsnBytes := 4 * code.length
  startAddr := 0x1000#64
  endAddrPlus1 := 0x1000#64 + BitVec.ofNat 64 (4 * code.length)
  numSuccs := 1
  succOf0 := .reg 1

/-- `restore; call 0x1104; mov %l0, %g1` -/
def callBlock : List Word := [0x81e80000#32, 0x40000040#32, 0x82100010#32]

/-- A cut between a call and its delay slot. -/
theorem doLiveRegAnalysis_split_callBlock :
    ∃ fac fab fbc r,
      doLiveRegAnalysis sparcDecoder [⟨0x1000#64, callBlock⟩] o0Oracle (blockAt1000 callBlock)
        0x100c#64 0x1000#64 = some fac ∧
      doLiveRegAnalysis sparcDecoder [⟨0x1000#64, callBlock⟩] o0Oracle (blockAt1000 callBlock)
        0x1008#64 0x1000#64 = some fab ∧
      doLiveRegAnalysis sparcDecoder [⟨0x1000#64, callBlock⟩] o0Oracle (blockAt1000 callBlock)
        0x100c#64 0x1008#64 = some fbc ∧
      fab.compose fbc = .ok r ∧ r.eq fac = true := by
  obtain ⟨r, hr, heq⟩ := @doLiveRegAnalysis_split sparcDecoder [⟨0x1000#64, callBlock⟩] o0Oracle
    (blockAt1000 callBlock) 0x1000#64 0x1008#64 0x100c#64 _ _ _ rfl rfl rfl (by
      intro s hs
      cases hs
      exact ⟨by decide, windowsMatch_of_save_notMem (fun _ => rfl) rfl (by decide)⟩)
  exact ⟨_, _, _, r, rfl, rfl, rfl, hr, heq⟩

/-- `save %sp, -96, %sp; restore; mov %l0, %g1; save %sp, -96, %sp` -/
def saveBlock : List Word := [0x9de3bfa0#32, 0x81e80000#32, 0x82100010#32, 0x9de3bfa0#32]

/-- **A cut changes the function**: the second part of this block reads `%l0` in a window that the
analysis has manufactured. Over the whole block it leaves that window by the `restore` and forgets
the read, but the function of the first part, which restores and saves, passes `%l0`. -/
theorem split_loses_localRead :
    ∃ fac fab fbc r,
      doLiveRegAnalysis sparcDecoder [⟨0x1000#64, saveBlock⟩] o0Oracle (blockAt1000 saveBlock)
        0x1010#64 0x1000#64 = some fac ∧
      doLiveRegAnalysis sparcDecoder [⟨0x1000#64, saveBlock⟩] o0Oracle (blockAt1000 saveBlock)
        0x1008#64 0x1000#64 = some fab ∧
      doLiveRegAnalysis sparcDecoder [⟨0x1000#64, saveBlock⟩] o0Oracle (blockAt1000 saveBlock)
        0x1010#64 0x1008#64 = some fbc ∧
      fab.compose fbc = .ok r ∧ r.eq fac = false :=
  ⟨_, _, _, _, rfl, rfl, rfl, rfl, by decide⟩

end Kerninst
