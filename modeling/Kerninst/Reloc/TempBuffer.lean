import Kerninst.Lib.SwapRemove
import Kerninst.Sparc.BranchOffset
import Kerninst.Sparc.LoadImm

/-!
# Emitting code that is not placed yet

Modelled from `emitters/src/tempBufferEmitter.C` and `sparc_tempBufferEmitter.C`. The code comes
in chunks, each of which will be placed on its own. An instruction that depends on an address
that is not known yet is emitted as a dummy, and what it should become is noted in one of the
lists of `Unresolved`.

`completeDisablingCode`, which puts an instruction word into two words that were emitted as `nop`,
is left out. Both copies of `resolve1SetImmAddr`, the emitter's and the one of `relocatableCode`,
are one definition here.
-/

namespace Kerninst

/-! ## Chunks -/

/-- `insnOffset` -/
structure InsnOffset where
  chunkNdx : Nat
  byteOffset : Nat
deriving DecidableEq

/-- `offset.byteOffset += n` -/
def InsnOffset.add (off : InsnOffset) (n : Nat) : InsnOffset := ⟨off.chunkNdx, off.byteOffset + n⟩

/-- The code, before it is placed. -/
abbrev Chunks := List (List Word)

/-- `offset2Insn`, as the word that it points to. -/
def offset2Insn (chunks : Chunks) (off : InsnOffset) : Option Word := do
  let chunk ← chunks[off.chunkNdx]?
  check (off.byteOffset % 4 = 0)
  chunk[off.byteOffset / 4]?

/-- Assign to what `offset2Insn` points to. -/
def setInsn (chunks : Chunks) (off : InsnOffset) (w : Word) : Chunks :=
  if off.byteOffset % 4 = 0 then
    chunks.modify off.chunkNdx fun chunk => chunk.set (off.byteOffset / 4) w
  else chunks

/-- Replace one instruction by another that depends on it. -/
def modifyInsn (chunks : Chunks) (off : InsnOffset) (f : Word → Option Word) : Option Chunks := do
  let current ← offset2Insn chunks off
  let new ← f current
  pure (setInsn chunks off new)

/-- The loop that asserts that each instruction is the old one, and replaces it by the new one. -/
def replaceVerified (chunks : Chunks) (off : InsnOffset) : List Word → List Word → Option Chunks
  | old :: oldv, new :: newv => do
    let current ← offset2Insn chunks off
    check (current = old)
    replaceVerified (setInsn chunks off new) (off.add 4) oldv newv
  | _, _ => some chunks

/-! ## What is unresolved -/

/-- Where the two instructions are whose immediates are to be patched. -/
structure SetHiBSetOrAddLocation where
  setHiLabelName : String
  setHiInsnByteOffset : Nat
  bsetOrAddLabelName : String
  bsetOrAddInsnByteOffset : Nat

/-- They get the address of a label, plus an offset. -/
structure SetHiBSetBackpatchInfo where
  insnLocs : SetHiBSetOrAddLocation
  labelName : String
  byteOffset : Nat

/-- The difference of two labels, divided. -/
structure LabelDifference where
  label1 : String
  label2 : String
  divideByThis : Word

/-- An entry of one of the lists. -/
inductive Item
  | branchToLabel (off : InsnOffset) (labelName : String)
  | interprocBranchToName (off : InsnOffset) (symName : String)
  | interprocBranchToAddr (off : InsnOffset) (addr : Kptr)
  | callByName (off : InsnOffset) (symName : String)
  | callByAddr (off : InsnOffset) (addr : Kptr)
  | symAddr (off : InsnOffset) (symName : String)
  | labelAddrAsData (off : InsnOffset) (labelName : String)
  | labelDifference (off : InsnOffset) (info : LabelDifference)
  | labelAddr (off : InsnOffset) (labelName : String)
  | backpatch (info : SetHiBSetBackpatchInfo)

/-- One list for each kind of entry. -/
structure Unresolved where
  branchesToLabels : List (InsnOffset × String)
  interprocBranchesToName : List (InsnOffset × String)
  interprocBranchesToAddr : List (InsnOffset × Kptr)
  callsByName : List (InsnOffset × String)
  callsByAddr : List (InsnOffset × Kptr)
  symAddrs : List (InsnOffset × String)
  labelAddrsAsData : List (InsnOffset × String)
  labelAddrMinusLabelAddrThenDivides : List (InsnOffset × LabelDifference)
  labelAddrs : List (InsnOffset × String)
  setHiBSetOrAddBackpatches : List SetHiBSetBackpatchInfo

namespace Unresolved

/-- Append to the list that the entry is for. -/
def append (u : Unresolved) : Item → Unresolved
  | .branchToLabel off l => { u with branchesToLabels := u.branchesToLabels ++ [(off, l)] }
  | .interprocBranchToName off s =>
    { u with interprocBranchesToName := u.interprocBranchesToName ++ [(off, s)] }
  | .interprocBranchToAddr off a =>
    { u with interprocBranchesToAddr := u.interprocBranchesToAddr ++ [(off, a)] }
  | .callByName off s => { u with callsByName := u.callsByName ++ [(off, s)] }
  | .callByAddr off a => { u with callsByAddr := u.callsByAddr ++ [(off, a)] }
  | .symAddr off s => { u with symAddrs := u.symAddrs ++ [(off, s)] }
  | .labelAddrAsData off l => { u with labelAddrsAsData := u.labelAddrsAsData ++ [(off, l)] }
  | .labelDifference off info =>
    { u with labelAddrMinusLabelAddrThenDivides :=
        u.labelAddrMinusLabelAddrThenDivides ++ [(off, info)] }
  | .labelAddr off l => { u with labelAddrs := u.labelAddrs ++ [(off, l)] }
  | .backpatch info =>
    { u with setHiBSetOrAddBackpatches := u.setHiBSetOrAddBackpatches ++ [info] }

/-- All entries, in the order in which `obtainFullyResolvedCode` goes over the lists. -/
def items (u : Unresolved) : List Item :=
  u.branchesToLabels.map (fun x => .branchToLabel x.1 x.2) ++
  u.interprocBranchesToName.map (fun x => .interprocBranchToName x.1 x.2) ++
  u.interprocBranchesToAddr.map (fun x => .interprocBranchToAddr x.1 x.2) ++
  u.callsByName.map (fun x => .callByName x.1 x.2) ++
  u.callsByAddr.map (fun x => .callByAddr x.1 x.2) ++
  u.symAddrs.map (fun x => .symAddr x.1 x.2) ++
  u.labelAddrsAsData.map (fun x => .labelAddrAsData x.1 x.2) ++
  u.labelAddrMinusLabelAddrThenDivides.map (fun x => .labelDifference x.1 x.2) ++
  u.labelAddrs.map (fun x => .labelAddr x.1 x.2) ++
  u.setHiBSetOrAddBackpatches.map .backpatch

end Unresolved

/-! ## The emitter -/

/-- `dictionary_hash::set`, which asserts that the key is new. -/
def dictionarySet {α : Type} (d : String → Option α) (key : String) (v : α) :
    Option (String → Option α) := do
  check ((d key).isNone = true)
  pure (Function.update d key (some v))

/-- The name under which code asks for the address of its own chunk. -/
def thisChunkAddr : String := "\x7b\x7bthisChunkAddr!\x7d\x7d"

namespace SparcInstr

/-- A call between known addresses. -/
def genCallAndLink (fromAddr toAddr : Kptr) : Option (List Word) := do
  let ok ← inRangeOfCall fromAddr toAddr
  check ok
  let call ← callandlink toAddr fromAddr
  pure [call]

/-- A call as if it were at address 0. -/
def genCallAndLinkGenericUnknownFromAddr (toAddr : Kptr) : Option (List Word) := do
  check (toAddr.toNat < 0xFFFFFFFF)
  let call ← callandlink toAddr 0
  pure [call]

/-- The dummy for a call. -/
def genCallAndLinkGenericUnknownFromAndToAddr : Option (List Word) :=
  genCallAndLinkGenericUnknownFromAddr 0

end SparcInstr

/-- `tempBufferEmitter` -/
structure TempBufferEmitter where
  theChunks : Chunks
  currChunkNdx : Nat
  completed : Bool
  labels : String → Option InsnOffset
  knownSymAddrs : String → Option Kptr
  unresolved : Unresolved

namespace TempBufferEmitter

/-- The constructor: there is one empty chunk. -/
def create : TempBufferEmitter :=
  ⟨[[]], 0, false, fun _ => none, fun _ => none, ⟨[], [], [], [], [], [], [], [], [], []⟩⟩

variable (e : TempBufferEmitter)

/-- The new chunk is the current one. -/
def beginNewChunk : TempBufferEmitter :=
  { e with theChunks := e.theChunks ++ [[]], currChunkNdx := e.theChunks.length }

/-- Go on with another chunk. -/
def switchToChunk (chunkNdx : Nat) : Option TempBufferEmitter := do
  check (chunkNdx < e.theChunks.length)
  pure { e with currChunkNdx := chunkNdx }

/-- Where the next instruction goes. -/
def currInsnOffset : Option InsnOffset :=
  e.theChunks[e.currChunkNdx]?.map fun chunk => ⟨e.currChunkNdx, 4 * chunk.length⟩

/-- At the end of the current chunk. -/
def emit (w : Word) : Option TempBufferEmitter := do
  check (e.completed = false)
  check (e.currChunkNdx < e.theChunks.length)
  pure { e with theChunks := e.theChunks.modify e.currChunkNdx (· ++ [w]) }

/-- Several instructions. -/
def emitSequence (ws : List Word) : Option TempBufferEmitter := ws.foldlM emit e

/-- A label at the present place. -/
def emitLabel (labelName : String) : Option TempBufferEmitter := do
  check (e.completed = false)
  let off ← e.currInsnOffset
  let labels ← dictionarySet e.labels labelName off
  pure { e with labels := labels }

/-- What the emitting routines below have in common: they note an entry for the place where the
instructions are emitted next. -/
def emitUnresolved (item : InsnOffset → Item) (ws : List Word) : Option TempBufferEmitter := do
  let off ← e.currInsnOffset
  emitSequence { e with unresolved := e.unresolved.append (item off) } ws

/-- A branch that is given its displacement later. -/
def emitCondBranchToLabel (i : Word) (labelName : String) : Option TempBufferEmitter :=
  e.emitUnresolved (.branchToLabel · labelName) [i]

/-- The label must not be there yet. -/
def emitCondBranchToForwardLabel (i : Word) (fwdLabelName : String) :
    Option TempBufferEmitter := do
  check ((e.labels fwdLabelName).isNone = true)
  e.emitUnresolved (.branchToLabel · fwdLabelName) [i]

/-- A branch to another function. -/
def emitInterprocCondBranchToName (i : Word) (destName : String) : Option TempBufferEmitter :=
  e.emitUnresolved (.interprocBranchToName · destName) [i]

/-- The same, by address. -/
def emitInterprocCondBranchToAddr (i : Word) (destAddr : Kptr) : Option TempBufferEmitter :=
  e.emitUnresolved (.interprocBranchToAddr · destAddr) [i]

/-- A call of a function by name. -/
def emitCallByName (calleeName : String) : Option TempBufferEmitter := do
  let ws ← SparcInstr.genCallAndLinkGenericUnknownFromAndToAddr
  e.emitUnresolved (.callByName · calleeName) ws

/-- A call of an address. -/
def emitCallByAddr (calleeAddr : Kptr) : Option TempBufferEmitter := do
  let ws ← SparcInstr.genCallAndLinkGenericUnknownFromAddr calleeAddr
  e.emitUnresolved (.callByAddr · calleeAddr) ws

/-- Load the address of a symbol. -/
def emitSymAddr (symbolName : String) (rd : Reg) : Option TempBufferEmitter := do
  let ws ← SparcInstr.genImmAddrGeneric64 0 rd true
  e.emitUnresolved (.symAddr · symbolName) ws

/-- Load the address of this chunk. -/
def emitThisChunkAddr (rd : Reg) : Option TempBufferEmitter := e.emitSymAddr thisChunkAddr rd

/-- Load the address of a label. -/
def emitLabelAddr (labelName : String) (rd : Reg) : Option TempBufferEmitter := do
  let ws ← SparcInstr.genImmAddrGeneric64 0 rd true
  e.emitUnresolved (.labelAddr · labelName) ws

/-- The address of a label, as a word. -/
def emitLabelAddrAsData (labelName : String) : Option TempBufferEmitter :=
  e.emitUnresolved (.labelAddrAsData · labelName) [0]

/-- The difference of two labels, as a word. -/
def emitLabelAddrMinusLabelAddrDividedBy (label1 label2 : String) (divideByThis : Word) :
    Option TempBufferEmitter :=
  e.emitUnresolved (.labelDifference · ⟨label1, label2, divideByThis⟩) [0]

/-- A symbol is known once only. -/
def makeSymAddrKnown (symbolName : String) (value : Kptr) : Option TempBufferEmitter := do
  check (e.completed = false)
  let knownSymAddrs ← dictionarySet e.knownSymAddrs symbolName value
  pure { e with knownSymAddrs := knownSymAddrs }

/-- Note a pair that is to be patched. -/
def lateBackpatchOfSetHiBSetOrAddToLabelAddrPlusOffset (insnLocs : SetHiBSetOrAddLocation)
    (labelName : String) (byteOffset : Nat) : TempBufferEmitter :=
  { e with unresolved := e.unresolved.append (.backpatch ⟨insnLocs, labelName, byteOffset⟩) }

/-- What can be done with an emitter before it is completed. -/
inductive Op
  | beginNewChunk
  | switchToChunk (chunkNdx : Nat)
  | emitSequence (ws : List Word)
  | emitLabel (labelName : String)
  | emitCondBranchToLabel (i : Word) (labelName : String)
  | emitCondBranchToForwardLabel (i : Word) (fwdLabelName : String)
  | emitInterprocCondBranchToName (i : Word) (destName : String)
  | emitInterprocCondBranchToAddr (i : Word) (destAddr : Kptr)
  | emitCallByName (calleeName : String)
  | emitCallByAddr (calleeAddr : Kptr)
  | emitSymAddr (symbolName : String) (rd : Reg)
  | emitThisChunkAddr (rd : Reg)
  | emitLabelAddr (labelName : String) (rd : Reg)
  | emitLabelAddrAsData (labelName : String)
  | emitLabelAddrMinusLabelAddrDividedBy (label1 label2 : String) (divideByThis : Word)
  | makeSymAddrKnown (symbolName : String) (value : Kptr)
  | lateBackpatch (insnLocs : SetHiBSetOrAddLocation) (labelName : String) (byteOffset : Nat)

/-- One operation. -/
def step : Op → Option TempBufferEmitter
  | .beginNewChunk => some e.beginNewChunk
  | .switchToChunk n => e.switchToChunk n
  | .emitSequence ws => e.emitSequence ws
  | .emitLabel l => e.emitLabel l
  | .emitCondBranchToLabel i l => e.emitCondBranchToLabel i l
  | .emitCondBranchToForwardLabel i l => e.emitCondBranchToForwardLabel i l
  | .emitInterprocCondBranchToName i s => e.emitInterprocCondBranchToName i s
  | .emitInterprocCondBranchToAddr i a => e.emitInterprocCondBranchToAddr i a
  | .emitCallByName s => e.emitCallByName s
  | .emitCallByAddr a => e.emitCallByAddr a
  | .emitSymAddr s rd => e.emitSymAddr s rd
  | .emitThisChunkAddr rd => e.emitThisChunkAddr rd
  | .emitLabelAddr l rd => e.emitLabelAddr l rd
  | .emitLabelAddrAsData l => e.emitLabelAddrAsData l
  | .emitLabelAddrMinusLabelAddrDividedBy l₁ l₂ d => e.emitLabelAddrMinusLabelAddrDividedBy l₁ l₂ d
  | .makeSymAddrKnown s a => e.makeSymAddrKnown s a
  | .lateBackpatch locs l n =>
    some (e.lateBackpatchOfSetHiBSetOrAddToLabelAddrPlusOffset locs l n)

/-- The contents after some operations on a new emitter. -/
def emitted (ops : List Op) : Option TempBufferEmitter := ops.foldlM step create

end TempBufferEmitter

/-! ## Completing -/

/-- The dummy instructions that load an address into `rd`, and those that load `addr`, with as
many `nop`s as it takes. -/
def setImmAddrWords (rd : Reg) (addr : Kptr) : Option (List Word × List Word) := do
  let oldv ← SparcInstr.genImmAddrGeneric64 0 rd true
  let newv ← SparcInstr.genImmAddr addr rd
  check (newv.length ≤ oldv.length)
  let nop ← SparcInstr.nop
  pure (oldv, newv ++ List.replicate (oldv.length - newv.length) nop)

/-- The register is read from the first of the dummy instructions. -/
def resolve1SetImmAddr (chunks : Chunks) (offs : InsnOffset) (addr : Kptr) : Option Chunks := do
  let first ← offset2Insn chunks offs
  let words ← setImmAddrWords (regField first 25) addr
  replaceVerified chunks offs words.1 words.2

namespace TempBufferEmitter

variable (e : TempBufferEmitter)

/-- The branch and the label are in one chunk. -/
def isLocalBranch (x : InsnOffset × String) : Option Bool :=
  (e.labels x.2).map fun labelOff => decide (x.1.chunkNdx = labelOff.chunkNdx)

/-- The distance, as an `int`. -/
def insnbytesDelta (labelOff branchinsnOff : InsnOffset) : Int :=
  toLong labelOff.byteOffset - toLong branchinsnOff.byteOffset

/-- A branch within a chunk. -/
def fixUpBranch (chunks : Chunks) (x : InsnOffset × String) : Option Chunks := do
  let labelOff ← e.labels x.2
  check (insnbytesDelta labelOff x.1 % 4 = 0)
  modifyInsn chunks x.1 (changeBranchOffset · (insnbytesDelta labelOff x.1))

/-- All of them. -/
def fixUpUnresolvedBranchesToLabels : Option TempBufferEmitter := do
  let r ← sweepAll e.isLocalBranch e.fixUpBranch e.unresolved.branchesToLabels e.theChunks
  pure { e with theChunks := r.2, unresolved := { e.unresolved with branchesToLabels := r.1 } }

/-- Both labels are in one chunk. -/
def isLocalDifference (x : InsnOffset × LabelDifference) : Option Bool := do
  let label1Offset ← e.labels x.2.label1
  let label2Offset ← e.labels x.2.label2
  pure (decide (label1Offset.chunkNdx = label2Offset.chunkNdx))

/-- The difference is taken, and divided, as an `unsigned`. -/
def fixUpDifference (chunks : Chunks) (x : InsnOffset × LabelDifference) : Option Chunks := do
  let label1Offset ← e.labels x.2.label1
  let label2Offset ← e.labels x.2.label2
  let difference :=
    BitVec.ofNat 32 label1Offset.byteOffset - BitVec.ofNat 32 label2Offset.byteOffset
  check (x.2.divideByThis ≠ 0)
  modifyInsn chunks x.1 fun raw => (check (raw = 0)).map fun _ => difference / x.2.divideByThis

/-- All that are within a chunk. -/
def fixUpLabelAddrMinusLabelAddrDividedBys : Option TempBufferEmitter := do
  let r ← sweepAll e.isLocalDifference e.fixUpDifference
    e.unresolved.labelAddrMinusLabelAddrThenDivides e.theChunks
  pure { e with
    theChunks := r.2
    unresolved := { e.unresolved with labelAddrMinusLabelAddrThenDivides := r.1 } }

/-- The address was made known. -/
def isKnownSymAddr (x : InsnOffset × String) : Option Bool := some (e.knownSymAddrs x.2).isSome

/-- A load of a known address. -/
def fixUpSymAddr (chunks : Chunks) (x : InsnOffset × String) : Option Chunks := do
  let valueToUse ← e.knownSymAddrs x.2
  resolve1SetImmAddr chunks x.1 valueToUse

/-- All of them. -/
def fixUpKnownSymAddrs : Option TempBufferEmitter := do
  let r ← sweepAll e.isKnownSymAddr e.fixUpSymAddr e.unresolved.symAddrs e.theChunks
  pure { e with theChunks := r.2, unresolved := { e.unresolved with symAddrs := r.1 } }

/-- Resolve, and take off their lists, branches and differences within a chunk, and known symbols.
The other kinds of entries have no routine that does anything. -/
def complete : Option TempBufferEmitter := do
  check (e.completed = false)
  let e ← e.fixUpUnresolvedBranchesToLabels
  let e ← e.fixUpLabelAddrMinusLabelAddrDividedBys
  let e ← e.fixUpKnownSymAddrs
  pure { e with completed := true }

end TempBufferEmitter

end Kerninst
