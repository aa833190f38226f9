import Kerninst.Reloc.TempBuffer
import Kerninst.Sparc.LRAndR

/-!
# Placing emitted code

Modelled from `relocatableCode/src/relocatableCode.{h,C}` and `sparc_relocatableCode.{h,C}`. A
relocatable code object is what a completed emitter has left: the chunks, and what is still
unresolved. `obtainFullyResolvedCode` is told where each chunk goes, and resolves the rest. It
works on a copy of the chunks, `fullyResolvedCodeCache`, which is made when the object is
constructed and is kept from one call to the next.

There is one loop for each list of unresolved entries. `obtain_eq` joins them: in effect there
is one loop over all entries.
-/

namespace Kerninst

/-- What the users of relocatable code know about symbols: `obtainFunctionEntryAddr` and
`obtainImmAddr` of the `resolverOracle`. -/
structure ResolverOracle where
  obtainFunctionEntryAddr : String → Option Kptr
  obtainImmAddr : String → Option Kptr

structure RelocatableCode where
  theChunks : Chunks
  labels : String → Option InsnOffset
  knownSymAddrs : String → Option Kptr
  unresolved : Unresolved
  fullyResolvedCodeCache : Chunks

/-- What addresses are known from. -/
structure ResolveEnv where
  labels : String → Option InsnOffset
  knownSymAddrs : String → Option Kptr
  chunkStartAddrs : List Kptr
  oracle : ResolverOracle

namespace ResolveEnv

variable (env : ResolveEnv)

def absoluteAddr (off : InsnOffset) : Option Kptr :=
  env.chunkStartAddrs[off.chunkNdx]?.map fun start => start + BitVec.ofNat 64 off.byteOffset

/-- `distance_calc`, a signed number of 64 bits. -/
def distanceCalc (dest src : InsnOffset) : Option Int := do
  let destAddr ← env.absoluteAddr dest
  let srcAddr ← env.absoluteAddr src
  pure (destAddr - srcAddr).toInt

/-- The absolute address of a label. -/
def labelAddr (labelName : String) : Option Kptr := do
  let off ← env.labels labelName
  env.absoluteAddr off

/-! ## One routine for each kind of entry

`changeBranchOffset` takes an `int`. -/

variable (chunks : Chunks)

def resolveBranchToLabel (off : InsnOffset) (labelName : String) : Option Chunks := do
  let labelOff ← env.labels labelName
  let delta ← env.distanceCalc labelOff off
  modifyInsn chunks off (changeBranchOffset · (toLong delta))

/-- The branch at `off`, to an absolute address. -/
def resolveBranchToAddr (off : InsnOffset) (destAbsoluteAddr : Kptr) : Option Chunks := do
  let thisInsnAbsoluteAddr ← env.absoluteAddr off
  modifyInsn chunks off
    (changeBranchOffset · (toLong (destAbsoluteAddr - thisInsnAbsoluteAddr).toInt))

/-- The oracle is asked first. -/
def branchDest (symName : String) : Option Kptr :=
  (env.oracle.obtainFunctionEntryAddr symName).or (env.knownSymAddrs symName)

def resolveInterprocBranchToName (off : InsnOffset) (symName : String) : Option Chunks := do
  let destAbsoluteAddr ← env.branchDest symName
  env.resolveBranchToAddr chunks off destAbsoluteAddr

/-- The expected words of a call, and the new ones. Only the last instruction of the dummy is the
call, and shorter code would be preceded by `nop`s. -/
def callWords (startAddr calleeAddr calleeAddrAtEmitTime : Kptr) :
    Option (List Word × List Word) := do
  let oldv ← SparcInstr.genCallAndLinkGenericUnknownFromAddr calleeAddrAtEmitTime
  let newv ← SparcInstr.genCallAndLink
    (startAddr + BitVec.ofNat 64 ((oldv.length - 1) * 4)) calleeAddr
  check (newv.length ≤ oldv.length)
  let nop ← SparcInstr.nop
  pure (oldv, List.replicate (oldv.length - newv.length) nop ++ newv)

def resolve1Call (offs : InsnOffset) (startAddr calleeAddr calleeAddrAtEmitTime : Kptr) :
    Option Chunks := do
  let words ← callWords startAddr calleeAddr calleeAddrAtEmitTime
  replaceVerified chunks offs words.1 words.2

/-- Known symbols first, then labels, then the oracle. -/
def callDest (symName : String) : Option Kptr :=
  match env.knownSymAddrs symName with
  | some addr => some addr
  | none =>
    match env.labels symName with
    | some calleeOffset => env.absoluteAddr calleeOffset
    | none => env.oracle.obtainFunctionEntryAddr symName

def resolveCallByName (off : InsnOffset) (symName : String) : Option Chunks := do
  let insnAbsoluteAddr ← env.absoluteAddr off
  let calleeAddr ← env.callDest symName
  resolve1Call chunks off insnAbsoluteAddr calleeAddr 0

/-- `isCallInstr` -/
def isCallInstr (w : Word) : Bool := field w 30 2 = 1

def resolveCallByAddr (off : InsnOffset) (calleeAddr : Kptr) : Option Chunks := do
  let insnAbsoluteAddr ← env.absoluteAddr off
  let callInsn ← offset2Insn chunks off
  check (isCallInstr callInsn)
  resolve1Call chunks off insnAbsoluteAddr calleeAddr calleeAddr

/-- A symbol that is loaded and was not known when the emitter was completed. -/
def symDest (off : InsnOffset) (symName : String) : Option Kptr :=
  if symName = thisChunkAddr then env.chunkStartAddrs[off.chunkNdx]?
  else env.oracle.obtainImmAddr symName

def resolveSymAddr (off : InsnOffset) (symName : String) : Option Chunks := do
  check ((env.knownSymAddrs symName).isNone = true)
  let addr ← env.symDest off symName
  resolve1SetImmAddr chunks off addr

/-- The address must fit 32 bits. -/
def resolveLabelAddrAsData (off : InsnOffset) (labelName : String) : Option Chunks := do
  let labelAbsoluteAddr ← env.labelAddr labelName
  check (labelAbsoluteAddr.toNat < 2 ^ 32)
  modifyInsn chunks off fun _ => some (labelAbsoluteAddr.setWidth 32)

/-- The difference must be positive. It is divided as a signed number. -/
def resolveLabelDifference (off : InsnOffset) (info : LabelDifference) : Option Chunks := do
  let label1Offset ← env.labels info.label1
  let label2Offset ← env.labels info.label2
  let delta ← env.distanceCalc label1Offset label2Offset
  check (0 < delta)
  check (info.divideByThis ≠ 0)
  modifyInsn chunks off fun _ => some (BitVec.ofInt 32 (delta.tdiv info.divideByThis.toNat))

def resolveLabelAddr (off : InsnOffset) (labelName : String) : Option Chunks := do
  let labelAbsoluteAddr ← env.labelAddr labelName
  resolve1SetImmAddr chunks off labelAbsoluteAddr

/-- `isSetHi` -/
def isSetHi (w : Word) : Bool := field w 30 2 = 0 ∧ field w 22 3 = 4

/-- `isORImm` -/
def isORImm (w : Word) : Bool := field w 30 2 = 2 ∧ field w 19 6 = 2 ∧ bitField w 13

/-- `isAddImm` -/
def isAddImm (w : Word) : Bool := field w 30 2 = 2 ∧ field w 19 6 = 0 ∧ bitField w 13

/-- `sethi` with the high bits of the low 32. -/
def patchSetHi (newDestAddr : Kptr) (w : Word) : Option Word := do
  check (isSetHi w)
  check (regField w 25 ≠ Reg.g0)
  SparcInstr.sethi (newDestAddr.toNat % 2 ^ 32) (regField w 25)

/-- The `or` or the `add` with `lo_of_32`, the low 10 bits. -/
def patchBSetOrAdd (newDestAddr : Kptr) (w : Word) : Option Word :=
  if isORImm w then
    SparcInstr.orImm (regField w 25) (regField w 14) (newDestAddr.toNat % 2 ^ 10 : Nat)
  else if isAddImm w then
    SparcInstr.add (regField w 14) (.simm13 (newDestAddr.toNat % 2 ^ 10 : Nat)) (regField w 25)
  else none

/-- Where a pair of instructions is. -/
def patchOffsets (labels : String → Option InsnOffset) (locs : SetHiBSetOrAddLocation) :
    Option (InsnOffset × InsnOffset) := do
  let setHiLabel ← labels locs.setHiLabelName
  let bsetOrAddLabel ← labels locs.bsetOrAddLabelName
  pure (setHiLabel.add locs.setHiInsnByteOffset, bsetOrAddLabel.add locs.bsetOrAddInsnByteOffset)

def resolveBackpatch (info : SetHiBSetBackpatchInfo) : Option Chunks := do
  let labelAbsoluteAddr ← env.labelAddr info.labelName
  let newDestAddr := labelAbsoluteAddr + BitVec.ofNat 64 info.byteOffset
  let offs ← patchOffsets env.labels info.insnLocs
  let chunks ← modifyInsn chunks offs.1 (patchSetHi newDestAddr)
  modifyInsn chunks offs.2 (patchBSetOrAdd newDestAddr)

end ResolveEnv

/-! ## The whole object -/

namespace RelocatableCode

/-- The constructor from a completed emitter. -/
def ofEmitter (em : TempBufferEmitter) : Option RelocatableCode := do
  check em.completed
  pure ⟨em.theChunks, em.labels, em.knownSymAddrs, em.unresolved, em.theChunks⟩

variable (rc : RelocatableCode) (chunkStartAddrs : List Kptr) (oracle : ResolverOracle)

def env : ResolveEnv := ⟨rc.labels, rc.knownSymAddrs, chunkStartAddrs, oracle⟩

/-- The assertions at the start. -/
def checkPlacement : Option Unit := do
  check (chunkStartAddrs.length = rc.theChunks.length)
  check (∀ addr ∈ chunkStartAddrs, addr.toNat % 4 = 0)
  check (rc.fullyResolvedCodeCache.map List.length = rc.theChunks.map List.length)

theorem checkPlacement_eq_some_iff {rc : RelocatableCode} {chunkStartAddrs : List Kptr} :
    rc.checkPlacement chunkStartAddrs = some () ↔ chunkStartAddrs.length = rc.theChunks.length ∧
      (∀ addr ∈ chunkStartAddrs, addr.toNat % 4 = 0) ∧
      rc.fullyResolvedCodeCache.map List.length = rc.theChunks.map List.length := by
  simp [checkPlacement, do_eq_some, check_eq_some]

/-- The result is the new cache. -/
def obtainFullyResolvedCode : Option RelocatableCode := do
  let env := rc.env chunkStartAddrs oracle
  let u := rc.unresolved
  checkPlacement rc chunkStartAddrs
  let c ← u.branchesToLabels.foldlM (fun c x => env.resolveBranchToLabel c x.1 x.2)
    rc.fullyResolvedCodeCache
  let c ← u.interprocBranchesToName.foldlM
    (fun c x => env.resolveInterprocBranchToName c x.1 x.2) c
  let c ← u.interprocBranchesToAddr.foldlM (fun c x => env.resolveBranchToAddr c x.1 x.2) c
  let c ← u.callsByName.foldlM (fun c x => env.resolveCallByName c x.1 x.2) c
  let c ← u.callsByAddr.foldlM (fun c x => env.resolveCallByAddr c x.1 x.2) c
  let c ← u.symAddrs.foldlM (fun c x => env.resolveSymAddr c x.1 x.2) c
  let c ← u.labelAddrsAsData.foldlM (fun c x => env.resolveLabelAddrAsData c x.1 x.2) c
  let c ← u.labelAddrMinusLabelAddrThenDivides.foldlM
    (fun c x => env.resolveLabelDifference c x.1 x.2) c
  let c ← u.labelAddrs.foldlM (fun c x => env.resolveLabelAddr c x.1 x.2) c
  let c ← u.setHiBSetOrAddBackpatches.foldlM env.resolveBackpatch c
  pure { rc with fullyResolvedCodeCache := c }

/-- The routine for an entry, of whatever kind. -/
def resolveItem (env : ResolveEnv) (c : Chunks) : Item → Option Chunks
  | .branchToLabel off l => env.resolveBranchToLabel c off l
  | .interprocBranchToName off s => env.resolveInterprocBranchToName c off s
  | .interprocBranchToAddr off a => env.resolveBranchToAddr c off a
  | .callByName off s => env.resolveCallByName c off s
  | .callByAddr off a => env.resolveCallByAddr c off a
  | .symAddr off s => env.resolveSymAddr c off s
  | .labelAddrAsData off l => env.resolveLabelAddrAsData c off l
  | .labelDifference off info => env.resolveLabelDifference c off info
  | .labelAddr off l => env.resolveLabelAddr c off l
  | .backpatch info => env.resolveBackpatch c info

/-- **One loop over all entries.** -/
theorem obtain_eq : rc.obtainFullyResolvedCode chunkStartAddrs oracle =
    (checkPlacement rc chunkStartAddrs).bind fun _ =>
      (rc.unresolved.items.foldlM (resolveItem (rc.env chunkStartAddrs oracle))
        rc.fullyResolvedCodeCache).map fun c => { rc with fullyResolvedCodeCache := c } := by
  simp [obtainFullyResolvedCode, Unresolved.items, List.foldlM_map, resolveItem, Option.bind_assoc,
    Option.map_eq_bind]

/-- A placement of the right size is accepted. -/
theorem obtain_of_placed {rc : RelocatableCode} {chunkStartAddrs : List Kptr}
    {oracle : ResolverOracle} (hlen : chunkStartAddrs.length = rc.theChunks.length)
    (haligned : ∀ addr ∈ chunkStartAddrs, addr.toNat % 4 = 0)
    (hsizes : rc.fullyResolvedCodeCache.map List.length = rc.theChunks.map List.length) :
    rc.obtainFullyResolvedCode chunkStartAddrs oracle =
      (rc.unresolved.items.foldlM (resolveItem (rc.env chunkStartAddrs oracle))
        rc.fullyResolvedCodeCache).map fun c => { rc with fullyResolvedCodeCache := c } := by
  rw [obtain_eq, checkPlacement_eq_some_iff.mpr ⟨hlen, haligned, hsizes⟩, Option.bind_some]

end RelocatableCode

end Kerninst
