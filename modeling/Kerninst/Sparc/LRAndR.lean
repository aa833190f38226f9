import Kerninst.Sparc.UsualJump

/-!
# Relocating an instruction

To instrument an instruction the kernel's word at the launch site is replaced by a jump to
a code patch, and the instruction is executed there instead: launch, relocate and return
(`LRAndR`). `createLRAndR` picks how; this module has the layouts for branches, calls, `jmpl`
and the instructions that do not transfer control.

A layout is given the address at which it emits (`patchAddr`, with what the patch already
holds added), the launch site, what `getControlFlowInfo` says of the original instruction,
and the instruction in its delay slot, which does not transfer control and is emitted
unchanged.

* With registers to use after it, a conditional branch goes, over a jump back, to a jump to the
  destination; the delay-slot instruction is in the open delay slots of the jumps. With none, it
  comes before closed jumps. With two before it, a conditional move chooses the destination.
* A call, an unconditional branch or a plain instruction needs one usual jump.
* A tail call is turned into a call and a return, with room for snippets between the two.
-/

namespace Kerninst

open SparcInstr

/-! ## Choosing a layout -/

/-- The subclasses of `LRAndR`. -/
inductive LRAndR
  | nonDCTI
  | unwoundCallRestore
  | unwoundCallWriteO7
  | call
  | jmpl
  | condBranchNa2FreeBefore (freeReg1 freeReg2 : Reg)
  | condBranch1FreeAfter
  | condBranch0FreeAfter
  | branchAlways
  | branchNever
  | v9Return
  | doneOrRetry
deriving DecidableEq

/-- The integer registers other than `%g0` of a set, in the order of its iterator. -/
def intRegsAfterG0 (s : SparcRegSet) : List Reg :=
  (List.finRange 32).filter fun r => r ≠ Reg.g0 ∧ s.mem (.int r)

/-- Whether a set has only integer registers. -/
def onlyIntRegs (s : SparcRegSet) : Prop := s = s &&& ⟨BitVec.allOnes 32, 0, 0⟩

instance (s : SparcRegSet) : Decidable (onlyIntRegs s) :=
  inferInstanceAs (Decidable (s = s &&& ⟨BitVec.allOnes 32, 0, 0⟩))

/-- A branch that is neither "always" nor "never"; there are no such `BPr`. -/
def Branch.reallyConditional (b : Branch) : Bool :=
  match b.kind with
  | .bpr .. => true
  | _ => b.condition ≠ 8 ∧ b.condition ≠ 0

def chooseBranch (b : Branch) (before after : SparcRegSet) : LRAndR :=
  if b.reallyConditional then
    match b.annul, intRegsAfterG0 before with
    | false, freeReg1 :: freeReg2 :: _ => .condBranchNa2FreeBefore freeReg1 freeReg2
    | _, _ => if after ≠ .emptyset then .condBranch1FreeAfter else .condBranch0FreeAfter
  else if b.condition = 8 then .branchAlways
  else .branchNever

/-- `LRAndR::create_LRAndR`. For a call the source looks at the instruction after it, of
which `followedByRestore` and `followedByWriteToO7` are known. -/
def createLRAndR (originsn : Word) (followedByRestore followedByWriteToO7 : Bool)
    (before after : SparcRegSet) (anyPreReturnSnippets : Bool) : Option LRAndR := do
  check (onlyIntRegs before)
  check (onlyIntRegs after)
  match decode originsn with
  | .call _ =>
    if followedByRestore ∧ anyPreReturnSnippets then pure .unwoundCallRestore
    else if followedByWriteToO7 ∧ anyPreReturnSnippets then pure .unwoundCallWriteO7
    else pure .call
  | .jmpl .. => pure .jmpl
  | .branch b => pure (chooseBranch b before after)
  | .cti =>
    if field originsn 30 2 = 2 ∧ field originsn 19 6 = 0x39 then pure .v9Return
    else if field originsn 30 2 = 2 ∧ field originsn 19 6 = 0x3e then pure .doneOrRetry
    else none
  | _ => pure .nonDCTI

/-! ## Conditional branches -/

/-- The original branch with the annul bit cleared and a new displacement. -/
def emitBranch (cfi : Branch) (displacement : Int) : Option Word :=
  match cfi.kind with
  | .bicc => bicc cfi.condition false displacement
  | .bpcc predict xcc => bpcc cfi.condition false predict xcc displacement
  | .fbfcc => fbfcc cfi.condition false displacement
  | .fbpfcc predict fccNum => fbpfcc cfi.condition false predict fccNum displacement
  | .bpr predict rs1 => bpr cfi.condition false predict rs1 displacement

/-- `cfi2ConditionalMove` -/
def cfi2ConditionalMove (cfi : Branch) (srcReg destReg : Reg) : Option Word :=
  match cfi.kind with
  | .bicc => movccInt cfi.condition false srcReg destReg
  | .bpcc _ xcc => movccInt cfi.condition xcc srcReg destReg
  | .fbfcc => movccFloat cfi.condition 0 srcReg destReg
  | .fbpfcc _ fccNum => movccFloat cfi.condition fccNum srcReg destReg
  | .bpr _ rs1 => movr cfi.condition rs1 srcReg destReg

/-- The bytes that a list of slots takes. -/
def numBytes (slots : List Slot) : Nat := 4 * slots.length

open UsualJump (allocateAppropriate asserted)

/-- What both layouts with jumps begin with: the branch over the code for the untaken case,
and a `nop` in its delay slot. -/
def emitBranchAndNop (cfi : Branch) (displacement : Nat) : Option (List Slot) := do
  let branch ← emitBranch cfi displacement
  let nop ← nop
  pure [newSlot branch, newSlot nop]

namespace CondBranch1FreeAfter

def conservativeNumInsnBytesForRAndR : Nat := 4 * 8

/-- `condBranch_1FreeAfterInsn_LRAndR::emitStuffAfterPreInsnSnippets`. The displacement
counts the branch, the `nop` and the jump, whatever the annul bit. -/
def emit (patchAddr launchSiteAddr : Kptr) (cfi : Branch) (delay : Word) (after : SparcRegSet) :
    Except JumpFailure (List Slot) := do
  let notTakenJump ← allocateAppropriate (patchAddr + 8) (launchSiteAddr + 8) after (!cfi.annul)
  let displacement := 8 + notTakenJump.numInsnBytes
  let branch ← asserted (emitBranchAndNop cfi displacement)
  let notTaken ← asserted notTakenJump.generate
  let notTakenDelay := if cfi.annul then [] else [delaySlot delay]
  let emitted := branch ++ notTaken.map newSlot ++ notTakenDelay
  let currInsnAddr := patchAddr + BitVec.ofNat 64 (numBytes emitted)
  let destinationAddr := launchSiteAddr + BitVec.ofInt 64 cfi.offsetNBytes
  let jumpToDestination ← allocateAppropriate currInsnAddr destinationAddr after true
  let taken ← asserted jumpToDestination.generate
  let emitted := emitted ++ taken.map newSlot ++ [delaySlot delay]
  asserted (check (numBytes emitted ≤ conservativeNumInsnBytesForRAndR))
  pure emitted

end CondBranch1FreeAfter

namespace CondBranch0FreeAfter

def conservativeNumInsnBytesForRAndR : Nat :=
  4 * (2 + 1 + 1) + UsualJump.maxNumInsnBytesNoFreeRegsNoOpenDS +
    UsualJump.maxNumInsnBytesNoFreeRegsNoOpenDS

/-- `condBranch_0FreeAfterInsn_LRAndR::emitStuffAfterPreInsnSnippets` -/
def emit (patchAddr launchSiteAddr : Kptr) (cfi : Branch) (delay : Word) :
    Except JumpFailure (List Slot) := do
  let notTakenDelay := if cfi.annul then [] else [delaySlot delay]
  let notTakenFrom := patchAddr + 8 + BitVec.ofNat 64 (numBytes notTakenDelay)
  let notTakenJump ← allocateAppropriate notTakenFrom (launchSiteAddr + 8) .emptyset false
  let displacement := 8 + (numBytes notTakenDelay + notTakenJump.numInsnBytes)
  let branch ← asserted (emitBranchAndNop cfi displacement)
  let emitted := branch ++ notTakenDelay
  asserted (check (patchAddr + BitVec.ofNat 64 (numBytes emitted) = notTakenFrom))
  let notTaken ← asserted notTakenJump.generate
  let emitted := emitted ++ notTaken.map newSlot ++ [delaySlot delay]
  let currInsnAddr := patchAddr + BitVec.ofNat 64 (numBytes emitted)
  let destinationAddr := launchSiteAddr + BitVec.ofInt 64 cfi.offsetNBytes
  let jumpToDestination ← allocateAppropriate currInsnAddr destinationAddr .emptyset false
  let taken ← asserted jumpToDestination.generate
  let emitted := emitted ++ taken.map newSlot
  asserted (check (numBytes emitted ≤ conservativeNumInsnBytesForRAndR))
  pure emitted

end CondBranch0FreeAfter

namespace CondBranchNa2FreeBefore

def conservativeNumInsnBytesForRAndR : Nat := 7 * 4

/-- `condBranch_na_2FreeBeforeInsn_LRAndR::emitStuffAfterPreInsnSnippets` -/
def emit (launchSiteAddr : Kptr) (cfi : Branch) (delay : Word) (freeReg1 freeReg2 : Reg) :
    Option (List Slot) := do
  let takenAddr := launchSiteAddr + BitVec.ofInt 64 cfi.offsetNBytes
  let fallThroughAddr := launchSiteAddr + 8
  let load1 ← genImmAddr fallThroughAddr freeReg1
  let load2 ← genImmAddr takenAddr freeReg2
  let move ← cfi2ConditionalMove cfi freeReg2 freeReg1
  let jump ← jumpReg freeReg1
  let emitted := (load1 ++ load2 ++ [move] ++ [jump]).map newSlot ++ [delaySlot delay]
  check (numBytes emitted ≤ conservativeNumInsnBytesForRAndR)
  pure emitted

end CondBranchNa2FreeBefore

/-! ## jmpl -/

namespace JmplLRAndR

def conservativeNumInsnBytesForRAndR : Nat := 6 * 4

/-- Copy a destination register to the next free one if it is also the link register. The
free registers that are left are returned. -/
def saveDest (linkReg destReg : Reg) (free : List Reg) : Option (List Word × List Reg) :=
  if linkReg = destReg then
    match free with
    | [] => none
    | newDest :: free => do
      let i ← mov destReg newDest
      pure ([i], free)
  else some ([], free)

/-- Put the launch address into the link register, unless that is `%g0`. -/
def setLink (launchSiteAddr : Kptr) (linkReg destReg1 destReg2 : Reg) (before : SparcRegSet) :
    Option (List Word) :=
  if linkReg = Reg.g0 then some []
  else do
    let (mov1, free) ← saveDest linkReg destReg1 (intRegsAfterG0 before)
    let (mov2, _) ← saveDest linkReg destReg2 free
    let load ← genImmAddr launchSiteAddr linkReg
    pure (mov1 ++ mov2 ++ load)

/-- `destReg2` is `%g0` if the address is a register and an offset. -/
def destReg2 : Operand → Reg
  | .reg rs2 => rs2
  | .simm13 _ => Reg.g0

/-- The jump to the original address, without a link register. It names the original
registers, not the copies. -/
def emitJump (rs1 : Reg) : Operand → Option Word
  | .simm13 imm => jumpImm rs1 imm
  | .reg rs2 => jumpRegReg rs1 rs2

/-- `jmpl_LRAndR::emitStuffAfterPreInsnSnippets` -/
def emit (launchSiteAddr : Kptr) (linkReg rs1 : Reg) (addr : Operand) (delay : Word)
    (before : SparcRegSet) : Option (List Slot) := do
  let link ← setLink launchSiteAddr linkReg rs1 (destReg2 addr) before
  let jump ← emitJump rs1 addr
  let emitted := (link ++ [jump]).map newSlot ++ [delaySlot delay]
  check (numBytes emitted ≤ conservativeNumInsnBytesForRAndR)
  pure emitted

end JmplLRAndR

/-! ## Layouts with one usual jump -/

/-- Emit a usual jump after what is emitted already. -/
def emitUsualJump (patchAddr : Kptr) (emitted : List Slot) (toAddr : Kptr) (avail : SparcRegSet)
    (leaveDsOpen : Bool) : Except JumpFailure (List Slot) := do
  let currInsnAddr := patchAddr + BitVec.ofNat 64 (numBytes emitted)
  let jump ← allocateAppropriate currInsnAddr toAddr avail leaveDsOpen
  let words ← asserted jump.generate
  pure (emitted ++ words.map newSlot)

/-- A jump and the delay-slot instruction, if there is one to run (`delay` is empty if not).
With no register available the instruction comes first, and the jump is closed. -/
def emitJumpAndDelay (patchAddr : Kptr) (emitted : List Slot) (toAddr : Kptr)
    (avail : SparcRegSet) (delay : List Slot) : Except JumpFailure (List Slot) :=
  if avail = .emptyset then emitUsualJump patchAddr (emitted ++ delay) toAddr .emptyset false
  else do
    let emitted ← emitUsualJump patchAddr emitted toAddr avail (!delay.isEmpty)
    pure (emitted ++ delay)

/-- What every layout ends with: the assertion that the code is not longer than announced. -/
def assertNumBytes (conservative : Nat) (emitted : List Slot) : Except JumpFailure (List Slot) := do
  asserted (check (numBytes emitted ≤ conservative))
  pure emitted

namespace CallLRAndR

def conservativeNumInsnBytesForRAndR : Nat := 4 * (2 + 4 + 1)

/-- `call_LRAndR::emitStuffAfterPreInsnSnippets`. The jump must not overwrite `%o7`. -/
def emit (patchAddr launchSiteAddr : Kptr) (offsetNBytes : Int) (delay : Word)
    (after : SparcRegSet) : Except JumpFailure (List Slot) := do
  let callDestination := launchSiteAddr + BitVec.ofInt 64 offsetNBytes
  let setO7 ← asserted (genImmAddr launchSiteAddr Reg.o7)
  let emitted ← emitJumpAndDelay patchAddr (setO7.map newSlot) callDestination
    (after - .ofInt Reg.o7) [delaySlot delay]
  assertNumBytes conservativeNumInsnBytesForRAndR emitted

end CallLRAndR

/-- The bound that `branchAlways_LRAndR` and `branchNever_LRAndR` announce. -/
def branchNumBytes (before : SparcRegSet) : Nat :=
  if before = .emptyset then 4 + UsualJump.maxNumInsnBytesNoFreeRegsNoOpenDS
  else max UsualJump.maxNumInsnBytes1FreeRegPlusDelayIfAny
    (UsualJump.maxNumInsnBytes1FreeReg false)

namespace BranchAlwaysLRAndR

def conservativeNumInsnBytesForRAndR : SparcRegSet → Nat := branchNumBytes

/-- `branchAlways_LRAndR::emitStuffAfterPreInsnSnippets` -/
def emit (patchAddr launchSiteAddr : Kptr) (cfi : Branch) (delay : Word) (before : SparcRegSet) :
    Except JumpFailure (List Slot) := do
  let destaddr := launchSiteAddr + BitVec.ofInt 64 cfi.offsetNBytes
  let emitted ← emitJumpAndDelay patchAddr [] destaddr before
    (if cfi.annul then [] else [delaySlot delay])
  assertNumBytes (conservativeNumInsnBytesForRAndR before) emitted

end BranchAlwaysLRAndR

namespace BranchNeverLRAndR

def conservativeNumInsnBytesForRAndR : SparcRegSet → Nat := branchNumBytes

/-- `branchNever_LRAndR::emitStuffAfterPreInsnSnippets`. The delay slot of a `bn` is executed
always, and that of a `bn,a` never. -/
def emit (patchAddr launchSiteAddr : Kptr) (cfi : Branch) (delay : Word) (before : SparcRegSet) :
    Except JumpFailure (List Slot) := do
  let emitted ← emitJumpAndDelay patchAddr [] (launchSiteAddr + 8) before
    (if cfi.annul then [] else [delaySlot delay])
  assertNumBytes (conservativeNumInsnBytesForRAndR before) emitted

end BranchNeverLRAndR

namespace NonDCTILRAndR

def conservativeNumInsnBytesForRAndR (after : SparcRegSet) : Nat :=
  4 + if 0 < after.countIntRegs then UsualJump.maxNumInsnBytes1FreeReg false
    else UsualJump.maxNumInsnBytesNoFreeRegsNoOpenDS

/-- `nonDCTI_LRAndR::emitStuffAfterPreInsnSnippets`. The instruction itself is what is marked
as to be executed once. -/
def emit (patchAddr launchSiteAddr : Kptr) (originsn : Word) (after : SparcRegSet) :
    Except JumpFailure (List Slot) := do
  let emitted ← emitUsualJump patchAddr [delaySlot originsn] (launchSiteAddr + 4) after false
  assertNumBytes (conservativeNumInsnBytesForRAndR after) emitted

end NonDCTILRAndR

/-! ## Tail calls -/

namespace Reg

/-- `%o0` to `%o5` -/
def output (n : Fin 6) : Reg := ⟨8 + n, by omega⟩

/-- `%i0` to `%i5` -/
def input (n : Fin 6) : Reg := ⟨24 + n, by omega⟩

end Reg

namespace SparcInstr

/-- `add rs1, rs2, rd` or `add rs1, constant, rd`, without condition codes. -/
def add (rs1 : Reg) (src : Operand) (rd : Reg) : Option Word :=
  match src with
  | .reg rs2 => set2RegStyle 2 rd 0 rs1 0 rs2
  | .simm13 constant => setSimm13Style 2 rd 0 rs1 constant

def ret : Option Word := jmplImm Reg.g0 Reg.i7 8

end SparcInstr

/-- The fields of `unwound_callRestore_LRAndR`. The second operand of the `restore` is a
register or a constant (`usingRs2`). -/
structure UnwoundCallRestore where
  callDestination : Kptr
  restoreRs1 : Reg
  restoreSrc : Operand
  restoreRd : Reg
  newRestoreRd : Reg

namespace UnwoundCallRestore

/-- Where the result of the `restore` is to go before the window changes. `%o6`, `%o7` and the
registers that belong to one window only are not supported. -/
def newRd (restoreRd : Reg) : Option Reg :=
  if restoreRd = Reg.g0 then some Reg.g0
  else if restoreRd.val < 8 then some restoreRd
  else if h : restoreRd.val < 14 then some ⟨restoreRd.val + 16, by omega⟩
  else none

/-- The constructor. -/
def create (launchSiteAddr : Kptr) (originsn restoreinsn : Word) : Option UnwoundCallRestore :=
  match decode originsn, decode restoreinsn with
  | .call offsetNBytes, .restore rd rs1 src => do
    let newRestoreRd ← newRd rd
    pure ⟨launchSiteAddr + BitVec.ofInt 64 offsetNBytes, rs1, src, rd, newRestoreRd⟩
  | _, _ => none

/-- `%o0` to `%o5` are offered to the snippets before the call, whatever the `restore` reads. -/
def intRegsForExecutingPreInsnSnippets (before : SparcRegSet) : SparcRegSet :=
  before ||| ⟨0x00003f00, 0, 0⟩

/-- The `%l`s, `%o0` to `%o5` and `%o7`. -/
def intRegsForExecutingPreReturnSnippets : SparcRegSet := ⟨0x00ffbf00, 0, 0⟩

/-- Six moves between the `%o` and the `%i` registers. -/
def moves (src dest : Fin 6 → Reg) : Option (List Word) :=
  (List.finRange 6).mapM fun n => mov (src n) (dest n)

/-- The effects of the `restore` other than that on the window. -/
def emitAdd (u : UnwoundCallRestore) : Option (List Word) :=
  if u.restoreRd = Reg.g0 then some []
  else do
    let i ← add u.restoreRs1 u.restoreSrc u.newRestoreRd
    pure [i]

def emitStuffAfterPreInsnSnippets (u : UnwoundCallRestore) (patchAddr : Kptr) :
    Option (List Word) := do
  let add ← u.emitAdd
  let movesToOutput ← moves Reg.input Reg.output
  let currInsnAddr := patchAddr + BitVec.ofNat 64 (4 * (add ++ movesToOutput).length)
  let call ← callandlink u.callDestination currInsnAddr
  let nop ← nop
  let movesToInput ← moves Reg.output Reg.input
  pure (add ++ movesToOutput ++ [call, nop] ++ movesToInput)

def emitStuffAfterPreReturnSnippets : Option (List Word) := do
  let ret ← ret
  let restore ← restore
  pure [ret, restore]

end UnwoundCallRestore

end Kerninst
