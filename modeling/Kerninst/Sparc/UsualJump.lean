import Kerninst.Sparc.Generate
import Kerninst.Sparc.RegSet

/-!
# usualJump: a jump between any two addresses

`usualJump::allocate_appropriate` picks the cheapest way to jump from one address to
another, given the registers that may be overwritten and whether the last delay slot is
to be left open for the caller's instruction:

* `ba` or `ba,a` within ±8 MB;
* `call` within ±2 GB, when `%o7` is available;
* otherwise a call or an indirect jump that saves what it overwrites, in a free register
  or, with no register free, in a new register window.

The jump is an object that knows its size before its code is generated: code that branches
around a jump needs the size first.
-/

namespace Kerninst

open SparcInstr

universe u

/-! ## The source -/

/-- The subclasses of `usualJump`. The three far jumps differ only in the instructions
they keep. -/
inductive UsualJump
  | baA (fromAddr toAddr : Kptr)
  | ba (fromAddr toAddr : Kptr)
  | callNop (fromAddr toAddr : Kptr)
  | call (fromAddr toAddr : Kptr)
  | moveCallMove (fromAddr toAddr : Kptr) (freeReg : Reg)
  | saveCallRestore (fromAddr toAddr : Kptr)
  | farJump (fromAddr toAddr : Kptr) (iv : List Word)
deriving DecidableEq

/-- How allocating a jump ends if not with one. -/
inductive JumpFailure
  | assertion
  | notEnoughRegForUsualJump
deriving DecidableEq

/-- The minimal aligned frame of the 64-bit ABI. -/
def minFrameAlignedNumBytes : Int := 176

namespace UsualJump

def genaddrJmpNop (fromAddr toAddr : Kptr) (freeReg : Reg) : Option UsualJump := do
  let iv ← genJumpAndLink toAddr freeReg
  let nop ← nop
  pure (.farJump fromAddr toAddr (iv ++ [nop]))

def genaddrJmp (fromAddr toAddr : Kptr) (freeReg : Reg) : Option UsualJump := do
  let iv ← genJumpAndLink toAddr freeReg
  pure (.farJump fromAddr toAddr iv)

/-- The frame size is a dummy, which `generate` replaces. -/
def saveGenaddrJmpRestore (fromAddr toAddr : Kptr) : Option UsualJump := do
  let save ← save (-0x60)
  let iv ← genJumpAndLink toAddr Reg.l0
  let restore ← restore
  pure (.farJump fromAddr toAddr ([save] ++ iv ++ [restore]))

def numInsnBytes : UsualJump → Nat
  | baA .. => 4
  | ba .. => 4
  | callNop .. => 8
  | call .. => 4
  | moveCallMove .. => 12
  | saveCallRestore .. => 12
  | farJump _ _ iv => iv.length * 4

def maxNumInsnBytesNoFreeRegsNoOpenDS : Nat := 24

def maxNumInsnBytes1FreeReg (leaveDsOpen : Bool) : Nat := if leaveDsOpen then 16 else 16 + 4

/-- The source ignores its argument, whether the delay slot is left open. -/
def maxNumInsnBytes1FreeRegPlusDelayIfAny : Nat := 16 + 4

/-- The displacement of `ba`: a difference of two `long`s. -/
def baDisplacement (fromAddr toAddr : Kptr) : Int :=
  (toAddr.setWidth 32 - fromAddr.setWidth 32).toInt

/-- `iccAlways` -/
def always : Nat := 8

/-- The words that `generate` emits. -/
def generate : UsualJump → Option (List Word)
  | baA fromAddr toAddr => do
    let i ← bicc always true (baDisplacement fromAddr toAddr)
    pure [i]
  | ba fromAddr toAddr => do
    let i ← bicc always false (baDisplacement fromAddr toAddr)
    pure [i]
  | callNop fromAddr toAddr => do
    let i ← callandlink toAddr fromAddr
    let nop ← nop
    pure [i, nop]
  | call fromAddr toAddr => do
    let i ← callandlink toAddr fromAddr
    pure [i]
  | moveCallMove fromAddr toAddr freeReg => do
    let i₁ ← mov Reg.o7 freeReg
    let i₂ ← callandlink toAddr (fromAddr + 4)
    let i₃ ← mov freeReg Reg.o7
    pure [i₁, i₂, i₃]
  | saveCallRestore fromAddr toAddr => do
    let i₁ ← save (-minFrameAlignedNumBytes)
    let i₂ ← callandlink toAddr (fromAddr + 4)
    let i₃ ← restore
    pure [i₁, i₂, i₃]
  | farJump _ _ iv =>
    iv.mapM fun w => if isSave w then save (-minFrameAlignedNumBytes) else some w

/-- An assertion that stops the allocation. -/
def asserted {α : Type} : Option α → Except JumpFailure α
  | some a => .ok a
  | none => .error .assertion

/-- `begin_intregs_afterG0`, `none` where the iterator is at the end. -/
def beginIntregsAfterG0 (s : SparcRegSet) : Option Reg :=
  (List.finRange 32).find? fun r => r ≠ Reg.g0 ∧ s.mem (.int r)

/-- The options that hope for an available scratch register. -/
def allocateScratch (fromAddr toAddr : Kptr) (availRegs : SparcRegSet)
    (leaveDelaySlotOpen : Bool) : Except JumpFailure UsualJump :=
  match beginIntregsAfterG0 availRegs with
  | none =>
    (asserted (inRangeOfCall fromAddr toAddr)).bind fun inCall =>
    if inCall && !leaveDelaySlotOpen then .ok (.saveCallRestore fromAddr toAddr)
    else if !leaveDelaySlotOpen then asserted (saveGenaddrJmpRestore fromAddr toAddr)
    else .error .notEnoughRegForUsualJump
  | some freeReg =>
    if leaveDelaySlotOpen then asserted (genaddrJmp fromAddr toAddr freeReg)
    else
    (asserted (inRangeOfCall fromAddr toAddr)).bind fun inCall =>
    if !inCall then asserted (genaddrJmpNop fromAddr toAddr freeReg)
    else .ok (.moveCallMove fromAddr toAddr freeReg)

def allocateAppropriate (fromAddr toAddr : Kptr) (availRegs : SparcRegSet)
    (leaveDelaySlotOpen : Bool) : Except JumpFailure UsualJump :=
  (asserted (inRangeOfBicc fromAddr toAddr)).bind fun near =>
  if near then
    .ok (if leaveDelaySlotOpen then .ba fromAddr toAddr else .baA fromAddr toAddr)
  else
  (asserted (if availRegs.mem (.int Reg.o7) then inRangeOfCall fromAddr toAddr
    else some false)).bind fun viaO7 =>
  if viaO7 then
    .ok (if leaveDelaySlotOpen then .call fromAddr toAddr else .callNop fromAddr toAddr)
  else allocateScratch fromAddr toAddr availRegs leaveDelaySlotOpen

end UsualJump

end Kerninst
