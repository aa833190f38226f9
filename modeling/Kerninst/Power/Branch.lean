import Kerninst.Power.LoadImm
import Kerninst.Sparc.Generate

/-!
# Relocating branches on Power

`b` and `bc`, their relocation by `getInformation`, and the two layouts that launch,
relocate and return for them.

Whether a branch can be moved is decided from the distance moved. For `bc` this distance may have
18 bits, though the displacement has 16.
-/

namespace Kerninst.Power

/-! ## Branches -/

/-- The bits of `bo`, from the highest: the condition bit `bi` does not matter; the value of it
that is wanted; the count register does not matter, and is not decremented; it is wanted to be
zero; a hint. -/
structure Branch where
  bo : Nat
  bi : Nat
  disp : Int
  aa : Bool
  lk : Bool
deriving DecidableEq

/-- The `BO` field that says to branch always. -/
def boAlways : Nat := 20

namespace PowerInstr

/-- The primary opcode. -/
def opcd (w : Word) : Nat := field w 26 6

/-- The target is an absolute address. -/
def aa (w : Word) : Bool := bitField w 1

/-- The branch links. -/
def lk (w : Word) : Bool := bitField w 0

/-- When to branch. -/
def getBOField (w : Word) : Nat := field w 21 5

/-- The bit of the condition register to test. -/
def getBIField (w : Word) : Nat := field w 16 5

/-- The displacement of `b`. -/
def getLi24 (w : Word) : Int := 4 * signedField w 2 24

/-- The displacement of `bc`. -/
def getBd14 (w : Word) : Int := 4 * signedField w 2 14

end PowerInstr

open PowerInstr

/-- A `b` is read as a `bc` whose `BO` field says to branch always. -/
def decodeBranch (w : Word) : Option Branch :=
  match opcd w with
  | 16 => some ⟨getBOField w, getBIField w, getBd14 w, aa w, lk w⟩
  | 18 => some ⟨boAlways, 0, getLi24 w, aa w, lk w⟩
  | _ => none

/-! ## Execution -/

/-- The registers that a branch uses. -/
structure Cpu where
  pc : Kptr
  lr : Kptr
  ctr : BitVec 64
  cr : BitVec 32

namespace Branch

/-- Where the branch at `pc` goes when it is taken. -/
def target (b : Branch) (pc : Kptr) : Kptr :=
  if b.aa then BitVec.ofInt 64 b.disp else pc + BitVec.ofInt 64 b.disp

/-- The count register is decremented unless `BO` says not to. -/
def ctrAfter (b : Branch) (ctr : BitVec 64) : BitVec 64 :=
  if b.bo.testBit 2 then ctr else ctr - 1

/-- Both the count register and the condition bit are as `BO` wants them. -/
def taken (b : Branch) (s : Cpu) : Bool :=
  (b.bo.testBit 2 || (decide (b.ctrAfter s.ctr ≠ 0) != b.bo.testBit 1)) &&
  (b.bo.testBit 4 || (s.cr.getMsbD b.bi == b.bo.testBit 3))

/-- A branch that links does so whether or not it is taken. -/
def exec (b : Branch) (s : Cpu) : Cpu where
  pc := if b.taken s then b.target s.pc else s.pc + 4
  lr := if b.lk then s.pc + 4 else s.lr
  ctr := b.ctrAfter s.ctr
  cr := s.cr

end Branch

/-- The words at addresses. -/
abbrev Code := Kptr → Option Word

/-- Code that consists of one block. -/
def codeAt (base : Kptr) (ws : List Word) : Code := fun a =>
  if (a - base).toNat % 4 = 0 then ws[(a - base).toNat / 4]? else none

/-- One branch. -/
def step (code : Code) (s : Cpu) : Option Cpu := do
  let w ← code s.pc
  let b ← decodeBranch w
  pure (b.exec s)

/-- `s'` comes after `s`, or is `s`. -/
def Reaches (code : Code) : Cpu → Cpu → Prop :=
  Relation.ReflTransGen fun s s' => step code s = some s'

/-- `s'` comes after `s`. -/
def Follows (code : Code) : Cpu → Cpu → Prop :=
  Relation.TransGen fun s s' => step code s = some s'

/-! ## Building -/

/-- A `kaddrdiff_t` that is passed as a `signed`. -/
def toSigned (d : Kptr) : Int := (d.setWidth 32).toInt

namespace PowerInstr

/-- The fields of `b`. -/
def setIform (opcd : Nat) (li : Nat × Nat) (aa lk : Bool) : Option Word :=
  rollAll [(6, opcd), li, flag aa, flag lk]

/-- The fields of `bc`. -/
def setBform (opcd bo bi : Nat) (bd : Nat × Nat) (aa lk : Bool) : Option Word :=
  rollAll [(6, opcd), (5, bo), (5, bi), bd, flag aa, flag lk]

/-- `power_instr(branch, disp, aa, lk)` -/
def branch (disp : Int) (aa lk : Bool) : Option Word := do
  let li ← simm 24 (disp.tdiv 4)
  setIform 18 li aa lk

/-- `power_instr(branchcond, bo, bi, disp, aa, lk)` -/
def branchcond (bo bi : Nat) (disp : Int) (aa lk : Bool) : Option Word := do
  let bd ← simm 14 (disp.tdiv 4)
  setBform 16 bo bi bd aa lk

/-- `inRangeOf` is the same in `power_instr` as in `instr_t`. -/
def inRangeOfBranch (fromaddr toaddr : Kptr) : Option Bool := inRangeOf fromaddr toaddr 26

/-- Two bits more than the displacement of `bc` has. -/
def inRangeOfBranchCond (fromaddr toaddr : Kptr) : Option Bool := inRangeOf fromaddr toaddr 18

/-- The addresses that `b` reaches. -/
def getRangeOfBranch (fromaddr : Kptr) : Option (Kptr × Kptr) := getRangeOf fromaddr 26

/-- Not the range that `inRangeOfBranchCond` asks for. -/
def getRangeOfBranchCond (fromaddr : Kptr) : Option (Kptr × Kptr) := getRangeOf fromaddr 16

/-- The displacement is the one from the destination to the call. -/
def genCallAndLink (fromaddr toaddr : Kptr) : Option Word := do
  check (inRangeOfBranch fromaddr toaddr = some true)
  branch (toSigned (fromaddr - toaddr)) false true

/-! ## Control flow and relocation -/

/-- `power_cfi`, for `b` and `bc`. -/
structure PowerCfi where
  isAlways : Bool
  pcRelative : Bool
  link : Bool
  offsetNBytes : Int

/-- The four highest bits of `BO`, as `getInformation_condbranch` reads them. The other values
all stand for a condition. -/
def boIsAlways (w : Word) : Bool :=
  match field w 22 4 with
  | 10 | 11 | 14 | 15 => true
  | _ => false

/-- What the class to relocate with is chosen by. -/
def getControlFlowInfo (w : Word) : Option PowerCfi :=
  match opcd w with
  | 16 => some ⟨boIsAlways w, !aa w, lk w, getBd14 w⟩
  | 18 => some ⟨true, !aa w, lk w, getLi24 w⟩
  | _ => none

/-- Whether there was success, and the relocated branch. -/
structure RelocateInfo where
  success : Bool
  result : Word

/-- An absolute branch stays as it is. A relative one is rebuilt if the distance moved is in
range. -/
def relocateInfo (w : Word) (inRange : Option Bool) (moved : Option Word) : Option RelocateInfo :=
  if aa w then some ⟨true, w⟩
  else do
    match ← inRange with
    | true => moved.map (RelocateInfo.mk true)
    | false => pure ⟨false, w⟩

/-- From the new address to the old target, as a `signed`. -/
def newDisplacement (old new : Kptr) (offset : Int) : Int :=
  toSigned (old + BitVec.ofInt 64 offset - new)

/-- `getInformation` for `b`. -/
def getInformationIform (w : Word) (old new : Kptr) : Option RelocateInfo :=
  relocateInfo w (inRangeOfBranch old new)
    (branch (newDisplacement old new (getLi24 w)) (aa w) (lk w))

/-- `getInformation` for `bc`. -/
def getInformationBform (w : Word) (old new : Kptr) : Option RelocateInfo :=
  relocateInfo w (inRangeOfBranchCond old new)
    (branchcond (getBOField w) (getBIField w) (newDisplacement old new (getBd14 w)) (aa w) (lk w))

/-- The relocation of `b` and `bc` by `getInformation`. -/
def tryRelocation (w : Word) (old new : Kptr) : Option RelocateInfo :=
  match opcd w with
  | 16 => getInformationBform w old new
  | 18 => getInformationIform w old new
  | _ => none

end PowerInstr

/-! ## The layouts -/

/-- The jump at `curr` to the instruction after the launch site. -/
def jumpBack (launch curr : Kptr) : Option Word := do
  check (inRangeOfBranch curr (launch + 4) = some true)
  branch (toSigned (launch + 4 - curr)) false false

/-- The link register, if it is set, holds the address of this jump. -/
def linkedJumpBack (cfi : PowerCfi) (launch curr : Kptr) : Option (List Word) :=
  if cfi.link then (jumpBack launch curr).map ([·]) else some []

/-- The relocated branch, or what is put in its place after it has been double checked that it
is out of range. -/
def relocatedOr (rel : RelocateInfo) (cfi : PowerCfi) (launch curr : Kptr)
    (replacement : Option Word) : Option Word :=
  if rel.success then some rel.result
  else do
    check (inRangeOfBranchCond launch curr = some false)
    check (cfi.pcRelative = true)
    check (inRangeOfBranch launch curr = some true)
    replacement

/-- The jump at `curr` to the original target. -/
def jumpToTarget (cfi : PowerCfi) (launch curr : Kptr) : Option Word :=
  branch (newDisplacement launch curr cfi.offsetNBytes) false cfi.link

namespace CondBranchLRAndR

/-- Room for the branch and three jumps. -/
def conservativeNumInsnBytesForRAndR : Nat := 4 * (1 + 1 + 1 + 1)

/-- Only a branch that could not be moved needs a jump of its own to its target. -/
def takenJump (rel : RelocateInfo) (cfi : PowerCfi) (launch curr : Kptr) : Option (List Word) :=
  if rel.success then some [] else (jumpToTarget cfi launch curr).map ([·])

/-- `emitStuffAfterPreInsnSnippets`, when the next instruction comes to `curr`. -/
def emit (originsn : Word) (launch curr : Kptr) : Option (List Word) := do
  let cfi ← getControlFlowInfo originsn
  let rel ← tryRelocation originsn launch curr
  let first ← relocatedOr rel cfi launch curr
    (branchcond (getBOField originsn) (getBIField originsn) 8 false false)
  let notTaken ← jumpBack launch (curr + 4)
  let taken ← takenJump rel cfi launch (curr + 8)
  let back ← linkedJumpBack cfi launch (curr + 8 + BitVec.ofNat 64 (4 * taken.length))
  let insns := first :: notTaken :: (taken ++ back)
  check (4 * insns.length ≤ conservativeNumInsnBytesForRAndR)
  pure insns

end CondBranchLRAndR

namespace BranchAlwaysLRAndR

/-- Room for the branch and a jump. -/
def conservativeNumInsnBytesForRAndR : Nat := 8

/-- `emitStuffAfterPreInsnSnippets`, when the next instruction comes to `curr`. -/
def emit (originsn : Word) (launch curr : Kptr) : Option (List Word) := do
  let cfi ← getControlFlowInfo originsn
  let rel ← tryRelocation originsn launch curr
  let first ← relocatedOr rel cfi launch curr (jumpToTarget cfi launch curr)
  let back ← linkedJumpBack cfi launch (curr + 4)
  let insns := first :: back
  check (4 * insns.length ≤ conservativeNumInsnBytesForRAndR)
  pure insns

end BranchAlwaysLRAndR

/-- What the class chosen by `create_LRAndR` emits. -/
def emitBranch (originsn : Word) (launch curr : Kptr) : Option (List Word) := do
  let cfi ← getControlFlowInfo originsn
  if cfi.isAlways then BranchAlwaysLRAndR.emit originsn launch curr
  else CondBranchLRAndR.emit originsn launch curr

end Kerninst.Power
