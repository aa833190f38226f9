import Kerninst.CodeObject.KeptMeaning

/-!
# Conditional branches within a function

Modelled from `codeObject/src/condBranchCodeObject.C`: what is emitted for a conditional branch
whose taken block is in range. In the normal layout that is the branch, its delay-slot
instruction, and a way to the fall-through code. If the taken block comes next, the branch is
reversed and goes to the fall-through block, and a delay-slot instruction that was run only if
taken is moved behind the branch.

Both layouts build the new branch in a local variable and emit its address. The variable is gone
when the labels are resolved, so there is no code that keeps the meaning of the branch, whatever
the branch and the placement (`not_keepsMeaning_emitWithInRangeTakenAddress`).
-/

namespace Kerninst.CodeObject

open List Option

universe u

/-! ## The source -/

/-- `condBranchCodeObject`. The instruction is a branch that is truly conditional, and `cfi` is
what it was decoded to. -/
structure CondBranchCodeObject where
  iftakenBlockId : Nat
  insn : Word
  cfi : Branch
  availRegsAfter : SparcRegSet
  decode_insn : decode insn = .branch cfi
  truly : trulyConditional cfi = true

namespace CondBranchCodeObject

variable (o : CondBranchCodeObject)

/-- The branch with the opposite condition, not annulled and not predicted. -/
def reversedInsn : Option Word := do
  let w ← reverseBranchPolarity o.insn o.cfi
  let w ← changeBranchOffsetAndAnnulBit w 0 false
  pure (changeBranchPredictBitIfApplicable w o.cfi false)

/-- After a reversed branch: an instruction that was run only if taken must not be in its delay
slot. The `nop` that takes its place is deleted as soon as it is emitted. -/
def afterReversed (dsInsn nop : Word) : List Emission :=
  if o.cfi.annul then .dangling (.insn nop) :: if isNop dsInsn then [] else [.delayInsn dsInsn]
  else [.delayInsn dsInsn]

/-- The taken block comes next, and it is not the one to fall into. -/
def Reverses (s : Site) : Prop :=
  s.next = some (some o.iftakenBlockId) ∧ s.fallThruBlockId ≠ some o.iftakenBlockId ∧
    s.fallThruBlockId ≠ none

instance (s : Site) : Decidable (o.Reverses s) :=
  inferInstanceAs (Decidable (_ ∧ _ ∧ _))

/-- `newInsn` is a local variable in both layouts, and what is emitted is its address. -/
def emitWithInRangeTakenAddress (s : Site) (dsInsn : Word) : Option (List Emission) := do
  let _ ← s.next
  if o.Reverses s then
    let newInsn ← o.reversedInsn
    let id ← s.fallThruBlockId
    let nop ← SparcInstr.nop
    pure (.dangling (.branchToLabel newInsn (getBlockLabel id)) :: o.afterReversed dsInsn nop)
  else
    let newInsn ← changeBranchOffset o.insn 0
    let fallee ← s.emitGettingToFallee o.availRegsAfter
    pure (.dangling (.branchToLabel newInsn (getBlockLabel o.iftakenBlockId)) ::
      .delayInsn dsInsn :: fallee)

end CondBranchCodeObject

/-! ## The resolved code -/

section Resolved

variable {o : CondBranchCodeObject} {s : Site} {delay : Word} {es : List Emission}

/-- Both layouts emit a branch that will be gone. -/
theorem dangling_of_emitted (h : o.emitWithInRangeTakenAddress s delay = some es) :
    ∃ e, .dangling e ∈ es := by
  simp only [CondBranchCodeObject.emitWithInRangeTakenAddress, do_eq_some] at h
  obtain ⟨next, -, h⟩ := h
  split at h
  · simp only [do_eq_some] at h
    obtain ⟨newInsn, -, id, -, nop, -, rfl⟩ := h
    exact ⟨_, mem_cons_self ..⟩
  · simp only [do_eq_some] at h
    obtain ⟨newInsn, -, fallee, -, rfl⟩ := h
    exact ⟨_, mem_cons_self ..⟩

end Resolved

/-- **A conditional branch within a function** is never emitted so that its meaning is kept: in
neither layout is there a word for the branch when the labels are resolved. This is so for every
branch, every placement that is possible for some delay-slot instruction, and wherever the two
destinations are. -/
theorem not_keepsMeaning_emitWithInRangeTakenAddress {ρ : Type u} (sem : Sem ρ)
    (o : CondBranchCodeObject) (s : Site) (a : Addrs) (p : Kptr) (outside : List Kptr)
    (taken fall : Kptr) (F G : Set Reg)
    (hplaced : ∃ delay, (decode delay).isPlain ∧ ∀ es,
      o.emitWithInRangeTakenAddress s delay = some es → Placed p s a outside es) :
    ¬ KeepsMeaning sem p o.cfi s a outside (o.emitWithInRangeTakenAddress s) taken fall F G := by
  obtain ⟨delay, hplain, hes⟩ := hplaced
  exact not_keepsMeaning_of_dangling hplain hes fun es => dangling_of_emitted

/-- Block 1 right after the branch, and everything else at 0x2000. -/
def nextAddrs : Addrs :=
  ⟨fun l => if l = getBlockLabel 1 then 0x1008 else 0x2000, fun _ => 0x2000⟩

/-- `bne`, to block 1. -/
def bneObject : CondBranchCodeObject where
  iftakenBlockId := 1
  insn := 0x12800004
  cfi := ⟨.bicc, 9, false, 16⟩
  availRegsAfter := .emptyset
  decode_insn := by decide
  truly := by decide

/-- Block 0, which falls into block 2. -/
def bneSite : Site := ⟨threeBlocks, fun _ => none, 0, some 2, none⟩

/-- As block 1 comes next, the branch is reversed, and goes to block 2. -/
theorem bne_placed (es : List Emission)
    (hes : bneObject.emitWithInRangeTakenAddress bneSite 0x01000000 = some es) :
    Placed 0x1000 bneSite nextAddrs [0x2000, 0] es := by
  have hrev : bneObject.Reverses bneSite := by decide
  have hnext : bneSite.next = some (some 1) := by decide
  simp only [CondBranchCodeObject.emitWithInRangeTakenAddress, hnext, if_pos hrev,
    do_eq_some] at hes
  obtain ⟨-, -, i, -, id, -, nop, -, rfl⟩ := hes
  have hapart : ∀ x ∈ [0x2000, (0 : Kptr)], 4 * 2 ≤ (x - 0x1000).toNat :=
    forall_mem_cons.mpr ⟨by decide, forall_mem_singleton.mpr (by decide)⟩
  refine ⟨⟨by simp, by simp, trivial⟩, fun id hid => ?_, hapart⟩
  obtain rfl := some.inj (mem_unique hnext hid)
  rfl

/-- The reversed `bne`, which trips no assertion and is in range of everything, has no code. -/
theorem not_keepsMeaning_bne :
    (bneObject.emitWithInRangeTakenAddress bneSite 0x01000000).isSome ∧
    ¬ KeepsMeaning idleSem 0x1000 bneObject.cfi bneSite nextAddrs [0x2000, 0]
      (bneObject.emitWithInRangeTakenAddress bneSite) 0x1008 0x2000 ∅ (intRegs .emptyset) :=
  ⟨by decide +kernel,
    not_keepsMeaning_of_dangling decode_nop_plain bne_placed fun es => dangling_of_emitted⟩

/-- The same with any register free to change. -/
theorem not_keepsMeaning_bne_freely :
    ¬ KeepsMeaning idleSem 0x1000 bneObject.cfi bneSite nextAddrs [0x2000, 0]
      (bneObject.emitWithInRangeTakenAddress bneSite) 0x1008 0x2000 Set.univ Set.univ :=
  not_keepsMeaning_emitWithInRangeTakenAddress idleSem bneObject bneSite nextAddrs 0x1000
    [0x2000, 0] 0x1008 0x2000 Set.univ Set.univ
    ⟨0x01000000, decode_nop_plain, bne_placed⟩

end Kerninst.CodeObject
