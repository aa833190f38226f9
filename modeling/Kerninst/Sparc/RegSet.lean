import Mathlib.Data.Fintype.Basic

/-!
# Sets of SPARC registers

`SparcRegSet` is the class `sparc_reg_set`: one bit for each of the 32 integer
registers, the 64 single-precision floating-point registers and the ten
miscellaneous ones. Integer registers are numbered as the processor does:
`%g0–%g7`, `%o0–%o7`, `%l0–%l7`, `%i0–%i7`.

A `save` instruction gives a new register window whose `%i` registers are the old
window's `%o` registers and whose `%l` and `%o` registers are fresh; a `restore`
goes back. `SparcRegSet.save` and `SparcRegSet.processRestore` move a set along;
`saveSource` and `restoreSource` say, register by register, where a bit comes
from, and are inverse to each other (`saveSource_eq_some_iff`).
-/

namespace Kerninst

open BitVec

/-- A register of the processor. -/
inductive SparcReg
  | int (n : Fin 32)
  | fp (n : Fin 64)
  | misc (n : Fin 10)
deriving DecidableEq

@[ext] structure SparcRegSet where
  theIntRegSet : BitVec 32
  theFloatRegSet : BitVec 64
  theMiscRegSet : BitVec 10
deriving DecidableEq

namespace SparcRegSet

def emptyset : SparcRegSet := ⟨0, 0, 0⟩

def fullset : SparcRegSet := ⟨BitVec.allOnes 32, BitVec.allOnes 64, BitVec.allOnes 10⟩

instance : OrOp SparcRegSet where
  or s t := ⟨s.theIntRegSet ||| t.theIntRegSet, s.theFloatRegSet ||| t.theFloatRegSet,
    s.theMiscRegSet ||| t.theMiscRegSet⟩

instance : AndOp SparcRegSet where
  and s t := ⟨s.theIntRegSet &&& t.theIntRegSet, s.theFloatRegSet &&& t.theFloatRegSet,
    s.theMiscRegSet &&& t.theMiscRegSet⟩

instance : Complement SparcRegSet where
  complement s := ⟨~~~s.theIntRegSet, ~~~s.theFloatRegSet, ~~~s.theMiscRegSet⟩

/-- Set removal, `operator-=`. -/
instance : Sub SparcRegSet where
  sub s t := ⟨s.theIntRegSet &&& ~~~t.theIntRegSet, s.theFloatRegSet &&& ~~~t.theFloatRegSet,
    s.theMiscRegSet &&& ~~~t.theMiscRegSet⟩

/-- The set of one integer register. -/
def ofInt (r : Fin 32) : SparcRegSet := ⟨1#32 <<< r.val, 0, 0⟩

def countIntRegs (s : SparcRegSet) : Nat :=
  ((List.finRange 32).filter fun r => s.theIntRegSet.getLsbD r).length

/-- `exists`: whether a register is in the set. -/
def mem (s : SparcRegSet) : SparcReg → Bool
  | .int n => s.theIntRegSet.getLsbD n
  | .fp n => s.theFloatRegSet.getLsbD n
  | .misc n => s.theMiscRegSet.getLsbD n

/-- Two sets with the same registers are equal. -/
theorem ext_mem {s t : SparcRegSet} (h : ∀ r, s.mem r = t.mem r) : s = t := by
  refine SparcRegSet.ext ?_ ?_ ?_
  · exact eq_of_getLsbD_eq fun i hi => h (.int ⟨i, hi⟩)
  · exact eq_of_getLsbD_eq fun i hi => h (.fp ⟨i, hi⟩)
  · exact eq_of_getLsbD_eq fun i hi => h (.misc ⟨i, hi⟩)

@[simp] theorem mem_emptyset (r : SparcReg) : emptyset.mem r = false := by
  cases r <;> simp [emptyset, mem]

@[simp] theorem mem_fullset (r : SparcReg) : fullset.mem r = true := by
  cases r with
  | int n | fp n | misc n => exact (getLsbD_allOnes).trans (by simp)

@[simp] theorem mem_or (s t : SparcRegSet) (r : SparcReg) :
    (s ||| t).mem r = (s.mem r || t.mem r) := by
  cases r <;> exact getLsbD_or

@[simp] theorem mem_and (s t : SparcRegSet) (r : SparcReg) :
    (s &&& t).mem r = (s.mem r && t.mem r) := by
  cases r <;> exact getLsbD_and

@[simp] theorem mem_complement (s : SparcRegSet) (r : SparcReg) : (~~~s).mem r = !s.mem r := by
  cases r with
  | int n | fp n | misc n => exact (getLsbD_not).trans (by simp [mem])

@[simp] theorem mem_sub (s t : SparcRegSet) (r : SparcReg) :
    (s - t).mem r = (s.mem r && !t.mem r) := by
  have hsub : s - t = s &&& ~~~t := rfl
  rw [hsub, mem_and, mem_complement]

/-! ## Register windows -/

/-- The save constructor: `%g`s are copied, `%i`s get the old `%o`s, and `%l`s and
`%o`s all get one value. -/
def save (src : SparcRegSet) (iValForLsAndOs : Bool) : SparcRegSet :=
  { src with
    theIntRegSet := (src.theIntRegSet &&& 0x000000ff#32) |||
      ((src.theIntRegSet &&& 0x0000ff00#32) <<< 16) |||
      (if iValForLsAndOs then 0x00ffff00#32 else 0#32) }

/-- `processRestore`: the `%l`s and `%i`s stay, `%g`s are copied from the previous
window and `%o`s get its `%i`s. -/
def processRestore (s prevWindow : SparcRegSet) : SparcRegSet where
  theIntRegSet := (s.theIntRegSet &&& 0xffff0000#32) |||
    (prevWindow.theIntRegSet &&& 0x000000ff#32) |||
    ((prevWindow.theIntRegSet &&& 0xff000000#32) >>> 16)
  theFloatRegSet := prevWindow.theFloatRegSet
  theMiscRegSet := prevWindow.theMiscRegSet

def equalIsAndLs (s src : SparcRegSet) : Bool :=
  ((s.theIntRegSet ^^^ src.theIntRegSet) &&& 0xffff0000#32) == 0#32

end SparcRegSet

/-- The register whose bit a save puts at a register, `none` for the `%l` and `%o`
registers. -/
def saveSource : SparcReg → Option SparcReg
  | .int n =>
    if n.val < 8 then some (.int n)
    else if h : 24 ≤ n.val then some (.int ⟨n.val - 16, by omega⟩)
    else none
  | r => some r

/-- The register of the previous window whose bit a restore puts at a register,
`none` for the `%l` and `%i` registers. -/
def restoreSource : SparcReg → Option SparcReg
  | .int n =>
    if n.val < 8 then some (.int n)
    else if h : n.val < 16 then some (.int ⟨n.val + 16, by omega⟩)
    else none
  | r => some r

/-- A restore undoes a save on the registers that both move. -/
theorem saveSource_eq_some_iff {r r' : SparcReg} :
    saveSource r = some r' ↔ restoreSource r' = some r := by
  cases r with
  | int n =>
    cases r' with
    | int m =>
      revert n m
      decide
    | fp m | misc m => simp only [saveSource, restoreSource]; split_ifs <;> simp
  | fp n | misc n =>
    cases r' with
    | int m => simp only [saveSource, restoreSource]; split_ifs <;> simp
    | fp m | misc m => simp [saveSource, restoreSource, eq_comm]

namespace SparcRegSet

/-! The masks of the window operations, bit by bit. -/

theorem getLsbD_maskG : ∀ n : Fin 32, (0x000000ff#32).getLsbD n = decide (n.val < 8) := by
  decide

theorem getLsbD_maskO : ∀ n : Fin 32,
    (0x0000ff00#32).getLsbD n = decide (8 ≤ n.val ∧ n.val < 16) := by
  decide

theorem getLsbD_maskI : ∀ n : Fin 32, (0xff000000#32).getLsbD n = decide (24 ≤ n.val) := by
  decide

theorem getLsbD_maskIL : ∀ n : Fin 32, (0xffff0000#32).getLsbD n = decide (16 ≤ n.val) := by
  decide

theorem mem_save (s : SparcRegSet) (r : SparcReg) : (s.save false).mem r = match saveSource r with
      | some r' => s.mem r'
      | none => false := by
  cases r with
  | int n =>
    simp only [save, mem, Bool.false_eq_true, if_false, getLsbD_or, getLsbD_and,
      getLsbD_shiftLeft, getLsbD_zero, Bool.or_false, getLsbD_maskG, saveSource]
    split_ifs with h8 h24
    · have h16 : n.val < 16 := by omega
      simp [h8, h16]
    · have hmask := getLsbD_maskO ⟨n.val - 16, by omega⟩
      rw [hmask]
      have h16 : ¬n.val < 16 := by omega
      have hlo : 8 ≤ n.val - 16 := by omega
      have hhi : n.val - 16 < 16 := by omega
      simp [h8, h16, hlo, hhi]
    · by_cases h16 : n.val < 16
      · simp [h8, h16]
      · have hmask := getLsbD_maskO ⟨n.val - 16, by omega⟩
        rw [hmask]
        have hlo : ¬8 ≤ n.val - 16 := by omega
        simp [h8, hlo]
  | fp n | misc n => rfl

theorem mem_processRestore (s prev : SparcRegSet) (r : SparcReg) :
    (s.processRestore prev).mem r = match restoreSource r with
      | some r' => prev.mem r'
      | none => s.mem r := by
  cases r with
  | int n =>
    simp only [processRestore, mem, getLsbD_or, getLsbD_and,
      getLsbD_ushiftRight, getLsbD_maskG, getLsbD_maskIL, restoreSource]
    split_ifs with h8 h16
    · have hmask := getLsbD_maskI ⟨16 + n.val, by omega⟩
      rw [hmask]
      have hil : ¬16 ≤ n.val := by omega
      have hi : ¬24 ≤ 16 + n.val := by omega
      simp [h8, hil, hi]
    · have hmask := getLsbD_maskI ⟨16 + n.val, by omega⟩
      rw [hmask]
      have hil : ¬16 ≤ n.val := by omega
      have h8' : 8 ≤ n.val := by omega
      simp [hil, h8', Nat.add_comm]
    · have hil : 16 ≤ n.val := by omega
      have hout : prev.theIntRegSet.getLsbD (16 + n.val) = false :=
        getLsbD_of_ge _ _ (by omega)
      simp [h8, hil, hout]
  | fp n | misc n => rfl

/-- `equalIsAndLs` compares the registers that a restore leaves in place. -/
theorem equalIsAndLs_iff {s t : SparcRegSet} :
    s.equalIsAndLs t = true ↔ ∀ r, restoreSource r = none → s.mem r = t.mem r := by
  have hbit : ∀ n : Fin 32, ((s.theIntRegSet ^^^ t.theIntRegSet) &&& 0xffff0000#32).getLsbD n =
      (xor (s.mem (.int n)) (t.mem (.int n)) && decide (16 ≤ n.val)) := by
    intro n
    simp only [mem, getLsbD_and, getLsbD_xor, getLsbD_maskIL]
  have hnone : ∀ n : Fin 32, restoreSource (.int n) = none ↔ 16 ≤ n.val := by decide
  unfold equalIsAndLs
  rw [beq_iff_eq]
  constructor
  · intro h r hr
    cases r with
    | int n =>
      have hn := hbit n
      rw [h] at hn
      simpa [(hnone n).mp hr] using hn.symm
    | fp n | misc n => simp [restoreSource] at hr
  · intro h
    refine eq_of_getLsbD_eq fun i hi => ?_
    refine (hbit ⟨i, hi⟩).trans ?_
    by_cases h16 : 16 ≤ i
    · simp [h (.int ⟨i, hi⟩) ((hnone ⟨i, hi⟩).mpr h16)]
    · simp [h16]

end SparcRegSet

end Kerninst
