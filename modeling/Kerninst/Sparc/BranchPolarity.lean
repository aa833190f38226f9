import Kerninst.Sparc.BranchOffset
import Kerninst.Sparc.CondBranch

/-!
# Changing a branch for another layout

When blocks are put in another order, a branch may have to go to the block it used to fall into.
`reverseBranchPolarity` replaces its condition by the opposite one, by way of tables of condition
codes, and `changeBranchPredictBitIfApplicable` sets the predict bit, where there is one.

`changeBranchOffset` and these two work on words. For the machine, which does not take reserved
encodings for branches, the result of the first is the branch with another displacement
(`changeBranchOffset_spec`).
-/

namespace Kerninst

open BranchKind Branch

universe u

/-! ## Branches for the machine -/

variable {w : Word}

theorem decode_eq_format2 (hop : field w 30 2 = 0) : decode w = decodeFormat2 w := by
  simp [decode, hop]

variable {b : Branch}

theorem op_of_decode_branch (h : decode w = .branch b) : field w 30 2 = 0 := by
  rw [decode] at h
  split at h
  case h_1 hop => exact hop
  case h_2 => cases h
  case h_3 => exact absurd h (decodeFormat3_ne_branch w b)
  case h_4 => cases h

/-- A branch that is not a reserved encoding. -/
def Branch.Proper (w : Word) (b : Branch) : Prop :=
  match b.kind with
  | .bpcc .. => bitField w 20 = false
  | .bpr .. => b.condition % 4 ≠ 0
  | _ => True

/-- What the machine takes for a branch, `getControlFlowInfo` does too, which reads the reserved
encodings as well. -/
theorem decode_branch_iff : decode w = .branch b ↔ Spelled w b ∧ b.Proper w := by
  constructor
  · intro h
    have hop := op_of_decode_branch h
    have hvalid := (decode_branch_valid h).condition
    rw [decode_eq_format2 hop, decodeFormat2] at h
    split at h
    all_goals try split at h
    all_goals cases h
    all_goals refine ⟨⟨hop, ‹_›, rfl, ?_⟩, ?_⟩
    all_goals simp_all [Fields, Proper]
  · rintro ⟨⟨hop, hop2, hannul, hfields⟩, hproper⟩
    obtain ⟨kind, cond, annul, offset⟩ := b
    rw [decode_eq_format2 hop]
    cases kind <;> simp only [op2] at hop2 <;>
      simp only [Fields] at hfields <;>
      simp only [decodeFormat2, hop2, hannul, hfields]
    case bpcc predict xcc =>
      have hreserved : bitField w 20 = false := hproper
      simp [hreserved]
    case bpr predict rs1 =>
      have hreserved : field w 25 2 ≠ 0 := by
        rw [field_mod w 25 (by decide : 2 ≤ 3), hfields.1]
        exact hproper
      simp [hreserved]

theorem pcRelative_of_decode (h : decode w = .branch b) : pcRelative w = some (.branch b) :=
  pcRelative_iff_spelled.mpr (decode_branch_iff.mp h).1

/-- An updated branch is one for the machine, too. -/
theorem UpdatedTo.decode {w w' : Word} {d : Int} {annul : Bool}
    (hup : UpdatedTo w b d annul w') (h : decode w = .branch b) :
    decode w' = .branch { b with annul := annul, offsetNBytes := d } := by
  have hproper := (decode_branch_iff.mp h).2
  refine decode_branch_iff.mpr ⟨pcRelative_iff_spelled.mp hup.reads, ?_⟩
  obtain ⟨kind, cond, annul, offset⟩ := b
  cases kind with
  | bpcc predict xcc => exact (hup.others 20 (by decide) rfl).trans hproper
  | _ => exact hproper

/-- **A branch with another displacement.** -/
theorem changeBranchOffset_spec {d : Int} (h : decode w = .branch b)
    (henc : Encodable b.kind.dispBits d) (hfloat : b.kind.isFloat = true → b.annul = true) :
    ∃ w', changeBranchOffset w d = some w' ∧ decode w' = .branch { b with offsetNBytes := d } := by
  have hpc := pcRelative_of_decode h
  obtain ⟨w', hw', hup⟩ := changed_of_encodable hpc henc hfloat
  exact ⟨w', by simp [changeBranchOffset, hpc, hw'], hup.decode h⟩

theorem changeBranchOffset_fits {w w' : Word} {d : Int} (h : decode w = .branch b)
    (hw' : changeBranchOffset w d = some w') :
    Encodable b.kind.dispBits d ∧ (b.kind.isFloat = true → b.annul = true) := by
  have hpc := pcRelative_of_decode h
  simp only [changeBranchOffset, hpc] at hw'
  exact changed_cases hpc hw'

/-! ## Reversing a branch -/

/-- `reversedIntCondCodes` -/
def reversedIntCondCodes : List Nat := [8, 9, 10, 11, 12, 13, 14, 15, 0, 1, 2, 3, 4, 5, 6, 7]

/-- `reversedFloatCondCodes` -/
def reversedFloatCondCodes : List Nat := [8, 9, 10, 11, 12, 13, 14, 15, 0, 1, 2, 3, 4, 5, 6, 7]

/-- `reversedRegCondCodes` -/
def reversedRegCondCodes : List Nat := [4, 5, 6, 7, 0, 1, 2, 3]

/-- The condition is looked up in a table and put back. -/
def replaceCondition (w : Word) (n : Nat) (table : List Nat) : Option Word := do
  let cond ← table[field w 25 n]?
  pure (replaceField w 25 (n, cond))

def reverseBranchPolarity (w : Word) (cfi : Branch) : Option Word :=
  match cfi.kind with
  | .bicc | .bpcc .. => replaceCondition w 4 reversedIntCondCodes
  | .bpr .. => replaceCondition w 3 reversedRegCondCodes
  | .fbfcc | .fbpfcc .. => replaceCondition w 4 reversedFloatCondCodes

/-- The old branches have no such bit. -/
def changeBranchPredictBitIfApplicable (w : Word) (cfi : Branch) (newPredictValue : Bool) : Word :=
  match cfi.kind with
  | .bicc | .fbfcc => w
  | .bpcc .. | .bpr .. | .fbpfcc .. => replaceField w 19 (flag newPredictValue)

theorem testIcc_reversed (c : Nat) (hc : c < 16) (cc : CondCodes) :
    testIcc ((c + 8) % 16) cc = !testIcc c cc := by
  have hhalf : decide (8 ≤ (c + 8) % 16) = !decide (8 ≤ c) := by
    by_cases h : 8 ≤ c <;> simp [h] <;> omega
  simp [testIcc, hhalf]

theorem testFcc_reversed (c : Nat) (hc : c < 16) (result : Fin 4) :
    testFcc ((c + 8) % 16) result = !testFcc c result := by
  have hhalf : decide (8 ≤ (c + 8) % 16) = !decide (8 ≤ c) := by
    by_cases h : 8 ≤ c <;> simp [h] <;> omega
  simp [testFcc, hhalf]

end Kerninst
