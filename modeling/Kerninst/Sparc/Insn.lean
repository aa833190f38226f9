import Kerninst.Lib.BitField

/-!
# SPARC instructions

An instruction is a 32-bit word. `Insn` lists the instructions that the code
generators of `sparc_instr` build, and `decode` reads a word as the V9 manual and
`getInformation` do. The constructors of `sparc_instr` are the functions from
operands to words below; a constructor whose assertion fails gives `none`.

Each constructor has one lemma, which says that the word it builds decodes to the
instruction it is named after.
-/

namespace Kerninst

/-- An integer register. -/
abbrev Reg := Fin 32

namespace Reg

/-- `%g0` -/
def g0 : Reg := 0

/-- `%o0` -/
def o0 : Reg := 8

/-- `%o1` -/
def o1 : Reg := 9

/-- The stack pointer, `%o6`. -/
def sp : Reg := 14

/-- `%o7` -/
def o7 : Reg := 15

/-- `%l0` -/
def l0 : Reg := 16

/-- The frame pointer, `%i6`. -/
def fp : Reg := 30

/-- `%i7` -/
def i7 : Reg := 31

end Reg

/-! ## What instructions mean -/

/-- The second operand of most instructions. -/
inductive Operand
  | reg (rs2 : Reg)
  | simm13 (imm : Int)
deriving DecidableEq

/-- What a conditional branch or a conditional move tests: the integer condition
codes, one of the four floating-point condition codes, or a register. -/
inductive Tested
  | icc (xcc : Bool)
  | fcc (fccNum : Fin 4)
  | reg (rs1 : Reg)
deriving DecidableEq

/-- The five kinds of branches, with the fields that only some of them have. -/
inductive BranchKind
  | bicc
  | bpcc (predict xcc : Bool)
  | fbfcc
  | fbpfcc (predict : Bool) (fccNum : Fin 4)
  | bpr (predict : Bool) (rs1 : Reg)
deriving DecidableEq

/-- A branch, as `getControlFlowInfo` describes it: `offset_nbytes` is in bytes. -/
structure Branch where
  kind : BranchKind
  condition : Nat
  annul : Bool
  offsetNBytes : Int
deriving DecidableEq

/-- What a branch of this kind tests. -/
def BranchKind.tested : BranchKind → Tested
  | .bicc => .icc false
  | .bpcc _ xcc => .icc xcc
  | .fbfcc => .fcc 0
  | .fbpfcc _ fccNum => .fcc fccNum
  | .bpr _ rs1 => .reg rs1

/-- The instructions that the relocated code is made of; `cti` is any other
control transfer and `plain` any other instruction. -/
inductive Insn
  | branch (b : Branch)
  | call (dispNBytes : Int)
  | jmpl (rd rs1 : Reg) (addr : Operand)
  | sethi (rd : Reg) (imm22 : Nat)
  | or (rd rs1 : Reg) (src : Operand)
  | sllx (rd rs1 : Reg) (count : Nat)
  | save (rd rs1 : Reg) (src : Operand)
  | restore (rd rs1 : Reg) (src : Operand)
  | condMove (tested : Tested) (condition : Nat) (rd rs2 : Reg)
  | cti
  | plain
deriving DecidableEq

/-- An instruction that does not transfer control. -/
def Insn.isPlain : Insn → Bool
  | .branch _ | .call _ | .jmpl .. | .cti => false
  | _ => true

/-! ## Decoding -/

/-- The `n` bits from bit `lo` on as a signed number. -/
def signedField (w : Word) (lo n : Nat) : Int := (field w lo n : Int).bmod (2 ^ n)

/-- The register whose number is in the 5 bits from bit `lo` on. -/
def regField (w : Word) (lo : Nat) : Reg := Fin.ofNat 32 (field w lo 5)

/-- Bit `lo`. -/
def bitField (w : Word) (lo : Nat) : Bool := field w lo 1 = 1

/-- The number of a floating-point condition code. -/
abbrev fccField (w : Word) (lo : Nat) : Fin 4 := Fin.ofNat 4 (field w lo 2)

/-- Bit 13 tells a register operand from an immediate one. -/
def operandField (w : Word) : Operand :=
  if bitField w 13 then .simm13 (signedField w 0 13) else .reg (regField w 0)

/-- Branches and `sethi`: the words whose two highest bits are 00. The reserved
condition-code fields of `BPcc` and the reserved conditions of `BPr` are no branches. -/
def decodeFormat2 (w : Word) : Insn :=
  match field w 22 3 with
  | 1 =>
    if bitField w 20 then .cti else
    .branch ⟨.bpcc (bitField w 19) (bitField w 21), field w 25 4, bitField w 29,
      signedField w 0 19 * 4⟩
  | 2 => .branch ⟨.bicc, field w 25 4, bitField w 29, signedField w 0 22 * 4⟩
  | 3 =>
    if bitField w 28 ∨ field w 25 2 = 0 then .cti else
    .branch ⟨.bpr (bitField w 19) (regField w 14), field w 25 3, bitField w 29,
      ((field w 20 2 * 2 ^ 14 + field w 0 14 : Nat) : Int).bmod (2 ^ 16) * 4⟩
  | 4 => .sethi (regField w 25) (field w 0 22)
  | 5 =>
    .branch ⟨.fbpfcc (bitField w 19) (fccField w 20), field w 25 4, bitField w 29,
      signedField w 0 19 * 4⟩
  | 6 => .branch ⟨.fbfcc, field w 25 4, bitField w 29, signedField w 0 22 * 4⟩
  | _ => .plain

/-- The words whose two highest bits are 10. -/
def decodeFormat3 (w : Word) : Insn :=
  match field w 19 6 with
  | 0x02 => .or (regField w 25) (regField w 14) (operandField w)
  | 0x25 =>
    if bitField w 13 ∧ bitField w 12 then .sllx (regField w 25) (regField w 14) (field w 0 6)
    else .plain
  | 0x2c =>
    if bitField w 13 then .plain
    else if bitField w 18 then
      if bitField w 11 then .plain
      else .condMove (.icc (bitField w 12)) (field w 14 4) (regField w 25) (regField w 0)
    else .condMove (.fcc (fccField w 11)) (field w 14 4) (regField w 25) (regField w 0)
  | 0x2f =>
    if bitField w 13 ∨ field w 10 2 = 0 then .plain
    else .condMove (.reg (regField w 14)) (field w 10 3) (regField w 25) (regField w 0)
  | 0x38 => .jmpl (regField w 25) (regField w 14) (operandField w)
  | 0x39 => .cti
  | 0x3c => .save (regField w 25) (regField w 14) (operandField w)
  | 0x3d => .restore (regField w 25) (regField w 14) (operandField w)
  | 0x3e => .cti
  | _ => .plain

/-- The instruction that a word is. -/
def decode (w : Word) : Insn :=
  match field w 30 2 with
  | 0 => decodeFormat2 w
  | 1 => .call (signedField w 0 30 * 4)
  | 2 => decodeFormat3 w
  | _ => .plain

/-- `sparc_instr::isSave` -/
def isSave (w : Word) : Bool :=
  match decode w with
  | .save .. => true
  | _ => false

/-! ## Building -/

/-- A number as a `long` of the 32-bit process. -/
def toLong (v : Int) : Int := v.bmod (2 ^ 32)

/-- `simmediate<n>::inrange` -/
def simmInRange (n : Nat) (v : Int) : Prop := if 0 < v then v ≤ 2 ^ n - 1 else -2 ^ (n - 1) ≤ v

instance (n : Nat) (v : Int) : Decidable (simmInRange n v) := by
  unfold simmInRange
  infer_instance

/-- `simmediate<n>(v)`, as the field it rolls in. The check lets positive numbers use all bits. -/
def simm (n : Nat) (v : Int) : Option (Nat × Nat) := do
  check (simmInRange n (toLong v))
  pure (n, (toLong v % 2 ^ n).toNat)

/-- A displacement in bytes, as a field that counts instructions. -/
def dispField (n : Nat) (dispNBytes : Int) : Option (Nat × Nat) := do
  check (dispNBytes % 4 = 0)
  simm n (dispNBytes / 4)

/-- `rollinIntReg` -/
def intReg (r : Reg) : Nat × Nat := (5, r.val)

/-- A bit, as a field to roll in. -/
def flag (b : Bool) : Nat × Nat := (1, b.toNat)

namespace SparcInstr

/-- The old branches, `Bicc` and `FBfcc`, differ in three bits. -/
def oldBranch (op2 cond : Nat) (annulled : Bool) (displacement : Int) : Option Word := do
  let disp ← dispField 22 displacement
  rollAll [(2, 0), flag annulled, (4, cond), (3, op2), disp]

/-- A branch on the integer condition codes. -/
def bicc (cond : Nat) (annulled : Bool) (displacement : Int) : Option Word :=
  oldBranch 2 cond annulled displacement

/-- A branch on `%fcc0`. -/
def fbfcc (cond : Nat) (annulled : Bool) (displacement : Int) : Option Word :=
  oldBranch 6 cond annulled displacement

/-- The branches with prediction, `BPcc` and `FBPfcc`, differ in three bits and in what
the condition-code bits are. -/
def predictedBranch (op2 cond : Nat) (annulled predictTaken : Bool) (ccbits : Nat)
    (displacement : Int) : Option Word := do
  let disp ← dispField 19 displacement
  rollAll [(2, 0), flag annulled, (4, cond), (3, op2), (2, ccbits), flag predictTaken, disp]

/-- A branch on `%icc` or `%xcc`, with prediction. -/
def bpcc (cond : Nat) (annulled predictTaken xcc : Bool) (displacement : Int) : Option Word :=
  predictedBranch 1 cond annulled predictTaken (if xcc then 2 else 0) displacement

/-- A branch on a floating-point condition code, with prediction. -/
def fbpfcc (cond : Nat) (annulled predictTaken : Bool) (fccNum : Nat) (displacement : Int) :
    Option Word :=
  predictedBranch 5 cond annulled predictTaken fccNum displacement

/-- `bpr` cuts its displacement to 16 bits without a check. -/
def bpr (cond : Nat) (annulled predictTaken : Bool) (rs1 : Reg) (displacement : Int) :
    Option Word := do
  check (displacement % 4 = 0)
  let displacementNInsns := displacement / 4
  rollAll [(2, 0), flag annulled, (1, 0), (3, cond), (3, 3),
    (2, (displacementNInsns / 2 ^ 14 % 4).toNat), flag predictTaken, intReg rs1,
    (14, (displacementNInsns % 2 ^ 14).toNat)]

/-- `sethi` of 22 bits. -/
def sethicommon (val : Nat) (dest : Reg) : Option Word :=
  rollAll [(2, 0), intReg dest, (3, 4), (22, val)]

/-- `sethi` of the bits 10 to 31 of a 32-bit value. -/
def sethi (val : Nat) (dest : Reg) : Option Word := sethicommon (val / 2 ^ 10 % 2 ^ 22) dest

/-- `sethi 0, %g0` -/
def nop : Option Word := sethicommon 0 Reg.g0

/-- An instruction with a register and a signed constant of 13 bits. -/
def setSimm13Style (hi2 : Nat) (rd : Reg) (op3 : Nat) (rs1 : Reg) (constant : Int) :
    Option Word := do
  let imm ← simm 13 constant
  rollAll [(2, hi2), intReg rd, (6, op3), intReg rs1, (1, 1), imm]

/-- An instruction with two registers. -/
def set2RegStyle (hi2 : Nat) (rd : Reg) (op3 : Nat) (rs1 : Reg) (asi : Nat) (rs2 : Reg) :
    Option Word :=
  rollAll [(2, hi2), intReg rd, (6, op3), intReg rs1, (1, 0), (8, asi), intReg rs2]

/-- `setto_logic` with `logic_or` and no condition codes, on a constant. -/
def orImm (rd rs1 : Reg) (constant : Int) : Option Word := setSimm13Style 2 rd 2 rs1 constant

/-- `bset`: or a constant into a register. -/
def bset (constant : Int) (reg : Reg) : Option Word := orImm reg reg constant

/-- `or %g0, rs1, rd` -/
def mov (rs1 rd : Reg) : Option Word := set2RegStyle 2 rd 2 Reg.g0 0 rs1

/-- The extended left shift by a constant. -/
def sllx (destReg srcReg : Reg) (constant : Nat) : Option Word :=
  rollAll [(2, 2), intReg destReg, (6, 0x25), intReg srcReg, (1, 1), (1, 1), (6, 0), (6, constant)]

/-- A move on the integer condition codes. -/
def movccInt (cond : Nat) (xcc : Bool) (srcReg destReg : Reg) : Option Word :=
  rollAll [(2, 2), intReg destReg, (6, 0x2c), (1, 1), (4, cond), (1, 0), flag xcc, (1, 0), (6, 0),
    intReg srcReg]

/-- A move on a floating-point condition code. -/
def movccFloat (cond fccNum : Nat) (srcReg destReg : Reg) : Option Word := do
  check (fccNum < 4)
  rollAll [(2, 2), intReg destReg, (6, 0x2c), (1, 0), (4, cond), (1, 0), (2, fccNum), (6, 0),
    intReg srcReg]

/-- A move on the contents of a register. -/
def movr (cond : Nat) (rs1 rs2 rd : Reg) : Option Word :=
  rollAll [(2, 2), intReg rd, (6, 0x2f), intReg rs1, (1, 0), (3, cond), (5, 0), intReg rs2]

/-- `save %sp, constant, %sp` -/
def save (constant : Int) : Option Word := setSimm13Style 2 Reg.sp 0x3c Reg.sp constant

/-- `restore %g0, %g0, %g0` -/
def restore : Option Word := set2RegStyle 2 Reg.g0 0x3d Reg.g0 0 Reg.g0

/-- `jmpl addrReg + offset, linkReg` -/
def jmplImm (linkReg addrReg : Reg) (offsetNBytes : Int) : Option Word :=
  setSimm13Style 2 linkReg 0x38 addrReg offsetNBytes

/-- A jump to the address in a register. -/
def jumpReg (jumpee : Reg) : Option Word := set2RegStyle 2 Reg.g0 0x38 jumpee 0 Reg.g0

/-- A jump to the sum of two registers. -/
def jumpRegReg (addrReg1 addrReg2 : Reg) : Option Word :=
  set2RegStyle 2 Reg.g0 0x38 addrReg1 0 addrReg2

/-- A jump to a register plus a constant. -/
def jumpImm (addrReg : Reg) (offsetNBytes : Int) : Option Word :=
  jmplImm Reg.g0 addrReg offsetNBytes

end SparcInstr

/-! ## What is built decodes to what it was built from -/

/-- A displacement in bytes that a signed field of `n` bits can hold. -/
def Encodable (n : Nat) (offset : Int) : Prop :=
  offset % 4 = 0 ∧ -2 ^ (n + 1) ≤ offset ∧ offset < 2 ^ (n + 1)

instance (n : Nat) (offset : Int) : Decidable (Encodable n offset) := by
  unfold Encodable
  infer_instance

variable {v disp : Int}

theorem toLong_of_fits (hlo : -2 ^ 31 ≤ v) (hhi : v < 2 ^ 31) : toLong v = v := by
  apply Int.bmod_eq_of_le <;> omega

theorem simm_of_inRange {n : Nat} (hn : n ≤ 31) (hlo : -2 ^ 31 ≤ v) (h : simmInRange n v) :
    simm n v = some (n, (v % 2 ^ n).toNat) := by
  have hlong : toLong v = v := by
    have hpow : (2 : Int) ^ n ≤ 2 ^ 31 := pow_le_pow_right₀ (by decide) hn
    refine toLong_of_fits hlo ?_
    simp only [simmInRange] at h
    split at h <;> omega
  simp [simm, hlong, check_pos h]

theorem simm_eq {k : Nat} (hk : k ≤ 30) (hlo : -2 ^ k ≤ v) (hhi : v < 2 ^ k) :
    simm (k + 1) v = some (k + 1, (v % 2 ^ (k + 1)).toNat) := by
  have hpow : (2 : Int) ^ k ≤ 2 ^ 30 := pow_le_pow_right₀ (by decide) hk
  have hrange : simmInRange (k + 1) v := by
    simp only [simmInRange, Nat.add_sub_cancel]
    split <;> omega
  exact simm_of_inRange (by omega) (by omega) hrange

theorem dispField_eq {k : Nat} (hk : k ≤ 29) (hd : Encodable (k + 1) disp) :
    dispField (k + 1) disp = some (k + 1, (disp / 4 % 2 ^ (k + 1)).toNat) := by
  obtain ⟨h4, hlo, hhi⟩ := hd
  have hpow : (2 : Int) ^ (k + 2) = 4 * 2 ^ k := by ring
  simp only [dispField, check_pos h4, run_do]
  exact simm_eq (by omega) (by omega) (by omega)

theorem signedField_eq {w : Word} {lo k : Nat} (hlo : -2 ^ k ≤ v) (hhi : v < 2 ^ k)
    (h : field w lo (k + 1) = (v % 2 ^ (k + 1)).toNat) : signedField w lo (k + 1) = v := by
  rw [signedField, h, bmod_emod_toNat hlo hhi]

theorem signedField_disp {w : Word} {lo k : Nat} (hd : Encodable (k + 1) disp)
    (h : field w lo (k + 1) = (disp / 4 % 2 ^ (k + 1)).toNat) :
    signedField w lo (k + 1) * 4 = disp := by
  obtain ⟨h4, hlo, hhi⟩ := hd
  rw [signedField_eq (by omega) (by omega) h, Int.ediv_mul_cancel_of_emod_eq_zero h4]

theorem regField_eq {w : Word} {lo : Nat} {r : Reg} (h : field w lo 5 = r.val) :
    regField w lo = r := by
  rw [regField, h]
  exact Fin.ofNat_val_eq_self r

theorem bitField_eq {w : Word} {lo : Nat} {b : Bool} (h : field w lo 1 = b.toNat) :
    bitField w lo = b := by
  rw [bitField, h]
  cases b <;> rfl

theorem emod_toNat_lt (v : Int) (k : Nat) : (v % 2 ^ k).toNat < 2 ^ k := by
  have hpos : (0 : Int) < 2 ^ k := by positivity
  have hcast : ((2 ^ k : Nat) : Int) = 2 ^ k := by push_cast; rfl
  omega

/-- The displacement of `BPr` is in two pieces, of 2 and of 14 bits. -/
theorem split_disp16 {hi lo : Nat} (hd : Encodable 16 disp)
    (hhi : hi = (disp / 4 / 2 ^ 14 % 4).toNat) (hlo : lo = (disp / 4 % 2 ^ 14).toNat) :
    ((hi * 2 ^ 14 + lo : Nat) : Int).bmod (2 ^ 16) * 4 = disp := by
  obtain ⟨h4, hd, hd'⟩ := hd
  have hjoin : hi * 2 ^ 14 + lo = (disp / 4 % 2 ^ 16).toNat := by omega
  rw [hjoin, bmod_emod_toNat (by omega) (by omega), Int.ediv_mul_cancel_of_emod_eq_zero h4]

namespace SparcInstr

section Branches

variable {cond : Nat} (annul predict : Bool)

theorem oldBranch_spec {op2 : Nat} (hop2 : op2 < 8) (hcond : cond < 16) (hd : Encodable 22 disp) :
    ∃ w, oldBranch op2 cond annul disp = some w ∧ field w 30 2 = 0 ∧ field w 22 3 = op2 ∧
      field w 25 4 = cond ∧ bitField w 29 = annul ∧ signedField w 0 22 * 4 = disp := by
  rw [oldBranch, dispField_eq (by decide) hd]
  refine rollAll_spec ?_ (by simp [flag]) fun w hs => ?_
  · simpa [flag, hop2, hcond, Bool.toNat_lt, Bool.toNat_le] using emod_toNat_lt (disp / 4) 22
  exact ⟨hs.get 0 rfl, hs.get 3 rfl, hs.get 2 rfl, bitField_eq (hs.get 1 rfl),
    signedField_disp hd (hs.get 4 rfl)⟩

theorem bicc_spec (hcond : cond < 16) (hd : Encodable 22 disp) :
    ∃ w, bicc cond annul disp = some w ∧ decode w = .branch ⟨.bicc, cond, annul, disp⟩ := by
  obtain ⟨w, hw, hop, hop2, hc, ha, hd⟩ := oldBranch_spec annul (by decide : 2 < 8) hcond hd
  exact ⟨w, hw, by simp [decode, decodeFormat2, hop, hop2, hc, ha, hd]⟩

theorem fbfcc_spec (hcond : cond < 16) (hd : Encodable 22 disp) :
    ∃ w, fbfcc cond annul disp = some w ∧ decode w = .branch ⟨.fbfcc, cond, annul, disp⟩ := by
  obtain ⟨w, hw, hop, hop2, hc, ha, hd⟩ := oldBranch_spec annul (by decide : 6 < 8) hcond hd
  exact ⟨w, hw, by simp [decode, decodeFormat2, hop, hop2, hc, ha, hd]⟩

theorem predictedBranch_spec {op2 cc : Nat} (hop2 : op2 < 8) (hcc : cc < 4) (hcond : cond < 16)
    (hd : Encodable 19 disp) :
    ∃ w, predictedBranch op2 cond annul predict cc disp = some w ∧ field w 30 2 = 0 ∧
      field w 22 3 = op2 ∧ field w 25 4 = cond ∧ bitField w 29 = annul ∧ field w 20 2 = cc ∧
      bitField w 19 = predict ∧ signedField w 0 19 * 4 = disp := by
  rw [predictedBranch, dispField_eq (by decide) hd]
  refine rollAll_spec ?_ (by simp [flag]) fun w hs => ?_
  · simpa [flag, hop2, hcond, hcc, Bool.toNat_lt, Bool.toNat_le] using emod_toNat_lt (disp / 4) 19
  exact ⟨hs.get 0 rfl, hs.get 3 rfl, hs.get 2 rfl, bitField_eq (hs.get 1 rfl), hs.get 4 rfl,
    bitField_eq (hs.get 5 rfl), signedField_disp hd (hs.get 6 rfl)⟩

theorem bpcc_spec (xcc : Bool) (hcond : cond < 16) (hd : Encodable 19 disp) :
    ∃ w, bpcc cond annul predict xcc disp = some w ∧
      decode w = .branch ⟨.bpcc predict xcc, cond, annul, disp⟩ := by
  have hcc : (if xcc then 2 else 0) < 4 := by split <;> decide
  obtain ⟨w, hw, hop, hop2, hc, ha, hcc', hp, hd⟩ :=
    predictedBranch_spec annul predict (by decide : 1 < 8) hcc hcond hd
  have hcc0 : bitField w 20 = false :=
    bitField_eq (by rw [field_mod w 20 (by decide : 1 ≤ 2), hcc']; cases xcc <;> rfl)
  have hcc1 : bitField w 21 = xcc := bitField_eq (by
    rw [field_succ w 20 1, hcc']; cases xcc <;> rfl)
  exact ⟨w, hw, by simp [decode, decodeFormat2, hop, hop2, hc, ha, hp, hd, hcc0, hcc1]⟩

theorem fbpfcc_spec (fccNum : Fin 4) (hcond : cond < 16) (hd : Encodable 19 disp) :
    ∃ w, fbpfcc cond annul predict fccNum disp = some w ∧
      decode w = .branch ⟨.fbpfcc predict fccNum, cond, annul, disp⟩ := by
  obtain ⟨w, hw, hop, hop2, hc, ha, hcc, hp, hd⟩ :=
    predictedBranch_spec annul predict (by decide : 5 < 8) fccNum.isLt hcond hd
  refine ⟨w, hw, ?_⟩
  simp [decode, decodeFormat2, hop, hop2, hc, ha, hp, hd, hcc]

theorem bpr_fields (rs1 : Reg) (hcond : cond < 8) (hd : Encodable 16 disp) :
    ∃ w, bpr cond annul predict rs1 disp = some w ∧ field w 30 2 = 0 ∧ field w 22 3 = 3 ∧
      bitField w 28 = false ∧ field w 25 3 = cond ∧ bitField w 29 = annul ∧
      bitField w 19 = predict ∧ regField w 14 = rs1 ∧
      ((field w 20 2 * 2 ^ 14 + field w 0 14 : Nat) : Int).bmod (2 ^ 16) * 4 = disp := by
  rw [bpr, check_pos hd.1]
  refine rollAll_spec ?_ (by simp [flag, intReg]) fun w hs => ?_
  · have hhigh : disp / 4 / 16384 % 4 < 4 := Int.emod_lt_of_pos _ (by decide)
    simpa [flag, intReg, hcond, Bool.toNat_lt, Bool.toNat_le, hhigh] using
      emod_toNat_lt (disp / 4) 14
  exact ⟨hs.get 0 rfl, hs.get 4 rfl, bitField_eq (hs.get 2 rfl), hs.get 3 rfl,
    bitField_eq (hs.get 1 rfl), bitField_eq (hs.get 6 rfl), regField_eq (hs.get 7 rfl),
    split_disp16 hd (hs.get 5 rfl) (hs.get 8 rfl)⟩

theorem bpr_spec (rs1 : Reg) (hcond : cond < 8) (hres : cond % 4 ≠ 0) (hd : Encodable 16 disp) :
    ∃ w, bpr cond annul predict rs1 disp = some w ∧
      decode w = .branch ⟨.bpr predict rs1, cond, annul, disp⟩ := by
  obtain ⟨w, hw, hop, hop2, hbit28, hc, ha, hp, hr, hd⟩ :=
    bpr_fields annul predict rs1 hcond hd
  have hc' : field w 25 2 ≠ 0 := by rwa [field_mod w 25 (by decide : 2 ≤ 3), hc]
  refine ⟨w, hw, ?_⟩
  simp only [decode, decodeFormat2, hop, hop2, hbit28, hc, ha, hp, hr, hd,
    Bool.false_eq_true, false_or, if_neg hc']

end Branches

section Others

theorem sethicommon_spec {val : Nat} (hval : val < 2 ^ 22) (dest : Reg) :
    ∃ w, sethicommon val dest = some w ∧ decode w = .sethi dest val := by
  refine rollAll_spec (by simpa [intReg] using hval) (by simp [intReg]) fun w hs => ?_
  have hop : field w 30 2 = 0 := hs.get 0 rfl
  have hop2 : field w 22 3 = 4 := hs.get 2 rfl
  have hrd : regField w 25 = dest := regField_eq (hs.get 1 rfl)
  have himm : field w 0 22 = val := hs.get 3 rfl
  simp [decode, decodeFormat2, hop, hop2, hrd, himm]

theorem nop_spec : ∃ w, nop = some w ∧ decode w = .sethi Reg.g0 0 :=
  sethicommon_spec (by decide) Reg.g0

variable {imm : Int}

/-- An instruction with a register and an immediate operand. -/
theorem setSimm13Style_spec {op3 : Nat} (hop3 : op3 < 64) (rd rs1 : Reg)
    (hlo : -2 ^ 12 ≤ imm) (hhi : imm < 2 ^ 12) :
    ∃ w, setSimm13Style 2 rd op3 rs1 imm = some w ∧ field w 30 2 = 2 ∧ field w 19 6 = op3 ∧
      regField w 25 = rd ∧ regField w 14 = rs1 ∧ operandField w = .simm13 imm := by
  rw [setSimm13Style, simm_eq (by decide) hlo hhi]
  refine rollAll_spec ?_ (by simp [intReg]) fun w hs => ?_
  · simpa [intReg, hop3] using emod_toNat_lt imm 13
  have himm : signedField w 0 13 = imm := signedField_eq hlo hhi (hs.get 5 rfl)
  have hi : bitField w 13 = true := bitField_eq (hs.get 4 rfl)
  refine ⟨hs.get 0 rfl, hs.get 2 rfl, regField_eq (hs.get 1 rfl), regField_eq (hs.get 3 rfl), ?_⟩
  rw [operandField, hi, himm, if_pos rfl]

/-- An instruction with two register operands. -/
theorem set2RegStyle_spec {op3 : Nat} (hop3 : op3 < 64) (rd rs1 rs2 : Reg) :
    ∃ w, set2RegStyle 2 rd op3 rs1 0 rs2 = some w ∧ field w 30 2 = 2 ∧ field w 19 6 = op3 ∧
      regField w 25 = rd ∧ regField w 14 = rs1 ∧ operandField w = .reg rs2 := by
  refine rollAll_spec (by simpa [intReg] using hop3) (by simp [intReg]) fun w hs => ?_
  have hi : bitField w 13 = false := bitField_eq (hs.get 4 rfl)
  have hrs2 : regField w 0 = rs2 := regField_eq (hs.get 6 rfl)
  refine ⟨hs.get 0 rfl, hs.get 2 rfl, regField_eq (hs.get 1 rfl), regField_eq (hs.get 3 rfl), ?_⟩
  rw [operandField, hi, hrs2]
  rfl

theorem orImm_spec (rd rs1 : Reg) (hlo : -2 ^ 12 ≤ imm) (hhi : imm < 2 ^ 12) :
    ∃ w, orImm rd rs1 imm = some w ∧ decode w = .or rd rs1 (.simm13 imm) := by
  obtain ⟨w, hw, hop, hop3, hrd, hrs1, ho⟩ :=
    setSimm13Style_spec (by decide : 2 < 64) rd rs1 hlo hhi
  exact ⟨w, hw, by simp [decode, decodeFormat3, hop, hop3, hrd, hrs1, ho]⟩

theorem mov_spec (rs1 rd : Reg) :
    ∃ w, mov rs1 rd = some w ∧ decode w = .or rd Reg.g0 (.reg rs1) := by
  obtain ⟨w, hw, hop, hop3, hrd, hrs1, ho⟩ := set2RegStyle_spec (by decide : 2 < 64) rd Reg.g0 rs1
  exact ⟨w, hw, by simp [decode, decodeFormat3, hop, hop3, hrd, hrs1, ho]⟩

theorem save_spec (hlo : -2 ^ 12 ≤ imm) (hhi : imm < 2 ^ 12) :
    ∃ w, save imm = some w ∧ decode w = .save Reg.sp Reg.sp (.simm13 imm) := by
  obtain ⟨w, hw, hop, hop3, hrd, hrs1, ho⟩ :=
    setSimm13Style_spec (by decide : 0x3c < 64) Reg.sp Reg.sp hlo hhi
  exact ⟨w, hw, by simp [decode, decodeFormat3, hop, hop3, hrd, hrs1, ho]⟩

theorem restore_spec : ∃ w, restore = some w ∧ decode w = .restore Reg.g0 Reg.g0 (.reg Reg.g0) := by
  obtain ⟨w, hw, hop, hop3, hrd, hrs1, ho⟩ :=
    set2RegStyle_spec (by decide : 0x3d < 64) Reg.g0 Reg.g0 Reg.g0
  exact ⟨w, hw, by simp [decode, decodeFormat3, hop, hop3, hrd, hrs1, ho]⟩

theorem jmplImm_spec (link addr : Reg) (hlo : -2 ^ 12 ≤ imm) (hhi : imm < 2 ^ 12) :
    ∃ w, jmplImm link addr imm = some w ∧ decode w = .jmpl link addr (.simm13 imm) := by
  obtain ⟨w, hw, hop, hop3, hrd, hrs1, ho⟩ :=
    setSimm13Style_spec (by decide : 0x38 < 64) link addr hlo hhi
  exact ⟨w, hw, by simp [decode, decodeFormat3, hop, hop3, hrd, hrs1, ho]⟩

theorem jumpRegReg_spec (rs1 rs2 : Reg) :
    ∃ w, jumpRegReg rs1 rs2 = some w ∧ decode w = .jmpl Reg.g0 rs1 (.reg rs2) := by
  obtain ⟨w, hw, hop, hop3, hrd, hrs1, ho⟩ :=
    set2RegStyle_spec (by decide : 0x38 < 64) Reg.g0 rs1 rs2
  exact ⟨w, hw, by simp [decode, decodeFormat3, hop, hop3, hrd, hrs1, ho]⟩

theorem sllx_spec (rd rs1 : Reg) {count : Nat} (hcount : count < 64) :
    ∃ w, sllx rd rs1 count = some w ∧ decode w = .sllx rd rs1 count := by
  refine rollAll_spec (by simpa [intReg] using hcount) (by simp [intReg]) fun w hs => ?_
  have hop : field w 30 2 = 2 := hs.get 0 rfl
  have hop3 : field w 19 6 = 0x25 := hs.get 2 rfl
  have hi : bitField w 13 = true := bitField_eq (hs.get 4 rfl)
  have hx : bitField w 12 = true := bitField_eq (hs.get 5 rfl)
  have hrd : regField w 25 = rd := regField_eq (hs.get 1 rfl)
  have hrs1 : regField w 14 = rs1 := regField_eq (hs.get 3 rfl)
  have hc : field w 0 6 = count := hs.get 7 rfl
  simp [decode, decodeFormat3, hop, hop3, hi, hx, hrd, hrs1, hc]

theorem movccInt_spec {cond : Nat} (hcond : cond < 16) (xcc : Bool) (src dest : Reg) :
    ∃ w, movccInt cond xcc src dest = some w ∧ decode w = .condMove (.icc xcc) cond dest src := by
  refine rollAll_spec ?_ (by simp [intReg, flag]) fun w hs => ?_
  · simpa [intReg, flag, Bool.toNat_lt, Bool.toNat_le] using hcond
  have hop : field w 30 2 = 2 := hs.get 0 rfl
  have hop3 : field w 19 6 = 0x2c := hs.get 2 rfl
  have hi : bitField w 13 = false := bitField_eq (hs.get 5 rfl)
  have hcc2 : bitField w 18 = true := bitField_eq (hs.get 3 rfl)
  have hcc1 : bitField w 12 = xcc := bitField_eq (hs.get 6 rfl)
  have hcc0 : bitField w 11 = false := bitField_eq (hs.get 7 rfl)
  have hc : field w 14 4 = cond := hs.get 4 rfl
  have hrd : regField w 25 = dest := regField_eq (hs.get 1 rfl)
  have hrs2 : regField w 0 = src := regField_eq (hs.get 9 rfl)
  simp [decode, decodeFormat3, hop, hop3, hi, hcc2, hcc1, hcc0, hc, hrd, hrs2]

theorem movccFloat_spec {cond : Nat} (hcond : cond < 16) (fccNum : Fin 4) (src dest : Reg) :
    ∃ w, movccFloat cond fccNum src dest = some w ∧
      decode w = .condMove (.fcc fccNum) cond dest src := by
  rw [movccFloat, check_pos fccNum.isLt]
  refine rollAll_spec (by simpa [intReg] using hcond) (by simp [intReg]) fun w hs => ?_
  have hop : field w 30 2 = 2 := hs.get 0 rfl
  have hop3 : field w 19 6 = 0x2c := hs.get 2 rfl
  have hi : bitField w 13 = false := bitField_eq (hs.get 5 rfl)
  have hcc2 : bitField w 18 = false := bitField_eq (hs.get 3 rfl)
  have hcc : field w 11 2 = fccNum := hs.get 6 rfl
  have hc : field w 14 4 = cond := hs.get 4 rfl
  have hrd : regField w 25 = dest := regField_eq (hs.get 1 rfl)
  have hrs2 : regField w 0 = src := regField_eq (hs.get 8 rfl)
  simp [decode, decodeFormat3, hop, hop3, hi, hcc2, hcc, hc, hrd, hrs2]

theorem movr_spec {cond : Nat} (hcond : cond < 8) (hres : cond % 4 ≠ 0) (rs1 src dest : Reg) :
    ∃ w, movr cond rs1 src dest = some w ∧ decode w = .condMove (.reg rs1) cond dest src := by
  refine rollAll_spec (by simpa [intReg] using hcond) (by simp [intReg]) fun w hs => ?_
  have hop : field w 30 2 = 2 := hs.get 0 rfl
  have hop3 : field w 19 6 = 0x2f := hs.get 2 rfl
  have hi : bitField w 13 = false := bitField_eq (hs.get 4 rfl)
  have hc : field w 10 3 = cond := hs.get 5 rfl
  have hc' : field w 10 2 ≠ 0 := by rwa [field_mod w 10 (by decide : 2 ≤ 3), hc]
  have hrd : regField w 25 = dest := regField_eq (hs.get 1 rfl)
  have hrs1 : regField w 14 = rs1 := regField_eq (hs.get 3 rfl)
  have hrs2 : regField w 0 = src := regField_eq (hs.get 7 rfl)
  simp [decode, decodeFormat3, hop, hop3, hi, hc, hrd, hrs1, hrs2, if_neg hc']

end Others

end SparcInstr

end Kerninst
