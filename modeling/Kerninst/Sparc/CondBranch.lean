import Kerninst.Sparc.LRAndR
import Kerninst.Sparc.UsualJumpSound

/-!
# Relocated conditional branches

What the original branch does is `Branch.outcome`: where control goes, and how often the
delay-slot instruction runs. `original_outcome` checks it against the machine. A relocated
branch preserves it (`PreservesBranch`) if, from every state, its code leads to the same
place, runs the delay-slot instruction as often, as at its own address, and changes nothing
else but the registers that are free.

In the patch that instruction has another address (`RelocatesBranch`). It only sees it if it is
`rd %pc`, and then the branch is preserved only if it never runs the instruction
(`RelocatesBranch.preserves_iff`).
-/

namespace Kerninst

open SparcInstr BitVec Branch BranchKind
open Cpu (seq)

universe u

/-! ## Branches that decode -/

/-- What every branch that `decode` reads has: a condition that its kind allows, and a
displacement in range. -/
structure Branch.Valid (b : Branch) : Prop where
  condition : match b.kind with
    | .bpr .. => b.condition < 8 ∧ b.condition % 4 ≠ 0
    | _ => b.condition < 16
  aligned : b.offsetNBytes % 4 = 0
  lower : -2 ^ 23 ≤ b.offsetNBytes
  upper : b.offsetNBytes < 2 ^ 23

/-- A sign-extended field of at most 22 bits is a valid displacement. -/
theorem Branch.valid_of_field {kind : BranchKind} {condition : Nat} (annul : Bool) (x : Int)
    {n : Nat} (hn : n ≤ 22)
    (hcond : match kind with
      | .bpr .. => condition < 8 ∧ condition % 4 ≠ 0
      | _ => condition < 16) :
    Branch.Valid ⟨kind, condition, annul, x.bmod (2 ^ n) * 4⟩ := by
  have hpow : 2 ^ n ≤ 2 ^ 22 := Nat.pow_le_pow_right (by decide) hn
  have hsize : 0 < 2 ^ n := Nat.two_pow_pos n
  have hlo := Int.le_bmod (x := x) hsize
  have hhi := Int.bmod_lt (x := x) hsize
  exact ⟨hcond, Int.mul_emod_left _ _, by simp only; omega, by simp only; omega⟩

variable {b : Branch}

theorem decodeFormat2_branch_valid {w : Word} (h : decodeFormat2 w = .branch b) : b.Valid := by
  have hcond := field_lt w 25 4
  rw [decodeFormat2] at h
  split at h
  · split at h
    · cases h
    · cases h
      exact valid_of_field _ _ (by decide) hcond
  · cases h
    exact valid_of_field _ _ (by decide) hcond
  · split at h
    · cases h
    · rename_i hres
      cases h
      have hlow := field_mod w 25 (by decide : 2 ≤ 3)
      refine valid_of_field _ _ (by decide) ⟨field_lt w 25 3, fun hzero => ?_⟩
      exact hres (.inr (hlow.trans hzero))
  · cases h
  · cases h
    exact valid_of_field _ _ (by decide) hcond
  · cases h
    exact valid_of_field _ _ (by decide) hcond
  · cases h

theorem decodeFormat3_ne_branch (w : Word) (b : Branch) : decodeFormat3 w ≠ .branch b := by
  intro h
  rw [decodeFormat3] at h
  split at h <;> (try split at h) <;> (try split at h) <;> (try split at h) <;> cases h

theorem decode_branch_valid {w : Word} (h : decode w = .branch b) : b.Valid := by
  rw [decode] at h
  split at h
  · exact decodeFormat2_branch_valid h
  · cases h
  · exact absurd h (decodeFormat3_ne_branch w b)
  · cases h

/-- The displacement of a call counts instructions in 30 bits. -/
theorem decode_call_valid {w : Word} {offset : Int} (h : decode w = .call offset) :
    offset % 4 = 0 ∧ -2 ^ 31 ≤ offset ∧ offset < 2 ^ 31 := by
  have hlo := Int.le_bmod (x := (field w 0 30 : Int)) (Nat.two_pow_pos 30)
  have hhi := Int.bmod_lt (x := (field w 0 30 : Int)) (Nat.two_pow_pos 30)
  rw [decode] at h
  split at h
  · rw [decodeFormat2] at h
    split at h <;> (try split at h) <;> cases h
  · obtain rfl : signedField w 0 30 * 4 = offset := by simpa using h
    rw [signedField]
    omega
  · rw [decodeFormat3] at h
    split at h <;> (try split at h) <;> (try split at h) <;> (try split at h) <;> cases h
  · cases h

/-- An immediate operand is in range. -/
theorem simm13_of_decode {w : Word} {rd rs1 : Reg} {imm : Int}
    (h : decode w = .jmpl rd rs1 (.simm13 imm) ∨ decode w = .restore rd rs1 (.simm13 imm)) :
    -2 ^ 12 ≤ imm ∧ imm < 2 ^ 12 := by
  have hlo := Int.le_bmod (x := (field w 0 13 : Int)) (Nat.two_pow_pos 13)
  have hhi := Int.bmod_lt (x := (field w 0 13 : Int)) (Nat.two_pow_pos 13)
  have hop : operandField w = .simm13 imm := by
    simp only [decode, decodeFormat2, decodeFormat3] at h
    rcases h with h | h <;> repeat' split at h
    all_goals first | cases h | injection h
  rw [operandField] at hop
  split at hop
  · obtain rfl := Operand.simm13.inj hop
    rw [signedField]
    omega
  · cases hop

theorem call_target_aligned {launch : Kptr} {call : Word} {offset : Int}
    (hcall : decode call = .call offset) (hlaunch : launch.toNat % 4 = 0) :
    (launch + BitVec.ofInt 64 offset).toNat % 4 = 0 := by
  have h4 := (decode_call_valid hcall).1
  rw [toNat_add, toNat_ofInt]
  omega

/-- The relocated branch is the original one with a new displacement. -/
theorem emitBranch_spec (hb : b.Valid) {disp : Int} (h4 : disp % 4 = 0)
    (hlo : -2 ^ 17 ≤ disp) (hhi : disp < 2 ^ 17) :
    ∃ w, emitBranch b disp = some w ∧ decode w = .branch ⟨b.kind, b.condition, false, disp⟩ := by
  obtain ⟨kind, condition, annul, offset⟩ := b
  have hcond := hb.condition
  cases kind with
  | bicc => exact bicc_spec false hcond ⟨h4, by omega, by omega⟩
  | bpcc predict xcc => exact bpcc_spec false predict xcc hcond ⟨h4, by omega, by omega⟩
  | fbfcc => exact fbfcc_spec false hcond ⟨h4, by omega, by omega⟩
  | fbpfcc predict n => exact fbpfcc_spec false predict n hcond ⟨h4, by omega, by omega⟩
  | bpr predict rs1 => exact bpr_spec false predict rs1 hcond.1 hcond.2 ⟨h4, hlo, hhi⟩

/-- The conditional move tests what the branch tests. -/
theorem decode_cfi2ConditionalMove (hb : b.Valid) (src dest : Reg) :
    ∃ w, cfi2ConditionalMove b src dest = some w ∧
      decode w = .condMove b.kind.tested b.condition dest src := by
  obtain ⟨kind, condition, annul, offset⟩ := b
  have hcond := hb.condition
  cases kind with
  | bicc => exact movccInt_spec hcond false src dest
  | bpcc predict xcc => exact movccInt_spec hcond xcc src dest
  | fbfcc => exact movccFloat_spec hcond 0 src dest
  | fbpfcc predict n => exact movccFloat_spec hcond n src dest
  | bpr predict rs1 => exact movr_spec hcond.1 hcond.2 rs1 src dest

/-! ## What the original branch does -/

def Branch.destination (b : Branch) (launch : Kptr) : Kptr :=
  launch + BitVec.ofInt 64 b.offsetNBytes

/-- Where a conditional branch leads, and how often its delay-slot instruction runs. -/
def Branch.outcome (b : Branch) (launch : Kptr) (taken : Bool) : Kptr × Nat :=
  if taken then (b.destination launch, 1) else (launch + 8, if b.annul then 0 else 1)

theorem Branch.isAlways_eq_false (h : b.reallyConditional) : b.isAlways = false := by
  obtain ⟨kind, condition, annul, offset⟩ := b
  cases kind <;> simp_all [reallyConditional, isAlways]

theorem add_four_four (p : Kptr) : p + 4 + 4 = p + 8 := by
  rw [BitVec.add_assoc]
  rfl

variable {ρ : Type u} (sem : Sem ρ)

section ConditionalMove

variable {r₁ r₂ : Reg}

/-- The state with the first register overwritten by the second, if the branch is taken. -/
def Branch.select (b : Branch) (r₁ r₂ : Reg) (σ : Arch ρ) : Arch ρ :=
  if σ.holds b.kind.tested b.condition then σ.write r₁ (σ.read r₂) else σ

theorem cfi2ConditionalMove_spec (hb : b.Valid) (r₁ r₂ : Reg) :
    ∃ w, cfi2ConditionalMove b r₂ r₁ = some w ∧ Line sem [w] (b.select r₁ r₂) := by
  obtain ⟨w, hw, hd⟩ := decode_cfi2ConditionalMove hb r₂ r₁
  exact ⟨w, hw, Line.single (by rw [hd]; rfl) fun pc σ => by simp [exec, hd, select]⟩

/-- Only dead registers change. -/
theorem Branch.sameExcept_select {F : Set Reg} {σ σ₁ : Arch ρ} (h : SameExcept F σ σ₁)
    (hr₁ : r₁ ∈ F) : SameExcept F σ (b.select r₁ r₂ σ₁) := by
  rw [select]
  split
  · exact h.trans (SameExcept.write hr₁ _)
  · exact h

/-- With both destinations loaded, the first register gets that of the outcome. -/
theorem Branch.read_select {σ σ₁ : Arch ρ} (h₁ : r₁ ≠ Reg.g0) (h : SameExcept {r₁, r₂} σ σ₁)
    (htested : ∀ r, b.kind.tested = .reg r → r ≠ r₁ ∧ r ≠ r₂) :
    (b.select r₁ r₂ σ₁).read r₁ =
      if σ.holds b.kind.tested b.condition then σ₁.read r₂ else σ₁.read r₁ := by
  rw [select, h.holds_eq (fun r hr => by simpa using htested r hr) b.condition]
  split
  · exact Arch.read_write_self _ h₁ _
  · rfl

end ConditionalMove

section Original

variable {w delay : Word} {b : Branch} {launch : Kptr} {code : Code}

/-- **A branch and the instruction after it.** With the annul bit set, that instruction is
skipped if the branch is not taken, or is taken always. -/
theorem Reaches.branch {slot : Slot} (hd : decode w = .branch b)
    (hplain : (decode slot.word).isPlain) (hcode : Holds code launch [newSlot w, slot])
    {σ : Arch ρ} {taken : Bool} (htaken : σ.holds b.kind.tested b.condition = taken) (k : Nat) :
    let next := if taken then b.destination launch else launch + 8
    Reaches sem code (seq launch σ k)
      (if b.annul && (!taken || b.isAlways) then seq next σ k
      else seq next (exec sem slot.word (launch + 4) σ) (k + slot.isDelay.toNat)) := by
  have hbranch : ∀ {pc npc}, branchTo b taken launch (launch + 4) = (pc, npc) →
      step sem code (seq launch σ k) = some ⟨pc, npc, σ, k⟩ :=
    fun hto => step_branch hcode.head hd (htaken ▸ hto)
  have h4 := add_four_four launch
  have h8 : launch + 4 + 8 = launch + 8 + 4 := by bv_omega
  intro next
  by_cases hannul : (b.annul && (!taken || b.isAlways)) = true
  · rw [if_pos hannul]
    refine Reaches.single (hbranch ?_)
    cases taken <;> simp_all [next, branchTo, destination]
  · rw [if_neg hannul]
    refine (Reaches.single (hbranch ?_)).tail (step_plain hcode.tail.head hplain)
    cases taken <;> simp_all [next, branchTo, destination]

/-- **The outcome is what the machine does** with the branch and its delay slot in place. -/
theorem original_outcome (hd : decode w = .branch b) (hreal : b.reallyConditional)
    (hplain : (decode delay).isPlain) (hcode : Holds code launch [newSlot w, delaySlot delay])
    (σ : Arch ρ) (k : Nat) :
    let out := b.outcome launch (σ.holds b.kind.tested b.condition)
    Reaches sem code (seq launch σ k)
      (seq out.1 (if out.2 = 0 then σ else exec sem delay (launch + 4) σ) (k + out.2)) := by
  intro out
  have hrun := Reaches.branch sem hd hplain hcode (σ := σ) rfl k
  cases htaken : σ.holds b.kind.tested b.condition <;> cases hannul : b.annul <;>
    simpa [out, outcome, htaken, hannul, isAlways_eq_false hreal, delaySlot] using hrun

end Original

/-! ## Branches that can be taken -/

/-- A branch on `%g0` whose test fails for zero. -/
def Branch.neverTaken (b : Branch) : Bool :=
  match b.kind with
  | .bpr _ rs1 => rs1 = Reg.g0 ∧ testReg b.condition 0 = false
  | _ => false

theorem Branch.holds_eq_false (h : b.neverTaken = true) (σ : Arch ρ) :
    σ.holds b.kind.tested b.condition = false := by
  obtain ⟨kind, condition, annul, offset⟩ := b
  cases kind with
  | bpr predict rs1 =>
    obtain ⟨rfl, htest⟩ : rs1 = Reg.g0 ∧ testReg condition 0 = false := by
      simpa [neverTaken] using h
    simpa [tested, Arch.holds, Arch.read] using htest
  | _ => cases h

/-- Every other condition of an integer branch holds of some condition codes. -/
theorem exists_testIcc {cond : Nat} (hlt : cond < 16) (hne : cond ≠ 0) :
    ∃ cc, testIcc cond cc = true := by
  have key : ∀ c : Fin 16, c ≠ 0 → testIcc c ⟨false, false, false, false⟩ = true ∨
      testIcc c ⟨true, true, false, true⟩ = true ∨
        testIcc c ⟨false, false, true, false⟩ = true := by
    decide
  rcases key ⟨cond, hlt⟩ (by simpa using hne) with h | h | h <;> exact ⟨_, h⟩

theorem exists_testFcc {cond : Nat} (hlt : cond < 16) (hne : cond ≠ 0) :
    ∃ result, testFcc cond result = true := by
  have key : ∀ c : Fin 16, c ≠ 0 → ∃ result, testFcc c result = true := by decide
  exact key ⟨cond, hlt⟩ (by simpa using hne)

/-- Every value of `testReg` is taken at 0, 1 or -1. -/
theorem exists_testReg {cond : Nat} (hlt : cond < 8) (hne : cond % 4 ≠ 0) (value : Bool) :
    ∃ x : BitVec 64, (x.toNat % 4 ≠ 0 ∨ x = 0) ∧ testReg cond x = value := by
  have key : ∀ c : Fin 8, c.val % 4 ≠ 0 → ∀ v : Bool, testReg c 0 = v ∨ testReg c 1 = v ∨
      testReg c (-1) = v := by
    decide
  rcases key ⟨cond, hlt⟩ hne value with h | h | h
  · exact ⟨0, .inr rfl, h⟩
  · exact ⟨1, .inl (by decide), h⟩
  · exact ⟨-1, .inl (by decide), h⟩

/-- A state in which all registers have one value, and all condition codes another. -/
def uniformState [Inhabited ρ] (x : BitVec 64) (cc : CondCodes) (result : Fin 4) : Arch ρ :=
  ⟨fun _ => x, 0, cc, cc, fun _ => result, default⟩

theorem read_uniformState [Inhabited ρ] {r : Reg} (hr : r ≠ Reg.g0) (x : BitVec 64) (cc : CondCodes)
    (result : Fin 4) : (uniformState x cc result : Arch ρ).read r = x := if_neg hr

/-- Writing the same value again changes nothing. -/
theorem write_uniformState [Inhabited ρ] (r : Reg) (x : BitVec 64) (cc : CondCodes)
    (result : Fin 4) :
    (uniformState x cc result : Arch ρ).write r x = uniformState x cc result := by
  rw [Arch.write]
  split
  · rfl
  · simp [uniformState]

theorem exists_taken [Inhabited ρ] (hb : b.Valid) (hreal : b.reallyConditional)
    (hnever : b.neverTaken = false) : ∃ σ : Arch ρ, σ.holds b.kind.tested b.condition = true := by
  obtain ⟨kind, condition, annul, offset⟩ := b
  have hcond := hb.condition
  cases kind with
  | bicc | bpcc =>
    obtain ⟨cc, h⟩ := exists_testIcc hcond (by simp_all [reallyConditional])
    exact ⟨uniformState 0 cc 0, by simpa [tested, Arch.holds, uniformState] using h⟩
  | fbfcc | fbpfcc =>
    obtain ⟨result, h⟩ := exists_testFcc hcond (by simp_all [reallyConditional])
    exact ⟨uniformState 0 ⟨false, false, false, false⟩ result, h⟩
  | bpr predict rs1 =>
    rcases eq_or_ne rs1 Reg.g0 with rfl | hrs1
    · refine ⟨uniformState 0 ⟨false, false, false, false⟩ 0, ?_⟩
      simpa [neverTaken, tested, Arch.holds, Arch.read] using hnever
    · obtain ⟨x, -, h⟩ := exists_testReg hcond.1 hcond.2 true
      refine ⟨uniformState x ⟨false, false, false, false⟩ 0, ?_⟩
      simpa [tested, Arch.holds, Arch.read, hrs1, uniformState] using h

/-! ## Reading the program counter -/

/-- `rd %pc, rd` -/
def isRdPc (w : Word) : Bool := field w 30 2 = 2 ∧ field w 19 6 = 0x28 ∧ field w 14 5 = 5

/-- Of the instructions that do not transfer control, only `rd %pc` depends on its address. -/
structure OnlyRdPcReadsPc : Prop where
  rdPc : ∀ w pc σ, isRdPc w = true → sem w pc σ = σ.write (regField w 25) pc
  other : ∀ w pc pc' σ, isRdPc w = false → sem w pc σ = sem w pc' σ

/-- The instruction puts its address into a register that is not in `G`. -/
def SeesPc (w : Word) (G : Set Reg) : Prop :=
  isRdPc w = true ∧ regField w 25 ≠ Reg.g0 ∧ regField w 25 ∉ G

section SeesPc

variable {sem : Sem ρ} {w : Word} {G : Set Reg}

theorem decode_of_isRdPc (h : isRdPc w = true) : decode w = .plain := by
  obtain ⟨hop, hop3, -⟩ : field w 30 2 = 2 ∧ field w 19 6 = 0x28 ∧ field w 14 5 = 5 := by
    simpa [isRdPc] using h
  simp [decode, decodeFormat3, hop, hop3]

theorem OnlyRdPcReadsPc.exec_rdPc (hsem : OnlyRdPcReadsPc sem) (h : isRdPc w = true) (pc : Kptr)
    (σ : Arch ρ) : exec sem w pc σ = σ.write (regField w 25) pc := by
  simp [exec, decode_of_isRdPc h, hsem.rdPc w pc σ h]

/-- An instruction that does not see its address does the same at every address. -/
theorem OnlyRdPcReadsPc.sameExcept_exec (hsem : OnlyRdPcReadsPc sem) (h : ¬ SeesPc w G)
    (pc pc' : Kptr) (σ : Arch ρ) : SameExcept G (exec sem w pc σ) (exec sem w pc' σ) := by
  cases hrd : isRdPc w with
  | false =>
    have hexec : exec sem w pc σ = exec sem w pc' σ := by
      simp [exec, hsem.other w pc pc' σ hrd]
    rw [hexec]
    exact SameExcept.refl _ _
  | true =>
    rw [hsem.exec_rdPc hrd, hsem.exec_rdPc hrd]
    by_cases h0 : regField w 25 = Reg.g0
    · simp only [h0, Arch.write, if_true]
      exact SameExcept.refl _ _
    · have hmem : regField w 25 ∈ G := by
        by_contra hG
        exact h ⟨hrd, h0, hG⟩
      have := SameExcept.write (σ := σ.write (regField w 25) pc) hmem pc'
      rwa [Arch.write_write] at this

end SeesPc

/-- A machine that knows `rd %pc`, and whose other instructions do nothing. -/
def rdPcSem : Sem Unit := fun w pc σ => if isRdPc w then σ.write (regField w 25) pc else σ

theorem onlyRdPcReadsPc_rdPcSem : OnlyRdPcReadsPc rdPcSem where
  rdPc w pc σ h := by simp [rdPcSem, h]
  other w pc pc' σ h := by simp [rdPcSem, h]

theorem not_seesPc_nop : ¬ SeesPc 0x01000000 ∅ := fun h => absurd h.1 (by decide)

/-! ## What a relocated branch must do -/

/-- The state changes as by `n` runs of the delay-slot instruction at the address `pc`, at most
one, apart from the registers of `F`. -/
def RunsDelay (delay : Word) (pc : Kptr) (F : Set Reg) (n : Nat) (σ σ' : Arch ρ) : Prop :=
  match n with
  | 0 => SameExcept F σ σ'
  | _ => ∃ σ₁, SameExcept F σ σ₁ ∧ SameExcept ∅ (exec sem delay pc σ₁) σ'

/-- The relocated code has the outcome of the original branch from every state. The original runs
its delay-slot instruction right after the launch address. -/
def PreservesBranch (patch : Kptr) (slots : List Slot) (launch : Kptr) (b : Branch) (delay : Word)
    (F : Set Reg) : Prop :=
  ∀ σ : Arch ρ, ∃ σ', let out := b.outcome launch (σ.holds b.kind.tested b.condition)
    Reaches sem (blockCode patch slots) (Cpu.seq patch σ 0) (Cpu.seq out.1 σ' out.2) ∧
      RunsDelay sem delay (launch + 4) F out.2 σ σ'

/-- The same, with the delay-slot instruction run at an address of the patch. -/
def RelocatesBranch (patch : Kptr) (slots : List Slot) (launch : Kptr) (b : Branch) (delay : Word)
    (F : Set Reg) : Prop :=
  ∀ σ : Arch ρ, ∃ σ' pc, let out := b.outcome launch (σ.holds b.kind.tested b.condition)
    Reaches sem (blockCode patch slots) (Cpu.seq patch σ 0) (Cpu.seq out.1 σ' out.2) ∧
      RunsDelay sem delay pc F out.2 σ σ' ∧
      (out.2 ≠ 0 → blockCode patch slots pc = some (delaySlot delay))

/-- The branch is annulled and never taken, so that its delay-slot instruction does not run. -/
def Branch.neverRunsDelay (b : Branch) : Bool := b.annul && b.neverTaken

/-- Neither the original code nor a destination of the branch is in the `n` bytes of the patch. -/
structure Branch.IsFresh (b : Branch) (patch launch : Kptr) (n : Nat) : Prop where
  destination : n ≤ (b.destination launch - patch).toNat
  next : n ≤ (launch + 8 - patch).toNat
  delay : n ≤ (launch + 4 - patch).toNat

section Moved

variable {sem : Sem ρ} {delay : Word} {F : Set Reg} {σ σ' : Arch ρ} {patch launch : Kptr}
  {slots : List Slot}

theorem RunsDelay.move (hsem : OnlyRdPcReadsPc sem) (hsees : ¬ SeesPc delay ∅) {pc : Kptr}
    {n : Nat} (pc' : Kptr) (h : RunsDelay sem delay pc F n σ σ') :
    RunsDelay sem delay pc' F n σ σ' := by
  cases n with
  | zero => exact h
  | succ n =>
    obtain ⟨σ₁, hbefore, hafter⟩ := h
    exact ⟨σ₁, hbefore, (hsem.sameExcept_exec hsees pc' pc σ₁).trans hafter⟩

/-- After a run an instruction that sees its address has left it in a register. -/
theorem RunsDelay.read_of_seesPc (hsem : OnlyRdPcReadsPc sem) (hsees : SeesPc delay ∅) {pc : Kptr}
    (h : RunsDelay sem delay pc F 1 σ σ') : σ'.read (regField delay 25) = pc := by
  obtain ⟨hrd, h0, hnone⟩ := hsees
  obtain ⟨σ₁, -, hafter⟩ := h
  rw [hafter.read _ hnone, hsem.exec_rdPc hrd, Arch.read_write_self _ h0]

theorem Branch.outcome_of_neverRunsDelay (h : b.neverRunsDelay = true) (launch : Kptr)
    (σ : Arch ρ) : (b.outcome launch (σ.holds b.kind.tested b.condition)).2 = 0 := by
  obtain ⟨hannul, hnever⟩ := Bool.and_eq_true_iff.mp h
  rw [holds_eq_false hnever]
  simp [outcome, hannul]

/-- Any other branch runs it from some state. -/
theorem Branch.exists_runsDelay [Inhabited ρ] (hb : b.Valid) (hreal : b.reallyConditional)
    (h : b.neverRunsDelay = false) (launch : Kptr) :
    ∃ σ : Arch ρ, (b.outcome launch (σ.holds b.kind.tested b.condition)).2 = 1 := by
  cases hannul : b.annul with
  | false =>
    refine ⟨uniformState 0 ⟨false, false, false, false⟩ 0, ?_⟩
    simp only [outcome, hannul]
    split <;> rfl
  | true =>
    have hnever : b.neverTaken = false := by simpa [neverRunsDelay, hannul] using h
    obtain ⟨σ, hσ⟩ := exists_taken (ρ := ρ) hb hreal hnever
    exact ⟨σ, by rw [hσ]; rfl⟩

theorem Branch.IsFresh.outcome {n : Nat} (h : b.IsFresh patch launch n) (taken : Bool) :
    n ≤ ((b.outcome launch taken).1 - patch).toNat := by
  cases taken with
  | true => exact h.destination
  | false => exact h.next

theorem Branch.IsFresh.mono {n m : Nat} (h : b.IsFresh patch launch n) (hm : m ≤ n) :
    b.IsFresh patch launch m :=
  ⟨hm.trans h.destination, hm.trans h.next, hm.trans h.delay⟩

/-- **A relocated branch is preserved** exactly if its delay-slot instruction does not see its
address, or never runs. -/
theorem RelocatesBranch.preserves_iff [Inhabited ρ]
    (h : RelocatesBranch sem patch slots launch b delay F) (hsem : OnlyRdPcReadsPc sem)
    (hb : b.Valid) (hreal : b.reallyConditional)
    (hfresh : SeesPc delay ∅ → b.IsFresh patch launch (4 * slots.length)) :
    PreservesBranch sem patch slots launch b delay F ↔
      ¬ SeesPc delay ∅ ∨ b.neverRunsDelay = true := by
  constructor
  · intro hpreserves
    by_contra hnot
    obtain ⟨hsees, hruns⟩ := not_or.mp hnot
    have hsees := not_not.mp hsees
    obtain ⟨σ, hone⟩ := exists_runsDelay (ρ := ρ) hb hreal (Bool.eq_false_of_not_eq_true hruns)
      launch
    obtain ⟨σ₁, pc, hrun, hdelay, hat⟩ := h σ
    obtain ⟨σ₂, hrun', hdelay'⟩ := hpreserves σ
    simp only [hone] at hrun hdelay hat hrun' hdelay'
    -- both runs end outside the patch, so in one state
    have hend : blockCode patch slots _ = none :=
      blockCode_eq_none ((hfresh hsees).outcome (σ.holds b.kind.tested b.condition))
    obtain rfl : σ₁ = σ₂ := congrArg Cpu.arch (hrun.end_unique hrun' hend hend)
    have hsame : pc = launch + 4 :=
      (hdelay.read_of_seesPc hsem hsees).symm.trans (hdelay'.read_of_seesPc hsem hsees)
    rw [hsame, blockCode_eq_none (hfresh hsees).delay] at hat
    cases hat one_ne_zero
  · intro hunseen σ
    obtain ⟨σ', pc, hrun, hdelay, -⟩ := h σ
    refine ⟨σ', hrun, ?_⟩
    rcases hunseen with hsees | hnever
    · exact hdelay.move hsem hsees (launch + 4)
    · rw [outcome_of_neverRunsDelay hnever] at hdelay ⊢
      exact hdelay

end Moved

/-! ## Jumps through a register

The layouts that end in one indirect jump first compute, in a straight line, what it jumps
through. The delay-slot instruction is in its delay slot. -/

structure JumpLayout (f : Arch ρ → Arch ρ) (rs1 : Reg) (addr : Operand) (delay : Word)
    (slots : List Slot) where
  line : List Word
  jump : Word
  eq : slots = (line ++ [jump]).map newSlot ++ [delaySlot delay]
  run_line : Line sem line f
  decode_jump : decode jump = .jmpl Reg.g0 rs1 addr

namespace JumpLayout

variable {sem : Sem ρ} {f : Arch ρ → Arch ρ} {rs1 : Reg} {addr : Operand} {delay : Word}
  {slots : List Slot} {code : Code} {patch t : Kptr} (l : JumpLayout sem f rs1 addr delay slots)
include l

theorem holds_tail (hcode : Holds code patch slots) : Holds code patch (l.line.map newSlot) ∧
      Holds code (patch + BitVec.ofNat 64 (4 * l.line.length))
        [newSlot l.jump, delaySlot delay] := by
  have heq := l.eq
  rw [heq, List.map_append, List.append_assoc] at hcode
  simpa using hcode.append

theorem step_jump {q npc : Kptr} (hcode : Holds code q [newSlot l.jump, delaySlot delay])
    {σ : Arch ρ} {k : Nat} (ht : σ.read rs1 + σ.operand addr = t) (halign : t.toNat % 4 = 0) :
    step sem code ⟨q, npc, σ, k⟩ = some ⟨npc, t, σ, k⟩ :=
  step_jmpl hcode.head l.decode_jump ht halign

/-- The code leads to wherever the registers point after the straight line. -/
theorem run (hcode : Holds code patch slots) (hplain : (decode delay).isPlain) {σ : Arch ρ}
    (ht : (f σ).read rs1 + (f σ).operand addr = t) (halign : t.toNat % 4 = 0) :
    ∃ pc, Reaches sem code (seq patch σ 0) (seq t (exec sem delay pc (f σ)) 1) ∧
      code pc = some (delaySlot delay) := by
  obtain ⟨hline, hrest⟩ := l.holds_tail hcode
  have hdelay : step sem code ⟨_, t, f σ, 0⟩ = some (seq t (exec sem delay _ (f σ)) 1) :=
    step_plain hrest.tail.head hplain
  exact ⟨_, ((l.run_line.run code patch σ 0 hline).tail (l.step_jump hrest ht halign)).tail hdelay,
    hrest.tail.head⟩

end JumpLayout

/-! ## The pieces of a layout -/

section Pieces

variable {b : Branch} {patch launch : Kptr} {code : Code}

/-- The relocated branch and its `nop`: on to the displacement if taken, else straight on. -/
theorem emitBranchAndNop_spec (hb : b.Valid) {disp : Nat} (h4 : disp % 4 = 0)
    (hdisp : disp < 2 ^ 17) :
    ∃ slots, emitBranchAndNop b disp = some slots ∧ numBytes slots = 8 ∧
      ∀ code p σ k, Holds code p slots → Reaches sem code (seq p σ k)
        (seq (if σ.holds b.kind.tested b.condition then p + BitVec.ofNat 64 disp else p + 8)
          σ k) := by
  obtain ⟨br, hbr, hd⟩ := emitBranch_spec hb (show (disp : Int) % 4 = 0 by omega) (by omega)
    (by omega)
  obtain ⟨nop, hnop, hdn⟩ := nop_spec
  refine ⟨[newSlot br, newSlot nop], by simp only [emitBranchAndNop, hbr, hnop]; rfl, rfl,
    fun code p σ k hcode => ?_⟩
  have hplain : (decode nop).isPlain := by rw [hdn]; rfl
  simpa [exec_nop sem hdn, destination, newSlot] using
    Reaches.branch sem hd hplain hcode (σ := σ) rfl k

theorem destination_aligned (hb : b.Valid) (hlaunch : launch.toNat % 4 = 0) :
    (b.destination launch).toNat % 4 = 0 := by
  have h4 := hb.aligned
  rw [destination, toNat_add, toNat_ofInt]
  omega

/-- A branch from below 4 GB leads to an address of 44 bits unless it wraps around below zero. -/
theorem destination_lt_iff (hb : b.Valid) (hlaunch : launch.toNat < 2 ^ 32) :
    (b.destination launch).toNat < 2 ^ 44 ↔ 0 ≤ (launch.toNat : Int) + b.offsetNBytes := by
  have hlo := hb.lower
  have hhi := hb.upper
  rw [destination, toNat_add, toNat_ofInt]
  omega

theorem destination_toNat (hb : b.Valid) (hlaunch : launch.toNat < 2 ^ 32)
    (h : 0 ≤ (launch.toNat : Int) + b.offsetNBytes) :
    ((b.destination launch).toNat : Int) = launch.toNat + b.offsetNBytes := by
  have hhi := hb.upper
  rw [destination, toNat_add, toNat_ofInt]
  omega

theorem add_aligned {a : Kptr} {m : Nat} (ha : a.toNat % 4 = 0) (hm : m % 4 = 0) :
    (a + BitVec.ofNat 64 m).toNat % 4 = 0 := by
  rw [toNat_add, toNat_ofNat]
  omega

variable {avail : SparcRegSet}

/-- A jump that was allocated and generated, with its size and what its code does. -/
theorem usualJump_of_generate {f t : Kptr} {isOpen : Bool} {j : UsualJump}
    {ws : List Word} (hf : f.toNat % 4 = 0) (ht : t.toNat % 4 = 0)
    (halloc : UsualJump.allocateAppropriate f t avail isOpen = .ok j)
    (hgen : j.generate = some ws) :
    jumpNumBytes f t avail isOpen = some j.numInsnBytes ∧ j.numInsnBytes = 4 * ws.length ∧
      if isOpen then JumpsOpen sem f ws t (intRegs avail)
        else Jumps sem f ws t (intRegs avail) := by
  obtain ⟨hsome, hnone⟩ := allocateAppropriate_agrees sem hf ht
  rcases hn : jumpNumBytes f t avail isOpen with _ | n
  · rw [hnone hn j halloc] at hgen
    cases hgen
  · obtain ⟨j', hj', ws', hws', hlen, hnum, hjump⟩ := hsome n hn
    obtain rfl : j = j' := Except.ok.inj (halloc.symm.trans hj')
    obtain rfl : ws = ws' := Option.mem_unique hgen hws'
    exact ⟨by rw [hnum], hnum.trans hlen.symm, hjump⟩

theorem jumpNumBytes_le_24 {f t : Kptr} {isOpen : Bool} {n : Nat}
    (h : jumpNumBytes f t avail isOpen = some n) : n ≤ 24 := by
  refine le_trans (jumpNumBytes_le h) ?_
  simp only [maxNumInsnBytes, UsualJump.maxNumInsnBytesNoFreeRegsNoOpenDS,
    UsualJump.maxNumInsnBytes1FreeReg]
  split_ifs <;> decide

/-- A jump that has a size is allocated and generated. -/
theorem usualJump_of_size {f t : Kptr} {isOpen : Bool} {n : Nat}
    (hf : f.toNat % 4 = 0) (ht : t.toNat % 4 = 0) (hn : jumpNumBytes f t avail isOpen = some n) :
    ∃ j ws, UsualJump.allocateAppropriate f t avail isOpen = .ok j ∧ j.generate = some ws ∧
      j.numInsnBytes = n ∧ 4 * ws.length = n := by
  obtain ⟨j, hj, ws, hws, hlen, hnum, -⟩ := (allocateAppropriate_agrees idleSem hf ht).1 n hn
  exact ⟨j, ws, hj, hws, hnum, hlen⟩

/-- The bytes of the delay-slot instruction in the code for the untaken case. -/
def delayBytes (b : Branch) : Nat := if b.annul then 0 else 4

theorem delayBytes_mod (b : Branch) : delayBytes b % 4 = 0 := by
  rw [delayBytes]
  split <;> rfl

theorem delayBytes_le (b : Branch) : delayBytes b ≤ 4 := by
  rw [delayBytes]
  split <;> decide

theorem numBytes_untakenDelay (b : Branch) (delay : Word) :
    numBytes (if b.annul then [] else [delaySlot delay]) = delayBytes b := by
  rw [delayBytes]
  split <;> rfl

theorem numBytes_append (l l' : List Slot) : numBytes (l ++ l') = numBytes l + numBytes l' := by
  rw [numBytes, List.length_append, Nat.mul_add, ← numBytes, ← numBytes]

theorem numBytes_map_newSlot (ws : List Word) : numBytes (ws.map newSlot) = 4 * ws.length := by
  rw [numBytes, List.length_map]

theorem asserted_eq_ok {α : Type} {o : Option α} {a : α} :
    UsualJump.asserted o = .ok a ↔ o = some a := by
  cases o <;> simp [UsualJump.asserted]

end Pieces

end Kerninst
