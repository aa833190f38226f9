import Kerninst.Sparc.CondBranch

/-!
# jmpl

A `jmpl` jumps to the sum of a register and an operand, and leaves its own address in the
link register. The relocated code loads the launch address into the link register and then
jumps without a link. If the link register is also an address register the load destroys
the address, so its value is first copied to a free register; but the jump is built from the
original registers, not from the copies.

So a `jmpl` is preserved exactly if its link register is `%g0` or no address register, and if its
delay-slot instruction does not see its address (`jmplLRAndR_preserves_iff`). If the link register
is an address register, some values send the relocated code elsewhere
(`JmplLRAndR.not_preserves`): all registers get the value that makes the original jump lead out of
the patch, and the code of the patch cannot come to that address without running the delay slot
twice.
-/

namespace Kerninst

open JmplLRAndR List Option Arch
open Cpu (seq pc)
open Reg (g0 o7)
open BitVec (ofNat ofInt)

universe u

variable {ρ : Type u} (sem : Sem ρ)

/-! ## What the original does -/

section Original

variable {w delay : Word} {link rs1 : Reg} {addr : Operand} {launch : Kptr} {code : Code}

/-- What the machine does with the `jmpl` and its delay slot in place. -/
theorem original_jmpl (hd : decode w = .jmpl link rs1 addr) (hplain : (decode delay).isPlain)
    (hcode : Holds code launch [newSlot w, delaySlot delay]) (σ : Arch ρ) (k : Nat)
    (halign : (σ.read rs1 + σ.operand addr).toNat % 4 = 0) :
    Reaches sem code (seq launch σ k) (seq (σ.read rs1 + σ.operand addr)
      (exec sem delay (launch + 4) (σ.write link launch)) (k + 1)) := by
  have hjump : step sem code (seq launch σ k) =
      some ⟨launch + 4, σ.read rs1 + σ.operand addr, σ.write link launch, k⟩ :=
    step_jmpl hcode.head hd rfl halign
  exact (Reaches.single hjump).tail (step_plain hcode.tail.head hplain)

/-- **The relocated code does what the `jmpl` does** (`original_jmpl`), from every state in which
that does not trap: it comes to the address that the `jmpl` computes, after one run of the
delay-slot instruction, as at its own address, from a state that has the launch address in the
link register and is otherwise as before, apart from the other registers of `F`. -/
def PreservesJmpl (patch : Kptr) (slots : List Slot) (launch : Kptr) (link rs1 : Reg)
    (addr : Operand) (delay : Word) (F : Set Reg) : Prop :=
  ∀ σ : Arch ρ, (σ.read rs1 + σ.operand addr).toNat % 4 = 0 → ∃ σ₁ σ',
    Reaches sem (blockCode patch slots) (Cpu.seq patch σ 0)
      (Cpu.seq (σ.read rs1 + σ.operand addr) σ' 1) ∧
    SameExcept (F \ {link}) (σ.write link launch) σ₁ ∧
    SameExcept ∅ (exec sem delay (launch + 4) σ₁) σ'

end Original

variable {slots : List Slot}

/-! ## The code that is emitted -/

namespace JmplLRAndR

variable {w delay : Word} {link rs1 : Reg} {addr : Operand} {launch : Kptr} {before : SparcRegSet}

theorem emitJump_spec (hd : decode w = .jmpl link rs1 addr) :
    ∃ jump, emitJump rs1 addr = some jump ∧ decode jump = .jmpl Reg.g0 rs1 addr := by
  cases addr with
  | simm13 imm =>
    obtain ⟨hlo, hhi⟩ := simm13_of_decode (.inl hd)
    exact SparcInstr.jmplImm_spec g0 rs1 hlo hhi
  | reg rs2 => exact SparcInstr.jumpRegReg_spec rs1 rs2

/-- A register that is not the link register is not copied. -/
theorem saveDest_of_ne {dest : Reg} (h : link ≠ dest) (free : List Reg) :
    saveDest link dest free = some ([], free) := if_neg h

/-- The link register is `%g0`, or it can be loaded without losing an address register. -/
def LinkSeparate (launch : Kptr) (link rs1 : Reg) (addr : Operand) : Prop :=
  link = Reg.g0 ∨ launch.toNat < 2 ^ 44 ∧ link ≠ rs1 ∧ link ≠ destReg2 addr

/-- Then nothing but the link register changes. -/
theorem exists_emit (delay : Word) (before : SparcRegSet) (hd : decode w = .jmpl link rs1 addr)
    (h : LinkSeparate launch link rs1 addr) :
    ∃ slots, emit launch link rs1 addr delay before = some slots ∧
      numBytes slots ≤ conservativeNumInsnBytesForRAndR ∧
      Nonempty (JumpLayout sem (fun σ => σ.write link launch) rs1 addr delay slots) := by
  obtain ⟨jump, hjump, hdj⟩ := emitJump_spec hd
  rcases eq_or_ne link g0 with rfl | h0
  · refine ⟨[newSlot jump, delaySlot delay], ?_, (by decide : 4 * 2 ≤ 6 * 4),
      ⟨⟨[], jump, rfl, Line.nil sem, hdj⟩⟩⟩
    simp only [emit, setLink, if_true, hjump, run_do]
    rfl
  · obtain ⟨hlaunch, h₁, h₂⟩ := h.resolve_left h0
    obtain ⟨load, hload, hlen, -, hline⟩ := genImmAddr_spec sem link hlaunch
    have hsize : numBytes ((load ++ [jump]).map newSlot ++ [delaySlot delay]) ≤
        conservativeNumInsnBytesForRAndR := by
      have hshort := immAddrLen_le launch
      rw [numBytes_append, numBytes_map_newSlot, length_append, hlen]
      simp only [length_singleton, numBytes, conservativeNumInsnBytesForRAndR]
      omega
    refine ⟨_, ?_, hsize, ⟨⟨load, jump, rfl, hline, hdj⟩⟩⟩
    simp only [emit, setLink, if_neg h0, saveDest_of_ne h₁, saveDest_of_ne h₂, hload, hjump,
      check_pos hsize, run_do, nil_append]

theorem LinkSeparate.target_eq (h : LinkSeparate launch link rs1 addr) (σ : Arch ρ) :
    (σ.write link launch).read rs1 + (σ.write link launch).operand addr =
      σ.read rs1 + σ.operand addr := by
  rcases h with rfl | ⟨-, h₁, h₂⟩
  · rfl
  · rw [read_write_of_ne _ h₁.symm]
    cases addr with
    | simm13 imm => rfl
    | reg rs2 =>
      have hne : rs2 ≠ link := h₂.symm
      rw [operand, operand, read_write_of_ne _ hne]

section Separate

variable {sem} {patch : Kptr} (hsem : OnlyRdPcReadsPc sem) (h : LinkSeparate launch link rs1 addr)
  (hsize : 4 * slots.length < 2 ^ 64) (hplain : (decode delay).isPlain)
  (l : JumpLayout sem (fun σ => σ.write link launch) rs1 addr delay slots)
include hsem h hsize hplain l

/-- **A link register of its own keeps the address.** -/
theorem preserves (F : Set Reg) (hunseen : ¬ SeesPc delay ∅) :
    PreservesJmpl sem patch slots launch link rs1 addr delay F := by
  intro σ halign
  obtain ⟨pc, hrun, -⟩ := l.run (holds_blockCode patch hsize) hplain (h.target_eq σ) halign
  exact ⟨_, _, hrun, SameExcept.refl _ _, hsem.sameExcept_exec hunseen _ _ _⟩

/-- **`rd %pc` in the delay slot sees the patch**, if the jump can lead out of it. -/
theorem not_preserves_of_seesPc {F : Set Reg} (hsees : SeesPc delay ∅)
    (hfresh : 4 * slots.length ≤ (launch + 4 - patch).toNat) {σ : Arch ρ}
    (halign : (σ.read rs1 + σ.operand addr).toNat % 4 = 0)
    (hout : 4 * slots.length ≤ (σ.read rs1 + σ.operand addr - patch).toNat) :
    ¬ PreservesJmpl sem patch slots launch link rs1 addr delay F := by
  intro hpreserves
  obtain ⟨hrd, h0, hnone⟩ := hsees
  obtain ⟨pc, hrun, hat⟩ := l.run (holds_blockCode patch hsize) hplain (h.target_eq σ) halign
  obtain ⟨σ₁, σ', hrun', -, hafter⟩ := hpreserves σ halign
  have hend := blockCode_eq_none hout
  obtain rfl := congrArg Cpu.arch (hrun.end_unique hrun' hend hend)
  have hread := hafter.read _ hnone
  simp only [seq, hsem.exec_rdPc hrd, read_write_self _ h0] at hread
  rw [hread, blockCode_eq_none hfresh] at hat
  cases hat

end Separate

/-- A copy has no effect if all registers have the same value. -/
theorem saveDest_eq_some [Inhabited ρ] {dest : Reg} {free free' : List Reg} {ws : List Word}
    (h0 : link ≠ Reg.g0) (h : saveDest link dest free = some (ws, free')) :
    ∃ f : Arch ρ → Arch ρ, Line sem ws f ∧
      ∀ x cc result, f (uniformState x cc result) = uniformState x cc result := by
  rcases eq_or_ne link dest with rfl | hne
  · cases free with
    | nil => simp [saveDest] at h
    | cons newDest free =>
      obtain ⟨i, hi, hplain, hexec⟩ := line_mov sem link newDest
      simp only [saveDest, if_true, hi, run_do, some.injEq, Prod.mk.injEq] at h
      obtain ⟨rfl, -⟩ := h
      refine ⟨_, Line.single hplain hexec, fun x cc result => ?_⟩
      rw [read_uniformState h0, write_uniformState]
  · rw [saveDest_of_ne hne] at h
    obtain ⟨rfl, -⟩ := Prod.mk.inj (some.inj h)
    exact ⟨id, Line.nil sem, fun _ _ _ => rfl⟩

/-- Whatever is emitted jumps through the original registers, after the link register was
loaded. -/
theorem emit_eq_some [Inhabited ρ] (hd : decode w = .jmpl link rs1 addr)
    (h0 : link ≠ Reg.g0) (h : emit launch link rs1 addr delay before = some slots) :
    launch.toNat < 2 ^ 44 ∧ numBytes slots ≤ conservativeNumInsnBytesForRAndR ∧
      ∃ f : Arch ρ → Arch ρ, Nonempty (JumpLayout sem f rs1 addr delay slots) ∧
        ∀ x cc result, f (uniformState x cc result) =
          (uniformState x cc result).write link launch := by
  obtain ⟨jump', hjump', hdj⟩ := emitJump_spec hd
  simp only [emit, setLink, if_neg h0, Prod.exists, do_eq_some, check_eq_some] at h
  obtain ⟨-, ⟨mov₁, free, hmov₁, mov₂, free', hmov₂, load, hload, rfl⟩, jump, hjump, -, hsize,
    rfl⟩ := h
  obtain rfl : jump = jump' := mem_unique hjump hjump'
  have hlaunch := genImmAddr_fits hload
  obtain ⟨load', hload', -, -, hline⟩ := genImmAddr_spec sem link hlaunch
  obtain rfl : load = load' := mem_unique hload hload'
  obtain ⟨f₁, hline₁, hf₁⟩ := saveDest_eq_some sem h0 hmov₁
  obtain ⟨f₂, hline₂, hf₂⟩ := saveDest_eq_some sem h0 hmov₂
  refine ⟨hlaunch, hsize, _, ⟨⟨mov₁ ++ mov₂ ++ load, jump, rfl,
    (hline₁.append hline₂).append hline, hdj⟩⟩, fun x cc result => ?_⟩
  simp [hf₁, hf₂]

end JmplLRAndR

/-! ## Where the code can lead

The block is left only at its end, after the delay-slot instruction. So a run that comes back
into the block and leaves it again has run that instruction twice. -/

/-- The machine is in the block, and goes straight on unless the delay slot is next. -/
def InBlock (patch : Kptr) (slots : List Slot) (c : Cpu ρ) : Prop :=
  ∃ i, i < slots.length ∧ c.pc = patch + BitVec.ofNat 64 (4 * i) ∧
    (i + 1 < slots.length → c.npc = c.pc + 4)

theorem add_four_succ (p : Kptr) (i : Nat) :
    p + BitVec.ofNat 64 (4 * i) + 4 = p + BitVec.ofNat 64 (4 * (i + 1)) := by
  rw [Nat.mul_add_one, BitVec.ofNat_add, ← BitVec.add_assoc]
  rfl

namespace JumpLayout

variable {sem : Sem ρ} {f : Arch ρ → Arch ρ} {rs1 : Reg} {addr : Operand} {delay : Word}
  {slots : List Slot} {patch : Kptr} {c c' : Cpu ρ} (l : JumpLayout sem f rs1 addr delay slots)
include l

theorem length_eq : slots.length = l.line.length + 2 := by
  have heq := congrArg length l.eq
  simpa using heq

/-- The words before the jump do not transfer control. -/
theorem getElem?_line {i : Nat} (hi : i < l.line.length) :
    ∃ w, slots[i]? = some (newSlot w) ∧ (decode w).isPlain := by
  refine ⟨l.line[i], ?_, l.run_line.plain _ (getElem_mem hi)⟩
  have heq := congrArg (·[i]?) l.eq
  simp only [map_append, append_assoc] at heq
  rw [heq, getElem?_append_left (by simpa using hi)]
  simp [hi]

variable (hsize : 4 * slots.length < 2 ^ 64) (hplain : (decode delay).isPlain)
include hsize hplain

/-- **One step in the block** stays in it, or runs the delay slot. -/
theorem step_inBlock
    (hc : InBlock patch slots c) (hstep : step sem (blockCode patch slots) c = some c') :
    c.delays < c'.delays ∨ InBlock patch slots c' := by
  obtain ⟨pc, npc, σ, k⟩ := c
  obtain ⟨i, hi, hpc, hnpc⟩ := hc
  simp only at hpc hnpc
  have hlen := l.length_eq
  have hcode := holds_blockCode patch hsize
  have hrest := (l.holds_tail hcode).2
  have hnext : i + 1 < slots.length → npc = patch + ofNat 64 (4 * (i + 1)) := by
    intro hlt
    rw [hnpc hlt, hpc, add_four_succ]
  rcases (by omega : i < l.line.length ∨ i = l.line.length ∨ i = l.line.length + 1) with
    hline | rfl | rfl
  · -- a word of the straight line
    obtain ⟨w, hw, hplain'⟩ := l.getElem?_line hline
    have hat : blockCode patch slots pc = some (newSlot w) := hpc ▸ hcode i _ hw
    rw [step_plain hat hplain'] at hstep
    obtain rfl := some.inj hstep
    exact .inr ⟨i + 1, by omega, hnext (by omega), fun _ => rfl⟩
  · -- the jump: the delay slot is next
    have hat : blockCode patch slots pc = some (newSlot l.jump) := hpc ▸ hrest.head
    have hd : decode (newSlot l.jump).word = .jmpl g0 rs1 addr := l.decode_jump
    simp only [step, hat, hd] at hstep
    split at hstep
    · obtain rfl := some.inj hstep
      exact .inr ⟨l.line.length + 1, by omega, hnext (by omega), fun hlt => by omega⟩
    · cases hstep
  · -- the delay slot
    have hat : blockCode patch slots pc = some (delaySlot delay) := by
      rw [hpc, ← add_four_succ]
      exact hrest.tail.head
    rw [step_plain hat hplain] at hstep
    obtain rfl := some.inj hstep
    exact .inl (Nat.lt_succ_self k)

theorem run_inBlock (hc : InBlock patch slots c) (hrun : Reaches sem (blockCode patch slots) c c') :
    c.delays < c'.delays ∨ InBlock patch slots c' := by
  induction hrun with
  | refl => exact .inr hc
  | tail hbefore hstep ih =>
    rcases ih with hlt | hin
    · exact .inl (lt_of_lt_of_le hlt (step_delays_le hstep))
    · exact (l.step_inBlock hsize hplain hin hstep).imp_left
        (lt_of_le_of_lt (Reaches.delays_le hbefore))

/-- **After one run of the delay slot** the machine is where the jump led, or in the block. -/
theorem pc_of_delays_eq_one {σ : Arch ρ}
    (hrun : Reaches sem (blockCode patch slots) (seq patch σ 0) c) (hone : c.delays = 1) :
    c.pc = (f σ).read rs1 + (f σ).operand addr ∨ ∃ s, blockCode patch slots c.pc = some s := by
  set t := (f σ).read rs1 + (f σ).operand addr with ht
  have hcode := holds_blockCode patch hsize
  obtain ⟨hline, hrest⟩ := l.holds_tail hcode
  set q := patch + ofNat 64 (4 * l.line.length) with hq
  -- the run goes through the jump, which has to be aligned, and its delay slot
  have hjump : Reaches sem (blockCode patch slots) (seq q (f σ) 0) c := by
    rcases (l.run_line.run _ patch σ 0 hline).total hrun with h | h
    · exact h
    · have := h.delays_le
      simp only [hone, seq] at this
      omega
  rcases Relation.ReflTransGen.cases_head hjump with rfl | ⟨c₁, hstep₁, hrun₁⟩
  · cases hone
  have halign : t.toNat % 4 = 0 := by
    by_contra hmis
    have hd : decode (newSlot l.jump).word = .jmpl g0 rs1 addr := l.decode_jump
    simp only [step, seq, hrest.head, hd, ← ht, if_neg hmis] at hstep₁
    cases hstep₁
  obtain rfl : (⟨q + 4, t, f σ, 0⟩ : Cpu ρ) = c₁ :=
    some.inj ((l.step_jump hrest rfl halign).symm.trans hstep₁)
  rcases Relation.ReflTransGen.cases_head hrun₁ with rfl | ⟨c₂, hstep₂, hrun₂⟩
  · cases hone
  obtain rfl : seq t (exec sem delay (q + 4) (f σ)) 1 = c₂ :=
    some.inj ((step_plain hrest.tail.head hplain).symm.trans hstep₂)
  cases hat : blockCode patch slots t with
  | none => exact .inl (congrArg pc (Reaches.eq_of_no_code hrun₂ hat))
  | some s =>
    obtain ⟨j, hj, hp⟩ := blockCode_eq_some hat
    have hlt := (List.getElem?_eq_some_iff.mp hj).1
    rcases l.run_inBlock hsize hplain ⟨j, hlt, hp, fun _ => rfl⟩ hrun₂ with hlt | ⟨i, hi, hpc, -⟩
    · simp only [hone, seq] at hlt
      omega
    · exact .inr ⟨slots[i], hpc ▸ hcode i _ (getElem?_eq_getElem hi)⟩

end JumpLayout

/-! ## Jumps that are lost -/

namespace JmplLRAndR

section Lost

variable {w delay : Word} {link rs1 : Reg} {addr : Operand} {patch launch : Kptr}

/-- Some value of the register, other than the launch address, leads out of the patch. -/
theorem exists_value_add (launch c : Kptr) (hpatch : patch.toNat % 4 = 0) :
    ∃ x, (x + c).toNat % 4 = 0 ∧ 24 ≤ (x + c - patch).toNat ∧ x ≠ launch := by
  rcases eq_or_ne (patch + 24 - c) launch with rfl | hne
  · refine ⟨patch + 28 - c, ?_, ?_, ?_⟩ <;> bv_omega
  · refine ⟨patch + 24 - c, ?_, ?_, hne⟩ <;> bv_omega

theorem exists_value_double (launch : Kptr) (hpatch : patch.toNat % 4 = 0) :
    ∃ x, (x + x).toNat % 4 = 0 ∧ 24 ≤ (x + x - patch).toNat ∧ x + x ≠ launch + launch := by
  have hhalf : ∀ n, n < 2 ^ 62 → n % 2 = 0 →
      ofNat 64 (patch.toNat / 2 + n) + ofNat 64 (patch.toNat / 2 + n) =
        patch + ofNat 64 (2 * n) := by
    intro n hn heven
    bv_omega
  rcases eq_or_ne (patch + 24) (launch + launch) with heq | hne
  · refine ⟨ofNat 64 (patch.toNat / 2 + 14), ?_⟩
    refine ⟨?_, ?_, ?_⟩ <;> bv_omega
  · refine ⟨ofNat 64 (patch.toNat / 2 + 12), ?_⟩
    rw [hhalf 12 (by decide) rfl]
    refine ⟨?_, ?_, hne⟩ <;> bv_omega

/-- With a link register among the address registers, some register values lead the original
jump out of the patch, and elsewhere after the link register was loaded. -/
theorem exists_lost_target [Inhabited ρ] (launch : Kptr) (hpatch : patch.toNat % 4 = 0)
    (h0 : link ≠ Reg.g0) (hclash : link = rs1 ∨ link = destReg2 addr) :
    ∃ x, let σ : Arch ρ := uniformState x ⟨false, false, false, false⟩ 0
      let t := σ.read rs1 + σ.operand addr
      t.toNat % 4 = 0 ∧ 24 ≤ (t - patch).toNat ∧
        t ≠ (σ.write link launch).read rs1 + (σ.write link launch).operand addr := by
  cases addr with
  | simm13 imm =>
    obtain rfl : link = rs1 := hclash.resolve_right h0
    obtain ⟨x, halign, hfar, hne⟩ := exists_value_add launch (ofInt 64 imm) hpatch
    refine ⟨x, ?_⟩
    simp only [read_uniformState h0, operand, read_write_self _ h0]
    exact ⟨halign, hfar, fun heq => hne ((BitVec.add_left_inj _).mp heq)⟩
  | reg rs2 =>
    have hzero : ∀ σ : Arch ρ, σ.read g0 = 0 := fun σ => if_pos rfl
    rcases eq_or_ne rs1 g0 with rfl | h₁
    · obtain rfl : link = rs2 := hclash.resolve_left h0
      obtain ⟨x, halign, hfar, hne⟩ := exists_value_add launch 0 hpatch
      refine ⟨x, ?_⟩
      simp only [operand, hzero, read_uniformState h0, read_write_self _ h0]
      rw [BitVec.add_comm 0 x, BitVec.add_comm 0 launch]
      exact ⟨halign, hfar, fun heq => hne ((BitVec.add_left_inj _).mp heq)⟩
    rcases eq_or_ne rs2 g0 with rfl | h₂
    · obtain rfl : link = rs1 := hclash.resolve_right h0
      obtain ⟨x, halign, hfar, hne⟩ := exists_value_add launch 0 hpatch
      refine ⟨x, ?_⟩
      simp only [operand, hzero, read_uniformState h0, read_write_self _ h0]
      exact ⟨halign, hfar, fun heq => hne ((BitVec.add_left_inj _).mp heq)⟩
    -- two registers that both have the value `x`, of which one at least is lost
    obtain ⟨x, halign, hfar, hne⟩ := exists_value_double launch hpatch
    refine ⟨x, ?_⟩
    simp only [operand, read_uniformState h₁, read_uniformState h₂]
    refine ⟨halign, hfar, fun heq => hne ?_⟩
    rcases eq_or_ne link rs1 with rfl | hne₁
    · rcases eq_or_ne link rs2 with rfl | hne₂
      · rwa [read_write_self _ h0] at heq
      · rw [read_write_self _ h0, read_write_of_ne _ hne₂.symm, read_uniformState h₂] at heq
        rw [(BitVec.add_left_inj _).mp heq]
    · obtain rfl : link = rs2 := hclash.resolve_left hne₁
      rw [read_write_self _ h0, read_write_of_ne _ hne₁.symm, read_uniformState h₁] at heq
      rw [(BitVec.add_right_inj _).mp heq]

/-- **A link register among the address registers loses the address.** -/
theorem not_preserves [Inhabited ρ] {F : Set Reg} {before : SparcRegSet}
    (hd : decode w = .jmpl link rs1 addr) (hplain : (decode delay).isPlain)
    (hpatch : patch.toNat % 4 = 0) (h0 : link ≠ Reg.g0) (hclash : link = rs1 ∨ link = destReg2 addr)
    (hemit : emit launch link rs1 addr delay before = some slots) :
    ¬ PreservesJmpl sem patch slots launch link rs1 addr delay F := by
  intro hpreserves
  obtain ⟨-, hsize, f, ⟨l⟩, hf⟩ := emit_eq_some sem hd h0 hemit
  have hbound : 4 * slots.length ≤ 24 := hsize
  obtain ⟨x, halign, hfar, hne⟩ := exists_lost_target (ρ := ρ) launch hpatch h0 hclash
  obtain ⟨σ₁, σ', hrun, -⟩ := hpreserves _ halign
  rcases l.pc_of_delays_eq_one (by omega) hplain hrun rfl with heq | ⟨s, hs⟩
  · rw [hf] at heq
    exact hne heq
  · cases (blockCode_eq_none (hbound.trans hfar)).symm.trans hs

end Lost

end JmplLRAndR

/-! ## The main result -/

section Relocated

variable {w delay : Word} {link rs1 : Reg} {addr : Operand} {patch launch : Kptr}
  {before : SparcRegSet}

/-- **A relocated `jmpl` is preserved exactly if its link register is none of its address
registers**, or is `%g0`, and its delay-slot instruction is no `rd %pc` that is seen; the launch
address has to fit in the 44 bits that can be loaded. This is for every set of free registers,
whether or not it suffices for the copies. With `rd %pc` in its delay slot, the patch is not where
that instruction was, and the `jmpl` can lead out of the patch. The first part says that the
`jmpl` itself, in place, does what `PreservesJmpl` asks for. -/
theorem jmplLRAndR_preserves_iff [Inhabited ρ] (hsem : OnlyRdPcReadsPc sem)
    (hd : decode w = .jmpl link rs1 addr) (hplain : (decode delay).isPlain)
    (hpatch : patch.toNat % 4 = 0)
    (hfresh : SeesPc delay ∅ →
      conservativeNumInsnBytesForRAndR ≤ (launch + 4 - patch).toNat ∧
      ∃ σ : Arch ρ, (σ.read rs1 + σ.operand addr).toNat % 4 = 0 ∧
        conservativeNumInsnBytesForRAndR ≤ (σ.read rs1 + σ.operand addr - patch).toNat) :
    (∀ code, Holds code launch [newSlot w, delaySlot delay] → ∀ σ : Arch ρ,
      (σ.read rs1 + σ.operand addr).toNat % 4 = 0 →
      Reaches sem code (Cpu.seq launch σ 0) (Cpu.seq (σ.read rs1 + σ.operand addr)
        (exec sem delay (launch + 4) (σ.write link launch)) 1)) ∧
    ((∃ slots, emit launch link rs1 addr delay before = some slots ∧
      PreservesJmpl sem patch slots launch link rs1 addr delay (intRegs before)) ↔
    LinkSeparate launch link rs1 addr ∧ ¬ SeesPc delay ∅) := by
  refine ⟨fun code hcode σ halign => original_jmpl sem hd hplain hcode σ 0 halign, ?_⟩
  have hemitted : LinkSeparate launch link rs1 addr →
      ∃ slots, emit launch link rs1 addr delay before = some slots ∧
        (PreservesJmpl sem patch slots launch link rs1 addr delay (intRegs before) ↔
          ¬ SeesPc delay ∅) := by
    intro hseparate
    obtain ⟨slots, hemit, hsize, ⟨l⟩⟩ := exists_emit sem delay before hd hseparate
    have hbound : 4 * slots.length ≤ 24 := hsize
    refine ⟨slots, hemit, fun hpreserves hsees => ?_,
      preserves hsem hseparate (by omega) hplain l _⟩
    obtain ⟨hdelay, σ, halign, hout⟩ := hfresh hsees
    exact not_preserves_of_seesPc hsem hseparate (by omega) hplain l hsees (hsize.trans hdelay)
      halign (hsize.trans hout) hpreserves
  constructor
  · rintro ⟨slots, hemit, hpreserves⟩
    have hseparate : LinkSeparate launch link rs1 addr := by
      by_contra hnot
      obtain ⟨h0, hshared⟩ := not_or.mp hnot
      obtain ⟨hlaunch, -⟩ := emit_eq_some sem hd h0 hemit
      have hclash : link = rs1 ∨ link = destReg2 addr := by
        by_contra hneither
        exact hshared ⟨hlaunch, not_or.mp hneither⟩
      exact not_preserves sem hd hplain hpatch h0 hclash hemit hpreserves
    obtain ⟨slots', hemit', hiff⟩ := hemitted hseparate
    obtain rfl : slots = slots' := mem_unique hemit hemit'
    exact ⟨hseparate, hiff.mp hpreserves⟩
  · rintro ⟨hseparate, hunseen⟩
    obtain ⟨slots, hemit, hiff⟩ := hemitted hseparate
    exact ⟨slots, hemit, hiff.mpr hunseen⟩

/-- `jmpl %g1 + 8, %o7` at `0x10000000`, relocated to `0x20000000`. -/
theorem jmplLRAndR_preserves_other_link :
    ∃ slots, emit 0x10000000 Reg.o7 1 (.simm13 8) 0x01000000 .emptyset = some slots ∧
      PreservesJmpl rdPcSem 0x20000000 slots 0x10000000 Reg.o7 1 (.simm13 8) 0x01000000
        (intRegs .emptyset) :=
  (jmplLRAndR_preserves_iff rdPcSem onlyRdPcReadsPc_rdPcSem (by decide : decode 0x9fc06008 = _)
    (by decide) (by decide) (absurd · not_seesPc_nop)).2.mpr
    ⟨.inr ⟨by decide, by decide, by decide⟩, not_seesPc_nop⟩

/-- `jmpl %o7, %o7` at the same place, with `%g1` free for the copy: code is emitted, and it
jumps to the launch address. -/
theorem jmplLRAndR_loses_o7 :
    decode 0x9fc3e000 = .jmpl Reg.o7 Reg.o7 (.simm13 0) ∧
      createLRAndR 0x9fc3e000 false false ⟨2, 0, 0⟩ .emptyset false = some .jmpl ∧
      ∃ slots, emit 0x10000000 Reg.o7 Reg.o7 (.simm13 0) 0x01000000 ⟨2, 0, 0⟩ =
          some slots ∧
        ¬ PreservesJmpl idleSem 0x20000000 slots 0x10000000 Reg.o7 Reg.o7 (.simm13 0) 0x01000000
          (intRegs ⟨2, 0, 0⟩) := by
  have hd : decode 0x9fc3e000 = .jmpl o7 o7 (.simm13 0) := by decide
  obtain ⟨slots, hemit⟩ := isSome_iff_exists.mp (by decide :
    (emit 0x10000000 o7 o7 (.simm13 0) 0x01000000 ⟨2, 0, 0⟩).isSome)
  exact ⟨hd, by decide, slots, hemit, not_preserves idleSem hd (by decide) (by decide)
    (by decide) (.inl rfl) hemit⟩

end Relocated

end Kerninst
