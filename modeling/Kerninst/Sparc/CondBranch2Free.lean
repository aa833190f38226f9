import Kerninst.Sparc.CondBranch0Free

/-!
# Conditional branches with two registers free before them

The layout of `condBranch_na_2FreeBeforeInsn_LRAndR` has no branch: it loads both
destinations into registers, moves one over the other if the condition holds, and jumps
there, with the delay-slot instruction in the delay slot. What is emitted is right, but for the
address of that instruction (`CondBranchNa2FreeBefore.Layout.relocates`). The space that is
reserved is enough for two loads of two instructions each, which is not enough for every
destination above 4 GB.

The main result is about this layout and the one without a free register together.
-/

namespace Kerninst

open CondBranch0FreeAfter
open Reg (g0)

universe u

variable {ρ : Type u} (sem : Sem ρ)

namespace CondBranchNa2FreeBefore

variable {patch launch : Kptr} {b : Branch} {delay : Word} {r₁ r₂ : Reg}

/-- The state after the loads and the conditional move. -/
def chosen (b : Branch) (launch : Kptr) (r₁ r₂ : Reg) (σ : Arch ρ) : Arch ρ :=
  let loaded := (σ.write r₁ (launch + 8)).write r₂ (b.destination launch)
  if loaded.holds b.kind.tested b.condition then loaded.write r₁ (loaded.read r₂) else loaded

/-- The layout: a jump to the register that was chosen. -/
abbrev Layout (launch : Kptr) (b : Branch) (delay : Word) (r₁ r₂ : Reg) (slots : List Slot) :=
  JumpLayout sem (chosen b launch r₁ r₂) r₁ (.reg Reg.g0) delay slots

theorem sameExcept_loaded (launch : Kptr) (b : Branch) (r₁ r₂ : Reg) (σ : Arch ρ) :
    SameExcept {r₁, r₂} σ ((σ.write r₁ (launch + 8)).write r₂ (b.destination launch)) :=
  (SameExcept.write (Set.mem_insert r₁ {r₂}) _).trans
    (SameExcept.write (Set.mem_insert_of_mem r₁ (Set.mem_singleton r₂)) _)

theorem sameExcept_chosen (σ : Arch ρ) : SameExcept {r₁, r₂} σ (chosen b launch r₁ r₂ σ) :=
  Branch.sameExcept_select (sameExcept_loaded launch b r₁ r₂ σ) (Set.mem_insert r₁ {r₂})

theorem numBytes_emitted (load₁ load₂ : List Word) (move jump delay : Word) :
    numBytes ((load₁ ++ load₂ ++ [move] ++ [jump]).map newSlot ++ [delaySlot delay]) ≤
      conservativeNumInsnBytesForRAndR ↔ load₁.length + load₂.length ≤ 4 := by
  rw [numBytes_append, numBytes_map_newSlot]
  simp only [List.length_append, List.length_singleton, numBytes, conservativeNumInsnBytesForRAndR]
  omega

theorem exists_emit (delay : Word) (hb : b.Valid)
    (hfall : (launch + 8).toNat < 2 ^ 44) (hdest : (b.destination launch).toNat < 2 ^ 44)
    (hlen : immAddrLen (launch + 8) + immAddrLen (b.destination launch) ≤ 4) :
    ∃ slots, emit launch b delay r₁ r₂ = some slots ∧
      numBytes slots ≤ conservativeNumInsnBytesForRAndR ∧
      Nonempty (Layout sem launch b delay r₁ r₂ slots) := by
  obtain ⟨load₁, hload₁, hlen₁, -, hline₁⟩ := genImmAddr_spec sem r₁ hfall
  obtain ⟨load₂, hload₂, hlen₂, -, hline₂⟩ := genImmAddr_spec sem r₂ hdest
  obtain ⟨move, hmove, hline₃⟩ := cfi2ConditionalMove_spec sem hb r₁ r₂
  obtain ⟨jump, hjump, hdj⟩ := SparcInstr.jumpRegReg_spec r₁ g0
  have hsize : numBytes ((load₁ ++ load₂ ++ [move] ++ [jump]).map newSlot ++ [delaySlot delay]) ≤
      conservativeNumInsnBytesForRAndR :=
    (numBytes_emitted load₁ load₂ move jump delay).mpr (by rwa [hlen₁, hlen₂])
  refine ⟨_, ?_, hsize, ⟨⟨load₁ ++ load₂ ++ [move], jump, rfl, ?_, hdj⟩⟩⟩
  · simp only [emit, do_eq_some, check_eq_some]
    exact ⟨load₁, hload₁, load₂, hload₂, move, hmove, jump, hjump, (), hsize, rfl⟩
  · exact ((hline₁.append hline₂).append hline₃).congr fun σ => rfl

/-- What is emitted fits. -/
theorem emit_eq_some {slots : List Slot} (h : emit launch b delay r₁ r₂ = some slots) :
    (b.destination launch).toNat < 2 ^ 44 ∧
      immAddrLen (launch + 8) + immAddrLen (b.destination launch) ≤ 4 := by
  simp only [emit, do_eq_some, check_eq_some] at h
  obtain ⟨load₁, hload₁, load₂, hload₂, move, -, jump, -, -, hsize, -⟩ := h
  have hdest : (b.destination launch).toNat < 2 ^ 44 := genImmAddr_fits hload₂
  obtain ⟨l₁, hl₁, hlen₁, -⟩ := genImmAddr_spec idleSem r₁ (genImmAddr_fits hload₁)
  obtain ⟨l₂, hl₂, hlen₂, -⟩ := genImmAddr_spec idleSem r₂ hdest
  obtain rfl : load₁ = l₁ := Option.mem_unique hload₁ hl₁
  obtain rfl : load₂ = l₂ := Option.mem_unique hload₂ hl₂
  rw [numBytes_emitted, hlen₁, hlen₂] at hsize
  exact ⟨hdest, hsize⟩

/-- The destination is not below zero, and each of the two loads is short enough for the space
that is reserved for both. -/
def Fits (launch : Kptr) (b : Branch) : Prop :=
  0 ≤ (launch.toNat : Int) + b.offsetNBytes ∧
    immAddrLen (launch + 8) + immAddrLen (b.destination launch) ≤ 4

section Running

variable (h₁ : r₁ ≠ g0) (h₂ : r₂ ≠ g0) (hne : r₁ ≠ r₂)
  (htested : ∀ r, b.kind.tested = .reg r → r ≠ r₁ ∧ r ≠ r₂)
include h₁ h₂ hne htested

/-- The register that is jumped through holds the address of the outcome. -/
theorem target_chosen (launch : Kptr) (σ : Arch ρ) :
    (chosen b launch r₁ r₂ σ).read r₁ + (chosen b launch r₁ r₂ σ).operand (.reg g0) =
      if σ.holds b.kind.tested b.condition then b.destination launch else launch + 8 := by
  refine (BitVec.add_zero _).trans
    ((Branch.read_select h₁ (sameExcept_loaded launch b r₁ r₂ σ) htested).trans ?_)
  rw [Arch.read_write_self _ h₂, Arch.read_write_of_ne _ hne, Arch.read_write_self _ h₁]

variable (hb : b.Valid) (hlaunch : launch.toNat % 4 = 0) (hplain : (decode delay).isPlain)
  (hannul : b.annul = false)
include hb hlaunch hplain hannul

/-- **Whatever is emitted relocates a branch without the annul bit.** -/
theorem Layout.relocates {sem : Sem ρ} {slots : List Slot}
    (l : Layout sem launch b delay r₁ r₂ slots) (hsize : 4 * slots.length < 2 ^ 64) :
    RelocatesBranch sem patch slots launch b delay {r₁, r₂} := by
  intro σ
  have hcode := holds_blockCode patch hsize
  have hout : ∀ taken, b.outcome launch taken =
      (if taken then b.destination launch else launch + 8, 1) := by
    simp [Branch.outcome, hannul]
  have halign : (if σ.holds b.kind.tested b.condition then b.destination launch
      else launch + 8).toNat % 4 = 0 := by
    split
    · exact destination_aligned hb hlaunch
    · exact add_aligned hlaunch (by decide)
  obtain ⟨pc, hrun, hat⟩ := l.run hcode hplain (target_chosen h₁ h₂ hne htested launch σ) halign
  rw [hout]
  exact ⟨_, pc, hrun, ⟨_, sameExcept_chosen σ, SameExcept.refl _ _⟩, fun _ => hat⟩

theorem preserves_iff_fits [Inhabited ρ] (hsem : OnlyRdPcReadsPc sem)
    (hreal : b.reallyConditional) (hsmall : launch.toNat < 2 ^ 32)
    (hfresh : SeesPc delay ∅ → b.IsFresh patch launch conservativeNumInsnBytesForRAndR) :
    (∃ slots, emit launch b delay r₁ r₂ = some slots ∧
      numBytes slots ≤ conservativeNumInsnBytesForRAndR ∧
      PreservesBranch sem patch slots launch b delay {r₁, r₂}) ↔
    Fits launch b ∧ ¬ SeesPc delay ∅ := by
  have hfall : (launch + 8).toNat < 2 ^ 44 := by bv_omega
  have hruns : b.neverRunsDelay = false := by simp [Branch.neverRunsDelay, hannul]
  have hemitted : Fits launch b → ∃ slots, emit launch b delay r₁ r₂ = some slots ∧
      numBytes slots ≤ conservativeNumInsnBytesForRAndR ∧
      (PreservesBranch sem patch slots launch b delay {r₁, r₂} ↔ ¬ SeesPc delay ∅) := by
    rintro ⟨hpos, hlen⟩
    obtain ⟨slots, hemit, hsize, ⟨l⟩⟩ := exists_emit sem delay hb hfall
      ((destination_lt_iff hb hsmall).mpr hpos) hlen
    have hbound : 4 * slots.length ≤ 28 := hsize
    refine ⟨slots, hemit, hsize, ?_⟩
    rw [(Layout.relocates h₁ h₂ hne htested hb hlaunch hplain hannul l (by omega)).preserves_iff
      hsem hb hreal fun h => (hfresh h).mono hsize, hruns]
    exact or_iff_left Bool.false_ne_true
  constructor
  · rintro ⟨slots, hemit, -, hpreserves⟩
    obtain ⟨hdest, hlen⟩ := emit_eq_some hemit
    have hfits : Fits launch b := ⟨(destination_lt_iff hb hsmall).mp hdest, hlen⟩
    obtain ⟨slots', hemit', -, hiff⟩ := hemitted hfits
    obtain rfl : slots = slots' := Option.mem_unique hemit hemit'
    exact ⟨hfits, hiff.mp hpreserves⟩
  · rintro ⟨hfits, hunseen⟩
    obtain ⟨slots, hemit, hsize, hiff⟩ := hemitted hfits
    exact ⟨slots, hemit, hsize, hiff.mpr hunseen⟩

end Running

end CondBranchNa2FreeBefore

/-! ## Both layouts -/

section Relocated

variable {w delay : Word} {b : Branch} {patch launch : Kptr}

/-- **Conditional branches in the other two layouts are preserved where the code can be
emitted.** Launch site and patch are below 4 GB. The branch itself has the outcome that
`PreservesBranch` asks for. Without a free register the relocated branch has it, in the space
reserved, exactly if no jump has to go 2 GB backwards and the destination is not below zero; with
two registers that are dead before the branch, so that it does not test them, exactly if the
destinations can be loaded in four instructions. In both layouts the delay-slot instruction must
not be an `rd %pc` that is seen, unless it never runs; with one, the patch is not where the
original code or a destination of the branch is. -/
theorem condBranch_preserves_iff [Inhabited ρ] (hsem : OnlyRdPcReadsPc sem)
    (hd : decode w = .branch b) (hreal : b.reallyConditional) (hplain : (decode delay).isPlain)
    (hpatch : patch.toNat < 2 ^ 32) (hlaunch : launch.toNat < 2 ^ 32)
    (hpatch4 : patch.toNat % 4 = 0) (hlaunch4 : launch.toNat % 4 = 0)
    (hfresh : SeesPc delay ∅ → b.IsFresh patch launch conservativeNumInsnBytesForRAndR) :
    (∀ code, Holds code launch [newSlot w, delaySlot delay] → ∀ σ : Arch ρ,
      let out := b.outcome launch (σ.holds b.kind.tested b.condition)
      Reaches sem code (Cpu.seq launch σ 0)
        (Cpu.seq out.1 (if out.2 = 0 then σ else exec sem delay (launch + 4) σ) out.2)) ∧
    ((∃ slots, emit patch launch b delay = .ok slots ∧
        numBytes slots ≤ conservativeNumInsnBytesForRAndR ∧
        PreservesBranch sem patch slots launch b delay ∅) ↔
      InReachOfPatch patch launch b ∧ (¬ SeesPc delay ∅ ∨ b.neverRunsDelay = true)) ∧
    (b.annul = false → ∀ r₁ r₂, r₁ ≠ Reg.g0 → r₂ ≠ Reg.g0 → r₁ ≠ r₂ →
      (∀ r, b.kind.tested = .reg r → r ≠ r₁ ∧ r ≠ r₂) →
      ((∃ slots, CondBranchNa2FreeBefore.emit launch b delay r₁ r₂ = some slots ∧
          numBytes slots ≤ CondBranchNa2FreeBefore.conservativeNumInsnBytesForRAndR ∧
          PreservesBranch sem patch slots launch b delay {r₁, r₂}) ↔
        CondBranchNa2FreeBefore.Fits launch b ∧ ¬ SeesPc delay ∅)) := by
  have hb := decode_branch_valid hd
  refine ⟨fun code hcode σ => ?_, ?_, fun hannul r₁ r₂ h₁ h₂ hne htested => ?_⟩
  · simpa using original_outcome sem hd hreal hplain hcode σ 0
  · rw [preserves_iff_fits sem hsem hb hreal hplain hpatch4 hlaunch4 hfresh,
      fits_iff hb hpatch hlaunch hpatch4 hlaunch4]
  · exact CondBranchNa2FreeBefore.preserves_iff_fits sem h₁ h₂ hne htested hb hlaunch4 hplain hannul
      hsem hreal hlaunch fun h => (hfresh h).mono (by decide)

/-- `be .+64` at `0x10000000`, relocated to `0x20000000` in either layout. -/
theorem condBranch_preserves_be :
    (∃ slots, emit 0x20000000 0x10000000 ⟨.bicc, 1, false, 64⟩ 0x01000000 =
        .ok slots ∧
      numBytes slots ≤ conservativeNumInsnBytesForRAndR ∧
      PreservesBranch rdPcSem 0x20000000 slots 0x10000000 ⟨.bicc, 1, false, 64⟩ 0x01000000 ∅) ∧
    (∃ slots, CondBranchNa2FreeBefore.emit 0x10000000 ⟨.bicc, 1, false, 64⟩ 0x01000000 1 2 =
        some slots ∧
      numBytes slots ≤ CondBranchNa2FreeBefore.conservativeNumInsnBytesForRAndR ∧
      PreservesBranch rdPcSem 0x20000000 slots 0x10000000 ⟨.bicc, 1, false, 64⟩ 0x01000000
        {1, 2}) := by
  have hd : decode 0x02800010 = .branch ⟨.bicc, 1, false, 64⟩ := by decide
  have h := condBranch_preserves_iff rdPcSem onlyRdPcReadsPc_rdPcSem hd (by decide)
    (by decide : (decode 0x01000000).isPlain)
    (by decide : (0x20000000 : Kptr).toNat < 2 ^ 32)
    (by decide : (0x10000000 : Kptr).toNat < 2 ^ 32)
    (by decide) (by decide) (absurd · not_seesPc_nop)
  refine ⟨h.2.1.mpr ⟨⟨by decide, by decide, fun n₁ hn₁ => ?_⟩, .inl not_seesPc_nop⟩,
    (h.2.2 rfl 1 2 (by decide) (by decide) (by decide) nofun).mpr
      ⟨⟨by decide, by decide⟩, not_seesPc_nop⟩⟩
  obtain rfl : 12 = n₁ := Option.some.inj hn₁
  decide

/-- `be,a .+64` at `0x10000000` cannot be relocated to `0x90000000` without a free register,
although that layout is chosen: the call back to `0x10000008` does not reach. And with `%g1`
and `%g2` free before it, `be .+64` at `0xfffffff0` takes 32 bytes: two instructions load the
address after it and three the destination. -/
theorem condBranch_not_emitted :
    (decode 0x22800010 = .branch ⟨.bicc, 1, true, 64⟩ ∧
      createLRAndR 0x22800010 false false .emptyset .emptyset false = some .condBranch0FreeAfter ∧
      ¬ ∃ slots, emit 0x90000000 0x10000000 ⟨.bicc, 1, true, 64⟩ 0x01000000 =
        .ok slots) ∧
    (decode 0x02800010 = .branch ⟨.bicc, 1, false, 64⟩ ∧
      createLRAndR 0x02800010 false false ⟨6, 0, 0⟩ .emptyset false =
        some (.condBranchNa2FreeBefore 1 2) ∧
      (SparcInstr.genImmAddr 0xfffffff8 1).map List.length = some 2 ∧
      (SparcInstr.genImmAddr 0x100000030 2).map List.length = some 3 ∧
      CondBranchNa2FreeBefore.emit 0xfffffff0 ⟨.bicc, 1, false, 64⟩ 0x01000000 1 2 = none) := by
  have hd : decode 0x22800010 = .branch ⟨.bicc, 1, true, 64⟩ := by decide
  refine ⟨⟨hd, by decide, ?_⟩, by decide, by decide, by decide, by decide, by decide⟩
  rintro ⟨slots, hemit⟩
  obtain ⟨hfits, -⟩ := emit_eq_ok idleSem (decode_branch_valid hd) (by decide) (by decide) hemit
  rw [fits_iff (decode_branch_valid hd) (by decide) (by decide) (by decide) (by decide)] at hfits
  exact hfits.1 (by decide)

end Relocated

end Kerninst
