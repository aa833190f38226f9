import Kerninst.Sparc.CondBranch0Free

/-!
# Calls, unconditional branches and plain instructions

Four layouts have one usual jump: those of `call_LRAndR`, `branchAlways_LRAndR`,
`branchNever_LRAndR` and `nonDCTI_LRAndR`. They differ in what they put into `%o7`, in where
they jump, in the registers that the jump may use, and in whether an instruction of the
original code is executed: the one in the delay slot, or the original instruction itself.
That instruction comes before the jump or into its open delay slot.

What the original does is `OneJump.original_outcome`. Whatever is emitted does the same, except
that the instruction is executed at an address of the patch (`OneJump.emit_spec`). So there are two
questions. Can the jump be built, and is there room for it? And does the instruction see its
address? It does if it is `rd %pc`, which is moved like any other.
-/

namespace Kerninst

open List Option SameExcept
open Cpu (seq)
open BitVec (ofNat add_assoc ofNat_add toNat_ofNat)

universe u

variable {ρ : Type u} (sem : Sem ρ)

/-! ## What the original does -/

/-- One of the four layouts, with what it is told about the original instruction. -/
inductive OneJump
  | call (offsetNBytes : Int)
  | branchAlways (cfi : Branch)
  | branchNever (cfi : Branch)
  | nonDCTI (originsn : Word)

/-- The state, with an address put into `%o7` if there is one. -/
def Arch.link (σ : Arch ρ) : Option Kptr → Arch ρ
  | none => σ
  | some a => σ.write Reg.o7 a

/-- The state changes as by the instruction, if there is one, at its address, apart from the
registers of `F` before it and those of `G` after it. -/
def Leads (runs : Option (Word × Kptr)) (F G : Set Reg) (σ σ' : Arch ρ) : Prop :=
  match runs with
  | none => SameExcept F σ σ'
  | some (w, pc) => ∃ σ₁, SameExcept F σ σ₁ ∧ SameExcept G (exec sem w pc σ₁) σ'

section Leads

variable {sem} {F G : Set Reg} {σ σ' : Arch ρ}

/-- The address of an instruction does not matter if it is not seen. -/
theorem Leads.move {runs : Option (Word × Kptr)} {pc : Kptr}
    (hsem : OnlyRdPcReadsPc sem) (hsees : ∀ i a, runs = some (i, a) → ¬ SeesPc i G)
    (h : Leads sem (runs.map fun r => (r.1, pc)) F G σ σ') : Leads sem runs F G σ σ' := by
  rcases runs with _ | ⟨i, a⟩
  · exact h
  · obtain ⟨σ₁, hbefore, hafter⟩ := h
    exact ⟨σ₁, hbefore, (hsem.sameExcept_exec (hsees i a rfl) a pc σ₁).trans hafter⟩

/-- An instruction that sees its address leaves it in a register. -/
theorem Leads.read_of_seesPc {i : Word} {a : Kptr}
    (hsem : OnlyRdPcReadsPc sem) (hsees : SeesPc i G) (h : Leads sem (some (i, a)) F G σ σ') :
    σ'.read (regField i 25) = a := by
  obtain ⟨hrd, h0, hG⟩ := hsees
  obtain ⟨σ₁, -, hafter⟩ := h
  rw [hafter.read _ hG, hsem.exec_rdPc hrd, Arch.read_write_self _ h0]

end Leads

namespace OneJump

def toLRAndR : OneJump → LRAndR
  | call _ => .call
  | branchAlways _ => .branchAlways
  | branchNever _ => .branchNever
  | nonDCTI _ => .nonDCTI

def Describes (c : OneJump) (originsn : Word) : Prop :=
  match c with
  | call offset => decode originsn = .call offset
  | branchAlways cfi => decode originsn = .branch cfi
  | branchNever cfi => decode originsn = .branch cfi
  | nonDCTI w => w = originsn

/-- Where control goes. -/
def target (launch : Kptr) : OneJump → Kptr
  | call offset => launch + BitVec.ofInt 64 offset
  | branchAlways cfi => cfi.destination launch
  | branchNever _ => launch + 8
  | nonDCTI _ => launch + 4

/-- What is put into `%o7`. -/
def link (launch : Kptr) : OneJump → Option Kptr
  | call _ => some launch
  | _ => none

/-- The instruction that is executed, with its address. -/
def runs (launch : Kptr) (delay : Word) : OneJump → Option (Word × Kptr)
  | call _ => some (delay, launch + 4)
  | branchAlways cfi => if cfi.annul then none else some (delay, launch + 4)
  | branchNever cfi => if cfi.annul then none else some (delay, launch + 4)
  | nonDCTI w => some (w, launch)

/-- The original code. -/
def original (originsn delay : Word) : OneJump → List Slot
  | nonDCTI w => [delaySlot w]
  | _ => [newSlot originsn, delaySlot delay]

section Original

variable {c : OneJump} {w delay : Word} {launch : Kptr} {code : Code}
  {followedByRestore followedByWriteToO7 anyPreReturnSnippets : Bool} {before after : SparcRegSet}

/-- A branch that is not really conditional has no register to test. -/
theorem kind_of_not_reallyConditional {b : Branch} (h : b.reallyConditional = false) :
    (b.condition = 8 ∨ b.condition = 0) ∧ ∀ predict rs1, b.kind ≠ .bpr predict rs1 := by
  obtain ⟨kind, condition, annul, offset⟩ := b
  cases kind <;> simp_all [Branch.reallyConditional] <;> omega

/-- It is taken always, or never. -/
theorem holds_of_not_reallyConditional {b : Branch} (h : b.reallyConditional = false) (σ : Arch ρ) :
    σ.holds b.kind.tested b.condition = decide (b.condition = 8) ∧
      b.isAlways = decide (b.condition = 8) := by
  obtain ⟨hcond, hkind⟩ := kind_of_not_reallyConditional h
  obtain ⟨kind, condition, annul, offset⟩ := b
  cases kind with
  | bpr predict rs1 => exact absurd rfl (hkind predict rs1)
  | _ =>
    obtain rfl | rfl := hcond <;>
      simp [BranchKind.tested, Arch.holds, testIcc, testFcc, Branch.isAlways]

/-- The choice among the layouts for branches. -/
theorem chooseBranch_cases (b : Branch) (before after : SparcRegSet) :
    (chooseBranch b before after = .branchAlways ∧ b.reallyConditional = false ∧ b.condition = 8) ∨
    (chooseBranch b before after = .branchNever ∧ b.reallyConditional = false ∧ b.condition = 0) ∨
    chooseBranch b before after ∉ [LRAndR.branchAlways, .branchNever, .nonDCTI] := by
  cases hreal : b.reallyConditional with
  | true =>
    refine .inr (.inr ?_)
    simp only [chooseBranch, hreal, if_true]
    split
    · simp
    · split <;> simp
  | false =>
    rcases (kind_of_not_reallyConditional hreal).1 with h8 | h0
    · exact .inl ⟨by simp [chooseBranch, hreal, h8], rfl, h8⟩
    · exact .inr (.inl ⟨by simp [chooseBranch, hreal, h0], rfl, h0⟩)

/-- What the choice of a class says about the instruction. -/
def Fitting (c : OneJump) (originsn : Word) : Prop :=
  match c with
  | call offset => decode originsn = .call offset
  | branchAlways cfi =>
    decode originsn = .branch cfi ∧ cfi.reallyConditional = false ∧ cfi.condition = 8
  | branchNever cfi =>
    decode originsn = .branch cfi ∧ cfi.reallyConditional = false ∧ cfi.condition = 0
  | nonDCTI w => w = originsn ∧ (decode originsn).isPlain

theorem Describes.fitting (hd : c.Describes w)
    (hchosen : createLRAndR w followedByRestore followedByWriteToO7 before after
      anyPreReturnSnippets = some c.toLRAndR) : c.Fitting w := by
  simp only [createLRAndR, do_eq_some] at hchosen
  obtain ⟨-, -, -, -, hchoice⟩ := hchosen
  cases c with
  | call offset => exact hd
  | branchAlways cfi | branchNever cfi =>
    rw [show decode w = .branch cfi from hd] at hchoice
    have hbranch := some.inj hchoice
    exact ⟨hd, by simpa [hbranch, toLRAndR] using chooseBranch_cases cfi before after⟩
  | nonDCTI v =>
    refine ⟨hd, ?_⟩
    cases hw : decode w with
    | call disp =>
      simp only [hw, toLRAndR] at hchoice
      split at hchoice
      · cases hchoice
      · split at hchoice <;> cases hchoice
    | jmpl rd rs1 addr => simp [hw, toLRAndR] at hchoice
    | branch b =>
      simp only [hw, toLRAndR, some.injEq] at hchoice
      have hcases := chooseBranch_cases b before after
      simp [hchoice] at hcases
    | cti =>
      simp only [hw, toLRAndR] at hchoice
      split_ifs at hchoice <;> cases hchoice
    | _ => rfl

/-- **What the machine does with the original code.** -/
theorem original_outcome (hc : c.Fitting w) (hplain : (decode delay).isPlain)
    (hcode : Holds code launch (c.original w delay)) (σ : Arch ρ) (k : Nat) :
    Reaches sem code (seq launch σ k) (match c.runs launch delay with
      | none => seq (c.target launch) (σ.link (c.link launch)) k
      | some (i, pc) => seq (c.target launch) (exec sem i pc (σ.link (c.link launch)))
          (k + 1)) := by
  cases c with
  | call offset =>
    have hcall : step sem code (seq launch σ k) = some ⟨launch + 4, _, _, k⟩ :=
      step_call hcode.head hc rfl
    exact (Reaches.single hcall).tail (step_plain hcode.tail.head hplain)
  | branchAlways cfi | branchNever cfi =>
    obtain ⟨hd, hreal, hcond⟩ := hc
    obtain ⟨htaken, halways⟩ := holds_of_not_reallyConditional hreal σ
    have hrun := Reaches.branch sem hd hplain hcode htaken k
    cases hannul : cfi.annul <;>
      simpa [runs, hannul, halways, hcond, target, link, Arch.link, delaySlot] using hrun
  | nonDCTI v =>
    obtain ⟨rfl, hv⟩ := hc
    exact Reaches.single (step_plain hcode.head hv)

end Original

end OneJump

/-! ## One jump and one instruction

The three shapes that the code can have, after a straight line: a closed jump, the
instruction and a closed jump, an open jump and the instruction. -/

section Shapes

variable {sem} {line ws : List Word} {f : Arch ρ → Arch ρ} {patch t : Kptr} {insn : Word}
  {F : Set Reg} {code : Code}

theorem Line.run_jump (hline : Line sem line f)
    (hjump : Jumps sem (patch + ofNat 64 (4 * line.length)) ws t F)
    (hcode : Holds code patch (line.map newSlot ++ ws.map newSlot)) (σ : Arch ρ) :
    ∃ σ', Reaches sem code (seq patch σ 0) (seq t σ' 0) ∧ SameExcept F (f σ) σ' := by
  obtain ⟨hhead, htail⟩ := hcode.append
  rw [length_map] at htail
  obtain ⟨σ', hrun, hsame⟩ := hjump code (f σ) 0 htail
  exact ⟨σ', (hline.run code patch σ 0 hhead).trans hrun, hsame⟩

theorem Line.run_insn_jump (hline : Line sem line f) (hplain : (decode insn).isPlain)
    (hjump : Jumps sem (patch + ofNat 64 (4 * line.length) + 4) ws t F)
    (hcode : Holds code patch (line.map newSlot ++ [delaySlot insn] ++ ws.map newSlot))
    (σ : Arch ρ) :
    ∃ σ', Reaches sem code (seq patch σ 0) (seq t σ' 1) ∧
      SameExcept F (exec sem insn (patch + ofNat 64 (4 * line.length)) (f σ)) σ' := by
  rw [append_assoc] at hcode
  obtain ⟨hhead, htail⟩ := hcode.append
  rw [length_map] at htail
  set q := patch + ofNat 64 (4 * line.length)
  have hstep : step sem code (seq q (f σ) 0) = some (seq (q + 4) (exec sem insn q (f σ)) 1) :=
    step_plain htail.head hplain
  obtain ⟨σ', hrun, hsame⟩ := hjump code (exec sem insn q (f σ)) 1 htail.tail
  exact ⟨σ', ((hline.run code patch σ 0 hhead).tail hstep).trans hrun, hsame⟩

theorem Line.run_jump_insn (hline : Line sem line f) (hplain : (decode insn).isPlain)
    (hjump : JumpsOpen sem (patch + ofNat 64 (4 * line.length)) ws t F)
    (hcode : Holds code patch (line.map newSlot ++ ws.map newSlot ++ [delaySlot insn]))
    (σ : Arch ρ) :
    ∃ σ₁, SameExcept F (f σ) σ₁ ∧ Reaches sem code (seq patch σ 0)
      (seq t (exec sem insn (patch + ofNat 64 (4 * (line.length + ws.length))) σ₁) 1) := by
  rw [append_assoc] at hcode
  obtain ⟨hhead, htail⟩ := hcode.append
  rw [length_map] at htail
  obtain ⟨σ₁, hsame, hrun⟩ := hjump.run_slot htail hplain (f σ) 0
  rw [add_assoc, ← ofNat_add, ← Nat.mul_add] at hrun
  exact ⟨σ₁, hsame, (hline.run code patch σ 0 hhead).trans hrun⟩

end Shapes

/-! ## The emitted code -/

/-- What `emitUsualJump` emits: a jump of its size, which leads to its target. -/
theorem emitUsualJump_of_ok {patch t : Kptr} {emitted slots : List Slot} {avail : SparcRegSet}
    {isOpen : Bool} (hpatch : patch.toNat % 4 = 0) (ht : t.toNat % 4 = 0)
    (h : emitUsualJump patch emitted t avail isOpen = .ok slots) :
    let from' := patch + ofNat 64 (numBytes emitted)
    ∃ ws, slots = emitted ++ ws.map newSlot ∧
      jumpNumBytes from' t avail isOpen = some (4 * ws.length) ∧
      if isOpen then JumpsOpen sem from' ws t (intRegs avail)
        else Jumps sem from' ws t (intRegs avail) := by
  intro from'
  simp only [emitUsualJump, bind_eq_ok, asserted_eq_ok] at h
  obtain ⟨j, hj, ws, hws, hslots⟩ := h
  have hfrom : from'.toNat % 4 = 0 := add_aligned hpatch (by rw [numBytes]; omega)
  obtain ⟨hn, hlen, hrun⟩ := usualJump_of_generate sem hfrom ht hj hws
  exact ⟨ws, (Except.ok.inj hslots).symm, hlen ▸ hn, hrun⟩

theorem emitUsualJump_of_size {patch t : Kptr} {emitted : List Slot} {avail : SparcRegSet}
    {isOpen : Bool} {n : Nat} (hpatch : patch.toNat % 4 = 0) (ht : t.toNat % 4 = 0)
    (h : jumpNumBytes (patch + ofNat 64 (numBytes emitted)) t avail isOpen = some n) :
    ∃ slots, emitUsualJump patch emitted t avail isOpen = .ok slots ∧
      numBytes slots = numBytes emitted + n := by
  have hfrom : (patch + ofNat 64 (numBytes emitted)).toNat % 4 = 0 :=
    add_aligned hpatch (by rw [numBytes]; omega)
  obtain ⟨j, ws, hj, hws, -, hlen⟩ := usualJump_of_size hfrom ht h
  refine ⟨emitted ++ ws.map newSlot, ?_, ?_⟩
  · simp only [emitUsualJump, bind_eq_ok, asserted_eq_ok]
    exact ⟨j, hj, ws, hws, rfl⟩
  · rw [numBytes_append, numBytes_map_newSlot, hlen]

/-- The common form of the four layouts: the jump after the instruction if that comes first,
and else before it, with the delay slot open if there is an instruction. -/
def emitAround (patch : Kptr) (line : List Slot) (t : Kptr) (avail : SparcRegSet) (isFirst : Bool)
    (run : List Slot) : Except JumpFailure (List Slot) :=
  if isFirst then emitUsualJump patch (line ++ run) t avail false
  else do
    let emitted ← emitUsualJump patch line t avail (!run.isEmpty)
    pure (emitted ++ run)

theorem emitJumpAndDelay_eq (patch : Kptr) (line : List Slot) (t : Kptr) (avail : SparcRegSet)
    (run : List Slot) :
    emitJumpAndDelay patch line t avail run =
      emitAround patch line t avail (decide (avail = .emptyset)) run := by
  by_cases h : avail = .emptyset
  · simp [emitJumpAndDelay, emitAround, h]
  · simp [emitJumpAndDelay, emitAround, h]

/-- The slot for an instruction, if there is one. -/
def slotOf : Option (Word × Kptr) → List Slot
  | none => []
  | some (w, _) => [delaySlot w]

/-- Where the jump starts, after a line of `m` instructions. -/
def jumpAddr (patch : Kptr) (m : Nat) (isFirst : Bool) (runs : Option (Word × Kptr)) : Kptr :=
  patch + BitVec.ofNat 64 (4 * (m + if isFirst then runs.isSome.toNat else 0))

section Around

variable {line : List Word} {f : Arch ρ → Arch ρ} {patch t : Kptr} {avail : SparcRegSet}
  {isFirst : Bool} {runs : Option (Word × Kptr)} {slots : List Slot}

theorem numBytes_slotOf_ite (isFirst : Bool) (runs : Option (Word × Kptr)) :
    numBytes (if isFirst then slotOf runs else []) +
      numBytes (if isFirst then [] else slotOf runs) =
      4 * runs.isSome.toNat := by
  cases isFirst <;> cases runs <;> rfl

theorem isEmpty_slotOf (runs : Option (Word × Kptr)) : (!(slotOf runs).isEmpty) = runs.isSome := by
  cases runs <;> rfl

theorem jumpAddr_eq (patch : Kptr) (line : List Word) (isFirst : Bool)
    (runs : Option (Word × Kptr)) : jumpAddr patch line.length isFirst runs =
      patch + ofNat 64 (numBytes (line.map newSlot ++ if isFirst then slotOf runs else [])) := by
  rw [jumpAddr, numBytes_append, numBytes_map_newSlot, Nat.mul_add]
  cases isFirst
  · rfl
  · rw [if_pos rfl, if_pos rfl]
    cases runs <;> rfl

theorem emitAround_eq_ok {line : List Slot} :
    emitAround patch line t avail isFirst (slotOf runs) = .ok slots ↔
      ∃ emitted, emitUsualJump patch (line ++ if isFirst then slotOf runs else []) t avail
        (!isFirst && runs.isSome) = .ok emitted ∧
          emitted ++ (if isFirst then [] else slotOf runs) = slots := by
  cases isFirst <;> simp [emitAround, isEmpty_slotOf, bind_eq_ok, pure, Except.pure]

theorem emitAround_of_size {n : Nat} (hpatch : patch.toNat % 4 = 0) (ht : t.toNat % 4 = 0)
    (h : jumpNumBytes (jumpAddr patch line.length isFirst runs) t avail
      (!isFirst && runs.isSome) = some n) :
    ∃ slots, emitAround patch (line.map newSlot) t avail isFirst (slotOf runs) = .ok slots ∧
      numBytes slots = 4 * line.length + 4 * runs.isSome.toNat + n := by
  rw [jumpAddr_eq] at h
  obtain ⟨emitted, hok, hlen⟩ := emitUsualJump_of_size hpatch ht h
  refine ⟨_, emitAround_eq_ok.mpr ⟨emitted, hok, rfl⟩, ?_⟩
  rw [numBytes_append, hlen, numBytes_append, numBytes_map_newSlot, ← numBytes_slotOf_ite isFirst]
  omega

/-- **Whatever is emitted leads to the target**, and executes the instruction at an address
of the patch. -/
theorem emitAround_of_ok {F G : Set Reg} (hpatch : patch.toNat % 4 = 0) (ht : t.toNat % 4 = 0)
    (hline : Line sem line f) (hplain : ∀ i pc, runs = some (i, pc) → (decode i).isPlain)
    (hfirst : isFirst = true → intRegs avail ⊆ G ∧ (runs = none → intRegs avail ⊆ F))
    (hlast : isFirst = false → intRegs avail ⊆ F)
    (h : emitAround patch (line.map newSlot) t avail isFirst (slotOf runs) = .ok slots)
    (hsize : 4 * slots.length < 2 ^ 64) :
    (∃ n, jumpNumBytes (jumpAddr patch line.length isFirst runs) t avail
        (!isFirst && runs.isSome) = some n ∧
      numBytes slots = 4 * line.length + 4 * runs.isSome.toNat + n) ∧
    ∃ m, (runs.isSome = true → m < slots.length) ∧ ∀ σ, ∃ σ',
      Reaches sem (blockCode patch slots) (seq patch σ 0) (seq t σ' runs.isSome.toNat) ∧
      Leads sem (runs.map fun r => (r.1, patch + ofNat 64 (4 * m))) F G (f σ) σ' := by
  have hcode := holds_blockCode patch hsize
  obtain ⟨emitted, hemit, rfl⟩ := emitAround_eq_ok.mp h
  obtain ⟨ws, rfl, hn, hjump⟩ := emitUsualJump_of_ok sem hpatch ht hemit
  rw [← jumpAddr_eq] at hn hjump
  have hnum : numBytes (line.map newSlot ++ (if isFirst then slotOf runs else []) ++
      ws.map newSlot ++ if isFirst then [] else slotOf runs) =
        4 * line.length + 4 * runs.isSome.toNat + 4 * ws.length := by
    rw [numBytes_append, numBytes_append, numBytes_append, numBytes_map_newSlot,
      numBytes_map_newSlot, ← numBytes_slotOf_ite isFirst]
    omega
  refine ⟨⟨_, hn, hnum⟩, line.length + (if isFirst then 0 else ws.length), fun hsome => ?_,
    fun σ => ?_⟩
  · rw [numBytes, hsome, Bool.toNat_true] at hnum
    have : (if isFirst then 0 else ws.length) ≤ ws.length := by split <;> omega
    omega
  cases isFirst with
  | true =>
    obtain ⟨hG, hF⟩ := hfirst rfl
    simp only [if_true, append_nil] at hcode ⊢
    rcases runs with _ | ⟨insn, pc⟩
    · rw [slotOf, append_nil] at hcode ⊢
      obtain ⟨σ', hrun, hsame⟩ := hline.run_jump (Jumps.mono hjump (hF rfl)) hcode σ
      exact ⟨σ', hrun, hsame⟩
    · have haddr : jumpAddr patch line.length true (some (insn, pc)) =
          patch + ofNat 64 (4 * line.length) + 4 := by
        rw [jumpAddr, if_pos rfl, Nat.mul_add, ofNat_add, ← BitVec.add_assoc]
        rfl
      rw [haddr] at hjump
      obtain ⟨σ', hrun, hsame⟩ := hline.run_insn_jump (hplain insn pc rfl)
        (Jumps.mono hjump hG) hcode σ
      exact ⟨σ', hrun, f σ, refl _ _, hsame⟩
  | false =>
    simp only [Bool.false_eq_true, if_false, append_nil] at hcode ⊢
    rcases runs with _ | ⟨insn, pc⟩
    · rw [slotOf, append_nil] at hcode ⊢
      obtain ⟨σ', hrun, hsame⟩ := hline.run_jump (Jumps.mono hjump (hlast rfl)) hcode σ
      exact ⟨σ', hrun, hsame⟩
    · obtain ⟨σ₁, hsame, hrun⟩ := hline.run_jump_insn (hplain insn pc rfl)
        (JumpsOpen.mono hjump (hlast rfl)) hcode σ
      exact ⟨_, hrun, σ₁, hsame, refl _ _⟩

end Around

namespace OneJump

/-- The registers that the jump may use. -/
def avail (before after : SparcRegSet) : OneJump → SparcRegSet
  | call _ => after - .ofInt Reg.o7
  | branchAlways _ => before
  | branchNever _ => before
  | nonDCTI _ => after

/-- Whether the instruction comes before the jump. -/
def isFirst (before after : SparcRegSet) : OneJump → Bool
  | nonDCTI _ => true
  | c => c.avail before after = .emptyset

/-- The registers that may have changed when the instruction is executed. -/
def freeBefore (before after : SparcRegSet) : OneJump → Set Reg
  | nonDCTI _ => ∅
  | c => intRegs (c.avail before after)

/-- The registers that may change after it. -/
def freeAfter (after : SparcRegSet) : OneJump → Set Reg
  | nonDCTI _ => intRegs after
  | _ => ∅

def conservativeNumInsnBytesForRAndR (before after : SparcRegSet) : OneJump → Nat
  | call _ => CallLRAndR.conservativeNumInsnBytesForRAndR
  | branchAlways _ => BranchAlwaysLRAndR.conservativeNumInsnBytesForRAndR before
  | branchNever _ => BranchNeverLRAndR.conservativeNumInsnBytesForRAndR before
  | nonDCTI _ => NonDCTILRAndR.conservativeNumInsnBytesForRAndR after

/-- `emitStuffAfterPreInsnSnippets` of the four classes. -/
def emit (patch launch : Kptr) (delay : Word) (before after : SparcRegSet) :
    OneJump → Except JumpFailure (List Slot)
  | call offset => CallLRAndR.emit patch launch offset delay after
  | branchAlways cfi => BranchAlwaysLRAndR.emit patch launch cfi delay before
  | branchNever cfi => BranchNeverLRAndR.emit patch launch cfi delay before
  | nonDCTI w => NonDCTILRAndR.emit patch launch w after

/-- The code that puts an address into `%o7`, and its length. -/
def linkCode : Option Kptr → Option (List Word)
  | none => some []
  | some a => SparcInstr.genImmAddr a Reg.o7

def linkLen : Option Kptr → Nat
  | none => 0
  | some a => immAddrLen a

section Emit

variable {c : OneJump} {patch launch : Kptr} {delay w : Word} {before after : SparcRegSet}

/-- The four layouts in their common form. -/
theorem emit_eq (patch launch : Kptr) (delay : Word) (before after : SparcRegSet) (c : OneJump) :
    c.emit patch launch delay before after = (do
      let line ← UsualJump.asserted (linkCode (c.link launch))
      let emitted ← emitAround patch (line.map newSlot) (c.target launch) (c.avail before after)
        (c.isFirst before after) (slotOf (c.runs launch delay))
      assertNumBytes (c.conservativeNumInsnBytesForRAndR before after) emitted) := by
  have hslot : ∀ annul : Bool, (if annul then [] else [delaySlot delay]) =
      slotOf (if annul then none else some (delay, launch + 4)) := by
    intro annul
    cases annul <;> rfl
  cases c with
  | call offset => simp only [emit, CallLRAndR.emit, emitJumpAndDelay_eq]; rfl
  | branchAlways cfi | branchNever cfi =>
    simp only [emit, BranchAlwaysLRAndR.emit, BranchNeverLRAndR.emit, emitJumpAndDelay_eq, hslot]
    rfl
  | nonDCTI w => rfl

theorem linkCode_spec {link : Option Kptr} (h : ∀ {a}, link = some a → a.toNat < 2 ^ 44) :
    ∃ line, linkCode link = some line ∧ line.length = linkLen link ∧
      Line sem line fun σ => σ.link link := by
  rcases link with _ | a
  · exact ⟨[], rfl, rfl, Line.nil sem⟩
  · obtain ⟨line, hload, hlen, -, hline⟩ :=
      genImmAddr_spec sem Reg.o7 (h rfl)
    exact ⟨line, hload, hlen, hline⟩

theorem link_lt (hlaunch : launch.toNat < 2 ^ 32) (c : OneJump) {a : Kptr}
    (h : c.link launch = some a) : a.toNat < 2 ^ 44 := by
  have heq : a = launch := by
    cases c <;> simp_all [link]
  rw [heq]
  omega

theorem target_aligned (hc : c.Fitting w) (hlaunch : launch.toNat % 4 = 0) :
    (c.target launch).toNat % 4 = 0 := by
  cases c with
  | call offset => exact call_target_aligned hc hlaunch
  | branchAlways cfi => exact destination_aligned (decode_branch_valid hc.1) hlaunch
  | branchNever cfi | nonDCTI v => exact add_aligned hlaunch (by decide)

theorem runs_isPlain (hc : c.Fitting w) (hplain : (decode delay).isPlain) {i : Word} {pc : Kptr}
    (h : c.runs launch delay = some (i, pc)) :
    (decode i).isPlain ∧ (pc = launch ∨ pc = launch + 4) := by
  cases c with
  | nonDCTI v =>
    obtain ⟨rfl, hv⟩ := hc
    obtain ⟨rfl, rfl⟩ : v = i ∧ launch = pc := by simpa [runs] using h
    exact ⟨hv, by simp⟩
  | call offset =>
    obtain ⟨rfl, rfl⟩ : delay = i ∧ launch + 4 = pc := by simpa [runs] using h
    exact ⟨hplain, by simp⟩
  | branchAlways cfi | branchNever cfi =>
    obtain ⟨-, rfl, rfl⟩ : cfi.annul = false ∧ delay = i ∧ launch + 4 = pc := by
      simpa [runs] using h
    exact ⟨hplain, by simp⟩

/-- If the instruction comes first, the jump changes registers after it only. -/
theorem avail_first (h : c.isFirst before after = true) :
    intRegs (c.avail before after) ⊆ c.freeAfter after ∧
      (c.runs launch delay = none → intRegs (c.avail before after) ⊆
        c.freeBefore before after) := by
  cases c with
  | nonDCTI v => exact ⟨subset_rfl, fun hnone => nomatch hnone⟩
  | _ =>
    have hempty := of_decide_eq_true h
    rw [hempty, CondBranch0FreeAfter.intRegs_emptyset]
    exact ⟨Set.empty_subset _, fun _ => Set.empty_subset _⟩

theorem avail_last (h : c.isFirst before after = false) :
    intRegs (c.avail before after) ⊆ c.freeBefore before after := by
  cases c with
  | nonDCTI v => cases h
  | _ => exact subset_rfl

/-- Where the jump starts, and whether its delay slot is left open. -/
def jumpFrom (patch launch : Kptr) (delay : Word) (before after : SparcRegSet) (c : OneJump) :
    Kptr :=
  jumpAddr patch (linkLen (c.link launch)) (c.isFirst before after) (c.runs launch delay)

def leavesDsOpen (launch : Kptr) (delay : Word) (before after : SparcRegSet) (c : OneJump) :
    Bool :=
  !c.isFirst before after && (c.runs launch delay).isSome

/-- The jump that the layout needs, if it can be built, leaves the code within its bound. -/
def HasRoom (patch launch : Kptr) (delay : Word) (before after : SparcRegSet) (c : OneJump) :
    Prop :=
  ∀ n, jumpNumBytes (c.jumpFrom patch launch delay before after) (c.target launch)
      (c.avail before after) (c.leavesDsOpen launch delay before after) = some n →
    4 * linkLen (c.link launch) + 4 * (c.runs launch delay).isSome.toNat + n ≤
      c.conservativeNumInsnBytesForRAndR before after

/-- Neither the target nor the original code is in the patch, which is new memory. -/
structure IsFresh (c : OneJump) (patch launch : Kptr) (before after : SparcRegSet) : Prop where
  target : c.conservativeNumInsnBytesForRAndR before after ≤ (c.target launch - patch).toNat
  insn : ∀ a, a = launch ∨ a = launch + 4 →
    c.conservativeNumInsnBytesForRAndR before after ≤ (a - patch).toNat

/-- The emitted code does what the original does. -/
def PreservedBy (c : OneJump) (patch : Kptr) (slots : List Slot) (launch : Kptr) (delay : Word)
    (before after : SparcRegSet) : Prop :=
  ∀ σ : Arch ρ, ∃ σ', Reaches sem (blockCode patch slots) (Cpu.seq patch σ 0)
      (Cpu.seq (c.target launch) σ' (c.runs launch delay).isSome.toNat) ∧
    Leads sem (c.runs launch delay) (c.freeBefore before after) (c.freeAfter after)
      (σ.link (c.link launch)) σ'

theorem conservative_le (c : OneJump) (before after : SparcRegSet) :
    c.conservativeNumInsnBytesForRAndR before after ≤ 28 := by
  cases c <;> simp only [conservativeNumInsnBytesForRAndR,
    CallLRAndR.conservativeNumInsnBytesForRAndR,
    BranchAlwaysLRAndR.conservativeNumInsnBytesForRAndR,
    BranchNeverLRAndR.conservativeNumInsnBytesForRAndR, branchNumBytes,
    NonDCTILRAndR.conservativeNumInsnBytesForRAndR, UsualJump.maxNumInsnBytes1FreeReg,
    UsualJump.maxNumInsnBytesNoFreeRegsNoOpenDS, UsualJump.maxNumInsnBytes1FreeRegPlusDelayIfAny]
  · decide
  all_goals split <;> decide

/-- **What is emitted does what the original does**, with the instruction at an address of
the patch. -/
theorem emit_spec (hc : c.Fitting w) (hplain : (decode delay).isPlain)
    (hpatch : patch.toNat % 4 = 0) (hlaunch : launch.toNat < 2 ^ 32)
    (hlaunch4 : launch.toNat % 4 = 0) {slots : List Slot}
    (h : c.emit patch launch delay before after = .ok slots) :
    numBytes slots ≤ c.conservativeNumInsnBytesForRAndR before after ∧
    (∃ n, jumpNumBytes (c.jumpFrom patch launch delay before after) (c.target launch)
        (c.avail before after) (c.leavesDsOpen launch delay before after) = some n ∧
      4 * linkLen (c.link launch) + 4 * (c.runs launch delay).isSome.toNat + n = numBytes slots) ∧
    ∃ m, ((c.runs launch delay).isSome = true → m < slots.length) ∧ ∀ σ : Arch ρ, ∃ σ',
      Reaches sem (blockCode patch slots) (seq patch σ 0)
        (seq (c.target launch) σ' (c.runs launch delay).isSome.toNat) ∧
      Leads sem ((c.runs launch delay).map fun r => (r.1, patch + ofNat 64 (4 * m)))
        (c.freeBefore before after) (c.freeAfter after) (σ.link (c.link launch)) σ' := by
  obtain ⟨line, hline, hlen, hrunLine⟩ := linkCode_spec sem (link_lt hlaunch c)
  rw [emit_eq, hline] at h
  simp only [bind_eq_ok, asserted_eq_ok, assertNumBytes, check_eq_some, some.injEq] at h
  obtain ⟨_, rfl, emitted, hemit, -, hsize, hslots⟩ := h
  obtain rfl : emitted = slots := Except.ok.inj hslots
  have hbound : 4 * emitted.length ≤ 28 := hsize.trans (conservative_le c before after)
  obtain ⟨⟨n, hn, hnum⟩, hruns⟩ := emitAround_of_ok sem hpatch (target_aligned hc hlaunch4) hrunLine
    (fun i pc hi => (runs_isPlain hc hplain hi).1) avail_first avail_last hemit (by omega)
  rw [hlen] at hn hnum
  exact ⟨hsize, ⟨n, hn, hnum.symm⟩, hruns⟩

theorem emit_of_room (hc : c.Fitting w) (hpatch : patch.toNat % 4 = 0)
    (hlaunch : launch.toNat < 2 ^ 32) (hlaunch4 : launch.toNat % 4 = 0)
    (hroom : c.HasRoom patch launch delay before after) {n : Nat}
    (hn : jumpNumBytes (c.jumpFrom patch launch delay before after) (c.target launch)
      (c.avail before after) (c.leavesDsOpen launch delay before after) = some n) :
    ∃ slots, c.emit patch launch delay before after = .ok slots := by
  obtain ⟨line, hline, hlen, -⟩ := linkCode_spec idleSem (link_lt hlaunch c)
  have hfits := hroom n hn
  rw [jumpFrom, ← hlen] at hn
  obtain ⟨slots, hok, hnum⟩ := emitAround_of_size hpatch (target_aligned hc hlaunch4) hn
  refine ⟨slots, ?_⟩
  rw [emit_eq, hline]
  simp only [bind_eq_ok, asserted_eq_ok, assertNumBytes, check_eq_some]
  exact ⟨line, rfl, slots, hok, (), by omega, rfl⟩

theorem linkLen_le (hlaunch : launch.toNat < 2 ^ 32) (c : OneJump) :
    linkLen (c.link launch) ≤ 2 := by
  cases c with
  | call offset =>
    rw [link, linkLen, immAddrLen, if_pos hlaunch, imm32Len]
    split <;> decide
  | _ => exact Nat.zero_le 2

/-- A target below 4 GB leaves room. -/
theorem hasRoom_of_below (hlaunch : launch.toNat < 2 ^ 32)
    (htarget : (c.target launch).toNat < 2 ^ 32) : c.HasRoom patch launch delay before after := by
  intro n hn
  have hle := jumpNumBytes_le_16 htarget hn
  have hlink := linkLen_le hlaunch c
  have hruns := Bool.toNat_le (c.runs launch delay).isSome
  cases c with
  | call offset =>
    rw [conservativeNumInsnBytesForRAndR, CallLRAndR.conservativeNumInsnBytesForRAndR]
    omega
  | branchAlways cfi | branchNever cfi =>
    have hbound : 20 ≤ branchNumBytes before := by
      rw [branchNumBytes]
      split <;> decide
    exact le_trans (by simp only [link, linkLen]; omega) hbound
  | nonDCTI v =>
    have hbound : 20 ≤ NonDCTILRAndR.conservativeNumInsnBytesForRAndR after := by
      rw [NonDCTILRAndR.conservativeNumInsnBytesForRAndR]
      split <;> decide
    exact le_trans (by simp only [link, linkLen]; omega) hbound

end Emit

/-! ## Preserving the original -/

section Preserved

variable {sem} {c : OneJump} {patch launch : Kptr} {delay w : Word} {before after : SparcRegSet}

theorem add_ofNat_ne {a : Kptr} {bound m : Nat} (hm : 4 * m < bound)
    (hfresh : bound ≤ (a - patch).toNat) : patch + ofNat 64 (4 * m) ≠ a := by
  rintro rfl
  rw [BitVec.add_comm, BitVec.add_sub_cancel, toNat_ofNat] at hfresh
  omega

/-- **`rd %pc` is not preserved.** -/
theorem not_preservedBy_of_seesPc [Inhabited ρ] (hsem : OnlyRdPcReadsPc sem) (hc : c.Fitting w)
    (hplain : (decode delay).isPlain) (hpatch : patch.toNat % 4 = 0)
    (hlaunch : launch.toNat < 2 ^ 32) (hlaunch4 : launch.toNat % 4 = 0)
    (hfresh : c.IsFresh patch launch before after) {i : Word} {a : Kptr}
    (hruns : c.runs launch delay = some (i, a)) (hsees : SeesPc i (c.freeAfter after))
    {slots : List Slot} (h : c.emit patch launch delay before after = .ok slots) :
    ¬ c.PreservedBy sem patch slots launch delay before after := by
  intro hpreserved
  obtain ⟨hsize, -, m, hm, hrun⟩ := emit_spec sem hc hplain hpatch hlaunch hlaunch4 h
  let σ : Arch ρ := uniformState 0 ⟨false, false, false, false⟩ 0
  obtain ⟨σ', hreach, hleads⟩ := hrun σ
  obtain ⟨σ'', hreach', hleads'⟩ := hpreserved σ
  have hend : blockCode patch slots (c.target launch) = none :=
    blockCode_eq_none (hsize.trans hfresh.target)
  obtain rfl : σ' = σ'' := congrArg Cpu.arch (hreach.end_unique hreach' hend hend)
  rw [hruns] at hleads hleads' hm
  have hlt : m < slots.length := hm rfl
  have haddr : c.conservativeNumInsnBytesForRAndR before after ≤ (a - patch).toNat :=
    hfresh.insn a (runs_isPlain hc hplain hruns).2
  have hnew : σ'.read (regField i 25) = patch + ofNat 64 (4 * m) :=
    Leads.read_of_seesPc hsem hsees hleads
  have hold : σ'.read (regField i 25) = a := Leads.read_of_seesPc hsem hsees hleads'
  refine add_ofNat_ne (m := m) (lt_of_lt_of_le ?_ hsize) haddr (hnew.symm.trans hold)
  rw [numBytes]
  omega

theorem jumpFrom_lt (hpatch : patch.toNat < 2 ^ 32) (hlaunch : launch.toNat < 2 ^ 32) :
    (c.jumpFrom patch launch delay before after).toNat + 4 < 2 ^ 43 := by
  have hlink := linkLen_le hlaunch c
  have hruns := Bool.toNat_le (c.runs launch delay).isSome
  rw [jumpFrom, jumpAddr, BitVec.toNat_add, toNat_ofNat]
  split <;> omega

/-- **Calls, unconditional branches and plain instructions are preserved** exactly if the jump
can be built, there is room for it, and no instruction is executed that sees its address. -/
theorem preserved_iff [Inhabited ρ] {followedByRestore followedByWriteToO7 : Bool}
    {anyPreReturnSnippets : Bool} (hsem : OnlyRdPcReadsPc sem) (hd : c.Describes w)
    (hchosen : createLRAndR w followedByRestore followedByWriteToO7 before after
      anyPreReturnSnippets = some c.toLRAndR)
    (hplain : (decode delay).isPlain) (hpatch : patch.toNat < 2 ^ 32)
    (hlaunch : launch.toNat < 2 ^ 32) (hpatch4 : patch.toNat % 4 = 0)
    (hlaunch4 : launch.toNat % 4 = 0)
    (hfresh : c.IsFresh patch launch before after) :
    (∃ slots, c.emit patch launch delay before after = .ok slots ∧
      numBytes slots ≤ c.conservativeNumInsnBytesForRAndR before after ∧
      c.PreservedBy sem patch slots launch delay before after) ↔
    CanJump (c.jumpFrom patch launch delay before after) (c.target launch) (c.avail before after)
        (c.leavesDsOpen launch delay before after) ∧
      c.HasRoom patch launch delay before after ∧
      ∀ i pc, c.runs launch delay = some (i, pc) → ¬ SeesPc i (c.freeAfter after) := by
  have hc := hd.fitting hchosen
  rw [← exists_jumpNumBytes_iff (jumpFrom_lt hpatch hlaunch)
    (add_aligned hpatch4 (Nat.mul_mod_right 4 _))
    (target_aligned hc hlaunch4)]
  constructor
  · rintro ⟨slots, hemit, hsize, hpreserved⟩
    obtain ⟨-, ⟨n, hn, hnum⟩, -⟩ := emit_spec sem hc hplain hpatch4 hlaunch hlaunch4 hemit
    refine ⟨⟨n, hn⟩, fun m hm => ?_, fun i pc hruns hsees => ?_⟩
    · obtain rfl : n = m := mem_unique hn hm
      exact hnum ▸ hsize
    · exact not_preservedBy_of_seesPc hsem hc hplain hpatch4 hlaunch hlaunch4 hfresh hruns hsees
        hemit hpreserved
  · rintro ⟨⟨n, hn⟩, hroom, hsees⟩
    obtain ⟨slots, hemit⟩ := emit_of_room hc hpatch4 hlaunch hlaunch4 hroom hn
    obtain ⟨hsize, -, m, -, hrun⟩ := emit_spec sem hc hplain hpatch4 hlaunch hlaunch4 hemit
    refine ⟨slots, hemit, hsize, fun σ => ?_⟩
    obtain ⟨σ', hreach, hleads⟩ := hrun σ
    exact ⟨σ', hreach, hleads.move hsem hsees⟩

end Preserved

/-! ### Two instructions -/

/-- `call .+0x1000` at `0x10000000`, relocated to `0x20000000` with `%g1` and `%o7` free after
it and a `nop` in the delay slot. -/
theorem preserved_call :
    ∃ slots, (call 0x1000).emit 0x20000000 0x10000000 0x01000000 .emptyset ⟨0x8002, 0, 0⟩ =
        .ok slots ∧
      numBytes slots ≤ (call 0x1000).conservativeNumInsnBytesForRAndR .emptyset ⟨0x8002, 0, 0⟩ ∧
      (call 0x1000).PreservedBy rdPcSem 0x20000000 slots 0x10000000 0x01000000 .emptyset
        ⟨0x8002, 0, 0⟩ := by
  have hd : (call 0x1000).Describes 0x40000400 := by
    show decode 0x40000400 = .call 0x1000
    decide
  refine (preserved_iff onlyRdPcReadsPc_rdPcSem hd
    (by decide : createLRAndR 0x40000400 false false .emptyset ⟨0x8002, 0, 0⟩ false = some .call)
    (by decide) (by decide) (by decide) (by decide) (by decide)
    ⟨by decide, by rintro a (rfl | rfl) <;> decide⟩).mpr
    ⟨⟨by decide, fun _ => .inr (by decide), by decide⟩,
      hasRoom_of_below (by decide) (by decide), fun i pc hruns => ?_⟩
  obtain ⟨rfl, rfl⟩ : (0x01000000 : Word) = i ∧ (0x10000004 : Kptr) = pc := by
    simpa [runs] using hruns
  rintro ⟨hrd, -⟩
  exact absurd hrd (by decide)

/-- `rd %pc, %o0` at `0x10000000` leaves the address of the patch in `%o0`; and a `nop` there
cannot be relocated to `0x90000000` if no register is free, since the jump back goes exactly
2 GB backwards. -/
theorem rd_pc_and_far_nop_not_preserved :
    createLRAndR 0x91414000 false false .emptyset ⟨2, 0, 0⟩ false = some .nonDCTI ∧
    (∃ slots, (nonDCTI 0x91414000).emit 0x20000000 0x10000000 0x01000000 .emptyset ⟨2, 0, 0⟩ =
        .ok slots ∧
      ¬ (nonDCTI 0x91414000).PreservedBy rdPcSem 0x20000000 slots 0x10000000 0x01000000 .emptyset
        ⟨2, 0, 0⟩) ∧
    createLRAndR 0x01000000 false false .emptyset .emptyset false = some .nonDCTI ∧
    ∀ slots, (nonDCTI 0x01000000).emit 0x90000000 0x10000000 0x01000000 .emptyset .emptyset ≠
      .ok slots := by
  have hsees : SeesPc 0x91414000 ((nonDCTI 0x91414000).freeAfter ⟨2, 0, 0⟩) := by
    refine ⟨by decide, by decide, ?_⟩
    show ¬ (SparcRegSet.mem ⟨2, 0, 0⟩ (.int (regField 0x91414000 25)) = true)
    decide
  have hfits : (nonDCTI 0x91414000).Fitting 0x91414000 := ⟨rfl, by decide⟩
  have hnop : (nonDCTI 0x01000000).Fitting 0x01000000 := ⟨rfl, by decide⟩
  have hcan : CanJump 0x20000004 0x10000004 ⟨2, 0, 0⟩ false := ⟨by decide, by decide, by decide⟩
  obtain ⟨n, hn⟩ := (exists_jumpNumBytes_iff (by decide) (by decide) (by decide)).mpr hcan
  have hroom : (nonDCTI 0x91414000).HasRoom 0x20000000 0x10000000 0x01000000 .emptyset ⟨2, 0, 0⟩ :=
    hasRoom_of_below (by decide) (by decide)
  obtain ⟨slots, hemit⟩ := emit_of_room hfits (by decide) (by decide) (by decide) hroom hn
  refine ⟨by decide, ⟨slots, hemit, not_preservedBy_of_seesPc onlyRdPcReadsPc_rdPcSem hfits
    (by decide) (by decide) (by decide) (by decide) ⟨by decide, by rintro a (rfl | rfl) <;> decide⟩
    rfl hsees hemit⟩, by decide, fun slots hslots => ?_⟩
  obtain ⟨-, ⟨n, hn, -⟩, -⟩ :=
    emit_spec idleSem hnop (by decide) (by decide) (by decide) (by decide)
    hslots
  have hcan := (exists_jumpNumBytes_iff (by decide) (by decide) (by decide)).mp ⟨n, hn⟩
  exact hcan.call (by decide) (by decide) (by decide)

end OneJump

end Kerninst
