import Kerninst.CodeObject.Emission

/-!
# Getting to the fall-through code

Modelled from `codeObject/src/codeObject.C`. A block that used to fall through into the next one
may now be followed by another block, and what it falls through to may be in another function,
which may itself be moved.

* `emitGettingToIntraProcFallee` — nothing if the block comes next, one branch if it is near, and
  otherwise a jump through a register. If `%o7` is available a call is emitted, and then the
  function runs into the assertion at its end.
* `emitGettingToInterProcFallee` — a jump through a register. Whichever register was loaded, it
  jumps through `%l0`. And where the destination is moved, two braces are missing: if the delay
  slot is to be left open, the jump is emitted once more.

`IntraFalleeWorks` and `InterFalleeWorks` say when the code is nevertheless right
(`gettingToFallee_iff`).
-/

namespace Kerninst.CodeObject

open List Option Reg SparcInstr AddrSource
open UsualJump (always)
open BitVec (ofNat isLt)

universe u

/-! ## The source -/

section Source

variable (L : OutliningLocations) (findModAndFn : FindModAndFn)

/-- Both blocks are in one group, or the groups are next to each other. -/
def OutliningLocations.nearby (ourBlockId destBlockId : Nat) : Bool :=
  L.isBlockInlined ourBlockId = L.isBlockInlined destBlockId ∨
    L.whereOutlinedBlocksReside = .afterInlinedBlocks

/-- A far jump to a block. Outlined blocks are emitted first, so the way goes to an inlined
one. -/
def emitFarJumpToBlock (availRegs : SparcRegSet) (ourBlockId destBlockId : Nat) :
    Option (List Emission) := do
  check (L.isBlockInlined destBlockId ∨ ¬ L.isBlockInlined ourBlockId)
  check (availRegs.mem (.int Reg.g0) = false)
  match firstReg availRegs with
  | none => emitJumpInWindow (.label (getBlockLabel destBlockId))
  | some reg =>
    -- with `%o7` a call and a `nop` are emitted, and then comes `assert(false)`
    check (availRegs.mem (.int Reg.o7) = false)
    let r ← getIntNum reg
    check (r ≠ Reg.g0)
    let load ← (AddrSource.label (getBlockLabel destBlockId)).emitTo r
    let jump ← SparcInstr.jumpReg r
    let nop ← SparcInstr.nop
    pure (load ++ [.insn jump, .insn nop])

def emitGettingToIntraProcFallee (availRegs : SparcRegSet) (ourBlockId : Nat)
    (destBlockId : Option Nat) : Option (List Emission) := do
  let dest ← destBlockId
  let blockEmittedNextIfAny ← L.whoIfAnyoneWillBeEmittedAfter ourBlockId
  if blockEmittedNextIfAny = some dest then pure []
  else if L.nearby ourBlockId dest then emitBranchAlways true (getBlockLabel dest)
  else emitFarJumpToBlock L availRegs ourBlockId dest

/-- Where an interprocedural fall-through goes: a function that is moved has only a name yet. -/
def OutliningLocations.falleeSource (fallThruOrigAddr : Kptr) : Option AddrSource :=
  if L.isFuncBeingInlinedAndOutlined fallThruOrigAddr then
    (L.outlinedFnFullName findModAndFn fallThruOrigAddr).map .symbol
  else some (.known fallThruOrigAddr)

/-- What is emitted after the jump. Where the destination is moved, the `emit` after the `if` is
for both of its cases, and `i` is still the jump. -/
def afterFalleeJump (moved leaveDelaySlotOpen : Bool) (jump nop : Word) : List Word :=
  if leaveDelaySlotOpen then if moved then [jump] else [] else [nop]

def emitGettingToInterProcFallee (leaveDelaySlotOpen : Bool) (availRegs : SparcRegSet)
    (fallThruOrigAddr : Option Kptr) : Option (List Emission) := do
  let addr ← fallThruOrigAddr
  let dest ← L.falleeSource findModAndFn addr
  match firstReg availRegs with
  | none =>
    check (leaveDelaySlotOpen = false)
    emitJumpInWindow dest
  | some reg =>
    let r ← getIntNum reg
    let load ← dest.emitTo r
    let jump ← SparcInstr.jumpReg Reg.l0
    let nop ← SparcInstr.nop
    let moved := L.isFuncBeingInlinedAndOutlined addr
    pure (load ++ (jump :: afterFalleeJump moved leaveDelaySlotOpen jump nop).map .insn)

def emitSetRegToInterProcFalleeAddr (destReg : Reg) (fallThruOrigAddr : Option Kptr) :
    Option (List Emission) := do
  let addr ← fallThruOrigAddr
  let dest ← L.falleeSource findModAndFn addr
  dest.emitTo destReg

end Source

/-! ## What the code should do -/

section Spec

variable {ρ : Type u} (sem : Sem ρ) (a : Addrs) (p : Kptr)

/-- The code leads from `p` to `t`, with its last delay slot open or not. -/
def LeadsTo (isOpen : Bool) (ws : List Word) (t : Kptr) (F : Set Reg) : Prop :=
  if isOpen then JumpsOpen sem p ws t F else Jumps sem p ws t F

/-- No assertion fails, and the resolved code leads to `t`. -/
def GetsTo (isOpen : Bool) (emitted : Option (List Emission)) (t : Kptr) (F : Set Reg) : Prop :=
  ∃ ws, emitted.bind (assemble a p) = some (ws.map newSlot) ∧ LeadsTo sem p isOpen ws t F

/-- When getting to a block that does not come next works. -/
def IntraFalleeWorks (L : OutliningLocations) (availRegs : SparcRegSet)
    (ourBlockId destBlockId : Nat) : Prop :=
  let t := a.label (getBlockLabel destBlockId)
  if L.nearby ourBlockId destBlockId then Encodable 19 (t - p).toInt
  else L.isBlockInlined ourBlockId = false ∧ availRegs.mem (.int Reg.g0) = false ∧ LoadFits t ∧
    ∀ reg, firstReg availRegs = some reg →
      availRegs.mem (.int Reg.o7) = false ∧ ∃ r, reg = .int r

/-- When getting to another function works: with no register, or if the first one is `%l0`. -/
def InterFalleeWorks (dest : AddrSource) (moved isOpen : Bool) (availRegs : SparcRegSet) : Prop :=
  dest.Fits a ∧ match firstReg availRegs with
    | none => isOpen = false
    | some reg => reg = .int Reg.l0 ∧ (moved = true → isOpen = false)

end Spec

variable {slots : List Slot} {ws : List Word} {jump : Word} {r : Reg}

/-! ## Pieces of code -/

section Pieces

variable {ρ : Type u} (sem : Sem ρ) {a : Addrs} {p t : Kptr}

theorem jumpReg_spec (r : Reg) : ∃ w, jumpReg r = some w ∧ decode w = .jmpl g0 r (.reg g0) :=
  jumpRegReg_spec r g0

theorem add_operand_g0 (σ : Arch ρ) (x : BitVec 64) : x + σ.operand (.reg g0) = x := by
  exact BitVec.add_zero x

/-- A straight line and a jump through a register that it has computed. -/
theorem lineJump_run {code : Code} {g : Arch ρ → Arch ρ} (hline : Line sem ws g)
    (hd : decode jump = .jmpl g0 r (.reg g0)) (hcode : Holds code p ((ws ++ [jump]).map newSlot))
    {σ : Arch ρ} (hread : (g σ).read r = t) (ht : t.toNat % 4 = 0) (k : Nat) :
    Reaches sem code (Cpu.seq p σ k)
      ⟨p + ofNat 64 (4 * (ws ++ [jump]).length), t, g σ, k⟩ := by
  rw [map_append] at hcode
  obtain ⟨hhead, hjump⟩ := hcode.append
  rw [length_map] at hjump
  set q := p + ofNat 64 (4 * ws.length) with hq
  have hstep : step sem code (Cpu.seq q (g σ) k) = some ⟨q + 4, t, (g σ).write g0 q, k⟩ :=
    step_jmpl hjump.head hd (by rw [add_operand_g0, hread]) ht
  have hend : p + ofNat 64 (4 * (ws ++ [jump]).length) = q + 4 := by
    rw [length_append, Nat.mul_add, BitVec.ofNat_add, ← BitVec.add_assoc]
    rfl
  rw [hend]
  exact (hline.run code p σ k hhead).tail hstep

/-- A jump through the register that was loaded. -/
theorem jumpsOpen_loaded (hr : r ≠ g0) (ht : t.toNat % 4 = 0)
    (hline : Line sem ws fun σ => σ.write r t) (hd : decode jump = .jmpl g0 r (.reg g0)) :
    JumpsOpen sem p (ws ++ [jump]) t {r} :=
  fun _ σ k hcode => ⟨_, lineJump_run sem hline hd hcode (Arch.read_write_self σ hr t) ht k,
    SameExcept.write (Set.mem_singleton r) _⟩

/-- **The jump that needs no register.** -/
theorem emitJumpInWindow_spec {dest : AddrSource} (hfits : dest.Fits a)
    (ht : (dest.value a).toNat % 4 = 0) :
    ∃ es ws, emitJumpInWindow dest = some es ∧ codeSize es = dest.size + 3 ∧
      (∀ pc, assemble a pc es = some (ws.map newSlot)) ∧
      ∀ pc, Jumps sem pc ws (dest.value a) ∅ := by
  obtain ⟨es, ws, hes, hsize, hasm, hline⟩ := dest.emitTo_spec sem l0 hfits
  obtain ⟨jump, hjump, hdj⟩ := jumpReg_spec l0
  have hlead : ∀ pc, ∃ save restore, SparcInstr.save (-minFrameAlignedNumBytes) = some save ∧
      SparcInstr.restore = some restore ∧ isSave save = true ∧ isSave restore = false ∧
      Jumps sem pc ([save] ++ (ws ++ [jump]) ++ [restore]) (dest.value a) ∅ := fun pc =>
    (jumpsOpen_loaded sem (by decide : l0 ≠ g0) ht hline hdj).in_window sem
      (Set.singleton_subset_iff.mpr ⟨by decide, by decide⟩) (by decide) (by decide)
  obtain ⟨save, restore, hsave, hrestore, -, -, -⟩ := hlead 0
  refine ⟨.insn save :: es ++ [.insn jump, .insn restore], [save] ++ (ws ++ [jump]) ++ [restore],
    ?_, ?_, fun pc => ?_, fun pc => ?_⟩
  · simp [emitJumpInWindow, hsave, hes, hjump, hrestore]
  · simp only [codeSize, cons_append, map_cons, map_append, sum_cons,
      sum_append, Emission.size, map_nil, sum_nil] at hsize ⊢
    omega
  · rw [cons_append, assemble_cons (show Emission.words a pc (.insn save) = some _ from rfl),
      assemble_append, hasm]
    simp only [bind_some, show ([.insn jump, .insn restore] : List Emission) =
      [jump, restore].map .insn from rfl, assemble_insns, map_some]
    simp
  · obtain ⟨save', restore', hsave', hrestore', -, -, hjumps⟩ := hlead pc
    obtain rfl : save = save' := mem_unique hsave hsave'
    obtain rfl : restore = restore' := mem_unique hrestore hrestore'
    exact hjumps

theorem fits_of_emitJumpInWindow {dest : AddrSource}
    (h : (emitJumpInWindow dest).bind (assemble a p) = some slots) : dest.Fits a := by
  simp only [emitJumpInWindow, bind_assoc, do_eq_some] at h
  obtain ⟨save, -, load, hload, jump, -, restore, -, hasm⟩ := h
  rw [cons_append, assemble_cons (show Emission.words a p (.insn save) = some _ from rfl),
    assemble_append, map_eq_some_iff] at hasm
  obtain ⟨rest, hrest, -⟩ := hasm
  obtain ⟨ws, hws, -⟩ := exists_of_bind hrest
  exact fits_of_assemble l0 hload hws

/-- **The single branch.** It reaches what 19 bits can encode. -/
theorem emitBranchAlways_spec (annulled : Bool) {l : String}
    (henc : Encodable 19 (a.label l - p).toInt) :
    ∃ es w, emitBranchAlways annulled l = some es ∧ assemble a p es = some [newSlot w] ∧
      decode w = .branch ⟨.bpcc true true, always, annulled, (a.label l - p).toInt⟩ := by
  obtain ⟨i, hi, hdi⟩ := bpcc_spec annulled true true
    (by decide : always < 16) (by decide : Encodable 19 0)
  obtain ⟨w, hw, hdw⟩ := changeBranchOffset_spec hdi henc (by simp [BranchKind.isFloat])
  refine ⟨[.branchToLabel i l], w, by simp only [emitBranchAlways, hi]; rfl, ?_, hdw⟩
  simp only [assemble, Emission.words, branchWords, hw, run_do, append_nil]

theorem fits_of_emitBranchAlways {annulled : Bool} {l : String}
    (h : (emitBranchAlways annulled l).bind (assemble a p) = some slots) :
    Encodable 19 (a.label l - p).toInt := by
  obtain ⟨i, hi, hdi⟩ := bpcc_spec annulled true true
    (by decide : always < 16) (by decide : Encodable 19 0)
  simp only [emitBranchAlways, hi, assemble, Emission.words, branchWords, do_eq_some] at h
  obtain ⟨_, ⟨w, hw, -⟩, -⟩ := h
  exact (changeBranchOffset_fits hdi hw).1

/-- A branch that is always taken, with its delay slot open or annulled. -/
theorem leadsTo_branchAlways {w : Word} {annul : Bool}
    (hd : decode w = .branch ⟨.bpcc true true, always, annul, (t - p).toInt⟩) :
    LeadsTo sem p (!annul) [w] t ∅ := by
  cases annul with
  | true | false =>
    intro code σ k hcode
    refine ⟨σ, Reaches.single (step_branch hcode.head hd ?_), SameExcept.refl _ _⟩
    have htaken : σ.holds (BranchKind.tested (.bpcc true true)) always = true :=
      testIcc_always σ.xcc
    simp only [branchTo, htaken, add_ofInt_sub, Branch.isAlways]
    simp [always]

end Pieces

variable {isOpen : Bool}

/-! ## Where a run ends -/

section Ends

variable {ρ : Type u} {sem : Sem ρ} {p t : Kptr} {code : Code}

theorem step_eq_none {c : Cpu ρ} (h : code c.pc = none) : step sem code c = none := by
  simp [step, h]

/-- A run has one end. -/
theorem eq_of_ends {c d e : Cpu ρ} (hd : Reaches sem code c d) (he : Reaches sem code c e)
    (hdend : step sem code d = none) (heend : step sem code e = none) : d = e := by
  have hstay : ∀ {x y : Cpu ρ}, step sem code x = none → Reaches sem code x y → x = y := by
    intro x y hx hxy
    rcases Relation.ReflTransGen.cases_head hxy with heq | ⟨z, hstep, -⟩
    · exact heq
    · rw [hx] at hstep
      cases hstep
  rcases hd.total he with h | h
  · exact hstay hdend h
  · exact (hstay heend h).symm

theorem LeadsTo.mono {F G : Set Reg} (h : LeadsTo sem p isOpen ws t F) (hFG : F ⊆ G) :
    LeadsTo sem p isOpen ws t G := by
  cases isOpen with
  | true => exact JumpsOpen.mono h hFG
  | false => exact Jumps.mono h hFG

/-- **Where the code leads to is where its runs end**, on a machine that has no other code. -/
theorem LeadsTo.eq_end {F : Set Reg}
    (h : LeadsTo sem p isOpen ws t F) (hout : 4 * ws.length ≤ (t - p).toNat) {σ : Arch ρ} {k : Nat}
    {d : Cpu ρ} (hrun : Reaches sem (blockCode p (ws.map newSlot)) (Cpu.seq p σ k) d)
    (hend : step sem (blockCode p (ws.map newSlot)) d = none) :
    blockCode p (ws.map newSlot) d.pc = none ∧
      ∃ σ', d = if isOpen then ⟨p + ofNat 64 (4 * ws.length), t, σ', k⟩
        else Cpu.seq t σ' k := by
  have hlen : 4 * ws.length < 2 ^ 64 := hout.trans_lt (t - p).isLt
  have hcode : Holds (blockCode p (ws.map newSlot)) p (ws.map newSlot) :=
    holds_blockCode p (by rwa [length_map])
  cases isOpen with
  | true =>
    obtain ⟨σ₁, hto, -⟩ := h _ σ k hcode
    have hnone : blockCode p (ws.map newSlot) (p + ofNat 64 (4 * ws.length)) = none :=
      blockCode_eq_none (by rw [length_map]; exact (toNat_add_sub p hlen).ge)
    obtain rfl := eq_of_ends hrun hto hend (step_eq_none hnone)
    exact ⟨hnone, σ₁, rfl⟩
  | false =>
    obtain ⟨σ₁, hto, -⟩ := h _ σ k hcode
    have hnone : blockCode p (ws.map newSlot) t = none :=
      blockCode_eq_none (by rwa [length_map])
    obtain rfl := eq_of_ends hrun hto hend (step_eq_none hnone)
    exact ⟨hnone, σ₁, rfl⟩

/-- A jump through `%l0`, after another register was loaded, gets stuck if `%l0` holds no
address. -/
theorem stray_jump {v : Kptr} (hr : l0 ≠ r) (hline : Line sem ws fun σ => σ.write r v)
    (hd : decode jump = .jmpl g0 l0 (.reg g0)) (hcode : Holds code p ((ws ++ [jump]).map newSlot))
    {σ : Arch ρ} (hodd : (σ.read l0).toNat % 4 ≠ 0) (k : Nat) :
    ∃ d, Reaches sem code (Cpu.seq p σ k) d ∧ step sem code d = none ∧
      d.pc = p + ofNat 64 (4 * ws.length) := by
  rw [map_append] at hcode
  obtain ⟨hhead, hjump⟩ := hcode.append
  rw [length_map] at hjump
  refine ⟨_, hline.run code p σ k hhead, ?_, rfl⟩
  have hslot : code (Cpu.seq (p + ofNat 64 (4 * ws.length)) (σ.write r v) k).pc =
      some (newSlot jump) := hjump.head
  have hdecode : decode (newSlot jump).word = .jmpl g0 l0 (.reg g0) := hd
  simp only [step, hslot, hdecode]
  rw [if_neg]
  change ¬ ((σ.write r v).read l0 + (σ.write r v).operand (.reg g0)).toNat % 4 = 0
  rwa [add_operand_g0, Arch.read_write_of_ne _ hr]

/-- Two jumps in a row: the second one runs in the delay slot of the first, and the target is
entered with its own delay slot. -/
theorem double_jump (hr : r ≠ g0) (ht : t.toNat % 4 = 0)
    (hline : Line sem ws fun σ => σ.write r t) (hd : decode jump = .jmpl g0 r (.reg g0))
    (hcode : Holds code p ((ws ++ [jump, jump]).map newSlot)) (σ : Arch ρ) (k : Nat) :
    ∃ σ', Reaches sem code (Cpu.seq p σ k) ⟨t, t, σ', k⟩ := by
  rw [append_cons, map_append] at hcode
  obtain ⟨hfirst, hsecond⟩ := hcode.append
  rw [length_map] at hsecond
  have hrun := lineJump_run sem hline hd hfirst (Arch.read_write_self σ hr t) ht k
  have htarget : (σ.write r t).read r + (σ.write r t).operand (.reg g0) = t := by
    rw [add_operand_g0, Arch.read_write_self _ hr]
  exact ⟨_, hrun.tail (step_jmpl hsecond.head hd htarget ht)⟩

end Ends

/-! ## Another function -/

section Inter

variable {ρ : Type u} (sem : Sem ρ) {a : Addrs} {p : Kptr} {L : OutliningLocations}
  {findModAndFn : FindModAndFn} {availRegs : SparcRegSet} {addr : Kptr} {dest : AddrSource}

theorem firstReg_mem {reg : SparcReg} (h : firstReg availRegs = some reg) :
    availRegs.mem reg = true :=
  (mem_filter.mp (mem_of_head? h)).2

/-- The two ways in which the code is wrong. It jumps through a register that was not loaded, or
the jump has itself in its delay slot. -/
structure WrongFallee (dest : AddrSource) (moved isOpen : Bool) (slots : List Slot) where
  load : List Word
  jump : Word
  nop : Word
  r : Reg
  slots_eq : slots = (load ++ jump :: afterFalleeJump moved isOpen jump nop).map newSlot
  run_load : Line sem load fun σ => σ.write r (dest.value a)
  decode_jump : decode jump = .jmpl Reg.g0 Reg.l0 (.reg Reg.g0)
  decode_nop : decode nop = .sethi Reg.g0 0
  wrong : Reg.l0 ≠ r ∨ r = Reg.l0 ∧ moved = true ∧ isOpen = true

variable (hsrc : L.falleeSource findModAndFn addr = some dest)
include hsrc

/-- The code through a register, for the first one of the set. -/
theorem interFallee_code (isOpen : Bool) (hfirst : firstReg availRegs = some (.int r))
    (hfits : dest.Fits a) :
    ∃ es ws jump nop, emitGettingToInterProcFallee L findModAndFn isOpen availRegs (some addr) =
        some es ∧
      (∀ pc, assemble a pc es = some ((ws ++ jump :: afterFalleeJump
        (L.isFuncBeingInlinedAndOutlined addr) isOpen jump nop).map newSlot)) ∧
      Line sem ws (fun σ => σ.write r (dest.value a)) ∧
      decode jump = .jmpl g0 l0 (.reg g0) ∧ decode nop = .sethi g0 0 := by
  obtain ⟨es, ws, hes, -, hasm, hline⟩ := dest.emitTo_spec sem r hfits
  obtain ⟨jump, hjump, hdj⟩ := jumpReg_spec l0
  obtain ⟨nop, hnop, hdn⟩ := nop_spec
  refine ⟨es ++ (jump :: afterFalleeJump (L.isFuncBeingInlinedAndOutlined addr) isOpen jump nop).map
    .insn, ws, jump, nop, ?_, fun pc => ?_, hline, hdj, hdn⟩
  · simp [emitGettingToInterProcFallee, hsrc, hfirst, getIntNum, hes, hjump, hnop]
  · rw [assemble_append, hasm, bind_some, assemble_insns, map_some, map_append]

/-- What was assembled has a register to go through, and an address that fits. -/
theorem fits_of_interFallee {reg : SparcReg} (hfirst : firstReg availRegs = some reg)
    (h : (emitGettingToInterProcFallee L findModAndFn isOpen availRegs (some addr)).bind
      (assemble a p) = some slots) : (∃ r, reg = .int r) ∧ dest.Fits a := by
  simp only [emitGettingToInterProcFallee, hsrc, hfirst, bind_assoc, do_eq_some] at h
  obtain ⟨r, hr, load, hload, jump, -, nop, -, hasm⟩ := h
  rw [assemble_append] at hasm
  obtain ⟨ws, hws, -⟩ := exists_of_bind hasm
  refine ⟨?_, fits_of_assemble r hload hws⟩
  cases reg with
  | int r => exact ⟨r, rfl⟩
  | fp n | misc n => cases hr

/-- **What was assembled for another function** works, or is wrong in one of these ways. -/
theorem interFallee_cases
    (h : (emitGettingToInterProcFallee L findModAndFn isOpen availRegs (some addr)).bind
      (assemble a p) = some slots) :
    InterFalleeWorks a dest (L.isFuncBeingInlinedAndOutlined addr) isOpen availRegs ∨
      Nonempty (WrongFallee sem (a := a) dest (L.isFuncBeingInlinedAndOutlined addr) isOpen
        slots) := by
  cases hfirst : firstReg availRegs with
  | none =>
    left
    simp only [emitGettingToInterProcFallee, hsrc, hfirst, bind_assoc, do_eq_some,
      check_eq_some] at h
    obtain ⟨-, hclosed, h⟩ := h
    rw [InterFalleeWorks, hfirst]
    exact ⟨fits_of_emitJumpInWindow (bind_eq_some_iff.mpr h), hclosed⟩
  | some reg =>
    obtain ⟨⟨r, rfl⟩, hfits⟩ := fits_of_interFallee hsrc hfirst h
    obtain ⟨es, load, jump, nop, hes, hasm, hline, hdj, hdn⟩ :=
      interFallee_code sem hsrc isOpen hfirst hfits
    rw [hes, bind_some, hasm] at h
    rw [InterFalleeWorks, hfirst]
    by_cases hr : r = l0
    · by_cases hwrong : L.isFuncBeingInlinedAndOutlined addr = true ∧ isOpen = true
      · exact .inr ⟨⟨load, jump, nop, r, (some.inj h).symm, hline, hdj, hdn, .inr ⟨hr, hwrong⟩⟩⟩
      · refine .inl ⟨hfits, by rw [hr], fun hmoved => ?_⟩
        exact Bool.eq_false_of_not_eq_true fun hopen => hwrong ⟨hmoved, hopen⟩
    · exact .inr ⟨⟨load, jump, nop, r, (some.inj h).symm, hline, hdj, hdn, .inl (Ne.symm hr)⟩⟩

theorem interFallee_getsTo (ht : (dest.value a).toNat % 4 = 0)
    (h : InterFalleeWorks a dest (L.isFuncBeingInlinedAndOutlined addr) isOpen availRegs) :
    GetsTo sem a p isOpen (emitGettingToInterProcFallee L findModAndFn isOpen availRegs (some addr))
      (dest.value a) (intRegs availRegs) := by
  obtain ⟨hfits, h⟩ := h
  cases hfirst : firstReg availRegs with
  | none =>
    rw [hfirst] at h
    obtain rfl : isOpen = false := h
    obtain ⟨es, ws, hes, -, hasm, hjumps⟩ := emitJumpInWindow_spec sem hfits ht
    refine ⟨ws, ?_, (hjumps p).mono (Set.empty_subset _)⟩
    simp [emitGettingToInterProcFallee, hsrc, hfirst, check_pos, hes, hasm]
  | some reg =>
    rw [hfirst] at h
    obtain ⟨rfl, hclosed⟩ := h
    obtain ⟨es, load, jump, nop, hes, hasm, hline, hdj, hdn⟩ :=
      interFallee_code sem hsrc isOpen hfirst hfits
    have hmem : ({l0} : Set Reg) ⊆ intRegs availRegs :=
      Set.singleton_subset_iff.mpr (firstReg_mem hfirst)
    have hopen := jumpsOpen_loaded sem (by decide : l0 ≠ g0) ht hline hdj (p := p)
    refine ⟨_, by rw [hes, bind_some, hasm], ?_⟩
    cases isOpen with
    | true =>
      have hmoved : L.isFuncBeingInlinedAndOutlined addr = false := by
        rw [Bool.eq_false_iff]
        exact fun h => Bool.noConfusion (hclosed h)
      rw [hmoved]
      exact hopen.mono hmem
    | false =>
      have hplain : (decode nop).isPlain := by rw [hdn]; rfl
      have hclose := hopen.close hplain fun pc σ => by
        rw [exec_nop sem hdn]
        exact SameExcept.refl _ _
      rw [append_assoc] at hclose
      exact hclose.mono hmem

/-- **Getting to another function** works exactly when no register is used, or the first one is
`%l0`. -/
theorem interFallee_iff [Inhabited ρ] (ht : (dest.value a).toNat % 4 = 0)
    (hout : ∀ slots, (emitGettingToInterProcFallee L findModAndFn isOpen availRegs
      (some addr)).bind (assemble a p) = some slots → 4 * slots.length < (dest.value a - p).toNat) :
    GetsTo sem a p isOpen (emitGettingToInterProcFallee L findModAndFn isOpen availRegs (some addr))
      (dest.value a) (intRegs availRegs) ↔
    InterFalleeWorks a dest (L.isFuncBeingInlinedAndOutlined addr) isOpen availRegs := by
  refine ⟨?_, interFallee_getsTo sem hsrc ht⟩
  rintro ⟨ws, hws, hlead⟩
  obtain hworks | ⟨load, jump, nop, r, heq, hline, hdj, -, hwrong⟩ :=
    interFallee_cases sem hsrc hws
  · exact hworks
  exfalso
  have hout' := hout _ hws
  have hinj : Function.Injective newSlot := fun w w' h => congrArg Slot.word h
  obtain rfl := map_injective_iff.mpr hinj heq
  rw [length_map] at hout'
  have hlen := hout'.trans (isLt _)
  set after := afterFalleeJump (L.isFuncBeingInlinedAndOutlined addr) isOpen jump nop with hafter
  set code := blockCode p ((load ++ jump :: after).map newSlot) with hcode
  have hblock : Holds code p ((load ++ jump :: after).map newSlot) :=
    holds_blockCode p (by rwa [length_map])
  obtain hr | ⟨rfl, hmoved, hisOpen⟩ := hwrong
  · -- another register was loaded: from a state with an odd `%l0` the run gets stuck
    obtain ⟨σ, hodd⟩ : ∃ σ : Arch ρ, (σ.read l0).toNat % 4 ≠ 0 :=
      ⟨uniformState 1 ⟨false, false, false, false⟩ 0, by
        rw [read_uniformState (by decide)]; decide⟩
    rw [append_cons, map_append] at hblock
    obtain ⟨d, hrun, hend, hpc⟩ := stray_jump hr hline hdj hblock.append.1 hodd 0
    have hnone := (hlead.eq_end hout'.le hrun hend).1
    have hjump := hblock.append.1
    rw [map_append] at hjump
    have hslot := hjump.append.2.head
    rw [length_map, ← hpc, hcode, hnone] at hslot
    cases hslot
  · -- the delay slot of the first jump is not open: it holds the second one
    have htwice : after = [jump] := by rw [hafter, hmoved, hisOpen]; rfl
    rw [htwice] at hblock hlead hout' hcode hlen
    obtain ⟨σ', hrun⟩ := double_jump (by decide : l0 ≠ g0) ht hline hdj hblock
      (uniformState 1 ⟨false, false, false, false⟩ 0) 0
    have hnone : code (dest.value a) = none := by
      rw [hcode]
      exact blockCode_eq_none (by rw [length_map]; exact hout'.le)
    rw [hcode] at hrun hnone
    obtain ⟨-, σ'', hd⟩ := hlead.eq_end hout'.le hrun (step_eq_none hnone)
    rw [hisOpen] at hd
    have hpc : dest.value a = p + ofNat 64 (4 * (load ++ [jump, jump]).length) :=
      congrArg Cpu.pc hd
    rw [hpc, toNat_add_sub p hlen] at hout'
    exact lt_irrefl _ hout'

end Inter

/-! ## A block of the function -/

section Intra

variable {ρ : Type u} (sem : Sem ρ) {a : Addrs} {p : Kptr} {L : OutliningLocations}
  {availRegs : SparcRegSet} {ourBlockId destBlockId : Nat}

section Far

variable (hfar : L.nearby ourBlockId destBlockId = false)
include hfar

/-- The order in which the groups are emitted, for blocks that are not near each other. -/
theorem far_order_iff :
    (L.isBlockInlined destBlockId = true ∨ ¬ L.isBlockInlined ourBlockId = true) ↔
      L.isBlockInlined ourBlockId = false := by
  have hgroups : L.isBlockInlined ourBlockId ≠ L.isBlockInlined destBlockId := by
    intro h
    simp [OutliningLocations.nearby, h] at hfar
  cases hour : L.isBlockInlined ourBlockId <;> cases hdest : L.isBlockInlined destBlockId <;>
    simp_all

/-- What was assembled for a far jump works: for an outlined block, if `%o7` is not among the
registers. -/
theorem works_of_farJumpToBlock
    (h : (emitFarJumpToBlock L availRegs ourBlockId destBlockId).bind (assemble a p) =
      some slots) : IntraFalleeWorks a p L availRegs ourBlockId destBlockId := by
  simp only [IntraFalleeWorks, hfar, Bool.false_eq_true, if_false]
  simp only [emitFarJumpToBlock, bind_assoc, do_eq_some, check_eq_some] at h
  obtain ⟨-, hour, -, hg0, h⟩ := h
  rw [far_order_iff hfar] at hour
  cases hfirst : firstReg availRegs with
  | none =>
    simp only [hfirst] at h
    exact ⟨hour, hg0, fits_of_emitJumpInWindow (bind_eq_some_iff.mpr h), by simp⟩
  | some reg =>
    simp only [hfirst, do_eq_some, check_eq_some] at h
    obtain ⟨es, ⟨-, ho7, r, hr, -, -, load, hload, jump, -, nop, -, rfl⟩, hasm⟩ := h
    rw [assemble_append] at hasm
    obtain ⟨loadSlots, hslots, -⟩ := exists_of_bind hasm
    have hfits : Fits a (.label (getBlockLabel destBlockId)) :=
      fits_of_assemble r hload hslots
    refine ⟨hour, hg0, hfits, fun reg' hreg => ⟨ho7, ?_⟩⟩
    obtain rfl := some.inj hreg
    cases reg with
    | int r => exact ⟨r, rfl⟩
    | fp n | misc n => cases hr

theorem farJumpToBlock_getsTo (ht : (a.label (getBlockLabel destBlockId)).toNat % 4 = 0)
    (h : IntraFalleeWorks a p L availRegs ourBlockId destBlockId) :
    GetsTo sem a p false (emitFarJumpToBlock L availRegs ourBlockId destBlockId)
      (a.label (getBlockLabel destBlockId)) (intRegs availRegs) := by
  simp only [IntraFalleeWorks, hfar, Bool.false_eq_true, if_false] at h
  obtain ⟨hour, hg0, hfits, hreg⟩ := h
  have horder := (far_order_iff hfar).mpr hour
  have hfits' : Fits a (.label (getBlockLabel destBlockId)) := hfits
  cases hfirst : firstReg availRegs with
  | none =>
    obtain ⟨es, ws, hes, -, hasm, hjumps⟩ := emitJumpInWindow_spec sem hfits' ht
    refine ⟨ws, ?_, (hjumps p).mono (Set.empty_subset _)⟩
    simp only [emitFarJumpToBlock, check_pos horder, check_pos hg0, hfirst, hes, run_do, hasm]
  | some reg =>
    obtain ⟨ho7, r, rfl⟩ := hreg reg hfirst
    have hr : r ≠ g0 := by
      rintro rfl
      rw [firstReg_mem hfirst] at hg0
      cases hg0
    obtain ⟨es, ws, hes, -, hasm, hline⟩ := emitTo_spec sem r hfits'
    obtain ⟨jump, hjump, hdj⟩ := jumpReg_spec r
    obtain ⟨nop, hnop, -, hclosed⟩ :=
      (jumpsOpen_loaded sem hr ht hline hdj (p := p)).close_nop
    refine ⟨ws ++ [jump] ++ [nop], ?_,
      hclosed.mono (Set.singleton_subset_iff.mpr (firstReg_mem hfirst))⟩
    simp only [emitFarJumpToBlock, check_pos horder, check_pos hg0, hfirst, check_pos ho7,
      getIntNum, check_pos hr, hes, hjump, hnop, run_do]
    rw [assemble_append, hasm, bind_some,
      show ([.insn jump, .insn nop] : List Emission) = [jump, nop].map .insn from rfl,
      assemble_insns, map_some]
    simp

end Far

variable {next : Option Nat} (hnext : L.whoIfAnyoneWillBeEmittedAfter ourBlockId = some next)
  (hne : next ≠ some destBlockId)
include hnext hne

/-- What is emitted for a block that does not come next. -/
theorem emitGettingToIntraProcFallee_eq :
    emitGettingToIntraProcFallee L availRegs ourBlockId (some destBlockId) =
      if L.nearby ourBlockId destBlockId then emitBranchAlways true (getBlockLabel destBlockId)
      else emitFarJumpToBlock L availRegs ourBlockId destBlockId := by
  simp [emitGettingToIntraProcFallee, hnext, if_neg hne]

theorem works_of_intraFallee
    (h : (emitGettingToIntraProcFallee L availRegs ourBlockId (some destBlockId)).bind
      (assemble a p) = some slots) : IntraFalleeWorks a p L availRegs ourBlockId destBlockId := by
  rw [emitGettingToIntraProcFallee_eq hnext hne] at h
  cases hnear : L.nearby ourBlockId destBlockId with
  | true =>
    rw [hnear, if_pos rfl] at h
    simp only [IntraFalleeWorks, hnear, if_true]
    exact fits_of_emitBranchAlways h
  | false =>
    rw [hnear, if_neg (by decide)] at h
    exact works_of_farJumpToBlock hnear h

theorem intraFallee_getsTo (ht : (a.label (getBlockLabel destBlockId)).toNat % 4 = 0)
    (h : IntraFalleeWorks a p L availRegs ourBlockId destBlockId) :
    GetsTo sem a p false (emitGettingToIntraProcFallee L availRegs ourBlockId (some destBlockId))
      (a.label (getBlockLabel destBlockId)) (intRegs availRegs) := by
  rw [emitGettingToIntraProcFallee_eq hnext hne]
  cases hnear : L.nearby ourBlockId destBlockId with
  | true =>
    simp only [IntraFalleeWorks, hnear, if_true] at h
    obtain ⟨es, w, hes, hasm, hd⟩ := emitBranchAlways_spec true h
    rw [if_pos rfl]
    exact ⟨[w], by rw [hes, bind_some, hasm]; rfl,
      (leadsTo_branchAlways sem hd).mono (Set.empty_subset _)⟩
  | false =>
    exact farJumpToBlock_getsTo sem hnear ht h

end Intra

/-! ## Both together -/

/-- **Getting to the fall-through code** that does not come next, a block of the function or
another function: the resolved code leads there, with the delay slot open or not as asked for,
exactly if `IntraFalleeWorks` or `InterFalleeWorks`. -/
theorem gettingToFallee_iff {ρ : Type u} [Inhabited ρ] (sem : Sem ρ) (a : Addrs) (p : Kptr)
    (L : OutliningLocations) (findModAndFn : FindModAndFn) (availRegs : SparcRegSet) :
    (∀ ourBlockId destBlockId next, L.whoIfAnyoneWillBeEmittedAfter ourBlockId = some next →
      next ≠ some destBlockId → (a.label (getBlockLabel destBlockId)).toNat % 4 = 0 →
      (GetsTo sem a p false
        (emitGettingToIntraProcFallee L availRegs ourBlockId (some destBlockId))
        (a.label (getBlockLabel destBlockId)) (intRegs availRegs) ↔
      IntraFalleeWorks a p L availRegs ourBlockId destBlockId)) ∧
    ∀ isOpen addr dest, L.falleeSource findModAndFn addr = some dest →
      (dest.value a).toNat % 4 = 0 →
      (∀ slots, (emitGettingToInterProcFallee L findModAndFn isOpen availRegs (some addr)).bind
        (assemble a p) = some slots → 4 * slots.length < (dest.value a - p).toNat) →
      (GetsTo sem a p isOpen
        (emitGettingToInterProcFallee L findModAndFn isOpen availRegs (some addr))
        (dest.value a) (intRegs availRegs) ↔
      InterFalleeWorks a dest (L.isFuncBeingInlinedAndOutlined addr) isOpen availRegs) :=
  ⟨fun _ _ _ hnext hne ht =>
      ⟨fun ⟨_, hws, _⟩ => works_of_intraFallee hnext hne hws, intraFallee_getsTo sem hnext hne ht⟩,
    fun _ _ _ hsrc ht hout => interFallee_iff sem hsrc ht hout⟩

/-- A function whose blocks 0 and 1 stay inline, with block 2 far away. -/
def threeBlocks : OutliningLocations where
  groupUniqueId := 0
  whereOutlinedBlocksReside := .farFarAway
  funcsBeingInlinedAndOutlined := []
  justTestingNoChanges := false
  inlinedBlocks := [0, 1]
  outlinedBlocks := [2]
  inlined_nodup := by decide
  outlined_nodup := by decide

/-- All labels and symbols at one address. -/
def flatAddrs (addr : Kptr) : Addrs := ⟨fun _ => addr, fun _ => addr⟩

theorem length_falleeCode (r : Reg) (hr : r = 1 ∨ r = l0) (slots : List Slot)
    (h : (emitGettingToInterProcFallee threeBlocks (fun _ => none) false (.ofInt r)
      (some 0x2000)).bind (assemble (flatAddrs 0x2000) 0x1000) = some slots) :
    4 * slots.length < (0x2000 - 0x1000 : Kptr).toNat := by
  have hlen : ((emitGettingToInterProcFallee threeBlocks (fun _ => none) false (.ofInt r)
      (some 0x2000)).bind (assemble (flatAddrs 0x2000) 0x1000)).map length = some 3 := by
    rcases hr with rfl | rfl <;> decide +kernel
  rw [h] at hlen
  rw [some.inj hlen]
  decide

/-- With only `%g1` available, the address is loaded into `%g1`, and the jump is through
`%l0`. -/
theorem not_getsTo_g1 :
    ¬ GetsTo idleSem (flatAddrs 0x2000) 0x1000 false
      (emitGettingToInterProcFallee threeBlocks (fun _ => none) false (.ofInt 1) (some 0x2000))
      0x2000 (intRegs (.ofInt 1)) := by
  intro h
  have hsrc : threeBlocks.falleeSource (fun _ => none) 0x2000 = some (.known 0x2000) := rfl
  have hiff := interFallee_iff idleSem hsrc (by decide) (length_falleeCode 1 (.inl rfl))
  obtain ⟨-, hworks⟩ := hiff.mp h
  have hfirst : firstReg (.ofInt 1) = some (.int 1) := by decide +kernel
  exact absurd hworks.1 (by decide)

/-- From block 1 back to block 0, and with `%l0` available to another function. -/
theorem getsTo_near_and_l0 :
    GetsTo idleSem (flatAddrs 0x2000) 0x1000 false
      (emitGettingToIntraProcFallee threeBlocks .emptyset 1 (some 0)) 0x2000
      (intRegs .emptyset) ∧
    GetsTo idleSem (flatAddrs 0x2000) 0x1000 false
      (emitGettingToInterProcFallee threeBlocks (fun _ => none) false (.ofInt Reg.l0)
        (some 0x2000)) 0x2000 (intRegs (.ofInt Reg.l0)) := by
  constructor
  · refine ((gettingToFallee_iff idleSem (flatAddrs 0x2000) 0x1000 threeBlocks (fun _ => none)
      .emptyset).1 1 0 none (by decide) (by decide) (by decide)).mpr ?_
    have hnear : threeBlocks.nearby 1 0 = true := by decide
    simp only [IntraFalleeWorks, hnear, if_true]
    decide
  · refine ((gettingToFallee_iff idleSem (flatAddrs 0x2000) 0x1000 threeBlocks (fun _ => none)
      (.ofInt l0)).2 false 0x2000 (.known 0x2000) rfl (by decide)
      (length_falleeCode l0 (.inr rfl))).mpr ?_
    have hfirst : firstReg (.ofInt l0) = some (.int l0) := by decide +kernel
    have hfits : (0x2000 : Kptr).toNat < 2 ^ 44 := by decide
    exact ⟨hfits, rfl, fun _ => rfl⟩

end Kerninst.CodeObject
