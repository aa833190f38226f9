import Kerninst.CodeObject.CondBranch

/-!
# Conditional branches to another function

Modelled from `codeObject/src/interProcCondBranchCodeObject.C`. The other function may be too far
away for a branch, and then the layout depends on the registers that are available.

* It still fits: the branch, with a way to the fall-through code after it.
* Two registers before the branch: both destinations are loaded, a conditional move chooses one,
  and a jump leads there.
* One register after the branch: a branch around the way to the fall-through code, to a jump
  through the register.
* None: a branch around the way to the fall-through code, or a reversed branch to the fall-through
  block, and a jump in a window of its own.

The last two build the new branch in a local variable and emit its address, which is dangling when
the labels are resolved. So only the first two can keep the meaning of the branch, and
`emitWhenRelocatedTo_iff` says when they do. The sets may contain `%g0`, and `begin` of an
iterator does not skip it.
-/

namespace Kerninst.CodeObject

open SameExcept List AddrSource Reg
open BitVec (isLt)
open Option (bind_some bind_eq_some_iff map_eq_some_iff)

universe u

/-! ## The source -/

/-- The two classes of code objects, for a destination that stays where it is and for one that is
known by name. -/
inductive InterProcDest
  | toAddr (destAddr : Kptr)
  | toName (destName : String) (destOriginalAddress : Kptr)

namespace InterProcDest

def originalAddress : InterProcDest → Kptr
  | toAddr destAddr => destAddr
  | toName _ destOriginalAddress => destOriginalAddress

/-- What `emitAssignIfTakenAddrToReg` loads. -/
def source : InterProcDest → AddrSource
  | toAddr destAddr => .known destAddr
  | toName destName _ => .symbol destName

def emitBranchInsnAssumeWillFit (origBranchInsn : Word) : InterProcDest → Emission
  | toAddr destAddr => .interprocBranchToAddr origBranchInsn destAddr
  | toName destName _ => .interprocBranchToName origBranchInsn destName

end InterProcDest

/-- `interProcCondBranchCodeObject`. The constructor keeps only the integer registers of each
set. -/
structure InterProcCondBranchCodeObject where
  dest : InterProcDest
  insn : Word
  cfi : Branch
  before : SparcRegSet
  afterBranch : SparcRegSet
  after : SparcRegSet
  decode_insn : decode insn = .branch cfi
  truly : trulyConditional cfi = true
  onlyInt : onlyIntRegs before ∧ onlyIntRegs afterBranch ∧ onlyIntRegs after

/-- The label of the code for the taken branch. -/
def ifTakenLabelName (owningBlockId : Nat) : String :=
  toString owningBlockId ++ "interProcCondBranch_iftaken"

namespace InterProcCondBranchCodeObject

variable (o : InterProcCondBranchCodeObject) (s : Site) (dsInsn : Word)

def emitStillFits : Option (List Emission) := do
  let fallee ← s.emitGettingToFallee o.after
  pure (o.dest.emitBranchInsnAssumeWillFit o.insn :: .delayInsn dsInsn :: fallee)

/-- With two registers: no branch at all. -/
def emitConditionalMove (r₁ r₂ : Reg) : Option (List Emission) := do
  let loadTaken ← o.dest.source.emitTo r₂
  let loadFall ← match s.fallThruBlockId with
    | none =>
      emitSetRegToInterProcFalleeAddr s.whereBlocksNowReside s.findModAndFn r₁ s.fallThruOrigAddr
    | some id => (AddrSource.label (getBlockLabel id)).emitTo r₁
  let move ← cfi2ConditionalMove o.cfi r₂ r₁
  let jump ← SparcInstr.jumpReg r₁
  pure (loadTaken ++ (loadFall ++ [.insn move, .insn jump, .delayInsn dsInsn]))

/-- The untaken case with one register. The delay slot is left open if its instruction is to be
run in this case, too. -/
def emitNotTaken : Option (List Emission) :=
  match s.fallThruBlockId with
  | none => emitGettingToInterProcFallee s.whereBlocksNowReside s.findModAndFn (!o.cfi.annul)
      o.afterBranch s.fallThruOrigAddr
  | some id => emitBranchAlways o.cfi.annul (getBlockLabel id)

/-- With one register: its value is the destination of the branch. The branch is a local variable
here and in the layouts without a register. -/
def emitThroughReg : Option (List Emission) := do
  let branch ← changeBranchOffsetAndAnnulBit o.insn 0 false
  let nop ← SparcInstr.nop
  let notTaken ← o.emitNotTaken s
  let notTakenDelay := if o.cfi.annul then [] else [.delayInsn dsInsn]
  let reg ← firstReg o.afterBranch
  let r ← getIntNum reg
  check (r ≠ Reg.g0)
  let load ← o.dest.source.emitTo r
  let jump ← SparcInstr.jumpReg r
  pure (.dangling (.branchToForwardLabel branch (ifTakenLabelName s.owningBlockId)) :: .insn nop ::
    (notTaken ++ (notTakenDelay ++ .label (ifTakenLabelName s.owningBlockId) ::
      (load ++ [.insn jump, .delayInsn dsInsn]))))

/-- Without a register: the reversed branch, and a jump to the destination after it. -/
def emitReversed (id : Nat) : Option (List Emission) := do
  let w ← reverseBranchPolarity o.insn o.cfi
  let branch ← changeBranchOffset w 0
  let jump ← emitJumpInWindow o.dest.source
  pure (.dangling (.branchToLabel branch (getBlockLabel id)) :: .delayInsn dsInsn :: jump)

/-- Without a register: the branch around the untaken case, and a jump to the destination. -/
def emitAroundFallee (notTaken : Option (List Emission)) : Option (List Emission) := do
  let branch ← changeBranchOffset o.insn 0
  let notTaken ← notTaken
  let jump ← emitJumpInWindow o.dest.source
  pure (.dangling (.branchToForwardLabel branch (ifTakenLabelName s.owningBlockId)) ::
    .delayInsn dsInsn :: (notTaken ++ .label (ifTakenLabelName s.owningBlockId) :: jump))

def emitWithoutReg : Option (List Emission) :=
  match o.cfi.annul, s.fallThruBlockId with
  | false, some id => o.emitReversed dsInsn id
  | true, some id => o.emitAroundFallee s dsInsn (emitBranchAlways true (getBlockLabel id))
  | _, none => o.emitAroundFallee s dsInsn (emitGettingToInterProcFallee s.whereBlocksNowReside
      s.findModAndFn false .emptyset s.fallThruOrigAddr)

def emitWhenRelocatedTo : Option (List Emission) :=
  if s.whereBlocksNowReside.willInterprocBranchStillFit o.dest.originalAddress then
    o.emitStillFits s dsInsn
  else if 2 ≤ o.before.countIntRegs ∧ o.cfi.annul = false then
    match iterate o.before with
    | .int r₁ :: .int r₂ :: _ => o.emitConditionalMove s dsInsn r₁ r₂
    | _ => none
  else if 1 ≤ o.afterBranch.countIntRegs then o.emitThroughReg s dsInsn
  else o.emitWithoutReg s dsInsn

variable (a : Addrs) (p : Kptr) (fallDest : AddrSource)

/-- When the emitted code is right: only if the branch still fits, or if there are two registers
before a branch that is not annulled. -/
def Works : Prop :=
  if s.whereBlocksNowReside.willInterprocBranchStillFit o.dest.originalAddress then
    Encodable o.cfi.kind.dispBits (o.dest.source.value a - p).toInt ∧
      s.FalleeWorks a (p + 8) o.after
  else if 2 ≤ o.before.countIntRegs ∧ o.cfi.annul = false then
    o.before.mem (.int Reg.g0) = false ∧ o.dest.source.Fits a ∧ fallDest.Fits a
  else False

/-- The branch tests no floating-point condition, and no register that is dead before it; the
function it goes to is at an instruction, and so is the code it falls into. -/
structure Leads : Prop extends s.Falls a fallDest where
  int : o.cfi.kind.isFloat = false
  tested : ∀ r, o.cfi.kind.tested = .reg r → r ∉ intRegs o.before
  taken_aligned : (o.dest.source.value a).toNat % 4 = 0
  taken_ne_zero : o.dest.source.value a ≠ 0

/-- The two destinations, and zero. -/
def outside : List Kptr := [o.dest.source.value a, fallDest.value a, 0]

/-- The emitted code keeps the meaning of the branch. Registers that are available before or after
the branch may change before the delay-slot instruction, others only after it. -/
def Keeps {ρ : Type u} (sem : Sem ρ) (emitted : Word → Option (List Emission)) : Prop :=
  KeepsMeaning sem p o.cfi s a (o.outside a fallDest) emitted (o.dest.source.value a)
    (fallDest.value a) (intRegs o.before ∪ intRegs o.afterBranch) (intRegs o.after)

end InterProcCondBranchCodeObject

open InterProcCondBranchCodeObject

/-! ## Registers of a set -/

section Registers

variable {s : SparcRegSet}

theorem iterate_eq (s : SparcRegSet) : ∃ others, iterate s =
    ((finRange 32).filter fun r => s.mem (.int r)).map .int ++ others := by
  refine ⟨((finRange 64).map SparcReg.fp ++ (finRange 10).map SparcReg.misc).filter s.mem, ?_⟩
  rw [iterate, allRegs, append_assoc, filter_append, filter_map]
  rfl

theorem length_intRegs (s : SparcRegSet) :
    ((finRange 32).filter fun r => s.mem (.int r)).length = s.countIntRegs := by
  simp only [SparcRegSet.countIntRegs, SparcRegSet.mem, bind_eq_flatMap, pure_def,
    ← map_eq_flatMap, filter_map, length_map, Function.comp_def]

/-- Two registers of the set, of which only the first can be `%g0`. -/
theorem iterate_eq_cons_cons (h : 2 ≤ s.countIntRegs) : ∃ r₁ r₂ others,
    iterate s = .int r₁ :: .int r₂ :: others ∧ r₁ ≠ r₂ ∧ r₂ ≠ g0 ∧ s.mem (.int r₁) = true ∧
      s.mem (.int r₂) = true := by
  obtain ⟨others, hiter⟩ := iterate_eq s
  rw [← length_intRegs] at h
  have hsorted := (pairwise_lt_finRange 32).filter fun r => s.mem (.int r)
  have hmem : ∀ r ∈ (finRange 32).filter fun r => s.mem (.int r), s.mem (.int r) = true :=
    fun r hr => (mem_filter.mp hr).2
  match hregs : (finRange 32).filter fun r => s.mem (.int r) with
  | [] =>
    rw [hregs] at h
    cases h
  | [r] =>
    rw [hregs] at h
    exact absurd h (by simp)
  | r₁ :: r₂ :: rs =>
    rw [hregs] at hiter hsorted hmem
    have hlt : r₁ < r₂ := (pairwise_cons.mp hsorted).1 r₂ (mem_cons_self ..)
    refine ⟨r₁, r₂, _, hiter, hlt.ne, ?_, hmem r₁ (by simp), hmem r₂ (by simp)⟩
    intro h0
    rw [h0] at hlt
    exact Nat.not_lt_zero r₁.val hlt

/-- `%g0` comes first. -/
theorem firstReg_eq_g0 (h : s.mem (.int g0) = true) : firstReg s = some (.int g0) := by
  have hall : allRegs = .int g0 :: allRegs.tail := by decide +kernel
  rw [firstReg, iterate, hall, filter_cons_of_pos h]
  rfl

/-- The first register is `%g0` exactly if the set has it. -/
theorem ne_g0_iff_of_firstReg {r : Reg} (h : firstReg s = some (.int r)) :
    r ≠ g0 ↔ s.mem (.int g0) = false := by
  constructor
  · intro hr
    refine Bool.eq_false_of_not_eq_true fun hmem => hr ?_
    simpa [h] using firstReg_eq_g0 hmem
  · rintro hmem rfl
    rw [firstReg_mem h] at hmem
    cases hmem

end Registers

/-! ## The layouts -/

section Layouts

variable {ρ : Type u} (sem : Sem ρ) {o : InterProcCondBranchCodeObject} {s : Site} {a : Addrs}
  {p : Kptr} {fallDest : AddrSource}

theorem InterProcCondBranchCodeObject.Leads.not_float (hs : o.Leads s a fallDest) {annul : Bool}
    (h : o.cfi.kind.isFloat = true) : annul = true :=
  absurd (hs.int.symm.trans h) (by decide)

/-! ### The branch still fits -/

theorem assemble_branch {e : Emission} {i : Word} {taken : Kptr}
    (he : e.words a p = branchWords i p taken) (hsize : e.size = 1) (es : List Emission) :
    assemble a p (e :: es) = (changeBranchOffset i (taken - p).toInt).bind fun w =>
      (assemble a (p + 4) es).map (newSlot w :: ·) := by
  simp only [assemble, he, hsize, branchWords, run_do, Option.bind_assoc, Option.map_eq_bind,
    Function.comp_def, singleton_append]
  rfl

theorem assemble_delayInsn (w : Word) (es : List Emission) :
    assemble a p (.delayInsn w :: es) = (assemble a (p + 4) es).map (delaySlot w :: ·) := by
  rw [assemble_cons (show Emission.words a p (.delayInsn w) = some _ from rfl)]
  rfl

theorem assemble_insn (w : Word) (es : List Emission) :
    assemble a p (.insn w :: es) = (assemble a (p + 4) es).map (newSlot w :: ·) := by
  rw [assemble_cons (show Emission.words a p (.insn w) = some _ from rfl)]
  rfl

/-- With a wrong way to the fall-through code, the run for the untaken case ends somewhere else. The
instruction after the branch is a `nop` here. -/
theorem not_runsAs_of_wrong {ρ : Type u} [Inhabited ρ] {sem : Sem ρ} {p : Kptr} {b : Branch}
    {s : Site} {a : Addrs} {w delay : Word} {t taken : Kptr} {dest : AddrSource} {moved : Bool}
    {rest : List Slot} {F G : Set Reg} (hvalid : b.Valid) (htruly : trulyConditional b = true)
    (hd : decode w = .branch { b with offsetNBytes := (t - p).toInt }) (hs : s.Falls a dest)
    (hapart : ∀ x ∈ [dest.value a, 0],
      4 * (newSlot w :: delaySlot 0x01000000 :: rest).length ≤ (x - p).toNat)
    (hwrong : Nonempty (WrongFallee sem (a := a) dest moved false rest)) :
    ¬ RunsAs sem p b (newSlot w :: delaySlot 0x01000000 :: rest) delay taken (dest.value a)
      F G := by
  intro hruns
  obtain ⟨hwrong⟩ := hwrong
  have hout := hapart _ (mem_cons_self ..)
  set slots := newSlot w :: delaySlot 0x01000000 :: rest with hslots
  have hcode : Holds (blockCode p slots) p ([newSlot w, delaySlot 0x01000000] ++ rest) :=
    holds_blockCode p (hout.trans_lt (BitVec.isLt _))
  obtain ⟨hbranch, hfallee⟩ := hcode.append
  obtain ⟨σ, hfalse, hl0⟩ := exists_outcome (ρ := ρ) hvalid htruly false
  obtain ⟨k, hrun⟩ : ∃ k, Reaches sem (blockCode p slots) (Cpu.seq p σ 0)
      (Cpu.seq (p + 8) σ k) := by
    have hrun : Reaches sem (blockCode p slots) (Cpu.seq p σ 0) _ :=
      branch_run hd (isAlways_of_trulyConditional htruly) decode_nop_plain hbranch σ 0
    simp only [hfalse, Bool.false_or, Bool.false_eq_true, if_false, exec_nop_word,
      delaySlot] at hrun
    split at hrun
    · exact ⟨_, hrun⟩
    · exact ⟨_, hrun⟩
  obtain ⟨d, hto, hend, hne⟩ := hwrong.exists_end hs.ne_zero hfallee
    (blockCode_eq_none (hapart 0 (by simp))) (blockCode_eq_none hout) (hl0 Reg.l0 (by decide)) k
  obtain ⟨σ', k', hd⟩ := hruns.eq_end hfalse hout (hrun.trans hto) hend
  exact hne σ' k' hd

/-- **A branch, its delay-slot instruction and a way to the fall-through code**, for a branch
instruction that is resolved to `taken`. -/
theorem branchThenFallee_iff {ρ : Type u} [Inhabited ρ] (sem : Sem ρ) {b : Branch} {s : Site}
    {a : Addrs} {p : Kptr} {availRegs : SparcRegSet} {dest : AddrSource} {outside : List Kptr}
    {e : Emission} {i : Word} {d : Int} {taken : Kptr} {F G : Set Reg} (hvalid : b.Valid)
    (htruly : trulyConditional b = true) (hdi : decode i = .branch { b with offsetNBytes := d })
    (hfloat : b.kind.isFloat = true → b.annul = true) (he : e.words a p = branchWords i p taken)
    (hsize : e.size = 1) (hlabel : ∀ l, e ≠ .label l) (hs : s.Falls a dest)
    (houtside : ∀ x ∈ [dest.value a, 0], x ∈ outside) (hG : intRegs availRegs ⊆ G)
    (hplaced : ∃ delay : Word, ∀ fallee, s.emitGettingToFallee availRegs = some fallee →
      Placed p s a outside (e :: .delayInsn delay :: fallee)) :
    KeepsMeaning sem p b s a outside (fun delay => (s.emitGettingToFallee availRegs).map
      fun fallee => e :: .delayInsn delay :: fallee) taken (dest.value a) F G ↔
    Encodable b.kind.dispBits (taken - p).toInt ∧ s.FalleeWorks a (p + 8) availRegs := by
  have halways := isAlways_of_trulyConditional htruly
  have hasm : ∀ delay fallee, assemble a p (e :: .delayInsn delay :: fallee) =
      (changeBranchOffset i (taken - p).toInt).bind fun w =>
        (assemble a (p + 8) fallee).map (newSlot w :: delaySlot delay :: ·) := by
    intro delay fallee
    simp only [assemble_branch he hsize, assemble_delayInsn, add_four_four, Option.map_map,
      Function.comp_def]
  -- the placement does not depend on the instruction in the delay slot
  have hplaced' : ∀ delay fallee, s.emitGettingToFallee availRegs = some fallee →
      Placed p s a outside (e :: .delayInsn delay :: fallee) := by
    intro delay fallee hfallee
    obtain ⟨delay', hes⟩ := hplaced
    obtain ⟨hlabels, hnextAt, hapart⟩ := hes fallee hfallee
    refine ⟨⟨fun l hl => absurd hl (hlabel l), fun l hl => ?_, hlabels.2.2⟩, hnextAt, hapart⟩
    cases hl
  constructor
  · intro h
    obtain ⟨slots, hslots, hruns⟩ := h 0x01000000 (by rw [decode_nop_word]; rfl) fun es hes => by
      obtain ⟨fallee, hfallee, rfl⟩ := Option.map_eq_some_iff.mp hes
      exact hplaced' _ fallee hfallee
    simp only [Option.bind_eq_some_iff, Option.map_eq_some_iff] at hslots
    obtain ⟨es, ⟨fallee, hfallee, rfl⟩, hes⟩ := hslots
    obtain ⟨-, -, hapart⟩ := hplaced' 0x01000000 fallee hfallee
    rw [← length_of_assemble hes] at hapart
    simp only [hasm, Option.bind_eq_some_iff, Option.map_eq_some_iff] at hes
    obtain ⟨w, hw, rest, hrest, rfl⟩ := hes
    have henc := (changeBranchOffset_fits hdi hw).1
    obtain ⟨w', hw', hdw⟩ := changeBranchOffset_spec hdi henc hfloat
    obtain rfl : w = w' := Option.mem_unique hw hw'
    have hdone : (s.emitGettingToFallee availRegs).bind (assemble a (p + 8)) = some rest := by
      rw [hfallee]
      exact hrest
    refine ⟨henc, (Site.fallee_cases sem hs hdone).resolve_right ?_⟩
    rintro ⟨moved, hwrong⟩
    exact not_runsAs_of_wrong hvalid htruly hdw hs (fun x hx => hapart x (houtside x hx)) hwrong
      hruns
  · rintro ⟨henc, hworks⟩ delay hplain -
    obtain ⟨w, hw, hdw⟩ := changeBranchOffset_spec hdi henc hfloat
    have hhere : ∀ id, s.fallThruBlockId = some id → s.next = some (some id) →
        dest.value a = p + 8 := by
      intro id hfall hnext
      have hdest := hs.source
      simp only [Site.fallSource, hfall] at hdest
      obtain rfl := Option.some.inj hdest
      have hend := (hplaced' delay [] (Site.emitGettingToFallee_next hfall hnext)).next id hnext
      have htwo : codeSize [e, .delayInsn delay] = 2 := by
        simp only [codeSize, map_cons, hsize]
        rfl
      rw [htwo] at hend
      exact hend
    obtain ⟨ws, hws, hjumps⟩ := Site.fallee_getsTo sem hs hhere hworks
    obtain ⟨es, hfallee, hes⟩ := exists_of_bind hws
    refine ⟨newSlot w :: delaySlot delay :: ws.map newSlot, ?_,
      (runsAs_branch hdw halways hplain hjumps).mono (Set.empty_subset F) hG⟩
    simp only [hfallee, Option.map_some, Option.bind_some, hasm, hw, hes]

/-- **The branch still fits.** -/
theorem stillFits_iff [Inhabited ρ] (hs : o.Leads s a fallDest)
    (hplaced : ∀ es, o.emitStillFits s 0x01000000 = some es →
      Placed p s a (o.outside a fallDest) es) :
    o.Keeps s a p fallDest sem (o.emitStillFits s) ↔
    Encodable o.cfi.kind.dispBits (o.dest.source.value a - p).toInt ∧
      s.FalleeWorks a (p + 8) o.after := by
  have hemit : o.emitStillFits s = fun delay => (s.emitGettingToFallee o.after).map fun fallee =>
      o.dest.emitBranchInsnAssumeWillFit o.insn :: .delayInsn delay :: fallee := by
    funext delay
    simp [emitStillFits, Option.map_eq_bind]
  rw [hemit] at hplaced ⊢
  refine branchThenFallee_iff sem (decode_branch_valid o.decode_insn) o.truly o.decode_insn
    hs.not_float (by cases o.dest <;> rfl) ?_ ?_ hs.toFalls
    (fun x hx => mem_cons_of_mem _ hx) Set.Subset.rfl
    ⟨0x01000000, fun fallee hfallee => hplaced _ (by rw [hfallee]; rfl)⟩
  · cases o.dest <;> rfl
  · intro l
    cases o.dest <;> simp [InterProcDest.emitBranchInsnAssumeWillFit]

/-! ### Two registers -/

/-- The state after the loads and the conditional move. -/
def chosen (b : Branch) (r₁ r₂ : Reg) (taken fall : Kptr) (σ : Arch ρ) : Arch ρ :=
  let loaded := (σ.write r₂ taken).write r₁ fall
  if loaded.holds b.kind.tested b.condition then loaded.write r₁ (loaded.read r₂) else loaded

section TwoRegs

variable {b : Branch} {r₁ r₂ : Reg} {taken fall : Kptr} {F : Set Reg}

theorem sameExcept_loaded (hr₁ : r₁ ∈ F) (hr₂ : r₂ ∈ F) (σ : Arch ρ) :
    SameExcept F σ ((σ.write r₂ taken).write r₁ fall) :=
  (write hr₂ _).trans (write hr₁ _)

theorem sameExcept_chosen (hr₁ : r₁ ∈ F) (hr₂ : r₂ ∈ F) (σ : Arch ρ) :
    SameExcept F σ (chosen b r₁ r₂ taken fall σ) :=
  Branch.sameExcept_select (sameExcept_loaded hr₁ hr₂ σ) hr₁

/-- The register that is jumped through holds the address of the outcome. -/
theorem read_chosen (h₁ : r₁ ≠ g0) (h₂ : r₂ ≠ g0) (hne : r₁ ≠ r₂)
    (htested : ∀ r, b.kind.tested = .reg r → r ≠ r₁ ∧ r ≠ r₂) (σ : Arch ρ) :
    (chosen b r₁ r₂ taken fall σ).read r₁ =
      if σ.holds b.kind.tested b.condition then taken else fall := by
  have hmem₁ : r₁ ∈ ({r₁, r₂} : Set Reg) := Set.mem_insert r₁ {r₂}
  have hmem₂ : r₂ ∈ ({r₁, r₂} : Set Reg) := Set.mem_insert_of_mem r₁ (Set.mem_singleton r₂)
  have hsame : SameExcept {r₁, r₂} σ ((σ.write r₂ taken).write r₁ fall) :=
    sameExcept_loaded hmem₁ hmem₂ σ
  refine (Branch.read_select h₁ hsame htested).trans ?_
  rw [Arch.read_write_self _ h₁, Arch.read_write_of_ne _ hne.symm, Arch.read_write_self _ h₂]

end TwoRegs

theorem emitConditionalMove_eq (hdest : s.fallSource = some fallDest) (delay : Word) (r₁ r₂ : Reg) :
    o.emitConditionalMove s delay r₁ r₂ =
      (o.dest.source.emitTo r₂).bind fun loadTaken => (fallDest.emitTo r₁).bind fun loadFall =>
        (cfi2ConditionalMove o.cfi r₂ r₁).bind fun move => (SparcInstr.jumpReg r₁).bind fun jump =>
          some (loadTaken ++ (loadFall ++ [.insn move, .insn jump, .delayInsn delay])) := by
  obtain ⟨id, hfall, rfl⟩ | ⟨addr, hfall, haddr, hsrc⟩ := Site.fallSource_cases hdest
  · simp [emitConditionalMove, hfall]
  · simp [emitConditionalMove, hfall, haddr, emitSetRegToInterProcFalleeAddr, hsrc]

/-- The code of this layout, if the addresses can be loaded. -/
theorem conditionalMove_code (r₁ r₂ : Reg) (hdest : s.fallSource = some fallDest)
    (htaken : o.dest.source.Fits a) (hfall : fallDest.Fits a) :
    ∃ ws jump, decode jump = .jmpl g0 r₁ (.reg g0) ∧
      Line sem ws (chosen o.cfi r₁ r₂ (o.dest.source.value a) (fallDest.value a)) ∧
      ∀ delay, (o.emitConditionalMove s delay r₁ r₂).bind (assemble a p) =
        some ((ws ++ [jump]).map newSlot ++ [delaySlot delay]) := by
  obtain ⟨es₂, ws₂, hes₂, -, hasm₂, hline₂⟩ := emitTo_spec sem r₂ htaken
  obtain ⟨es₁, ws₁, hes₁, -, hasm₁, hline₁⟩ := emitTo_spec sem r₁ hfall
  obtain ⟨move, hmove, hline₃⟩ :=
    cfi2ConditionalMove_spec sem (decode_branch_valid o.decode_insn) r₁ r₂
  obtain ⟨jump, hjump, hdj⟩ := jumpReg_spec r₁
  refine ⟨ws₂ ++ ws₁ ++ [move], jump, hdj, (hline₂.append hline₁).append hline₃, fun delay => ?_⟩
  simp only [emitConditionalMove_eq hdest, hes₂, hes₁, hmove, hjump, bind_some]
  rw [assemble_append, hasm₂, bind_some, assemble_append, hasm₁, bind_some,
    assemble_insn, assemble_insn, assemble_delayInsn]
  simp [assemble]

theorem fits_of_conditionalMove {r₁ r₂ : Reg} {delay : Word} {slots : List Slot}
    (hdest : s.fallSource = some fallDest)
    (h : (o.emitConditionalMove s delay r₁ r₂).bind (assemble a p) = some slots) :
    o.dest.source.Fits a ∧ fallDest.Fits a := by
  simp only [emitConditionalMove_eq hdest, Option.bind_assoc, bind_eq_some_iff, bind_some] at h
  obtain ⟨es₂, hes₂, es₁, hes₁, move, -, jump, -, hasm⟩ := h
  rw [assemble_append] at hasm
  obtain ⟨slots₂, hslots₂, hrest⟩ := exists_of_bind hasm
  rw [assemble_append, map_eq_some_iff] at hrest
  obtain ⟨rest, hrest, -⟩ := hrest
  obtain ⟨slots₁, hslots₁, -⟩ := exists_of_bind hrest
  exact ⟨fits_of_assemble r₂ hes₂ hslots₂, fits_of_assemble r₁ hes₁ hslots₁⟩

/-- **Two registers.** They are dead before the branch, so it does not test them. -/
theorem conditionalMove_iff [Inhabited ρ] {r₁ r₂ : Reg} (hr₂ : r₂ ≠ g0) (hne : r₁ ≠ r₂)
    (hmem₁ : r₁ ∈ intRegs o.before) (hmem₂ : r₂ ∈ intRegs o.before) (hannul : o.cfi.annul = false)
    (hs : o.Leads s a fallDest)
    (hplaced : ∀ es, o.emitConditionalMove s 0x01000000 r₁ r₂ = some es →
      Placed p s a (o.outside a fallDest) es) :
    o.Keeps s a p fallDest sem (fun delay => o.emitConditionalMove s delay r₁ r₂) ↔
    r₁ ≠ g0 ∧ o.dest.source.Fits a ∧ fallDest.Fits a := by
  constructor
  · intro h
    obtain ⟨slots, hslots, hruns⟩ := h 0x01000000 decode_nop_plain hplaced
    obtain ⟨htaken, hfall⟩ := fits_of_conditionalMove hs.source hslots
    refine ⟨?_, htaken, hfall⟩
    rintro rfl
    -- the jump through `%g0` leads to address 0
    obtain ⟨ws, jump, hdj, hline, hcode⟩ := conditionalMove_code sem g0 r₂ hs.source htaken
      hfall (p := p)
    obtain ⟨es, hes, hasm⟩ := exists_of_bind hslots
    have hapart := (hplaced es hes).apart
    rw [← length_of_assemble hasm] at hapart
    rw [hcode 0x01000000] at hslots
    obtain rfl := (Option.some.inj hslots).symm
    have hzero := hapart 0 (by simp [outside])
    have hholds := holds_blockCode p (hzero.trans_lt (isLt _))
    obtain ⟨σ⟩ : Nonempty (Arch ρ) := ⟨uniformState 1 ⟨false, false, false, false⟩ 0⟩
    have hread : (chosen o.cfi g0 r₂ (o.dest.source.value a) (fallDest.value a) σ).read g0
        = 0 := if_pos rfl
    obtain ⟨pc, hrun⟩ := jump_run hline hdj decode_nop_plain hholds hread rfl 0
    have hne : ∀ value : Bool, (if value then o.dest.source.value a else fallDest.value a) ≠ 0 :=
      Bool.forall_bool.mpr ⟨hs.ne_zero, hs.taken_ne_zero⟩
    obtain ⟨σ', k', heq⟩ := hruns.eq_end rfl (hapart _ (by split <;> simp [outside])) hrun
      (step_eq_none (blockCode_eq_none hzero))
    exact hne _ (congrArg Cpu.pc heq).symm
  · rintro ⟨hr₁, htaken, hfall⟩ delay hplain -
    obtain ⟨ws, jump, hdj, hline, hcode⟩ := conditionalMove_code sem r₁ r₂ hs.source htaken hfall
      (p := p)
    have htested : ∀ r, o.cfi.kind.tested = .reg r → r ≠ r₁ ∧ r ≠ r₂ := fun r hr =>
      ⟨fun h => hs.tested r hr (h ▸ hmem₁), fun h => hs.tested r hr (h ▸ hmem₂)⟩
    refine ⟨_, hcode delay, fun code hholds σ k => ?_⟩
    have hread : (chosen o.cfi r₁ r₂ (o.dest.source.value a) (fallDest.value a) σ).read r₁ = _ :=
      read_chosen hr₁ hr₂ hne htested σ
    have halign : (if σ.holds o.cfi.kind.tested o.cfi.condition then o.dest.source.value a
        else fallDest.value a).toNat % 4 = 0 := by
      split
      · exact hs.taken_aligned
      · exact hs.aligned
    obtain ⟨pc, hrun⟩ := jump_run hline hdj hplain hholds hread halign k
    simp only [delayRuns_eq_one hannul]
    exact ⟨_, _, hrun, .inl rfl, _, sameExcept_chosen (.inl hmem₁) (.inl hmem₂) σ, pc, refl _ _⟩

/-! ### One register, or none -/

/-- The other layouts emit a branch that will be gone. -/
theorem dangling_of_throughReg {delay : Word} {es : List Emission}
    (h : o.emitThroughReg s delay = some es) : ∃ e, .dangling e ∈ es := by
  simp only [emitThroughReg, do_eq_some, check_eq_some] at h
  obtain ⟨branch, -, nop, -, notTaken, -, reg, -, r, -, -, -, load, -, jump, -, rfl⟩ := h
  exact ⟨_, mem_cons_self ..⟩

theorem dangling_of_withoutReg {delay : Word} {es : List Emission}
    (h : o.emitWithoutReg s delay = some es) : ∃ e, .dangling e ∈ es := by
  unfold emitWithoutReg at h
  split at h
  · simp only [emitReversed, do_eq_some] at h
    obtain ⟨w, -, branch, -, jump, -, rfl⟩ := h
    exact ⟨_, mem_cons_self ..⟩
  all_goals
    simp only [emitAroundFallee, do_eq_some] at h
    obtain ⟨branch, -, notTaken, -, jump, -, rfl⟩ := h
    exact ⟨_, mem_cons_self ..⟩

end Layouts

/-- `bne` to a function that is moved, with registers available only before it. -/
def farBne (before : SparcRegSet) (h : onlyIntRegs before) : InterProcCondBranchCodeObject where
  dest := .toName "far" 0x8000
  insn := 0x12800004
  cfi := ⟨.bicc, 9, false, 16⟩
  before := before
  afterBranch := .emptyset
  after := .emptyset
  decode_insn := bneObject.decode_insn
  truly := bneObject.truly
  onlyInt := ⟨h, by decide, by decide⟩

/-- Block 1 right after the seven instructions, and the function at 0x8000. -/
def farAddrs : Addrs := ⟨fun l => if l = getBlockLabel 1 then 0x101c else 0x2000, fun _ => 0x8000⟩

/-- Block 0, which falls into block 1. -/
def farSite : Site := ⟨threeBlocks, fun _ => none, 0, some 1, none⟩

variable {before : SparcRegSet}

theorem farBne_leads (h : onlyIntRegs before) :
    (farBne before h).Leads farSite farAddrs (.label (getBlockLabel 1)) where
  emitted := by decide
  source := rfl
  aligned := by decide
  ne_zero := by decide
  int := rfl
  tested := by simp [farBne, BranchKind.tested]
  taken_aligned := by
    change (0x8000 : Kptr).toNat % 4 = 0
    decide
  taken_ne_zero := by
    change (0x8000 : Kptr) ≠ 0
    decide

theorem farBne_placed (h : onlyIntRegs before) (r₁ r₂ : Reg) (es : List Emission)
    (hes : (farBne before h).emitConditionalMove farSite 0x01000000 r₁ r₂ = some es) :
    Placed 0x1000 farSite farAddrs
      ((farBne before h).outside farAddrs (.label (getBlockLabel 1))) es := by
  simp only [emitConditionalMove_eq (farBne_leads h).source, farBne, InterProcDest.source, emitTo,
    do_eq_some] at hes
  obtain ⟨move, -, jump, -, rfl⟩ := hes
  have hapart : ∀ x ∈ [0x8000, 0x101c, (0 : Kptr)], 4 * 7 ≤ (x - 0x1000).toNat :=
    forall_mem_cons.mpr ⟨by decide, forall_mem_cons.mpr ⟨by decide,
      forall_mem_singleton.mpr (by decide)⟩⟩
  refine ⟨by simp [LabelsAt], fun id hid => ?_, hapart⟩
  have hnext : farSite.next = some (some 1) := by decide
  obtain rfl := Option.some.inj (Option.some.inj hid)
  rfl

end Kerninst.CodeObject
