import Kerninst.CodeObject.Fallee

/-!
# Keeping the meaning of a conditional branch

What two code objects have in common, the one for branches within a function and the one for
branches to another function. The branch is moved together with the instruction in its delay
slot. `KeepsMeaning` says of the code that is emitted for them: it leads to the same one of the
two destinations as the branch did, runs the delay-slot instruction as often, and changes nothing
else but registers that are available. It is stated for every instruction in the delay slot whose
code fits the placement of the blocks (`Placed`).
-/

namespace Kerninst.CodeObject

open Option SameExcept
open Cpu (seq)
open Reg (g0 l0)

universe u

/-- `sparc_instr::isNop` -/
def isNop (w : Word) : Bool := w = 0x01000000

/-- A branch whose outcome is not fixed: `BPr` on `%g0` tests a constant. -/
def trulyConditional (b : Branch) : Bool :=
  b.reallyConditional && match b.kind with
    | .bpr _ rs1 => rs1 ≠ Reg.g0
    | _ => true

/-- How often the branch runs its delay-slot instruction. -/
def delayRuns (b : Branch) (taken : Bool) : Nat := if taken || !b.annul then 1 else 0

/-- What a code object is told when it is asked to emit itself. No block to fall into means that
the function falls into another one, whose address is then known. -/
structure Site where
  whereBlocksNowReside : OutliningLocations
  findModAndFn : FindModAndFn
  owningBlockId : Nat
  fallThruBlockId : Option Nat
  fallThruOrigAddr : Option Kptr

/-- The block that will be emitted next, if any. -/
def Site.next (s : Site) : Option (Option Nat) :=
  s.whereBlocksNowReside.whoIfAnyoneWillBeEmittedAfter s.owningBlockId

theorem delayRuns_eq_one {b : Branch} (h : b.annul = false) (taken : Bool) :
    delayRuns b taken = 1 := by
  simp [delayRuns, h]

section Spec

variable {ρ : Type u} (sem : Sem ρ) (p : Kptr) (b : Branch) (s : Site) (a : Addrs)

/-- The state after `n` runs of the delay-slot instruction, at most one, when registers of `F` may
have changed before it and registers of `G` after it. -/
def DelayRun (delay : Word) (F G : Set Reg) (n : Nat) (σ σ' : Arch ρ) : Prop :=
  ∃ σ₁, SameExcept F σ σ₁ ∧ match n with
    | 0 => SameExcept G σ₁ σ'
    | _ => ∃ pc, SameExcept G (exec sem delay pc σ₁) σ'

/-- From every state the code does what the branch did. A `nop` may be left out. -/
def RunsAs (slots : List Slot) (delay : Word) (taken fall : Kptr) (F G : Set Reg) : Prop :=
  ∀ code, Holds code p slots → ∀ (σ : Arch ρ) k, ∃ σ' k',
    let holds := σ.holds b.kind.tested b.condition
    Reaches sem code (Cpu.seq p σ k) (Cpu.seq (if holds then taken else fall) σ' k') ∧
      (k' = k + delayRuns b holds ∨ isNop delay = true) ∧
      DelayRun sem delay F G (delayRuns b holds) σ σ'

/-- The labels are where they are emitted, the block that comes next begins where this code ends,
and the addresses of `outside` are not in this code. -/
structure Placed (outside : List Kptr) (es : List Emission) : Prop where
  labels : LabelsAt a p es
  next : ∀ id, s.next = some (some id) →
    a.label (getBlockLabel id) = p + BitVec.ofNat 64 (4 * codeSize es)
  apart : ∀ x ∈ outside, 4 * codeSize es ≤ (x - p).toNat

/-- No assertion fails, and the resolved code does what the branch did, whatever is in its delay
slot. -/
def KeepsMeaning (outside : List Kptr) (emitted : Word → Option (List Emission))
    (taken fall : Kptr) (F G : Set Reg) : Prop :=
  ∀ delay, (decode delay).isPlain → (∀ es, emitted delay = some es → Placed p s a outside es) →
    ∃ slots, (emitted delay).bind (assemble a p) = some slots ∧
      RunsAs sem p b slots delay taken fall F G

end Spec

/-! ## Branches in place -/

section Branches

variable {ρ : Type u} {sem : Sem ρ} {p : Kptr} {code : Code} {b : Branch}

theorem nop_word : SparcInstr.nop = some 0x01000000 := by decide

theorem decode_nop_word : decode 0x01000000 = .sethi g0 0 := by decide

theorem decode_nop_plain : (decode 0x01000000).isPlain = true := rfl

theorem exec_nop_word (pc : Kptr) (σ : Arch ρ) : exec sem 0x01000000 pc σ = σ :=
  exec_nop sem decode_nop_word pc σ

theorem isAlways_of_trulyConditional (h : trulyConditional b = true) : b.isAlways = false :=
  Branch.isAlways_eq_false (Bool.and_eq_true_iff.mp h).1

/-- **A branch and the instruction after it**: the branch annuls that instruction if it is not
taken and has its annul bit set. -/
theorem branch_run {w : Word} {slot : Slot} {t : Kptr}
    (hd : decode w = .branch { b with offsetNBytes := (t - p).toInt })
    (halways : b.isAlways = false) (hplain : (decode slot.word).isPlain)
    (hcode : Holds code p [newSlot w, slot]) (σ : Arch ρ) (k : Nat) :
    let holds := σ.holds b.kind.tested b.condition
    Reaches sem code (seq p σ k) (if holds || !b.annul then seq (if holds then t else p + 8)
        (exec sem slot.word (p + 4) σ) (k + slot.isDelay.toNat)
      else seq (p + 8) σ k) := by
  intro holds
  have hrun := Reaches.branch sem hd hplain hcode (show _ = holds from rfl) k
  have hdest : Branch.destination { b with offsetNBytes := (t - p).toInt } p = t :=
    add_ofInt_sub p t
  have halways' : Branch.isAlways { b with offsetNBytes := (t - p).toInt } = false := halways
  simp only [hdest, halways'] at hrun
  cases hholds : holds <;> cases hannul : b.annul <;> simpa [hholds, hannul] using hrun

/-- A jump through a register that a straight line has computed, and the instruction in its delay
slot. -/
theorem jump_run {ws : List Word} {jump : Word} {slot : Slot} {r : Reg} {g : Arch ρ → Arch ρ}
    {t : Kptr} (hline : Line sem ws g) (hd : decode jump = .jmpl g0 r (.reg g0))
    (hplain : (decode slot.word).isPlain)
    (hcode : Holds code p ((ws ++ [jump]).map newSlot ++ [slot])) {σ : Arch ρ}
    (ht : (g σ).read r = t) (halign : t.toNat % 4 = 0) (k : Nat) :
    ∃ pc, Reaches sem code (seq p σ k)
      (seq t (exec sem slot.word pc (g σ)) (k + slot.isDelay.toNat)) := by
  obtain ⟨hjump, hslot⟩ := hcode.append
  rw [List.length_map] at hslot
  exact ⟨_, (lineJump_run sem hline hd hjump ht halign k).tail (step_plain hslot.head hplain)⟩

/-- A truly conditional branch has both outcomes, also when all registers hold nothing that could
be jumped to, or zero. -/
theorem exists_outcome [Inhabited ρ] (hb : b.Valid) (htruly : trulyConditional b = true)
    (value : Bool) : ∃ σ : Arch ρ, σ.holds b.kind.tested b.condition = value ∧
      ∀ r ≠ g0, (σ.read r).toNat % 4 ≠ 0 ∨ σ.read r = 0 := by
  have hodd : ∀ (cc : CondCodes) (result : Fin 4) (r : Reg), r ≠ g0 →
      ((uniformState 1 cc result : Arch ρ).read r).toNat % 4 ≠ 0 ∨
        (uniformState 1 cc result : Arch ρ).read r = 0 := by
    intro cc result r hr
    rw [read_uniformState hr]
    exact .inl (by decide)
  have hcond := hb.condition
  obtain ⟨kind, cond, annul, offset⟩ := b
  -- the negated condition is the one 8 farther on
  have hboth : ∀ {α : Type} {test : Nat → α → Bool}, (∀ {c}, c < 16 → c ≠ 0 → ∃ x, test c x) →
      (∀ c < 16, ∀ x, test ((c + 8) % 16) x = !test c x) → cond < 16 → cond ≠ 8 ∧ cond ≠ 0 →
      ∃ x, test cond x = value := by
    intro α test hsome hreversed hlt hne
    cases value with
    | true => exact hsome hlt hne.2
    | false =>
      obtain ⟨x, h⟩ := hsome (Nat.mod_lt (cond + 8) (by decide : 0 < 16)) (by omega)
      rw [hreversed cond hlt] at h
      exact ⟨x, by simpa using h⟩
  cases kind with
  | bicc | bpcc _ _ =>
    simp only [trulyConditional, Branch.reallyConditional, Bool.and_true, decide_eq_true_eq]
      at htruly
    obtain ⟨cc, h⟩ := hboth exists_testIcc testIcc_reversed hcond htruly
    exact ⟨uniformState 1 cc 0, by simpa [BranchKind.tested, Arch.holds, uniformState] using h,
      hodd cc 0⟩
  | fbfcc | fbpfcc _ _ =>
    simp only [trulyConditional, Branch.reallyConditional, Bool.and_true, decide_eq_true_eq]
      at htruly
    obtain ⟨result, h⟩ := hboth exists_testFcc testFcc_reversed hcond htruly
    exact ⟨uniformState 1 ⟨false, false, false, false⟩ result, h, hodd _ result⟩
  | bpr _ rs1 =>
    have hrs1 : rs1 ≠ g0 := by simpa [trulyConditional, Branch.reallyConditional] using htruly
    obtain ⟨x, hx, h⟩ := exists_testReg hcond.1 hcond.2 value
    refine ⟨uniformState x ⟨false, false, false, false⟩ 0, ?_, fun r hr => ?_⟩
    · simpa [BranchKind.tested, Arch.holds, read_uniformState hrs1] using h
    · rw [read_uniformState hr]
      exact hx

/-- A jump through `%l0`, after another register was loaded, leads to address 0 or gets stuck, if
`%l0` holds zero or nothing that could be jumped to. -/
theorem stray_end {ws : List Word} {jump : Word} {slot : Slot} {r : Reg} {v : Kptr}
    (hr : l0 ≠ r) (hline : Line sem ws fun σ => σ.write r v)
    (hd : decode jump = .jmpl g0 l0 (.reg g0)) (hplain : (decode slot.word).isPlain)
    (hcode : Holds code p ((ws ++ [jump]).map newSlot ++ [slot])) (h0 : code 0 = none)
    {σ : Arch ρ} (hl0 : (σ.read l0).toNat % 4 ≠ 0 ∨ σ.read l0 = 0) (k : Nat) :
    ∃ d, Reaches sem code (seq p σ k) d ∧ step sem code d = none ∧
      (d.pc = 0 ∨ code d.pc ≠ none) := by
  obtain ⟨hjumps, hafter⟩ := hcode.append
  rcases hl0 with hodd | hzero
  · obtain ⟨d, hrun, hend, hpc⟩ := stray_jump hr hline hd hjumps hodd k
    rw [List.map_append] at hjumps
    have hat := hjumps.append.2.head
    rw [List.length_map, ← hpc] at hat
    exact ⟨d, hrun, hend, .inr (by rw [hat]; simp)⟩
  · rw [List.length_map] at hafter
    have hread : (σ.write r v).read l0 = 0 := by
      rw [Arch.read_write_of_ne _ hr, hzero]
    have hrun := lineJump_run sem hline hd hjumps hread rfl k
    exact ⟨_, hrun.tail (step_plain hafter.head hplain), step_eq_none h0, .inl rfl⟩

/-- **A wrong way to the fall-through code** ends somewhere else, if `%l0` holds zero or nothing
that could be jumped to. -/
theorem WrongFallee.exists_end {a : Addrs} {dest : AddrSource} {moved : Bool} {slots : List Slot}
    (hwrong : WrongFallee sem (a := a) dest moved false slots) (hne : dest.value a ≠ 0)
    (hcode : Holds code p slots) (h0 : code 0 = none) (hout : code (dest.value a) = none)
    {σ : Arch ρ} (hl0 : (σ.read l0).toNat % 4 ≠ 0 ∨ σ.read l0 = 0) (k : Nat) :
    ∃ d, Reaches sem code (seq p σ k) d ∧ step sem code d = none ∧
      ∀ σ' k', d ≠ seq (dest.value a) σ' k' := by
  obtain ⟨load, jump, nop, r, rfl, hline, hdj, hdn, hr | ⟨-, -, hopen⟩⟩ := hwrong
  · have hnop : (decode (newSlot nop).word).isPlain := by
      rw [show (newSlot nop).word = nop from rfl, hdn]
      rfl
    have hslots : (load ++ jump :: afterFalleeJump moved false jump nop).map newSlot =
        (load ++ [jump]).map newSlot ++ [newSlot nop] := by
      simp [afterFalleeJump]
    rw [hslots] at hcode
    obtain ⟨d, hrun, hend, hpc⟩ := stray_end hr hline hdj hnop hcode h0 hl0 k
    refine ⟨d, hrun, hend, fun σ' k' hd => ?_⟩
    subst hd
    exact hpc.elim hne (absurd hout)
  · cases hopen

end Branches

/-! ## Running as the branch did -/

section Runs

variable {ρ : Type u} {sem : Sem ρ} {p : Kptr} {b : Branch} {slots : List Slot} {delay : Word}
  {taken fall : Kptr} {F F' G G' : Set Reg}

theorem RunsAs.mono (h : RunsAs sem p b slots delay taken fall F G) (hF : F ⊆ F') (hG : G ⊆ G') :
    RunsAs sem p b slots delay taken fall F' G' := by
  intro code hcode σ k
  obtain ⟨σ', k', hrun, hk, σ₁, hsame, hdelay⟩ := h code hcode σ k
  refine ⟨σ', k', hrun, hk, σ₁, hsame.mono hF, ?_⟩
  split at hdelay
  · exact hdelay.mono hG
  · obtain ⟨pc, hpc⟩ := hdelay
    exact ⟨pc, hpc.mono hG⟩

/-- **Where such a run ends**, on a machine that has no other code. -/
theorem RunsAs.eq_end (h : RunsAs sem p b slots delay taken fall F G) {σ : Arch ρ} {value : Bool}
    (hvalue : σ.holds b.kind.tested b.condition = value)
    (hout : 4 * slots.length ≤ ((if value then taken else fall) - p).toNat) {k : Nat} {d : Cpu ρ}
    (hrun : Reaches sem (blockCode p slots) (seq p σ k) d)
    (hend : step sem (blockCode p slots) d = none) :
    ∃ σ' k', d = seq (if value then taken else fall) σ' k' := by
  have hcode : Holds (blockCode p slots) p slots :=
    holds_blockCode p (hout.trans_lt (BitVec.isLt _))
  obtain ⟨σ', k', hto, -⟩ := h _ hcode σ k
  rw [hvalue] at hto
  exact ⟨σ', k', eq_of_ends hrun hto hend (step_eq_none (blockCode_eq_none hout))⟩

/-- **What is dangling keeps no meaning.** -/
theorem not_keepsMeaning_of_dangling {s : Site} {a : Addrs} {outside : List Kptr}
    {emitted : Word → Option (List Emission)} (hplain : (decode delay).isPlain)
    (hplaced : ∀ es, emitted delay = some es → Placed p s a outside es)
    (h : ∀ es, emitted delay = some es → ∃ e, .dangling e ∈ es) :
    ¬ KeepsMeaning sem p b s a outside emitted taken fall F G := by
  intro hkeeps
  obtain ⟨slots, hslots, -⟩ := hkeeps delay hplain hplaced
  obtain ⟨es, hes, hasm⟩ := exists_of_bind hslots
  obtain ⟨e, he⟩ := h es hes
  rw [assemble_eq_none he] at hasm
  cases hasm

/-- The branch with its delay slot, and a way to the fall-through code. -/
theorem runsAs_branch {w : Word} {ws : List Word}
    (hd : decode w = .branch { b with offsetNBytes := (taken - p).toInt })
    (halways : b.isAlways = false) (hplain : (decode delay).isPlain)
    (hfall : Jumps sem (p + 8) ws fall G) :
    RunsAs sem p b (newSlot w :: delaySlot delay :: ws.map newSlot) delay taken fall ∅ G := by
  intro code hcode σ k
  have hcode' : Holds code p ([newSlot w, delaySlot delay] ++ ws.map newSlot) := hcode
  obtain ⟨hbranch, hrest⟩ := hcode'.append
  have hrun : Reaches sem code (seq p σ k) _ := branch_run hd halways hplain hbranch σ k
  simp only [delayRuns]
  cases hholds : σ.holds b.kind.tested b.condition with
  | true =>
    simp only [hholds, Bool.true_or, if_true] at hrun ⊢
    exact ⟨_, _, hrun, .inl rfl, σ, refl _ _, p + 4, refl _ _⟩
  | false =>
    simp only [hholds, Bool.false_or, Bool.false_eq_true, if_false] at hrun ⊢
    cases hannul : b.annul with
    | true =>
      simp only [hannul, Bool.not_true, Bool.false_eq_true, if_false] at hrun ⊢
      obtain ⟨σ', hto, hsame⟩ := hfall code σ k hrest
      exact ⟨σ', k, hrun.trans hto, .inl rfl, σ, refl _ _, hsame⟩
    | false =>
      simp only [hannul, Bool.not_false, if_true] at hrun ⊢
      obtain ⟨σ', hto, hsame⟩ := hfall code _ _ hrest
      exact ⟨σ', _, hrun.trans hto, .inl rfl, σ, refl _ _, p + 4, hsame⟩

end Runs

/-! ## The fall-through code -/

namespace Site

variable (s : Site)

/-- The last thing that code objects for conditional branches do. -/
def emitGettingToFallee (availRegs : SparcRegSet) : Option (List Emission) :=
  match s.fallThruBlockId with
  | none => emitGettingToInterProcFallee s.whereBlocksNowReside s.findModAndFn false availRegs
      s.fallThruOrigAddr
  | some id => emitGettingToIntraProcFallee s.whereBlocksNowReside availRegs s.owningBlockId
      (some id)

/-- Where the fall-through code is: a label, a symbol, or an address. -/
def fallSource : Option AddrSource :=
  match s.fallThruBlockId with
  | some id => some (.label (getBlockLabel id))
  | none => s.fallThruOrigAddr.bind (s.whereBlocksNowReside.falleeSource s.findModAndFn)

/-- When getting to the fall-through code works. -/
def FalleeWorks (a : Addrs) (p : Kptr) (availRegs : SparcRegSet) : Prop :=
  match s.fallThruBlockId with
  | some id => s.next = some (some id) ∨
      IntraFalleeWorks a p s.whereBlocksNowReside availRegs s.owningBlockId id
  | none => ∀ addr dest, s.fallThruOrigAddr = some addr →
      s.whereBlocksNowReside.falleeSource s.findModAndFn addr = some dest →
      InterFalleeWorks a dest (s.whereBlocksNowReside.isFuncBeingInlinedAndOutlined addr) false
        availRegs

/-- The block is one of those to be emitted, and the code it falls into is at `dest`. -/
structure Falls (a : Addrs) (dest : AddrSource) : Prop where
  emitted : s.next ≠ none
  source : s.fallSource = some dest
  aligned : (dest.value a).toNat % 4 = 0
  ne_zero : dest.value a ≠ 0

variable {s} {ρ : Type u} (sem : Sem ρ) {a : Addrs} {p : Kptr} {availRegs : SparcRegSet}
  {dest : AddrSource}

theorem emitGettingToFallee_next {id : Nat} (hfall : s.fallThruBlockId = some id)
    (hnext : s.next = some (some id)) : s.emitGettingToFallee availRegs = some [] := by
  have hnext' : s.whereBlocksNowReside.whoIfAnyoneWillBeEmittedAfter s.owningBlockId =
      some (some id) := hnext
  simp [emitGettingToFallee, hfall, emitGettingToIntraProcFallee, hnext']

/-- The fall-through code is a block of the function, or another function. -/
theorem fallSource_cases (h : s.fallSource = some dest) :
    (∃ id, s.fallThruBlockId = some id ∧ dest = .label (getBlockLabel id)) ∨
      ∃ addr, s.fallThruBlockId = none ∧ s.fallThruOrigAddr = some addr ∧
        s.whereBlocksNowReside.falleeSource s.findModAndFn addr = some dest := by
  unfold fallSource at h
  split at h
  · exact .inl ⟨_, ‹_›, (some.inj h).symm⟩
  · obtain ⟨addr, haddr, hsrc⟩ := exists_of_bind h
    exact .inr ⟨addr, ‹_›, haddr, hsrc⟩

theorem fallee_getsTo (hs : s.Falls a dest)
    (hhere : ∀ id, s.fallThruBlockId = some id → s.next = some (some id) → dest.value a = p)
    (h : s.FalleeWorks a p availRegs) :
    GetsTo sem a p false (s.emitGettingToFallee availRegs) (dest.value a) (intRegs availRegs) := by
  obtain ⟨next, hnext⟩ := ne_none_iff_exists'.mp hs.emitted
  obtain ⟨id, hfall, rfl⟩ | ⟨addr, hfall, haddr, hsrc⟩ := fallSource_cases hs.source
  · simp only [FalleeWorks, hfall] at h
    by_cases hne : next = some id
    · subst hne
      rw [emitGettingToFallee_next hfall hnext, hhere id hfall hnext]
      exact ⟨[], rfl, fun code σ k _ => ⟨σ, Relation.ReflTransGen.refl, refl _ _⟩⟩
    · simp only [emitGettingToFallee, hfall]
      rcases h with hcomes | hworks
      · exact absurd (mem_unique hnext hcomes) hne
      · exact intraFallee_getsTo sem hnext hne hs.aligned hworks
  · simp only [FalleeWorks, emitGettingToFallee, hfall, haddr] at h ⊢
    exact interFallee_getsTo sem hsrc hs.aligned (h addr dest rfl hsrc)

/-- What was assembled for the fall-through code works, or is wrong in one of two ways. -/
theorem fallee_cases (hs : s.Falls a dest) {slots : List Slot}
    (h : (s.emitGettingToFallee availRegs).bind (assemble a p) = some slots) :
    s.FalleeWorks a p availRegs ∨
      ∃ moved, Nonempty (WrongFallee sem (a := a) dest moved false slots) := by
  obtain ⟨next, hnext⟩ := ne_none_iff_exists'.mp hs.emitted
  obtain ⟨id, hfall, rfl⟩ | ⟨addr, hfall, haddr, hsrc⟩ := fallSource_cases hs.source
  · left
    simp only [FalleeWorks, emitGettingToFallee, hfall] at h ⊢
    by_cases hne : next = some id
    · exact .inl (hne ▸ hnext)
    · exact .inr (works_of_intraFallee hnext hne h)
  · simp only [FalleeWorks, emitGettingToFallee, hfall, haddr] at h ⊢
    refine (interFallee_cases sem hsrc h).imp (fun hworks addr' dest' haddr' hsrc' => ?_)
      fun hwrong => ⟨_, hwrong⟩
    obtain rfl := some.inj haddr'
    obtain rfl := mem_unique hsrc hsrc'
    exact hworks

end Site

end Kerninst.CodeObject
