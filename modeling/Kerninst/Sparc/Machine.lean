import Kerninst.Sparc.Insn

/-!
# The V9 machine

Relocated code is correct if the processor does with it what it would have done with
the original. The processor's state has three parts.

* `Arch` — registers in overlapping windows, condition codes, and everything else
  (memory, floating-point registers) as an abstract `rest`. The `%o` registers of a
  window are the `%i` registers of the next one.
* `pc` and `npc` — control transfers are delayed: they only change `npc`, so the
  instruction after them, in the delay slot, runs before the target.
* `delays` — how often the machine ran a word that is marked as a copy of the original
  delay-slot instruction. No instruction reads it.

`sem` is the meaning of the instructions that this development does not look into;
they may do anything but transfer control.
-/

namespace Kerninst

open Option Relation ReflTransGen
open BitVec (ofInt add_comm ofNat)

universe u

abbrev Kptr := BitVec 64

/-- The displacement to an address leads there. -/
theorem add_ofInt_sub (p t : Kptr) : p + ofInt 64 (t - p).toInt = t := by
  rw [BitVec.ofInt_toInt, add_comm, BitVec.sub_add_cancel]

theorem toNat_add_sub (p : Kptr) {n : Nat} (hn : n < 2 ^ 64) :
    (p + ofNat 64 n - p).toNat = n := by
  rw [add_comm, BitVec.add_sub_cancel, BitVec.toNat_ofNat, Nat.mod_eq_of_lt hn]

/-! ## Registers -/

/-- Where a register value is kept, windows numbered from the outermost. -/
inductive Cell
  | global (i : Fin 8)
  | local (w : Int) (i : Fin 8)
  | input (w : Int) (i : Fin 8)
deriving DecidableEq

/-- The cell that a register names in window `cwp`. -/
def cellOf (cwp : Int) (r : Reg) : Cell :=
  match r.val / 8 with
  | 0 => .global (Fin.ofNat 8 r.val)
  | 1 => .input (cwp + 1) (Fin.ofNat 8 r.val)
  | 2 => .local cwp (Fin.ofNat 8 r.val)
  | _ => .input cwp (Fin.ofNat 8 r.val)

/-- The integer condition codes: negative, zero, overflow, carry. -/
structure CondCodes where
  n : Bool
  z : Bool
  v : Bool
  c : Bool

structure Arch (ρ : Type u) where
  regs : Cell → BitVec 64
  cwp : Int
  icc : CondCodes
  xcc : CondCodes
  fcc : Fin 4 → Fin 4
  rest : ρ

variable {ρ : Type u}

namespace Arch

/-- `%g0` reads as zero. -/
def read (σ : Arch ρ) (r : Reg) : BitVec 64 := if r = Reg.g0 then 0 else σ.regs (cellOf σ.cwp r)

/-- Writing `%g0` has no effect. -/
def write (σ : Arch ρ) (r : Reg) (v : BitVec 64) : Arch ρ :=
  if r = Reg.g0 then σ else { σ with regs := Function.update σ.regs (cellOf σ.cwp r) v }

def operand (σ : Arch ρ) : Operand → BitVec 64
  | .reg rs2 => σ.read rs2
  | .simm13 imm => BitVec.ofInt 64 imm

end Arch

/-! ## Conditions -/

/-- The test of `Bicc`, `BPcc` and `MOVcc`. Condition `c + 8` is the negation of `c`. -/
def testIcc (cond : Nat) (cc : CondCodes) : Bool :=
  let holds := match cond % 8 with
    | 0 => false
    | 1 => cc.z
    | 2 => cc.z || (cc.n ^^ cc.v)
    | 3 => cc.n ^^ cc.v
    | 4 => cc.c || cc.z
    | 5 => cc.c
    | 6 => cc.n
    | _ => cc.v
  holds ^^ decide (8 ≤ cond)

/-- The test of the floating-point branches and moves, on a result of a comparison:
0 equal, 1 less, 2 greater, 3 unordered. -/
def testFcc (cond : Nat) (result : Fin 4) : Bool :=
  let holds := match cond % 8 with
    | 0 => false
    | 1 => result.val ≠ 0
    | 2 => result.val = 1 ∨ result.val = 2
    | 3 => result.val = 3 ∨ result.val = 1
    | 4 => result.val = 1
    | 5 => result.val = 3 ∨ result.val = 2
    | 6 => result.val = 2
    | _ => result.val = 3
  holds ^^ decide (8 ≤ cond)

/-- The test of `BPr` and `MOVr`: a register against zero. -/
def testReg (cond : Nat) (x : BitVec 64) : Bool :=
  let holds := match cond % 4 with
    | 1 => x = 0
    | 2 => x.toInt ≤ 0
    | 3 => x.toInt < 0
    | _ => false
  holds ^^ decide (4 ≤ cond)

def Arch.holds (σ : Arch ρ) (t : Tested) (cond : Nat) : Bool :=
  match t with
  | .icc xcc => testIcc cond (if xcc then σ.xcc else σ.icc)
  | .fcc fccNum => testFcc cond (σ.fcc fccNum)
  | .reg rs1 => testReg cond (σ.read rs1)

/-! ## Instructions -/

/-- The meaning of the other instructions: the word, its address and the state. -/
abbrev Sem (ρ : Type u) := Word → Kptr → Arch ρ → Arch ρ

/-- A machine whose other instructions do nothing. -/
def idleSem : Sem Unit := fun _ _ σ => σ

/-- What an instruction that does not transfer control does to the state. -/
def exec (sem : Sem ρ) (w : Word) (pc : Kptr) (σ : Arch ρ) : Arch ρ :=
  match decode w with
  | .sethi rd imm22 => σ.write rd (BitVec.ofNat 64 (imm22 * 2 ^ 10))
  | .or rd rs1 src => σ.write rd (σ.read rs1 ||| σ.operand src)
  | .sllx rd rs1 count => σ.write rd (σ.read rs1 <<< count)
  | .save rd rs1 src =>
    { σ with cwp := σ.cwp + 1 }.write rd (σ.read rs1 + σ.operand src)
  | .restore rd rs1 src =>
    { σ with cwp := σ.cwp - 1 }.write rd (σ.read rs1 + σ.operand src)
  | .condMove t cond rd rs2 => if σ.holds t cond then σ.write rd (σ.read rs2) else σ
  | _ => sem w pc σ

/-- A word of code, and whether it is a copy of the original delay-slot instruction. -/
structure Slot where
  word : Word
  isDelay : Bool
deriving DecidableEq

abbrev Code := Kptr → Option Slot

structure Cpu (ρ : Type u) where
  pc : Kptr
  npc : Kptr
  arch : Arch ρ
  delays : Nat

/-- About to run the instruction at `p`, and those after it. -/
def Cpu.seq (p : Kptr) (σ : Arch ρ) (k : Nat) : Cpu ρ := ⟨p, p + 4, σ, k⟩

/-- `ba` and `fba`, which with the annul bit set do not run their delay slot. -/
def Branch.isAlways (b : Branch) : Bool :=
  match b.kind with
  | .bpr .. => false
  | _ => b.condition = 8

/-- The effect of a branch on `pc` and `npc`. An annulled conditional branch that is not
taken skips its delay slot. -/
def branchTo (b : Branch) (taken : Bool) (pc npc : Kptr) : Kptr × Kptr :=
  let target := pc + BitVec.ofInt 64 b.offsetNBytes
  if taken then
    if b.annul ∧ b.isAlways then (target, target + 4) else (npc, target)
  else if b.annul then (npc + 4, npc + 8)
  else (npc, npc + 4)

/-- One step; `none` where there is no code, for a misaligned jump, and for the control
transfers that no relocated code has. -/
def step (sem : Sem ρ) (code : Code) (c : Cpu ρ) : Option (Cpu ρ) :=
  match code c.pc with
  | none => none
  | some s =>
    match decode s.word with
    | .branch b =>
      let next := branchTo b (c.arch.holds b.kind.tested b.condition) c.pc c.npc
      some { c with pc := next.1, npc := next.2 }
    | .call disp =>
      some { c with pc := c.npc, npc := c.pc + BitVec.ofInt 64 disp,
                    arch := c.arch.write Reg.o7 c.pc }
    | .jmpl rd rs1 addr =>
      let target := c.arch.read rs1 + c.arch.operand addr
      if target.toNat % 4 = 0 then
        some { c with pc := c.npc, npc := target, arch := c.arch.write rd c.pc }
      else none
    | .cti => none
    | _ => some ⟨c.npc, c.npc + 4, exec sem s.word c.pc c.arch, c.delays + s.isDelay.toNat⟩

/-- `c'` comes after `c` in the run of the machine. -/
def Reaches (sem : Sem ρ) (code : Code) : Cpu ρ → Cpu ρ → Prop :=
  Relation.ReflTransGen fun c c' => step sem code c = some c'

/-! ## Reading and writing registers -/

/-- In one window, different registers have different cells. -/
theorem cellOf_injective (cwp : Int) : Function.Injective (cellOf cwp) := by
  intro r r' h
  apply Fin.ext
  rcases hb : r.val / 8 with _ | _ | _ | _ | _ <;>
    rcases hb' : r'.val / 8 with _ | _ | _ | _ | _ <;>
    simp [cellOf, hb, hb', Fin.ext_iff, Fin.ofNat] at h <;> omega

variable {r : Reg}

namespace Arch

@[simp] theorem cwp_write (σ : Arch ρ) (r : Reg) (v : BitVec 64) : (σ.write r v).cwp = σ.cwp := by
  simp only [write]
  split <;> rfl

theorem read_write_self (σ : Arch ρ) (hr : r ≠ Reg.g0) (v : BitVec 64) :
    (σ.write r v).read r = v := by
  simp [read, write, if_neg hr]

theorem read_write_of_ne (σ : Arch ρ) {r r' : Reg} (h : r' ≠ r) (v : BitVec 64) :
    (σ.write r v).read r' = σ.read r' := by
  simp only [read, write]
  split
  · rfl
  · split
    · rfl
    · exact Function.update_of_ne (fun hc => h (cellOf_injective σ.cwp hc)) _ _

/-- A write leaves the cells of the other windows and registers alone. -/
theorem regs_write_of_ne (σ : Arch ρ) {c : Cell} (h : c ≠ cellOf σ.cwp r) (v : BitVec 64) :
    (σ.write r v).regs c = σ.regs c := by
  simp only [write]
  split
  · rfl
  · exact Function.update_of_ne h _ _

/-- The cells of the windows outside window `cwp`: those of its callers. -/
def Outer (cwp : Int) : Cell → Prop
  | .global _ => False
  | .local w _ => w < cwp
  | .input w _ => w < cwp

theorem outer_ne_cellOf {cwp : Int} {c : Cell} (hc : Outer cwp c) (r : Reg) : c ≠ cellOf cwp r := by
  rintro rfl
  rcases hb : r.val / 8 with _ | _ | _ | _ | _ <;> simp [cellOf, hb, Outer] at hc

end Arch

/-! ## States that agree on what matters -/

/-- Two states in the same window that agree except on the registers of `F`: on the
other registers of the window, on its callers' windows, on the condition codes and on
everything else. -/
structure SameExcept (F : Set Reg) (σ σ' : Arch ρ) : Prop where
  cwp : σ'.cwp = σ.cwp
  read : ∀ r ∉ F, σ'.read r = σ.read r
  outer : ∀ c, Arch.Outer σ.cwp c → σ'.regs c = σ.regs c
  icc : σ'.icc = σ.icc
  xcc : σ'.xcc = σ.xcc
  fcc : σ'.fcc = σ.fcc
  rest : σ'.rest = σ.rest

namespace SameExcept

variable {F G : Set Reg} {σ σ₁ σ₂ : Arch ρ}

theorem refl (F : Set Reg) (σ : Arch ρ) : SameExcept F σ σ :=
  ⟨rfl, fun _ _ => rfl, fun _ _ => rfl, rfl, rfl, rfl, rfl⟩

theorem trans (h₁ : SameExcept F σ σ₁) (h₂ : SameExcept F σ₁ σ₂) : SameExcept F σ σ₂ where
  cwp := h₂.cwp.trans h₁.cwp
  read r hr := (h₂.read r hr).trans (h₁.read r hr)
  outer c hc := (h₂.outer c (h₁.cwp ▸ hc)).trans (h₁.outer c hc)
  icc := h₂.icc.trans h₁.icc
  xcc := h₂.xcc.trans h₁.xcc
  fcc := h₂.fcc.trans h₁.fcc
  rest := h₂.rest.trans h₁.rest

theorem mono (h : SameExcept F σ σ₁) (hFG : F ⊆ G) : SameExcept G σ σ₁ :=
  { h with read := fun r hr => h.read r fun hF => hr (hFG hF) }

theorem write (hr : r ∈ F) (v : BitVec 64) : SameExcept F σ (σ.write r v) where
  cwp := σ.cwp_write r v
  read r' hr' := σ.read_write_of_ne (by rintro rfl; exact hr' hr) v
  outer c hc := σ.regs_write_of_ne (Arch.outer_ne_cellOf hc r) v
  icc := by simp only [Arch.write]; split <;> rfl
  xcc := by simp only [Arch.write]; split <;> rfl
  fcc := by simp only [Arch.write]; split <;> rfl
  rest := by simp only [Arch.write]; split <;> rfl

/-- A condition has the same outcome in states that agree on the tested register. -/
theorem holds_eq (h : SameExcept F σ σ₁) {t : Tested} (ht : ∀ r, t = .reg r → r ∉ F) (cond : Nat) :
    σ₁.holds t cond = σ.holds t cond := by
  cases t with
  | icc xcc => simp only [Arch.holds, h.icc, h.xcc]
  | fcc n => simp only [Arch.holds, h.fcc]
  | reg r => simp [Arch.holds, h.read r (ht r rfl)]

end SameExcept

/-! ## A window for scratch registers

Between a `save` and its `restore` the `%o` and `%l` registers are free to use. -/

/-- The registers that a `save` makes fresh: `%o0` to `%l7`. -/
def freshRegs : Set Reg := fun r => 8 ≤ r.val ∧ r.val < 24

/-- A register of a window is, in the next one, in a caller's window or under a name
that is not fresh. -/
theorem cellOf_next_window (cwp : Int) (h0 : r ≠ Reg.g0) : Arch.Outer (cwp + 1) (cellOf cwp r) ∨
      ∃ r', r' ∉ freshRegs ∧ r' ≠ Reg.g0 ∧ cellOf (cwp + 1) r' = cellOf cwp r := by
  rcases hb : r.val / 8 with _ | _ | _ | _ | _
  · -- a global register keeps its name
    refine .inr ⟨r, fun hf => ?_, h0, by simp [cellOf, hb]⟩
    have := hf.1
    omega
  · -- an `%o` register is the next window's `%i` register
    have hlt : r.val + 16 < 32 := by omega
    refine .inr ⟨⟨r.val + 16, hlt⟩, fun hf => ?_, fun h => ?_, ?_⟩
    · have := hf.2
      simp only at this
      omega
    · have hv : r.val + 16 = 0 := congrArg Fin.val h
      omega
    · have hb' : (r.val + 16) / 8 = 3 := by omega
      have hidx : (r.val + 16) % 8 = r.val % 8 := by omega
      simp [cellOf, hb, hb', Fin.ofNat, hidx]
  · exact .inl (by simp only [cellOf, hb, Arch.Outer]; omega)
  · exact .inl (by simp only [cellOf, hb, Arch.Outer]; omega)
  · omega

theorem Arch.Outer.next_window {cwp : Int} {c : Cell} (h : Arch.Outer cwp c) :
    Arch.Outer (cwp + 1) c := by
  cases c with
  | global i => exact h
  | «local» w i | input w i => exact lt_trans h (by omega)

/-- **What happens in a scratch window stays there**: after the `restore`, every register
is as before the `save`. -/
theorem SameExcept.of_scratch_window {σ τ : Arch ρ}
    (h : SameExcept freshRegs { σ with cwp := σ.cwp + 1 } τ) :
    SameExcept ∅ σ { τ with cwp := τ.cwp - 1 } where
  cwp := by
    have : τ.cwp = σ.cwp + 1 := h.cwp
    simp only [this]
    omega
  read r _ := by
    have hcwp : τ.cwp - 1 = σ.cwp := by
      have : τ.cwp = σ.cwp + 1 := h.cwp
      omega
    simp only [Arch.read, hcwp]
    split
    case isTrue => rfl
    case isFalse h0 =>
      rcases cellOf_next_window σ.cwp h0 with hout | ⟨r', hf, h0', hcell⟩
      · exact h.outer _ hout
      · rw [← hcell]
        have hread := h.read r' hf
        simpa [Arch.read, if_neg h0', h.cwp] using hread
  outer c hc := h.outer c hc.next_window
  icc := h.icc
  xcc := h.xcc
  fcc := h.fcc
  rest := h.rest

/-! ## Code in place -/

/-- The slots stand in the code from address `p` on. -/
def Holds (code : Code) (p : Kptr) (slots : List Slot) : Prop :=
  ∀ i s, slots[i]? = some s → code (p + BitVec.ofNat 64 (4 * i)) = some s

/-- Code that consists of one block. -/
def blockCode (p : Kptr) (slots : List Slot) : Code := fun a =>
  if (a - p).toNat % 4 = 0 then slots[(a - p).toNat / 4]? else none

variable {slots : List Slot}

theorem holds_blockCode (p : Kptr) (hlen : 4 * slots.length < 2 ^ 64) :
    Holds (blockCode p slots) p slots := by
  intro i s hs
  obtain ⟨hi, -⟩ := List.getElem?_eq_some_iff.mp hs
  have hoff : (p + ofNat 64 (4 * i) - p).toNat = 4 * i := toNat_add_sub p (by omega)
  simp only [blockCode, hoff]
  simp [hs]

theorem blockCode_eq_none {p a : Kptr} (h : 4 * slots.length ≤ (a - p).toNat) :
    blockCode p slots a = none := by
  simp only [blockCode]
  split
  · exact List.getElem?_eq_none (by omega)
  · rfl

theorem blockCode_eq_some {p a : Kptr} {s : Slot} (h : blockCode p slots a = some s) :
    ∃ i, slots[i]? = some s ∧ a = p + ofNat 64 (4 * i) := by
  simp only [blockCode] at h
  split at h
  case isTrue hmod =>
    refine ⟨(a - p).toNat / 4, h, ?_⟩
    rw [Nat.mul_div_cancel' (Nat.dvd_of_mod_eq_zero hmod), BitVec.ofNat_toNat, BitVec.setWidth_eq,
      add_comm, BitVec.sub_add_cancel]
  case isFalse => cases h

namespace Holds

variable {code : Code} {p : Kptr} {s : Slot} {slots slots' : List Slot}

theorem head (h : Holds code p (s :: slots)) : code p = some s := by
  simpa using h 0 s rfl

theorem append (h : Holds code p (slots ++ slots')) :
    Holds code p slots ∧ Holds code (p + ofNat 64 (4 * slots.length)) slots' := by
  refine ⟨fun i s hs => h i s ?_, fun i s hs => ?_⟩
  · obtain ⟨hi, -⟩ := List.getElem?_eq_some_iff.mp hs
    rw [List.getElem?_append_left hi, hs]
  · have := h (slots.length + i) s (by rw [List.getElem?_append_right (by omega)]; simpa using hs)
    rwa [BitVec.add_assoc, ← BitVec.ofNat_add, ← Nat.mul_add]

theorem tail (h : Holds code p (s :: slots)) : Holds code (p + 4) slots := by
  have happ : Holds code p ([s] ++ slots) := h
  exact happ.append.2

end Holds

/-! ## Steps -/

section Steps

variable {sem : Sem ρ} {code : Code} {pc npc : Kptr} {σ : Arch ρ} {k : Nat} {s : Slot}

theorem step_plain (hs : code pc = some s) (hplain : (decode s.word).isPlain) :
    step sem code ⟨pc, npc, σ, k⟩ =
      some ⟨npc, npc + 4, exec sem s.word pc σ, k + s.isDelay.toNat⟩ := by
  simp only [step, hs]
  cases hd : decode s.word <;> simp_all [Insn.isPlain]

theorem step_branch {b : Branch} {pc' npc' : Kptr} (hs : code pc = some s)
    (hd : decode s.word = .branch b)
    (hto : branchTo b (σ.holds b.kind.tested b.condition) pc npc = (pc', npc')) :
    step sem code ⟨pc, npc, σ, k⟩ = some ⟨pc', npc', σ, k⟩ := by
  simp [step, hs, hd, hto]

theorem step_call {disp : Int} {t : Kptr} (hs : code pc = some s)
    (hd : decode s.word = .call disp) (ht : pc + ofInt 64 disp = t) :
    step sem code ⟨pc, npc, σ, k⟩ = some ⟨npc, t, σ.write Reg.o7 pc, k⟩ := by
  simp [step, hs, hd, ht]

theorem step_jmpl {rd rs1 : Reg} {addr : Operand} {t : Kptr} (hs : code pc = some s)
    (hd : decode s.word = .jmpl rd rs1 addr) (ht : σ.read rs1 + σ.operand addr = t)
    (halign : t.toNat % 4 = 0) :
    step sem code ⟨pc, npc, σ, k⟩ = some ⟨npc, t, σ.write rd pc, k⟩ := by
  simp [step, hs, hd, ht, if_pos halign]

theorem Reaches.single {c c' : Cpu ρ} (h : step sem code c = some c') : Reaches sem code c c' :=
  ReflTransGen.single h

theorem Reaches.trans {c c₁ c₂ : Cpu ρ} (h : Reaches sem code c c₁) (h' : Reaches sem code c₁ c₂) :
    Reaches sem code c c₂ :=
  ReflTransGen.trans h h'

theorem Reaches.head {c c₁ c₂ : Cpu ρ} (h : step sem code c = some c₁)
    (h' : Reaches sem code c₁ c₂) : Reaches sem code c c₂ :=
  ReflTransGen.head h h'

theorem Reaches.tail {c c₁ c₂ : Cpu ρ} (h : Reaches sem code c c₁)
    (h' : step sem code c₁ = some c₂) : Reaches sem code c c₂ :=
  ReflTransGen.tail h h'

theorem step_delays_le {c c' : Cpu ρ} (h : step sem code c = some c') : c.delays ≤ c'.delays := by
  simp only [step] at h
  split at h
  · cases h
  · split at h
    · exact (some.inj h) ▸ le_refl c.delays
    · exact (some.inj h) ▸ le_refl c.delays
    · split at h
      · exact (some.inj h) ▸ le_refl c.delays
      · cases h
    · cases h
    · exact (some.inj h) ▸ Nat.le_add_right c.delays _

theorem Reaches.delays_le {c c' : Cpu ρ} (h : Reaches sem code c c') : c.delays ≤ c'.delays := by
  induction h with
  | refl => exact le_refl _
  | tail _ hstep ih => exact ih.trans (step_delays_le hstep)

/-- Of two states of one run, one comes after the other. -/
theorem Reaches.total {c c₁ c₂ : Cpu ρ} (h₁ : Reaches sem code c c₁) (h₂ : Reaches sem code c c₂) :
    Reaches sem code c₁ c₂ ∨ Reaches sem code c₂ c₁ := by
  have hdet : Relator.RightUnique fun a b : Cpu ρ => step sem code a = some b := by
    intro a b b' hb hb'
    exact some_injective _ (hb.symm.trans hb')
  exact total_of_right_unique hdet h₁ h₂

/-- Where there is no code, the run has ended. -/
theorem Reaches.eq_of_no_code {c c' : Cpu ρ} (h : Reaches sem code c c') (hc : code c.pc = none) :
    c' = c := by
  rcases cases_head h with heq | ⟨c₁, hstep, -⟩
  · exact heq.symm
  · simp [step, hc] at hstep

/-- Two ends of one run are the same. -/
theorem Reaches.end_unique {c c₁ c₂ : Cpu ρ} (h₁ : Reaches sem code c c₁)
    (h₂ : Reaches sem code c c₂) (he₁ : code c₁.pc = none) (he₂ : code c₂.pc = none) : c₁ = c₂ := by
  rcases h₁.total h₂ with h | h
  · exact (eq_of_no_code h he₁).symm
  · exact eq_of_no_code h he₂

end Steps

end Kerninst
