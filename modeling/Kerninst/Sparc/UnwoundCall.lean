import Kerninst.Sparc.CondBranch

/-!
# Unwound tail calls

A function ends in a tail call if it calls with a `restore` in the delay slot: the callee
runs in the window of the function's caller, and returns there. To execute snippets after the
callee returns, the tail call is unwound. What the `restore` adds up is put where it will be
after a real `restore`, the arguments are copied from the `%i` to the `%o` registers, the
callee is called and returns to the patch, its results are copied back, and the function
returns.

The `restore` reads its operands when the call has written `%o7`, and the `add` that stands
for it reads them before that, and after the snippets. So `%o7` and the registers offered to
the snippets must not be among them (`transparent_iff`).
-/

namespace Kerninst

open SameExcept List Reg Arch SparcInstr
open Cpu (seq arch)
open BitVec (ofNat ofNat_add add_assoc ofInt)

universe u

variable {ρ : Type u} (sem : Sem ρ)

/-! ## The window outside -/

/-- The name that a register of the caller's window has in this one, if it has one. -/
def innerName (r : Reg) : Reg :=
  if h : 8 ≤ r.val ∧ r.val < 16 then ⟨r.val + 16, by omega⟩ else r

section Windows

variable {r r' : Reg}

theorem innerName_val (r : Reg) :
    (innerName r).val = if 8 ≤ r.val ∧ r.val < 16 then r.val + 16 else r.val := by
  rw [innerName]
  split <;> rfl

theorem innerName_inj (hr : r.val < 16) (hr' : r'.val < 16) (h : innerName r = innerName r') :
    r = r' := by
  have hval := congrArg Fin.val h
  rw [innerName_val, innerName_val] at hval
  apply Fin.ext
  split at hval <;> split at hval <;> omega

theorem innerName_ne_o7 (r : Reg) (hr : r.val < 16) : innerName r ≠ o7 := by
  intro h
  have hval : (innerName r).val = 15 := congrArg Fin.val h
  rw [innerName_val] at hval
  split at hval <;> omega

theorem innerName_eq_g0 (hr : r.val < 16) : innerName r = g0 ↔ r = g0 := by
  have h0 : innerName g0 = g0 := rfl
  exact ⟨fun h => innerName_inj hr (by decide) (h.trans h0.symm), fun h => h ▸ h0⟩

theorem cellOf_prevWindow (cwp : Int) (hr : r.val < 16) :
    cellOf (cwp - 1) r = cellOf cwp (innerName r) := by
  have hval := innerName_val r
  rcases hb : r.val / 8 with _ | _ | _
  · rw [if_neg (by omega)] at hval
    rw [show innerName r = r from Fin.ext hval]
    simp [cellOf, hb]
  · rw [if_pos (by omega)] at hval
    have hb' : (innerName r).val / 8 = 3 := by omega
    have hidx : (innerName r).val % 8 = r.val % 8 := by omega
    simp [cellOf, hb, hb', Fin.ofNat, hidx]
  · omega

/-- The registers that are still there after a `restore`. -/
theorem Arch.read_prevWindow (σ : Arch ρ) (hr : r.val < 16) :
    { σ with cwp := σ.cwp - 1 }.read r = σ.read (innerName r) := by
  simp [read, innerName_eq_g0 hr, cellOf_prevWindow σ.cwp hr]

end Windows

/-! ## Moves -/

section Moves

variable {src dest : Fin 6 → Reg} {l : List (Fin 6)} {σ : Arch ρ}

def moveAll (src dest : Fin 6 → Reg) (l : List (Fin 6)) (σ : Arch ρ) : Arch ρ :=
  l.foldl (fun σ n => σ.write (dest n) (σ.read (src n))) σ

theorem line_moveAll (src dest : Fin 6 → Reg) (l : List (Fin 6)) :
    ∃ ws, (l.mapM fun n => mov (src n) (dest n)) = some ws ∧ ws.length = l.length ∧
      Line sem ws (moveAll src dest l) := by
  induction l with
  | nil => exact ⟨[], rfl, rfl, Line.nil sem⟩
  | cons n l ih =>
    obtain ⟨w, hw, hplain, hexec⟩ := line_mov sem (src n) (dest n)
    obtain ⟨ws, hws, hlen, hline⟩ := ih
    refine ⟨w :: ws, ?_, by rw [length_cons, length_cons, hlen],
      (Line.single hplain hexec).append hline⟩
    simp [hw, hws]

theorem sameExcept_moveAll (src dest : Fin 6 → Reg) (l : List (Fin 6)) (σ : Arch ρ) :
    SameExcept (Set.range dest) σ (moveAll src dest l σ) := by
  induction l generalizing σ with
  | nil => exact refl _ _
  | cons n l ih => exact (write (Set.mem_range_self n) _).trans (ih _)

/-- If no source is a destination, every destination gets its source. -/
theorem read_moveAll (hinj : Function.Injective dest) (hne : ∀ m n, src m ≠ dest n)
    (h0 : ∀ n, dest n ≠ g0) (hl : l.Nodup) {n : Fin 6} (hn : n ∈ l) :
    (moveAll src dest l σ).read (dest n) = σ.read (src n) := by
  have hkeep : ∀ {l : List (Fin 6)} (τ : Arch ρ), n ∉ l →
      (moveAll src dest l τ).read (dest n) = τ.read (dest n) := by
    intro l
    induction l with
    | nil => exact fun _ _ => rfl
    | cons m l ih =>
      intro τ hnot
      obtain ⟨hm, hrest⟩ : n ≠ m ∧ n ∉ l := by simpa using hnot
      exact (ih _ hrest).trans (τ.read_write_of_ne (fun h => hm (hinj h)) _)
  induction l generalizing σ with
  | nil => cases hn
  | cons m l ih =>
    obtain ⟨hm, hl⟩ := nodup_cons.mp hl
    rcases mem_cons.mp hn with rfl | hn
    · exact (hkeep _ hm).trans (σ.read_write_self (h0 n) _)
    · exact (ih hl hn).trans (σ.read_write_of_ne (hne n m) _)

end Moves

/-! ## The addition -/

/-- What the words of the `add` instruction do. -/
def KnowsAdd : Prop :=
  ∀ w pc σ, field w 30 2 = 2 → field w 19 6 = 0 →
    sem w pc σ = σ.write (regField w 25) (σ.read (regField w 14) + σ.operand (operandField w))

/-- What a `restore` with these operands adds up. -/
def Arch.sum (σ : Arch ρ) (rs1 : Reg) (src : Operand) : BitVec 64 := σ.read rs1 + σ.operand src

/-- The state after the `add`, which is left out if the result is not wanted. -/
def addRestored (rd rs1 : Reg) (src : Operand) (σ : Arch ρ) : Arch ρ :=
  if rd = Reg.g0 then σ else σ.write (innerName rd) (σ.sum rs1 src)

section Adding

variable {rd rs1 r : Reg} {src : Operand} {σ : Arch ρ}

theorem sameExcept_addRestored (rd rs1 : Reg) (src : Operand) (σ : Arch ρ) :
    SameExcept {innerName rd} σ (addRestored rd rs1 src σ) := by
  rw [addRestored]
  split
  · exact refl _ _
  · exact write (Set.mem_singleton _) _

theorem read_addRestored_self (hrd : rd.val < 16) (h0 : rd ≠ g0) :
    (addRestored rd rs1 src σ).read (innerName rd) = σ.sum rs1 src := by
  rw [addRestored, if_neg h0, read_write_self _ (mt (innerName_eq_g0 hrd).mp h0)]

theorem read_addRestored_of_ne (hr : r.val < 16) (hrd : rd.val < 16) (h : r ≠ rd) :
    (addRestored rd rs1 src σ).read (innerName r) = σ.read (innerName r) :=
  (sameExcept_addRestored rd rs1 src σ).read _ fun hmem => h (innerName_inj hr hrd hmem)

variable {sem}

theorem add_spec {w : Word} (hsem : KnowsAdd sem) (h : decode w = .restore r rs1 src) (rd : Reg) :
    ∃ i, add rs1 src rd = some i ∧ Line sem [i] fun σ => σ.write rd (σ.sum rs1 src) := by
  have hword : ∃ i, add rs1 src rd = some i ∧ field i 30 2 = 2 ∧ field i 19 6 = 0 ∧
      regField i 25 = rd ∧ regField i 14 = rs1 ∧ operandField i = src := by
    cases src with
    | reg rs2 => exact set2RegStyle_spec (by decide : 0 < 64) rd rs1 rs2
    | simm13 imm =>
      obtain ⟨hlo, hhi⟩ := simm13_of_decode (.inr h)
      exact setSimm13Style_spec (by decide : 0 < 64) rd rs1 hlo hhi
  obtain ⟨i, hi, hop, hop3, hrd, hrs1, hsrc⟩ := hword
  have hd : decode i = .plain := by simp [decode, decodeFormat3, hop, hop3]
  refine ⟨i, hi, Line.single (by rw [hd]; rfl) fun pc σ => ?_⟩
  simp [exec, hd, hsem i pc σ hop hop3, hrd, hrs1, hsrc, Arch.sum]

end Adding

/-! ## Callees and snippets -/

/-- The states agree on the registers of `R` and on memory. -/
structure SameOn (R : Set Reg) (σ τ : Arch ρ) : Prop where
  read : ∀ r ∈ R, τ.read r = σ.read r
  rest : τ.rest = σ.rest

/-- A function that follows the calling convention: it is given arguments in `args` and leaves
results in `rets`, both among the `%g`s and `%o0` to `%o5`; it returns in the window and with
the stack pointer it was called with; and it keeps the `%l` and `%i` registers of that window
and all windows outside. -/
structure Callee (ρ : Type u) where
  run : Arch ρ → Arch ρ
  args : Set Reg
  rets : Set Reg
  args_lt : ∀ r ∈ args, r.val < 14
  rets_lt : ∀ r ∈ rets, r.val < 14
  cwp : ∀ σ, (run σ).cwp = σ.cwp
  sp : ∀ σ, (run σ).read Reg.sp = σ.read Reg.sp
  keeps : ∀ σ c, Arch.Outer (σ.cwp + 1) c → (run σ).regs c = σ.regs c
  result : ∀ σ τ, SameOn args σ τ → SameOn rets (run σ) (run τ)

/-- Code that changes nothing but registers of `F`. -/
structure Snippet (ρ : Type u) (F : Set Reg) where
  run : Arch ρ → Arch ρ
  keeps : ∀ σ, SameExcept F σ (run σ)

/-- The caller is returned to in the same window, with its stack pointer, its `%l` and `%i`
registers, the windows outside, and the results. -/
structure SameReturn (rets : Set Reg) (τ τ' : Arch ρ) : Prop where
  cwp : τ'.cwp = τ.cwp
  sp : τ'.read Reg.sp = τ.read Reg.sp
  window : ∀ c, Arch.Outer (τ.cwp + 1) c → τ'.regs c = τ.regs c
  results : SameOn rets τ τ'

/-- No register of `D` is read after the call is reached: not by the `restore`, not by the
callee, and not by the caller for its stack pointer and the return address. -/
def IsDead (D : Set Reg) (callee : Callee ρ) (rd rs1 : Reg) (src : Operand) : Prop :=
  ∀ r ∈ D, r ≠ rs1 ∧ src ≠ .reg r ∧ r ≠ Reg.fp ∧ r ≠ Reg.i7 ∧
    ∀ a ∈ callee.args, a ≠ rd → r ≠ innerName a

/-! ## The two runs -/

/-- The original tail call reaches the callee in state `e`, and the callee returns in `τ`. -/
structure OriginalRun (launch : Kptr) (call restore : Word) (dest : Kptr) (callee : Callee ρ)
    (σ e τ : Arch ρ) : Prop where
  entry : Reaches sem (blockCode launch [newSlot call, newSlot restore]) (Cpu.seq launch σ 0)
    (Cpu.seq dest e 0)
  result : τ = callee.run e

/-- The unwound tail call executes the first snippets, reaches the callee in state `e`, which
returns to the patch, executes the other snippets, and returns in state `τ` to `returnTo`. -/
structure UnwoundRun (patch : Kptr) (block : List Word) (patch' : Kptr) (block' : List Word)
    (dest : Kptr) (callee : Callee ρ) (pre post : Arch ρ → Arch ρ) (σ e τ : Arch ρ)
    (returnTo : Kptr) : Prop where
  entry : Reaches sem (blockCode patch (block.map newSlot)) (Cpu.seq patch (pre σ) 0)
    (Cpu.seq dest e 0)
  result : ∃ τ₁, Reaches sem (blockCode patch (block.map newSlot))
      (Cpu.seq (e.read Reg.o7 + 8) (callee.run e) 0)
      (Cpu.seq (patch + BitVec.ofNat 64 (4 * block.length)) τ₁ 0) ∧
    Reaches sem (blockCode patch' (block'.map newSlot)) (Cpu.seq patch' (post τ₁) 0)
      (Cpu.seq returnTo τ 0)

open UnwoundCallRestore in
/-- **Unwinding is transparent**: for every callee, every set of registers that are dead before
the call, and all snippets within the registers they are offered, the callee is given the same
arguments, and the caller is returned to in the same way. -/
def Transparent (launch : Kptr) (call restore : Word) (dest : Kptr) (rd rs1 : Reg) (src : Operand)
    (patch : Kptr) (block : List Word) (patch' : Kptr) (block' : List Word) : Prop :=
  ∀ (callee : Callee ρ) (before : SparcRegSet), IsDead (intRegs before) callee rd rs1 src →
  ∀ (pre : Snippet ρ (intRegs (intRegsForExecutingPreInsnSnippets before)))
    (post : Snippet ρ (intRegs intRegsForExecutingPreReturnSnippets)) (σ : Arch ρ),
  (σ.read Reg.i7).toNat % 4 = 0 → ∃ e τ e' τ',
    OriginalRun sem launch call restore dest callee σ e τ ∧
    UnwoundRun sem patch block patch' block' dest callee pre.run post.run σ e' τ'
      (e.read Reg.o7 + 8) ∧
    SameOn callee.args e e' ∧ SameReturn callee.rets τ τ'

namespace UnwoundCallRestore

/-! ## The emitted code -/

theorem newRd_eq {rd : Reg} (h : rd.val < 14) : newRd rd = some (innerName rd) := by
  rw [newRd]
  split
  case isTrue h0 => rw [h0]; rfl
  case isFalse =>
    split
    · rw [innerName, dif_neg (by omega)]
    · rw [innerName, dif_pos (by omega)]

/-- How many instructions the `add` takes. -/
def addLen (rd : Reg) : Nat := if rd = Reg.g0 then 0 else 1

/-- Where the call stands. -/
def callAddr (patch : Kptr) (rd : Reg) : Kptr := patch + BitVec.ofNat 64 (4 * (addLen rd + 6))

/-- The state in which the callee is called. -/
def entryState (patch : Kptr) (rd rs1 : Reg) (src : Operand) (σ : Arch ρ) : Arch ρ :=
  (moveAll Reg.input Reg.output (List.finRange 6) (addRestored rd rs1 src σ)).write Reg.o7
    (callAddr patch rd)

/-- The state in which the function returns, after the snippets. -/
def movedBack (τ : Arch ρ) : Arch ρ := moveAll Reg.output Reg.input (List.finRange 6) τ

section Emit

variable {sem} {u : UnwoundCallRestore} {launch patch : Kptr} {call restore : Word}
  {offset : Int} {rd rs1 : Reg} {src : Operand}

theorem create_eq (hcall : decode call = .call offset)
    (hrestore : decode restore = .restore rd rs1 src) (hrd : rd.val < 14) :
    create launch call restore =
      some ⟨launch + BitVec.ofInt 64 offset, rs1, src, rd, innerName rd⟩ := by
  simp [create, hcall, hrestore, newRd_eq hrd]

theorem emitAdd_spec (hsem : KnowsAdd sem) (hrestore : decode restore = .restore rd rs1 src)
    (dest : Kptr) :
    ∃ ws, emitAdd ⟨dest, rs1, src, rd, innerName rd⟩ = some ws ∧ ws.length = addLen rd ∧
      Line sem ws (addRestored rd rs1 src) := by
  by_cases h0 : rd = g0
  · refine ⟨[], if_pos h0, (if_pos h0).symm, (Line.nil sem).congr fun σ => ?_⟩
    rw [addRestored, if_pos h0, id]
  · obtain ⟨i, hi, hline⟩ := add_spec hsem hrestore (innerName rd)
    refine ⟨[i], ?_, (if_neg h0).symm, hline.congr fun σ => ?_⟩
    · simp [emitAdd, if_neg h0, hi]
    · rw [addRestored, if_neg h0]

/-- **What is emitted before the snippets of the return**, if the callee is in range: the
callee is called in the entry state, and when it returns the results are moved back. -/
theorem emit_spec (hsem : KnowsAdd sem) (hrestore : decode restore = .restore rd rs1 src)
    {dest : Kptr} (hpatch : patch.toNat % 4 = 0) (hdest : dest.toNat % 4 = 0)
    (hrange : inRangeOfCall (callAddr patch rd) dest = some true) :
    ∃ block, emitStuffAfterPreInsnSnippets ⟨dest, rs1, src, rd, innerName rd⟩ patch = some block ∧
      block.length ≤ 15 ∧ ∀ σ : Arch ρ, let code := blockCode patch (block.map newSlot)
        Reaches sem code (seq patch σ 0) (seq dest (entryState patch rd rs1 src σ) 0) ∧
        Reaches sem code (seq (callAddr patch rd + 8) σ 0)
          (seq (patch + BitVec.ofNat 64 (4 * block.length)) (movedBack σ) 0) := by
  obtain ⟨add, hadd, haddLen, haddLine⟩ := emitAdd_spec hsem hrestore dest
  obtain ⟨down, hdown, hdownLen, hdownLine⟩ := line_moveAll sem input output (finRange 6)
  obtain ⟨up, hup, hupLen, hupLine⟩ := line_moveAll sem output input (finRange 6)
  obtain ⟨nop, hnop, hdnop⟩ := nop_spec
  have hlen : (add ++ down).length = addLen rd + 6 := by
    rw [length_append, haddLen, hdownLen, length_finRange]
  have haddr : patch + ofNat 64 (4 * (add ++ down).length) = callAddr patch rd := by
    rw [hlen, callAddr]
  have halign : (callAddr patch rd).toNat % 4 = 0 := add_aligned hpatch (by omega)
  obtain ⟨w, disp, hw, hdw, htarget⟩ := callandlink_spec hrange hdest halign
  have hsize : (add ++ down ++ [w, nop] ++ up).length ≤ 15 := by
    simp only [length_append, haddLen, hdownLen, hupLen, length_finRange, addLen]
    split <;> simp
  refine ⟨add ++ down ++ [w, nop] ++ up, ?_, hsize, fun σ => ?_⟩
  · simp only [emitStuffAfterPreInsnSnippets, moves, hadd, hdown, hup, hnop, run_do]
    rw [haddr, hw]
    rfl
  · intro code
    have hcode : Holds code patch _ := holds_blockCode patch (by rw [length_map]; omega)
    rw [append_assoc, map_append] at hcode
    obtain ⟨hhead, htail⟩ := hcode.append
    rw [length_map, haddr, map_append] at htail
    obtain ⟨hcallCode, hupCode⟩ := htail.append
    constructor
    · have hrun := (haddLine.append hdownLine).run code patch σ 0 hhead
      rw [haddr] at hrun
      have hstep : step sem code (seq (callAddr patch rd) (moveAll input output
            (finRange 6) (addRestored rd rs1 src σ)) 0) =
          some ⟨callAddr patch rd + 4, dest, entryState patch rd rs1 src σ, 0⟩ :=
        step_call hcallCode.head hdw htarget
      have hstep' : step sem code ⟨callAddr patch rd + 4, dest, entryState patch rd rs1 src σ, 0⟩ =
          some (seq dest (exec sem nop (callAddr patch rd + 4) _) 0) :=
        step_plain hcallCode.tail.head (congrArg Insn.isPlain hdnop)
      rw [exec_nop sem hdnop] at hstep'
      exact (hrun.tail hstep).tail hstep'
    · have hrun := hupLine.run code (callAddr patch rd + 8) σ 0 hupCode
      have hend : callAddr patch rd + 8 + ofNat 64 (4 * up.length) =
          patch + ofNat 64 (4 * (add ++ down ++ [w, nop] ++ up).length) := by
        have hall : (add ++ down ++ [w, nop] ++ up).length =
            (add ++ down).length + (2 + up.length) := by
          simp only [length_append, length_cons, length_nil]
          omega
        rw [← haddr, hall, Nat.mul_add, Nat.mul_add, ofNat_add, ofNat_add, ← add_assoc, ← add_assoc]
        rfl
      rw [hend] at hrun
      exact hrun

theorem emitStuffAfterPreReturnSnippets_spec (sem : Sem ρ) (patch : Kptr) :
    ∃ block, emitStuffAfterPreReturnSnippets = some block ∧
      ∀ σ : Arch ρ, (σ.read i7 + 8).toNat % 4 = 0 →
        Reaches sem (blockCode patch (block.map newSlot)) (seq patch σ 0)
          (seq (σ.read i7 + 8) { σ with cwp := σ.cwp - 1 } 0) := by
  obtain ⟨ret, hret, hdret⟩ :=
    SparcInstr.jmplImm_spec g0 i7 (by decide : -2 ^ 12 ≤ (8 : Int)) (by decide)
  obtain ⟨w, hw, hdw⟩ := SparcInstr.restore_spec
  refine ⟨[ret, w], ?_, fun σ halign => ?_⟩
  · simp [emitStuffAfterPreReturnSnippets, SparcInstr.ret, hret, hw]
  · have hcode : Holds _ patch ([ret, w].map newSlot) := holds_blockCode patch (by simp)
    generalize blockCode patch _ = code at hcode ⊢
    have hjump : step sem code (seq patch σ 0) = some ⟨patch + 4, σ.read i7 + 8, σ, 0⟩ := by
      have hstep : step sem code (seq patch σ 0) =
          some ⟨patch + 4, σ.read i7 + 8, σ.write g0 patch, 0⟩ :=
        step_jmpl hcode.head hdret rfl halign
      rwa [Arch.write, if_pos rfl] at hstep
    have hrestore : step sem code ⟨patch + 4, σ.read i7 + 8, σ, 0⟩ =
        some (seq (σ.read i7 + 8) (exec sem w (patch + 4) σ) 0) :=
      step_plain hcode.tail.head (congrArg Insn.isPlain hdw)
    have hexec : exec sem w (patch + 4) σ = { σ with cwp := σ.cwp - 1 } := by
      simp [exec, hdw, Arch.write]
    rw [hexec] at hrestore
    exact (Reaches.single hjump).tail hrestore

end Emit

/-! ## The states on the way -/

section States

variable {launch patch : Kptr} {rd rs1 r : Reg} {src : Operand}

/-- The state in which the original tail call reaches the callee. -/
def originalEntry (launch : Kptr) (rd rs1 : Reg) (src : Operand) (σ : Arch ρ) : Arch ρ :=
  let σ' := σ.write Reg.o7 launch
  { σ' with cwp := σ'.cwp - 1 }.write rd (σ'.sum rs1 src)

theorem read_originalEntry (hrd : rd.val < 14) (hr : r.val < 16) (σ : Arch ρ) :
    (originalEntry launch rd rs1 src σ).read r =
      (addRestored rd rs1 src (σ.write o7 launch)).read (innerName r) := by
  by_cases h0 : rd = g0
  · rw [originalEntry, addRestored, if_pos h0, Arch.write, if_pos h0, Arch.read_prevWindow _ hr]
  · rcases eq_or_ne r rd with rfl | hne
    · rw [originalEntry, read_write_self _ h0, read_addRestored_self hr h0]
    · rw [originalEntry, read_write_of_ne _ hne, read_prevWindow _ hr,
        read_addRestored_of_ne hr (by omega) hne]

/-- The return address and the stack pointer of the caller. -/
theorem read_originalEntry_link (hrd : rd.val < 14) (hlo : 14 ≤ r.val) (hr : r.val < 16)
    (σ : Arch ρ) : (originalEntry launch rd rs1 src σ).read r = σ.read (innerName r) := by
  have hne : r ≠ rd := fun h => by
    rw [h] at hlo
    omega
  rw [read_originalEntry hrd hr, read_addRestored_of_ne hr (by omega) hne,
    read_write_of_ne _ (innerName_ne_o7 r hr)]

theorem originalEntry_outer (hrd : rd.val < 14) (σ : Arch ρ) {c : Cell} (hc : Outer σ.cwp c) :
    (originalEntry launch rd rs1 src σ).regs c = σ.regs c := by
  have hprev : c ≠ cellOf (σ.cwp - 1) rd := by
    rw [cellOf_prevWindow σ.cwp (by omega)]
    exact outer_ne_cellOf hc _
  rw [originalEntry, regs_write_of_ne]
  · exact σ.regs_write_of_ne (outer_ne_cellOf hc o7) launch
  · simpa using hprev

theorem originalEntry_cwp (σ : Arch ρ) : (originalEntry launch rd rs1 src σ).cwp = σ.cwp - 1 := by
  simp [originalEntry]

theorem originalEntry_rest (σ : Arch ρ) : (originalEntry launch rd rs1 src σ).rest = σ.rest := by
  simp only [originalEntry, Arch.write]
  split <;> rfl

theorem input_ne_output : ∀ m n, input m ≠ output n := by decide

/-- A register for arguments and results is a `%g` register or one of the six `%o` registers. -/
theorem eq_output_of_lt (hr : r.val < 14) : r.val < 8 ∨ ∃ n, r = output n := by
  rcases Nat.lt_or_ge r.val 8 with h | h
  · exact .inl h
  · refine .inr ⟨⟨r.val - 8, by omega⟩, Fin.ext ?_⟩
    simp only [output]
    omega

theorem innerName_of_lt (h : r.val < 8) : innerName r = r := by
  rw [innerName, dif_neg (by omega)]

theorem innerName_output : ∀ n, innerName (output n) = input n := by decide

theorem notMem_range_output (h : ¬ (8 ≤ r.val ∧ r.val < 14)) : r ∉ Set.range output := by
  rintro ⟨n, rfl⟩
  exact h ⟨by simp only [output]; omega, by simp only [output]; omega⟩

theorem read_entryState (hr : r.val < 14) (σ : Arch ρ) : (entryState patch rd rs1 src σ).read r =
      (addRestored rd rs1 src σ).read (innerName r) := by
  have ho7 : r ≠ o7 := fun h => by
    rw [h] at hr
    exact absurd hr (by decide)
  rw [entryState, read_write_of_ne _ ho7]
  rcases eq_output_of_lt hr with hlt | ⟨n, rfl⟩
  · rw [innerName_of_lt hlt]
    exact (sameExcept_moveAll _ _ _ _).read r (notMem_range_output (by omega))
  · rw [innerName_output]
    exact read_moveAll (by decide) input_ne_output (by decide) (nodup_finRange 6)
      (mem_finRange n)

/-- The registers that change on the way to the callee. -/
theorem sameExcept_entryState (σ : Arch ρ) : SameExcept ({innerName rd} ∪ Set.range output ∪ {o7}) σ
      (entryState patch rd rs1 src σ) := by
  refine trans (trans ((sameExcept_addRestored rd rs1 src σ).mono ?_)
    ((sameExcept_moveAll input output _ _).mono ?_)) (write ?_ _)
  · exact fun r hr => .inl (.inl hr)
  · exact fun r hr => .inl (.inr hr)
  · exact .inr rfl

theorem read_entryState_saved (hrd : rd.val < 14) (hr : 30 ≤ r.val) (σ : Arch ρ) :
    (entryState patch rd rs1 src σ).read r = σ.read r := by
  refine (sameExcept_entryState σ).read r ?_
  rintro ((h | h) | h)
  · have := innerName_val rd
    rw [← Set.mem_singleton_iff.mp h] at this
    split at this <;> omega
  · exact notMem_range_output (by omega) h
  · rw [Set.mem_singleton_iff.mp h] at hr
    exact absurd hr (by decide)

theorem read_movedBack (hr : r.val < 14) (τ : Arch ρ) :
    (movedBack τ).read (innerName r) = τ.read r := by
  rcases eq_output_of_lt hr with hlt | ⟨n, rfl⟩
  · rw [innerName_of_lt hlt]
    refine (sameExcept_moveAll output input _ τ).read r ?_
    rintro ⟨n, rfl⟩
    simp only [input] at hlt
    omega
  · rw [innerName_output]
    exact read_moveAll (by decide) (fun m n => (input_ne_output n m).symm) (by decide)
      (nodup_finRange 6) (mem_finRange n)

end States

/-! ## Transparency -/

/-- A register that the `add` finds as the `restore` would: it is neither offered to the
snippets whatever the `restore` reads, nor written by the call. -/
def Steady (r : Reg) : Prop := ¬ (8 ≤ r.val ∧ r.val < 14) ∧ r ≠ Reg.o7

instance (r : Reg) : Decidable (Steady r) :=
  inferInstanceAs (Decidable (¬ (8 ≤ r.val ∧ r.val < 14) ∧ r ≠ Reg.o7))

/-- The operands of the `restore` are steady, if its result is wanted. -/
def SteadyOperands (rd rs1 : Reg) (src : Operand) : Prop :=
  rd = Reg.g0 ∨ (Steady rs1 ∧ ∀ rs2, src = .reg rs2 → Steady rs2)

variable {r : Reg}

theorem mem_preInsn_iff {before : SparcRegSet} :
    r ∈ intRegs (intRegsForExecutingPreInsnSnippets before) ↔
      r ∈ intRegs before ∨ (8 ≤ r.val ∧ r.val < 14) := by
  have key : ∀ r : Fin 32, SparcRegSet.mem ⟨0x00003f00, 0, 0⟩ (.int r) = true ↔
      8 ≤ r.val ∧ r.val < 14 := by decide
  have hor : r ∈ intRegs (intRegsForExecutingPreInsnSnippets before) ↔
      r ∈ intRegs before ∨ SparcRegSet.mem ⟨0x00003f00, 0, 0⟩ (.int r) = true := by
    simp [intRegs, intRegsForExecutingPreInsnSnippets]
  rw [hor, key]

theorem lt_of_mem_preReturn (h : r ∈ intRegs intRegsForExecutingPreReturnSnippets) :
    8 ≤ r.val ∧ r.val < 24 := by
  have key : ∀ r : Fin 32, intRegsForExecutingPreReturnSnippets.mem (.int r) = true →
      8 ≤ r.val ∧ r.val < 24 := by decide
  exact key r h

section Transparency

variable {sem} {launch patch dest : Kptr} {rd rs1 : Reg} {src : Operand} {callee : Callee ρ}
  {before : SparcRegSet} {σ σ₁ : Arch ρ}

theorem Outer.cell_of_input {cwp : Int} (hr : 24 ≤ r.val) : Outer (cwp + 1) (cellOf cwp r) := by
  have hb : r.val / 8 = 3 := by omega
  simp [cellOf, hb, Outer]

/-- The callee keeps the `%i` registers of the window it is called in. -/
theorem read_callee (callee : Callee ρ) (σ : Arch ρ) (hr : 24 ≤ r.val) :
    (callee.run σ).read r = σ.read r := by
  rw [Arch.read, Arch.read, callee.cwp, callee.keeps σ _ (Outer.cell_of_input hr)]

/-- The state in which the unwound call returns, and what it has in common with the state in
which the callee was called. -/
theorem unwound_return {e τ₂ : Arch ρ}
    (hpost : SameExcept (intRegs intRegsForExecutingPreReturnSnippets)
      (movedBack (callee.run e)) τ₂) :
    τ₂.cwp = e.cwp ∧ (∀ r, 30 ≤ r.val → τ₂.read r = e.read r) ∧
      (∀ c, Outer e.cwp c → τ₂.regs c = e.regs c) ∧
      ∀ r, r.val < 14 → τ₂.read (innerName r) = (callee.run e).read r := by
  have hback := sameExcept_moveAll output input (finRange 6) (callee.run e)
  have hcwp : (movedBack (callee.run e)).cwp = e.cwp := hback.cwp.trans (callee.cwp e)
  refine ⟨hpost.cwp.trans hcwp, fun r hr => ?_, fun c hc => ?_, fun r hr => ?_⟩
  · rw [hpost.read r fun hmem => by have := lt_of_mem_preReturn hmem; omega, movedBack,
      hback.read r ?_, read_callee callee e (by omega)]
    rintro ⟨n, rfl⟩
    simp only [input] at hr
    omega
  · rw [hpost.outer c (by rw [hcwp]; exact hc), movedBack,
      hback.outer c (by rw [callee.cwp]; exact hc), callee.keeps e c hc.next_window]
  · rw [hpost.read _ fun hmem => ?_, read_movedBack hr]
    have hmem' := lt_of_mem_preReturn hmem
    have := innerName_val r
    split at this <;> omega

theorem original_entry {call restore : Word} {offset : Int} (hcall : decode call = .call offset)
    (hrestore : decode restore = .restore rd rs1 src) (hto : launch + ofInt 64 offset = dest)
    (σ : Arch ρ) : Reaches sem (blockCode launch [newSlot call, newSlot restore])
      (seq launch σ 0) (seq dest (originalEntry launch rd rs1 src σ) 0) := by
  have hcode := holds_blockCode launch
    (show 4 * [newSlot call, newSlot restore].length < 2 ^ 64 by simp)
  have hstep : step sem _ (seq launch σ 0) =
      some ⟨launch + 4, dest, σ.write o7 launch, 0⟩ := step_call hcode.head hcall hto
  have hstep' : step sem _ ⟨launch + 4, dest, σ.write o7 launch, 0⟩ =
      some (seq _ (exec sem restore (launch + 4) (σ.write o7 launch)) 0) :=
    step_plain hcode.tail.head (congrArg Insn.isPlain hrestore)
  have hexec : exec sem restore (launch + 4) (σ.write o7 launch) =
      originalEntry launch rd rs1 src σ := by
    simp only [exec, hrestore]
    rfl
  rw [hexec] at hstep'
  exact (Reaches.single hstep).tail hstep'

variable (hdead : IsDead (intRegs before) callee rd rs1 src)
  (hpre : SameExcept (intRegs (intRegsForExecutingPreInsnSnippets before)) σ σ₁)
include hdead hpre

/-- A register outside the snippets' is found as the `restore` would find it. -/
theorem sum_eq (hsteady : Steady rs1) (hsteady' : ∀ rs2, src = .reg rs2 → Steady rs2) :
    σ₁.sum rs1 src = (σ.write o7 launch).sum rs1 src := by
  have hread : ∀ r, Steady r → r ∉ intRegs before → σ₁.read r = (σ.write o7 launch).read r := by
    intro r hr hbefore
    rw [read_write_of_ne _ hr.2]
    exact hpre.read r fun hmem => (mem_preInsn_iff.mp hmem).elim hbefore hr.1
  have hrs1 : rs1 ∉ intRegs before := fun hmem => (hdead rs1 hmem).1 rfl
  rw [Arch.sum, Arch.sum, hread rs1 hsteady hrs1]
  cases src with
  | simm13 imm => rfl
  | reg rs2 =>
    have hrs2 : rs2 ∉ intRegs before := fun hmem => (hdead rs2 hmem).2.1 rfl
    rw [operand, operand, hread rs2 (hsteady' rs2 rfl) hrs2]

/-- The callee is given the same arguments. -/
theorem sameOn_args (hrd : rd.val < 14) (hsteady : SteadyOperands rd rs1 src) :
    SameOn callee.args (originalEntry launch rd rs1 src σ) (entryState patch rd rs1 src σ₁) where
  read r hr := by
    have hlt := callee.args_lt r hr
    rw [read_entryState hlt, read_originalEntry hrd (by omega)]
    rcases eq_or_ne r rd with rfl | hne
    · rcases hsteady with rfl | ⟨hrs1, hrs2⟩
      · rfl
      · by_cases h0 : r = g0
        · subst h0
          rfl
        · rw [read_addRestored_self (by omega) h0, read_addRestored_self (by omega) h0,
            sum_eq hdead hpre hrs1 hrs2]
    · rw [read_addRestored_of_ne (by omega) (by omega) hne,
        read_addRestored_of_ne (by omega) (by omega) hne,
        read_write_of_ne _ (innerName_ne_o7 r (by omega))]
      refine hpre.read _ fun hmem => ?_
      rcases mem_preInsn_iff.mp hmem with hbefore | houtput
      · exact (hdead _ hbefore).2.2.2.2 r hr hne rfl
      · have := innerName_val r
        split at this <;> omega
  rest := by
    rw [originalEntry_rest, (sameExcept_entryState σ₁).rest, hpre.rest]

/-- The snippets keep the caller's stack pointer and the return address. -/
theorem read_saved (hr : r = fp ∨ r = i7) : σ₁.read r = σ.read r := by
  refine hpre.read r fun hmem => ?_
  rcases mem_preInsn_iff.mp hmem with hbefore | houtput
  · obtain ⟨-, -, hfp, hi7, -⟩ := hdead r hbefore
    exact hr.elim hfp hi7
  · rcases hr with rfl | rfl <;> exact absurd houtput (by decide)

/-- The caller is returned to in the same way. -/
theorem sameReturn (hrd : rd.val < 14) {τ₂ : Arch ρ}
    (hargs : SameOn callee.args (originalEntry launch rd rs1 src σ)
      (entryState patch rd rs1 src σ₁))
    (hpost : SameExcept (intRegs intRegsForExecutingPreReturnSnippets)
      (movedBack (callee.run (entryState patch rd rs1 src σ₁))) τ₂) :
    SameReturn callee.rets (callee.run (originalEntry launch rd rs1 src σ))
      { τ₂ with cwp := τ₂.cwp - 1 } := by
  obtain ⟨hcwp, hsaved, houter, hresult⟩ := unwound_return hpost
  have hentry : SameExcept _ σ₁ (entryState patch rd rs1 src σ₁) := sameExcept_entryState σ₁
  have hwindow : (originalEntry launch rd rs1 src σ).cwp + 1 = σ.cwp := by
    rw [originalEntry_cwp]
    omega
  refine ⟨?_, ?_, fun c hc => ?_, ?_, ?_⟩
  · rw [callee.cwp, originalEntry_cwp, hcwp, hentry.cwp, hpre.cwp]
  · rw [read_prevWindow _ (by decide), callee.sp,
      read_originalEntry_link hrd (by decide) (by decide)]
    exact (hsaved _ (by decide)).trans ((read_entryState_saved hrd (by decide) σ₁).trans
      (read_saved hdead hpre (.inl rfl)))
  · rw [callee.cwp, hwindow] at hc
    have hc₁ : Outer σ₁.cwp c := by rw [hpre.cwp]; exact hc
    rw [callee.keeps _ _ (by rw [hwindow]; exact hc), originalEntry_outer hrd σ hc]
    exact (houter c (by rw [hentry.cwp]; exact hc₁)).trans
      ((hentry.outer c hc₁).trans (hpre.outer c hc))
  · intro r hr
    have hlt := callee.rets_lt r hr
    rw [read_prevWindow _ (by omega), hresult r hlt]
    exact (callee.result _ _ hargs).read r hr
  · have hback := sameExcept_moveAll output input (finRange 6)
      (callee.run (entryState patch rd rs1 src σ₁))
    exact hpost.rest.trans (hback.rest.trans (callee.result _ _ hargs).rest)

end Transparency

section Main

variable {sem} {launch patch : Kptr} {call restore : Word} {offset : Int} {rd rs1 : Reg}
  {src : Operand}

/-! ## Operands that are not steady -/

/-- Changing an operand changes the sum. -/
theorem sum_write_ne {σ : Arch ρ} (h0 : r ≠ g0) (hr : rs1 = r ∨ src = .reg r)
    {d : BitVec 64} (hd : d ≠ 0) (hd2 : d + d ≠ 0) :
    (σ.write r (σ.read r + d)).sum rs1 src ≠ σ.sum rs1 src := by
  set τ := σ.write r (σ.read r + d) with hτ
  have hself : τ.read r = σ.read r + d := read_write_self _ h0 _
  have hother : ∀ x, x ≠ r → τ.read x = σ.read x := fun x hx => read_write_of_ne _ hx _
  intro hsum
  simp only [Arch.sum] at hsum
  by_cases hrs1 : rs1 = r
  · rw [hrs1, hself] at hsum
    cases src with
    | simm13 imm =>
      simp only [operand] at hsum
      exact hd (by bv_omega)
    | reg rs2 =>
      simp only [operand] at hsum
      by_cases hrs2 : rs2 = r
      · rw [hrs2, hself] at hsum
        exact hd2 (by bv_omega)
      · rw [hother rs2 hrs2] at hsum
        exact hd (by bv_omega)
  · obtain rfl : src = .reg r := hr.resolve_left hrs1
    rw [hother rs1 hrs1, operand, operand, hself] at hsum
    exact hd (by bv_omega)

/-- There are snippets, or a value of `%o7`, that make a difference to the sum. -/
theorem exists_sum_ne [Inhabited ρ] (hlaunch : launch.toNat % 4 = 0)
    (h : ¬ SteadyOperands rd rs1 src) :
    ∃ (pre : Snippet ρ (intRegs (intRegsForExecutingPreInsnSnippets .emptyset))) (σ : Arch ρ),
      (σ.read i7).toNat % 4 = 0 ∧
      (pre.run σ).sum rs1 src ≠ (σ.write o7 launch).sum rs1 src := by
  let cc : CondCodes := ⟨false, false, false, false⟩
  have hunsteady : ∃ r, (rs1 = r ∨ src = .reg r) ∧ ¬ Steady r := by
    by_contra hnone
    refine h (.inr ⟨?_, fun rs2 hrs2 => ?_⟩)
    · by_contra hrs1
      exact hnone ⟨rs1, .inl rfl, hrs1⟩
    · by_contra hsteady
      exact hnone ⟨rs2, .inr hrs2, hsteady⟩
  obtain ⟨r, hr, hunsteady⟩ := hunsteady
  by_cases houtput : 8 ≤ r.val ∧ r.val < 14
  · -- the snippets increment the operand
    have h0 : r ≠ g0 := fun hr0 => by
      rw [hr0] at houtput
      exact absurd houtput (by decide)
    refine ⟨⟨fun σ => σ.write r (σ.read r + 1), fun σ =>
      write (mem_preInsn_iff.mpr (.inr houtput)) _⟩, uniformState launch cc 0, ?_, ?_⟩
    · exact hlaunch
    · rw [write_uniformState]
      exact sum_write_ne h0 hr (by decide) (by decide)
  · -- the operand is `%o7`, which the call has written when the `restore` reads it
    obtain rfl : r = o7 := by
      by_contra hne
      exact hunsteady ⟨houtput, hne⟩
    refine ⟨⟨id, fun σ => refl _ σ⟩, uniformState (launch + 4) cc 0, ?_, ?_⟩
    · exact add_aligned hlaunch (by decide)
    · have hread : (uniformState (launch + 4) cc 0 : Arch ρ).read o7 + (-4) = launch := by
        rw [read_uniformState (by decide)]
        bv_omega
      have hne : _ ≠ (uniformState (launch + 4) cc 0 : Arch ρ).sum rs1 src :=
        sum_write_ne (by decide) hr (by decide : (-4 : BitVec 64) ≠ 0) (by decide)
      rw [hread] at hne
      exact hne.symm

/-- A callee that looks at one argument. -/
def lookingAt (r : Reg) (hr : r.val < 14) : Callee ρ where
  run := id
  args := {r}
  rets := ∅
  args_lt := by rintro _ rfl; exact hr
  rets_lt _ h := h.elim
  cwp _ := rfl
  sp _ := rfl
  keeps _ _ _ := rfl
  result _ _ h := ⟨fun _ hr => hr.elim, h.rest⟩

section

variable (hsem : KnowsAdd sem) (hcall : decode call = .call offset)
  (hrestore : decode restore = .restore rd rs1 src) (hrd : rd.val < 14)
  (hpatch : patch.toNat % 4 = 0) {dest : Kptr} (hto : launch + ofInt 64 offset = dest)
  (hdest : dest.toNat % 4 = 0) (hrange : inRangeOfCall (callAddr patch rd) dest = some true)
  (patch' : Kptr) {block block' : List Word} (hblock : emitStuffAfterPreInsnSnippets
    ⟨dest, rs1, src, rd, innerName rd⟩ patch = some block)
include hsem hcall hrestore hrd hpatch hto hdest hrange hblock

/-- With steady operands, what is emitted is transparent. -/
theorem transparent_of_steady (hsteady : SteadyOperands rd rs1 src)
    (hblock' : emitStuffAfterPreReturnSnippets = some block') :
    Transparent sem launch call restore dest rd rs1 src patch block patch' block' := by
  intro callee before hdead pre post σ halign
  obtain ⟨b, hb, hlen, hrun⟩ := emit_spec hsem hrestore hpatch hdest hrange
  obtain ⟨b', hb', hrun'⟩ := emitStuffAfterPreReturnSnippets_spec sem patch'
  obtain rfl : b = block := Option.mem_unique hb hblock
  obtain rfl : b' = block' := Option.mem_unique hb' hblock'
  set e := originalEntry launch rd rs1 src σ with he
  set e' := entryState patch rd rs1 src (pre.run σ) with he'
  set τ₂ := post.run (movedBack (callee.run e'))
  have hpost := post.keeps (movedBack (callee.run e'))
  have hargs : SameOn callee.args e e' := sameOn_args hdead (pre.keeps σ) hrd hsteady
  have hlink : e'.read o7 = callAddr patch rd := read_write_self _ (by decide) _
  have hold : e.read o7 = σ.read i7 := read_originalEntry_link hrd (by decide) (by decide) σ
  have hreturn : τ₂.read i7 = e.read o7 := by
    rw [(unwound_return hpost).2.1 _ (by decide), he', read_entryState_saved hrd (by decide),
      read_saved hdead (pre.keeps σ) (.inr rfl), hold]
  have hreturn4 : (τ₂.read i7 + 8).toNat % 4 = 0 := by
    rw [hreturn, hold]
    exact add_aligned halign (by decide)
  have hfinal := hrun' τ₂ hreturn4
  rw [hreturn] at hfinal
  refine ⟨e, callee.run e, e', { τ₂ with cwp := τ₂.cwp - 1 },
    ⟨original_entry hcall hrestore hto σ, rfl⟩,
    ⟨(hrun (pre.run σ)).1, _, ?_, hfinal⟩, hargs,
    sameReturn hdead (pre.keeps σ) hrd hargs hpost⟩
  rw [hlink]
  exact (hrun (callee.run e')).2

/-- **Without steady operands, what is emitted is not transparent.** -/
theorem not_transparent [Inhabited ρ] (hlaunch : launch.toNat % 4 = 0)
    (hfresh : 60 ≤ (dest - patch).toNat) (hself : 8 ≤ (dest - launch).toNat)
    (hsteady : ¬ SteadyOperands rd rs1 src) :
    ¬ Transparent sem launch call restore dest rd rs1 src patch block patch' block' := by
  intro htransparent
  have h0 : rd ≠ g0 := fun h => hsteady (.inl h)
  obtain ⟨pre, σ, halign, hsum⟩ : ∃ (pre : Snippet ρ _) (σ : Arch ρ), _ :=
    exists_sum_ne hlaunch hsteady
  obtain ⟨b, hb, hlen, hrun⟩ := emit_spec hsem hrestore hpatch hdest hrange
  obtain rfl : b = block := Option.mem_unique hb hblock
  obtain ⟨e, -, e', -, ⟨hentry, -⟩, ⟨hentry', -⟩, hargs, -⟩ := htransparent (lookingAt rd hrd)
    .emptyset (fun r hr => by simp [intRegs] at hr) pre ⟨id, fun σ => refl _ σ⟩ σ halign
  have hend : blockCode launch [newSlot call, newSlot restore] dest = none :=
    blockCode_eq_none hself
  have hend' : blockCode patch (b.map newSlot) dest = none :=
    blockCode_eq_none (by rw [length_map]; omega)
  obtain rfl : e = originalEntry launch rd rs1 src σ :=
    congrArg arch (hentry.end_unique (original_entry hcall hrestore hto σ) hend hend)
  obtain rfl : e' = entryState patch rd rs1 src (pre.run σ) :=
    congrArg arch (hentry'.end_unique (hrun (pre.run σ)).1 hend' hend')
  have hread := hargs.read rd rfl
  rw [read_entryState hrd, read_originalEntry hrd (by omega), read_addRestored_self (by omega) h0,
    read_addRestored_self (by omega) h0] at hread
  exact hsum hread

end

/-- Nothing is emitted if the callee is out of range. -/
theorem inRange_of_emit (hsem : KnowsAdd sem) (hrestore : decode restore = .restore rd rs1 src)
    {dest : Kptr} {block : List Word}
    (hblock : emitStuffAfterPreInsnSnippets ⟨dest, rs1, src, rd, innerName rd⟩ patch = some block) :
    inRangeOfCall (callAddr patch rd) dest = some true := by
  obtain ⟨add, hadd, haddLen, -⟩ := emitAdd_spec hsem hrestore dest
  obtain ⟨down, hdown, hdownLen, -⟩ := line_moveAll sem input output (finRange 6)
  have haddr : patch + ofNat 64 (4 * (add ++ down).length) = callAddr patch rd := by
    rw [length_append, haddLen, hdownLen, length_finRange, callAddr]
  simp only [emitStuffAfterPreInsnSnippets, moves, hadd, hdown, haddr, do_eq_some] at hblock
  obtain ⟨w, hw, -⟩ := hblock
  exact callandlink_inRange hw

/-- **Unwinding a tail call is transparent** exactly if the callee is in range of the call in
the patch, and the operands of the `restore` are steady. The callee is neither in the patch
nor the tail call itself. -/
theorem transparent_iff [Inhabited ρ] (hsem : KnowsAdd sem) (hcall : decode call = .call offset)
    (hrestore : decode restore = .restore rd rs1 src) (hrd : rd.val < 14)
    (hpatch : patch.toNat % 4 = 0) (hlaunch : launch.toNat % 4 = 0)
    (hfresh : 60 ≤ (launch + BitVec.ofInt 64 offset - patch).toNat)
    (hself : 8 ≤ (launch + BitVec.ofInt 64 offset - launch).toNat) (patch' : Kptr) :
    (∃ u block block', create launch call restore = some u ∧
      u.emitStuffAfterPreInsnSnippets patch = some block ∧
      emitStuffAfterPreReturnSnippets = some block' ∧
      Transparent sem launch call restore u.callDestination rd rs1 src patch block patch' block') ↔
    inRangeOfCall (callAddr patch rd) (launch + BitVec.ofInt 64 offset) = some true ∧
      SteadyOperands rd rs1 src := by
  have hdest := call_target_aligned hcall hlaunch
  have hcreate : create launch call restore = some _ := create_eq hcall hrestore hrd
  constructor
  · rintro ⟨u, block, block', hu, hblock, hblock', htransparent⟩
    obtain rfl := Option.mem_unique hcreate hu
    have hrange := inRange_of_emit hsem hrestore hblock
    refine ⟨hrange, ?_⟩
    by_contra hsteady
    exact not_transparent hsem hcall hrestore hrd hpatch rfl hdest hrange patch' hblock hlaunch
      hfresh hself hsteady htransparent
  · rintro ⟨hrange, hsteady⟩
    obtain ⟨block, hblock, -⟩ := emit_spec hsem hrestore hpatch hdest hrange
    obtain ⟨block', hblock', -⟩ := emitStuffAfterPreReturnSnippets_spec sem patch'
    exact ⟨_, block, block', hcreate, hblock, hblock', transparent_of_steady hsem hcall hrestore hrd
      hpatch rfl hdest hrange patch' hblock hsteady hblock'⟩

end Main

/-! ### Two tail calls -/

/-- A machine that knows `add`, and whose other instructions do nothing. -/
def addSem : Sem Unit := fun w _ σ =>
  if field w 30 2 = 2 ∧ field w 19 6 = 0 then
    σ.write (regField w 25) (σ.read (regField w 14) + σ.operand (operandField w))
  else σ

theorem knowsAdd_addSem : KnowsAdd addSem := fun _ _ _ hop hop3 => if_pos ⟨hop, hop3⟩

/-- `call .+0x1000; restore %i1, 1, %o0` at `0x10000000`, unwound at `0x20000000`. -/
theorem transparent_restore_i1 :
    ∃ u block block', create 0x10000000 0x40000400 0x91ee6001 = some u ∧
      u.emitStuffAfterPreInsnSnippets 0x20000000 = some block ∧
      emitStuffAfterPreReturnSnippets = some block' ∧
      Transparent addSem 0x10000000 0x40000400 0x91ee6001 u.callDestination 8 25 (.simm13 1)
        0x20000000 block 0x20000100 block' :=
  (transparent_iff knowsAdd_addSem (by decide : decode 0x40000400 = .call 0x1000)
    (by decide : decode 0x91ee6001 = .restore 8 25 (.simm13 1)) (by decide) (by decide) (by decide)
    (by decide) (by decide) 0x20000100).mpr
    ⟨by decide, .inr ⟨by decide, fun _ h => nomatch h⟩⟩

/-- `call .+0x1000; restore %g0, %o0, %o0`, the usual way to pass on a result: `%o0` is offered
to the snippets, and read after them. -/
theorem restore_o0_not_transparent :
    ∃ u block block', create 0x10000000 0x40000400 0x91e80008 = some u ∧
      u.emitStuffAfterPreInsnSnippets 0x20000000 = some block ∧
      emitStuffAfterPreReturnSnippets = some block' ∧
      ¬ Transparent addSem 0x10000000 0x40000400 0x91e80008 u.callDestination 8 0 (.reg 8)
        0x20000000 block 0x20000100 block' := by
  have hcall : decode 0x40000400 = .call 0x1000 := by decide
  have hrestore : decode 0x91e80008 = .restore 8 0 (.reg 8) := by decide
  have hrange : inRangeOfCall (callAddr 0x20000000 8) (0x10000000 + ofInt 64 0x1000) =
      some true := by decide
  obtain ⟨block, hblock, -⟩ := emit_spec knowsAdd_addSem hrestore (by decide) (by decide) hrange
  obtain ⟨block', hblock', -⟩ := emitStuffAfterPreReturnSnippets_spec addSem 0
  refine ⟨_, block, block', create_eq hcall hrestore (by decide), hblock, hblock',
    not_transparent knowsAdd_addSem hcall hrestore (by decide) (by decide) rfl (by decide) hrange _
      hblock (by decide) (by decide) (by decide) ?_⟩
  rintro (h | ⟨-, h⟩)
  · exact absurd h (by decide)
  · exact absurd (h 8 rfl) (by decide)

end UnwoundCallRestore

end Kerninst
