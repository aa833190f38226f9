import Kerninst.Sparc.Generate

/-!
# Loading constants into registers

`sparc_instr` has several routines that append the instructions for loading a constant or an
address. All of them end with the constant in the full 64-bit register, zero-extended
(`loadsExactly_iff`).

* `gen32imm` and `genImmAddr` make the code as short as the constant allows; see
  `gen32imm_spec` and `genImmAddr_spec`.
* `gen64imm` loads the two halves into two registers, shifts one and joins them.
* `genImmAddrGeneric` always makes two instructions, since they may be patched with another
  address later. The low part is 12 bits wide, not 10. There is no 64-bit code: the 64-bit
  version takes only addresses that fit 32 bits, by an assertion that leaves out the
  highest one.
-/

namespace Kerninst

open BitVec SparcInstr

universe u

/-! ## The routines -/

namespace SparcInstr

/-- `setto_logic` with `logic_or` and no condition codes, on registers. -/
def orReg (rd rs1 rs2 : Reg) : Option Word := set2RegStyle 2 rd 2 rs1 0 rs2

def gen64imm (val : BitVec 64) (rd rtemp : Reg) : Option (List Word) :=
  let high32bits := val.toNat / 2 ^ 32
  let low32bits := val.toNat % 2 ^ 32
  if high32bits = 0 then gen32imm low32bits rd
  else do
    check (rtemp ≠ rd)
    let high ← gen32imm high32bits rtemp
    let shift ← sllx rtemp rtemp 32
    let low ← gen32imm low32bits rd
    let join ← orReg rd rd rtemp
    pure (high ++ [shift] ++ low ++ [join])

/-- `genImmAddr` of a 32-bit address. -/
def genImmAddr32 (addr : BitVec 32) (rd : Reg) : Option (List Word) := gen32imm addr.toNat rd

/-- `genImmAddrGeneric` of a 32-bit address. -/
def genImmAddrGeneric32 (addr : BitVec 32) (rd : Reg) (setLow : Bool) : Option (List Word) := do
  let lo12bits := addr.toNat % 2 ^ 12
  let hi20bits := addr.toNat / 2 ^ 12 * 2 ^ 12
  let hi ← sethi hi20bits rd
  if setLow then
    let lo ← bset (lo12bits : Nat) rd
    pure [hi, lo]
  else pure [hi]

/-- `genImmAddrGeneric` of a 64-bit address. -/
def genImmAddrGeneric64 (addr : Kptr) (rd : Reg) (setLow : Bool) : Option (List Word) := do
  check (addr.toNat < 0xFFFFFFFF)
  genImmAddrGeneric32 (addr.setWidth 32) rd setLow

theorem orReg_spec (rd rs1 rs2 : Reg) :
    ∃ w, orReg rd rs1 rs2 = some w ∧ decode w = .or rd rs1 (.reg rs2) := by
  obtain ⟨w, hw, hop, hop3, hrd, hrs1, ho⟩ := set2RegStyle_spec (by decide : 2 < 64) rd rs1 rs2
  exact ⟨w, hw, by simp [decode, decodeFormat3, hop, hop3, hrd, hrs1, ho]⟩

end SparcInstr

/-! ## Requests -/

/-- What can be loaded, by which routine. -/
inductive LoadRequest
  | gen32imm (val : BitVec 32)
  | gen64imm (val : BitVec 64)
  | genImmAddr32 (addr : BitVec 32)
  | genImmAddr64 (addr : Kptr)
  | genImmAddrGeneric32 (addr : BitVec 32)
  | genImmAddrGeneric64 (addr : Kptr)

namespace LoadRequest

/-- The value, zero-extended. -/
def value : LoadRequest → BitVec 64
  | .gen32imm val | .genImmAddr32 val | .genImmAddrGeneric32 val => val.setWidth 64
  | .gen64imm val | .genImmAddr64 val | .genImmAddrGeneric64 val => val

/-- Addresses do not exceed 44 bits. -/
def Valid : LoadRequest → Prop
  | .genImmAddr64 addr | .genImmAddrGeneric64 addr => addr.toNat < 2 ^ 44
  | _ => True

def generate (rd rtemp : Reg) : LoadRequest → Option (List Word)
  | .gen32imm val => SparcInstr.gen32imm val.toNat rd
  | .gen64imm val => SparcInstr.gen64imm val rd rtemp
  | .genImmAddr32 addr => SparcInstr.genImmAddr32 addr rd
  | .genImmAddr64 addr => SparcInstr.genImmAddr addr rd
  | .genImmAddrGeneric32 addr => SparcInstr.genImmAddrGeneric32 addr rd true
  | .genImmAddrGeneric64 addr => SparcInstr.genImmAddrGeneric64 addr rd true

/-- Only `gen64imm` has a scratch register. -/
def changed (rd rtemp : Reg) : LoadRequest → Set Reg
  | .gen64imm _ => {rd, rtemp}
  | _ => {rd}

/-- The words are generated, and running them leaves the value in the register. -/
def LoadsExactly {ρ : Type u} (sem : Sem ρ) (rd rtemp : Reg) (r : LoadRequest) : Prop :=
  ∃ ws f, r.generate rd rtemp = some ws ∧ Line sem ws f ∧
    ∀ σ, (f σ).read rd = r.value ∧ SameExcept (r.changed rd rtemp) σ (f σ)

end LoadRequest

/-! ## What the routines load -/

section Loading

variable {ρ : Type u} (sem : Sem ρ) {rd rtemp : Reg}

theorem line_orReg (rd rs1 rs2 : Reg) : ∃ w, orReg rd rs1 rs2 = some w ∧
      Line sem [w] fun σ => σ.write rd (σ.read rs1 ||| σ.read rs2) := by
  obtain ⟨w, hw, hd⟩ := orReg_spec rd rs1 rs2
  exact ⟨w, hw, Line.single (by rw [hd]; rfl) fun pc σ => by simp [exec, hd, Arch.operand]⟩

/-- The high half in the scratch register, then the low half in the other, then both joined. -/
theorem gen64imm_spec (hrd : rd ≠ Reg.g0) (htemp : rtemp ≠ Reg.g0) (hne : rtemp ≠ rd)
    (val : BitVec 64) (hhigh : val.toNat / 2 ^ 32 ≠ 0) :
    ∃ ws, SparcInstr.gen64imm val rd rtemp = some ws ∧ Line sem ws fun σ =>
      (σ.write rtemp (BitVec.ofNat 64 (val.toNat / 2 ^ 32) <<< 32)).write rd val := by
  obtain ⟨high, hgen, -, -, hline⟩ :=
    gen32imm_spec sem rtemp (show val.toNat / 2 ^ 32 < 2 ^ 32 by omega)
  obtain ⟨sh, hsh, -, hline'⟩ := line_sllx sem rtemp (by decide : 32 < 64)
  obtain ⟨low, hgen', -, -, hline''⟩ :=
    gen32imm_spec sem rd (Nat.mod_lt val.toNat (by decide : 0 < 2 ^ 32))
  obtain ⟨join, hjoin, hline'''⟩ := line_orReg sem rd rd rtemp
  refine ⟨high ++ [sh] ++ low ++ [join], ?_,
    (((hline.append hline').append hline'').append hline''').congr fun σ => ?_⟩
  · simp only [gen64imm, if_neg hhigh, check_pos hne, hgen, hsh, hgen', hjoin, run_do]
  · have hor : BitVec.ofNat 64 (val.toNat % 2 ^ 32) |||
        BitVec.ofNat 64 (val.toNat / 2 ^ 32 * 2 ^ 32) = val := by
      rw [BitVec.or_comm, ofNat_mul_or (Nat.mod_lt _ (by decide)) (by omega), Nat.div_add_mod',
        BitVec.ofNat_toNat, BitVec.setWidth_eq]
    simp only [Function.comp_apply, Arch.write_write, Arch.read_write_self _ htemp,
      Arch.read_write_self _ hrd, Arch.read_write_of_ne _ hne, ofNat_shiftLeft,
      hor]

theorem genImmAddrGeneric32_spec (hrd : rd ≠ Reg.g0) (addr : BitVec 32) :
    ∃ ws, genImmAddrGeneric32 addr rd true = some ws ∧
      Line sem ws fun σ => σ.write rd (addr.setWidth 64) := by
  obtain ⟨hi, hhi, -, hline⟩ :=
    line_sethi sem rd (show addr.toNat / 2 ^ 12 * 2 ^ 12 < 2 ^ 32 by omega)
  obtain ⟨lo, hlo, -, hline'⟩ :=
    line_orImm sem rd rd (Nat.mod_lt addr.toNat (by decide : 0 < 2 ^ 12))
  refine ⟨[hi, lo], ?_, (hline.append hline').congr fun σ => ?_⟩
  · simp only [genImmAddrGeneric32, hhi, bset, hlo, if_true, run_do]
  · have hten : addr.toNat / 2 ^ 12 * 2 ^ 12 / 2 ^ 10 * 2 ^ 10 = addr.toNat / 2 ^ 12 * 2 ^ 12 := by
      omega
    simp only [Function.comp_apply, Arch.write_write, Arch.read_write_self _ hrd, hten]
    rw [ofNat_mul_or (Nat.mod_lt _ (by decide)) (by omega), Nat.div_add_mod', ofNat_toNat]

/-- One write of the destination loads the value. -/
theorem LoadRequest.LoadsExactly.of_write {r : LoadRequest} (hrd : rd ≠ Reg.g0)
    (hdest : rd ∈ r.changed rd rtemp) {ws : List Word} (hws : r.generate rd rtemp = some ws)
    (hline : Line sem ws fun σ => σ.write rd r.value) : r.LoadsExactly sem rd rtemp :=
  ⟨ws, _, hws, hline, fun σ => ⟨σ.read_write_self hrd _, SameExcept.write hdest _⟩⟩

/-- **Every routine loads exactly its value**, except that the 64-bit `genImmAddrGeneric` takes
only addresses below `0xFFFFFFFF`. -/
theorem loadsExactly_iff (hrd : rd ≠ Reg.g0) (htemp : rtemp ≠ Reg.g0) (hne : rtemp ≠ rd)
    (r : LoadRequest) (hr : r.Valid) :
    r.LoadsExactly sem rd rtemp ↔
      ∀ addr, r = .genImmAddrGeneric64 addr → addr.toNat < 0xFFFFFFFF := by
  cases r with
  | gen32imm val | genImmAddr32 val =>
    obtain ⟨ws, hws, -, -, hline⟩ := gen32imm_spec sem rd val.isLt
    rw [ofNat_toNat] at hline
    exact iff_of_true (.of_write sem hrd rfl hws hline) (by simp)
  | genImmAddr64 addr =>
    obtain ⟨ws, hws, -, -, hline⟩ := genImmAddr_spec sem rd hr
    exact iff_of_true (.of_write sem hrd rfl hws hline) (by simp)
  | genImmAddrGeneric32 addr =>
    obtain ⟨ws, hws, hline⟩ := genImmAddrGeneric32_spec sem hrd addr
    exact iff_of_true (.of_write sem hrd rfl hws hline) (by simp)
  | gen64imm val =>
    refine iff_of_true ?_ (by simp)
    by_cases hhigh : val.toNat / 2 ^ 32 = 0
    · have hlow : val.toNat % 2 ^ 32 = val.toNat := by omega
      obtain ⟨ws, hws, -, -, hline⟩ := gen32imm_spec sem rd (show val.toNat < 2 ^ 32 by omega)
      rw [ofNat_toNat, setWidth_eq] at hline
      refine .of_write sem hrd (Set.mem_insert rd _) ?_ hline
      simp only [LoadRequest.generate, gen64imm, if_pos hhigh, hlow, hws]
    · obtain ⟨ws, hws, hline⟩ := gen64imm_spec sem hrd htemp hne val hhigh
      refine ⟨ws, _, hws, hline, fun σ => ⟨Arch.read_write_self _ hrd _, ?_⟩⟩
      have hscratch : rtemp ∈ ({rd, rtemp} : Set Reg) := Set.mem_insert_of_mem rd rfl
      exact (SameExcept.write hscratch _).trans (SameExcept.write (Set.mem_insert rd _) _)
  | genImmAddrGeneric64 addr =>
    constructor
    · rintro ⟨ws, f, hws, -⟩ addr' heq
      cases heq
      obtain ⟨u, hlt, -⟩ := exists_of_bind hws
      exact check_eq_some.mp hlt
    · intro h
      have haddr : addr.toNat < 0xFFFFFFFF := h addr rfl
      obtain ⟨ws, hws, hline⟩ := genImmAddrGeneric32_spec sem hrd (addr.setWidth 32)
      have hcut : (addr.setWidth 32).setWidth 64 = addr := by
        apply eq_of_toNat_eq
        simp only [toNat_setWidth]
        omega
      rw [hcut] at hline
      refine .of_write sem hrd rfl ?_ hline
      simp [LoadRequest.generate, genImmAddrGeneric64, check_pos haddr, hws]

/-- A 64-bit constant into `%o0`, with `%o1` as scratch. -/
theorem loadsExactly_gen64imm :
    (LoadRequest.gen64imm 0x0123456789ABCDEF).LoadsExactly idleSem 8 9 :=
  (loadsExactly_iff idleSem (by decide) (by decide) (by decide) (.gen64imm _) trivial).mpr (by simp)

/-- The generic code for an address of 33 bits. -/
theorem not_loadsExactly_generic64 :
    (LoadRequest.genImmAddrGeneric64 0x100000000).Valid ∧
      ¬ (LoadRequest.genImmAddrGeneric64 0x100000000).LoadsExactly idleSem 8 9 := by
  refine ⟨show (0x100000000 : Kptr).toNat < 2 ^ 44 by decide, ?_⟩
  rintro ⟨ws, f, hws, -⟩
  have hnone : (LoadRequest.genImmAddrGeneric64 0x100000000).generate 8 9 = none := by decide
  cases hws

end Loading

end Kerninst
