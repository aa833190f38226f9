import Kerninst.Sparc.Insn

/-!
# Loading constants on Power

`power_instr` has the same two routines as `sparc_instr` for loading a constant into a
register, `gen32imm` and `gen64imm`. They work for constants of at most 15 bits only
(`Request.loadsExactly_iff_lt`):

* `gen32imm` asserts that the two halves of the constant, neither of them shifted, add up to
  the constant. So the high half must be zero, and the code after the first return is dead.
* What is left is one `addi`, which sign-extends. A constant with bit 15 set ends up negative.
* `gen64imm` shifts the high part to the right, by `sradi`, and its last `or` has the scratch
  register as the destination. Neither matters to the destination, which holds the low part.

The instructions are those the two routines append; their meaning is that of the 64-bit mode of
the architecture book.
-/

namespace Kerninst.Power

open BitVec Option

/-! ## Instructions -/

abbrev Gpr := Fin 32

def gpr0 : Gpr := ⟨0, by decide⟩

inductive Insn
  | addi (rt ra : Gpr) (si : Int)
  | addis (rt ra : Gpr) (si : Int)
  | ori (ra rs : Gpr) (ui : Nat)
  | or (ra rs rb : Gpr)
  | sradi (ra rs : Gpr) (sh : Nat)
  | other
deriving DecidableEq, Repr

/-- The instructions with primary opcode 31, without the record bit. The lowest bit of the
extended opcode of `sradi` is the highest of its shift count. -/
def decodeExtended (w : Word) : Insn :=
  if bitField w 0 then .other
  else match field w 1 10 with
    | 444 => .or (regField w 16) (regField w 21) (regField w 11)
    | 826 | 827 => .sradi (regField w 16) (regField w 21) (field w 1 1 * 2 ^ 5 + field w 11 5)
    | _ => .other

def decode (w : Word) : Insn :=
  match field w 26 6 with
  | 14 => .addi (regField w 21) (regField w 16) (signedField w 0 16)
  | 15 => .addis (regField w 21) (regField w 16) (signedField w 0 16)
  | 24 => .ori (regField w 16) (regField w 21) (field w 0 16)
  | 31 => decodeExtended w
  | _ => .other

/-! ## Execution -/

/-- The general registers and the carry bit. -/
structure Arch where
  gpr : Gpr → BitVec 64
  ca : Bool

namespace Arch

def write (σ : Arch) (r : Gpr) (v : BitVec 64) : Arch :=
  { σ with gpr := fun r' => if r' = r then v else σ.gpr r' }

/-- As the base of an addition, register 0 stands for the number 0. -/
def base (σ : Arch) (r : Gpr) : BitVec 64 := if r = gpr0 then 0#64 else σ.gpr r

@[simp] theorem gpr_write_self (σ : Arch) (r : Gpr) (v : BitVec 64) : (σ.write r v).gpr r = v :=
  if_pos rfl

theorem gpr_write_of_ne (σ : Arch) {r r' : Gpr} (h : r' ≠ r) (v : BitVec 64) :
    (σ.write r v).gpr r' = σ.gpr r' := if_neg h

@[simp] theorem base_gpr0 (σ : Arch) : σ.base gpr0 = 0#64 := if_pos rfl

end Arch

/-- One instruction; `none` for those whose meaning is not modelled. -/
def exec (σ : Arch) : Insn → Option Arch
  | .addi rt ra si => some (σ.write rt (σ.base ra + BitVec.ofInt 64 si))
  | .addis rt ra si => some (σ.write rt (σ.base ra + BitVec.ofInt 64 (si * 2 ^ 16)))
  | .ori ra rs ui => some (σ.write ra (σ.gpr rs ||| BitVec.ofNat 64 ui))
  | .or ra rs rb => some (σ.write ra (σ.gpr rs ||| σ.gpr rb))
  | .sradi ra rs sh =>
    let lost := (σ.gpr rs).toNat % 2 ^ sh
    some { σ.write ra ((σ.gpr rs).sshiftRight sh) with
      ca := (σ.gpr rs).msb && decide (lost ≠ 0) }
  | .other => none

theorem exec_or (σ : Arch) (ra rs rb : Gpr) :
    exec σ (.or ra rs rb) = some (σ.write ra (σ.gpr rs ||| σ.gpr rb)) := rfl

theorem exec_sradi (σ : Arch) (ra rs : Gpr) (sh : Nat) :
    exec σ (.sradi ra rs sh) = some { σ.write ra ((σ.gpr rs).sshiftRight sh) with
      ca := (σ.gpr rs).msb && decide ((σ.gpr rs).toNat % 2 ^ sh ≠ 0) } := rfl

def run (ws : List Word) (σ : Arch) : Option Arch := ws.foldlM (fun σ w => exec σ (decode w)) σ

variable {v : Nat}

/-! ## Building -/

namespace PowerInstr

def setDform (opcd : Nat) (rt ra : Gpr) (d : Nat × Nat) : Option Word :=
  rollAll [(6, opcd), intReg rt, intReg ra, d]

def setXform (opcd : Nat) (rt ra rb : Gpr) (xo rc : Nat) : Option Word :=
  rollAll [(6, opcd), intReg rt, intReg ra, intReg rb, (10, xo), (1, rc)]

/-- The shift count is checked as a whole. Its field takes the low five bits, and the sixth is
behind the extended opcode. -/
def setXsform (opcd : Nat) (rs ra : Gpr) (sh xo rc : Nat) : Option Word := do
  check (sh < 2 ^ 6)
  rollAll [(6, opcd), intReg rs, intReg ra, (5, sh % 2 ^ 5), (9, xo), (1, sh / 2 ^ 5), (1, rc)]

/-- `AddSubOpsD::addD` -/
def addD : Nat := 14

/-- `AddSubOpsD::addShiftedD` -/
def addShiftedD : Nat := 15

/-- `power_instr(addsub, op, rt, ra, si)` -/
def addSub (op : Nat) (rt ra : Gpr) (si : Int) : Option Word := do
  let d ← simm 16 si
  setDform op rt ra d

/-- `power_instr(logicor, shifted, ra, rs, ui)` -/
def logicOrImm (shifted : Bool) (ra rs : Gpr) (ui : Nat) : Option Word :=
  setDform (if shifted then 25 else 24) rs ra (16, ui)

/-- `power_instr(logicor, complement, ra, rs, rb, rc)` -/
def logicOr (complement : Bool) (ra rs rb : Gpr) (rc : Nat) : Option Word :=
  setXform 31 rs ra rb (if complement then 412 else 444) rc

/-- `power_instr(shift, ra, rs, sh, rc)` -/
def shift (ra rs : Gpr) (sh rc : Nat) : Option Word := setXsform 31 rs ra sh 413 rc

def gen32imm (val : Nat) (rd : Gpr) : Option (List Word) := do
  let high16 := val / 2 ^ 16
  let low16 := val % 2 ^ 16
  check (high16 + low16 = val)
  if high16 = 0 then
    let i ← addSub addD rd gpr0 (low16 : Nat)
    pure [i]
  else
    let hi ← addSub addShiftedD rd gpr0 (high16 : Nat)
    if low16 = 0 then pure [hi]
    else
      let lo ← logicOrImm false rd rd low16
      pure [hi, lo]

def gen64imm (val : BitVec 64) (rd rtemp : Gpr) : Option (List Word) :=
  let high32bits := val.toNat / 2 ^ 32
  let low32bits := val.toNat % 2 ^ 32
  if high32bits = 0 then gen32imm low32bits rd
  else do
    check (rtemp ≠ rd)
    let high ← gen32imm high32bits rtemp
    let sh ← shift rtemp rtemp 32 0
    let low ← gen32imm low32bits rd
    let join ← logicOr false rtemp rd rd 0
    pure (high ++ [sh] ++ low ++ [join])

/-! ## What is built decodes to what it was built from -/

/-- A positive immediate may use all the bits of its field. -/
theorem simm16_ofNat (hv : v < 2 ^ 16) : simm 16 v = some (16, v) := by
  have hrange : simmInRange 16 v := by
    simp only [simmInRange]
    split <;> omega
  have hcut : ((v : Int) % 2 ^ 16).toNat = v := by omega
  rw [simm_of_inRange (by decide) (by omega) hrange, hcut]

theorem addD_spec (hv : v < 2 ^ 16) (rt ra : Gpr) :
    ∃ w, addSub addD rt ra v = some w ∧ decode w = .addi rt ra ((v : Int).bmod (2 ^ 16)) := by
  rw [addSub, simm16_ofNat hv]
  refine rollAll_spec (by simpa [intReg, addD] using hv) (by simp [intReg]) fun w hs => ?_
  have hop : field w 26 6 = addD := hs.get 0 rfl
  have hrt : regField w 21 = rt := regField_eq (hs.get 1 rfl)
  have hra : regField w 16 = ra := regField_eq (hs.get 2 rfl)
  have hd : field w 0 16 = v := hs.get 3 rfl
  simp [decode, hop, addD, hrt, hra, signedField, hd]

theorem logicOr_spec (ra rs rb : Gpr) :
    ∃ w, logicOr false ra rs rb 0 = some w ∧ decode w = .or ra rs rb := by
  refine rollAll_spec (by simp [intReg]) (by simp [intReg]) fun w hs => ?_
  have hop : field w 26 6 = 31 := hs.get 0 rfl
  have hrec : bitField w 0 = false := bitField_eq (hs.get 5 rfl)
  have hxo : field w 1 10 = 444 := hs.get 4 rfl
  have hrs : regField w 21 = rs := regField_eq (hs.get 1 rfl)
  have hra : regField w 16 = ra := regField_eq (hs.get 2 rfl)
  have hrb : regField w 11 = rb := regField_eq (hs.get 3 rfl)
  simp [decode, hop, decodeExtended, hrec, hxo, hrs, hra, hrb]

theorem shift_spec (ra rs : Gpr) : ∃ w, shift ra rs 32 0 = some w ∧ decode w = .sradi ra rs 32 := by
  refine rollAll_spec (by simp [intReg]) (by simp [intReg]) fun w hs => ?_
  have hop : field w 26 6 = 31 := hs.get 0 rfl
  have hrec : bitField w 0 = false := bitField_eq (hs.get 6 rfl)
  have hrs : regField w 21 = rs := regField_eq (hs.get 1 rfl)
  have hra : regField w 16 = ra := regField_eq (hs.get 2 rfl)
  have hlow : field w 11 5 = 0 := hs.get 3 rfl
  have hhigh : field w 1 1 = 1 := hs.get 5 rfl
  -- the decoder reads the extended opcode and the sixth bit of the count as one field
  have hxo : field w 1 10 = 827 := by
    have hxo9 : field w 2 9 = 413 := hs.get 4 rfl
    simp only [field] at hhigh hxo9 ⊢
    omega
  have hsh : field w 1 1 * 2 ^ 5 + field w 11 5 = 32 := by omega
  simp only [decode, hop, decodeExtended, hrec, hxo, hrs, hra, hsh, Bool.false_eq_true, if_false]

end PowerInstr

/-! ## What the routines load -/

/-- What `addi` makes of the 16 bits of its immediate. -/
def signExtended (v : Nat) : BitVec 64 := (BitVec.ofNat 16 v).signExtend 64

theorem ofInt_bmod (v : Nat) : BitVec.ofInt 64 ((v : Int).bmod (2 ^ 16)) = signExtended v := by
  have hint : (BitVec.ofNat 16 v).toInt = (v : Int).bmod (2 ^ 16) := BitVec.toInt_ofNat ..
  rw [signExtended, BitVec.signExtend, hint]

theorem msb_ofNat16 (hv : v < 2 ^ 16) : (BitVec.ofNat 16 v).msb = decide (2 ^ 15 ≤ v) := by
  rw [msb_eq_decide, toNat_ofNat, Nat.mod_eq_of_lt hv]

theorem toNat_signExtended_of_lt (hv : v < 2 ^ 15) : (signExtended v).toNat = v := by
  have hmsb : (BitVec.ofNat 16 v).msb = false := by
    rw [msb_ofNat16 (by omega)]
    exact decide_eq_false (by omega)
  rw [signExtended, BitVec.signExtend_eq_setWidth_of_msb_false hmsb, BitVec.toNat_setWidth,
    BitVec.toNat_ofNat]
  omega

theorem le_toNat_signExtended (hv : 2 ^ 15 ≤ v) (hv' : v < 2 ^ 16) :
    2 ^ 63 ≤ (signExtended v).toNat := by
  have hmsb : (BitVec.ofNat 16 v).msb = true := (msb_ofNat16 hv').trans (decide_eq_true hv)
  rw [signExtended, BitVec.toNat_signExtend, if_pos hmsb]
  exact Nat.le_add_left_of_le (by decide)

theorem gen32imm_eq_none {val : Nat} (h : 2 ^ 16 ≤ val) (rd : Gpr) :
    PowerInstr.gen32imm val rd = none := by
  have hsum : ¬ val / 2 ^ 16 + val % 2 ^ 16 = val := by omega
  simp only [PowerInstr.gen32imm, check, if_neg hsum, bind_eq_bind, bind_none]

/-- A constant of 16 bits takes one instruction. -/
theorem gen32imm_of_lt {val : Nat} (h : val < 2 ^ 16) (rd : Gpr) :
    ∃ w, PowerInstr.gen32imm val rd = some [w] ∧
      ∀ σ, exec σ (decode w) = some (σ.write rd (signExtended val)) := by
  have hhigh : val / 2 ^ 16 = 0 := Nat.div_eq_of_lt h
  have hlow : val % 2 ^ 16 = val := Nat.mod_eq_of_lt h
  obtain ⟨w, hw, hd⟩ := PowerInstr.addD_spec h rd gpr0
  refine ⟨w, ?_, fun σ => ?_⟩
  · simp only [PowerInstr.gen32imm, hhigh, hlow, check_pos (Nat.zero_add val), hw, if_true, run_do]
  · rw [hd, exec, Arch.base_gpr0, BitVec.zero_add, ofInt_bmod]

/-- When `gen64imm` generates code for a constant of more than 32 bits, both its parts have
16 bits, and the destination ends up with the low one. -/
theorem gen64imm_cases {val : BitVec 64} {rd rtemp : Gpr} {ws : List Word}
    (hhigh : val.toNat / 2 ^ 32 ≠ 0) (h : PowerInstr.gen64imm val rd rtemp = some ws) :
    val.toNat / 2 ^ 32 < 2 ^ 16 ∧ val.toNat % 2 ^ 32 < 2 ^ 16 ∧
      ∀ σ, ∃ σ', run ws σ = some σ' ∧ σ'.gpr rd = signExtended (val.toNat % 2 ^ 32) := by
  simp only [PowerInstr.gen64imm, if_neg hhigh, do_eq_some] at h
  obtain ⟨u, hne, high, hgen, sh, hsh, low, hgen', join, hjoin, rfl⟩ := h
  have hne' : rtemp ≠ rd := check_eq_some.mp hne
  have hlt : val.toNat / 2 ^ 32 < 2 ^ 16 := by
    by_contra hge
    rw [gen32imm_eq_none (Nat.not_lt.mp hge)] at hgen
    cases hgen
  have hlt' : val.toNat % 2 ^ 32 < 2 ^ 16 := by
    by_contra hge
    rw [gen32imm_eq_none (Nat.not_lt.mp hge)] at hgen'
    cases hgen'
  refine ⟨hlt, hlt', fun σ => ?_⟩
  obtain ⟨w, hw, hexec⟩ := gen32imm_of_lt hlt rtemp
  obtain ⟨w', hw', hexec'⟩ := gen32imm_of_lt hlt' rd
  obtain ⟨s, hs, hsd⟩ := PowerInstr.shift_spec rtemp rtemp
  obtain ⟨j, hj, hjd⟩ := PowerInstr.logicOr_spec rtemp rd rd
  obtain rfl : [w] = high := mem_unique hw hgen
  obtain rfl : [w'] = low := mem_unique hw' hgen'
  obtain rfl : s = sh := mem_unique hs hsh
  obtain rfl : j = join := mem_unique hj hjoin
  simp only [run, List.cons_append, List.nil_append, List.foldlM_cons, List.foldlM_nil, hexec, hsd,
    exec_sradi, hexec', hjd, exec_or, run_do]
  refine ⟨_, rfl, ?_⟩
  rw [Arch.gpr_write_of_ne _ hne'.symm, Arch.gpr_write_self]

/-- What can be loaded, by which routine. -/
inductive Request
  | gen32imm (val : BitVec 32)
  | gen64imm (val : BitVec 64)

namespace Request

/-- The value, zero-extended. -/
def value : Request → BitVec 64
  | .gen32imm val => val.setWidth 64
  | .gen64imm val => val

def generate (rd rtemp : Gpr) : Request → Option (List Word)
  | .gen32imm val => PowerInstr.gen32imm val.toNat rd
  | .gen64imm val => PowerInstr.gen64imm val rd rtemp

/-- The words are generated, and running them leaves the value in the register. -/
def LoadsExactly (rd rtemp : Gpr) (r : Request) : Prop :=
  ∃ ws, r.generate rd rtemp = some ws ∧
    ∀ σ, ∃ σ', run ws σ = some σ' ∧ σ'.gpr rd = r.value

end Request

/-- Requests that come down to `gen32imm` of the value. -/
theorem Request.loadsExactly_iff_of_gen32imm {rd rtemp : Gpr} {r : Request}
    (hgen : r.generate rd rtemp = PowerInstr.gen32imm r.value.toNat rd) :
    r.LoadsExactly rd rtemp ↔ r.value.toNat < 0x8000 := by
  by_cases hlt : r.value.toNat < 2 ^ 16
  · obtain ⟨w, hw, hexec⟩ := gen32imm_of_lt hlt rd
    have hrun : ∀ σ, run [w] σ = some (σ.write rd (signExtended r.value.toNat)) := by
      intro σ
      simp [run, hexec]
    have hext : signExtended r.value.toNat = r.value ↔ r.value.toNat < 0x8000 := by
      rw [← toNat_inj]
      by_cases hsmall : r.value.toNat < 2 ^ 15
      · exact iff_of_true (toNat_signExtended_of_lt hsmall) hsmall
      · have hbig := le_toNat_signExtended (Nat.not_lt.mp hsmall) hlt
        omega
    rw [← hext]
    constructor
    · rintro ⟨ws, hws, hload⟩
      obtain rfl : [w] = ws := some.inj ((hgen.trans hw).symm.trans hws)
      obtain ⟨σ', hσ', hrd⟩ := hload ⟨fun _ => 0, false⟩
      obtain rfl := some.inj ((hrun _).symm.trans hσ')
      rw [Arch.gpr_write_self] at hrd
      exact hrd
    · intro heq
      exact ⟨[w], hgen.trans hw, fun σ => ⟨_, hrun σ, by rw [Arch.gpr_write_self, heq]⟩⟩
  · refine iff_of_false ?_ (by omega)
    rintro ⟨ws, hws, -⟩
    rw [hgen, gen32imm_eq_none (Nat.not_lt.mp hlt)] at hws
    cases hws

/-- **The two routines load exactly the constants below `0x8000`.** -/
theorem Request.loadsExactly_iff_lt (rd rtemp : Gpr) (r : Request) :
    r.LoadsExactly rd rtemp ↔ r.value.toNat < 0x8000 := by
  cases r with
  | gen32imm val =>
    apply loadsExactly_iff_of_gen32imm
    have hwide : (val.setWidth 64).toNat = val.toNat := by
      rw [toNat_setWidth]
      omega
    rw [generate, value, hwide]
  | gen64imm val =>
    by_cases hhigh : val.toNat / 2 ^ 32 = 0
    · apply loadsExactly_iff_of_gen32imm
      have hlow : val.toNat % 2 ^ 32 = val.toNat := by omega
      simp only [generate, value, PowerInstr.gen64imm, if_pos hhigh, hlow]
    · refine iff_of_false ?_ (by simp only [value]; omega)
      rintro ⟨ws, hws, hload⟩
      obtain ⟨hlt, hlt', hrun⟩ := gen64imm_cases hhigh hws
      obtain ⟨σ₁, hσ₁, hrd₁⟩ := hload ⟨fun _ => 0, false⟩
      obtain ⟨σ₂, hσ₂, hrd₂⟩ := hrun ⟨fun _ => 0, false⟩
      obtain rfl : σ₁ = σ₂ := some.inj (hσ₁.symm.trans hσ₂)
      -- the low part alone, sign-extended, is either too small or too large
      have heq : val.toNat = (signExtended (val.toNat % 2 ^ 32)).toNat := by
        rw [← hrd₂, hrd₁, value]
      by_cases hsmall : val.toNat % 2 ^ 32 < 2 ^ 15
      · rw [toNat_signExtended_of_lt hsmall] at heq
        omega
      · have hbig := le_toNat_signExtended (Nat.not_lt.mp hsmall) hlt'
        omega

/-- `gen32imm` of `0x8000` generates `addi r3, 0, -0x8000`, of `0x12345` fails its assertion, and
`gen64imm` of `0x100000002` leaves 2. -/
theorem not_loadsExactly_gen32imm :
    PowerInstr.gen32imm 0x8000 3 = some [0x38608000] ∧
      ¬ (Request.gen32imm 0x8000).LoadsExactly 3 4 ∧
      ¬ (Request.gen32imm 0x12345).LoadsExactly 3 4 ∧
      ¬ (Request.gen64imm 0x100000002).LoadsExactly 3 4 := by
  have hgen (val : BitVec 32) (h : ¬ (val.setWidth 64).toNat < 0x8000)
      (hwide : (val.setWidth 64).toNat = val.toNat) :
      ¬ (Request.gen32imm val).LoadsExactly 3 4 := fun hload =>
    h ((Request.loadsExactly_iff_of_gen32imm (by rw [Request.generate, Request.value, hwide])).mp
      hload)
  refine ⟨by decide, hgen _ (by decide) (by decide), hgen _ (by decide) (by decide), ?_⟩
  rintro ⟨ws, hws, hload⟩
  have hws' : PowerInstr.gen64imm 0x100000002 3 4 = some ws := hws
  obtain ⟨-, -, hrun⟩ := gen64imm_cases (by decide) hws'
  obtain ⟨σ₁, hσ₁, hrd₁⟩ := hload ⟨fun _ => 0, false⟩
  obtain ⟨σ₂, hσ₂, hrd₂⟩ := hrun ⟨fun _ => 0, false⟩
  obtain rfl : σ₁ = σ₂ := some.inj (hσ₁.symm.trans hσ₂)
  exact absurd (hrd₁.symm.trans hrd₂) (by decide)

end Kerninst.Power
