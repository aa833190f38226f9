import Kerninst.Sparc.Machine

/-!
# Ranges, calls, and addresses in registers

The pieces of `sparc_instr` that generate more than one word, or that look at where the
code goes. Only addresses up to `0xFFFFFFFF` are reachable from below it. Constants are loaded in
as few instructions as their bits allow.

What such a list of words does is stated by `Line`: it takes the machine straight
through, and changes the state by a function. Lines are composed by `Line.append`.
-/

namespace Kerninst

open SparcInstr List Function BitVec Arch
open Nat (mod_eq_of_lt mod_lt)
open BitVec (ofNat toNat_ofNat le_def add_assoc ofNat_add ofInt)

universe u

/-! ## Ranges -/

/-- `instr_t::getRangeOf`: the lowest and the highest address in reach. The constant
`(kptr_t)-1U` is `0xFFFFFFFF`, not the highest 64-bit address. -/
def getRangeOf (fromaddr : Kptr) (numBitsOfSignedDisplacement : Nat) : Option (Kptr × Kptr) := do
  let negative : Kptr := BitVec.ofNat 64 (2 ^ (numBitsOfSignedDisplacement - 1))
  let positive : Kptr := negative - 1
  let minReachable := if negative > fromaddr then 0 else fromaddr - negative
  let maxReachable := if positive > 0xFFFFFFFF - fromaddr then 0xFFFFFFFF else fromaddr + positive
  check (minReachable ≤ fromaddr)
  check (fromaddr ≤ maxReachable)
  pure (minReachable, maxReachable)

def inRangeOf (fromaddr toaddr : Kptr) (numBitsOfSignedDisplacement : Nat) : Option Bool := do
  let range ← getRangeOf fromaddr numBitsOfSignedDisplacement
  pure (decide (toaddr ≥ range.1 ∧ toaddr ≤ range.2))

def inRangeOfBicc (fromaddr toaddr : Kptr) : Option Bool := inRangeOf fromaddr toaddr 24

def inRangeOfCall (fromaddr toaddr : Kptr) : Option Bool := inRangeOf fromaddr toaddr 32

/-- In reach of a displacement of `n` bits, for addresses as numbers. -/
def InReach (n : Nat) (a b : Kptr) : Prop :=
  a.toNat ≤ b.toNat + 2 ^ (n - 1) ∧ b.toNat < a.toNat + 2 ^ (n - 1)

variable {n : Nat}

/-- **When an address is in range.** The assertions of `getRangeOf` hold if the range does not
wrap around. -/
theorem inRangeOf_eq_some (hn : n ≤ 32) {a b : Kptr} {ok : Bool} :
    inRangeOf a b n = some ok ↔ a.toNat + 2 ^ (n - 1) ≤ 2 ^ 64 ∧
      (ok = true ↔ InReach n a b ∧ (a.toNat < 2 ^ 32 → b.toNat < 2 ^ 32)) := by
  have hpow : 2 ^ (n - 1) ≤ 2 ^ 31 := Nat.pow_le_pow_right (by decide) (by omega)
  have hpos : 0 < 2 ^ (n - 1) := Nat.two_pow_pos _
  have hneg : (ofNat 64 (2 ^ (n - 1))).toNat = 2 ^ (n - 1) := by
    rw [toNat_ofNat, mod_eq_of_lt (by omega)]
  simp only [inRangeOf, getRangeOf, InReach]
  generalize ofNat 64 (2 ^ (n - 1)) = neg at hneg ⊢
  generalize 2 ^ (n - 1) = size at hpow hpos hneg ⊢
  have hmin : (if neg > a then 0 else a - neg).toNat = a.toNat - size := by
    split <;> bv_omega
  have hmax : (if neg - 1 > 0xFFFFFFFF - a then 0xFFFFFFFF else a + (neg - 1)).toNat =
      if a.toNat < 2 ^ 32 then min (a.toNat + size - 1) (2 ^ 32 - 1)
      else (a.toNat + size - 1) % 2 ^ 64 := by
    split <;> split <;> bv_omega
  generalize (if neg > a then (0 : Kptr) else a - neg) = lo at hmin ⊢
  generalize (if neg - 1 > 0xFFFFFFFF - a then (0xFFFFFFFF : Kptr) else a + (neg - 1)) = hi
    at hmax ⊢
  have hlo : lo ≤ a := by
    rw [le_def]
    omega
  have hhi : a ≤ hi ↔ a.toNat + size ≤ 2 ^ 64 := by
    rw [le_def, hmax]
    split <;> omega
  rw [check_pos hlo, ← hhi]
  by_cases h : a ≤ hi
  · have hwrap := hhi.mp h
    have hin : (lo ≤ b ∧ b ≤ hi) ↔ (a.toNat ≤ b.toNat + size ∧ b.toNat < a.toNat + size) ∧
        (a.toNat < 2 ^ 32 → b.toNat < 2 ^ 32) := by
      rw [le_def, le_def, hmin, hmax]
      split <;> omega
    rw [check_pos h, ← hin]
    cases ok <;> simp [h]
  · rw [check_neg h]
    simp [h]

theorem inRangeOf_eq (hn : n ≤ 32) {a : Kptr} (ha : a.toNat < 2 ^ 63) (b : Kptr) :
    ∃ ok, inRangeOf a b n = some ok ∧
      (ok = true ↔ InReach n a b ∧ (a.toNat < 2 ^ 32 → b.toNat < 2 ^ 32)) := by
  have hpow : 2 ^ (n - 1) ≤ 2 ^ 31 := Nat.pow_le_pow_right (by decide) (by omega)
  obtain ⟨ok, hok⟩ : ∃ ok : Bool, ok = true ↔
      InReach n a b ∧ (a.toNat < 2 ^ 32 → b.toNat < 2 ^ 32) := Bool.exists_bool.mpr (by tauto)
  exact ⟨ok, (inRangeOf_eq_some hn).mpr ⟨by omega, hok⟩, hok⟩

/-- Whatever the address: what is said to be in range is in reach. -/
theorem inReach_of_inRangeOf (hn : n ≤ 32) {a b : Kptr} (h : inRangeOf a b n = some true) :
    InReach n a b :=
  (((inRangeOf_eq_some hn).mp h).2.mp rfl).1

theorem toInt_sub_of_inReach (hn : n ≤ 32) {a b : Kptr} (h : InReach n a b) :
    (b - a).toInt = (b.toNat : Int) - a.toNat := by
  have hpow : 2 ^ (n - 1) ≤ 2 ^ 31 := Nat.pow_le_pow_right (by decide) (by omega)
  obtain ⟨h₁, h₂⟩ := h
  rw [toInt_eq_toNat_cond, toNat_sub]
  split <;> omega

/-! ## Generating -/

namespace SparcInstr

/-- `sparc_instr(callandlink, addr, currPC)` -/
def callandlink (addr currPC : Kptr) : Option Word := do
  let displacement := (addr - currPC).toInt
  let ok ← inRangeOfCall currPC addr
  check ok
  let disp30 ← dispField 30 displacement
  rollAll [(2, 1), disp30]

/-- Load a 32-bit constant. One instruction is enough if it fits 12 bits, since 13-bit
immediates are signed, or if its low 10 bits are zero. -/
def gen32imm (val : Nat) (rd : Reg) : Option (List Word) :=
  if val % 2 ^ 12 = val then do
    let w ← orImm rd Reg.g0 val
    pure [w]
  else do
    let hi ← sethi val rd
    if val % 2 ^ 10 ≠ 0 then
      let lo ← bset (val % 2 ^ 10 : Nat) rd
      pure [hi, lo]
    else pure [hi]

/-- Load an address, which does not exceed 44 bits. -/
def genImmAddr (addr : Kptr) (rd : Reg) : Option (List Word) := do
  check (addr.toNat / 2 ^ 44 = 0)
  if addr.toNat / 2 ^ 32 = 0 then gen32imm (addr.toNat % 2 ^ 32) rd
  else
    let ws ← gen32imm (addr.toNat / 2 ^ 12 % 2 ^ 32) rd
    let shift ← sllx rd rd 12
    if addr.toNat % 2 ^ 12 ≠ 0 then
      let lo ← bset (addr.toNat % 2 ^ 12 : Nat) rd
      pure (ws ++ [shift, lo])
    else pure (ws ++ [shift])

/-- Load the high bits of an address, and jump to it with the low bits as the offset. -/
def genJumpAndLink (target : Kptr) (linkReg : Reg) : Option (List Word) := do
  let hi := target &&& ~~~0xFFF#64
  check (linkReg ≠ Reg.g0)
  let ws ← genImmAddr hi linkReg
  let jump ← jmplImm linkReg linkReg (target.toNat % 2 ^ 12 : Nat)
  pure (ws ++ [jump])

/-- The word that both call constructors end with. -/
theorem call_fields {disp : Int} (hd : Encodable 30 disp) :
    ∃ w, ((dispField 30 disp).bind fun disp30 => rollAll [(2, 1), disp30]) = some w ∧
      field w 30 2 = 1 ∧ signedField w 0 30 * 4 = disp := by
  rw [dispField_eq (le_refl 29) hd]
  refine rollAll_spec (by simpa using emod_toNat_lt (disp / 4) 30) (by simp) fun w hs => ?_
  exact ⟨hs.get 0 rfl, signedField_disp hd (hs.get 1 rfl)⟩

theorem callandlink_spec {addr currPC : Kptr} (hrange : inRangeOfCall currPC addr = some true)
    (haddr : addr.toNat % 4 = 0) (hpc : currPC.toNat % 4 = 0) :
    ∃ w disp, callandlink addr currPC = some w ∧ decode w = .call disp ∧
      currPC + ofInt 64 disp = addr := by
  have hreach : InReach 32 currPC addr := inReach_of_inRangeOf (le_refl _) hrange
  have hdisp := toInt_sub_of_inReach (le_refl _) hreach
  obtain ⟨hlo, hhi⟩ := hreach
  set disp := (addr - currPC).toInt with hd
  obtain ⟨w, hw, hop, himm⟩ := call_fields (show Encodable 30 disp by unfold Encodable; omega)
  refine ⟨w, disp, ?_, ?_, ?_⟩
  · rw [callandlink, hrange, ← hd, Option.bind_eq_bind, Option.bind_some, check_pos rfl]
    exact hw
  · simp [decode, hop, himm]
  · rw [hd, add_ofInt_sub]

end SparcInstr

/-! ## Straight lines -/

/-- A slot with a generated word. -/
def newSlot (w : Word) : Slot := ⟨w, false⟩

/-- A slot with the relocated delay-slot instruction. -/
def delaySlot (w : Word) : Slot := ⟨w, true⟩

variable {ρ : Type u}

/-- No word transfers control, so that the machine goes straight through them, and they change
the state by `f`. -/
structure Line (sem : Sem ρ) (ws : List Word) (f : Arch ρ → Arch ρ) : Prop where
  plain : ∀ w ∈ ws, (decode w).isPlain
  run : ∀ code p σ k, Holds code p (ws.map newSlot) →
    Reaches sem code (Cpu.seq p σ k) (Cpu.seq (p + BitVec.ofNat 64 (4 * ws.length)) (f σ) k)

namespace Line

variable {sem : Sem ρ} {ws ws' : List Word} {f g : Arch ρ → Arch ρ}

theorem nil (sem : Sem ρ) : Line sem [] id := by
  refine ⟨by simp, fun code p σ k _ => ?_⟩
  rw [length_nil, Nat.mul_zero, BitVec.add_zero]
  exact Relation.ReflTransGen.refl

theorem single {w : Word} (hplain : (decode w).isPlain) (hexec : ∀ pc σ, exec sem w pc σ = f σ) :
    Line sem [w] f := by
  refine ⟨by simpa using hplain, fun code p σ k hcode => Reaches.single ?_⟩
  have hstep : step sem code (Cpu.seq p σ k) = some (Cpu.seq (p + 4) (exec sem w p σ) k) :=
    step_plain hcode.head hplain
  rwa [hexec] at hstep

theorem append (h : Line sem ws f) (h' : Line sem ws' g) : Line sem (ws ++ ws') (g ∘ f) := by
  refine ⟨forall_mem_append.mpr ⟨h.plain, h'.plain⟩, fun code p σ k hcode => ?_⟩
  rw [map_append] at hcode
  obtain ⟨hws, hws'⟩ := hcode.append
  rw [length_map] at hws'
  have hrun := (h.run code p σ k hws).trans (h'.run code _ (f σ) k hws')
  rwa [add_assoc, ← ofNat_add, ← Nat.mul_add, ← length_append] at hrun

theorem congr (h : Line sem ws f) (hfg : ∀ σ, f σ = g σ) : Line sem ws g := by
  have heq : f = g := funext hfg
  exact heq ▸ h

end Line

/-! ## Loading an address

Every way to load a constant amounts to one write of the register. -/

theorem Arch.write_write (σ : Arch ρ) (r : Reg) (v v' : BitVec 64) :
    (σ.write r v).write r v' = σ.write r v' := by
  by_cases hr : r = Reg.g0
  · simp [write, if_pos hr]
  · simp [write, if_neg hr]

/-- A register is written, and written again with what it now holds changed by `f`. -/
theorem Arch.write_write_read (σ : Arch ρ) (r : Reg) (v : BitVec 64) (f : BitVec 64 → BitVec 64) :
    (σ.write r v).write r (f ((σ.write r v).read r)) = σ.write r (f v) := by
  rw [write_write]
  by_cases hr : r = Reg.g0
  · simp [write, if_pos hr]
  · rw [read_write_self _ hr]

/-- Or-ing low bits into a multiple of a power of two adds them. -/
theorem ofNat_mul_or {q l k : Nat} (hl : l < 2 ^ k) (h : q * 2 ^ k + l < 2 ^ 64) :
    ofNat 64 (q * 2 ^ k) ||| ofNat 64 l = ofNat 64 (q * 2 ^ k + l) := by
  apply eq_of_toNat_eq
  simp only [toNat_or, toNat_ofNat, mod_eq_of_lt h,
    mod_eq_of_lt (show q * 2 ^ k < 2 ^ 64 by omega), mod_eq_of_lt (show l < 2 ^ 64 by omega)]
  rw [Nat.mul_comm, Nat.two_pow_add_eq_or_of_lt hl]

theorem ofNat_shiftLeft (a k : Nat) : ofNat 64 a <<< k = ofNat 64 (a * 2 ^ k) := by
  apply eq_of_toNat_eq
  simp [Nat.shiftLeft_eq]

section Loading

variable (sem : Sem ρ) (rd : Reg)

theorem line_orImm (rs1 : Reg) {imm : Nat} (himm : imm < 2 ^ 12) :
    ∃ w, orImm rd rs1 imm = some w ∧ isSave w = false ∧
      Line sem [w] fun σ => σ.write rd (σ.read rs1 ||| ofNat 64 imm) := by
  have hlo : -2 ^ 12 ≤ (imm : Int) := by omega
  obtain ⟨w, hw, hd⟩ := orImm_spec rd rs1 hlo (by omega)
  refine ⟨w, hw, by simp [isSave, hd], Line.single (by rw [hd]; rfl) fun pc σ => ?_⟩
  simp [exec, hd, operand]

theorem line_sethi {val : Nat} (hval : val < 2 ^ 32) :
    ∃ w, sethi val rd = some w ∧ isSave w = false ∧
      Line sem [w] fun σ => σ.write rd (ofNat 64 (val / 2 ^ 10 * 2 ^ 10)) := by
  have hmod : val / 2 ^ 10 % 2 ^ 22 = val / 2 ^ 10 := mod_eq_of_lt (by omega)
  obtain ⟨w, hw, hd⟩ := sethicommon_spec (mod_lt (val / 2 ^ 10) (by decide : 0 < 2 ^ 22)) rd
  exact ⟨w, hw, by simp [isSave, hd],
    Line.single (by rw [hd]; rfl) fun pc σ => by simp only [exec, hd, hmod]⟩

theorem line_sllx {count : Nat} (hcount : count < 64) :
    ∃ w, sllx rd rd count = some w ∧ isSave w = false ∧
      Line sem [w] fun σ => σ.write rd (σ.read rd <<< count) := by
  obtain ⟨w, hw, hd⟩ := sllx_spec rd rd hcount
  exact ⟨w, hw, by simp [isSave, hd], Line.single (by rw [hd]; rfl) fun pc σ => by simp [exec, hd]⟩

/-- How many instructions `gen32imm` takes. -/
def imm32Len (val : Nat) : Nat := if val < 2 ^ 12 ∨ val % 2 ^ 10 = 0 then 1 else 2

theorem gen32imm_spec {val : Nat} (hval : val < 2 ^ 32) :
    ∃ ws, gen32imm val rd = some ws ∧ ws.length = imm32Len val ∧
      (∀ w ∈ ws, isSave w = false) ∧ Line sem ws fun σ => σ.write rd (ofNat 64 val) := by
  by_cases hsmall : val < 2 ^ 12
  · obtain ⟨w, hw, hs, hline⟩ := line_orImm sem rd Reg.g0 hsmall
    refine ⟨[w], ?_, by rw [imm32Len, if_pos (Or.inl hsmall)]; rfl, by simpa using hs,
      hline.congr fun σ => ?_⟩
    · rw [gen32imm, if_pos (mod_eq_of_lt hsmall), hw]
      rfl
    · simp [Arch.read]
  · have hbig : ¬ val % 2 ^ 12 = val := by omega
    obtain ⟨hi, hhi, hs, hline⟩ := line_sethi sem rd hval
    by_cases hlow : val % 2 ^ 10 = 0
    · refine ⟨[hi], ?_, by rw [imm32Len, if_pos (Or.inr hlow)]; rfl, by simpa using hs,
        hline.congr fun σ => ?_⟩
      · simp only [gen32imm, if_neg hbig, hhi, hlow, ne_eq, not_true, if_false, run_do]
      · rw [Nat.div_mul_cancel (Nat.dvd_of_mod_eq_zero hlow)]
    · have hlt : val % 2 ^ 10 < 2 ^ 12 := by omega
      obtain ⟨lo, hlo, hs', hline'⟩ := line_orImm sem rd rd hlt
      refine ⟨[hi, lo], ?_, ?_, by simp [hs, hs'], (hline.append hline').congr fun σ => ?_⟩
      · simp only [gen32imm, if_neg hbig, hhi, ne_eq, hlow, not_false_eq_true, if_true,
          bset, hlo, run_do]
      · rw [imm32Len, if_neg (by omega)]
        rfl
      · rw [comp_apply, Arch.write_write_read σ rd _ (· ||| _),
          ofNat_mul_or (mod_lt _ (by decide)) (by omega), Nat.div_add_mod']

/-- How many instructions `genImmAddr` takes. -/
def immAddrLen (addr : Kptr) : Nat :=
  if addr.toNat < 2 ^ 32 then imm32Len addr.toNat
  else imm32Len (addr.toNat / 2 ^ 12) + 1 + (if addr.toNat % 2 ^ 12 = 0 then 0 else 1)

theorem immAddrLen_le (addr : Kptr) : immAddrLen addr ≤ 4 := by
  simp only [immAddrLen, imm32Len]
  split_ifs <;> omega

/-- **An address is loaded by as many instructions as its bits need.** -/
theorem genImmAddr_spec {addr : Kptr} (haddr : addr.toNat < 2 ^ 44) :
    ∃ ws, genImmAddr addr rd = some ws ∧ ws.length = immAddrLen addr ∧
      (∀ w ∈ ws, isSave w = false) ∧ Line sem ws fun σ => σ.write rd addr := by
  have h44 : addr.toNat / 2 ^ 44 = 0 := Nat.div_eq_of_lt haddr
  by_cases h32 : addr.toNat < 2 ^ 32
  · obtain ⟨ws, hws, hlen, hs, hline⟩ := gen32imm_spec sem rd h32
    refine ⟨ws, ?_, by rw [hlen, immAddrLen, if_pos h32], hs, hline.congr fun σ => ?_⟩
    · rw [genImmAddr, check_pos h44, Nat.div_eq_of_lt h32, mod_eq_of_lt h32]
      exact hws
    · rw [ofNat_toNat, setWidth_eq]
  · have hmed : addr.toNat / 2 ^ 12 < 2 ^ 32 := by omega
    have hne : ¬ addr.toNat / 2 ^ 32 = 0 := by omega
    have hmod : addr.toNat / 2 ^ 12 % 2 ^ 32 = addr.toNat / 2 ^ 12 := mod_eq_of_lt hmed
    obtain ⟨ws, hws, hlen, hs, hline⟩ := gen32imm_spec sem rd hmed
    obtain ⟨sh, hsh, hs', hline'⟩ := line_sllx sem rd (by decide : 12 < 64)
    by_cases hlow : addr.toNat % 2 ^ 12 = 0
    · refine ⟨ws ++ [sh], ?_, ?_, by simpa [or_imp, forall_and, hs'] using hs,
        (hline.append hline').congr fun σ => ?_⟩
      · simp only [genImmAddr, check_pos h44, if_neg hne, hmod, hws, hsh, hlow, ne_eq,
          not_true, if_false, run_do]
      · rw [immAddrLen, if_neg h32, if_pos hlow, length_append, hlen]
        rfl
      · rw [comp_apply, write_write_read σ rd _ (· <<< 12), ofNat_shiftLeft,
          Nat.div_mul_cancel (Nat.dvd_of_mod_eq_zero hlow), ofNat_toNat,
          setWidth_eq]
    · obtain ⟨lo, hlo, hs'', hline''⟩ :=
        line_orImm sem rd rd (mod_lt addr.toNat (by decide : 0 < 2 ^ 12))
      refine ⟨ws ++ ([sh] ++ [lo]), ?_, ?_, by simpa [or_imp, forall_and, hs', hs''] using hs,
        (hline.append (hline'.append hline'')).congr fun σ => ?_⟩
      · simp only [genImmAddr, check_pos h44, if_neg hne, hmod, hws, hsh, ne_eq, hlow,
          not_false_eq_true, if_true, bset, hlo, run_do, singleton_append]
      · rw [immAddrLen, if_neg h32, if_neg hlow, length_append, hlen]
        rfl
      · rw [comp_apply, comp_apply, write_write_read σ rd _ (· <<< 12),
          write_write_read σ rd _ (· ||| _), ofNat_shiftLeft,
          ofNat_mul_or (mod_lt _ (by decide)) (by omega), Nat.div_add_mod',
          ofNat_toNat, setWidth_eq]

theorem genImmAddr_fits {addr : Kptr} {rd : Reg} {ws : List Word}
    (h : genImmAddr addr rd = some ws) : addr.toNat < 2 ^ 44 := by
  simp only [genImmAddr, do_eq_some, check_eq_some] at h
  omega

end Loading

/-! ## Jumps

A jump is delayed: it is over when its last delay slot is about to run, with the target
as the next address. `JumpsOpen` leaves that slot to the caller, `Jumps` fills it. -/

/-- From `p`, the words lead to the delay slot after them, with `t` as the next address. -/
def JumpsOpen (sem : Sem ρ) (p : Kptr) (ws : List Word) (t : Kptr) (F : Set Reg) : Prop :=
  ∀ code σ k, Holds code p (ws.map newSlot) →
    ∃ σ₁, Reaches sem code (Cpu.seq p σ k) ⟨p + BitVec.ofNat 64 (4 * ws.length), t, σ₁, k⟩ ∧
      SameExcept F σ σ₁

/-- From `p`, the words lead to `t`. -/
def Jumps (sem : Sem ρ) (p : Kptr) (ws : List Word) (t : Kptr) (F : Set Reg) : Prop :=
  ∀ code σ k, Holds code p (ws.map newSlot) →
    ∃ σ', Reaches sem code (Cpu.seq p σ k) (Cpu.seq t σ' k) ∧ SameExcept F σ σ'

section Jumps

variable {sem : Sem ρ} {p t : Kptr} {ws ws' : List Word} {F G : Set Reg}

theorem JumpsOpen.mono (h : JumpsOpen sem p ws t F) (hFG : F ⊆ G) : JumpsOpen sem p ws t G := by
  intro code σ k hcode
  obtain ⟨σ₁, hrun, hsame⟩ := h code σ k hcode
  exact ⟨σ₁, hrun, hsame.mono hFG⟩

theorem Jumps.mono (h : Jumps sem p ws t F) (hFG : F ⊆ G) : Jumps sem p ws t G := by
  intro code σ k hcode
  obtain ⟨σ₁, hrun, hsame⟩ := h code σ k hcode
  exact ⟨σ₁, hrun, hsame.mono hFG⟩

/-- The caller's instruction runs in the open delay slot, and then the target is reached. -/
theorem JumpsOpen.run_slot (h : JumpsOpen sem p ws t F) {code : Code} {slot : Slot}
    (hcode : Holds code p (ws.map newSlot ++ [slot])) (hplain : (decode slot.word).isPlain)
    (σ : Arch ρ) (k : Nat) :
    ∃ σ₁, SameExcept F σ σ₁ ∧ Reaches sem code (Cpu.seq p σ k)
      (Cpu.seq t (exec sem slot.word (p + ofNat 64 (4 * ws.length)) σ₁)
        (k + slot.isDelay.toNat)) := by
  obtain ⟨hws, hslot⟩ := hcode.append
  rw [length_map] at hslot
  obtain ⟨σ₁, hrun, hsame⟩ := h code σ k hws
  exact ⟨σ₁, hsame, hrun.tail (step_plain hslot.head hplain)⟩

/-- Filling the delay slot with a generated instruction. -/
theorem JumpsOpen.close (h : JumpsOpen sem p ws t F) {w : Word} (hplain : (decode w).isPlain)
    (hexec : ∀ pc σ, SameExcept F σ (exec sem w pc σ)) : Jumps sem p (ws ++ [w]) t F := by
  intro code σ k hcode
  rw [map_append] at hcode
  obtain ⟨σ₁, hsame, hrun⟩ := h.run_slot hcode hplain σ k
  exact ⟨_, hrun, hsame.trans (hexec _ σ₁)⟩

end Jumps

/-- Clearing the low twelve bits. -/
theorem toNat_and_not_mask (a : Kptr) : (a &&& ~~~0xFFF#64).toNat = a.toNat / 2 ^ 12 * 2 ^ 12 := by
  have hshift : a &&& ~~~0xFFF#64 = (a >>> 12) <<< 12 := by
    apply eq_of_getLsbD_eq
    intro i hi
    have hmask : (0xFFF#64).getLsbD i = decide (i < 12) :=
      (getLsbD_ofNat 64 0xFFF i).trans (by simp [hi, ← Nat.testBit_two_pow_sub_one 12 i])
    simp only [getLsbD_and, getLsbD_not, hmask, getLsbD_shiftLeft,
      getLsbD_ushiftRight, hi, decide_true, Bool.true_and]
    by_cases h12 : i < 12
    · simp [h12]
    · simp [h12, show 12 + (i - 12) = i by omega]
  rw [hshift, toNat_shiftLeft, toNat_ushiftRight, Nat.shiftLeft_eq, Nat.shiftRight_eq_div_pow]
  omega

/-- **An indirect jump** to an address of up to 44 bits. -/
theorem genJumpAndLink_spec (sem : Sem ρ) {link : Reg} (hlink : link ≠ Reg.g0) {t : Kptr}
    (ht : t.toNat < 2 ^ 44) (h4 : t.toNat % 4 = 0) :
    ∃ ws, genJumpAndLink t link = some ws ∧
      ws.length = immAddrLen (t &&& ~~~0xFFF#64) + 1 ∧ (∀ w ∈ ws, isSave w = false) ∧
      ∀ p, JumpsOpen sem p ws t {link} := by
  have hhi := toNat_and_not_mask t
  obtain ⟨ws, hws, hlen, hs, hline⟩ :=
    genImmAddr_spec sem link (show (t &&& ~~~0xFFF#64).toNat < 2 ^ 44 by omega)
  have hlo : -2 ^ 12 ≤ ((t.toNat % 2 ^ 12 : Nat) : Int) := by omega
  obtain ⟨j, hj, hd⟩ := jmplImm_spec link link hlo (by omega)
  have hs' : isSave j = false := by simp [isSave, hd]
  refine ⟨ws ++ [j], ?_, by simp [hlen], by simpa [or_imp, forall_and, hs'] using hs, fun p => ?_⟩
  · simp only [genJumpAndLink, check_pos hlink, hws, hj, run_do]
  intro code σ k hcode
  rw [map_append] at hcode
  obtain ⟨hhead, hjump⟩ := hcode.append
  rw [length_map] at hjump
  -- the register holds the high bits when the jump adds the low ones
  have htarget : (σ.write link (t &&& ~~~0xFFF#64)).read link +
      (σ.write link (t &&& ~~~0xFFF#64)).operand
        (.simm13 ((t.toNat % 2 ^ 12 : Nat) : Int)) = t := by
    rw [read_write_self _ hlink, operand, BitVec.ofInt_natCast]
    apply BitVec.eq_of_toNat_eq
    rw [BitVec.toNat_add, hhi, toNat_ofNat]
    omega
  set q := p + ofNat 64 (4 * ws.length) with hq
  have hstep : step sem code (Cpu.seq q (σ.write link (t &&& ~~~0xFFF#64)) k) =
      some ⟨q + 4, t, (σ.write link (t &&& ~~~0xFFF#64)).write link q, k⟩ :=
    step_jmpl hjump.head hd htarget h4
  have hend : p + ofNat 64 (4 * (ws ++ [j]).length) = q + 4 := by
    rw [length_append, Nat.mul_add, ofNat_add, ← add_assoc]
    rfl
  rw [hend]
  exact ⟨_, (hline.run code p σ k hhead).tail hstep,
    (SameExcept.write (Set.mem_singleton link) _).trans
      (SameExcept.write (Set.mem_singleton link) _)⟩

end Kerninst
