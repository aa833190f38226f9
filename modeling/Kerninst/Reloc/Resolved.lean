import Kerninst.Reloc.Emitted
import Kerninst.Sparc.UnwoundCall

/-!
# Resolved code

What the words of an entry should be once everything is placed, and what they are.

In two cases an entry is not resolved as it should be (`Item.Avoids` excludes them). A
floating-point branch that does not annul its delay slot cannot be changed, because of an
assertion that has an assignment in it. And a difference of two labels must be positive if it
is resolved late, whereas early a negative one is divided as if it were unsigned. In all other
cases, early or late, what is resolved is right (`resolvesCorrectly_iff`).
-/

namespace Kerninst

open List Option Item
open SparcInstr (callandlink nop_spec genImmAddrGeneric64 sethi)
open BitVec (ofNat ofNat_toNat setWidth_eq ofInt ofInt_natCast toNat_ofInt toNat_inj toNat_ofNat)

universe u

open ResolveEnv

/-! ## The meaning of entries -/

/-- Some source has this address for a name that is used in a chunk. -/
def ResolveEnv.Says (env : ResolveEnv) (chunkNdx : Nat) (name : String) (a : Kptr) : Prop :=
  env.knownSymAddrs name = some a ∨ env.labelAddr name = some a ∨
    env.oracle.obtainFunctionEntryAddr name = some a ∨ env.oracle.obtainImmAddr name = some a ∨
    name = thisChunkAddr ∧ env.chunkStartAddrs[chunkNdx]? = some a

/-- How far apart two labels are. -/
def ResolveEnv.difference (env : ResolveEnv) (info : LabelDifference) : Option Int := do
  let label1Offset ← env.labels info.label1
  let label2Offset ← env.labels info.label2
  env.distanceCalc label1Offset label2Offset

namespace Item

/-- The entry stands for the address. -/
def Implies (env : ResolveEnv) : Item → Kptr → Prop
  | .branchToLabel _ l, a | .labelAddrAsData _ l, a | .labelAddr _ l, a => env.labelAddr l = some a
  | .interprocBranchToName off s, a | .callByName off s, a | .symAddr off s, a =>
    env.Says off.chunkNdx s a
  | .interprocBranchToAddr _ t, a | .callByAddr _ t, a => a = t
  | .backpatch info, a =>
    ∃ b, env.labelAddr info.labelName = some b ∧ a = b + BitVec.ofNat 64 info.byteOffset
  | .labelDifference .., _ => False

end Item

/-- The branch now goes to `a`, and is otherwise as it was. -/
def BranchesTo (pc : Kptr) (old new : List Word) (a : Kptr) : Prop :=
  ∃ w b w' d, old = [w] ∧ new = [w'] ∧ pcRelative w = some (.branch b) ∧
    UpdatedTo w b d b.annul w' ∧ pc + BitVec.ofInt 64 d = a

def CallsTo (pc : Kptr) (new : List Word) (a : Kptr) : Prop :=
  ∃ w disp, new = [w] ∧ decode w = .call disp ∧ pc + BitVec.ofInt 64 disp = a

section Machine

variable {ρ : Type u} (sem : Sem ρ)

/-- Where 0 was loaded, `a` is now loaded by as many instructions. -/
def Loads (old new : List Word) (a : Kptr) : Prop :=
  ∃ rd, SparcInstr.genImmAddrGeneric64 0 rd true = some old ∧ new.length = old.length ∧
    Line sem new fun σ => σ.write rd a

/-- The first instruction loads high bits of `a`; given these, the second one makes `a` of it. -/
def PairLoads (old new : List Word) (a : Kptr) : Prop :=
  ∃ w₁ w₂ w₁' w₂' hi, old = [w₁, w₂] ∧ new = [w₁', w₂'] ∧ decode w₁' = .sethi (regField w₁ 25) hi ∧
    (decode w₂').isPlain ∧ ∀ pc σ, σ.read (regField w₂ 14) = BitVec.ofNat 64 (hi * 2 ^ 10) →
      exec sem w₂' pc σ = σ.write (regField w₂ 25) a

namespace Item

/-- What the words of the entry do, for the address `a`. -/
def HoldsFor (env : ResolveEnv) (old new : List Word) : Item → Kptr → Prop
  | .branchToLabel off _, a | .interprocBranchToName off _, a | .interprocBranchToAddr off _, a =>
    ∃ pc, env.absoluteAddr off = some pc ∧ BranchesTo pc old new a
  | .callByName off _, a | .callByAddr off _, a =>
    ∃ pc, env.absoluteAddr off = some pc ∧ CallsTo pc new a
  | .symAddr .., a | .labelAddr .., a => Loads sem old new a
  | .labelAddrAsData .., a => ∃ w, new = [w] ∧ w.toNat = a.toNat
  | .backpatch _, a => PairLoads sem old new a
  | .labelDifference .., _ => False

/-- **What a resolved entry should be**, for the one address that it stands for. -/
def Holds (env : ResolveEnv) (old new : List Word) : Item → Prop
  | .labelDifference _ info => ∃ delta, env.difference info = some delta ∧
    new = [BitVec.ofInt 32 (delta.tdiv info.divideByThis.toNat)]
  | item => ∃ a, (∀ a', item.Implies env a' ↔ a' = a) ∧ item.HoldsFor sem env old new a

end Item

end Machine

/-! ## What is in range -/

def BranchFits (env : ResolveEnv) (off : InsnOffset) (old : List Word) (a : Kptr) : Prop :=
  ∃ pc w b, env.absoluteAddr off = some pc ∧ old = [w] ∧ pcRelative w = some (.branch b) ∧
    Encodable b.kind.dispBits (a - pc).toInt

def CallFits (env : ResolveEnv) (off : InsnOffset) (a : Kptr) : Prop :=
  a.toNat % 4 = 0 ∧ ∃ pc, env.absoluteAddr off = some pc ∧ inRangeOfCall pc a = some true

/-- The address can be loaded by two instructions. -/
def LoadFits (a : Kptr) : Prop := a.toNat < 2 ^ 44 ∧ immAddrLen a ≤ 2

/-- There are two instructions that can be patched. -/
def PairFits (old : List Word) (a : Kptr) : Prop :=
  a.toNat < 2 ^ 32 ∧ ∃ w₁ w₂, old = [w₁, w₂] ∧ isSetHi w₁ = true ∧ regField w₁ 25 ≠ Reg.g0 ∧
    (isORImm w₂ = true ∨ isAddImm w₂ = true)

namespace Item

/-- What the entry asks for is found by the sources that are asked, and is in range. -/
def Fits (env : ResolveEnv) (old : List Word) : Item → Prop
  | .branchToLabel off l => ∃ a, env.labelAddr l = some a ∧ BranchFits env off old a
  | .interprocBranchToName off s => ∃ a, env.branchDest s = some a ∧ BranchFits env off old a
  | .interprocBranchToAddr off a => BranchFits env off old a
  | .callByName off s => ∃ a, env.callDest s = some a ∧ CallFits env off a
  | .callByAddr off a => CallFits env off a
  | .symAddr off s =>
    ∃ a, (env.knownSymAddrs s).or (env.symDest off s) = some a ∧ LoadFits a
  | .labelAddrAsData _ l => ∃ a, env.labelAddr l = some a ∧ a.toNat < 2 ^ 32
  | .labelDifference _ info => info.divideByThis ≠ 0 ∧ ∃ delta, env.difference info = some delta ∧
    -2 ^ 31 ≤ delta.tdiv info.divideByThis.toNat ∧ delta.tdiv info.divideByThis.toNat < 2 ^ 32
  | .labelAddr _ l => ∃ a, env.labelAddr l = some a ∧ LoadFits a
  | .backpatch info => ∃ a, env.labelAddr info.labelName = some a ∧
    PairFits old (a + BitVec.ofNat 64 info.byteOffset)

/-- The branch, if it is one for floating-point conditions, annuls its delay slot. -/
def AnnulsIfFloat (old : List Word) : Prop :=
  ∀ w b, old = [w] → pcRelative w = some (.branch b) → b.kind.isFloat = true → b.annul = true

/-- A difference within a chunk is not negative, or divided by 1, or divided by so much that the
quotient is 0 even if it is taken for unsigned. A difference across chunks is positive. -/
def DifferenceOk (env : ResolveEnv) (info : LabelDifference) : Prop :=
  ∀ off₁ off₂ delta, env.labels info.label1 = some off₁ → env.labels info.label2 = some off₂ →
    env.distanceCalc off₁ off₂ = some delta →
    if off₁.chunkNdx = off₂.chunkNdx then
      0 ≤ delta ∨ info.divideByThis = 1 ∨ 2 ^ 32 + delta < info.divideByThis.toNat
    else 0 < delta

/-- The entry is none of those that are resolved wrongly. -/
def Avoids (env : ResolveEnv) (old : List Word) : Item → Prop
  | .branchToLabel .. | .interprocBranchToName .. | .interprocBranchToAddr .. => AnnulsIfFloat old
  | .labelDifference _ info => DifferenceOk env info
  | _ => True

end Item

variable {off : InsnOffset} {a : Kptr} {old : List Word} {delta : Int}

/-! ## The words of each kind of entry -/

section Branches

variable {w : Word} {b : Branch} {d : Int}

/-- A branch is changed, or refused. -/
theorem changeBranchOffset_cases (hw : pcRelative w = some (.branch b))
    (henc : Encodable b.kind.dispBits d) :
    (changeBranchOffset w d = none ∧ ¬ (b.kind.isFloat = true → b.annul = true)) ∨
      ∃ w', changeBranchOffset w d = some w' ∧ UpdatedTo w b d b.annul w' ∧
        (b.kind.isFloat = true → b.annul = true) := by
  have hchange : changeBranchOffset w d = changeBranchOffsetAndAnnulBit w d b.annul := by
    simp [changeBranchOffset, hw]
  by_cases hok : b.kind.isFloat = true → b.annul = true
  · obtain ⟨w', hw', hup⟩ := changed_of_encodable hw henc hok
    exact .inr ⟨w', hchange.trans hw', hup, hok⟩
  · refine .inl ⟨?_, hok⟩
    rw [hchange, eq_none_iff_forall_ne_some]
    intro w' hw'
    exact hok (changed_cases hw hw').2

theorem annulsIfFloat_iff (hw : pcRelative w = some (.branch b)) :
    AnnulsIfFloat [w] ↔ (b.kind.isFloat = true → b.annul = true) := by
  constructor
  · exact fun h => h w b rfl hw
  · rintro h w' b' heq hw'
    obtain rfl : w = w' := head_eq_of_cons_eq heq
    obtain rfl : b = b' := by simpa [hw] using hw'
    exact h

theorem toLong_of_encodable {n : Nat} (hn : n ≤ 22) (h : Encodable n d) : toLong d = d := by
  have hpow : (2 : Int) ^ (n + 1) ≤ 2 ^ 23 := pow_le_pow_right₀ (by decide) (by omega)
  obtain ⟨-, hlo, hhi⟩ := h
  exact toLong_of_fits (by omega) (by omega)

theorem BranchKind.dispBits_le (kind : BranchKind) : kind.dispBits ≤ 22 := by
  cases kind <;> simp [dispBits]

end Branches

section Calls

/-- The dummy for a call is a call. -/
theorem isCallInstr_of_callandlink {addr pc : Kptr} {w : Word}
    (h : callandlink addr pc = some w) : isCallInstr w = true := by
  simp only [callandlink, dispField, simm, do_eq_some, check_eq_some] at h
  obtain ⟨-, -, -, -, _, ⟨-, -, -, -, rfl⟩, hroll⟩ := h
  have hop : field w 30 2 = 1 := (spells_of_rollAll (by simp) hroll).get 0 rfl
  simp [isCallInstr, hop]

/-- **A resolved call.** -/
theorem call_rewrite {env : ResolveEnv} {a atEmit pc : Kptr}
    {ok : Word → Bool} (hok : ∀ w, isCallInstr w = true → ok w = true) (h : CallFits env off a)
    (hpc : env.absoluteAddr off = some pc) (h4 : pc.toNat % 4 = 0)
    (hold : SparcInstr.genCallAndLinkGenericUnknownFromAddr atEmit = some old) :
    ∃ new, (callFixup off pc a atEmit ok).rewrite old = some new ∧ CallsTo pc new a := by
  obtain ⟨ha4, pc', hpc', hrange⟩ := h
  obtain rfl : pc = pc' := mem_unique hpc hpc'
  obtain ⟨call, disp, hcall, hdecode, htarget⟩ := SparcInstr.callandlink_spec hrange ha4 h4
  obtain ⟨nop, hnop, -⟩ := nop_spec
  have hgen := hold
  simp only [SparcInstr.genCallAndLinkGenericUnknownFromAddr, do_eq_some, check_eq_some] at hgen
  obtain ⟨-, -, w, hw, rfl⟩ := hgen
  have hwords : callWords pc a atEmit = some ([w], [call]) := by
    simp [callWords, hold, SparcInstr.genCallAndLink, hrange, hcall, hnop, check_pos]
  refine ⟨[call], ?_, call, disp, rfl, hdecode, htarget⟩
  simp [callFixup, Fixup.replacing, hok w (isCallInstr_of_callandlink hw), check_pos, hwords]

end Calls

section Loads

variable {ρ : Type u} (sem : Sem ρ)

/-- The first dummy instruction of a load tells the register. -/
theorem regField_of_genImmAddrGeneric64 {rd : Reg}
    (h : genImmAddrGeneric64 0 rd true = some old) :
    ∃ w₁ w₂, old = [w₁, w₂] ∧ regField w₁ 25 = rd := by
  simp only [genImmAddrGeneric64, SparcInstr.genImmAddrGeneric32, if_true, do_eq_some] at h
  obtain ⟨-, -, w₁, hw₁, w₂, -, rfl⟩ := h
  exact ⟨w₁, w₂, rfl, regField_eq ((spells_of_rollAll (by simp [intReg]) hw₁).get 1 rfl)⟩

theorem line_replicate_nop {nop : Word} (h : decode nop = .sethi Reg.g0 0) (n : Nat) :
    Line sem (replicate n nop) id := by
  have hnop : Line sem [nop] id := Line.single (by rw [h]; rfl) (exec_nop sem h)
  induction n with
  | zero => exact Line.nil sem
  | succ n ih => exact hnop.append ih

theorem setImmAddrWords_spec (h : LoadFits a) {rd : Reg}
    (hold : genImmAddrGeneric64 0 rd true = some old) :
    ∃ new, setImmAddrWords rd a = some (old, new) ∧ Line sem new fun σ => σ.write rd a := by
  obtain ⟨h44, hlen⟩ := h
  obtain ⟨ws, hws, hwslen, -, hline⟩ := genImmAddr_spec sem rd h44
  obtain ⟨nop, hnop, hdn⟩ := nop_spec
  have hle : ws.length ≤ old.length := by
    rw [length_genImmAddrGeneric64 hold, hwslen]
    exact hlen
  refine ⟨_, ?_, hline.append (line_replicate_nop sem hdn (old.length - ws.length))⟩
  simp only [setImmAddrWords, hold, hws, check_pos hle, hnop, run_do]

theorem loadFits_of_setImmAddrWords {rd : Reg} {words : List Word × List Word}
    (h : setImmAddrWords rd a = some words) : LoadFits a := by
  simp only [setImmAddrWords, do_eq_some, check_eq_some] at h
  obtain ⟨old, hold, new, hnew, -, hle, -⟩ := h
  have h44 := genImmAddr_fits hnew
  obtain ⟨ws, hws, hlen, -⟩ := genImmAddr_spec idleSem rd h44
  obtain rfl : new = ws := mem_unique hnew hws
  rw [length_genImmAddrGeneric64 hold, hlen] at hle
  exact ⟨h44, hle⟩

theorem rewrite_loadFixup (off : InsnOffset) {rd : Reg} {new : List Word}
    (hold : genImmAddrGeneric64 0 rd true = some old)
    (h : setImmAddrWords rd a = some (old, new)) : (loadFixup off a).rewrite old = some new := by
  obtain ⟨w₁, w₂, rfl, hrd⟩ := regField_of_genImmAddrGeneric64 hold
  obtain ⟨h₁, h₂⟩ := length_setImmAddrWords h
  refine Fixup.rewrite_replacing_eq_some.mpr ⟨?_, h₂.trans h₁.symm⟩
  rw [head?_cons, bind_some, hrd, h]

/-- **A resolved load.** -/
theorem load_rewrite (off : InsnOffset) (h : LoadFits a)
    (hold : ∃ rd, genImmAddrGeneric64 0 rd true = some old) :
    ∃ new, (loadFixup off a).rewrite old = some new ∧ Loads sem old new a := by
  obtain ⟨rd, hold⟩ := hold
  obtain ⟨new, hwords, hline⟩ := setImmAddrWords_spec sem h hold
  obtain ⟨h₁, h₂⟩ := length_setImmAddrWords hwords
  exact ⟨new, rewrite_loadFixup off hold hwords, rd, hold, h₂.trans h₁.symm, hline⟩

end Loads

section Pairs

variable {ρ : Type u} {sem : Sem ρ}

/-- The two parts of an address are put together again. -/
theorem ofNat_hi_lo (h : a.toNat < 2 ^ 32) :
    ofNat 64 (a.toNat / 2 ^ 10 * 2 ^ 10) + ofNat 64 (a.toNat % 2 ^ 10) = a ∧
      ofNat 64 (a.toNat / 2 ^ 10 * 2 ^ 10) ||| ofNat 64 (a.toNat % 2 ^ 10) = a := by
  have hsum : a.toNat / 2 ^ 10 * 2 ^ 10 + a.toNat % 2 ^ 10 = a.toNat := Nat.div_add_mod' ..
  constructor
  · rw [← BitVec.ofNat_add, hsum, ofNat_toNat, setWidth_eq]
  · rw [ofNat_mul_or (Nat.mod_lt _ (by decide)) (by omega), hsum, ofNat_toNat, setWidth_eq]

/-- **A resolved pair.** -/
theorem pair_rewrite (hsem : KnowsAdd sem) (off₁ off₂ : InsnOffset) (h : PairFits old a) :
    ∃ new, (Fixup.pair off₁ off₂ (patchSetHi a) (patchBSetOrAdd a)).rewrite old = some new ∧
      PairLoads sem old new a := by
  obtain ⟨h32, w₁, w₂, rfl, hsethi, hrd, hkind⟩ := h
  have hhi : a.toNat % 2 ^ 32 / 2 ^ 10 % 2 ^ 22 = a.toNat / 2 ^ 10 := by omega
  obtain ⟨w₁', hw₁', hd₁⟩ := SparcInstr.sethicommon_spec
    (Nat.mod_lt (a.toNat % 2 ^ 32 / 2 ^ 10) (by decide : 0 < 2 ^ 22)) (regField w₁ 25)
  have hfirst : patchSetHi a w₁ = some w₁' := by
    simp only [patchSetHi, check_pos hsethi, check_pos hrd, run_do, sethi, hw₁']
  have hlo : -2 ^ 12 ≤ ((a.toNat % 2 ^ 10 : Nat) : Int) := by omega
  have hlo' : ((a.toNat % 2 ^ 10 : Nat) : Int) < 2 ^ 12 := by omega
  obtain ⟨hadd, hor⟩ := ofNat_hi_lo h32
  obtain ⟨w₂', hsecond, hplain, hexec⟩ : ∃ w₂', patchBSetOrAdd a w₂ = some w₂' ∧
      (decode w₂').isPlain ∧ ∀ pc σ, σ.read (regField w₂ 14) = ofNat 64
        (a.toNat / 2 ^ 10 * 2 ^ 10) → exec sem w₂' pc σ = σ.write (regField w₂ 25) a := by
    by_cases hisor : isORImm w₂ = true
    · obtain ⟨w₂', hw₂', hd₂⟩ := SparcInstr.orImm_spec (regField w₂ 25) (regField w₂ 14) hlo hlo'
      refine ⟨w₂', by rw [patchBSetOrAdd, if_pos hisor, hw₂'], by rw [hd₂]; rfl, fun pc σ hσ => ?_⟩
      simp only [exec, hd₂, hσ, Arch.operand, ofInt_natCast, hor]
    · have hisadd := hkind.resolve_left hisor
      obtain ⟨w₂', hw₂', hop, hop3, hrd₂, hrs1, hsrc⟩ :=
        SparcInstr.setSimm13Style_spec (by decide : 0 < 64) (regField w₂ 25) (regField w₂ 14)
          hlo hlo'
      have hd₂ : decode w₂' = .plain := by simp [decode, decodeFormat3, hop, hop3]
      refine ⟨w₂', by rw [patchBSetOrAdd, if_neg hisor, if_pos hisadd]; exact hw₂',
        by rw [hd₂]; rfl,
        fun pc σ hσ => ?_⟩
      simp only [exec, hd₂, hsem w₂' pc σ hop hop3, hrd₂, hrs1, hsrc, hσ, Arch.operand,
        ofInt_natCast, hadd]
  refine ⟨[w₁', w₂'], ?_, w₁, w₂, w₁', w₂', _, rfl, rfl, hd₁, hplain, ?_⟩
  · simp [Fixup.pair, hfirst, hsecond]
  · rw [hhi]
    exact hexec

end Pairs

section Differences

theorem toNat_ofInt_neg {m : Nat} (h : 0 < m) (hm : m ≤ 2 ^ 32) :
    (ofInt 32 (-(m : Int))).toNat = 2 ^ 32 - m := by
  rw [toNat_ofInt]
  omega

/-- The quotient of a difference taken for unsigned is the right one only if the difference is not
negative, or by chance. -/
theorem udiv_eq_tdiv_iff (hlo : -2 ^ 31 < delta) (hhi : delta < 2 ^ 31) {d : Word} (hd : d ≠ 0) :
    ofInt 32 delta / d = ofInt 32 (delta.tdiv d.toNat) ↔
      0 ≤ delta ∨ d = 1 ∨ 2 ^ 32 + delta < d.toNat := by
  have hpos : 0 < d.toNat := Nat.pos_of_ne_zero fun h => hd (BitVec.eq_of_toNat_eq h)
  have hone : d = 1 ↔ d.toNat = 1 := by rw [← toNat_inj]; rfl
  rw [← toNat_inj, BitVec.toNat_udiv, hone]
  generalize d.toNat = n at hpos ⊢
  obtain ⟨m, rfl | rfl⟩ : ∃ m : Nat, delta = m ∨ delta = -m := ⟨delta.natAbs, by omega⟩
  · refine iff_of_true ?_ (.inl (Int.natCast_nonneg m))
    have hq : m / n ≤ m := Nat.div_le_self ..
    rw [← Int.ofNat_tdiv, ofInt_natCast, ofInt_natCast, toNat_ofNat,
      toNat_ofNat, Nat.mod_eq_of_lt (by omega), Nat.mod_eq_of_lt (by omega)]
  · rcases Nat.eq_zero_or_pos m with rfl | hm
    · simp
    rw [Int.neg_tdiv, ← Int.ofNat_tdiv, toNat_ofInt_neg hm (by omega)]
    have hright : 0 ≤ -(m : Int) ∨ n = 1 ∨ 2 ^ 32 + -(m : Int) < n ↔ n = 1 ∨ 2 ^ 32 - m < n := by
      omega
    rcases Nat.eq_zero_or_pos (m / n) with hq | hq
    · -- the quotient is 0
      have hmn : m < n := (Nat.div_eq_zero_iff.mp hq).resolve_left hpos.ne'
      rw [hq]
      change (2 ^ 32 - m) / n = 0 ↔ _
      rw [Nat.div_eq_zero_iff]
      omega
    · -- a negative quotient is large as an unsigned number
      rw [toNat_ofInt_neg hq (by have := Nat.div_le_self m n; omega)]
      rcases Nat.lt_or_ge n 2 with h1 | h2
      · obtain rfl : n = 1 := by omega
        simp
      · have hle : (2 ^ 32 - m) / n ≤ (2 ^ 32 - m) / 2 := Nat.div_le_div_left h2 (by decide)
        have hq2 : m / n ≤ m / 2 := Nat.div_le_div_left h2 (by decide)
        have hnm : n ≤ m := by
          by_contra hlt
          rw [Nat.div_eq_of_lt (by omega)] at hq
          exact absurd hq (lt_irrefl 0)
        omega

end Differences

/-! ## The entries in their chunks -/

/-- Each chunk has its place, and labels are in the chunks. -/
structure Placed (env : ResolveEnv) (chunks : Chunks) : Prop where
  length : env.chunkStartAddrs.length = chunks.length
  aligned : ∀ a ∈ env.chunkStartAddrs, a.toNat % 4 = 0
  small : ∀ chunk ∈ chunks, 4 * chunk.length < 2 ^ 31
  labels : ∀ l off, env.labels l = some off → AtBoundary chunks off

/-- No name has two addresses. -/
def ResolveEnv.Agrees (env : ResolveEnv) : Prop :=
  ∀ chunkNdx name a b, env.Says chunkNdx name a → env.Says chunkNdx name b → a = b

/-- What is done about an entry, early or late. -/
def Item.fix (env : ResolveEnv) (item : Item) : Option (Fixup InsnOffset Word) :=
  if item.isEarly env.labels env.knownSymAddrs then item.earlyFixup env.labels env.knownSymAddrs
  else item.fixup env

section Entries

variable {env : ResolveEnv} {chunks : Chunks}

theorem Placed.byteOffset_lt (h : Placed env chunks) (hoff : AtBoundary chunks off) :
    off.byteOffset < 2 ^ 31 := by
  obtain ⟨-, chunk, hchunk, hle⟩ := hoff
  have hlt := h.small chunk (mem_of_getElem? hchunk)
  omega

theorem atBoundary_of_read {w : Word} (h : offset2Insn chunks off = some w) :
    AtBoundary chunks off := by
  obtain ⟨h4, chunk, hchunk, hw⟩ := offset2Insn_eq_some_iff.mp h
  have hlt := (List.getElem?_eq_some_iff.mp hw).1
  exact ⟨h4, chunk, hchunk, by omega⟩

theorem Placed.absoluteAddr (h : Placed env chunks) (hoff : AtBoundary chunks off) :
    ∃ start, env.chunkStartAddrs[off.chunkNdx]? = some start ∧
      env.absoluteAddr off = some (start + ofNat 64 off.byteOffset) ∧
      (start + ofNat 64 off.byteOffset).toNat % 4 = 0 := by
  obtain ⟨h4, chunk, hchunk, -⟩ := hoff
  have hndx := (List.getElem?_eq_some_iff.mp hchunk).1
  rw [← h.length] at hndx
  obtain ⟨start, hstart⟩ : ∃ start, env.chunkStartAddrs[off.chunkNdx]? = some start :=
    ⟨_, List.getElem?_eq_getElem hndx⟩
  have hstart4 := h.aligned start (List.mem_of_getElem? hstart)
  refine ⟨start, hstart, by rw [ResolveEnv.absoluteAddr, hstart]; rfl, ?_⟩
  rw [BitVec.toNat_add, toNat_ofNat]
  omega

/-- The distance within a chunk does not depend on where the chunk is. -/
theorem toInt_sub_of_same_chunk (start : Kptr) {x y : Nat} (hx : x < 2 ^ 31) (hy : y < 2 ^ 31) :
    (start + ofNat 64 x - (start + ofNat 64 y)).toInt = (x : Int) - y := by
  have hsub : (start + ofNat 64 x - (start + ofNat 64 y)).toNat = (2 ^ 64 + x - y) % 2 ^ 64 := by
    bv_omega
  rw [BitVec.toInt_eq_toNat_cond, hsub]
  split <;> omega

/-- Within a chunk, early and late come to the same distance. -/
theorem Placed.distanceCalc (h : Placed env chunks) {off₁ off₂ : InsnOffset}
    (h₁ : AtBoundary chunks off₁) (h₂ : AtBoundary chunks off₂)
    (hndx : off₁.chunkNdx = off₂.chunkNdx) :
    env.distanceCalc off₁ off₂ = some ((off₁.byteOffset : Int) - off₂.byteOffset) := by
  obtain ⟨start₁, hs₁, ha₁, -⟩ := h.absoluteAddr h₁
  obtain ⟨start₂, hs₂, ha₂, -⟩ := h.absoluteAddr h₂
  rw [hndx, hs₂] at hs₁
  obtain rfl := some.inj hs₁
  simp only [ResolveEnv.distanceCalc, ha₁, ha₂, run_do,
    toInt_sub_of_same_chunk _ (h.byteOffset_lt h₁) (h.byteOffset_lt h₂)]

variable {s : String}

theorem says_of_branchDest (h : env.branchDest s = some a) (n : Nat) : env.Says n s a := by
  rcases or_eq_some_iff.mp h with h | ⟨-, h⟩
  · exact .inr (.inr (.inl h))
  · exact .inl h

theorem says_of_callDest (h : env.callDest s = some a) (n : Nat) : env.Says n s a := by
  unfold callDest at h
  split at h
  case h_1 addr hknown =>
    cases h
    exact .inl hknown
  case h_2 =>
    split at h
    case h_1 off hoff =>
      refine .inr (.inl ?_)
      simp [ResolveEnv.labelAddr, hoff, h]
    case h_2 => exact .inr (.inr (.inl h))

theorem says_of_symDest
    (h : (env.knownSymAddrs s).or (env.symDest off s) = some a) : env.Says off.chunkNdx s a := by
  rcases or_eq_some_iff.mp h with h | ⟨-, h⟩
  · exact .inl h
  · unfold symDest at h
    split at h
    case isTrue hname => exact .inr (.inr (.inr (.inr ⟨hname, h⟩)))
    case isFalse => exact .inr (.inr (.inr (.inl h)))

/-- Sources that agree give one address. -/
theorem ResolveEnv.Agrees.iff_eq (h : env.Agrees) {n : Nat} (ha : env.Says n s a) (a' : Kptr) :
    env.Says n s a' ↔ a' = a :=
  ⟨fun ha' => h n s a' a ha' ha, fun heq => heq ▸ ha⟩

variable {ρ : Type u} {sem : Sem ρ} {old : List Word}

/-- The entry is refused though it should not be, or it is resolved, and then it is right if
it should be. -/
def Outcome (sem : Sem ρ) (env : ResolveEnv) (old : List Word) (item : Item) : Prop :=
  ((item.fix env).bind (fun f => f.rewrite old) = none ∧ ¬ item.Avoids env old) ∨
    ∃ new, (item.fix env).bind (fun f => f.rewrite old) = some new ∧
      (item.Holds sem env old new ↔ item.Avoids env old)

variable {item : Item}

/-- Branches, whatever they branch to. -/
theorem outcome_of_branch (hfix : item.fix env = some (.single off (changeBranchOffset · delta)))
    (hfits : BranchFits env off old a)
    (hdelta : ∀ pc, env.absoluteAddr off = some pc → delta = (a - pc).toInt)
    (hholds : ∀ new, (∃ pc, env.absoluteAddr off = some pc ∧ BranchesTo pc old new a) →
      item.Holds sem env old new)
    (havoids : item.Avoids env old ↔ AnnulsIfFloat old) : Outcome sem env old item := by
  rw [Outcome, hfix, bind_some, havoids]
  obtain ⟨pc, w, b, hpc, rfl, hw, henc⟩ := hfits
  obtain rfl := hdelta pc hpc
  rw [annulsIfFloat_iff hw]
  obtain ⟨hnone, hok⟩ | ⟨w', hw', hup, hok⟩ := changeBranchOffset_cases hw henc
  · exact .inl ⟨by simp only [Fixup.single, hnone, map_none], hok⟩
  · have hto : BranchesTo pc [w] [w'] a := by
      exact ⟨w, b, w', _, rfl, rfl, hw, hup, add_ofInt_sub _ _⟩
    exact .inr ⟨[w'], by simp only [Fixup.single, hw', map_some],
      iff_of_true (hholds [w'] ⟨pc, hpc, hto⟩) hok⟩

/-- Entries that are always resolved. -/
theorem outcome_of_ok {f : Fixup InsnOffset Word} {new : List Word}
    (hfix : item.fix env = some f) (hnew : f.rewrite old = some new)
    (hholds : item.Holds sem env old new) (havoids : item.Avoids env old) :
    Outcome sem env old item :=
  .inr ⟨new, by rw [hfix, bind_some, hnew], iff_of_true hholds havoids⟩

theorem labelAddr_iff_eq {l : String} (h : env.labelAddr l = some a) (a' : Kptr) :
    env.labelAddr l = some a' ↔ a' = a := by
  rw [h, some.injEq, eq_comm]

theorem Item.fix_of_late (h : item.isEarly env.labels env.knownSymAddrs = false) :
    item.fix env = item.fixup env := by
  rw [fix, h, if_neg Bool.false_ne_true]

theorem Item.fix_of_early (h : item.isEarly env.labels env.knownSymAddrs = true) :
    item.fix env = item.earlyFixup env.labels env.knownSymAddrs := by
  rw [fix, if_pos h]

/-- A branch to a label gets the same displacement early and late. -/
theorem Item.fix_branchToLabel (hplaced : Placed env chunks) {l : String}
    (hoff : AtBoundary chunks off) (ha : env.labelAddr l = some a) {pc : Kptr}
    (hpc : env.absoluteAddr off = some pc) {kind : BranchKind}
    (henc : Encodable kind.dispBits (a - pc).toInt) : (branchToLabel off l).fix env =
      some (.single off (changeBranchOffset · (a - pc).toInt)) := by
  obtain ⟨labelOff, hl, habs⟩ := exists_of_bind ha
  have hlabel := hplaced.labels l labelOff hl
  have hdist : env.distanceCalc labelOff off = some (a - pc).toInt := by
    simp [distanceCalc, habs, hpc]
  by_cases hearly : off.chunkNdx = labelOff.chunkNdx
  · have hdelta : TempBufferEmitter.insnbytesDelta labelOff off = (a - pc).toInt := by
      have hsame := hplaced.distanceCalc hlabel hoff hearly.symm
      have h₁ := hplaced.byteOffset_lt hlabel
      have h₂ := hplaced.byteOffset_lt hoff
      rw [TempBufferEmitter.insnbytesDelta, toLong_of_fits (by omega) (by omega),
        toLong_of_fits (by omega) (by omega)]
      exact mem_unique hsame hdist
    rw [fix_of_early (by simp [isEarly, hl, hearly])]
    rw [earlyFixup, hl, bind_eq_bind, bind_some, hdelta, check_pos henc.1]
    rfl
  · rw [fix_of_late (by simp [isEarly, hl, hearly])]
    simp only [fixup, hl, run_do, hdist, toLong_of_encodable kind.dispBits_le henc]

theorem outcome_branchToLabel (hplaced : Placed env chunks) {l : String}
    (hoff : AtBoundary chunks off) (hfits : (branchToLabel off l).Fits env old) :
    Outcome sem env old (.branchToLabel off l) := by
  obtain ⟨a, ha, hfits⟩ := hfits
  obtain ⟨pc, w, b, hpc, hw, hb, henc⟩ := id hfits
  refine outcome_of_branch (fix_branchToLabel hplaced hoff ha hpc henc) hfits (fun pc' hpc' => ?_)
    (fun new hto => ⟨a, labelAddr_iff_eq ha, hto⟩) Iff.rfl
  rw [mem_unique hpc hpc']

/-- A branch to an address, however that is found. -/
theorem outcome_branch_late (hlate : item.isEarly env.labels env.knownSymAddrs = false)
    (hfixup : ∀ pc, env.absoluteAddr off = some pc → item.fixup env =
      some (.single off (changeBranchOffset · (toLong (a - pc).toInt))))
    (hfits : BranchFits env off old a)
    (hholds : ∀ new, (∃ pc, env.absoluteAddr off = some pc ∧ BranchesTo pc old new a) →
      item.Holds sem env old new)
    (havoids : item.Avoids env old ↔ AnnulsIfFloat old) : Outcome sem env old item := by
  obtain ⟨pc, w, b, hpc, hw, hb, henc⟩ := id hfits
  have hfix : item.fix env = some (.single off (changeBranchOffset · (a - pc).toInt)) := by
    rw [fix_of_late hlate, hfixup pc hpc, toLong_of_encodable b.kind.dispBits_le henc]
  refine outcome_of_branch hfix hfits (fun pc' hpc' => ?_) hholds havoids
  rw [mem_unique hpc hpc']

theorem differenceOk_iff {info : LabelDifference} {off₁ off₂ : InsnOffset}
    (h₁ : env.labels info.label1 = some off₁) (h₂ : env.labels info.label2 = some off₂)
    (hdist : env.distanceCalc off₁ off₂ = some delta) :
    DifferenceOk env info ↔
      if off₁.chunkNdx = off₂.chunkNdx then
        0 ≤ delta ∨ info.divideByThis = 1 ∨ 2 ^ 32 + delta < info.divideByThis.toNat
      else 0 < delta := by
  constructor
  · exact fun h => h off₁ off₂ delta h₁ h₂ hdist
  · intro h off₁' off₂' delta' h₁' h₂' hdist'
    obtain rfl := mem_unique h₁ h₁'
    obtain rfl := mem_unique h₂ h₂'
    obtain rfl := mem_unique hdist hdist'
    exact h

theorem outcome_labelDifference (hplaced : Placed env chunks) {info : LabelDifference}
    (hold : old = [0]) (hfits : (labelDifference off info).Fits env old) :
    Outcome sem env old (.labelDifference off info) := by
  subst hold
  obtain ⟨hd, delta, hdelta, -⟩ := hfits
  obtain ⟨off₁, h₁, hrest⟩ := exists_of_bind hdelta
  obtain ⟨off₂, h₂, hdist⟩ := exists_of_bind hrest
  have hb₁ := hplaced.labels _ _ h₁
  have hb₂ := hplaced.labels _ _ h₂
  -- the labels determine the distance
  have hholds : ∀ w, (labelDifference off info).Holds sem env [0] [w] ↔
      w = ofInt 32 (delta.tdiv info.divideByThis.toNat) := by
    intro w
    constructor
    · rintro ⟨delta', hdelta', hw⟩
      obtain rfl := mem_unique hdelta hdelta'
      exact head_eq_of_cons_eq hw
    · rintro rfl
      exact ⟨delta, hdelta, rfl⟩
  by_cases hearly : off₁.chunkNdx = off₂.chunkNdx
  · -- early
    have hlt₁ := hplaced.byteOffset_lt hb₁
    have hlt₂ := hplaced.byteOffset_lt hb₂
    have hsame := hplaced.distanceCalc hb₁ hb₂ hearly
    obtain rfl : delta = (off₁.byteOffset : Int) - off₂.byteOffset :=
      mem_unique hdist hsame
    have hword : ofNat 32 off₁.byteOffset - ofNat 32 off₂.byteOffset =
        ofInt 32 ((off₁.byteOffset : Int) - off₂.byteOffset) := by
      apply BitVec.eq_of_toNat_eq
      rw [toNat_ofInt, BitVec.toNat_sub, toNat_ofNat, toNat_ofNat]
      omega
    have havoids : (labelDifference off info).Avoids env [0] ↔
        0 ≤ (off₁.byteOffset : Int) - off₂.byteOffset ∨ info.divideByThis = 1 ∨
          2 ^ 32 + ((off₁.byteOffset : Int) - off₂.byteOffset) < info.divideByThis.toNat := by
      rw [Avoids, differenceOk_iff h₁ h₂ hsame, if_pos hearly]
    refine .inr ⟨[ofInt 32 ((off₁.byteOffset : Int) - off₂.byteOffset) /
      info.divideByThis], ?_, ?_⟩
    · rw [fix_of_early (by simp [isEarly, h₁, h₂, hearly])]
      simp only [earlyFixup, h₁, h₂, check_pos hd, run_do, hword]
      rfl
    · rw [hholds, havoids, udiv_eq_tdiv_iff (by omega) (by omega) hd]
  · -- late
    have hlate : (labelDifference off info).isEarly env.labels env.knownSymAddrs = false := by
      simp [isEarly, h₁, h₂, hearly]
    have havoids : (labelDifference off info).Avoids env [0] ↔ 0 < delta := by
      rw [Avoids, differenceOk_iff h₁ h₂ hdist, if_neg hearly]
    rw [Outcome, fix_of_late hlate, havoids]
    by_cases hpos : 0 < delta
    · refine .inr ⟨[ofInt 32 (delta.tdiv info.divideByThis.toNat)], ?_,
        iff_of_true ((hholds _).mpr rfl) hpos⟩
      simp only [fixup, h₁, h₂, hdist, check_pos hpos, check_pos hd, run_do]
      rfl
    · refine .inl ⟨?_, hpos⟩
      simp [fixup, h₁, h₂, hdist, check_neg hpos]

/-- **Each kind of entry.** -/
theorem outcome (hsem : KnowsAdd sem) (hplaced : Placed env chunks) (hagrees : env.Agrees)
    (hold : (item.places env.labels).mapM (offset2Insn chunks) = some old)
    (hdummies : item.Dummies old) (hfits : item.Fits env old) : Outcome sem env old item := by
  -- the words of an entry can be read
  have hread : ∀ {off : InsnOffset}, off ∈ item.places env.labels → AtBoundary chunks off := by
    intro off hoff
    obtain ⟨w, hw⟩ := isSome_iff_exists.mp (isSome_of_mapM hold off hoff)
    exact atBoundary_of_read hw
  cases item with
  | branchToLabel off l =>
    exact outcome_branchToLabel hplaced (hread (mem_cons_self ..)) hfits
  | interprocBranchToName off s =>
    obtain ⟨a, ha, hfits⟩ := hfits
    refine outcome_branch_late rfl (fun pc hpc => ?_) hfits
      (fun new hto => ⟨a, hagrees.iff_eq (says_of_branchDest ha _), hto⟩) Iff.rfl
    simp [fixup, ha, hpc]
  | interprocBranchToAddr off a =>
    refine outcome_branch_late rfl (fun pc hpc => ?_) hfits
      (fun new hto => ⟨a, fun _ => Iff.rfl, hto⟩) Iff.rfl
    simp [fixup, hpc]
  | callByName off s =>
    obtain ⟨a, ha, hfits⟩ := hfits
    obtain ⟨start, -, hpc, h4⟩ := hplaced.absoluteAddr (hread (mem_cons_self ..))
    obtain ⟨new, hnew, hto⟩ := call_rewrite (fun _ _ => rfl) hfits hpc h4 hdummies
    refine outcome_of_ok ?_ hnew ⟨a, hagrees.iff_eq (says_of_callDest ha _), _, hpc, hto⟩ trivial
    rw [fix_of_late rfl]
    simp [fixup, hpc, ha]
  | callByAddr off a =>
    obtain ⟨start, -, hpc, h4⟩ := hplaced.absoluteAddr (hread (mem_cons_self ..))
    obtain ⟨new, hnew, hto⟩ := call_rewrite (fun _ h => h) hfits hpc h4 hdummies
    refine outcome_of_ok ?_ hnew ⟨a, fun _ => Iff.rfl, _, hpc, hto⟩ trivial
    rw [fix_of_late rfl]
    simp [fixup, hpc]
  | symAddr off s =>
    obtain ⟨a, ha, hfits⟩ := hfits
    obtain ⟨new, hnew, hloads⟩ := load_rewrite sem off hfits hdummies
    refine outcome_of_ok ?_ hnew ⟨a, hagrees.iff_eq (says_of_symDest ha), hloads⟩ trivial
    -- early if the symbol is known, and otherwise late
    cases hknown : env.knownSymAddrs s with
    | some b =>
      rw [hknown, some_or] at ha
      rw [fix_of_early (by simp [isEarly, hknown]), earlyFixup, hknown, ha]
      rfl
    | none =>
      rw [hknown, none_or] at ha
      rw [fix_of_late (by simp [isEarly, hknown])]
      simp [fixup, hknown, check_pos, ha]
  | labelAddrAsData off l =>
    obtain ⟨a, ha, hfits⟩ := hfits
    obtain rfl : old = [0] := hdummies
    have hnew : (Fixup.single off fun _ => some (a.setWidth 32)).rewrite [0] =
      some [a.setWidth 32] := rfl
    refine outcome_of_ok ?_ hnew ⟨a, labelAddr_iff_eq ha, _, rfl, ?_⟩ trivial
    · rw [fix_of_late rfl]
      simp only [fixup, ha, check_pos hfits, run_do]
    · rw [BitVec.toNat_setWidth, Nat.mod_eq_of_lt hfits]
  | labelDifference off info => exact outcome_labelDifference hplaced hdummies hfits
  | labelAddr off l =>
    obtain ⟨a, ha, hfits⟩ := hfits
    obtain ⟨new, hnew, hloads⟩ := load_rewrite sem off hfits hdummies
    refine outcome_of_ok ?_ hnew ⟨a, labelAddr_iff_eq ha, hloads⟩ trivial
    rw [fix_of_late rfl]
    simp [fixup, ha]
  | backpatch info =>
    obtain ⟨a, ha, hfits⟩ := hfits
    cases hoffs : patchOffsets env.labels info.insnLocs with
    | none =>
      obtain ⟨-, w₁, w₂, rfl, -⟩ := hfits
      simp [places, emittedPlaces, patchedPlaces, hoffs] at hold
    | some offs =>
      obtain ⟨new, hnew, hloads⟩ := pair_rewrite hsem offs.1 offs.2 hfits
      refine outcome_of_ok ?_ hnew ⟨_, fun a' => ?_, hloads⟩ trivial
      · rw [fix_of_late rfl]
        simp [fixup, ha, hoffs]
      · simp [Implies, ha]

end Entries

end Kerninst
