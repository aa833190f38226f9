import Kerninst.Sparc.Generate

/-!
# Moving a pc-relative instruction

`getInformation` reads a word, and at the same time says what becomes of it when it is moved
from one address to another (`relocateInfo`). A branch or a call is built anew, with the
displacement that leads from the new address to the old target.

What is checked before a branch is built anew is the distance between the two addresses, not
the distance from the new address to the target, and `relocate` returns the result without
asking whether there was success. So the target is kept when the target can be encoded *and*
the two addresses are near each other (`relocate_keepsTarget_iff`).
-/

namespace Kerninst

open SparcInstr BitVec Option BranchKind
open BitVec (ofInt)

/-! ## Reading pc-relative instructions -/

/-- The branches, as `getInformation00` reports them; `none` where it throws, and `some none`
for `sethi` and `illtrap`. -/
def getInformation00 (w : Word) : Option (Option Branch) :=
  match field w 22 3 with
  | 0 | 4 => some none
  | 1 =>
    some <| some ⟨.bpcc (bitField w 19) (bitField w 21), field w 25 4, bitField w 29,
      signedField w 0 19 * 4⟩
  | 2 => some <| some ⟨.bicc, field w 25 4, bitField w 29, signedField w 0 22 * 4⟩
  | 3 =>
    if bitField w 28 then none else
    some <| some ⟨.bpr (bitField w 19) (regField w 14), field w 25 3, bitField w 29,
      ((field w 20 2 * 2 ^ 14 + field w 0 14 : Nat) : Int).bmod (2 ^ 16) * 4⟩
  | 5 =>
    some <| some ⟨.fbpfcc (bitField w 19) (fccField w 20), field w 25 4, bitField w 29,
      signedField w 0 19 * 4⟩
  | 6 => some <| some ⟨.fbfcc, field w 25 4, bitField w 29, signedField w 0 22 * 4⟩
  | _ => none

/-- The displacement of a call. It takes 31 bits, one too many, and wraps around as an `int`. -/
def getInformation01 (w : Word) : Int := (signedField w 0 31 * 4).bmod (2 ^ 32)

/-- The instructions whose destination is relative to the program counter. -/
inductive PcRelative
  | branch (b : Branch)
  | call (offsetNBytes : Int)
deriving DecidableEq

namespace PcRelative

def offsetNBytes : PcRelative → Int
  | .branch b => b.offsetNBytes
  | .call offset => offset

/-- The same instruction with another displacement. -/
def withOffset (p : PcRelative) (offset : Int) : PcRelative :=
  match p with
  | .branch b => .branch { b with offsetNBytes := offset }
  | .call _ => .call offset

/-- Where the instruction leads when it is at `pc`. -/
def target (p : PcRelative) (pc : Kptr) : Kptr := pc + BitVec.ofInt 64 p.offsetNBytes

end PcRelative

/-- What `getControlFlowInfo` says about a pc-relative instruction. -/
def pcRelative (w : Word) : Option PcRelative :=
  match field w 30 2 with
  | 0 => (getInformation00 w).join.map .branch
  | 1 => some (.call (getInformation01 w))
  | _ => none

/-! ## Moving -/

structure RelocateInfo where
  success : Bool
  result : Word
deriving DecidableEq

def inRangeOfBPr (fromaddr toaddr : Kptr) : Option Bool := inRangeOf fromaddr toaddr 18

def inRangeOfBPcc (fromaddr toaddr : Kptr) : Option Bool := inRangeOf fromaddr toaddr 21

/-- The range check for each kind of branch. -/
def BranchKind.inRange (kind : BranchKind) (fromaddr toaddr : Kptr) : Option Bool :=
  match kind with
  | .bicc | .fbfcc => inRangeOfBicc fromaddr toaddr
  | .bpcc .. | .fbpfcc .. => inRangeOfBPcc fromaddr toaddr
  | .bpr .. => inRangeOfBPr fromaddr toaddr

/-- The range of a call's displacement, checked between dummy addresses. -/
def inRangeOfCallDisp (displacement : Int) : Option Bool :=
  if displacement < 0 then inRangeOfCall (BitVec.ofInt 64 (-displacement)) 0
  else inRangeOfCall 0 (BitVec.ofInt 64 displacement)

/-- `sparc_instr(callandlink, displacement)` -/
def SparcInstr.callandlinkDisp (displacement : Int) : Option Word := do
  let ok ← inRangeOfCallDisp displacement
  check ok
  (dispField 30 displacement).bind fun disp30 => rollAll [(2, 1), disp30]

/-- The branch built anew. Whether `BPcc` uses `xcc` is decided by both selector bits here. -/
def rebuildBranch (w : Word) (b : Branch) (displacement : Int) : Option Word :=
  match b.kind with
  | .bicc => bicc b.condition b.annul displacement
  | .bpcc predict _ =>
    bpcc b.condition b.annul predict (bitField w 21 && !bitField w 20) displacement
  | .fbfcc => fbfcc b.condition b.annul displacement
  | .fbpfcc predict fccNum => fbpfcc b.condition b.annul predict fccNum displacement
  | .bpr predict rs1 => bpr b.condition b.annul predict rs1 displacement

/-- `old_pc + old_displacement - new_pc` -/
def newDisplacement (oldInsnaddr newInsnaddr : Kptr) (offset : Int) : Int :=
  (oldInsnaddr + BitVec.ofInt 64 offset - newInsnaddr).toInt

def relocateBranch (w : Word) (b : Branch) (oldInsnaddr newInsnaddr : Kptr) :
    Option RelocateInfo := do
  let success ← b.kind.inRange oldInsnaddr newInsnaddr
  if success then
    let result ← rebuildBranch w b (newDisplacement oldInsnaddr newInsnaddr b.offsetNBytes)
    pure ⟨true, result⟩
  else pure ⟨false, w⟩

/-- `getRelocationInfo`. Instructions that are not pc-relative stay as they are. -/
def getRelocationInfo (w : Word) (oldInsnaddr newInsnaddr : Kptr) : Option RelocateInfo :=
  match field w 30 2 with
  | 0 => do
    match ← getInformation00 w with
    | some b => relocateBranch w b oldInsnaddr newInsnaddr
    | none => pure ⟨true, w⟩
  | 1 => do
    let result ←
      callandlinkDisp (newDisplacement oldInsnaddr newInsnaddr (getInformation01 w))
    pure ⟨true, result⟩
  | _ => pure ⟨true, w⟩

def relocate (w : Word) (oldInsnaddr newInsnaddr : Kptr) : Option Word := do
  let ri ← getRelocationInfo w oldInsnaddr newInsnaddr
  pure ri.result

/-! ## What can be encoded -/

/-- How many bits count the instructions of the displacement. -/
def BranchKind.dispBits : BranchKind → Nat
  | .bicc | .fbfcc => 22
  | .bpcc .. | .fbpfcc .. => 19
  | .bpr .. => 16

def BranchKind.conditionBits : BranchKind → Nat
  | .bpr .. => 3
  | _ => 4

def PcRelative.dispBits : PcRelative → Nat
  | .branch b => b.kind.dispBits
  | .call _ => 30

/-- From `pc`, some displacement of this kind of instruction leads to `t`. -/
def PcRelative.EncodableFrom (p : PcRelative) (pc t : Kptr) : Prop :=
  ∃ d, Encodable p.dispBits d ∧ pc + BitVec.ofInt 64 d = t

theorem encodable_bmod (v : Int) (k : Nat) : Encodable (k + 1) (v.bmod (2 ^ (k + 1)) * 4) := by
  have hpos : 0 < 2 ^ (k + 1) := Nat.two_pow_pos _
  have hlo := Int.le_bmod (x := v) hpos
  have hhi := Int.bmod_lt (x := v) hpos
  have hdouble : ((2 ^ (k + 1) : Nat) : Int) = 2 * 2 ^ k := by
    push_cast
    ring
  exact ⟨Int.mul_emod_left _ _, by omega, by omega⟩

theorem encodable_signedField (w : Word) (lo k : Nat) :
    Encodable (k + 1) (signedField w lo (k + 1) * 4) :=
  encodable_bmod _ k

variable {d : Int}

/-- A displacement is the distance to its target. -/
theorem toInt_sub_of_encodable {n : Nat} (hn : n ≤ 30) (hd : Encodable n d) {pc t : Kptr}
    (ht : pc + ofInt 64 d = t) : (t - pc).toInt = d := by
  have hpow : (2 : Int) ^ (n + 1) ≤ 2 ^ 31 := pow_le_pow_right₀ (by decide) (by omega)
  obtain ⟨-, hlo, hhi⟩ := hd
  rw [← ht, BitVec.add_comm, BitVec.add_sub_cancel, BitVec.toInt_ofInt]
  apply Int.bmod_eq_of_le <;> omega

theorem PcRelative.dispBits_le (p : PcRelative) : p.dispBits ≤ 30 := by
  rcases p with ⟨_ | _ | _ | _ | _, _, _, _⟩ | _ <;>
    simp [dispBits, BranchKind.dispBits]

/-- What is encodable is what the source computes. -/
theorem PcRelative.EncodableFrom.newDisplacement {p : PcRelative} {pc pc' : Kptr} {offset : Int}
    (h : p.EncodableFrom pc' (pc + ofInt 64 offset)) :
    Encodable p.dispBits (Kerninst.newDisplacement pc pc' offset) ∧
      pc' + ofInt 64 (Kerninst.newDisplacement pc pc' offset) =
        pc + ofInt 64 offset := by
  obtain ⟨d, hd, ht⟩ := h
  have heq : Kerninst.newDisplacement pc pc' offset = d :=
    toInt_sub_of_encodable p.dispBits_le hd ht
  rw [heq]
  exact ⟨hd, ht⟩

/-! ## Reading what was read and built -/

/-- The call's displacement: the bit too many is always set, and its weight is cut off. -/
theorem getInformation01_eq {w : Word} (hop : field w 30 2 = 1) :
    getInformation01 w = signedField w 0 30 * 4 := by
  have hbit : field w 30 1 = 1 := by
    rw [field_mod w 30 (by decide : 1 ≤ 2), hop]
    rfl
  have hjoin : field w 0 31 = 2 ^ 30 + field w 0 30 := by
    have hhigh : field w 30 1 = field w 0 31 / 2 ^ 30 := field_succ w 0 30
    have hlow : field w 0 30 = field w 0 31 % 2 ^ 30 := field_mod w 0 (by decide)
    omega
  have hlt := field_lt w 0 30
  rw [getInformation01, signedField, signedField, hjoin]
  generalize field w 0 30 = f at hlt ⊢
  simp only [Int.bmod_def]
  split_ifs <;> omega

variable {b : Branch}

theorem getInformation00_spec {w : Word} (h : getInformation00 w = some (some b)) :
    Encodable b.kind.dispBits b.offsetNBytes ∧ b.condition < 2 ^ b.kind.conditionBits ∧
      ∀ predict xcc, b.kind = .bpcc predict xcc → bitField w 21 = xcc := by
  unfold getInformation00 at h
  split at h
  all_goals try split at h
  all_goals simp only [some.injEq, reduceCtorEq] at h
  all_goals subst h
  · refine ⟨encodable_signedField w 0 18, field_lt w 25 4, fun _ _ hkind => ?_⟩
    cases hkind
    rfl
  · exact ⟨encodable_signedField w 0 21, field_lt w 25 4, by simp⟩
  · exact ⟨encodable_bmod _ 15, field_lt w 25 3, by simp⟩
  · exact ⟨encodable_signedField w 0 18, field_lt w 25 4, by simp⟩
  · exact ⟨encodable_signedField w 0 21, field_lt w 25 4, by simp⟩

theorem pcRelative_branch_iff {w : Word} : pcRelative w = some (.branch b) ↔
      field w 30 2 = 0 ∧ getInformation00 w = some (some b) := by
  unfold pcRelative
  split
  case h_1 hop => simp [hop, join_eq_some_iff]
  case h_2 hop => simp [hop]
  case h_3 hop _ => simp [show ¬ field w 30 2 = 0 from hop]

theorem pcRelative_branch {w : Word} (hop : field w 30 2 = 0)
    (h : getInformation00 w = some (some b)) : pcRelative w = some (.branch b) :=
  pcRelative_branch_iff.mpr ⟨hop, h⟩

/-- The kind of the branch that is built anew. -/
def BranchKind.rebuilt (w : Word) : BranchKind → BranchKind
  | .bpcc predict _ => .bpcc predict (bitField w 21 && !bitField w 20)
  | kind => kind

/-- **Building anew** gives the branch it should, if the displacement can be encoded. -/
theorem rebuildBranch_spec (w : Word)
    (hcond : b.condition < 2 ^ b.kind.conditionBits) (hd : Encodable b.kind.dispBits d) :
    ∃ w', rebuildBranch w b d = some w' ∧
      pcRelative w' = some (.branch ⟨b.kind.rebuilt w, b.condition, b.annul, d⟩) := by
  obtain ⟨kind, cond, annul, offset⟩ := b
  cases kind with
  | bicc =>
    obtain ⟨w', hw', hop, hop2, hc, ha, hdisp⟩ :=
      oldBranch_spec annul (by decide : 2 < 8) hcond hd
    refine ⟨w', hw', pcRelative_branch hop ?_⟩
    simp [getInformation00, hop2, hc, ha, hdisp, rebuilt]
  | fbfcc =>
    obtain ⟨w', hw', hop, hop2, hc, ha, hdisp⟩ :=
      oldBranch_spec annul (by decide : 6 < 8) hcond hd
    refine ⟨w', hw', pcRelative_branch hop ?_⟩
    simp [getInformation00, hop2, hc, ha, hdisp, rebuilt]
  | bpcc predict xcc =>
    have hcc : (if bitField w 21 && !bitField w 20 then 2 else 0) < 4 := by split <;> decide
    obtain ⟨w', hw', hop, hop2, hc, ha, hcc', hp, hdisp⟩ :=
      predictedBranch_spec annul predict (by decide : 1 < 8) hcc hcond hd
    have hcc1 : bitField w' 21 = (bitField w 21 && !bitField w 20) := bitField_eq (by
      rw [field_succ w' 20 1, hcc']
      cases bitField w 21 && !bitField w 20 <;> rfl)
    refine ⟨w', hw', pcRelative_branch hop ?_⟩
    simp [getInformation00, hop2, hc, ha, hp, hcc1, hdisp, rebuilt]
  | fbpfcc predict fccNum =>
    obtain ⟨w', hw', hop, hop2, hc, ha, hcc, hp, hdisp⟩ :=
      predictedBranch_spec annul predict (by decide : 5 < 8) fccNum.isLt hcond hd
    refine ⟨w', hw', pcRelative_branch hop ?_⟩
    simp [getInformation00, hop2, hc, ha, hp, hcc, hdisp, rebuilt]
  | bpr predict rs1 =>
    obtain ⟨w', hw', hop, hop2, hbit28, hc, ha, hp, hr, hdisp⟩ :=
      bpr_fields annul predict rs1 hcond hd
    refine ⟨w', hw', pcRelative_branch hop ?_⟩
    simp only [getInformation00, hop2, hbit28, hc, ha, hp, hr, hdisp, rebuilt,
      Bool.false_eq_true, if_false]

theorem toNat_ofInt_of_nonneg {v : Int} (hv : 0 ≤ v) (hv' : v < 2 ^ 63) :
    (ofInt 64 v).toNat = v.toNat := by
  rw [toNat_ofInt, Int.emod_eq_of_lt hv (by omega)]

/-- What the assertion on the dummy addresses says. -/
theorem inRangeOfCallDisp_eq (hlo : -2 ^ 62 < d) (hhi : d < 2 ^ 62) :
    inRangeOfCallDisp d = some (decide (-2 ^ 31 ≤ d ∧ d < 2 ^ 31)) := by
  have hzero : (0 : Kptr).toNat = 0 := rfl
  rw [inRangeOfCallDisp]
  split
  · have hfrom := toNat_ofInt_of_nonneg (v := -d) (by omega) (by omega)
    refine (inRangeOf_eq_some (le_refl 32)).mpr ⟨by omega, ?_⟩
    rw [decide_eq_true_iff, InReach, hfrom, hzero]
    omega
  · have hto := toNat_ofInt_of_nonneg (v := d) (by omega) (by omega)
    refine (inRangeOf_eq_some (le_refl 32)).mpr ⟨by omega, ?_⟩
    rw [decide_eq_true_iff, InReach, hto, hzero]
    omega

theorem callandlinkDisp_spec (hd : Encodable 30 d) :
    ∃ w', callandlinkDisp d = some w' ∧ pcRelative w' = some (.call d) := by
  obtain ⟨w', hw', hop, hdisp⟩ := call_fields hd
  obtain ⟨-, hlo, hhi⟩ := hd
  refine ⟨w', ?_, ?_⟩
  · rw [callandlinkDisp, inRangeOfCallDisp_eq (by omega) (by omega), decide_eq_true ⟨hlo, hhi⟩]
    exact hw'
  · simp [pcRelative, hop, getInformation01_eq hop, hdisp]

/-! ## The target -/

/-- Moving `w` from `old` to `new` keeps the target: what is reported as a success is the same
instruction with the displacement to the same target, failure is reported exactly when there
is no such displacement, and the instruction returned has no other target. -/
structure KeepsTarget (w : Word) (p : PcRelative) (old new : Kptr) : Prop where
  reports : ∃ info, getRelocationInfo w old new = some info
  kept : ∀ info, getRelocationInfo w old new = some info → info.success = true →
    ∃ d, pcRelative info.result = some (p.withOffset d) ∧
      (p.withOffset d).target new = p.target old
  fails_iff : ∀ info, getRelocationInfo w old new = some info →
    (info.success = false ↔ ¬ p.EncodableFrom new (p.target old))
  relocated : ∀ r p', relocate w old new = some r → pcRelative r = some p' →
    p'.target new = p.target old

/-- The check that is made before a branch is built anew. -/
def PcRelative.RangeChecked (p : PcRelative) (old new : Kptr) : Prop :=
  match p with
  | .branch b => b.kind.inRange old new = some true
  | .call _ => True

/-- `BPcc` with both selector bits set, which is reserved. -/
def PcRelative.ReservedSelector (p : PcRelative) (w : Word) : Prop :=
  match p with
  | .branch ⟨.bpcc .., _, _, _⟩ => field w 20 2 = 3
  | _ => False

section Moving

variable {w : Word} {old new : Kptr}

theorem getRelocationInfo_branch (old new : Kptr) (hw : pcRelative w = some (.branch b)) :
    getInformation00 w = some (some b) ∧
      getRelocationInfo w old new = relocateBranch w b old new := by
  obtain ⟨hop, hb⟩ := pcRelative_branch_iff.mp hw
  exact ⟨hb, by simp [getRelocationInfo, hop, hb]⟩

theorem getRelocationInfo_call (old new : Kptr) {offset : Int}
    (hw : pcRelative w = some (.call offset)) :
    Encodable 30 offset ∧ getRelocationInfo w old new =
      (callandlinkDisp (newDisplacement old new offset)).map fun r => ⟨true, r⟩ := by
  unfold pcRelative at hw
  split at hw
  case h_2 hop =>
    obtain rfl : getInformation01 w = offset := by simpa using hw
    refine ⟨?_, ?_⟩
    · rw [getInformation01_eq hop]
      exact encodable_signedField w 0 29
    · simp only [getRelocationInfo, hop, map_eq_bind, bind_eq_bind]
      rfl
  all_goals simp at hw

variable {info : RelocateInfo}

/-- What moving a branch can report. -/
theorem relocateBranch_cases (h : relocateBranch w b old new = some info) :
    (b.kind.inRange old new = some true ∧ info.success = true ∧
      rebuildBranch w b (newDisplacement old new b.offsetNBytes) = some info.result) ∨
    (b.kind.inRange old new = some false ∧ info = ⟨false, w⟩) := by
  simp only [relocateBranch, do_eq_some] at h
  obtain ⟨success, hrange, h⟩ := h
  cases success with
  | false => exact .inr ⟨hrange, by simpa using h.symm⟩
  | true =>
    simp only [if_true, do_eq_some] at h
    obtain ⟨r, hr, rfl⟩ := h
    exact .inl ⟨hrange, rfl, hr⟩

theorem relocate_of_info (h : getRelocationInfo w old new = some info) :
    relocate w old new = some info.result := by
  rw [relocate, h]
  rfl

variable {p : PcRelative}

/-- The displacement an instruction has can be encoded. -/
theorem encodable_offsetNBytes (hw : pcRelative w = some p) :
    Encodable p.dispBits p.offsetNBytes := by
  cases p with
  | branch b =>
    exact (getInformation00_spec (getRelocationInfo_branch 0 0 hw).1).1
  | call offset => exact (getRelocationInfo_call 0 0 hw).1

/-- After a failure the word is the old one. -/
theorem result_of_failure (hw : pcRelative w = some p)
    (hinfo : getRelocationInfo w old new = some info) (hfail : info.success = false) :
    info.result = w := by
  cases p with
  | branch b =>
    rw [(getRelocationInfo_branch _ _ hw).2] at hinfo
    obtain ⟨-, hs, -⟩ | ⟨-, rfl⟩ := relocateBranch_cases hinfo
    · rw [hs] at hfail
      cases hfail
    · rfl
  | call offset =>
    rw [(getRelocationInfo_call _ _ hw).2, map_eq_some_iff] at hinfo
    obtain ⟨r, -, rfl⟩ := hinfo
    cases hfail

/-- What cannot be encoded is never handled right: `relocate` would have to return an
instruction with another target. -/
theorem KeepsTarget.encodableFrom (hw : pcRelative w = some p) (h : KeepsTarget w p old new) :
    p.EncodableFrom new (p.target old) := by
  by_contra hne
  obtain ⟨info, hinfo⟩ := h.reports
  have hfail : info.success = false := (h.fails_iff info hinfo).mpr hne
  have hresult := relocate_of_info hinfo
  rw [result_of_failure hw hinfo hfail] at hresult
  have htarget : p.target new = p.target old := h.relocated w p hresult hw
  exact hne ⟨p.offsetNBytes, encodable_offsetNBytes hw, htarget⟩

/-- A success with the right displacement. -/
theorem keepsTarget_of_info {w' : Word} (henc : p.EncodableFrom new (p.target old))
    (hinfo : getRelocationInfo w old new = some ⟨true, w'⟩)
    (hread : pcRelative w' = some (p.withOffset d)) (ht : new + ofInt 64 d = p.target old) :
    KeepsTarget w p old new := by
  have htarget : (p.withOffset d).target new = p.target old := by cases p <;> exact ht
  have hunique : ∀ info, getRelocationInfo w old new = some info → info = ⟨true, w'⟩ :=
    fun info h => mem_unique h hinfo
  refine ⟨⟨_, hinfo⟩, ?_, ?_, ?_⟩
  · rintro info h -
    rw [hunique info h]
    exact ⟨d, hread, htarget⟩
  · intro info h
    simp [hunique info h, henc]
  · intro r p' hr hp'
    obtain rfl : w' = r := some.inj ((relocate_of_info hinfo).symm.trans hr)
    rw [hread] at hp'
    rw [← some.inj hp', htarget]

/-- Building anew keeps the kind, unless both selector bits are set. -/
theorem rebuilt_eq_iff (hb : getInformation00 w = some (some b)) :
    b.kind.rebuilt w = b.kind ↔ ¬ (PcRelative.branch b).ReservedSelector w := by
  obtain ⟨-, -, hxcc⟩ := getInformation00_spec hb
  obtain ⟨kind, cond, annul, offset⟩ := b
  cases kind with
  | bpcc predict xcc =>
    have hcc1 : field w 21 1 = field w 20 2 / 2 := field_succ w 20 1
    have hcc0 : field w 20 1 = field w 20 2 % 2 := field_mod w 20 (by decide)
    have hlt := field_lt w 20 2
    have hkind : bitField w 21 = xcc := hxcc predict xcc rfl
    rw [rebuilt, PcRelative.ReservedSelector, bpcc.injEq, ← hkind, bitField, bitField, hcc1, hcc0]
    have hcases : field w 20 2 = 0 ∨ field w 20 2 = 1 ∨ field w 20 2 = 2 ∨ field w 20 2 = 3 := by
      omega
    rcases hcases with h | h | h | h <;> simp [h]
  | _ => simp [rebuilt, PcRelative.ReservedSelector]

theorem branch_keepsTarget_iff (hw : pcRelative w = some (.branch b)) :
    KeepsTarget w (.branch b) old new ↔
      (PcRelative.branch b).EncodableFrom new ((PcRelative.branch b).target old) ∧
        b.kind.inRange old new = some true ∧ ¬ (PcRelative.branch b).ReservedSelector w := by
  obtain ⟨hb, heq⟩ := getRelocationInfo_branch old new hw
  obtain ⟨-, hcond, -⟩ := getInformation00_spec hb
  constructor
  · intro h
    have henc := h.encodableFrom hw
    obtain ⟨info, hinfo⟩ := h.reports
    obtain ⟨hrange, hs, hr⟩ | ⟨-, rfl⟩ := relocateBranch_cases (heq ▸ hinfo)
    · refine ⟨henc, hrange, (rebuilt_eq_iff hb).mp ?_⟩
      obtain ⟨w', hw', hread⟩ := rebuildBranch_spec w hcond henc.newDisplacement.1
      obtain ⟨d, hkept, -⟩ := h.kept info hinfo hs
      obtain rfl : info.result = w' := mem_unique hr hw'
      rw [hread] at hkept
      exact congrArg Branch.kind (PcRelative.branch.inj (some.inj hkept))
    · exact absurd henc ((h.fails_iff _ hinfo).mp rfl)
  · rintro ⟨henc, hrange, hres⟩
    obtain ⟨hd, ht⟩ := henc.newDisplacement
    rw [PcRelative.offsetNBytes] at hd ht
    obtain ⟨w', hw', hread⟩ := rebuildBranch_spec w hcond hd
    have hinfo : getRelocationInfo w old new = some ⟨true, w'⟩ := by
      rw [heq]
      simp [relocateBranch, hrange, hw']
    rw [(rebuilt_eq_iff hb).mpr hres] at hread
    exact keepsTarget_of_info henc hinfo hread ht

theorem call_keepsTarget_iff {offset : Int} (hw : pcRelative w = some (.call offset)) :
    KeepsTarget w (.call offset) old new ↔
      (PcRelative.call offset).EncodableFrom new ((PcRelative.call offset).target old) := by
  refine ⟨fun h => h.encodableFrom hw, fun henc => ?_⟩
  obtain ⟨hd, ht⟩ := henc.newDisplacement
  rw [PcRelative.offsetNBytes] at hd ht
  obtain ⟨w', hw', hread⟩ := callandlinkDisp_spec hd
  have hinfo : getRelocationInfo w old new = some ⟨true, w'⟩ := by
    rw [(getRelocationInfo_call _ _ hw).2, hw', map_some]
  exact keepsTarget_of_info henc hinfo hread ht

/-- **Moving keeps the target** exactly when the target can be encoded, the check between the
two addresses passes, and the selector bits are not the reserved ones. -/
theorem relocate_keepsTarget_iff (hw : pcRelative w = some p) :
    KeepsTarget w p old new ↔
      p.EncodableFrom new (p.target old) ∧ p.RangeChecked old new ∧ ¬ p.ReservedSelector w := by
  cases p with
  | branch b => exact branch_keepsTarget_iff hw
  | call offset =>
    rw [call_keepsTarget_iff hw]
    simp [PcRelative.RangeChecked, PcRelative.ReservedSelector]

/-- `ba` to an address sixteen bytes ahead, moved by 256 bytes. -/
theorem relocate_keepsTarget_ba :
    KeepsTarget 0x10800004 (.branch ⟨.bicc, 8, false, 16⟩) 0x1000000 0x1000100 :=
  (relocate_keepsTarget_iff (by decide)).mpr ⟨⟨-240, by decide, by decide⟩,
      show bicc.inRange 0x1000000 0x1000100 = some true by decide, fun h => h⟩

/-- `brz,pt %o0` to the farthest address ahead, moved back by 64K: this is reported as a
success, and the branch now leads backwards. -/
theorem relocate_bpr_other_target :
    pcRelative 0x02DA3FFF = some (.branch ⟨.bpr true 8, 1, false, 0x1FFFC⟩) ∧
      getRelocationInfo 0x02DA3FFF 0x1020000 0x1010000 = some ⟨true, 0x02EA3FFF⟩ ∧
      ¬ KeepsTarget 0x02DA3FFF (.branch ⟨.bpr true 8, 1, false, 0x1FFFC⟩) 0x1020000 0x1010000 := by
  refine ⟨by decide, by decide, fun h => ?_⟩
  have htarget := h.relocated 0x02EA3FFF (.branch ⟨.bpr true 8, 1, false, -0x10004⟩)
    (by decide) (by decide)
  revert htarget
  decide

end Moving

/-! ## Calls -/

section Calls

/-- `isCallInstr`: the displacement, read with as many bits as it has. -/
def SparcInstr.isCallInstr (w : Word) : Option Int :=
  if field w 30 2 = 1 then some (signedField w 0 30 * 4) else none

/-- Both ways to read the word say that it calls `dst` from `pc`. -/
def ReadsAsCallTo (w : Word) (pc dst : Kptr) : Prop :=
  ∃ d, pcRelative w = some (.call d) ∧ isCallInstr w = some d ∧
    (pc.toNat + d) % 2 ^ 32 = dst.toNat

variable {w : Word} {pc dst : Kptr}

theorem isCallInstr_of_pcRelative (h : pcRelative w = some (.call d)) : isCallInstr w = some d := by
  unfold pcRelative at h
  split at h
  case h_2 hop =>
    rw [isCallInstr, if_pos hop, ← getInformation01_eq hop]
    simpa using h
  all_goals simp at h

theorem toInt_sub_of_lt (hpc : pc.toNat < 2 ^ 32) (hdst : dst.toNat < 2 ^ 32) :
    (dst - pc).toInt = (dst.toNat : Int) - pc.toNat := by
  rw [toInt_eq_toNat_cond, toNat_sub]
  split <;> omega

theorem readsAsCallTo_of_read (hpc : pc.toNat < 2 ^ 32) (hdst : dst.toNat < 2 ^ 32)
    (h : pcRelative w = some (.call (dst - pc).toInt)) : ReadsAsCallTo w pc dst := by
  have hd := toInt_sub_of_lt hpc hdst
  exact ⟨_, h, isCallInstr_of_pcRelative h, by omega⟩

/-- The call to a displacement is built exactly if the displacement reaches. -/
theorem callandlinkDisp_iff (hpc : pc.toNat < 2 ^ 32) (hdst : dst.toNat < 2 ^ 32)
    (hpc4 : pc.toNat % 4 = 0) (hdst4 : dst.toNat % 4 = 0) :
    (callandlinkDisp (dst - pc).toInt = none ↔ ¬ InReach 32 pc dst) ∧
    ∀ w, callandlinkDisp (dst - pc).toInt = some w →
      pcRelative w = some (.call (dst - pc).toInt) := by
  have hd := toInt_sub_of_lt hpc hdst
  by_cases hreach : InReach 32 pc dst
  · obtain ⟨hlo, hhi⟩ := id hreach
    obtain ⟨w, hw, hread⟩ := callandlinkDisp_spec (d := (dst - pc).toInt)
      ⟨by omega, by omega, by omega⟩
    rw [hw]
    refine ⟨⟨nofun, fun h => absurd hreach h⟩, fun w' hw' => ?_⟩
    exact some.inj hw' ▸ hread
  · rw [callandlinkDisp, inRangeOfCallDisp_eq (by omega) (by omega),
      decide_eq_false fun h => hreach ⟨by omega, by omega⟩]
    exact ⟨⟨fun _ => hreach, fun _ => rfl⟩, nofun⟩

/-- Between such addresses the range check makes no difference: a call is the call to the
displacement. -/
theorem callandlink_eq_disp (hpc : pc.toNat < 2 ^ 32) (hdst : dst.toNat < 2 ^ 32) :
    callandlink dst pc = callandlinkDisp (dst - pc).toInt := by
  have hd := toInt_sub_of_lt hpc hdst
  have hsame : inRangeOfCall pc dst = inRangeOfCallDisp (dst - pc).toInt := by
    rw [inRangeOfCallDisp_eq (by omega) (by omega)]
    refine (inRangeOf_eq_some (le_refl 32)).mpr ⟨by omega, ?_⟩
    rw [decide_eq_true_iff, InReach]
    omega
  rw [callandlink, callandlinkDisp, hsame]
  rfl

/-- **Call displacements agree.** For addresses of 32 bits that a call can bridge, the call that
is built reads as a call to its destination in both ways, and so does the call after it was moved
to any other address that it can be reached from. Where the distance is too far, an assertion
fails. -/
theorem callandlink_readsAsCallTo (src dst : Kptr) (hsrc : src.toNat < 2 ^ 32 ∧ src.toNat % 4 = 0)
    (hdst : dst.toNat < 2 ^ 32 ∧ dst.toNat % 4 = 0) :
    (callandlink dst src = none ↔ ¬ InReach 32 src dst) ∧
    ∀ w, callandlink dst src = some w → ReadsAsCallTo w src dst ∧
      ∀ new : Kptr, new.toNat < 2 ^ 32 → new.toNat % 4 = 0 →
        (relocate w src new = none ↔ ¬ InReach 32 new dst) ∧
        ∀ w', relocate w src new = some w' → ReadsAsCallTo w' new dst := by
  rw [callandlink_eq_disp hsrc.1 hdst.1]
  obtain ⟨hnone, hread⟩ := callandlinkDisp_iff hsrc.1 hdst.1 hsrc.2 hdst.2
  refine ⟨hnone, fun w hw =>
    ⟨readsAsCallTo_of_read hsrc.1 hdst.1 (hread w hw), fun new hnew hnew4 => ?_⟩⟩
  have hmoved : relocate w src new = callandlinkDisp (dst - new).toInt := by
    rw [relocate, (getRelocationInfo_call src new (hread w hw)).2, newDisplacement, add_ofInt_sub]
    cases callandlinkDisp (dst - new).toInt <;> rfl
  rw [hmoved]
  obtain ⟨hnone', hread'⟩ := callandlinkDisp_iff hnew hdst.1 hnew4 hdst.2
  exact ⟨hnone', fun w' hw' => readsAsCallTo_of_read hnew hdst.1 (hread' w' hw')⟩

/-- A call from 0x1000 to 0x2000, moved to 0x3000. -/
theorem callandlink_readsAsCallTo_near :
    ∃ w w', callandlink 0x2000 0x1000 = some w ∧ ReadsAsCallTo w 0x1000 0x2000 ∧
      relocate w 0x1000 0x3000 = some w' ∧ ReadsAsCallTo w' 0x3000 0x2000 := by
  have hw : callandlink 0x2000 0x1000 = some 0x40000400 := by decide
  have hw' : relocate 0x40000400 0x1000 0x3000 = some 0x7FFFFC00 := by decide
  obtain ⟨hcalls, hmoved⟩ :=
    (callandlink_readsAsCallTo 0x1000 0x2000 (by decide) (by decide)).2 _ hw
  exact ⟨_, _, hw, hcalls, hw', (hmoved 0x3000 (by decide) (by decide)).2 _ hw'⟩

/-- From address 0, a call to 0xC0000000 trips an assertion. Modulo `2 ^ 32` it is only
0x40000000 bytes away. -/
theorem callandlink_far : callandlink 0xC0000000 0 = none := by
  decide

end Calls

end Kerninst
