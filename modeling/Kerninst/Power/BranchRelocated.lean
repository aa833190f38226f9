import Kerninst.Power.Branch

/-!
# Relocated branches do what the original ones do

The code at the patch address is compared with the branch at the launch site: where it goes, what
it leaves in the count register and in the link register (`Preserves`). It is right in exactly the
cases of `Relocatable`.

* A `b` that is moved is right whenever it is moved, and so is any absolute branch.
* A `bc` that is moved is right if its new displacement has 16 bits (`Moved`). The code only asks
  for a distance of 18 bits. A displacement of 17 bits that is positive passes the check of
  `simmediate<14>` and becomes negative.
* A `bc` that is not moved becomes a short `bc` around a jump back (`run_long`). The jump after
  it links, but the short `bc` does not. So the link register is not set when the original is not
  taken.
-/

namespace Kerninst.Power

open PowerInstr CondBranchLRAndR List BitVec Option Relation Power.Branch
open BitVec (ofNat ofInt add_comm toNat_ofInt)
open Bool (toNat_lt false_eq_true)

/-! ## What is built decodes to what it was built from -/

/-- The displacement between the addresses has `n` bits. -/
def FitsSigned (n : Nat) (pc t : Kptr) : Prop :=
  -2 ^ (n - 1) ≤ (t - pc).toInt ∧ (t - pc).toInt < 2 ^ (n - 1)

instance (n : Nat) (pc t : Kptr) : Decidable (FitsSigned n pc t) :=
  inferInstanceAs (Decidable (_ ∧ _))

theorem fitsSigned_of_inRangeOf {n : Nat} (hn : n ≤ 32) {pc t : Kptr}
    (h : inRangeOf pc t n = some true) : FitsSigned n pc t := by
  have hreach := inReach_of_inRangeOf hn h
  have hsub := toInt_sub_of_inReach hn hreach
  obtain ⟨h₁, h₂⟩ := hreach
  have hcast : ((2 ^ (n - 1) : Nat) : Int) = 2 ^ (n - 1) := by push_cast; rfl
  rw [FitsSigned, hsub]
  omega

theorem toSigned_eq_bmod (d : Kptr) : toSigned d = d.toInt.bmod (2 ^ 32) := by
  rw [toSigned, toInt_setWidth, toInt_eq_toNat_bmod, Int.bmod_bmod_of_dvd (by decide)]

theorem toSigned_eq {d : Kptr} (hlo : -2 ^ 31 ≤ d.toInt) (hhi : d.toInt < 2 ^ 31) :
    toSigned d = d.toInt := by
  rw [toSigned_eq_bmod]
  apply Int.bmod_eq_of_le <;> omega

/-- The displacement between two instructions. -/
theorem exists_four_mul_eq_toInt_sub {pc t : Kptr} (hpc : pc.toNat % 4 = 0) (ht : t.toNat % 4 = 0) :
    ∃ v, (t - pc).toInt = 4 * v := by
  have hmod : (t - pc).toInt % 4 = 0 := by
    rw [toInt_eq_toNat_cond, toNat_sub]
    split <;> omega
  exact ⟨(t - pc).toInt / 4, by omega⟩

variable {v : Int}

/-- A field of `n` bits that holds the lowest bits of a number. -/
theorem signedField_eq_bmod {w : Word} {p n : Nat} (h : field w p n = (v % 2 ^ n).toNat) :
    signedField w p n = v.bmod (2 ^ n) := by
  rw [signedField, h, Int.toNat_of_nonneg (Int.emod_nonneg v (by positivity))]
  exact_mod_cast Int.emod_bmod v (2 ^ n)

/-- A positive displacement may use all the bits of its field, and is then read as negative. -/
theorem branch_spec (hlo : -2 ^ 23 ≤ v) (hhi : v < 2 ^ 24) (aa lk : Bool) :
    ∃ w, branch (4 * v) aa lk = some w ∧
      decodeBranch w = some ⟨boAlways, 0, 4 * v.bmod (2 ^ 24), aa, lk⟩ := by
  have hrange : simmInRange 24 v := by
    simp only [simmInRange]
    split <;> omega
  rw [branch, Int.mul_tdiv_cancel_left v (by decide), simm_of_inRange (by decide) (by omega) hrange]
  refine rollAll_spec ?_ (by simp [flag]) fun w hs => ?_
  · simp only [forall_mem_cons]
    exact ⟨by decide, emod_toNat_lt v 24, toNat_lt aa, toNat_lt lk, by simp⟩
  have hop : opcd w = 18 := hs.get 0 rfl
  have hli : signedField w 2 24 = v.bmod (2 ^ 24) := signedField_eq_bmod (hs.get 1 rfl)
  have haa : PowerInstr.aa w = aa := bitField_eq (hs.get 2 rfl)
  have hlk : PowerInstr.lk w = lk := bitField_eq (hs.get 3 rfl)
  simp [decodeBranch, hop, getLi24, hli, haa, hlk]

theorem branchcond_spec {bo bi : Nat} (hbo : bo < 32) (hbi : bi < 32)
    (hlo : -2 ^ 13 ≤ v) (hhi : v < 2 ^ 14) (aa lk : Bool) :
    ∃ w, branchcond bo bi (4 * v) aa lk = some w ∧
      decodeBranch w = some ⟨bo, bi, 4 * v.bmod (2 ^ 14), aa, lk⟩ := by
  have hrange : simmInRange 14 v := by
    simp only [simmInRange]
    split <;> omega
  rw [branchcond, Int.mul_tdiv_cancel_left v (by decide),
    simm_of_inRange (by decide) (by omega) hrange]
  refine rollAll_spec ?_ (by simp [flag]) fun w hs => ?_
  · simp only [forall_mem_cons]
    exact ⟨by decide, hbo, hbi, emod_toNat_lt v 14, toNat_lt aa, toNat_lt lk, by simp⟩
  have hop : opcd w = 16 := hs.get 0 rfl
  have hbo' : getBOField w = bo := hs.get 1 rfl
  have hbi' : getBIField w = bi := hs.get 2 rfl
  have hbd : signedField w 2 14 = v.bmod (2 ^ 14) := signedField_eq_bmod (hs.get 3 rfl)
  have haa : PowerInstr.aa w = aa := bitField_eq (hs.get 4 rfl)
  have hlk : PowerInstr.lk w = lk := bitField_eq (hs.get 5 rfl)
  simp [decodeBranch, hop, hbo', hbi', getBd14, hbd, haa, hlk]

theorem branchcond_eq_none {bo bi : Nat} (hlo : -2 ^ 31 ≤ v) (hhi : v < 2 ^ 31)
    (h : v < -2 ^ 13 ∨ 2 ^ 14 ≤ v) (aa lk : Bool) : branchcond bo bi (4 * v) aa lk = none := by
  have hrange : ¬ simmInRange 14 (toLong v) := by
    rw [toLong_of_fits hlo hhi, simmInRange]
    split <;> omega
  rw [branchcond, Int.mul_tdiv_cancel_left v (by decide), simm, check_neg hrange]
  rfl

/-- The jump from `pc` to `t`. -/
def jumpTo (pc t : Kptr) (lk : Bool) : Branch := ⟨boAlways, 0, (t - pc).toInt, false, lk⟩

theorem branch_jumpTo {pc t : Kptr} (hpc : pc.toNat % 4 = 0) (ht : t.toNat % 4 = 0)
    (hfit : FitsSigned 26 pc t) (lk : Bool) :
    ∃ w, branch (toSigned (t - pc)) false lk = some w ∧ decodeBranch w = some (jumpTo pc t lk) := by
  obtain ⟨hlo, hhi⟩ := hfit
  obtain ⟨v, hv⟩ := exists_four_mul_eq_toInt_sub hpc ht
  obtain ⟨w, hw, hd⟩ := branch_spec (v := v) (by omega) (by omega) false lk
  rw [Int.bmod_eq_of_le (by omega) (by omega)] at hd
  rw [toSigned_eq (by omega) (by omega), jumpTo, hv]
  exact ⟨w, hw, hd⟩

variable {s : Cpu}

/-! ## What branches do -/

namespace Branch

/-- Neither the condition bit nor the count register matters. -/
def isAlways (b : Branch) : Bool := b.bo.testBit 4 && b.bo.testBit 2

theorem isAlways_boAlways (bi : Nat) (disp : Int) (aa lk : Bool) :
    isAlways ⟨boAlways, bi, disp, aa, lk⟩ = true := by
  change (boAlways.testBit 4 && boAlways.testBit 2) = true
  decide

/-- What `getControlFlowInfo` says of it. -/
def cfi (b : Branch) : PowerCfi := ⟨b.isAlways, !b.aa, b.lk, b.disp⟩

variable {b : Branch}

theorem taken_of_isAlways (h : b.isAlways = true) (s : Cpu) : b.taken s = true := by
  obtain ⟨h4, h2⟩ : b.bo.testBit 4 = true ∧ b.bo.testBit 2 = true := by
    simpa [isAlways] using h
  simp [taken, h4, h2]

theorem ctrAfter_of_isAlways (h : b.isAlways = true) (ctr : BitVec 64) : b.ctrAfter ctr = ctr := by
  obtain ⟨-, h2⟩ : b.bo.testBit 4 = true ∧ b.bo.testBit 2 = true := by
    simpa [isAlways] using h
  simp [ctrAfter, h2]

theorem exec_pc_of_taken (h : b.taken s = true) : (b.exec s).pc = b.target s.pc := by
  simp [exec, h]

theorem exec_pc_of_not_taken (h : b.taken s = false) : (b.exec s).pc = s.pc + 4 := by
  simp [exec, h]

/-- The condition register all of whose bits are the given one. -/
def allBits (v : Bool) : BitVec 32 := if v then ~~~0 else 0

theorem getMsbD_allBits {i : Nat} (hi : i < 32) (v : Bool) : (allBits v).getMsbD i = v := by
  cases v with
  | false => simp [allBits]
  | true => rw [allBits, if_pos rfl, getMsbD_not]; simp [hi]

/-- Every branch is taken in some state. -/
theorem exists_taken (hbi : b.bi < 32) (pc lr : Kptr) :
    ∃ ctr cr, b.taken ⟨pc, lr, ctr, cr⟩ = true := by
  refine ⟨if b.bo.testBit 1 then 1 else 2, allBits (b.bo.testBit 3), ?_⟩
  simp only [taken, ctrAfter, getMsbD_allBits hbi]
  cases b.bo.testBit 2 <;> cases b.bo.testBit 1 <;> simp

/-- A branch that has a condition is not taken in some state. -/
theorem exists_not_taken (hbi : b.bi < 32) (h : b.isAlways = false) (pc lr : Kptr) :
    ∃ ctr cr, b.taken ⟨pc, lr, ctr, cr⟩ = false := by
  refine ⟨if b.bo.testBit 1 then 2 else 1, allBits (!b.bo.testBit 3), ?_⟩
  simp only [isAlways] at h
  simp only [taken, ctrAfter, getMsbD_allBits hbi]
  revert h
  cases b.bo.testBit 4 <;> cases b.bo.testBit 2 <;> cases b.bo.testBit 1 <;>
    cases b.bo.testBit 3 <;> simp

end Branch

theorem exec_jumpTo {pc : Kptr} (t : Kptr) (lk : Bool) (h : s.pc = pc) :
    (jumpTo pc t lk).exec s = ⟨t, if lk then pc + 4 else s.lr, s.ctr, s.cr⟩ := by
  have halways : (jumpTo pc t lk).isAlways = true := isAlways_boAlways _ _ _ _
  have htarget : (jumpTo pc t lk).target pc = t := by
    simp only [jumpTo, target, false_eq_true, if_false, add_ofInt_sub]
  simp only [Branch.exec, Branch.taken_of_isAlways halways, Branch.ctrAfter_of_isAlways halways, h,
    htarget, if_true]
  rfl

/-! ## Runs -/

section Runs

variable {code : Code} {s s₁ s₂ s' : Cpu}

theorem step_eq {w : Word} {b : Branch} (hw : code s.pc = some w) (hb : decodeBranch w = some b) :
    step code s = some (b.exec s) := by
  simp [step, hw, hb]

theorem follows_two (h : step code s = some s₁) (h' : step code s₁ = some s₂) : Follows code s s₂ :=
  TransGen.tail (r := fun s s' => step code s = some s') (.single h) h'

theorem codeAt_add (base : Kptr) (ws : List Word) {i : Nat} (hi : 4 * i < 2 ^ 64) :
    codeAt base ws (base + ofNat 64 (4 * i)) = ws[i]? := by
  have hoff : (base + ofNat 64 (4 * i) - base).toNat = 4 * i := toNat_add_sub base hi
  simp only [codeAt, hoff]
  simp

theorem codeAt_eq_none {base a : Kptr} {ws : List Word} (h : 4 * ws.length ≤ (a - base).toNat) :
    codeAt base ws a = none := by
  simp only [codeAt]
  split
  · exact getElem?_eq_none (by omega)
  · rfl

theorem Reaches.eq_of_no_code (h : Reaches code s s') (hs : code s.pc = none) : s' = s := by
  rcases ReflTransGen.cases_head h with heq | ⟨s₁, hstep, -⟩
  · exact heq.symm
  · simp [step, hs] at hstep

/-- What follows a state is its successor or comes after it. -/
theorem Follows.reaches_of_step (h : Follows code s s') (hstep : step code s = some s₁) :
    Reaches code s₁ s' := by
  obtain ⟨s₂, hstep', hrun⟩ := TransGen.head'_iff.mp h
  obtain rfl : s₁ = s₂ := mem_unique hstep hstep'
  exact hrun

end Runs

/-! ## Staying the same -/

/-- At `a` there is a jump to the instruction after the launch site. -/
def JumpsBack (code : Code) (launch a : Kptr) : Prop :=
  ∃ w, code a = some w ∧ decodeBranch w = some (jumpTo a (launch + 4) false)

/-- The code has come to where the original goes from the state `s`, with the same registers. The
link register stays as it is, or there is a way from the address in it to the instruction after
the original one. -/
structure Continues (code : Code) (launch : Kptr) (b : Branch) (s s' : Cpu) : Prop where
  pc : s'.pc = (b.exec { s with pc := launch }).pc
  ctr : s'.ctr = (b.exec { s with pc := launch }).ctr
  cr : s'.cr = (b.exec { s with pc := launch }).cr
  lr : b.lk = false → s'.lr = s.lr
  link : b.lk = true → ∀ σ : Cpu, σ.pc = s'.lr → Reaches code σ { σ with pc := launch + 4 }

/-- The branch `b'` at `patch` does what `b` does at `launch`, except that it goes on, and returns,
to the instruction after `patch`. -/
def Moved (b b' : Branch) (launch patch : Kptr) : Prop :=
  ∀ s : Cpu, s.pc = patch → b'.exec s =
    ⟨if b.taken s then b.target launch else patch + 4, if b.lk then patch + 4 else s.lr,
      b.ctrAfter s.ctr, s.cr⟩

section Moved

variable {b b' : Branch} {launch patch : Kptr} {code : Code}

theorem moved_of_target (disp : Int)
    (h : ({ b with disp } : Branch).target patch = b.target launch) :
    Moved b { b with disp } launch patch := by
  rintro s rfl
  simp only [Branch.exec, h]
  rfl

theorem moved_jumpTo (halways : b.isAlways = true) :
    Moved b (jumpTo patch (b.target launch) b.lk) launch patch := by
  intro s hs
  rw [exec_jumpTo _ _ hs]
  simp [taken_of_isAlways halways, ctrAfter_of_isAlways halways]

theorem JumpsBack.step_eq {a : Kptr} (h : JumpsBack code launch a) (hs : s.pc = a) :
    step code s = some { s with pc := launch + 4 } := by
  obtain ⟨w, hw, hd⟩ := h
  rw [Power.step_eq (hs ▸ hw) hd, exec_jumpTo _ _ hs]
  rfl

theorem JumpsBack.reaches {a : Kptr} (h : JumpsBack code launch a) (hs : s.pc = a) :
    Reaches code s { s with pc := launch + 4 } :=
  ReflTransGen.single (h.step_eq hs)

/-- Where the original goes, with its registers. -/
theorem Continues.of_exec {lr : Kptr} (hlr : lr = if b.lk then patch + 4 else s.lr)
    (hback : b.lk = true → JumpsBack code launch (patch + 4)) :
    Continues code launch b s
      ⟨if b.taken s then b.target launch else launch + 4, lr, b.ctrAfter s.ctr, s.cr⟩ where
  pc := rfl
  ctr := rfl
  cr := rfl
  lr hlk := by simp [hlr, hlk]
  link hlk σ hσ := (hback hlk).reaches (by simpa [hlr, hlk] using hσ)

/-- A moved branch, with a jump back after it if that can be reached. -/
theorem run_moved {w : Word} (hw : code patch = some w) (hd : decodeBranch w = some b')
    (hmoved : Moved b b' launch patch)
    (hback : b.isAlways = false ∨ b.lk = true → JumpsBack code launch (patch + 4))
    (hs : s.pc = patch) : ∃ s', Follows code s s' ∧ Continues code launch b s s' := by
  have hstep : step code s = some _ := step_eq (hs ▸ hw) hd
  rw [hmoved s hs] at hstep
  have hend := Continues.of_exec (s := s) rfl fun hlk => hback (.inr hlk)
  cases htaken : b.taken s with
  | true =>
    simp only [htaken, if_true] at hstep hend
    exact ⟨_, TransGen.single hstep, hend⟩
  | false =>
    have hcond : b.isAlways = false := by
      by_contra halways
      rw [taken_of_isAlways (Bool.eq_true_of_not_eq_false halways)] at htaken
      cases htaken
    simp only [htaken, false_eq_true, if_false] at hstep hend
    exact ⟨_, follows_two hstep ((hback (.inl hcond)).step_eq rfl), hend⟩

/-- A short branch around a jump back, and a jump. -/
theorem run_long {w w' : Word} (hw : code patch = some w)
    (hd : decodeBranch w = some ⟨b.bo, b.bi, 8, false, false⟩)
    (hback : JumpsBack code launch (patch + 4)) (hw' : code (patch + 8) = some w')
    (hd' : decodeBranch w' = some (jumpTo (patch + 8) (b.target launch) b.lk))
    (hlk : b.lk = false) (hs : s.pc = patch) :
    ∃ s', Follows code s s' ∧ Continues code launch b s s' := by
  have hstep : step code s =
      some ⟨if b.taken s then patch + 8 else patch + 4, s.lr, b.ctrAfter s.ctr, s.cr⟩ := by
    subst hs
    exact step_eq hw hd
  have hend : Continues code launch b s ⟨_, s.lr, _, _⟩ :=
    Continues.of_exec (by simp [hlk]) fun _ => hback
  cases htaken : b.taken s with
  | true =>
    simp only [htaken, if_true] at hstep hend
    have hjump := step_eq (s := ⟨patch + 8, s.lr, b.ctrAfter s.ctr, s.cr⟩) hw' hd'
    rw [exec_jumpTo _ _ (rfl : (Cpu.mk (patch + 8) _ _ _).pc = patch + 8), hlk] at hjump
    exact ⟨_, follows_two hstep hjump, hend⟩
  | false =>
    simp only [htaken, false_eq_true, if_false] at hstep hend
    exact ⟨_, follows_two hstep (hback.step_eq rfl), hend⟩

end Moved

variable {rel : RelocateInfo}

/-! ## Relocation -/

section Relocation

variable {w : Word} {b : Branch} {launch patch : Kptr}

theorem boIsAlways_eq (w : Word) :
    boIsAlways w = ((getBOField w).testBit 4 && (getBOField w).testBit 2) := by
  have hhalf : field w 22 4 = getBOField w / 2 := by
    simp only [getBOField, field]
    omega
  have hlt : getBOField w < 32 := field_lt w 21 5
  rw [boIsAlways, hhalf]
  generalize getBOField w = n at hlt
  decide +revert

theorem target_of_relative (haa : b.aa = false) (pc : Kptr) :
    b.target pc = pc + ofInt 64 b.disp := by
  simp [target, haa]

theorem FitsSigned.mono {n m : Nat} (hnm : n ≤ m) {pc t : Kptr} (h : FitsSigned n pc t) :
    FitsSigned m pc t := by
  have hpow : (2 : Int) ^ (n - 1) ≤ 2 ^ (m - 1) :=
    pow_le_pow_right₀ (by decide) (Nat.sub_le_sub_right hnm 1)
  obtain ⟨h₁, h₂⟩ := h
  exact ⟨by omega, by omega⟩

/-- Whether a relative branch is moved. -/
def moveInRange (w : Word) (launch patch : Kptr) : Option Bool :=
  if opcd w = 16 then inRangeOfBranchCond launch patch else inRangeOfBranch launch patch

variable (h : decodeBranch w = some b)
include h

theorem decodeBranch_cases :
    (opcd w = 16 ∧ b = ⟨getBOField w, getBIField w, getBd14 w, aa w, lk w⟩) ∨
    (opcd w = 18 ∧ b = ⟨boAlways, 0, getLi24 w, aa w, lk w⟩) := by
  simp only [decodeBranch] at h
  split at h
  · exact .inl ⟨‹_›, (some.inj h).symm⟩
  · exact .inr ⟨‹_›, (some.inj h).symm⟩
  · cases h

theorem aa_of_decodeBranch : aa w = b.aa := by
  rcases decodeBranch_cases h with ⟨-, rfl⟩ | ⟨-, rfl⟩ <;> rfl

theorem bi_lt : b.bi < 32 := by
  rcases decodeBranch_cases h with ⟨-, rfl⟩ | ⟨-, rfl⟩
  · exact field_lt w 16 5
  · exact (by decide : 0 < 32)

theorem getControlFlowInfo_eq : getControlFlowInfo w = some b.cfi := by
  rcases decodeBranch_cases h with ⟨hop, rfl⟩ | ⟨hop, rfl⟩
  · simp [getControlFlowInfo, hop, boIsAlways_eq, cfi, isAlways]
  · simp [getControlFlowInfo, hop, cfi, isAlways_boAlways]

theorem disp_bounds : (∃ v, b.disp = 4 * v) ∧ -2 ^ 25 ≤ b.disp ∧ b.disp < 2 ^ 25 := by
  rcases decodeBranch_cases h with ⟨-, rfl⟩ | ⟨-, rfl⟩
  · have hlo : -2 ^ 13 ≤ signedField w 2 14 := Int.le_bmod (by decide)
    have hhi : signedField w 2 14 < 2 ^ 13 := Int.bmod_lt (by decide)
    exact ⟨⟨_, rfl⟩, by simp only [getBd14]; omega, by simp only [getBd14]; omega⟩
  · have hlo : -2 ^ 23 ≤ signedField w 2 24 := Int.le_bmod (by decide)
    have hhi : signedField w 2 24 < 2 ^ 23 := Int.bmod_lt (by decide)
    exact ⟨⟨_, rfl⟩, by simp only [getLi24]; omega, by simp only [getLi24]; omega⟩

theorem tryRelocation_absolute (haa : b.aa = true) :
    tryRelocation w launch patch = some ⟨true, w⟩ := by
  have haa' : aa w = true := (aa_of_decodeBranch h).trans haa
  rcases decodeBranch_cases h with ⟨hop, -⟩ | ⟨hop, -⟩
  · simp [tryRelocation, hop, getInformationBform, relocateInfo, haa']
  · simp [tryRelocation, hop, getInformationIform, relocateInfo, haa']

variable (haa : b.aa = false)
include haa

theorem target_aligned (hlaunch : launch.toNat % 4 = 0) : (b.target launch).toNat % 4 = 0 := by
  obtain ⟨⟨v, hv⟩, -⟩ := disp_bounds h
  rw [target_of_relative haa, hv, toNat_add, toNat_ofInt]
  omega

theorem tryRelocation_relative :
    tryRelocation w launch patch = (moveInRange w launch patch).bind fun ok =>
      if ok then (if opcd w = 16
        then branchcond b.bo b.bi (newDisplacement launch patch b.disp) false b.lk
        else branch (newDisplacement launch patch b.disp) false b.lk).map (RelocateInfo.mk true)
      else some ⟨false, w⟩ := by
  have haa' : aa w = false := (aa_of_decodeBranch h).trans haa
  rcases decodeBranch_cases h with ⟨hop, rfl⟩ | ⟨hop, rfl⟩
  · simp only [tryRelocation, hop, getInformationBform, relocateInfo, moveInRange, haa', if_true,
      false_eq_true, if_false]
    rcases inRangeOfBranchCond launch patch with _ | _ | _ <;> rfl
  · simp only [tryRelocation, hop, getInformationIform, relocateInfo, moveInRange, haa',
      false_eq_true, if_false]
    rcases inRangeOfBranch launch patch with _ | _ | _ <;> rfl

theorem moveInRange_of_success (hrel : tryRelocation w launch patch = some rel)
    (hsucc : rel.success = true) : moveInRange w launch patch = some true := by
  rw [tryRelocation_relative h haa] at hrel
  rcases hrange : moveInRange w launch patch with _ | _ | _
  · simp [hrange] at hrel
  · simp only [hrange, bind_some, false_eq_true, if_false, some.injEq] at hrel
    rw [← hrel] at hsucc
    cases hsucc
  · rfl

/-- A branch that is moved by less than 18 bits goes not much farther than before. -/
theorem fitsSigned_of_near (hnear : inRangeOfBranchCond launch patch = some true) :
    FitsSigned 32 patch (b.target launch) := by
  obtain ⟨-, hlo, hhi⟩ := disp_bounds h
  have hreach := inReach_of_inRangeOf (by decide) hnear
  have hmoved : b.target launch - patch = ofInt 64 b.disp - (patch - launch) := by
    rw [target_of_relative haa]
    bv_omega
  have hsub : (b.target launch - patch).toInt =
      (b.disp - ((patch.toNat : Int) - launch.toNat)).bmod (2 ^ 64) := by
    rw [hmoved, toInt_sub, toInt_sub_of_inReach (by decide) hreach, toInt_ofInt, Int.bmod_sub_bmod]
  obtain ⟨h₁, h₂⟩ := hreach
  rw [FitsSigned, hsub, Int.bmod_eq_of_le (by omega) (by omega)]
  omega

/-- A `b` is moved with its target. -/
theorem tryRelocation_b (hop : opcd w = 18) (hlaunch : launch.toNat % 4 = 0)
    (hpatch : patch.toNat % 4 = 0) (hrange : inRangeOfBranch launch patch = some true)
    (hfit : FitsSigned 26 patch (b.target launch)) :
    ∃ w', tryRelocation w launch patch = some ⟨true, w'⟩ ∧
      decodeBranch w' = some { b with disp := (b.target launch - patch).toInt } := by
  obtain ⟨w', hw', hd⟩ := branch_jumpTo hpatch (target_aligned h haa hlaunch) hfit b.lk
  have hne : ¬ opcd w = 16 := by omega
  refine ⟨w', ?_, ?_⟩
  · rw [tryRelocation_relative h haa, moveInRange, if_neg hne, hrange, bind_some, if_pos rfl,
      if_neg hne, newDisplacement, ← target_of_relative haa, hw']
    rfl
  · rcases decodeBranch_cases h with ⟨hop', -⟩ | ⟨-, rfl⟩
    · exact absurd hop' hne
    · rw [hd, jumpTo]
      exact congrArg some (congrArg (mk boAlways 0 _ · _) haa.symm)

/-- A `bc` is moved, and its displacement is cut to its field. -/
theorem tryRelocation_bc (hop : opcd w = 16) (hnear : inRangeOfBranchCond launch patch = some true)
    (hv : (b.target launch - patch).toInt = 4 * v) :
    (-2 ^ 13 ≤ v ∧ v < 2 ^ 14 ∧ ∃ w', tryRelocation w launch patch = some ⟨true, w'⟩ ∧
      decodeBranch w' = some { b with disp := 4 * v.bmod (2 ^ 14) }) ∨
    ((v < -2 ^ 13 ∨ 2 ^ 14 ≤ v) ∧ tryRelocation w launch patch = none) := by
  have hfit := fitsSigned_of_near h haa hnear
  have hrel : tryRelocation w launch patch =
      (branchcond b.bo b.bi (4 * v) false b.lk).map (RelocateInfo.mk true) := by
    rw [tryRelocation_relative h haa, moveInRange, if_pos hop, hnear, bind_some, if_pos rfl,
      if_pos hop, newDisplacement, ← target_of_relative haa, toSigned_eq hfit.1 hfit.2, hv]
  by_cases hin : -2 ^ 13 ≤ v ∧ v < 2 ^ 14
  · have hbo : b.bo < 32 := by
      rcases decodeBranch_cases h with ⟨-, rfl⟩ | ⟨-, rfl⟩
      · exact field_lt w 21 5
      · exact (by decide : boAlways < 32)
    obtain ⟨w', hw', hd⟩ := branchcond_spec hbo (bi_lt h) hin.1 hin.2 false b.lk
    refine .inl ⟨hin.1, hin.2, w', by rw [hrel, hw']; rfl, ?_⟩
    rw [hd, ← haa]
  · obtain ⟨hlo, hhi⟩ := hfit
    have hout : v < -2 ^ 13 ∨ 2 ^ 14 ≤ v := by omega
    refine .inr ⟨hout, ?_⟩
    rw [hrel, branchcond_eq_none (by omega) (by omega) hout]
    rfl

end Relocation

/-! ## What is emitted -/

section Emitted

variable {w : Word} {b : Branch} {launch patch curr : Kptr} {cfi : PowerCfi} {ws : List Word}

theorem add_four_aligned {a : Kptr} (h : a.toNat % 4 = 0) : (a + 4).toNat % 4 = 0 := by
  bv_omega

theorem add_eight_aligned {a : Kptr} (h : a.toNat % 4 = 0) : (a + 8).toNat % 4 = 0 := by
  bv_omega

theorem inRange_of_jumpBack (h : jumpBack launch curr = some w) :
    inRangeOfBranch curr (launch + 4) = some true := by
  simp only [jumpBack, do_eq_some, check_eq_some] at h
  obtain ⟨-, hrange, -⟩ := h
  exact hrange

theorem jumpBack_spec (hlaunch : launch.toNat % 4 = 0) (hcurr : curr.toNat % 4 = 0)
    (h : inRangeOfBranch curr (launch + 4) = some true) :
    ∃ w, jumpBack launch curr = some w ∧
      decodeBranch w = some (jumpTo curr (launch + 4) false) := by
  obtain ⟨w, hw, hd⟩ := branch_jumpTo hcurr (add_four_aligned hlaunch)
    (fitsSigned_of_inRangeOf (by decide) h) false
  refine ⟨w, ?_, hd⟩
  rw [jumpBack, check_pos h]
  exact hw

/-- The short branch has the condition of the original. -/
theorem short_spec (hd : decodeBranch w = some b) (hop : opcd w = 16) :
    ∃ short, branchcond (getBOField w) (getBIField w) 8 false false = some short ∧
      decodeBranch short = some ⟨b.bo, b.bi, 8, false, false⟩ := by
  obtain ⟨short, hshort, hsd⟩ := branchcond_spec (field_lt w 21 5) (field_lt w 16 5)
    (by decide : (-2 ^ 13 : Int) ≤ 2) (by decide) false false
  refine ⟨short, hshort, ?_⟩
  rcases decodeBranch_cases hd with ⟨-, rfl⟩ | ⟨hop', -⟩
  · exact hsd
  · omega

theorem linkedJumpBack_spec (cfi : PowerCfi) (hlaunch : launch.toNat % 4 = 0)
    (hcurr : curr.toNat % 4 = 0)
    (h : cfi.link = true → inRangeOfBranch curr (launch + 4) = some true) :
    ∃ back, linkedJumpBack cfi launch curr = some back ∧ (cfi.link = true →
      ∃ w, back = [w] ∧ decodeBranch w = some (jumpTo curr (launch + 4) false)) := by
  cases hlink : cfi.link with
  | false => exact ⟨[], by simp [linkedJumpBack, hlink], by simp⟩
  | true =>
    obtain ⟨w, hw, hd⟩ := jumpBack_spec hlaunch hcurr (h hlink)
    exact ⟨[w], by simp [linkedJumpBack, hlink, hw], fun _ => ⟨w, rfl, hd⟩⟩

theorem length_linkedJumpBack (h : linkedJumpBack cfi launch curr = some ws) : ws.length ≤ 1 := by
  simp only [linkedJumpBack] at h
  split at h
  · obtain ⟨w, -, rfl⟩ := map_eq_some_iff.mp h
    exact le_refl 1
  · obtain rfl := some.inj h
    exact Nat.zero_le 1

theorem inRange_of_linkedJumpBack (hlink : cfi.link = true)
    (h : linkedJumpBack cfi launch curr = some ws) :
    inRangeOfBranch curr (launch + 4) = some true := by
  rw [linkedJumpBack, if_pos hlink] at h
  obtain ⟨w, hw, -⟩ := map_eq_some_iff.mp h
  exact inRange_of_jumpBack hw

theorem length_takenJump (h : takenJump rel cfi launch curr = some ws) : ws.length ≤ 1 := by
  simp only [takenJump] at h
  split at h
  · obtain rfl := some.inj h
    exact Nat.zero_le 1
  · obtain ⟨w, -, rfl⟩ := map_eq_some_iff.mp h
    exact le_refl 1

/-- The pieces of `condBranch_LRAndR`. There is always room for them. -/
theorem CondBranchLRAndR.emit_eq_some_iff (hcfi : getControlFlowInfo w = some cfi) :
    emit w launch curr = some ws ↔
    ∃ rel first notTaken taken back, tryRelocation w launch curr = some rel ∧
      relocatedOr rel cfi launch curr
        (branchcond (getBOField w) (getBIField w) 8 false false) = some first ∧
      jumpBack launch (curr + 4) = some notTaken ∧
      takenJump rel cfi launch (curr + 8) = some taken ∧
      linkedJumpBack cfi launch (curr + 8 + ofNat 64 (4 * taken.length)) = some back ∧
      ws = first :: notTaken :: (taken ++ back) := by
  simp only [emit, hcfi, do_eq_some, check_eq_some]
  constructor
  · rintro ⟨rel, hrel, first, hfirst, notTaken, hnot, taken, htaken, back, hback, -, -, rfl⟩
    exact ⟨rel, first, notTaken, taken, back, hrel, hfirst, hnot, htaken, hback, rfl⟩
  · rintro ⟨rel, first, notTaken, taken, back, hrel, hfirst, hnot, htaken, hback, rfl⟩
    have hroom : 4 * (first :: notTaken :: (taken ++ back)).length ≤
        conservativeNumInsnBytesForRAndR := by
      have := length_takenJump htaken
      have := length_linkedJumpBack hback
      simp only [length_cons, length_append, conservativeNumInsnBytesForRAndR]
      omega
    exact ⟨rel, hrel, first, hfirst, notTaken, hnot, taken, htaken, back, hback, (), hroom, rfl⟩

/-- The pieces of `branchAlways_LRAndR`. -/
theorem BranchAlwaysLRAndR.emit_eq_some_iff (hcfi : getControlFlowInfo w = some cfi) :
    emit w launch curr = some ws ↔
    ∃ rel first back, tryRelocation w launch curr = some rel ∧
      relocatedOr rel cfi launch curr (jumpToTarget cfi launch curr) = some first ∧
      linkedJumpBack cfi launch (curr + 4) = some back ∧
      ws = first :: back := by
  simp only [emit, hcfi, do_eq_some, check_eq_some]
  constructor
  · rintro ⟨rel, hrel, first, hfirst, back, hback, -, -, rfl⟩
    exact ⟨rel, first, back, hrel, hfirst, hback, rfl⟩
  · rintro ⟨rel, first, back, hrel, hfirst, hback, rfl⟩
    have hroom : 4 * (first :: back).length ≤ conservativeNumInsnBytesForRAndR := by
      have := length_linkedJumpBack hback
      simp only [length_cons, conservativeNumInsnBytesForRAndR]
      omega
    exact ⟨rel, hrel, first, hfirst, back, hback, (), hroom, rfl⟩

theorem jumpToTarget_spec (hd : decodeBranch w = some b) (haa : b.aa = false)
    (hlaunch : launch.toNat % 4 = 0) (hcurr : curr.toNat % 4 = 0)
    (hfit : FitsSigned 26 curr (b.target launch)) :
    ∃ w', jumpToTarget b.cfi launch curr = some w' ∧
      decodeBranch w' = some (jumpTo curr (b.target launch) b.lk) := by
  obtain ⟨w', hw', hd'⟩ := branch_jumpTo hcurr (target_aligned hd haa hlaunch) hfit b.lk
  refine ⟨w', ?_, hd'⟩
  rw [jumpToTarget, newDisplacement, cfi, ← target_of_relative haa]
  exact hw'

theorem codeAt_zero (patch : Kptr) (w : Word) (ws : List Word) :
    codeAt patch (w :: ws) patch = some w := by
  simpa using codeAt_add patch (w :: ws) (by decide : 4 * 0 < 2 ^ 64)

theorem codeAt_four (w w' : Word) (ws : List Word) :
    codeAt patch (w :: w' :: ws) (patch + 4) = some w' := by
  simpa using codeAt_add patch (w :: w' :: ws) (by decide : 4 * 1 < 2 ^ 64)

theorem codeAt_eight (w w' w'' : Word) (ws : List Word) :
    codeAt patch (w :: w' :: w'' :: ws) (patch + 8) = some w'' := by
  simpa using codeAt_add patch (w :: w' :: w'' :: ws) (by decide : 4 * 2 < 2 ^ 64)

end Emitted

/-! ## The theorem -/

/-- The branch is relocated, and from every state the emitted code does what the branch does. -/
def Preserves (w : Word) (b : Branch) (launch patch : Kptr) : Prop :=
  ∃ ws, emitBranch w launch patch = some ws ∧ ∀ s : Cpu, s.pc = patch →
    ∃ s', Follows (codeAt patch ws) s s' ∧ Continues (codeAt patch ws) launch b s s'

/-- A `bc` for which a long form is chosen. -/
def IsLong (w : Word) (b : Branch) (launch patch : Kptr) : Prop :=
  opcd w = 16 ∧ b.aa = false ∧ inRangeOfBranchCond launch patch ≠ some true

instance (w : Word) (b : Branch) (launch patch : Kptr) : Decidable (IsLong w b launch patch) :=
  inferInstanceAs (Decidable (_ ∧ _))

/-- The unconditional jumps that are needed: their addresses, and where they go. -/
def unconditionalJumps (w : Word) (b : Branch) (launch patch : Kptr) : List (Kptr × Kptr) :=
  (if opcd w = 18 ∧ b.aa = false then [(patch, b.target launch)] else []) ++
  (if IsLong w b launch patch
    then [(if b.isAlways then patch else patch + 8, b.target launch)] else []) ++
  (if b.isAlways then [] else [(patch + 4, launch + 4)]) ++
  (if b.lk then [(if b.isAlways then patch + 4
      else if IsLong w b launch patch then patch + 12 else patch + 8, launch + 4)] else [])

/-- A relative branch can be moved, or replaced. -/
def CanMove (w : Word) (b : Branch) (launch patch : Kptr) : Prop :=
  if opcd w = 16 then
    (inRangeOfBranchCond launch patch = some true ∧ FitsSigned 16 patch (b.target launch)) ∨
    (inRangeOfBranchCond launch patch = some false ∧ inRangeOfBranch launch patch = some true ∧
      (b.isAlways = true ∨ b.lk = false))
  else inRangeOfBranch launch patch = some true

/-- The branch can be moved, and the jumps back pass their checks. -/
def Relocatable (w : Word) (b : Branch) (launch patch : Kptr) : Prop :=
  (b.aa = true ∨ CanMove w b launch patch) ∧
  (b.isAlways = false → inRangeOfBranch (patch + 4) (launch + 4) = some true) ∧
  (b.lk = true →
    inRangeOfBranch (if b.isAlways then patch + 4 else patch + 8) (launch + 4) = some true)

instance (w : Word) (b : Branch) (launch patch : Kptr) : Decidable (CanMove w b launch patch) := by
  unfold CanMove
  infer_instance

instance (w : Word) (b : Branch) (launch patch : Kptr) :
    Decidable (Relocatable w b launch patch) :=
  inferInstanceAs (Decidable (_ ∧ _ ∧ _))

section Theorem

variable {w : Word} {b b' : Branch} {launch patch : Kptr}

theorem relocatedOr_of_far {repl : Option Word} (haa : b.aa = false)
    (hfar : inRangeOfBranchCond launch patch = some false)
    (hrange : inRangeOfBranch launch patch = some true) :
    relocatedOr ⟨false, w⟩ b.cfi launch patch repl = repl := by
  simp [relocatedOr, cfi, haa, check_pos hfar, check_pos hrange, check_pos trivial]

theorem moved_relative (haa : b.aa = false) :
    Moved b { b with disp := (b.target launch - patch).toInt } launch patch := by
  apply moved_of_target
  have haa' : ({ b with disp := (b.target launch - patch).toInt } : Branch).aa = false := haa
  rw [target_of_relative haa', add_ofInt_sub]

variable (hd : decodeBranch w = some b)
include hd

theorem emitBranch_eq :
    emitBranch w launch patch = if b.isAlways then BranchAlwaysLRAndR.emit w launch patch
      else emit w launch patch := by
  simp [emitBranch, getControlFlowInfo_eq hd, cfi]

theorem tryRelocation_of_far (haa : b.aa = false) (hop : opcd w = 16)
    (hfar : inRangeOfBranchCond launch patch = some false) :
    tryRelocation w launch patch = some ⟨false, w⟩ := by
  rw [tryRelocation_relative hd haa, moveInRange, if_pos hop, hfar]
  rfl

variable {w' : Word}

/-- A branch whose displacement was cut goes somewhere before the emitted code, and no further. -/
theorem not_preserves_of_cut {ws : List Word} (haa : b.aa = false)
    (hv : (b.target launch - patch).toInt = 4 * v) (hlo : 2 ^ 13 ≤ v) (hhi : v < 2 ^ 14)
    (hemit : emitBranch w launch patch = some (w' :: ws)) (hlen : ws.length ≤ 3)
    (hd' : decodeBranch w' = some { b with disp := 4 * v.bmod (2 ^ 14) }) :
    ¬ Preserves w b launch patch := by
  rintro ⟨ws', hemit', hruns⟩
  obtain rfl : w' :: ws = ws' := mem_unique hemit hemit'
  obtain ⟨ctr, cr, htaken⟩ := exists_taken (bi_lt hd) patch 0
  obtain ⟨s', hrun, hend⟩ := hruns ⟨patch, 0, ctr, cr⟩ rfl
  have hbmod : 4 * v.bmod (2 ^ 14) = 4 * v - 2 ^ 16 := by
    rw [Int.bmod_def, if_neg (by omega)]
    omega
  -- where the branch goes, and where it should go
  set wrong : Kptr := patch + ofInt 64 (4 * v - 2 ^ 16) with hwrong
  have hright : b.target launch = patch + ofInt 64 (4 * v) := by
    rw [← hv, add_ofInt_sub]
  have hoff : (wrong - patch).toNat = (2 ^ 64 + 4 * v - 2 ^ 16).toNat := by
    rw [hwrong, add_comm, BitVec.add_sub_cancel, toNat_ofInt]
    omega
  have hne : wrong ≠ b.target launch := by
    intro heq
    have : (wrong - patch).toNat = (b.target launch - patch).toNat := by rw [heq]
    rw [hoff, hright, add_comm, BitVec.add_sub_cancel, toNat_ofInt] at this
    omega
  rw [hbmod] at hd'
  set cut : Branch := { b with disp := 4 * v - 2 ^ 16 }
  have hstep : step (codeAt patch (w' :: ws)) ⟨patch, 0, ctr, cr⟩ = some _ :=
    step_eq (codeAt_zero patch w' ws) hd'
  have hpc : (cut.exec ⟨patch, 0, ctr, cr⟩).pc = wrong := by
    have htaken' : cut.taken ⟨patch, 0, ctr, cr⟩ = true := htaken
    have haa' : cut.aa = false := haa
    rw [exec_pc_of_taken htaken', target_of_relative haa']
  have hstuck : codeAt patch (w' :: ws) wrong = none := by
    refine codeAt_eq_none ?_
    rw [hoff, length_cons]
    omega
  have hs' := (hrun.reaches_of_step hstep).eq_of_no_code (hpc ▸ hstuck)
  have hshould : s'.pc = b.target launch := by
    rw [hend.pc]
    exact exec_pc_of_taken htaken
  rw [hs', hpc] at hshould
  exact hne hshould

/-- The long form of a conditional branch does not link when it is not taken. -/
theorem not_preserves_of_long_link {short j : Word} {ws : List Word} (hcond : b.isAlways = false)
    (hlk : b.lk = true) (hfar : inRangeOfBranchCond launch patch = some false)
    (hrange : inRangeOfBranch launch patch = some true)
    (hemit : emitBranch w launch patch = some (short :: j :: ws)) (hlen : ws.length ≤ 2)
    (hsd : decodeBranch short = some ⟨b.bo, b.bi, 8, false, false⟩)
    (hjd : decodeBranch j = some (jumpTo (patch + 4) (launch + 4) false)) :
    ¬ Preserves w b launch patch := by
  rintro ⟨ws', hemit', hruns⟩
  obtain rfl : short :: j :: ws = ws' := mem_unique hemit hemit'
  have hlen' : 4 * (short :: j :: ws).length ≤ 16 := by
    simp only [length_cons]
    omega
  obtain ⟨hout, hout'⟩ : 16 ≤ (launch - patch).toNat ∧ 16 ≤ (launch + 4 - patch).toNat := by
    -- the limit at `0xFFFFFFFF` is the same for both ranges
    obtain ⟨hin, hlimit⟩ := ((inRangeOf_eq_some (by decide)).mp hrange).2.mp rfl
    have hout : ¬ InReach 18 launch patch := fun hreach =>
      absurd (((inRangeOf_eq_some (by decide)).mp hfar).2.mpr ⟨hreach, hlimit⟩) (by decide)
    simp only [InReach] at hout hin
    constructor <;> bv_omega
  have houtside := codeAt_eq_none (hlen'.trans hout)
  have houtside' := codeAt_eq_none (hlen'.trans hout')
  have hjump : JumpsBack (codeAt patch (short :: j :: ws)) launch (patch + 4) :=
    ⟨j, codeAt_four short j ws, hjd⟩
  have hshort := codeAt_zero patch short (j :: ws)
  generalize codeAt patch (short :: j :: ws) = code at *
  -- the link register holds the launch address before, which is not in the code
  obtain ⟨ctr, cr, htaken⟩ := exists_not_taken (bi_lt hd) hcond patch launch
  obtain ⟨s', hrun, hend⟩ := hruns ⟨patch, launch, ctr, cr⟩ rfl
  have hstep₁ : step code ⟨patch, launch, ctr, cr⟩ = some _ := step_eq hshort hsd
  have hpc₁ : ((⟨b.bo, b.bi, 8, false, false⟩ : Branch).exec ⟨patch, launch, ctr, cr⟩).pc =
      patch + 4 :=
    exec_pc_of_not_taken htaken
  have hlr : s'.lr = launch := by
    rcases ReflTransGen.cases_head (hrun.reaches_of_step hstep₁) with rfl | ⟨s₂, hs₂, hrest⟩
    · rfl
    · obtain rfl := some.inj ((hjump.step_eq hpc₁).symm.trans hs₂)
      rw [Reaches.eq_of_no_code hrest houtside']
      rfl
  have hback := hend.link hlk ⟨launch, 0, 0, 0⟩ hlr.symm
  have hsame : launch + 4 = launch := congrArg Cpu.pc (hback.eq_of_no_code houtside)
  bv_omega

variable (hlaunch : launch.toNat % 4 = 0) (hpatch : patch.toNat % 4 = 0)
include hlaunch hpatch

/-- Whatever stands for a branch that is always taken, if it is one instruction. -/
theorem preserves_always (halways : b.isAlways = true)
    (hrel : tryRelocation w launch patch = some rel)
    (hfirst : relocatedOr rel b.cfi launch patch (jumpToTarget b.cfi launch patch) = some w')
    (hd' : decodeBranch w' = some b') (hmoved : Moved b b' launch patch)
    (hlink : b.lk = true → inRangeOfBranch (patch + 4) (launch + 4) = some true) :
    Preserves w b launch patch := by
  obtain ⟨back, hback, hjump⟩ := linkedJumpBack_spec b.cfi hlaunch (add_four_aligned hpatch) hlink
  refine ⟨w' :: back, ?_, fun s hs => ?_⟩
  · rw [emitBranch_eq hd, if_pos halways,
      BranchAlwaysLRAndR.emit_eq_some_iff (getControlFlowInfo_eq hd)]
    exact ⟨rel, w', back, hrel, hfirst, hback, rfl⟩
  · refine run_moved (codeAt_zero patch w' back) hd' hmoved (fun hneed => ?_) hs
    have hlk : b.lk = true := hneed.resolve_left (by simp [halways])
    obtain ⟨j, rfl, hj⟩ := hjump hlk
    exact ⟨j, codeAt_four w' j [], hj⟩

/-- A conditional branch that is moved. -/
theorem preserves_cond (hcond : b.isAlways = false)
    (hrel : tryRelocation w launch patch = some ⟨true, w'⟩) (hd' : decodeBranch w' = some b')
    (hmoved : Moved b b' launch patch) (hnot : inRangeOfBranch (patch + 4) (launch + 4) = some true)
    (hlink : b.lk = true → inRangeOfBranch (patch + 8) (launch + 4) = some true) :
    Preserves w b launch patch := by
  obtain ⟨j, hj, hjd⟩ := jumpBack_spec hlaunch (add_four_aligned hpatch) hnot
  obtain ⟨back, hback, -⟩ := linkedJumpBack_spec b.cfi hlaunch (add_eight_aligned hpatch) hlink
  refine ⟨w' :: j :: back, ?_, fun s hs => ?_⟩
  · rw [emitBranch_eq hd, if_neg (by simp [hcond]), emit_eq_some_iff (getControlFlowInfo_eq hd)]
    exact ⟨⟨true, w'⟩, w', j, [], back, hrel, rfl, hj, rfl, by simpa using hback, rfl⟩
  · exact run_moved (codeAt_zero patch w' _) hd' hmoved
      (fun _ => ⟨j, codeAt_four w' j back, hjd⟩) hs

/-- A conditional branch that is not moved and does not link. -/
theorem preserves_long (hcond : b.isAlways = false) (haa : b.aa = false) (hlk : b.lk = false)
    (hfar : inRangeOfBranchCond launch patch = some false)
    (hrange : inRangeOfBranch launch patch = some true)
    (hnot : inRangeOfBranch (patch + 4) (launch + 4) = some true)
    (hfit : FitsSigned 26 (patch + 8) (b.target launch)) : Preserves w b launch patch := by
  have hop : opcd w = 16 := by
    rcases decodeBranch_cases hd with ⟨hop, -⟩ | ⟨-, rfl⟩
    · exact hop
    · rw [isAlways_boAlways] at hcond
      cases hcond
  obtain ⟨short, hshort, hsd⟩ := short_spec hd hop
  obtain ⟨j, hj, hjd⟩ := jumpBack_spec hlaunch (add_four_aligned hpatch) hnot
  obtain ⟨long, hlong, hld⟩ := jumpToTarget_spec hd haa hlaunch (add_eight_aligned hpatch) hfit
  refine ⟨[short, j, long], ?_, fun s hs => ?_⟩
  · rw [emitBranch_eq hd, if_neg (by simp [hcond]), emit_eq_some_iff (getControlFlowInfo_eq hd)]
    refine ⟨⟨false, w⟩, short, j, [long], [], tryRelocation_of_far hd haa hop hfar, ?_, hj, ?_, ?_,
      rfl⟩
    · rw [relocatedOr_of_far haa hfar hrange]
      exact hshort
    · simp only [takenJump, false_eq_true, if_false, hlong]
      rfl
    · simp [linkedJumpBack, cfi, hlk]
  · exact run_long (codeAt_zero patch short _) hsd ⟨j, codeAt_four short j _, hjd⟩
      (codeAt_eight short j long []) hld hlk hs

/-- A branch that is moved as it is, or with its target. -/
theorem preserves_of_moved (hrel : tryRelocation w launch patch = some ⟨true, w'⟩)
    (hd' : decodeBranch w' = some b') (hmoved : Moved b b' launch patch)
    (hnot : b.isAlways = false → inRangeOfBranch (patch + 4) (launch + 4) = some true)
    (hlink : b.lk = true →
      inRangeOfBranch (if b.isAlways then patch + 4 else patch + 8) (launch + 4) = some true) :
    Preserves w b launch patch := by
  cases halways : b.isAlways with
  | true =>
    simp only [halways, if_true] at hlink
    exact preserves_always hd hlaunch hpatch halways hrel rfl hd' hmoved hlink
  | false =>
    simp only [halways, false_eq_true, if_false] at hlink
    exact preserves_cond hd hlaunch hpatch halways hrel hd' hmoved (hnot halways) hlink

theorem preserves_of_relocatable
    (hfit : ∀ j ∈ unconditionalJumps w b launch patch, FitsSigned 26 j.1 j.2)
    (h : Relocatable w b launch patch) : Preserves w b launch patch := by
  obtain ⟨hmove, hnot, hlink⟩ := h
  cases haa : b.aa with
  | true =>
    have htarget : b.target patch = b.target launch := by simp [target, haa]
    exact preserves_of_moved hd hlaunch hpatch (tryRelocation_absolute hd haa) hd
      (moved_of_target b.disp htarget) hnot hlink
  | false =>
    replace hmove := hmove.resolve_left (by simp [haa])
    rcases decodeBranch_cases hd with ⟨hop, -⟩ | ⟨hop, -⟩
    · rw [CanMove, if_pos hop] at hmove
      rcases hmove with ⟨hnear, hlo, hhi⟩ | ⟨hfar, hrange, hnolink⟩
      · obtain ⟨v, hv⟩ := exists_four_mul_eq_toInt_sub hpatch (target_aligned hd haa hlaunch)
        rcases tryRelocation_bc hd haa hop hnear hv with ⟨-, -, w', hrel, hd'⟩ | ⟨hout, -⟩
        · rw [Int.bmod_eq_of_le (by omega) (by omega), ← hv] at hd'
          exact preserves_of_moved hd hlaunch hpatch hrel hd' (moved_relative haa) hnot hlink
        · omega
      · have hlong : IsLong w b launch patch := ⟨hop, haa, by simp [hfar]⟩
        have hjump := hfit (if b.isAlways then patch else patch + 8, b.target launch)
          (by simp [unconditionalJumps, hlong])
        cases halways : b.isAlways with
        | true =>
          simp only [halways, if_true] at hjump hlink
          obtain ⟨w', hw', hd'⟩ := jumpToTarget_spec hd haa hlaunch hpatch hjump
          refine preserves_always hd hlaunch hpatch halways
            (tryRelocation_of_far hd haa hop hfar) ?_
            hd' (moved_jumpTo halways) hlink
          rw [relocatedOr_of_far haa hfar hrange, hw']
        | false =>
          simp only [halways, false_eq_true, if_false] at hjump
          exact preserves_long hd hlaunch hpatch halways haa
            (hnolink.resolve_left (by simp [halways])) hfar hrange (hnot halways) hjump
    · rw [CanMove, if_neg (by omega)] at hmove
      have hjump : FitsSigned 26 patch (b.target launch) :=
        hfit (patch, b.target launch) (by simp [unconditionalJumps, hop, haa])
      obtain ⟨w', hrel, hd'⟩ := tryRelocation_b hd haa hop hlaunch hpatch hmove hjump
      exact preserves_of_moved hd hlaunch hpatch hrel hd' (moved_relative haa) hnot hlink

/-- What can come of a relative branch: it is moved with its target, or with a displacement that
was cut, or it is replaced. -/
theorem first_cases {repl : Option Word} {first : Word} (haa : b.aa = false)
    (hrel : tryRelocation w launch patch = some rel)
    (hfirst : relocatedOr rel b.cfi launch patch repl = some first) :
    (rel.success = true ∧ CanMove w b launch patch) ∨
    (∃ v, (b.target launch - patch).toInt = 4 * v ∧ 2 ^ 13 ≤ v ∧ v < 2 ^ 14 ∧
      decodeBranch first = some { b with disp := 4 * v.bmod (2 ^ 14) }) ∨
    (rel.success = false ∧ opcd w = 16 ∧ inRangeOfBranchCond launch patch = some false ∧
      inRangeOfBranch launch patch = some true ∧ repl = some first) := by
  cases hsucc : rel.success with
  | true =>
    rw [relocatedOr, if_pos hsucc] at hfirst
    obtain rfl := some.inj hfirst
    have hrange := moveInRange_of_success hd haa hrel hsucc
    rcases decodeBranch_cases hd with ⟨hop, -⟩ | ⟨hop, -⟩
    · have hnear : inRangeOfBranchCond launch patch = some true := by
        rwa [moveInRange, if_pos hop] at hrange
      obtain ⟨v, hv⟩ := exists_four_mul_eq_toInt_sub hpatch (target_aligned hd haa hlaunch)
      rcases tryRelocation_bc hd haa hop hnear hv with ⟨hlo, hhi, w', hrel', hd'⟩ | ⟨-, hnone⟩
      · obtain rfl := mem_unique hrel' hrel
        by_cases hsmall : v < 2 ^ 13
        · refine .inl ⟨rfl, ?_⟩
          rw [CanMove, if_pos hop]
          exact .inl ⟨hnear, by simp only [FitsSigned, hv]; omega⟩
        · exact .inr (.inl ⟨v, hv, by omega, hhi, hd'⟩)
      · rw [hnone] at hrel
        cases hrel
    · refine .inl ⟨rfl, ?_⟩
      rw [moveInRange, if_neg (by omega)] at hrange
      rwa [CanMove, if_neg (by omega)]
  | false =>
    rw [relocatedOr, if_neg (by simp [hsucc])] at hfirst
    simp only [do_eq_some, check_eq_some] at hfirst
    obtain ⟨-, hfar, -, -, -, hrange, hrepl⟩ := hfirst
    rcases decodeBranch_cases hd with ⟨hop, -⟩ | ⟨hop, -⟩
    · exact .inr (.inr ⟨rfl, hop, hfar, hrange, hrepl⟩)
    · rw [tryRelocation_relative hd haa, moveInRange, if_neg (by omega), hrange, bind_some,
        if_pos rfl] at hrel
      obtain ⟨w', -, rfl⟩ := map_eq_some_iff.mp hrel
      cases hsucc

theorem relocatable_of_preserves (h : Preserves w b launch patch) :
    Relocatable w b launch patch := by
  obtain ⟨ws, hemit, -⟩ := id h
  have hemit' := hemit
  rw [emitBranch_eq hd] at hemit'
  cases halways : b.isAlways with
  | true =>
    rw [if_pos halways, BranchAlwaysLRAndR.emit_eq_some_iff (getControlFlowInfo_eq hd)] at hemit'
    obtain ⟨rel, first, back, hrel, hfirst, hback, rfl⟩ := hemit'
    have hlen := length_linkedJumpBack hback
    refine ⟨?_, by simp [halways], fun hlk => ?_⟩
    · rw [or_iff_not_imp_left, Bool.not_eq_true]
      intro haa
      rcases first_cases hd hlaunch hpatch haa hrel hfirst with
        ⟨-, hmove⟩ | ⟨v, hv, hlo, hhi, hcut⟩ | ⟨-, hop, hfar, hrange, -⟩
      · exact hmove
      · exact absurd h (not_preserves_of_cut hd haa hv hlo hhi hemit (by omega) hcut)
      · rw [CanMove, if_pos hop]
        exact .inr ⟨hfar, hrange, .inl halways⟩
    · rw [if_pos halways]
      exact inRange_of_linkedJumpBack hlk hback
  | false =>
    rw [if_neg (by simp [halways]), emit_eq_some_iff (getControlFlowInfo_eq hd)] at hemit'
    obtain ⟨rel, first, notTaken, taken, back, hrel, hfirst, hnot, htaken, hback, rfl⟩ := hemit'
    have hlen := length_takenJump htaken
    have hlen' := length_linkedJumpBack hback
    have hlength : (notTaken :: (taken ++ back)).length ≤ 3 := by
      simp only [length_cons, length_append]
      omega
    have hcases : rel.success = true ∧ (b.aa = true ∨ CanMove w b launch patch) ∨
        b.lk = false ∧ CanMove w b launch patch := by
      cases haa : b.aa with
      | true =>
        rw [tryRelocation_absolute hd haa] at hrel
        obtain rfl := some.inj hrel
        exact .inl ⟨rfl, .inl rfl⟩
      | false =>
        rcases first_cases hd hlaunch hpatch haa hrel hfirst with
          ⟨hsucc, hmove⟩ | ⟨v, hv, hlo, hhi, hcut⟩ | ⟨-, hop, hfar, hrange, hshort⟩
        · exact .inl ⟨hsucc, .inr hmove⟩
        · exact absurd h (not_preserves_of_cut hd haa hv hlo hhi hemit hlength hcut)
        · have hlk : b.lk = false := by
            by_contra hlk
            obtain ⟨short, hshort', hsd⟩ := short_spec hd hop
            obtain rfl : short = first := mem_unique hshort' hshort
            obtain ⟨back, hback', hback⟩ :=
              jumpBack_spec hlaunch (add_four_aligned hpatch) (inRange_of_jumpBack hnot)
            obtain rfl := mem_unique hback' hnot
            exact not_preserves_of_long_link hd halways (Bool.eq_true_of_not_eq_false hlk) hfar
              hrange hemit (Nat.le_of_succ_le_succ hlength) hsd hback h
          refine .inr ⟨hlk, ?_⟩
          rw [CanMove, if_pos hop]
          exact .inr ⟨hfar, hrange, .inr hlk⟩
    refine ⟨?_, fun _ => inRange_of_jumpBack hnot, fun hlk => ?_⟩
    · rcases hcases with ⟨-, hmove⟩ | ⟨-, hmove⟩
      · exact hmove
      · exact .inr hmove
    · rcases hcases with ⟨hsucc, -⟩ | ⟨hlk', -⟩
      · rw [takenJump, if_pos hsucc] at htaken
        obtain rfl := some.inj htaken
        rw [if_neg (by simp [halways])]
        have hrange := inRange_of_linkedJumpBack hlk hback
        simpa using hrange
      · rw [hlk] at hlk'
        cases hlk'

end Theorem

section

variable {w : Word} {b : Branch} {launch patch : Kptr}

/-- **Relocated branches.** For a `b` or `bc` whose unconditional jumps have displacements that fit,
the emitted code does what the branch does if and only if it is relocatable: a relative branch is
moved by a distance in range, a `bc` among them to a displacement of 16 bits, or it is replaced
by a jump in range, and then it does not link unless it is always taken. -/
theorem preserves_iff_relocatable (hd : decodeBranch w = some b)
    (hlaunch : launch.toNat % 4 = 0) (hpatch : patch.toNat % 4 = 0)
    (hfit : ∀ j ∈ unconditionalJumps w b launch patch, FitsSigned 26 j.1 j.2) :
    Preserves w b launch patch ↔ Relocatable w b launch patch :=
  ⟨relocatable_of_preserves hd hlaunch hpatch, preserves_of_relocatable hd hlaunch hpatch hfit⟩

end

theorem fits_of_all {l : List (Kptr × Kptr)}
    (h : (l.all fun j => decide (FitsSigned 26 j.1 j.2)) = true) : ∀ j ∈ l, FitsSigned 26 j.1 j.2 :=
  fun j hj => of_decide_eq_true (all_eq_true.mp h j hj)

/-- `beq .+8`, moved by 4096 bytes. -/
theorem preserves_beq : Preserves 0x41820008 ⟨12, 2, 8, false, false⟩ 0xC000000000100000
    0xC000000000101000 :=
  (preserves_iff_relocatable (by decide) (by decide) (by decide) (fits_of_all (by decide))).mpr
    (by decide)

/-- `beq .+8`, moved down by 36864 bytes, goes to the wrong address: the new displacement has 17
bits. `beql .+8`, moved by a megabyte, does not link when it is not taken. -/
theorem moved_beq_and_beql_not_preserved :
    (decodeBranch 0x41820008 = some ⟨12, 2, 8, false, false⟩ ∧
      (∀ j ∈ unconditionalJumps 0x41820008 ⟨12, 2, 8, false, false⟩ 0xC000000000100000
        0xC0000000000F7000, FitsSigned 26 j.1 j.2) ∧
      ¬ Preserves 0x41820008 ⟨12, 2, 8, false, false⟩ 0xC000000000100000 0xC0000000000F7000) ∧
    (decodeBranch 0x41820009 = some ⟨12, 2, 8, false, true⟩ ∧
      (∀ j ∈ unconditionalJumps 0x41820009 ⟨12, 2, 8, false, true⟩ 0xC000000000100000
        0xC000000000200000, FitsSigned 26 j.1 j.2) ∧
      ¬ Preserves 0x41820009 ⟨12, 2, 8, false, true⟩ 0xC000000000100000 0xC000000000200000) := by
  refine ⟨⟨by decide, fits_of_all (by decide), fun h => ?_⟩,
    ⟨by decide, fits_of_all (by decide), fun h => ?_⟩⟩
  · exact absurd (relocatable_of_preserves (by decide) (by decide) (by decide) h) (by decide)
  · exact absurd (relocatable_of_preserves (by decide) (by decide) (by decide) h) (by decide)

end Kerninst.Power
