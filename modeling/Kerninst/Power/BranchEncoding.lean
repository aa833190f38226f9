import Kerninst.Power.BranchRelocated

/-!
# Branches, their ranges and calls

Between two instructions, `Agrees` compares what the range checks say with what is built: the
checks return, a displacement is said to be in range exactly if a branch by it can be read back,
and a call that is generated calls its destination.

* A displacement that is in range of a branch has 26 bits, but not the other way round: ranges
  end at `0xFFFFFFFF`, at 0 and at the highest address, and displacements wrap around.
* A `bc` has a displacement of 16 bits. `inRangeOfBranchCond` asks for 18, and
  `getRangeOfBranchCond` for 16.
* `genCallAndLink` goes the wrong way (`genCallAndLink_target_iff`). It is right for a call of
  the call itself, and for one by `2 ^ 25` bytes back, whose displacement becomes negative in its
  field.
-/

namespace Kerninst.Power

open PowerInstr Option

/-- What is built is a branch by `disp` bytes. -/
def ReadsBack (built : Option Word) (disp : Int) : Prop :=
  ∃ w b, built = some w ∧ decodeBranch w = some b ∧ b.disp = disp

/-- **Encoding, ranges and calls agree** about the way from `source` to `dest`. No assertion of the
range checks fails. -/
structure Agrees (source dest : Kptr) : Prop where
  branch : ∀ lk, ∃ b, inRangeOfBranch source dest = some b ∧ (b = true ↔
    ReadsBack (branch (toSigned (dest - source)) false lk) (dest - source).toInt)
  branchcond : ∀ bo < 32, ∀ bi < 32, ∀ lk, ∃ b, inRangeOfBranchCond source dest = some b ∧
    (b = true ↔
      ReadsBack (branchcond bo bi (toSigned (dest - source)) false lk) (dest - source).toInt)
  rangeOfBranch : ∃ range b, getRangeOfBranch source = some range ∧
    inRangeOfBranch source dest = some b ∧ (b = true ↔ range.1 ≤ dest ∧ dest ≤ range.2)
  rangeOfBranchCond : ∃ range b, getRangeOfBranchCond source = some range ∧
    inRangeOfBranchCond source dest = some b ∧ (b = true ↔ range.1 ≤ dest ∧ dest ≤ range.2)
  call : ∀ w, genCallAndLink source dest = some w → ∀ s : Cpu, s.pc = source →
    ∃ s', step (codeAt source [w]) s = some s' ∧ s'.pc = dest

section

variable {source dest : Kptr} (hsource : source.toNat % 4 = 0) (hdest : dest.toNat % 4 = 0)

theorem inRangeOf_of_range {n : Nat} {range : Kptr × Kptr} (h : getRangeOf source n = some range) :
    inRangeOf source dest n = some true ↔ range.1 ≤ dest ∧ dest ≤ range.2 := by
  simp [inRangeOf, h]

/-- The checks return if no range wraps around. -/
theorem exists_inRangeOf (dest : Kptr) {n : Nat} (hn : n ≤ 26)
    (hwrap : source.toNat + 2 ^ 25 ≤ 2 ^ 64) :
    ∃ range b, getRangeOf source n = some range ∧ inRangeOf source dest n = some b := by
  classical
  have hpow : 2 ^ (n - 1) ≤ 2 ^ 25 := Nat.pow_le_pow_right (by decide) (by omega)
  have hrun := (inRangeOf_eq_some (n := n) (a := source) (b := dest) (by omega)).mpr
    ⟨by omega, decide_eq_true_iff⟩
  obtain ⟨range, hrange, -⟩ := exists_of_bind hrun
  exact ⟨range, _, hrange, hrun⟩

include hsource hdest

theorem readsBack_branch_iff (lk : Bool) :
    ReadsBack (branch (toSigned (dest - source)) false lk) (dest - source).toInt ↔
      FitsSigned 26 source dest := by
  constructor
  · rintro ⟨w, b, -, hb, hdisp⟩
    rw [FitsSigned, ← hdisp]
    exact (disp_bounds hb).2
  · intro hfit
    obtain ⟨w, hw, hd⟩ := branch_jumpTo hsource hdest hfit lk
    exact ⟨w, _, hw, hd, rfl⟩

theorem readsBack_branchcond_iff {bo bi : Nat} (hbo : bo < 32) (hbi : bi < 32) (lk : Bool) :
    ReadsBack (branchcond bo bi (toSigned (dest - source)) false lk) (dest - source).toInt ↔
      FitsSigned 16 source dest := by
  obtain ⟨q, hq⟩ := exists_four_mul_eq_toInt_sub hsource hdest
  -- what is passed to the constructor is a displacement of 32 bits
  have hcut := toSigned_eq_bmod (dest - source)
  obtain ⟨v, hv⟩ : ∃ v, toSigned (dest - source) = 4 * v :=
    ⟨toSigned (dest - source) / 4, by rw [hcut, hq, Int.bmod_def]; split <;> omega⟩
  have hlo : -2 ^ 31 ≤ toSigned (dest - source) := hcut ▸ Int.le_bmod (by decide)
  have hhi : toSigned (dest - source) < 2 ^ 31 := hcut ▸ Int.bmod_lt (by decide)
  rw [hv]
  by_cases hrange : -2 ^ 13 ≤ v ∧ v < 2 ^ 14
  · obtain ⟨w, hw, hd⟩ := branchcond_spec hbo hbi hrange.1 hrange.2 false lk
    constructor
    · rintro ⟨w', b, hw', hb, hdisp⟩
      obtain rfl := mem_unique hw hw'
      obtain rfl := mem_unique hd hb
      have hlo' : -2 ^ 13 ≤ v.bmod (2 ^ 14) := Int.le_bmod (by decide)
      have hhi' : v.bmod (2 ^ 14) < 2 ^ 13 := Int.bmod_lt (by decide)
      have hdisp' : 4 * v.bmod (2 ^ 14) = (dest - source).toInt := hdisp
      rw [FitsSigned]
      omega
    · rintro ⟨hlo', hhi'⟩
      rw [toSigned_eq (by omega) (by omega)] at hv
      rw [Int.bmod_eq_of_le (by omega) (by omega), ← hv] at hd
      exact ⟨w, _, hw, hd, rfl⟩
  · constructor
    · rintro ⟨w, b, hw, -⟩
      rw [branchcond_eq_none (by omega) (by omega) (by omega)] at hw
      cases hw
    · rintro ⟨hlo', hhi'⟩
      rw [toSigned_eq (by omega) (by omega)] at hv
      omega

/-- **Where a generated call goes.** -/
theorem genCallAndLink_target_iff (hrange : inRangeOfBranch source dest = some true) :
    ∃ w b, genCallAndLink source dest = some w ∧ decodeBranch w = some b ∧ b.isAlways = true ∧
      (b.target source = dest ↔ dest = source ∨ dest.toNat + 2 ^ 25 = source.toNat) := by
  obtain ⟨hlo, hhi⟩ := inReach_of_inRangeOf (by decide) hrange
  obtain ⟨v, hv⟩ := exists_four_mul_eq_toInt_sub hdest hsource
  have hsub : (source - dest).toInt = (source.toNat : Int) - dest.toNat :=
    toInt_sub_of_inReach (n := 32) (by decide) ⟨by omega, by omega⟩
  obtain ⟨w, hw, hd⟩ := branch_spec (v := v) (by omega) (by omega) false true
  refine ⟨w, _, ?_, hd, Branch.isAlways_boAlways .., ?_⟩
  · rw [genCallAndLink, check_pos hrange, toSigned_eq (by omega) (by omega), hv]
    exact hw
  · rw [target_of_relative rfl, ← BitVec.toNat_inj, ← BitVec.toNat_inj, BitVec.toNat_add,
      BitVec.toNat_ofInt]
    simp only [Int.bmod_def]
    split <;> omega

omit hsource hdest in
/-- If the displacement is zero or the lowest one, ranges are those of the displacements. -/
theorem inRangeOf_iff_fits {n : Nat} (hn : n ≤ 26)
    (hcases : dest = source ∨ dest.toNat + 2 ^ 25 = source.toNat)
    (hwrap : source.toNat + 2 ^ 25 ≤ 2 ^ 64) :
    inRangeOf source dest n = some true ↔ FitsSigned n source dest := by
  refine ⟨fitsSigned_of_inRangeOf (by omega), fun ⟨hlo, _⟩ => ?_⟩
  have hpow : 2 ^ (n - 1) ≤ 2 ^ 25 := Nat.pow_le_pow_right (by decide) (by omega)
  have hpos := Nat.two_pow_pos (n - 1)
  have hcast : ((2 ^ (n - 1) : Nat) : Int) = 2 ^ (n - 1) := by push_cast; rfl
  rw [BitVec.toInt_eq_toNat_cond, BitVec.toNat_sub] at hlo
  rw [inRangeOf_eq_some (by omega), InReach, eq_self_iff_true, true_iff]
  rcases hcases with rfl | hback
  · omega
  · split at hlo <;> omega

/-- **Encoding, ranges and calls agree** exactly if no range wraps around, and the displacement
does not fit a branch, or is zero or the lowest one. -/
theorem agrees_iff :
    Agrees source dest ↔ source.toNat + 2 ^ 25 ≤ 2 ^ 64 ∧ (¬ FitsSigned 26 source dest ∨
      dest = source ∨ dest.toNat + 2 ^ 25 = source.toNat) := by
  constructor
  · intro h
    obtain ⟨b, hrun, hb⟩ := h.branch false
    refine ⟨((inRangeOf_eq_some (by decide)).mp hrun).1, ?_⟩
    rw [or_iff_not_imp_left, not_not]
    intro hfit
    obtain rfl := hb.mpr ((readsBack_branch_iff hsource hdest false).mpr hfit)
    obtain ⟨w, b, hw, hb, halways, htarget⟩ := genCallAndLink_target_iff hsource hdest hrun
    refine htarget.mp ?_
    obtain ⟨s', hs', hpc⟩ := h.call w hw ⟨source, 0, 0, 0⟩ rfl
    rw [step_eq (by simp [codeAt]) hb] at hs'
    obtain rfl := some.inj hs'
    rwa [Branch.exec_pc_of_taken (Branch.taken_of_isAlways halways _)] at hpc
  · rintro ⟨hwrap, h⟩
    have hrange : ∀ {n}, n ≤ 26 →
        (inRangeOf source dest n = some true ↔ FitsSigned n source dest) := by
      intro n hn
      rcases h with hfar | hcases
      · have hfar' : ¬ FitsSigned n source dest := mt (FitsSigned.mono hn) hfar
        exact iff_of_false (mt (fitsSigned_of_inRangeOf (by omega)) hfar') hfar'
      · exact inRangeOf_iff_fits hn hcases hwrap
    have hshort : FitsSigned 18 source dest ↔ FitsSigned 16 source dest := by
      refine ⟨fun hfit => ?_, FitsSigned.mono (by decide)⟩
      have hcases := h.resolve_left (not_not_intro (hfit.mono (by decide)))
      obtain ⟨hlo, hhi⟩ := hfit
      rw [FitsSigned]
      rw [BitVec.toInt_eq_toNat_cond, BitVec.toNat_sub] at hlo ⊢
      rcases hcases with rfl | hback
      · split <;> omega
      · split at hlo <;> omega
    obtain ⟨range, b, hrange₁, hrun⟩ := exists_inRangeOf dest (n := 26) le_rfl hwrap
    obtain ⟨-, b', -, hrun'⟩ := exists_inRangeOf dest (n := 18) (by decide) hwrap
    obtain ⟨range', -, hrange₂, -⟩ := exists_inRangeOf dest (n := 16) (by decide) hwrap
    have hb : b = true ↔ FitsSigned 26 source dest := by
      rw [← hrange le_rfl, hrun, some_inj]
    have hb' : b' = true ↔ FitsSigned 16 source dest := by
      rw [← hshort, ← hrange (by decide), hrun', some_inj]
    refine ⟨fun lk => ⟨b, hrun, ?_⟩, fun bo hbo bi hbi lk => ⟨b', hrun', ?_⟩,
      ⟨range, b, hrange₁, hrun, ?_⟩, ⟨range', b', hrange₂, hrun', ?_⟩, fun w hw s hs => ?_⟩
    · exact hb.trans (readsBack_branch_iff hsource hdest lk).symm
    · exact hb'.trans (readsBack_branchcond_iff hsource hdest hbo hbi lk).symm
    · rw [← inRangeOf_of_range hrange₁, hrun, some_inj]
    · rw [← inRangeOf_of_range hrange₂, hb', hrange (by decide)]
    · have hin : inRangeOfBranch source dest = some true := by
        obtain ⟨_, hcheck, -⟩ := exists_of_bind hw
        exact check_eq_some.mp hcheck
      obtain ⟨w', b, hw', hb, halways, htarget⟩ := genCallAndLink_target_iff hsource hdest hin
      obtain rfl := mem_unique hw' hw
      refine ⟨_, step_eq (by simp [codeAt, hs]) hb, ?_⟩
      rw [Branch.exec_pc_of_taken (Branch.taken_of_isAlways halways _), hs, htarget]
      exact h.resolve_left (not_not_intro ((hrange (by decide)).mp hin))

end

/-- A call of the call itself, and one that is out of range. -/
theorem agrees_self_and_far : Agrees 0x1000 0x1000 ∧ Agrees 0x1000 0x10000000 :=
  ⟨(agrees_iff (by decide) (by decide)).mpr ⟨by decide, .inr (.inl rfl)⟩,
    (agrees_iff (by decide) (by decide)).mpr ⟨by decide, .inl (by decide)⟩⟩

/-- The call that is generated at `0x1000` for `0x2000` goes to address 0. -/
theorem not_agrees_near : ¬ Agrees 0x1000 0x2000 := by
  intro h
  obtain ⟨s', hs', hpc⟩ := h.call 0x4BFFF001 (by decide) ⟨0x1000, 0, 0, 0⟩ rfl
  have hstep : step (codeAt 0x1000 [0x4BFFF001]) ⟨0x1000, 0, 0, 0⟩ = some ⟨0, 0x1004, 0, 0⟩ := rfl
  rw [← mem_unique hstep hs'] at hpc
  exact absurd hpc (by decide)

end Kerninst.Power
