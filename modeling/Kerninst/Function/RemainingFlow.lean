import Kerninst.Function.EdgeCountsSound

/-!
# What is left of a block count

The counts of known edges are subtracted from the count of their block, one after the other, as
unsigned numbers of 32 bits. A result above the block count is taken for an underflow, and set to 0.
But an underflow can also land below the block count. It does for an edge count that exceeds 32
bits together with what was subtracted before (`remaining_iff`).
-/

namespace Kerninst.BlockAndEdgeCounts

open List Option

/-- What `proc1SuccEdge` or `proc1PredEdge` leaves of the block count. -/
def remaining (proc1Edge : BBId → Nat → KnownInfo → Option KnownInfo) (blockCount : Nat)
    (others : List BBId) : Option Nat :=
  (others.foldlM (fun info other => proc1Edge other blockCount info) ⟨0, 0, blockCount, none⟩).map
    (·.sumOfUnknown)

/-- After some of the calls, in any order, it is the truncated difference. -/
def Truncates (proc1Edge : BBId → Nat → KnownInfo → Option KnownInfo) (blockCount : Nat)
    (count : BBId → Nat) (others : List BBId) : Prop :=
  ∀ calls, calls <+~ others →
    remaining proc1Edge blockCount calls = some (blockCount - (calls.map count).sum)

/-- No edge count is so high that an underflow goes unnoticed, if the others were subtracted. -/
def Unwrapped (blockCount : Nat) (count : BBId → Nat) (others : List BBId) : Prop :=
  ∀ other ∈ others, count other + min blockCount ((others.erase other).map count).sum < 2 ^ 32

section

variable {c : BlockAndEdgeCounts} {edge : BBId → EdgeId} {blockCount : Nat} {count : BBId → Nat}
  {others : List BBId}

/-- One more call. -/
theorem remaining_concat {calls : List BBId} {other : BBId} {left : Nat}
    (hblock : blockCount < uintMax)
    (hcount : c.edgeCounts.lookup (edge other) = some (count other) ∧ count other < uintMax)
    (hcalls : remaining (fun other => c.proc1Edge (edge other) other) blockCount calls =
      some left) :
    remaining (fun other => c.proc1Edge (edge other) other) blockCount (calls ++ [other]) =
      some (if (left + 2 ^ 32 - count other) % 2 ^ 32 > blockCount then 0
        else (left + 2 ^ 32 - count other) % 2 ^ 32) := by
  obtain ⟨info, hinfo, rfl⟩ := map_eq_some_iff.mp hcalls
  rw [remaining, foldlM_append, hinfo]
  simp [proc1Edge, check_pos hblock.ne, hcount.1, hcount.2.ne]

theorem truncates_iff (hblock : blockCount < uintMax) (hcount : ∀ other ∈ others,
      c.edgeCounts.lookup (edge other) = some (count other) ∧ count other < uintMax) :
    Truncates (fun other => c.proc1Edge (edge other) other) blockCount count others ↔
      Unwrapped blockCount count others := by
  have hmax : uintMax = 2 ^ 32 - 1 := rfl
  constructor
  · intro h other hmem
    have hrest := h (others.erase other) (erase_subperm ..)
    have hall := h (others.erase other ++ [other])
      ((perm_append_singleton ..).trans (perm_cons_erase hmem).symm).subperm
    rw [remaining_concat hblock (hcount other hmem) hrest, map_append, sum_append] at hall
    have hlt := (hcount other hmem).2
    have hleft := some.inj hall
    simp only [map_cons, map_nil, sum_cons, sum_nil] at hleft
    split at hleft <;> omega
  · intro h calls
    induction calls using reverseRecOn with
    | nil => exact fun _ => rfl
    | append_singleton calls other ih =>
      intro hcalls
      have hmem : other ∈ others := hcalls.subset (by simp)
      have hrest : calls <+~ others.erase other := by
        have herase := ((perm_append_singleton other calls).symm.subperm.trans hcalls).erase other
        rwa [erase_cons_head] at herase
      have hsum : (calls.map count).sum ≤ ((others.erase other).map count).sum := by
        obtain ⟨sub, hperm, hsub⟩ := hrest
        rw [← (hperm.map count).sum_eq]
        exact (hsub.map count).sum_le_sum fun _ _ => Nat.zero_le _
      have hunwrapped := h other hmem
      have hlt := (hcount other hmem).2
      rw [remaining_concat hblock (hcount other hmem) (ih (hrest.trans (erase_subperm ..))),
        map_append, sum_append]
      simp only [map_cons, map_nil, sum_cons, sum_nil]
      congr 1
      split <;> omega

end

/-- **What is left is the truncated difference** if and only if no underflow goes unnoticed. -/
theorem remaining_iff (c : BlockAndEdgeCounts) (bbid : BBId) (blockCount : Nat)
    (count : BBId → Nat) (others : List BBId) (hblock : blockCount < uintMax) :
    ((∀ succ ∈ others, c.edgeCounts.lookup ⟨bbid, succ⟩ = some (count succ) ∧
        count succ < uintMax) →
      (Truncates (c.proc1SuccEdge bbid) blockCount count others ↔
        Unwrapped blockCount count others)) ∧
    ((∀ pred ∈ others, c.edgeCounts.lookup ⟨pred, bbid⟩ = some (count pred) ∧
        count pred < uintMax) →
      (Truncates (c.proc1PredEdge bbid) blockCount count others ↔
        Unwrapped blockCount count others)) :=
  ⟨truncates_iff hblock, truncates_iff hblock⟩

/-- A block with two successors, whose edges are known. -/
def twoSuccs (count₁ count₂ : Nat) : BlockAndEdgeCounts where
  fn := ⟨[⟨[.reg 1, .reg 2], []⟩, ⟨[], [.reg 0]⟩, ⟨[], [.reg 0]⟩], 0, by decide⟩
  regBlockCounts _ := 10
  succsOfEntryBlock := [.reg 0]
  predsOfExitBlocks _ := []
  specialBlockCounts _ := (10, false)
  edgeCounts := (AList.insert ⟨.reg 0, .reg 1⟩ count₁ ∅).insert ⟨.reg 0, .reg 2⟩ count₂
  numFudgedEdges := 0

theorem remaining_three :
    remaining ((twoSuccs 3 4).proc1SuccEdge (.reg 0)) 10 [.reg 1, .reg 2] = some 3 :=
  ((remaining_iff (twoSuccs 3 4) (.reg 0) 10 (fun succ => if succ = .reg 1 then 3 else 4)
    [.reg 1, .reg 2] (by decide)).1 (by decide)).mpr (by unfold Unwrapped; decide) _
    (Subperm.refl _)

/-- The counts 5 and -2 leave 7 of 10. -/
theorem remaining_seven :
    remaining ((twoSuccs 5 (2 ^ 32 - 2)).proc1SuccEdge (.reg 0)) 10 [.reg 1, .reg 2] = some 7 := by
  decide

end Kerninst.BlockAndEdgeCounts
