import Kerninst.PatchHeap.Disjoint

/-!
# When the kernel has no memory left

The nucleus, and what is below it, may run out of memory: then the next place is tried. The last
place is not allowed to. `alloc_nonnucleus` asserts that its first region was allocated, and that a
patch was found. So `OutOfFreeSpace`, which a launch site is ready for, is never thrown, and a
request that needs memory ends in a failed assertion (`allocNoMemory_reported_iff`).
-/

namespace Kerninst.PatchHeap

open List SubHeap

/-- `alloc` when the kernel answers 0 to every request. In the last place, `allocateFirstTime`
fails, and then there is an `assert(false)`, or a sub-heap does not grow, and then there is an
`assert(result != 0)`. -/
def allocNoMemory (P : HeapPlatform) (s : PatchHeap) (sz : Nat) (tryForNucleus : Bool) :
    Except Stop PatchHeap :=
  s.alloc P sz tryForNucleus fun _ => (0, 0)

/-- The request is turned down, or it is served. Then the heap goes on working: what is in use can
be freed, and what the kernel has memory for is allocated. -/
def Reported (P : HeapPlatform) (r : Except Stop PatchHeap) : Prop :=
  r = .error .outOfFreeSpace ∨ ∃ s, r = .ok s ∧ ∀ ops, AllAllowed P s ops →
    ops.foldlM (step P) s = .error .kernel ∨ ∃ s', ops.foldlM (step P) s = .ok s' ∧ Safe s'

/-- The place is tried, and has a free patch. -/
def CanServe (s : PatchHeap) (t : AllocType) (ndx : Nat) : Prop :=
  s.allocationHasFailed t = false ∧ HasFree (s.subHeaps t ndx)

/-- There is a free patch in one of the places that are tried. -/
def AtHand (s : PatchHeap) (ndx : Nat) (tryForNucleus : Bool) : Prop :=
  (tryForNucleus = true ∧ (s.CanServe .nucleus ndx ∨ s.CanServe .below ndx)) ∨
    HasFree (s.subHeaps .kmem32 ndx)

/-- What comes of a request without memory. -/
def Outcome (P : HeapPlatform) (r : Except Stop PatchHeap) (atHand : Prop) : Prop :=
  (atHand ∧ ∃ s, r = .ok s ∧ Inv P s) ∨ (¬ atHand ∧ r = .error .assertion)

section

variable {P : HeapPlatform} {s : PatchHeap} {t : AllocType} {sz ndx : Nat} (h : Inv P s)
  (hsz : heapSizeNdx sz = some ndx)
include h hsz

theorem Inv.allocNonNucleus_outcome :
    Outcome P (s.allocNonNucleus P sz ndx (0, 0)) (HasFree (s.subHeaps .kmem32 ndx)) := by
  unfold allocNonNucleus
  obtain ⟨-, hmemory⟩ | ⟨-, hfree, hrun⟩ | ⟨r, s', hne, hrun, hinv, hfree, -⟩ :=
    h.allocIn_spec hsz .kmem32 (0, 0)
  · exact (hmemory (.inl rfl)).elim
  · rw [hrun]
    exact .inr ⟨hfree, rfl⟩
  · rw [hrun]
    dsimp only [bind, Except.bind]
    rw [assertTrue_pos hne]
    exact .inl ⟨hfree (.inl rfl), _, rfl, hinv⟩

/-- Only the flag of the place changes before the next place is tried. -/
theorem Inv.allocOrElse_outcome {otherwise : PatchHeap → Except Stop PatchHeap} {atHand : Prop}
    (hotherwise : ∀ s', Inv P s' → s'.patchHeaps = s.patchHeaps →
      (∀ t', t' ≠ t → s'.allocationHasFailed t' = s.allocationHasFailed t') →
      Outcome P (otherwise s') atHand) :
    Outcome P (s.allocOrElse P t sz ndx (0, 0) otherwise) (s.CanServe t ndx ∨ atHand) := by
  unfold allocOrElse CanServe
  cases hfailed : s.allocationHasFailed t with
  | true => simpa using hotherwise s h rfl fun _ _ => rfl
  | false =>
    obtain ⟨-, hmemory⟩ | ⟨-, hfree, hrun⟩ | ⟨r, s', hne, hrun, hinv, hfree, -⟩ :=
      h.allocIn_spec hsz t (0, 0)
    · exact (hmemory (.inl rfl)).elim
    · rw [hrun]
      dsimp only [bind, Except.bind]
      rw [if_neg Bool.false_ne_true, if_pos rfl]
      simpa [hfree] using hotherwise
        { s with allocationHasFailed := Function.update s.allocationHasFailed t true }
        { h with } rfl fun t' ht' => Function.update_of_ne ht' ..
    · rw [hrun]
      dsimp only [bind, Except.bind]
      rw [if_neg Bool.false_ne_true, if_neg hne]
      exact .inl ⟨.inl ⟨rfl, hfree (.inl rfl)⟩, _, rfl, hinv⟩

theorem Inv.alloc_outcome (tryForNucleus : Bool) :
    Outcome P (s.alloc P sz tryForNucleus fun _ => (0, 0)) (s.AtHand ndx tryForNucleus) := by
  rw [PatchHeap.alloc, hsz]
  cases tryForNucleus with
  | false => simpa [AtHand] using h.allocNonNucleus_outcome hsz
  | true =>
    simp only [AtHand, if_true, true_and, or_assoc]
    refine h.allocOrElse_outcome hsz fun s₁ h₁ hheaps₁ hfailed₁ => ?_
    have hbelow : s₁.CanServe .below ndx ↔ s.CanServe .below ndx := by
      rw [CanServe, CanServe, hfailed₁ _ (by decide), subHeaps, subHeaps, hheaps₁]
    rw [← hbelow]
    refine h₁.allocOrElse_outcome hsz fun s₂ h₂ hheaps₂ _ => ?_
    have hrun := h₂.allocNonNucleus_outcome hsz
    rwa [subHeaps, hheaps₂, hheaps₁] at hrun

end

/-- **Running out of memory** is not reported: a request for which there is no patch at hand ends
in a failed assertion. -/
theorem allocNoMemory_reported_iff (P : HeapPlatform) {ops : List Op}
    (hall : AllAllowed P create ops) {s : PatchHeap} (hrun : ops.foldlM (step P) create = .ok s)
    {sz ndx : Nat} (hsz : heapSizeNdx sz = some ndx) (tryForNucleus : Bool) :
    Reported P (s.allocNoMemory P sz tryForNucleus) ↔ s.AtHand ndx tryForNucleus := by
  have hinv : Inv P s := by
    obtain hstop | ⟨s', hrun', hinv, -⟩ := inv_create.run_keeps ((append_nil ops).symm ▸ hall)
    · cases hrun.symm.trans hstop
    · cases hrun.symm.trans hrun'
      exact hinv
  unfold Reported allocNoMemory
  obtain ⟨hat, s', hok, hinv'⟩ | ⟨hat, herr⟩ := hinv.alloc_outcome hsz tryForNucleus
  · rw [hok]
    refine iff_of_true (.inr ⟨s', rfl, fun ops' hall' => ?_⟩) hat
    exact (hinv'.run_keeps ((append_nil ops').symm ▸ hall')).imp_right
      fun ⟨s'', hrun', h, _⟩ => ⟨s'', hrun', h.safe⟩
  · rw [herr]
    exact iff_of_false (by rintro (h | ⟨s', h, -⟩) <;> cases h) hat

/-- There are patches of 8192 bytes, and none of 64. -/
theorem reported_iff_sampleOps : ∃ s, sampleOps.foldlM (step flat) create = .ok s ∧
    Reported flat (s.allocNoMemory flat 7000 true) ∧
    ¬ Reported flat (s.allocNoMemory flat 64 true) := by
  obtain ⟨s, hrun, hsome, hnone⟩ : ∃ s, sampleOps.foldlM (step flat) create = .ok s ∧
      s.subHeaps .kmem32 14 = [⟨4, 65536, [90112, 73728, 65536], 32768⟩] ∧
      ∀ t, s.subHeaps t 0 = [] := by
    rw [sampleOps, foldlM_cons, step_first]
    exact ⟨_, rfl, rfl, fun t => by cases t <;> rfl⟩
  have hall := allAllowed_sampleOps.of_append
  have hndx : heapSizeNdx 7000 = some 14 := by decide
  have hndx' : heapSizeNdx 64 = some 0 := by decide
  refine ⟨s, hrun, ?_, ?_⟩
  · refine (allocNoMemory_reported_iff flat hall hrun hndx true).mpr (.inr ?_)
    rw [hsome]
    exact ⟨_, mem_singleton_self _, cons_ne_nil _ _⟩
  · refine (allocNoMemory_reported_iff flat hall hrun hndx' true).not.mpr ?_
    unfold AtHand CanServe
    simp only [hnone]
    rintro (⟨-, ⟨-, h⟩ | ⟨-, h⟩⟩ | h)
    all_goals exact not_mem_nil h.choose_spec.1

/-- The first request. -/
theorem allocNoMemory_first : create.allocNoMemory flat 64 true = .error .assertion := rfl

end Kerninst.PatchHeap
