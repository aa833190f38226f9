import Kerninst.Bucket.Bucketer

/-!
# Resetting a bucketer

`reset` leaves the size of the buckets as it is, while the multiple of the first size starts from
one again. So a bucketer is as good as new exactly if no fold had made its buckets longer
(`reset_fresh_iff`): its next operation would compare the two otherwise.

What it has handed out before, and `foldPending`, are not looked at by any operation
(`step_withPast`).
-/

namespace Kerninst.FoldingBucketer

open Option Function

variable {V : Type} [Val V]

/-- `reset`, of both classes -/
def reset (b : FoldingBucketer V) : FoldingBucketer V :=
  { b with
    bucketStartTime := 0
    lastChangeTimePlus1 := 0
    genesisTime := 0
    currValues := b.currValues.map fun _ => 0
    currValuesAreUndefined := true
    currMultipleOfBaseBucketWidth := 1
    numBucketsAddedSinceLastFold := 0
    lastFoldLeftThisManyBuckets := 0 }

/-- The genesis time is set, and operations follow. -/
def runFrom (b : FoldingBucketer V) (gTime : Nat) (ops : List (Op V)) :
    Option (FoldingBucketer V) :=
  (b.setGenesisTime gTime).bind fun b => ops.foldlM step b

/-! ## The past -/

/-- A bucketer that has handed out more before, and had folded before. -/
def withPast (past : List (BucketEvent V) × Bool) (b : FoldingBucketer V) : FoldingBucketer V :=
  { b with told := past.1 ++ b.told, foldPending := past.2 || b.foldPending }

section Past

variable (past : List (BucketEvent V) × Bool) (b : FoldingBucketer V)

omit [Val V] in
theorem processNumbered_withPast (event : Nat → BucketEvent V) (startTime endTimePlus1 : Nat) :
    (b.withPast past).processNumbered event startTime endTimePlus1 =
      (b.processNumbered event startTime endTimePlus1).map (withPast past) := by
  simp only [processNumbered, run_do, map_bind, comp_def, map_some, withPast, List.append_assoc]
  rfl

theorem foldOnce_withPast : (b.withPast past).foldOnce = b.foldOnce.map (withPast past) := by
  simp only [foldOnce, maybeReduceBucketStartTime, run_do, map_bind, comp_def, map_some,
    apply_ite (withPast past)]
  rfl

theorem forceFold_withPast (multiple : Nat) :
    (b.withPast past).forceFoldUpToABaseMultiple multiple =
      (b.forceFoldUpToABaseMultiple multiple).map (Prod.map (withPast past) id) := by
  have hloop : (b.withPast past).foldUpTo multiple = (b.foldUpTo multiple).map (withPast past) :=
    whileM_map (f := withPast past) (fun _ => rfl) (foldOnce_withPast past) 32 b
  refine ite_hom rfl (bind_hom hloop fun c => bind_same fun _ => ?_)
  simp [withPast]

theorem finishedProcessingBucket_withPast :
    (b.withPast past).finishedProcessingBucket =
      b.finishedProcessingBucket.map (withPast past) := by
  refine bind_hom (e := withPast past) (bind_same fun _ => bind_hom (ite_hom ?_ rfl) ?_)
    fun c => bind_same fun _ => rfl
  · exact bind_hom (forceFold_withPast past b _) fun r => bind_same fun _ => rfl
  · exact fun c => bind_same fun _ => rfl

theorem finishBucket_withPast {process : FoldingBucketer V → Nat → Option (FoldingBucketer V)}
    (hprocess : ∀ b t, process (b.withPast past) t = (process b t).map (withPast past)) :
    (b.withPast past).finishBucket process = (b.finishBucket process).map (withPast past) := by
  refine bind_same fun _ => bind_same fun _ => bind_hom (hprocess b _) fun c => ?_
  exact bind_hom (bind_same fun _ => rfl) (finishedProcessingBucket_withPast past)

theorem processBlank_withPast (t : Nat) :
    (b.withPast past).processBlank t = (b.processBlank t).map (withPast past) := by
  refine ite_hom (processNumbered_withPast past b _ _ _) ?_
  have hpresentable : (b.withPast past).makeFullBucketCurrValuesPresentable =
      b.makeFullBucketCurrValuesPresentable.withPast past := by
    unfold makeFullBucketCurrValuesPresentable
    cases h : b.howValuesAreCombined <;> simp only [withPast, h]
  rw [hpresentable]
  exact processNumbered_withPast past _ _ _ _

theorem addBlanksTo_withPast (timePlus1 : Nat) :
    (b.withPast past).addBlanksTo timePlus1 = (b.addBlanksTo timePlus1).map (withPast past) := by
  have hround (b : FoldingBucketer V) :
      (b.withPast past).fillBlank = b.fillBlank.map (withPast past) :=
    bind_same fun _ => finishBucket_withPast past
      { b with lastChangeTimePlus1 := _ } (processBlank_withPast past)
  refine bind_same fun _ => bind_same fun _ => ite_hom rfl ?_
  refine bind_hom (whileM_map (f := withPast past) (fun _ => rfl) hround _ b) fun c => ?_
  exact bind_same fun _ => bind_same fun _ => rfl

theorem addTo_withPast (timePlus1 : Nat) (deltavals : List V) :
    (b.withPast past).addTo timePlus1 deltavals =
      (b.addTo timePlus1 deltavals).map (withPast past) := by
  have hround (s : FoldingBucketer V × List V) : fillBucket timePlus1 (s.map (withPast past) id) =
      (fillBucket timePlus1 s).map (Prod.map (withPast past) id) := by
    refine bind_same fun _ => bind_same fun r => bind_hom (finishBucket_withPast past
      ⟨_, _, _, _, r.1, false, _, _, _, _, _, _, _⟩ fun b t => ?_) fun c => rfl
    exact processNumbered_withPast past b _ _ _
  refine bind_same fun _ => bind_same fun _ => bind_same fun _ => bind_same fun _ =>
    bind_same fun _ => ?_
  refine bind_hom (whileM_map (f := Prod.map (withPast past) id) (fun _ => rfl) hround _ (b, _))
    fun s => ?_
  exact bind_same fun _ => rfl

/-- **No operation looks at the past.** -/
theorem step_withPast (op : Op V) :
    (b.withPast past).step op = (b.step op).map (withPast past) := by
  cases op with
  | add startTime endTimePlus1 deltavals =>
    refine bind_same fun _ => bind_same fun _ => bind_same fun _ =>
      bind_hom (e := withPast past) ?_ fun c => ?_
    · exact ite_hom (addBlanksTo_withPast past b startTime) rfl
    · exact bind_same fun _ => addTo_withPast past c endTimePlus1 deltavals
  | addBlanksTo timePlus1 => exact addBlanksTo_withPast past b timePlus1
  | forceFold multiple =>
    rw [step, step, forceFold_withPast, map_map, map_map]
    rfl

theorem foldlM_withPast (ops : List (Op V)) : ∀ b : FoldingBucketer V,
    ops.foldlM step (b.withPast past) = (ops.foldlM step b).map (withPast past) := by
  induction ops with
  | nil => exact fun _ => rfl
  | cons op ops ih => exact fun b => bind_hom (step_withPast past b op) ih

theorem runFrom_withPast (gTime : Nat) (ops : List (Op V)) :
    (b.withPast past).runFrom gTime ops = (b.runFrom gTime ops).map (withPast past) := by
  refine bind_hom (e := withPast past) ?_ (foldlM_withPast past ops)
  exact bind_same fun _ => bind_same fun _ => bind_same fun _ => bind_same fun _ => rfl

end Past

/-! ## A fresh start -/

/-- **As good as new**: whatever the genesis time and the operations, the bucketer hands out what a
new one with the same parameters does, and fails an assertion when that one does. -/
def AsNew (b : FoldingBucketer V) : Prop :=
  ∀ gTime ops, (b.reset.runFrom gTime ops).map told =
    ((create b.currValues.length b.theBaseBucketSize b.howValuesAreCombined).runFrom gTime ops).map
      fun c => b.told ++ c.told

theorem create_forceFold_isSome (numValues size : Nat) (how : ValueScaling) :
    ((create numValues size how : FoldingBucketer V).runFrom 1 [.forceFold 2]).isSome := by
  let started : FoldingBucketer V :=
    { create numValues size how with
      genesisTime := 1, lastChangeTimePlus1 := 1, bucketStartTime := 1 }
  have hstart : (create numValues size how).setGenesisTime 1 = some started := by
    simp [setGenesisTime, create, check, Val.isZero_zero, started]
  have honce : started.foldOnce = some started.doubled := by
    simp [foldOnce, getCurrBucketSize, getGenesisTime, maybeReduceBucketStartTime, check, doubled,
      currNumBuckets, started, create, Nat.mul_comm]
  have hloop : started.foldUpTo 2 = some started.doubled := by
    have hless : decide (started.currMultipleOfBaseBucketWidth < 2) = true := rfl
    rw [foldUpTo, whileM, if_pos hless, honce]
    exact whileM_of_not rfl
  have hone : started.currMultipleOfBaseBucketWidth = 1 := rfl
  have htwo : started.doubled.currMultipleOfBaseBucketWidth = 2 := rfl
  rw [runFrom, hstart]
  simp [step, forceFoldUpToABaseMultiple, hone, hloop, htwo, check]

/-- **Reset gives a fresh bucketer** exactly if the buckets have their first size. -/
theorem reset_fresh_iff (b : FoldingBucketer V) :
    b.AsNew ↔ b.bucketSize = b.theBaseBucketSize := by
  constructor
  · intro h
    by_contra hne
    have hfails : b.reset.runFrom 1 [.forceFold 2] = none := by
      -- the fold compares the size of the buckets with the multiple
      simp [runFrom, setGenesisTime, reset, step, forceFoldUpToABaseMultiple, foldUpTo, whileM,
        foldOnce, getCurrBucketSize, check, hne, Val.isZero_zero]
    obtain ⟨c, hc⟩ := isSome_iff_exists.mp (create_forceFold_isSome (V := V) b.currValues.length
      b.theBaseBucketSize b.howValuesAreCombined)
    have hnew := h 1 [.forceFold 2]
    rw [hfails, hc] at hnew
    cases hnew
  · intro hsize gTime ops
    have hreset : b.reset = (create b.currValues.length b.theBaseBucketSize
        b.howValuesAreCombined).withPast (b.told, b.foldPending) := by
      simp [reset, create, withPast, hsize]
    rw [hreset, runFrom_withPast, map_map]
    rfl

/-- A bucketer folds, is reset, and is to fold again. -/
theorem not_asNew_folded : ∃ b : FoldingBucketer (BitVec 64),
    (create 1 6 .proportionalToTime).runFrom 1 [.forceFold 2] = some b ∧
      b.reset.runFrom 1 [.forceFold 2] = none ∧ ¬ b.AsNew := by
  refine ⟨_, rfl, rfl, fun h => ?_⟩
  exact absurd (congrArg isSome (h 1 [.forceFold 2])) (by decide)

end Kerninst.FoldingBucketer
