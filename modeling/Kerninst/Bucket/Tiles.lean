import Kerninst.Bucket.Bucketer
import Mathlib.Tactic.Linarith
import Mathlib.Tactic.Ring

/-!
# Buckets tile time

The buckets that were handed out follow each other from the genesis time on, without gaps, and
all of them have the current size. The bucket that is being filled comes next, and reaches
beyond the time of the last change (`Tiled`).

What a round of either loop does is said once, by an equation (`finishBucket_eq`): the bucket is
handed out, the next one begins, and if that makes 1000 they are folded. The fold doubles the
multiple, which is an `unsigned`. The 32nd one makes it 0, and is refused. So time is limited to
1000 times `2 ^ 31` times the size of the first bucket (`limit`).

There is one more assertion that can fail. A value is split over several buckets, and what goes to
the first of them must not exceed the value. That is so for integers, but not for `double`,
because of rounding (`Val.Shrinks`).
-/

namespace Kerninst

open List Option
open Relation (ReflTransGen)

/-- The part of a value for a part of its time does not exceed it. -/
def Val.Shrinks (V : Type) [Val V] : Prop :=
  ∀ (val : V) (timeToUse timeAvailable : Nat), 0 < timeToUse → timeToUse ≤ timeAvailable →
    Val.ge val (Val.scale val timeToUse timeAvailable) = true

theorem Val.shrinks_bitVec (n : Nat) : Val.Shrinks (BitVec n) := by
  intro val timeToUse timeAvailable hpos hle
  have hproduct : (val.toNat * timeToUse) % 2 ^ n ≤ val.toNat * timeAvailable :=
    (Nat.mod_le _ _).trans (Nat.mul_le_mul_left _ hle)
  have hquotient : (val.toNat * timeToUse) % 2 ^ n / timeAvailable ≤ val.toNat :=
    (Nat.div_le_div_right hproduct).trans (Nat.mul_div_cancel _ (by omega)).le
  simp only [Val.ge, Val.scale, Val.divTime, Val.mulTime, BitVec.toNat_ofNat, decide_eq_true_eq]
  exact (Nat.mod_le _ _).trans hquotient

namespace FoldingBucketer

variable {V : Type}

/-! ## What holds at all times -/

/-- The number of buckets and the multiple, after one more event. A bucket must have the next
number; a fold leaves a part of the buckets, rounded down. -/
def numbering (s : Nat × Nat) : BucketEvent V → Option (Nat × Nat)
  | .bucket bucketNum _ _ _ | .undefinedBucket bucketNum =>
    if bucketNum = s.1 then some (s.1 + 1, s.2) else none
  | .fold newMultiple => some (s.1 / (newMultiple / s.2), newMultiple)

/-- **Buckets tile time.** -/
structure Tiled (b : FoldingBucketer V) : Prop where
  starts : b.bucketStartTime = b.genesisTime + b.currNumBuckets * b.bucketSize
  unfinished : b.lastChangeTimePlus1 < b.bucketStartTime + b.bucketSize
  numbered : b.told.foldlM numbering (0, 1) =
    some (b.currNumBuckets, b.currMultipleOfBaseBucketWidth)

/-- The current bucket is where it should be. -/
structure Aligned (b : FoldingBucketer V) : Prop where
  genesis_pos : 0 < b.genesisTime
  base_pos : 0 < b.theBaseBucketSize
  size : b.bucketSize = b.currMultipleOfBaseBucketWidth * b.theBaseBucketSize
  starts : b.bucketStartTime = b.genesisTime + b.currNumBuckets * b.bucketSize

/-- Folds have kept the number of buckets below 1000. -/
structure Numbered (b : FoldingBucketer V) : Prop where
  multiple : ∃ k < 32, b.currMultipleOfBaseBucketWidth = 2 ^ k
  count : b.currNumBuckets < 1000
  numbered : b.told.foldlM numbering (0, 1) =
    some (b.currNumBuckets, b.currMultipleOfBaseBucketWidth)

/-- The time of the last change is in the current bucket. -/
structure Foldable (b : FoldingBucketer V) : Prop extends Aligned b where
  started : b.bucketStartTime ≤ b.lastChangeTimePlus1
  unfinished : b.lastChangeTimePlus1 < b.bucketStartTime + b.bucketSize

/-- The current bucket is full. -/
structure Full (b : FoldingBucketer V) : Prop extends Aligned b, Numbered b where
  full : b.lastChangeTimePlus1 = b.bucketStartTime + b.bucketSize

/-- What the loops keep. -/
structure Good (b : FoldingBucketer V) : Prop extends Foldable b, Numbered b

/-- The time that 1000 buckets of the largest size take. -/
def limit (b : FoldingBucketer V) : Nat := b.genesisTime + 1000 * (2 ^ 31 * b.theBaseBucketSize)

section

variable {b : FoldingBucketer V}

theorem Good.tiled (h : Good b) : Tiled b := ⟨h.starts, h.unfinished, h.numbered⟩

theorem Numbered.multiple_pos (h : Numbered b) : 0 < b.currMultipleOfBaseBucketWidth := by
  obtain ⟨k, -, hk⟩ := h.multiple
  rw [hk]
  exact Nat.two_pow_pos k

theorem Aligned.size_pos (h : Aligned b) (hn : Numbered b) : 0 < b.bucketSize := by
  rw [h.size]
  exact Nat.mul_pos hn.multiple_pos h.base_pos

/-- The multiple is at most `2 ^ 31`. -/
theorem Good.size_le (h : Good b) : b.bucketSize ≤ 2 ^ 31 * b.theBaseBucketSize := by
  obtain ⟨k, hk32, hk⟩ := h.multiple
  rw [h.size, hk]
  exact Nat.mul_le_mul_right _ (Nat.pow_le_pow_right (by decide) (by omega))

/-- Good buckets are within the limit. -/
theorem Good.lt_limit (h : Good b) : b.lastChangeTimePlus1 < b.limit := by
  have hbuckets : (b.currNumBuckets + 1) * b.bucketSize ≤ 1000 * (2 ^ 31 * b.theBaseBucketSize) :=
    Nat.mul_le_mul h.count h.size_le
  have hunfinished := h.unfinished
  rw [h.starts] at hunfinished
  rw [limit]
  linarith [Nat.add_mul b.currNumBuckets 1 b.bucketSize]

end

/-- What an operation does not change. -/
structure Same (b b' : FoldingBucketer V) : Prop where
  genesis : b'.genesisTime = b.genesisTime
  base : b'.theBaseBucketSize = b.theBaseBucketSize
  combined : b'.howValuesAreCombined = b.howValuesAreCombined
  length : b'.currValues.length = b.currValues.length

section

variable {b b' b'' : FoldingBucketer V}

theorem Same.refl (b : FoldingBucketer V) : Same b b := ⟨rfl, rfl, rfl, rfl⟩

theorem Same.trans (h : Same b b') (h' : Same b' b'') : Same b b'' :=
  ⟨h'.genesis.trans h.genesis, h'.base.trans h.base, h'.combined.trans h.combined,
    h'.length.trans h.length⟩

theorem Same.limit_eq (h : Same b b') : b'.limit = b.limit := by
  rw [limit, limit, h.genesis, h.base]

end

/-- The current bucket with its time used up, and some values. -/
def filled (b : FoldingBucketer V) (vals : List V) (areUndefined : Bool) : FoldingBucketer V :=
  { b with
    lastChangeTimePlus1 := b.bucketStartTime + b.bucketSize
    currValues := vals
    currValuesAreUndefined := areUndefined }

variable {b : FoldingBucketer V}

theorem Good.full_filled (h : Good b) (vals : List V) (areUndefined : Bool) :
    Full (b.filled vals areUndefined) :=
  { h with full := rfl }

/-- The time that is left of the bucket. -/
theorem Good.time_eq (h : Good b) : b.lastChangeTimePlus1 +
    (b.bucketSize - (b.lastChangeTimePlus1 - b.bucketStartTime)) =
      b.bucketStartTime + b.bucketSize := by
  have := h.started
  have := h.unfinished
  omega

/-- There is one bucket left, and the multiple cannot be doubled any more. -/
def Exhausted (b : FoldingBucketer V) : Prop :=
  b.currNumBuckets = 999 ∧ b.currMultipleOfBaseBucketWidth = 2 ^ 31

instance (b : FoldingBucketer V) : Decidable b.Exhausted := inferInstanceAs (Decidable (_ ∧ _))

/-- What both loops keep, for time up to `timePlus1`. -/
structure Filling (b₀ : FoldingBucketer V) (timePlus1 : Nat) (b : FoldingBucketer V) : Prop where
  good : Good b
  le : b.lastChangeTimePlus1 ≤ timePlus1
  same : Same b₀ b

section

variable {b₀ b : FoldingBucketer V} {t : Nat}

theorem Good.le_of_fills (h : Good b) (hfills : b.fills t = true) :
    b.bucketStartTime + b.bucketSize ≤ t := by
  have hpos := h.size_pos h.toNumbered
  have hle : b.bucketSize ≤ t - b.bucketStartTime := of_decide_eq_true hfills
  omega

/-- Time runs out only at the limit. -/
theorem Good.limit_le (h : Good b) (hex : b.Exhausted) (hfills : b.fills t = true) :
    b.limit ≤ t := by
  refine le_trans (le_of_eq ?_) (h.le_of_fills hfills)
  rw [h.starts, hex.1, h.size, hex.2, limit]
  ring

theorem Filling.not_exhausted (h : Filling b₀ t b) (hfills : b.fills t = true)
    (hlt : t < b₀.limit) : ¬ b.Exhausted := by
  intro hex
  have hle := h.good.limit_le hex hfills
  rw [h.same.limit_eq] at hle
  omega

/-- Less time is left after a round. -/
theorem Filling.time_lt (h : Filling b₀ t b) (hfills : b.fills t = true) {start : Nat}
    (hstart : start = b.bucketStartTime + b.bucketSize) : t - start < t - b.bucketStartTime := by
  have hpos := h.good.size_pos h.good.toNumbered
  have hle := h.good.le_of_fills hfills
  omega

/-- After the loop, the time is in the current bucket. -/
theorem Filling.done (h : Filling b₀ t b) (hnot : b.fills t = false) (vals : List V)
    (areUndefined : Bool) :
    Good { b with
      lastChangeTimePlus1 := t, currValues := vals, currValuesAreUndefined := areUndefined } := by
  have hgood := h.good
  have hlt : ¬ b.bucketSize ≤ t - b.bucketStartTime := of_decide_eq_false hnot
  have hle := hgood.started.trans h.le
  refine { hgood with started := hle, unfinished := ?_ }
  change t < b.bucketStartTime + b.bucketSize
  omega

end

/-! ## Folds -/

section

variable {b : FoldingBucketer V}

theorem getCurrBucketSize_eq
    (h : b.bucketSize = b.currMultipleOfBaseBucketWidth * b.theBaseBucketSize) :
    b.getCurrBucketSize = some b.bucketSize := by
  rw [getCurrBucketSize, check_pos h]
  rfl

theorem getGenesisTime_eq (h : 0 < b.genesisTime) : b.getGenesisTime = some b.genesisTime := by
  rw [getGenesisTime, check_pos h.ne']
  rfl

end

/-- Handing out a full bucket passes the assertions. -/
theorem Full.processNumbered_eq (h : Full b) (numbered : Nat → BucketEvent V) :
    b.processNumbered numbered b.bucketStartTime (b.bucketStartTime + b.bucketSize) = some { b with
        told := b.told ++ [numbered b.currNumBuckets]
        numBucketsAddedSinceLastFold := b.numBucketsAddedSinceLastFold + 1 } := by
  simp [processNumbered, check_pos (show b.currNumBuckets < numBucketsBeforeAFold from h.count),
    getCurrBucketSize_eq h.size, getGenesisTime_eq h.genesis_pos, check_pos,
    check_pos h.starts.symm]

theorem foldlM_told_append {events : List (BucketEvent V)} {event : BucketEvent V}
    {s s' : Nat × Nat} (h : events.foldlM numbering (0, 1) = some s)
    (hevent : numbering s event = some s') :
    (events ++ [event]).foldlM numbering (0, 1) = some s' := by
  rw [foldlM_append, h]
  simp [hevent]

variable [Val V]

/-- The values if the bucket is to start at `newBucketStartTime`. -/
def movedValues (b : FoldingBucketer V) (newBucketStartTime : Nat) : List V :=
  if newBucketStartTime = b.bucketStartTime then b.currValues
  else b.stretched (b.lastChangeTimePlus1 - newBucketStartTime)
    (b.lastChangeTimePlus1 - b.bucketStartTime)

section

variable {b : FoldingBucketer V} {start : Nat}

theorem length_movedValues : (b.movedValues start).length = b.currValues.length := by
  unfold movedValues stretched
  split
  · rfl
  · split
    · exact length_map ..
    · rfl

theorem maybeReduceBucketStartTime_eq
    (hsize : b.bucketSize = b.currMultipleOfBaseBucketWidth * b.theBaseBucketSize)
    (hstarted : b.bucketStartTime ≤ b.lastChangeTimePlus1) (hle : start ≤ b.bucketStartTime)
    (hfits : b.lastChangeTimePlus1 ≤ start + b.bucketSize) :
    b.maybeReduceBucketStartTime start =
      some { b with bucketStartTime := start, currValues := b.movedValues start } := by
  have h₁ : b.lastChangeTimePlus1 - b.bucketStartTime ≤ b.lastChangeTimePlus1 - start := by omega
  have h₂ : b.lastChangeTimePlus1 - start ≤ b.bucketSize := by omega
  simp only [maybeReduceBucketStartTime, getCurrBucketSize_eq hsize,
    check_pos (And.intro hstarted hfits), check_pos h₁, check_pos h₂, check_pos hle, run_do,
    movedValues]
  by_cases hs : start = b.bucketStartTime
  · rw [if_pos hs, if_pos hs, hs]
  · rw [if_neg hs, if_neg hs]

/-- **A fold.** The start of the current bucket moves only if the number of buckets is odd. -/
theorem foldOnce_eq (h : Foldable b) (hm : b.currMultipleOfBaseBucketWidth * 2 < 2 ^ 32) :
    ∃ start vals, b.foldOnce =
        some { b.doubled with bucketStartTime := start, currValues := vals } ∧
      vals.length = b.currValues.length ∧
      (b.currNumBuckets % 2 = 0 → start = b.bucketStartTime ∧ vals = b.currValues) ∧
      Foldable { b.doubled with bucketStartTime := start, currValues := vals } := by
  have hsize : b.doubled.bucketSize =
      b.doubled.currMultipleOfBaseBucketWidth * b.doubled.theBaseBucketSize := by
    change b.bucketSize * 2 = b.currMultipleOfBaseBucketWidth * 2 % 2 ^ 32 * b.theBaseBucketSize
    rw [Nat.mod_eq_of_lt hm, h.size, Nat.mul_right_comm]
  set start := b.genesisTime + b.currNumBuckets / 2 * (b.bucketSize * 2) with hstart
  -- the new start is the old one, or that of the bucket before it
  have hcount : b.currNumBuckets = 2 * (b.currNumBuckets / 2) + b.currNumBuckets % 2 :=
    (Nat.div_add_mod ..).symm
  have hmoved : start + b.currNumBuckets % 2 * b.bucketSize = b.bucketStartTime := by
    rw [h.starts, hstart]
    conv_rhs => rw [hcount]
    ring
  have hodd : b.currNumBuckets % 2 * b.bucketSize ≤ b.bucketSize := by
    calc b.currNumBuckets % 2 * b.bucketSize ≤ 1 * b.bucketSize :=
          Nat.mul_le_mul_right _ (by omega)
      _ = b.bucketSize := Nat.one_mul _
  have hle : start ≤ b.bucketStartTime := by omega
  have hunfinished : b.lastChangeTimePlus1 < start + b.bucketSize * 2 := by
    have := h.unfinished
    omega
  have hrun : b.foldOnce = b.doubled.maybeReduceBucketStartTime start := by
    rw [foldOnce, getCurrBucketSize_eq h.size, getCurrBucketSize_eq hsize,
      getGenesisTime_eq (show 0 < b.doubled.genesisTime from h.genesis_pos)]
    rfl
  refine ⟨start, b.doubled.movedValues start, ?_, length_movedValues, fun heven => ?_, ?_⟩
  · rw [hrun, maybeReduceBucketStartTime_eq hsize h.started hle hunfinished.le]
  · rw [heven, Nat.zero_mul, Nat.add_zero] at hmoved
    exact ⟨hmoved, if_pos hmoved⟩
  · exact ⟨⟨h.genesis_pos, h.base_pos, hsize, hstart⟩, hle.trans h.started, hunfinished⟩

end

/-- The buckets when 1000 of them have been folded. -/
def folded (b : FoldingBucketer V) : FoldingBucketer V :=
  { b.doubled with
    foldPending := true
    told := b.told ++ [.fold (b.currMultipleOfBaseBucketWidth * 2 % 2 ^ 32)] }

section

variable {b : FoldingBucketer V}

/-- One fold of an even number of buckets. -/
theorem forceFold_double (h : Foldable b) (heven : b.currNumBuckets % 2 = 0)
    (hpos : 0 < b.currMultipleOfBaseBucketWidth)
    (hm : b.currMultipleOfBaseBucketWidth * 2 < 2 ^ 32) :
    b.forceFoldUpToABaseMultiple (b.currMultipleOfBaseBucketWidth * 2 % 2 ^ 32) =
      some (b.folded, true) ∧ Foldable b.folded := by
  have hmod : b.currMultipleOfBaseBucketWidth * 2 % 2 ^ 32 = b.currMultipleOfBaseBucketWidth * 2 :=
    Nat.mod_eq_of_lt hm
  obtain ⟨start, vals, hfold, -, hsame, hf⟩ := foldOnce_eq h hm
  obtain ⟨rfl, rfl⟩ := hsame heven
  have hloop : b.foldUpTo (b.currMultipleOfBaseBucketWidth * 2 % 2 ^ 32) = some b.doubled := by
    have hfirst : b.currMultipleOfBaseBucketWidth < b.currMultipleOfBaseBucketWidth * 2 := by omega
    have hthen : ¬ b.doubled.currMultipleOfBaseBucketWidth <
      b.currMultipleOfBaseBucketWidth * 2 := by
      change ¬ b.currMultipleOfBaseBucketWidth * 2 % 2 ^ 32 < _
      omega
    rw [foldUpTo, hmod, whileM, decide_eq_true hfirst, if_pos rfl, hfold, bind_some]
    exact whileM_of_not (decide_eq_false hthen)
  have hnot : ¬ b.currMultipleOfBaseBucketWidth * 2 % 2 ^ 32 ≤ b.currMultipleOfBaseBucketWidth := by
    omega
  have hreached : b.doubled.currMultipleOfBaseBucketWidth =
      b.currMultipleOfBaseBucketWidth * 2 % 2 ^ 32 := rfl
  rw [forceFoldUpToABaseMultiple, if_neg hnot, hloop, bind_eq_bind, bind_some, check_pos hreached]
  exact ⟨rfl, { hf with }⟩

end

/-! ## A bucket is finished -/

/-- The buckets after one that was full has been handed out. -/
def next (b : FoldingBucketer V) (event : BucketEvent V) : FoldingBucketer V :=
  { b with
    told := b.told ++ [event]
    numBucketsAddedSinceLastFold := b.numBucketsAddedSinceLastFold + 1
    bucketStartTime := b.lastChangeTimePlus1
    currValuesAreUndefined := true
    currValues := b.currValues.map fun _ => 0 }

/-- The same, folded if that makes 1000. -/
def nextFolded (b : FoldingBucketer V) (event : BucketEvent V) : FoldingBucketer V :=
  if b.currNumBuckets = 999 then (b.next event).folded else b.next event

section

variable {b : FoldingBucketer V} {event : BucketEvent V}

theorem currNumBuckets_next : (b.next event).currNumBuckets = b.currNumBuckets + 1 :=
  (Nat.add_assoc ..).symm

theorem Full.foldable_next (h : Full b) : Foldable (b.next event) where
  genesis_pos := h.genesis_pos
  base_pos := h.base_pos
  size := h.size
  starts := by
    change b.lastChangeTimePlus1 = b.genesisTime + (b.next event).currNumBuckets * b.bucketSize
    rw [h.full, h.starts, currNumBuckets_next, Nat.add_mul, Nat.one_mul, Nat.add_assoc]
  started := le_refl _
  unfinished := Nat.lt_add_of_pos_right (h.size_pos h.toNumbered)

/-- A power of two of 32 bits that is not the last can be doubled. -/
theorem double_lt {m : Nat} (hm : ∃ k < 32, m = 2 ^ k) (hne : m ≠ 2 ^ 31) :
    ∃ k < 32, m * 2 = 2 ^ k := by
  obtain ⟨k, hk, rfl⟩ := hm
  have hk31 : k ≠ 31 := fun h => hne (by rw [h])
  exact ⟨k + 1, by omega, (pow_succ 2 k).symm⟩

theorem lt_of_double {m : Nat} (h : ∃ k < 32, m * 2 = 2 ^ k) : m * 2 < 2 ^ 32 := by
  obtain ⟨k, hk, h⟩ := h
  rw [h]
  exact Nat.pow_lt_pow_right (by decide) hk

theorem Full.finishedProcessingBucket_eq (h : Full b) : (b.next event).finishedProcessingBucket =
      if b.Exhausted then none else some (b.nextFolded event) := by
  have hcount := h.count
  have hle : (b.next event).currNumBuckets ≤ numBucketsBeforeAFold := by
    rw [currNumBuckets_next, numBucketsBeforeAFold]
    omega
  rw [finishedProcessingBucket, foldIfAppropriate, check_pos hle]
  by_cases hn : b.currNumBuckets = 999
  · have h1000 : (b.next event).currNumBuckets = numBucketsBeforeAFold := by
      rw [currNumBuckets_next, hn]
      rfl
    by_cases hm : b.currMultipleOfBaseBucketWidth = 2 ^ 31
    · have hm' : (b.next event).currMultipleOfBaseBucketWidth = 2 ^ 31 := hm
      have hnone : (b.next event).foldIfFull = none := by
        rw [foldIfFull, if_pos h1000, forceFoldUpToABaseMultiple, hm', if_pos (by decide)]
        rfl
      rw [if_pos ⟨hn, hm⟩, hnone]
      rfl
    · have hdouble := double_lt h.multiple hm
      have hsome : (b.next event).foldIfFull = some (b.next event).folded := by
        rw [foldIfFull, if_pos h1000, (forceFold_double h.foldable_next (by rw [h1000]; rfl)
          h.multiple_pos (lt_of_double hdouble)).1]
        rfl
      have hlt : (b.next event).folded.currNumBuckets < numBucketsBeforeAFold := by
        change (b.next event).currNumBuckets / 2 + 0 < _
        rw [h1000, numBucketsBeforeAFold]
        decide
      rw [if_neg fun he => hm he.2, hsome, nextFolded, if_pos hn]
      simp [check_pos hlt]
  · have hne : (b.next event).currNumBuckets ≠ numBucketsBeforeAFold := by
      rw [currNumBuckets_next, numBucketsBeforeAFold]
      omega
    rw [if_neg fun he => hn he.1, foldIfFull, if_neg hne, nextFolded, if_neg hn]
    simp [check_pos (lt_of_le_of_ne hle hne)]

/-- **A bucket is finished.** -/
theorem Full.finishBucket_eq (h : Full b) (vals : List V)
    {process : FoldingBucketer V → Nat → Option (FoldingBucketer V)}
    (hlen : vals.length = b.currValues.length)
    (hprocess : process b (b.bucketStartTime + b.bucketSize) = some { b with
        told := b.told ++ [event]
        numBucketsAddedSinceLastFold := b.numBucketsAddedSinceLastFold + 1
        currValues := vals }) :
    b.finishBucket process = if b.Exhausted then none else some (b.nextFolded event) := by
  have hfull : b.lastChangeTimePlus1 - b.bucketStartTime = b.bucketSize := by
    rw [h.full, Nat.add_sub_cancel_left]
  have hzeros : (vals.map fun _ => (0 : V)) = b.currValues.map fun _ => 0 := by
    rw [map_const', map_const', hlen]
  simp only [finishBucket, check_pos hfull, check_pos h.full.symm, hprocess,
    startWorkingOnNextBucket, run_do, hzeros]
  rw [← h.full]
  exact h.finishedProcessingBucket_eq

/-- **The next bucket is as it should be.** -/
theorem Full.good_nextFolded (h : Full b) (hex : ¬ b.Exhausted)
    (hevent : numbering (b.currNumBuckets, b.currMultipleOfBaseBucketWidth) event =
      some (b.currNumBuckets + 1, b.currMultipleOfBaseBucketWidth)) :
    Good (b.nextFolded event) := by
  have hnext : Foldable (b.next event) := h.foldable_next
  have htold := foldlM_told_append h.numbered hevent
  have hcount := h.count
  unfold nextFolded
  split
  case isTrue hn =>
    have hm : b.currMultipleOfBaseBucketWidth ≠ 2 ^ 31 := fun hm => hex ⟨hn, hm⟩
    have hdouble := double_lt h.multiple hm
    have hmod : b.currMultipleOfBaseBucketWidth * 2 % 2 ^ 32 =
        b.currMultipleOfBaseBucketWidth * 2 := Nat.mod_eq_of_lt (lt_of_double hdouble)
    have h500 : (b.next event).folded.currNumBuckets = 500 := by
      change (b.next event).currNumBuckets / 2 + 0 = 500
      rw [currNumBuckets_next, hn]
    have hquotient : b.currMultipleOfBaseBucketWidth * 2 / b.currMultipleOfBaseBucketWidth = 2 :=
      Nat.mul_div_cancel_left 2 h.multiple_pos
    have hfold : numbering (V := V) (b.currNumBuckets + 1, b.currMultipleOfBaseBucketWidth)
        (.fold (b.currMultipleOfBaseBucketWidth * 2 % 2 ^ 32)) =
          some (500, b.currMultipleOfBaseBucketWidth * 2) := by
      simp only [numbering, hmod, hn, hquotient, Nat.reduceAdd, Nat.reduceDiv]
    refine ⟨(forceFold_double hnext (by rw [currNumBuckets_next, hn]) h.multiple_pos
      (lt_of_double hdouble)).2, ?_, ?_, ?_⟩
    · change ∃ k < 32, b.currMultipleOfBaseBucketWidth * 2 % 2 ^ 32 = 2 ^ k
      rw [hmod]
      exact hdouble
    · rw [h500]
      decide
    · rw [h500]
      change _ = some (500, b.currMultipleOfBaseBucketWidth * 2 % 2 ^ 32)
      rw [hmod]
      exact foldlM_told_append htold hfold
  case isFalse hn =>
    refine ⟨hnext, h.multiple, ?_, ?_⟩
    · rw [currNumBuckets_next]
      omega
    · exact htold

end

/-! ## Rounds of the loops -/

/-- What a bucket that is full with some values is handed out as. -/
def bucketEvent (b : FoldingBucketer V) (vals : List V) : BucketEvent V :=
  .bucket b.currNumBuckets vals b.bucketStartTime (b.bucketStartTime + b.bucketSize)

/-- What a blank bucket is handed out as. -/
def blankEvent (b : FoldingBucketer V) : BucketEvent V :=
  if b.currValuesAreUndefined then .undefinedBucket b.currNumBuckets
  else b.bucketEvent b.makeFullBucketCurrValuesPresentable.currValues

/-- The buckets after a round of `addBlanksTo`. -/
def afterBlank (b : FoldingBucketer V) : FoldingBucketer V :=
  (b.filled b.currValues b.currValuesAreUndefined).nextFolded b.blankEvent

/-- The buckets after a round of `add` that has made the values `vals`. -/
def afterBucket (b : FoldingBucketer V) (vals : List V) : FoldingBucketer V :=
  (b.filled vals false).nextFolded (b.bucketEvent vals)

section

variable {b : FoldingBucketer V} {event : BucketEvent V} {vals : List V} {areUndefined : Bool}

theorem same_nextFolded (hlen : vals.length = b.currValues.length) :
    Same b ((b.filled vals areUndefined).nextFolded event) := by
  unfold nextFolded
  split
  · exact ⟨rfl, rfl, rfl, (length_map ..).trans hlen⟩
  · exact ⟨rfl, rfl, rfl, (length_map ..).trans hlen⟩

theorem bucketStartTime_nextFolded :
    ((b.filled vals areUndefined).nextFolded event).bucketStartTime =
      b.bucketStartTime + b.bucketSize := by
  unfold nextFolded
  split <;> rfl

theorem lastChangeTimePlus1_nextFolded :
    ((b.filled vals areUndefined).nextFolded event).lastChangeTimePlus1 =
      b.bucketStartTime + b.bucketSize := by
  unfold nextFolded
  split <;> rfl

theorem presentable_filled :
    (b.filled b.currValues areUndefined).makeFullBucketCurrValuesPresentable =
      b.filled b.makeFullBucketCurrValuesPresentable.currValues areUndefined := by
  cases how : b.howValuesAreCombined <;>
    simp [makeFullBucketCurrValuesPresentable, filled, how]

theorem length_presentable :
    b.makeFullBucketCurrValuesPresentable.currValues.length = b.currValues.length := by
  unfold makeFullBucketCurrValuesPresentable
  cases b.howValuesAreCombined with
  | independentOfTime => exact length_map ..
  | proportionalToTime => rfl

/-- **A round of `addBlanksTo`.** -/
theorem Good.fillBlank_eq (h : Good b) :
    b.fillBlank = if b.Exhausted then none else some b.afterBlank := by
  have hrun : b.fillBlank =
      (b.filled b.currValues b.currValuesAreUndefined).finishBucket processBlank := by
    rw [fillBlank, check_pos h.started]
    simp only [run_do, h.time_eq]
    rfl
  rw [hrun, afterBlank, blankEvent]
  cases hu : b.currValuesAreUndefined with
  | true =>
    have hfull := h.full_filled b.currValues true
    refine hfull.finishBucket_eq b.currValues rfl ?_
    exact hfull.processNumbered_eq _
  | false =>
    have hfull := h.full_filled b.makeFullBucketCurrValuesPresentable.currValues false
    have hdefined : ¬ (b.filled b.currValues false).currValuesAreUndefined = true :=
      Bool.false_ne_true
    refine (h.full_filled b.currValues false).finishBucket_eq
      b.makeFullBucketCurrValuesPresentable.currValues length_presentable ?_
    rw [processBlank, if_neg hdefined, presentable_filled]
    exact hfull.processNumbered_eq _

/-- **A round of `add`.** -/
theorem Good.fillBucket_eq (h : Good b) (timePlus1 : Nat) (deltavals : List V) :
    fillBucket timePlus1 (b, deltavals) =
      (distribute (b.bucketSize - (b.lastChangeTimePlus1 - b.bucketStartTime))
        (timePlus1 - b.lastChangeTimePlus1) b.currValues deltavals).bind fun r =>
          if b.Exhausted then none else some (b.afterBucket r.1, r.2) := by
  simp only [fillBucket, check_pos h.started, run_do, h.time_eq]
  congr 1
  funext r
  have hfull := h.full_filled r.1 false
  have hfinish : (b.filled r.1 false).finishBucket
      (fun b endTimePlus1 => b.processPerfectBucket b.bucketStartTime endTimePlus1 b.currValues) =
        if b.Exhausted then none else some (b.afterBucket r.1) :=
    hfull.finishBucket_eq r.1 rfl (hfull.processNumbered_eq _)
  change ((b.filled r.1 false).finishBucket _).bind _ = _
  rw [hfinish]
  split <;> rfl

theorem Good.afterBucket (h : Good b) (hex : ¬ b.Exhausted) (vals : List V) :
    Good (b.afterBucket vals) :=
  (h.full_filled vals false).good_nextFolded hex (if_pos rfl)

theorem Good.afterBlank (h : Good b) (hex : ¬ b.Exhausted) : Good b.afterBlank := by
  refine (h.full_filled _ _).good_nextFolded hex ?_
  unfold blankEvent
  split
  · exact if_pos rfl
  · exact if_pos rfl

end

variable {deltavals : List V}

/-! ## The loops -/

section Loops

variable {b₀ b b' : FoldingBucketer V} {t : Nat}

theorem Filling.afterBlank (h : Filling b₀ t b) (hfills : b.fills t = true)
    (hex : ¬ b.Exhausted) : Filling b₀ t b.afterBlank :=
  ⟨h.good.afterBlank hex, lastChangeTimePlus1_nextFolded.trans_le (h.good.le_of_fills hfills),
    h.same.trans (same_nextFolded rfl)⟩

theorem Filling.afterBucket (h : Filling b₀ t b) (hfills : b.fills t = true)
    (hex : ¬ b.Exhausted) {vals : List V} (hlen : vals.length = b.currValues.length) :
    Filling b₀ t (b.afterBucket vals) :=
  ⟨h.good.afterBucket hex vals, lastChangeTimePlus1_nextFolded.trans_le (h.good.le_of_fills hfills),
    h.same.trans (same_nextFolded hlen)⟩

/-! ### Blank time -/

/-- What `addBlanksTo` does, as a rule: the rounds of its loop keep `P`, and then the time is
set. -/
theorem Good.addBlanksTo_induct {P : FoldingBucketer V → Prop} (h : Good b)
    (hround : ∀ b₁, Filling b t b₁ → ¬ b₁.Exhausted → P b₁ → P b₁.afterBlank) (hP : P b)
    (hrun : b.addBlanksTo t = some b') :
    ∃ b₁, P b₁ ∧ Same b b₁ ∧ Good b' ∧ b' = { b₁ with lastChangeTimePlus1 := t } := by
  simp only [addBlanksTo, do_eq_some, check_eq_some] at hrun
  obtain ⟨_, -, _, hle, hrun⟩ := hrun
  split at hrun
  case isTrue ht =>
    obtain rfl := some.inj hrun
    exact ⟨b, hP, Same.refl b, h, by rw [ht]⟩
  case isFalse =>
    simp only [do_eq_some, check_eq_some] at hrun
    obtain ⟨b₁, hloop, _, -, _, -, hrun⟩ := hrun
    subst hrun
    have hkeeps : ∀ b₁ b₂, (Filling b t b₁ ∧ P b₁) → b₁.fills t = true → b₁.fillBlank = some b₂ →
        Filling b t b₂ ∧ P b₂ := by
      rintro b₁ b₂ ⟨hfilling, hP₁⟩ hfills hbody
      rw [hfilling.good.fillBlank_eq] at hbody
      split at hbody
      case isTrue => cases hbody
      case isFalse hex =>
        obtain rfl := some.inj hbody
        exact ⟨hfilling.afterBlank hfills hex, hround b₁ hfilling hex hP₁⟩
    obtain ⟨⟨hfilling, hP₁⟩, hnot⟩ := whileM_keeps hkeeps ⟨⟨h, hle, Same.refl b⟩, hP⟩ hloop
    exact ⟨b₁, hP₁, hfilling.same, hfilling.done hnot _ _, rfl⟩

theorem Good.addBlanksTo_keeps (h : Good b) (hrun : b.addBlanksTo t = some b') :
    Good b' ∧ Same b b' ∧ b'.lastChangeTimePlus1 = t := by
  obtain ⟨b₁, -, hsame, hgood, rfl⟩ :=
    h.addBlanksTo_induct (P := fun _ => True) (fun _ _ _ _ => trivial) trivial hrun
  exact ⟨hgood, hsame.trans ⟨rfl, rfl, rfl, rfl⟩, rfl⟩

theorem Good.addBlanksTo_isSome (h : Good b) (hle : b.lastChangeTimePlus1 ≤ t) (hlt : t < b.limit) :
    (b.addBlanksTo t).isSome := by
  by_cases ht : t = b.lastChangeTimePlus1
  · simp [addBlanksTo, check_pos h.genesis_pos.ne', check_pos hle, if_pos ht]
  · have hround : ∀ b₁, Filling b t b₁ → b₁.fills t = true → ∃ b₂, b₁.fillBlank = some b₂ ∧
        Filling b t b₂ ∧ t - b₂.bucketStartTime < t - b₁.bucketStartTime := by
      intro b₁ hI hfills
      have hex := hI.not_exhausted hfills hlt
      refine ⟨b₁.afterBlank, ?_, hI.afterBlank hfills hex,
        hI.time_lt hfills bucketStartTime_nextFolded⟩
      rw [hI.good.fillBlank_eq, if_neg hex]
    obtain ⟨b', hloop, hfilling, -⟩ :=
      whileM_total _ hround ⟨h, hle, Same.refl b⟩ (le_refl (t - b.bucketStartTime))
    have hgenesis : b'.genesisTime < t := by
      have hstart := h.started
      have hstarts := h.starts
      rw [hfilling.same.genesis]
      omega
    simp [addBlanksTo, check_pos h.genesis_pos.ne', check_pos hle, if_neg ht, hloop,
      check_pos hfilling.le, check_pos hgenesis]

/-! ### Values -/

theorem distribute_eq_some {timeToUse timeAvailable : Nat} : ∀ {currValues deltavals : List V}
    {r : List V × List V}, distribute timeToUse timeAvailable currValues deltavals = some r ↔
      deltavals.length = currValues.length ∧
        (∀ delta ∈ deltavals, Val.ge delta (Val.scale delta timeToUse timeAvailable)) ∧
        (List.zipWith (fun v delta => v + Val.scale delta timeToUse timeAvailable) currValues
            deltavals,
          deltavals.map fun delta => delta - Val.scale delta timeToUse timeAvailable) = r := by
  intro currValues
  induction currValues with
  | nil => rintro (_ | _) r <;> simp [distribute]
  | cons v currValues ih =>
    rintro (_ | ⟨delta, deltavals⟩) r
    · simp [distribute]
    · simp only [distribute, do_eq_some, check_eq_some, ih, length_cons, Nat.succ.injEq,
        forall_mem_cons]
      constructor
      · rintro ⟨_, hge, _, ⟨hlen, hall, rfl⟩, rfl⟩
        exact ⟨hlen, ⟨hge, hall⟩, rfl⟩
      · rintro ⟨hlen, ⟨hge, hall⟩, rfl⟩
        exact ⟨⟨⟩, hge, _, ⟨hlen, hall, rfl⟩, rfl⟩

theorem length_distribute {timeToUse timeAvailable : Nat} {currValues deltavals : List V}
    {r : List V × List V} (h : distribute timeToUse timeAvailable currValues deltavals = some r) :
    r.1.length = currValues.length ∧ r.2.length = deltavals.length := by
  obtain ⟨hlen, -, rfl⟩ := distribute_eq_some.mp h
  simp [hlen]

/-- What the loop of `add` keeps. -/
def FillingValues (b₀ : FoldingBucketer V) (t : Nat) (s : FoldingBucketer V × List V) : Prop :=
  Filling b₀ t s.1 ∧ s.2.length = b₀.currValues.length

/-- No part of a value that is taken for the current bucket exceeds it. -/
def PartsFit (t : Nat) (s : FoldingBucketer V × List V) : Prop :=
  ∀ delta ∈ s.2, Val.ge delta (Val.scale delta
    (s.1.bucketSize - (s.1.lastChangeTimePlus1 - s.1.bucketStartTime))
    (t - s.1.lastChangeTimePlus1))

/-- The states the loop of `addTo` goes through. -/
def Reaches (b : FoldingBucketer V) (t : Nat) (deltavals : List V) :
    FoldingBucketer V × List V → Prop :=
  ReflTransGen (Round (fun s => s.1.fills t) (fillBucket t)) (b, b.deltaAreas t deltavals)

/-- The parts fit in each of its rounds. -/
def Splits (b : FoldingBucketer V) (t : Nat) (deltavals : List V) : Prop :=
  ∀ s, b.Reaches t deltavals s → s.1.fills t = true → PartsFit t s

variable {s s' : FoldingBucketer V × List V}

theorem FillingValues.partsFit (hV : Val.Shrinks V) (h : FillingValues b₀ t s)
    (hfills : s.1.fills t = true) : PartsFit t s := by
  -- some time of the bucket is left, and it is available
  have hfill := h.1.good.le_of_fills hfills
  have hstarted := h.1.good.started
  have hunfinished := h.1.good.unfinished
  exact fun delta _ => hV delta _ _ (by omega) (by omega)

theorem FillingValues.exists_round (h : FillingValues b₀ t s) (hfills : s.1.fills t = true)
    (hparts : PartsFit t s) (hlt : t < b₀.limit) :
    ∃ s', fillBucket t s = some s' ∧ FillingValues b₀ t s' ∧
      t - s'.1.bucketStartTime < t - s.1.bucketStartTime := by
  obtain ⟨b, deltavals⟩ := s
  obtain ⟨h, hlen⟩ := h
  dsimp only at h hlen hfills
  have hex := h.not_exhausted hfills hlt
  have hr := distribute_eq_some.mpr ⟨hlen.trans h.same.length.symm, hparts, rfl⟩
  obtain ⟨h₁, h₂⟩ := length_distribute hr
  refine ⟨(b.afterBucket _, _), ?_, ⟨h.afterBucket hfills hex h₁, h₂.trans hlen⟩,
    h.time_lt hfills bucketStartTime_nextFolded⟩
  rw [h.good.fillBucket_eq, hr, bind_some, if_neg hex]

/-- What a round does. -/
theorem FillingValues.round (h : FillingValues b₀ t s) (hfills : s.1.fills t = true)
    (hbody : fillBucket t s = some s') : FillingValues b₀ t s' ∧ ¬ s.1.Exhausted ∧
      ∃ r, distribute (s.1.bucketSize - (s.1.lastChangeTimePlus1 - s.1.bucketStartTime))
        (t - s.1.lastChangeTimePlus1) s.1.currValues s.2 = some r ∧
        s' = (s.1.afterBucket r.1, r.2) := by
  obtain ⟨hfilling, hlen⟩ := h
  rw [hfilling.good.fillBucket_eq] at hbody
  obtain ⟨r, hr, hbody⟩ := exists_of_bind hbody
  obtain ⟨h₁, h₂⟩ := length_distribute hr
  split at hbody
  case isTrue => cases hbody
  case isFalse hex =>
    obtain rfl := some.inj hbody
    exact ⟨⟨hfilling.afterBucket hfills hex h₁, h₂.trans hlen⟩, hex, r, hr, rfl⟩

theorem length_deltaAreas : (b.deltaAreas t deltavals).length = deltavals.length := by
  unfold deltaAreas
  cases b.howValuesAreCombined with
  | independentOfTime => exact length_map ..
  | proportionalToTime => rfl

/-- What `add` does, as a rule: the rounds of its loop keep `P`, and then the values that are left
are added to those of the current bucket. -/
theorem Good.addTo_induct {P : FoldingBucketer V × List V → Prop} (h : Good b)
    (hround : ∀ b₁ deltavals₁ r, Filling b t b₁ → b₁.fills t = true → ¬ b₁.Exhausted →
      distribute (b₁.bucketSize - (b₁.lastChangeTimePlus1 - b₁.bucketStartTime))
        (t - b₁.lastChangeTimePlus1) b₁.currValues deltavals₁ = some r →
      P (b₁, deltavals₁) → P (b₁.afterBucket r.1, r.2))
    (hP : P (b, b.deltaAreas t deltavals)) (hrun : b.addTo t deltavals = some b') :
    ∃ s, P s ∧ FillingValues b t s ∧ Good b' ∧ b' = { s.1 with
        lastChangeTimePlus1 := t
        currValues := List.zipWith (· + ·) s.1.currValues s.2
        currValuesAreUndefined := false } := by
  simp only [addTo, do_eq_some, check_eq_some] at hrun
  obtain ⟨_, -, _, -, _, hlen, _, hle, _, -, s, hloop, _, -, hrun⟩ := hrun
  subst hrun
  have hkeeps : ∀ s s', (FillingValues b t s ∧ P s) → s.1.fills t = true →
      fillBucket t s = some s' → FillingValues b t s' ∧ P s' := by
    rintro s s' ⟨hvalues, hP₁⟩ hfills hbody
    obtain ⟨hvalues', hex, r, hr, rfl⟩ := hvalues.round hfills hbody
    exact ⟨hvalues', hround s.1 s.2 r hvalues.1 hfills hex hr hP₁⟩
  obtain ⟨⟨hvalues, hP'⟩, hnot⟩ := whileM_keeps hkeeps
    ⟨⟨⟨h, hle, Same.refl b⟩, length_deltaAreas.trans hlen⟩, hP⟩ hloop
  exact ⟨s, hP', hvalues, hvalues.1.done hnot _ _, rfl⟩

theorem Good.addTo_keeps (h : Good b) (hrun : b.addTo t deltavals = some b') :
    Good b' ∧ Same b b' ∧ b'.lastChangeTimePlus1 = t := by
  obtain ⟨s, -, ⟨hfilling, hlen⟩, hgood, rfl⟩ :=
    h.addTo_induct (P := fun _ => True) (fun _ _ _ _ _ _ _ _ => trivial) trivial hrun
  refine ⟨hgood, hfilling.same.trans ⟨rfl, rfl, rfl, ?_⟩, rfl⟩
  rw [length_zipWith, hlen, hfilling.same.length, Nat.min_self]

/-- With values of which a part is never more than the whole. -/
theorem Good.splits (hV : Val.Shrinks V) (h : Good b)
    (hlen : deltavals.length = b.currValues.length) (hle : b.lastChangeTimePlus1 ≤ t) :
    b.Splits t deltavals := by
  intro s hrounds hfills
  have hvalues : FillingValues b t s := by
    induction hrounds with
    | refl => exact ⟨⟨h, hle, Same.refl b⟩, length_deltaAreas.trans hlen⟩
    | tail _ hround ih => exact ((ih hround.1).round hround.1 hround.2).1
  exact hvalues.partsFit hV hfills

theorem splits_of_addTo (hrun : b.addTo t deltavals = some b') : b.Splits t deltavals := by
  simp only [addTo, do_eq_some, check_eq_some] at hrun
  obtain ⟨_, -, _, -, _, -, _, -, _, -, _, hloop, -⟩ := hrun
  intro s hrounds hfills
  obtain ⟨s', hround⟩ := exists_round_of_whileM hrounds hfills hloop
  simp only [fillBucket, do_eq_some] at hround
  obtain ⟨_, -, r, hr, -⟩ := hround
  exact (distribute_eq_some.mp hr).2.1

theorem Good.addTo_isSome (h : Good b) (hlen : deltavals.length = b.currValues.length)
    (hle : b.lastChangeTimePlus1 ≤ t) (hstart : b.bucketStartTime < t) (hlt : t < b.limit)
    (hsplits : b.Splits t deltavals) : (b.addTo t deltavals).isSome := by
  have hround : ∀ s, (FillingValues b t s ∧ b.Reaches t deltavals s) → s.1.fills t = true →
      ∃ s', fillBucket t s = some s' ∧ (FillingValues b t s' ∧ b.Reaches t deltavals s') ∧
        t - s'.1.bucketStartTime < t - s.1.bucketStartTime := by
    rintro s ⟨hvalues, hrounds⟩ hfills
    obtain ⟨s', hs', hvalues', hless⟩ :=
      hvalues.exists_round hfills (hsplits s hrounds hfills) hlt
    exact ⟨s', hs', ⟨hvalues', hrounds.tail ⟨hfills, hs'⟩⟩, hless⟩
  have hfirst : FillingValues b t (b, b.deltaAreas t deltavals) :=
    ⟨⟨h, hle, Same.refl b⟩, length_deltaAreas.trans hlen⟩
  obtain ⟨s', hloop, ⟨⟨hfilling, -⟩, -⟩, -⟩ :=
    whileM_total _ hround ⟨hfirst, .refl⟩ (le_refl (t - b.bucketStartTime))
  simp [addTo, check_pos h.genesis_pos.ne', check_pos (h.size_pos h.toNumbered), check_pos hlen,
    check_pos hle, check_pos hstart, hloop, check_pos hfilling.le]

end Loops

/-! ## Operations -/

section Operations

variable {b b' : FoldingBucketer V}

theorem Good.addBlanksBefore_keeps (h : Good b) {startTime : Nat}
    (hrun : b.addBlanksBefore startTime = some b') : Good b' ∧ Same b b' ∧
      b'.lastChangeTimePlus1 = max b.lastChangeTimePlus1 startTime := by
  unfold addBlanksBefore at hrun
  split at hrun
  case isTrue hlt =>
    obtain ⟨hgood, hsame, htime⟩ := h.addBlanksTo_keeps hrun
    exact ⟨hgood, hsame, by omega⟩
  case isFalse hnot =>
    obtain rfl := some.inj hrun
    exact ⟨h, Same.refl b, by omega⟩

theorem Good.add_keeps (h : Good b) {startTime endTimePlus1 : Nat}
    (hrun : b.add startTime endTimePlus1 deltavals = some b') :
    Good b' ∧ Same b b' ∧ b'.lastChangeTimePlus1 = endTimePlus1 := by
  simp only [add, do_eq_some, check_eq_some] at hrun
  obtain ⟨_, -, _, -, _, -, b₁, hblank, _, -, hrun⟩ := hrun
  obtain ⟨hgood, hsame, -⟩ := h.addBlanksBefore_keeps hblank
  obtain ⟨hgood', hsame', htime⟩ := hgood.addTo_keeps hrun
  exact ⟨hgood', hsame.trans hsame', htime⟩

theorem Good.add_isSome (h : Good b) {startTime endTimePlus1 : Nat}
    (hlt : startTime < endTimePlus1)
    (hle : b.lastChangeTimePlus1 ≤ endTimePlus1) (hstart : b.bucketStartTime < endTimePlus1)
    (hlen : deltavals.length = b.currValues.length) (hlimit : endTimePlus1 < b.limit)
    (hsplits : ∀ b', b.addBlanksBefore startTime = some b' → b'.Splits endTimePlus1 deltavals) :
    (b.add startTime endTimePlus1 deltavals).isSome := by
  have hblank : (b.addBlanksBefore startTime).isSome := by
    unfold addBlanksBefore
    split
    case isTrue hbefore => exact h.addBlanksTo_isSome hbefore.le (hlt.trans hlimit)
    case isFalse => rfl
  obtain ⟨b₁, hb₁⟩ := isSome_iff_exists.mp hblank
  obtain ⟨hgood, hsame, htime⟩ := h.addBlanksBefore_keeps hb₁
  have hle₁ : b₁.lastChangeTimePlus1 ≤ endTimePlus1 := by omega
  -- if there was blank time, it ends before the interval does
  have hstart₁ : b₁.bucketStartTime < endTimePlus1 := by
    by_cases hbefore : b.lastChangeTimePlus1 < startTime
    · have := hgood.started
      omega
    · rw [addBlanksBefore, if_neg hbefore] at hb₁
      obtain rfl := some.inj hb₁
      exact hstart
  have hadd := hgood.addTo_isSome (hlen.trans hsame.length.symm) hle₁ hstart₁
    (hsame.limit_eq.symm ▸ hlimit) (hsplits b₁ hb₁)
  simpa [add, check_pos h.genesis_pos.ne', check_pos hlt, check_pos hlen, hb₁,
    check_pos hle₁] using hadd

/-- What the folds up to a multiple keep, for `b` with multiple `2 ^ k`. -/
structure FoldedFrom (b : FoldingBucketer V) (k k' : Nat) (b' : FoldingBucketer V) : Prop where
  foldable : Foldable b'
  same : Same b b'
  told : b'.told = b.told
  time : b'.lastChangeTimePlus1 = b.lastChangeTimePlus1
  folds : ∃ j, k ≤ j ∧ j ≤ k' ∧ b'.currMultipleOfBaseBucketWidth = 2 ^ j ∧
    b'.currNumBuckets = b.currNumBuckets / 2 ^ (j - k)

/-- **Forced folds** are always possible. -/
theorem Good.forceFold_spec (h : Good b) {k' : Nat} (hk' : k' < 32) :
    ∃ b', (b.forceFoldUpToABaseMultiple (2 ^ k')).map Prod.fst = some b' ∧ Good b' ∧ Same b b' ∧
      b'.lastChangeTimePlus1 = b.lastChangeTimePlus1 := by
  obtain ⟨k, hk, hmult⟩ := h.multiple
  unfold forceFoldUpToABaseMultiple
  split
  case isTrue => exact ⟨b, rfl, h, Same.refl b, rfl⟩
  case isFalse hnot =>
    have hlt : k < k' := by
      rw [hmult] at hnot
      exact (Nat.pow_lt_pow_iff_right (by decide)).mp (Nat.lt_of_not_le hnot)
    have hround : ∀ b₁, FoldedFrom b k k' b₁ →
        decide (b₁.currMultipleOfBaseBucketWidth < 2 ^ k') = true → ∃ b₂, b₁.foldOnce = some b₂ ∧
          FoldedFrom b k k' b₂ ∧ k' - b₂.currMultipleOfBaseBucketWidth.log2 <
            k' - b₁.currMultipleOfBaseBucketWidth.log2 := by
      intro b₁ hI hcond
      obtain ⟨j, hkj, hjk, hj, hcount⟩ := hI.folds
      have hjlt : j < k' := by
        rw [hj] at hcond
        exact (Nat.pow_lt_pow_iff_right (by decide)).mp (of_decide_eq_true hcond)
      have hdouble : 2 ^ j * 2 = 2 ^ (j + 1) := (pow_succ 2 j).symm
      have hm : b₁.currMultipleOfBaseBucketWidth * 2 < 2 ^ 32 := by
        rw [hj, hdouble]
        exact Nat.pow_lt_pow_right (by decide) (by omega)
      have hm' : b₁.currMultipleOfBaseBucketWidth * 2 % 2 ^ 32 = 2 ^ (j + 1) := by
        rw [Nat.mod_eq_of_lt hm, hj, hdouble]
      obtain ⟨start, vals, hfold, hlen, -, hfoldable⟩ := foldOnce_eq hI.foldable hm
      refine ⟨_, hfold, ⟨hfoldable, hI.same.trans ⟨rfl, rfl, rfl, hlen⟩, hI.told, hI.time,
        j + 1, by omega, hjlt, hm', ?_⟩, ?_⟩
      · change b₁.currNumBuckets / 2 + 0 = _
        rw [hcount, Nat.div_div_eq_div_mul, ← pow_succ, Nat.sub_add_comm hkj]
        rfl
      · change k' - (b₁.currMultipleOfBaseBucketWidth * 2 % 2 ^ 32).log2 < _
        rw [hm', hj, Nat.log2_two_pow, Nat.log2_two_pow]
        omega
    have hfirst : FoldedFrom b k k' b := ⟨h.toFoldable, Same.refl b, rfl, rfl, k, le_refl k, hlt.le,
      hmult, by rw [Nat.sub_self, pow_zero, Nat.div_one]⟩
    obtain ⟨b', hloop, hI, hdone⟩ := whileM_total _ hround hfirst (n := 32) (by omega)
    obtain ⟨j, hkj, hjk, hj, hcount⟩ := hI.folds
    obtain rfl : j = k' := by
      rw [hj] at hdone
      have := (Nat.pow_lt_pow_iff_right (by decide : 1 < 2)).not.mp (of_decide_eq_false hdone)
      omega
    refine ⟨{ b' with foldPending := true, told := b'.told ++ [BucketEvent.fold (2 ^ j)] },
      ?_, ?_, ?_, hI.time⟩
    · rw [foldUpTo, hloop, bind_eq_bind, bind_some, check_pos hj]
      rfl
    · have hquotient : 2 ^ j / 2 ^ k = 2 ^ (j - k) := Nat.pow_div hkj (by decide)
      have hfold : numbering (V := V) (b.currNumBuckets, b.currMultipleOfBaseBucketWidth)
          (.fold (2 ^ j)) = some (b'.currNumBuckets, 2 ^ j) := by
        simp [numbering, hmult, hquotient, hcount]
      have hnumbered : (b'.told ++ [BucketEvent.fold (2 ^ j)]).foldlM numbering (0, 1) =
          some (b'.currNumBuckets, b'.currMultipleOfBaseBucketWidth) := by
        rw [hI.told, hj]
        exact foldlM_told_append h.numbered hfold
      have hcount' : b'.currNumBuckets < 1000 := by
        have := Nat.div_le_self b.currNumBuckets (2 ^ (j - k))
        have := h.count
        omega
      exact ⟨{ hI.foldable with }, ⟨j, hk', hj⟩, hcount', hnumbered⟩
    · exact hI.same.trans ⟨rfl, rfl, rfl, rfl⟩

end Operations

end FoldingBucketer

end Kerninst
