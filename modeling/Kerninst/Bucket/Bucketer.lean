import Kerninst.Lib.Checked
import Kerninst.Lib.While

/-!
# Folding buckets

A model of `bucketer` and `foldingBucketer`, from `util/src`. Values are collected over time, and
handed out in *buckets*, which are all equally long. When there are 1000 of them they are
*folded*: from then on buckets are twice as long, so that the old ones amount to 500 of the new
ones. A fold can also be forced, at any time and to any multiple of the first bucket size.

The class is a template: `Val` is what is asked of the type of values. The base class and the
derived one are one structure here, since each calls the other. What they hand to the class
derived from them (`process1NumberedBucket`, `process1NumberedUndefinedBucket`, `processFold`) is
kept in a list.

Times, and sizes of buckets, are natural numbers, on the assumption that none of them exceeds 64
bits. The multiple of the first bucket size, an `unsigned`, is kept modulo `2 ^ 32`. A fold makes
buckets longer, so that the branch of `changeBucketSize` for shorter ones is not taken; it is left
out, as are the destructors; `reset` is in `Bucket/Reset`.
-/

namespace Kerninst

/-- What a bucketer asks of its type `VAL`. Times are `uint64_t`. -/
class Val (V : Type) extends Zero V, Add V, Sub V where
  mulTime : V → Nat → V
  divTime : V → Nat → V
  /-- `>=` -/
  ge : V → V → Bool
  isZero : V → Bool
  isZero_zero : isZero 0 = true

namespace Val

/-- `unsigned` and `uint64_t`. Products are cut to the type. -/
instance instBitVec (n : Nat) : Val (BitVec n) where
  zero := BitVec.ofNat n 0
  mulTime v t := BitVec.ofNat n (v.toNat * t)
  divTime v t := BitVec.ofNat n (v.toNat / t)
  ge v w := w.toNat ≤ v.toNat
  isZero v := v = 0
  isZero_zero := decide_eq_true rfl

/-- `double` -/
instance instFloat : Val Float where
  zero := 0
  mulTime v t := v * Float.ofNat t
  divTime v t := v / Float.ofNat t
  ge v w := w ≤ v
  isZero v := v == 0
  isZero_zero := by decide

variable {V : Type} [Val V]

/-- The part of a value that belongs to a part of its time. -/
def scale (val : V) (timeLengthToAdjustTo timeLengthWhereValIsDefined : Nat) : V :=
  divTime (mulTime val timeLengthToAdjustTo) timeLengthWhereValIsDefined

end Val

inductive ValueScaling
  | proportionalToTime
  | independentOfTime
deriving DecidableEq

/-- What the derived class is told. With a bucket comes the time that it was filled in, for
reference: `process1NumberedBucket` is told its number only. -/
inductive BucketEvent (V : Type)
  | bucket (bucketNum : Nat) (vals : List V) (startTime endTimePlus1 : Nat)
  | undefinedBucket (bucketNum : Nat)
  | fold (newMultiple : Nat)

structure FoldingBucketer (V : Type) where
  bucketStartTime : Nat
  lastChangeTimePlus1 : Nat
  genesisTime : Nat
  howValuesAreCombined : ValueScaling
  currValues : List V
  currValuesAreUndefined : Bool
  bucketSize : Nat
  -- from here on, of `foldingBucketer`
  theBaseBucketSize : Nat
  currMultipleOfBaseBucketWidth : Nat
  numBucketsAddedSinceLastFold : Nat
  lastFoldLeftThisManyBuckets : Nat
  foldPending : Bool
  /-- What the derived class has been told. -/
  told : List (BucketEvent V)

def numBucketsBeforeAFold : Nat := 1000

namespace FoldingBucketer

variable {V : Type} [Val V]

/-- The constructors. -/
def create (numValues ibaseBucketSize : Nat) (howToCombine : ValueScaling) : FoldingBucketer V where
  bucketStartTime := 0
  lastChangeTimePlus1 := 0
  genesisTime := 0
  howValuesAreCombined := howToCombine
  currValues := List.replicate numValues 0
  currValuesAreUndefined := true
  bucketSize := ibaseBucketSize
  theBaseBucketSize := ibaseBucketSize
  currMultipleOfBaseBucketWidth := 1
  numBucketsAddedSinceLastFold := 0
  lastFoldLeftThisManyBuckets := 0
  foldPending := false
  told := []

variable (b : FoldingBucketer V)

def getGenesisTime : Option Nat := do
  check (b.genesisTime ≠ 0)
  pure b.genesisTime

def setGenesisTime (gTime : Nat) : Option (FoldingBucketer V) := do
  check (b.genesisTime = 0)
  check (gTime ≠ 0)
  check b.currValuesAreUndefined
  check (∀ v ∈ b.currValues, Val.isZero v)
  pure { b with genesisTime := gTime, lastChangeTimePlus1 := gTime, bucketStartTime := gTime }

def currNumBuckets : Nat := b.lastFoldLeftThisManyBuckets + b.numBucketsAddedSinceLastFold

def getCurrBucketSize : Option Nat := do
  check (b.bucketSize = b.currMultipleOfBaseBucketWidth * b.theBaseBucketSize)
  pure b.bucketSize

/-! ## Buckets -/

/-- What `processPerfectBucket` and `processPerfectUndefinedBucket` have in common. -/
def processNumbered (event : Nat → BucketEvent V) (startTime endTimePlus1 : Nat) :
    Option (FoldingBucketer V) := do
  check (b.currNumBuckets < numBucketsBeforeAFold)
  let currBucketSize ← b.getCurrBucketSize
  check (endTimePlus1 = startTime + currBucketSize)
  let genesisTime ← b.getGenesisTime
  check (genesisTime + b.currNumBuckets * currBucketSize = startTime)
  pure { b with
    told := b.told ++ [event b.currNumBuckets]
    numBucketsAddedSinceLastFold := b.numBucketsAddedSinceLastFold + 1 }

def processPerfectBucket (startTime endTimePlus1 : Nat) (vals : List V) :
    Option (FoldingBucketer V) :=
  b.processNumbered (.bucket · vals startTime endTimePlus1) startTime endTimePlus1

def processPerfectUndefinedBucket (startTime endTimePlus1 : Nat) : Option (FoldingBucketer V) :=
  b.processNumbered .undefinedBucket startTime endTimePlus1

def startWorkingOnNextBucket (oldBucketSize : Nat) : Option (FoldingBucketer V) := do
  check (b.bucketStartTime + oldBucketSize = b.lastChangeTimePlus1)
  pure { b with
    bucketStartTime := b.bucketStartTime + oldBucketSize
    currValuesAreUndefined := true
    currValues := b.currValues.map fun _ => 0 }

/-- Values that were collected as areas are divided by the time. -/
def makeFullBucketCurrValuesPresentable : FoldingBucketer V :=
  match b.howValuesAreCombined with
  | .independentOfTime => { b with currValues := b.currValues.map (Val.divTime · b.bucketSize) }
  | .proportionalToTime => b

/-! ## Folds -/

/-- If some of the bucket was defined, its values are stretched to the longer time. -/
def stretched (newDefinedBucketTime oldDefinedBucketTime : Nat) : List V :=
  if b.currValuesAreUndefined = false ∧ 0 < oldDefinedBucketTime then
    b.currValues.map (Val.scale · newDefinedBucketTime oldDefinedBucketTime)
  else b.currValues

def maybeReduceBucketStartTime (newBucketStartTime : Nat) : Option (FoldingBucketer V) := do
  let size ← b.getCurrBucketSize
  check (b.bucketStartTime ≤ b.lastChangeTimePlus1 ∧
    b.lastChangeTimePlus1 ≤ newBucketStartTime + size)
  let oldDefinedBucketTime := b.lastChangeTimePlus1 - b.bucketStartTime
  let newDefinedBucketTime := b.lastChangeTimePlus1 - newBucketStartTime
  check (oldDefinedBucketTime ≤ newDefinedBucketTime)
  check (newDefinedBucketTime ≤ b.bucketSize)
  check (newBucketStartTime ≤ b.bucketStartTime)
  pure (if newBucketStartTime = b.bucketStartTime then b
    else { b with
      bucketStartTime := newBucketStartTime
      currValues := b.stretched newDefinedBucketTime oldDefinedBucketTime })

/-- The buckets after a fold, before their start is adjusted. -/
def doubled : FoldingBucketer V :=
  { b with
    currMultipleOfBaseBucketWidth := b.currMultipleOfBaseBucketWidth * 2 % 2 ^ 32
    lastFoldLeftThisManyBuckets := b.currNumBuckets / 2
    numBucketsAddedSinceLastFold := 0
    bucketSize := b.bucketSize * 2 }

/-- A round of the loop in `forceFoldUpToABaseMultiple`. -/
def foldOnce : Option (FoldingBucketer V) := do
  let _ ← b.getCurrBucketSize
  let size ← b.doubled.getCurrBucketSize
  let genesisTime ← b.doubled.getGenesisTime
  b.doubled.maybeReduceBucketStartTime (genesisTime + b.doubled.currNumBuckets * size)

/-- A multiple of 32 bits is reached in at most 32 rounds. -/
def foldUpTo (newMultiple : Nat) : Option (FoldingBucketer V) :=
  whileM (fun b => b.currMultipleOfBaseBucketWidth < newMultiple) foldOnce 32 b

/-- The result tells if anything has changed. -/
def forceFoldUpToABaseMultiple (newMultiple : Nat) : Option (FoldingBucketer V × Bool) :=
  if newMultiple ≤ b.currMultipleOfBaseBucketWidth then some (b, false)
  else do
    let b ← b.foldUpTo newMultiple
    check (b.currMultipleOfBaseBucketWidth = newMultiple)
    pure ({ b with foldPending := true, told := b.told ++ [.fold newMultiple] }, true)

/-- The fold when there are enough buckets. Doubling the multiple may exceed an `unsigned`. -/
def foldIfFull : Option (FoldingBucketer V) :=
  if b.currNumBuckets = numBucketsBeforeAFold then do
    let r ← b.forceFoldUpToABaseMultiple (b.currMultipleOfBaseBucketWidth * 2 % 2 ^ 32)
    check r.2
    pure r.1
  else some b

def foldIfAppropriate : Option (FoldingBucketer V) := do
  check (b.currNumBuckets ≤ numBucketsBeforeAFold)
  let b ← b.foldIfFull
  check (b.currNumBuckets < numBucketsBeforeAFold)
  pure b

def finishedProcessingBucket : Option (FoldingBucketer V) := do
  let b ← b.foldIfAppropriate
  check (b.currNumBuckets < numBucketsBeforeAFold)
  pure b

/-! ## Adding -/

/-- What both loops do with a bucket that is full: `process` hands it out. -/
def finishBucket (process : FoldingBucketer V → Nat → Option (FoldingBucketer V)) :
    Option (FoldingBucketer V) := do
  check (b.lastChangeTimePlus1 - b.bucketStartTime = b.bucketSize)
  let bucketEndTimePlus1 := b.bucketStartTime + b.bucketSize
  check (bucketEndTimePlus1 = b.lastChangeTimePlus1)
  let b' ← process b bucketEndTimePlus1
  let b' ← b'.startWorkingOnNextBucket b.bucketSize
  b'.finishedProcessingBucket

/-- A bucket without values is undefined; if there are some, from part of its time, they are
taken for the whole of it. -/
def processBlank (endTimePlus1 : Nat) : Option (FoldingBucketer V) :=
  if b.currValuesAreUndefined then b.processPerfectUndefinedBucket b.bucketStartTime endTimePlus1
  else
    b.makeFullBucketCurrValuesPresentable.processPerfectBucket b.bucketStartTime endTimePlus1
      b.makeFullBucketCurrValuesPresentable.currValues

/-- There is enough time for the whole bucket. -/
def fills (timePlus1 : Nat) : Bool := b.bucketSize ≤ timePlus1 - b.bucketStartTime

/-- A round of the loop in `addBlanksTo`. -/
def fillBlank : Option (FoldingBucketer V) := do
  check (b.bucketStartTime ≤ b.lastChangeTimePlus1)
  let timeAlreadyFilled := b.lastChangeTimePlus1 - b.bucketStartTime
  let timeToUse := b.bucketSize - timeAlreadyFilled
  finishBucket { b with lastChangeTimePlus1 := b.lastChangeTimePlus1 + timeToUse } processBlank

/-- There are at most as many rounds as there is time, if buckets are not empty. -/
def addBlanksTo (timePlus1 : Nat) : Option (FoldingBucketer V) := do
  check (b.genesisTime ≠ 0)
  check (b.lastChangeTimePlus1 ≤ timePlus1)
  if timePlus1 = b.lastChangeTimePlus1 then pure b
  else do
    let b ← whileM (fun b => b.fills timePlus1) fillBlank (timePlus1 - b.bucketStartTime) b
    check (b.lastChangeTimePlus1 ≤ timePlus1)
    check (b.genesisTime < timePlus1)
    pure { b with lastChangeTimePlus1 := timePlus1 }

/-- The part of each value that belongs to this bucket is taken from the second list and added to
the first. -/
def distribute (timeToUse timeAvailable : Nat) : List V → List V → Option (List V × List V)
  | v :: currValues, delta :: deltavals => do
    let valueToUse := Val.scale delta timeToUse timeAvailable
    check (Val.ge delta valueToUse)
    let r ← distribute timeToUse timeAvailable currValues deltavals
    pure ((v + valueToUse) :: r.1, (delta - valueToUse) :: r.2)
  | [], [] => some ([], [])
  | _, _ => none

/-- A round of the loop in `add`. -/
def fillBucket (timePlus1 : Nat) (s : FoldingBucketer V × List V) :
    Option (FoldingBucketer V × List V) := do
  let b := s.1
  check (b.bucketStartTime ≤ b.lastChangeTimePlus1)
  let timeAlreadyFilled := b.lastChangeTimePlus1 - b.bucketStartTime
  let timeAvailable := timePlus1 - b.lastChangeTimePlus1
  let timeToUse := b.bucketSize - timeAlreadyFilled
  let r ← distribute timeToUse timeAvailable b.currValues s.2
  let b' ← finishBucket
    { b with
      currValues := r.1
      currValuesAreUndefined := false
      lastChangeTimePlus1 := b.lastChangeTimePlus1 + timeToUse }
    fun b endTimePlus1 => b.processPerfectBucket b.bucketStartTime endTimePlus1 b.currValues
  pure (b', r.2)

/-- Values that do not depend on time are collected as areas. -/
def deltaAreas (timePlus1 : Nat) (deltavals : List V) : List V :=
  match b.howValuesAreCombined with
  | .independentOfTime => deltavals.map (Val.mulTime · (timePlus1 - b.lastChangeTimePlus1))
  | .proportionalToTime => deltavals

/-- `add(timePlus1, deltavals)` -/
def addTo (timePlus1 : Nat) (deltavals : List V) : Option (FoldingBucketer V) := do
  check (b.genesisTime ≠ 0)
  check (0 < b.bucketSize)
  check (deltavals.length = b.currValues.length)
  check (b.lastChangeTimePlus1 ≤ timePlus1)
  check (b.bucketStartTime < timePlus1)
  let s ← whileM (fun s => s.1.fills timePlus1) (fillBucket timePlus1)
    (timePlus1 - b.bucketStartTime) (b, b.deltaAreas timePlus1 deltavals)
  check (s.1.lastChangeTimePlus1 ≤ timePlus1)
  pure { s.1 with
    lastChangeTimePlus1 := timePlus1
    currValues := List.zipWith (· + ·) s.1.currValues s.2
    currValuesAreUndefined := false }

/-- Time before the interval is blank. -/
def addBlanksBefore (startTime : Nat) : Option (FoldingBucketer V) :=
  if b.lastChangeTimePlus1 < startTime then b.addBlanksTo startTime else some b

/-- `add(startTime, endTimePlus1, deltavals)` -/
def add (startTime endTimePlus1 : Nat) (deltavals : List V) : Option (FoldingBucketer V) := do
  check (b.genesisTime ≠ 0)
  check (startTime < endTimePlus1)
  check (deltavals.length = b.currValues.length)
  let b ← b.addBlanksBefore startTime
  check (b.lastChangeTimePlus1 ≤ endTimePlus1)
  b.addTo endTimePlus1 deltavals

/-! ## Runs -/

/-- What can be done with a bucketer. -/
inductive Op (V : Type)
  | add (startTime endTimePlus1 : Nat) (deltavals : List V)
  | addBlanksTo (timePlus1 : Nat)
  | forceFold (multiple : Nat)

def step : Op V → Option (FoldingBucketer V)
  | .add startTime endTimePlus1 deltavals => b.add startTime endTimePlus1 deltavals
  | .addBlanksTo timePlus1 => b.addBlanksTo timePlus1
  | .forceFold multiple => (b.forceFoldUpToABaseMultiple multiple).map Prod.fst

end FoldingBucketer

end Kerninst
