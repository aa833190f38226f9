import Kerninst.Bucket.Bucketer

/-!
# Curves of a visualizer

A model of `visiSubscriber`, from `kperfmon/visi/src`. A visualizer shows a number of curves, with a
bucketer for each. Buckets of all curves are buffered and then shipped. Bucketers fold on their
own; when all of them have, the visualizer is told to fold as well.

A bucketer calls the subscriber back while it adds values. It reads nothing that this changes, so
here the calls are made after the addition, in the same order. What they read of the bucketer, its
multiple and whether it has a fold pending, is kept with the curve, as of the last call.

Left out are the conversion of the values of a bucket to one `double`, the names and units of
metrics, the sampling intervals, and what happens once the visualizer has been closed.
-/

namespace Kerninst

/-- A bucket, together with the time that its values were collected for, for reference. -/
structure DataValue (K V : Type) where
  cmf : K
  bucketNum : Nat
  vals : List V
  startTime : Nat
  endTimePlus1 : Nat
deriving DecidableEq

/-- What the visualizer receives. With a fold come the bucket sizes of all curves at that time,
for reference. -/
inductive VisiMessage (K V : Type)
  | addMetricsResources (cmf : K)
  | disableMR (cmf : K)
  | data (values : List (DataValue K V))
  | fold (multiple : Nat) (bucketSizes : List Nat)
deriving DecidableEq

/-- A curve, with its bucketer. -/
structure Curve (K V : Type) where
  cmf : K
  bucketer : FoldingBucketer V
  multiple : Nat
  foldPending : Bool

namespace Curve

variable {K V : Type}

/-- The width of the buckets, as of the last call. -/
def bucketSize (c : Curve K V) : Nat := c.multiple * c.bucketer.theBaseBucketSize

/-- The bucketer has folded. -/
def folded (newMultiple : Nat) (c : Curve K V) : Curve K V :=
  { c with multiple := newMultiple, foldPending := true }

/-- The visualizer has folded. -/
def foldCompleted (c : Curve K V) : Curve K V := { c with foldPending := false }

end Curve

/-- `visiSubscriber` -/
structure VisiSubscriber (K V : Type) where
  genesisTime : Nat
  baseBucketSizeCycles : Nat
  bucketSizeMultiple : Nat
  theBucketers : List (Curve K V)
  reusableDataBuffer : List (DataValue K V)
  /-- What the visualizer has received. -/
  sent : List (VisiMessage K V)

namespace VisiSubscriber

variable {K V : Type} [DecidableEq K] [Val V]

/-- The constructor. -/
def create (genesisTime ibucketSizeCycles : Nat) : Option (VisiSubscriber K V) := do
  check (0 < ibucketSizeCycles)
  pure ⟨genesisTime, ibucketSizeCycles, 1, [], [], []⟩

variable (s : VisiSubscriber K V)

/-- The width that the visualizer has. -/
def getPresentBucketSizeInCycles : Nat := s.baseBucketSizeCycles * s.bucketSizeMultiple

/-- The buffer is sent and emptied. -/
def shipBufferedSampleDataToVisiIfAny : VisiSubscriber K V :=
  if s.reusableDataBuffer = [] then s
  else { s with reusableDataBuffer := [], sent := s.sent ++ [.data s.reusableDataBuffer] }

/-! ## Curves -/

/-- `theBucketers.get` -/
def getCurve (cmf : K) : Option (Curve K V) := s.theBucketers.find? (·.cmf = cmf)

/-- Other curves than this one. -/
def others (cmf : K) : List (Curve K V) := s.theBucketers.filter (·.cmf ≠ cmf)

/-- Change the curve of a metric and focus. -/
def updateCurve (cmf : K) (f : Curve K V → Curve K V) : VisiSubscriber K V :=
  { s with theBucketers := s.theBucketers.map fun c => if c.cmf = cmf then f c else c }

/-- A curve is added, with a bucketer of the present width. -/
def newMetricFocusPair (cmf : K) (numValues : Nat) (howToCombine : ValueScaling) :
    Option (VisiSubscriber K V) := do
  let theNewBucketer ← (FoldingBucketer.create numValues
    (s.baseBucketSizeCycles * s.bucketSizeMultiple) howToCombine).setGenesisTime s.genesisTime
  check (∀ c ∈ s.theBucketers, c.cmf ≠ cmf)
  pure { s with
    theBucketers := s.theBucketers ++ [⟨cmf, theNewBucketer, 1, false⟩]
    sent := s.sent ++ [.addMetricsResources cmf] }

/-- The visualizer itself has removed a curve. -/
def subscriberHasRemovedCurve (cmf : K) : Option (VisiSubscriber K V) := do
  let _ ← s.getCurve cmf
  pure { s with theBucketers := s.others cmf }

/-- A curve is removed, and the visualizer told of it. -/
def disableMetricFocusPair (cmf : K) : Option (VisiSubscriber K V) := do
  let s ← s.subscriberHasRemovedCurve cmf
  pure { s with sent := s.sent ++ [.disableMR cmf] }

/-! ## Buckets and folds -/

/-- A bucket is put into the buffer. -/
def processPerfectBucket (cmf : K) (bucketNum : Nat) (vals : List V)
    (startTime endTimePlus1 : Nat) : VisiSubscriber K V :=
  { s with
    reusableDataBuffer :=
      s.reusableDataBuffer ++ [⟨cmf, bucketNum, vals, startTime, endTimePlus1⟩] }

/-- The multiple that a fold would have. -/
def maxMultiple : Nat := (s.theBucketers.map Curve.multiple).foldl max 0

/-- The visualizer folds. -/
def completeFold : VisiSubscriber K V :=
  let s := s.shipBufferedSampleDataToVisiIfAny
  { s with
    bucketSizeMultiple := s.maxMultiple
    sent := s.sent ++ [.fold s.maxMultiple (s.theBucketers.map Curve.bucketSize)]
    theBucketers := s.theBucketers.map Curve.foldCompleted }

/-- Nothing happens until all curves have folded, nor if the visualizer already has. -/
def processFold : Option (VisiSubscriber K V) :=
  if ∃ c ∈ s.theBucketers, c.foldPending = false then some s
  else do
    check (0 < s.maxMultiple)
    pure (if s.maxMultiple ≤ s.bucketSizeMultiple then s else s.completeFold)

/-- A call from the bucketer of a curve. -/
def processEvent (cmf : K) : BucketEvent V → Option (VisiSubscriber K V)
  | .bucket bucketNum vals startTime endTimePlus1 =>
    some (s.processPerfectBucket cmf bucketNum vals startTime endTimePlus1)
  | .undefinedBucket _ => some s
  | .fold newMultiple => (s.updateCurve cmf (Curve.folded newMultiple)).processFold

/-- `add_` -/
def add (cmf : K) (startTime endTimePlus1 : Nat) (valuesForThisInterval : List V) :
    Option (VisiSubscriber K V) := do
  let theBucketer ← s.getCurve cmf
  let b ← theBucketer.bucketer.add startTime endTimePlus1 valuesForThisInterval
  let told := b.told.drop theBucketer.bucketer.told.length
  told.foldlM (fun s event => s.processEvent cmf event)
    (s.updateCurve cmf fun c => { c with bucketer := b })

/-! ## Runs -/

/-- What can be done with a subscriber. -/
inductive Op (K V : Type)
  | newMetricFocusPair (cmf : K) (numValues : Nat) (howToCombine : ValueScaling)
  | subscriberHasRemovedCurve (cmf : K)
  | disableMetricFocusPair (cmf : K)
  | add (cmf : K) (startTime endTimePlus1 : Nat) (valuesForThisInterval : List V)
  | ship

/-- One of these. -/
def step : Op K V → Option (VisiSubscriber K V)
  | .newMetricFocusPair cmf numValues how => s.newMetricFocusPair cmf numValues how
  | .subscriberHasRemovedCurve cmf => s.subscriberHasRemovedCurve cmf
  | .disableMetricFocusPair cmf => s.disableMetricFocusPair cmf
  | .add cmf startTime endTimePlus1 vals => s.add cmf startTime endTimePlus1 vals
  | .ship => some s.shipBufferedSampleDataToVisiIfAny

end VisiSubscriber

end Kerninst
