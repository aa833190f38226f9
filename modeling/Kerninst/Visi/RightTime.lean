import Kerninst.Bucket.Follow
import Kerninst.Visi.Subscriber
import Mathlib.Data.List.Nodup

/-!
# Bucket numbers mean the right time

A visualizer knows the width of buckets from the last fold that it was told of. It takes each
bucket number for an interval of time, and that should be the one that the bucket was filled in
(`RightTime`).

The bucketers of several curves fold one by one. In between, the buckets of one that has folded
already are shipped with new numbers, while the visualizer still has the old width. So this is
right only as long as no curve fills a bucket in that time (`InStep`). Moreover, the multiple is
taken from the bucketers, and that of one created after a fold is relative to the width at that
time; there must be an older one, with the largest multiple.
-/

namespace Kerninst

open List VisiSubscriber
open Option (bind_eq_bind bind_some)
open FoldingBucketer (denotedInterval)

variable {K V : Type}

/-- The number of a bucket denotes the time that it was filled in. -/
def DataValue.Denotes (d : DataValue K V) (genesisTime width : Nat) : Prop :=
  denotedInterval genesisTime width d.bucketNum = (d.startTime, d.endTimePlus1)

instance (d : DataValue K V) (genesisTime width : Nat) : Decidable (d.Denotes genesisTime width) :=
  inferInstanceAs (Decidable (_ = _))

/-- **Bucket numbers mean the right time.** Each is taken with the width that the visualizer has
when it receives it; and when it folds, all bucketers have the same width. -/
def RightTime (genesisTime base : Nat) : Nat → List (VisiMessage K V) → Prop
  | _, [] => True
  | multiple, .data values :: sent =>
    (∀ d ∈ values, d.Denotes genesisTime (base * multiple)) ∧
      RightTime genesisTime base multiple sent
  | _, .fold newMultiple bucketSizes :: sent =>
    (∀ size ∈ bucketSizes, size = base * newMultiple) ∧
      RightTime genesisTime base newMultiple sent
  | multiple, .addMetricsResources _ :: sent => RightTime genesisTime base multiple sent
  | multiple, .disableMR _ :: sent => RightTime genesisTime base multiple sent

/-- The multiple in the last fold. -/
def lastMultiple : Nat → List (VisiMessage K V) → Nat
  | multiple, [] => multiple
  | _, .fold newMultiple _ :: sent => lastMultiple newMultiple sent
  | multiple, _ :: sent => lastMultiple multiple sent

section

variable {genesisTime base multiple : Nat} {sent : List (VisiMessage K V)} {m : VisiMessage K V}

theorem RightTime.append (h : RightTime genesisTime base multiple sent)
    (hm : RightTime genesisTime base (lastMultiple multiple sent) [m]) :
    RightTime genesisTime base multiple (sent ++ [m]) := by
  induction sent generalizing multiple with
  | nil => exact hm
  | cons m' sent ih =>
    cases m' with
    | addMetricsResources | disableMR => exact ih h hm
    | data | fold => exact ⟨h.1, ih h.2 hm⟩

theorem lastMultiple_append :
    lastMultiple multiple (sent ++ [m]) = lastMultiple (lastMultiple multiple sent) [m] := by
  induction sent generalizing multiple with
  | nil => rfl
  | cons m' sent ih => cases m' <;> exact ih

end

/-- The largest element of a list. -/
theorem foldl_max_eq {l : List Nat} {m : Nat} (hmem : m ∈ l) (hle : ∀ x ∈ l, x ≤ m) :
    l.foldl max 0 = m := by
  have hmax : l.max? = some m := max?_eq_some_iff.mpr ⟨hmem, hle⟩
  rw [foldl_max, hmax]
  exact Nat.zero_max m

namespace VisiSubscriber

open FoldingBucketer

/-! ## Invariants -/

/-- The state of a curve, given the width of the visualizer. -/
structure CurveTimed (base width : Nat) (c : Curve K V) : Prop where
  base_le : base ≤ c.bucketer.theBaseBucketSize
  size : c.bucketSize = if c.foldPending then 2 * width else width

/-- What holds at all times. -/
structure Timed (s : VisiSubscriber K V) : Prop where
  base_pos : 0 < s.baseBucketSizeCycles
  multiple_pos : 0 < s.bucketSizeMultiple
  keys : (s.theBucketers.map Curve.cmf).Nodup
  curves : ∀ c ∈ s.theBucketers,
    CurveTimed s.baseBucketSizeCycles s.getPresentBucketSizeInCycles c
  original : s.theBucketers ≠ [] →
    ∃ c ∈ s.theBucketers, c.bucketer.theBaseBucketSize = s.baseBucketSizeCycles
  buffered : ∀ d ∈ s.reusableDataBuffer, d.Denotes s.genesisTime s.getPresentBucketSizeInCycles
  right : RightTime s.genesisTime s.baseBucketSizeCycles 1 s.sent
  last : lastMultiple 1 s.sent = s.bucketSizeMultiple

/-- The visualizer waits for some curve to fold. -/
def Waits (s : VisiSubscriber K V) : Prop := ∃ c ∈ s.theBucketers, c.foldPending = false

/-- What holds of a curve between operations. -/
structure AtRest (genesisTime : Nat) (c : Curve K V) : Prop where
  good : Good c.bucketer
  genesis : c.bucketer.genesisTime = genesisTime
  multiple : c.multiple = c.bucketer.currMultipleOfBaseBucketWidth
  ahead : c.foldPending = true → 500 ≤ c.bucketer.currNumBuckets

/-- What holds between operations. -/
structure Inv (s : VisiSubscriber K V) : Prop extends Timed s where
  waits : s.theBucketers ≠ [] → Waits s
  atRest : ∀ c ∈ s.theBucketers, AtRest s.genesisTime c

/-- The bucketer of each curve. -/
def bucketers (s : VisiSubscriber K V) : List (K × FoldingBucketer V) :=
  s.theBucketers.map fun c => (c.cmf, c.bucketer)

/-- What holds while the calls from the bucketer of a curve are made: `b` is the bucketer after the
addition, and `n` buckets with a multiple of `m` is what has been told so far. -/
structure Mid (s : VisiSubscriber K V) (cmf : K) (b : FoldingBucketer V) (n m : Nat) : Prop
    extends Timed s where
  waits : Waits s
  here : (cmf, b) ∈ s.bucketers
  genesis : b.genesisTime = s.genesisTime
  this : ∀ c ∈ s.theBucketers, c.cmf = cmf →
    c.bucketer = b ∧ c.multiple = m ∧ (c.foldPending = true → 500 ≤ n)
  rest : ∀ c ∈ s.theBucketers, c.cmf ≠ cmf → AtRest s.genesisTime c

/-- A curve is the only one, or does not go much beyond the time of the next fold. -/
def Bounded (s : VisiSubscriber K V) (cmf : K) (time : Nat) : Prop :=
  (∀ c ∈ s.theBucketers, c.cmf = cmf) ∨ time < 1002 * s.getPresentBucketSizeInCycles

section

variable {s s' : VisiSubscriber K V}

theorem inv_create {genesisTime base : Nat} (h : create genesisTime base = some s) : Inv s := by
  simp only [create, do_eq_some, check_eq_some] at h
  obtain ⟨_, hbase, h⟩ := h
  subst h
  exact ⟨⟨hbase, Nat.one_pos, nodup_nil, fun _ hc => (not_mem_nil hc).elim,
    fun hne => (hne rfl).elim, fun _ hd => (not_mem_nil hd).elim, trivial, rfl⟩,
    fun hne => (hne rfl).elim, fun _ hc => (not_mem_nil hc).elim⟩

/-! ## Shipping and folding -/

theorem Timed.ship (h : Timed s) : Timed s.shipBufferedSampleDataToVisiIfAny := by
  unfold shipBufferedSampleDataToVisiIfAny
  split
  case isTrue => exact h
  case isFalse =>
    refine { h with buffered := ?_, right := ?_, last := ?_ }
    · exact fun d hd => (not_mem_nil hd).elim
    · refine h.right.append ⟨?_, trivial⟩
      rw [h.last]
      exact h.buffered
    · exact lastMultiple_append.trans h.last

/-- A message that is not about buckets. -/
theorem Timed.tell (h : Timed s) {m : VisiMessage K V}
    (hright : ∀ multiple, RightTime s.genesisTime s.baseBucketSizeCycles multiple [m])
    (hlast : ∀ multiple, lastMultiple multiple [m] = multiple) :
    Timed { s with sent := s.sent ++ [m] } :=
  { h with
    right := h.right.append (hright _)
    last := (lastMultiple_append.trans (hlast _)).trans h.last }

theorem Inv.tell (h : Inv s) {m : VisiMessage K V}
    (hright : ∀ multiple, RightTime s.genesisTime s.baseBucketSizeCycles multiple [m])
    (hlast : ∀ multiple, lastMultiple multiple [m] = multiple) :
    Inv { s with sent := s.sent ++ [m] } :=
  ⟨h.toTimed.tell hright hlast, h.waits, h.atRest⟩

theorem ship_eq : s.shipBufferedSampleDataToVisiIfAny = { s with
      reusableDataBuffer := []
      sent := s.shipBufferedSampleDataToVisiIfAny.sent } := by
  unfold shipBufferedSampleDataToVisiIfAny
  split
  case isTrue h => rw [← h]
  case isFalse => rfl

theorem completeFold_eq : s.completeFold = { s with
      bucketSizeMultiple := s.maxMultiple
      theBucketers := s.theBucketers.map Curve.foldCompleted
      reusableDataBuffer := []
      sent := s.shipBufferedSampleDataToVisiIfAny.sent ++
        [.fold s.maxMultiple (s.theBucketers.map Curve.bucketSize)] } := by
  rw [completeFold, ship_eq]
  rfl

/-- If all curves have folded, the largest multiple is twice the old one. -/
theorem Timed.maxMultiple_eq (h : Timed s) (hne : s.theBucketers ≠ [])
    (hall : ∀ c ∈ s.theBucketers, c.foldPending = true) :
    s.maxMultiple = 2 * s.bucketSizeMultiple := by
  have hsize : ∀ c ∈ s.theBucketers, c.multiple * c.bucketer.theBaseBucketSize =
      2 * s.bucketSizeMultiple * s.baseBucketSizeCycles := by
    intro c hc
    have := (h.curves c hc).size
    rw [hall c hc, if_pos rfl, getPresentBucketSizeInCycles, Curve.bucketSize] at this
    rw [this, Nat.mul_comm s.baseBucketSizeCycles, Nat.mul_assoc]
  refine foldl_max_eq ?_ ?_
  · obtain ⟨c, hc, horiginal⟩ := h.original hne
    have := hsize c hc
    rw [horiginal] at this
    exact mem_map.mpr ⟨c, hc, Nat.eq_of_mul_eq_mul_right h.base_pos this⟩
  · intro m hm
    obtain ⟨c, hc, rfl⟩ := mem_map.mp hm
    refine Nat.le_of_mul_le_mul_right ?_ h.base_pos
    calc c.multiple * s.baseBucketSizeCycles ≤ c.multiple * c.bucketer.theBaseBucketSize :=
          Nat.mul_le_mul_left _ (h.curves c hc).base_le
      _ = 2 * s.bucketSizeMultiple * s.baseBucketSizeCycles := hsize c hc

/-- **The visualizer folds.** -/
theorem Timed.completeFold (h : Timed s) (hne : s.theBucketers ≠ [])
    (hall : ∀ c ∈ s.theBucketers, c.foldPending = true) : Timed s.completeFold := by
  have hship := h.ship
  have hmax := h.maxMultiple_eq hne hall
  have hwidth : s.baseBucketSizeCycles * (2 * s.bucketSizeMultiple) =
      2 * s.getPresentBucketSizeInCycles := by
    rw [getPresentBucketSizeInCycles, Nat.mul_left_comm]
  have hsize : ∀ c ∈ s.theBucketers, c.bucketSize = 2 * s.getPresentBucketSizeInCycles := by
    intro c hc
    rw [(h.curves c hc).size, hall c hc, if_pos rfl]
  have hlast := hship.last
  have hright := hship.right
  rw [ship_eq] at hlast hright
  rw [completeFold_eq, hmax]
  refine ⟨h.base_pos, Nat.mul_pos (by decide) h.multiple_pos, ?_, ?_, ?_, ?_, ?_, ?_⟩
  · rw [map_map]
    exact h.keys
  · intro c' hc'
    obtain ⟨c, hc, rfl⟩ := mem_map.mp hc'
    exact ⟨(h.curves c hc).base_le, (hsize c hc).trans hwidth.symm⟩
  · rintro -
    obtain ⟨c, hc, horiginal⟩ := h.original hne
    exact ⟨c.foldCompleted, mem_map_of_mem hc, horiginal⟩
  · exact fun d hd => (not_mem_nil hd).elim
  · refine hright.append ⟨fun size hmem => ?_, trivial⟩
    obtain ⟨c, hc, rfl⟩ := mem_map.mp hmem
    exact (hsize c hc).trans hwidth.symm
  · exact lastMultiple_append

theorem processFold_of_waits (h : Waits s) : s.processFold = some s := by
  exact if_pos h

/-- A call to fold, once the bucketer has. -/
theorem Timed.processFold (h : Timed s) (hne : s.theBucketers ≠ []) :
    ∃ s', s.processFold = some s' ∧ Timed s' ∧ Waits s' ∧ s'.bucketers = s.bucketers ∧
      s'.genesisTime = s.genesisTime ∧ s'.baseBucketSizeCycles = s.baseBucketSizeCycles ∧
      s.bucketSizeMultiple ≤ s'.bucketSizeMultiple ∧
      ∀ c' ∈ s'.theBucketers, ∃ c ∈ s.theBucketers, c'.cmf = c.cmf ∧ c'.bucketer = c.bucketer ∧
        c'.multiple = c.multiple ∧ (c'.foldPending = true → c.foldPending = true) := by
  unfold VisiSubscriber.processFold
  split
  case isTrue hwaits =>
    exact ⟨s, rfl, h, hwaits, rfl, rfl, rfl, le_refl _, fun c hc => ⟨c, hc, rfl, rfl, rfl, id⟩⟩
  case isFalse hnot =>
    have hall : ∀ c ∈ s.theBucketers, c.foldPending = true := by
      intro c hc
      by_contra hpending
      exact hnot ⟨c, hc, Bool.eq_false_of_not_eq_true hpending⟩
    have hmax := h.maxMultiple_eq hne hall
    have hpos := h.multiple_pos
    have hgrows : ¬ s.maxMultiple ≤ s.bucketSizeMultiple := by omega
    rw [check_pos (by omega), if_neg hgrows]
    refine ⟨s.completeFold, rfl, h.completeFold hne hall, ?_⟩
    obtain ⟨c, hc⟩ := exists_mem_of_ne_nil _ hne
    rw [completeFold_eq, hmax]
    refine ⟨⟨c.foldCompleted, mem_map_of_mem hc, rfl⟩, map_map, rfl, rfl, by dsimp only; omega, ?_⟩
    intro c' hc'
    obtain ⟨c, hc, rfl⟩ := mem_map.mp hc'
    exact ⟨c, hc, rfl, rfl, rfl, fun hp => (Bool.false_ne_true hp).elim⟩

end

section

variable {s : VisiSubscriber K V} {cmf : K} {b : FoldingBucketer V} {n m time : Nat}

/-- A curve of the subscriber, given its bucketer. -/
theorem exists_of_mem_bucketers (h : (cmf, b) ∈ s.bucketers) :
    ∃ c ∈ s.theBucketers, c.cmf = cmf ∧ c.bucketer = b := by
  obtain ⟨c, hc, heq⟩ := mem_map.mp h
  exact ⟨c, hc, Prod.mk.inj heq⟩

/-- A curve that is told of something more has no fold pending. -/
theorem Mid.not_pending (h : Mid s cmf b n m) (hbounded : Bounded s cmf time)
    {event : BucketEvent V} {s₁ : Nat × Nat}
    (hfollow : follow b.genesisTime b.theBaseBucketSize (n, m) event = some s₁)
    (htime : s₁.1 * s₁.2 * b.theBaseBucketSize ≤ time) {c : Curve K V} (hc : c ∈ s.theBucketers)
    (hcmf : c.cmf = cmf) : c.foldPending = false := by
  obtain halone | hlt := hbounded
  · -- the visualizer waits for this curve
    obtain ⟨c₀, hc₀, hpending⟩ := h.waits
    obtain rfl : c = c₀ :=
      inj_on_of_nodup_map h.keys hc hc₀ (hcmf.trans (halone c₀ hc₀).symm)
    exact hpending
  · by_contra hpending
    have hpending := Bool.eq_true_of_not_eq_false hpending
    obtain ⟨rfl, rfl, hahead⟩ := h.this c hc hcmf
    have hahead := hahead hpending
    have hsize : c.multiple * c.bucketer.theBaseBucketSize =
        2 * s.getPresentBucketSizeInCycles := by
      have := (h.curves c hc).size
      rwa [hpending, if_pos rfl] at this
    -- the time after the event is at least that of 501 buckets of twice the width
    have hlate : 501 * c.multiple ≤ s₁.1 * s₁.2 := by
      obtain ⟨_, _, _, -, -, rfl⟩ | ⟨-, rfl⟩ | ⟨-, -, rfl⟩ := follow_cases hfollow
      · exact Nat.mul_le_mul_right _ (Nat.succ_le_succ hahead)
      · exact Nat.mul_le_mul_right _ (Nat.succ_le_succ hahead)
      · omega
    have := Nat.mul_le_mul_right c.bucketer.theBaseBucketSize hlate
    rw [Nat.mul_assoc, hsize] at this
    omega

end

/-! ## Calls from a bucketer -/

section Calls

variable [DecidableEq K] {s s' : VisiSubscriber K V} {cmf : K} {b : FoldingBucketer V}
  {n m time : Nat}

theorem mem_of_getCurve {c : Curve K V} (h : s.getCurve cmf = some c) :
    c ∈ s.theBucketers ∧ c.cmf = cmf := by
  have hcmf := find?_some h
  exact ⟨mem_of_find?_eq_some h, of_decide_eq_true hcmf⟩

theorem mem_updateCurve {f : Curve K V → Curve K V} {c' : Curve K V}
    (h : c' ∈ (s.updateCurve cmf f).theBucketers) :
    ∃ c ∈ s.theBucketers, (c.cmf = cmf ∧ c' = f c) ∨ (c.cmf ≠ cmf ∧ c' = c) := by
  obtain ⟨c, hc, rfl⟩ := mem_map.mp h
  by_cases hcmf : c.cmf = cmf
  · exact ⟨c, hc, .inl ⟨hcmf, if_pos hcmf⟩⟩
  · exact ⟨c, hc, .inr ⟨hcmf, if_neg hcmf⟩⟩

/-- A curve is updated to a state that fits the visualizer. -/
theorem Timed.updateCurve (h : Timed s) {f : Curve K V → Curve K V} (hcmf : ∀ c, (f c).cmf = c.cmf)
    (hcurves : ∀ c ∈ s.theBucketers, c.cmf = cmf →
      CurveTimed s.baseBucketSizeCycles s.getPresentBucketSizeInCycles (f c) ∧
        (f c).bucketer.theBaseBucketSize = c.bucketer.theBaseBucketSize) :
    Timed (s.updateCurve cmf f) := by
  refine { h with keys := ?_, curves := ?_, original := ?_ }
  · have hkeys : (s.updateCurve cmf f).theBucketers.map Curve.cmf =
        s.theBucketers.map Curve.cmf := by
      rw [VisiSubscriber.updateCurve, map_map]
      refine map_congr_left fun c _ => ?_
      dsimp only [Function.comp_apply]
      split
      · exact hcmf c
      · rfl
    rw [hkeys]
    exact h.keys
  · intro c' hc'
    obtain ⟨c, hc, ⟨hthis, rfl⟩ | ⟨-, rfl⟩⟩ := mem_updateCurve hc'
    · exact (hcurves c hc hthis).1
    · exact h.curves c' hc
  · intro hne
    have hne' : s.theBucketers ≠ [] := fun hnil =>
      hne (by rw [VisiSubscriber.updateCurve, hnil]; rfl)
    obtain ⟨c, hc, horiginal⟩ := h.original hne'
    refine ⟨_, mem_map_of_mem hc, ?_⟩
    split
    case isTrue hthis => exact (hcurves c hc hthis).2.trans horiginal
    case isFalse => exact horiginal

theorem Timed.exists_getCurve (h : Timed s) (hmem : (cmf, b) ∈ s.bucketers) :
    ∃ c, s.getCurve cmf = some c ∧ c.bucketer = b := by
  obtain ⟨c, hc, hcmf, rfl⟩ := exists_of_mem_bucketers hmem
  have hsome : (s.getCurve cmf).isSome := find?_isSome.mpr ⟨c, hc, decide_eq_true hcmf⟩
  obtain ⟨c', hget⟩ := Option.isSome_iff_exists.mp hsome
  obtain ⟨hc', hcmf'⟩ := mem_of_getCurve hget
  obtain rfl : c' = c := inj_on_of_nodup_map h.keys hc' hc (hcmf'.trans hcmf.symm)
  exact ⟨c', hget, rfl⟩

theorem bucketers_updateCurve (s : VisiSubscriber K V) {f : Curve K V → Curve K V}
    {g : FoldingBucketer V → FoldingBucketer V} (hcmf : ∀ c, (f c).cmf = c.cmf)
    (hbucketer : ∀ c, (f c).bucketer = g c.bucketer) : (s.updateCurve cmf f).bucketers =
      s.bucketers.map fun p => if p.1 = cmf then (p.1, g p.2) else p := by
  rw [bucketers, bucketers, VisiSubscriber.updateCurve, map_map, map_map]
  refine map_congr_left fun c _ => ?_
  dsimp only [Function.comp_apply]
  split
  · rw [hcmf, hbucketer]
  · rfl

omit [DecidableEq K] in
theorem Mid.processPerfectBucket (h : Mid s cmf b n m)
    (hpending : ∀ c ∈ s.theBucketers, c.cmf = cmf → c.foldPending = false) (vals : List V)
    {startTime endTimePlus1 : Nat}
    (htime : denotedInterval b.genesisTime (m * b.theBaseBucketSize) n =
      (startTime, endTimePlus1)) :
    Mid (s.processPerfectBucket cmf n vals startTime endTimePlus1) cmf b (n + 1) m := by
  obtain ⟨c, hc, hcmf, rfl⟩ := exists_of_mem_bucketers h.here
  have hsize : m * c.bucketer.theBaseBucketSize = s.getPresentBucketSizeInCycles := by
    rw [← (h.this c hc hcmf).2.1, ← Curve.bucketSize, (h.curves c hc).size, hpending c hc hcmf,
      if_neg Bool.false_ne_true]
  refine { h with buffered := ?_, this := ?_ }
  · intro d hd
    obtain hd | hd := mem_append.mp hd
    · exact h.buffered d hd
    · obtain rfl := mem_singleton.mp hd
      rw [h.genesis, hsize] at htime
      exact htime
  · intro c hc hcmf
    obtain ⟨hb, hm, hahead⟩ := h.this c hc hcmf
    exact ⟨hb, hm, fun hp => (hahead hp).trans (Nat.le_succ n)⟩

theorem Mid.processFold (h : Mid s cmf b n m)
    (hpending : ∀ c ∈ s.theBucketers, c.cmf = cmf → c.foldPending = false)
    (hbounded : Bounded s cmf time) :
    ∃ s', (s.updateCurve cmf (Curve.folded (m * 2))).processFold = some s' ∧
      Mid s' cmf b 500 (m * 2) ∧ Bounded s' cmf time ∧ s'.bucketers = s.bucketers := by
  have hfolded : Timed (s.updateCurve cmf (Curve.folded (m * 2))) := by
    refine h.updateCurve (fun _ => rfl) fun c hc hcmf => ⟨⟨(h.curves c hc).base_le, ?_⟩, rfl⟩
    have hsize := (h.curves c hc).size
    rw [hpending c hc hcmf, if_neg Bool.false_ne_true, Curve.bucketSize,
      (h.this c hc hcmf).2.1] at hsize
    change m * 2 * c.bucketer.theBaseBucketSize = 2 * s.getPresentBucketSizeInCycles
    rw [← hsize, Nat.mul_comm m, Nat.mul_assoc]
  have hne : (s.updateCurve cmf (Curve.folded (m * 2))).theBucketers ≠ [] := by
    obtain ⟨c, hc, -⟩ := h.waits
    exact ne_nil_of_mem (mem_map_of_mem hc)
  have hsame : (s.updateCurve cmf (Curve.folded (m * 2))).bucketers = s.bucketers := by
    rw [bucketers_updateCurve s (f := Curve.folded (m * 2)) (g := id) (fun _ => rfl) fun _ => rfl]
    exact map_id'' (fun p => ite_self p) _
  obtain ⟨s', hrun, htimed, hwaits, hbucketers, hgenesis, hbase, hgrows, hcurves⟩ :=
    hfolded.processFold hne
  rw [hsame] at hbucketers
  -- each curve is as before, apart from the pending folds
  have hfrom : ∀ c' ∈ s'.theBucketers, ∃ c ∈ s.theBucketers, c'.cmf = c.cmf ∧
      c'.bucketer = c.bucketer ∧ ((c.cmf = cmf ∧ c'.multiple = m * 2) ∨
        (c.cmf ≠ cmf ∧ c'.multiple = c.multiple ∧
          (c'.foldPending = true → c.foldPending = true))) := by
    intro c' hc'
    obtain ⟨c'', hc'', hkey, hbucketer, hmultiple, hp⟩ := hcurves c' hc'
    obtain ⟨c, hc, ⟨hthis, rfl⟩ | ⟨hthis, rfl⟩⟩ := mem_updateCurve hc''
    · exact ⟨c, hc, hkey, hbucketer, .inl ⟨hthis, hmultiple⟩⟩
    · exact ⟨c'', hc, hkey, hbucketer, .inr ⟨hthis, hmultiple, hp⟩⟩
  refine ⟨s', hrun, ⟨htimed, hwaits, hbucketers ▸ h.here, h.genesis.trans hgenesis.symm,
    ?_, ?_⟩, ?_,
    hbucketers⟩
  · intro c' hc' hcmf
    obtain ⟨c, hc, hkey, hbucketer, ⟨hthis, hmultiple⟩ | ⟨hthis, -⟩⟩ := hfrom c' hc'
    · exact ⟨hbucketer.trans (h.this c hc hthis).1, hmultiple, fun _ => le_refl _⟩
    · exact (hthis (hkey.symm.trans hcmf)).elim
  · intro c' hc' hcmf
    obtain ⟨c, hc, hkey, hbucketer, ⟨hthis, -⟩ | ⟨hthis, hmultiple, hp⟩⟩ := hfrom c' hc'
    · exact (hcmf (hkey.trans hthis)).elim
    · obtain ⟨hgood, hg, hm, hahead⟩ := h.rest c hc hthis
      refine ⟨hbucketer ▸ hgood, ?_, ?_, ?_⟩
      · rw [hbucketer, hg, hgenesis]
        rfl
      · rw [hmultiple, hbucketer, hm]
      · rw [hbucketer]
        exact fun hpending => hahead (hp hpending)
  · obtain halone | hlt := hbounded
    · refine .inl fun c' hc' => ?_
      obtain ⟨c, hc, hkey, -⟩ := hfrom c' hc'
      exact hkey.trans (halone c hc)
    · refine .inr (hlt.trans_le (Nat.mul_le_mul_left _ ?_))
      rw [getPresentBucketSizeInCycles, getPresentBucketSizeInCycles, hbase]
      exact Nat.mul_le_mul_left _ hgrows

/-- **A call from a bucketer.** -/
theorem Mid.processEvent (h : Mid s cmf b n m) (hbounded : Bounded s cmf time)
    {event : BucketEvent V} {n₁ m₁ : Nat}
    (hfollow : follow b.genesisTime b.theBaseBucketSize (n, m) event = some (n₁, m₁))
    (htime : n₁ * m₁ * b.theBaseBucketSize ≤ time) :
    ∃ s', s.processEvent cmf event = some s' ∧ Mid s' cmf b n₁ m₁ ∧ Bounded s' cmf time ∧
      s'.bucketers = s.bucketers := by
  have hpending : ∀ c ∈ s.theBucketers, c.cmf = cmf → c.foldPending = false :=
    fun c hc => h.not_pending hbounded hfollow htime hc
  obtain ⟨vals, startTime, endTimePlus1, rfl, hinterval, heq⟩ | ⟨rfl, heq⟩ | ⟨rfl, -, heq⟩ :=
    follow_cases hfollow
  · obtain ⟨rfl, rfl⟩ := Prod.mk.inj heq
    exact ⟨_, rfl, h.processPerfectBucket hpending vals hinterval, hbounded, rfl⟩
  · obtain ⟨rfl, rfl⟩ := Prod.mk.inj heq
    refine ⟨s, rfl, { h with this := fun c hc hcmf => ?_ }, hbounded, rfl⟩
    obtain ⟨hb, hm, hahead⟩ := h.this c hc hcmf
    exact ⟨hb, hm, fun hp => (hahead hp).trans (Nat.le_succ n)⟩
  · obtain ⟨rfl, rfl⟩ := Prod.mk.inj heq
    exact h.processFold hpending hbounded

/-- **The calls of an addition.** -/
theorem Mid.processEvents {events : List (BucketEvent V)} : ∀ {s : VisiSubscriber K V} {n m : Nat},
    Mid s cmf b n m → Bounded s cmf time → ∀ {n' m' : Nat},
      events.foldlM (follow b.genesisTime b.theBaseBucketSize) (n, m) = some (n', m') →
        n' * m' * b.theBaseBucketSize ≤ time →
        ∃ s', events.foldlM (fun s event => s.processEvent cmf event) s = some s' ∧
          Mid s' cmf b n' m' ∧ s'.bucketers = s.bucketers := by
  induction events with
  | nil =>
    intro s n m h _ n' m' hfollow _
    obtain ⟨rfl, rfl⟩ := Prod.mk.inj (Option.some.inj hfollow)
    exact ⟨s, rfl, h, rfl⟩
  | cons event events ih =>
    intro s n m h hbounded n' m' hfollow htime
    obtain ⟨⟨n₁, m₁⟩, hfollow₁, hfollow⟩ := exists_of_bind hfollow
    have hle := Nat.mul_le_mul_right b.theBaseBucketSize (mul_le_of_follow_all hfollow)
    obtain ⟨s₁, hs₁, hmid, hbounded₁, hsame⟩ := h.processEvent hbounded hfollow₁ (hle.trans htime)
    obtain ⟨s', hrun, hmid', hsame'⟩ := ih hmid hbounded₁ hfollow htime
    refine ⟨s', ?_, hmid', hsame'.trans hsame⟩
    rw [foldlM_cons, hs₁]
    exact hrun

end Calls

/-! ## Runs -/

/-- A step that keeps the curves in step. A curve added after a fold needs an older one; if curves
are removed, one that the visualizer waits for and an oldest one remain; and values are not added
for a time so much beyond the next fold that a bucket is filled before the other curves fold. -/
def InStep [DecidableEq K] (s : VisiSubscriber K V) : Op K V → Prop
  | .newMetricFocusPair _ _ _ => s.bucketSizeMultiple = 1 ∨
    ∃ c ∈ s.theBucketers, c.bucketer.theBaseBucketSize = s.baseBucketSizeCycles
  | .subscriberHasRemovedCurve cmf | .disableMetricFocusPair cmf => s.others cmf = [] ∨
    ((∃ c ∈ s.others cmf, c.foldPending = false) ∧
      ∃ c ∈ s.others cmf, c.bucketer.theBaseBucketSize = s.baseBucketSizeCycles)
  | .add cmf _ endTimePlus1 _ => s.others cmf = [] ∨
    endTimePlus1 < s.genesisTime + 1002 * s.getPresentBucketSizeInCycles
  | .ship => True

section Runs

variable [DecidableEq K] {s s' : VisiSubscriber K V} {cmf : K}

theorem others_eq_nil : s.others cmf = [] ↔ ∀ c ∈ s.theBucketers, c.cmf = cmf := by
  simp [others]

theorem Inv.remove (h : Inv s)
    (hin : s.others cmf = [] ∨ ((∃ c ∈ s.others cmf, c.foldPending = false) ∧
      ∃ c ∈ s.others cmf, c.bucketer.theBaseBucketSize = s.baseBucketSizeCycles))
    (hrun : s.subscriberHasRemovedCurve cmf = some s') : Inv s' := by
  obtain ⟨c, -, hrun⟩ := exists_of_bind hrun
  obtain rfl := Option.some.inj hrun
  have hsub : ∀ c ∈ s.others cmf, c ∈ s.theBucketers := fun c hc => mem_of_mem_filter hc
  refine ⟨⟨h.base_pos, h.multiple_pos, ?_, fun c hc => h.curves c (hsub c hc), ?_, h.buffered,
    h.right, h.last⟩, ?_, fun c hc => h.atRest c (hsub c hc)⟩
  · exact h.keys.sublist (filter_sublist.map _)
  · exact fun hne => (hin.resolve_left hne).2
  · exact fun hne => (hin.resolve_left hne).1

variable [Val V]

theorem Inv.newMetricFocusPair (h : Inv s)
    (hin : s.bucketSizeMultiple = 1 ∨
      ∃ c ∈ s.theBucketers, c.bucketer.theBaseBucketSize = s.baseBucketSizeCycles)
    {numValues : Nat} {how : ValueScaling}
    (hrun : s.newMetricFocusPair cmf numValues how = some s') : Inv s' := by
  simp only [VisiSubscriber.newMetricFocusPair, do_eq_some, check_eq_some] at hrun
  obtain ⟨b, hb, _, hnew, hrun⟩ := hrun
  subst hrun
  have hwidth : 0 < s.baseBucketSizeCycles * s.bucketSizeMultiple :=
    Nat.mul_pos h.base_pos h.multiple_pos
  rw [setGenesisTime_create, Option.ite_none_left_eq_some] at hb
  obtain ⟨hgenesis, hb⟩ := hb
  obtain rfl := Option.some.inj hb
  have hgood : Good (started numValues (s.baseBucketSizeCycles * s.bucketSizeMultiple) how
      s.genesisTime : FoldingBucketer V) := good_started hwidth (Nat.pos_of_ne_zero hgenesis)
  suffices hadded : Inv { s with
      theBucketers := s.theBucketers ++ [⟨cmf, started numValues
        (s.baseBucketSizeCycles * s.bucketSizeMultiple) how s.genesisTime, 1, false⟩] } by
    exact hadded.tell (m := .addMetricsResources cmf) (fun _ => trivial) (fun _ => rfl)
  refine ⟨⟨h.base_pos, h.multiple_pos, ?_, ?_, ?_, h.buffered, h.right, h.last⟩, ?_, ?_⟩
  · rw [map_append, nodup_append]
    refine ⟨h.keys, nodup_singleton _, ?_⟩
    intro k hk k' hk'
    obtain ⟨c, hc, rfl⟩ := mem_map.mp hk
    obtain rfl := mem_singleton.mp hk'
    exact hnew c hc
  · intro c hc
    obtain hc | hc := mem_append.mp hc
    · exact h.curves c hc
    · obtain rfl := mem_singleton.mp hc
      exact ⟨Nat.le_mul_of_pos_right _ h.multiple_pos, Nat.one_mul _⟩
  · rintro -
    obtain hone | ⟨c, hc, horiginal⟩ := hin
    · refine ⟨_, mem_append_right _ (mem_singleton_self _), ?_⟩
      change s.baseBucketSizeCycles * s.bucketSizeMultiple = _
      rw [hone, Nat.mul_one]
    · exact ⟨c, mem_append_left _ hc, horiginal⟩
  · exact fun _ => ⟨_, mem_append_right _ (mem_singleton_self _), rfl⟩
  · intro c hc
    obtain hc | hc := mem_append.mp hc
    · exact h.atRest c hc
    · obtain rfl := mem_singleton.mp hc
      exact ⟨hgood, rfl, rfl, fun hp => (Bool.false_ne_true hp).elim⟩

/-- **An addition** that the bucketer takes, the subscriber does too. -/
theorem Inv.add (h : Inv s) {startTime endTimePlus1 : Nat} {vals : List V} {c : Curve K V}
    {b : FoldingBucketer V} (hget : s.getCurve cmf = some c)
    (hadd : c.bucketer.add startTime endTimePlus1 vals = some b)
    (hin : s.others cmf = [] ∨
      endTimePlus1 < s.genesisTime + 1002 * s.getPresentBucketSizeInCycles) :
    ∃ s', s.add cmf startTime endTimePlus1 vals = some s' ∧ Inv s' ∧
      s'.bucketers = s.bucketers.map fun p => if p.1 = cmf then (p.1, b) else p := by
  obtain ⟨hc, hcmf⟩ := mem_of_getCurve hget
  have hrest := h.atRest c hc
  obtain ⟨hgood, hsame, hend⟩ := hrest.good.add_keeps hadd
  obtain ⟨⟨hgenesis, hbase⟩, events, htold, hevents⟩ := hrest.good.follows_add hadd
  have hgenesis' : b.genesisTime = s.genesisTime := hgenesis.trans hrest.genesis
  -- the calls start from the state before the addition
  have hthis : ∀ c' ∈ s.theBucketers, c'.cmf = cmf → c' = c := fun c' hc' hcmf' =>
    inj_on_of_nodup_map h.keys hc' hc (hcmf'.trans hcmf.symm)
  have hbucketers : (s.updateCurve cmf fun c => { c with bucketer := b }).bucketers =
      s.bucketers.map fun p => if p.1 = cmf then (p.1, b) else p :=
    bucketers_updateCurve s (fun _ => rfl) (g := fun _ => b) (fun _ => rfl)
  have hmid : Mid (s.updateCurve cmf fun c => { c with bucketer := b }) cmf b
      c.bucketer.currNumBuckets c.bucketer.currMultipleOfBaseBucketWidth := by
    refine ⟨h.toTimed.updateCurve (fun _ => rfl) fun c' hc' hcmf' => ?_, ?_, ?_, hgenesis', ?_, ?_⟩
    · obtain rfl := hthis c' hc' hcmf'
      refine ⟨⟨hsame.base ▸ (h.curves c' hc').base_le, ?_⟩, hsame.base⟩
      rw [← (h.curves c' hc').size, Curve.bucketSize, Curve.bucketSize, hsame.base]
    · obtain ⟨c', hc', hpending⟩ := h.waits (ne_nil_of_mem hc)
      refine ⟨_, mem_map_of_mem hc', ?_⟩
      split
      · exact hpending
      · exact hpending
    · rw [hbucketers]
      exact mem_map.mpr ⟨(c.cmf, c.bucketer), mem_map_of_mem hc, by rw [if_pos hcmf, hcmf]⟩
    · intro c' hc' hcmf'
      obtain ⟨c'', hc'', ⟨hcmf'', rfl⟩ | ⟨hcmf'', rfl⟩⟩ := mem_updateCurve hc'
      · obtain rfl := hthis c'' hc'' hcmf''
        exact ⟨rfl, hrest.multiple, hrest.ahead⟩
      · exact (hcmf'' hcmf').elim
    · intro c' hc' hcmf'
      obtain ⟨c'', hc'', ⟨hcmf'', rfl⟩ | ⟨-, rfl⟩⟩ := mem_updateCurve hc'
      · exact (hcmf' hcmf'').elim
      · exact h.atRest c' hc''
  -- the time that the buckets take in the end
  have htime : b.currNumBuckets * b.currMultipleOfBaseBucketWidth * b.theBaseBucketSize ≤
      endTimePlus1 - s.genesisTime := by
    have hstarted := hgood.started
    rw [hgood.starts, hgood.size, hend, hgenesis', ← Nat.mul_assoc] at hstarted
    omega
  have hbounded : Bounded (s.updateCurve cmf fun c => { c with bucketer := b }) cmf
      (endTimePlus1 - s.genesisTime) := by
    obtain halone | hlt := hin
    · refine .inl fun c' hc' => ?_
      obtain ⟨c'', hc'', ⟨hcmf'', rfl⟩ | ⟨-, rfl⟩⟩ := mem_updateCurve hc'
      · exact hcmf''
      · exact others_eq_nil.mp halone c' hc''
    · have hpos : 0 < s.getPresentBucketSizeInCycles := Nat.mul_pos h.base_pos h.multiple_pos
      refine .inr ?_
      change _ < 1002 * s.getPresentBucketSizeInCycles
      omega
  rw [← hgenesis, ← hbase] at hevents
  obtain ⟨s', hrun, hmid', hsame'⟩ := hmid.processEvents hbounded hevents htime
  refine ⟨s', ?_, ⟨hmid'.toTimed, fun _ => hmid'.waits, fun c' hc' => ?_⟩, hsame'.trans hbucketers⟩
  · rw [VisiSubscriber.add, hget, bind_eq_bind, bind_some, hadd, bind_eq_bind, bind_some, htold,
      drop_left]
    exact hrun
  · by_cases hcmf' : c'.cmf = cmf
    · obtain ⟨rfl, hmultiple, hahead⟩ := hmid'.this c' hc' hcmf'
      exact ⟨hgood, hmid'.genesis, hmultiple, hahead⟩
    · exact hmid'.rest c' hc' hcmf'

/-- **A step in step.** -/
theorem Inv.step (h : Inv s) {op : Op K V} (hin : InStep s op) (hrun : s.step op = some s') :
    Inv s' := by
  cases op with
  | newMetricFocusPair cmf numValues how => exact h.newMetricFocusPair hin hrun
  | subscriberHasRemovedCurve cmf => exact h.remove hin hrun
  | disableMetricFocusPair cmf =>
    obtain ⟨s₁, hs₁, hrun⟩ := exists_of_bind hrun
    obtain rfl := Option.some.inj hrun
    exact (h.remove hin hs₁).tell (fun _ => trivial) (fun _ => rfl)
  | add cmf startTime endTimePlus1 vals =>
    have hrun₀ := hrun
    obtain ⟨c, hget, hrun⟩ := exists_of_bind hrun
    obtain ⟨b, hadd, -⟩ := exists_of_bind hrun
    obtain ⟨s₁, hrun₁, hinv, -⟩ := h.add hget hadd hin
    obtain rfl := Option.mem_unique hrun₁ hrun₀
    exact hinv
  | ship =>
    obtain rfl := Option.some.inj hrun
    have htimed := h.toTimed.ship
    rw [ship_eq] at htimed ⊢
    exact ⟨htimed, h.waits, h.atRest⟩

/-- **Bucket numbers mean the right time** in every run that keeps the curves in step. -/
theorem rightTime_of_inStep (genesisTime base : Nat) (ops : List (Op K V))
    (s s' : VisiSubscriber K V) (hcreate : create genesisTime base = some s)
    (hall : AllSteps VisiSubscriber.step InStep s ops)
    (hrun : ops.foldlM VisiSubscriber.step s = some s') :
    RightTime s'.genesisTime s'.baseBucketSizeCycles 1 s'.sent :=
  (hall.keeps (fun _ _ _ h hin hstep => h.step hin hstep) (inv_create hcreate) hrun).right

end Runs

/-! ## Two curves -/

section TwoCurves

/-- Two curves, with the first bucketer in some state. -/
def twoCurves (b : FoldingBucketer (BitVec 64)) (m : Nat) (pending : Bool)
    (buffer : List (DataValue Nat (BitVec 64))) : VisiSubscriber Nat (BitVec 64) where
  genesisTime := 1
  baseBucketSizeCycles := 1
  bucketSizeMultiple := 1
  theBucketers := [⟨0, b, m, pending⟩, ⟨1, started 1 1 .proportionalToTime 1, 1, false⟩]
  reusableDataBuffer := buffer
  sent := [.addMetricsResources 0, .addMetricsResources 1]

theorem good_started_one :
    Good (started 1 1 .proportionalToTime 1 : FoldingBucketer (BitVec 64)) :=
  good_started (by decide) (by decide)

/-- A value can be added for any time from the start. -/
theorem exists_add {t : Nat} (ht : 1 < t)
    (hlimit : t < (started 1 1 .proportionalToTime 1 : FoldingBucketer (BitVec 64)).limit) :
    ∃ b, (started 1 1 .proportionalToTime 1 : FoldingBucketer (BitVec 64)).add 1 t [0] =
      some b := by
  have hvalid : Valid (started 1 1 .proportionalToTime 1) (.add 1 t [0#64]) :=
    ⟨ht, ht.le, ht, rfl⟩
  exact Option.isSome_iff_exists.mp (good_started_one.step_isSome hvalid hlimit
    (good_started_one.stepSplits (Val.shrinks_bitVec 64) hvalid))

theorem foldlM_newCurves : [Op.newMetricFocusPair 0 1 .proportionalToTime,
    .newMetricFocusPair 1 1 .proportionalToTime].foldlM step ⟨1, 1, 1, [], [], []⟩ =
      some (twoCurves (started 1 1 .proportionalToTime 1) 1 false []) := rfl

theorem getCurve_twoCurves :
    (twoCurves (started 1 1 .proportionalToTime 1) 1 false []).getCurve 0 =
      some ⟨0, started 1 1 .proportionalToTime 1, 1, false⟩ := rfl

/-- Both curves are given a value for 1000 time units, so that both fold and the visualizer does. -/
def twoFolds : List (Op Nat (BitVec 64)) :=
  [.newMetricFocusPair 0 1 .proportionalToTime, .newMetricFocusPair 1 1 .proportionalToTime,
    .add 0 1 1001 [0], .add 1 1 1001 [0], .ship]

theorem inv_twoCurves : Inv (twoCurves (started 1 1 .proportionalToTime 1) 1 false []) := by
  have hall : AllSteps step InStep (⟨1, 1, 1, [], [], []⟩ : VisiSubscriber Nat (BitVec 64))
      [.newMetricFocusPair 0 1 .proportionalToTime,
        .newMetricFocusPair 1 1 .proportionalToTime] := by
    refine ⟨.inl rfl, fun s hs => ?_⟩
    obtain rfl := Option.some.inj hs
    exact ⟨.inl rfl, fun _ _ => trivial⟩
  exact hall.keeps (fun _ _ _ h hin hstep => h.step hin hstep)
    (inv_create (show create 1 1 = _ from rfl)) foldlM_newCurves

/-- Curves with buckets of size 1 that have values for 1000 time units have folded. -/
theorem Inv.one_lt_multiple {s : VisiSubscriber K V} (h : Inv s) (hne : s.theBucketers ≠ [])
    (hall : ∀ c ∈ s.theBucketers, c.bucketer.theBaseBucketSize = 1 ∧
      c.bucketer.lastChangeTimePlus1 = c.bucketer.genesisTime + 1000) :
    1 < s.bucketSizeMultiple := by
  obtain ⟨c₀, hc₀, hbase⟩ := h.original hne
  rw [(hall c₀ hc₀).1] at hbase
  obtain ⟨c, hc, hpending⟩ := h.waits hne
  obtain ⟨hone, hlast⟩ := hall c hc
  have hrest := h.atRest c hc
  have hsize := (h.curves c hc).size
  rw [hpending, if_neg Bool.false_ne_true, Curve.bucketSize, hone, hrest.multiple,
    getPresentBucketSizeInCycles, ← hbase, Nat.mul_one, Nat.one_mul] at hsize
  have hunfinished := hrest.good.unfinished
  have hcount := hrest.good.count
  rw [hrest.good.starts, hrest.good.size, hone, hlast, hsize, Nat.mul_one] at hunfinished
  by_contra hle
  obtain h | h : s.bucketSizeMultiple = 0 ∨ s.bucketSizeMultiple = 1 := by omega
  · rw [h] at hunfinished
    omega
  · rw [h] at hunfinished
    omega

theorem rightTime_twoFolds : ∃ s s' : VisiSubscriber Nat (BitVec 64),
    create 1 1 = some s ∧ twoFolds.foldlM VisiSubscriber.step s = some s' ∧
      1 < lastMultiple 1 s'.sent ∧
      RightTime s'.genesisTime s'.baseBucketSizeCycles 1 s'.sent := by
  obtain ⟨b, hb⟩ := exists_add (show 1 < 1001 by decide) (by decide)
  obtain ⟨-, hsame, hend⟩ := good_started_one.add_keeps hb
  -- the first curve folds, and then the second one
  obtain ⟨s₃, hadd₃, hinv₃, hbucketers₃⟩ :=
    inv_twoCurves.add getCurve_twoCurves hb (.inr (by decide))
  have hmem₃ : (1, started 1 1 .proportionalToTime 1) ∈ s₃.bucketers := by
    rw [hbucketers₃]
    exact .tail _ (.head _)
  obtain ⟨c, hget, hc⟩ := hinv₃.exists_getCurve hmem₃
  have hgenesis₃ : s₃.genesisTime = 1 := by
    rw [← (hinv₃.atRest c (mem_of_getCurve hget).1).genesis, hc]
    rfl
  have hin₃ : InStep s₃ (.add 1 1 1001 [0]) := by
    have hpos : 0 < s₃.getPresentBucketSizeInCycles := Nat.mul_pos hinv₃.base_pos hinv₃.multiple_pos
    refine .inr ?_
    rw [hgenesis₃]
    omega
  obtain ⟨s₄, hadd₄, hinv₄, hbucketers₄⟩ := hinv₃.add hget (hc ▸ hb) hin₃
  rw [hbucketers₃] at hbucketers₄
  have hall : ∀ c ∈ s₄.theBucketers, c.bucketer = b := by
    intro c hc
    have hmem : (c.cmf, c.bucketer) ∈ s₄.bucketers := mem_map_of_mem hc
    rw [hbucketers₄] at hmem
    rcases mem_cons.mp hmem with h | h
    · exact (Prod.mk.inj h).2
    · exact (Prod.mk.inj (mem_singleton.mp h)).2
  have hne : s₄.theBucketers ≠ [] := by
    intro hnil
    rw [bucketers, hnil] at hbucketers₄
    cases hbucketers₄
  have hmultiple : 1 < s₄.bucketSizeMultiple := by
    refine hinv₄.one_lt_multiple hne fun c hc => ?_
    rw [hall c hc, hend, hsame.genesis, hsame.base]
    exact ⟨rfl, rfl⟩
  have hship : s₄.step .ship = some s₄.shipBufferedSampleDataToVisiIfAny := rfl
  have hin₄ : InStep s₄ .ship := trivial
  have hlast := (hinv₄.step hin₄ hship).last
  have hrun : twoFolds.foldlM VisiSubscriber.step ⟨1, 1, 1, [], [], []⟩ =
      some s₄.shipBufferedSampleDataToVisiIfAny := by
    change ([_, _] ++ [_, _, _]).foldlM step _ = _
    rw [foldlM_append, foldlM_newCurves, bind_eq_bind, bind_some, foldlM_cons]
    change (VisiSubscriber.add _ _ _ _ _).bind _ = _
    rw [hadd₃, bind_some, foldlM_cons]
    change (VisiSubscriber.add _ _ _ _ _).bind _ = _
    rw [hadd₄]
    rfl
  refine ⟨_, _, rfl, hrun, ?_, rightTime_of_inStep 1 1 twoFolds _ _ rfl ?_ hrun⟩
  · rw [hlast, ship_eq]
    exact hmultiple
  · refine ⟨.inl rfl, fun s₁ h₁ => ?_⟩
    obtain rfl := Option.some.inj h₁
    refine ⟨.inl rfl, fun s₂ h₂ => ?_⟩
    obtain rfl := Option.some.inj h₂
    refine ⟨.inr (by decide), fun s h => ?_⟩
    obtain rfl := Option.mem_unique hadd₃ h
    exact ⟨hin₃, fun _ _ => ⟨trivial, fun _ _ => trivial⟩⟩

end TwoCurves

/-! ## A curve ahead of another -/

section Ahead

/-- While the second curve has not folded, the first one fills the buffer. After its fold this has
the wrong width. -/
theorem processEvents_twoCurves {b : FoldingBucketer (BitVec 64)}
    {events : List (BucketEvent (BitVec 64))} (hdefined : ∀ k, .undefinedBucket k ∉ events) :
    ∀ (pending : Bool) (buffer : List (DataValue Nat (BitVec 64))) {n m n' m' : Nat},
      (m = 1 ∨ (m = 2 ∧ n = 500) ∨ ∃ d ∈ buffer, ¬ d.Denotes 1 1) →
      events.foldlM (follow 1 1) (n, m) = some (n', m') →
        ∃ pending' buffer', events.foldlM (fun s event => s.processEvent 0 event)
            (twoCurves b m pending buffer) = some (twoCurves b m' pending' buffer') ∧
          (m' = 1 ∨ (m' = 2 ∧ n' = 500) ∨ ∃ d ∈ buffer', ¬ d.Denotes 1 1) := by
  induction events with
  | nil =>
    intro pending buffer n m n' m' hbefore hfollow
    obtain ⟨rfl, rfl⟩ := Prod.mk.inj (Option.some.inj hfollow)
    exact ⟨pending, buffer, rfl, hbefore⟩
  | cons event events ih =>
    intro pending buffer n m n' m' hbefore hfollow
    have hdefined' : ∀ k, .undefinedBucket k ∉ events :=
      fun k hk => hdefined k (mem_cons_of_mem _ hk)
    obtain ⟨⟨n₁, m₁⟩, hfollow₁, hfollow⟩ := exists_of_bind hfollow
    obtain ⟨vals, startTime, endTimePlus1, rfl, hinterval, heq⟩ | ⟨rfl, -⟩ | ⟨rfl, hn, heq⟩ :=
      follow_cases hfollow₁
    · obtain ⟨rfl, rfl⟩ := Prod.mk.inj heq
      let d : DataValue Nat (BitVec 64) := ⟨0, n, vals, startTime, endTimePlus1⟩
      have hafter : m₁ = 1 ∨ (m₁ = 2 ∧ n + 1 = 500) ∨ ∃ d' ∈ buffer ++ [d], ¬ d'.Denotes 1 1 := by
        obtain h | ⟨rfl, rfl⟩ | ⟨d', hd', h⟩ := hbefore
        · exact .inl h
        · refine .inr (.inr ⟨d, mem_append_right _ (mem_singleton_self _), fun hd => ?_⟩)
          have hstart := congrArg Prod.fst (hd.trans hinterval.symm)
          change 1 + 500 * 1 = 1 + 500 * (2 * 1) at hstart
          omega
        · exact .inr (.inr ⟨d', mem_append_left _ hd', h⟩)
      exact ih hdefined' pending (buffer ++ [d]) hafter hfollow
    · exact (hdefined _ (mem_cons_self ..)).elim
    · obtain ⟨rfl, rfl⟩ := Prod.mk.inj heq
      have hafter : m * 2 = 1 ∨ (m * 2 = 2 ∧ 500 = 500) ∨ ∃ d' ∈ buffer, ¬ d'.Denotes 1 1 := by
        obtain h | ⟨-, h⟩ | h := hbefore
        · exact .inr (.inl ⟨by omega, rfl⟩)
        · omega
        · exact .inr (.inr h)
      have hwaits : Waits (twoCurves b (m * 2) true buffer) :=
        ⟨_, mem_cons_of_mem _ (mem_singleton_self _), rfl⟩
      have hfold : (twoCurves b m pending buffer).processEvent 0 (.fold (m * 2)) =
          some (twoCurves b (m * 2) true buffer) := processFold_of_waits hwaits
      exact ih hdefined' true buffer hafter hfollow

/-- **A curve ahead of another.** With two curves and buckets of size 1, values for 1002 time units
are added to the first. It folds, and fills one bucket of size 2; the second curve has not
folded. -/
theorem not_rightTime_ahead : ∃ s s' : VisiSubscriber Nat (BitVec 64),
    create 1 1 = some s ∧
      [Op.newMetricFocusPair 0 1 .proportionalToTime, .newMetricFocusPair 1 1 .proportionalToTime,
        .add 0 1 1003 [0], .ship].foldlM VisiSubscriber.step s = some s' ∧
      ¬ RightTime s'.genesisTime s'.baseBucketSizeCycles 1 s'.sent := by
  have hgood := good_started_one
  obtain ⟨b, hb⟩ := exists_add (show 1 < 1003 by decide) (by decide)
  obtain ⟨hgood', hsame, hend⟩ := hgood.add_keeps hb
  obtain ⟨-, events, htold, hevents⟩ := hgood.follows_add hb
  have hdefined : ∀ k, BucketEvent.undefinedBucket k ∉ events := by
    intro k hk
    simp only [FoldingBucketer.add, do_eq_some, check_eq_some] at hb
    obtain ⟨_, -, _, -, _, -, b₁, hblanks, _, -, haddTo⟩ := hb
    obtain rfl := Option.some.inj hblanks
    exact not_mem_nil (hgood.defined_addTo haddTo (htold ▸ mem_append_right _ hk))
  obtain ⟨pending, buffer, hrun, hahead⟩ :=
    processEvents_twoCurves (b := b) hdefined false [] (.inl rfl) hevents
  -- the buckets that the first curve has in the end
  have hwrong : ∃ d ∈ buffer, ¬ d.Denotes 1 1 := by
    have hunfinished := hgood'.unfinished
    have hcount := hgood'.count
    rw [hgood'.starts, hgood'.size, hend, hsame.genesis, hsame.base] at hunfinished
    change 1003 < 1 + b.currNumBuckets * (b.currMultipleOfBaseBucketWidth * 1) +
      b.currMultipleOfBaseBucketWidth * 1 at hunfinished
    obtain h | ⟨h, h'⟩ | h := hahead
    · rw [h] at hunfinished
      omega
    · rw [h, h'] at hunfinished
      omega
    · exact h
  obtain ⟨d, hd, hwrong⟩ := hwrong
  have hbuffer : buffer ≠ [] := ne_nil_of_mem hd
  refine ⟨_, { twoCurves b b.currMultipleOfBaseBucketWidth pending [] with
    sent := [.addMetricsResources 0, .addMetricsResources 1, .data buffer] }, rfl, ?_, ?_⟩
  · have hadd : (twoCurves (started 1 1 .proportionalToTime 1) 1 false []).step
        (.add 0 1 1003 [0]) =
          some (twoCurves b b.currMultipleOfBaseBucketWidth pending buffer) := by
      rw [step, add, getCurve_twoCurves, bind_eq_bind, bind_some, hb, bind_eq_bind,
        bind_some, htold]
      exact hrun
    have hship : (twoCurves b b.currMultipleOfBaseBucketWidth pending buffer).step .ship =
        some { twoCurves b b.currMultipleOfBaseBucketWidth pending [] with
          sent := [.addMetricsResources 0, .addMetricsResources 1, .data buffer] } :=
      congrArg some (if_neg hbuffer)
    change ([_, _] ++ [_, _]).foldlM step _ = _
    rw [foldlM_append, foldlM_newCurves, bind_eq_bind, bind_some, foldlM_cons, hadd,
      bind_eq_bind, bind_some, foldlM_cons, hship]
    rfl
  · intro hright
    exact hwrong (hright.1 d hd)

end Ahead

end VisiSubscriber

end Kerninst
